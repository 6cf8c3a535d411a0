/-
Json.Quote -- a text between double quotes

The written form of a string in JSON, which is also a string literal of the cells'
language.  Escaped are the quote, the backslash and the characters below the
space, five of them by a letter and the others by four hexadecimal digits; every
other character stands for itself.
-/

namespace Bindery.Json

def hexDigit (digit : Nat) : Char :=
  if digit < 10 then Char.ofNat (0x30 + digit) else Char.ofNat (0x57 + digit)

def controlEscape (point : Nat) : List Char :=
  match point with
  | 0x08 => ['\\', 'b']
  | 0x09 => ['\\', 't']
  | 0x0A => ['\\', 'n']
  | 0x0C => ['\\', 'f']
  | 0x0D => ['\\', 'r']
  | _ => ['\\', 'u', '0', '0', hexDigit (point / 16), hexDigit (point % 16)]

def escapeChar (c : Char) : List Char :=
  if c = '\x22' then ['\\', '\x22']
  else if c = '\\' then ['\\', '\\']
  else if c.toNat < 0x20 then controlEscape c.toNat
  else [c]

def escape (text : List Char) : List Char :=
  text.flatMap escapeChar

def quote (text : String) : String :=
  String.ofList ('\x22' :: escape text.toList ++ ['\x22'])

def quoteList (texts : List String) : String :=
  "[" ++ ", ".intercalate (texts.map quote) ++ "]"

end Bindery.Json
