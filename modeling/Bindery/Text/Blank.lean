/-
Text.Blank -- white space

The twenty-five characters with the Unicode property `White_Space`, and trimming
by them.  The zero-width characters and the byte order mark are not among them.
-/

namespace Bindery.Text

def isBlank (c : Char) : Bool :=
  let point := c.toNat
  (0x09 ≤ point && point ≤ 0x0D) || point == 0x20 || point == 0x85 || point == 0xA0 ||
    point == 0x1680 || (0x2000 ≤ point && point ≤ 0x200A) || point == 0x2028 ||
    point == 0x2029 || point == 0x202F || point == 0x205F || point == 0x3000

def trimStart (text : List Char) : List Char :=
  text.dropWhile isBlank

def trimEnd (text : List Char) : List Char :=
  (text.reverse.dropWhile isBlank).reverse

def trim (text : List Char) : List Char :=
  trimEnd (trimStart text)

def isBlankText (text : List Char) : Bool :=
  text.all isBlank

end Bindery.Text
