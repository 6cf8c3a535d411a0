/-
Token.Basic -- the tokens of a cell's source

A cell is written in JavaScript.  Its tokens carry the text they were read from,
their span in bytes, and whether a line ended in front of them, because a
declaration may end by a line break.  Whether a token ends an operand decides
both that question and whether a following slash divides or opens a regular
expression.
-/

namespace Bindery

def openBrace : String := "\x7b"

def closeBrace : String := "\x7d"

inductive TokenKind where
  | ident
  | keyword
  | punct
  | number
  | string
  | template
  | regex
  | privateName
  deriving Repr, DecidableEq, Inhabited

structure Token where
  kind : TokenKind
  text : String
  start : Nat
  stop : Nat
  newlineBefore : Bool
  deriving Repr, DecidableEq, Inhabited

namespace Token

def isPunct (token : Token) (text : String) : Bool :=
  token.kind == .punct && token.text == text

def isKeyword (token : Token) (text : String) : Bool :=
  token.kind == .keyword && token.text == text

def isIdent (token : Token) (name : String) : Bool :=
  token.kind == .ident && token.text == name

def selects (token : Token) : Bool :=
  token.isPunct "." || token.isPunct "?."

def endsOperand (token : Token) : Bool :=
  match token.kind with
  | .keyword => ["this", "super", "null", "true", "false"].contains token.text
  | .punct => [")", "]", closeBrace, "++", "--"].contains token.text
  | _ => true

/-- The contents of a string literal, escapes of quotes and of the backslash
resolved and every other escape kept as it is written. -/
def unescape : List Char → List Char
  | [] => []
  | '\\' :: c :: rest =>
    if c = '\\' ∨ c = '\x27' ∨ c = '\x22' then c :: unescape rest
    else '\\' :: c :: unescape rest
  | c :: rest => c :: unescape rest

def stringValue? (token : Token) : Option String :=
  if token.kind = .string ∧ 2 ≤ token.text.utf8ByteSize then
    some (String.ofList (unescape (token.text.toList.drop 1).dropLast))
  else none

end Token

def keywords : List String :=
  ["await", "break", "case", "catch", "class", "const", "continue", "debugger", "default",
    "delete", "do", "else", "export", "extends", "false", "finally", "for", "function", "if",
    "import", "in", "instanceof", "let", "new", "null", "return", "super", "switch", "this",
    "throw", "true", "try", "typeof", "var", "void", "while", "with", "yield"]

def isReserved (word : String) : Bool :=
  keywords.contains word

def punctuators : List String :=
  [">>>=", "...", "===", "!==", "**=", "<<=", ">>=", ">>>", "&&=", "||=", "??=", "=>", "==",
    "!=", "<=", ">=", "&&", "||", "??", "?.", "++", "--", "+=", "-=", "*=", "/=", "%=", "&=",
    "|=", "^=", "**", "<<", ">>", openBrace, closeBrace, "(", ")", "[", "]", ";", ",", "<", ">",
    "+", "-", "*", "/", "%", "&", "|", "^", "!", "~", "?", ":", "=", ".", "@"]

end Bindery
