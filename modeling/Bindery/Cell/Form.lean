/-
Cell.Form -- what a script cell is

A script cell is a definition, the definition of a view, a block, a single
expression or a program.  Which one it is depends on its first tokens and on
whether the rest holds more than one statement: a statement ends at a semicolon,
or at a line break between an operand and a token that can start a statement.
-/
import Bindery.Token.Brackets

namespace Bindery

/-- What a script cell is.  Indices are those of tokens. -/
inductive Form where
  | empty
  /-- `NAME = expression` -/
  | named (name : String) (expression : Nat)
  /-- `viewof NAME = expression` -/
  | view (name : String) (expression : Nat)
  /-- a lone pair of braces -/
  | block (opener closer : Nat)
  | expression
  | program
  deriving Repr, DecidableEq

namespace Form

def isLast (seq : TokenSeq) (index : Nat) : Bool :=
  index + 1 == seq.size || (index + 2 == seq.size && seq.punctAt (index + 1) ";")

def startsStatement (token : Token) : Bool :=
  match token.kind with
  | .ident | .number | .string | .privateName => true
  | .keyword => token.text != "in" && token.text != "instanceof"
  | _ => false

def endsBefore (seq : TokenSeq) (start index : Nat) (token : Token) : Bool :=
  (token.isPunct ";" && !isLast seq (index - 1)) ||
    (start < index && token.newlineBefore && startsStatement token &&
      seq.prevHolds index Token.endsOperand)

/-- Whether the tokens from `start` on hold one expression, looking on from
`index`. -/
def isSingleFrom (seq : TokenSeq) (start index : Nat) : Bool :=
  match _here : seq.get? index with
  | none => true
  | some token =>
    if endsBefore seq start index token then false
    else isSingleFrom seq start (seq.skip index)
  termination_by seq.size - index
  decreasing_by
    have := TokenSeq.lt_of_get? _here
    have := seq.lt_skip index
    omega

def isSingleExpression (seq : TokenSeq) (start : Nat) : Bool :=
  isSingleFrom seq start start

def loneBlock? (seq : TokenSeq) (index : Nat) : Option Nat :=
  if seq.punctAt index openBrace then (seq.closer? index).filter (isLast seq) else none

def statementKeywords : List String :=
  ["const", "let", "var", "function", "class", "if", "for", "while", "do", "try", "switch",
    "throw", "return", "export", "break", "continue", "debugger", "with"]

def startsProgram (seq : TokenSeq) (first : Token) : Bool :=
  let next := seq.get? 1
  (first.kind == .keyword &&
    (statementKeywords.contains first.text ||
      (first.text == "import" && !next.any (fun token => token.isPunct "(" || token.isPunct ".")))) ||
    (first.isIdent "async" && next.any (·.isKeyword "function")) ||
    (first.kind == .ident && next.any (·.isPunct ":"))

/-- What a script cell is.  The form of a view asks for a cell that the notebook
took for one. -/
def detect (seq : TokenSeq) (isView : Bool) : Form :=
  match seq.get? 0 with
  | none => .empty
  | some first =>
    match (seq.get? 1).filter (fun name =>
        isView && first.isIdent "viewof" && name.kind == .ident && seq.punctAt 2 "=" &&
          3 < seq.size && isSingleExpression seq 3) with
    | some name => .view name.text 3
    | none =>
      if first.kind = .ident ∧ seq.punctAt 1 "=" ∧ 2 < seq.size ∧ isSingleExpression seq 2 then
        .named first.text 2
      else match loneBlock? seq 0 with
        | some closer => .block 0 closer
        | none =>
          if !startsProgram seq first && isSingleExpression seq 0 then .expression
          else .program

end Form

end Bindery
