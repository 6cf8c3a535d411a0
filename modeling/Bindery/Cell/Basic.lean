/-
Cell.Basic -- cells before and after compilation

A source cell is what the notebook holds: a text in some language, a place in the
document and the names it declares.  A compiled cell is a procedure: a body, the
names it reads and the names it defines, with the packages that its imports name.
-/
import Bindery.Notebook.Language
import Bindery.Sorted
import Bindery.Token.Lexer

namespace Bindery

structure SourceCell where
  id : String
  /-- the position in the document, which orders the cells -/
  index : Nat
  language : Language
  source : String
  /-- the names of the `output` attribute, in order -/
  declared : List String
  /-- the source starts like the definition of a view -/
  isView : Bool
  deriving Repr, DecidableEq

inductive CellShape where
  /-- no output -/
  | anonymous
  /-- one output -/
  | single
  /-- a control and its value -/
  | viewPair
  /-- several outputs, returned as one object -/
  | multiple
  deriving Repr, DecidableEq

structure CompiledCell where
  index : Nat
  /-- the names it defines, in order -/
  outputs : List String
  /-- the names it reads, in order of first use -/
  inputs : List String
  /-- the statements of the procedure -/
  body : String
  /-- the packages it imports -/
  packages : NameSet
  /-- the versions it pins, by package -/
  versions : NameMap String
  shape : CellShape
  isAsync : Bool
  isGenerator : Bool
  deriving Repr, DecidableEq

def CompiledCell.viewValue? (cell : CompiledCell) : Option String :=
  match cell.shape with
  | .viewPair => cell.outputs[1]?
  | _ => none

/-- Why a cell's source is not understood. -/
inductive SyntaxFault where
  | lexing (error : LexError)
  /-- a static import that cannot be read, by its byte offset -/
  | malformedImport (start : Nat)
  deriving Repr, DecidableEq

def SyntaxFault.message : SyntaxFault → String
  | .lexing error => error.message
  | .malformedImport start => "malformed import statement at offset " ++ toString start

inductive CellError where
  | unsupportedLanguage (index : Nat) (language : String)
  | badSyntax (index : Nat) (fault : SyntaxFault)
  deriving Repr, DecidableEq

namespace CellError

def index : CellError → Nat
  | .unsupportedLanguage index _ => index
  | .badSyntax index _ => index

def message : CellError → String
  | .unsupportedLanguage index language =>
    "cell " ++ toString index ++ ": unsupported language '" ++ language ++ "'"
  | .badSyntax index fault => "cell " ++ toString index ++ ": syntax error: " ++ fault.message

def hint : CellError → String
  | .unsupportedLanguage _ _ =>
    "the cell was skipped; use a JavaScript, Markdown, HTML or TeX cell"
  | .badSyntax _ _ => "the cell was skipped; check for unterminated strings or comments"

end CellError

end Bindery
