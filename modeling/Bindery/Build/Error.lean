/-
Build.Error -- everything that can go wrong

An error of a cell leaves out that cell, and the others are built without it.  Every
other error ends the build.
-/
import Bindery.Disk.Basic
import Bindery.Library.Basic
import Bindery.Notebook.Document

namespace Bindery

/-- What can go wrong between a notebook and its library. -/
inductive Error where
  | document (fault : Notebook.DocumentFault)
  | cell (error : CellError)
  | library (refusal : Library.Refusal)
  | disk (error : DiskError)
  deriving Repr, DecidableEq

namespace Error

def message : Error → String
  | .document fault => "malformed notebook document: " ++ fault.message
  | .cell error => error.message
  | .library (.duplicate output) => output.message
  | .library .missingOutput => "a cell lacks an output that its shape asks for"
  | .disk error => "IO error: " ++ error.message

def hint : Error → String
  | .document _ => "the input must be a notebook-kit HTML file with a <notebook> element"
  | .cell error => error.hint
  | .library (.duplicate _) => "rename one of the cells so every output name is unique"
  | .library .missingOutput => "give the cell the outputs of its shape"
  | .disk _ => "check that the paths exist and are writable"

def withHint (error : Error) : String :=
  error.message ++ "\n  hint: " ++ error.hint

def isRecoverable : Error → Bool
  | .cell _ => true
  | .document _ | .library _ | .disk _ => false

def cellIndex? : Error → Option Nat
  | .cell error => some error.index
  | .document _ | .library _ | .disk _ => none

end Error

end Bindery
