/-
Library.Outputs -- who defines a name and who reads it

The cells of a library share one space of names.  An output belongs to one cell: a
name that two cells define is refused.  An input is resolved if some cell defines it
or the environment provides it; any other input is dropped, and the name is left to
the global scope of the page.
-/
import Bindery.Cell.Basic
import Bindery.Name.Environment

namespace Bindery

def inDocumentOrder (cells : List CompiledCell) : List CompiledCell :=
  cells.mergeSort fun cell other => decide (cell.index ≤ other.index)

def definedNames (cells : List CompiledCell) : List String :=
  cells.flatMap (·.outputs)

def ownersOf (cells : List CompiledCell) (name : String) : List Nat :=
  ((cells.filter (·.outputs.contains name)).map (·.index)).eraseDups

structure DuplicateOutput where
  name : String
  cells : List Nat
  deriving Repr, DecidableEq

def DuplicateOutput.message (duplicate : DuplicateOutput) : String :=
  "output '" ++ duplicate.name ++ "' is defined by more than one cell (cells " ++
    ", ".intercalate (duplicate.cells.map toString) ++ ")"

def duplicateOutput? (cells : List CompiledCell) : Option DuplicateOutput :=
  ((definedNames cells).find? fun name => 1 < (ownersOf cells name).length).map fun name =>
    ⟨name, ownersOf cells name⟩

def isResolved (cells : List CompiledCell) (name : String) : Bool :=
  (definedNames cells).contains name || isEnvironmentName name

def CompiledCell.resolveAmong (cells : List CompiledCell) (cell : CompiledCell) : CompiledCell :=
  { cell with inputs := cell.inputs.filter (isResolved cells) }

def resolveInputs (cells : List CompiledCell) : List CompiledCell :=
  cells.map (CompiledCell.resolveAmong cells)

def CompiledCell.unresolvedAmong (cells : List CompiledCell) (cell : CompiledCell) : List String :=
  cell.inputs.filter fun name => !isResolved cells name

def droppedInputs (cells : List CompiledCell) : Table Nat (List String) :=
  Table.ofList (((cells.map fun cell => (cell.index, cell.unresolvedAmong cells))).filter
    fun entry => !entry.2.isEmpty)

end Bindery
