/-
Library.Module -- the module that defines the cells

The module is a function that defines one variable after the other, in the order of
the document.  A cell becomes one `Definition` or several, by its shape: a view is
defined with its value, and a cell with several outputs is defined once under a
hidden name, from which each output takes its part.  An observer is asked for every
variable except the hidden ones.

Beside the function stands a directory of the cells, from which a page can tell what
can be placed where.
-/
import Bindery.Json.Quote
import Bindery.Library.Outputs
import Bindery.Name.View

namespace Bindery

open Text

structure CellDefinition where
  index : Nat
  outputs : List String
  /-- the resolved inputs -/
  inputs : List String
  body : String
  shape : CellShape
  isAsync : Bool
  isGenerator : Bool
  deriving Repr, DecidableEq

structure CellEntry where
  index : Nat
  /-- the names that a page may use for the cell -/
  names : List String
  /-- the names that the cell defines -/
  outputs : List String
  deriving Repr, DecidableEq

structure Module where
  libraryName : String
  cells : List CellDefinition
  directory : List CellEntry
  deriving Repr, DecidableEq

def CompiledCell.toDefinition (cell : CompiledCell) : CellDefinition :=
  { index := cell.index
    outputs := cell.outputs
    inputs := cell.inputs
    body := cell.body
    shape := cell.shape
    isAsync := cell.isAsync
    isGenerator := cell.isGenerator }

def CompiledCell.toEntry (cell : CompiledCell) : CellEntry :=
  ⟨cell.index, cell.outputs, cell.outputs⟩

def Module.ofCells (libraryName : String) (cells : List CompiledCell) : Module :=
  { libraryName := libraryName
    cells := (inDocumentOrder cells).map CompiledCell.toDefinition
    directory := (inDocumentOrder cells).map CompiledCell.toEntry }

def Module.outputNames (module : Module) : List String :=
  module.cells.flatMap (·.outputs)

def hiddenName (index : Nat) : String :=
  "cell " ++ toString index

inductive Computation where
  /-- a procedure with parameters and a body -/
  | procedure (isAsync isGenerator : Bool) (parameters : List String) (body : String)
  /-- the stream of values of a control -/
  | valueOfControl
  /-- one member of an object -/
  | member (name : String)
  deriving Repr, DecidableEq

inductive Definition where
  /-- a variable that an observer is asked for, with or without a name -/
  | observed (name : Option String) (inputs : List String) (computation : Computation)
  /-- a variable that no observer sees -/
  | hidden (name : String) (inputs : List String) (computation : Computation)
  deriving Repr, DecidableEq

def CellDefinition.procedure (cell : CellDefinition) : Computation :=
  .procedure cell.isAsync cell.isGenerator (cell.inputs.map parameterName) cell.body

/-- The variables of a cell; none if its shape asks for an output that it has not. -/
def CellDefinition.definitions? (cell : CellDefinition) : Option (List Definition) :=
  match cell.shape, cell.outputs with
  | .anonymous, _ => some [.observed none cell.inputs cell.procedure]
  | .single, name :: _ => some [.observed (some name) cell.inputs cell.procedure]
  | .viewPair, control :: value :: _ =>
    some [.observed (some control) cell.inputs cell.procedure,
      .observed (some value) ["Generators", control] .valueOfControl]
  | .multiple, names =>
    let whole := hiddenName cell.index
    some (.hidden whole cell.inputs cell.procedure ::
      names.map fun name => .observed (some name) [whole] (.member name))
  | _, _ => none

def procedureKeyword : Bool → Bool → String
  | true, true => "async function*"
  | true, false => "async function"
  | false, true => "function*"
  | false, false => "function"

/-- A computation as text.  The body stands as it is, since the text inside its
templates counts to the last blank; a body of blanks is left out. -/
def Computation.render : Computation → String
  | .procedure isAsync isGenerator parameters body =>
    let head := procedureKeyword isAsync isGenerator ++ "(" ++ ", ".intercalate parameters ++ ") \x7b"
    if (trim body.toList).isEmpty then head ++ "\x7d" else head ++ "\n" ++ body ++ "\n\x7d"
  | .valueOfControl => "(G, _) => G.input(_)"
  | .member name => "(_) => _[" ++ Json.quote name ++ "]"

def Definition.render : Definition → String
  | .observed none inputs computation =>
    "  main.variable(observer()).define(" ++ Json.quoteList inputs ++ ", " ++
      computation.render ++ ");\n"
  | .observed (some name) inputs computation =>
    "  main.variable(observer(" ++ Json.quote name ++ ")).define(" ++ Json.quote name ++ ", " ++
      Json.quoteList inputs ++ ", " ++ computation.render ++ ");\n"
  | .hidden name inputs computation =>
    "  main.define(" ++ Json.quote name ++ ", " ++ Json.quoteList inputs ++ ", " ++
      computation.render ++ ");\n"

def CellEntry.render (entry : CellEntry) : String :=
  "  \x7bindex: " ++ toString entry.index ++ ", names: " ++ Json.quoteList entry.names ++
    ", outputs: " ++ Json.quoteList entry.outputs ++ "\x7d,\n"

def CellDefinition.render? (cell : CellDefinition) : Option String :=
  cell.definitions?.map fun definitions => "\n" ++ String.join (definitions.map Definition.render)

/-- The text of a module; none if a cell lacks an output that its shape asks for. -/
def Module.render? (module : Module) : Option String := do
  let cells ← module.cells.mapM CellDefinition.render?
  return "// Generated by tessera from the \"" ++ module.libraryName ++
    "\" notebook. Do not edit.\n\n" ++
    "export const cells = [\n" ++ String.join (module.directory.map CellEntry.render) ++ "];\n\n" ++
    "export default function define(runtime, observer) \x7b\n" ++
    "  const main = runtime.module();\n" ++ String.join cells ++
    "  return main;\n\x7d\n"

end Bindery
