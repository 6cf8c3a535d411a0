/-
Library.Basic -- a library from the cells of a notebook

A library is a module, its manifest and the texts of its files.  It is generated from
compiled cells in any order: they are put in document order, their outputs are
checked to be distinct, and their inputs are resolved.
-/
import Bindery.Library.Entry
import Bindery.Library.Manifest
import Bindery.Library.Readme

namespace Bindery

structure Library where
  module : Module
  moduleText : String
  manifest : Manifest
  deriving Repr, DecidableEq

namespace Library

def manifestText (library : Library) : String :=
  library.manifest.render

def readmeText (library : Library) : String :=
  renderReadme library.module.libraryName library.module

/-- Why no library is generated. -/
inductive Refusal where
  | duplicate (output : DuplicateOutput)
  /-- a cell lacks an output that its shape asks for -/
  | missingOutput
  deriving Repr, DecidableEq

def generate (cells : List CompiledCell) (name : String) (workspace : List String)
    (fallback : String) : Except Refusal Library :=
  let ordered := inDocumentOrder cells
  match duplicateOutput? ordered with
  | some output => .error (.duplicate output)
  | none =>
    let resolved := resolveInputs ordered
    let module := Module.ofCells name resolved
    match module.render? with
    | none => .error .missingOutput
    | some moduleText =>
      .ok {
        module := module
        moduleText := moduleText
        manifest := ⟨name, collectDependencies resolved workspace fallback⟩ }

end Library

end Bindery
