/-
Build.Basic -- from a notebook file to a library directory

A build reads the notebook, generates its library and writes it.  Nothing is written
before the library is generated.  A manifest that is already there is merged with the
generated one if it can be read, and a readme that is already there is kept.
-/
import Bindery.Build.Error
import Bindery.Build.Workspace
import Bindery.Cell.Markup

namespace Bindery

structure BuildOptions where
  /-- the directory that relative paths start from -/
  directory : String
  /-- where the library goes; by default it goes to a directory of its own name -/
  out : Option String := none
  /-- the name of the library; by default it comes from the notebook's title -/
  name : Option String := none
  /-- whether packages are linked to the local workspace -/
  linkWorkspace : Bool := true
  /-- the root of the workspace; by default it is searched -/
  workspaceRoot : Option String := none
  /-- the root of the workspace that the environment names -/
  namedRoot : Option String := none
  /-- the range of packages that nothing else fixes -/
  range : String := defaultRange
  deriving Repr, DecidableEq

structure BuildReport where
  libraryName : String
  out : String
  cellsTotal : Nat
  cellsCompiled : Nat
  /-- the cells that were left out -/
  cellErrors : List CellError
  dependencies : NameMap String
  /-- whether a manifest was there and merged -/
  manifestMerged : Bool
  readmeWritten : Bool
  deriving Repr, DecidableEq

def BuildReport.isComplete (report : BuildReport) : Bool :=
  report.cellErrors.isEmpty

namespace Build

variable {m : Type → Type} [Monad m]

def onDisk {α : Type} (action : m (Except DiskError α)) : ExceptT Error m α :=
  ExceptT.mk do
    match ← action with
    | .ok value => return .ok value
    | .error error => return .error (.disk error)

def readNotebook (disk : Disk m) (path : String) : ExceptT Error m Notebook := do
  let text ← onDisk (disk.read path)
  match Notebook.parse text with
  | .ok notebook => return notebook
  | .error fault => throw (.document fault)

def linkable (disk : Disk m) (options : BuildOptions) : m NameSet := do
  if !options.linkWorkspace then return []
  let root ← match options.workspaceRoot with
    | some root => pure (some root)
    | none => Workspace.findRoot? disk options.namedRoot options.directory
  match root with
  | some root => Workspace.packages disk root
  | none => return []

/-- Generate the library of a notebook, with the errors of the cells that are left
out. -/
def generate (notebook : Notebook) (name : String) (workspace : NameSet) (range : String) :
    Except Error (Library × List CellError) :=
  let (cells, errors) := compileAll notebook.cells
  match Library.generate cells name workspace range with
  | .ok library => .ok (library, errors)
  | .error refusal => .error (.library refusal)

/-- The manifest that is already there; one that cannot be read counts as absent. -/
def existingManifest? (disk : Disk m) (path : String) : m (Option Json.Value) := do
  match ← disk.read path with
  | .ok text => return Json.parse? text
  | .error _ => return none

def manifestValue (library : Library) : Option Json.Value → Json.Value
  | some existing => library.manifest.mergeInto existing
  | none => library.manifest.toValue

/-- The name that a library is published under: the one in its manifest, or its own. -/
def packageName (library : Library) (manifest : Json.Value) : String :=
  ((manifest.member? "name").bind Json.Value.string?).getD library.manifest.name

/-- Write a library to a directory.  Says whether a manifest was merged and whether
the readme was written. -/
def writeLibrary (disk : Disk m) (library : Library) (out : String) :
    ExceptT Error m (Bool × Bool) := do
  let source := Path.join out "src"
  onDisk (disk.makeDirectories source)
  onDisk (disk.write (Path.join source "define.js") library.moduleText)
  onDisk (disk.write (Path.join source "runtime.js") runtimeText)
  onDisk (disk.write (Path.join source "index.js") entryText)
  let manifestPath := Path.join out "package.json"
  let existing ← ExceptT.lift (existingManifest? disk manifestPath)
  let manifest := manifestValue library existing
  onDisk (disk.write manifestPath (Json.render manifest))
  let readmePath := Path.join out "README.md"
  if ← ExceptT.lift (disk.isPresent readmePath) then return (existing.isSome, false)
  onDisk (disk.write readmePath (renderReadme (packageName library manifest) library.module))
  return (existing.isSome, true)

def run (disk : Disk m) (input : String) (options : BuildOptions) :
    ExceptT Error m BuildReport := do
  let notebook ← readNotebook disk (Path.join options.directory input)
  let name := options.name.getD notebook.libraryName
  let workspace ← ExceptT.lift (linkable disk options)
  match generate notebook name workspace options.range with
  | .error error => throw error
  | .ok (library, errors) =>
    let out := Path.join options.directory (options.out.getD name)
    let (merged, written) ← writeLibrary disk library out
    return {
      libraryName := name
      out := out
      cellsTotal := notebook.cells.length
      cellsCompiled := library.module.cells.length
      cellErrors := errors
      dependencies := library.manifest.dependencies
      manifestMerged := merged
      readmeWritten := written }

end Build

end Bindery
