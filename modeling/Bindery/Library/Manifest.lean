/-
Library.Manifest -- the packages of a library

The manifest says what the library is called and which packages it needs, each with
a version range.  A range comes from the first of these that has one: the last
version that a cell pins, the local workspace, the packages that every library needs,
and the default.

A manifest that is already there is kept: `Manifest.mergeInto` fills in what is
missing, and changes the range of a package only to link it to the workspace.
-/
import Bindery.Json.Printer
import Bindery.Library.Outputs
import Bindery.Text.Affix

namespace Bindery

def runtimePackages : NameMap String :=
  [("@observablehq/inputs", "^0.12.0"), ("@observablehq/inspector", "^5.0.1"),
    ("@observablehq/runtime", "^6.0.0"), ("@observablehq/stdlib", "^5.8.8")]

def workspaceRange : String := "workspace:*"

def defaultRange : String := "latest"

def mainEntry : String := "src/index.js"

def importedPackages (cells : List CompiledCell) : NameSet :=
  Sorted.ofList (cells.flatMap (·.packages))

/-- The versions that the cells pin; of two versions of a package the later counts. -/
def pinnedVersions (cells : List CompiledCell) : NameMap String :=
  Table.ofList ((inDocumentOrder cells).flatMap (·.versions))

def rangeOf (pinned : NameMap String) (workspace : List String) (fallback : String)
    (package : String) : String :=
  match pinned.find? package with
  | some version => version
  | none =>
    if workspace.contains package then workspaceRange
    else (runtimePackages.find? package).getD fallback

def collectDependencies (cells : List CompiledCell) (workspace : List String)
    (fallback : String) : NameMap String :=
  let pinned := pinnedVersions cells
  (importedPackages cells).foldl
    (fun found package => found.insert package (rangeOf pinned workspace fallback package))
    runtimePackages

structure Manifest where
  name : String
  dependencies : NameMap String
  deriving Repr, DecidableEq

namespace Manifest

open Json

def dependencyMembers (manifest : Manifest) : Members :=
  manifest.dependencies.map fun entry => (entry.1, .string entry.2)

def toValue (manifest : Manifest) : Value :=
  .object [("name", .string manifest.name), ("version", .string "0.1.0"),
    ("type", .string "module"), ("main", .string mainEntry),
    ("dependencies", .object manifest.dependencyMembers)]

def render (manifest : Manifest) : String :=
  Json.render manifest.toValue

def linksToWorkspace (range : String) : Bool :=
  (Text.stripStart? "workspace:".toList range.toList).isSome

def addDependency (existing : Members) (entry : String × String) : Members :=
  if linksToWorkspace entry.2 || (existing.find? entry.1).isNone then
    existing.insert entry.1 (.string entry.2)
  else existing

def dependenciesIn (existing : Members) : Members :=
  match existing.find? "dependencies" with
  | some (.object members) => members
  | _ => []

/-- An existing manifest, with the generated one merged into it.  A value that is no
object is replaced. -/
def mergeInto (generated : Manifest) : Value → Value
  | .object existing =>
    let typed := Members.insertIfAbsent "type" (.string "module") existing
    let filled := Members.insertIfAbsent "main" (.string mainEntry) typed
    let merged := generated.dependencies.foldl addDependency (dependenciesIn existing)
    .object (Members.insert "dependencies" (.object merged) filled)
  | _ => generated.toValue

end Manifest

end Bindery
