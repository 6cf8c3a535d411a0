/-
Build.Workspace -- packages that are developed next to the notebook

A workspace is a directory that holds a marker file; its packages live at most three
directories below `packages`.  A directory is a package if its manifest gives it a
name.
-/
import Bindery.Disk.Basic
import Bindery.Json.Parser
import Bindery.Sorted

namespace Bindery.Workspace

def rootVariable : String := "TESSERA_WORKSPACE_ROOT"

def marker : String := "pnpm-workspace.yaml"

/-- How many directories below `packages` are searched. -/
def searchDepth : Nat := 3

def skippedNames : List String := ["node_modules", "dist", "build", ".git"]

def isSearched (name : String) : Bool :=
  name.toList.head? != some '.' && !skippedNames.contains name

variable {m : Type → Type} [Monad m]

def firstMarked? (disk : Disk m) : List String → m (Option String)
  | [] => return none
  | directory :: rest => do
      if ← disk.isFile (Path.join directory marker) then return some directory
      firstMarked? disk rest

/-- The root of the workspace: the directory that the environment names, if there is
one, and otherwise the closest ancestor of the start that holds the marker. -/
def findRoot? (disk : Disk m) (named : Option String) (start : String) : m (Option String) := do
  match named with
  | some directory =>
    if ← disk.isDirectory directory then return some directory
    firstMarked? disk (Path.ancestors start)
  | none => firstMarked? disk (Path.ancestors start)

def nameIn? (manifest : String) : Option String := do
  (← (← Json.parse? manifest).member? "name").string?

def packageName? (disk : Disk m) (directory : String) : m (Option String) := do
  match ← disk.read (Path.join directory "package.json") with
  | .ok manifest => return nameIn? manifest
  | .error _ => return none

def namesBelow (disk : Disk m) : Nat → String → m (List String)
  | 0, directory => return (← packageName? disk directory).toList
  | depth + 1, directory => do
      let here ← packageName? disk directory
      let children := (← disk.subdirectories directory).filter isSearched
      let below ← children.mapM fun child => namesBelow disk depth (Path.join directory child)
      return here.toList ++ below.flatten

def packages (disk : Disk m) (root : String) : m NameSet := do
  let directory := Path.join root "packages"
  if ← disk.isDirectory directory then
    return Sorted.ofList (← namesBelow disk searchDepth directory)
  else return []

end Bindery.Workspace
