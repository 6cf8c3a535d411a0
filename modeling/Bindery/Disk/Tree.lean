/-
Disk.Tree -- a tree of files as a value

A tree lists its files and directories by location, the names from the root to the
file; the root itself is always a directory.  A path is followed name by name: each
name is looked up in a directory, so what stands in front of it has to be one.
There are no links and no permissions, and a write to a place that can hold a file
never fails.

* `FileTree.find?_put`: what a tree holds after an entry was put in.
-/
import Bindery.Disk.Basic
import Bindery.Sorted
import Bindery.Text.Bytes

namespace Bindery

inductive Content where
  | text (text : String)
  /-- bytes that are not the code of a text -/
  | binary (bytes : List UInt8)
  deriving Repr, DecidableEq

inductive Entry where
  | directory
  | file (content : Content)
  deriving Repr, DecidableEq

abbrev Location := List String

structure FileTree where
  entries : Table Location Entry
  deriving Repr, DecidableEq

namespace FileTree

def empty : FileTree := ⟨[]⟩

def find? (tree : FileTree) (location : Location) : Option Entry :=
  if location = [] then some .directory else tree.entries.find? location

def put (tree : FileTree) (location : Location) (entry : Entry) : FileTree :=
  ⟨tree.entries.insert location entry⟩

theorem find?_put {tree : FileTree} {location other : Location} {entry : Entry}
    (inside : location ≠ []) :
    (tree.put location entry).find? other =
      if other = location then some entry else tree.find? other := by
  unfold find? put
  by_cases root : other = []
  · subst root
    simp [Ne.symm inside]
  · simp [root, Table.find?_insert]

def longestName : Nat := 255

def longestPath : Nat := 4095

def step (tree : FileTree) (location : Location) (name : String) : Except DiskError Location :=
  match tree.find? location with
  | none => .error .notFound
  | some (.file _) => .error .notDirectory
  | some .directory =>
    if name = "." then .ok location
    else if name = ".." then .ok location.dropLast
    else if longestName < Text.byteLength name.toList then .error .nameTooLong
    else .ok (location ++ [name])

def walk (tree : FileTree) : Location → List String → Except DiskError Location
  | location, [] => .ok location
  | location, name :: rest =>
    match tree.step location name with
    | .error error => .error error
    | .ok next => tree.walk next rest

/-- Where an absolute path leads; there need not be anything at the end of it. -/
def resolve (tree : FileTree) (path : String) : Except DiskError Location :=
  if path.toList.contains '\x00' then .error .zeroInName
  else if longestPath < Text.byteLength path.toList then .error .nameTooLong
  else tree.walk [] (Path.segments path)

def lookup (tree : FileTree) (path : String) : Except DiskError (Location × Entry) :=
  match tree.resolve path with
  | .error error => .error error
  | .ok location =>
    match tree.find? location with
    | none => .error .notFound
    | some entry => .ok (location, entry)

def read (tree : FileTree) (path : String) : Except DiskError String :=
  match tree.lookup path with
  | .error error => .error error
  | .ok (_, .directory) => .error .isDirectory
  | .ok (_, .file (.binary _)) => .error .notText
  | .ok (_, .file (.text text)) => .ok text

def write (tree : FileTree) (path : String) (content : Content) : Except DiskError FileTree :=
  match tree.resolve path with
  | .error error => .error error
  | .ok location =>
    if tree.find? location = some .directory then .error .isDirectory
    else .ok (tree.put location (.file content))

def makeDirectory (tree : FileTree) (path : String) : Except DiskError FileTree :=
  match tree.resolve path with
  | .error error => .error error
  | .ok location =>
    if (tree.find? location).isSome then .error .alreadyExists
    else .ok (tree.put location .directory)

def isFile (tree : FileTree) (path : String) : Bool :=
  match tree.lookup path with
  | .ok (_, .file _) => true
  | _ => false

def isDirectory (tree : FileTree) (path : String) : Bool :=
  match tree.lookup path with
  | .ok (_, .directory) => true
  | _ => false

def nameIn? (directory location : Location) : Option String :=
  if location.dropLast = directory then location.getLast? else none

def subdirectoriesAt (tree : FileTree) (directory : Location) : List String :=
  (tree.entries.filter fun entry => decide (entry.2 = .directory)).filterMap fun entry =>
    nameIn? directory entry.1

def subdirectories (tree : FileTree) (path : String) : List String :=
  match tree.lookup path with
  | .ok (location, .directory) => tree.subdirectoriesAt location
  | _ => []

def pathOf (location : Location) : String :=
  "/" ++ "/".intercalate location

/-- The path of a file or directory without `.` and `..`. -/
def canonical (tree : FileTree) (path : String) : Except DiskError String :=
  match tree.lookup path with
  | .error error => .error error
  | .ok (location, _) => .ok (pathOf location)

def putAbove (tree : FileTree) (location : Location) : FileTree :=
  (List.range location.length).foldl
    (fun tree count =>
      if (tree.find? (location.take count)).isSome then tree
      else tree.put (location.take count) .directory)
    tree

def remove (tree : FileTree) (location : Location) : FileTree :=
  ⟨tree.entries.filter fun entry => !location.isPrefixOf entry.1⟩

def files (tree : FileTree) : List (Location × Content) :=
  tree.entries.filterMap fun entry =>
    match entry.2 with
    | .directory => none
    | .file content => some (entry.1, content)

def attempt (change : FileTree → Except DiskError FileTree) : StateM FileTree (Except DiskError Unit) :=
  fun tree =>
    match change tree with
    | .ok changed => (.ok (), changed)
    | .error error => (.error error, tree)

def disk : Disk (StateM FileTree) where
  read path tree := (tree.read path, tree)
  write path text := attempt (·.write path (.text text))
  makeDirectory path := attempt (·.makeDirectory path)
  isFile path tree := (tree.isFile path, tree)
  isDirectory path tree := (tree.isDirectory path, tree)
  subdirectories path tree := (tree.subdirectories path, tree)
  canonical path tree := (tree.canonical path, tree)

end FileTree

end Bindery
