/-
Disk.Basic -- what the program asks of a disk

Everything that reads or writes files is written against a record of operations, so
the same steps run on the computer's disk and on a tree of files that is a value.
-/
import Bindery.Disk.Path

namespace Bindery

inductive DiskError where
  | notFound
  | alreadyExists
  | notDirectory
  | isDirectory
  | nameTooLong
  /-- a name holds the character with code zero -/
  | zeroInName
  /-- a file does not hold text -/
  | notText
  /-- any other failure, in the words of the system -/
  | other (reason : String)
  deriving Repr, DecidableEq

def DiskError.message : DiskError → String
  | .notFound => "No such file or directory (os error 2)"
  | .alreadyExists => "File exists (os error 17)"
  | .notDirectory => "Not a directory (os error 20)"
  | .isDirectory => "Is a directory (os error 21)"
  | .nameTooLong => "File name too long (os error 36)"
  | .zeroInName => "file name contained an unexpected NUL byte"
  | .notText => "stream did not contain valid UTF-8"
  | .other reason => reason

structure Disk (m : Type → Type) where
  /-- the text of a file -/
  read : String → m (Except DiskError String)
  /-- write a file, in place of the one that is there -/
  write : String → String → m (Except DiskError Unit)
  /-- make a directory below one that is there -/
  makeDirectory : String → m (Except DiskError Unit)
  isFile : String → m Bool
  isDirectory : String → m Bool
  /-- the names of the directories in a directory; none if it cannot be read -/
  subdirectories : String → m (List String)
  /-- the path of a file or directory without `.` and `..` -/
  canonical : String → m (Except DiskError String)

namespace Disk

variable {m : Type → Type} [Monad m]

def isPresent (disk : Disk m) (path : String) : m Bool := do
  return (← disk.isFile path) || (← disk.isDirectory path)

/-- Make a directory, given with its ancestors, and the ancestors that are not there. -/
def makeAll (disk : Disk m) : List String → m (Except DiskError Unit)
  | [] => return .error .notFound
  | path :: above => do
      match ← disk.makeDirectory path with
      | .ok _ => return .ok ()
      | .error .notFound =>
        match ← disk.makeAll above with
        | .error error => return .error error
        | .ok _ =>
          match ← disk.makeDirectory path with
          | .ok _ => return .ok ()
          | .error error => return if ← disk.isDirectory path then .ok () else .error error
      | .error error => return if ← disk.isDirectory path then .ok () else .error error

/-- Make a directory and its ancestors, as far as they are not there. -/
def makeDirectories (disk : Disk m) (path : String) : m (Except DiskError Unit) :=
  disk.makeAll (Path.ancestors path)

end Disk

end Bindery
