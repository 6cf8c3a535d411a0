/-
Main -- the program

The command line is read and run on the computer's own disk.  A watch looks at its
inputs again and again, and builds those whose files were written since.
-/
import Bindery.Command.Run

namespace Bindery.Main

open Command

def errorOfCode (code : UInt32) (details : String) : DiskError :=
  match code.toNat with
  | 2 => .notFound
  | 17 => .alreadyExists
  | 20 => .notDirectory
  | 21 => .isDirectory
  | 36 => .nameTooLong
  | other => .other (details ++ " (os error " ++ toString other ++ ")")

def diskError (error : IO.Error) : DiskError :=
  match error with
  | .noFileOrDirectory _ code details => errorOfCode code details
  | .alreadyExists _ code details => errorOfCode code details
  | .inappropriateType _ code details => errorOfCode code details
  | .invalidArgument _ code details => errorOfCode code details
  | .permissionDenied _ code details => errorOfCode code details
  | .resourceExhausted _ code details => errorOfCode code details
  | .otherError code details => errorOfCode code details
  | .resourceBusy code details => errorOfCode code details
  | .unsupportedOperation code details => errorOfCode code details
  | .userError reason => .other reason
  | other => .other (toString other)

def attempt {α : Type} (action : IO α) : IO (Except DiskError α) := do
  try
    return .ok (← action)
  catch error =>
    return .error (diskError error)

def isDirectory (path : String) : IO Bool :=
  (System.mkFilePath [path]).isDir

def isFile (path : String) : IO Bool := do
  return (← (System.mkFilePath [path]).pathExists) && !(← isDirectory path)

def readText (path : String) : IO (Except DiskError String) := do
  if ← isDirectory path then return .error .isDirectory
  match ← attempt (IO.FS.readBinFile path) with
  | .error error => return .error error
  | .ok bytes =>
    match String.fromUTF8? bytes with
    | some text => return .ok text
    | none => return .error .notText

def subdirectories (path : String) : IO (List String) := do
  match ← attempt (System.mkFilePath [path]).readDir with
  | .error _ => return []
  | .ok entries =>
    let directories ← entries.filterM fun entry => isDirectory (Path.join path entry.fileName)
    return directories.toList.map (·.fileName)

def disk : Disk IO where
  read := readText
  write path text := attempt (IO.FS.writeFile path text)
  makeDirectory path := attempt (IO.FS.createDir path)
  isFile := isFile
  isDirectory := isDirectory
  subdirectories := subdirectories
  canonical path := attempt do return (← IO.FS.realPath path).toString

def printOutput (output : Output) : IO Unit := do
  IO.print output.out
  (← IO.getStdout).flush
  IO.eprint output.err

def writtenAt (path : String) : IO (Option IO.FS.SystemTime) := do
  match ← attempt (System.mkFilePath [path]).metadata with
  | .ok found => return some found.modified
  | .error _ => return none

partial def watch (setting : Setting) (request : BuildRequest)
    (seen : List (String × Option IO.FS.SystemTime)) : IO Unit := do
  IO.sleep 200
  let now ← seen.mapM fun entry => do return (entry.1, ← writtenAt entry.1)
  for (before, after) in seen.zip now do
    if before.2 != after.2 then
      if after.2.isSome then
        IO.println ("\n" ++ yellow ++ after.1 ++ " changed, rebuilding..." ++ reset)
        printOutput (← runWatched disk setting request [after.1])
      else
        IO.eprintln ("\n" ++ yellow ++ "Warning:" ++ reset ++ " Notebook file removed: " ++ after.1)
  watch setting request now

def watchOn (setting : Setting) (request : BuildRequest) : IO Unit := do
  match ← request.prepare disk setting with
  | .error _ => return ()
  | .ok inputs =>
    watch setting request (← inputs.mapM fun input => do return (input, ← writtenAt input))

def runArguments (arguments : List String) : IO UInt32 := do
  let setting : Setting :=
    ⟨(← IO.currentDir).toString, ← IO.getEnv Workspace.rootVariable⟩
  match parse arguments with
  | .error fault =>
    printOutput (refused fault)
    return 2
  | .ok command =>
    let output ← run disk setting command
    printOutput output
    match command with
    | .watch request => if output.exit = 0 then watchOn setting request
    | _ => pure ()
    return UInt32.ofNat output.exit

end Bindery.Main

def main (arguments : List String) : IO UInt32 :=
  Bindery.Main.runArguments arguments
