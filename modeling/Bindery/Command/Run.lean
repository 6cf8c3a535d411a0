/-
Command.Run -- what a command prints and does

A command leaves an exit code and two texts, one for results and one for errors.
Several notebooks are built one after the other; those that fail are reported behind
those that succeed.
-/
import Bindery.Build.Basic
import Bindery.Command.Line
import Bindery.Page.Plan

namespace Bindery.Command

structure Output where
  exit : Nat := 0
  out : String := ""
  err : String := ""
  deriving Repr, DecidableEq

def reset : String := "\x1b[0m"

def bold : String := "\x1b[1m"

def faint : String := "\x1b[2m"

def red : String := "\x1b[31m"

def green : String := "\x1b[32m"

def yellow : String := "\x1b[33m"

def cyan : String := "\x1b[36m"

def rule : String :=
  String.ofList (List.replicate 50 '─') ++ "\n"

def failed (message : String) : Output :=
  { exit := 1, err := "Error: " ++ message ++ "\n" }

structure Setting where
  directory : String
  /-- the root of the workspace that the environment names -/
  namedRoot : Option String
  deriving Repr, DecidableEq

variable {m : Type → Type} [Monad m]

def notFound (input : String) : String :=
  "Notebook not found: " ++ input

def firstMissing? (disk : Disk m) (setting : Setting) : List String → m (Option String)
  | [] => return none
  | input :: rest => do
      if ← disk.isFile (Path.join setting.directory input) then firstMissing? disk setting rest
      else return some input

def BuildRequest.fault? (disk : Disk m) (setting : Setting) (request : BuildRequest) :
    m (Option String) := do
  if request.name.isSome && decide (1 < request.inputs.length) then
    return some "--name can only be used with a single notebook"
  return (← firstMissing? disk setting request.inputs).map notFound

def BuildRequest.outFor (disk : Disk m) (request : BuildRequest) (input : String) :
    ExceptT Error m (Option String) := do
  match request.out with
  | none => return none
  | some out =>
    if request.inputs.length ≤ 1 then return some out
    let text ← Build.onDisk (disk.read input)
    return some (Path.join out (Notebook.libraryNameIn text))

def BuildRequest.buildOne (disk : Disk m) (setting : Setting) (request : BuildRequest)
    (input : String) : ExceptT Error m BuildReport := do
  let out ← request.outFor disk input
  Build.run disk input {
    directory := setting.directory
    out := out
    name := request.name
    linkWorkspace := request.linkWorkspace
    namedRoot := setting.namedRoot }

def reportText (input : String) (report : BuildReport) : String :=
  green ++ "✓" ++ reset ++ " Generated notebook library in " ++ report.out ++ "\n" ++
    "  " ++ faint ++ Path.fileName input ++ ": " ++ toString report.cellsCompiled ++ " of " ++
    toString report.cellsTotal ++ " cells, " ++ toString report.dependencies.length ++
    " dependencies" ++ reset ++ "\n" ++
    String.join (report.cellErrors.map fun error =>
      "  " ++ yellow ++ "skipped:" ++ reset ++ " " ++ error.message ++ "\n") ++
    (if report.manifestMerged then "  merged into existing package.json\n" else "")

def failureText (input : String) (error : Error) : String :=
  red ++ "✗" ++ reset ++ " " ++ input ++ ": " ++ error.withHint ++ "\n"

/-- Build all inputs in order.  Leaves the lines about the libraries, and the inputs
that failed. -/
def BuildRequest.buildAll (disk : Disk m) (setting : Setting) (request : BuildRequest) :
    List String → m (String × List (String × Error))
  | [] => return ("", [])
  | input :: rest => do
      let result ← (request.buildOne disk setting input).run
      let (text, failures) ← buildAll disk setting request rest
      match result with
      | .ok report => return (reportText input report ++ text, failures)
      | .error error => return (text, (input, error) :: failures)

def canonicalInputs (disk : Disk m) (setting : Setting) :
    List String → m (Except DiskError (List String))
  | [] => return .ok []
  | input :: rest => do
      match ← disk.canonical (Path.join setting.directory input) with
      | .error error => return .error error
      | .ok path => return (← canonicalInputs disk setting rest).map (path :: ·)

def BuildRequest.prepare (disk : Disk m) (setting : Setting) (request : BuildRequest) :
    m (Except String (List String)) := do
  match ← request.fault? disk setting with
  | some fault => return .error fault
  | none => return (← canonicalInputs disk setting request.inputs).mapError DiskError.message

def runBuild (disk : Disk m) (setting : Setting) (request : BuildRequest) : m Output := do
  match ← request.prepare disk setting with
  | .error fault => return failed fault
  | .ok inputs =>
    let (text, failures) ← request.buildAll disk setting inputs
    match failures, inputs with
    | [], _ => return { out := text }
    | [(_, error)], [_] => return { failed error.withHint with out := text }
    | _, _ =>
      let summary := toString failures.length ++ " of " ++ toString inputs.length ++
        " notebooks failed to build"
      return {
        exit := 1
        out := text
        err := String.join (failures.map fun (input, error) => failureText input error) ++
          (failed summary).err }

def watchHeader (count : Nat) : String :=
  "\n" ++ bold ++ "Tessera Watch" ++ reset ++ " - " ++ cyan ++ toString count ++
    " notebook(s)" ++ reset ++ "\n" ++ rule ++
    faint ++ "Watching for changes... (Ctrl+C to stop)" ++ reset ++ "\n\n"

/-- Build the inputs of a watch; what fails is reported and the watch goes on. -/
def runWatched (disk : Disk m) (setting : Setting) (request : BuildRequest)
    (inputs : List String) : m Output := do
  let (text, failures) ← request.buildAll disk setting inputs
  return {
    out := text
    err := String.join (failures.map fun (input, error) => failureText input error) }

def placementValue : PlannedPlacement → Json.Value
  | .target label => .object [("kind", .string "target"), ("element", .string label)]
  | .appended label => .object [("kind", .string "appended"), ("element", .string label)]
  | .evaluated => .object [("kind", .string "evaluated")]
  | .suppressed => .object [("kind", .string "suppressed")]

def entryValue (entry : PlanEntry) : Json.Value :=
  .object [("cell", entry.cell.elim .null fun index => .number (.integer index)),
    ("output", entry.output.elim .null .string), ("placement", placementValue entry.placement)]

def planValue (entries : List PlanEntry) : Json.Value :=
  .object [("entries", .array (entries.map entryValue))]

def planText (libraryName : String) (entries : List PlanEntry) (errors : List CellError) : String :=
  "\n" ++ bold ++ "Tessera Plan" ++ reset ++ " - " ++ cyan ++ libraryName ++ reset ++ "\n" ++
    rule ++ Plan.render entries ++ rule ++
    toString (Plan.rendered entries) ++ " of " ++ toString entries.length ++
    " observed outputs rendered\n" ++
    String.join (errors.map fun error =>
      yellow ++ "skipped:" ++ reset ++ " " ++ error.message ++ "\n")

def runPlan (disk : Disk m) (setting : Setting) (request : PlanRequest) : m Output := do
  let path := Path.join setting.directory request.input
  if !(← disk.isFile path) then return failed (notFound request.input)
  match ← (Build.readNotebook disk path).run with
  | .error error => return failed error.withHint
  | .ok notebook =>
    match Build.generate notebook notebook.libraryName [] defaultRange with
    | .error error => return failed error.withHint
    | .ok (library, errors) =>
      match plan library.module request.targets request.appendUnmatched with
      | .error error => return failed error.message
      | .ok entries =>
        if request.json then return { out := Json.render (planValue entries) }
        return { out := planText notebook.libraryName entries errors }

def versionText : String := "tessera 0.1.0\n"

def helpText : String :=
  "Build standalone JavaScript libraries from Observable notebooks\n\n" ++
  "Usage: tessera [-v] build <INPUTS>... [-o OUT] [--name NAME] [-w] [--no-workspace]\n" ++
  "       tessera [-v] plan <INPUT> [-t TARGET]... [--append-unmatched] [--json]\n"

def refused (fault : UsageFault) : Output :=
  { exit := 2, err := "error: " ++ fault.message ++ "\n\n" ++ helpText }

/-- Run a request; a watch is started and its inputs are built once. -/
def run (disk : Disk m) (setting : Setting) : Request → m Output
  | .build request => runBuild disk setting request
  | .watch request => do
      match ← request.prepare disk setting with
      | .error fault => return failed fault
      | .ok inputs =>
        let output ← runWatched disk setting request inputs
        return { output with out := watchHeader inputs.length ++ output.out }
  | .plan request => runPlan disk setting request
  | .help => return { out := helpText }
  | .version => return { out := versionText }

def runLine (disk : Disk m) (setting : Setting) (arguments : List String) : m Output :=
  match parse arguments with
  | .error fault => return refused fault
  | .ok request => run disk setting request

end Bindery.Command
