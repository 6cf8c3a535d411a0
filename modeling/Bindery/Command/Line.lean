/-
Command.Line -- the commands

`build` generates the libraries of one or more notebooks, and `plan` shows where the
outputs of a notebook would be placed on a page.
-/
import Bindery.Command.Arguments

namespace Bindery.Command

structure BuildRequest where
  inputs : List String
  /-- the output directory, or with several inputs the parent of each library -/
  out : Option String
  name : Option String
  linkWorkspace : Bool
  deriving Repr, DecidableEq

structure PlanRequest where
  input : String
  targets : List String
  appendUnmatched : Bool
  json : Bool
  deriving Repr, DecidableEq

inductive Request where
  | build (request : BuildRequest)
  /-- build again whenever an input changes -/
  | watch (request : BuildRequest)
  | plan (request : PlanRequest)
  | help
  | version
  deriving Repr, DecidableEq

def commonOptions : List OptionSpec :=
  [⟨"verbose", some 'v', .flag⟩, ⟨"help", some 'h', .help⟩]

def frontOptions : List OptionSpec :=
  ⟨"version", some 'V', .version⟩ :: commonOptions

def buildOptions : List OptionSpec :=
  [⟨"out", some 'o', .value⟩, ⟨"name", none, .value⟩, ⟨"watch", some 'w', .flag⟩,
    ⟨"no-workspace", none, .flag⟩] ++ commonOptions

def planOptions : List OptionSpec :=
  [⟨"target", some 't', .values⟩, ⟨"append-unmatched", none, .flag⟩, ⟨"json", none, .flag⟩] ++
    commonOptions

def buildOf (reading : Reading) : Except Stop Request :=
  if reading.operands.isEmpty then .error (.fault .missingInput)
  else
    let request : BuildRequest :=
      { inputs := reading.operands
        out := (reading.values "out").head?
        name := (reading.values "name").head?
        linkWorkspace := !reading.has "no-workspace" }
    .ok (if reading.has "watch" then .watch request else .build request)

def planOf (reading : Reading) : Except Stop Request :=
  match reading.operands.head? with
  | none => .error (.fault .missingInput)
  | some input =>
    .ok (.plan {
      input := input
      targets := reading.values "target"
      appendUnmatched := reading.has "append-unmatched"
      json := reading.has "json" })

def named (name : String) (arguments : List String) : Except Stop Request :=
  match name with
  | "build" => (Reading.steps buildOptions none {} arguments).bind buildOf
  | "plan" => (Reading.steps planOptions (some 1) {} arguments).bind planOf
  | "help" =>
    match arguments with
    | [] | ["build"] | ["plan"] | ["help"] => .error .help
    | argument :: _ => .error (.fault (.unexpected argument))
  | other => .error (.fault (.unexpected other))

def parseFrom : Reading → List String → Except Stop Request
  | _, [] => .error (.fault .missingCommand)
  | reading, argument :: rest =>
    match argument.toList with
    | '-' :: c :: text =>
      match reading.dashed frontOptions (c :: text) with
      | .error stop => .error stop
      | .ok reading =>
        if reading.optionsEnded then .error (.fault .missingCommand)
        else parseFrom reading rest
    | _ => named argument rest

def parse (arguments : List String) : Except UsageFault Request :=
  match parseFrom {} arguments with
  | .ok command => .ok command
  | .error .help => .ok .help
  | .error .version => .ok .version
  | .error (.fault fault) => .error fault

end Bindery.Command
