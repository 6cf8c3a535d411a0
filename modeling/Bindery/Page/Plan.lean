/-
Page.Plan -- where the outputs of a module would go

A plan mounts the module on a page of its own, which holds one target for each given
name, and says of every request where its output lands.
-/
import Bindery.Page.Mount

namespace Bindery

/-- Where an output lands, with the label of the element. -/
inductive PlannedPlacement where
  | target (label : String)
  | appended (label : String)
  | evaluated
  | suppressed
  deriving Repr, DecidableEq

def PlannedPlacement.message : PlannedPlacement → String
  | .target label => label
  | .appended label => label
  | .evaluated => "evaluated, not rendered"
  | .suppressed => "suppressed"

structure PlanEntry where
  cell : Option Nat
  output : Option String
  placement : PlannedPlacement
  deriving Repr, DecidableEq

def Outcome.planned (page : Page) : Outcome → PlannedPlacement
  | .rendered element => .target (page.label element)
  | .appended element => .appended (page.label element)
  | .evaluated => .evaluated
  | .suppressed => .suppressed

def planPage (targets : List String) : ElementId × Page :=
  let page := targets.foldl (fun page name => (page.target name).2) Page.empty
  (page.nextId, page.add (some Page.body) none "container")

def plan (module : Module) (targets : List String) (appendUnmatched : Bool) :
    Except MountError (List PlanEntry) :=
  let (container, page) := planPage targets
  let attempt := mount page (some container) {} module { appendUnmatched := appendUnmatched }
  attempt.result.map fun mounted =>
    mounted.bindings.map fun binding =>
      ⟨binding.cell, binding.output, binding.outcome.planned attempt.page⟩

namespace Plan

def find? (entries : List PlanEntry) (name : String) : Option PlanEntry :=
  entries.find? (·.output == some name)

def isRendered (entry : PlanEntry) : Bool :=
  match entry.placement with
  | .target _ | .appended _ => true
  | .evaluated | .suppressed => false

def rendered (entries : List PlanEntry) : Nat :=
  entries.countP isRendered

def padded (width : Nat) (text : String) : String :=
  text ++ String.ofList (List.replicate (width - text.length) ' ')

def line (entry : PlanEntry) : String :=
  let cell := entry.cell.elim "cell ?" fun index => "cell " ++ toString index
  let output := entry.output.getD "(anonymous)"
  padded 8 cell ++ " " ++ padded 24 output ++ " -> " ++ entry.placement.message ++ "\n"

def render (entries : List PlanEntry) : String :=
  String.join (entries.map line)

end Plan

end Bindery
