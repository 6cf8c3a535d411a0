/-
Page.Mount -- a module that runs on a page

A runtime asks for an observer once for each variable of the module, in order; the
mount answers from its placements and keeps a binding for each answer.  A mount runs
until it is disposed of, and afterwards answers every request by suppressing it.

The runtime here defines nothing: it keeps the requests it makes and the answers it
gets, and how often it was disposed of.  It may be told to refuse the module.
-/
import Bindery.Page.Placement

namespace Bindery

inductive Observer where
  /-- it shows the value in an element -/
  | inspect (element : ElementId)
  /-- it computes the value -/
  | evaluate
  /-- it does neither -/
  | suppress
  deriving Repr, DecidableEq

inductive Outcome where
  /-- shown in a target -/
  | rendered (element : ElementId)
  /-- shown in a new element of the container -/
  | appended (element : ElementId)
  | evaluated
  | suppressed
  deriving Repr, DecidableEq

structure MountBinding where
  /-- the cell that defines the output, if one does -/
  cell : Option Nat
  /-- the output; none for a cell without outputs -/
  output : Option String
  outcome : Outcome
  deriving Repr, DecidableEq

inductive Phase where
  | running
  | disposed
  deriving Repr, DecidableEq

structure Mount where
  placements : Placements
  container : ElementId
  /-- every answered request, in order -/
  bindings : List MountBinding
  phase : Phase
  deriving Repr, DecidableEq

namespace Mount

/-- The cell and placement of a request, and the mount with the request taken off its
queue if it has no name. -/
def resolve (mount : Mount) : Option String → (Option Nat × Placement) × Mount
  | some name => ((mount.placements.owner? name, mount.placements.placement name), mount)
  | none =>
    let (found, placements) := mount.placements.nextAnonymous
    (found, { mount with placements := placements })

def place (page : Page) (container : ElementId) : Placement → (Observer × Outcome) × Page
  | .renderAt element => ((.inspect element, .rendered element), page)
  | .append =>
    let (element, page) := page.append container
    ((.inspect element, .appended element), page)
  | .evaluate => ((.evaluate, .evaluated), page)
  | .suppress => ((.suppress, .suppressed), page)

def select (mount : Mount) (page : Page) (name : Option String) : Observer × Mount × Page :=
  let ((cell, placement), mount) := mount.resolve name
  let ((observer, outcome), page) := place page mount.container placement
  (observer, { mount with bindings := mount.bindings ++ [⟨cell, name, outcome⟩] }, page)

def observe (mount : Mount) (page : Page) (name : Option String) : Observer × Mount × Page :=
  match mount.phase with
  | .running => mount.select page name
  | .disposed => (.suppress, mount, page)

end Mount

structure Call where
  name : Option String
  observer : Observer
  deriving Repr, DecidableEq

structure Runtime where
  /-- the requests it made, in order -/
  calls : List Call := []
  /-- how often it was disposed of -/
  disposals : Nat := 0
  /-- why it refuses modules, if it does -/
  refusal : Option String := none
  deriving Repr, DecidableEq

def Runtime.dispose (runtime : Runtime) : Runtime :=
  { runtime with disposals := runtime.disposals + 1 }

/-- The requests that a runtime makes for a cell.  The hidden variable of a cell with
several outputs is not observed. -/
def CellDefinition.requests (cell : CellDefinition) : List (Option String) :=
  match cell.shape with
  | .anonymous => [none]
  | .single | .viewPair | .multiple => cell.outputs.map some

def Module.requests (module : Module) : List (Option String) :=
  module.cells.flatMap CellDefinition.requests

def Mount.selectAll (mount : Mount) (page : Page) :
    List (Option String) → List Call × Mount × Page
  | [] => ([], mount, page)
  | name :: rest =>
    let (observer, mount, page) := mount.select page name
    let (calls, mount, page) := mount.selectAll page rest
    (⟨name, observer⟩ :: calls, mount, page)

/-- Why a module is not mounted. -/
inductive MountError where
  | missingContainer
  | detachedContainer
  | refused (reason : String)
  deriving Repr, DecidableEq

def MountError.message : MountError → String
  | .missingContainer => "no container element to mount into"
  | .detachedContainer => "the container element is not attached to the document"
  | .refused reason => "runtime failed to instantiate the module: " ++ reason

structure Attempt where
  page : Page
  runtime : Runtime
  result : Except MountError Mount

def mount (page : Page) (container : Option ElementId) (runtime : Runtime) (module : Module)
    (options : MountOptions) : Attempt :=
  match container with
  | none => ⟨page, runtime, .error .missingContainer⟩
  | some container =>
    if !page.isConnected container then ⟨page, runtime, .error .detachedContainer⟩
    else
      match runtime.refusal with
      | some reason => ⟨page, runtime.dispose, .error (.refused reason)⟩
      | none =>
        let fresh : Mount :=
          { placements := Placements.build page.findTarget? module options
            container := container
            bindings := []
            phase := .running }
        let (calls, mounted, page) := fresh.selectAll page module.requests
        ⟨page, { runtime with calls := runtime.calls ++ calls }, .ok mounted⟩

end Bindery
