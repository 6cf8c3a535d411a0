/-
Page.Placement -- where the outputs of a module go

Every output has one placement, fixed before the module is started.  The keys of a
cell are the names in the directory and then the cell's own key.  A cell has at most
one target: the caller's for the first key that the caller maps, and only if there is
none the page's for the first key that the page has a target for.  The target goes to
one output of the cell; the others fall back to what the caller chose for outputs
without a target.  The value of a control is never shown, since its control is.

A cell without outputs waits in a queue, because the runtime asks for it without a
name.
-/
import Bindery.Library.Readme
import Bindery.Page.Basic

namespace Bindery

inductive Placement where
  /-- it is not observed -/
  | suppress
  /-- it is shown in an element of the page -/
  | renderAt (element : ElementId)
  /-- it is shown in a new element at the end of the container -/
  | append
  /-- it is computed and not shown -/
  | evaluate
  deriving Repr, DecidableEq

structure MountOptions where
  /-- targets by key -/
  targets : NameMap ElementId := []
  /-- outputs without a target are shown at the end of the container -/
  appendUnmatched : Bool := false
  /-- outputs without a target are computed -/
  evaluateUnmatched : Bool := false
  deriving Repr, DecidableEq

def MountOptions.fallback (options : MountOptions) : Placement :=
  if options.appendUnmatched then .append
  else if options.evaluateUnmatched then .evaluate
  else .suppress

def CellEntry.keys (entry : CellEntry) : List String :=
  entry.names ++ [cellKey entry.index]

def firstTarget? (find : String → Option ElementId) (keys : List String) :
    Option (String × ElementId) :=
  keys.findSome? fun key => (find key).map (key, ·)

def CellEntry.target? (find : String → Option ElementId) (options : MountOptions)
    (entry : CellEntry) : Option (String × ElementId) :=
  (firstTarget? (options.targets.find? ·) entry.keys).or (firstTarget? find entry.keys)

def Module.suppressedNames (module : Module) : List String :=
  (module.directory.flatMap (·.outputs)).filterMap controlledValue?

def CellEntry.visible (suppressed : List String) (entry : CellEntry) : List String :=
  entry.outputs.filter (!suppressed.contains ·)

/-- The output of a cell that its target goes to: the key that led to the target if
it is an output that can be shown, and the first such output otherwise. -/
def CellEntry.primary? (suppressed : List String) (key : Option String) (entry : CellEntry) :
    Option String :=
  (key.filter (entry.visible suppressed).contains).or (entry.visible suppressed).head?

structure PlacedOutput where
  name : String
  owner : Nat
  placement : Placement
  deriving Repr, DecidableEq

/-- A cell without outputs that the runtime has not asked for yet. -/
structure AnonymousSlot where
  index : Nat
  key : String
  target : Option ElementId
  deriving Repr, DecidableEq

def CellEntry.placementOf (suppressed : List String) (target : Option (String × ElementId))
    (fallback : Placement) (entry : CellEntry) (name : String) : Placement :=
  if suppressed.contains name then .suppress
  else
    match target with
    | some (key, element) =>
      if entry.primary? suppressed (some key) = some name then .renderAt element else fallback
    | none => fallback

def Module.orderedDirectory (module : Module) : List CellEntry :=
  module.directory.mergeSort fun entry other => decide (entry.index ≤ other.index)

structure Placements where
  /-- every output, in order; of two with one name the later counts -/
  outputs : List PlacedOutput
  /-- the names of values that have a control -/
  suppressed : List String
  /-- the cells without outputs that were not asked for yet -/
  anonymous : List AnonymousSlot
  /-- the placement of everything else -/
  fallback : Placement
  deriving Repr, DecidableEq

namespace Placements

def ofEntry (find : String → Option ElementId) (options : MountOptions) (suppressed : List String)
    (entry : CellEntry) : List PlacedOutput :=
  let target := entry.target? find options
  entry.outputs.map fun name =>
    ⟨name, entry.index, entry.placementOf suppressed target options.fallback name⟩

def slotOf (find : String → Option ElementId) (options : MountOptions) (entry : CellEntry) :
    AnonymousSlot :=
  ⟨entry.index, cellKey entry.index, (entry.target? find options).map (·.2)⟩

def build (find : String → Option ElementId) (module : Module) (options : MountOptions) :
    Placements :=
  let suppressed := module.suppressedNames
  let entries := module.orderedDirectory
  { outputs := entries.flatMap (ofEntry find options suppressed)
    suppressed := suppressed
    anonymous := (entries.filter (·.outputs.isEmpty)).map (slotOf find options)
    fallback := options.fallback }

def find? (placements : Placements) (name : String) : Option PlacedOutput :=
  placements.outputs.reverse.find? (·.name == name)

def placement (placements : Placements) (name : String) : Placement :=
  (placements.find? name).elim placements.fallback (·.placement)

def owner? (placements : Placements) (name : String) : Option Nat :=
  (placements.find? name).map (·.owner)

def isSuppressed (placements : Placements) (name : String) : Bool :=
  placements.suppressed.contains name

def nextAnonymous (placements : Placements) : (Option Nat × Placement) × Placements :=
  match placements.anonymous with
  | [] => ((none, placements.fallback), placements)
  | slot :: rest =>
    ((some slot.index, slot.target.elim placements.fallback .renderAt),
      { placements with anonymous := rest })

end Placements

end Bindery
