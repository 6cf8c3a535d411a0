/-
Library.Cycle -- cells that depend on themselves

A cell depends on the cells whose outputs it reads.  Cells that reach each other in
this way form a component; one with several cells, or with a cell that reads itself,
is a cycle, which the runtime cannot evaluate.  The library is generated all the same,
and the cycles are only reported.

* `mem_reachFrom`: the cells gathered from a list of starts are those that a path
  inside the given cells leads to.
-/
import Bindery.Library.Outputs

namespace Bindery

open List

namespace Cycle

variable {α : Type} [DecidableEq α]

/-- The nodes that can be reached from the pending ones through nodes that remain.
Each step takes one of the remaining nodes away. -/
def reachFrom (next : α → List α) (remaining pending : List α) : List α :=
  match _found : pending.find? remaining.contains with
  | none => []
  | some node => node :: reachFrom next (remaining.erase node) (next node ++ pending)
  termination_by remaining.length
  decreasing_by
    have inside : node ∈ remaining := contains_iff_mem.mp (find?_some _found)
    have shorter := length_erase_of_mem inside
    have := length_pos_of_mem inside
    omega

/-- A node that a path inside `nodes` leads to from one of the starts. -/
inductive Reached (next : α → List α) (nodes starts : List α) : α → Prop where
  | start {node : α} : node ∈ nodes → node ∈ starts → Reached next nodes starts node
  | step {node other : α} : Reached next nodes starts node → other ∈ nodes →
      other ∈ next node → Reached next nodes starts other

theorem reached_of_erase {next : α → List α} {nodes starts : List α} {node other : α}
    (inside : node ∈ nodes) (start : node ∈ starts)
    (reached : Reached next (nodes.erase node) (next node ++ starts) other) :
    Reached next nodes starts other := by
  induction reached with
  | start here given =>
    have here := mem_of_mem_erase here
    rcases mem_append.mp given with follows | given
    · exact .step (.start inside start) here follows
    · exact .start here given
  | step _ here follows ih => exact .step ih (mem_of_mem_erase here) follows

theorem Reached.erase {next : α → List α} {nodes starts : List α} {node other : α}
    (reached : Reached next nodes starts other) (different : other ≠ node) :
    Reached next (nodes.erase node) (next node ++ starts) other := by
  induction reached with
  | start here given =>
    exact .start ((mem_erase_of_ne different).mpr here) (mem_append_right _ given)
  | @step source target _ here follows ih =>
    have here := (mem_erase_of_ne different).mpr here
    by_cases same : source = node
    · subst same
      exact .start here (mem_append_left _ follows)
    · exact .step (ih same) here follows

/-- **Gathering is exact.** -/
theorem mem_reachFrom {next : α → List α} {nodes starts : List α} {node : α} :
    node ∈ reachFrom next nodes starts ↔ Reached next nodes starts node := by
  fun_induction reachFrom next nodes starts with
  | case1 nodes starts found =>
    have none_inside := find?_eq_none.mp found
    constructor
    · simp
    · intro reached
      induction reached with
      | start here given => exact absurd (by simpa using here) (none_inside _ given)
      | step _ _ _ ih => cases ih
  | case2 nodes starts first found ih =>
    have inside : first ∈ nodes := contains_iff_mem.mp (find?_some found)
    have start : first ∈ starts := mem_of_find?_eq_some found
    rw [mem_cons]
    constructor
    · rintro (rfl | later)
      · exact .start inside start
      · exact reached_of_erase inside start (ih.mp later)
    · intro reached
      by_cases same : node = first
      · exact .inl same
      · exact .inr (ih.mpr (reached.erase same))

end Cycle

/-- The cell that an input is read from: the last one that defines the name. -/
def producer? (cells : List CompiledCell) (name : String) : Option Nat :=
  (cells.reverse.find? (·.outputs.contains name)).map (·.index)

def CompiledCell.readsFrom (cells : List CompiledCell) (cell : CompiledCell) : List Nat :=
  cell.inputs.filterMap (producer? cells)

/-- The cells that read an output of the given one. -/
def dependents (cells : List CompiledCell) (index : Nat) : List Nat :=
  Sorted.ofList ((cells.filter fun cell => (cell.readsFrom cells).contains index).map (·.index))

/-- The cells that depend on the given one, directly or through others. -/
def allDependents (cells : List CompiledCell) (index : Nat) : List Nat :=
  Cycle.reachFrom (dependents cells) (cells.map (·.index)).eraseDups (dependents cells index)

/-- The cells that the given one reaches and that reach it, itself included, in
ascending order. -/
def componentOf (cells : List CompiledCell) (index : Nat) : List Nat :=
  Sorted.ofList (index :: (allDependents cells index).filter fun other =>
    (allDependents cells other).contains index)

/-- The strongly connected components of the cells. -/
def components (cells : List CompiledCell) : List (List Nat) :=
  ((cells.map (·.index)).map (componentOf cells)).eraseDups

/-- Whether a component is a cycle: it has more than one cell, or its cell reads one of
its own outputs. -/
def isCycle (cells : List CompiledCell) (component : List Nat) : Bool :=
  1 < component.length ||
    component.head?.any fun index => (dependents cells index).contains index

def CompiledCell.displayName (cell : CompiledCell) : String :=
  cell.outputs.head?.getD ("cell " ++ toString cell.index)

def displayNameOf (cells : List CompiledCell) (index : Nat) : String :=
  ((cells.reverse.find? (·.index == index)).map (·.displayName)).getD ""

/-- The cycles among the components, each in ascending order. -/
def cycleIndices (cells : List CompiledCell) (components : List (List Nat)) : List (List Nat) :=
  (components.filter (isCycle cells)).map (·.mergeSort)

/-- What is reported for the components: the names of the cells of each cycle. -/
def cycleNames (cells : List CompiledCell) (components : List (List Nat)) : List (List String) :=
  ((cycleIndices cells components).map (·.map (displayNameOf cells))).mergeSort
    fun one other => !decide (other < one)

/-- The cycles of the cells, by name. -/
def cycles (cells : List CompiledCell) : List (List String) :=
  cycleNames cells (components cells)

end Bindery
