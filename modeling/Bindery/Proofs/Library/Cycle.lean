/-
Proofs.Library.Cycle -- the reported cycles are the cycles

Cells that share no output form a graph: one cell feeds another that reads one of its outputs
(`Feeds`).  Its edges are the dependents, its paths what gathering finds (`mem_allDependents`),
and the components are strongly connected (`stronglyConnected_components`).  Of any components
that are, those with several cells or an edge of a cell to itself hold the cells that reach
themselves (`StronglyConnected.isCycle_iff`).  There is none exactly when the cells can be put in
an order in which each comes behind those it reads from (`Owned.cycleIndices_eq_nil_iff`).
-/
import Bindery.Library.Cycle
import Bindery.Proofs.Library.Ownership
import Mathlib.Data.Finset.Card
import Mathlib.Data.List.Flatten
import Mathlib.Logic.Relation

namespace Bindery

open List
open Relation (TransGen ReflTransGen)

variable {cells : List CompiledCell} {c d : CompiledCell} {i j : Nat} {n : String}

/-- The other cell reads an output of this one. -/
def CompiledCell.Feeds (cell other : CompiledCell) : Prop :=
  ∃ name ∈ cell.outputs, name ∈ other.inputs

/-- Each cell has an index of its own, and no output is shared between cells. -/
structure Owned (cells : List CompiledCell) : Prop where
  indices : (cells.map (·.index)).Nodup
  outputs : ¬ ∃ name, Shared cells name

/-- An edge of the graph, given by indices. -/
def ReadBy (cells : List CompiledCell) (index other : Nat) : Prop :=
  other ∈ dependents cells index

/-- The groups hold each cell once, and a cell stands with those that it reaches and that reach
it. -/
structure StronglyConnected (cells : List CompiledCell) (groups : List (List Nat)) : Prop where
  nodup : groups.flatten.Nodup
  covers : ∀ index, index ∈ groups.flatten ↔ index ∈ cells.map (·.index)
  filled : [] ∉ groups
  together : ∀ group ∈ groups, ∀ index ∈ group, ∀ other, other ∈ group ↔
    ReflTransGen (ReadBy cells) index other ∧ ReflTransGen (ReadBy cells) other index

/-! ## Edges -/

section Edges

variable (owned : Owned cells) (mem : c ∈ cells) (mem' : d ∈ cells)

include owned mem mem' in
theorem Owned.eq_of_index (eq : c.index = d.index) : c = d := inj_on_of_nodup_map owned.indices mem mem' eq

include owned mem mem' in
theorem Owned.eq_of_output (defined : n ∈ c.outputs) (defined' : n ∈ d.outputs) : c = d := by
  refine owned.eq_of_index mem mem' (by_contra fun different => ?_)
  exact owned.outputs ⟨n, c, mem, d, mem', different, defined, defined'⟩

/-- A search from the end finds the cell that it is for. -/
theorem find?_reverse {p : CompiledCell → Bool} (mem : c ∈ cells) (held : p c)
    (only : ∀ d ∈ cells, p d → d = c) : cells.reverse.find? p = some c := by
  obtain ⟨d, got⟩ := Option.isSome_iff_exists.1 (find?_isSome.2 ⟨c, mem_reverse.2 mem, held⟩)
  rw [got, only d (mem_reverse.1 (mem_of_find?_eq_some got)) (find?_some got)]

include owned mem

theorem Owned.producer? : producer? cells n = some c.index ↔ n ∈ c.outputs := by
  constructor
  · intro found
    obtain ⟨d, got, eq⟩ := Option.map_eq_some_iff.1 found
    rw [← owned.eq_of_index (mem_reverse.1 (mem_of_find?_eq_some got)) mem eq]
    simpa using find?_some got
  · intro defined
    rw [Bindery.producer?, find?_reverse mem (by simpa using defined) fun d mem' defined' =>
      owned.eq_of_output mem' mem (by simpa using defined') defined]
    rfl

theorem Owned.displayNameOf : displayNameOf cells c.index = c.displayName := by
  rw [Bindery.displayNameOf, find?_reverse (p := (·.index == c.index)) mem (beq_self_eq_true _) fun d mem' eq =>
    owned.eq_of_index mem' mem (by simpa using eq)]
  rfl

/-- **The dependents of a cell are the cells it feeds.** -/
theorem Owned.readBy : ReadBy cells c.index i ↔ ∃ d ∈ cells, d.index = i ∧ c.Feeds d := by
  have feeds (d : CompiledCell) : (d.readsFrom cells).contains c.index ↔ c.Feeds d := by
    rw [contains_iff_mem, CompiledCell.readsFrom, mem_filterMap]
    simp only [owned.producer? mem]
    exact exists_congr fun n => and_comm
  rw [ReadBy, dependents, Sorted.mem_ofList, mem_map]
  simp only [mem_filter, feeds]
  exact exists_congr fun d => by rw [and_assoc, and_comm (a := c.Feeds d)]

include mem' in
theorem Owned.readBy_index : ReadBy cells c.index d.index ↔ c.Feeds d := by
  rw [owned.readBy mem]
  constructor
  · rintro ⟨e, inside, eq, feeds⟩
    rwa [← owned.eq_of_index inside mem' eq]
  · exact fun feeds => ⟨d, mem', rfl, feeds⟩

end Edges

/-! ## Paths and cycles -/

theorem ReadBy.mem (follows : ReadBy cells i j) : j ∈ cells.map (·.index) := by
  obtain ⟨c, inside, eq⟩ := mem_map.1 (Sorted.mem_ofList.1 follows)
  exact mem_map.2 ⟨c, (mem_filter.1 inside).1, eq⟩

/-- **Gathering the dependents of the dependents finds the paths.** -/
theorem mem_allDependents : j ∈ allDependents cells i ↔ TransGen (ReadBy cells) i j := by
  rw [allDependents, Cycle.mem_reachFrom]
  constructor
  · intro reached
    induction reached with
    | start _ given => exact .single given
    | step _ _ next ih => exact ih.tail next
  · intro path
    induction path with
    | single follows => exact .start (mem_eraseDups.2 follows.mem) follows
    | tail _ follows ih => exact .step ih (mem_eraseDups.2 follows.mem) follows

theorem mem_of_path (path : TransGen (ReadBy cells) i j) : ∃ c ∈ cells, c.index = j := by
  obtain ⟨_, -, follows⟩ := TransGen.tail'_iff.1 path
  exact mem_map.1 follows.mem

theorem mem_componentOf : j ∈ componentOf cells i ↔
    ReflTransGen (ReadBy cells) i j ∧ ReflTransGen (ReadBy cells) j i := by
  rw [componentOf, Sorted.mem_ofList, mem_cons, mem_filter, mem_allDependents, contains_iff_mem,
    mem_allDependents]
  constructor
  · rintro (rfl | ⟨onward, back⟩)
    · exact ⟨.refl, .refl⟩
    · exact ⟨onward.to_reflTransGen, back.to_reflTransGen⟩
  · rintro ⟨onward, back⟩
    by_cases same : j = i
    · exact .inl same
    · exact .inr ⟨(Relation.reflTransGen_iff_eq_or_transGen.1 onward).resolve_left same,
        (Relation.reflTransGen_iff_eq_or_transGen.1 back).resolve_left (Ne.symm same)⟩

theorem componentOf_eq (mem : j ∈ componentOf cells i) : componentOf cells j = componentOf cells i := by
  obtain ⟨onward, back⟩ := mem_componentOf.1 mem
  refine Sorted.eq_of_mem (Sorted.pairwise_ofList _) (Sorted.pairwise_ofList _) fun k => ?_
  rw [mem_componentOf, mem_componentOf]
  exact ⟨fun paths => ⟨onward.trans paths.1, paths.2.trans back⟩,
    fun paths => ⟨back.trans paths.1, paths.2.trans onward⟩⟩

theorem mem_components {group : List Nat} :
    group ∈ components cells ↔ ∃ c ∈ cells, componentOf cells c.index = group := by
  rw [components, mem_eraseDups, map_map, mem_map]
  rfl

/-- **The components are strongly connected.** -/
theorem stronglyConnected_components (cells : List CompiledCell) :
    StronglyConnected cells (components cells) := by
  have itself (i : Nat) : i ∈ componentOf cells i := mem_componentOf.2 ⟨.refl, .refl⟩
  refine ⟨nodup_flatten.2 ⟨fun group known => ?_, ?_⟩, fun i => ?_, fun known => ?_,
    fun group known i mem j => ?_⟩
  · obtain ⟨c, -, rfl⟩ := mem_components.1 known
    exact Sorted.nodup_of_pairwise (Sorted.pairwise_ofList _)
  · refine (Scope.nodup_eraseDups _).imp_of_mem fun known known' different i mem mem' => different ?_
    obtain ⟨_, -, rfl⟩ := mem_components.1 known
    obtain ⟨_, -, rfl⟩ := mem_components.1 known'
    exact (componentOf_eq mem).symm.trans (componentOf_eq mem')
  · rw [mem_flatten, mem_map]
    constructor
    · rintro ⟨group, known, mem⟩
      obtain ⟨c, inside, rfl⟩ := mem_components.1 known
      rcases Relation.reflTransGen_iff_eq_or_transGen.1 (mem_componentOf.1 mem).1 with rfl | path
      · exact ⟨c, inside, rfl⟩
      · exact mem_of_path path
    · rintro ⟨c, inside, rfl⟩
      exact ⟨_, mem_components.2 ⟨c, inside, rfl⟩, itself _⟩
  · obtain ⟨c, -, eq⟩ := mem_components.1 known
    exact not_mem_nil (eq ▸ itself c.index)
  · obtain ⟨c, -, rfl⟩ := mem_components.1 known
    rw [← componentOf_eq mem, mem_componentOf]

section Cycles

variable {groups : List (List Nat)} {group : List Nat} (connected : StronglyConnected cells groups)
include connected

/-- **Of strongly connected components, the cycles are those whose cells reach themselves.** -/
theorem StronglyConnected.isCycle_iff (known : group ∈ groups) (mem : i ∈ group) :
    isCycle cells group ↔ TransGen (ReadBy cells) i i := by
  have together := connected.together group known i mem
  constructor
  · intro held
    by_cases other : ∃ j ∈ group, j ≠ i
    · obtain ⟨j, mem', differs⟩ := other
      obtain ⟨onward, back⟩ := (together j).1 mem'
      exact .trans_left ((Relation.reflTransGen_iff_eq_or_transGen.1 onward).resolve_left differs) back
    · -- a component without another cell is the cell alone, so the edge is its own
      push Not at other
      have alone : group = [i] := perm_singleton.1 ((perm_ext_iff_of_nodup
        ((nodup_flatten.1 connected.nodup).1 group known) (nodup_singleton i)).2 fun j =>
          ⟨fun mem' => mem_singleton.2 (other j mem'), fun eq => mem_singleton.1 eq ▸ mem⟩)
      rw [alone] at held
      exact .single (show i ∈ dependents cells i by simpa [isCycle] using held)
  · intro path
    obtain ⟨k, follows, back⟩ := TransGen.head'_iff.1 path
    have inside : k ∈ group := (together k).2 ⟨.single follows, back⟩
    by_cases several : 1 < group.length
    · simp [isCycle, several]
    · obtain ⟨only, rfl⟩ := length_eq_one_iff.1
        (Nat.le_antisymm (Nat.le_of_not_lt several) (length_pos_of_mem mem))
      rw [mem_singleton] at mem inside
      subst mem inside
      simpa [isCycle] using (show k ∈ dependents cells k from follows)

/-- Two cells are in one cycle exactly if they reach each other. -/
theorem StronglyConnected.exists_cycle_iff :
    (∃ cycle ∈ cycleIndices cells groups, i ∈ cycle ∧ j ∈ cycle) ↔
      TransGen (ReadBy cells) i j ∧ TransGen (ReadBy cells) j i := by
  constructor
  · rintro ⟨_, reported, mem, mem'⟩
    obtain ⟨group, kept, rfl⟩ := mem_map.1 reported
    obtain ⟨known, held⟩ := mem_filter.1 kept
    rw [mem_mergeSort] at mem mem'
    have itself := (connected.isCycle_iff known mem).1 held
    obtain ⟨onward, back⟩ := (connected.together group known i mem j).1 mem'
    exact ⟨itself.trans_left onward, .trans_right back itself⟩
  · rintro ⟨onward, back⟩
    obtain ⟨group, known, mem⟩ := mem_flatten.1
      ((connected.covers i).2 (mem_map.2 (mem_of_path back)))
    have mem' := (connected.together group known i mem j).2
      ⟨onward.to_reflTransGen, back.to_reflTransGen⟩
    have held := (connected.isCycle_iff known mem).2 (onward.trans back)
    exact ⟨_, mem_map_of_mem (mem_filter.2 ⟨known, held⟩), by simpa using mem, by simpa using mem'⟩

theorem StronglyConnected.nodup_cycleIndices : (cycleIndices cells groups).flatten.Nodup := by
  have same : (cycleIndices cells groups).flatten.Perm (groups.filter (isCycle cells)).flatten := by
    rw [cycleIndices, ← flatMap_def, ← flatMap_id']
    exact Perm.flatMap_left _ fun group _ => mergeSort_perm group _
  exact same.nodup_iff.2 (connected.nodup.sublist filter_sublist.flatten)

end Cycles

/-! ## Names -/

/-- A cell that reaches another one has outputs, and is named by the first. -/
theorem Owned.head?_outputs (owned : Owned cells) (mem : c ∈ cells) (path : TransGen (ReadBy cells) c.index j) :
    c.outputs.head? = some (Bindery.displayNameOf cells c.index) := by
  obtain ⟨_, follows, -⟩ := TransGen.head'_iff.1 path
  obtain ⟨-, -, -, n, defined, -⟩ := (owned.readBy mem).1 follows
  obtain ⟨fst, r, split⟩ := exists_cons_of_ne_nil (ne_nil_of_mem defined)
  rw [owned.displayNameOf mem, CompiledCell.displayName, split]
  rfl

theorem perm_cycleNames (cells : List CompiledCell) (groups : List (List Nat)) :
    (cycleNames cells groups).Perm ((cycleIndices cells groups).map (·.map (displayNameOf cells))) :=
  mergeSort_perm _ _

theorem Owned.nodup_cycleNames {groups : List (List Nat)} (owned : Owned cells)
    (connected : StronglyConnected cells groups) : (cycleNames cells groups).flatten.Nodup := by
  rw [(perm_cycleNames cells groups).flatten.nodup_iff, ← map_flatten]
  have own : ∀ i ∈ (cycleIndices cells groups).flatten, ∃ c ∈ cells, c.index = i ∧
      c.outputs.head? = some (Bindery.displayNameOf cells i) := by
    intro i mem
    obtain ⟨group, known, mem⟩ := mem_flatten.1 mem
    obtain ⟨path, -⟩ := connected.exists_cycle_iff.1 ⟨group, known, mem, mem⟩
    obtain ⟨c, inside, rfl⟩ := mem_of_path path
    exact ⟨c, inside, rfl, owned.head?_outputs inside path⟩
  refine connected.nodup_cycleIndices.map_on fun i mem j mem' eq => ?_
  obtain ⟨c, inside, rfl, fst⟩ := own i mem
  obtain ⟨d, inside', rfl, fst'⟩ := own j mem'
  rw [eq] at fst
  rw [owned.eq_of_output inside inside' (mem_of_mem_head? fst) (mem_of_mem_head? fst')]

/-! ## Orders -/

/-- Each cell of the order comes behind the cells it reads from. -/
def Ordered (order : List CompiledCell) : Prop :=
  ∀ (first second : Nat) (cell other : CompiledCell), order[first]? = some cell →
    order[second]? = some other → cell.Feeds other → first < second

/-- The number of cells that depend on a cell. -/
def reachCount (cells : List CompiledCell) (cell : CompiledCell) : Nat :=
  (allDependents cells cell.index).toFinset.card

/-- The cells by how many depend on them, most first. -/
def reachOrder (cells : List CompiledCell) : List CompiledCell :=
  cells.mergeSort fun cell other => decide (reachCount cells other ≤ reachCount cells cell)

theorem pairwise_reachOrder (cells : List CompiledCell) :
    (reachOrder cells).Pairwise fun c d => reachCount cells d ≤ reachCount cells c := by
  refine (pairwise_mergeSort (fun a b c below above => ?_) (fun a b => ?_) cells).imp of_decide_eq_true
  · rw [decide_eq_true_eq] at *
    exact Nat.le_trans above below
  · simpa using Nat.le_total _ _

variable (owned : Owned cells)

include owned

/-- Where no cell reaches itself, a cell reaches more cells than those it feeds. -/
theorem Owned.reachCount_lt (acyclic : ∀ i, ¬ TransGen (ReadBy cells) i i) (mem : c ∈ cells)
    (mem' : d ∈ cells) (feeds : c.Feeds d) : reachCount cells d < reachCount cells c := by
  have follows := (owned.readBy_index mem mem').2 feeds
  have inside : (allDependents cells d.index).toFinset ⊆ (allDependents cells c.index).toFinset := by
    intro k path
    rw [mem_toFinset, mem_allDependents] at path ⊢
    exact .head follows path
  refine Finset.card_lt_card ((Finset.ssubset_iff_of_subset inside).2 ⟨d.index, ?_, ?_⟩)
  · rw [mem_toFinset, mem_allDependents]
    exact .single follows
  · rw [mem_toFinset, mem_allDependents]
    exact acyclic d.index

theorem Owned.ordered_reachOrder (acyclic : ∀ i, ¬ TransGen (ReadBy cells) i i) :
    Ordered (reachOrder cells) := by
  intro fst snd c d here there feeds
  have inside : ∀ {k c}, (reachOrder cells)[k]? = some c → c ∈ cells :=
    fun got => (mergeSort_perm cells _).mem_iff.1 (mem_of_getElem? got)
  have less := owned.reachCount_lt acyclic (inside here) (inside there) feeds
  by_contra behind
  rcases Nat.lt_or_eq_of_le (Nat.le_of_not_lt behind) with before | rfl
  · obtain ⟨bound, rfl⟩ := List.getElem?_eq_some_iff.1 here
    obtain ⟨bound', rfl⟩ := List.getElem?_eq_some_iff.1 there
    have order := pairwise_iff_getElem.1 (pairwise_reachOrder cells) _ _ bound' bound before
    omega
  · cases here.symm.trans there
    exact Nat.lt_irrefl _ less

/-- A path goes forward in an order of the cells. -/
theorem Owned.lt_of_path {order : List CompiledCell} (same : order.Perm cells) (ordered : Ordered order)
    (path : TransGen (ReadBy cells) i j) {fst snd : Nat} (here : order[fst]? = some c) (start : c.index = i)
    (there : order[snd]? = some d) (stop : d.index = j) : fst < snd := by
  have inside : ∀ {k c}, order[k]? = some c → c ∈ cells := fun got => same.mem_iff.1 (mem_of_getElem? got)
  induction path generalizing snd d with
  | single follows =>
    rw [← start, ← stop, owned.readBy_index (inside here) (inside there)] at follows
    exact ordered fst snd c d here there follows
  | tail before follows ih =>
    obtain ⟨e, mem, rfl⟩ := mem_of_path before
    obtain ⟨third, got⟩ := mem_iff_getElem?.1 (same.mem_iff.2 mem)
    rw [← stop, owned.readBy_index mem (inside there)] at follows
    exact Nat.lt_trans (ih got rfl) (ordered third snd e d got there follows)

/-- **There is no cycle exactly when the cells can be ordered.** -/
theorem Owned.cycleIndices_eq_nil_iff {groups : List (List Nat)} (connected : StronglyConnected cells groups) :
    cycleIndices cells groups = [] ↔ ∃ order, order.Perm cells ∧ Ordered order := by
  constructor
  · intro none
    have acyclic : ∀ i, ¬ TransGen (ReadBy cells) i i := fun i path => by
      obtain ⟨_, reported, -⟩ := connected.exists_cycle_iff.2 ⟨path, path⟩
      rw [none] at reported
      cases reported
    exact ⟨reachOrder cells, mergeSort_perm _ _, owned.ordered_reachOrder acyclic⟩
  · rintro ⟨order, same, ordered⟩
    refine eq_nil_iff_forall_not_mem.2 fun cycle reported => ?_
    obtain ⟨group, kept, rfl⟩ := mem_map.1 reported
    obtain ⟨known, held⟩ := mem_filter.1 kept
    obtain ⟨i, mem⟩ := exists_mem_of_ne_nil group fun empty => connected.filled (empty ▸ known)
    have path := (connected.isCycle_iff known mem).1 held
    obtain ⟨c, inside, rfl⟩ := mem_of_path path
    obtain ⟨k, got⟩ := mem_iff_getElem?.1 (same.mem_iff.2 inside)
    exact Nat.lt_irrefl _ (owned.lt_of_path same ordered path got rfl got rfl)

omit owned

/-- **The reported cycles are the cycles.**  The dependents of a cell are the cells that read one
of its outputs, in ascending order, and the components are strongly connected.  For any groups
that are, a report gives the names of the cells of a cycle, and no name is in two reports or twice
in one.  A cell is in a cycle exactly if it reaches itself, and two cells are in the same one
exactly if they reach each other.  There are no reports exactly when the cells can be ordered so
that each comes behind those it reads from. -/
theorem cycles_exact (cells : List CompiledCell) (owned : Owned cells) :
    (∀ cell ∈ cells, displayNameOf cells cell.index = cell.displayName ∧
      (dependents cells cell.index).Pairwise (· < ·) ∧ ∀ index,
      index ∈ dependents cells cell.index ↔ ∃ other ∈ cells, other.index = index ∧ cell.Feeds other) ∧
    StronglyConnected cells (components cells) ∧
    cycles cells = cycleNames cells (components cells) ∧
    ∀ groups, StronglyConnected cells groups →
      (cycleNames cells groups).Perm
        ((cycleIndices cells groups).map (·.map (displayNameOf cells))) ∧
      (cycleNames cells groups).flatten.Nodup ∧
      (∀ cell ∈ cells, (∃ cycle ∈ cycleIndices cells groups, cell.index ∈ cycle) ↔
        TransGen (ReadBy cells) cell.index cell.index) ∧
      (∀ cell ∈ cells, ∀ other ∈ cells,
        (∃ cycle ∈ cycleIndices cells groups, cell.index ∈ cycle ∧ other.index ∈ cycle) ↔
          TransGen (ReadBy cells) cell.index other.index ∧
            TransGen (ReadBy cells) other.index cell.index) ∧
      ((cycleNames cells groups).length = 0 ↔ ∃ order, order.Perm cells ∧ Ordered order) := by
  refine ⟨fun c mem => ⟨owned.displayNameOf mem, Sorted.pairwise_ofList _, fun i => owned.readBy mem⟩,
    stronglyConnected_components cells, rfl, fun groups connected => ⟨perm_cycleNames cells groups,
      owned.nodup_cycleNames connected, fun c mem => ?_, fun c mem d mem' => connected.exists_cycle_iff,
      ?_⟩⟩
  · have itself := @StronglyConnected.exists_cycle_iff cells c.index c.index groups connected
    simpa only [and_self] using itself
  · rw [← owned.cycleIndices_eq_nil_iff connected, (perm_cycleNames cells groups).length_eq, length_map,
      length_eq_zero_iff]

/-- Two cells that read each other, and one behind them without outputs. -/
theorem cycles_exact_pair : let cells : List CompiledCell :=
      [⟨0, ["a"], ["b"], "", [], [], .single, false, false⟩,
        ⟨1, ["b"], ["a"], "", [], [], .single, false, false⟩,
        ⟨2, [], ["b"], "", [], [], .anonymous, false, false⟩]
    Owned cells ∧ ∃ cycle ∈ cycleIndices cells (components cells), 0 ∈ cycle ∧ 1 ∈ cycle := by
  intro cells
  have owned : Owned cells := by
    refine ⟨by decide, ?_⟩
    rintro ⟨n, c, mem, d, mem', different, defined, defined'⟩
    have unshared : ∀ c ∈ cells, ∀ d ∈ cells, c.index ≠ d.index → ∀ n ∈ c.outputs, n ∉ d.outputs := by
      decide
    exact unshared c mem d mem' different n defined defined'
  obtain ⟨edges, connected, -, reports⟩ := cycles_exact cells owned
  obtain ⟨-, -, -, together, -⟩ := reports _ connected
  have fst : cells[0] ∈ cells := mem_cons_self
  have snd : cells[1] ∈ cells := mem_cons_of_mem _ mem_cons_self
  have there : ReadBy cells 0 1 := ((edges _ fst).2.2 1).2 ⟨_, snd, rfl, "a", by decide, by decide⟩
  have back : ReadBy cells 1 0 := ((edges _ snd).2.2 0).2 ⟨_, fst, rfl, "b", by decide, by decide⟩
  exact ⟨owned, (together _ fst _ snd).2 ⟨.single there, .single back⟩⟩

end Bindery
