/-
Proofs.Page.Alignment -- every request is answered for the cell that makes it

A mount knows the cells from the directory of the module, and the runtime makes its
requests from the definitions.  A request with a name is looked up; one without a name
takes the next cell of a queue.  The two sides agree as long as every cell without
outputs makes one request without a name, in the order of the queue, and no two cells
define one name.
-/
import Bindery.Page.Mount
import Bindery.Proofs.Cell.WellFormed
import Bindery.Proofs.Library.Image
import Mathlib.Data.List.Forall2

namespace Bindery

open List Placements

variable {m : Mount} {r : List AnonymousSlot} {c : CompiledCell}

/-! ## Answers -/

/-- The answer to a request: the cell that makes it, the output it is for, and where the
output goes. -/
structure Answer where
  cell : Nat
  output : Option String
  placement : Placement
  deriving Repr, DecidableEq

inductive Placement.Yields : Placement → Outcome → Prop
  | renderAt (element : ElementId) : Yields (.renderAt element) (.rendered element)
  | append (element : ElementId) : Yields .append (.appended element)
  | evaluate : Yields .evaluate .evaluated
  | suppress : Yields .suppress .suppressed

/-- The binding carries out the answer. -/
structure MountBinding.Follows (binding : MountBinding) (answer : Answer) : Prop where
  cell : binding.cell = some answer.cell
  output : binding.output = answer.output
  outcome : answer.placement.Yields binding.outcome

/-- The placement of a cell without outputs: its own target, or the fallback. -/
def CompiledCell.ownPlacement (find : String → Option ElementId) (options : MountOptions)
    (cell : CompiledCell) : Placement :=
  ((cell.toEntry.target? find options).map (·.2)).elim options.fallback .renderAt

/-- The answers that a cell asks for, among cells whose controls hide some names. -/
def CompiledCell.answers (find : String → Option ElementId) (options : MountOptions)
    (suppressed : List String) (cell : CompiledCell) : List Answer :=
  if cell.outputs = [] then [⟨cell.index, none, cell.ownPlacement find options⟩]
  else
    cell.outputs.map fun name =>
      ⟨cell.index, some name, cell.toEntry.placementOf suppressed
        (cell.toEntry.target? find options) options.fallback name⟩

/-! ## One request -/

theorem Mount.place_yields (p : Page) (box : ElementId) (placement : Placement) :
    placement.Yields (Mount.place p box placement).1.2 := by
  cases placement with
  | suppress => exact .suppress
  | renderAt elem => exact .renderAt elem
  | append => exact .append _
  | evaluate => exact .evaluate

/-- A mount after some answers, with a queue of cells that are still to be asked for. -/
def Mount.Advances (mount : Mount) (answers : List Answer) (queue : List AnonymousSlot)
    (after : Mount) : Prop :=
  ∃ bindings, List.Forall₂ MountBinding.Follows bindings answers ∧
    after = { mount with
      placements := { mount.placements with anonymous := queue }
      bindings := mount.bindings ++ bindings }

theorem Mount.Advances.refl (m : Mount) : m.Advances [] m.placements.anonymous m :=
  ⟨[], .nil, by rw [append_nil]⟩

theorem Mount.Advances.trans {middle after : Mount} {answers later : List Answer}
    {queue : List AnonymousSlot} (fst : m.Advances answers queue middle)
    (snd : middle.Advances later r after) : m.Advances (answers ++ later) r after := by
  obtain ⟨bs, follow, rfl⟩ := fst
  obtain ⟨tl, followToo, rfl⟩ := snd
  refine ⟨bs ++ tl, rel_append follow followToo, ?_⟩
  simp only [append_assoc]

theorem Mount.select_named (p : Page) {name : String} {owner : Nat}
    {placement : Placement} (known : m.placements.find? name = some ⟨name, owner, placement⟩) :
    m.Advances [⟨owner, some name, placement⟩] m.placements.anonymous (m.select p (some name)).2.1 := by
  refine ⟨[⟨some owner, some name, (Mount.place p m.container placement).1.2⟩], ?_, ?_⟩
  · exact .cons ⟨rfl, rfl, Mount.place_yields p m.container placement⟩ .nil
  · simp only [Mount.select, Mount.resolve, Placements.owner?, Placements.placement, known,
      Option.map_some, Option.elim_some]

theorem Mount.select_anonymous (p : Page) {slot : AnonymousSlot}
    (waiting : m.placements.anonymous = slot :: r) :
    m.Advances [⟨slot.index, none, slot.target.elim m.placements.fallback .renderAt⟩] r
      (m.select p none).2.1 := by
  refine ⟨[⟨some slot.index, none, (Mount.place p m.container
    (slot.target.elim m.placements.fallback .renderAt)).1.2⟩], ?_, ?_⟩
  · exact .cons ⟨rfl, rfl, Mount.place_yields _ _ _⟩ .nil
  · simp only [Mount.select, Mount.resolve, nextAnonymous, waiting]

/-! ## Runs of requests -/

theorem Mount.selectAll_append (m : Mount) (p : Page) (fst snd : List (Option String)) :
    (m.selectAll p (fst ++ snd)).2 = ((m.selectAll p fst).2.1.selectAll (m.selectAll p fst).2.2 snd).2 := by
  induction fst generalizing m p with
  | nil => rfl
  | cons q r ih => exact ih _ _

theorem Mount.selectAll_named (owner : Nat) (placement : String → Placement) (ns : List String) (m : Mount)
    (p : Page) (known : ∀ name ∈ ns, m.placements.find? name = some ⟨name, owner, placement name⟩) :
    m.Advances (ns.map fun name => ⟨owner, some name, placement name⟩)
      m.placements.anonymous (m.selectAll p (ns.map some)).2.1 := by
  induction ns generalizing m p with
  | nil => exact .refl m
  | cons name r ih =>
    have step := m.select_named p (known name mem_cons_self)
    have kept : (m.select p (some name)).2.1.placements = m.placements := by
      obtain ⟨bs, -, after⟩ := step
      rw [after]
    have later := ih (m.select p (some name)).2.1 (m.select p (some name)).2.2
      fun other mem => by
        rw [kept]
        exact known other (.tail _ mem)
    rw [kept] at later
    exact step.trans later

/-! ## What is known of an output -/

theorem find?_key_eq_some {α : Type} (key : α → String) {items : List α} (nodup : (items.map key).Nodup)
    {item : α} (mem : item ∈ items) : items.find? (key · == key item) = some item := by
  induction items with
  | nil => cases mem
  | cons fst r ih =>
    rw [map_cons, nodup_cons] at nodup
    rcases mem_cons.1 mem with rfl | later
    · exact find?_cons_of_pos (by simp)
    · have different : key fst ≠ key item := fun eq =>
        nodup.1 (eq ▸ mem_map_of_mem later)
      rw [find?_cons_of_neg (by simpa using different)]
      exact ih nodup.2 later

section Library

variable (find : String → Option ElementId) (options : MountOptions) (name : String)
  {ordered : List CompiledCell}

theorem orderedDirectory_imageOf (ascending : ordered.Pairwise fun c other => c.index < other.index) :
    (Module.imageOf name ordered).orderedDirectory = ordered.map CompiledCell.toEntry :=
  mergeSort_of_pairwise <| pairwise_map.2 <| ascending.imp fun below => decide_eq_true (Nat.le_of_lt below)

theorem Placements.find?_build (ascending : ordered.Pairwise fun c other => c.index < other.index)
    (nodup : (definedNames ordered).Nodup) (mem : c ∈ ordered)
    {out : String} (defines : out ∈ c.outputs) :
    (build find (Module.imageOf name ordered) options).find? out =
      some ⟨out, c.index,
        c.toEntry.placementOf (Module.imageOf name ordered).suppressedNames
          (c.toEntry.target? find options) options.fallback out⟩ := by
  have ns : (build find (Module.imageOf name ordered) options).outputs.map (·.name) =
      definedNames ordered := by
    simp only [build, orderedDirectory_imageOf name ascending, map_flatMap, flatMap_map, ofEntry, map_map]
    exact flatMap_congr fun c _ => map_id _
  have once : ((build find (Module.imageOf name ordered) options).outputs.reverse.map
      PlacedOutput.name).Nodup := by
    rw [map_reverse, ns]
    exact nodup_reverse.2 nodup
  have entry : c.toEntry ∈ (Module.imageOf name ordered).orderedDirectory := by
    rw [orderedDirectory_imageOf name ascending]
    exact mem_map_of_mem mem
  have placed := mem_map_of_mem (f := fun out => PlacedOutput.mk out c.index
    (c.toEntry.placementOf (Module.imageOf name ordered).suppressedNames
      (c.toEntry.target? find options) options.fallback out)) defines
  exact find?_key_eq_some PlacedOutput.name once (mem_reverse.2 (mem_flatMap.2 ⟨c.toEntry, entry, placed⟩))

/-! ## The requests of a library -/

def waiting (cells : List CompiledCell) : List AnonymousSlot :=
  ((cells.map CompiledCell.toEntry).filter (·.outputs.isEmpty)).map (slotOf find options)

theorem requests_image (cs : List CompiledCell) (fits : c.shape.Fits c.outputs) :
    (c.image cs).requests = if c.outputs = [] then [none] else c.outputs.map some := by
  have shape : (c.image cs).shape = c.shape := rfl
  have outputs : (c.image cs).outputs = c.outputs := rfl
  rw [CellDefinition.requests, shape, outputs]
  split
  · next anonymous => rw [if_pos (fits.anonymous.1 anonymous)]
  all_goals
    next named =>
      rw [if_neg fun none => ?_]
      have anonymous := fits.anonymous.2 none
      rw [named] at anonymous
      cases anonymous

theorem advances_cell (ascending : ordered.Pairwise fun c other => c.index < other.index)
    (nodup : (definedNames ordered).Nodup) (mem : c ∈ ordered)
    (fits : c.shape.Fits c.outputs) (r : List CompiledCell) (p : Page)
    (built : m.placements =
      { build find (Module.imageOf name ordered) options with
        anonymous := waiting find options (c :: r) }) :
    m.Advances (c.answers find options (Module.imageOf name ordered).suppressedNames) (waiting find options r)
      (m.selectAll p (c.image ordered).requests).2.1 := by
  rw [requests_image ordered fits, CompiledCell.answers]
  by_cases anonymous : c.outputs = []
  · have queue : m.placements.anonymous =
        slotOf find options c.toEntry :: waiting find options r := by
      rw [built]
      simp [waiting, CompiledCell.toEntry, anonymous]
    have step := m.select_anonymous p queue
    rw [built] at step
    rw [if_pos anonymous, if_pos anonymous]
    exact step
  · have queue : m.placements.anonymous = waiting find options r := by
      rw [built]
      simp [waiting, CompiledCell.toEntry, anonymous]
    rw [if_neg anonymous, if_neg anonymous, ← queue]
    refine Mount.selectAll_named c.index _ c.outputs m p fun out defines => ?_
    rw [built]
    exact find?_build find options name ascending nodup mem defines

theorem advances_cells (ascending : ordered.Pairwise fun c other => c.index < other.index)
    (nodup : (definedNames ordered).Nodup)
    (fits : ∀ c ∈ ordered, c.shape.Fits c.outputs) (remaining : List CompiledCell)
    (inside : remaining ⊆ ordered) (m : Mount) (p : Page)
    (built : m.placements =
      { build find (Module.imageOf name ordered) options with
        anonymous := waiting find options remaining }) :
    m.Advances
      (remaining.flatMap (CompiledCell.answers find options (Module.imageOf name ordered).suppressedNames))
      [] (m.selectAll p (remaining.flatMap fun c => (c.image ordered).requests)).2.1 := by
  induction remaining generalizing m p with
  | nil =>
    have start := Mount.Advances.refl m
    rw [built] at start
    exact start
  | cons c r ih =>
    have mem := inside mem_cons_self
    have step := advances_cell find options name ascending nodup mem (fits c mem) r p built
    have after : (m.selectAll p (c.image ordered).requests).2.1.placements =
        { build find (Module.imageOf name ordered) options with
          anonymous := waiting find options r } := by
      obtain ⟨bs, -, after⟩ := step
      rw [after, built]
    have later := ih (fun other among => inside (.tail _ among)) _
      (m.selectAll p (c.image ordered).requests).2.2 after
    rw [flatMap_cons, flatMap_cons, Mount.selectAll_append]
    exact step.trans later

end Library

theorem map_of_follows {bs : List MountBinding} {answers : List Answer}
    (follow : List.Forall₂ MountBinding.Follows bs answers) :
    bs.map (fun b => (b.cell, b.output)) = answers.map fun answer => (some answer.cell, answer.output) := by
  induction follow with
  | nil => rfl
  | cons fst _ ih => rw [map_cons, map_cons, ih, fst.cell, fst.output]

/-- A runtime that accepts modules makes all requests of the module on a container that
is attached. -/
theorem mount_of_connected {p : Page} {box : ElementId} {runtime : Runtime} (connected : p.isConnected box)
    (willing : runtime.refusal = none) (module : Module) (options : MountOptions) :
    (mount p (some box) runtime module options).result =
      .ok (Mount.selectAll ⟨build p.findTarget? module options, box, [],
        .running⟩ p module.requests).2.1 := by
  simp [mount, connected, willing]

/-- **A mount answers every cell for itself.**  A library that was generated from compiled
cells with distinct indices can be mounted wherever the container is attached.  The
bindings are, for each cell in ascending order, one without a name if the cell has no
outputs and one for each output otherwise; afterwards no cell waits in the queue.  Each
binding goes where its own cell asks for, so a request without a name is never given the
slot or the target of another cell. -/
theorem mount_generate (cells : List CompiledCell)
    (compiled : ∀ cell ∈ cells, ∃ source : SourceCell, source.compile = .ok cell)
    (distinct : (cells.map (·.index)).Nodup)
    {name : String} {workspace : List String} {fallback : String} {library : Library}
    (generated : Library.generate cells name workspace fallback = .ok library)
    (page : Page) {container : ElementId} (connected : page.isConnected container = true)
    {runtime : Runtime} (willing : runtime.refusal = none) (options : MountOptions) :
    ∃ (mounted : Mount) (ordered : List CompiledCell),
      (mount page (some container) runtime library.module options).result = .ok mounted ∧
      ordered.Perm cells ∧
      ordered.Pairwise (fun cell other => cell.index < other.index) ∧
      mounted.bindings.map (fun binding => (binding.cell, binding.output)) =
        ordered.flatMap (fun cell =>
          if cell.outputs = [] then [(some cell.index, none)]
          else cell.outputs.map fun output => (some cell.index, some output)) ∧
      mounted.placements.anonymous = [] ∧
      List.Forall₂ MountBinding.Follows mounted.bindings (ordered.flatMap
        (CompiledCell.answers page.findTarget? options library.module.suppressedNames)) := by
  have same := inDocumentOrder_perm cells
  have ascending := pairwise_inDocumentOrder distinct
  have wellFormed : ∀ cell ∈ inDocumentOrder cells, cell.WellFormed := by
    intro cell member
    obtain ⟨source, done⟩ := compiled cell (same.subset member)
    exact SourceCell.compile_wellFormed done
  obtain ⟨unique, built, -, -⟩ := (Library.generate_eq_ok_of_pairwise same ascending).1 generated
  have names := nodup_definedNames ascending unique fun cell member =>
    (wellFormed cell member).outputs_nodup
  have queue : (Placements.build page.findTarget? (Module.imageOf name (inDocumentOrder cells))
      options).anonymous = waiting page.findTarget? options (inDocumentOrder cells) := by
    simp only [Placements.build, orderedDirectory_imageOf name ascending, waiting]
  obtain ⟨bindings, follow, after⟩ := advances_cells page.findTarget? options name ascending names
    (fun cell member => (wellFormed cell member).shape_fits) (inDocumentOrder cells)
    (List.Subset.refl _)
    ⟨Placements.build page.findTarget? (Module.imageOf name (inDocumentOrder cells)) options,
      container, [], .running⟩ page (by rw [← queue])
  have requests : (Module.imageOf name (inDocumentOrder cells)).requests =
      (inDocumentOrder cells).flatMap fun cell => (cell.image (inDocumentOrder cells)).requests :=
    List.flatMap_map _ _ _
  have result := mount_of_connected connected willing library.module options
  rw [built, requests, after] at result
  refine ⟨_, _, built ▸ result, same, ascending, ?_, rfl, built ▸ follow⟩
  rw [List.nil_append, map_of_follows follow, List.map_flatMap]
  refine List.flatMap_congr fun cell _ => ?_
  rw [CompiledCell.answers]
  split
  · rfl
  · rw [List.map_map]
    rfl

/-- Two cells without outputs around a view, on a page with a target for the second of
them. -/
theorem mount_generate_around_view :
    let first : CompiledCell := ⟨1, [], [], "return (\n1\n);", [], [], .anonymous, false, false⟩
    let view : CompiledCell :=
      ⟨2, ["viewof x", "x"], ["Inputs"], "return (\nInputs.range()\n);", [], [], .viewPair,
        false, false⟩
    let last : CompiledCell := ⟨3, [], ["x"], "return (\nx\n);", [], [], .anonymous, false, false⟩
    let page : Page := (Page.empty.target (cellKey 3)).2
    (∀ cell ∈ [last, view, first], ∃ source : SourceCell, source.compile = .ok cell) ∧
      ([last, view, first].map (·.index)).Nodup ∧
      page.isConnected Page.body = true ∧
      ∃ (library : Library) (mounted : Mount),
        Library.generate [last, view, first] "views" [] "latest" = .ok library ∧
        (mount page (some Page.body) {} library.module {}).result = .ok mounted ∧
        mounted.bindings.map (fun binding => (binding.cell, binding.output)) =
          [(some 1, none), (some 2, some "viewof x"), (some 2, some "x"), (some 3, none)] ∧
        mounted.placements.anonymous = [] ∧
        List.Forall₂ MountBinding.Follows mounted.bindings
          [⟨1, none, .suppress⟩, ⟨2, some "viewof x", .suppress⟩, ⟨2, some "x", .suppress⟩,
            ⟨3, none, .renderAt 1⟩] := by
  intro first view last page
  have compiled : ∀ cell ∈ [last, view, first], ∃ source : SourceCell, source.compile = .ok cell :=
    compiled_of_map [⟨"3", 3, .script, "x", [], false⟩,
      ⟨"2", 2, .script, "viewof x = Inputs.range()", [], true⟩, ⟨"1", 1, .script, "1", [], false⟩]
      (by decide +kernel)
  have distinct : ([last, view, first].map (·.index)).Nodup := by decide
  have connected : page.isConnected Page.body = true := by decide
  have same : [first, view, last].Perm [last, view, first] :=
    List.reverse_perm [last, view, first]
  have ascending : [first, view, last].Pairwise fun cell other => cell.index < other.index := by
    decide
  have generated := Library.generate_of_pairwise "views" [] "latest" same ascending
    (by decide +kernel) (by decide +kernel)
  obtain ⟨mounted, ordered, result, perm, sorted, bindings, queue, follow⟩ :=
    mount_generate _ compiled distinct generated page connected (rfl : Runtime.refusal {} = none) {}
  obtain rfl : ordered = [first, view, last] :=
    (inDocumentOrder_eq perm sorted).symm.trans (inDocumentOrder_eq same ascending)
  have answers : [first, view, last].flatMap (CompiledCell.answers page.findTarget? {}
      (Module.imageOf "views" [first, view, last]).suppressedNames) =
      [⟨1, none, .suppress⟩, ⟨2, some "viewof x", .suppress⟩, ⟨2, some "x", .suppress⟩,
        ⟨3, none, .renderAt 1⟩] := by
    decide +kernel
  exact ⟨compiled, distinct, connected, _, mounted, generated, result, bindings, queue,
    answers ▸ follow⟩

end Bindery
