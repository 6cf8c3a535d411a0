/-
Proofs.Page.Plan -- what a plan says of every output

A plan mounts a module on a page that has one target for each given name and nothing else.
The targets of that page are known without a search (`findTarget?_planPage`), elements keep
their labels while others are appended (`Page.Extends`), and appended elements are numbered in
the order of the requests (`plannedFrom`).
-/
import Bindery.Page.Plan
import Bindery.Proofs.Page.Forest
import Bindery.Proofs.Page.Resolution

namespace Bindery

open List Page

variable {placement : Placement} {p : Page} {elem : ElementId} {key : String}

/-! ## Numbered entries -/

/-- What a plan says of a placement, with the number of the element that is appended for it. -/
def Placement.planned (label : ElementId → String) (number : Nat) : Placement → PlannedPlacement
  | .renderAt element => .target (label element)
  | .append => .appended ("appended #" ++ toString number)
  | .evaluate => .evaluated
  | .suppress => .suppressed

theorem planned_eq_target {label : ElementId → String} {number : Nat} {s : String} :
    placement.planned label number = .target s ↔ ∃ elem, placement = .renderAt elem ∧ s = label elem := by
  cases placement <;> simp [Placement.planned, eq_comm]

/-- The entry of an answer. -/
def Answer.entry (label : ElementId → String) (number : Nat) (answer : Answer) : PlanEntry :=
  ⟨some answer.cell, answer.output, answer.placement.planned label number⟩

/-- The entries of answers one after the other, behind some elements that were appended. -/
def plannedFrom (label : ElementId → String) : Nat → List Answer → List PlanEntry
  | _, [] => []
  | count, answer :: rest =>
    answer.entry label (count + 1) ::
      plannedFrom label (if answer.placement = .append then count + 1 else count) rest

theorem map_answers (find : String → Option ElementId) (opts : MountOptions) (suppressed : List String)
    (cells : List CompiledCell) :
    (cells.flatMap (CompiledCell.answers find opts suppressed)).map
        (fun answer => (some answer.cell, answer.output)) =
      cells.flatMap fun c =>
        if c.outputs = [] then [(some c.index, none)]
        else c.outputs.map fun out => (some c.index, some out) := by
  rw [map_flatMap]
  refine flatMap_congr fun c _ => ?_
  rw [CompiledCell.answers]
  split
  · rfl
  · rw [map_map]
    rfl

/-- The entry of a binding on a page. -/
def MountBinding.entry (page : Page) (binding : MountBinding) : PlanEntry :=
  ⟨binding.cell, binding.output, binding.outcome.planned page⟩

section Numbered

variable {label : ElementId → String}

theorem map_plannedFrom (count : Nat) (answers : List Answer) :
    (plannedFrom label count answers).map (fun e => (e.cell, e.output)) =
      answers.map fun answer => (some answer.cell, answer.output) := by
  induction answers generalizing count with
  | nil => rfl
  | cons answer r ih => rw [plannedFrom, map_cons, ih]; rfl

theorem exists_of_mem_plannedFrom {count : Nat} {answers : List Answer} {e : PlanEntry}
    (mem : e ∈ plannedFrom label count answers) :
    ∃ answer ∈ answers, ∃ number, e = answer.entry label number := by
  induction answers generalizing count with
  | nil => cases mem
  | cons answer r ih =>
    rcases mem_cons.1 mem with rfl | later
    · exact ⟨answer, mem_cons_self, count + 1, rfl⟩
    · obtain ⟨got, inside, number, eq⟩ := ih later
      exact ⟨got, mem_cons_of_mem _ inside, number, eq⟩

theorem Mount.extends_place (p : Page) (box : ElementId) (placement : Placement) :
    p.Extends (Mount.place p box placement).2 := by
  cases placement with
  | append => exact ⟨_, (p.faces_append box).symm⟩
  | renderAt _ | suppress | evaluate => exact prefix_rfl

theorem Mount.extends_selectAll (requests : List (Option String)) (m : Mount) (p : Page) :
    p.Extends (m.selectAll p requests).2.2 := by
  induction requests generalizing m p with
  | nil => exact prefix_rfl
  | cons q r ih => exact (Mount.extends_place _ _ _).trans (ih _ _)

/-- A placement is done as planned, and only what is appended counts. -/
theorem Mount.place_planned (p : Page) (box : ElementId) (placement : Placement) {last : Page}
    (grown : (Mount.place p box placement).2.Extends last)
    (labels : ∀ elem, placement = .renderAt elem → elem < p.nodes.length ∧ p.label elem = label elem) :
    (Mount.place p box placement).1.2.planned last = placement.planned label (p.appended + 1) ∧
      (Mount.place p box placement).2.appended =
        if placement = .append then p.appended + 1 else p.appended := by
  cases placement with
  | renderAt elem =>
    obtain ⟨inside, eq⟩ := labels elem rfl
    exact ⟨congrArg PlannedPlacement.target ((grown.label inside).trans eq), rfl⟩
  | append =>
    have inside : p.nextId < (p.append box).2.nodes.length := by
      rw [← length_faces, faces_append, length_append, length_faces]
      exact Nat.lt_succ_self _
    exact ⟨congrArg PlannedPlacement.appended ((grown.label inside).trans (p.label_append box)), rfl⟩
  | suppress | evaluate => exact ⟨rfl, rfl⟩

theorem Placement.Yields.eq_of_place {box : ElementId} {other : Placement}
    (yields : other.Yields (Mount.place p box placement).1.2) : other = placement := by
  cases placement <;> cases yields <;> rfl

/-- The bindings of a run of requests, as entries on the page behind the run. -/
theorem Mount.selectAll_planned (label : ElementId → String) (requests : List (Option String)) (m : Mount) (p : Page) :
    ∃ bs, (m.selectAll p requests).2.1.bindings = m.bindings ++ bs ∧
      ∀ answers, List.Forall₂ MountBinding.Follows bs answers →
        (∀ answer ∈ answers, ∀ elem, answer.placement = .renderAt elem →
          elem < p.nodes.length ∧ p.label elem = label elem) →
        bs.map (MountBinding.entry (m.selectAll p requests).2.2) = plannedFrom label p.appended answers := by
  induction requests generalizing m p with
  | nil =>
    refine ⟨[], (append_nil _).symm, fun answers follow _ => ?_⟩
    cases follow
    rfl
  | cons q r ih =>
    obtain ⟨bs, after, planned⟩ := ih (m.select p q).2.1 (m.select p q).2.2
    have grown := Mount.extends_selectAll r (m.select p q).2.1 (m.select p q).2.2
    have kept : (m.resolve q).2.bindings = m.bindings := by cases q <;> rfl
    refine ⟨⟨(m.resolve q).1.1, q, (Mount.place p (m.resolve q).2.container
      (m.resolve q).1.2).1.2⟩ :: bs, ?_, fun answers follow labels => ?_⟩
    · refine after.trans ?_
      rw [← singleton_append, ← append_assoc, ← kept]
      rfl
    · obtain ⟨answer, os, follows, behind, rfl⟩ := forall₂_cons_left_iff.1 follow
      have step := Mount.extends_place p (m.resolve q).2.container (m.resolve q).1.2
      -- labels are read behind the run, and what follows keeps those of now
      have later := planned os behind fun other mem elem placed => by
        obtain ⟨inside, eq⟩ := labels other (.tail _ mem) elem placed
        refine ⟨?_, (step.label inside).trans eq⟩
        have longer := step.length_le
        rw [length_faces, length_faces] at longer
        exact Nat.lt_of_lt_of_le inside longer
      have placed := follows.outcome.eq_of_place
      obtain ⟨here, count⟩ := Mount.place_planned p (m.resolve q).2.container
        (m.resolve q).1.2 grown fun elem eq =>
          labels answer mem_cons_self elem (placed.trans eq)
      rw [plannedFrom, map_cons, placed, ← count]
      refine congrArg₂ cons ?_ later
      have cell : (m.resolve q).1.1 = some answer.cell := follows.cell
      have output : q = answer.output := follows.output
      rw [MountBinding.entry, Answer.entry, cell, ← output, placed]
      exact congrArg _ here

end Numbered

/-! ## The page of a plan -/

/-- The element of a target below the body. -/
def targetFace (name : String) : Option ElementId × Option String × String :=
  (some body, some name, targetLabel name)

theorem faces_planPage (targets : List String) :
    (planPage targets).2.faces = (none, none, "body") :: targets.map targetFace ++
      [(some body, none, "container")] ∧ (planPage targets).1 = targets.length + 1 := by
  have fold (p : Page) : (targets.foldl (fun p name => (p.target name).2) p).faces =
      p.faces ++ targets.map targetFace := by
    induction targets generalizing p with
    | nil => exact (append_nil _).symm
    | cons name r ih =>
      rw [foldl_cons, ih, target, faces_add, append_assoc]
      rfl
  have whole := fold empty
  refine ⟨?_, ?_⟩
  · rw [planPage, faces_add, whole]
    rfl
  · rw [planPage, nextId, ← length_faces, whole, length_append, length_map, Nat.add_comm]
    rfl

section PlanPage

variable {targets : List String}

theorem isConnected_of_face {r : Option String × String}
    (there : p.faces[elem]? = some (some Page.body, r)) : p.isConnected elem := by
  have body (steps : Nat) : p.climbs steps Page.body := by cases steps <;> rfl
  rw [Page.faces, getElem?_map, Option.map_eq_some_iff] at there
  obtain ⟨node, got, face⟩ := there
  have below : p.parent? elem = some Page.body := by
    rw [Page.parent?, got]
    exact congrArg Prod.fst face
  have inside := (List.getElem?_eq_some_iff.1 got).1
  rw [Page.isConnected, ← Nat.succ_pred_eq_of_pos (Nat.zero_lt_of_lt inside), Page.climbs, below,
    Option.any_some, body, Bool.or_true]

/-- The page of a plan has a target for each name that is given. -/
theorem exists_target_planPage (given : key ∈ targets) :
    ∃ elem, (planPage targets).2.findTarget? key = some elem := by
  have face : targetFace key ∈ (planPage targets).2.faces := by
    rw [(faces_planPage targets).1]
    exact mem_append_left _ (mem_cons_of_mem _ (mem_map_of_mem given))
  obtain ⟨elem, there⟩ := mem_iff_getElem?.1 face
  have connected := isConnected_of_face there
  rw [faces, getElem?_map, Option.map_eq_some_iff] at there
  obtain ⟨node, there, eq⟩ := there
  refine Option.isSome_iff_exists.1 (find?_isSome.2
    ⟨elem, mem_range.2 (List.getElem?_eq_some_iff.1 there).1, ?_⟩)
  have named : node.cellName = some key := congrArg (·.2.1) eq
  rw [isTargetFor, there, connected, Option.any_some, named, beq_self_eq_true]
  rfl

/-- It has no other targets, and each of them shows its name. -/
theorem of_findTarget?_planPage
    (got : (planPage targets).2.findTarget? key = some elem) :
    key ∈ targets ∧ elem < (planPage targets).2.nodes.length ∧
      (planPage targets).2.label elem = targetLabel key := by
  obtain ⟨node, there, named⟩ := cellName_of_findTarget? got
  have face : node.face ∈ (planPage targets).2.faces := mem_map_of_mem (mem_of_getElem? there)
  obtain ⟨name, given, eq⟩ : ∃ name ∈ targets, targetFace name = node.face := by
    rw [(faces_planPage targets).1, cons_append, mem_cons, mem_append, mem_singleton, mem_map] at face
    rcases face with body | given | box
    · cases named.symm.trans (congrArg (·.2.1) body)
    · exact given
    · cases named.symm.trans (congrArg (·.2.1) box)
  cases named.symm.trans (congrArg (·.2.1) eq).symm
  refine ⟨given, (List.getElem?_eq_some_iff.1 there).1, ?_⟩
  rw [label, there]
  exact (congrArg (·.2.2) eq).symm

end PlanPage

/-! ## The plan of a library -/

/-- The first of some keys that is among the targets. -/
def FirstAmong (targets keys : List String) (key : String) : Prop :=
  ∃ before behind, keys = before ++ key :: behind ∧ (∀ other ∈ before, other ∉ targets) ∧ key ∈ targets

theorem CompiledCell.hasTarget_planPage {targets : List String} {opts : MountOptions}
    (unmapped : opts.targets = []) {c : CompiledCell} :
    c.HasTarget (planPage targets).2.findTarget? opts key elem ↔
      FirstAmong targets c.keys key ∧ (planPage targets).2.findTarget? key = some elem := by
  constructor
  · intro target
    obtain ⟨p, behind, ks, none, got⟩ := target.first_of_unmapped unmapped
    refine ⟨⟨p, behind, ks, fun other mem given => ?_, (of_findTarget?_planPage got).1⟩, got⟩
    obtain ⟨another, foundToo⟩ := exists_target_planPage given
    rw [none other mem] at foundToo
    cases foundToo
  · rintro ⟨⟨p, behind, ks, none, -⟩, got⟩
    refine .found (fun other _ => by rw [unmapped]; rfl) ⟨p, behind, ks, fun other mem => ?_, got⟩
    cases there : (planPage targets).2.findTarget? other with
    | none => rfl
    | some another => exact absurd (of_findTarget?_planPage there).1 (none other mem)

/-- The label of an element that was appended. -/
def PlannedPlacement.appendedLabel? : PlannedPlacement → Option String
  | .appended label => some label
  | .target _ | .evaluated | .suppressed => none

theorem filterMap_plannedFrom (label : ElementId → String) (count : Nat) (answers : List Answer) :
    (plannedFrom label count answers).filterMap (·.placement.appendedLabel?) =
      (range' (count + 1) (answers.countP (·.placement = .append))).map
        fun number => "appended #" ++ toString number := by
  induction answers generalizing count with
  | nil => rfl
  | cons answer r ih =>
    rw [plannedFrom, filterMap_cons, ih, countP_cons]
    cases placed : answer.placement <;> simp [Answer.entry, placed, Placement.planned,
      PlannedPlacement.appendedLabel?, range'_succ]

theorem appended_planPage (targets : List String) : (planPage targets).2.appended = 0 := by
  have fold (p : Page) :
      (targets.foldl (fun p name => (p.target name).2) p).appended = p.appended := by
    induction targets generalizing p with
    | nil => rfl
    | cons name r ih => exact ih _
  exact fold empty

/-- A plan is a run of requests on the page of the plan. -/
theorem plan_eq (module : Module) (targets : List String) (appends : Bool) :
    let fresh : Mount := ⟨Placements.build (planPage targets).2.findTarget? module { appendUnmatched := appends },
      (planPage targets).1, [], .running⟩
    let run := fresh.selectAll (planPage targets).2 module.requests
    plan module targets appends = .ok (run.2.1.bindings.map (MountBinding.entry run.2.2)) := by
  intro fresh run
  have there : (planPage targets).2.faces[(planPage targets).1]? = some (some body, none, "container") := by
    rw [(faces_planPage targets).1, (faces_planPage targets).2]
    simp
  have mounted : mount (planPage targets).2 (some (planPage targets).1) {} module
      { appendUnmatched := appends } = ⟨run.2.2, { calls := run.1 }, .ok run.2.1⟩ := by
    simp only [mount, isConnected_of_face there]
    rfl
  have attempted : plan module targets appends =
      (let attempt := mount (planPage targets).2 (some (planPage targets).1) {} module
        { appendUnmatched := appends }
      attempt.result.map fun mounted => mounted.bindings.map (MountBinding.entry attempt.page)) := rfl
  rw [attempted, mounted]
  rfl

section Generated

variable {cells : List CompiledCell} {name : String} {library : Library}

/-- The plan of a library, as the entries of its answers. -/
theorem Library.Orders.plan_eq {ordered : List CompiledCell} (orders : library.Orders name cells ordered)
    (targets : List String) (appends : Bool) :
    plan library.module targets appends = .ok (plannedFrom (planPage targets).2.label 0
      (ordered.flatMap (CompiledCell.answers (planPage targets).2.findTarget? { appendUnmatched := appends }
        library.module.suppressedNames))) := by
  obtain ⟨bs, follow, after⟩ := orders.advances (planPage targets).2 (planPage targets).1
    { appendUnmatched := appends }
  obtain ⟨os, eq, planned⟩ := Mount.selectAll_planned (planPage targets).2.label
    library.module.requests ⟨Placements.build (planPage targets).2.findTarget? library.module
      { appendUnmatched := appends }, (planPage targets).1, [], .running⟩ (planPage targets).2
  rw [after] at eq
  cases eq
  rw [Bindery.plan_eq, after, ← appended_planPage targets]
  refine congrArg Except.ok (planned _ follow fun answer given elem placed => ⟨?_, rfl⟩)
  obtain ⟨c, -, given⟩ := mem_flatMap.1 given
  obtain ⟨-, goes⟩ := CompiledCell.goes_of_answer orders.mem_suppressedNames given
  obtain ⟨key, has, -⟩ := goes.renderAt_iff.1 placed
  exact (of_findTarget?_planPage (CompiledCell.hasTarget_planPage rfl |>.1 has).2).2.1

/-- **The plan of a library** has an entry for each output, in the order of the cells, and for
each cell without outputs.  The target of a cell goes to its primary output, a value of a control
is suppressed, and elements are appended for the others and numbered in this order, or nothing is
shown for them. -/
theorem plan_generate
    (compiled : ∀ cell ∈ cells, ∃ source : SourceCell, source.compile = .ok cell)
    (distinct : (cells.map (·.index)).Nodup) {workspace : List String} {fallback : String}
    (generated : Library.generate cells name workspace fallback = .ok library)
    (targets : List String) (appends : Bool) :
    ∃ (entries : List PlanEntry) (ordered : List CompiledCell),
      plan library.module targets appends = .ok entries ∧ ordered.Perm cells ∧
      ordered.Pairwise (fun cell other => cell.index < other.index) ∧
      entries.map (fun entry => (entry.cell, entry.output)) =
        ordered.flatMap (fun cell =>
          if cell.outputs = [] then [(some cell.index, none)]
          else cell.outputs.map fun output => (some cell.index, some output)) ∧
      (∀ cell ∈ cells, ∀ entry ∈ entries, entry.cell = some cell.index →
        (∀ label, entry.placement = .target label ↔
          ∃ key, label = Page.targetLabel key ∧ FirstAmong targets cell.keys key ∧
            ∀ output, entry.output = some output → cell.Primary (definedNames cells) key output) ∧
        (∀ value, entry.output = some value → controlName value ∈ definedNames cells →
          entry.placement = .suppressed) ∧
        ((∀ label, entry.placement ≠ .target label) →
          (∀ value, entry.output = some value → controlName value ∉ definedNames cells) →
          if appends then ∃ label, entry.placement = .appended label else entry.placement = .suppressed) ∧
        entry.placement ≠ .evaluated) ∧
      ∃ count, entries.filterMap (·.placement.appendedLabel?) =
        (List.range' 1 count).map fun number => "appended #" ++ toString number := by
  have orders := Library.orders_of_generate compiled distinct generated
  refine ⟨_, _, orders.plan_eq targets appends, orders.same, orders.ascending, ?_, ?_, _,
    filterMap_plannedFrom _ 0 _⟩
  · rw [map_plannedFrom, map_answers]
  intro cell member entry inside owns
  obtain ⟨answer, given, number, rfl⟩ := exists_of_mem_plannedFrom inside
  obtain ⟨owner, among, given⟩ := mem_flatMap.1 given
  obtain rfl : owner = cell := inj_on_of_nodup_map distinct (orders.same.subset among) member
    ((CompiledCell.goes_of_answer orders.mem_suppressedNames given).1.symm.trans (Option.some.inj owns))
  have goes := (CompiledCell.goes_of_answer orders.mem_suppressedNames given).2
  refine ⟨fun label => ?_, fun value output control => ?_, fun other free => ?_, fun evaluated => ?_⟩
  · constructor
    · intro targeted
      obtain ⟨element, placed, rfl⟩ := planned_eq_target.1 targeted
      obtain ⟨key, has, primary⟩ := goes.renderAt_iff.1 placed
      obtain ⟨first, found⟩ := CompiledCell.hasTarget_planPage rfl |>.1 has
      exact ⟨key, (of_findTarget?_planPage found).2.2, first, primary⟩
    · rintro ⟨key, rfl, first, primary⟩
      obtain ⟨element, found⟩ := exists_target_planPage first.choose_spec.choose_spec.2.2
      have placed := goes.renderAt_iff.2 ⟨key, CompiledCell.hasTarget_planPage rfl |>.2 ⟨first, found⟩, primary⟩
      exact planned_eq_target.2 ⟨element, placed, (of_findTarget?_planPage found).2.2.symm⟩
  · rw [Answer.entry, goes.suppress output control]
    rfl
  · have placed := goes.falls free fun element placed => other _ (planned_eq_target.2 ⟨element, placed, rfl⟩)
    rw [Answer.entry, placed]
    cases appends with
    | true => exact ⟨_, rfl⟩
    | false => rfl
  · rw [Answer.entry] at evaluated
    generalize answer.placement = placement at goes evaluated
    cases goes with
    | hidden | target => cases evaluated
    | fallback => cases appends <;> cases evaluated

/-- The target of the second value of a cell goes to that value. -/
theorem plan_generate_mixed :
    (∀ cell ∈ mixedCells, ∃ source : SourceCell, source.compile = .ok cell) ∧
    (mixedCells.map (·.index)).Nodup ∧
    ∃ library entries, Library.generate mixedCells "mixed" [] "latest" = .ok library ∧
      plan library.module ["cell-2", "b", "x"] true = .ok entries ∧
      entries.map (fun entry => (entry.cell, entry.output)) =
        [(some 0, some "viewof x"), (some 0, some "x"), (some 1, some "a"), (some 1, some "b"), (some 2, none)] ∧
      ∀ entry ∈ entries, entry.cell = some 1 → entry.output = some "b" →
        entry.placement = .target "[data-cell=\"b\"]" := by
  have distinct : (mixedCells.map (·.index)).Nodup := by decide
  obtain ⟨library, generated⟩ := generated_mixedCells
  obtain ⟨entries, ordered, planned, same, ascending, outputs, placed, -⟩ :=
    plan_generate compiled_mixedCells distinct generated ["cell-2", "b", "x"] true
  obtain rfl : ordered = mixedCells :=
    (inDocumentOrder_eq same ascending).symm.trans
      (inDocumentOrder_eq (.refl mixedCells) (by decide))
  refine ⟨compiled_mixedCells, distinct, library, entries, generated, planned, outputs, ?_⟩
  intro entry inside owner output
  have targeted := (placed _ (mem_cons_of_mem _ mem_cons_self) entry inside owner).1
  refine (targeted _).2 ⟨"b", by decide, ⟨["a"], ["cell-1"], rfl, by decide, by decide⟩, ?_⟩
  intro value same
  rw [output] at same
  cases same
  exact (if_pos (by decide)).mpr rfl

end Generated

end Bindery
