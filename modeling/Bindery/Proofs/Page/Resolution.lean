/-
Proofs.Page.Resolution -- one target for a cell, one cell for a target

The placements of a module are computed cell by cell.  Here they are described from the
outside: a cell has the target of its first key that has one (`CompiledCell.HasTarget`), and
the target goes to one output that is not hidden behind a control (`CompiledCell.Primary`).
An element of the page is a target for one key only, so two cells meet in an element only if
they share a key: an output of the one is the key that the other has by its number.
-/
import Bindery.Proofs.Library.Ownership
import Bindery.Proofs.Page.Alignment

namespace Bindery

open List

/-! ## Targets -/

/-- The first of some keys that has a target. -/
def FirstTarget (find : String → Option ElementId) (keys : List String) (key : String)
    (element : ElementId) : Prop :=
  ∃ before behind, keys = before ++ key :: behind ∧ (∀ other ∈ before, find other = none) ∧
    find key = some element

section Targets

variable {find : String → Option ElementId} {keys : List String} {key other value : String}
  {element : ElementId} {answer : Answer}

theorem firstTarget?_eq_some :
    firstTarget? find keys = some (key, element) ↔ FirstTarget find keys key element := by
  rw [firstTarget?, findSome?_eq_some_iff]
  constructor
  · rintro ⟨p, fst, behind, rfl, got, none⟩
    obtain ⟨target, got, eq⟩ := Option.map_eq_some_iff.1 got
    cases eq
    exact ⟨p, behind, rfl, fun other mem => Option.map_eq_none_iff.1 (none other mem), got⟩
  · rintro ⟨p, behind, rfl, none, got⟩
    exact ⟨p, key, behind, rfl, by rw [got]; rfl, fun other mem => by rw [none other mem]; rfl⟩

theorem firstTarget?_eq_none : firstTarget? find keys = none ↔ ∀ key ∈ keys, find key = none := by
  simp [firstTarget?]

end Targets

namespace CompiledCell

variable {find : String → Option ElementId} {options : MountOptions} {cell : CompiledCell}
  {names suppressed : List String} {key output : String} {element : ElementId}

/-- The keys of a cell: its outputs, and the key that it has by its number. -/
def keys (cell : CompiledCell) : List String :=
  cell.outputs ++ [cellKey cell.index]

/-- The target of a cell, with the key that leads to it: the caller's, and the page's if the
caller has none for any key of the cell. -/
inductive HasTarget (find : String → Option ElementId) (options : MountOptions) (cell : CompiledCell)
    (key : String) (element : ElementId) : Prop
  | chosen (first : FirstTarget (options.targets.find? ·) cell.keys key element)
  | found (none : ∀ other ∈ cell.keys, options.targets.find? other = none)
      (first : FirstTarget find cell.keys key element)

theorem target?_eq_some :
    cell.toEntry.target? find options = some (key, element) ↔ cell.HasTarget find options key element := by
  have eq : cell.toEntry.keys = cell.keys := rfl
  rw [CellEntry.target?, eq, Option.or_eq_some_iff, firstTarget?_eq_some, firstTarget?_eq_some,
    firstTarget?_eq_none]
  constructor
  · rintro (fst | ⟨none, fst⟩)
    · exact .chosen fst
    · exact .found none fst
  · rintro (fst | ⟨none, fst⟩)
    · exact .inl fst
    · exact .inr ⟨none, fst⟩

/-- A cell has a target if the caller or the page has one for one of its keys. -/
theorem exists_hasTarget :
    (∃ key element, cell.HasTarget find options key element) ↔
      ∃ key ∈ cell.keys, (options.targets.find? key).isSome ∨ (find key).isSome := by
  have none : cell.toEntry.target? find options = none ↔
      (∀ key ∈ cell.keys, options.targets.find? key = none) ∧ ∀ key ∈ cell.keys, find key = none := by
    rw [CellEntry.target?, Option.or_eq_none_iff, firstTarget?_eq_none, firstTarget?_eq_none]
    rfl
  simp only [← target?_eq_some]
  constructor
  · rintro ⟨key, element, got⟩
    by_contra absent
    rw [none.2 ⟨fun key mem => ?_, fun key mem => ?_⟩] at got
    · cases got
    · exact Option.not_isSome_iff_eq_none.1 fun some => absent ⟨key, mem, .inl some⟩
    · exact Option.not_isSome_iff_eq_none.1 fun some => absent ⟨key, mem, .inr some⟩
  · rintro ⟨key, mem, some⟩
    cases got : cell.toEntry.target? find options with
    | some pair => exact ⟨pair.1, pair.2, rfl⟩
    | none =>
      obtain ⟨caller, p⟩ := none.1 got
      rw [caller key mem, p key mem] at some
      simp at some

theorem HasTarget.element_eq {another : ElementId} (fst : cell.HasTarget find options key element)
    (snd : cell.HasTarget find options other another) : key = other ∧ element = another := by
  have eq := (target?_eq_some.2 fst).symm.trans (target?_eq_some.2 snd)
  simpa using eq

/-! ## The output that is shown -/

/-- The outputs of a cell that are not the value of a control, among cells that define the
given names. -/
def shown (names : List String) (cell : CompiledCell) : List String :=
  cell.outputs.filter (controlName · ∉ names)

/-- The output that the target of a cell goes to: the key that led to the target, or else the
first output that is shown. -/
def Primary (names : List String) (cell : CompiledCell) (key output : String) : Prop :=
  if key ∈ cell.shown names then output = key else (cell.shown names).head? = some output

section

variable (primary : cell.Primary names key output)
include primary

theorem Primary.mem_shown : output ∈ cell.shown names := by
  unfold Primary at primary
  split at primary
  · next inside => exact primary ▸ inside
  · exact mem_of_head? primary

theorem Primary.free : controlName output ∉ names := of_decide_eq_true (mem_filter.1 primary.mem_shown).2

theorem Primary.eq (another : cell.Primary names key other) : output = other := by
  unfold Primary at primary another
  split at primary
  · next inside =>
    rw [if_pos inside] at another
    rw [primary, another]
  · next outside =>
    rw [if_neg outside] at another
    exact Option.some.inj (primary.symm.trans another)

end

theorem exists_primary (some : cell.shown names ≠ []) (key : String) :
    ∃ output, cell.Primary names key output := by
  unfold Primary
  split
  · exact ⟨key, rfl⟩
  · exact ⟨_, head?_eq_some_head some⟩

/-- Where an output of a cell goes, or the cell itself if it has none: nowhere as the value of a
control, to the target of the cell as its primary output, and to the fallback otherwise. -/
inductive Goes (find : String → Option ElementId) (options : MountOptions) (names : List String)
    (cell : CompiledCell) (output : Option String) : Placement → Prop
  | hidden {value : String} (defines : value ∈ output) (control : controlName value ∈ names) :
      Goes find options names cell output .suppress
  | target {key : String} {element : ElementId} (has : cell.HasTarget find options key element)
      (primary : ∀ value ∈ output, cell.Primary names key value) :
      Goes find options names cell output (.renderAt element)
  | fallback (free : ∀ value ∈ output, controlName value ∉ names)
      (other : ∀ {key element}, cell.HasTarget find options key element →
        ¬ ∀ value ∈ output, cell.Primary names key value) :
      Goes find options names cell output options.fallback

theorem fallback_ne_renderAt (options : MountOptions) (element : ElementId) :
    options.fallback ≠ .renderAt element := by
  unfold MountOptions.fallback
  repeat' split
  all_goals exact fun eq => by cases eq

namespace Goes

variable {output : Option String} {placement : Placement}

section

variable (goes : cell.Goes find options names output placement)
include goes

/-- **An output is shown in the target of its cell exactly when it is the primary one.** -/
theorem renderAt_iff {element : ElementId} :
    placement = .renderAt element ↔
      ∃ key, cell.HasTarget find options key element ∧ ∀ value ∈ output, cell.Primary names key value := by
  constructor
  · intro rendered
    cases goes with
    | hidden => cases rendered
    | target has primary =>
      cases rendered
      exact ⟨_, has, primary⟩
    | fallback => exact absurd rendered (fallback_ne_renderAt options element)
  · rintro ⟨key, hasToo, primaryToo⟩
    cases goes with
    | hidden defines control => exact absurd control (primaryToo _ defines).free
    | target has => rw [(hasToo.element_eq has).2]
    | fallback _ other => exact absurd primaryToo (other hasToo)

theorem suppress (defines : value ∈ output) (control : controlName value ∈ names) : placement = .suppress := by
  cases goes with
  | hidden => rfl
  | target _ primary => exact absurd control (primary _ defines).free
  | fallback free => exact absurd control (free _ defines)

theorem falls (free : ∀ value ∈ output, controlName value ∉ names)
    (other : ∀ element, placement ≠ .renderAt element) : placement = options.fallback := by
  cases goes with
  | hidden defines control => exact absurd control (free _ defines)
  | target => exact absurd rfl (other _)
  | fallback => rfl

end

end Goes

section Hidden

variable (hides : ∀ value, value ∈ suppressed ↔ controlName value ∈ names)

include hides

theorem primary?_eq_some :
    cell.toEntry.primary? suppressed (some key) = some output ↔ cell.Primary names key output := by
  have vis : cell.toEntry.visible suppressed = cell.shown names := by
    refine filter_congr fun name _ => ?_
    rw [Bool.eq_iff_iff]
    simp [hides]
  rw [CellEntry.primary?, vis, Primary, Option.filter_some]
  by_cases inside : key ∈ cell.shown names
  · rw [if_pos (contains_iff_mem.2 inside), if_pos inside, Option.some_or, Option.some.injEq, eq_comm]
  · rw [if_neg (mt contains_iff_mem.1 inside), if_neg inside, Option.none_or]

theorem goes_placementOf (find : String → Option ElementId) (options : MountOptions) (cell : CompiledCell)
    (output : String) :
    cell.Goes find options names (some output) (cell.toEntry.placementOf suppressed
      (cell.toEntry.target? find options) options.fallback output) := by
  unfold CellEntry.placementOf
  by_cases hidden : output ∈ suppressed
  · rw [if_pos (contains_iff_mem.2 hidden)]
    exact .hidden rfl ((hides output).1 hidden)
  rw [if_neg (by simpa using hidden)]
  have free : ∀ value ∈ some output, controlName value ∉ names := by
    rintro value ⟨⟩
    exact mt (hides output).2 hidden
  cases got : cell.toEntry.target? find options with
  | none =>
    refine .fallback free fun has => ?_
    rw [target?_eq_some.2 has] at got
    cases got
  | some pair =>
    have has := target?_eq_some.1 got
    dsimp only
    split
    · next primary =>
      refine .target has ?_
      rintro value ⟨⟩
      exact (primary?_eq_some hides).1 primary
    · next other =>
      refine .fallback free fun hasToo primary => other ?_
      rw [← (hasToo.element_eq has).1]
      exact (primary?_eq_some hides).2 (primary output rfl)

theorem goes_of_answer (given : answer ∈ cell.answers find options suppressed) :
    answer.cell = cell.index ∧ cell.Goes find options names answer.output answer.placement := by
  unfold answers at given
  split at given
  · rw [mem_singleton.1 given, ownPlacement]
    refine ⟨rfl, ?_⟩
    cases got : cell.toEntry.target? find options with
    | some pair => exact .target (target?_eq_some.1 got) fun value none => by cases none
    | none =>
      refine .fallback (fun value none => by cases none) fun has => ?_
      rw [target?_eq_some.2 has] at got
      cases got
  · obtain ⟨output, -, rfl⟩ := mem_map.1 given
    exact ⟨rfl, goes_placementOf hides find options cell output⟩

end Hidden

end CompiledCell

/-! ## Generated libraries -/

theorem controlledValue?_eq_some {name : String} :
    controlledValue? name = some value ↔ name = controlName value := by
  constructor
  · intro got
    obtain ⟨r, stripped, rfl⟩ := Option.map_eq_some_iff.1 got
    rw [controlName, ← String.toList_inj, String.toList_append, String.toList_ofList]
    exact eq_append_of_stripStart? stripped
  · rintro rfl
    exact controlledValue?_controlName value

/-- The order that the module of a library has its compiled cells in. -/
structure Library.Orders (library : Library) (name : String) (cells ordered : List CompiledCell) :
    Prop where
  same : ordered.Perm cells
  ascending : ordered.Pairwise fun cell other => cell.index < other.index
  unique : duplicateOutput? ordered = none
  distinct : (definedNames ordered).Nodup
  fits : ∀ cell ∈ ordered, cell.shape.Fits cell.outputs
  module_eq : library.module = Module.imageOf name ordered

section Generated

variable {cells ordered : List CompiledCell} {name : String} {library : Library}

theorem Library.orders_of_generate (compiled : ∀ cell ∈ cells, ∃ src : SourceCell, src.compile = .ok cell)
    (nodup : (cells.map (·.index)).Nodup) {workspace : List String} {fallback : String}
    (gen : Library.generate cells name workspace fallback = .ok library) :
    library.Orders name cells (inDocumentOrder cells) := by
  have eq := inDocumentOrder_perm cells
  have ascending := pairwise_inDocumentOrder nodup
  have wellFormed : ∀ cell ∈ inDocumentOrder cells, cell.WellFormed := by
    intro cell mem
    obtain ⟨src, done⟩ := compiled cell (eq.subset mem)
    exact SourceCell.compile_wellFormed done
  obtain ⟨unique, built, -, -⟩ := (Library.generate_eq_ok_of_pairwise eq ascending).1 gen
  exact ⟨eq, ascending, unique, nodup_definedNames ascending unique fun cell mem =>
    (wellFormed cell mem).outputs_nodup, fun cell mem => (wellFormed cell mem).shape_fits, built⟩

namespace Library.Orders

variable (orders : library.Orders name cells ordered)

include orders

/-- The requests of a library are answered cell by cell, and no cell is left in the queue. -/
theorem advances (p : Page) (box : ElementId) (options : MountOptions) :
    let fresh : Mount := ⟨Placements.build p.findTarget? library.module options, box, [], .running⟩
    fresh.Advances (ordered.flatMap
      (CompiledCell.answers p.findTarget? options library.module.suppressedNames)) []
      (fresh.selectAll p library.module.requests).2.1 := by
  intro fresh
  have requests : library.module.requests = ordered.flatMap fun cell => (cell.image ordered).requests := by
    rw [orders.module_eq]
    exact flatMap_map _ _ _
  have built : fresh.placements = { Placements.build p.findTarget? (Module.imageOf name ordered) options with
      anonymous := waiting p.findTarget? options ordered } := by
    simp only [fresh, orders.module_eq, Placements.build, orderedDirectory_imageOf name orders.ascending, waiting]
  rw [requests, orders.module_eq]
  exact advances_cells p.findTarget? options name orders.ascending orders.distinct orders.fits ordered
    (List.Subset.refl _) fresh p built

theorem mem_definedNames {output : String} : output ∈ definedNames ordered ↔ output ∈ definedNames cells :=
  (orders.same.flatMap_right _).mem_iff

theorem mem_suppressedNames (value : String) :
    value ∈ library.module.suppressedNames ↔ controlName value ∈ definedNames cells := by
  rw [orders.module_eq, ← orders.mem_definedNames, Module.suppressedNames, Module.imageOf, flatMap_map,
    mem_filterMap]
  simp only [controlledValue?_eq_some, exists_eq_right]
  rfl

/-- The placement of an output in the table. -/
theorem placement_build (find : String → Option ElementId) (options : MountOptions) {cell : CompiledCell}
    (mem : cell ∈ cells) {output : String} (defines : output ∈ cell.outputs) :
    (Placements.build find library.module options).placement output =
      cell.toEntry.placementOf library.module.suppressedNames (cell.toEntry.target? find options)
        options.fallback output := by
  rw [orders.module_eq, Placements.placement, Placements.find?_build find options name orders.ascending
    orders.distinct (orders.same.symm.subset mem) defines]
  rfl

end Library.Orders

theorem Library.Orders.follows_of_mount (orders : library.Orders name cells ordered) {p : Page}
    {box : Option ElementId} {runtime : Runtime} {options : MountOptions} {mounted : Mount}
    (done : (mount p box runtime library.module options).result = .ok mounted) :
    List.Forall₂ MountBinding.Follows mounted.bindings (ordered.flatMap
      (CompiledCell.answers p.findTarget? options library.module.suppressedNames)) := by
  unfold mount at done
  split at done
  · cases done
  · next box =>
    split at done
    · cases done
    · split at done
      · cases done
      · cases done
        obtain ⟨bs, follow, after⟩ := orders.advances p box options
        rw [after]
        exact follow

theorem Placement.Yields.eq_renderAt {placement : Placement} {outcome : Outcome} {element : ElementId}
    (yields : placement.Yields outcome) (rendered : outcome = .rendered element) :
    placement = .renderAt element := by
  subst rendered
  cases yields
  rfl

theorem exists_of_forall₂ {α β : Type} {R : α → β → Prop} {fst : List α} {snd : List β}
    (related : List.Forall₂ R fst snd) {item : α} (mem : item ∈ fst) : ∃ other ∈ snd, R item other := by
  induction related with
  | nil => cases mem
  | @cons _ other _ _ here _ ih =>
    rcases mem_cons.1 mem with rfl | later
    · exact ⟨other, mem_cons_self, here⟩
    · obtain ⟨got, inside, there⟩ := ih later
      exact ⟨got, mem_cons_of_mem _ inside, there⟩

/-- **A cell is shown once at most, and the value of a control never.** -/
theorem placements_generate
    (compiled : ∀ cell ∈ cells, ∃ source : SourceCell, source.compile = .ok cell)
    (distinct : (cells.map (·.index)).Nodup) {workspace : List String} {fallback : String}
    (generated : Library.generate cells name workspace fallback = .ok library)
    (find : String → Option ElementId) (options : MountOptions) :
    let table := Placements.build find library.module options
    let names := definedNames cells
    (∀ value, controlName value ∈ names →
      table.isSuppressed value = true ∧ (value ∈ names → table.placement value = .suppress)) ∧
    ∀ cell ∈ cells,
      (cell.shown names ≠ [] →
        (∃ key ∈ cell.keys, (options.targets.find? key).isSome = true ∨ (find key).isSome = true) →
        ∃! output, output ∈ cell.outputs ∧ ∃ element, table.placement output = .renderAt element) ∧
      ((cell.shown names = [] ∨
          ∀ key ∈ cell.keys, options.targets.find? key = none ∧ find key = none) →
        ∀ output ∈ cell.outputs, ∀ element, table.placement output ≠ .renderAt element) ∧
      ∀ output ∈ cell.outputs,
        (∀ element, table.placement output = .renderAt element ↔
          ∃ key, cell.HasTarget find options key element ∧ cell.Primary names key output) ∧
        (controlName output ∉ names → (∀ element, table.placement output ≠ .renderAt element) →
          table.placement output = options.fallback) := by
  intro table names
  have orders := Library.orders_of_generate compiled distinct generated
  have hides := orders.mem_suppressedNames
  have goes {cell : CompiledCell} (member : cell ∈ cells) {output : String} (defines : output ∈ cell.outputs) :
      cell.Goes find options names (some output) (table.placement output) :=
    orders.placement_build find options member defines ▸
      CompiledCell.goes_placementOf hides find options cell output
  have renders {cell : CompiledCell} (member : cell ∈ cells) {output : String} (defines : output ∈ cell.outputs)
      (element : ElementId) : table.placement output = .renderAt element ↔
        ∃ key, cell.HasTarget find options key element ∧ cell.Primary names key output := by
    rw [(goes member defines).renderAt_iff]
    simp
  refine ⟨fun value control => ⟨contains_iff_mem.2 ((hides value).2 control), fun defined => ?_⟩,
    fun cell member => ⟨fun some target => ?_, fun nothing output defines element rendered => ?_,
      fun output defines => ⟨renders member defines, fun free other => ?_⟩⟩⟩
  · obtain ⟨cell, member, defines⟩ := mem_flatMap.1 defined
    exact (goes member defines).suppress rfl control
  · obtain ⟨key, element, has⟩ := CompiledCell.exists_hasTarget.2 target
    obtain ⟨output, primary⟩ := CompiledCell.exists_primary some key
    have defines := (mem_filter.1 primary.mem_shown).1
    refine ⟨output, ⟨defines, element, (renders member defines element).2 ⟨key, has, primary⟩⟩, ?_⟩
    rintro other ⟨definesToo, another, rendered⟩
    obtain ⟨otherKey, hasToo, primaryToo⟩ := (renders member definesToo another).1 rendered
    obtain ⟨rfl, -⟩ := hasToo.element_eq has
    exact primaryToo.eq primary
  · obtain ⟨key, has, primary⟩ := (renders member defines element).1 rendered
    rcases nothing with none | none
    · exact absurd primary.mem_shown (none ▸ not_mem_nil)
    · obtain ⟨key, inside, found⟩ := CompiledCell.exists_hasTarget.1 ⟨key, element, has⟩
      rw [(none key inside).1, (none key inside).2] at found
      simp at found
  · refine (goes member defines).falls (fun value same => ?_) other
    cases same
    exact free

/-- A view, a cell with two outputs, and a cell without any. -/
def mixedCells : List CompiledCell :=
  [⟨0, ["viewof x", "x"], ["Inputs"], "return (\nInputs.range()\n);", [], [], .viewPair, false, false⟩,
    ⟨1, ["a", "b"], [], "const a = 1, b = 2;\nreturn \x7ba, b\x7d;", [], [], .multiple, false, false⟩,
    ⟨2, [], ["x"], "return (\nx\n);", [], [], .anonymous, false, false⟩]

theorem compiled_mixedCells : ∀ cell ∈ mixedCells, ∃ src : SourceCell, src.compile = .ok cell :=
  compiled_of_map [⟨"0", 0, .script, "viewof x = Inputs.range()", [], true⟩,
    ⟨"1", 1, .script, "const a = 1, b = 2;", [], false⟩, ⟨"2", 2, .script, "x", [], false⟩]
    (by decide +kernel)

theorem generated_mixedCells : ∃ library, Library.generate mixedCells "mixed" [] "latest" = .ok library :=
  ⟨_, Library.generate_of_pairwise "mixed" [] "latest" (.refl _) (by decide) (by decide +kernel)
    (by decide +kernel)⟩

/-- The caller's target for the value of a control goes to the control. -/
theorem placements_generate_mixed :
    (∀ cell ∈ mixedCells, ∃ source : SourceCell, source.compile = .ok cell) ∧
    (mixedCells.map (·.index)).Nodup ∧
    ∃ library, Library.generate mixedCells "mixed" [] "latest" = .ok library ∧
      let table := Placements.build (fun key => if key = "a" then some 9 else none) library.module
        { targets := [("b", 8), ("x", 7)], appendUnmatched := true }
      table.placement "viewof x" = .renderAt 7 ∧ table.placement "x" = .suppress ∧
        table.placement "b" = .renderAt 8 := by
  have distinct : (mixedCells.map (·.index)).Nodup := by decide
  obtain ⟨library, generated⟩ := generated_mixedCells
  obtain ⟨values, shown⟩ := placements_generate compiled_mixedCells distinct generated
    (fun key => if key = "a" then some 9 else none)
    { targets := [("b", 8), ("x", 7)], appendUnmatched := true }
  refine ⟨compiled_mixedCells, distinct, library, generated, ?_, (values "x" (by decide)).2 (by decide), ?_⟩
  · refine (((shown _ mem_cons_self).2.2 "viewof x" mem_cons_self).1 7).2 ⟨"x", .chosen ⟨["viewof x"], ["cell-0"], rfl, by decide, rfl⟩, ?_⟩
    exact (if_neg (by decide)).mpr rfl
  · refine (((shown _ (mem_cons_of_mem _ mem_cons_self)).2.2 "b" (by decide)).1 8).2
      ⟨"b", .chosen ⟨["a"], ["cell-1"], rfl, by decide, rfl⟩, ?_⟩
    exact (if_pos (by decide)).mpr rfl

/-- An output that has the name of a control hides the output of another cell, which then has
nothing to show in its target. -/
theorem placement_declared_control :
    let control : CompiledCell := ⟨0, ["viewof x"], [], "return (\n1\n);", [], [], .single, false, false⟩
    let value : CompiledCell := ⟨1, ["x"], [], "return (\n2\n);", [], [], .single, false, false⟩
    (∀ cell ∈ [control, value], ∃ source : SourceCell, source.compile = .ok cell) ∧
    ([control, value].map (·.index)).Nodup ∧
    ∃ library, Library.generate [control, value] "hidden" [] "latest" = .ok library ∧
      ∀ find : String → Option ElementId, find "x" = some 1 →
        ∀ output ∈ value.outputs, ∀ element,
          (Placements.build find library.module {}).placement output ≠ .renderAt element := by
  intro control value
  refine ⟨compiled_of_map [⟨"0", 0, .script, "1", ["viewof x"], false⟩,
    ⟨"1", 1, .script, "2", ["x"], false⟩] (by decide +kernel), by decide, _,
    Library.generate_of_pairwise "hidden" [] "latest" (.refl _) (by decide) (by decide +kernel)
      (by decide +kernel), fun find _ output defines element shows => ?_⟩
  · rw [mem_singleton.1 defines, Placements.placement, Placements.find?_build find {} "hidden"
      (by decide : [control, value].Pairwise fun cell other => cell.index < other.index) (by decide)
      (mem_cons_of_mem _ mem_cons_self) mem_cons_self] at shows
    cases shows

/-! ## Elements -/

theorem Page.cellName_of_findTarget? {p : Page} {key : String} {element : ElementId}
    (got : p.findTarget? key = some element) :
    ∃ node, p.nodes[element]? = some node ∧ node.cellName = some key := by
  have target := find?_some got
  rw [isTargetFor, Bool.and_eq_true, Option.any_eq_true] at target
  obtain ⟨⟨node, there, named⟩, -⟩ := target
  exact ⟨node, there, beq_iff_eq.1 named⟩

/-- Without a mapping of the caller, a target is one that the page has for a key. -/
theorem CompiledCell.HasTarget.first_of_unmapped {find : String → Option ElementId} {options : MountOptions}
    {cell : CompiledCell} {key : String} {element : ElementId} (unmapped : options.targets = [])
    (target : cell.HasTarget find options key element) : FirstTarget find cell.keys key element := by
  rcases target with ⟨p, behind, -, -, got⟩ | ⟨-, fst⟩
  · rw [unmapped] at got
    cases got
  · exact fst

/-- Cells that share a key are one cell, unless the key is an output of the one and the number
of the other. -/
theorem Library.Orders.index_eq_of_mem_keys (orders : library.Orders name cells ordered)
    (apart : ∀ cell ∈ cells, ∀ other ∈ cells, cell.index ≠ other.index → cellKey other.index ∉ cell.outputs)
    {cell other : CompiledCell} (mem : cell ∈ ordered) (otherMember : other ∈ ordered) {key : String}
    (inside : key ∈ cell.keys) (insideToo : key ∈ other.keys) : cell.index = other.index := by
  have here := orders.same.subset mem
  have there := orders.same.subset otherMember
  by_contra different
  rcases mem_append.1 inside with defines | own <;> rcases mem_append.1 insideToo with definesToo | ownToo
  · exact different (index_eq_of_mem_outputs orders.unique mem otherMember defines definesToo)
  · exact apart cell here other there different (mem_singleton.1 ownToo ▸ defines)
  · exact apart other there cell here (Ne.symm different) (mem_singleton.1 own ▸ definesToo)
  · exact different (index_eq_of_append ((mem_singleton.1 own).symm.trans (mem_singleton.1 ownToo)))

/-- **No element receives two cells**, on any page and without a mapping of the caller, if no
output of a cell is the key that another cell has by its number. -/
theorem rendered_cell_unique {document : String} {notebook : Notebook}
    (parsed : Notebook.parse document = .ok notebook) {workspace : List String} {fallback : String}
    (generated : Library.generate (compileAll notebook.cells).1 name workspace fallback = .ok library)
    (apart : ∀ cell ∈ (compileAll notebook.cells).1, ∀ other ∈ (compileAll notebook.cells).1,
      cell.index ≠ other.index → cellKey other.index ∉ cell.outputs)
    {page : Page} {container : Option ElementId} {runtime : Runtime} {options : MountOptions}
    (unmapped : options.targets = []) {mounted : Mount}
    (done : (mount page container runtime library.module options).result = .ok mounted) :
    ∀ binding ∈ mounted.bindings, ∀ other ∈ mounted.bindings, ∀ element,
      binding.outcome = .rendered element → other.outcome = .rendered element →
        binding.cell = other.cell := by
  have orders := Library.orders_of_generate
    (fun cell member => by
      obtain ⟨source, -, compiled⟩ := mem_compileAll member
      exact ⟨source, compiled⟩)
    (pairwise_map.2 ((pairwise_compileAll (Notebook.pairwise_cells parsed)).imp Nat.ne_of_lt)) generated
  have follow := orders.follows_of_mount done
  -- a binding that is rendered leads back to a cell with a key for the element
  have keyed : ∀ binding ∈ mounted.bindings, ∀ element, binding.outcome = .rendered element →
      ∃ cell ∈ inDocumentOrder (compileAll notebook.cells).1, binding.cell = some cell.index ∧
        ∃ key ∈ cell.keys, page.findTarget? key = some element := by
    intro binding member element rendered
    obtain ⟨answer, given, follows⟩ := exists_of_forall₂ follow member
    obtain ⟨cell, inside, given⟩ := mem_flatMap.1 given
    obtain ⟨owns, goes⟩ := CompiledCell.goes_of_answer orders.mem_suppressedNames given
    obtain ⟨key, has, -⟩ := goes.renderAt_iff.1 (follows.outcome.eq_renderAt rendered)
    obtain ⟨before, behind, keys, -, found⟩ := has.first_of_unmapped unmapped
    exact ⟨cell, inside, follows.cell.trans (congrArg some owns), key,
      keys ▸ mem_append_right _ mem_cons_self, found⟩
  intro binding member other otherMember element rendered renderedToo
  obtain ⟨cell, inside, owns, key, mine, found⟩ := keyed binding member element rendered
  obtain ⟨another, insideToo, ownsToo, otherKey, theirs, foundToo⟩ := keyed other otherMember element renderedToo
  -- an element is a target for one name, so the keys are equal
  obtain ⟨node, there, named⟩ := Page.cellName_of_findTarget? found
  obtain ⟨same, thereToo, namedToo⟩ := Page.cellName_of_findTarget? foundToo
  cases there.symm.trans thereToo
  cases named.symm.trans namedToo
  rw [owns, ownsToo, orders.index_eq_of_mem_keys apart inside insideToo mine theirs]

end Generated

/-- An answer that leads to an element has a binding that is rendered there. -/
theorem exists_rendered {bs : List MountBinding} {answers : List Answer}
    (follow : List.Forall₂ MountBinding.Follows bs answers) {element : ElementId}
    (given : answer ∈ answers) (placed : answer.placement = .renderAt element) :
    ∃ b ∈ bs, b.cell = some answer.cell ∧ b.outcome = .rendered element := by
  obtain ⟨b, inside, follows⟩ :=
    exists_of_forall₂ (List.Forall₂.flip (R := flip MountBinding.Follows) follow) given
  have yields := follows.outcome
  rw [placed] at yields
  refine ⟨b, inside, follows.cell, ?_⟩
  cases outcome : b.outcome <;> rw [outcome] at yields <;> cases yields
  rfl

/-- Mounts a document, with a fact about its cells. -/
theorem exists_mounted (document : String) (p : Page) {P : List CompiledCell → Bool}
    (known : ((Notebook.parse document).toOption.any fun nb =>
      let cells := (compileAll nb.cells).1
      (duplicateOutput? cells).isNone && (Module.imageOf "keys" cells).render?.isSome && P cells)) :
    ∃ nb library mounted, Notebook.parse document = .ok nb ∧
      Library.generate (compileAll nb.cells).1 "keys" [] "latest" = .ok library ∧
      (mount p (some Page.body) {} library.module {}).result = .ok mounted ∧
      List.Forall₂ MountBinding.Follows mounted.bindings ((compileAll nb.cells).1.flatMap
        (CompiledCell.answers p.findTarget? {}
          (Module.imageOf "keys" (compileAll nb.cells).1).suppressedNames)) ∧
      P (compileAll nb.cells).1 := by
  cases parsed : Notebook.parse document with
  | error fault => rw [parsed] at known; cases known
  | ok nb =>
    simp only [parsed, Except.toOption, Option.any_some, Bool.and_eq_true, Option.isNone_iff_eq_none] at known
    obtain ⟨⟨unique, shown⟩, fact⟩ := known
    have ascending := pairwise_compileAll (Notebook.pairwise_cells parsed)
    have gen := Library.generate_of_pairwise "keys" [] "latest" (.refl _) ascending unique shown
    have connected : p.isConnected Page.body := by
      rw [Page.isConnected]
      cases p.nodes.length <;> rfl
    have done := mount_of_connected connected (rfl : Runtime.refusal {} = none)
      (Module.imageOf "keys" (compileAll nb.cells).1) {}
    have orders := Library.orders_of_generate
      (fun cell mem => by
        obtain ⟨src, -, compiled⟩ := mem_compileAll mem
        exact ⟨src, compiled⟩)
      (pairwise_map.2 (ascending.imp Nat.ne_of_lt)) gen
    have follow := orders.follows_of_mount done
    rw [inDocumentOrder_eq (.refl _) ascending] at follow
    exact ⟨nb, _, _, rfl, gen, done, follow, fact⟩

/-- A cell without outputs and one with an output, each with its own target. -/
theorem rendered_cell_unique_pair :
    ∃ notebook library mounted,
      Notebook.parse "<notebook><script>1</script><script>a = 2</script></notebook>" = .ok notebook ∧
      Library.generate (compileAll notebook.cells).1 "keys" [] "latest" = .ok library ∧
      (∀ cell ∈ (compileAll notebook.cells).1, ∀ other ∈ (compileAll notebook.cells).1,
        cell.index ≠ other.index → cellKey other.index ∉ cell.outputs) ∧
      (mount ((Page.empty.target "cell-0").2.target "a").2 (some Page.body) {} library.module {}).result =
        .ok mounted ∧
      (∃ binding ∈ mounted.bindings, binding.cell = some 0 ∧ binding.outcome = .rendered 1) ∧
      (∃ binding ∈ mounted.bindings, binding.cell = some 1 ∧ binding.outcome = .rendered 2) ∧
      ∀ binding ∈ mounted.bindings, ∀ other ∈ mounted.bindings, ∀ element,
        binding.outcome = .rendered element → other.outcome = .rendered element →
          binding.cell = other.cell := by
  obtain ⟨notebook, library, mounted, parsed, generated, done, follow, known⟩ :=
    exists_mounted "<notebook><script>1</script><script>a = 2</script></notebook>"
      ((Page.empty.target "cell-0").2.target "a").2
      (P := fun cells => decide ((∀ cell ∈ cells, ∀ other ∈ cells, cell.index ≠ other.index →
          cellKey other.index ∉ cell.outputs) ∧
        cells.flatMap (CompiledCell.answers ((Page.empty.target "cell-0").2.target "a").2.findTarget? {}
          (Module.imageOf "keys" cells).suppressedNames) =
            [⟨0, none, .renderAt 1⟩, ⟨1, some "a", .renderAt 2⟩])) (by decide +kernel)
  obtain ⟨apart, answers⟩ := of_decide_eq_true known
  rw [answers] at follow
  exact ⟨notebook, library, mounted, parsed, generated, apart, done,
    exists_rendered follow mem_cons_self rfl, exists_rendered follow (mem_cons_of_mem _ mem_cons_self) rfl,
    rendered_cell_unique parsed generated apart rfl done⟩

/-- An output that is the key of the next cell: both cells are rendered in one element. -/
theorem rendered_cell_shared :
    ∃ notebook library mounted,
      Notebook.parse "<notebook><script output=\"cell-1\">1</script><script>2</script></notebook>" =
        .ok notebook ∧
      Library.generate (compileAll notebook.cells).1 "keys" [] "latest" = .ok library ∧
      (mount (Page.empty.target "cell-1").2 (some Page.body) {} library.module {}).result = .ok mounted ∧
      (∃ binding ∈ mounted.bindings, binding.cell = some 0 ∧ binding.outcome = .rendered 1) ∧
      ∃ binding ∈ mounted.bindings, binding.cell = some 1 ∧ binding.outcome = .rendered 1 := by
  obtain ⟨notebook, library, mounted, parsed, generated, done, follow, known⟩ :=
    exists_mounted "<notebook><script output=\"cell-1\">1</script><script>2</script></notebook>"
      (Page.empty.target "cell-1").2
      (P := fun cells => decide (cells.flatMap (CompiledCell.answers (Page.empty.target "cell-1").2.findTarget? {}
        (Module.imageOf "keys" cells).suppressedNames) =
          [⟨0, some "cell-1", .renderAt 1⟩, ⟨1, none, .renderAt 1⟩])) (by decide +kernel)
  rw [of_decide_eq_true known] at follow
  exact ⟨notebook, library, mounted, parsed, generated, done, exists_rendered follow mem_cons_self rfl,
    exists_rendered follow (mem_cons_of_mem _ mem_cons_self) rfl⟩

end Bindery
