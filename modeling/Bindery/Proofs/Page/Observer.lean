/-
Proofs.Page.Observer -- the text of a module and a runtime ask for the same observers

The text of a module asks for an observer in every statement that begins with
`main.variable(observer(`; what it asks for is read from the statement itself
(`observerArgument?`).  A runtime makes its requests from the definitions, without the text
(`CellDefinition.requests`).  They agree on cells whose shape fits their outputs, so on every
module that is generated from compiled cells.
-/
import Bindery.Page.Mount
import Bindery.Proofs.Cell.WellFormed
import Bindery.Proofs.Json.Scalar
import Bindery.Proofs.Library.Image

namespace Bindery

open List Text CellDefinition

/-! ## One statement -/

def observerOpening : List Char := "  main.variable(observer(".toList

def observerClosing : List Char := ")).define(".toList

/-- The argument with which a statement asks for an observer, read from its text: a JSON
string, or no argument at all.  Nothing for a statement that asks for no observer. -/
def observerArgument? (stmt : String) : Option (Option String) :=
  (stripStart? observerOpening stmt.toList).bind fun rest =>
    if observerClosing.isPrefixOf rest then some none
    else
      (Json.string? rest).bind fun found =>
        if observerClosing.isPrefixOf found.2.val then some (some found.1) else none

section Statement

variable {stmt : String} {rest : List Char}

theorem closing_isPrefixOf (rest : List Char) : observerClosing.isPrefixOf (observerClosing ++ rest) :=
  isPrefixOf_iff_prefix.2 (prefix_append _ _)

theorem observerArgument?_none (text : stmt.toList = observerOpening ++ (observerClosing ++ rest)) :
    observerArgument? stmt = some none := by
  rw [observerArgument?, text, stripStart?_append, Option.bind_some, if_pos (closing_isPrefixOf rest)]

theorem observerArgument?_some {n : String}
    (text : stmt.toList = observerOpening ++ ((Json.quote n).toList ++ (observerClosing ++ rest))) :
    observerArgument? stmt = some (some n) := by
  obtain ⟨shorter, read⟩ := Json.string?_quote n (observerClosing ++ rest)
  have arg : ¬ observerClosing.isPrefixOf ((Json.quote n).toList ++ (observerClosing ++ rest)) := by
    rw [Json.quote, String.toList_ofList]
    exact Bool.false_ne_true
  rw [observerArgument?, text, stripStart?_append, Option.bind_some, if_neg arg, read, Option.bind_some,
    if_pos (closing_isPrefixOf rest)]

theorem observerArgument?_other (text : stmt.toList = "  main.define(".toList ++ rest) :
    observerArgument? stmt = none := by
  have other : ¬ observerOpening.isPrefixOf ("  main.define(".toList ++ rest) := Bool.false_ne_true
  rw [observerArgument?, text, stripStart?, if_neg other, Option.bind_none]

end Statement

def Definition.request? : Definition → Option (Option String)
  | .observed name _ _ => some name
  | .hidden _ _ _ => none

/-- **A statement asks for what its definition does.** -/
theorem observerArgument?_render (definition : Definition) :
    observerArgument? definition.render = definition.request? := by
  cases definition with
  | observed n inputs computation =>
    cases n with
    | none =>
      have opening : "  main.variable(observer()).define(".toList =
        observerOpening ++ observerClosing := by decide +kernel
      apply observerArgument?_none
      unfold Definition.render
      simp only [String.toList_append, append_assoc]
      rw [opening, append_assoc]
    | some n =>
      apply observerArgument?_some
      unfold Definition.render
      simp only [String.toList_append, append_assoc]
      rfl
  | hidden n inputs computation =>
    apply observerArgument?_other
    unfold Definition.render
    simp only [String.toList_append, append_assoc]
    rfl

/-! ## The statements of a cell -/

def CellDefinition.statements (cell : CellDefinition) : List String :=
  (cell.definitions?.getD []).map Definition.render

theorem CellDefinition.render?_eq_statements {c : CellDefinition} (fits : c.shape.Fits c.outputs) :
    c.render? = some ("\n" ++ String.join c.statements) := by
  obtain ⟨s, rendered⟩ := Option.isSome_iff_exists.1 (render?_isSome fits)
  obtain ⟨definitions, got, rfl⟩ := Option.map_eq_some_iff.1 rendered
  rw [rendered, statements, got, Option.getD_some]

theorem filterMap_request? (ns : List String) (whole : String) :
    (ns.map fun n => Definition.observed (some n) [whole] (.member n)).filterMap
      Definition.request? = ns.map some := by
  induction ns with
  | nil => rfl
  | cons n ns ih => exact congrArg (some n :: ·) ih

/-- **The statements of a cell ask for what a runtime asks for.** -/
theorem observers_statements {c : CellDefinition} (fits : c.shape.Fits c.outputs) :
    c.statements.filterMap observerArgument? = c.requests := by
  have read : c.statements.filterMap observerArgument? =
      (c.definitions?.getD []).filterMap Definition.request? := by
    rw [statements, filterMap_map]
    exact filterMap_congr fun definition _ => observerArgument?_render definition
  rw [read, requests, definitions?]
  cases shape : c.shape with
  | anonymous => rfl
  | single =>
    obtain ⟨n, outputs⟩ := fits.single.1 shape
    rw [outputs]
    rfl
  | viewPair =>
    obtain ⟨n, outputs⟩ := fits.viewPair.1 shape
    rw [outputs]
    rfl
  | multiple => exact filterMap_request? c.outputs (hiddenName c.index)

theorem statements_multiple {c : CellDefinition} (several : c.shape = .multiple) :
    ∃ hidden rest, c.statements = hidden :: rest ∧
      (∃ behind, hidden = "  main.define(" ++ Json.quote (hiddenName c.index) ++ ", " ++ behind) ∧
      observerArgument? hidden = none ∧
      rest.map observerArgument? = c.outputs.map fun name => some (some name) := by
  let whole : Definition := .hidden (hiddenName c.index) c.inputs c.procedure
  have defined : c.definitions? = some (whole :: c.outputs.map fun name =>
      .observed (some name) [hiddenName c.index] (.member name)) := by
    rw [definitions?, several]
  refine ⟨whole.render, _, by rw [statements, defined]; rfl, ?_, observerArgument?_render whole, ?_⟩
  · refine ⟨Json.quoteList c.inputs ++ (", " ++ (c.procedure.render ++ ");\n")), ?_⟩
    simp only [← String.append_assoc]
    rfl
  · rw [map_map, map_map]
    refine map_congr_left fun name _ => ?_
    rw [Function.comp_apply, Function.comp_apply, observerArgument?_render]
    rfl

/-! ## Whole modules -/

theorem Mount.names_selectAll (m : Mount) (p : Page) (requests : List (Option String)) :
    (m.selectAll p requests).1.map (·.name) = requests := by
  induction requests generalizing m p with
  | nil => rfl
  | cons q rest ih => exact congrArg (q :: ·) (ih _ _)

theorem calls_mount {p : Page} {box : ElementId} {runtime : Runtime} (connected : p.isConnected box)
    (willing : runtime.refusal = none) (module : Module) (opts : MountOptions) :
    (mount p (some box) runtime module opts).runtime.calls.map (·.name) =
      runtime.calls.map (·.name) ++ module.requests := by
  simp [mount, connected, willing, Mount.names_selectAll]

theorem mapM_render? {cs : List CellDefinition} (fits : ∀ c ∈ cs, c.shape.Fits c.outputs) :
    cs.mapM render? = some (cs.map fun c => "\n" ++ String.join c.statements) := by
  induction cs with
  | nil => rfl
  | cons c rest ih =>
    rw [mapM_cons, render?_eq_statements (fits c mem_cons_self), ih fun other mem => fits other (.tail _ mem)]
    rfl

/-- **The text of a library and a runtime ask for the same observers.**  The module ends with
the statements of its cells.  Their arguments are, one by one, the names that a runtime asks
the page for when the same module is mounted.  The object that holds the outputs of a cell is
defined by a statement that asks for no observer, and a runtime asks for the outputs only. -/
theorem observers_generate (cells : List CompiledCell)
    (compiled : ∀ cell ∈ cells, ∃ source : SourceCell, source.compile = .ok cell)
    {name : String} {workspace : List String} {fallback : String} {library : Library}
    (generated : Library.generate cells name workspace fallback = .ok library) :
    (∃ front : String, library.moduleText =
      front ++ String.join (library.module.cells.map fun cell => "\n" ++ String.join cell.statements) ++
        "  return main;\n\x7d\n") ∧
    (library.module.cells.flatMap CellDefinition.statements).filterMap observerArgument? =
      library.module.requests ∧
    (∀ (page : Page) (container : ElementId) (options : MountOptions) (runtime : Runtime),
      page.isConnected container = true → runtime.refusal = none →
      (mount page (some container) runtime library.module options).runtime.calls.map (·.name) =
        runtime.calls.map (·.name) ++
          (library.module.cells.flatMap CellDefinition.statements).filterMap observerArgument?) ∧
    ∀ cell ∈ library.module.cells, cell.shape = .multiple →
      cell.requests = cell.outputs.map some ∧
      ∃ hidden rest, cell.statements = hidden :: rest ∧
        (∃ behind, hidden = "  main.define(" ++ Json.quote (hiddenName cell.index) ++ ", " ++ behind) ∧
        observerArgument? hidden = none ∧
        rest.map observerArgument? = cell.outputs.map fun name => some (some name) := by
  obtain ⟨-, built, rendered, -⟩ := Library.generate_eq_ok.1 generated
  have fits : ∀ cell ∈ library.module.cells, cell.shape.Fits cell.outputs := by
    rw [built]
    refine fits_of_mem_ofCells name (fits_of_mem_resolveInputs fun cell member => ?_)
    obtain ⟨source, done⟩ := compiled cell (List.mem_mergeSort.1 member)
    exact (SourceCell.compile_wellFormed done).shape_fits
  have same : (library.module.cells.flatMap CellDefinition.statements).filterMap observerArgument? =
      library.module.requests := by
    rw [List.filterMap_flatMap, Module.requests]
    exact List.flatMap_congr fun cell member => observers_statements (fits cell member)
  refine ⟨?_, same, fun page container options runtime connected willing => ?_, fun cell _ several => ?_⟩
  · obtain ⟨texts, found, done⟩ := Option.bind_eq_some_iff.1 rendered
    cases (mapM_render? fits).symm.trans found
    exact ⟨_, (Option.some.inj done).symm⟩
  · rw [calls_mount connected willing, same]
  · refine ⟨?_, statements_multiple several⟩
    rw [CellDefinition.requests, several]

/-- A cell without outputs, a program with two outputs and a view, whose requests are made in
the order of the document. -/
theorem observers_generate_shapes :
    let view : CompiledCell :=
      ⟨3, ["viewof x", "x"], ["Inputs"], "return (\nInputs.range()\n);", [], [], .viewPair, false, false⟩
    let program : CompiledCell :=
      ⟨2, ["a", "b"], [], "const a = 1, b = 2;\nreturn \x7ba, b\x7d;", [], [], .multiple, false, false⟩
    let first : CompiledCell := ⟨1, [], [], "return (\n1\n);", [], [], .anonymous, false, false⟩
    (∀ cell ∈ [view, program, first], ∃ source : SourceCell, source.compile = .ok cell) ∧
      ∃ library, Library.generate [view, program, first] "shapes" [] "latest" = .ok library ∧
        (library.module.cells.flatMap CellDefinition.statements).filterMap observerArgument? =
          [none, some "a", some "b", some "viewof x", some "x"] ∧
        (mount Page.empty (some Page.body) {} library.module {}).runtime.calls.map (·.name) =
          [none, some "a", some "b", some "viewof x", some "x"] := by
  intro view program first
  have compiled : ∀ cell ∈ [view, program, first], ∃ source : SourceCell, source.compile = .ok cell :=
    compiled_of_map [⟨"3", 3, .script, "viewof x = Inputs.range()", [], true⟩,
      ⟨"2", 2, .script, "const a = 1, b = 2;", [], false⟩, ⟨"1", 1, .script, "1", [], false⟩]
      (by decide +kernel)
  have same : [first, program, view].Perm [view, program, first] :=
    List.reverse_perm [view, program, first]
  have ascending : [first, program, view].Pairwise fun cell other => cell.index < other.index := by
    decide
  have generated := Library.generate_of_pairwise "shapes" [] "latest" same ascending
    (by decide +kernel) (by decide +kernel)
  have requests : (Module.imageOf "shapes" [first, program, view]).requests =
      [none, some "a", some "b", some "viewof x", some "x"] := by
    decide +kernel
  obtain ⟨-, arguments, calls, -⟩ := observers_generate _ compiled generated
  refine ⟨compiled, _, generated, arguments.trans requests, ?_⟩
  rw [calls Page.empty Page.body {} {} (by decide) rfl, arguments, requests]
  rfl

end Bindery
