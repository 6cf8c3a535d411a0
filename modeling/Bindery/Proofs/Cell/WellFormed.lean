/-
Proofs.Cell.WellFormed -- what every compiled cell keeps

A cell can be written in six forms and three markup languages, and each of them finds
its outputs, its shape and its inputs on a way of its own.  All of them end in a well
formed cell (`CompiledCell.WellFormed`): the shape says how many outputs there are, no
name is defined twice or read twice or both, and the parameters of the procedure are
distinct.
-/
import Bindery.Cell.Markup
import Bindery.Library.Basic
import Bindery.Proofs.Name.View
import Bindery.Proofs.Scope.Sound
import Bindery.Proofs.Table
import Bindery.Proofs.Token.Brackets
import Bindery.Proofs.Token.Identifier

namespace Bindery

open List Text CellShape Scope Script

variable {name : String} {cells : List CompiledCell}

def IsViewPair (outputs : List String) : Prop :=
  ∃ name, outputs = [controlName name, name]

structure CellShape.Fits (shape : CellShape) (outputs : List String) : Prop where
  anonymous : shape = .anonymous ↔ outputs = []
  single : shape = .single ↔ ∃ name, outputs = [name]
  viewPair : shape = .viewPair ↔ IsViewPair outputs
  multiple : shape = .multiple ↔ 2 ≤ outputs.length ∧ ¬ IsViewPair outputs

/-- The outputs and inputs of a cell fit its shape and each other. -/
structure CompiledCell.WellFormed (cell : CompiledCell) : Prop where
  outputs_nodup : cell.outputs.Nodup
  shape_fits : cell.shape.Fits cell.outputs
  inputs_nodup : cell.inputs.Nodup
  not_builtin : ∀ name ∈ cell.inputs, isBuiltin name = false
  not_output : ∀ name ∈ cell.inputs, name ∉ cell.outputs
  parameters_nodup : (cell.inputs.map parameterName).Nodup
  pinned : ∀ entry ∈ cell.versions, entry.1 ∈ cell.packages

/-! ## Shapes -/

namespace CellShape

variable {outputs : List String}

theorem fits_nil : anonymous.Fits [] := by
  constructor <;> simp [IsViewPair]

theorem fits_single (name : String) : single.Fits [name] := by
  constructor <;> simp [IsViewPair]

theorem fits_viewPair (name : String) : viewPair.Fits [controlName name, name] := by
  constructor <;> simp [IsViewPair]

theorem fits_multiple (many : 2 ≤ outputs.length) (noPair : ¬ IsViewPair outputs) : multiple.Fits outputs := by
  refine ⟨?_, ?_, ?_, ?_⟩
  · refine ⟨(nomatch ·), fun empty => ?_⟩
    rw [empty] at many
    exact absurd many (by decide)
  · refine ⟨(nomatch ·), fun ⟨name, one⟩ => ?_⟩
    rw [one, length_singleton] at many
    exact absurd many (by decide)
  · exact ⟨(nomatch ·), fun pair => absurd pair noPair⟩
  · exact ⟨fun _ => ⟨many, noPair⟩, fun _ => rfl⟩

theorem not_isViewPair (blank : ∀ name ∈ outputs, ' ' ∉ name.toList) : ¬ IsViewPair outputs := by
  rintro ⟨name, rfl⟩
  exact blank _ mem_cons_self (space_mem_controlName name)

theorem fits_programShape (blank : ∀ name ∈ outputs, ' ' ∉ name.toList) :
    (programShape outputs).Fits outputs := by
  match outputs with
  | [] => exact fits_nil
  | [name] => exact fits_single name
  | first :: snd :: r =>
    exact fits_multiple (by simp) (not_isViewPair blank)

end CellShape

theorem declaredOutput_fits (declared : List String) :
    (declaredOutput declared).1.Nodup ∧ (declaredOutput declared).2.Fits (declaredOutput declared).1 := by
  cases declared with
  | nil => exact ⟨nodup_nil, fits_nil⟩
  | cons name r => exact ⟨nodup_singleton name, fits_single name⟩

namespace Script

variable {references outputs : List String}

theorem formOutputs_fits (form : Form) (declared : List String) :
    (formOutputs form declared).1.Nodup ∧
      (formOutputs form declared).2.Fits (formOutputs form declared).1 := by
  cases form with
  | named name _ => exact ⟨nodup_singleton name, fits_single name⟩
  | view name _ =>
    refine ⟨?_, fits_viewPair name⟩
    simpa [formOutputs] using controlName_ne name
  | block _ _ => exact declaredOutput_fits declared
  | expression => exact declaredOutput_fits declared
  | empty => exact ⟨nodup_nil, fits_nil⟩
  | program => exact ⟨nodup_nil, fits_nil⟩

theorem programOutputs_sublist (declared topLevel : List String) :
    (programOutputs declared topLevel).Sublist topLevel := by
  unfold programOutputs
  split
  · exact List.Sublist.refl _
  · exact filter_sublist

theorem outputsOf_fits (form : Form) (declared : List String) {topLevel : List String}
    (nodup : topLevel.Nodup) (blank : ∀ name ∈ topLevel, ' ' ∉ name.toList) :
    (outputsOf form declared topLevel).1.Nodup ∧
      (outputsOf form declared topLevel).2.Fits (outputsOf form declared topLevel).1 := by
  unfold outputsOf
  split
  · have inside := programOutputs_sublist declared topLevel
    exact ⟨nodup.sublist inside, fits_programShape fun name mem => blank name (inside.subset mem)⟩
  · exact formOutputs_fits form declared

/-! ## Inputs and packages -/

theorem isInput_of_mem_inputsOf (blank : ∀ name ∈ references, ' ' ∉ name.toList) :
    ∀ name ∈ inputsOf references outputs, IsInput name := by
  intro name mem
  obtain ⟨reference, inside, rfl⟩ := mem_map.1 (mem_filter.1 mem).1
  exact ⟨reference, blank reference inside, rfl⟩

theorem not_mem_of_mem_inputsOf {name : String} (mem : name ∈ inputsOf references outputs) :
    isBuiltin name = false ∧ name ∉ outputs := by
  have kept := (mem_filter.1 mem).2
  simpa using kept

end Script

theorem Script.mem_packageSet_of_mem_versionMap {refs : List PackageRef} {e : String × String}
    (mem : e ∈ versionMap refs) : e.1 ∈ packageSet refs := by
  rcases Table.mem_of_mem_foldl_insert _ [] mem with absurd | mem
  · cases absurd
  · obtain ⟨ref, inside, pinned⟩ := mem_filterMap.1 mem
    obtain ⟨version, -, rfl⟩ := Option.map_eq_some_iff.1 pinned
    exact Sorted.mem_ofList.2 (mem_map.2 ⟨ref, inside, rfl⟩)

/-! ## Names of a lexed text -/

theorem space_not_mem_of_hasName {s : List Char} {ts : List Token} (lexed : Script.lex s = .ok ts)
    (named : (TokenSeq.ofList ts).HasName name) : ' ' ∉ name.toList := by
  obtain ⟨i, t, got, ident, rfl⟩ := named
  have done : lexFrom {} s = .ok ts := Except.mapError_eq_ok.1 lexed
  rw [TokenSeq.get?_ofList] at got
  exact (isWord_of_mem_lexFrom done t (mem_of_getElem? got) ident).space_not_mem

namespace Script

variable {cell : SourceCell} {compiled : CompiledCell}

theorem compile_eq_ok :
    compile cell = .ok compiled ↔
      ∃ ts imports body bodyTokens, lex cell.source.toList = .ok ts ∧ Import.scan ts = .ok imports ∧
        replaceViews (formBody (Form.detect ts cell.isView) cell.source.toList ts imports.edits) = .ok body ∧
        lex body = .ok bodyTokens ∧
        assemble cell (Form.detect ts cell.isView) imports body (analyze bodyTokens) = compiled := by
  unfold compile
  simp only [Except.bind_eq_ok, Except.mapError_eq_ok]
  constructor
  · rintro ⟨ts, lexed, imports, scanned, body, replaced, bodyTokens, relexed, done⟩
    exact ⟨ts, imports, body, bodyTokens, lexed, scanned, replaced, relexed, Except.ok.inj done⟩
  · rintro ⟨ts, imports, body, bodyTokens, lexed, scanned, replaced, relexed, rfl⟩
    exact ⟨ts, lexed, imports, scanned, body, replaced, bodyTokens, relexed, rfl⟩

theorem compile_wellFormed (done : compile cell = .ok compiled) : compiled.WellFormed := by
  obtain ⟨ts, imports, body, bodyTokens, -, -, -, relexed, rfl⟩ := compile_eq_ok.1 done
  obtain ⟨topDistinct, topNamed⟩ := Scope.analyze_topLevel bodyTokens
  obtain ⟨nodup, named⟩ := Scope.analyze_references bodyTokens
  have blank : ∀ name ∈ (Scope.analyze bodyTokens).references, ' ' ∉ name.toList :=
    fun name mem => space_not_mem_of_hasName relexed (named name mem)
  obtain ⟨outputs, shape⟩ := outputsOf_fits (Form.detect ts cell.isView)
    cell.declared topDistinct fun name mem =>
      space_not_mem_of_hasName relexed (topNamed name mem)
  have inputs (os : List String) : (inputsOf (Scope.analyze bodyTokens).references os).Nodup :=
    (nodup_map_inputName nodup blank).sublist filter_sublist
  exact {
    outputs_nodup := outputs
    shape_fits := shape
    inputs_nodup := inputs _
    not_builtin := fun name mem => (not_mem_of_mem_inputsOf mem).1
    not_output := fun name mem => (not_mem_of_mem_inputsOf mem).2
    parameters_nodup := nodup_map_parameterName (inputs _) (isInput_of_mem_inputsOf blank)
    pinned := fun e mem => mem_packageSet_of_mem_versionMap mem }

end Script

namespace Markup

/-- The inputs of a template are distinct, and none of them is built in. -/
structure Template.Sound (template : Template) : Prop where
  distinct : template.inputs.Nodup
  named : ∀ name ∈ template.inputs, IsInput name
  not_builtin : ∀ name ∈ template.inputs, isBuiltin name = false

theorem foldl_addInput {ns : List String} (named : ∀ name ∈ ns, IsInput name) :
    ∀ {inputs : List String}, inputs.Nodup → (∀ name ∈ inputs, IsInput name) →
      (∀ name ∈ inputs, isBuiltin name = false) →
      (ns.foldl addInput inputs).Nodup ∧ (∀ name ∈ ns.foldl addInput inputs, IsInput name) ∧
        ∀ name ∈ ns.foldl addInput inputs, isBuiltin name = false := by
  induction ns with
  | nil => exact fun nodup inside free => ⟨nodup, inside, free⟩
  | cons fst r ih =>
    intro inputs nodup inside free
    have later : ∀ name ∈ r, IsInput name := fun name mem => named name (.tail _ mem)
    rw [foldl_cons, addInput]
    split
    · exact ih later nodup inside free
    · next absent =>
      have fresh : isBuiltin fst = false ∧ fst ∉ inputs := by simpa using absent
      refine ih later ?_ ?_ ?_
      · refine nodup_append.2 ⟨nodup, nodup_singleton fst, ?_⟩
        intro name mem other eq
        cases mem_singleton.1 eq
        exact fun equal => fresh.2 (equal ▸ mem)
      · intro name mem
        rcases mem_append.1 mem with mem | eq
        · exact inside name mem
        · exact mem_singleton.1 eq ▸ named fst mem_cons_self
      · intro name mem
        rcases mem_append.1 mem with mem | eq
        · exact free name mem
        · exact mem_singleton.1 eq ▸ fresh.1

theorem Template.Sound.addSegment {template after : Template} {segment : Segment} (sound : template.Sound)
    (done : Markup.addSegment template segment = .ok after) : after.Sound := by
  cases segment with
  | text content =>
    cases done
    exact ⟨sound.distinct, sound.named, sound.not_builtin⟩
  | interpolation expression =>
    simp only [Markup.addSegment, Except.bind_eq_ok] at done
    obtain ⟨replaced, -, ts, lexed, done⟩ := done
    cases done
    have named : ∀ name ∈ (Scope.analyze ts).references.map inputName, IsInput name := by
      intro name mem
      obtain ⟨reference, inside, rfl⟩ := mem_map.1 mem
      have got := (Scope.analyze_references ts).2 reference inside
      exact ⟨reference, space_not_mem_of_hasName lexed got, rfl⟩
    obtain ⟨nodup, inputs, free⟩ := foldl_addInput named sound.distinct sound.named sound.not_builtin
    exact ⟨nodup, inputs, free⟩

theorem Template.Sound.foldlM {segments : List Segment} :
    ∀ {template after : Template}, template.Sound →
      segments.foldlM Markup.addSegment template = .ok after → after.Sound := by
  induction segments with
  | nil =>
    intro template after sound done
    cases done
    exact sound
  | cons segment r ih =>
    intro template after sound done
    rw [foldlM_cons, Except.bind_eq_ok] at done
    obtain ⟨middle, fst, later⟩ := done
    exact ih (sound.addSegment fst) later

theorem compile_wellFormed {tag : String} {cell : SourceCell} {compiled : CompiledCell} (input : IsInput tag)
    (free : isBuiltin tag = false) (done : compile tag cell = .ok compiled) : compiled.WellFormed := by
  simp only [compile, Except.bind_eq_ok] at done
  obtain ⟨template, built, done⟩ := done
  cases done
  have start : Template.Sound { inputs := [tag] } := by
    refine ⟨nodup_singleton tag, ?_, ?_⟩
    · exact fun name mem => mem_singleton.1 mem ▸ input
    · exact fun name mem => mem_singleton.1 mem ▸ free
  have sound := start.foldlM built
  obtain ⟨outputs, shape⟩ := declaredOutput_fits cell.declared
  have kept := fun name (mem : name ∈ template.inputs.filter
      fun name => !(declaredOutput cell.declared).1.contains name) => mem_filter.1 mem
  have nodup := sound.distinct.sublist (filter_sublist
    (p := fun name => !(declaredOutput cell.declared).1.contains name))
  exact {
    outputs_nodup := outputs
    shape_fits := shape
    inputs_nodup := nodup
    not_builtin := fun name mem => sound.not_builtin name (kept name mem).1
    not_output := fun name mem => by simpa using (kept name mem).2
    parameters_nodup := nodup_map_parameterName nodup fun name mem => sound.named name (kept name mem).1
    pinned := fun e mem => nomatch mem }

end Markup

theorem isInput_of_blankless (blank : ' ' ∉ name.toList) (eq : inputName name = name) : IsInput name :=
  ⟨name, blank, eq⟩

/-- **Every cell that compiles is well formed.** -/
theorem SourceCell.compile_wellFormed {cell : SourceCell} {compiled : CompiledCell}
    (done : cell.compile = .ok compiled) : compiled.WellFormed := by
  unfold SourceCell.compile at done
  split at done
  · exact Script.compile_wellFormed (Except.mapError_eq_ok.1 done)
  iterate 3
    · exact Markup.compile_wellFormed (isInput_of_blankless (by decide) (by decide +kernel))
        (by decide +kernel) (Except.mapError_eq_ok.1 done)
  · cases done

/-! ## Modules of compiled cells -/

theorem CellDefinition.render?_isSome {cell : CellDefinition}
    (fits : cell.shape.Fits cell.outputs) : cell.render?.isSome := by
  have defined : cell.definitions?.isSome := by
    unfold CellDefinition.definitions?
    cases shape : cell.shape with
    | anonymous => rfl
    | single =>
      obtain ⟨name, outputs⟩ := fits.single.1 shape
      rw [outputs]
      rfl
    | viewPair =>
      obtain ⟨name, outputs⟩ := fits.viewPair.1 shape
      rw [outputs]
      rfl
    | multiple => rfl
  simpa [CellDefinition.render?] using defined

theorem isSome_mapM {α β : Type} {f : α → Option β} {items : List α}
    (defined : ∀ item ∈ items, (f item).isSome) : (items.mapM f).isSome := by
  induction items with
  | nil => rfl
  | cons fst r ih =>
    obtain ⟨v, here⟩ := Option.isSome_iff_exists.1 (defined fst mem_cons_self)
    obtain ⟨values, later⟩ := Option.isSome_iff_exists.1 (ih fun item mem => defined item (.tail _ mem))
    simp [mapM_cons, here, later]

theorem Module.render?_isSome {module : Module}
    (fits : ∀ cell ∈ module.cells, cell.shape.Fits cell.outputs) : module.render?.isSome := by
  obtain ⟨texts, rendered⟩ := Option.isSome_iff_exists.1
    (isSome_mapM fun cell mem => CellDefinition.render?_isSome (fits cell mem))
  simp [Module.render?, rendered]

theorem fits_of_mem_ofCells (name : String) (fits : ∀ cell ∈ cells, cell.shape.Fits cell.outputs) :
    ∀ cell ∈ (Module.ofCells name cells).cells, cell.shape.Fits cell.outputs := by
  intro cell mem
  obtain ⟨compiled, inside, rfl⟩ := mem_map.1 mem
  exact fits compiled (mem_mergeSort.1 inside)

theorem fits_of_mem_resolveInputs (fits : ∀ cell ∈ cells, cell.shape.Fits cell.outputs) :
    ∀ cell ∈ resolveInputs cells, cell.shape.Fits cell.outputs := by
  intro cell mem
  obtain ⟨compiled, inside, rfl⟩ := mem_map.1 mem
  exact fits compiled inside

theorem compiled_of_map (sources : List SourceCell) {cells : List CompiledCell}
    (done : sources.map SourceCell.compile = cells.map .ok) :
    ∀ cell ∈ cells, ∃ src : SourceCell, src.compile = .ok cell := by
  intro cell mem
  have listed : .ok cell ∈ sources.map SourceCell.compile := done ▸ mem_map_of_mem mem
  obtain ⟨src, -, eq⟩ := mem_map.1 listed
  exact ⟨src, eq⟩

/-- **Compiled cells are well formed, and a module of them has a text.**  Neither the
module of the cells as they are nor the one that a library is generated from lacks an
output that a shape asks for. -/
theorem wellFormed_of_compiled (cells : List CompiledCell)
    (compiled : ∀ cell ∈ cells, ∃ source : SourceCell, source.compile = .ok cell)
    (name : String) (workspace : List String) (fallback : String) :
    (∀ cell ∈ cells, cell.WellFormed) ∧
      (Module.ofCells name cells).render?.isSome ∧
      Library.generate cells name workspace fallback ≠ .error .missingOutput := by
  have wellFormed : ∀ cell ∈ cells, cell.WellFormed := by
    intro cell member
    obtain ⟨source, done⟩ := compiled cell member
    exact SourceCell.compile_wellFormed done
  have fits := fun cell member => (wellFormed cell member).shape_fits
  refine ⟨wellFormed, Module.render?_isSome (fits_of_mem_ofCells name fits), ?_⟩
  have ordered : ∀ cell ∈ inDocumentOrder cells, cell.shape.Fits cell.outputs :=
    fun cell member => fits cell (List.mem_mergeSort.1 member)
  obtain ⟨text, rendered⟩ := Option.isSome_iff_exists.1 <|
    Module.render?_isSome (fits_of_mem_ofCells name (fits_of_mem_resolveInputs ordered))
  unfold Library.generate
  dsimp only
  split
  · simp
  · rw [rendered]
    simp

/-- A view, a program with two outputs and a note that reads both. -/
theorem wellFormed_of_compiled_notebook :
    let view : CompiledCell :=
      ⟨1, ["viewof x", "x"], ["Inputs", "n"], "return (\nInputs.range([0, n])\n);", [], [],
        .viewPair, false, false⟩
    let program : CompiledCell :=
      ⟨2, ["a", "b"], ["viewof x"],
        "const a = $viewof$x, b = import(\"d3\");\nreturn \x7ba, b\x7d;", ["d3"], [("d3", "7")],
        .multiple, false, false⟩
    let note : CompiledCell :=
      ⟨3, ["note"], ["md", "a", "viewof x"], "return md\x60Sum $\x7ba + $viewof$x\x7d\x60;", [], [],
        .single, false, false⟩
    (∀ cell ∈ [view, program, note], ∃ source : SourceCell, source.compile = .ok cell) ∧
      (∀ cell ∈ [view, program, note], cell.WellFormed) ∧
      (Module.ofCells "sums" [view, program, note]).render?.isSome ∧
      Library.generate [view, program, note] "sums" [] "latest" ≠ .error .missingOutput := by
  intro view program note
  have compiled : ∀ cell ∈ [view, program, note], ∃ source : SourceCell, source.compile = .ok cell :=
    compiled_of_map [⟨"1", 1, .script, "viewof x = Inputs.range([0, n])", [], true⟩,
      ⟨"2", 2, .script, "const a = viewof x, b = import(\"npm:d3@7\");", [], false⟩,
      ⟨"3", 3, .markdown, "Sum $\x7ba + viewof x\x7d", ["note"], false⟩] (by decide +kernel)
  exact ⟨compiled, wellFormed_of_compiled _ compiled "sums" [] "latest"⟩

end Bindery
