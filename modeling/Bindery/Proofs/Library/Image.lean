/-
Proofs.Library.Image -- what a library keeps of its cells

A notebook is compiled cell by cell, and a cell that fails is left out with an error.
Nothing is lost on the way: every cell is either compiled or reported, under its own
index (`compileAll_perm`).
-/
import Bindery.Library.Basic
import Bindery.Cell.Markup
import Bindery.Proofs.Success

namespace Bindery

open List

variable {cell : SourceCell} {compiled : CompiledCell} {error : CellError} {cells ordered : List CompiledCell}

/-! ## Compilation keeps the index -/

theorem Script.compile_index (done : Script.compile cell = .ok compiled) : compiled.index = cell.index := by
  simp only [Script.compile, Except.bind_eq_ok] at done
  obtain ⟨ts, -, imports, -, body, -, bodyTokens, -, done⟩ := done
  cases done
  rfl

theorem Markup.compile_index {tag : String} (done : Markup.compile tag cell = .ok compiled) :
    compiled.index = cell.index := by
  simp only [Markup.compile, Except.bind_eq_ok] at done
  obtain ⟨template, -, done⟩ := done
  cases done
  rfl

theorem SourceCell.compile_index (done : cell.compile = .ok compiled) : compiled.index = cell.index := by
  unfold SourceCell.compile at done
  split at done
  · exact Script.compile_index (Except.mapError_eq_ok.1 done)
  · exact Markup.compile_index (Except.mapError_eq_ok.1 done)
  · exact Markup.compile_index (Except.mapError_eq_ok.1 done)
  · exact Markup.compile_index (Except.mapError_eq_ok.1 done)
  · cases done

theorem SourceCell.compile_error_index (failed : cell.compile = .error error) : error.index = cell.index := by
  have reported : ∀ (res : Except SyntaxFault CompiledCell),
      res.mapError (.badSyntax cell.index) = .error error → error.index = cell.index := by
    intro res mapped
    cases res with
    | error fault =>
      cases mapped
      rfl
    | ok compiled => cases mapped
  unfold SourceCell.compile at failed
  split at failed
  · exact reported _ failed
  · exact reported _ failed
  · exact reported _ failed
  · exact reported _ failed
  · cases failed
    rfl

theorem compileAll_cons_ok (done : cell.compile = .ok compiled) (r : List SourceCell) :
    compileAll (cell :: r) = (compiled :: (compileAll r).1, (compileAll r).2) := by
  unfold compileAll
  rw [map_cons, done]
  rfl

theorem compileAll_cons_error (failed : cell.compile = .error error) (r : List SourceCell) :
    compileAll (cell :: r) = ((compileAll r).1, error :: (compileAll r).2) := by
  unfold compileAll
  rw [map_cons, failed]
  rfl

/-- **Every cell is compiled or reported.**  The indices of the compiled cells and of
the errors are together those of the notebook. -/
theorem compileAll_perm (cells : List SourceCell) :
    ((compileAll cells).1.map (·.index) ++ (compileAll cells).2.map (·.index)).Perm
      (cells.map (·.index)) := by
  induction cells with
  | nil => exact List.Perm.nil
  | cons cell r ih =>
    cases res : cell.compile with
    | ok compiled =>
      rw [compileAll_cons_ok res, map_cons, map_cons, cell.compile_index res, cons_append]
      exact ih.cons _
    | error error =>
      rw [compileAll_cons_error res, map_cons, map_cons, cell.compile_error_index res]
      exact perm_middle.trans (ih.cons _)

/-! ## Document order -/

theorem inDocumentOrder_perm (cells : List CompiledCell) : (inDocumentOrder cells).Perm cells :=
  mergeSort_perm _ _

theorem pairwise_inDocumentOrder (nodup : (cells.map (·.index)).Nodup) :
    (inDocumentOrder cells).Pairwise fun cell other => cell.index < other.index := by
  have ascending : (inDocumentOrder cells).Pairwise fun cell other =>
      decide (cell.index ≤ other.index) :=
    pairwise_mergeSort
      (fun fst snd third below above => by
        rw [decide_eq_true_eq] at *
        exact Nat.le_trans below above)
      (fun fst snd => by simpa using Nat.le_total fst.index snd.index) cells
  have apart : (inDocumentOrder cells).Pairwise fun cell other => cell.index ≠ other.index :=
    pairwise_map.1 (((inDocumentOrder_perm cells).map _).nodup_iff.2 nodup)
  exact (ascending.and apart).imp fun ⟨below, different⟩ =>
    Nat.lt_of_le_of_ne (of_decide_eq_true below) different

theorem inDocumentOrder_eq (eq : ordered.Perm cells)
    (ascending : ordered.Pairwise fun cell other => cell.index < other.index) :
    inDocumentOrder cells = ordered := by
  have nodup : (cells.map (·.index)).Nodup :=
    (eq.map _).nodup_iff.1 (pairwise_map.2 (ascending.imp Nat.ne_of_lt))
  refine ((inDocumentOrder_perm cells).trans eq.symm).eq_of_pairwise ?_
    (pairwise_inDocumentOrder nodup) ascending
  exact fun cell other _ _ below above => absurd above (Nat.lt_asymm below)

/-! ## Generated libraries -/

/-- A name that an input can stand for: one that a cell defines or the environment
provides. -/
def Provided (cells : List CompiledCell) (name : String) : Prop :=
  (∃ cell ∈ cells, name ∈ cell.outputs) ∨ name ∈ environmentNames

instance (cells : List CompiledCell) (name : String) : Decidable (Provided cells name) :=
  inferInstanceAs (Decidable (_ ∨ _))

theorem isResolved_eq (cells : List CompiledCell) (name : String) :
    isResolved cells name = decide (Provided cells name) := by
  rw [Bool.eq_iff_iff, decide_eq_true_iff]
  simp [isResolved, Provided, definedNames, isEnvironmentName]

theorem provided_perm {os : List CompiledCell} (eq : cells.Perm os) (name : String) :
    Provided cells name ↔ Provided os name := by
  simp only [Provided, eq.mem_iff]

def CompiledCell.image (cells : List CompiledCell) (cell : CompiledCell) : CellDefinition :=
  { index := cell.index
    outputs := cell.outputs
    inputs := cell.inputs.filter fun name => decide (Provided cells name)
    body := cell.body
    shape := cell.shape
    isAsync := cell.isAsync
    isGenerator := cell.isGenerator }

theorem CompiledCell.toDefinition_resolveAmong (cells : List CompiledCell) (cell : CompiledCell) :
    (cell.resolveAmong cells).toDefinition = cell.image cells := by
  have eq : isResolved cells = fun name => decide (Provided cells name) := funext (isResolved_eq cells)
  simp only [CompiledCell.resolveAmong, CompiledCell.toDefinition, CompiledCell.image, eq]

def Module.imageOf (name : String) (ordered : List CompiledCell) : Module :=
  { libraryName := name
    cells := ordered.map (CompiledCell.image ordered)
    directory := ordered.map CompiledCell.toEntry }

theorem ofCells_resolveInputs (name : String)
    (ascending : ordered.Pairwise fun cell other => cell.index < other.index) :
    Module.ofCells name (resolveInputs ordered) = Module.imageOf name ordered := by
  have resolved : (resolveInputs ordered).Pairwise fun cell other => cell.index < other.index :=
    pairwise_map.2 ascending
  rw [Module.ofCells, inDocumentOrder_eq (List.Perm.refl _) resolved, resolveInputs, map_map,
    map_map, Module.imageOf]
  congr 1
  exact map_congr_left fun cell _ => cell.toDefinition_resolveAmong ordered

namespace Library

variable {name fallback : String} {workspace : List String} {library : Library}

theorem generate_eq_ok :
    generate cells name workspace fallback = .ok library ↔ duplicateOutput? (inDocumentOrder cells) = none ∧
      library.module = Module.ofCells name (resolveInputs (inDocumentOrder cells)) ∧
      library.module.render? = some library.moduleText ∧
      library.manifest = ⟨name,
        collectDependencies (resolveInputs (inDocumentOrder cells)) workspace fallback⟩ := by
  obtain ⟨module, moduleText, manifest⟩ := library
  unfold generate
  dsimp only
  split
  · next got => simp [got]
  · next unique =>
    split
    · next missing =>
      constructor
      · intro refused
        cases refused
      · rintro ⟨-, rfl, rendered, -⟩
        rw [missing] at rendered
        cases rendered
    · next text rendered =>
      simp only [unique, Except.ok.injEq, mk.injEq, true_and]
      constructor
      · rintro ⟨rfl, rfl, rfl⟩
        exact ⟨rfl, rendered, rfl⟩
      · rintro ⟨rfl, written, rfl⟩
        exact ⟨rfl, Option.some.inj (rendered.symm.trans written), rfl⟩

theorem generate_eq_ok_of_pairwise (eq : ordered.Perm cells)
    (ascending : ordered.Pairwise fun cell other => cell.index < other.index) :
    generate cells name workspace fallback = .ok library ↔ duplicateOutput? ordered = none ∧
      library.module = Module.imageOf name ordered ∧
      library.module.render? = some library.moduleText ∧
      library.manifest = ⟨name, collectDependencies (resolveInputs ordered) workspace fallback⟩ := by
  rw [generate_eq_ok, inDocumentOrder_eq eq ascending, ofCells_resolveInputs name ascending]

theorem generate_of_pairwise (name : String) (workspace : List String) (fallback : String)
    (eq : ordered.Perm cells) (ascending : ordered.Pairwise fun cell other => cell.index < other.index)
    (unique : duplicateOutput? ordered = none) (rendered : (Module.imageOf name ordered).render?.isSome) :
    generate cells name workspace fallback = .ok {
      module := Module.imageOf name ordered
      moduleText := (Module.imageOf name ordered).render?.get rendered
      manifest := ⟨name, collectDependencies (resolveInputs ordered) workspace fallback⟩ } :=
  (generate_eq_ok_of_pairwise eq ascending).2 ⟨unique, rfl, (Option.some_get rendered).symm, rfl⟩

end Library

theorem index_eq_of_mem_outputs (unique : duplicateOutput? cells = none) {cell other : CompiledCell}
    (mem : cell ∈ cells) (otherMember : other ∈ cells) {name : String} (defines : name ∈ cell.outputs)
    (definesToo : name ∈ other.outputs) : cell.index = other.index := by
  have owned : ∀ owner ∈ cells, name ∈ owner.outputs → owner.index ∈ ownersOf cells name := by
    intro owner inside ns
    refine mem_eraseDups.2 (mem_map_of_mem (mem_filter.2 ⟨inside, ?_⟩))
    exact contains_iff_mem.2 ns
  have few : ¬ 1 < (ownersOf cells name).length := by
    have absent := find?_eq_none.1 (Option.map_eq_none_iff.1 unique) name (mem_flatMap.2 ⟨cell, mem, defines⟩)
    simpa using absent
  have fst := owned cell mem defines
  have snd := owned other otherMember definesToo
  rcases owners : ownersOf cells name with _ | ⟨owner, _ | ⟨another, r⟩⟩
  · rw [owners] at fst
    cases fst
  · rw [owners] at fst snd
    exact (mem_singleton.1 fst).trans (mem_singleton.1 snd).symm
  · rw [owners] at few
    exact absurd (by simp) few

/-- The names that cells define are distinct, if no cell repeats one and no name is a
duplicate. -/
theorem nodup_definedNames (ascending : cells.Pairwise fun cell other => cell.index < other.index)
    (unique : duplicateOutput? cells = none) (each : ∀ cell ∈ cells, cell.outputs.Nodup) :
    (definedNames cells).Nodup := by
  refine pairwise_flatMap.2 ⟨each, ascending.imp_of_mem ?_⟩
  rintro cell other mem otherMember below name defines _ definesToo rfl
  have eq := index_eq_of_mem_outputs unique mem otherMember defines definesToo
  exact absurd eq (Nat.ne_of_lt below)

/-- **A library is the image of the cells that compile.**  Of cells with distinct indices,
each is either compiled or reported, under its own index and once.  Whenever the compiled
cells give a library, its module lists them in ascending order, with everything they were
compiled to, and with the inputs that a cell or the environment provides. -/
theorem generate_compileAll (cells : List SourceCell) (distinct : (cells.map (·.index)).Nodup) :
    ((compileAll cells).1.map (·.index) ++ (compileAll cells).2.map (·.index)).Perm
        (cells.map (·.index)) ∧
      (∀ cell ∈ cells,
        (cell.index ∈ (compileAll cells).1.map (·.index) ∧
            cell.index ∉ (compileAll cells).2.map (·.index)) ∨
          (cell.index ∉ (compileAll cells).1.map (·.index) ∧
            cell.index ∈ (compileAll cells).2.map (·.index))) ∧
      ∀ (name : String) (workspace : List String) (fallback : String) (library : Library),
        Library.generate (compileAll cells).1 name workspace fallback = .ok library →
          ∃ ordered : List CompiledCell,
            ordered.Perm (compileAll cells).1 ∧
            ordered.Pairwise (fun cell other => cell.index < other.index) ∧
            library.module.cells = ordered.map (fun cell =>
              { index := cell.index
                outputs := cell.outputs
                inputs := cell.inputs.filter fun input => decide (
                  (∃ other ∈ (compileAll cells).1, input ∈ other.outputs) ∨
                    input ∈ environmentNames)
                body := cell.body
                shape := cell.shape
                isAsync := cell.isAsync
                isGenerator := cell.isGenerator }) ∧
            library.module.directory = ordered.map (fun cell =>
              { index := cell.index, names := cell.outputs, outputs := cell.outputs }) := by
  have account := compileAll_perm cells
  have once := account.nodup_iff.2 distinct
  obtain ⟨compiledOnce, -, apart⟩ := List.nodup_append.1 once
  refine ⟨account, ?_, ?_⟩
  · intro cell member
    have listed : cell.index ∈ _ := account.mem_iff.2 (List.mem_map_of_mem member)
    rcases List.mem_append.1 listed with compiled | reported
    · exact .inl ⟨compiled, fun reported => apart _ compiled _ reported rfl⟩
    · exact .inr ⟨fun compiled => apart _ compiled _ reported rfl, reported⟩
  · intro name workspace fallback library generated
    have same := inDocumentOrder_perm (compileAll cells).1
    have ascending := pairwise_inDocumentOrder compiledOnce
    obtain ⟨-, built, -, -⟩ := (Library.generate_eq_ok_of_pairwise same ascending).1 generated
    refine ⟨_, same, ascending, ?_, ?_⟩
    · rw [built]
      refine List.map_congr_left fun cell _ => ?_
      simp only [CompiledCell.image, provided_perm same]
      rfl
    · rw [built]
      rfl

/-- A notebook out of order, with a cell that cannot be lexed and one in another
language.  The program reads a name of the note, one of the environment and one that
nothing provides. -/
def mixedNotebook : List SourceCell :=
  [⟨"7", 7, .script, "const a = note + d3.sum(n), b = 1;", [], false⟩,
    ⟨"2", 2, .script, "'open", [], false⟩,
    ⟨"5", 5, .markdown, "Sum", ["note"], false⟩,
    ⟨"6", 6, .other "sql", "SELECT 1", [], false⟩]

theorem generate_compileAll_mixed :
    (mixedNotebook.map (·.index)).Nodup ∧
      ∃ library : Library,
        Library.generate (compileAll mixedNotebook).1 "mixed" [] "latest" = .ok library ∧
        (∀ cell ∈ mixedNotebook,
          (cell.index ∈ (compileAll mixedNotebook).1.map (·.index) ∧
              cell.index ∉ (compileAll mixedNotebook).2.map (·.index)) ∨
            (cell.index ∉ (compileAll mixedNotebook).1.map (·.index) ∧
              cell.index ∈ (compileAll mixedNotebook).2.map (·.index))) ∧
        library.module.cells.map (·.inputs) = [["md"], ["note", "d3"]] ∧
        ∃ ordered : List CompiledCell,
          ordered.Perm (compileAll mixedNotebook).1 ∧
          ordered.Pairwise (fun cell other => cell.index < other.index) ∧
          library.module.directory = ordered.map (fun cell =>
            { index := cell.index, names := cell.outputs, outputs := cell.outputs }) := by
  have distinct : (mixedNotebook.map (·.index)).Nodup := by decide
  let program : CompiledCell :=
    ⟨7, ["a", "b"], ["note", "d3", "n"],
      "const a = note + d3.sum(n), b = 1;\nreturn \x7ba, b\x7d;", [], [], .multiple, false, false⟩
  let note : CompiledCell :=
    ⟨5, ["note"], ["md"], "return md\x60Sum\x60;", [], [], .single, false, false⟩
  have accepted : (compileAll mixedNotebook).1 = [program, note] := by decide +kernel
  have same : [note, program].Perm (compileAll mixedNotebook).1 := by
    rw [accepted]
    exact List.reverse_perm [program, note]
  have ascending : [note, program].Pairwise fun cell other => cell.index < other.index := by
    decide
  have generated := Library.generate_of_pairwise "mixed" [] "latest" same ascending
    (by decide +kernel) (by decide +kernel)
  have inputs : (Module.imageOf "mixed" [note, program]).cells.map (·.inputs) =
      [["md"], ["note", "d3"]] := by
    decide +kernel
  obtain ⟨-, exclusive, image⟩ := generate_compileAll mixedNotebook distinct
  obtain ⟨ordered, listed, sorted, -, directory⟩ := image _ _ _ _ generated
  exact ⟨distinct, _, generated, exclusive, inputs, ordered, listed, sorted, directory⟩

end Bindery
