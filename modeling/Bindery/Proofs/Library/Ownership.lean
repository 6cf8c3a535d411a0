/-
Proofs.Library.Ownership -- one owner for every name

A library is generated from its cells in document order, so the order in which they are
given does not matter (`generate_perm`).  A name that two cells define is `Shared`, and a
library is refused exactly if there is one; the refusal reports the first of them, with all
its owners in ascending order (`duplicateOutput?_eq_some`, `duplicateOutput?_eq_none`).
-/
import Bindery.Notebook.Document
import Bindery.Proofs.Cell.WellFormed
import Bindery.Proofs.Library.Image
import Bindery.Proofs.Text.Split

namespace Bindery

open List Text

variable {cells : List CompiledCell} {name : String} {cell : CellDefinition} {i : Nat}
  {duplicate : DuplicateOutput} {s : List Char}

/-! ## The order of the cells -/

/-- **A library does not depend on the order in which its cells are given.** -/
theorem generate_perm {cells others : List CompiledCell} (same : cells.Perm others)
    (distinct : (cells.map (·.index)).Nodup) (name : String) (workspace : List String)
    (fallback : String) :
    Library.generate cells name workspace fallback =
      Library.generate others name workspace fallback := by
  have ordered : inDocumentOrder others = inDocumentOrder cells :=
    inDocumentOrder_eq ((inDocumentOrder_perm cells).trans same) (pairwise_inDocumentOrder distinct)
  unfold Library.generate
  rw [ordered]

/-- Two cells that define one name, the later one first. -/
theorem generate_perm_shared :
    let early : CompiledCell := ⟨1, ["x"], [], "return (\n1\n);", [], [], .single, false, false⟩
    let late : CompiledCell := ⟨4, ["x"], [], "return (\n2\n);", [], [], .single, false, false⟩
    [late, early].Perm [early, late] ∧ ([late, early].map (·.index)).Nodup ∧
      Library.generate [late, early] "demo" [] "latest" =
        Library.generate [early, late] "demo" [] "latest" ∧
      Library.generate [late, early] "demo" [] "latest" = .error (.duplicate ⟨"x", [1, 4]⟩) := by
  intro early late
  have same : [late, early].Perm [early, late] := .swap early late []
  have distinct : ([late, early].map (·.index)).Nodup := by decide
  have equal := generate_perm same distinct "demo" [] "latest"
  refine ⟨same, distinct, equal, equal.trans ?_⟩
  have found : duplicateOutput? [early, late] = some ⟨"x", [1, 4]⟩ := by decide +kernel
  rw [Library.generate, inDocumentOrder_eq (.refl [early, late]) (by decide)]
  simp only [found]

/-! ## Owners -/

/-- Two cells have the output. -/
def Shared (cells : List CompiledCell) (name : String) : Prop :=
  ∃ cell ∈ cells, ∃ other ∈ cells, cell.index ≠ other.index ∧
    name ∈ cell.outputs ∧ name ∈ other.outputs

section Owners

theorem mem_ownersOf : i ∈ ownersOf cells name ↔ ∃ cell ∈ cells, cell.index = i ∧ name ∈ cell.outputs := by
  simp [ownersOf, and_assoc, and_comm]

theorem pairwise_ownersOf (name : String)
    (ascending : cells.Pairwise fun cell other => cell.index < other.index) :
    (ownersOf cells name).Pairwise (· < ·) := by
  have sorted : ((cells.filter (·.outputs.contains name)).map (·.index)).Pairwise (· < ·) :=
    pairwise_map.2 (ascending.sublist filter_sublist)
  rw [ownersOf, Scope.eraseDups_of_nodup (sorted.imp Nat.ne_of_lt)]
  exact sorted

theorem one_lt_owners_iff (ascending : cells.Pairwise fun cell other => cell.index < other.index) :
    1 < (ownersOf cells name).length ↔ Shared cells name := by
  have sorted := pairwise_ownersOf name ascending
  constructor
  · intro several
    obtain ⟨fst, snd, r, owners⟩ : ∃ fst snd r,
        ownersOf cells name = fst :: snd :: r := by
      match owners : ownersOf cells name with
      | [] => rw [owners] at several; cases several
      | [owner] => rw [owners] at several; cases several; contradiction
      | fst :: snd :: r => exact ⟨fst, snd, r, rfl⟩
    have apart : fst ≠ snd := by
      rw [owners] at sorted
      exact Nat.ne_of_lt (rel_of_pairwise_cons sorted mem_cons_self)
    obtain ⟨cell, mem, rfl, defines⟩ := mem_ownersOf.1 (owners ▸ mem_cons_self : fst ∈ ownersOf cells name)
    obtain ⟨other, otherMember, rfl, definesToo⟩ := mem_ownersOf.1
      (owners ▸ mem_cons_of_mem _ mem_cons_self : snd ∈ ownersOf cells name)
    exact ⟨cell, mem, other, otherMember, apart, defines, definesToo⟩
  · rintro ⟨cell, mem, other, otherMember, apart, defines, definesToo⟩
    have fst : cell.index ∈ ownersOf cells name := mem_ownersOf.2 ⟨cell, mem, rfl, defines⟩
    have snd : other.index ∈ ownersOf cells name := mem_ownersOf.2 ⟨other, otherMember, rfl, definesToo⟩
    match owners : ownersOf cells name with
    | [] => rw [owners] at fst; cases fst
    | [owner] =>
      rw [owners] at fst snd
      exact absurd ((mem_singleton.1 fst).trans (mem_singleton.1 snd).symm) apart
    | _ :: _ :: _ => simp

theorem Shared.mem_definedNames (shared : Shared cells name) : name ∈ definedNames cells := by
  obtain ⟨cell, mem, -, -, -, defines, -⟩ := shared
  exact mem_flatMap.2 ⟨cell, mem, defines⟩

section

variable (ascending : cells.Pairwise fun cell other => cell.index < other.index)
include ascending

theorem duplicateOutput?_eq_none : duplicateOutput? cells = none ↔ ¬ ∃ name, Shared cells name := by
  rw [duplicateOutput?, Option.map_eq_none_iff, find?_eq_none]
  constructor
  · rintro none ⟨name, shared⟩
    exact none name shared.mem_definedNames (decide_eq_true ((one_lt_owners_iff ascending).2 shared))
  · intro none name _ several
    exact none ⟨name, (one_lt_owners_iff ascending).1 (of_decide_eq_true several)⟩

/-- **The name that is reported.**  It is shared, no shared name comes before it, and its
owners are all reported. -/
theorem duplicateOutput?_eq_some (got : duplicateOutput? cells = some duplicate) :
    Shared cells duplicate.name ∧
      (∀ other, Shared cells other →
        (definedNames cells).idxOf duplicate.name ≤ (definedNames cells).idxOf other) ∧
      duplicate.cells = ownersOf cells duplicate.name := by
  obtain ⟨reported, fst, rfl⟩ := Option.map_eq_some_iff.1 got
  obtain ⟨several, p, behind, split, none⟩ := find?_eq_some_iff_append.1 fst
  have unshared : ∀ name ∈ p, ¬ Shared cells name := by
    intro name mem shared
    have absurd := none name mem
    rw [decide_eq_true ((one_lt_owners_iff ascending).2 shared)] at absurd
    cases absurd
  have shared := (one_lt_owners_iff ascending).1 (of_decide_eq_true several)
  refine ⟨shared, fun other sharedToo => ?_, rfl⟩
  have place : ∀ name, Shared cells name →
      (definedNames cells).idxOf name = p.length + (reported :: behind).idxOf name :=
    fun name shared => by
      rw [split, idxOf_append_of_notMem fun mem => unshared name mem shared]
  rw [place reported shared, place other sharedToo, idxOf_cons_self]
  omega

end

end Owners

theorem Library.generate_eq_duplicate {workspace : List String} {fallback : String} :
    generate cells name workspace fallback = .error (.duplicate duplicate) ↔
      duplicateOutput? (inDocumentOrder cells) = some duplicate := by
  unfold generate
  dsimp only
  split
  · next output got => simp [got]
  · next unique =>
    rw [unique]
    split <;> simp

/-! ## The names of a notebook -/

/-- A name that can be written outside the module: without a blank, or of a control. -/
def Outward (name : String) : Prop :=
  ' ' ∉ name.toList ∨ ∃ value, name = controlName value

theorem Outward.ne_hiddenName (outward : Outward name) (i : Nat) : name ≠ hiddenName i := by
  rintro rfl
  rcases outward with blank | ⟨v, eq⟩
  · refine blank ?_
    rw [hiddenName, String.toList_append]
    exact mem_append_left _ (by decide)
  · have fst := congrArg (fun name : String => name.toList.head?) eq
    simp only [hiddenName, controlName, viewMark, String.toList_append] at fst
    have letters : some 'c' = some 'v' := fst
    cases letters

theorem index_eq_of_append {mark : String} {other : Nat}
    (eq : mark ++ toString i = mark ++ toString other) : i = other := by
  have digits : i.repr = other.repr := (String.append_right_inj _).1 eq
  rw [Nat.repr_eq_ofList_toDigits, Nat.repr_eq_ofList_toDigits] at digits
  rw [← Nat.ofDigitChars_ten_toDigits (n := i), String.ofList_injective digits, Nat.ofDigitChars_ten_toDigits]

section Declared

theorem mem_of_mem_trim {c : Char} (mem : c ∈ trim s) : c ∈ s := by
  unfold trim trimEnd trimStart at mem
  have inside := (dropWhile_suffix _).subset (mem_reverse.1 mem)
  exact (dropWhile_suffix _).subset (mem_reverse.1 inside)

namespace Notebook

variable {document : String} {notebook : Notebook}

theorem space_not_mem_namesIn {v : List Char} : ∀ name ∈ namesIn v, ' ' ∉ name.toList := by
  intro name mem blank
  obtain ⟨part, inside, rfl⟩ := mem_map.1 mem
  obtain ⟨whole, split, rfl⟩ := mem_map.1 (mem_filter.1 inside).1
  rw [String.toList_ofList] at blank
  exact absurd (mem_of_mem_splitBy split ' ' (mem_of_mem_trim blank)) (by decide)

theorem mem_foldl_addName {name : String} {ns known : List String}
    (mem : name ∈ ns.foldl addName known) : name ∈ known ∨ name ∈ ns := by
  induction ns generalizing known with
  | nil => exact .inl mem
  | cons fst r ih =>
    rcases ih mem with inside | later
    · unfold addName at inside
      split at inside
      · exact .inl inside
      · rcases mem_append.1 inside with inside | eq
        · exact .inl inside
        · exact .inr (mem_singleton.1 eq ▸ mem_cons_self)
    · exact .inr (.tail _ later)

theorem Header.space_not_mem_add {header : Header} (given : Attribute)
    (blank : ∀ name ∈ header.declared, ' ' ∉ name.toList) :
    ∀ name ∈ (header.add given).declared, ' ' ∉ name.toList := by
  unfold Header.add
  split
  · exact blank
  split
  · exact blank
  split
  · intro name mem
    exact (mem_foldl_addName mem).elim (blank name) (space_not_mem_namesIn name)
  · exact blank

theorem space_not_mem_declared (i : Nat) (script : Element) :
    ∀ name ∈ (cellOf i script).declared, ' ' ∉ name.toList := by
  have all : ∀ (given : List Attribute) (header : Header),
      (∀ name ∈ header.declared, ' ' ∉ name.toList) →
      ∀ name ∈ (given.foldl Header.add header).declared, ' ' ∉ name.toList := by
    intro given
    induction given with
    | nil => exact fun header blank => blank
    | cons fst r ih => exact fun header blank => ih _ (header.space_not_mem_add fst blank)
  exact all _ {} fun name absurd => absurd |> not_mem_nil |>.elim

theorem cells_of_parse (parsed : parse document = .ok notebook) :
    ∃ scripts : List Element, notebook.cells = scripts.zipIdx.map fun (script, i) => cellOf i script := by
  unfold parse at parsed
  split at parsed
  · cases parsed
  · dsimp only at parsed
    split at parsed
    · cases parsed
    · cases parsed
      exact ⟨_, rfl⟩

theorem pairwise_cells (parsed : parse document = .ok notebook) :
    notebook.cells.Pairwise fun cell other => cell.index < other.index := by
  obtain ⟨scripts, cells⟩ := cells_of_parse parsed
  rw [cells, pairwise_map]
  have numbers : (scripts.zipIdx.map Prod.snd).Pairwise (· < ·) := by
    rw [zipIdx_map_snd]
    exact pairwise_lt_range'
  exact pairwise_map.1 numbers

end Notebook

end Declared

/-! ## The outputs of compiled cells -/

theorem Form.space_not_mem_detect {ts : List Token} (lexed : Script.lex s = .ok ts) (isView : Bool) :
    (∀ name expression, Form.detect ts isView = .named name expression → ' ' ∉ name.toList) ∧
    ∀ name expression, Form.detect ts isView = .view name expression → ' ' ∉ name.toList := by
  have named {i : Nat} {t : Token}
      (got : (TokenSeq.ofList ts).get? i = some t) (ident : t.kind = .ident) :
      ' ' ∉ t.text.toList :=
    space_not_mem_of_hasName lexed ⟨i, t, got, ident, rfl⟩
  unfold Form.detect
  split
  · exact ⟨by rintro _ _ ⟨⟩, by rintro _ _ ⟨⟩⟩
  · next fst here =>
    split
    · next t got =>
      obtain ⟨next, cond⟩ := Option.filter_eq_some_iff.1 got
      simp only [Bool.and_eq_true, beq_iff_eq] at cond
      refine ⟨by rintro _ _ ⟨⟩, ?_⟩
      rintro _ _ ⟨⟩
      exact named next cond.1.1.1.2
    split
    · next cond =>
      refine ⟨?_, by rintro _ _ ⟨⟩⟩
      rintro _ _ ⟨⟩
      exact named here cond.1
    split
    · exact ⟨by rintro _ _ ⟨⟩, by rintro _ _ ⟨⟩⟩
    split
    · exact ⟨by rintro _ _ ⟨⟩, by rintro _ _ ⟨⟩⟩
    · exact ⟨by rintro _ _ ⟨⟩, by rintro _ _ ⟨⟩⟩

section Outputs

variable {cell : SourceCell} {compiled : CompiledCell}

theorem outward_declaredOutput {declared : List String} (blank : ∀ name ∈ declared, ' ' ∉ name.toList) :
    ∀ name ∈ (Script.declaredOutput declared).1, Outward name := by
  cases declared with
  | nil => exact fun name absurd => absurd |> not_mem_nil |>.elim
  | cons fst r =>
    intro name mem
    exact .inl (mem_singleton.1 mem ▸ blank fst mem_cons_self)

section

variable (blank : ∀ name ∈ cell.declared, ' ' ∉ name.toList)
include blank

theorem Script.outward_outputs
    (done : Script.compile cell = .ok compiled) : ∀ name ∈ compiled.outputs, Outward name := by
  obtain ⟨ts, imports, body, bodyTokens, lexed, -, -, relexed, rfl⟩ := compile_eq_ok.1 done
  obtain ⟨named, viewed⟩ := Form.space_not_mem_detect lexed cell.isView
  show ∀ name ∈ (outputsOf _ _ _).1, Outward name
  unfold outputsOf
  split
  · intro name mem
    have top := (programOutputs_sublist _ _).subset mem
    exact .inl (space_not_mem_of_hasName relexed ((Scope.analyze_topLevel bodyTokens).2 name top))
  · cases form : Form.detect ts cell.isView with
    | named fst expression =>
      intro name mem
      exact .inl (mem_singleton.1 mem ▸ named fst expression form)
    | view v expression =>
      intro name mem
      rcases mem_cons.1 mem with rfl | mem
      · exact .inr ⟨v, rfl⟩
      · exact .inl (mem_singleton.1 mem ▸ viewed v expression form)
    | block _ _ | expression => exact outward_declaredOutput blank
    | empty | program => exact fun name absurd => absurd |> not_mem_nil |>.elim

theorem Markup.outward_outputs {tag : String}
    (done : Markup.compile tag cell = .ok compiled) : ∀ name ∈ compiled.outputs, Outward name := by
  simp only [Markup.compile, Except.bind_eq_ok] at done
  obtain ⟨template, -, done⟩ := done
  cases done
  exact outward_declaredOutput blank

theorem SourceCell.outward_outputs
    (done : cell.compile = .ok compiled) : ∀ name ∈ compiled.outputs, Outward name := by
  unfold SourceCell.compile at done
  split at done
  · exact Script.outward_outputs blank (Except.mapError_eq_ok.1 done)
  · exact Markup.outward_outputs blank (Except.mapError_eq_ok.1 done)
  · exact Markup.outward_outputs blank (Except.mapError_eq_ok.1 done)
  · exact Markup.outward_outputs blank (Except.mapError_eq_ok.1 done)
  · cases done

end

end Outputs

theorem mem_compileAll {cells : List SourceCell} {compiled : CompiledCell}
    (mem : compiled ∈ (compileAll cells).1) : ∃ cell ∈ cells, cell.compile = .ok compiled := by
  obtain ⟨res, inside, done⟩ := mem_filterMap.1 mem
  obtain ⟨cell, cellMember, rfl⟩ := mem_map.1 inside
  refine ⟨cell, cellMember, ?_⟩
  cases res : cell.compile with
  | error error => rw [res] at done; cases done
  | ok v => rw [res] at done; cases done; rfl

theorem pairwise_compileAll {cells : List SourceCell}
    (ascending : cells.Pairwise fun cell other => cell.index < other.index) :
    (compileAll cells).1.Pairwise fun cell other => cell.index < other.index := by
  induction cells with
  | nil => exact .nil
  | cons cell r ih =>
    obtain ⟨below, ascending⟩ := pairwise_cons.1 ascending
    cases res : cell.compile with
    | error error =>
      rw [compileAll_cons_error res]
      exact ih ascending
    | ok compiled =>
      rw [compileAll_cons_ok res]
      refine pairwise_cons.2 ⟨fun other mem => ?_, ih ascending⟩
      obtain ⟨src, inside, done⟩ := mem_compileAll mem
      rw [cell.compile_index res, src.compile_index done]
      exact below src inside

/-! ## Variables -/

/-- The variable that a definition defines; a cell without outputs defines none. -/
def Definition.defined? : Definition → Option String
  | .observed name _ _ => name
  | .hidden name _ _ => some name

/-- The variables that a module defines. -/
def Module.variables (module : Module) : List String :=
  module.cells.flatMap fun cell => (cell.definitions?.getD []).filterMap Definition.defined?

/-- The variable behind several outputs. -/
def CellDefinition.hidden (cell : CellDefinition) : List String :=
  if cell.shape = .multiple then [hiddenName cell.index] else []

theorem variables_definitions? (fits : cell.shape.Fits cell.outputs) :
    (cell.definitions?.getD []).filterMap Definition.defined? = cell.hidden ++ cell.outputs := by
  unfold CellDefinition.definitions? CellDefinition.hidden
  cases shape : cell.shape with
  | anonymous => rw [fits.anonymous.1 shape]; rfl
  | single =>
    obtain ⟨name, outputs⟩ := fits.single.1 shape
    rw [outputs]
    rfl
  | viewPair =>
    obtain ⟨name, outputs⟩ := fits.viewPair.1 shape
    rw [outputs]
    rfl
  | multiple =>
    simp [Definition.defined?, filterMap_map, Function.comp_def]

theorem mem_hidden (mem : name ∈ cell.hidden) : name = hiddenName cell.index := by
  unfold CellDefinition.hidden at mem
  split at mem
  · exact mem_singleton.1 mem
  · cases mem

theorem nodup_variables {cells : List CellDefinition}
    (ascending : cells.Pairwise fun cell other => cell.index < other.index)
    (outward : ∀ cell ∈ cells, ∀ name ∈ cell.outputs, Outward name)
    (nodup : (cells.flatMap (·.outputs)).Nodup) :
    (cells.flatMap fun cell => cell.hidden ++ cell.outputs).Nodup := by
  obtain ⟨each, apart⟩ := pairwise_flatMap.1 nodup
  refine pairwise_flatMap.2 ⟨fun cell mem => ?_, ?_⟩
  · refine nodup_append.2 ⟨?_, each cell mem, fun hidden inside name defines eq => ?_⟩
    · unfold CellDefinition.hidden
      split
      · exact nodup_singleton _
      · exact nodup_nil
    · exact (outward cell mem name defines).ne_hiddenName _ (eq.symm.trans (mem_hidden inside))
  · refine (ascending.and apart).imp_of_mem ?_
    rintro cell other mem otherMember ⟨below, apart⟩ name inside _ insideToo rfl
    rcases mem_append.1 inside with hidden | defines <;>
      rcases mem_append.1 insideToo with hiddenToo | definesToo
    · have eq := index_eq_of_append ((mem_hidden hidden).symm.trans (mem_hidden hiddenToo))
      exact Nat.ne_of_lt below eq
    · exact (outward other otherMember name definesToo).ne_hiddenName _ (mem_hidden hidden)
    · exact (outward cell mem name defines).ne_hiddenName _ (mem_hidden hiddenToo)
    · exact apart name defines name definesToo rfl

theorem fits_of_mem_imageOf (name : String) (wellFormed : ∀ cell ∈ cells, cell.WellFormed) :
    ∀ cell ∈ (Module.imageOf name cells).cells, cell.shape.Fits cell.outputs := by
  intro cell mem
  obtain ⟨compiled, inside, rfl⟩ := mem_map.1 mem
  exact (wellFormed compiled inside).shape_fits

theorem variables_imageOf (name : String) (wellFormed : ∀ cell ∈ cells, cell.WellFormed) :
    (Module.imageOf name cells).variables =
      (Module.imageOf name cells).cells.flatMap fun cell => cell.hidden ++ cell.outputs :=
  flatMap_congr fun cell mem =>
    variables_definitions? (fits_of_mem_imageOf name wellFormed cell mem)

/-- **The names of a notebook's library.**  The cells of a notebook that compile are refused
exactly if two of them define one name; the name that is reported is the first such name in
the document, with the ascending list of all cells that define it.  Otherwise they give a
library, whose variables are the outputs of its cells and the hidden names of its cells
with several outputs, and all of them are distinct. -/
theorem generate_parse {document : String} {notebook : Notebook}
    (parsed : Notebook.parse document = .ok notebook) (name : String) (workspace : List String)
    (fallback : String) :
    let cells := (compileAll notebook.cells).1
    let result := Library.generate cells name workspace fallback
    ((∃ duplicate, result = .error (.duplicate duplicate)) ↔ ∃ shared, Shared cells shared) ∧
    (∀ duplicate, result = .error (.duplicate duplicate) →
      Shared cells duplicate.name ∧
      (∀ other, Shared cells other →
        (definedNames cells).idxOf duplicate.name ≤ (definedNames cells).idxOf other) ∧
      duplicate.cells.Pairwise (· < ·) ∧
      ∀ index, index ∈ duplicate.cells ↔
        ∃ cell ∈ cells, cell.index = index ∧ duplicate.name ∈ cell.outputs) ∧
    ((¬ ∃ shared, Shared cells shared) → ∃ library, result = .ok library) ∧
    ∀ library, result = .ok library →
      library.module.variables =
        library.module.cells.flatMap (fun cell => cell.hidden ++ cell.outputs) ∧
      library.module.variables.Nodup := by
  intro cells result
  have ascending := pairwise_compileAll (Notebook.pairwise_cells parsed)
  have compiled : ∀ cell ∈ cells, ∃ source : SourceCell, source.compile = .ok cell := by
    intro cell member
    obtain ⟨source, -, done⟩ := mem_compileAll member
    exact ⟨source, done⟩
  have wellFormed : ∀ cell ∈ cells, cell.WellFormed := by
    intro cell member
    obtain ⟨source, done⟩ := compiled cell member
    exact SourceCell.compile_wellFormed done
  have outward : ∀ cell ∈ cells, ∀ name ∈ cell.outputs, Outward name := by
    intro cell member
    obtain ⟨source, inside, done⟩ := mem_compileAll member
    obtain ⟨scripts, listed⟩ := Notebook.cells_of_parse parsed
    rw [listed] at inside
    obtain ⟨⟨script, index⟩, -, rfl⟩ := List.mem_map.1 inside
    exact SourceCell.outward_outputs (Notebook.space_not_mem_declared index script) done
  have refused (duplicate : DuplicateOutput) :
      result = .error (.duplicate duplicate) ↔ duplicateOutput? cells = some duplicate := by
    rw [Library.generate_eq_duplicate, inDocumentOrder_eq (.refl cells) ascending]
  refine ⟨?_, ?_, ?_, ?_⟩
  · simp only [refused]
    rw [← Option.isSome_iff_exists, Option.isSome_iff_ne_none, ne_eq,
      duplicateOutput?_eq_none ascending, not_not]
  · intro duplicate failed
    obtain ⟨shared, first, owners⟩ :=
      duplicateOutput?_eq_some ascending ((refused duplicate).1 failed)
    refine ⟨shared, first, owners ▸ pairwise_ownersOf _ ascending, fun index => ?_⟩
    rw [owners, mem_ownersOf]
  · intro none
    exact ⟨_, Library.generate_of_pairwise name workspace fallback (.refl cells) ascending
      ((duplicateOutput?_eq_none ascending).2 none)
      (Module.render?_isSome (fits_of_mem_imageOf name wellFormed))⟩
  · intro library generated
    obtain ⟨unique, built, -, -⟩ :=
      (Library.generate_eq_ok_of_pairwise (.refl cells) ascending).1 generated
    have distinct := nodup_definedNames ascending unique fun cell member =>
      (wellFormed cell member).outputs_nodup
    have named := variables_imageOf name wellFormed
    rw [built]
    refine ⟨named, ?_⟩
    rw [named]
    refine nodup_variables (List.pairwise_map.2 ascending) ?_ ?_
    · intro cell member
      obtain ⟨compiled, inside, rfl⟩ := List.mem_map.1 member
      exact outward compiled inside
    · rw [Module.imageOf, List.flatMap_map]
      exact distinct

/-- A notebook with two shared names.  The second one has more owners, and the first one is
reported. -/
def sharedNotebook : String :=
  "<notebook><title>Shared</title><script>const a = 1, b = 2;</script>" ++
    "<script type=\"text/markdown\" output=\"b\">note</script>" ++
    "<script>b = 3</script><script>viewof a = 4</script></notebook>"

theorem generate_parse_shared :
    ∃ notebook, Notebook.parse sharedNotebook = .ok notebook ∧
      let cells := (compileAll notebook.cells).1
      Library.generate cells "shared" [] "latest" = .error (.duplicate ⟨"a", [0, 3]⟩) ∧
      Shared cells "a" ∧ Shared cells "b" ∧
      (definedNames cells).idxOf "a" ≤ (definedNames cells).idxOf "b" ∧
      ¬ ∃ library, Library.generate cells "shared" [] "latest" = .ok library := by
  have known : (Notebook.parse sharedNotebook).toOption.any (fun notebook =>
      duplicateOutput? (compileAll notebook.cells).1 == some ⟨"a", [0, 3]⟩ &&
        ownersOf (compileAll notebook.cells).1 "b" == [0, 1, 2]) = true := by
    decide +kernel
  cases parsed : Notebook.parse sharedNotebook with
  | error fault => rw [parsed] at known; cases known
  | ok notebook =>
      rw [parsed] at known
      have facts := Bool.and_eq_true_iff.1 known
      obtain ⟨-, reported, -, -⟩ := generate_parse parsed "shared" [] "latest"
      have ascending := pairwise_compileAll (Notebook.pairwise_cells parsed)
      have failed : Library.generate (compileAll notebook.cells).1 "shared" [] "latest" =
          .error (.duplicate ⟨"a", [0, 3]⟩) := by
        rw [Library.generate_eq_duplicate, inDocumentOrder_eq (.refl _) ascending]
        exact beq_iff_eq.1 facts.1
      have sharedToo : Shared (compileAll notebook.cells).1 "b" := by
        rw [← one_lt_owners_iff ascending, beq_iff_eq.1 facts.2]
        decide
      obtain ⟨shared, first, -, -⟩ := reported _ failed
      refine ⟨notebook, rfl, failed, shared, sharedToo, first "b" sharedToo, ?_⟩
      rintro ⟨library, generated⟩
      cases failed.symm.trans generated

end Bindery
