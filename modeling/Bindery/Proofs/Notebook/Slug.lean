/-
Proofs.Notebook.Slug -- slugs are normal forms, and names of files

A slug is made of words with a dash between two of them (`joined_slugify`), so it neither begins
nor ends with a dash and has no two together.  Its words are letters and numbers in lower case,
and it is its own slug, unless the title has a capital I with a dot: the combining dot of its
lower-case form is neither a letter nor a number (`slugify_normal`).  A slug has no slash and no
point, and an empty one is not used, so the name of a library can be put behind a path, whatever
the title.
-/
import Bindery.Notebook.Document
import Bindery.Proofs.Disk.Change
import Bindery.Proofs.Text.Lowercase
import Mathlib.Data.List.Chain

namespace Bindery.Notebook

open List hiding splitBy
open String Text

variable {c : Char} {title : String} {s part : List Char} {ps : List (List Char)}

/-! ## Words with dashes between them -/

/-- The text is made of the parts, with a dash between two of them. -/
inductive Joined : List (List Char) → List Char → Prop where
  | nil : Joined [] []
  | last (part : List Char) : Joined [part] part
  | more {part next text : List Char} {ps : List (List Char)} (later : Joined (next :: ps) text) :
      Joined (part :: next :: ps) (part ++ '-' :: text)

theorem joined_intercalate (parts : List (List Char)) : Joined parts (['-'].intercalate parts) := by
  induction parts with
  | nil => exact .nil
  | cons part parts ih =>
    cases parts with
    | nil => simpa using Joined.last part
    | cons next parts =>
      rw [List.intercalate_cons_cons, List.append_assoc]
      exact .more ih

theorem Joined.mem (joined : Joined ps s) (mem : c ∈ s) : c = '-' ∨ ∃ part ∈ ps, c ∈ part := by
  induction joined with
  | nil => cases mem
  | last part => exact .inr ⟨part, mem_cons_self, mem⟩
  | @more part _ _ _ _ ih =>
    rcases mem_append.1 mem with mem | mem
    · exact .inr ⟨part, mem_cons_self, mem⟩
    rcases mem_cons.1 mem with rfl | mem
    · exact .inl rfl
    · obtain rfl | ⟨part, listed, inside⟩ := ih mem
      · exact .inl rfl
      · exact .inr ⟨part, mem_cons_of_mem _ listed, inside⟩

/-- No dash at either end, and no two dashes together. -/
def Tidy (s : List Char) : Prop :=
  s.head? ≠ some '-' ∧ s.getLast? ≠ some '-' ∧ s.IsChain fun c d => c = '-' → d ≠ '-'

theorem tidy_word (dashless : '-' ∉ s) : Tidy s := by
  refine ⟨fun fst => dashless (mem_of_mem_head? fst), fun last => dashless (mem_of_getLast? last), ?_⟩
  refine Pairwise.isChain (pairwise_of_forall_mem_list ?_)
  rintro c mem d - rfl
  exact absurd mem dashless

theorem Joined.tidy (joined : Joined ps s) (whole : ∀ part ∈ ps, part ≠ [] ∧ '-' ∉ part) :
    Tidy s ∧ (ps ≠ [] → s ≠ []) := by
  induction joined with
  | nil => exact ⟨tidy_word not_mem_nil, fun filled => absurd rfl filled⟩
  | last part =>
    obtain ⟨ne, dashless⟩ := whole part mem_cons_self
    exact ⟨tidy_word dashless, fun _ => ne⟩
  | @more part _ _ _ _ ih =>
    obtain ⟨ne, dashless⟩ := whole part mem_cons_self
    obtain ⟨⟨fst, last, chain⟩, filled⟩ := ih fun part mem => whole part (.tail _ mem)
    obtain ⟨head, _, inner⟩ := tidy_word dashless
    refine ⟨⟨?_, ?_, ?_⟩, by simp⟩
    · rwa [head?_append_of_ne_nil _ ne]
    · rw [getLast?_append_of_ne_nil _ (cons_ne_nil _ _), getLast?_cons_of_ne_nil (filled (cons_ne_nil _ _))]
      exact last
    · refine isChain_append.2 ⟨inner, isChain_cons.2 ⟨?_, chain⟩, ?_⟩
      · rintro c starts - rfl
        exact fst starts
      · rintro c ends d - rfl
        exact absurd (mem_of_getLast? ends) dashless

theorem Joined.words (joined : Joined ps s) (whole : ∀ part ∈ ps, part ≠ [] ∧ ∀ c ∈ part, isAlphanumeric c) :
    words s = ps := by
  have single {part : List Char} (whole : part ≠ [] ∧ ∀ c ∈ part, isAlphanumeric c) :
      Notebook.words part = [part] := by
    rw [Notebook.words, Text.splitBy_word (by simpa using whole.2)]
    simp [whole.1]
  induction joined with
  | nil => rfl
  | last part => exact single (whole part mem_cons_self)
  | @more part _ _ _ _ ih =>
    rw [Notebook.words, Text.splitBy_append (by decide +kernel), filter_append]
    exact congrArg₂ (· ++ ·) (single (whole part mem_cons_self)) (ih fun part mem => whole part (.tail _ mem))

/-! ## Slugs -/

theorem flatten_words (s : List Char) : (words s).flatten = s.filter isAlphanumeric := by
  rw [words, flatten_filter_not_isEmpty, Text.flatten_splitBy]
  simp

theorem of_mem_words (listed : part ∈ words s) : part ≠ [] ∧ ∀ c ∈ part, isAlphanumeric c ∧ c ∈ s := by
  refine ⟨by simpa using (mem_filter.1 listed).2, fun c mem => ?_⟩
  have inside : c ∈ (words s).flatten := mem_flatten_of_mem listed mem
  rw [flatten_words] at inside
  exact (mem_filter.1 inside).symm

theorem toList_slugify (title : String) :
    (slugify title).toList = ['-'].intercalate ((words title.toList).map (·.flatMap lowercase)) := by
  rw [slugify, toList_intercalate, List.map_map]
  refine congrArg (['-'].intercalate ·) (map_congr_left fun part _ => ?_)
  exact toList_ofList

theorem joined_slugify (title : String) :
    Joined ((words title.toList).map (·.flatMap lowercase)) (slugify title).toList := by
  rw [toList_slugify]
  exact joined_intercalate _

theorem of_mem_slugPart (listed : part ∈ (words title.toList).map (·.flatMap lowercase)) :
    part ≠ [] ∧ ∀ c ∈ part, ∃ letter ∈ title.toList, isAlphanumeric letter ∧ c ∈ lowercase letter := by
  obtain ⟨w, inTitle, rfl⟩ := mem_map.1 listed
  obtain ⟨ne, whole⟩ := of_mem_words inTitle
  refine ⟨fun empty => ?_, fun c mem => ?_⟩
  · obtain ⟨letter, inside⟩ := exists_mem_of_ne_nil w ne
    exact lowercase_ne_nil letter (flatMap_eq_nil_iff.1 empty letter inside)
  · obtain ⟨letter, inside, imaged⟩ := mem_flatMap.1 mem
    exact ⟨letter, (whole letter inside).2, (whole letter inside).1, imaged⟩

theorem of_mem_slugify (mem : c ∈ (slugify title).toList) :
    c = '-' ∨ ∃ letter ∈ title.toList, isAlphanumeric letter ∧ c ∈ lowercase letter := by
  rcases (joined_slugify title).mem mem with dash | ⟨part, listed, inside⟩
  · exact .inl dash
  · exact .inr ((of_mem_slugPart listed).2 c inside)

theorem alphanumeric_of_mem_slugify (mem : c ∈ (slugify title).toList) :
    c = '-' ∨ isAlphanumeric c ∨ '\u0130' ∈ title.toList ∧ c = '\u0307' := by
  obtain dash | ⟨letter, inside, alphanumeric, imaged⟩ := of_mem_slugify mem
  · exact .inl dash
  · refine .inr (((lowercase_cases imaged).2 alphanumeric).imp_right ?_)
    rintro ⟨rfl, dot⟩
    exact ⟨inside, dot⟩

theorem tidy_slugify (title : String) : Tidy (slugify title).toList := by
  refine ((joined_slugify title).tidy fun part listed => ?_).1
  obtain ⟨ne, letters⟩ := of_mem_slugPart listed
  refine ⟨ne, fun dash => ?_⟩
  obtain ⟨letter, -, alphanumeric, imaged⟩ := letters _ dash
  obtain absurd | ⟨-, absurd⟩ := (lowercase_cases imaged).2 alphanumeric
  · exact Bool.noConfusion (absurd.symm.trans (by decide +kernel : isAlphanumeric '-' = false))
  · cases absurd

/-- Without the combining dot, the words of a slug are lower-case words already. -/
theorem slugify_slugify (dotless : '\u0130' ∉ title.toList) : slugify (slugify title) = slugify title := by
  have whole : ∀ part ∈ (words title.toList).map (·.flatMap lowercase),
      part ≠ [] ∧ ∀ c ∈ part, isAlphanumeric c ∧ lowercase c = [c] := by
    intro part listed
    obtain ⟨ne, letters⟩ := of_mem_slugPart listed
    refine ⟨ne, fun c mem => ?_⟩
    obtain ⟨letter, inside, alphanumeric, imaged⟩ := letters c mem
    obtain ⟨final, held | ⟨rfl, -⟩⟩ := (lowercase_cases imaged).imp_right (· alphanumeric)
    · exact ⟨held, final⟩
    · exact absurd inside dotless
  have split : words (slugify title).toList = (words title.toList).map (·.flatMap lowercase) :=
    (joined_slugify title).words fun part listed =>
      ⟨(whole part listed).1, fun c inside => ((whole part listed).2 c inside).1⟩
  have eq : ∀ part ∈ (words title.toList).map (·.flatMap lowercase), part.flatMap lowercase = part := by
    intro part listed
    rw [flatMap_congr fun c inside => ((whole part listed).2 c inside).2, flatMap_singleton']
  rw [← toList_inj, toList_slugify, split, map_congr_left eq, map_id', ← toList_slugify]

/-- **Slugs are normal forms**, but for the dot that a capital I with a dot leaves behind. -/
theorem slugify_normal (title : String) :
    Tidy (slugify title).toList ∧
      (∀ c ∈ (slugify title).toList,
        c = '-' ∨ isAlphanumeric c = true ∨ '\u0130' ∈ title.toList ∧ c = '\u0307') ∧
      ('\u0130' ∉ title.toList → slugify (slugify title) = slugify title) :=
  ⟨tidy_slugify title, fun _ => alphanumeric_of_mem_slugify, slugify_slugify⟩

theorem slugify_dotted : '\u0307' ∈ (slugify "\u0130").toList ∧ isAlphanumeric '\u0307' = false ∧
    slugify (slugify "\u0130") ≠ slugify "\u0130" := by
  decide +kernel

theorem ne_of_mem_slugify (mem : c ∈ (slugify title).toList) : c ≠ '/' ∧ c ≠ '.' := by
  obtain rfl | held | ⟨-, rfl⟩ := alphanumeric_of_mem_slugify mem
  · decide
  · constructor <;> rintro rfl <;> exact absurd held (by decide +kernel)
  · decide

/-- **The name of a library can be put behind a path.** -/
theorem isPlain_libraryNameOf (title : Option String) : Path.IsPlain (libraryNameOf title) := by
  unfold libraryNameOf
  cases kept : (title.map slugify).filter (!·.isEmpty) with
  | none => decide
  | some n =>
    obtain ⟨got, some⟩ := Option.filter_eq_some_iff.1 kept
    obtain ⟨title, -, rfl⟩ := Option.map_eq_some_iff.1 got
    have ne : (slugify title).toList ≠ [] := by
      rw [ne_eq, toList_eq_nil_iff]
      rintro empty
      rw [empty] at some
      cases some
    have dotless {n : String} (inside : '.' ∈ n.toList) : slugify title ≠ n := by
      rintro rfl
      exact (ne_of_mem_slugify inside).2 rfl
    exact ⟨ne, fun slash => (ne_of_mem_slugify slash).1 rfl, dotless (by decide), dotless (by decide)⟩

theorem isPlain_libraryNameIn (document : String) : Path.IsPlain (libraryNameIn document) :=
  isPlain_libraryNameOf _

theorem libraryName_of_parse {document : String} {nb : Notebook}
    (parsed : parse document = .ok nb) : nb.libraryName = libraryNameIn document := by
  unfold parse at parsed
  split at parsed
  · cases parsed
  · dsimp only at parsed
    split at parsed
    · cases parsed
    · cases parsed
      rfl

end Bindery.Notebook
