/-
Proofs.Notebook.Dedent -- text that does not depend on where it stands

The text of a cell is the same however deep the cell is nested (`indentLines`), and taking it
out of its surroundings a second time changes nothing.  Both come from what a cut does to a line
with content: the shared indentation lies within its white space, so that the line keeps its
content (`trimStart_cutIndent`), and the line that has no more than it starts with content
(`cutIndent_indentOf`).
-/
import Bindery.Notebook.Dedent
import Mathlib.Data.List.DropRight
import Mathlib.Data.List.Forall2

namespace Bindery.Notebook

open List Text

variable {s l : List Char} {ls : List (List Char)} {k n : Nat} {c : Char}

/-! ## Lines -/

theorem lines_cons (other : c ≠ '\n') (inner : c ≠ '\r' ∨ s.head? ≠ some '\n') :
    lines (c :: s) = match lines s with
      | [] => [[c]]
      | l :: tl => (c :: l) :: tl := by
  rw [lines.eq_def]
  split
  · next eq => cases eq
  · next eq => cases eq; exact absurd rfl other
  · next eq => cases eq; exact inner.elim (absurd rfl) (absurd rfl)
  · next eq => cases eq; rfl

theorem inner_of {rest : List Char} (inner : ∀ tl, c = '\r' → rest = '\n' :: tl → False) :
    c ≠ '\r' ∨ rest.head? ≠ some '\n' := by
  refine or_iff_not_imp_left.2 fun return_ feed => ?_
  obtain ⟨tl, split⟩ := head?_eq_some_iff.1 feed
  exact inner tl (not_not.1 return_) split

/-- A line as it stands in a text and as it is read: a carriage return at its end is lost. -/
def ReadAs (l written : List Char) : Prop :=
  written = l ∨ written = l ++ ['\r']

theorem lines_append {fst : List Char} (stays : '\n' ∉ fst) (rest : List Char) :
    ∃ l, ReadAs l fst ∧ lines (fst ++ '\n' :: rest) = l :: lines rest := by
  induction fst with
  | nil => exact ⟨[], .inl rfl, rfl⟩
  | cons c fst ih =>
    rw [mem_cons, not_or] at stays
    obtain ⟨l, reads, split⟩ := ih stays.2
    by_cases ends : c = '\r' ∧ fst = []
    · obtain ⟨rfl, rfl⟩ := ends
      exact ⟨[], .inr rfl, rfl⟩
    · refine ⟨c :: l, reads.imp (congrArg (c :: ·)) (congrArg (c :: ·)), ?_⟩
      have inner : c ≠ '\r' ∨ (fst ++ '\n' :: rest).head? ≠ some '\n' := by
        refine or_iff_not_imp_left.2 fun return_ => ?_
        cases fst with
        | nil => exact absurd ⟨not_not.1 return_, rfl⟩ ends
        | cons d fst =>
          intro eq
          exact stays.2 (Option.some.inj eq ▸ mem_cons_self)
      rw [cons_append, lines_cons (Ne.symm stays.1) inner, split]

theorem unlines_cons (l : List Char) {r : List (List Char)} (ne : r ≠ []) :
    unlines (l :: r) = l ++ '\n' :: unlines r := by
  cases r with
  | nil => exact absurd rfl ne
  | cons next r => rfl

theorem lines_of_not_mem (stays : '\n' ∉ l) (ne : l ≠ []) : lines l = [l] := by
  induction l with
  | nil => exact absurd rfl ne
  | cons c l ih =>
    rw [mem_cons, not_or] at stays
    have inner : l.head? ≠ some '\n' := fun eq => stays.2 (mem_of_head? eq)
    rw [lines_cons (Ne.symm stays.1) (.inr inner)]
    cases l with
    | nil => rfl
    | cons d l => rw [ih stays.2 (cons_ne_nil _ _)]

theorem lines_unlines (inside : ∀ l ∈ ls, '\n' ∉ l) (last : ls.getLast? ≠ some []) :
    Forall₂ ReadAs (lines (unlines ls)) ls := by
  induction ls with
  | nil => exact .nil
  | cons l r ih =>
    have stays := inside l mem_cons_self
    cases r with
    | nil =>
      rw [show unlines [l] = l from rfl, lines_of_not_mem stays fun empty => last (by rw [empty]; rfl)]
      exact .cons (.inl rfl) .nil
    | cons next r =>
      obtain ⟨read, reads, split⟩ := lines_append stays (unlines (next :: r))
      rw [unlines_cons l (cons_ne_nil _ _), split]
      exact .cons reads (ih (fun other mem => inside other (mem_cons_of_mem _ mem)) last)

theorem mem_of_mem_lines (mem : l ∈ lines s) : ∀ c ∈ l, c ∈ s ∧ c ≠ '\n' := by
  fun_induction lines s generalizing l with
  | case1 => cases mem
  | case2 rest ih =>
    rcases mem_cons.1 mem with rfl | mem
    · exact fun _ absurd => by cases absurd
    · exact fun c inside => ⟨mem_cons_of_mem _ (ih mem c inside).1, (ih mem c inside).2⟩
  | case3 rest ih =>
    rcases mem_cons.1 mem with rfl | mem
    · exact fun _ absurd => by cases absurd
    · exact fun c inside =>
        ⟨mem_cons_of_mem _ (mem_cons_of_mem _ (ih mem c inside).1), (ih mem c inside).2⟩
  | case4 d rest other _ _ ih =>
    cases mem_singleton.1 mem
    intro c inside
    cases mem_singleton.1 inside
    exact ⟨mem_cons_self, other⟩
  | case5 d rest other _ fst r split ih =>
    have inner := ih (split ▸ mem_cons_self : fst ∈ lines rest)
    rcases mem_cons.1 mem with rfl | mem
    · intro c inside
      rcases mem_cons.1 inside with rfl | inside
      · exact ⟨mem_cons_self, other⟩
      · exact ⟨mem_cons_of_mem _ (inner c inside).1, (inner c inside).2⟩
    · intro c inside
      have kept := ih (split ▸ mem_cons_of_mem _ mem) c inside
      exact ⟨mem_cons_of_mem _ kept.1, kept.2⟩

/-! ## Indentation -/

theorem indentOf_cons (c : Char) (l : List Char) :
    indentOf (c :: l) = if isBlank c then c.utf8Size + indentOf l else 0 := by
  rw [indentOf, takeWhile_cons]
  split <;> rfl

theorem trimStart_eq_nil : trimStart l = [] ↔ isBlankText l := by
  rw [trimStart, dropWhile_eq_nil_iff, isBlankText, all_eq_true]

theorem visible_iff : isBlankText l = false ↔ trimStart l ≠ [] := by
  rw [ne_eq, trimStart_eq_nil, Bool.not_eq_true]

theorem trimStart_of_dropBytes? {r : List Char} (within : n ≤ indentOf l)
    (cut : dropBytes? n l = some r) : trimStart r = trimStart l := by
  fun_induction dropBytes? n l with
  | case1 l => rw [Option.some.inj cut]
  | case2 => cases cut
  | case3 count c l fits ih =>
    rw [indentOf_cons] at within
    split at within
    · next blank =>
      rw [ih (by omega) cut, trimStart, trimStart, dropWhile_cons_of_pos blank]
    · exact absurd within (Nat.not_succ_le_zero _)
  | case4 => cases cut

/-- A cut within the white space of a line keeps its content. -/
theorem trimStart_cutIndent (within : n ≤ indentOf l) : trimStart (cutIndent n l) = trimStart l := by
  unfold cutIndent
  cases cut : dropBytes? n l with
  | none => exact dropWhile_idempotent ..
  | some r => exact trimStart_of_dropBytes? within cut

theorem dropBytes?_cons (c : Char) (count : Nat) (l : List Char) :
    dropBytes? (c.utf8Size + count) (c :: l) = dropBytes? count l := by
  have positive := c.utf8Size_pos
  cases size : c.utf8Size + count with
  | zero => omega
  | succ r => rw [dropBytes?, if_pos (by omega), show r + 1 - c.utf8Size = count by omega]

/-- A line that has no more than the indentation starts with its content. -/
theorem cutIndent_indentOf (l : List Char) : cutIndent (indentOf l) l = trimStart l := by
  have cut : dropBytes? (indentOf l) l = some (trimStart l) := by
    induction l with
    | nil => exact dropBytes?.eq_1 []
    | cons c l ih =>
      rw [indentOf_cons, trimStart, dropWhile_cons]
      split
      · rw [dropBytes?_cons]
        exact ih
      · rw [dropBytes?]
  rw [cutIndent, cut, Option.getD_some]

theorem suffix_cutIndent (n : Nat) (l : List Char) : cutIndent n l <:+ l := by
  have cut (r : List Char) (found : dropBytes? n l = some r) : r <:+ l := by
    fun_induction dropBytes? n l with
    | case1 l => exact Option.some.inj found ▸ suffix_rfl
    | case2 => cases found
    | case3 count c l fits ih => exact (ih found).trans (suffix_cons c l)
    | case4 => cases found
  unfold cutIndent
  cases found : dropBytes? n l with
  | none => exact dropWhile_suffix _
  | some r => exact cut r found

/-- The common indentation is the least of the lines with content. -/
theorem commonIndent_eq_iff (some_ : ∃ l ∈ ls, isBlankText l = false) :
    commonIndent ls = n ↔
      (∃ l ∈ ls, isBlankText l = false ∧ indentOf l = n) ∧
        ∀ l ∈ ls, isBlankText l = false → n ≤ indentOf l := by
  have among (number : Nat) : number ∈ (ls.filter (!isBlankText ·)).map indentOf ↔
      ∃ l ∈ ls, isBlankText l = false ∧ indentOf l = number := by
    simp [and_assoc]
  obtain ⟨l, mem, vis⟩ := some_
  cases least : ((ls.filter (!isBlankText ·)).map indentOf).min? with
  | none =>
    rw [min?_eq_none_iff] at least
    cases least ▸ (among _).2 ⟨l, mem, vis, rfl⟩
  | some found =>
    have spec : commonIndent ls = n ↔
        ((ls.filter (!isBlankText ·)).map indentOf).min? = some n := by
      rw [commonIndent, least, Option.getD_some, Option.some_inj]
    rw [spec, min?_eq_some_iff, among]
    refine and_congr_right fun _ => ⟨fun below other inside shown => ?_, fun below number inside => ?_⟩
    · exact below _ ((among _).2 ⟨other, inside, shown, rfl⟩)
    · obtain ⟨other, mem, shown, rfl⟩ := (among _).1 inside
      exact below other mem shown

theorem commonIndent_of_mem (mem : l ∈ ls) (vis : isBlankText l = false)
    (flush : indentOf l = 0) : commonIndent ls = 0 :=
  (commonIndent_eq_iff ⟨l, mem, vis⟩).2 ⟨⟨l, mem, vis, flush⟩, fun _ _ _ => Nat.zero_le _⟩

theorem cutIndent_zero : cutIndent 0 = id := by
  funext l
  rw [cutIndent, dropBytes?]
  rfl

/-! ## Blank lines -/

theorem trimBlankLines_eq (lines : List (List Char)) :
    trimBlankLines lines = (lines.dropWhile isBlankText).rdropWhile isBlankText :=
  rfl

/-- The first line and the last one have content. -/
def Framed (lines : List (List Char)) : Prop :=
  (∀ l ∈ lines.head?, isBlankText l = false) ∧ ∀ l ∈ lines.getLast?, isBlankText l = false

theorem framed_trimBlankLines (lines : List (List Char)) : Framed (trimBlankLines lines) := by
  rw [trimBlankLines_eq]
  refine ⟨fun l mem => ?_, fun l mem => ?_⟩
  · obtain ⟨r, whole⟩ := rdropWhile_prefix isBlankText (lines.dropWhile isBlankText)
    have fst := head?_dropWhile_not isBlankText lines
    rw [← whole, head?_append, Option.mem_def.1 mem] at fst
    exact fst
  · have ne := ne_nil_of_mem (mem_of_getLast? mem)
    rw [getLast?_eq_some_getLast ne] at mem
    cases mem
    simpa using rdropWhile_last_not isBlankText _ ne

theorem Framed.trimBlankLines (framed : Framed ls) : trimBlankLines ls = ls := by
  cases ls with
  | nil => rfl
  | cons l r =>
    rw [trimBlankLines_eq, dropWhile_cons_of_neg (by simp [framed.1 l rfl]), rdropWhile_eq_self_iff]
    intro ne
    simp [framed.2 _ (getLast?_eq_some_getLast ne)]

theorem Framed.map {change : List Char → List Char} (framed : Framed ls)
    (kept : ∀ l ∈ ls, isBlankText l = false → isBlankText (change l) = false) : Framed (ls.map change) := by
  refine ⟨fun l mem => ?_, fun l mem => ?_⟩
  · rw [head?_map] at mem
    obtain ⟨before, there, rfl⟩ := Option.map_eq_some_iff.1 mem
    exact kept before (mem_of_head? there) (framed.1 before there)
  · rw [getLast?_map] at mem
    obtain ⟨before, there, rfl⟩ := Option.map_eq_some_iff.1 mem
    exact kept before (mem_of_getLast? there) (framed.2 before there)

/-! ## Deeper lines -/

/-- The rest of a line and the lines behind it, with spaces in front of each line.  A final line
feed starts no line. -/
def indentRest (k : Nat) : List Char → List Char
  | [] => []
  | c :: rest =>
    if c = '\n' ∧ rest ≠ [] then c :: (replicate k ' ' ++ indentRest k rest)
    else c :: indentRest k rest

/-- The text with spaces in front of every line. -/
def indentLines (k : Nat) (s : List Char) : List Char :=
  if s = [] then [] else replicate k ' ' ++ indentRest k s

theorem lines_ne_nil (ne : s ≠ []) : lines s ≠ [] := by
  fun_cases lines s <;> simp_all

theorem lines_spaces (ne : s ≠ []) :
    lines (replicate k ' ' ++ s) = (lines s).modifyHead (replicate k ' ' ++ ·) := by
  obtain ⟨l, r, split⟩ := exists_cons_of_ne_nil (lines_ne_nil ne)
  induction k with
  | zero => simp [split]
  | succ k ih =>
    rw [replicate_succ, cons_append, lines_cons (by decide) (.inl (by decide)), ih, split]
    rfl

theorem head?_indentRest (k : Nat) (s : List Char) : (indentRest k s).head? = s.head? := by
  cases s with
  | nil => rfl
  | cons c r => rw [indentRest]; split <;> rfl

theorem indentRest_feed (k : Nat) (r : List Char) : indentRest k ('\n' :: r) = '\n' :: indentLines k r := by
  rw [indentRest, indentLines]
  cases r with
  | nil => rfl
  | cons c r => rw [if_pos ⟨rfl, cons_ne_nil c r⟩, if_neg (cons_ne_nil c r)]

/-- The first line is as it was, and the others have spaces in front. -/
def Deeper (k : Nat) (s : List Char) : Prop :=
  lines (indentRest k s) =
    (lines s).take 1 ++ ((lines s).drop 1).map (replicate k ' ' ++ ·)

theorem Deeper.lines_indentLines (deeper : Deeper k s) :
    lines (indentLines k s) = (lines s).map (replicate k ' ' ++ ·) := by
  cases s with
  | nil => rfl
  | cons c r =>
    have ne : indentRest k (c :: r) ≠ [] := fun empty => by
      have heads := head?_indentRest k (c :: r)
      rw [empty] at heads
      cases heads
    rw [indentLines, if_neg (cons_ne_nil c r), lines_spaces ne, deeper]
    cases lines (c :: r) <;> rfl

theorem deeper (k : Nat) (s : List Char) : Deeper k s := by
  have within (c : Char) (rest : List Char) (other : c ≠ '\n')
      (inner : c ≠ '\r' ∨ rest.head? ≠ some '\n') (ih : Deeper k rest) : Deeper k (c :: rest) := by
    rw [Deeper, indentRest, if_neg fun eq => other eq.1,
      lines_cons other (by rwa [head?_indentRest]), lines_cons other inner, ih]
    cases lines rest <;> rfl
  induction size : s.length using Nat.strongRecOn generalizing s with
  | _ size ih =>
    subst size
    fun_cases lines s with
    | case1 => rfl
    | case2 rest =>
      rw [Deeper, indentRest_feed, lines, (ih _ (by simp) rest rfl).lines_indentLines]
      rfl
    | case3 rest =>
      have shorter : rest.length < ('\r' :: '\n' :: rest).length := by
        rw [length_cons, length_cons]
        omega
      rw [Deeper, indentRest, if_neg fun eq => absurd eq.1 (by decide), indentRest_feed, lines,
        (ih _ shorter rest rfl).lines_indentLines]
      rfl
    | case4 c rest other inner => exact within c rest other (inner_of inner) (ih _ (by simp) rest rfl)
    | case5 c rest other inner => exact within c rest other (inner_of inner) (ih _ (by simp) rest rfl)

theorem trimStart_spaces (l : List Char) : trimStart (replicate k ' ' ++ l) = trimStart l :=
  dropWhile_append_of_pos fun c mem => by rw [eq_of_mem_replicate mem]; decide

theorem indentOf_spaces (l : List Char) : indentOf (replicate k ' ' ++ l) = k + indentOf l := by
  induction k with
  | zero => simp
  | succ k ih =>
    rw [replicate_succ, cons_append, indentOf_cons, ih, if_pos (by decide), show ' '.utf8Size = 1 from rfl]
    omega

theorem cutIndent_spaces (n : Nat) (l : List Char) :
    cutIndent (k + n) (replicate k ' ' ++ l) = cutIndent n l := by
  have cut : dropBytes? (k + n) (replicate k ' ' ++ l) = dropBytes? n l := by
    induction k with
    | zero => simp
    | succ k ih =>
      rw [replicate_succ, cons_append, show k + 1 + n = ' '.utf8Size + (k + n) by
        rw [show ' '.utf8Size = 1 from rfl]; omega, dropBytes?_cons, ih]
  rw [cutIndent, cut, trimStart_spaces, cutIndent]

/-! ## The text of a cell -/

/-- The lines with content have no indentation in common. -/
def Flush (s : List Char) : Prop :=
  commonIndent (trimBlankLines (lines s)) = 0

instance (s : List Char) : Decidable (Flush s) :=
  inferInstanceAs (Decidable (_ = _))

theorem dedent_of_flush (flush : Flush s) : dedent s = unlines (trimBlankLines (lines s)) := by
  rw [Flush] at flush
  simp only [dedent, flush, cutIndent_zero, map_id]

theorem Framed.exists_visible (framed : Framed ls) (ne : ls ≠ []) : ∃ l ∈ ls, isBlankText l = false := by
  obtain ⟨l, r, rfl⟩ := exists_cons_of_ne_nil ne
  exact ⟨l, mem_cons_self, framed.1 l rfl⟩

theorem dedent_indentLines (k : Nat) (s : List Char) : dedent (indentLines k s) = dedent s := by
  have blank (l : List Char) : isBlankText (replicate k ' ' ++ l) = isBlankText l := by
    rw [Bool.eq_iff_iff, ← trimStart_eq_nil, ← trimStart_eq_nil, trimStart_spaces]
  have trimmed : trimBlankLines (lines (indentLines k s)) =
      (trimBlankLines (lines s)).map (replicate k ' ' ++ ·) := by
    rw [(deeper k s).lines_indentLines]
    simp only [trimBlankLines, dropWhile_map, ← map_reverse, Function.comp_def, blank]
  rw [dedent, dedent, trimmed]
  by_cases empty : trimBlankLines (lines s) = []
  · rw [empty]
    rfl
  have vis := (framed_trimBlankLines (lines s)).exists_visible empty
  obtain ⟨⟨l, mem, shown, least⟩, below⟩ := (commonIndent_eq_iff vis).1 rfl
  have common : commonIndent ((trimBlankLines (lines s)).map (replicate k ' ' ++ ·)) =
      k + commonIndent (trimBlankLines (lines s)) := by
    refine (commonIndent_eq_iff ⟨_, mem_map_of_mem mem, (blank l).trans shown⟩).2
      ⟨⟨_, mem_map_of_mem mem, (blank l).trans shown, ?_⟩, ?_⟩
    · rw [indentOf_spaces, least]
    · intro other inside there
      obtain ⟨other, among, rfl⟩ := mem_map.1 inside
      rw [indentOf_spaces]
      exact Nat.add_le_add_left (below other among ((blank other).symm.trans there)) k
  rw [common, map_map]
  exact congrArg unlines (map_congr_left fun other _ => cutIndent_spaces _ other)

/-- The lines of a text that was taken out of its surroundings. -/
def cutLines (s : List Char) : List (List Char) :=
  (trimBlankLines (lines s)).map (cutIndent (commonIndent (trimBlankLines (lines s))))

theorem framed_cutLines (s : List Char) : Framed (cutLines s) := by
  refine (framed_trimBlankLines _).map fun l mem shown => ?_
  have below := ((commonIndent_eq_iff ⟨l, mem, shown⟩).1 rfl).2 l mem shown
  rw [visible_iff] at shown ⊢
  rwa [trimStart_cutIndent below]

theorem mem_of_mem_cutLines (mem : l ∈ cutLines s) : ∀ c ∈ l, c ∈ s ∧ c ≠ '\n' := by
  obtain ⟨whole, among, rfl⟩ := mem_map.1 mem
  rw [trimBlankLines_eq] at among
  have kept := rdropWhile_prefix _ _ |>.subset among
  have inside := (dropWhile_suffix _).subset kept
  exact fun c found => mem_of_mem_lines inside c ((suffix_cutIndent _ whole).subset found)

theorem exists_flush (ne : cutLines s ≠ []) : ∃ l ∈ cutLines s, ∃ c r, l = c :: r ∧ isBlank c = false := by
  have lines_ne : trimBlankLines (lines s) ≠ [] := fun empty => ne (by rw [cutLines, empty]; rfl)
  obtain ⟨⟨l, mem, shown, least⟩, -⟩ :=
    (commonIndent_eq_iff ((framed_trimBlankLines (lines s)).exists_visible lines_ne)).1 rfl
  refine ⟨_, mem_map_of_mem mem, ?_⟩
  rw [← least, cutIndent_indentOf]
  obtain ⟨c, r, split⟩ := exists_cons_of_ne_nil (visible_iff.1 shown)
  have fst := head?_dropWhile_not isBlank l
  rw [show l.dropWhile isBlank = c :: r from split] at fst
  exact ⟨c, r, split, fst⟩

theorem lines_dedent (s : List Char) : Forall₂ ReadAs (lines (dedent s)) (cutLines s) := by
  refine lines_unlines (fun l mem feed => (mem_of_mem_cutLines mem _ feed).2 rfl) fun last => ?_
  cases (framed_cutLines s).2 [] last

theorem ReadAs.visible {written : List Char} (reads : ReadAs l written)
    (shown : isBlankText written = false) : isBlankText l = false := by
  rcases reads with rfl | rfl
  · exact shown
  · rw [isBlankText, all_append] at shown
    exact (Bool.and_eq_false_iff.1 shown).resolve_right (by decide)

theorem Framed.read {read : List (List Char)} (framed : Framed ls)
    (reads : Forall₂ ReadAs read ls) : Framed read := by
  have fst {read written : List (List Char)} (reads : Forall₂ ReadAs read written)
      (shown : ∀ l ∈ written.head?, isBlankText l = false) :
      ∀ l ∈ read.head?, isBlankText l = false := by
    intro l mem
    cases reads with
    | nil => cases mem
    | cons here _ => cases mem; exact here.visible (shown _ rfl)
  refine ⟨fst reads framed.1, fun l mem => ?_⟩
  rw [← head?_reverse] at mem
  refine fst (forall₂_reverse_iff.2 reads) (fun other last => ?_) l mem
  rw [head?_reverse] at last
  exact framed.2 other last

section Read

variable {read written : List (List Char)} (reads : Forall₂ ReadAs read written)

include reads

theorem eq_of_reads (plain : ∀ l ∈ written, '\r' ∉ l) : read = written := by
  induction reads with
  | nil => rfl
  | cons here _ ih =>
    rw [ih fun l mem => plain l (mem_cons_of_mem _ mem)]
    rcases here with rfl | rfl
    · rfl
    · exact absurd (mem_append_right _ mem_cons_self) (plain _ mem_cons_self)

theorem exists_read (mem : l ∈ written) : ∃ read' ∈ read, ReadAs read' l := by
  induction reads with
  | nil => cases mem
  | cons here _ ih =>
    rcases mem_cons.1 mem with rfl | mem
    · exact ⟨_, mem_cons_self, here⟩
    · obtain ⟨found, among, reads⟩ := ih mem
      exact ⟨found, mem_cons_of_mem _ among, reads⟩

end Read

theorem flush_dedent (plain : '\r' ∉ s) : Flush (dedent s) ∧
    trimBlankLines (lines (dedent s)) = cutLines s := by
  have read : lines (dedent s) = cutLines s := eq_of_reads (lines_dedent s)
    fun l mem inside => plain (mem_of_mem_cutLines mem _ inside).1
  rw [Flush, read, (framed_cutLines s).trimBlankLines]
  refine ⟨?_, rfl⟩
  by_cases empty : cutLines s = []
  · rw [empty]
    rfl
  · obtain ⟨l, mem, c, rest, rfl, shown⟩ := exists_flush empty
    have vis : isBlankText (c :: rest) = false := by rw [isBlankText, all_cons, shown, Bool.false_and]
    refine commonIndent_of_mem mem vis ?_
    rw [indentOf_cons, shown, if_neg Bool.false_ne_true]

/-- **The text of a cell does not depend on where the cell stands.**  Spaces in front of every line
make no difference; a text without carriage returns is taken out of its surroundings once and for
all; and what is left, if anything, starts and ends with a line that is not blank and has a line
that starts with content. -/
theorem dedent_stable (s : List Char) : (∀ k, dedent (indentLines k s) = dedent s) ∧
    ('\r' ∉ s → dedent (dedent s) = dedent s) ∧
    (dedent s ≠ [] → (∃ fst ∈ (lines (dedent s)).head?, isBlankText fst = false) ∧
      (∃ last ∈ (lines (dedent s)).getLast?, isBlankText last = false) ∧
      ∃ l ∈ lines (dedent s), ∃ c rest, l = c :: rest ∧ isBlank c = false) := by
  refine ⟨fun k => dedent_indentLines k s, fun plain => ?_, fun ne => ?_⟩
  · obtain ⟨flush, eq⟩ := flush_dedent plain
    rw [dedent_of_flush flush, eq]
    rfl
  · have reads := lines_dedent s
    have framed := (framed_cutLines s).read reads
    have some_ : cutLines s ≠ [] := fun empty => ne (congrArg unlines empty)
    have read_ : lines (dedent s) ≠ [] := lines_ne_nil ne
    refine ⟨⟨_, head?_eq_some_head read_, framed.1 _ (head?_eq_some_head read_)⟩,
      ⟨_, getLast?_eq_some_getLast read_, framed.2 _ (getLast?_eq_some_getLast read_)⟩, ?_⟩
    obtain ⟨written, mem, c, rest, rfl, shown⟩ := exists_flush some_
    obtain ⟨l, among, here⟩ := exists_read reads mem
    refine ⟨l, among, c, ?_⟩
    rcases here with rfl | split
    · exact ⟨rest, rfl, shown⟩
    · cases l with
      | nil => cases split; cases shown
      | cons d l => cases split; exact ⟨l, rfl, shown⟩

end Bindery.Notebook
