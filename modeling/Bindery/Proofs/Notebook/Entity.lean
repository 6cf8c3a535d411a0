/-
Proofs.Notebook.Entity -- decoding is one pass

Entities are decoded by replacing one after the other in the whole text.  This is the same
as one pass from left to right that replaces whichever entity it stands in front of
(`decodeEntities_eq`): behind its ampersand no entity has an ampersand or a character that
some entity stands for, so what was decoded before never completes another entity.
-/
import Bindery.Notebook.Entity
import Bindery.Text.Blank

namespace Bindery

open List Text

/-! ## Replacing a word -/

section Replace

variable {w replacement r : List Char} {c : Char}

theorem replaceFrom_eq_drop (w replacement : List Char) (skip : Nat) (s : List Char) :
    replaceFrom w replacement skip s = replaceAll w replacement (s.drop skip) := by
  induction skip generalizing s with
  | zero => rfl
  | succ skip ih =>
    cases s with
    | nil => rfl
    | cons fst s => exact ih s

theorem replaceAll_append :
    replaceAll (c :: w) replacement (c :: w ++ r) = replacement ++ replaceAll (c :: w) replacement r := by
  have starts : (c :: w).isPrefixOf (c :: (w ++ r)) := isPrefixOf_iff_prefix.2 (prefix_append _ _)
  rw [cons_append, replaceAll, replaceFrom, if_pos starts, replaceFrom_eq_drop,
    length_cons, Nat.add_sub_cancel, drop_left]

theorem replaceAll_cons (absent : ¬ w <+: c :: r) :
    replaceAll w replacement (c :: r) = c :: replaceAll w replacement r := by
  rw [replaceAll, replaceFrom, if_neg fun starts => absent <| isPrefixOf_iff_prefix.1 starts]
  rfl

end Replace

namespace Notebook

/-! ## One pass -/

def entityAt? (table : List (String × Char)) (text : List Char) : Option (String × Char) :=
  table.find? fun ent => ent.1.toList.isPrefixOf text

/-- Decode the entities of a table in one pass, behind `skip` characters that belong to the
entity decoded last. -/
def decodeFrom (table : List (String × Char)) : Nat → List Char → List Char
  | _, [] => []
  | skip + 1, _ :: r => decodeFrom table skip r
  | 0, c :: r =>
    match entityAt? table (c :: r) with
    | some ent => ent.2 :: decodeFrom table (ent.1.toList.length - 1) r
    | none => c :: decodeFrom table 0 r

/-- The text with its entities read in one pass. -/
def decodeOnce (table : List (String × Char)) (text : List Char) : List Char :=
  decodeFrom table 0 text

def Marked (table : List (String × Char)) : Prop :=
  ∀ ent ∈ table, ent.1.toList.head? = some '&' ∧ '&' ∉ ent.1.toList.tail

instance (table : List (String × Char)) : Decidable (Marked table) :=
  inferInstanceAs (Decidable (∀ ent ∈ table, _))

def areApart (letters : List Char) (table : List (String × Char)) : Bool :=
  letters.all fun x => x != '&' && table.all fun ent => x != ent.2

theorem areApart_iff {letters : List Char} {table : List (String × Char)} :
    areApart letters table ↔ ∀ x ∈ letters, x ≠ '&' ∧ ∀ ent ∈ table, x ≠ ent.2 := by
  simp only [areApart, all_eq_true, Bool.and_eq_true, bne_iff_ne]

section Pass

variable {table : List (String × Char)} {ent : String × Char} {c : Char} {r : List Char}

theorem decodeFrom_eq_drop (table : List (String × Char)) (skip : Nat) (s : List Char) :
    decodeFrom table skip s = decodeOnce table (s.drop skip) := by
  induction skip generalizing s with
  | zero => rfl
  | succ skip ih =>
    cases s with
    | nil => rfl
    | cons fst s => exact ih s

theorem entityAt?_eq_some (marked : Marked table) {s : List Char} (got : entityAt? table s = some ent) :
    ent ∈ table ∧ ∃ w tl, ent.1.toList = '&' :: w ∧ s = '&' :: (w ++ tl) := by
  have mem := mem_of_find?_eq_some got
  have starts := find?_some (p := fun ent : String × Char => ent.1.toList.isPrefixOf s) got
  obtain ⟨w, split⟩ := head?_eq_some_iff.1 (marked ent mem).1
  obtain ⟨tl, whole⟩ := isPrefixOf_iff_prefix.1 starts
  rw [split] at whole
  exact ⟨mem, w, tl, split, whole.symm⟩

theorem entityAt?_of_ne (marked : Marked table) (plain : c ≠ '&') : entityAt? table (c :: r) = none := by
  cases got : entityAt? table (c :: r) with
  | none => rfl
  | some ent =>
    obtain ⟨-, w, tl, -, whole⟩ := entityAt?_eq_some marked got
    exact absurd (List.cons.inj whole).1 plain

theorem decodeOnce_of_none (absent : entityAt? table (c :: r) = none) :
    decodeOnce table (c :: r) = c :: decodeOnce table r := by
  rw [decodeOnce, decodeFrom, absent]
  rfl

theorem decodeOnce_of_some {w tl : List Char} (split : ent.1.toList = c :: w)
    (got : entityAt? table (c :: (w ++ tl)) = some ent) :
    decodeOnce table (c :: (w ++ tl)) = ent.2 :: decodeOnce table tl := by
  rw [decodeOnce, decodeFrom, got]
  dsimp only
  rw [decodeFrom_eq_drop, split, length_cons, Nat.add_sub_cancel, drop_left]

/-- A word without ampersands and decoded characters stands in the decoded text exactly
where it stands in the text. -/
theorem prefix_decodeOnce (marked : Marked table) {w : List Char} (apart : areApart w table) (s : List Char) :
    w <+: decodeOnce table s ↔ w <+: s := by
  have plain := areApart_iff.1 apart
  clear apart
  induction w generalizing s with
  | nil => simp
  | cons x w ih =>
    obtain ⟨ampersand, decoded⟩ := plain x mem_cons_self
    cases s with
    | nil => rfl
    | cons y r =>
      cases got : entityAt? table (y :: r) with
      | some ent =>
        obtain ⟨mem, tail, tl, split, whole⟩ := entityAt?_eq_some marked got
        obtain ⟨rfl, rfl⟩ := List.cons.inj whole
        rw [decodeOnce_of_some split got, cons_prefix_cons, cons_prefix_cons]
        simp [ampersand, decoded ent mem]
      | none =>
        have later := ih r fun z mem => plain z (.tail _ mem)
        rw [decodeOnce_of_none got, cons_prefix_cons, cons_prefix_cons]
        exact and_congr_right fun _ => later

theorem decodeOnce_append (marked : Marked table) {plain : List Char} (free : '&' ∉ plain)
    (r : List Char) : decodeOnce table (plain ++ r) = plain ++ decodeOnce table r := by
  induction plain with
  | nil => rfl
  | cons x plain ih =>
    rw [mem_cons, not_or] at free
    rw [cons_append, decodeOnce_of_none (entityAt?_of_ne marked (Ne.symm free.1)), ih free.2, cons_append]

/-- **One more entity.**  Decoding a table and then replacing one more entity is decoding
the longer table. -/
theorem replaceAll_decodeOnce (w : List Char) (marked : Marked table) (kept : ∀ ent ∈ table, ent.2 ≠ '&')
    (apart : areApart w table) (c : Char) (s : List Char) :
    replaceAll ('&' :: w) [c] (decodeOnce table s) =
      decodeOnce (table ++ [(String.ofList ('&' :: w), c)]) s := by
  have spelled : (String.ofList ('&' :: w)).toList = '&' :: w := String.toList_ofList
  induction size : s.length using Nat.strongRecOn generalizing s with
  | _ _ ih =>
    subst size
    cases s with
    | nil => rfl
    | cons y r =>
      cases got : entityAt? table (y :: r) with
      | some ent =>
        obtain ⟨mem, tail, tl, split, whole⟩ := entityAt?_eq_some marked got
        obtain ⟨rfl, rfl⟩ := List.cons.inj whole
        have later : entityAt? (table ++ [(String.ofList ('&' :: w), c)])
            ('&' :: (tail ++ tl)) = some ent := by
          rw [entityAt?, find?_append, ← entityAt?, got]
          rfl
        rw [decodeOnce_of_some split got, decodeOnce_of_some split later, replaceAll_cons,
          ih tl.length (by rw [length_cons, length_append]; omega) tl rfl]
        intro starts
        exact kept ent mem (cons_prefix_cons.1 starts).1.symm
      | none =>
        rw [decodeOnce_of_none got]
        by_cases here : '&' :: w <+: y :: r
        · -- the pass before leaves the letters of the entity as they are
          obtain ⟨tl, whole⟩ := here
          rw [cons_append] at whole
          obtain ⟨rfl, rfl⟩ := List.cons.inj whole
          have later : entityAt? (table ++ [(String.ofList ('&' :: w), c)])
              ('&' :: (w ++ tl)) = some (String.ofList ('&' :: w), c) := by
            have starts : ('&' :: w).isPrefixOf ('&' :: (w ++ tl)) :=
              isPrefixOf_iff_prefix.2 (prefix_append _ _)
            rw [entityAt?, find?_append, ← entityAt?, got]
            simp only [Option.none_or, find?_singleton, spelled, starts, if_pos]
          have free : '&' ∉ w := fun mem => (areApart_iff.1 apart _ mem).1 rfl
          rw [decodeOnce_append marked free, ← cons_append,
            replaceAll_append, decodeOnce_of_some (by exact spelled) later,
            ih tl.length (by rw [length_cons, length_append]; omega) tl rfl]
          rfl
        · have later : entityAt? (table ++ [(String.ofList ('&' :: w), c)]) (y :: r) = none := by
            have differs : ('&' :: w).isPrefixOf (y :: r) = false :=
              Bool.eq_false_iff.2 fun starts => here <| isPrefixOf_iff_prefix.1 starts
            rw [entityAt?, find?_append, ← entityAt?, got]
            simp only [Option.none_or, find?_singleton, spelled, differs]
            rfl
          rw [decodeOnce_of_none later, replaceAll_cons, ih r.length (by simp) r rfl]
          rw [cons_prefix_cons, prefix_decodeOnce marked apart, ← cons_prefix_cons]
          exact here

end Pass

/-! ## The entities -/

theorem decodeOnce_nil (s : List Char) : decodeOnce [] s = s := by
  induction s with
  | nil => rfl
  | cons c r ih => rw [decodeOnce_of_none rfl, ih]

theorem foldl_replaceAll (table tl : List (String × Char)) (marked : Marked (table ++ tl))
    (kept : ∀ ent ∈ table ++ tl, ent.2 ≠ '&')
    (apart : ∀ ent ∈ table ++ tl, areApart ent.1.toList.tail (table ++ tl)) (s : List Char) :
    tl.foldl (fun s ent => replaceAll ent.1.toList [ent.2] s)
      (decodeOnce table s) = decodeOnce (table ++ tl) s := by
  induction tl generalizing table with
  | nil => rw [append_nil]; rfl
  | cons ent tl ih =>
    have here : ent ∈ table ++ ent :: tl := mem_append_right _ mem_cons_self
    have prev {other : String × Char} (mem : other ∈ table) :
        other ∈ table ++ ent :: tl := mem_append_left _ mem
    obtain ⟨w, split⟩ := head?_eq_some_iff.1 (marked ent here).1
    have own : areApart w table := by
      have all := areApart_iff.1 (apart ent here)
      rw [split] at all
      exact areApart_iff.2 fun x mem =>
        ⟨(all x mem).1, fun other known => (all x mem).2 other (prev known)⟩
    have step := replaceAll_decodeOnce w (fun other mem => marked other (prev mem))
      (fun other mem => kept other (prev mem)) own ent.2 s
    rw [← split, String.ofList_toList] at step
    rw [foldl_cons, step]
    have shift : table ++ ent :: tl = (table ++ [ent]) ++ tl := by simp
    rw [shift] at marked kept apart ⊢
    exact ih _ marked kept apart

/-- **Decoding is one pass over the text.** -/
theorem decodeEntities_eq (s : List Char) : decodeEntities s = decodeOnce entities s := by
  have split : entities = entities.dropLast ++ [("&amp;", '&')] := by decide
  have marked : Marked entities.dropLast := by decide
  have front := foldl_replaceAll [] entities.dropLast marked (by decide) (by decide) s
  have last := replaceAll_decodeOnce "amp;".toList marked (by decide) (by decide) '&' s
  rw [decodeOnce_nil, nil_append] at front
  rw [decodeEntities, split, foldl_append, front]
  exact last

/-! ## Spelling -/

/-- A way to write each character: by an entity that stands for it, or as it is, unless it
is an ampersand. -/
def Spelling (spell : Char → List Char) : Prop :=
  ∀ c, (spell c = [c] ∧ c ≠ '&') ∨ ∃ ent ∈ entities, spell c = ent.1.toList ∧ ent.2 = c

theorem entityAt?_entity {ent : String × Char} (mem : ent ∈ entities) (r : List Char) :
    entityAt? entities (ent.1.toList ++ r) = some ent := by
  -- no entity starts another
  have apart : ∀ ent ∈ entities, ∀ other ∈ entities,
      other.1.toList <+: ent.1.toList ∨ ent.1.toList <+: other.1.toList → other = ent := by
    decide
  cases got : entityAt? entities (ent.1.toList ++ r) with
  | none =>
    exact absurd (prefix_append _ r) fun starts =>
      find?_eq_none.1 got ent mem <| isPrefixOf_iff_prefix.2 starts
  | some other =>
    have starts := find?_some (p := fun other : String × Char =>
      other.1.toList.isPrefixOf (ent.1.toList ++ r)) got
    have begins := isPrefixOf_iff_prefix.1 starts
    have either := prefix_or_prefix_of_prefix begins (prefix_append ent.1.toList r)
    rw [apart ent mem other (mem_of_find?_eq_some got) either]

/-- **A spelled text is decoded to what it spells.** -/
theorem decodeEntities_spelled {spell : Char → List Char} (spelling : Spelling spell)
    (s : List Char) : decodeEntities (s.flatMap spell) = s := by
  have marked : Marked entities := by decide
  rw [decodeEntities_eq]
  induction s with
  | nil => rfl
  | cons c s ih =>
    rw [flatMap_cons]
    rcases spelling c with ⟨plain, other⟩ | ⟨ent, mem, spelled, rfl⟩
    · rw [plain, singleton_append, decodeOnce_of_none (entityAt?_of_ne marked other), ih]
    · obtain ⟨w, split⟩ := head?_eq_some_iff.1 (marked ent mem).1
      have got := entityAt?_entity mem (s.flatMap spell)
      rw [split, cons_append] at got
      rw [spelled, split, cons_append, decodeOnce_of_some split got, ih]

/-- **Decoding replaces all entities at once**, from left to right, and undoes every spelling. -/
theorem decodeEntities_once (s : List Char) :
    decodeEntities s = decodeOnce entities s ∧
      ∀ spell, Spelling spell → decodeEntities (s.flatMap spell) = s :=
  ⟨decodeEntities_eq s, fun _ spelling => decodeEntities_spelled spelling s⟩

end Notebook

end Bindery
