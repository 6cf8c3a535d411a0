/-
Proofs.Text.Split -- the parts of a split text

A text is split at every separator: a part holds none (`mem_of_mem_splitBy`), and splitting
two texts with a separator between them is splitting each (`splitBy_append`).
-/
import Bindery.Text.Lines

namespace Bindery.Text

open List

variable {separates : Char → Bool} {s w r : List Char} {c : Char}

theorem splitBy_ne_nil : splitBy separates s ≠ [] := by
  cases s with
  | nil => nofun
  | cons c r =>
    unfold splitBy
    split
    · nofun
    · split <;> nofun

theorem flatten_splitBy (s : List Char) : (splitBy separates s).flatten = s.filter (!separates ·) := by
  induction s with
  | nil => rfl
  | cons c r ih =>
    rw [splitBy]
    split
    · next ends => simp [ends, ih]
    · next kept =>
      cases parts : splitBy separates r with
      | nil => exact absurd parts splitBy_ne_nil
      | cons part parts' =>
        rw [parts] at ih
        simp [kept, ← ih]

theorem mem_of_mem_splitBy {part : List Char} (mem : part ∈ splitBy separates s) :
    ∀ c ∈ part, separates c = false := by
  intro c inside
  have := mem_flatten_of_mem mem inside
  rw [flatten_splitBy] at this
  simpa using (mem_filter.1 this).2

theorem splitBy_append (ends : separates c) :
    splitBy separates (s ++ c :: r) = splitBy separates s ++ splitBy separates r := by
  induction s with
  | nil =>
    show splitBy separates (c :: r) = [] :: splitBy separates r
    rw [splitBy, if_pos ends]
  | cons d s ih =>
    rw [cons_append, splitBy, splitBy, ih]
    split
    · rfl
    · cases ps : splitBy separates s with
      | nil => exact absurd ps splitBy_ne_nil
      | cons part ps => rfl

theorem splitBy_word (whole : ∀ c ∈ w, separates c = false) : splitBy separates w = [w] := by
  induction w with
  | nil => rfl
  | cons c w ih =>
    rw [splitBy, whole c mem_cons_self, ih fun d mem => whole d (.tail _ mem)]
    rfl

end Bindery.Text
