/-
Proofs.Token.Nesting -- pairs of brackets form a nesting

Whatever the tokens are, two pairs of brackets never cross: a bracket that opens inside a pair
lies above the pair's opening on the stack, so it is closed before that one is.  In a well-balanced
word every bracket has its partner (`WellBalanced.passes`).
-/
import Bindery.Proofs.Token.Brackets

namespace Bindery

open List Token

variable {ts w : List Token} {i j k l : Nat} {t : Token} {s : String}

/-- A bracket that is open and later is not has been closed in between. -/
theorem exists_closes_of_left (inside : (k, s) ∈ openAt ts i) (le : i ≤ j)
    (left : (k, s) ∉ openAt ts j) : ∃ c, c < j ∧ Closes ts k c := by
  induction le with
  | refl => exact absurd inside left
  | @step j _ ih =>
    by_cases here : (k, s) ∈ openAt ts j
    · rcases openAt_succ_cases ts j with
        ⟨_, _, _, _, stack⟩ | ⟨_, _, closes, stack⟩ | ⟨_, _, stack⟩
      · exact absurd (stack ▸ mem_cons_of_mem _ here) left
      · rcases mem_cons.1 (stack ▸ here) with top | below
        · cases top
          exact ⟨j, Nat.lt_succ_self j, closes⟩
        · exact absurd below left
      · exact absurd (stack ▸ here) left
    · obtain ⟨c, p, closes⟩ := ih here
      exact ⟨c, Nat.lt_succ_of_lt p, closes⟩

namespace Closes

variable (closes : Closes ts i j)

include closes

/-- **A bracket that opens inside a pair is closed inside it.** -/
theorem exists_inside (behind : i < k) (prev : k < j) (got : ts[k]? = some t)
    (opens : t.closerText? = some s) : ∃ c, c < j ∧ Closes ts k c := by
  have pushed : (k, s) ∈ openAt ts (k + 1) := openAt_succ_of_opens got opens ▸ mem_cons_self
  refine exists_closes_of_left pushed prev fun mem => ?_
  obtain ⟨_, _, _, _, _, _, stack⟩ := closes.stack
  rcases mem_cons.1 (stack ▸ mem) with eq | below
  · cases eq
    exact Nat.lt_irrefl _ behind
  · exact Nat.lt_asymm behind (lt_of_mem_openAt below)

theorem closer_lt (closes' : Closes ts k l) (behind : i < k) (prev : k < j) : l < j := by
  obtain ⟨_, _, got, _, opens, _⟩ := closes'.stack
  obtain ⟨c, inside, closed⟩ := closes.exists_inside behind prev got opens
  exact closes'.closer_eq closed ▸ inside

theorem lt_opener (closes' : Closes ts k l) (behind : i < l) (prev : l < j) : i < k := by
  rcases Nat.lt_trichotomy i k with inner | rfl | outer
  · exact inner
  · exact absurd (closes.closer_eq closes') (Nat.ne_of_gt prev)
  · exact absurd (closes'.closer_lt closes outer behind) (Nat.lt_asymm prev)

end Closes

/-! ## Well-balanced words -/

inductive WellBalanced : List Token → Prop where
  | nil : WellBalanced []
  | skip {t : Token} {rest : List Token} (opens : t.closerText? = none)
      (closes : t.isCloser = false) (later : WellBalanced rest) : WellBalanced (t :: rest)
  | pair {opening closing : Token} {body rest : List Token}
      (opens : opening.closerText? = some closing.text) (closes : closing.isCloser = true)
      (inner : WellBalanced body) (later : WellBalanced rest) :
      WellBalanced (opening :: body ++ closing :: rest)

/-- Behind a well-balanced word the stack is what it was in front of it, and every bracket of the
word has found its partner. -/
theorem WellBalanced.passes (balanced : WellBalanced w) {r : List Token} (here : ts.drop i = w ++ r) :
    openAt ts (i + w.length) = openAt ts i ∧
      ∀ k t, i ≤ k → k < i + w.length → ts[k]? = some t →
        t.isOpener ∨ t.isCloser → ∃ l, Closes ts k l ∨ Closes ts l k := by
  have step {i : Nat} {t : Token} {tl : List Token} (here : ts.drop i = t :: tl) :
      ts[i]? = some t ∧ ts.drop (i + 1) = tl := by
    rw [← head?_drop, ← tail_drop, here]
    exact ⟨rfl, rfl⟩
  induction balanced generalizing i r with
  | nil => exact ⟨rfl, fun k t le lt => absurd lt (Nat.not_lt.2 le)⟩
  | @skip t w opens closes later ih =>
    obtain ⟨got, behind⟩ := step here
    obtain ⟨stack, found⟩ := ih behind
    have length : i + (t :: w).length = i + 1 + w.length := by rw [length_cons]; omega
    rw [length]
    refine ⟨stack.trans (openAt_succ_of_plain got opens closes), fun k t' le lt got' bracket => ?_⟩
    rcases Nat.eq_or_lt_of_le le with rfl | le
    · cases got.symm.trans got'
      simp [isOpener, opens, closes] at bracket
    · exact found k t' le lt got' bracket
  | @pair opening closing body w opens closes inner later ihInner ihLater =>
    rw [append_assoc, cons_append, cons_append] at here
    obtain ⟨got, behind⟩ := step here
    obtain ⟨stack, found⟩ := ihInner behind
    rw [openAt_succ_of_opens got opens] at stack
    have tail : ts.drop (i + 1 + body.length) = closing :: (w ++ r) := by
      rw [← drop_drop, behind, drop_left]
    obtain ⟨got', behind'⟩ := step tail
    have closed : Closes ts i (i + 1 + body.length) := ⟨closing, _, got', closes, stack⟩
    obtain ⟨stack', found'⟩ := ihLater behind'
    have length : i + (opening :: body ++ closing :: w).length =
        i + 1 + body.length + 1 + w.length := by
      rw [length_append, length_cons, length_cons]; omega
    rw [length]
    refine ⟨stack'.trans closed.openAt_succ, fun k t le lt got bracket => ?_⟩
    rcases Nat.eq_or_lt_of_le le with rfl | le
    · exact ⟨_, .inl closed⟩
    rcases Nat.lt_trichotomy k (i + 1 + body.length) with p | rfl | behind
    · exact found k t le p got bracket
    · exact ⟨_, .inr closed⟩
    · exact found' k t behind lt got bracket

/-! ## The table -/

theorem matchBrackets_eq_some : (matchBrackets ts)[i]? = some (some j) ↔ Closes ts i j ∨ Closes ts j i :=
  Option.join_eq_some_iff.symm.trans TokenSeq.partner?_ofList

/-- A table in which partners point at each other, the first opens and the second closes the same
kind, pairs do not cross, and every bracket that opens inside a pair is closed inside it. -/
structure Nesting (ts : List Token) (partners : Array (Option Nat)) : Prop where
  size : partners.size = ts.length
  symm {i j : Nat} : partners[i]? = some (some j) → partners[j]? = some (some i)
  kinds {i j : Nat} : partners[i]? = some (some j) → ∃ opening closing : Token,
    ts[min i j]? = some opening ∧ ts[max i j]? = some closing ∧
      opening.closerText? = some closing.text ∧ closing.isCloser = true
  between {i j k l : Nat} : partners[i]? = some (some j) → partners[k]? = some (some l) →
    i < k → k < j → i < l ∧ l < j
  opened {i j k : Nat} {t : Token} : partners[i]? = some (some j) → i < k → k < j →
    ts[k]? = some t → t.isOpener = true → ∃ l, partners[k]? = some (some l) ∧ k < l ∧ l < j

/-- **The partners of brackets form a nesting**, and in a well-balanced word every bracket has a
partner. -/
theorem matchBrackets_nesting (ts : List Token) :
    Nesting ts (matchBrackets ts) ∧
      (WellBalanced ts → ∀ (k : Nat) (t : Token), ts[k]? = some t →
        t.isOpener = true ∨ t.isCloser = true →
        ∃ l, (matchBrackets ts)[k]? = some (some l)) := by
  have closes_of_lt {i j k : Nat} (pair : (matchBrackets ts)[i]? = some (some j))
      (behind : i < k) (prev : k < j) : Closes ts i j :=
    (matchBrackets_eq_some.1 pair).resolve_right fun closes => by have := closes.lt; omega
  refine ⟨⟨?_, fun pair => ?_, fun pair => ?_, fun pair other behind prev => ?_,
    fun pair behind prev got o => ?_⟩, fun balanced k t got bracket => ?_⟩
  · rw [← scanTo_length, size_partners_scanTo]
  · exact matchBrackets_eq_some.2 (matchBrackets_eq_some.1 pair).symm
  · rcases matchBrackets_eq_some.1 pair with closes | closes <;>
      obtain ⟨opening, closing, fst, second, opens, isCloser, -⟩ := closes.stack <;>
      refine ⟨opening, closing, ?_, ?_, opens, isCloser⟩
    · rwa [Nat.min_eq_left (Nat.le_of_lt closes.lt)]
    · rwa [Nat.max_eq_right (Nat.le_of_lt closes.lt)]
    · rwa [Nat.min_eq_right (Nat.le_of_lt closes.lt)]
    · rwa [Nat.max_eq_left (Nat.le_of_lt closes.lt)]
  · have closes := closes_of_lt pair behind prev
    rcases matchBrackets_eq_some.1 other with inner | inner
    · exact ⟨Nat.lt_trans behind inner.lt, closes.closer_lt inner behind prev⟩
    · exact ⟨closes.lt_opener inner behind prev, Nat.lt_trans inner.lt prev⟩
  · obtain ⟨s, opens⟩ := Option.isSome_iff_exists.1 o
    obtain ⟨c, inside, closed⟩ :=
      (closes_of_lt pair behind prev).exists_inside behind prev got opens
    exact ⟨c, matchBrackets_eq_some.2 (.inl closed), closed.lt, inside⟩
  · have bound := (List.getElem?_eq_some_iff.1 got).1
    obtain ⟨l, pair⟩ := (balanced.passes (i := 0) (append_nil ts).symm).2 k t (Nat.zero_le k)
      (by omega) got bracket
    exact ⟨l, matchBrackets_eq_some.2 pair⟩

theorem matchBrackets_nesting_index :
    let ts : List Token := [⟨.punct, "(", 0, 1, false⟩, ⟨.punct, "[", 1, 2, false⟩,
      ⟨.ident, "a", 2, 3, false⟩, ⟨.punct, "]", 3, 4, false⟩, ⟨.punct, ")", 4, 5, false⟩]
    WellBalanced ts ∧ ∃ l, (matchBrackets ts)[1]? = some (some l) := by
  intro ts
  have inner : WellBalanced [ts[2]] := .skip (by decide) (by decide) .nil
  have index : WellBalanced [ts[1], ts[2], ts[3]] := .pair (by decide) (by decide) inner .nil
  have balanced : WellBalanced ts := .pair (by decide) (by decide) index .nil
  exact ⟨balanced, (matchBrackets_nesting ts).2 balanced 1 _ rfl (.inl (by decide))⟩

end Bindery
