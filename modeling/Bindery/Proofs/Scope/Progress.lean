/-
Proofs.Scope.Progress -- an analysis comes to its end

From every state a walk goes forward, until it stands behind the last token, and every
scope it knows is younger than the scopes around it.  No lookup on the way fails
(`analyze?_eq`).  An item of a pattern ends behind its start and inside the brackets it
is read between, since these enclose whole brackets only (`patternItem_inside`).
-/
import Bindery.Proofs.Scope.Checked
import Bindery.Proofs.Token.Nesting

namespace Bindery.Scope

open List TokenSeq

variable {ts : List Token} {o limit i : Nat} {t : Token}

/-! ## Patterns -/

/-- The item goes forward and stays in front of `limit`, with all that it reads. -/
structure PatternItem.Inside (i limit : Nat) (item : PatternItem) : Prop where
  forward : i < item.stop
  stop_le : item.stop ≤ limit
  nested : ∀ start ∈ item.nested, i ≤ start ∧ start ≤ limit
  refers : ∀ first stop, .refer first stop ∈ item.leading ++ item.trailing → stop ≤ limit

section Pattern

variable (closes : Closes ts o limit) (behind : o < i)

include closes

theorem punctAt_limit {s : String} (other : [")", "]", closeBrace].contains s = false) :
    (ofList ts).punctAt limit s = false := by
  obtain ⟨_, closing, _, got, _, isCloser, _⟩ := closes.stack
  rw [TokenSeq.punctAt, holds_of_get? ((get?_ofList _ _).trans got)]
  exact Token.isPunct_of_isCloser isCloser other

include behind

theorem skip_le (inside : i < limit) : (ofList ts).skip i ≤ limit := by
  unfold skip
  split
  · next c got => exact closes.closer_lt (closer?_ofList.1 got) behind inside
  · exact inside

theorem patternEnd_le (le : i ≤ limit) : patternEnd ts i ≤ limit := by
  rcases Nat.lt_or_eq_of_le le with inside | rfl
  · have := skip_le closes behind inside
    unfold patternEnd
    repeat' split
    all_goals omega
  · obtain ⟨_, closing, _, got, _, isCloser, _⟩ := closes.stack
    have none : opensPattern closing = false := Bool.or_eq_false_iff.2
      ⟨Token.isPunct_of_isCloser isCloser (by decide), Token.isPunct_of_isCloser isCloser (by decide)⟩
    simp [patternEnd, get?_ofList, got, Token.kind_of_isCloser isCloser, none]

theorem defaultEnd_le (le : i ≤ limit) : defaultEnd ts limit i ≤ limit := by
  fun_induction defaultEnd ts limit i with
  | case1 | case3 => exact le
  | case2 i inside _ ih =>
    exact ih (Nat.lt_trans behind (lt_skip _ i)) (skip_le closes behind inside)

theorem PatternItem.Inside.withDefault {item : PatternItem} (inside : item.Inside i limit) :
    (item.withDefault ts limit).Inside i limit := by
  have forward := inside.forward
  have := inside.stop_le
  unfold PatternItem.withDefault
  split
  · next equals =>
    have other : item.stop ≠ limit := fun eq => by
      rw [eq, punctAt_limit closes (by decide)] at equals
      cases equals
    have stop_le : defaultEnd ts limit (item.stop + 1) ≤ limit := defaultEnd_le closes (by omega) (by omega)
    have := le_defaultEnd ts limit (item.stop + 1)
    refine ⟨by dsimp only; omega, stop_le, inside.nested, fun fst stop mem => ?_⟩
    rcases mem_append.1 mem with mem | mem
    · exact inside.refers fst stop (mem_append_left _ mem)
    · cases mem_singleton.1 mem
      exact stop_le
  · exact inside

theorem objectEntry_inside (got : ts[i]? = some t) (inside : i < limit) :
    (objectEntry ts limit i t).Inside i limit := by
  have colon {k : Nat} (le : k ≤ limit) (here : (ofList ts).punctAt k ":") : k < limit :=
    Nat.lt_of_le_of_ne le fun eq => by
      rw [eq, punctAt_limit closes (by decide)] at here
      cases here
  have ends {k : Nat} (le : i ≤ k) (le' : k ≤ limit) := patternEnd_le closes (by omega : o < k) le'
  have starts := le_patternEnd (ofList ts)
  have single : PatternItem.Inside i limit { stop := i + 1 } := ⟨Nat.lt_succ_self i, inside, by simp, by simp⟩
  unfold objectEntry
  split
  · exact single
  split
  · exact ⟨starts _, ends (by omega) inside, by simp; omega, by simp⟩
  split
  · next opens =>
    have text : t.closerText? = some "]" := by
      simp [Token.closerText?, Token.isPunct_of_isPunct opens]
    obtain ⟨c, p, closed⟩ := closes.exists_inside behind inside got text
    have order := closed.lt
    rw [closer?_ofList.2 closed, Option.getD_some]
    dsimp only
    split
    · next here =>
      have value := colon p here
      have := starts (c + 2)
      exact ⟨by dsimp only; omega, ends (by omega) value, by simp; omega, by simp; omega⟩
    · exact ⟨by dsimp only; omega, p, by simp, by simp; omega⟩
  split
  · next here =>
    have value := colon inside here
    have := starts (i + 2)
    exact ⟨by dsimp only; omega, ends (by omega) value, by simp; omega, by simp⟩
  split
  · exact ⟨Nat.lt_succ_self i, inside, by simp, by simp⟩
  · exact single

theorem arrayEntry_inside (inside : i < limit) : (arrayEntry ts i t).Inside i limit := by
  unfold arrayEntry
  generalize start : (if t.isPunct "..." then i + 1 else i) = k
  have le : i ≤ k ∧ k ≤ limit := by split at start <;> omega
  have ends := patternEnd_le closes (by omega : o < k) le.2
  have starts := le_patternEnd (ofList ts) k
  refine ⟨?_, ?_, by simpa using le, by simp⟩ <;> dsimp only <;> split <;> omega

/-- **An item of a pattern ends behind its start and inside the brackets.** -/
theorem patternItem_inside (got : ts[i]? = some t) (inside : i < limit) (shape : PatternShape) :
    (patternItem shape ts limit i t).Inside i limit := by
  cases shape with
  | object => exact (objectEntry_inside closes behind got inside).withDefault closes behind
  | array =>
    unfold patternItem arrayItem
    dsimp only
    split
    · exact ⟨Nat.lt_succ_self i, inside, by simp, by simp⟩
    · exact (arrayEntry_inside closes behind inside).withDefault closes behind

end Pattern

/-! ## The walk -/

theorem reaches_runFrom (ts : List Token) (i : Nat) (w : Walk) :
    ∃ stop, Reaches ts i w stop (w.runFrom ts i) ∧ ts.length ≤ stop := by
  fun_induction Walk.runFrom ts i w with
  | case1 i w got =>
    rw [get?_ofList] at got
    exact ⟨i, .refl i w, getElem?_eq_none_iff.1 got⟩
  | case2 i w t got ih =>
    rw [get?_ofList] at got
    obtain ⟨stop, reaches, behind⟩ := ih
    exact ⟨stop, .step got reaches, behind⟩

/-- **An analysis comes to its end for every list of tokens.**  None of its lookups of
tokens, partners and scopes fails.  The walk stops behind the last token; every state on
the way has its scopes in order, and the step from it goes forward without a failure.
An item of a pattern goes forward and not past the bracket that ends it. -/
theorem analyze_total (ts : List Token) :
    analyze? ts = some (analyze ts) ∧
    (∃ stop, Reaches ts 0 {} stop (Walk.runFrom ts 0 {}) ∧ ts.length ≤ stop) ∧
    (∀ i w, Reaches ts 0 {} i w → w.Sound ts ∧ ∀ t, ts[i]? = some t →
      w.step? ts i t = some (w.step ts i t) ∧ i < (w.step ts i t).2) ∧
    ∀ o limit i, (ofList ts).closer? o = some limit → o < i → i < limit →
      ∃ t, ts[i]? = some t ∧ ∀ shape, (patternItem shape ts limit i t).Inside i limit := by
  refine ⟨analyze?_eq ts, reaches_runFrom ts 0 {}, fun i w reaches => ?_,
    fun o limit i got behind inside => ?_⟩
  · have sound := reaches.sound (.initial ts)
    refine ⟨sound, fun t got => ⟨?_, Walk.lt_step ..⟩⟩
    exact Walk.step?_eq sound (List.getElem?_eq_some_iff.1 got).1 t
  · have closes := closer?_ofList.1 got
    have got := getElem?_eq_getElem (Nat.lt_trans inside closes.lt_length)
    exact ⟨_, got, patternItem_inside closes behind got inside⟩

end Bindery.Scope
