/-
Proofs.Scope.Pattern -- the events of a pattern, one item at a time

`patternEvents` and `itemEvents` call each other, so a fact about all events is
proved for both at once.  This module states their equations without the indices
that end the recursion, and one induction for facts about single events
(`forall_patternEvents`): what holds of the events of every item holds of every
event of a pattern and of a parameter list.
-/
import Bindery.Scope.Pattern

namespace Bindery

def TokenSeq.HasName (seq : TokenSeq) (name : String) : Prop :=
  ∃ i t, seq.get? i = some t ∧ t.kind = .ident ∧ t.text = name

namespace Scope

variable {seq : TokenSeq} {i limit : Nat} {t : Token} {shape : PatternShape}

theorem patternEvents_of_none (got : seq.get? i = none) : patternEvents seq i = [] := by
  unfold patternEvents
  split
  · rfl
  · next t here => rw [got] at here; cases here

theorem patternEvents_of_some (got : seq.get? i = some t) :
    patternEvents seq i = if t.kind = .ident then [.declare t.text]
      else if opensPattern t then
        (seq.closer? i).elim [] fun close =>
          itemEvents (if t.isPunct openBrace then .object else .array) seq close (i + 1)
      else [] := by
  unfold patternEvents
  split
  · next here => rw [got] at here; cases here
  · next other here =>
    obtain rfl : t = other := Option.some.inj (got.symm.trans here)
    cases seq.closer? i <;> rfl

theorem itemEvents_of_none (got : seq.get? i = none) : itemEvents shape seq limit i = [] := by
  unfold itemEvents
  split
  · rfl
  · next t here => rw [got] at here; cases here

theorem itemEvents_of_le (outside : limit ≤ i) : itemEvents shape seq limit i = [] := by
  unfold itemEvents
  split
  · rfl
  · rw [dif_neg (by omega)]

theorem itemEvents_of_lt (got : seq.get? i = some t) (inside : i < limit) :
    itemEvents shape seq limit i =
      (patternItem shape seq limit i t).leading ++
        (patternItem shape seq limit i t).nested.elim [] (patternEvents seq) ++
        (patternItem shape seq limit i t).trailing ++
        itemEvents shape seq limit (patternItem shape seq limit i t).stop := by
  conv => lhs; unfold itemEvents
  split
  · next here => rw [got] at here; cases here
  · next other here =>
    obtain rfl : t = other := Option.some.inj (got.symm.trans here)
    rw [dif_pos inside]
    dsimp only
    congr 3
    split
    · next none => rw [none]; rfl
    · next w some => rw [some]; rfl

/-- What holds of the name of every identifier that stands alone, and of the events
of every item, holds of every event of a pattern and of a list of items. -/
theorem forall_patternEvents {holds : PatternEvent → Prop}
    (name : ∀ i t, seq.get? i = some t → t.kind = .ident → holds (.declare t.text))
    (item : ∀ shape limit i t, seq.get? i = some t → i < limit →
      ∀ event, event ∈ (patternItem shape seq limit i t).leading ∨
        event ∈ (patternItem shape seq limit i t).trailing → holds event) :
    (∀ i, ∀ event ∈ patternEvents seq i, holds event) ∧
      ∀ shape limit i, ∀ event ∈ itemEvents shape seq limit i, holds event := by
  refine patternEvents.mutual_induct seq
    (fun i => ∀ event ∈ patternEvents seq i, holds event)
    (fun shape limit i => ∀ event ∈ itemEvents shape seq limit i, holds event)
    ?_ ?_ ?_ ?_ ?_ ?_ ?_ ?_
  · intro i got event mem
    rw [patternEvents_of_none got] at mem
    cases mem
  · intro i t got ident event mem
    rw [patternEvents_of_some got, if_pos ident, List.mem_singleton] at mem
    subst mem
    exact name i t got ident
  · intro i t got other opens unclosed event mem
    rw [patternEvents_of_some got, if_neg other, if_pos opens, unclosed] at mem
    cases mem
  · intro i t got other opens close closed inner event mem
    rw [patternEvents_of_some got, if_neg other, if_pos opens, closed] at mem
    exact inner event (by simpa only [dite_eq_ite, Option.elim_some] using mem)
  · intro i t got other closed event mem
    rw [patternEvents_of_some got, if_neg other, if_neg closed] at mem
    cases mem
  · intro shape limit i got event mem
    rw [itemEvents_of_none got] at mem
    cases mem
  · intro shape limit i t got inside item' nested later event mem
    rw [itemEvents_of_lt got inside] at mem
    simp only [List.mem_append] at mem
    rcases mem with ((leading | nestedMember) | trailing) | r
    · exact item shape limit i t got inside event (.inl leading)
    · cases start : (patternItem shape seq limit i t).nested with
      | none => rw [start] at nestedMember; cases nestedMember
      | some start' =>
        rw [start] at nestedMember
        exact nested start' start event nestedMember
    · exact item shape limit i t got inside event (.inr trailing)
    · exact later event r
  · intro shape limit i t got outside event mem
    rw [itemEvents_of_le (Nat.le_of_not_lt outside)] at mem
    cases mem

def PatternEvent.Named (seq : TokenSeq) : PatternEvent → Prop
  | .declare name => seq.HasName name
  | .refer _ _ => True

theorem PatternItem.named_withDefault {item : PatternItem} (leading : ∀ event ∈ item.leading, event.Named seq)
    (trailing : ∀ event ∈ item.trailing, event.Named seq) :
    (∀ event ∈ (item.withDefault seq limit).leading, event.Named seq) ∧
      ∀ event ∈ (item.withDefault seq limit).trailing, event.Named seq := by
  unfold withDefault
  split
  · refine ⟨leading, fun event mem => ?_⟩
    cases List.mem_singleton.1 mem
    exact trivial
  · exact ⟨leading, trailing⟩

theorem named_objectEntry (limit : Nat) (got : seq.get? i = some t) :
    (∀ event ∈ (objectEntry seq limit i t).leading, event.Named seq) ∧
      ∀ event ∈ (objectEntry seq limit i t).trailing, event.Named seq := by
  have named : t.kind = .ident → seq.HasName t.text := fun ident => ⟨i, t, got, ident, rfl⟩
  unfold objectEntry
  dsimp only
  repeat' split
  all_goals simp_all [PatternEvent.Named]

theorem named_patternItem (shape : PatternShape) (limit : Nat) (got : seq.get? i = some t) :
    (∀ event ∈ (patternItem shape seq limit i t).leading, event.Named seq) ∧
      ∀ event ∈ (patternItem shape seq limit i t).trailing, event.Named seq := by
  cases shape with
  | object =>
    have entry := named_objectEntry limit got
    exact PatternItem.named_withDefault entry.1 entry.2
  | array =>
    unfold patternItem arrayItem
    dsimp only
    split
    · simp
    · exact PatternItem.named_withDefault (fun _ mem => nomatch mem) (fun _ mem => nomatch mem)

theorem named_events :
    (∀ i, ∀ event ∈ patternEvents seq i, event.Named seq) ∧
      ∀ shape limit i, ∀ event ∈ itemEvents shape seq limit i, event.Named seq := by
  refine forall_patternEvents ?_ ?_
  · intro i t got ident
    exact ⟨i, t, got, ident, rfl⟩
  · intro shape limit i t got _ event mem
    have item := named_patternItem shape limit got
    exact mem.elim (item.1 event) (item.2 event)

end Scope

end Bindery
