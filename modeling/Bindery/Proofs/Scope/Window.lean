/-
Proofs.Scope.Window -- the same tokens at another place

A `Window` says that the tokens of one sequence stand, moved by an offset, in
another one.  It need not show all of them: the tokens of a statement are seen in
the text that begins with it, but behind its semicolon that text goes on where the
statement has ended.
-/
import Bindery.Proofs.Scope.Pattern
import Bindery.Proofs.Scope.Twin

namespace Bindery

open List Option Token TokenSeq

namespace Scope

variable {t : Token}

/-- The token ends a statement in front of the sequence: it is a semicolon, or it ends
an operand and the sequence begins with a word on a new line. -/
def EndsBefore (seq : TokenSeq) (t : Token) : Prop :=
  t.isPunct ";" = true ∨
    t.endsOperand = true ∧ ∃ first, seq.get? 0 = some first ∧ first.newlineBefore = true ∧
      (first.kind = .ident ∨ first.kind = .keyword)

/-- The visible tokens of `seq` stand in `view`, moved by `pos`, but the properties
among them are nameless there.  A line break in front of the first one may be missing if
nothing stands before it, unless it is an `of` that a brace asks. -/
structure Window (seq view : TokenSeq) (pos : Nat) (vis isProperty : Nat → Prop) : Prop where
  missing : ∀ {i}, vis i → seq.get? i = none → view.get? (i + pos) = none
  resembles : ∀ {i t}, vis i → ¬ isProperty i → seq.get? i = some t →
    ∃ twin, view.get? (i + pos) = some twin ∧ t.Resembles twin
  property : ∀ {i}, isProperty i → ∃ name hole,
    seq.get? i = some name ∧ view.get? (i + pos) = some hole ∧
      seq.prevHolds i Token.selects = true ∧ name.Passed (seq.get? (i + 1)) ∧ hole.Nameless
  line : ∀ {i t twin}, vis i → seq.get? i = some t →
    view.get? (i + pos) = some twin →
    i ≠ 0 ∨ view.prev? pos ≠ none ∨
      t.isIdent "of" = true ∧ seq.punctAt 1 openBrace = true →
    twin.newlineBefore = t.newlineBefore
  closer? : ∀ {i}, vis i →
    view.closer? (i + pos) = (seq.closer? i).map (· + pos)
  opener? : ∀ {i}, vis i →
    view.opener? (i + pos) = (seq.opener? i).map (· + pos)
  /-- nothing stands in front of the window, or the end of a statement -/
  front : ∀ t, view.prev? pos = some t → EndsBefore seq t
  /-- no conditional reaches into the window -/
  inConditional : ∀ {i}, vis i →
    Walk.inConditional view (i + pos) = Walk.inConditional seq i
  first : vis 0
  earlier : ∀ {i before}, vis i → before ≤ i → vis before
  next : ∀ {i t}, vis i → seq.get? i = some t →
    t.isPunct ";" = false → vis (i + 1)
  closes : ∀ {i closer}, seq.closer? i = some closer →
    vis closer ∧ ∃ t, seq.get? closer = some t ∧ t.isCloser = true
  /-- the search for the body of a class looks at everything -/
  classes : ∀ {i t}, vis i → seq.get? i = some t →
    t.isKeyword "class" = true → ∀ other, vis other

theorem not_semicolon_of_opensPattern (opens : opensPattern t) : t.isPunct ";" = false := by
  unfold opensPattern at opens
  rw [Bool.or_eq_true] at opens
  rcases opens with opens | opens <;> rw [isPunct_of_isPunct opens] <;> decide

theorem not_selects_of_ends {seq : TokenSeq} (ends : EndsBefore seq t) : t.selects = false := by
  rcases ends with semi | ⟨operand, _⟩
  · unfold selects
    rw [isPunct_of_isPunct semi, isPunct_of_isPunct semi]
    decide
  · refine Bool.eq_false_iff.2 fun selects => ?_
    simp only [Token.selects, Token.isPunct, Bool.or_eq_true, Bool.and_eq_true, beq_iff_eq] at selects
    rcases selects with ⟨kind, s⟩ | ⟨kind, s⟩ <;>
      simp [endsOperand, kind, s, closeBrace] at operand

theorem prev?_succ (view : TokenSeq) (i : Nat) : view.prev? (i + 1) = view.get? i := if_neg (Nat.succ_ne_zero i)

def PatternEvent.shift (pos : Nat) : PatternEvent → PatternEvent
  | .declare name => .declare name
  | .refer first stop => .refer (first + pos) (stop + pos)

/-- The event looks at visible tokens only. -/
def PatternEvent.Visible (vis : Nat → Prop) : PatternEvent → Prop
  | .declare _ => True
  | .refer _ stop => vis stop

def PatternItem.shift (pos : Nat) (item : PatternItem) : PatternItem where
  leading := item.leading.map (·.shift pos)
  nested := item.nested.map (· + pos)
  trailing := item.trailing.map (·.shift pos)
  stop := item.stop + pos

/-- The item ends at a visible token, and so do its parts. -/
structure PatternItem.Visible (vis : Nat → Prop) (item : PatternItem) : Prop where
  leading : ∀ event ∈ item.leading, event.Visible vis
  nested : ∀ start ∈ item.nested, vis start
  trailing : ∀ event ∈ item.trailing, event.Visible vis
  stop : vis item.stop

def MisreadEvents (isProperty : Nat → Prop) (events : List PatternEvent) : Prop :=
  (∃ i, isProperty i) ∧ .declare "" ∈ events

namespace Window

variable {seq view : TokenSeq} {pos : Nat} {vis isProperty : Nat → Prop}
  (win : Window seq view pos vis isProperty) {i limit : Nat} {twin : Token}
  {s : String} {question : Token → Bool}

include win

/-! ## Properties -/

theorem not_property (got : seq.get? i = some t) (plain : t.selects = false) : ¬ isProperty (i + 1) := by
  intro prop
  obtain ⟨_, _, _, _, selected, _⟩ := win.property prop
  simp [prevHolds, prev?, got, plain] at selected

theorem not_property_of_punct (here : seq.punctAt i s) (plain : s ≠ "." ∧ s ≠ "?.") : ¬ isProperty (i + 1) := by
  obtain ⟨t, got, isText⟩ := holds_eq_true.1 here
  refine win.not_property got ?_
  simp [selects, isPunct_of_isPunct isText, plain.1, plain.2]

theorem exists_twin (seen : vis i) (got : seq.get? i = some t) : ∃ twin, view.get? (i + pos) = some twin := by
  by_cases prop : isProperty i
  · obtain ⟨_, hole, _, there, _⟩ := win.property prop
    exact ⟨hole, there⟩
  · obtain ⟨twin, there, _⟩ := win.resembles seen prop got
    exact ⟨twin, there⟩

/-! ## Single tokens -/

theorem holds (seen : vis i) (plain : ¬ isProperty i)
    (eq : ∀ t twin : Token, t.Resembles twin → question twin = question t) :
    view.holds (i + pos) question = seq.holds i question := by
  cases got : seq.get? i with
  | none => simp [TokenSeq.holds, got, win.missing seen got]
  | some t =>
    obtain ⟨twin, there, like⟩ := win.resembles seen plain got
    simp [TokenSeq.holds, got, there, eq t twin like]

theorem holds_behind (seen : vis (i + 1)) (plain : ¬ isProperty (i + 1))
    (eq : ∀ t twin : Token, t.Resembles twin → twin.newlineBefore = t.newlineBefore → question twin = question t)
    : view.holds (i + 1 + pos) question = seq.holds (i + 1) question := by
  cases got : seq.get? (i + 1) with
  | none => simp [TokenSeq.holds, got, win.missing seen got]
  | some t =>
    obtain ⟨twin, there, like⟩ := win.resembles seen plain got
    have line := win.line seen got there (.inl (Nat.succ_ne_zero i))
    simp [TokenSeq.holds, got, there, eq t twin like line]

section

variable (seen : vis i)
include seen

theorem newline (behind : i ≠ 0 ∨ view.prev? pos ≠ none) :
    view.holds (i + pos) (·.newlineBefore) = seq.holds i (·.newlineBefore) := by
  cases got : seq.get? i with
  | none => simp [TokenSeq.holds, got, win.missing seen got]
  | some t =>
    obtain ⟨twin, there⟩ := win.exists_twin seen got
    simp [TokenSeq.holds, got, there, win.line seen got there (behind.imp_right .inl)]

theorem punctAt (s : String) : view.punctAt (i + pos) s = seq.punctAt i s := by
  by_cases prop : isProperty i
  · obtain ⟨n, hole, here, there, _, passed, nameless⟩ := win.property prop
    simp [TokenSeq.punctAt, TokenSeq.holds, here, there, isPunct_of_word passed.word,
      isPunct_of_word (.inl nameless.kind)]
  · exact win.holds seen prop fun _ _ like => like.isPunct s

/-- Two readings of the identifier at an index: none on both sides, or one with the
same text on both. -/
theorem ident?_cases (plain : ¬ isProperty i) :
    (seq.ident? i = none ∧ view.ident? (i + pos) = none) ∨
      ∃ n twin, seq.ident? i = some n ∧ view.ident? (i + pos) = some twin ∧ twin.text = n.text := by
  cases got : seq.get? i with
  | none => exact .inl (by simp [ident?, got, win.missing seen got])
  | some t =>
    obtain ⟨twin, there, like⟩ := win.resembles seen plain got
    by_cases ident : t.kind = .ident
    · refine .inr ⟨t, twin, ?_, ?_, like.text⟩
      · simp [ident?, got, ident]
      · simp [ident?, there, like.kind, ident]
    · exact .inl (by
        simp [ident?, got, there, like.kind, ident])

theorem behind {prop : Token → Bool} (here : seq.holds i prop) (semi : ∀ t, prop t → t.isPunct ";" = false) :
    vis (i + 1) := by
  obtain ⟨t, got, holds⟩ := holds_eq_true.1 here
  exact win.next seen got (semi t holds)

theorem behind_punct (here : seq.punctAt i s) (other : (s == ";") = false) : vis (i + 1) :=
  win.behind seen here fun t eq => by rw [isPunct_of_isPunct eq, other]

theorem behind_word (got : seq.get? i = some t) (word : t.kind = .ident ∨ t.kind = .keyword) :
    vis (i + 1) ∧ ¬ isProperty (i + 1) :=
  ⟨win.next seen got (isPunct_of_word word _), win.not_property got (not_selects_of_word word)⟩

end

theorem closer {close : Nat} (got : seq.closer? i = some close) : vis close ∧ vis (close + 1) := by
  obtain ⟨seen, t, here, isCloser⟩ := win.closes got
  exact ⟨seen, win.next seen here (isPunct_of_isCloser isCloser (by decide))⟩

theorem skip (seen : vis i) : view.skip (i + pos) = seq.skip i + pos := by
  unfold TokenSeq.skip
  rw [win.closer? seen]
  cases seq.closer? i with
  | none => exact Nat.add_right_comm i pos 1
  | some close => exact Nat.add_right_comm close pos 1

theorem visible_skip (next : vis (i + 1)) : vis (seq.skip i) := by
  unfold TokenSeq.skip
  cases got : seq.closer? i with
  | none => exact next
  | some close => exact (win.closer got).2

/-! ## The token in front -/

/-- What stands in front of a token that asks: nothing, two tokens that it cannot tell
apart, or the end of a statement in front of the window. -/
theorem prev_cases (seen : vis i) (got : seq.get? i = some t) (asks : t.asks) :
    (seq.prev? i = none ∧ view.prev? (i + pos) = none) ∨
      (∃ earlier p twin, i = earlier + 1 ∧ seq.get? earlier = some p ∧
        view.get? (earlier + pos) = some twin ∧ p.Alike twin) ∨
      i = 0 ∧ ∃ t, view.prev? (i + pos) = some t ∧ EndsBefore seq t := by
  cases i with
  | zero =>
    rw [Nat.zero_add]
    cases pre : view.prev? pos with
    | none => exact .inl ⟨rfl, rfl⟩
    | some t => exact .inr (.inr ⟨rfl, t, rfl, win.front t pre⟩)
  | succ i =>
    have seen' := win.earlier seen (Nat.le_succ i)
    rw [Nat.add_right_comm, prev?_succ, prev?_succ]
    cases there : seq.get? i with
    | none => exact .inl ⟨rfl, win.missing seen' there⟩
    | some p =>
      by_cases prop : isProperty i
      · obtain ⟨n, hole, here, hidden, _, passed, nameless⟩ := win.property prop
        obtain rfl := some.inj (there.symm.trans here)
        have plain : p.isPlainName := by
          rcases passed.quiet with plain | quiet
          · exact plain
          · simp [got, asks] at quiet
        exact .inr (.inl ⟨i, p, hole, rfl, there, hidden, alike_of_isPlainName plain nameless.isPlainName⟩)
      · obtain ⟨twin, hidden, like⟩ := win.resembles seen' prop there
        exact .inr (.inl ⟨i, p, twin, rfl, there, hidden, like.alike⟩)

theorem prevSelects (seen : vis i) : view.prevHolds (i + pos) Token.selects =
    seq.prevHolds i Token.selects := by
  cases i with
  | zero =>
    rw [Nat.zero_add, prevHolds]
    cases pre : view.prev? pos with
    | none => rfl
    | some t => exact not_selects_of_ends (win.front t pre)
  | succ i =>
    have split : ∀ (view : TokenSeq) (i : Nat), view.prevHolds (i + 1) selects =
        (view.punctAt i "." || view.punctAt i "?.") := by
      intro view i
      rw [prevHolds, prev?_succ, TokenSeq.punctAt, TokenSeq.holds, TokenSeq.punctAt, TokenSeq.holds]
      cases view.get? i <;> rfl
    have seen' := win.earlier seen (Nat.le_succ i)
    rw [Nat.add_right_comm, split, split, win.punctAt seen', win.punctAt seen']

/-! ## Patterns -/

theorem visible_patternEnd (seen : vis i) : vis (patternEnd seq i) := by
  unfold patternEnd
  split
  · exact seen
  · next t got =>
    split
    · next kind => exact win.next seen got (isPunct_of_kind_ne (by simp [kind]) _)
    · split
      · next opens =>
        exact win.visible_skip (win.next seen got (not_semicolon_of_opensPattern opens))
      · exact seen

theorem patternEnd (seen : vis i) (plain : ¬ isProperty i) :
    patternEnd view (i + pos) = patternEnd seq i + pos := by
  unfold Scope.patternEnd
  rw [win.skip seen]
  cases got : seq.get? i with
  | none => rw [win.missing seen got]
  | some t =>
    obtain ⟨twin, there, like⟩ := win.resembles seen plain got
    rw [there]
    dsimp only
    rw [like.kind, opensPattern, opensPattern, like.isPunct, like.isPunct]
    split
    · exact Nat.add_right_comm i pos 1
    · split <;> rfl

theorem visible_defaultEnd (below : vis limit) (seen : vis i) : vis (defaultEnd seq limit i) := by
  fun_induction defaultEnd seq limit i with
  | case1 => exact seen
  | case2 i inside _ ih => exact ih (win.visible_skip (win.earlier below inside))
  | case3 => exact seen

theorem defaultEnd (below : vis limit) (seen : vis i) :
    defaultEnd view (limit + pos) (i + pos) = defaultEnd seq limit i + pos := by
  fun_induction Scope.defaultEnd seq limit i with
  | case1 i inside comma =>
    unfold Scope.defaultEnd
    rw [if_pos (by omega), win.punctAt seen, if_pos comma]
  | case2 i inside comma ih =>
    conv => lhs; unfold Scope.defaultEnd
    rw [if_pos (by omega), win.punctAt seen, if_neg comma, win.skip seen]
    exact ih (win.visible_skip (win.earlier below inside))
  | case3 i outside =>
    unfold Scope.defaultEnd
    rw [if_neg (by omega)]

theorem withDefault {item : PatternItem} (below : vis limit) (seen : item.Visible vis) :
    (item.shift pos).withDefault view (limit + pos) = (item.withDefault seq limit).shift pos ∧
      (item.withDefault seq limit).Visible vis := by
  unfold PatternItem.withDefault
  have equals : view.punctAt (item.shift pos).stop "=" = seq.punctAt item.stop "=" := win.punctAt seen.stop _
  rw [equals]
  split
  · next here =>
    have behind : vis (item.stop + 1) := win.behind_punct seen.stop here (by decide)
    have stop := win.defaultEnd below behind
    rw [Nat.add_right_comm] at stop
    refine ⟨?_, seen.leading, seen.nested, ?_, win.visible_defaultEnd below behind⟩
    · simp only [PatternItem.shift, PatternEvent.shift, map_cons, map_nil, stop, Nat.add_right_comm]
    · intro event mem
      cases mem_singleton.1 mem
      exact win.visible_defaultEnd below behind
  · exact ⟨rfl, seen⟩

/-- The key of an entry with a value may be any word; other entries have to resemble each
other. -/
theorem objectEntry (got : seq.get? i = some t) (punct : ∀ s, twin.isPunct s = t.isPunct s)
    (eq : seq.punctAt (i + 1) ":" ∨ t.Resembles twin) (inside : i < limit) (below : vis (limit + 1)) :
    objectEntry view (limit + pos) (i + pos) twin = (objectEntry seq limit i t).shift pos ∧
      (objectEntry seq limit i t).Visible vis := by
  have seen : vis i := win.earlier below (by omega)
  have behind : vis (i + 1) := win.earlier below (by omega)
  have close : (view.closer? (i + pos)).getD (limit + pos) =
      (seq.closer? i).getD limit + pos := by
    rw [win.closer? seen]
    cases seq.closer? i <;> rfl
  have seenClose : vis ((seq.closer? i).getD limit) ∧
      vis ((seq.closer? i).getD limit + 1) := by
    cases got : seq.closer? i with
    | none => exact ⟨win.earlier below (Nat.le_succ _), below⟩
    | some close => exact win.closer got
  have colon : view.punctAt (i + pos + 1) ":" = seq.punctAt (i + 1) ":" := by
    rw [Nat.add_right_comm, win.punctAt behind]
  have closeColon : view.punctAt ((seq.closer? i).getD limit + pos + 1) ":" =
      seq.punctAt ((seq.closer? i).getD limit + 1) ":" := by
    rw [Nat.add_right_comm, win.punctAt seenClose.2]
  have noEvents : ∀ event ∈ ([] : List PatternEvent), event.Visible vis := fun _ mem => nomatch mem
  have noNested : ∀ w ∈ (none : Option Nat), vis w := fun _ mem => nomatch mem
  have computed : ∀ event ∈ [PatternEvent.refer (i + 1) ((seq.closer? i).getD limit)],
      event.Visible vis := by
    intro event mem
    cases mem_singleton.1 mem
    exact seenClose.1
  have v {colon : Nat} (seenColon : vis colon) (here : seq.punctAt colon ":") :
      Scope.patternEnd view (colon + pos + 1) = Scope.patternEnd seq (colon + 1) + pos ∧
        (∀ w ∈ some (colon + 1), vis w) ∧ vis (Scope.patternEnd seq (colon + 1)) := by
    have seenValue := win.behind_punct seenColon here (by decide)
    refine ⟨?_, ?_, win.visible_patternEnd seenValue⟩
    · rw [Nat.add_right_comm]
      exact win.patternEnd seenValue (win.not_property_of_punct here (by decide))
    · rintro _ ⟨⟩
      exact seenValue
  unfold Scope.objectEntry
  simp only [close, colon, closeColon, punct]
  split
  · exact ⟨by simp [PatternItem.shift, Nat.add_right_comm], noEvents, noNested, noEvents, behind⟩
  split
  · next rest =>
    have plain : ¬ isProperty (i + 1) := win.not_property got (by
      simp [Token.selects, isPunct_of_isPunct rest])
    have stop := win.patternEnd behind plain
    rw [Nat.add_right_comm] at stop
    refine ⟨by simp [PatternItem.shift, stop, Nat.add_right_comm], noEvents, ?_, noEvents,
      win.visible_patternEnd behind⟩
    rintro _ ⟨⟩
    exact behind
  split
  · split
    · next hasValue =>
      obtain ⟨stop, seenValue, seenStop⟩ := v seenClose.2 hasValue
      rw [Nat.add_right_comm _ 1 pos] at stop
      refine ⟨?_, computed, seenValue, noEvents, seenStop⟩
      simp [PatternItem.shift, PatternEvent.shift, stop, Nat.add_right_comm]
    · refine ⟨?_, computed, noNested, noEvents, seenClose.2⟩
      simp [PatternItem.shift, PatternEvent.shift, Nat.add_right_comm]
  split
  · next hasValue =>
    obtain ⟨stop, seenValue, seenStop⟩ := v behind hasValue
    rw [Nat.add_right_comm _ 1 pos] at stop
    exact ⟨by simp [PatternItem.shift, stop, Nat.add_right_comm], noEvents, seenValue, noEvents, seenStop⟩
  · next noValue =>
    have like := eq.resolve_left noValue
    rw [like.kind, like.text]
    split
    · refine ⟨by simp [PatternItem.shift, PatternEvent.shift, Nat.add_right_comm], ?_, noNested,
        noEvents, behind⟩
      intro event mem
      cases mem_singleton.1 mem
      exact trivial
    · exact ⟨by simp [PatternItem.shift, Nat.add_right_comm], noEvents, noNested, noEvents, behind⟩

theorem visible_arrayEntry (behind : vis (i + 1)) : (arrayEntry seq i t).Visible vis := by
  have seenStart : vis (if t.isPunct "..." = true then i + 1 else i) := by
    split
    · exact behind
    · exact win.earlier behind (Nat.le_succ _)
  refine ⟨(fun _ mem => nomatch mem), ?_, (fun _ mem => nomatch mem), ?_⟩
  · rintro _ ⟨⟩
    exact seenStart
  · unfold arrayEntry
    dsimp only
    generalize (if t.isPunct "..." = true then i + 1 else i) = fst at seenStart
    have seenStop := win.visible_patternEnd seenStart
    split <;> assumption

theorem arrayEntry (got : seq.get? i = some t) (plain : ¬ isProperty i) (like : t.Resembles twin)
    (behind : vis (i + 1)) : arrayEntry view (i + pos) twin = (arrayEntry seq i t).shift pos := by
  unfold Scope.arrayEntry
  rw [like.isPunct]
  dsimp only
  have start : (if t.isPunct "..." = true then i + pos + 1 else i + pos) =
      (if t.isPunct "..." = true then i + 1 else i) + pos := by
    split <;> omega
  have visibleStart : vis (if t.isPunct "..." = true then i + 1 else i) ∧
      ¬ isProperty (if t.isPunct "..." = true then i + 1 else i) := by
    split
    · next rest =>
      exact ⟨behind, win.not_property got (by
        simp [selects, isPunct_of_isPunct rest])⟩
    · exact ⟨win.earlier behind (Nat.le_succ _), plain⟩
  rw [start]
  generalize (if t.isPunct "..." = true then i + 1 else i) = fst at visibleStart
  have stop := win.patternEnd visibleStart.1 visibleStart.2
  simp only [PatternItem.shift, stop, map_nil, map_some, PatternItem.mk.injEq, true_and]
  split <;> split <;> omega

theorem visible_patternItem (shape : PatternShape) (got : seq.get? i = some t) (inside : i < limit)
    (below : vis (limit + 1)) : (patternItem shape seq limit i t).Visible vis := by
  have limitSeen : vis limit := win.earlier below (Nat.le_succ _)
  cases shape with
  | object =>
    have entry := win.objectEntry got (fun _ => rfl) (.inr ⟨rfl, rfl⟩) inside below
    exact (win.withDefault limitSeen entry.2).2
  | array =>
    have behind : vis (i + 1) := win.earlier limitSeen inside
    unfold patternItem arrayItem
    dsimp only
    split
    · exact ⟨(fun _ mem => nomatch mem), (fun _ mem => nomatch mem), (fun _ mem => nomatch mem), behind⟩
    · exact (win.withDefault limitSeen (win.visible_arrayEntry behind)).2

theorem objectItem (got : seq.get? i = some t) (punct : ∀ s, twin.isPunct s = t.isPunct s)
    (eq : seq.punctAt (i + 1) ":" ∨ t.Resembles twin) (inside : i < limit) (below : vis (limit + 1)) :
    objectItem view (limit + pos) (i + pos) twin = (objectItem seq limit i t).shift pos := by
  obtain ⟨moved, seen⟩ := win.objectEntry got punct eq inside below
  have whole := win.withDefault (win.earlier below (Nat.le_succ _)) seen
  rw [← moved] at whole
  exact whole.1

theorem patternItem (shape : PatternShape) (got : seq.get? i = some t) (plain : ¬ isProperty i)
    (like : t.Resembles twin) (inside : i < limit) (below : vis (limit + 1)) :
    patternItem shape view (limit + pos) (i + pos) twin = (patternItem shape seq limit i t).shift pos := by
  cases shape with
  | object => exact win.objectItem got like.isPunct (.inr like) inside below
  | array =>
    have limitSeen : vis limit := win.earlier below (Nat.le_succ _)
    have behind : vis (i + 1) := win.earlier limitSeen inside
    unfold Scope.patternItem arrayItem
    dsimp only
    rw [like.isPunct]
    split
    · simp [PatternItem.shift, Nat.add_right_comm]
    · have seen : (Scope.arrayEntry seq i t).Visible vis := win.visible_arrayEntry behind
      have whole := win.withDefault limitSeen seen
      rw [← win.arrayEntry got plain like behind] at whole
      exact whole.1

theorem patternEvents_of_property (prop : isProperty i) : patternEvents view (i + pos) = [.declare ""] := by
  obtain ⟨_, hole, _, there, _, _, nameless⟩ := win.property prop
  rw [patternEvents_of_some there, if_pos nameless.kind, nameless.text]

theorem patternItem_or (shape : PatternShape) (seen : vis i) (got : seq.get? i = some t)
    (there : view.get? (i + pos) = some twin) (inside : i < limit) (below : vis (limit + 1)) :
    Scope.patternItem shape view (limit + pos) (i + pos) twin =
        (Scope.patternItem shape seq limit i t).shift pos ∨
      (∃ i, isProperty i) ∧ .declare "" ∈
        (Scope.patternItem shape view (limit + pos) (i + pos) twin).leading ++
          (Scope.patternItem shape view (limit + pos) (i + pos) twin).nested.elim []
            (patternEvents view) := by
  by_cases plain : ¬ isProperty i
  · obtain ⟨twin', there', like⟩ := win.resembles seen plain got
    obtain rfl := some.inj (there.symm.trans there')
    exact .inl (win.patternItem shape got plain like inside below)
  have prop := Classical.not_not.1 plain
  refine Or.imp_right (fun declared => ⟨⟨i, prop⟩, declared⟩) ?_
  obtain ⟨n, hole, here, hidden, _, passed, nameless⟩ := win.property prop
  obtain rfl := some.inj (got.symm.trans here)
  obtain rfl := some.inj (there.symm.trans hidden)
  have unmarked := isPunct_of_word (.inl nameless.kind)
  cases shape with
  | object =>
    cases colon : seq.punctAt (i + 1) ":" with
    | true =>
      exact .inl (win.objectItem got
        (fun s => (unmarked s).trans (isPunct_of_word passed.word s).symm)
        (.inl colon) inside below)
    | false =>
      have colon' : view.punctAt (i + pos + 1) ":" = false := by
        rw [Nat.add_right_comm, win.punctAt (win.earlier below (by omega)), colon]
      have entry : Scope.objectEntry view (limit + pos) (i + pos) twin =
          { leading := [.declare ""], stop := i + pos + 1 } := by
        simp [Scope.objectEntry, unmarked, colon', nameless.kind, nameless.text]
      right
      unfold Scope.patternItem Scope.objectItem
      dsimp only
      rw [entry]
      unfold PatternItem.withDefault
      split <;> simp
  | array =>
    right
    have nested : (Scope.patternItem .array view (limit + pos) (i + pos) twin).nested =
        some (i + pos) := by
      simp only [Scope.patternItem, arrayItem, unmarked, Bool.false_eq_true, if_false,
        PatternItem.nested_withDefault, Scope.arrayEntry]
    rw [nested, elim_some, win.patternEvents_of_property prop]
    simp

/-- **What a pattern does is the same at the other place**, unless it declares a property,
and it looks at visible tokens only. -/
theorem events :
    (∀ i, vis i →
      (patternEvents view (i + pos) = (patternEvents seq i).map (·.shift pos) ∨
        MisreadEvents isProperty (patternEvents view (i + pos))) ∧
      ∀ event ∈ patternEvents seq i, event.Visible vis) ∧
    ∀ shape limit i, vis (limit + 1) → vis i →
      (itemEvents shape view (limit + pos) (i + pos) = (itemEvents shape seq limit i).map (·.shift pos) ∨
        MisreadEvents isProperty (itemEvents shape view (limit + pos) (i + pos))) ∧
      ∀ event ∈ itemEvents shape seq limit i, event.Visible vis := by
  have nothing : ∀ event ∈ ([] : List PatternEvent), event.Visible vis := fun _ mem => nomatch mem
  -- a property is declared, so what is left is to compare tokens that resemble each other
  have either : ∀ {i : Nat} {t : Token}, vis i → seq.get? i = some t →
      (∀ twin, view.get? (i + pos) = some twin → t.Resembles twin →
        patternEvents view (i + pos) = (patternEvents seq i).map (·.shift pos) ∨
          MisreadEvents isProperty (patternEvents view (i + pos))) →
      patternEvents view (i + pos) = (patternEvents seq i).map (·.shift pos) ∨
        MisreadEvents isProperty (patternEvents view (i + pos)) := by
    intro i t seen got eq
    by_cases prop : isProperty i
    · exact .inr ⟨⟨i, prop⟩, win.patternEvents_of_property prop ▸ mem_singleton.2 rfl⟩
    · obtain ⟨twin, there, like⟩ := win.resembles seen prop got
      exact eq twin there like
  have opensAlike {t twin : Token} (like : t.Resembles twin) :
      opensPattern twin = opensPattern t := by
    rw [opensPattern, opensPattern, like.isPunct, like.isPunct]
  refine patternEvents.mutual_induct seq _ _ ?_ ?_ ?_ ?_ ?_ ?_ ?_ ?_
  · intro i got seen
    rw [patternEvents_of_none got, patternEvents_of_none (win.missing seen got)]
    exact ⟨.inl rfl, nothing⟩
  · intro i t got ident seen
    refine ⟨either seen got fun twin there like => .inl ?_, fun event mem => ?_⟩
    · rw [patternEvents_of_some got, patternEvents_of_some there, like.kind,
        if_pos ident, if_pos ident, like.text]
      rfl
    · rw [patternEvents_of_some got, if_pos ident, mem_singleton] at mem
      subst mem
      exact trivial
  · intro i t got other opens unclosed seen
    have none : patternEvents seq i = [] := by
      rw [patternEvents_of_some got, if_neg other, if_pos opens, unclosed]
      rfl
    refine ⟨either seen got fun twin there like => .inl ?_, none ▸ nothing⟩
    rw [none, patternEvents_of_some there, like.kind, if_neg other, opensAlike like,
      if_pos opens, win.closer? seen, unclosed]
    rfl
  · intro i t got other opens close closed inner seen
    have behind := win.next seen got (not_semicolon_of_opensPattern opens)
    obtain ⟨items, seenItems⟩ := inner (win.closer closed).2 behind
    simp only [dite_eq_ite] at items seenItems
    rw [Nat.add_right_comm] at items
    have unfolded : patternEvents seq i =
        itemEvents (if t.isPunct openBrace then .object else .array) seq close (i + 1) := by
      rw [patternEvents_of_some got, if_neg other, if_pos opens, closed]
      rfl
    refine ⟨either seen got fun twin there like => ?_, unfolded ▸ seenItems⟩
    rw [unfolded, patternEvents_of_some there, like.kind, if_neg other, opensAlike like,
      if_pos opens, win.closer? seen, closed, like.isPunct]
    exact items
  · intro i t got other closed seen
    have none : patternEvents seq i = [] := by
      rw [patternEvents_of_some got, if_neg other, if_neg closed]
    refine ⟨either seen got fun twin there like => .inl ?_, none ▸ nothing⟩
    rw [none, patternEvents_of_some there, like.kind, if_neg other, opensAlike like, if_neg closed]
    rfl
  · intro shape limit i got below seen
    rw [itemEvents_of_none got, itemEvents_of_none (win.missing seen got)]
    exact ⟨.inl rfl, nothing⟩
  · intro shape limit i t got inside item nested later below seen
    have visibleItem := win.visible_patternItem shape got inside below
    obtain ⟨laterEvents, laterSeen⟩ := later below visibleItem.stop
    obtain ⟨twin, there⟩ := win.exists_twin seen got
    have inner : ((item.shift pos).nested.elim [] (patternEvents view) =
          (item.nested.elim [] (patternEvents seq)).map (·.shift pos) ∨
        MisreadEvents isProperty ((item.shift pos).nested.elim [] (patternEvents view))) ∧
        ∀ event ∈ item.nested.elim [] (patternEvents seq), event.Visible vis := by
      cases start : item.nested with
      | none => simp [PatternItem.shift, start]
      | some start' =>
        simp only [PatternItem.shift, start, map_some, elim_some]
        exact nested start' start (visibleItem.nested start' start)
    rw [itemEvents_of_lt got inside, itemEvents_of_lt there (by omega)]
    refine ⟨?_, fun event mem => ?_⟩
    · rcases win.patternItem_or shape seen got there inside below with
        moved | ⟨prop, declared⟩
      · rw [moved]
        rcases inner.1 with sameInner | ⟨prop, declared⟩
        · rcases laterEvents with sameLater | ⟨prop, declared⟩
          · left
            rw [sameInner, map_append, map_append, map_append]
            exact congrArg _ sameLater
          · exact .inr ⟨prop, mem_append_right _ declared⟩
        · exact .inr ⟨prop, mem_append_left _ (mem_append_left _ (mem_append_right _ declared))⟩
      · exact .inr ⟨prop, mem_append_left _ (mem_append_left _ declared)⟩
    · simp only [mem_append] at mem
      rcases mem with ((leading | nestedMember) | trailing) | r
      · exact visibleItem.leading event leading
      · exact inner.2 event nestedMember
      · exact visibleItem.trailing event trailing
      · exact laterSeen event r
  · intro shape limit i t got outside below seen
    rw [itemEvents_of_le (Nat.le_of_not_lt outside), itemEvents_of_le (by omega)]
    exact ⟨.inl rfl, nothing⟩

end Window

end Scope

end Bindery
