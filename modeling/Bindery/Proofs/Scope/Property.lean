/-
Proofs.Scope.Property -- property names do not matter

What stands behind a dot is a property, whatever word it is.  So a walk goes the same way
on two sequences of which one has nameless properties (`Twins.runFrom`): it sees the one
through a window as wide as the other.
-/
import Bindery.Proofs.Scope.Lift

namespace Bindery

open List TokenSeq Token

variable {isProperty : Nat → Prop}

namespace Scope

abbrev Twins (seq other : TokenSeq) (isProperty : Nat → Prop) : Prop :=
  Window seq other 0 (fun _ => True) isProperty

/-- **A walk goes the same way on twins**, unless it declares a property. -/
theorem Twins.runFrom {seq other : TokenSeq} (twins : Twins seq other isProperty)
    (i : Nat) (w : Walk) (sound : w.Sound seq) (sound' : w.Sound other)
    (unselected : ∀ use ∈ w.uses, ¬ isProperty use.token) :
    w.runFrom other i = w.runFrom seq i ∨ Misread isProperty (w.runFrom other i) := by
  fun_induction Walk.runFrom seq i w with
  | case1 i w missing =>
    exact .inl (Walk.runFrom_of_none w (twins.missing trivial missing))
  | case2 i w t got ih =>
    obtain ⟨twin, there⟩ := twins.exists_twin trivial got
    have grown := sound.grown.step got
    have later : ∀ use ∈ (w.step seq i t).1.uses, ¬ isProperty use.token := by
      intro use mem prop
      rcases grown.unselected use mem with old | unmarked
      · exact unselected use old prop
      · obtain ⟨_, _, _, _, selected, _⟩ := twins.property prop
        rw [selected] at unmarked
        cases unmarked
    have step := twins.step Walk.Below.initial (fun absurd => by cases absurd) unselected trivial
      got there sound fun _ => .inl rfl
    simp only [Follows, Walk.Step.lift, Walk.lift_initial, Nat.add_zero] at step
    rw [Nat.add_zero] at there
    rw [Walk.runFrom_of_some w there]
    have sound' := sound'.step there
    rcases step with eq | misread
    · rw [eq] at sound' ⊢
      exact ih (sound.step got) sound' later
    · exact .inr (misread.grows (sound'.grown.runFrom _).kept)

/-! ## Lists of tokens -/

end Scope

def Token.mark? (t : Token) : Option String :=
  if t.kind = .punct then some t.text else none

/-- What an analysis sees of a token. -/
def Token.look (t : Token) : TokenKind × String × Bool :=
  (t.kind, t.text, t.newlineBefore)

/-- The token as an identifier without a text. -/
def Token.blank (t : Token) : Token :=
  { t with kind := .ident, text := "" }

section Marks

variable {t twin : Token} {ts os : List Token}

section

variable (eq : twin.mark? = t.mark?)
include eq

theorem Token.isPunct_of_mark? (s : String) : twin.isPunct s = t.isPunct s := by
  have marked : ∀ t : Token, t.isPunct s = (t.mark? == some s) := by
    intro t
    by_cases punct : t.kind = .punct <;> simp [isPunct, mark?, punct]
  rw [marked, marked, eq]

theorem Token.isCloser_of_mark? : twin.isCloser = t.isCloser := by
  simp only [isCloser, isPunct_of_mark? eq]

theorem Token.closerText?_of_mark? : twin.closerText? = t.closerText? := by
  simp only [closerText?, isPunct_of_mark? eq]

theorem BracketScan.step_of_mark? (scan : BracketScan) (i : Nat) : scan.step twin i = scan.step t i := by
  have closes := isCloser_of_mark? eq
  unfold BracketScan.step
  rw [closerText?_of_mark? eq, closes]
  by_cases closer : t.isCloser
  · have text : twin.text = t.text := by
      have fst := kind_of_isCloser closer
      have snd := kind_of_isCloser (closes.trans closer)
      simpa [mark?, fst, snd] using eq
    rw [text]
  · rw [if_neg closer, if_neg closer]

end

section

variable (eq : os.map mark? = ts.map mark?)
include eq

theorem BracketScan.run_of_marks : ∀ (scan : BracketScan) (i : Nat), scan.run os i = scan.run ts i := by
  induction ts generalizing os with
  | nil =>
    rw [map_nil, map_eq_nil_iff] at eq
    subst eq
    exact fun _ _ => rfl
  | cons t r ih =>
    rw [map_cons, map_eq_cons_iff] at eq
    obtain ⟨twin, os', rfl, mark, marks⟩ := eq
    intro scan i
    rw [BracketScan.run, BracketScan.run, BracketScan.step_of_mark? mark, ih marks]

theorem matchBrackets_of_marks : matchBrackets os = matchBrackets ts := by
  have length : os.length = ts.length := by simpa using congrArg length eq
  rw [matchBrackets, matchBrackets, length, BracketScan.run_of_marks eq]

theorem Scope.Walk.awaitsColon_of_marks : ∀ d, awaitsColon d os = awaitsColon d ts := by
  induction ts generalizing os with
  | nil =>
    rw [map_nil, map_eq_nil_iff] at eq
    subst eq
    exact fun _ => rfl
  | cons t r ih =>
    rw [map_cons, map_eq_cons_iff] at eq
    obtain ⟨twin, os', rfl, mark, marks⟩ := eq
    intro d
    unfold awaitsColon
    simp only [isCloser_of_mark? mark, isOpener, closerText?_of_mark? mark, isPunct_of_mark? mark, ih marks]
    cases d <;> rfl

end

end Marks

namespace Scope

variable {ts os : List Token} {w : Walk}

theorem twins_ofList (marks : os.map mark? = ts.map mark?)
    (like : ∀ {i t}, ¬ isProperty i → ts[i]? = some t → ∃ twin, os[i]? = some twin ∧ t.Resembles twin)
    (line : ∀ {i t twin}, ts[i]? = some t → os[i]? = some twin →
      i ≠ 0 ∨ (t.isIdent "of" ∧ (ofList ts).punctAt 1 openBrace) → twin.newlineBefore = t.newlineBefore)
    (prop : ∀ {i}, isProperty i → ∃ n hole, ts[i]? = some n ∧ os[i]? = some hole ∧
      (ofList ts).prevHolds i Token.selects ∧ n.Passed ts[i + 1]? ∧ hole.Nameless)
    : Twins ts os isProperty := by
  have length : os.length = ts.length := by simpa using congrArg length marks
  have partner : ∀ i, (ofList os).partner? i =
      (ofList ts).partner? i := by
    intro i
    simp only [partner?, ofList, matchBrackets_of_marks marks]
  have like' := @like
  have line' := @line
  have prop' := @prop
  simp only [← get?_ofList] at like' line' prop'
  exact {
    missing := fun {i} _ gone => by
      rw [get?_ofList, getElem?_eq_none_iff] at gone ⊢
      omega
    resembles := fun _ plain got => like' plain got
    property := prop'
    line := fun _ got there fst =>
      line' got there (fst.imp_right fun pre => pre.resolve_left fun some => some rfl)
    closer? := fun {i} _ => by
      rw [closer?, closer?, Nat.add_zero, partner]
      simp
    opener? := fun {i} _ => by
      rw [opener?, opener?, Nat.add_zero, partner]
      simp
    front := fun _ absurd => by cases absurd
    inConditional := fun {i} _ => by
      refine Walk.awaitsColon_of_marks ?_ 0
      simp only [ofList, Nat.add_zero, map_reverse, map_take, marks]
    first := trivial
    earlier := fun _ _ => trivial
    next := fun _ _ _ => trivial
    closes := fun got => by
      obtain ⟨_, closing, _, c, _, isCloser, _⟩ := (closer?_ofList.1 got).stack
      exact ⟨trivial, closing, by rw [get?_ofList]; exact c, isCloser⟩
    classes := fun _ _ _ _ => trivial }

/-- **An analysis does not read the places of tokens**, nor a line break in front of the
first of them: lists of the same words with the same line breaks behind the first word are
walked the same way, unless they begin with an `of` in front of a brace. -/
theorem runFrom_of_resembles (length : os.length = ts.length)
    (like : ∀ {i : Nat} {t twin : Token}, ts[i]? = some t → os[i]? = some twin → t.Resembles twin)
    (line : ∀ {i : Nat} {t twin : Token}, ts[i]? = some t → os[i]? = some twin →
      i ≠ 0 ∨ (t.isIdent "of" ∧ (ofList ts).punctAt 1 openBrace) → twin.newlineBefore = t.newlineBefore) :
    Walk.runFrom os 0 {} = Walk.runFrom ts 0 {} := by
  have exists_twin {place : Nat} {t : Token} (got : ts[place]? = some t) :
      ∃ twin, os[place]? = some twin ∧ t.Resembles twin := by
    have inside : place < os.length := length ▸ (List.getElem?_eq_some_iff.1 got).1
    have there := getElem?_eq_getElem inside
    exact ⟨_, there, like got there⟩
  have marks : os.map mark? = ts.map mark? := by
    refine ext_getElem? fun place => ?_
    rw [getElem?_map, getElem?_map]
    cases here : ts[place]? with
    | none =>
      rw [List.getElem?_eq_none_iff] at here
      rw [getElem?_eq_none (length ▸ here)]
    | some t =>
      obtain ⟨twin, there, alike⟩ := exists_twin here
      rw [there, Option.map_some, Option.map_some, mark?, mark?, alike.kind, alike.text]
  have twins : Twins ts os fun _ => False :=
    twins_ofList marks (fun _ got => exists_twin got) line (fun impossible => impossible.elim)
  rcases twins.runFrom 0 {} (.initial _) (.initial _) (fun _ _ => id) with equal | ⟨⟨_, impossible⟩, _⟩
  · exact equal
  · exact impossible.elim

theorem runFrom_of_look (eq : os.map Token.look = ts.map Token.look) :
    Walk.runFrom os 0 {} = Walk.runFrom ts 0 {} := by
  have look {place : Nat} {t twin : Token} (got : ts[place]? = some t)
      (there : os[place]? = some twin) :
      twin.kind = t.kind ∧ twin.text = t.text ∧
        twin.newlineBefore = t.newlineBefore := by
    have equal : os[place]?.map look = ts[place]?.map look := by
      rw [← getElem?_map, ← getElem?_map, eq]
    simpa [got, there, look] using equal
  exact runFrom_of_resembles (by simpa using congrArg length eq)
    (fun got there => ⟨(look got there).1, (look got there).2.1⟩)
    (fun got there _ => (look got there).2.2)

/-! ## One property for another -/

/-- The names that some scope declares. -/
def declaredNames (ts : List Token) : List String :=
  (Walk.runFrom ts 0 {}).bindings.map (·.name)

theorem twins_property (p : List Token) {after : List Token} {selector n hole : Token}
    (selects : selector.selects) (passed : n.Passed after.head?)
    (nameless : hole.Nameless) (line : hole.newlineBefore = n.newlineBefore) :
    Twins (p ++ selector :: n :: after) (p ++ selector :: hole :: after) (· = p.length + 1) := by
  have unmarked : ∀ {word : Token}, word.kind = .ident ∨ word.kind = .keyword →
      word.mark? = none := by
    rintro word (kind | kind) <;> simp [mark?, kind]
  have elsewhere {i : Nat} (other : i ≠ p.length + 1) :
      (p ++ selector :: hole :: after)[i]? =
        (p ++ selector :: n :: after)[i]? := by
    rcases Nat.lt_or_ge i p.length with inside | behind
    · rw [getElem?_append_left inside, getElem?_append_left inside]
    · rw [getElem?_append_right behind, getElem?_append_right behind]
      match gap : i - p.length with
      | 0 => rfl
      | 1 => omega
      | gap + 2 => rfl
  refine twins_ofList ?_ ?_ ?_ ?_
  · simp [unmarked passed.word, unmarked (.inl nameless.kind)]
  · intro i t other got
    exact ⟨t, (elsewhere other).trans got, rfl, rfl⟩
  · intro i t twin got there _
    by_cases here : i = p.length + 1
    · subst here
      rw [getElem?_append_right (by omega)] at got there
      simp only [Nat.add_sub_cancel_left, getElem?_cons_succ, getElem?_cons_zero,
        Option.some.injEq] at got there
      rw [← got, ← there, line]
    · rw [elsewhere here, got] at there
      rw [Option.some.inj there]
  · rintro i rfl
    refine ⟨n, hole, by simp, by simp, ?_, ?_, nameless⟩
    · simp [prevHolds, prev?, get?_ofList, selects]
    · have next : (p ++ selector :: n :: after)[p.length + 1 + 1]? = after.head? := by
        rw [getElem?_append_right (by omega), head?_eq_getElem?]
        have gap : p.length + 1 + 1 - p.length = 2 := by omega
        rw [gap]
        rfl
      rw [next]
      exact passed

/-- **One property name is as good as another.**  A word behind a dot may be any
other that a walk passes over there, provided that no pattern and no parameter list
takes it for a name that it declares: with a nameless property in its place, the
tokens declare no nameless name. -/
theorem analyze_property (before after : List Token) (selector first second : Token)
    (selects : selector.selects = true) (passed : first.Passed after.head?)
    (passed' : second.Passed after.head?) (line : second.newlineBefore = first.newlineBefore)
    (undeclared : "" ∉ declaredNames (before ++ selector :: first.blank :: after)) :
    analyze (before ++ selector :: first :: after) =
      analyze (before ++ selector :: second :: after) := by
  have same : ∀ {name : Token}, name.Passed after.head? →
      first.newlineBefore = name.newlineBefore →
      Walk.runFrom (TokenSeq.ofList (before ++ selector :: name :: after)) 0 {} =
        Walk.runFrom (TokenSeq.ofList (before ++ selector :: first.blank :: after)) 0 {} := by
    intro name passes line
    have blank : first.blank.Nameless := ⟨rfl, rfl⟩
    have twins := twins_property before selects passes blank line
    rcases twins.runFrom 0 {} (Walk.Sound.initial _) (Walk.Sound.initial _) (fun _ member => nomatch member) with
      equal | ⟨_, binding, member, nameless⟩
    · exact equal.symm
    · exact absurd (List.mem_map.2 ⟨binding, member, nameless⟩) undeclared
  unfold analyze
  rw [same passed rfl, same passed' line.symm]

/-- `p.finally(h)` needs what `p.then(h)` does. -/
theorem analyze_property_finally :
    (analyze [⟨.ident, "p", 0, 1, false⟩, ⟨.punct, ".", 1, 2, false⟩,
        ⟨.keyword, "finally", 2, 9, false⟩, ⟨.punct, "(", 9, 10, false⟩,
        ⟨.ident, "h", 10, 11, false⟩, ⟨.punct, ")", 11, 12, false⟩]).references = ["p", "h"] := by
  have same := analyze_property [⟨.ident, "p", 0, 1, false⟩]
    [⟨.punct, "(", 9, 10, false⟩, ⟨.ident, "h", 10, 11, false⟩, ⟨.punct, ")", 11, 12, false⟩]
    ⟨.punct, ".", 1, 2, false⟩ ⟨.keyword, "finally", 2, 9, false⟩ ⟨.ident, "then", 2, 6, false⟩
    (by decide) (by decide) (by decide) rfl (by decide +kernel)
  exact (congrArg Analysis.references same).trans (by decide +kernel)

/-- `catch` is no plain word: `p.catch(h)` loses the `h` that `p.then(h)` needs. -/
theorem analyze_catch_property :
    (analyze [⟨.ident, "p", 0, 1, false⟩, ⟨.punct, ".", 1, 2, false⟩,
        ⟨.keyword, "catch", 2, 7, false⟩, ⟨.punct, "(", 7, 8, false⟩, ⟨.ident, "h", 8, 9, false⟩,
        ⟨.punct, ")", 9, 10, false⟩]).references = ["p"] ∧
      (analyze [⟨.ident, "p", 0, 1, false⟩, ⟨.punct, ".", 1, 2, false⟩,
        ⟨.ident, "then", 2, 6, false⟩, ⟨.punct, "(", 6, 7, false⟩, ⟨.ident, "h", 7, 8, false⟩,
        ⟨.punct, ")", 8, 9, false⟩]).references = ["p", "h"] := by
  decide +kernel

end Scope

end Bindery
