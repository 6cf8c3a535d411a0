/-
Proofs.Scope.Twin -- tokens that a walk cannot tell apart

A walk does not read the places of tokens in the text, so one token is as good as
another that resembles it.  Nor does it read the words behind a dot: it passes over a
property, and a nameless one will do.
-/
import Bindery.Proofs.Token.Brackets
import Bindery.Scope.Analysis

namespace Bindery

open TokenSeq

namespace Token

variable {s : String}

/-- The twin differs from the token in its place only. -/
structure Resembles (t twin : Token) : Prop where
  kind : twin.kind = t.kind
  text : twin.text = t.text

/-- An identifier that is none of the words with a meaning in front of certain tokens. -/
def isPlainName (t : Token) : Bool :=
  t.kind == .ident && !(["of", "async", "get", "set", "static"].contains t.text)

/-- The token makes a walk look at the word in front of it. -/
def asks (t : Token) : Bool :=
  t.kind == .ident || t.kind == .keyword || t.isPunct openBrace ||
    t.isPunct "*" || t.isPunct "=>"

/-- A word that a walk passes over behind a dot, in front of the given token. -/
structure Passed (n : Token) (next : Option Token) : Prop where
  word : n.kind = .ident ∨ n.kind = .keyword
  calm : n.kind = .keyword → n.text ∉ ["function", "for", "catch"]
  quiet : n.isPlainName = true ∨ next.all (!·.asks) = true

instance (n : Token) (next : Option Token) : Decidable (Passed n next) :=
  decidable_of_iff ((n.kind = .ident ∨ n.kind = .keyword) ∧
      (n.kind = .keyword → n.text ∉ ["function", "for", "catch"]) ∧
      (n.isPlainName = true ∨ next.all (!·.asks) = true))
    ⟨fun ⟨word, calm, quiet⟩ => ⟨word, calm, quiet⟩, fun passed =>
      ⟨passed.word, passed.calm, passed.quiet⟩⟩

/-- An identifier without a text. -/
structure Nameless (hole : Token) : Prop where
  kind : hole.kind = .ident
  text : hole.text = ""

variable {t twin : Token}

theorem Resembles.isPunct (like : t.Resembles twin) (s : String) : twin.isPunct s = t.isPunct s := by
  rw [Token.isPunct, Token.isPunct, like.kind, like.text]

theorem Resembles.isKeyword (like : t.Resembles twin) (s : String) : twin.isKeyword s = t.isKeyword s := by
  rw [Token.isKeyword, Token.isKeyword, like.kind, like.text]

theorem Resembles.isIdent (like : t.Resembles twin) (s : String) : twin.isIdent s = t.isIdent s := by
  rw [Token.isIdent, Token.isIdent, like.kind, like.text]

theorem asks_of_word (word : t.kind = .ident ∨ t.kind = .keyword) : t.asks := by
  rcases word with word | word <;> simp [asks, word]

theorem asks_of_isPunct (here : t.isPunct s) (asking : s = openBrace ∨ s = "*" ∨ s = "=>") : t.asks := by
  rcases asking with rfl | rfl | rfl <;> simp [asks, here]

theorem Nameless.isPlainName (nameless : twin.Nameless) : twin.isPlainName := by
  simp [Token.isPlainName, nameless.kind, nameless.text]

theorem kind_of_isPlainName (plain : t.isPlainName) : t.kind = .ident := by
  simp only [isPlainName, Bool.and_eq_true, beq_iff_eq] at plain
  exact plain.1

theorem isPunct_of_word (word : t.kind = .ident ∨ t.kind = .keyword) (s : String) : t.isPunct s = false :=
  isPunct_of_kind_ne (by rcases word with word | word <;> rw [word] <;> decide) s

theorem not_selects_of_word (word : t.kind = .ident ∨ t.kind = .keyword) : t.selects = false := by
  simp [selects, isPunct_of_word word]

def contextual : List String := ["of", "async", "get", "set", "static"]

/-- A token that asks cannot tell the two apart: they are of one kind and have one text,
or they are identifiers and the same contextual keyword or none. -/
structure Alike (t twin : Token) : Prop where
  kind : twin.kind = t.kind
  text : t.kind ≠ .ident → twin.text = t.text
  isIdent : ∀ text ∈ contextual, twin.isIdent text = t.isIdent text

theorem Resembles.alike (like : t.Resembles twin) : t.Alike twin :=
  ⟨like.kind, fun _ => like.text, fun s _ => like.isIdent s⟩

theorem isIdent_of_isPlainName (plain : t.isPlainName) (kw : s ∈ contextual) : t.isIdent s = false := by
  have other : t.text ≠ s := by
    rintro rfl
    simp only [contextual] at kw
    simp [isPlainName, kw] at plain
  simp [isIdent, other]

theorem alike_of_isPlainName (fst : t.isPlainName) (snd : twin.isPlainName) : t.Alike twin where
  kind := (kind_of_isPlainName snd).trans (kind_of_isPlainName fst).symm
  text := fun other => absurd (kind_of_isPlainName fst) other
  isIdent := fun _ kw =>
    (isIdent_of_isPlainName snd kw).trans (isIdent_of_isPlainName fst kw).symm

namespace Alike

variable (alike : t.Alike twin)
include alike

theorem isPunct (s : String) : twin.isPunct s = t.isPunct s := by
  rw [Token.isPunct, Token.isPunct, alike.kind]
  by_cases punct : t.kind = .punct
  · rw [alike.text (by simp [punct])]
  · rw [beq_false_of_ne punct, Bool.false_and, Bool.false_and]

theorem isKeyword (s : String) : twin.isKeyword s = t.isKeyword s := by
  rw [Token.isKeyword, Token.isKeyword, alike.kind]
  by_cases kw : t.kind = .keyword
  · rw [alike.text (by simp [kw])]
  · rw [beq_false_of_ne kw, Bool.false_and, Bool.false_and]

theorem endsOperand : twin.endsOperand = t.endsOperand := by
  rw [Token.endsOperand, Token.endsOperand, alike.kind]
  by_cases ident : t.kind = .ident
  · rw [ident]
  · rw [alike.text ident]

theorem isModifier :
    (twin.kind == .ident && ["get", "set", "async", "static"].contains twin.text) =
      (t.kind == .ident && ["get", "set", "async", "static"].contains t.text) := by
  have split (t : Token) :
      (t.kind == .ident && ["get", "set", "async", "static"].contains t.text) =
        (t.isIdent "get" || t.isIdent "set" || t.isIdent "async" ||
          t.isIdent "static") := by
    cases ident : t.kind == .ident <;>
      simp [Token.isIdent, ident, Bool.or_assoc, Bool.beq_eq_decide_eq]
  rw [split, split, alike.isIdent "get" (by decide), alike.isIdent "set" (by decide),
    alike.isIdent "async" (by decide), alike.isIdent "static" (by decide)]

end Alike

end Token

namespace Scope

/-! ## A property -/

namespace Walk

variable {seq : TokenSeq} {i : Nat} {n : Token}

theorem selector_of_selected (selected : seq.prevHolds i Token.selects) :
    ∃ p, seq.prev? i = some p ∧ seq.get? (i - 1) = some p ∧
      p.kind = .punct ∧ p.endsOperand = false ∧ ∀ s, s ≠ "." → s ≠ "?." → p.isPunct s = false := by
  obtain ⟨p, there, selects⟩ := Option.any_eq_true _ _ |>.1 selected
  have front : seq.get? (i - 1) = some p := by
    unfold prev? at there
    split at there
    · cases there
    · exact there
  simp only [Token.selects, Token.isPunct, Bool.or_eq_true, Bool.and_eq_true, beq_iff_eq] at selects
  refine ⟨p, there, front, selects.elim And.left And.left, ?_, fun s dot optional => ?_⟩
  · rcases selects with ⟨kind, s⟩ | ⟨kind, s⟩ <;> rw [Token.endsOperand, kind, s] <;> decide
  · rcases selects with ⟨kind, eq⟩ | ⟨kind, eq⟩ <;> rw [Token.isPunct, eq] <;> simp [*, Ne.symm]

theorem inMemberPosition_of_selected (selected : seq.prevHolds i Token.selects)
    (w : Walk) : w.inMemberPosition seq i = false := by
  obtain ⟨p, there, pre, punct, operand, unmarked⟩ := selector_of_selected selected
  have star : isGeneratorStar seq (i - 1) = false := by
    simp [isGeneratorStar, TokenSeq.punctAt, TokenSeq.holds, pre, unmarked]
  have modifier : isModifier seq (i - 1) = false := by
    simp [isModifier, TokenSeq.holds, pre, punct]
  unfold inMemberPosition
  rw [there]
  dsimp only
  rw [star, modifier, operand]
  simp [unmarked, openBrace, closeBrace]

theorem hasClassBody_of_none {w : Nat} (noBrace : seq.punctAt w openBrace = false)
    (noHeritage : seq.holds w (·.isKeyword "extends") = false) (i : Nat) :
    Walk.hasClassBody seq w i = false := by
  fun_induction hasClassBody seq w i with
  | case1 i inside body =>
    rcases body with ⟨brace, rfl | ⟨heritage, _⟩⟩
    · rw [noBrace] at brace; cases brace
    · rw [noHeritage] at heritage; cases heritage
  | case2 i inside noBody ih => exact ih
  | case3 => rfl

theorem classAt_of_quiet (quiet : (seq.get? (i + 1)).all (!·.asks)) (w : Walk) :
    w.classAt seq i = (w, i + 1) := by
  have silent : ∀ question : Token → Bool, (∀ t, question t → t.asks) →
      seq.holds (i + 1) question = false := by
    intro question asking
    cases next : seq.get? (i + 1) with
    | none => simp [holds, next]
    | some t =>
      rw [next] at quiet
      simp only [holds, next, Option.any_some, Bool.eq_false_iff]
      intro yes
      simp [asking t yes] at quiet
  have unnamed : seq.ident? (i + 1) = none := by
    have none := silent (·.kind == .ident) fun t isIdent => Token.asks_of_word (.inl (by simpa using isIdent))
    cases next : seq.get? (i + 1) with
    | none => simp [ident?, next]
    | some t =>
      simp only [holds, next, Option.any_some] at none
      simp [ident?, next, Option.filter, none]
  have noBody := hasClassBody_of_none
    (silent (·.isPunct openBrace) fun t brace => Token.asks_of_isPunct brace (.inl rfl))
    (silent (·.isKeyword "extends") fun t heritage => Token.asks_of_word (.inr (by
      simpa using (Bool.and_eq_true_iff.1 heritage).1))) (i + 1)
  simp [classAt, declareClass, unnamed, noBody]

section

variable (selected : seq.prevHolds i Token.selects) (passed : n.Passed (seq.get? (i + 1)))
include selected passed

theorem keywordAt_of_selected (kw : n.kind = .keyword) (w : Walk) : w.keywordAt seq i n = (w, i + 1) := by
  have calm := passed.calm kw
  have quiet : (seq.get? (i + 1)).all (!·.asks) := by
    rcases passed.quiet with plain | quiet
    · rw [Token.kind_of_isPlainName plain] at kw
      cases kw
    · exact quiet
  have unlabelled : seq.holds (i + 1)
      (fun next => next.kind == .ident && !next.newlineBefore) = false := by
    cases next : seq.get? (i + 1) with
    | none => simp [holds, next]
    | some t =>
      have other : t.kind ≠ .ident := by
        intro ident
        simp [next, Token.asks_of_word (.inl ident)] at quiet
      simp [holds, next, other]
  have declared : ∀ isVar, w.declarationAt seq i isVar = (w, i + 1) :=
    fun isVar => by rw [declarationAt, if_pos selected]
  have suspended : ∀ isAwait, w.suspendAt seq i isAwait = (w, i + 1) :=
    fun isAwait => by rw [suspendAt, if_pos selected]
  unfold keywordAt
  split
  · exact declared false
  · exact declared false
  · exact declared true
  · next text => exact absurd (by simp [text]) calm
  · exact classAt_of_quiet quiet w
  · next text => exact absurd (by simp [text]) calm
  · next text => exact absurd (by simp [text]) calm
  · rw [unlabelled]; rfl
  · rw [unlabelled]; rfl
  · exact suspended true
  · exact suspended false
  · rw [inMemberPosition_of_selected selected]; rfl

/-- **A word behind a dot is passed over.** -/
theorem step_of_selected (w : Walk) : w.step seq i n = (w, i + 1) := by
  obtain ⟨p, there, _, _, operand, _⟩ := selector_of_selected selected
  have eq : w.endDeclarationAtLineBreak seq i n = w := by
    simp [endDeclarationAtLineBreak, prevHolds, there, operand]
  unfold step
  dsimp only
  rw [eq]
  rcases passed.word with ident | kw
  · rw [ident]
    simp [identAt, selected]
  · rw [kw]
    exact keywordAt_of_selected selected passed kw w

end

end Walk

end Scope

end Bindery
