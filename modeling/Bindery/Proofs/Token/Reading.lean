/-
Proofs.Token.Reading -- lexing as a sequence of steps

`Reads state text tokens after rest` says that the lexer, started in `state` on
`text`, emits `tokens` in whole steps and then stands in `after` in front of `rest`.
A step skips a gap and takes one lexeme.  Lexing succeeds exactly when the text can be
read down to a gap outside all substitutions (`lexFrom_eq_ok_iff`), and what was read
does not depend on what is done with the rest (`lexFrom_of_reads`).
-/
import Bindery.Proofs.Success
import Bindery.Token.Lexer

namespace Bindery

open Text

variable {t : Token} {s g r : List Char} {st after : LexState} {nl : Bool} {ts : List Token}

/-- The kind and the text of a token. -/
abbrev Key := TokenKind × String

def Token.key (t : Token) : Key :=
  (t.kind, t.text)

def Key.mark (s : String) : Key := (.punct, s)
def Key.word (s : String) : Key := (.keyword, s)
def Key.name (s : String) : Key := (.ident, s)

theorem key_eq {kind : TokenKind} {s : String} (eq : t.key = (kind, s)) : t.kind = kind ∧ t.text = s := by
  injection eq with fst snd
  exact ⟨fst, snd⟩

theorem key_eq_mark {s : String} : t.key = .mark s ↔ t.isPunct s := by
  simp [Token.key, Key.mark, Token.isPunct]

def LexState.skip (st : LexState) (g : List Char) (newline : Bool) : LexState :=
  { st with
    offset := st.offset + byteLength g
    newline := st.newline || newline }

/-- The lexer reads the tokens and stands in front of the rest. -/
inductive Reads : LexState → List Char → List Token → LexState → List Char → Prop where
  | nil (st : LexState) (s : List Char) : Reads st s [] st s
  | cons {st after : LexState} {s g behind r : List Char} {nl : Bool} {c : Char}
      {step : Lexed} {later : List Token}
      (skip : trivia s = .ok (g, nl, c :: behind))
      (lexed : (st.skip g nl).lexeme c behind = .ok step)
      (next : Reads step.state step.rest later after r) :
      Reads st s (step.tokens ++ later) after r

theorem lexFrom_of_end (skip : trivia s = .ok (g, nl, [])) (outside : st.braces = []) :
    lexFrom st s = .ok [] := by
  unfold lexFrom
  split
  · next prev failed => rw [skip] at failed; cases failed
  · next g' nl' r got =>
    rw [skip] at got
    cases got
    simp [outside]

theorem lexFrom_of_step {behind : List Char} {c : Char} {step : Lexed}
    (skip : trivia s = .ok (g, nl, c :: behind)) (lexed : (st.skip g nl).lexeme c behind = .ok step) :
    lexFrom st s = (lexFrom step.state step.rest).map (step.tokens ++ ·) := by
  conv => lhs; unfold lexFrom
  split
  · next prev failed => rw [skip] at failed; cases failed
  · next g' nl' r got =>
    rw [skip] at got
    cases got
    dsimp only
    split
    · next error failed =>
      rw [LexState.skip] at lexed
      rw [lexed] at failed
      cases failed
    · next step' done =>
      rw [LexState.skip] at lexed
      rw [lexed] at done
      cases done
      rfl

theorem lexFrom_of_reads (reads : Reads st s ts after r) : lexFrom st s = (lexFrom after r).map (ts ++ ·) := by
  induction reads with
  | nil st s => cases lexFrom st s <;> rfl
  | cons skip lexed next ih =>
    rw [lexFrom_of_step skip lexed, ih]
    generalize lexFrom _ _ = res
    cases res with
    | error error => rfl
    | ok later => simp [Except.map]

theorem exists_reads :
    ∀ {ts : List Token}, lexFrom st s = .ok ts →
      ∃ after r g nl, Reads st s ts after r ∧ trivia r = .ok (g, nl, []) ∧ after.braces = [] := by
  fun_induction lexFrom st s with
  | case1 => intro ts done; cases done
  | case2 =>
    rename_i empty skip
    intro ts done
    cases done
    exact ⟨_, _, _, _, .nil _ _, skip, List.isEmpty_iff.1 empty⟩
  | case3 => intro ts done; cases done
  | case4 => intro ts done; cases done
  | case5 =>
    rename_i lexed skip ih
    intro ts done
    obtain ⟨later, got, rfl⟩ := Except.map_eq_ok.1 done
    obtain ⟨after, r, g, nl, reads, ends, outside⟩ := ih got
    exact ⟨after, r, g, nl, .cons skip lexed reads, ends, outside⟩

/-- **Lexing succeeds exactly when the text can be read down to a gap** outside all
substitutions. -/
theorem lexFrom_eq_ok_iff :
    lexFrom st s = .ok ts ↔
      ∃ after r g nl, Reads st s ts after r ∧ trivia r = .ok (g, nl, []) ∧ after.braces = [] := by
  refine ⟨exists_reads, ?_⟩
  rintro ⟨after, r, g, nl, reads, ends, outside⟩
  rw [lexFrom_of_reads reads, lexFrom_of_end ends outside]
  simp [Except.map]

end Bindery
