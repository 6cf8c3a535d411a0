/-
Proofs.Token.Moved -- the tokens behind a gap

White space and comments in front of a text move its tokens, and they may bring a line break
in front of the first (`movedBy`).  Nothing else changes: the lexer reads the same words
(`lexFrom_gap`), and a reader of tokens finds the same word, the same bracket and, behind the
first token, the same line break at every index.
-/
import Bindery.Proofs.Scope.Property
import Bindery.Proofs.Token.Piece

namespace Bindery

open List Text Token

variable {st : LexState} {s blanks g : List Char} {ts : List Token} {c : Char}

/-! ## Moving tokens -/

/-- The token with so many bytes in front of it, and perhaps a line break. -/
def Token.moved (bs : Nat) (l : Bool) (t : Token) : Token :=
  { t with
    start := t.start + bs
    stop := t.stop + bs
    newlineBefore := t.newlineBefore || l }

/-- The tokens with so many bytes in front of them, and perhaps a line break. -/
def movedBy (bs : Nat) (l : Bool) : List Token → List Token
  | [] => []
  | first :: r => first.moved bs l :: r.map (moved bs false)

section Word

variable (bs : Nat) (l : Bool) (t : Token)

@[simp] theorem moved_kind : (t.moved bs l).kind = t.kind := rfl

@[simp] theorem moved_text : (t.moved bs l).text = t.text := rfl

@[simp] theorem moved_start : (t.moved bs l).start = t.start + bs := rfl

@[simp] theorem moved_stop : (t.moved bs l).stop = t.stop + bs := rfl

@[simp] theorem moved_newlineBefore :
    (t.moved bs l).newlineBefore = (t.newlineBefore || l) := rfl

@[simp] theorem moved_isPunct (s : String) :
    (t.moved bs l).isPunct s = t.isPunct s := rfl

@[simp] theorem moved_isKeyword (s : String) :
    (t.moved bs l).isKeyword s = t.isKeyword s := rfl

@[simp] theorem moved_isIdent (s : String) :
    (t.moved bs l).isIdent s = t.isIdent s := rfl

@[simp] theorem moved_selects : (t.moved bs l).selects = t.selects := rfl

@[simp] theorem moved_endsOperand :
    (t.moved bs l).endsOperand = t.endsOperand := rfl

@[simp] theorem moved_stringValue? :
    (t.moved bs l).stringValue? = t.stringValue? := rfl

end Word

@[simp] theorem length_movedBy (bs : Nat) (l : Bool) (ts : List Token) :
    (movedBy bs l ts).length = ts.length := by
  cases ts with
  | nil => rfl
  | cons fst r => simp [movedBy]

theorem movedBy_false (bs : Nat) (ts : List Token) : movedBy bs false ts = ts.map (moved bs false) := by
  cases ts <;> rfl

theorem movedBy_append (bs : Nat) (l : Bool) {fst : List Token} (later : List Token) (begun : fst ≠ []) :
    movedBy bs l (fst ++ later) = movedBy bs l fst ++ movedBy bs false later := by
  cases fst with
  | nil => exact absurd rfl begun
  | cons t r => rw [movedBy_false, cons_append, movedBy, movedBy, map_append]; rfl

theorem getElem?_movedBy (bs : Nat) (l : Bool) (ts : List Token) (i : Nat) :
    (movedBy bs l ts)[i]? = ts[i]?.map (moved bs (l && i == 0)) := by
  cases ts with
  | nil => rfl
  | cons fst r =>
    cases i with
    | zero => simp [movedBy]
    | succ i => simp [movedBy]

/-! ## Lexing -/

/-- The state with so many bytes in front of it, and perhaps a line break. -/
def LexState.moved (bs : Nat) (l : Bool) (st : LexState) : LexState :=
  { st with offset := st.offset + bs, newline := st.newline || l }

/-- What a step yields with so many bytes in front of it.  Behind its first token there is no
line break that was not there before. -/
def Lexed.moved (bs : Nat) (l : Bool) (step : Lexed) : Lexed :=
  ⟨movedBy bs l step.tokens, step.state.moved bs false, step.rest⟩

namespace LexState

variable (bs : Nat) (l : Bool) {opening : Nat} {r : List Char} {step : Lexed}

theorem moved_skip (g : List Char) (nl : Bool) : (st.moved bs l).skip g nl = (st.skip g nl).moved bs l := by
  simp [skip, moved, Nat.add_right_comm, Bool.or_right_comm]

theorem emit_moved (st : LexState) (kind : TokenKind) (lexeme r : List Char) :
    (st.moved bs l).emit kind lexeme r = (st.emit kind lexeme r).moved bs l := by
  simp [emit, moved, Lexed.moved, movedBy, Token.moved, Nat.add_right_comm, Token.endsOperand]

theorem template_moved (done : st.template opening s = .ok step) :
    (st.moved bs false).template (opening + bs) s = .ok (step.moved bs false) := by
  unfold template at done ⊢
  split at done
  · cases done
  · cases done
    simp [moved, Lexed.moved, movedBy, Nat.add_right_comm]
  · cases done
    simp [moved, Lexed.moved, movedBy, Token.moved, edge, Nat.add_right_comm]

theorem template_behind {opened : LexState} {t : Token}
    (done : (match opened.template opening s with
      | .error error => Except.error error
      | .ok inner => .ok { inner with tokens := [t] ++ inner.tokens }) = .ok step) :
    (match (opened.moved bs false).template (opening + bs) s with
      | .error error => Except.error error
      | .ok inner => .ok { inner with tokens := [t.moved bs l] ++ inner.tokens }) =
      .ok (step.moved bs l) := by
  split at done
  · cases done
  · next inner got =>
    cases done
    rw [template_moved bs got]
    dsimp only [Lexed.moved]
    rw [movedBy_false]
    rfl

/-- **A step reads the same word behind a gap.** -/
theorem lexeme_moved (done : st.lexeme c r = .ok step) :
    (st.moved bs l).lexeme c r = .ok (step.moved bs l) := by
  have braces : (st.moved bs l).braces = st.braces := rfl
  have operand : (st.moved bs l).afterOperand = st.afterOperand := rfl
  unfold lexeme at done ⊢
  rw [braces, operand]
  split at done
  · next quote =>
    rw [if_pos quote]
    dsimp only at done ⊢
    rw [emit_moved]
    exact template_behind bs l done
  next quote =>
  rw [if_neg quote]
  split at done
  · next closes =>
    rw [if_pos closes]
    dsimp only at done ⊢
    have place : mk ((st.moved bs l).offset + 1) false true st.braces.tail =
        moved bs false ⟨st.offset + 1, false, true, st.braces.tail⟩ := by
      simp [moved, Nat.add_right_comm]
    rw [place]
    exact template_behind bs l done
  next closes =>
  rw [if_neg closes]
  split at done
  · next quotes =>
    rw [if_pos quotes]
    split at done
    · cases done
    · cases done
      exact congrArg _ (emit_moved ..)
  next quotes =>
  rw [if_neg quotes]
  split at done
  · next digit =>
    cases done
    rw [if_pos digit, emit_moved]
  next digit =>
  rw [if_neg digit]
  split at done
  · next hash =>
    cases done
    rw [if_pos hash]
    exact congrArg _ (emit_moved ..)
  next hash =>
  rw [if_neg hash]
  split at done
  · next word =>
    cases done
    rw [if_pos word]
    exact congrArg _ (emit_moved ..)
  next word =>
  rw [if_neg word]
  split at done
  · next slash =>
    rw [if_pos slash]
    split at done
    · cases done
    · cases done
      exact congrArg _ (emit_moved ..)
  next slash =>
  rw [if_neg slash]
  split at done
  · cases done
  · next mark _ =>
    cases done
    exact congrArg _ (emit_moved bs l { st with braces := countBrace mark st.braces } .punct mark.toList _)

theorem tokens_lexeme_ne_nil (done : st.lexeme c r = .ok step) : step.tokens ≠ [] := by
  have reading := lexeme_read st c r
  rw [done] at reading
  cases read : st.mode.read (c :: r) with
  | none =>
    rw [read] at reading
    obtain ⟨_, failed⟩ := reading
    cases failed
  | some piece =>
    rw [read] at reading
    obtain ⟨_, eq, _, takes⟩ := reading
    cases eq
    intro empty
    have fst := Piece.PlacedAt.first ⟨_, takes.tokens⟩
    rw [empty] at fst
    cases fst

end LexState

/-- **The lexer reads the same words behind a gap.** -/
theorem Reads.moved (bs : Nat) {after : LexState} {r : List Char} (reads : Reads st s ts after r) :
    ∀ l, ∃ after', after'.braces = after.braces ∧ Reads (st.moved bs l) s (movedBy bs l ts) after' r := by
  induction reads with
  | nil st s => exact fun l => ⟨st.moved bs l, rfl, .nil _ s⟩
  | cons skip lexed next ih =>
    intro l
    obtain ⟨after', eq, later⟩ := ih false
    have here := LexState.lexeme_moved bs l lexed
    rw [← LexState.moved_skip] at here
    rw [movedBy_append bs l _ (LexState.tokens_lexeme_ne_nil lexed)]
    exact ⟨after', eq, .cons skip here later⟩

theorem lexFrom_moved (bs : Nat) (l : Bool) (done : lexFrom st s = .ok ts) :
    lexFrom (st.moved bs l) s = .ok (movedBy bs l ts) := by
  obtain ⟨after, r, g, nl, reads, ends, outside⟩ := lexFrom_eq_ok_iff.1 done
  obtain ⟨after', eq, reads'⟩ := reads.moved bs l
  exact lexFrom_eq_ok_iff.2 ⟨after', r, g, nl, reads', ends, eq.trans outside⟩

/-! ## Gaps -/

/-- A text of white space and comments that ends a line, whatever follows it. -/
def LineGap (g : List Char) : Prop :=
  ∀ s, trivia (g ++ s) = trivia.skipped g true (trivia s)

theorem skipped_skipped (fst snd : List Char) (l nl : Bool)
    (later : Except Nat (List Char × Bool × List Char)) :
    trivia.skipped fst l (trivia.skipped snd nl later) = trivia.skipped (fst ++ snd) (l || nl) later := by
  unfold trivia.skipped
  cases later with
  | error p => simp [byteLength_append, Nat.add_assoc]
  | ok ps => simp [Bool.or_assoc]

theorem trivia_blanks (blank : ∀ c ∈ blanks, isBlank c) (s : List Char) :
    ∃ l, trivia (blanks ++ s) = trivia.skipped blanks l (trivia s) := by
  induction blanks with
  | nil =>
    refine ⟨false, ?_⟩
    rw [nil_append]
    cases trivia s with
    | error p => simp [trivia.skipped, byteLength]
    | ok ps => rfl
  | cons c blanks ih =>
    obtain ⟨l, later⟩ := ih fun d mem => blank d (.tail _ mem)
    refine ⟨Scan.isLineEnd c || l, ?_⟩
    rw [cons_append, trivia_blank _ (blank c mem_cons_self), later, skipped_skipped]
    rfl

theorem lineGap_comment {comment : List Char} (stays : '\n' ∉ comment) (blank : ∀ c ∈ blanks, isBlank c) :
    LineGap ('/' :: '/' :: (comment ++ '\n' :: blanks)) := by
  intro s
  obtain ⟨l, later⟩ := trivia_blanks blank s
  rw [cons_append, cons_append, append_assoc, cons_append, trivia_line,
    run_of_line stays, trivia_blank _ (by decide), later, skipped_skipped, skipped_skipped]
  have ends : Scan.isLineEnd '\n' := by decide
  simp [ends]

theorem LexState.skip_skip (st : LexState) (fst snd : List Char) (l nl : Bool) :
    (st.skip fst l).skip snd nl = st.skip (fst ++ snd) (l || nl) := by
  simp [LexState.skip, byteLength_append, Nat.add_assoc, Bool.or_assoc]

theorem LineGap.lexFrom_append (isGap : LineGap g) (done : lexFrom (st.skip g true) s = .ok ts) :
    lexFrom st (g ++ s) = .ok ts := by
  have whole {inner r : List Char} {nl : Bool}
      (skip : trivia s = .ok (inner, nl, r)) :
      trivia (g ++ s) = .ok (g ++ inner, true || nl, r) := by
    rw [isGap, skip]
    rfl
  obtain ⟨after, r, inner, nl, reads, ends, outside⟩ := lexFrom_eq_ok_iff.1 done
  cases reads with
  | nil => exact lexFrom_of_end (whole ends) outside
  | cons skip lexed next =>
    rw [LexState.skip_skip] at lexed
    exact lexFrom_eq_ok_iff.2 ⟨after, r, inner, nl, .cons (whole skip) lexed next, ends, outside⟩

/-- **Behind a gap stand the moved tokens.** -/
theorem LineGap.lexFrom_moved (isGap : LineGap g) (done : lexFrom {} s = .ok ts) :
    lexFrom {} (g ++ s) = .ok (movedBy (byteLength g) true ts) := by
  have start : ({} : LexState).skip g true = ({} : LexState).moved (byteLength g) true := rfl
  exact isGap.lexFrom_append (start ▸ Bindery.lexFrom_moved (byteLength g) true done)

/-! ## Sequences -/

theorem map_mark?_movedBy (bs : Nat) (l : Bool) (ts : List Token) :
    (movedBy bs l ts).map mark? = ts.map mark? := by
  have eq (l : Bool) : mark? ∘ moved bs l = mark? := rfl
  cases ts with
  | nil => rfl
  | cons fst r => rw [movedBy, map_cons, map_map, eq]; rfl

namespace TokenSeq

variable (bs : Nat) (l : Bool) (ts : List Token) (i : Nat) {question : Token → Bool}

theorem get?_movedBy : (ofList (movedBy bs l ts)).get? i =
    ((ofList ts).get? i).map (moved bs (l && i == 0)) := by
  rw [get?_ofList, get?_ofList, getElem?_movedBy]

@[simp] theorem size_movedBy :
    (ofList (movedBy bs l ts)).size = (ofList ts).size := by
  simp [size, ofList]

@[simp] theorem closer?_movedBy :
    (ofList (movedBy bs l ts)).closer? i = (ofList ts).closer? i := by
  have partners := matchBrackets_of_marks (map_mark?_movedBy bs l ts)
  simp only [closer?, partner?, ofList, partners]

@[simp] theorem skip_movedBy :
    (ofList (movedBy bs l ts)).skip i = (ofList ts).skip i := by
  rw [skip, skip, closer?_movedBy]

section

variable (eq : ∀ l t, question (moved bs l t) = question t)
include eq

theorem holds_movedBy : (ofList (movedBy bs l ts)).holds i question = (ofList ts).holds i question := by
  rw [holds, holds, get?_movedBy]
  cases (ofList ts).get? i with
  | none => rfl
  | some t => exact eq _ t

theorem prevHolds_movedBy :
    (ofList (movedBy bs l ts)).prevHolds i question = (ofList ts).prevHolds i question := by
  by_cases zero : i = 0
  · rw [prevHolds, prevHolds, prev?, prev?, if_pos zero, if_pos zero]
  · have back := holds_movedBy bs l ts (i - 1) eq
    rw [prevHolds, prevHolds, prev?, prev?, if_neg zero, if_neg zero]
    exact back

theorem filter_movedBy :
    ((ofList (movedBy bs l ts)).get? i).filter question =
      (((ofList ts).get? i).filter question).map (moved bs (l && i == 0)) := by
  rw [get?_movedBy]
  cases (ofList ts).get? i with
  | none => rfl
  | some t =>
    rw [Option.map_some, Option.filter_some, Option.filter_some, eq]
    split <;> rfl

end

@[simp] theorem punctAt_movedBy (s : String) :
    (ofList (movedBy bs l ts)).punctAt i s = (ofList ts).punctAt i s :=
  holds_movedBy bs l ts i fun _ _ => rfl

end TokenSeq

def beginsOf (ts : List Token) : Bool :=
  [Key.name "of", Key.mark openBrace].isPrefixOf (ts.map key)

theorem beginsOf_of_punctAt {fst : Token} (got : ts[0]? = some fst) (isOf : fst.isIdent "of")
    (brace : (TokenSeq.ofList ts).punctAt 1 openBrace) : beginsOf ts := by
  obtain ⟨snd, there, isBrace⟩ := TokenSeq.holds_eq_true.1 brace
  rw [TokenSeq.get?_ofList] at there
  match ts, got, there with
  | fst :: snd :: r, rfl, rfl =>
    have of : fst.key = Key.name "of" := by
      simpa [isIdent, key, Key.name] using isOf
    simp [beginsOf, of, key_eq_mark.2 isBrace]

/-- **An analysis does not notice a gap**, unless the tokens begin with an `of` in front of a
brace. -/
theorem Scope.analyze_movedBy (bs : Nat) (l : Bool) (free : beginsOf ts = false) :
    analyze (movedBy bs l ts) = analyze ts := by
  have moved {i : Nat} {t twin : Token} (got : ts[i]? = some t)
      (there : (movedBy bs l ts)[i]? = some twin) :
      t.moved bs (l && i == 0) = twin := by
    rw [getElem?_movedBy, got] at there
    exact Option.some.inj there
  have eq : Walk.runFrom (movedBy bs l ts) 0 {} =
      Walk.runFrom ts 0 {} := by
    refine runFrom_of_resembles (length_movedBy bs l ts) ?_ ?_
    · intro i t twin got there
      rw [← moved got there]
      exact ⟨rfl, rfl⟩
    · intro i t twin got there behind
      rw [← moved got there]
      by_cases fst : i = 0
      · subst fst
        obtain ⟨isOf, brace⟩ := behind.resolve_left (absurd rfl)
        rw [beginsOf_of_punctAt got isOf brace] at free
        cases free
      · simp [fst]
  unfold analyze
  rw [eq]

end Bindery
