/-
Proofs.Token.Gap -- white space and comments between tokens

`Gap closed text` says that the text is nothing but white space and comments.  It is
closed when a token may follow at once; it is open when it ends inside a comment that
runs to the end of its line.  `trivia` takes a gap and stops where a token starts
(`gap_of_trivia`), and it takes every gap in front of such a place (`trivia_of_gap`).
-/
import Bindery.Token.Lexer

namespace Bindery

open List Text Scan

variable {r s comment behind body : List Char} {nl : Bool} {c : Char}

inductive Gap : Bool → List Char → Prop where
  | nil : Gap true []
  | blank {closed : Bool} {c : Char} {g : List Char} (blank : isBlank c = true)
      (later : Gap closed g) : Gap closed (c :: g)
  /-- a comment that runs to the end of its line, which has not come yet -/
  | line {body : List Char} (stays : '\n' ∉ body) : Gap false ('/' :: '/' :: body)
  | lineEnd {closed : Bool} {body g : List Char} (stays : '\n' ∉ body)
      (later : Gap closed ('\n' :: g)) : Gap closed ('/' :: '/' :: (body ++ '\n' :: g))
  | block {closed nl : Bool} {comment g : List Char}
      (ends : Scan.blockComment comment = some (comment, nl, []))
      (later : Gap closed g) : Gap closed ('/' :: '*' :: (comment ++ g))

/-- A token starts here, or the text ends. -/
def Starts (s : List Char) : Prop :=
  trivia s = .ok ([], false, s)

theorem starts_nil : Starts [] := by
  unfold Starts trivia
  rfl

theorem starts_of_ne (r : List Char) (vis : isBlank c = false) (other : c ≠ '/') : Starts (c :: r) := by
  unfold Starts trivia
  split
  · next eq => cases eq
  · next eq => cases eq; exact absurd rfl other
  · next eq => cases eq; exact absurd rfl other
  · next eq => cases eq; rw [if_neg (by simp [vis])]

theorem starts_of_slash (other : r.head? ≠ some '/') (other' : r.head? ≠ some '*') : Starts ('/' :: r) := by
  unfold Starts trivia
  split
  · next eq => cases eq
  · next eq => cases eq; exact absurd rfl other
  · next eq => cases eq; exact absurd rfl other'
  · next eq => cases eq; rw [if_neg (by decide)]

theorem head?_ne_of_slash (other : ∀ later, '/' = '/' → r = c :: later → False) : r.head? ≠ some c := by
  intro head
  obtain ⟨later, rfl⟩ := head?_eq_some_iff.1 head
  exact other later rfl rfl

theorem Starts.cases (starts : Starts s) :
    s = [] ∨ ∃ c r, s = c :: r ∧ isBlank c = false ∧ (c = '/' → r.head? ≠ some '/' ∧ r.head? ≠ some '*') := by
  unfold Starts at starts
  unfold trivia at starts
  split at starts
  · exact .inl rfl
  · obtain ⟨_, _, _, absurd, _⟩ := skipped_eq_ok starts
    cases absurd
  · split at starts
    · cases starts
    · obtain ⟨_, _, _, absurd, _⟩ := skipped_eq_ok starts
      cases absurd
  · next c r notLine notBlock =>
    refine .inr ⟨c, r, rfl, ?_, ?_⟩
    · split at starts
      · obtain ⟨_, _, _, absurd, _⟩ := skipped_eq_ok starts
        cases absurd
      · next vis => simpa using vis
    · rintro rfl
      exact ⟨head?_ne_of_slash notLine, head?_ne_of_slash notBlock⟩

/-! ## Comments in slashes and stars -/

theorem blockComment_append_right :
    ∀ {comment behind : List Char} {nl : Bool}, blockComment s = some (comment, nl, behind) →
      ∀ tl, blockComment (comment ++ tl) = some (comment, nl, tl) := by
  fun_induction blockComment s with
  | case1 => intro comment behind nl got; cases got
  | case2 r =>
    rintro comment behind nl ⟨⟩ tl
    simp [blockComment]
  | case3 c r other ih =>
    intro comment behind nl got tl
    obtain ⟨⟨taken, l, left⟩, inner, eq⟩ := Option.map_eq_some_iff.1 got
    injection eq with fst snd
    injection snd with snd third
    subst fst snd third
    have whole := blockComment_append inner
    rw [cons_append, blockComment]
    · rw [ih inner tl]
      rfl
    · rintro later rfl absurd
      cases taken with
      | nil =>
        have := ih inner []
        simp [blockComment] at this
      | cons d taken =>
        injection absurd with head
        subst head
        exact other _ rfl whole.symm

theorem getLast?_blockComment :
    ∀ {comment behind : List Char} {nl : Bool},
      blockComment s = some (comment, nl, behind) → comment.getLast? = some '/' := by
  fun_induction blockComment s with
  | case1 => intro comment behind nl got; cases got
  | case2 r =>
    rintro comment behind nl ⟨⟩
    rfl
  | case3 c r other ih =>
    intro comment behind nl got
    obtain ⟨⟨taken, l, left⟩, inner, eq⟩ := Option.map_eq_some_iff.1 got
    injection eq with fst
    subst fst
    rw [getLast?_cons, ih inner]
    rfl

/-! ## What is skipped is a gap -/

/-- **`trivia` takes a gap and stops where a token starts.**  Only at the end of the
text may the gap be open. -/
theorem gap_of_trivia :
    ∀ {g r : List Char} {nl : Bool}, trivia s = .ok (g, nl, r) →
      Starts r ∧ ∃ closed, Gap closed g ∧ (r ≠ [] → closed) := by
  fun_induction trivia s with
  | case1 =>
    rintro g r nl ⟨⟩
    exact ⟨starts_nil, true, .nil, fun _ => rfl⟩
  | case2 behind ih =>
    intro g r nl done
    obtain ⟨inner, later, done', rfl, -⟩ := skipped_eq_ok done
    obtain ⟨starts, closed, isGap, ends⟩ := ih done'
    have stays : '\n' ∉ (run (· != '\n') behind).1 := by
      intro mem
      have := all_eq_true.1 all_takeWhile _ mem
      simp at this
    have whole := trivia_append done'
    cases left : (run (· != '\n') behind).2 with
    | nil =>
      rw [left] at whole
      obtain ⟨rfl, rfl⟩ := append_eq_nil_iff.1 whole
      refine ⟨starts, false, ?_, fun absurd => absurd rfl |>.elim⟩
      rw [append_nil]
      exact .line stays
    | cons c tl =>
      -- the comment stopped at a line feed
      have feed : c = '\n' := by
        have := head?_dropWhile_not (fun c : Char => c != '\n') behind
        rw [show behind.dropWhile (fun c : Char => c != '\n') = c :: tl from left] at this
        simpa using this
      subst feed
      cases inner with
      | nil =>
        rw [left, nil_append] at whole
        subst whole
        rcases starts.cases with absurd | ⟨c, _, eq, vis, _⟩
        · cases absurd
        · cases eq
          exact absurd vis (by decide)
      | cons c inner =>
        rw [left] at whole
        injection whole with eq
        subst eq
        exact ⟨starts, closed, .lineEnd stays isGap, ends⟩
  | case3 => intro g r nl done; cases done
  | case4 behind comment l tail got ih =>
    intro g r nl done
    obtain ⟨inner, later, done', rfl, -⟩ := skipped_eq_ok done
    obtain ⟨starts, closed, isGap, ends⟩ := ih done'
    have own := blockComment_append_right got []
    rw [append_nil] at own
    exact ⟨starts, closed, .block own isGap, ends⟩
  | case5 c behind _ _ blank ih =>
    intro g r nl done
    obtain ⟨inner, later, done', rfl, -⟩ := skipped_eq_ok done
    obtain ⟨starts, closed, isGap, ends⟩ := ih done'
    exact ⟨starts, closed, .blank blank isGap, ends⟩
  | case6 c behind notLine notBlock vis =>
    rintro g r nl ⟨⟩
    refine ⟨?_, true, .nil, fun _ => rfl⟩
    by_cases slash : c = '/'
    · subst slash
      exact starts_of_slash (head?_ne_of_slash notLine) (head?_ne_of_slash notBlock)
    · exact starts_of_ne behind (by simpa using vis) slash

theorem run_eq {p : Char → Bool} {taken : List Char} (holds : ∀ c ∈ taken, p c)
    (ends : r.head?.any p = false) : run p (taken ++ r) = (taken, r) := by
  unfold run
  rw [takeWhile_append_of_pos holds, dropWhile_append_of_pos holds]
  cases r with
  | nil => simp
  | cons c tl =>
    have stops : p c = false := ends
    simp [stops]

theorem ne_lineFeed (stays : '\n' ∉ body) : ∀ c ∈ body, (c != '\n') := by
  intro c mem
  rw [bne_iff_ne]
  rintro rfl
  exact stays mem

theorem run_of_line (stays : '\n' ∉ body) (tl : List Char) :
    run (· != '\n') (body ++ '\n' :: tl) = (body, '\n' :: tl) :=
  run_eq (ne_lineFeed stays) rfl

theorem run_of_lastLine (stays : '\n' ∉ body) : run (· != '\n') body = (body, []) := by
  have run := run_eq (ne_lineFeed stays) (show ([] : List Char).head?.any (· != '\n') = false from rfl)
  rwa [append_nil] at run

theorem trivia_blank (r : List Char) (blank : isBlank c) :
    trivia (c :: r) = trivia.skipped [c] (isLineEnd c) (trivia r) := by
  have notSlash : c ≠ '/' := by
    rintro rfl
    exact absurd blank (by decide)
  rw [trivia.eq_def]
  split
  · next eq => cases eq
  · next eq => injection eq with fst; exact absurd fst notSlash
  · next eq => injection eq with fst; exact absurd fst notSlash
  · next eq =>
    cases eq
    rw [if_pos blank]

theorem trivia_line (r : List Char) :
    trivia ('/' :: '/' :: r) =
      trivia.skipped ('/' :: '/' :: (run (· != '\n') r).1) false (trivia (run (· != '\n') r).2) := by
  rw [trivia.eq_def]
  rfl

theorem trivia_block (got : blockComment s = some (comment, nl, behind)) :
    trivia ('/' :: '*' :: s) = trivia.skipped ('/' :: '*' :: comment) nl (trivia behind) := by
  rw [trivia.eq_def]
  split
  · next eq => cases eq
  · next eq => simp at eq
  · next eq =>
    cases eq
    split
    · next failed => rw [got] at failed; cases failed
    · next eq => rw [got] at eq; cases eq; rfl
  · next notBlock eq =>
    cases eq
    exact (notBlock _ rfl rfl).elim

/-- **A gap in front of a token is skipped**, and so is an open one at the end. -/
theorem trivia_of_gap {closed : Bool} {g : List Char} (isGap : Gap closed g) (starts : Starts r)
    (ends : closed ∨ r = []) : ∃ nl, trivia (g ++ r) = .ok (g, nl, r) := by
  induction isGap with
  | nil => exact ⟨false, starts⟩
  | @blank closed c g blank later ih =>
    obtain ⟨nl, done⟩ := ih ends
    exact ⟨isLineEnd c || nl, by rw [cons_append, trivia_blank _ blank, done]; rfl⟩
  | @line body stays =>
    rcases ends with absurd | rfl
    · cases absurd
    · refine ⟨false, ?_⟩
      rw [append_nil, trivia_line, run_of_lastLine stays, starts_nil]
      simp [trivia.skipped]
  | @lineEnd closed body g stays later ih =>
    obtain ⟨nl, done⟩ := ih ends
    refine ⟨nl, ?_⟩
    rw [cons_append, cons_append, append_assoc, cons_append, trivia_line,
      run_of_line stays, ← cons_append, done]
    simp [trivia.skipped]
  | @block closed nl comment g got later ih =>
    obtain ⟨l, done⟩ := ih ends
    refine ⟨nl || l, ?_⟩
    rw [cons_append, cons_append, append_assoc, trivia_block (blockComment_append_right got _), done]
    simp [trivia.skipped]

/-! ## Changing a gap -/

namespace Gap

variable {closed : Bool} {g : List Char}

theorem append {tl : List Char} (isGap : Gap true g) (later : Gap closed tl) : Gap closed (g ++ tl) := by
  generalize eq : true = ended at isGap
  induction isGap with
  | nil => exact later
  | blank blank _ ih => exact .blank blank (ih eq)
  | line _ => cases eq
  | @lineEnd _ body g stays _ ih =>
    have := ih eq
    rw [cons_append, cons_append, append_assoc]
    exact .lineEnd stays this
  | @block _ _ comment g got _ ih =>
    rw [cons_append, cons_append, append_assoc]
    exact .block got (ih eq)

theorem lineFeed (isGap : Gap closed g) : Gap true (g ++ ['\n']) := by
  have feed : Gap true ['\n'] := .blank (by decide) .nil
  induction isGap with
  | nil => exact feed
  | blank blank _ ih => exact .blank blank ih
  | line stays => exact .lineEnd stays feed
  | lineEnd stays _ ih =>
    rw [cons_append, cons_append, append_assoc]
    exact .lineEnd stays ih
  | block got _ ih =>
    rw [cons_append, cons_append, append_assoc]
    exact .block got ih

theorem of_blank (isGap : Gap closed (c :: g)) (blank : isBlank c) : Gap closed g := by
  cases isGap with
  | blank _ later => exact later
  | line _ | lineEnd _ _ | block _ _ => exact absurd blank (by decide)

/-- White space at the end of a gap can be left out. -/
theorem dropLast {s : List Char} (isGap : Gap closed s) (last : ∀ c ∈ s.getLast?, isBlank c) :
    ∃ closed', Gap closed' s.dropLast := by
  have ends (c d e : Char) (pre r : List Char) : (c :: d :: (pre ++ e :: r)).dropLast =
      c :: d :: (pre ++ (e :: r).dropLast) ∧
      (c :: d :: (pre ++ e :: r)).getLast? = (e :: r).getLast? := by
    rw [← cons_append, ← cons_append, dropLast_append_of_ne_nil (cons_ne_nil _ _), getLast?_append,
      getLast?_cons, Option.some_or]
    exact ⟨rfl, rfl⟩
  induction isGap with
  | nil => exact ⟨true, .nil⟩
  | @blank closed d r blank _ ih =>
    cases r with
    | nil => exact ⟨true, .nil⟩
    | cons e r =>
      obtain ⟨closed', isGap⟩ := ih last
      exact ⟨closed', .blank blank isGap⟩
  | @line body stays =>
    cases body with
    | nil => exact absurd (last '/' rfl) (by decide)
    | cons e body => exact ⟨false, .line fun mem => stays (dropLast_subset _ mem)⟩
  | @lineEnd closed body r stays _ ih =>
    rw [(ends ..).1]
    rw [(ends ..).2] at last
    cases r with
    | nil => exact ⟨false, by simpa using .line stays⟩
    | cons e r =>
      obtain ⟨closed', isGap⟩ := ih last
      exact ⟨closed', .lineEnd stays isGap⟩
  | @block closed nl comment r got _ ih =>
    cases r with
    | nil =>
      refine absurd (last '/' ?_) (by decide)
      rw [append_nil, getLast?_cons, getLast?_cons, getLast?_blockComment got]
      rfl
    | cons e r =>
      rw [(ends ..).1]
      rw [(ends ..).2] at last
      obtain ⟨closed', isGap⟩ := ih last
      exact ⟨closed', .block got isGap⟩

theorem dropBlanks (blanks : List Char) (isGap : Gap closed (g ++ blanks))
    (all : ∀ c ∈ blanks, isBlank c) : ∃ closed', Gap closed' g := by
  induction blanks generalizing g with
  | nil => exact ⟨closed, append_nil g ▸ isGap⟩
  | cons c blanks ih =>
    rw [append_cons] at isGap
    obtain ⟨_, shorter⟩ := ih isGap fun d mem => all d (.tail _ mem)
    have := shorter.dropLast (by simpa using all c mem_cons_self)
    rwa [dropLast_concat] at this

end Gap

end Bindery
