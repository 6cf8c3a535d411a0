/-
Token.Lexer -- the tokens of a text

`tokenize` cuts a text into tokens.  Between two tokens the lexer knows four
things (`LexState`): its byte offset, whether a line ended since the last token,
whether the last token ended an operand, and for each open template substitution
how many braces are open inside it.  White space and comments carry nothing but
the line break (`trivia`).

Template literals are not opaque.  The opening backquote is a token of its own,
and each substitution stands between a `(` and a `)` of width zero, so that the
tokens of a template read like those of a call.  A closing brace closes a
substitution exactly when no brace is open inside it.

Every step takes at least one character (`length_lexeme_lt`), which is why the
lexer ends on every text.
-/
import Bindery.Text.Bytes
import Bindery.Token.Scan

namespace Bindery

open Text

/-- Why a text has no tokens.  Positions are byte offsets. -/
inductive LexError where
  | unterminatedString (start : Nat)
  | unterminatedTemplate (start : Nat)
  | unterminatedComment (start : Nat)
  | unterminatedRegex (start : Nat)
  | unexpectedChar (c : Char) (start : Nat)
  deriving Repr, DecidableEq

def LexError.message : LexError → String
  | .unterminatedString start => "unterminated string literal at offset " ++ toString start
  | .unterminatedTemplate start => "unterminated template literal at offset " ++ toString start
  | .unterminatedComment start => "unterminated block comment at offset " ++ toString start
  | .unterminatedRegex start => "unterminated regular expression at offset " ++ toString start
  | .unexpectedChar c start =>
    "unexpected character '" ++ c.toString ++ "' at offset " ++ toString start

structure LexState where
  /-- the byte offset of the remaining text -/
  offset : Nat := 0
  /-- a line ended since the last token -/
  newline : Bool := false
  /-- the last token ends an operand, so a slash divides -/
  afterOperand : Bool := false
  /-- the braces open in each open substitution, the innermost first -/
  braces : List Nat := []
  deriving Repr, DecidableEq

structure Lexed where
  tokens : List Token
  state : LexState
  rest : List Char

namespace LexState

def emit (state : LexState) (kind : TokenKind) (lexeme rest : List Char) : Lexed :=
  let stop := state.offset + byteLength lexeme
  let token : Token := ⟨kind, String.ofList lexeme, state.offset, stop, state.newline⟩
  ⟨[token], { state with offset := stop, newline := false, afterOperand := token.endsOperand },
    rest⟩

def edge (state : LexState) (text : String) (position : Nat) : Token :=
  ⟨.punct, text, position, position, state.newline⟩

/-- Template text behind a backquote or behind a substitution.  `opening` is where
the complaint points when the text never ends. -/
def template (state : LexState) (opening : Nat) (text : List Char) : Except LexError Lexed :=
  match Scan.templateText text with
  | none => .error (.unterminatedTemplate opening)
  | some (chunk, .closed, rest) =>
    .ok ⟨[], { state with offset := state.offset + byteLength chunk + 1 }, rest⟩
  | some (chunk, .opened, rest) =>
    let dollar := state.offset + byteLength chunk
    .ok ⟨[state.edge "(" dollar],
      { offset := dollar + 2, newline := false, afterOperand := false,
        braces := 0 :: state.braces },
      rest⟩

def countBrace (mark : String) : List Nat → List Nat
  | [] => []
  | depth :: outer =>
    if mark = openBrace then (depth + 1) :: outer
    else if mark = closeBrace then (depth - 1) :: outer
    else depth :: outer

/-- The token or tokens at the start of the text `c :: rest`, whose first
character is neither white space nor the start of a comment. -/
def lexeme (state : LexState) (c : Char) (rest : List Char) : Except LexError Lexed :=
  if c = '\x60' then
    let opened := state.emit .template [c] rest
    match opened.state.template state.offset rest with
    | .error error => .error error
    | .ok inner => .ok { inner with tokens := opened.tokens ++ inner.tokens }
  else if c = '\x7d' ∧ state.braces.head? = some 0 then
    let closed : LexState :=
      { offset := state.offset + 1, newline := false, afterOperand := true,
        braces := state.braces.tail }
    match closed.template state.offset rest with
    | .error error => .error error
    | .ok inner => .ok { inner with tokens := state.edge ")" state.offset :: inner.tokens }
  else if c = '\x22' ∨ c = '\x27' then
    match Scan.stringTail c rest with
    | none => .error (.unterminatedString state.offset)
    | some (taken, rest) => .ok (state.emit .string (c :: taken) rest)
  else if c.isDigit ∨ (c = '.' ∧ rest.head?.any Char.isDigit) then
    .ok (state.emit .number (Scan.number (c :: rest)).1 (Scan.number (c :: rest)).2)
  else if c = '\x23' ∧ rest.head?.any Scan.isNameStart then
    let (name, rest) := Scan.run Scan.isNamePart rest
    .ok (state.emit .privateName (c :: name) rest)
  else if Scan.isNameStart c ∨ c = '\\' then
    let (more, rest) := Scan.run (fun d => Scan.isNamePart d || d == '\\') rest
    let word := c :: more
    .ok (state.emit (if isReserved (String.ofList word) then .keyword else .ident) word rest)
  else if c = '/' ∧ state.afterOperand = false then
    match Scan.regexTail false rest with
    | none => .error (.unterminatedRegex state.offset)
    | some (taken, rest) =>
      let (flags, rest) := Scan.run Scan.isNamePart rest
      .ok (state.emit .regex (c :: taken ++ flags) rest)
  else
    match Scan.punctuator? (c :: rest) with
    | none => .error (.unexpectedChar c state.offset)
    | some mark =>
      .ok ({ state with braces := countBrace mark state.braces }.emit .punct mark.toList
        ((c :: rest).drop mark.length))

end LexState

/-! ## The gap between two tokens -/

/-- White space and comments in front of a token: what was skipped, whether a line
ended in it, and the text behind it.  A comment that never ends is an error at the
number of bytes in front of it. -/
def trivia (text : List Char) : Except Nat (List Char × Bool × List Char) :=
  match text with
  | [] => .ok ([], false, [])
  | '/' :: '/' :: rest =>
    skipped ('/' :: '/' :: (Scan.run (· != '\n') rest).1) false
      (trivia (Scan.run (· != '\n') rest).2)
  | '/' :: '*' :: rest =>
    match _found : Scan.blockComment rest with
    | none => .error 0
    | some (comment, newline, behind) =>
      skipped ('/' :: '*' :: comment) newline (trivia behind)
  | c :: rest =>
    if isBlank c then skipped [c] (Scan.isLineEnd c) (trivia rest)
    else .ok ([], false, c :: rest)
  termination_by text.length
  decreasing_by
    · have := congrArg List.length (Scan.run_append (· != '\n') rest)
      simp at this ⊢
      omega
    · have := congrArg List.length (Scan.blockComment_append _found)
      simp at this ⊢
      omega
    · simp
where
  /-- Put one skipped piece in front of the rest of the gap. -/
  skipped (piece : List Char) (newline : Bool) :
      Except Nat (List Char × Bool × List Char) → Except Nat (List Char × Bool × List Char)
    | .error before => .error (byteLength piece + before)
    | .ok (gap, later, rest) => .ok (piece ++ gap, newline || later, rest)

theorem skipped_eq_ok {piece : List Char} {newline : Bool}
    {later : Except Nat (List Char × Bool × List Char)} {gap rest : List Char} {found : Bool}
    (done : trivia.skipped piece newline later = .ok (gap, found, rest)) :
    ∃ inner line, later = .ok (inner, line, rest) ∧ gap = piece ++ inner ∧
      found = (newline || line) := by
  unfold trivia.skipped at done
  split at done
  · cases done
  · cases done
    exact ⟨_, _, rfl, rfl, rfl⟩

theorem trivia_append {text : List Char} :
    ∀ {gap rest : List Char} {newline : Bool}, trivia text = .ok (gap, newline, rest) →
      gap ++ rest = text := by
  fun_induction trivia text with
  | case1 =>
    rintro gap rest newline ⟨⟩
    rfl
  | case2 behind ih =>
    intro gap rest newline done
    obtain ⟨inner, later, done', rfl, -⟩ := skipped_eq_ok done
    have := ih done'
    simp [List.append_assoc, this, Scan.run_append]
  | case3 => simp
  | case4 behind comment line tail found ih =>
    intro gap rest newline done
    obtain ⟨inner, later, done', rfl, -⟩ := skipped_eq_ok done
    have := ih done'
    have := Scan.blockComment_append found
    simp_all [List.append_assoc]
  | case5 c behind _ _ _ ih =>
    intro gap rest newline done
    obtain ⟨inner, later, done', rfl, -⟩ := skipped_eq_ok done
    simp [ih done']
  | case6 =>
    rintro gap rest newline ⟨⟩
    rfl

/-! ## Progress -/

theorem length_template_lt {state : LexState} {opening : Nat} {text : List Char} {step : Lexed}
    (done : state.template opening text = .ok step) : step.rest.length < text.length := by
  unfold LexState.template at done
  split at done
  · cases done
  · next chunk rest found =>
    cases done
    have := congrArg List.length (Scan.templateText_append found)
    simp [Scan.TemplateEnd.text] at this ⊢
    omega
  · next chunk rest found =>
    cases done
    have := congrArg List.length (Scan.templateText_append found)
    simp [Scan.TemplateEnd.text] at this ⊢
    omega

theorem length_lexeme_lt {state : LexState} {c : Char} {rest : List Char} {step : Lexed}
    (done : state.lexeme c rest = .ok step) : step.rest.length < (c :: rest).length := by
  unfold LexState.lexeme at done
  split at done
  · dsimp only at done
    split at done
    · cases done
    · next inner opened =>
      cases done
      have := length_template_lt opened
      simp only [List.length_cons]
      omega
  split at done
  · dsimp only at done
    split at done
    · cases done
    · next inner closed =>
      cases done
      have := length_template_lt closed
      simp only [List.length_cons]
      omega
  split at done
  · split at done
    · cases done
    · next taken behind found =>
      cases done
      have := congrArg List.length (Scan.stringTail_append found)
      simp [LexState.emit] at this ⊢
      omega
  split at done
  · next first =>
    cases done
    have := Scan.length_number_lt first
    simpa [LexState.emit] using this
  split at done
  · cases done
    exact Nat.lt_succ_of_le (Scan.length_run_le _ _)
  split at done
  · cases done
    exact Nat.lt_succ_of_le (Scan.length_run_le _ _)
  split at done
  · split at done
    · cases done
    · next taken behind found =>
      cases done
      have := congrArg List.length (Scan.regexTail_append found)
      have := Scan.length_run_le Scan.isNamePart behind
      simp [LexState.emit, Scan.run] at *
      omega
  split at done
  · cases done
  · next mark found =>
    cases done
    have := Scan.punctuator?_length_pos found
    simp [LexState.emit]
    omega

/-! ## The tokens -/

def lexFrom (state : LexState) (text : List Char) : Except LexError (List Token) :=
  match _skip : trivia text with
  | .error before => .error (.unterminatedComment (state.offset + before))
  | .ok (gap, newline, rest) =>
    let state : LexState :=
      { state with offset := state.offset + byteLength gap, newline := state.newline || newline }
    match rest with
    | [] => if state.braces.isEmpty then .ok [] else .error (.unterminatedTemplate state.offset)
    | c :: behind =>
      match _done : state.lexeme c behind with
      | .error error => .error error
      | .ok step => (lexFrom step.state step.rest).map (step.tokens ++ ·)
  termination_by text.length
  decreasing_by
    have := congrArg List.length (trivia_append _skip)
    have := length_lexeme_lt _done
    simp at *
    omega

def tokenize (text : String) : Except LexError (List Token) :=
  lexFrom {} text.toList

end Bindery
