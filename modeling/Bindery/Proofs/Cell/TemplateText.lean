/-
Proofs.Cell.TemplateText -- the text of a markup cell in its template literal

A markup cell is cut into texts and interpolations, and its texts are escaped for a template
literal.  Cutting loses nothing: the segments are the source again, and a text is neither
empty nor beside another text.  Escaping loses nothing either: an escaped text is template
text as far as it goes, whether a backquote or a substitution follows it, and without its
escaping backslashes it is the text it was.
-/
import Bindery.Cell.Markup
import Bindery.Proofs.Token.Gap
import Bindery.Proofs.Token.Reading
import Mathlib.Data.List.Chain

namespace Bindery

open List Text LexState Scan

namespace Markup

/-! ## Cutting a source into segments -/

def Segment.source : Segment → List Char
  | .text content => content
  | .interpolation expression => '$' :: '\x7b' :: expression ++ ['\x7d']

def Segment.isText : Segment → Bool
  | .text _ => true
  | .interpolation _ => false

variable {text source behind rest expression : List Char} {mark : Scan.TemplateEnd} {c : Char}

theorem eq_append_of_splitOpening? {p behind : List Char} :
    splitOpening? source = some (p, behind) → source = p ++ '$' :: '\x7b' :: behind := by
  fun_induction splitOpening? source generalizing p with
  | case1 => intro got; cases got
  | case2 rest =>
    intro got
    cases got
    rfl
  | case3 c rest _ ih =>
    intro got
    obtain ⟨⟨inner, later⟩, got', eq⟩ := Option.map_eq_some_iff.1 got
    cases eq
    rw [ih got']
    rfl

theorem eq_append_of_interpolationTail {d : Nat} {quote : Option Char} :
    interpolationTail d quote source = some (expression, rest) → source = expression ++ '\x7d' :: rest := by
  fun_induction interpolationTail d quote source generalizing expression with
  | case1 => intro got; cases got
  | case2 => intro got; cases got
  | case7 =>
    intro got
    cases got
    rfl
  | _ =>
    rename_i ih
    intro got
    obtain ⟨⟨inner, later⟩, got', eq⟩ := Option.map_eq_some_iff.1 got
    cases eq
    rw [ih got']
    rfl

theorem source_textSegment (content : List Char) : (textSegment content).flatMap Segment.source = content := by
  unfold textSegment
  split
  · next empty => rw [isEmpty_iff.1 empty, flatMap_nil]
  · rw [flatMap_singleton, Segment.source]

theorem segments_cases (source : List Char) :
    segments source = textSegment source ∨
      ∃ prev expression rest, source = prev ++ (Segment.interpolation expression).source ++ rest ∧
        rest.length < source.length ∧
        segments source = textSegment prev ++ .interpolation expression :: segments rest := by
  conv in segments source => unfold segments
  conv in segments source => unfold segments
  split
  · exact .inl rfl
  · next prev behind opened =>
    split
    · exact .inl rfl
    · next expression rest closed =>
      have split : source = prev ++ (Segment.interpolation expression).source ++ rest := by
        rw [eq_append_of_splitOpening? opened, eq_append_of_interpolationTail closed]
        simp [Segment.source]
      refine .inr ⟨prev, expression, rest, split, ?_, rfl⟩
      rw [split]
      simp [Segment.source]
      omega

/-- **The segments of a source are the source.** -/
theorem source_segments (source : List Char) : (segments source).flatMap Segment.source = source := by
  induction size : source.length using Nat.strongRecOn generalizing source with
  | _ _ ih =>
    rcases segments_cases source with whole | ⟨p, expression, rest, split, shorter, cut⟩
    · rw [whole, source_textSegment]
    · rw [cut, flatMap_append, source_textSegment, flatMap_cons, ih _ (size ▸ shorter) rest rfl,
        ← append_assoc, ← split]

/-- Texts that are not empty and do not stand side by side. -/
structure Spaced (segments : List Segment) : Prop where
  filled : ∀ content, .text content ∈ segments → content ≠ []
  apart : segments.IsChain fun first second => ¬ (first.isText = true ∧ second.isText = true)

theorem spaced_textSegment (content : List Char) : Spaced (textSegment content) := by
  unfold textSegment
  split
  · exact ⟨fun _ absurd => (not_mem_nil absurd).elim, .nil⟩
  · next vis =>
    refine ⟨fun other mem => ?_, .singleton _⟩
    cases mem_singleton.1 mem
    exact fun empty => vis (isEmpty_iff.2 empty)

theorem Spaced.append {fst later : List Segment} (pre : Spaced fst) (back : Spaced later) :
    Spaced (fst ++ .interpolation expression :: later) := by
  refine ⟨fun content mem => ?_, ?_⟩
  · rcases mem_append.1 mem with mem | mem
    · exact pre.filled _ mem
    · rcases mem_cons.1 mem with absurd | mem
      · cases absurd
      · exact back.filled _ mem
  · refine pre.apart.append (back.apart.cons fun _ _ => ?_) fun _ _ _ got => ?_
    · simp [Segment.isText]
    · cases got
      simp [Segment.isText]

/-- **The texts of a source are filled and apart.** -/
theorem spaced_segments (source : List Char) : Spaced (segments source) := by
  induction size : source.length using Nat.strongRecOn generalizing source with
  | _ _ ih =>
    rcases segments_cases source with whole | ⟨p, expression, rest, -, shorter, cut⟩
    · rw [whole]
      exact spaced_textSegment source
    · rw [cut]
      exact (spaced_textSegment p).append (ih _ (size ▸ shorter) rest rfl)

/-! ## Escaped text -/

def dropEscapes : List Char → List Char
  | '\\' :: c :: rest => c :: dropEscapes rest
  | c :: rest => c :: dropEscapes rest
  | [] => []

theorem dropEscapes_cons (plain : c ≠ '\\') (rest : List Char) :
    dropEscapes (c :: rest) = c :: dropEscapes rest := by
  rw [dropEscapes]
  intro d r absurd
  exact (plain absurd).elim

/-- **Escaping is undone by dropping the escapes.** -/
theorem dropEscapes_escapeText (text : List Char) : dropEscapes (escapeText text) = text := by
  fun_induction escapeText text with
  | case1 => rfl
  | case2 rest ih => rw [dropEscapes, dropEscapes_cons (by decide), ih]
  | case3 c rest _ escaped ih => rw [dropEscapes, ih]
  | case4 c rest _ plain ih => rw [dropEscapes_cons fun eq => plain (.inl eq), ih]

theorem head?_escapeText (other : text.head? ≠ some '\x7b')
    (fst : (escapeText text).head? = some c) : c ≠ '\x7b' := by
  fun_cases escapeText text with
  | case1 => cases fst
  | case2 rest =>
    cases fst
    decide
  | case3 c rest _ escaped =>
    rw [escapeText, if_pos escaped] at fst
    · cases fst
      decide
    · assumption
  | case4 c rest _ plain =>
    rw [escapeText, if_neg plain] at fst
    · cases fst
      exact fun eq => other (congrArg some eq)
    · assumption

theorem templateText_cons {chunk : List Char} (plain : c ≠ '\\') (open_ : c ≠ '\x60')
    (unopened : c = '$' → behind.head? ≠ some '\x7b') (got : templateText behind = some (chunk, mark, rest)) :
    templateText (c :: behind) = some (c :: chunk, mark, rest) := by
  rw [templateText, got]
  · rfl
  · intro eq
    exact (plain eq).elim
  · intro d later eq
    exact (plain eq).elim
  · exact open_
  · intro later dollar brace
    exact unopened dollar (by rw [brace]; rfl)

/-- **An escaped text is template text** up to the mark that follows it. -/
theorem templateText_escapeText (text : List Char)
    (ends : templateText behind = some ([], mark, rest)) (fst : behind.head? ≠ some '\x7b') :
    templateText (escapeText text ++ behind) = some (escapeText text, mark, rest) := by
  fun_induction escapeText text with
  | case1 => exact ends
  | case2 later ih =>
    have brace : templateText ('\x7b' :: (escapeText later ++ behind)) =
        some ('\x7b' :: escapeText later, mark, rest) :=
      templateText_cons (by decide) (by decide) (fun absurd => by cases absurd) ih
    show templateText ('\\' :: '$' :: ('\x7b' :: (escapeText later ++ behind))) = _
    rw [templateText, brace]
    rfl
  | case3 c later _ escaped ih =>
    show templateText ('\\' :: c :: (escapeText later ++ behind)) = _
    rw [templateText, ih]
    rfl
  | case4 c later unopened plain ih =>
    rw [not_or] at plain
    refine templateText_cons plain.1 plain.2 (fun dollar => ?_) ih
    cases inner : escapeText later with
    | nil => exact fst
    | cons d r =>
      show some d ≠ some '\x7b'
      rw [ne_eq, Option.some.injEq]
      refine head?_escapeText (fun brace => ?_) (by rw [inner]; rfl)
      obtain ⟨after, split⟩ := head?_eq_some_iff.1 brace
      exact unopened after dollar split

theorem templateText_mark (mark : Scan.TemplateEnd) (rest : List Char) :
    templateText (mark.text ++ rest) = some ([], mark, rest) ∧ (mark.text ++ rest).head? ≠ some '\x7b' := by
  cases mark <;> simp [Scan.TemplateEnd.text, templateText]

/-! ## Escaped text in a literal -/

def openingToken : Token :=
  ⟨.template, "\x60", 0, 1, false⟩

/-- The state behind the opening of a substitution whose dollar sign stands at the position. -/
def substitutionState (dollar : Nat) : LexState :=
  ⟨dollar + 2, false, false, [0]⟩

theorem lexFrom_backquote {rest : List Char} {inner : Lexed}
    (got : template ⟨1, false, true, []⟩ 0 rest = .ok inner) :
    lexFrom {} ('\x60' :: rest) =
      (lexFrom inner.state inner.rest).map (openingToken :: inner.tokens ++ ·) := by
  have skip : trivia ('\x60' :: rest) = .ok ([], false, '\x60' :: rest) :=
    starts_of_ne rest (by decide) (by decide)
  have lexed : (LexState.skip {} [] false).lexeme '\x60' rest =
      .ok { inner with tokens := openingToken :: inner.tokens } := by
    have start : (LexState.skip {} [] false).offset = 0 := rfl
    have opened : ((LexState.skip {} [] false).emit .template ['\x60'] rest).state =
        ⟨1, false, true, []⟩ := rfl
    unfold lexeme
    rw [if_pos rfl]
    dsimp only
    rw [opened, start, got]
    rfl
  exact lexFrom_of_step skip lexed

theorem lexFrom_closed (text : List Char) :
    lexFrom {} ('\x60' :: (escapeText text ++ ['\x60'])) = .ok [openingToken] := by
  obtain ⟨ends, fst⟩ := templateText_mark .closed []
  have inner : templateText (escapeText text ++ ['\x60']) =
      some (escapeText text, .closed, []) := templateText_escapeText text ends fst
  have got : template ⟨1, false, true, []⟩ 0 (escapeText text ++ ['\x60']) =
      .ok ⟨[], ⟨1 + byteLength (escapeText text) + 1, false, true, []⟩, []⟩ := by
    rw [template, inner]
  rw [lexFrom_backquote got, lexFrom_of_end starts_nil rfl]
  rfl

theorem lexFrom_opened (text rest : List Char) :
    lexFrom {} ('\x60' :: (escapeText text ++ '$' :: '\x7b' :: rest)) =
      (lexFrom (substitutionState (1 + byteLength (escapeText text))) rest).map
        ([openingToken, edge {} "(" (1 + byteLength (escapeText text))] ++ ·) := by
  obtain ⟨ends, fst⟩ := templateText_mark .opened rest
  have inner : templateText (escapeText text ++ '$' :: '\x7b' :: rest) =
      some (escapeText text, .opened, rest) := templateText_escapeText text ends fst
  have got : template ⟨1, false, true, []⟩ 0 (escapeText text ++ '$' :: '\x7b' :: rest) =
      .ok ⟨[edge {} "(" (1 + byteLength (escapeText text))],
        substitutionState (1 + byteLength (escapeText text)), rest⟩ := by
    rw [template, inner]
    rfl
  exact lexFrom_backquote got

/-- **Markup text survives cutting and escaping.**  The segments of a source are the source,
with filled texts that are apart.  Every escaped text between backquotes is one template
literal without substitutions, dropping its escapes gives the text back, and a substitution
written right behind it is opened there. -/
theorem text_survives :
    (∀ source, (segments source).flatMap Segment.source = source ∧ Spaced (segments source)) ∧
    ∀ text,
      lexFrom {} ('\x60' :: (escapeText text ++ ['\x60'])) = .ok [openingToken] ∧
      Scan.templateText (escapeText text ++ ['\x60']) = some (escapeText text, .closed, []) ∧
      dropEscapes (escapeText text) = text ∧
      ∀ rest, lexFrom {} ('\x60' :: (escapeText text ++ '$' :: '\x7b' :: rest)) =
        (lexFrom (substitutionState (1 + byteLength (escapeText text))) rest).map
          ([openingToken, LexState.edge {} "(" (1 + byteLength (escapeText text))] ++ ·) := by
  refine ⟨fun source => ⟨source_segments source, spaced_segments source⟩, fun text => ?_⟩
  obtain ⟨ends, first⟩ := templateText_mark .closed []
  exact ⟨lexFrom_closed text, templateText_escapeText text ends first,
    dropEscapes_escapeText text, lexFrom_opened text⟩

end Markup

end Bindery
