/-
Proofs.Token.Piece -- what a step of the lexer takes

How a text is cut into tokens depends on two things only: whether the last token ends
an operand, and the braces open in each substitution (`Mode`).  Offsets and line breaks
are noted and never asked.  `Mode.read` takes one piece of the text: a token, or a
stretch of a template with the tokens at its edges.  It is the lexer's step
(`lexeme_read`), so a text has tokens when it can be laid out in gaps and pieces, each
piece being what is read at its place (`Laid`, `Valid`).
-/
import Bindery.Proofs.Token.Gap
import Bindery.Proofs.Token.Reading

namespace Bindery

open List Text Scan LexState Option

/-! ## Pieces -/

inductive Piece where
  | plain (kind : TokenKind) (s : List Char)
  /-- a backquote and the template text behind it -/
  | template (chunk : List Char) (mark : Scan.TemplateEnd)
  /-- the brace that closes a substitution and the template text behind it -/
  | resume (chunk : List Char) (mark : Scan.TemplateEnd)
  deriving Repr, DecidableEq

def Scan.TemplateEnd.keys : Scan.TemplateEnd → List Key
  | .closed => []
  | .opened => [.mark "("]

/-- The mark of a substitution that opens at an offset. -/
def Scan.TemplateEnd.tokens (pos : Nat) : Scan.TemplateEnd → List Token
  | .closed => []
  | .opened => [⟨.punct, "(", pos, pos, false⟩]

namespace Piece

def text : Piece → List Char
  | .plain _ s => s
  | .template chunk mark => '\x60' :: (chunk ++ mark.text)
  | .resume chunk mark => '\x7d' :: (chunk ++ mark.text)

def keys : Piece → List Key
  | .plain kind s => [(kind, String.ofList s)]
  | .template _ mark => (.template, "\x60") :: mark.keys
  | .resume _ mark => .mark ")" :: mark.keys

/-- The tokens of a piece at an offset, behind a line break or not. -/
def tokens (pos : Nat) (newline : Bool) : Piece → List Token
  | .plain kind s => [⟨kind, String.ofList s, pos, pos + byteLength s, newline⟩]
  | .template chunk mark =>
    ⟨.template, "\x60", pos, pos + 1, newline⟩ :: mark.tokens (pos + 1 + byteLength chunk)
  | .resume chunk mark =>
    ⟨.punct, ")", pos, pos, newline⟩ :: mark.tokens (pos + 1 + byteLength chunk)

end Piece

structure Mode where
  /-- the last token ends an operand -/
  operand : Bool
  /-- the braces open in each open substitution, the innermost first -/
  braces : List Nat
  deriving Repr, DecidableEq

def LexState.mode (st : LexState) : Mode :=
  ⟨st.afterOperand, st.braces⟩

def Key.endsOperand (key : Key) : Bool :=
  (⟨key.1, key.2, 0, 0, false⟩ : Token).endsOperand

namespace Mode

def after (m : Mode) : Piece → Mode
  | .plain kind s =>
    ⟨Key.endsOperand (kind, String.ofList s),
      if kind = .punct then LexState.countBrace (String.ofList s) m.braces
      else m.braces⟩
  | .template _ .closed => ⟨true, m.braces⟩
  | .template _ .opened => ⟨false, 0 :: m.braces⟩
  | .resume _ .closed => ⟨true, m.braces.tail⟩
  | .resume _ .opened => ⟨false, 0 :: m.braces.tail⟩

def readTemplate (piece : List Char → Scan.TemplateEnd → Piece) (s : List Char) :
    Option (Piece × List Char) :=
  (templateText s).map fun (chunk, mark, r) => (piece chunk mark, r)

def wordKind (word : List Char) : TokenKind :=
  if isReserved (String.ofList word) then .keyword else .ident

def read (m : Mode) : List Char → Option (Piece × List Char)
  | [] => none
  | c :: r =>
    if c = '\x60' then readTemplate .template r
    else if c = '\x7d' ∧ m.braces.head? = some 0 then readTemplate .resume r
    else if c = '\x22' ∨ c = '\x27' then
      (stringTail c r).map fun (taken, behind) => (.plain .string (c :: taken), behind)
    else if c.isDigit ∨ (c = '.' ∧ r.head?.any Char.isDigit) then
      some (.plain .number (number (c :: r)).1, (number (c :: r)).2)
    else if c = '\x23' ∧ r.head?.any isNameStart then
      some (.plain .privateName (c :: (run isNamePart r).1),
        (run isNamePart r).2)
    else if isNameStart c ∨ c = '\\' then
      let word := c :: (run (fun d => isNamePart d || d == '\\') r).1
      some (.plain (wordKind word) word,
        (run (fun d => isNamePart d || d == '\\') r).2)
    else if c = '/' ∧ m.operand = false then
      (regexTail false r).map fun (taken, behind) =>
        (.plain .regex (c :: taken ++ (run isNamePart behind).1),
          (run isNamePart behind).2)
    else
      (punctuator? (c :: r)).map fun mark =>
        (.plain .punct mark.toList, (c :: r).drop mark.length)

end Mode

variable {st : LexState} {s r : List Char} {m : Mode} {piece : Piece} {pos : Nat}
  {tokens : List Token} {t : Token}

/-! ## A piece and a step of the lexer -/

structure Lexed.Takes (step : Lexed) (st : LexState) (piece : Piece) : Prop where
  tokens : step.tokens = piece.tokens st.offset st.newline
  mode : step.state.mode = st.mode.after piece
  offset : step.state.offset = st.offset + byteLength piece.text

/-- The lexer's step takes a piece, or both fail. -/
def Reading (st : LexState) (result : Except LexError Lexed) :
    Option (Piece × List Char) → Prop
  | some (piece, r) => ∃ step, result = .ok step ∧ step.rest = r ∧ step.Takes st piece
  | none => ∃ error, result = .error error

theorem takes_emit (st : LexState) (kind : TokenKind) (lexeme r : List Char)
    (other : kind ≠ .punct) : (st.emit kind lexeme r).Takes st (.plain kind lexeme) where
  tokens := rfl
  mode := by
    show Mode.mk _ st.braces = Mode.mk _ _
    rw [if_neg other]
    rfl
  offset := rfl

theorem takes_mark (st : LexState) (mark : String) (r : List Char) :
    (({ st with braces := countBrace mark st.braces } : LexState).emit .punct
      mark.toList r).Takes st (.plain .punct mark.toList) where
  tokens := rfl
  mode := by
    have eq : countBrace (String.ofList mark.toList) st.braces =
        countBrace mark st.braces := by rw [String.ofList_toList]
    show Mode.mk _ (countBrace mark st.braces) =
      Mode.mk _ (if _ then countBrace (String.ofList mark.toList) st.braces else _)
    rw [if_pos rfl, eq]
    rfl
  offset := rfl

theorem reading_template {opened : LexState} (tokens : List Token) (p : Char)
    {piece : List Char → Scan.TemplateEnd → Piece} (opening : Nat) (s : List Char)
    (written : ∀ chunk mark, (piece chunk mark).text = p :: (chunk ++ mark.text))
    (read : ∀ chunk mark, (piece chunk mark).tokens st.offset st.newline =
      tokens ++ mark.tokens (opened.offset + byteLength chunk))
    (pos : opened.offset = st.offset + p.utf8Size) (line : opened.newline = false)
    (closed : ∀ chunk, st.mode.after (piece chunk .closed) = opened.mode)
    (reopened : ∀ chunk, st.mode.after (piece chunk .opened) = ⟨false, 0 :: opened.braces⟩) :
    Reading st (match opened.template opening s with
      | .error error => .error error
      | .ok inner => .ok { inner with tokens := tokens ++ inner.tokens })
      (Mode.readTemplate piece s) := by
  have width : Char.utf8Size '\x60' = 1 ∧ Char.utf8Size '$' = 1 ∧ Char.utf8Size '\x7b' = 1 := by decide
  unfold Mode.readTemplate template
  cases got : templateText s with
  | none => exact ⟨_, rfl⟩
  | some parts =>
    obtain ⟨chunk, mark, r⟩ := parts
    cases mark with
    | closed =>
      refine ⟨_, rfl, rfl, (read chunk .closed).symm, (closed chunk).symm, ?_⟩
      show opened.offset + byteLength chunk + 1 = _
      rw [written, pos, byteLength, byteLength_append]
      simp only [Scan.TemplateEnd.text, byteLength]
      omega
    | opened =>
      refine ⟨_, rfl, rfl, ?_, (reopened chunk).symm, ?_⟩
      · rw [read, Scan.TemplateEnd.tokens, ← line]
        rfl
      · show opened.offset + byteLength chunk + 2 = _
        rw [written, pos, byteLength, byteLength_append]
        simp only [Scan.TemplateEnd.text, byteLength]
        omega

/-- **A step of the lexer takes a piece of the text.** -/
theorem lexeme_read (st : LexState) (c : Char) (r : List Char) :
    Reading st (st.lexeme c r) (st.mode.read (c :: r)) := by
  unfold lexeme Mode.read
  dsimp only
  by_cases backquote : c = '\x60'
  · rw [if_pos backquote, if_pos backquote]
    subst backquote
    exact reading_template (st.emit .template ['\x60'] r).tokens '\x60' st.offset r
      (fun _ _ => rfl) (fun _ _ => rfl) rfl rfl (fun _ => rfl) fun _ => rfl
  rw [if_neg backquote, if_neg backquote]
  by_cases closing : c = '\x7d' ∧ st.braces.head? = some 0
  · rw [if_pos closing, if_pos (show c = '\x7d' ∧ st.mode.braces.head? = some 0 from closing)]
    obtain ⟨rfl, _⟩ := closing
    exact reading_template [st.edge ")" st.offset] '\x7d' st.offset r
      (fun _ _ => rfl) (fun _ _ => rfl) rfl rfl (fun _ => rfl) fun _ => rfl
  rw [if_neg closing, if_neg (show ¬ (c = '\x7d' ∧ st.mode.braces.head? = some 0) from closing)]
  by_cases quote : c = '\x22' ∨ c = '\x27'
  · rw [if_pos quote, if_pos quote]
    cases got : stringTail c r with
    | none => exact ⟨_, rfl⟩
    | some parts => exact ⟨_, rfl, rfl, takes_emit _ _ _ _ (by decide)⟩
  rw [if_neg quote, if_neg quote]
  by_cases digit : c.isDigit ∨ (c = '.' ∧ r.head?.any Char.isDigit)
  · rw [if_pos digit, if_pos digit]
    exact ⟨_, rfl, rfl, takes_emit _ _ _ _ (by decide)⟩
  rw [if_neg digit, if_neg digit]
  by_cases hash : c = '\x23' ∧ r.head?.any isNameStart
  · rw [if_pos hash, if_pos hash]
    exact ⟨_, rfl, rfl, takes_emit _ _ _ _ (by decide)⟩
  rw [if_neg hash, if_neg hash]
  by_cases word : isNameStart c ∨ c = '\\'
  · rw [if_pos word, if_pos word]
    refine ⟨_, rfl, rfl, takes_emit _ _ _ _ ?_⟩
    split <;> decide
  rw [if_neg word, if_neg word]
  by_cases slash : c = '/' ∧ st.afterOperand = false
  · rw [if_pos slash, if_pos (show c = '/' ∧ st.mode.operand = false from slash)]
    cases got : regexTail false r with
    | none => exact ⟨_, rfl⟩
    | some parts => exact ⟨_, rfl, rfl, takes_emit _ _ _ _ (by decide)⟩
  rw [if_neg slash, if_neg (show ¬ (c = '/' ∧ st.mode.operand = false) from slash)]
  cases got : punctuator? (c :: r) with
  | none => exact ⟨_, rfl⟩
  | some mark => exact ⟨_, rfl, rfl, takes_mark _ _ _⟩

/-! ## Layouts -/

theorem prefix_of_punctuator {mark : String} (got : punctuator? s = some mark) : mark.toList <+: s := by
  unfold punctuator? at got
  split at got
  · next longest matched =>
    have starts := find?_some matched
    split at got
    · next question =>
      cases got
      rw [question.1] at starts
      obtain ⟨tl, whole⟩ := isPrefixOf_iff_prefix.1 starts
      exact ⟨'.' :: tl, by rw [← whole]; rfl⟩
    · cases got
      exact isPrefixOf_iff_prefix.1 starts
  · cases got

/-- What is read at the beginning of a text, by kinds of pieces. -/
inductive Mode.Takes (m : Mode) : List Char → Piece → List Char → Prop where
  | template {s chunk r : List Char} {mark : Scan.TemplateEnd}
      (found : templateText s = some (chunk, mark, r)) :
      m.Takes ('\x60' :: s) (.template chunk mark) r
  | resume {s chunk r : List Char} {mark : Scan.TemplateEnd}
      (closes : m.braces.head? = some 0) (found : templateText s = some (chunk, mark, r)) :
      m.Takes ('\x7d' :: s) (.resume chunk mark) r
  | string {c : Char} {s taken r : List Char} (quote : c = '\x22' ∨ c = '\x27')
      (found : stringTail c s = some (taken, r)) :
      m.Takes (c :: s) (.plain .string (c :: taken)) r
  | number {c : Char} {s : List Char}
      (first : c.isDigit ∨ (c = '.' ∧ s.head?.any Char.isDigit)) :
      m.Takes (c :: s) (.plain .number (number (c :: s)).1) (number (c :: s)).2
  | privateName (s : List Char) :
      m.Takes ('\x23' :: s) (.plain .privateName ('\x23' :: (run isNamePart s).1))
        (run isNamePart s).2
  | word {c : Char} {s : List Char} (start : isNameStart c ∨ c = '\\') :
      m.Takes (c :: s)
        (.plain (wordKind (c :: (run (fun d => isNamePart d || d == '\\') s).1))
          (c :: (run (fun d => isNamePart d || d == '\\') s).1))
        (run (fun d => isNamePart d || d == '\\') s).2
  | regex {s taken r : List Char} (operand : m.operand = false)
      (found : regexTail false s = some (taken, r)) :
      m.Takes ('/' :: s) (.plain .regex ('/' :: taken ++ (run isNamePart r).1))
        (run isNamePart r).2
  | mark {c : Char} {s : List Char} {mark : String}
      (opens : c = '\x7d' → m.braces.head? ≠ some 0) (divides : c = '/' → m.operand = true)
      (found : punctuator? (c :: s) = some mark) :
      m.Takes (c :: s) (.plain .punct mark.toList) ((c :: s).drop mark.length)

theorem takes_of_read (got : m.read s = some (piece, r)) : m.Takes s piece r := by
  cases s with
  | nil => cases got
  | cons c behind =>
    unfold Mode.read at got
    dsimp only at got
    split at got
    · next eq =>
      obtain ⟨_, inner, ⟨⟩⟩ := map_eq_some_iff.1 got
      exact eq ▸ .template inner
    split at got
    · next eq =>
      obtain ⟨_, inner, ⟨⟩⟩ := map_eq_some_iff.1 got
      exact eq.1 ▸ .resume eq.2 inner
    next opens =>
    split at got
    · next quote =>
      obtain ⟨_, inner, ⟨⟩⟩ := map_eq_some_iff.1 got
      exact .string quote inner
    split at got
    · next fst =>
      cases got
      exact .number fst
    split at got
    · next hash =>
      cases got
      exact hash.1 ▸ .privateName behind
    split at got
    · next start =>
      cases got
      exact .word start
    split at got
    · next slash =>
      obtain ⟨_, inner, ⟨⟩⟩ := map_eq_some_iff.1 got
      exact slash.1 ▸ .regex slash.2 inner
    · next slash =>
      obtain ⟨mark, inner, ⟨⟩⟩ := map_eq_some_iff.1 got
      exact .mark (fun eq head => opens ⟨eq, head⟩) (fun eq => by simpa [eq] using slash) inner

theorem text_of_read (got : m.read s = some (piece, r)) : piece.text ++ r = s := by
  cases takes_of_read got with
  | template inner | resume _ inner => simp [Piece.text, ← templateText_append inner]
  | string _ inner => simp [Piece.text, stringTail_append inner]
  | number => exact number_append _
  | privateName | word => simp [Piece.text, run_append]
  | regex _ inner => simp [Piece.text, run_append, regexTail_append inner]
  | mark _ _ inner =>
    obtain ⟨tl, whole⟩ := prefix_of_punctuator inner
    rw [← whole]
    simp [Piece.text, ← String.length_toList]

structure Laid where
  gap : List Char
  piece : Piece
  deriving Repr, DecidableEq

variable {ps : List Laid}

def written : List Laid → List Char
  | [] => []
  | laid :: more => laid.gap ++ (laid.piece.text ++ written more)

def keysOf (ps : List Laid) : List Key :=
  ps.flatMap (·.piece.keys)

def Mode.run (m : Mode) (ps : List Laid) : Mode :=
  ps.foldl (fun m laid => m.after laid.piece) m

def Valid (m : Mode) : List Laid → List Char → Prop
  | [], _ => True
  | laid :: more, r =>
    Gap true laid.gap ∧ Starts (laid.piece.text ++ (written more ++ r)) ∧
      m.read (laid.piece.text ++ (written more ++ r)) =
        some (laid.piece, written more ++ r) ∧
      Valid (m.after laid.piece) more r

def Piece.PlacedAt (pos : Nat) (piece : Piece) (own : List Token) : Prop :=
  ∃ newline, own = piece.tokens pos newline

def Placed (pos : Nat) : List Laid → List Token → Prop
  | [], tokens => tokens = []
  | laid :: more, tokens => ∃ own later, tokens = own ++ later ∧
      laid.piece.PlacedAt (pos + byteLength laid.gap) own ∧
      Placed (pos + byteLength laid.gap + byteLength laid.piece.text) more later

theorem keysOf_cons (laid : Laid) (tl : List Laid) : keysOf (laid :: tl) = laid.piece.keys ++ keysOf tl := rfl

theorem written_append (fst snd : List Laid) : written (fst ++ snd) = written fst ++ written snd := by
  induction fst with
  | nil => rfl
  | cons laid tl ih => simp [written, ih]

theorem keysOf_append (fst snd : List Laid) : keysOf (fst ++ snd) = keysOf fst ++ keysOf snd := flatMap_append

theorem Mode.run_append (m : Mode) (fst snd : List Laid) : m.run (fst ++ snd) = (m.run fst).run snd :=
  foldl_append

theorem valid_append {fst snd : List Laid} :
    Valid m (fst ++ snd) r ↔ Valid m fst (written snd ++ r) ∧ Valid (m.run fst) snd r := by
  induction fst generalizing m with
  | nil => exact ⟨fun valid => ⟨trivial, valid⟩, And.right⟩
  | cons laid tl ih =>
    simp only [cons_append, Valid, ih, written_append, append_assoc]
    exact ⟨fun ⟨g, starts, got, pre, back⟩ => ⟨⟨g, starts, got, pre⟩, back⟩,
      fun ⟨⟨g, starts, got, pre⟩, back⟩ => ⟨g, starts, got, pre, back⟩⟩

theorem Piece.PlacedAt.keys (here : piece.PlacedAt pos tokens) : tokens.map Token.key = piece.keys := by
  obtain ⟨nl, rfl⟩ := here
  cases piece with
  | plain => rfl
  | template _ mark | resume _ mark => cases mark <;> rfl

theorem Piece.PlacedAt.first (here : piece.PlacedAt pos tokens) : tokens.head?.map (·.start) = some pos := by
  obtain ⟨nl, rfl⟩ := here
  cases piece <;> rfl

theorem map_key_of_placed (placed : Placed pos ps tokens) : tokens.map Token.key = keysOf ps := by
  induction ps generalizing pos tokens with
  | nil => rw [show tokens = [] from placed]; rfl
  | cons laid tl ih =>
    obtain ⟨own, later, rfl, here, next⟩ := placed
    rw [map_append, here.keys, ih next, keysOf_cons]

/-- A piece is one token, or a backquote or a closing mark with an opening mark behind it
or not. -/
theorem Piece.PlacedAt.cases (here : piece.PlacedAt pos tokens) :
    (∃ t s, piece = .plain t.kind s ∧ tokens = [t] ∧ t.text = String.ofList s ∧ t.start = pos ∧
      t.stop = t.start + byteLength s) ∨
    ∃ fst edges, tokens = fst :: edges ∧ (fst.key = (.template, "\x60") ∨ fst.key = .mark ")") ∧
      ∀ edge ∈ edges, edge.key = .mark "(" := by
  have marked : ∀ (mark : Scan.TemplateEnd) (pos : Nat), ∀ edge ∈ mark.tokens pos,
      edge.key = .mark "(" := by
    intro mark pos edge mem
    cases mark with
    | closed => cases mem
    | opened => exact mem_singleton.1 mem ▸ rfl
  obtain ⟨nl, rfl⟩ := here
  cases piece with
  | plain kind s => exact .inl ⟨_, s, rfl, rfl, rfl, rfl, rfl⟩
  | template chunk mark => exact .inr ⟨_, _, rfl, .inl rfl, marked _ _⟩
  | resume chunk mark => exact .inr ⟨_, _, rfl, .inr rfl, marked _ _⟩

theorem kind_of_edges {fst : Token} {edges : List Token}
    (key : fst.key = (.template, "\x60") ∨ fst.key = .mark ")")
    (marks : ∀ edge ∈ edges, edge.key = .mark "(") :
    ∀ t ∈ fst :: edges, t.kind = .template ∨ t.kind = .punct := by
  intro t mem
  rcases mem_cons.1 mem with rfl | mem
  · exact key.imp (congrArg Prod.fst) (congrArg Prod.fst)
  · exact .inr (congrArg Prod.fst (marks t mem))

theorem key_ne_mark (s : String) (other : t.kind ≠ .punct) : t.key ≠ .mark s :=
  fun eq => other (congrArg Prod.fst eq)

theorem plain_of_placed {r : List Token}
    (placed : Placed pos ps (t :: r)) (other : t.kind ≠ .template)
    (other' : t.key ≠ .mark ")") :
    ∃ g s tl, ps = ⟨g, .plain t.kind s⟩ :: tl ∧
      t.text = String.ofList s ∧ t.start = pos + byteLength g ∧
      t.stop = t.start + byteLength s ∧ Placed t.stop tl r := by
  cases ps with
  | nil => cases placed
  | cons laid tl =>
    obtain ⟨own, later, split, here, next⟩ := placed
    obtain ⟨g, piece⟩ := laid
    rcases here.cases with ⟨_, s, rfl, rfl, eq, starts, stops⟩ | ⟨fst, edges, rfl, key, -⟩
    · cases split
      refine ⟨g, s, tl, rfl, eq, starts, stops, ?_⟩
      rw [stops, starts]
      exact next
    · cases split
      rcases key with key | key
      · exact absurd (congrArg Prod.fst key) other
      · exact absurd key other'

theorem placed_append {fst r : List Token}
    (placed : Placed pos ps (fst ++ t :: r)) (other : t.key ≠ .mark "(") :
    ∃ pre back, ps = pre ++ back ∧ Placed pos pre fst ∧
      Placed (pos + byteLength (written pre)) back (t :: r) := by
  induction ps generalizing pos fst with
  | nil => exact absurd (show fst ++ t :: r = [] from placed) (by simp)
  | cons laid tl ih =>
    cases fst with
    | nil => exact ⟨[], laid :: tl, rfl, rfl, placed⟩
    | cons head fst =>
      obtain ⟨own, later, split, here, next⟩ := placed
      have cut : ∃ own', head :: fst = own ++ own' ∧ later = own' ++ t :: r := by
        rcases append_eq_append_iff.1 split with ⟨excess, eq, tail⟩ | ⟨excess, eq, tail⟩
        · cases excess with
          | nil => exact ⟨[], by simpa using eq.symm, by simpa using tail.symm⟩
          | cons next excess =>
            -- the token would stand behind another one in a piece
            cases tail
            rcases here.cases with ⟨_, _, -, rfl, -⟩ | ⟨_, edges, rfl, -, marks⟩
            · simp at eq
            · cases eq
              exact absurd (marks t (by simp)) other
        · exact ⟨excess, eq, tail⟩
      obtain ⟨own', eq, rfl⟩ := cut
      obtain ⟨pre, back, rfl, placed, placed'⟩ := ih next
      refine ⟨laid :: pre, back, rfl, ⟨own, own', eq, here, placed⟩, ?_⟩
      have size : pos + byteLength (written (laid :: pre)) =
          pos + byteLength laid.gap + byteLength laid.piece.text +
            byteLength (written pre) := by
        simp only [written, byteLength_append]
        omega
      rw [size]
      exact placed'

theorem laid_of_reads {after : LexState} (reads : Reads st s tokens after r) :
    ∃ ps, s = written ps ++ r ∧ Valid st.mode ps r ∧
      Placed st.offset ps tokens ∧ after.mode = st.mode.run ps := by
  induction reads with
  | nil st s => exact ⟨[], rfl, trivial, rfl, rfl⟩
  | @cons st after s g behind r nl c step later skip lexed next ih =>
    obtain ⟨ps, split, valid, placed, m⟩ := ih
    obtain ⟨starts, closed, isGap, ends⟩ := gap_of_trivia skip
    rw [ends (cons_ne_nil _ _)] at isGap
    have reading := lexeme_read (st.skip g nl) c behind
    rw [lexed] at reading
    cases got : (st.skip g nl).mode.read (c :: behind) with
    | none =>
      rw [got] at reading
      obtain ⟨_, absurd⟩ := reading
      cases absurd
    | some parts =>
      obtain ⟨piece, left⟩ := parts
      rw [got] at reading
      obtain ⟨_, eq, rfl, takes⟩ := reading
      cases eq
      have whole := text_of_read got
      have here : c :: behind = piece.text ++ (written ps ++ r) := by
        rw [← whole, split]
      rw [takes.mode] at valid m
      rw [takes.offset] at placed
      refine ⟨⟨g, piece⟩ :: ps, ?_, ⟨isGap, here ▸ starts, ?_, valid⟩, ?_, m⟩
      · rw [← trivia_append skip, here]
        simp [written]
      · rw [← here, ← split]
        exact got
      · exact ⟨step.tokens, later, rfl, ⟨_, takes.tokens⟩, placed⟩

theorem reads_of_laid (valid : Valid st.mode ps r) :
    ∃ tokens after, Reads st (written ps ++ r) tokens after r ∧
      tokens.map Token.key = keysOf ps ∧ after.mode = st.mode.run ps := by
  induction ps generalizing st with
  | nil => exact ⟨[], st, .nil _ _, rfl, rfl⟩
  | cons laid tl ih =>
    obtain ⟨isGap, starts, got, later⟩ := valid
    obtain ⟨nl, skip⟩ := trivia_of_gap isGap starts (.inl rfl)
    cases here : laid.piece.text ++ (written tl ++ r) with
    | nil =>
      rw [here] at got
      cases got
    | cons c behind =>
      have reading := lexeme_read (st.skip laid.gap nl) c behind
      rw [here] at got skip
      have mode : (st.skip laid.gap nl).mode = st.mode := rfl
      rw [mode, got] at reading
      obtain ⟨step, lexed, left, takes⟩ := reading
      have next : step.state.mode = st.mode.after laid.piece := takes.mode
      rw [← next] at later
      obtain ⟨tokens, after, reads, ks, ends⟩ := ih later
      have text : written (laid :: tl) ++ r = laid.gap ++ (c :: behind) := by
        rw [← here]
        simp [written]
      rw [text]
      refine ⟨step.tokens ++ tokens, after, .cons skip lexed (left ▸ reads), ?_, ?_⟩
      · rw [map_append, Piece.PlacedAt.keys ⟨_, takes.tokens⟩, ks, keysOf_cons]
      · rw [ends, next]
        rfl

/-- **A text with tokens can be laid out**, down to a gap outside all substitutions. -/
theorem laid_of_lexFrom (done : lexFrom st s = .ok tokens) :
    ∃ ps r closed, s = written ps ++ r ∧ Valid st.mode ps r ∧
      Gap closed r ∧ (st.mode.run ps).braces = [] ∧ Placed st.offset ps tokens := by
  obtain ⟨after, r, g, nl, reads, ends, outside⟩ := exists_reads done
  obtain ⟨ps, split, valid, placed, m⟩ := laid_of_reads reads
  obtain ⟨_, closed, isGap, _⟩ := gap_of_trivia ends
  have whole := trivia_append ends
  rw [append_nil] at whole
  subst whole
  exact ⟨ps, _, closed, split, valid, isGap, by rw [← m]; exact outside, placed⟩

/-- **A text that is laid out has the tokens of its pieces.** -/
theorem lexFrom_of_laid {closed : Bool} (valid : Valid st.mode ps r) (isGap : Gap closed r)
    (outside : (st.mode.run ps).braces = []) :
    ∃ tokens, lexFrom st (written ps ++ r) = .ok tokens ∧ tokens.map Token.key = keysOf ps := by
  obtain ⟨tokens, after, reads, ks, m⟩ := reads_of_laid valid
  obtain ⟨nl, ends⟩ := trivia_of_gap isGap starts_nil (.inr rfl)
  rw [append_nil] at ends
  refine ⟨tokens, lexFrom_eq_ok_iff.2 ⟨after, r, r, nl, reads, ends, ?_⟩, ks⟩
  rw [← m] at outside
  exact outside

end Bindery
