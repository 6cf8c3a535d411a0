/-
Proofs.Token.Splice -- replacing pieces of a text

An edit of a source replaces the text of one piece, or of two with the gap between
them, by the text of one piece of the same nature: a string literal by another one, or
the two words of a reference to a control by one word (`Replaces`).  `Edited` follows
the edits along a layout.  Applying them to the text gives the text of the new layout
(`Edited.changed`, `Text.Changed.applyFrom`), and that is again what the lexer reads
(`Edited.valid`).
-/
import Bindery.Name.View
import Bindery.Proofs.Token.Lookahead
import Bindery.Text.Edit

namespace Bindery

open List Text

variable {c : Char} {r s w : List Char} {m : Mode} {kind : TokenKind}

/-! ## Bytes of a text -/

namespace Text

variable {edits : List Edit} {stop cursor : Nat}

theorem takeBytes_append (fst snd : List Char) (count : Nat) :
    takeBytes (byteLength fst + count) (fst ++ snd) = fst ++ takeBytes count snd := by
  induction fst with
  | nil => simp [byteLength]
  | cons c r ih =>
    have size := c.utf8Size_pos
    rw [cons_append, takeBytes, if_neg (by simp only [byteLength]; omega)]
    have left : byteLength (c :: r) + count - c.utf8Size = byteLength r + count := by
      simp only [byteLength]
      omega
    rw [left, ih]
    rfl

theorem dropBytes_append (fst snd : List Char) (count : Nat) :
    dropBytes (byteLength fst + count) (fst ++ snd) = dropBytes count snd := by
  induction fst with
  | nil => simp [byteLength]
  | cons c r ih =>
    have size := c.utf8Size_pos
    rw [cons_append, dropBytes, if_neg (by simp only [byteLength]; omega)]
    have left : byteLength (c :: r) + count - c.utf8Size = byteLength r + count := by
      simp only [byteLength]
      omega
    rw [left, ih]

theorem takeBytes_zero (s : List Char) : takeBytes 0 s = [] := by
  cases s <;> rfl

theorem dropBytes_zero (s : List Char) : dropBytes 0 s = s := by
  cases s <;> rfl

theorem slice_append (p middle behind : List Char) :
    slice (byteLength p) (byteLength p + byteLength middle) (p ++ (middle ++ behind)) = middle := by
  have start := dropBytes_append p (middle ++ behind) 0
  have stop := takeBytes_append middle behind 0
  rw [Nat.add_zero] at start stop
  rw [slice, start, dropBytes_zero, Nat.add_sub_cancel_left, stop, takeBytes_zero, append_nil]

theorem applyFrom_append (stop : Nat) (fst snd : List Char) (cursor : Nat)
    (later : ∀ edit ∈ edits, cursor + byteLength fst ≤ edit.start ∧ edit.start ≤ edit.stop) :
    applyFrom stop edits cursor (fst ++ snd) = fst ++ applyFrom stop edits (cursor + byteLength fst) snd := by
  induction edits with
  | nil => rfl
  | cons edit r ih =>
    obtain ⟨start, order⟩ := later edit mem_cons_self
    have r' := ih fun other mem => later other (.tail _ mem)
    rw [applyFrom, applyFrom]
    by_cases outside : stop < edit.stop
    · rw [if_pos (.inr outside), if_pos (.inr outside), r']
    · rw [if_neg (by omega), if_neg (by omega)]
      have begins : edit.start - cursor =
          byteLength fst + (edit.start - (cursor + byteLength fst)) := by omega
      have ends : edit.stop - cursor = byteLength fst + (edit.stop - (cursor + byteLength fst)) := by omega
      rw [begins, ends, takeBytes_append, dropBytes_append]
      simp

theorem applyFrom_replace {old new : List Char} (inside : cursor + byteLength old ≤ stop) :
    applyFrom stop (⟨cursor, cursor + byteLength old, String.ofList new⟩ :: edits) cursor (old ++ r) =
      new ++ applyFrom stop edits (cursor + byteLength old) r := by
  have drop := dropBytes_append old r 0
  rw [Nat.add_zero] at drop
  rw [applyFrom, if_neg (by simp only [Nat.lt_irrefl, false_or]; omega)]
  dsimp only
  rw [Nat.sub_self, takeBytes_zero, Nat.add_sub_cancel_left, drop, dropBytes_zero, String.toList_ofList]
  rfl

theorem applyFrom_skip {tl : List Edit} (prev : ∀ edit ∈ edits, edit.start < cursor) :
    applyFrom stop (edits ++ tl) cursor r = applyFrom stop tl cursor r := by
  induction edits with
  | nil => rfl
  | cons edit edits ih =>
    rw [cons_append, applyFrom, if_pos (.inl (prev edit mem_cons_self)),
      ih fun other mem => prev other (.tail _ mem)]

/-- The edits, in order, turn the text that starts at an offset into another one.  Edits
that overlap the one in front of them do nothing. -/
inductive Changed : Nat → List Char → List Edit → List Char → Prop where
  | nil (pos : Nat) : Changed pos [] [] []
  | keep {pos : Nat} {s s' : List Char} {edits : List Edit} (chunk : List Char)
      (later : Changed (pos + byteLength chunk) s edits s') :
      Changed pos (chunk ++ s) edits (chunk ++ s')
  | replace {pos stop : Nat} {s s' : List Char} {overlapping edits : List Edit}
      (old new : List Char) (ends : stop = pos + byteLength old)
      (inside : ∀ edit ∈ overlapping,
        pos ≤ edit.start ∧ edit.start < stop ∧ edit.start ≤ edit.stop)
      (later : Changed stop s edits s') :
      Changed pos (old ++ s) (⟨pos, stop, String.ofList new⟩ :: (overlapping ++ edits))
        (new ++ s')

namespace Changed

variable {pos : Nat} {s' : List Char}

theorem start_le (changed : Changed pos s edits s') :
    ∀ edit ∈ edits, pos ≤ edit.start ∧ edit.start ≤ edit.stop := by
  induction changed with
  | nil pos => intro edit mem; cases mem
  | keep chunk later ih =>
    intro edit mem
    have := ih edit mem
    omega
  | replace old new ends inside later ih =>
    intro edit mem
    rcases mem_cons.1 mem with rfl | mem
    · dsimp only
      omega
    rcases mem_append.1 mem with mem | mem
    · have := inside edit mem
      omega
    · have := ih edit mem
      omega

/-- **Applying the edits gives the new text.** -/
theorem applyFrom {stop : Nat} (changed : Changed pos s edits s') (r : List Char)
    (bounded : pos + byteLength s ≤ stop) : Text.applyFrom stop edits pos (s ++ r) = s' ++ r := by
  induction changed with
  | nil pos => rfl
  | keep chunk later ih =>
    rw [byteLength_append] at bounded
    rw [append_assoc, append_assoc, applyFrom_append stop _ _ _ later.start_le, ih (by omega)]
  | replace old new ends inside later ih =>
    subst ends
    rw [byteLength_append] at bounded
    rw [append_assoc, append_assoc, applyFrom_replace (by omega),
      applyFrom_skip fun edit mem => (inside edit mem).2.1, ih (by omega)]

end Changed

end Text

/-! ## Pieces to write -/

theorem starts_only_words (start : Scan.isNameStart c ∨ c = '\\') :
    c ∉ ['\x60', '\x7d', '\x22', '\x27', '.', '\x23', '/'] ∧ c.isDigit = false := by
  have none : ∀ c ∈ ['\x60', '\x7d', '\x22', '\x27', '.', '\x23', '/'] ++ "0123456789".toList,
      ¬ (Scan.isNameStart c ∨ c = '\\') := forall_mem_of_all (by decide +kernel)
  have digits : ∀ c : Char, c.isDigit → c ∈ "0123456789".toList := by
    intro c digit
    have points : "0123456789".toList.map Char.toNat = range' 48 10 := by decide
    have mem : c.toNat ∈ "0123456789".toList.map Char.toNat := by
      simp only [Char.isDigit, Bool.and_eq_true, decide_eq_true_eq, ge_iff_le,
        UInt32.le_iff_toNat_le] at digit
      rw [points, mem_range'_1]
      exact ⟨digit.1, Nat.lt_succ_of_le digit.2⟩
    obtain ⟨d, inside, eq⟩ := mem_map.1 mem
    exact Char.toNat_inj.1 eq ▸ inside
  constructor
  · intro mem
    exact none c (mem_append_left _ mem) start
  · cases digit : c.isDigit with
    | false => rfl
    | true => exact absurd start (none c (mem_append_right _ (digits c digit)))

theorem read_word (m : Mode) {tl : List Char} (start : Scan.isNameStart c ∨ c = '\\')
    (parts : ∀ d ∈ tl, isWordPart d) (ends : r.head?.any isWordPart = false) :
    m.read (c :: tl ++ r) = some (.plain (Mode.wordKind (c :: tl)) (c :: tl), r) := by
  obtain ⟨os, digit⟩ := starts_only_words start
  simp only [mem_cons, not_mem_nil, or_false, not_or] at os
  obtain ⟨backquote, brace, quote, quote', dot, hash, -⟩ := os
  have run : Scan.run (fun d => Scan.isNamePart d || d == '\\') (tl ++ r) = (tl, r) := run_eq parts ends
  rw [cons_append, Mode.read, if_neg backquote, if_neg (by simp [brace]),
    if_neg (by simp [quote, quote']), if_neg (by simp [digit, dot]), if_neg (by simp [hash]),
    if_pos start, run]

theorem head?_dropWhile (p : Char → Bool) (s : List Char) : (s.dropWhile p).head?.any p = false := by
  induction s with
  | nil => rfl
  | cons c r ih =>
    cases got : p c with
    | true => simpa [got] using ih
    | false => simp [got]

/-- A text that is read as one word. -/
def WordText (s : List Char) : Prop :=
  ∃ c parts, s = c :: parts ∧ (Scan.isNameStart c ∨ c = '\\') ∧ ∀ d ∈ parts, isWordPart d

theorem wordText_of_read (got : m.read s = some (.plain kind w, r)) (isWord : kind = .ident ∨ kind = .keyword) :
    WordText w ∧ kind = Mode.wordKind w ∧ r.head?.any isWordPart = false := by
  cases s with
  | nil => cases got
  | cons c behind =>
    obtain ⟨start, eq, rfl, rfl⟩ := (plain_of_read got).2.1 isWord
    have parts : (Scan.run isWordPart behind).1.all isWordPart := all_takeWhile
    exact ⟨⟨c, _, rfl, start, all_eq_true.1 parts⟩, eq, head?_dropWhile isWordPart behind⟩

theorem word_of_read (got : m.read s = some (.plain .ident w, r)) :
    IsWord (String.ofList w) ∧ r.head?.any isWordPart = false := by
  obtain ⟨⟨c, parts, rfl, start, all⟩, kind, ends⟩ := wordText_of_read got (.inl rfl)
  have free : isReserved (String.ofList (c :: parts)) = false := by
    unfold Mode.wordKind at kind
    split at kind
    · cases kind
    · next free => simpa using free
  exact ⟨⟨c, parts, rfl, start, all, free⟩, ends⟩

theorem wordKind_dollar (tl : List Char) : Mode.wordKind ('$' :: tl) = .ident := by
  have none : ∀ w ∈ keywords, w.toList.head? ≠ some '$' := by decide
  rw [Mode.wordKind, if_neg]
  intro reserved
  have mem : String.ofList ('$' :: tl) ∈ keywords := by simpa [isReserved] using reserved
  have differs := none _ mem
  rw [String.toList_ofList] at differs
  exact differs rfl

theorem IsWord.isWordPart {s : String} (w : IsWord s) : ∀ c ∈ s.toList, Bindery.isWordPart c := by
  obtain ⟨c, tl, rfl, start, parts, -⟩ := w
  intro d mem
  rw [String.toList_ofList] at mem
  rcases mem_cons.1 mem with rfl | mem
  · rcases start with start | rfl
    · simp only [Scan.isNameStart, Bool.or_eq_true] at start
      simp only [Bindery.isWordPart, Scan.isNamePart, isAlphanumeric, Bool.or_eq_true]
      rcases start with (dollar | underscore) | letter
      · simp [dollar]
      · simp [underscore]
      · simp [letter]
    · rfl
  · exact parts d mem

/-- Marks that no other mark goes on from. -/
def singleMarks : List Char :=
  ['(', ')', ';', ',', ':', '\x7b', '\x7d']

theorem punctuator?_single (r : List Char) :
    ∀ c ∈ singleMarks, Scan.punctuator? (c :: r) = some (String.ofList [c]) := by
  intro c mem
  simp only [singleMarks, mem_cons, not_mem_nil, or_false] at mem
  rcases mem with rfl | rfl | rfl | rfl | rfl | rfl | rfl
  all_goals rfl

theorem read_mark (r : List Char) (single : c ∈ singleMarks) (inner : c = '\x7d' → m.braces.head? ≠ some 0) :
    m.read (c :: r) = some (.plain .punct [c], r) := by
  have others : ∀ c ∈ singleMarks, c ≠ '\x60' ∧ c ≠ '\x22' ∧ c ≠ '\x27' ∧ c.isDigit = false ∧
      c ≠ '.' ∧ c ≠ '\x23' ∧ Scan.isNameStart c = false ∧ c ≠ '\\' ∧ c ≠ '/' :=
    forall_mem_of_all (by decide +kernel)
  obtain ⟨backquote, quote, quote', digit, dot, hash, start, backslash, slash⟩ := others c single
  have closes : ¬ (c = '\x7d' ∧ m.braces.head? = some 0) := fun both => inner both.1 both.2
  rw [Mode.read, if_neg backquote, if_neg closes, if_neg (by simp [quote, quote']),
    if_neg (by simp [digit, dot]), if_neg (by simp [hash]), if_neg (by simp [start, backslash]),
    if_neg (by simp [slash]), punctuator?_single r c single]
  simp

theorem read_single (r : List Char) (single : c ∈ singleMarks) (outside : m.braces = []) :
    m.read (c :: r) = some (.plain .punct [c], r) :=
  read_mark r single fun _ => by simp [outside]

def Literal (s : List Char) : Prop :=
  ∃ c tail, s = c :: tail ∧ (c = '\x22' ∨ c = '\x27') ∧
    ∀ r, Scan.stringTail c (tail ++ r) = some (tail, r)

theorem Literal.stop (literal : Literal s) (r : List Char) : Stop (s ++ r) := by
  obtain ⟨c, tail, rfl, quote, -⟩ := literal
  rintro _ ⟨⟩
  exact .inr (.inr (.inr quote))

theorem Literal.starts (literal : Literal s) (r : List Char) : Starts (s ++ r) := by
  obtain ⟨c, tail, rfl, rfl | rfl, -⟩ := literal
  all_goals exact starts_of_ne _ (by decide) (by decide)

theorem read_literal (m : Mode) (literal : Literal s) (r : List Char) :
    m.read (s ++ r) = some (.plain .string s, r) := by
  obtain ⟨c, tail, rfl, quote, ends⟩ := literal
  have others : c ≠ '\x60' ∧ c ≠ '\x7d' := by rcases quote with rfl | rfl <;> decide
  rw [cons_append, Mode.read, if_neg others.1, if_neg fun both => others.2 both.1, if_pos quote, ends]
  rfl

theorem literal_of_read {literal : List Char}
    (got : m.read s = some (.plain .string literal, r)) : Literal literal := by
  cases s with
  | nil => cases got
  | cons c behind =>
    obtain ⟨quote, tail, rfl, inner⟩ := (plain_of_read got).1 rfl
    exact ⟨c, tail, rfl, quote, stringTail_append_right inner⟩

/-! ## Replacements -/

/-- A piece, and others behind it, may be replaced by a piece. -/
inductive Replaces : Piece → List Laid → Piece → Prop where
  | string {old new : List Char} (literal : Literal new) :
      Replaces (.plain .string old) [] (.plain .string new)
  | view (gap name : List Char) :
      Replaces (.plain .ident "viewof".toList) [⟨gap, .plain .ident name⟩]
        (.plain .ident (viewParameterMark.toList ++ name))

/-- The edits, in order, turn the layout that starts at an offset into another one.
Edits that overlap the one in front of them do nothing. -/
inductive Edited : Nat → List Laid → List Edit → List Laid → Prop where
  | nil (pos : Nat) : Edited pos [] [] []
  | keep {pos : Nat} {more more' : List Laid} {edits : List Edit} (laid : Laid)
      (later : Edited (pos + byteLength laid.gap + byteLength laid.piece.text) more edits more') :
      Edited pos (laid :: more) edits (laid :: more')
  | replace {pos start stop : Nat} {piece new : Piece} {others more more' : List Laid}
      {overlapping edits : List Edit} (gap : List Char) (allowed : Replaces piece others new)
      (begins : start = pos + byteLength gap)
      (ends : stop = start + byteLength (piece.text ++ written others))
      (inside : ∀ edit ∈ overlapping, start ≤ edit.start ∧ edit.start < stop ∧ edit.start ≤ edit.stop)
      (later : Edited stop more edits more') :
      Edited pos (⟨gap, piece⟩ :: (others ++ more))
        (⟨start, stop, String.ofList new.text⟩ :: (overlapping ++ edits)) (⟨gap, new⟩ :: more')

namespace Edited

variable {pos : Nat} {ps ps' : List Laid} {edits : List Edit} {r' : List Char}

theorem changed (edited : Edited pos ps edits ps') : Changed pos (written ps) edits (written ps') := by
  induction edited with
  | nil pos => exact .nil pos
  | keep laid later ih =>
    rw [Nat.add_assoc, ← byteLength_append] at ih
    simpa [written] using Changed.keep (laid.gap ++ laid.piece.text) ih
  | @replace pos start stop piece new os tl tl' overlapping edits g allowed begins ends
      inside later ih =>
      subst begins
      simpa [written, written_append] using
        Changed.keep g (.replace (piece.text ++ written os) new.text ends inside ih)

theorem replaced {piece new : Piece} {os : List Laid} {g : List Char} (allowed : Replaces piece os new)
    (valid : Valid m (⟨g, piece⟩ :: os) r) (alike : Alike r r') :
    Valid m [⟨g, new⟩] r' ∧ m.after new = m.run (⟨g, piece⟩ :: os) ∧
      Alike (piece.text ++ (written os ++ r)) (new.text ++ r') := by
  cases allowed with
  | @string old new literal =>
    obtain ⟨isGap, starts, got, -⟩ := valid
    refine ⟨⟨isGap, literal.starts _, read_literal m literal r', trivial⟩, rfl, ?_⟩
    exact .of_look ((literal_of_read got).stop _).look (literal.stop _).look
  | view between n =>
    -- the new word ends where the old one did, in front of no character of a word
    obtain ⟨isGap, -, -, -, -, got, -⟩ := valid
    obtain ⟨w, ends⟩ := word_of_read got
    have split : viewParameterMark.toList ++ n = '$' :: ("viewof$".toList ++ n) := rfl
    have read : m.read ('$' :: ("viewof$".toList ++ n) ++ r') =
        some (.plain (Mode.wordKind ('$' :: ("viewof$".toList ++ n)))
          ('$' :: ("viewof$".toList ++ n)), r') := by
      refine read_word m (.inl (by decide +kernel)) ?_ (alike.wordPart.symm.trans ends)
      intro d mem
      rcases mem_append.1 mem with mem | mem
      · exact (forall_mem_of_all (by decide +kernel) : ∀ d ∈ "viewof$".toList, isWordPart d) d mem
      · exact w.isWordPart d (by rw [String.toList_ofList]; exact mem)
    rw [wordKind_dollar] at read
    rw [split]
    refine ⟨⟨isGap, starts_of_ne _ (by decide) (by decide), read, trivial⟩, rfl, ?_⟩
    exact .of_look (look_of_letter _ (.inl rfl)) (look_of_letter _ (.inr rfl))

/-- **The new layout is read as the old one was**, in front of a text that is alike: every
piece is read at its place, and the lexer ends in the same mode. -/
theorem valid (edited : Edited pos ps edits ps') (valid : Valid m ps r) (alike : Alike r r') :
    Valid m ps' r' ∧ m.run ps' = m.run ps ∧ Alike (written ps ++ r) (written ps' ++ r') := by
  induction edited generalizing m with
  | nil pos => exact ⟨trivial, rfl, alike⟩
  | keep laid later ih =>
    obtain ⟨isGap, starts, got, next⟩ := valid
    obtain ⟨next', run, behind⟩ := ih next
    have ne := text_ne_nil_of_read got
    refine ⟨⟨isGap, behind.starts ne starts, behind.read ne got, next'⟩, run, ?_⟩
    simpa [written] using behind.prepend (laid.gap ++ laid.piece.text)
  | @replace pos start stop piece new os tl tl' overlapping edits g allowed begins ends
      inside later ih =>
      rw [← cons_append, valid_append] at valid
      obtain ⟨pre, back⟩ := valid
      obtain ⟨back', run, behind⟩ := ih back
      obtain ⟨⟨isGap, starts, got, -⟩, m', here⟩ := replaced allowed pre behind
      rw [← m'] at back'
      refine ⟨⟨isGap, starts, got, back'⟩, ?_, ?_⟩
      · rw [← cons_append, Mode.run_append, ← run, ← m']
        rfl
      · simpa [written, written_append] using here.prepend g

end Edited

end Bindery
