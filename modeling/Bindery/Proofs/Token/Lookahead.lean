/-
Proofs.Token.Lookahead -- how far the lexer looks ahead

Most scans stop at a mark of their own: a quote, a slash, a backquote.  Words, numbers
and punctuators stop at a character that cannot continue them, so what follows them
matters, but only by its first character.  A text is quiet (`Look`) when its first
character continues no number and no punctuator; it may still continue a word.  It is
meek (`Meek`) when at most a number in another base goes on into it.
-/
import Bindery.Proofs.Token.Identifier
import Bindery.Proofs.Token.Piece
import Mathlib.Data.List.Find

namespace Bindery

open List Text Scan Option

variable {c quote : Char} {continues inClass : Bool} {text r text' x r' left : List Char}
  {mode mode' : Mode} {piece : Piece} {ps : List Laid}

theorem forall_mem_of_all {α : Type} {p : α → Prop} [DecidablePred p] {items : List α}
    (checked : items.all (fun item => decide (p item))) : ∀ item ∈ items, p item :=
  fun item mem => of_decide_eq_true (all_eq_true.1 checked item mem)

/-! ## Quiet characters -/

/-- A character that may continue a number, a punctuator or the slash of a comment. -/
def isNoisy (c : Char) : Bool :=
  isHexPart c || namesBase c ||
    ['.', '+', '-', 'n', '/', '*', '>', '=', '<', '&', '|', '?'].contains c

/-- A character that may continue a decimal number, a punctuator or the slash of a
comment. -/
def isLoud (c : Char) : Bool :=
  isDigitPart c || namesBase c ||
    ['e', 'E', '.', '+', '-', 'n', '/', '*', '>', '=', '<', '&', '|', '?'].contains c

/-- What can be seen of a text by its first character: that it continues at most the digits
of a number in another base, and whether it continues a word. -/
structure Meek (text : List Char) (continues : Bool) : Prop where
  part : text.head?.any Scan.isNamePart = continues
  wordPart : text.head?.any (fun c => Scan.isNamePart c || c == '\\') = continues
  nameStart : text.head?.any Scan.isNameStart = continues
  calm : text.head?.any isLoud = false

/-- A meek text that continues no number. -/
structure Look (text : List Char) (continues : Bool) : Prop extends Meek text continues where
  quiet : text.head?.any isNoisy = false

def blanks : List Char :=
  [0x09, 0x0A, 0x0B, 0x0C, 0x0D, 0x20, 0x85, 0xA0, 0x1680, 0x2000, 0x2001, 0x2002, 0x2003, 0x2004,
    0x2005, 0x2006, 0x2007, 0x2008, 0x2009, 0x200A, 0x2028, 0x2029, 0x202F, 0x205F, 0x3000].map
    Char.ofNat

theorem mem_blanks (blank : isBlank c) : c ∈ blanks := by
  have points : blanks.map Char.toNat = [0x09, 0x0A, 0x0B, 0x0C, 0x0D, 0x20, 0x85, 0xA0, 0x1680,
      0x2000, 0x2001, 0x2002, 0x2003, 0x2004, 0x2005, 0x2006, 0x2007, 0x2008, 0x2009, 0x200A, 0x2028,
      0x2029, 0x202F, 0x205F, 0x3000] := by decide +kernel
  have mem : c.toNat ∈ blanks.map Char.toNat := by
    rw [points]
    simp only [isBlank, Bool.or_eq_true, Bool.and_eq_true, decide_eq_true_eq, beq_iff_eq] at blank
    simp only [mem_cons, not_mem_nil, or_false]
    omega
  obtain ⟨d, inside, eq⟩ := mem_map.1 mem
  exact Char.toNat_inj.1 eq ▸ inside

theorem isNoisy_of_loud (c : Char) (loud : isLoud c) : isNoisy c := by
  simp only [isLoud, isDigitPart, Bool.or_eq_true] at loud
  rcases loud with ((digit | group) | base) | mark
  · simp [isNoisy, isHexPart, digit]
  · simp [isNoisy, isHexPart, group]
  · simp [isNoisy, base]
  · have marks : ∀ c ∈ ['e', 'E', '.', '+', '-', 'n', '/', '*', '>', '=', '<', '&', '|', '?'],
        isNoisy c := forall_mem_of_all (by decide)
    exact marks c (by simpa using mark)

theorem meek_of_char (r : List Char) (part : isNamePart c = continues) (plain : c ≠ '\\')
    (start : isNameStart c = continues) (calm : isLoud c = false) : Meek (c :: r) continues :=
  ⟨part, by simp [part, plain], start, calm⟩

theorem look_of_char (r : List Char) (part : isNamePart c = continues) (plain : c ≠ '\\')
    (start : isNameStart c = continues) (quiet : isNoisy c = false) : Look (c :: r) continues := by
  refine ⟨meek_of_char r part plain start ?_, quiet⟩
  cases loud : isLoud c with
  | false => rfl
  | true => rw [isNoisy_of_loud c loud] at quiet; cases quiet

theorem look_of_blank (r : List Char) (blank : isBlank c) : Look (c :: r) false := by
  have all : ∀ c ∈ blanks, isNamePart c = false ∧ c ≠ '\\' ∧ isNameStart c = false ∧
      isNoisy c = false := forall_mem_of_all (by decide +kernel)
  obtain ⟨part, backslash, start, quiet⟩ := all c (mem_blanks blank)
  exact look_of_char r part backslash start quiet

/-- A text that begins with white space, a quote, a semicolon or a closing brace, or
that is empty, continues nothing. -/
def Stop (text : List Char) : Prop :=
  ∀ c, text.head? = some c →
    isBlank c = true ∨ c = ';' ∨ c = '\x7d' ∨ c = '\x22' ∨ c = '\x27'

theorem stop_nil : Stop [] := nofun

theorem stop_of_blank (r : List Char) (blank : isBlank c) : Stop (c :: r) := by
  rintro _ ⟨⟩
  exact .inl blank

theorem Stop.look (stop : Stop text) : Look text false := by
  cases text with
  | nil => exact ⟨⟨rfl, rfl, rfl, rfl⟩, rfl⟩
  | cons c r =>
    rcases stop c rfl with blank | rfl | rfl | rfl | rfl
    · exact look_of_blank r blank
    all_goals
      exact look_of_char r (by decide +kernel) (by decide) (by decide +kernel) (by decide)

theorem look_of_letter (r : List Char) (letter : c = 'v' ∨ c = '$') : Look (c :: r) true := by
  rcases letter with rfl | rfl
  all_goals
    exact look_of_char r (by decide +kernel) (by decide) (by decide +kernel) (by decide)

theorem Look.head (look : Look text continues) (eq : text = c :: r) : isNoisy c = false := by
  have := look.quiet
  rw [eq] at this
  exact this

theorem Look.hexPart (look : Look text continues) : text.head?.any isHexPart = false := by
  cases text with
  | nil => rfl
  | cons c r =>
    have quiet := look.head rfl
    simp only [isNoisy, Bool.or_eq_false_iff] at quiet
    exact quiet.1.1

theorem Meek.head (meek : Meek text continues) (eq : text = c :: r) : isLoud c = false := by
  have := meek.calm
  rw [eq] at this
  exact this

/-! ## Scans with a mark of their own -/

theorem ne_backslash (notLast : c = '\\' → r = [] → False)
    (notEscape : ∀ d tl, c = '\\' → r = d :: tl → False) : c ≠ '\\' := by
  intro eq
  cases r with
  | nil => exact notLast eq rfl
  | cons d tl => exact notEscape d tl eq rfl

theorem stringTail_cons (quote : Char) (r : List Char) (plain : c ≠ '\\') :
    stringTail quote (c :: r) = if c = quote then some ([c], r) else if c = '\n' then none
      else (stringTail quote r).map (keep [c]) := by
  rw [stringTail]
  · exact fun eq => absurd eq plain
  · exact fun _ _ eq => absurd eq plain

theorem regexTail_cons (inClass : Bool) (r : List Char) (plain : c ≠ '\\') :
    regexTail inClass (c :: r) = if c = '[' then (regexTail true r).map (keep [c])
      else if c = ']' then (regexTail false r).map (keep [c])
      else if c = '/' ∧ inClass = false then some ([c], r)
      else if c = '\n' then none
      else (regexTail inClass r).map (keep [c]) := by
  rw [regexTail]
  · exact fun eq => absurd eq plain
  · exact fun _ _ eq => absurd eq plain

theorem stringTail_append_right {taken : List Char} (got : stringTail quote text = some (taken, left))
    (tl : List Char) : stringTail quote (taken ++ tl) = some (taken, tl) := by
  fun_induction stringTail quote text generalizing taken with
  | case1 | case2 => cases got
  | case3 c r ih =>
    obtain ⟨⟨inner, behind⟩, got', ⟨⟩⟩ := map_eq_some_iff.1 got
    show stringTail quote ('\\' :: c :: (inner ++ tl)) = _
    rw [stringTail, ih got']
    rfl
  | case4 r notLast notEscape =>
    cases got
    rw [singleton_append, stringTail_cons _ _ (ne_backslash notLast notEscape), if_pos rfl]
  | case5 => cases got
  | case6 c r notLast notEscape other notLine ih =>
    obtain ⟨⟨inner, behind⟩, got', ⟨⟩⟩ := map_eq_some_iff.1 got
    show stringTail quote (c :: (inner ++ tl)) = _
    rw [stringTail_cons _ _ (ne_backslash notLast notEscape), if_neg other, if_neg notLine, ih got']
    rfl

theorem regexTail_append_right {taken : List Char} (got : regexTail inClass text = some (taken, left))
    (tl : List Char) : regexTail inClass (taken ++ tl) = some (taken, tl) := by
  fun_induction regexTail inClass text generalizing taken with
  | case1 | case2 => cases got
  | case3 inClass c r ih =>
    obtain ⟨⟨inner, behind⟩, got', ⟨⟩⟩ := map_eq_some_iff.1 got
    show regexTail inClass ('\\' :: c :: (inner ++ tl)) = _
    rw [regexTail, ih got']
    rfl
  | case4 inClass r _ _ ih =>
    obtain ⟨⟨inner, behind⟩, got', ⟨⟩⟩ := map_eq_some_iff.1 got
    show regexTail inClass ('[' :: (inner ++ tl)) = _
    rw [regexTail_cons _ _ (by decide), if_pos rfl, ih got']
    rfl
  | case5 inClass r _ _ opens ih =>
    obtain ⟨⟨inner, behind⟩, got', ⟨⟩⟩ := map_eq_some_iff.1 got
    show regexTail inClass (']' :: (inner ++ tl)) = _
    rw [regexTail_cons _ _ (by decide), if_neg opens, if_pos rfl, ih got']
    rfl
  | case6 inClass c r notLast notEscape opens closes stop =>
    cases got
    rw [singleton_append, regexTail_cons _ _ (ne_backslash notLast notEscape), if_neg opens,
      if_neg closes, if_pos stop]
  | case7 => cases got
  | case8 inClass c r notLast notEscape opens closes goes notLine ih =>
    obtain ⟨⟨inner, behind⟩, got', ⟨⟩⟩ := map_eq_some_iff.1 got
    show regexTail inClass (c :: (inner ++ tl)) = _
    rw [regexTail_cons _ _ (ne_backslash notLast notEscape), if_neg opens, if_neg closes,
      if_neg goes, if_neg notLine, ih got']
    rfl

theorem templateText_append_right {chunk : List Char} {mark : Scan.TemplateEnd}
    (got : templateText text = some (chunk, mark, left)) (tl : List Char) :
    templateText (chunk ++ mark.text ++ tl) = some (chunk, mark, tl) := by
  fun_induction templateText text generalizing chunk with
  | case1 | case2 => cases got
  | case3 c r ih =>
    obtain ⟨⟨inner, ending, behind⟩, got', ⟨⟩⟩ := map_eq_some_iff.1 got
    show templateText ('\\' :: c :: (inner ++ mark.text ++ tl)) = _
    rw [templateText, ih got']
    rfl
  | case4 r | case5 r =>
    cases got
    simp [Scan.TemplateEnd.text, templateText]
  | case6 c r notLast notEscape notClosed notOpened ih =>
    obtain ⟨⟨inner, ending, behind⟩, got', ⟨⟩⟩ := map_eq_some_iff.1 got
    have plain := ne_backslash notLast notEscape
    have whole := templateText_append got'
    show templateText (c :: (inner ++ mark.text ++ tl)) = _
    rw [templateText, ih got']
    · rfl
    · exact fun eq => absurd eq plain
    · exact fun _ _ eq => absurd eq plain
    · exact notClosed
    · intro later dollar absurd
      -- the brace would have stood there before
      cases inner with
      | nil => cases mark <;> cases absurd
      | cons d inner =>
        injection absurd with head
        subst head
        exact notOpened _ dollar whole.symm

/-! ## Scans that look one character ahead -/

section Quiet

variable {s : List Char} {p : Char → Bool} {w : List Char}

theorem Meek.none (meek : Meek s continues) (loud : ∀ c, p c → isLoud c) : s.head?.any p = false := by
  cases s with
  | nil => rfl
  | cons c r =>
    have calm := meek.head rfl
    cases got : p c with
    | false => exact got
    | true =>
      rw [loud c got] at calm
      cases calm

theorem run_quiet (quiet : s.head?.any p = false) (w : List Char) :
    run p (w ++ s) = ((run p w).1, (run p w).2 ++ s) := by
  unfold run
  induction w with
  | nil =>
    cases s with
    | nil => rfl
    | cons c r =>
      have : p c = false := quiet
      simp [this]
  | cons d w ih =>
    cases got : p d with
    | true => simpa [got] using ih
    | false => simp [got]

theorem isLoud_of_digitPart (c : Char) (part : isDigitPart c) : isLoud c := by
  simp [isLoud, part]

theorem isLoud_of_digit (c : Char) (digit : c.isDigit) : isLoud c :=
  isLoud_of_digitPart c (by simp [isDigitPart, digit])

theorem isNoisy_of_digit (c : Char) (digit : c.isDigit) : isNoisy c :=
  isNoisy_of_loud c (isLoud_of_digit c digit)

def continuesNumber (c : Char) : Bool :=
  isDigitPart c || ['e', 'E', '+', '-', 'n'].contains c

theorem isLoud_of_continuesNumber (c : Char) (held : continuesNumber c) : isLoud c := by
  simp only [continuesNumber, Bool.or_eq_true] at held
  rcases held with part | mark
  · exact isLoud_of_digitPart c part
  · have marks : ∀ c ∈ ['e', 'E', '+', '-', 'n'], isLoud c := forall_mem_of_all (by decide)
    exact marks c (by simpa using mark)

theorem head?_quiet (quiet : s.head?.any continuesNumber = false)
    (part : ∀ c, p c → continuesNumber c) : s.head?.any p = false := by
  cases s with
  | nil => rfl
  | cons c r =>
    cases got : p c with
    | false => exact got
    | true =>
      have : continuesNumber c = false := quiet
      rw [part c got] at this
      cases this

theorem continuesNumber_of_digitPart (c : Char) (part : isDigitPart c) : continuesNumber c := by
  simp [continuesNumber, part]

theorem fraction_cons {c : Char} (other : c ≠ '.') (r : List Char) : fraction (c :: r) = ([], c :: r) := by
  rw [fraction]
  intro r' absurd
  injection absurd with head
  exact other head

theorem fraction_quiet (quiet : s.head?.any continuesNumber = false) (leaves : w ≠ [] ∨ s.head? ≠ some '.') :
    fraction (w ++ s) = ((fraction w).1, (fraction w).2 ++ s) := by
  cases w with
  | nil =>
    cases s with
    | nil => rfl
    | cons c r =>
      refine fraction_cons ?_ r
      rintro rfl
      exact leaves.elim (· rfl) (· rfl)
  | cons d w =>
    by_cases point : d = '.'
    · subst point
      show keep ['.'] (run isDigitPart (w ++ s)) = _
      rw [run_quiet (head?_quiet quiet continuesNumber_of_digitPart)]
      rfl
    · rw [cons_append, fraction_cons point, fraction_cons point]
      rfl

theorem sign_quiet (quiet : s.head?.any continuesNumber = false) (w : List Char) :
    sign (w ++ s) = ((sign w).1, (sign w).2 ++ s) := by
  cases w with
  | nil =>
    cases s with
    | nil => rfl
    | cons c r =>
      have calm : continuesNumber c = false := quiet
      have other : ¬ (c = '+' ∨ c = '-') := by
        rintro (rfl | rfl)
        all_goals exact absurd calm (by decide)
      show sign (c :: r) = ([], c :: r)
      rw [sign, if_neg other]
  | cons d w =>
    rw [cons_append, sign, sign]
    split <;> rfl

theorem head?_append_digit (quiet : s.head?.any Char.isDigit = false) (w : List Char) :
    (w ++ s).head?.any Char.isDigit = w.head?.any Char.isDigit := by
  cases w with
  | nil => exact quiet
  | cons d w => rfl

theorem head?_append_quiet (meek : Meek s continues) (w : List Char) :
    (w ++ s).head?.any Char.isDigit = w.head?.any Char.isDigit :=
  head?_append_digit (meek.none isLoud_of_digit) w

theorem exponent_quiet (quiet : s.head?.any continuesNumber = false) (w : List Char) :
    exponent (w ++ s) = ((exponent w).1, (exponent w).2 ++ s) := by
  cases w with
  | nil =>
    cases s with
    | nil => rfl
    | cons c r =>
      have calm : continuesNumber c = false := quiet
      have other : ¬ (c = 'e' ∨ c = 'E') := by
        rintro (rfl | rfl)
        all_goals exact absurd calm (by decide)
      show exponent (c :: r) = ([], c :: r)
      unfold exponent
      dsimp only
      rw [if_neg fun marked => other marked.1]
  | cons d w =>
    unfold exponent
    dsimp only [cons_append]
    rw [sign_quiet quiet, head?_append_digit (head?_quiet quiet fun c digit =>
      continuesNumber_of_digitPart c (by simp [isDigitPart, digit]))]
    dsimp only
    split
    · rw [run_quiet (head?_quiet quiet continuesNumber_of_digitPart)]
      rfl
    · rfl

theorem bigMark_cons {c : Char} (other : c ≠ 'n') (r : List Char) : bigMark (c :: r) = ([], c :: r) := by
  rw [bigMark]
  intro r' absurd
  injection absurd with head
  exact other head

theorem bigMark_quiet (quiet : s.head?.any continuesNumber = false) (w : List Char) :
    bigMark (w ++ s) = ((bigMark w).1, (bigMark w).2 ++ s) := by
  cases w with
  | nil =>
    cases s with
    | nil => rfl
    | cons c r =>
      have calm : continuesNumber c = false := quiet
      refine bigMark_cons ?_ r
      rintro rfl
      exact absurd calm (by decide)
  | cons d w =>
    by_cases big : d = 'n'
    · subst big
      rfl
    · rw [cons_append, bigMark_cons big, bigMark_cons big]
      rfl

/-- A decimal number goes on into what follows it only by its digits or by a point right
behind them. -/
theorem decimal_quiet (quiet : s.head?.any continuesNumber = false)
    (leaves : (run isDigitPart w).2 ≠ [] ∨ s.head? ≠ some '.') :
    magnitude.decimal (w ++ s) = ((magnitude.decimal w).1, (magnitude.decimal w).2 ++ s) := by
  unfold magnitude.decimal
  rw [run_quiet (head?_quiet quiet continuesNumber_of_digitPart)]
  dsimp only
  rw [fraction_quiet quiet leaves]
  dsimp only
  rw [exponent_quiet quiet]

theorem magnitude_based {base : Char} (ns : namesBase base) (r : List Char) :
    magnitude ('0' :: base :: r) = keep ['0', base] (run isHexPart r) :=
  if_pos ns

/-- A text that starts no number in another base. -/
def IsDecimal (text : List Char) : Prop :=
  ∀ base r, text = '0' :: base :: r → namesBase base = false

theorem magnitude_decimal {text : List Char} (decimal : IsDecimal text) :
    magnitude text = magnitude.decimal text := by
  unfold magnitude
  split
  · next base r => rw [if_neg (by simp [decimal base r rfl])]
  · rfl

theorem IsDecimal.append (ne : w ≠ []) (ns : s.head?.any namesBase = false)
    (decimal : IsDecimal w) : IsDecimal (w ++ s) := by
  intro base r eq
  cases w with
  | nil => exact absurd rfl ne
  | cons d w =>
    injection eq with fst tl
    cases w with
    | nil =>
      have head : s = base :: r := tl
      rw [head] at ns
      exact ns
    | cons b w =>
      injection tl with snd
      subst fst snd
      exact decimal _ _ rfl

theorem based_or_decimal (w : List Char) : (∃ base r, w = '0' :: base :: r ∧ namesBase base) ∨ IsDecimal w := by
  by_cases zero : ∃ base r, w = '0' :: base :: r ∧ namesBase base
  · exact .inl zero
  · refine .inr fun base r eq => ?_
    cases ns : namesBase base with
    | false => rfl
    | true => exact absurd ⟨base, r, eq, ns⟩ zero

theorem number_of_decimal (quiet : s.head?.any continuesNumber = false) (ns : s.head?.any namesBase = false)
    (ne : w ≠ []) (leaves : (run isDigitPart w).2 ≠ [] ∨ s.head? ≠ some '.') (decimal : IsDecimal w) :
    number (w ++ s) = ((number w).1, (number w).2 ++ s) := by
  unfold number
  rw [magnitude_decimal (decimal.append ne ns), magnitude_decimal decimal, decimal_quiet quiet leaves]
  dsimp only
  rw [bigMark_quiet quiet]
  rfl

theorem number_decimal (meek : Meek s continues) (ne : w ≠ []) (decimal : IsDecimal w) :
    number (w ++ s) = ((number w).1, (number w).2 ++ s) := by
  refine number_of_decimal (meek.none isLoud_of_continuesNumber) (meek.none fun c ns => by simp [isLoud, ns])
    ne (.inr fun point => ?_) decimal
  obtain ⟨r, eq⟩ := head?_eq_some_iff.1 point
  exact absurd (meek.head eq) (by decide)

theorem number_quiet (look : Look s continues) (ne : w ≠ []) :
    number (w ++ s) = ((number w).1, (number w).2 ++ s) := by
  rcases based_or_decimal w with ⟨base, r, rfl, ns⟩ | decimal
  · unfold number
    rw [cons_append, cons_append, magnitude_based ns, magnitude_based ns, run_quiet look.hexPart]
    dsimp only [keep]
    rw [bigMark_quiet (look.toMeek.none isLoud_of_continuesNumber)]
  · exact number_decimal look.toMeek ne decimal

end Quiet

section Swap

variable {s s' : List Char} {w m taken : List Char} {p : Char → Bool} {base : Char}

theorem isPrefixOf_quiet (meek : Meek s continues) (marks w : List Char) (loud : ∀ c ∈ marks, isLoud c) :
    marks.isPrefixOf (w ++ s) = marks.isPrefixOf w := by
  induction marks generalizing w with
  | nil => simp
  | cons mark marks ih =>
    cases w with
    | nil =>
      cases s with
      | nil => rfl
      | cons c r =>
        have other : mark ≠ c := by
          rintro rfl
          have calm := meek.head rfl
          rw [loud mark mem_cons_self] at calm
          cases calm
        simp [isPrefixOf, other]
    | cons d w =>
      rw [cons_append, isPrefixOf, isPrefixOf, ih w fun c mem => loud c (.tail _ mem)]

theorem punctuator?_quiet (meek : Meek s continues) (ne : w ≠ []) : punctuator? (w ++ s) = punctuator? w := by
  have tails : ∀ mark ∈ punctuators, ∀ c ∈ mark.toList.tail, isLoud c := by
    have checked : punctuators.all (fun mark => mark.toList.tail.all isLoud) := by decide
    exact fun mark mem => all_eq_true.1 (all_eq_true.1 checked mark mem)
  have nonblank : ∀ mark ∈ punctuators, mark.toList ≠ [] := by decide
  have starts : punctuators.find? (fun mark => mark.toList.isPrefixOf (w ++ s)) =
      punctuators.find? (fun mark => mark.toList.isPrefixOf w) := by
    refine List.find?_congr fun mark mem => ?_
    have loud := tails mark mem
    cases fst : mark.toList with
    | nil => exact absurd fst (nonblank mark mem)
    | cons c marks =>
      rw [fst] at loud
      cases w with
      | nil => exact absurd rfl ne
      | cons d w =>
        rw [cons_append, isPrefixOf, isPrefixOf, isPrefixOf_quiet meek marks w loud]
  unfold punctuator?
  rw [starts]
  split
  · next mark got =>
    by_cases question : mark = "?."
    · subst question
      have isPrefix := find?_some got
      obtain ⟨tl, rfl⟩ := isPrefixOf_iff_prefix.1 isPrefix
      have left : ("?.".toList ++ tl ++ s).drop 2 = tl ++ s := rfl
      have right : ("?.".toList ++ tl).drop 2 = tl := rfl
      rw [left, right, head?_append_quiet meek]
    · rw [if_neg fun both => question both.1, if_neg fun both => question both.1]
  · rfl

/-- A run that ends in front of a text does so in front of another one that continues it no
more; one that ends earlier does not see the text. -/
theorem run_swap (eq : m = [] → s.head?.any p = s'.head?.any p)
    (got : run p (w ++ s) = (taken, m ++ s)) : run p (w ++ s') = (taken, m ++ s') := by
  induction w generalizing taken with
  | nil =>
    have whole := run_append p s
    rw [nil_append] at got
    rw [got, ← append_assoc] at whole
    obtain ⟨rfl, rfl⟩ := append_eq_nil_iff.1 (append_left_eq_self.1 whole)
    have stops : s.head?.any p = false := by
      cases s with
      | nil => rfl
      | cons c r =>
        cases held : p c with
        | false => exact held
        | true => simp [run, held] at got
    rw [eq rfl] at stops
    exact run_quiet stops []
  | cons d w ih =>
    cases held : p d with
    | true =>
      have step : ∀ r, run p (d :: r) =
          (d :: (run p r).1, (run p r).2) := fun r => by
        simp [run, held]
      rw [cons_append, step] at got ⊢
      injection got with fst snd
      rw [ih (Prod.ext rfl snd), fst]
    | false =>
      have step : ∀ r, run p (d :: r) = ([], d :: r) := fun r => by
        simp [run, held]
      rw [cons_append, step] at got ⊢
      injection got with fst snd
      rw [← cons_append] at snd
      rw [← fst, ← append_cancel_right snd]
      rfl

theorem number_based (quiet : s.head?.any continuesNumber = false) {digits : List Char} (ns : namesBase base)
    (got : run isHexPart (w ++ s) = (digits, m ++ s)) :
    number ('0' :: base :: w ++ s) = ('0' :: base :: digits ++ (bigMark m).1, (bigMark m).2 ++ s) := by
  unfold number
  rw [cons_append, cons_append, magnitude_based ns, got]
  dsimp only [keep]
  rw [bigMark_quiet quiet]
  rfl

theorem run_of_number (meek : Meek s continues) (ns : namesBase base)
    (got : number ('0' :: base :: w ++ s) = (taken, m ++ s)) :
    ∃ digits left, run isHexPart (w ++ s) = (digits, left ++ s) ∧
      taken = '0' :: base :: digits ++ (bigMark left).1 ∧ m = (bigMark left).2 := by
  obtain ⟨left, split⟩ : ∃ left, (run isHexPart (w ++ s)).2 = left ++ s := by
    have mark := bigMark_append (run isHexPart (w ++ s)).2
    unfold number at got
    rw [cons_append, cons_append, magnitude_based ns] at got
    have rest : (bigMark (run isHexPart (w ++ s)).2).2 = m ++ s := congrArg Prod.snd got
    exact ⟨_, by rw [← mark, rest, ← append_assoc]⟩
  have run : run isHexPart (w ++ s) = (_, left ++ s) := Prod.ext rfl split
  rw [number_based (meek.none isLoud_of_continuesNumber) ns run] at got
  injection got with fst snd
  exact ⟨_, left, run, fst.symm, (append_cancel_right snd).symm⟩

/-- A number that ends in front of a meek text ends there in front of another one, unless
its digits go on at once. -/
theorem number_swap (meek : Meek s continues) (meek' : Meek s' continues) (ne : w ≠ [])
    (eq : m = [] → s.head?.any isHexPart = s'.head?.any isHexPart) (got : number (w ++ s) = (taken, m ++ s)) :
    number (w ++ s') = (taken, m ++ s') := by
  rcases based_or_decimal w with ⟨base, tl, rfl, ns⟩ | decimal
  · obtain ⟨digits, left, run, rfl, rfl⟩ := run_of_number meek ns got
    have stops : left = [] → s.head?.any isHexPart = s'.head?.any isHexPart := by
      rintro rfl
      exact eq rfl
    exact number_based (meek'.none isLoud_of_continuesNumber) ns (run_swap stops run)
  · rw [number_decimal meek ne decimal] at got
    injection got with fst snd
    rw [number_decimal meek' ne decimal, fst, append_cancel_right snd]

/-- **A number in front of a letter** ends where it did, or takes the one letter. -/
theorem number_letter (meek : Meek s continues) {c : Char} {r : List Char}
    (meek' : Meek (c :: r) continues) (stops : r.head?.any isHexPart = false)
    (small : r.head? ≠ some 'n') (ne : w ≠ []) (got : Scan.number (w ++ s) = (w, s)) :
    Scan.number (w ++ c :: r) = (w, c :: r) ∨ Scan.number (w ++ c :: r) = (w ++ [c], r) := by
  rcases based_or_decimal w with ⟨base, tl, rfl, ns⟩ | decimal
  · obtain ⟨digits, left, run, taken, none⟩ := run_of_number meek ns (m := []) got
    cases left with
    | cons d left =>
      have run' : Scan.run isHexPart (tl ++ c :: r) = (digits, d :: left ++ c :: r) :=
        run_swap (fun empty => by cases empty) run
      refine .inl ?_
      rw [number_based (meek'.none isLoud_of_continuesNumber) ns run', ← taken, ← none]
      rfl
    | nil =>
      have whole : tl = digits := by
        have := Scan.run_append isHexPart (tl ++ s)
        rw [run] at this
        exact (append_cancel_right this).symm
      have parts : ∀ d ∈ tl, isHexPart d := by
        intro d mem
        have held : ∀ d ∈ (Scan.run isHexPart (tl ++ s)).1, isHexPart d := all_eq_true.1 all_takeWhile
        rw [run] at held
        exact held d (whole ▸ mem)
      cases hex : isHexPart c with
      | false =>
        have run' : Scan.run isHexPart (tl ++ c :: r) = (tl, [] ++ c :: r) := run_eq parts hex
        refine .inl ?_
        rw [number_based (meek'.none isLoud_of_continuesNumber) ns run']
        simp [bigMark]
      | true =>
        have run' : Scan.run isHexPart (tl ++ c :: r) = (tl ++ [c], r) := by
          have longer : ∀ d ∈ tl ++ [c], isHexPart d := by
            intro d mem
            rcases mem_append.1 mem with mem | mem
            · exact parts d mem
            · exact mem_singleton.1 mem ▸ hex
          simpa using run_eq longer stops
        have mark : bigMark r = ([], r) := by
          cases r with
          | nil => rfl
          | cons d r =>
            refine bigMark_cons ?_ r
            rintro rfl
            exact small rfl
        refine .inr ?_
        unfold Scan.number
        rw [cons_append, cons_append, magnitude_based ns, run']
        dsimp only [Scan.keep]
        rw [mark]
        simp
  · rw [number_decimal meek ne decimal] at got
    injection got with fst snd
    refine .inl ?_
    rw [number_decimal meek' ne decimal, fst, append_left_eq_self.1 snd]
    rfl

/-- Two texts that words and punctuators in front of them do not tell apart. -/
structure Unseen (s s' : List Char) : Prop where
  digit : s.head?.any Char.isDigit = s'.head?.any Char.isDigit
  part : s.head?.any Scan.isNamePart = s'.head?.any Scan.isNamePart
  wordPart : s.head?.any (fun c => Scan.isNamePart c || c == '\\') =
    s'.head?.any (fun c => Scan.isNamePart c || c == '\\')
  nameStart : s.head?.any Scan.isNameStart = s'.head?.any Scan.isNameStart
  punctuator : ∀ {w : List Char}, w ≠ [] → Scan.punctuator? (w ++ s) = Scan.punctuator? (w ++ s')

theorem Meek.unseen (meek : Meek s continues) (meek' : Meek s' continues) : Unseen s s' where
  digit := (meek.none isLoud_of_digit).trans (meek'.none isLoud_of_digit).symm
  part := meek.part.trans meek'.part.symm
  wordPart := meek.wordPart.trans meek'.wordPart.symm
  nameStart := meek.nameStart.trans meek'.nameStart.symm
  punctuator := fun ne =>
    (punctuator?_quiet meek ne).trans (punctuator?_quiet meek' ne).symm

theorem Unseen.head?_any (eq : s.head?.any p = s'.head?.any p) (w : List Char) :
    (w ++ s).head?.any p = (w ++ s').head?.any p := by
  cases w with
  | nil => exact eq
  | cons d w => rfl

/-- **A piece in front of one text is read in front of another** that is not told apart from
it, if numbers are. -/
theorem Unseen.read (unseen : Unseen s s') (ne : x ≠ [])
    (number : ∀ {digits}, piece = .plain .number digits → number (x ++ s) = (digits, m ++ s) → number (x ++ s') = (digits, m ++ s'))
    (got : mode.read (x ++ s) = some (piece, m ++ s)) :
    mode.read (x ++ s') = some (piece, m ++ s') := by
  cases x with
  | nil => exact absurd rfl ne
  | cons c w =>
    have template : ∀ {build : List Char → Scan.TemplateEnd → Piece},
        Mode.readTemplate build (w ++ s) = some (piece, m ++ s) →
        Mode.readTemplate build (w ++ s') = some (piece, m ++ s') := by
      intro build read
      obtain ⟨⟨chunk, mark, later⟩, inner, eq⟩ := map_eq_some_iff.1 read
      cases eq
      have whole := templateText_append inner
      rw [← append_assoc] at whole
      rw [← append_cancel_right whole, Mode.readTemplate, append_assoc, templateText_append_right inner]
      rfl
    have digit := Unseen.head?_any unseen.digit w
    have start := Unseen.head?_any unseen.nameStart w
    rw [cons_append] at got ⊢
    unfold Mode.read at got ⊢
    dsimp only at got ⊢
    rw [← digit, ← start]
    split
    · next eq =>
        rw [if_pos eq] at got
        exact template got
    next other =>
    rw [if_neg other] at got
    split
    · next eq =>
        rw [if_pos eq] at got
        exact template got
    next other =>
    rw [if_neg other] at got
    split
    · next eq =>
        rw [if_pos eq] at got
        obtain ⟨⟨taken, behind⟩, inner, eq⟩ := map_eq_some_iff.1 got
        cases eq
        have whole : taken ++ m ++ s = w ++ s := (append_assoc _ _ _).trans (stringTail_append inner)
        rw [← append_cancel_right whole, append_assoc, stringTail_append_right inner]
        rfl
    next other =>
    rw [if_neg other] at got
    split
    · next digit =>
        rw [if_pos digit, ← cons_append] at got
        injection got with got
        injection got with fst snd
        rw [← cons_append, number fst.symm (Prod.ext rfl snd), fst]
    next other =>
    rw [if_neg other] at got
    split
    · next eq =>
        rw [if_pos eq] at got
        injection got with got
        injection got with fst snd
        rw [run_swap (fun _ => unseen.part) (Prod.ext rfl snd), fst]
    next other =>
    rw [if_neg other] at got
    split
    · next eq =>
        rw [if_pos eq] at got
        injection got with got
        injection got with fst snd
        rw [run_swap (fun _ => unseen.wordPart) (Prod.ext rfl snd), fst]
    next other =>
    rw [if_neg other] at got
    split
    · next eq =>
        rw [if_pos eq] at got
        obtain ⟨⟨taken, behind⟩, inner, eq⟩ := map_eq_some_iff.1 got
        injection eq with fst snd
        have whole := regexTail_append inner
        have flags := run_append isNamePart behind
        dsimp only at fst snd whole
        generalize named : (run isNamePart behind).1 = n at fst flags
        rw [snd, ← append_assoc] at flags
        have split : w = taken ++ (n ++ m) := by
          rw [← flags, ← append_assoc] at whole
          exact (append_cancel_right whole).symm
        have stops : run isNamePart (n ++ m ++ s') = (n, m ++ s') :=
          run_swap (fun _ => unseen.part) (by rw [flags]; exact Prod.ext named snd)
        rw [split, append_assoc, regexTail_append_right inner, map_some]
        dsimp only
        rw [stops, ← fst]
    next other =>
    rw [if_neg other] at got
    rw [← cons_append] at got
    obtain ⟨mark, inner, eq⟩ := map_eq_some_iff.1 got
    injection eq with fst snd
    have fits : mark.length ≤ (c :: w).length := by
      have inside := (prefix_of_punctuator inner).length_le
      have left := congrArg length snd
      rw [String.length_toList, length_append] at inside
      rw [length_drop, length_append, length_append] at left
      omega
    rw [unseen.punctuator (cons_ne_nil _ _)] at inner
    rw [drop_append_of_le_length fits] at snd
    rw [← cons_append, inner, map_some, fst, drop_append_of_le_length fits, append_cancel_right snd]

/-- **A piece in front of one meek text is read in front of another**, unless it is a number
whose digits go on at once. -/
theorem read_swap (meek : Meek s continues) (meek' : Meek s' continues) (ne : x ≠ [])
    (eq : ∀ digits, piece = .plain .number digits → m = [] → s.head?.any isHexPart = s'.head?.any isHexPart)
    (got : mode.read (x ++ s) = some (piece, m ++ s)) : mode.read (x ++ s') = some (piece, m ++ s') :=
  (meek.unseen meek').read ne (fun isNumber number => number_swap meek meek' ne (eq _ isNumber) number) got

end Swap

/-! ## Numbers -/

section Number

theorem read_number (fst : c.isDigit ∨ (c = '.' ∧ r.head?.any Char.isDigit)) :
    mode.read (c :: r) = some (.plain .number (number (c :: r)).1, (number (c :: r)).2) := by
  have other : c ∉ ['\x60', '\x7d', '\x22', '\x27'] := by
    intro mem
    simp only [mem_cons, not_mem_nil, or_false] at mem
    rcases mem with rfl | rfl | rfl | rfl <;> simp at fst
  simp only [mem_cons, not_mem_nil, or_false, not_or] at other
  rw [Mode.read, if_neg other.1, if_neg fun both => other.2.1 both.1,
    if_neg fun quote => quote.elim other.2.2.1 other.2.2.2, if_pos fst]

theorem plain_of_read {kind : TokenKind} {behind lexeme : List Char}
    (got : mode.read (c :: behind) = some (.plain kind lexeme, r)) :
    (kind = .string → (c = '\x22' ∨ c = '\x27') ∧ ∃ tail, lexeme = c :: tail ∧
      stringTail c behind = some (tail, r)) ∧
      (kind = .ident ∨ kind = .keyword → (isNameStart c ∨ c = '\\') ∧
        kind = Mode.wordKind lexeme ∧ lexeme = c :: (run isWordPart behind).1 ∧
        r = (run isWordPart behind).2) ∧
      (kind = .number → (c.isDigit ∨ (c = '.' ∧ behind.head?.any Char.isDigit)) ∧
        number (c :: behind) = (lexeme, r)) := by
  cases takes_of_read got with
  | string quote inner => exact ⟨fun _ => ⟨quote, _, rfl, inner⟩, by simp, by simp⟩
  | number fst => exact ⟨by simp, by simp, fun _ => ⟨fst, rfl⟩⟩
  | word start =>
    refine ⟨?_, fun _ => ⟨start, rfl, rfl, rfl⟩, ?_⟩
    all_goals
      unfold Mode.wordKind
      split <;> (intro absurd; cases absurd)
  | _ => exact ⟨by simp, by simp, by simp⟩

/-- **A number in front of a letter** is read as before, or with the one letter. -/
theorem read_number_letter {s w : List Char} {continues : Bool} (meek : Meek s continues)
    (meek' : Meek (c :: r) continues) (stops : r.head?.any isHexPart = false) (small : r.head? ≠ some 'n')
    (got : mode.read (w ++ s) = some (.plain .number w, s)) (ne : w ≠ []) :
    mode.read (w ++ c :: r) = some (.plain .number w, c :: r) ∨
      mode.read (w ++ c :: r) = some (.plain .number (w ++ [c]), r) := by
  cases w with
  | nil => exact absurd rfl ne
  | cons d w =>
    rw [cons_append] at got
    obtain ⟨fst, number⟩ := (plain_of_read got).2.2 rfl
    rw [head?_append_quiet meek, ← head?_append_quiet meek'] at fst
    rw [← cons_append] at number
    rw [cons_append, read_number fst, ← cons_append]
    rcases number_letter meek meek' stops small ne number with eq | longer
    · exact .inl (by rw [eq])
    · exact .inr (by rw [longer])

end Number

/-! ## The last character of a piece -/

section Last

theorem visible_of {p : Char → Bool} (hidden : isBlank c → p c = false) (held : p c) : isBlank c = false := by
  cases blank : isBlank c with
  | false => rfl
  | true => rw [hidden blank] at held; cases held

theorem visible_of_noisy (noisy : isNoisy c) : isBlank c = false :=
  visible_of (fun blank => (look_of_blank [] blank).head rfl) noisy

theorem visible_of_namePart (part : isNamePart c) : isBlank c = false :=
  visible_of (fun blank => (look_of_blank [] blank).part) part

theorem visible_of_nameStart (start : isNameStart c) : isBlank c = false :=
  visible_of (fun blank => (look_of_blank [] blank).nameStart) start

theorem mem_run {p : Char → Bool} (mem : c ∈ (run p text).1) : p c := all_eq_true.1 all_takeWhile c mem

/-- A number does not end with white space: it would have ended in front of it. -/
theorem visible_of_number {w : List Char} (ne : w ≠ []) (taken : (number text).1 = w ++ [c]) :
    isBlank c = false := by
  refine Bool.eq_false_iff.2 fun blank => ?_
  have whole := number_append text
  rw [taken, append_assoc, singleton_append] at whole
  have early := congrArg Prod.fst (number_quiet (look_of_blank (number text).2 blank) ne)
  rw [whole, taken] at early
  have length := congrArg length (number_append w)
  rw [← show _ = (number w).1 from early] at length
  simp at length

theorem getLast?_of_keep {pre taken r : List Char} {res : Option (List Char × List Char)}
    {last : Char} (ends : ∀ {inner behind}, res = some (inner, behind) → inner.getLast? = some last)
    (got : res.map (keep pre) = some (taken, r)) : taken.getLast? = some last := by
  obtain ⟨⟨inner, behind⟩, got', eq⟩ := map_eq_some_iff.1 got
  cases eq
  rw [getLast?_append, ends got']
  rfl

theorem getLast?_stringTail :
    ∀ {taken r : List Char}, stringTail quote text = some (taken, r) → taken.getLast? = some quote := by
  fun_induction stringTail quote text with
  | case1 | case2 | case5 => intro taken r got; cases got
  | case3 _ _ ih | case6 _ _ _ _ _ _ ih =>
    intro taken left got
    exact getLast?_of_keep ih got
  | case4 =>
    rintro taken left ⟨⟩
    rfl

theorem getLast?_regexTail :
    ∀ {taken r : List Char}, regexTail inClass text = some (taken, r) → taken.getLast? = some '/' := by
  fun_induction regexTail inClass text with
  | case1 | case2 | case7 => intro taken r got; cases got
  | case3 _ _ _ ih | case4 _ _ _ _ ih | case5 _ _ _ _ _ ih | case8 _ _ _ _ _ _ _ _ _ ih =>
    intro taken left got
    exact getLast?_of_keep ih got
  | case6 inClass c r _ _ _ _ stop =>
    rintro taken left ⟨⟩
    rw [stop.1]
    rfl

theorem last_of_all {p : Char → Prop} (ne : text ≠ []) (all : ∀ c ∈ text, p c) :
    ∃ c, text.getLast? = some c ∧ p c :=
  ⟨text.getLast ne, getLast?_eq_some_getLast ne, all _ (getLast_mem ne)⟩

theorem mem_of_punctuator? {mark : String} (got : punctuator? text = some mark) :
    mark ∈ "?" :: punctuators := by
  unfold punctuator? at got
  split at got
  · next longest matched =>
    split at got
    · cases got
      exact mem_cons_self
    · cases got
      exact mem_cons_of_mem _ (mem_of_find?_eq_some matched)
  · cases got

/-- **No piece ends with white space.** -/
theorem last_of_read (got : mode.read text = some (piece, r)) :
    ∃ c, piece.text.getLast? = some c ∧ isBlank c = false := by
  have ofMark : ∀ (c : Char) (chunk : List Char) (mark : Scan.TemplateEnd),
      ∃ d, (c :: (chunk ++ mark.text)).getLast? = some d ∧ isBlank d = false := by
    intro c chunk mark
    cases mark with
    | closed =>
      refine ⟨'\x60', ?_, by decide⟩
      rw [getLast?_cons, Scan.TemplateEnd.text, getLast?_concat]
      rfl
    | opened =>
      refine ⟨'\x7b', ?_, by decide⟩
      rw [getLast?_cons, Scan.TemplateEnd.text, getLast?_append]
      rfl
  cases takes_of_read got with
  | template | resume => exact ofMark _ _ _
  | @string c _ taken _ quote inner =>
    refine ⟨c, ?_, by rcases quote with rfl | rfl <;> decide⟩
    show (c :: taken).getLast? = _
    rw [getLast?_cons, getLast?_stringTail inner]
    rfl
  | @number c behind fst =>
    have ne : (number (c :: behind)).1 ≠ [] := by
      have taken := magnitude_ne_nil behind (fst.imp id And.left)
      intro absurd
      exact taken (append_eq_nil_iff.1 absurd).1
    obtain ⟨w, d, taken⟩ := (eq_nil_or_concat _).resolve_left ne
    rw [concat_eq_append] at taken
    refine ⟨d, (congrArg getLast? taken).trans getLast?_concat, ?_⟩
    by_cases first : w = []
    · have whole := number_append (c :: behind)
      rw [taken, first] at whole
      rw [(cons.inj whole).1]
      rcases fst with digit | ⟨rfl, -⟩
      · exact visible_of_noisy (isNoisy_of_digit _ digit)
      · decide
    · exact visible_of_number first taken
  | privateName =>
    refine last_of_all (cons_ne_nil _ _) fun d mem => ?_
    rcases mem_cons.1 mem with rfl | mem
    · decide
    · exact visible_of_namePart (mem_run mem)
  | word start =>
    refine last_of_all (cons_ne_nil _ _) fun d mem => ?_
    rcases mem_cons.1 mem with rfl | mem
    · rcases start with start | rfl
      · exact visible_of_nameStart start
      · decide
    · have part := mem_run mem
      simp only [Bool.or_eq_true, beq_iff_eq] at part
      rcases part with part | rfl
      · exact visible_of_namePart part
      · decide
  | @regex _ taken later _ inner =>
    have slash := getLast?_regexTail inner
    show ∃ d, ('/' :: taken ++ (run isNamePart later).1).getLast? = some d ∧ _
    rw [getLast?_append, getLast?_cons, slash]
    by_cases flags : (run isNamePart later).1 = []
    · rw [flags]
      exact ⟨'/', rfl, by decide⟩
    · obtain ⟨d, last, vis⟩ := last_of_all flags fun d mem =>
        visible_of_namePart (mem_run mem)
      rw [last]
      exact ⟨d, rfl, vis⟩
  | @mark _ _ mark _ _ inner =>
    have all : ∀ mark ∈ "?" :: punctuators, mark.toList.getLast?.any (fun d => !isBlank d) := by decide
    have vis : mark.toList.getLast?.any (fun d => !isBlank d) → ∃ d,
        mark.toList.getLast? = some d ∧ isBlank d = false := fun held => by
      simpa using (any_eq_true _ _).1 held
    exact vis (all mark (mem_of_punctuator? inner))

theorem text_ne_nil_of_read (got : mode.read text = some (piece, r)) : piece.text ≠ [] := by
  obtain ⟨c, last, _⟩ := last_of_read got
  intro absurd
  rw [absurd] at last
  cases last

end Last

/-! ## Layouts in front of quiet texts -/

/-- Two texts that are the same as far as pieces in front of them can see. -/
def Alike (text text' : List Char) : Prop :=
  ∃ common s s' continues, text = common ++ s ∧ text' = common ++ s' ∧
    Meek s continues ∧ Meek s' continues ∧
    (common = [] → s.head?.any isHexPart = s'.head?.any isHexPart)

theorem Alike.refl (text : List Char) : Alike text text :=
  ⟨text, [], [], false, (append_nil _).symm, (append_nil _).symm,
    ⟨rfl, rfl, rfl, rfl⟩, ⟨rfl, rfl, rfl, rfl⟩, fun _ => rfl⟩

theorem Alike.of_look (look : Look text continues) (look' : Look text' continues) : Alike text text' :=
  ⟨[], text, text', continues, rfl, rfl, look.toMeek, look'.toMeek,
    fun _ => look.hexPart.trans look'.hexPart.symm⟩

theorem Alike.of_meek {prev : List Char} (ne : prev ≠ []) (meek : Meek text continues)
    (meek' : Meek text' continues) : Alike (prev ++ text) (prev ++ text') :=
  ⟨prev, text, text', continues, rfl, rfl, meek, meek', fun empty => absurd empty ne⟩

theorem Alike.prepend (prev : List Char) (alike : Alike text text') : Alike (prev ++ text) (prev ++ text') := by
  obtain ⟨common, s, s', continues, rfl, rfl, meek, meek', eq⟩ := alike
  exact ⟨prev ++ common, s, s', continues, by simp, by simp, meek, meek',
    fun empty => eq (append_eq_nil_iff.1 empty).2⟩

theorem Alike.wordPart (alike : Alike text text') :
    text.head?.any (fun c => isNamePart c || c == '\\') =
      text'.head?.any (fun c => isNamePart c || c == '\\') := by
  obtain ⟨common, s, s', continues, rfl, rfl, meek, meek', -⟩ := alike
  cases common with
  | nil => exact meek.wordPart.trans meek'.wordPart.symm
  | cons c r => rfl

theorem Alike.read (alike : Alike text text') (ne : x ≠ []) (got : mode.read (x ++ text) = some (piece, text)) :
    mode.read (x ++ text') = some (piece, text') := by
  obtain ⟨common, s, s', continues, rfl, rfl, meek, meek', eq⟩ := alike
  rw [← append_assoc] at got ⊢
  exact read_swap meek meek' (by simp [ne]) (fun _ _ => eq) got

theorem Meek.starts {s s' w : List Char} (meek' : Meek s' continues) (front : w ≠ [])
    (starts : Starts (w ++ s)) : Starts (w ++ s') := by
  cases w with
  | nil => exact absurd rfl front
  | cons c r =>
    obtain absurd | ⟨d, tl, eq, vis, slash⟩ := starts.cases
    · cases absurd
    cases eq
    by_cases other : c = '/'
    · subst other
      -- the character behind the slash stands in front of both texts, or is calm
      have quiet : ∀ mark, isLoud mark → (r ++ s).head? ≠ some mark →
          (r ++ s').head? ≠ some mark := by
        intro mark loud differs
        cases r with
        | nil =>
          intro head
          obtain ⟨later, eq⟩ := head?_eq_some_iff.1 head
          rw [meek'.head eq] at loud
          cases loud
        | cons d tl => exact differs
      exact starts_of_slash (quiet '/' (by decide) (slash rfl).1) (quiet '*' (by decide) (slash rfl).2)
    · exact starts_of_ne (r ++ s') vis other

theorem Alike.starts (alike : Alike text text') (ne : x ≠ []) (starts : Starts (x ++ text)) :
    Starts (x ++ text') := by
  obtain ⟨common, s, s', continues, rfl, rfl, -, meek', -⟩ := alike
  rw [← append_assoc] at starts ⊢
  exact meek'.starts (by simp [ne]) starts

theorem read_of_ne_slash (r : List Char) (other : c ≠ '/') (braces : mode'.braces = mode.braces)
    : mode'.read (c :: r) = mode.read (c :: r) := by
  have slash (operand : Bool) : ¬ (c = '/' ∧ operand = false) := fun both => other both.1
  simp only [Mode.read, braces, if_neg (slash _)]

theorem slash_of_read (operand : mode.operand) (got : mode.read ('/' :: text) = some (piece, r)) :
    piece = .plain .punct "/".toList ∨ piece = .plain .punct "/=".toList := by
  have start : isNameStart '/' = false := by decide +kernel
  rw [Mode.read, if_neg (by decide), if_neg (by simp), if_neg (by decide), if_neg (by simp),
    if_neg (by simp), if_neg (by simp [start]), if_neg (by simp [operand])] at got
  obtain ⟨mark, inner, eq⟩ := map_eq_some_iff.1 got
  cases eq
  have slashes : ∀ mark ∈ "?" :: punctuators, mark.toList.head? = some '/' → mark = "/" ∨ mark = "/=" := by
    decide
  have vis : ∀ mark ∈ "?" :: punctuators, mark.toList ≠ [] := by decide
  have mem := mem_of_punctuator? inner
  obtain ⟨tl, whole⟩ := prefix_of_punctuator inner
  have fst : mark.toList.head? = some '/' := by
    cases chars : mark.toList with
    | nil => exact absurd chars (vis mark mem)
    | cons c tail =>
      rw [chars] at whole
      cases whole
      rfl
  rcases slashes mark mem fst with rfl | rfl
  · exact .inl rfl
  · exact .inr rfl

theorem Mode.after_congr (braces : mode'.braces = mode.braces) (piece : Piece) :
    mode'.after piece = mode.after piece := by
  cases piece with
  | plain kind text => simp only [Mode.after, braces]
  | template chunk mark => cases mark <;> simp only [Mode.after, braces]
  | resume chunk mark => cases mark <;> simp only [Mode.after, braces]

/-- Two modes that read the pieces alike: they have the same braces, and what the last token
was is of no account, or the same. -/
def Mode.Agrees (mode mode' : Mode) (ps : List Laid) : Prop :=
  mode'.braces = mode.braces ∧
    (mode'.operand = mode.operand ∨ ∀ laid ∈ ps.head?, laid.piece.text.head? ≠ some '/')

theorem Mode.Agrees.read {laid : Laid} {tl : List Laid} (agrees : mode.Agrees mode' (laid :: tl))
    (ne : laid.piece.text ≠ []) : mode'.read (laid.piece.text ++ r) = mode.read (laid.piece.text ++ r) := by
  obtain ⟨braces, operand | slash⟩ := agrees
  · have eq : mode' = mode := by
      cases mode
      cases mode'
      cases braces
      cases operand
      rfl
    rw [eq]
  · have other := slash laid rfl
    cases text : laid.piece.text with
    | nil => exact absurd text ne
    | cons c tail =>
      rw [text] at other
      exact read_of_ne_slash _ (fun eq => other (congrArg some eq)) braces

theorem Valid.agrees (valid : Valid mode ps r) (agrees : mode.Agrees mode' ps) :
    Valid mode' ps r ∧ (mode'.run ps).braces = (mode.run ps).braces := by
  cases ps with
  | nil => exact ⟨trivial, agrees.1⟩
  | cons laid tl =>
    obtain ⟨isGap, starts, got, later⟩ := valid
    have eq := Mode.after_congr agrees.1 laid.piece
    refine ⟨⟨isGap, starts, ?_, eq ▸ later⟩, ?_⟩
    · rw [agrees.read (text_ne_nil_of_read got), got]
    · exact congrArg (fun mode => (Mode.run mode tl).braces) eq

/-- Two texts that pieces in front of them do not tell apart, whatever stands between. -/
structure Indistinct (text text' : List Char) : Prop where
  read : ∀ {mode : Mode} {x : List Char} {piece : Piece} (before : List Char), x ≠ [] →
    mode.read (x ++ (before ++ text)) = some (piece, before ++ text) →
    mode.read (x ++ (before ++ text')) = some (piece, before ++ text')
  starts : ∀ {x : List Char}, x ≠ [] → Starts (x ++ text) → Starts (x ++ text')

theorem Alike.indistinct (alike : Alike text text') : Indistinct text text' where
  read := fun prev ne got => (alike.prepend prev).read ne got
  starts := alike.starts

theorem Indistinct.prepend (eq : Indistinct text text') (pre : List Char) :
    Indistinct (pre ++ text) (pre ++ text') where
  read := by
    intro mode x piece prev ne got
    rw [← append_assoc prev] at got ⊢
    exact eq.read (prev ++ pre) ne got
  starts := by
    intro x ne starts
    rw [← append_assoc] at starts ⊢
    exact eq.starts (by simp [ne]) starts

/-- **Pieces are read alike in front of texts that they do not tell apart.** -/
theorem Valid.indistinct (valid : Valid mode ps r) (eq : Indistinct r r') : Valid mode ps r' := by
  induction ps generalizing mode with
  | nil => exact trivial
  | cons laid tl ih =>
    obtain ⟨g, starts, got, later⟩ := valid
    have ne := text_ne_nil_of_read got
    refine ⟨g, ?_, eq.read _ ne got, ih later⟩
    rw [← append_assoc] at starts ⊢
    exact eq.starts (by simp [ne]) starts

theorem Valid.swap (valid : Valid mode ps r) (alike : Alike r r') : Valid mode ps r' :=
  valid.indistinct alike.indistinct

end Bindery
