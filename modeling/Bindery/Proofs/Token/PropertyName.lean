/-
Proofs.Token.PropertyName -- names of properties

The word behind a selector names a property, whatever the word is.  The lexer does not
know that: it sees the word as it sees any other.  What stands in front of the selector is
read without looking past it (`indistinct_point`): no number and no punctuator goes on
behind a point that no digit and no point follows.
-/
import Bindery.Proofs.Token.Passage

namespace Bindery

open List Text Scan Mode

variable {mark text word rest' : List Char} {token : Token} {rest tokens : List Token} {pos : Nat}

/-! ## In front of a point -/

section Point

variable {t t' : List Char} {w : List Char}

/-- Text that no number and no mark goes on into behind a point. -/
def Selected (text : List Char) : Prop :=
  text.head?.any (fun c => c.isDigit || c == '.') = false

theorem Selected.digit (selected : Selected t) : t.head?.any Char.isDigit = false := by
  cases t with
  | nil => rfl
  | cons c rest =>
    have other : (c.isDigit || c == '.') = false := selected
    exact (Bool.or_eq_false_iff.1 other).1

theorem Selected.point (selected : Selected t) : t.head? ≠ some '.' := by
  intro head
  unfold Selected at selected
  rw [head] at selected
  cases selected

theorem quiet_point (t : List Char) : ('.' :: t).head?.any continuesNumber = false :=
  show continuesNumber '.' = false by decide

theorem namesBase_point (t : List Char) : ('.' :: t).head?.any namesBase = false :=
  show namesBase '.' = false by decide

theorem length_number_of_digits (ne : w ≠ []) (decimal : IsDecimal w)
    (digits : (Scan.run Scan.isDigitPart w).2 = []) (t : List Char) :
    (Scan.number (w ++ '.' :: t)).2.length ≤ t.length := by
  have digit : ('.' :: t).head?.any Scan.isDigitPart = false := show Scan.isDigitPart '.' = false by decide
  have magnitude : Scan.magnitude (w ++ '.' :: t) = Scan.magnitude.decimal (w ++ '.' :: t) :=
    magnitude_decimal (decimal.append ne (namesBase_point t))
  have rest : (Scan.magnitude.decimal (w ++ '.' :: t)).2 =
      (Scan.exponent (Scan.run Scan.isDigitPart t).2).2 := by
    unfold Scan.magnitude.decimal
    rw [run_quiet digit, digits]
    rfl
  have run := Scan.length_run_le Scan.isDigitPart t
  have exponent := congrArg length (Scan.exponent_append (Scan.run Scan.isDigitPart t).2)
  have mark := congrArg length (Scan.bigMark_append (Scan.exponent (Scan.run Scan.isDigitPart t).2).2)
  have number : (Scan.number (w ++ '.' :: t)).2 =
      (Scan.bigMark (Scan.exponent (Scan.run Scan.isDigitPart t).2).2).2 := by
    unfold Scan.number
    rw [magnitude, ← rest]
    rfl
  rw [length_append] at exponent mark
  rw [number]
  omega

theorem number_point {m taken : List Char} (ne : w ≠ []) (got : number (w ++ '.' :: t) = (taken, m ++ '.' :: t))
    (t' : List Char) : number (w ++ '.' :: t') = (taken, m ++ '.' :: t') := by
  rcases based_or_decimal w with ⟨b, r, rfl, ns⟩ | decimal
  · have hex (t : List Char) : ('.' :: t).head?.any isHexPart = false :=
      show isHexPart '.' = false by decide
    rw [number_based (quiet_point t) ns (run_quiet (hex t) r)] at got
    injection got with first snd
    rw [number_based (quiet_point t') ns (run_quiet (hex t') r), first, append_cancel_right snd]
  · by_cases digits : (run isDigitPart w).2 = []
    · have short := length_number_of_digits ne decimal digits t
      rw [got, length_append, length_cons] at short
      omega
    · have whole (t : List Char) := number_of_decimal (quiet_point t) (namesBase_point t) ne
        (.inl digits) decimal
      rw [whole] at got
      injection got with first snd
      rw [whole, first, append_cancel_right snd]

/-- Behind a point, a mark has only points. -/
def PointsLast (marks : List Char) : Prop :=
  marks.Pairwise fun c d => c = '.' → d = '.'

theorem pointsLast_of_mem {mark : String} (mem : mark ∈ punctuators) : PointsLast mark.toList := by
  have all : ∀ mark ∈ punctuators, mark.toList.Pairwise fun c d => c = '.' → d = '.' :=
    forall_mem_of_all (by decide)
  exact all mark mem

section

variable (selected : Selected t) (selected' : Selected t')
include selected selected'

theorem isPrefixOf_point {marks : List Char} (points : PointsLast marks) (w : List Char) :
    marks.isPrefixOf (w ++ '.' :: t) = marks.isPrefixOf (w ++ '.' :: t') := by
  induction marks generalizing w with
  | nil => rfl
  | cons c marks ih =>
    obtain ⟨later, points⟩ := pairwise_cons.1 points
    cases w with
    | cons d w => rw [cons_append, cons_append, isPrefixOf, isPrefixOf, ih points]
    | nil =>
      rw [nil_append, nil_append, isPrefixOf, isPrefixOf]
      by_cases point : c = '.'
      · cases marks with
        | nil => rfl
        | cons d marks =>
          -- a further point of the mark would have to stand behind the point
          have next : d = '.' := later d mem_cons_self point
          have none {t : List Char} (selected : Selected t) :
              (d :: marks).isPrefixOf t = false := by
            cases t with
            | nil => rfl
            | cons e rest =>
              have other : d ≠ e := by
                rintro rfl
                exact selected.point (congrArg some next)
              simp [isPrefixOf, other]
          rw [none selected, none selected']
      · rw [beq_false_of_ne point, Bool.false_and, Bool.false_and]

theorem punctuator?_point (w : List Char) : punctuator? (w ++ '.' :: t) = punctuator? (w ++ '.' :: t') := by
  have starts : punctuators.find? (fun mark => mark.toList.isPrefixOf (w ++ '.' :: t)) =
      punctuators.find? (fun mark => mark.toList.isPrefixOf (w ++ '.' :: t')) :=
    List.find?_congr fun mark mem => isPrefixOf_point selected selected' (pointsLast_of_mem mem) w
  have digit : ((w ++ '.' :: t).drop 2).head?.any Char.isDigit =
      ((w ++ '.' :: t').drop 2).head?.any Char.isDigit ∨ w = [] := by
    match w with
    | [] => exact .inr rfl
    | [_] => exact .inl (selected.digit.trans selected'.digit.symm)
    | [_, _] => exact .inl rfl
    | _ :: _ :: _ :: _ => exact .inl rfl
  unfold punctuator?
  rw [starts]
  split
  · next mark got =>
    rcases digit with eq | rfl
    · rw [eq]
    · have other : mark ≠ "?." := by
        rintro rfl
        have isPrefix := find?_some got
        cases isPrefix
      rw [if_neg fun both => other both.1, if_neg fun both => other both.1]
  · rfl

theorem unseen_point : Unseen ('.' :: t) ('.' :: t') where
  digit := rfl
  part := rfl
  wordPart := rfl
  nameStart := rfl
  punctuator := fun _ => punctuator?_point selected selected' _

/-- **What stands in front of a point is read without looking past it.** -/
theorem indistinct_point : Indistinct ('.' :: t) ('.' :: t') where
  read := by
    intro m x piece p ne got
    have front : x ++ p ≠ [] := by simp [ne]
    rw [← append_assoc] at got ⊢
    exact (unseen_point selected selected').read front (fun _ number => number_point front number t') got
  starts := by
    intro x ne starts
    obtain ⟨c, w, rfl⟩ := exists_cons_of_ne_nil ne
    obtain absurd | ⟨d, rest, eq, vis, slash⟩ := starts.cases
    · cases absurd
    cases eq
    by_cases other : c = '/'
    · subst other
      have head : (w ++ '.' :: t').head? = (w ++ '.' :: t).head? := by cases w <;> rfl
      exact starts_of_slash (head ▸ (slash rfl).1) (head ▸ (slash rfl).2)
    · exact starts_of_ne _ vis other

end

end Point

/-! ## Selectors -/

def IsSelector (mark : List Char) : Prop :=
  mark = ['.'] ∨ mark = ['?', '.']

theorem IsSelector.read (m : Mode) (isSelector : IsSelector mark) (selected : Selected text) :
    m.read (mark ++ text) = some (.plain .punct mark, text) := by
  have none : Selected [] := rfl
  have point : isNameStart '.' = false := by decide +kernel
  have question : isNameStart '?' = false := by decide +kernel
  rcases isSelector with rfl | rfl
  · have got : punctuator? ('.' :: text) = some "." := (punctuator?_point selected none []).trans (by decide)
    simp [Mode.read, selected.digit, point, got]
    rfl
  · have got : punctuator? ('?' :: '.' :: text) = some "?." :=
      (punctuator?_point selected none ['?']).trans (by decide)
    simp [Mode.read, question, got]
    rfl

theorem IsSelector.starts (isSelector : IsSelector mark) (text : List Char) : Starts (mark ++ text) := by
  rcases isSelector with rfl | rfl
  · exact starts_of_ne _ (by decide) (by decide)
  · exact starts_of_ne _ (by decide) (by decide)

theorem isSelector_of_selects (selects : token.selects)
    (eq : token.text = String.ofList text) : token.kind = .punct ∧ IsSelector text := by
  simp only [Token.selects, Token.isPunct, Bool.or_eq_true, Bool.and_eq_true, beq_iff_eq] at selects
  rcases selects with ⟨kind, text'⟩ | ⟨kind, text'⟩
  · refine ⟨kind, .inl ?_⟩
    simpa using congrArg String.toList (eq.symm.trans text')
  · refine ⟨kind, .inr ?_⟩
    simpa using congrArg String.toList (eq.symm.trans text')

theorem selected_cons {c : Char} (digit : c.isDigit = false) (point : c ≠ '.') (rest : List Char) :
    Selected (c :: rest) := by
  show (c.isDigit || c == '.') = false
  rw [digit, beq_false_of_ne point]
  rfl

theorem selected_of_word {g : List Char} (isGap : Gap true g) (isWord : WordText word)
    (rest : List Char) : Selected (g ++ (word ++ rest)) := by
  cases isGap with
  | nil =>
    obtain ⟨c, ps, rfl, start, -⟩ := isWord
    obtain ⟨other, digit⟩ := starts_only_words start
    refine selected_cons digit ?_ _
    rintro rfl
    simp at other
  | @blank closed c g blank later =>
    have calm : isLoud c = false := (look_of_blank [] blank).calm
    refine selected_cons ?_ ?_ _
    · cases digit : c.isDigit with
      | false => rfl
      | true => rw [isLoud_of_digit c digit] at calm; cases calm
    · rintro rfl
      exact absurd calm (by decide)
  | lineEnd stays later => rfl
  | block ends later => rfl

/-! ## Another name -/

def nameKey (name : String) : Key :=
  (Mode.wordKind name.toList, name)

theorem WordText.starts (isWord : WordText word) (rest : List Char) : Starts (word ++ rest) := by
  obtain ⟨c, ps, rfl, start, -⟩ := isWord
  have other := (starts_only_words start).1
  refine starts_of_ne _ ?_ ?_
  · rcases start with start | rfl
    · exact visible_of_nameStart start
    · decide
  · rintro rfl
    simp at other

theorem WordText.read (m : Mode) {rest : List Char} (isWord : WordText word)
    (ends : rest.head?.any isWordPart = false) :
    m.read (word ++ rest) = some (.plain (wordKind word) word, rest) := by
  obtain ⟨c, ps, rfl, start, ps⟩ := isWord
  exact read_word m start ps ends

section Layout

variable {m : Mode} {pre : List Laid} {g g' name rest : List Char}

def named (pre : List Laid) (g mark g' word : List Char) : List Laid :=
  pre ++ [⟨g, .plain .punct mark⟩, ⟨g', .plain (Mode.wordKind word) word⟩]

theorem written_named (pre : List Laid) (g mark g' word : List Char) :
    written (named pre g mark g' word) = written pre ++ g ++ mark ++ g' ++ word := by
  simp [named, written_append, written, Piece.text]

theorem keysOf_named (pre : List Laid) (g mark g' word : List Char) :
    keysOf (named pre g mark g' word) =
      keysOf (pre ++ [⟨g, .plain .punct mark⟩]) ++ [(wordKind word, String.ofList word)] := by
  simp [named, keysOf, Piece.keys]

theorem run_named (m : Mode) (pre : List Laid) (g mark g' word : List Char) :
    m.run (named pre g mark g' word) =
      ⟨Key.endsOperand (wordKind word, String.ofList word),
        (m.run (pre ++ [⟨g, .plain .punct mark⟩])).braces⟩ := by
  have other : wordKind word ≠ .punct := by
    unfold wordKind
    split <;> decide
  have split : named pre g mark g' word =
      pre ++ [⟨g, .plain .punct mark⟩] ++ [⟨g', .plain (wordKind word) word⟩] := by
    simp [named]
  rw [split, Mode.run_append]
  generalize m.run (pre ++ _) = behind
  show Mode.mk _ (if _ then _ else _) = _
  rw [if_neg other]

/-- **Another name may stand behind a selector**: what is in front of it is read as before. -/
theorem Valid.renamed (valid : Valid m (named pre g mark g' word) rest) (isSelector : IsSelector mark)
    (isWord : WordText word) (isName : WordText name) (ends : rest.head?.any isWordPart = false) :
    Valid m (named pre g mark g' name) rest := by
  obtain ⟨p, isGap, -, -, isGap', -, -, -⟩ := valid_append.1 valid
  have selected := selected_of_word isGap' isWord rest
  have selected' := selected_of_word isGap' isName rest
  refine valid_append.2 ⟨?_, isGap, isSelector.starts _, ?_, isGap', isName.starts _,
    isName.read _ ends, trivial⟩
  · -- the selector ends with its point
    obtain ⟨question, rfl⟩ : ∃ question, mark = question ++ ['.'] := by
      rcases isSelector with rfl | rfl
      · exact ⟨[], rfl⟩
      · exact ⟨['?'], rfl⟩
    have split (word : List Char) : written [⟨g, .plain .punct (question ++ ['.'])⟩,
        ⟨g', .plain (wordKind word) word⟩] ++ rest =
          g ++ question ++ '.' :: (g' ++ (word ++ rest)) := by
      simp [written, Piece.text]
    rw [split] at p ⊢
    exact p.indistinct ((indistinct_point selected selected').prepend (g ++ question))
  · simpa [written, Piece.text] using isSelector.read _ selected'

theorem regex_of_read {text : List Char} {piece : Piece} (operand : m.operand = false)
    (got : m.read ('/' :: text) = some (piece, rest)) : ∃ body, piece = .plain .regex body := by
  have start : isNameStart '/' = false := by decide +kernel
  rw [Mode.read, if_neg (by decide), if_neg (by simp), if_neg (by decide), if_neg (by simp),
    if_neg (by simp), if_neg (by simp [start]), if_pos ⟨rfl, operand⟩] at got
  obtain ⟨_, _, eq⟩ := Option.map_eq_some_iff.1 got
  cases eq
  exact ⟨_, rfl⟩

theorem operand_of_slash {m' : Mode} {kind : TokenKind} {slash left : List Char}
    (first : slash.head? = some '/') (got : m.read (slash ++ left) = some (.plain kind slash, rest))
    {left' : List Char} (got' : m'.read (slash ++ left') = some (.plain kind slash, rest')) :
    m'.operand = m.operand := by
  obtain ⟨tail, rfl⟩ := head?_eq_some_iff.1 first
  have divides {m : Mode} {left rest : List Char} (operand : m.operand)
      (got : m.read ('/' :: tail ++ left) = some (.plain kind ('/' :: tail), rest)) :
      kind = .punct := by
    rcases slash_of_read operand got with eq | eq <;> cases eq <;> rfl
  have opens {m : Mode} {left rest : List Char} (operand : m.operand = false)
      (got : m.read ('/' :: tail ++ left) = some (.plain kind ('/' :: tail), rest)) :
      kind = .regex := by
    obtain ⟨_, eq⟩ := regex_of_read operand got
    cases eq
    rfl
  cases operand : m.operand <;> cases operand' : m'.operand
  · rfl
  · exact absurd ((opens operand got).symm.trans (divides operand' got')) (by decide)
  · exact absurd ((divides operand got).symm.trans (opens operand' got')) (by decide)
  · rfl

end Layout

/-! ## Tokens behind a selector -/

theorem eq_of_byteLength {first snd rest : List Char} (whole : first ++ rest = snd ++ rest')
    (bytes : byteLength first = byteLength snd) : first = snd ∧ rest = rest' := by
  have empty {text : List Char} (none : byteLength text = 0) : text = [] := by
    cases text with
    | nil => rfl
    | cons c r =>
      have := c.utf8Size_pos
      rw [byteLength] at none
      omega
  rcases append_eq_append_iff.1 whole with ⟨excess, eq, tail⟩ | ⟨excess, eq, tail⟩
  all_goals
    rw [eq, byteLength_append] at bytes
    have none : excess = [] := empty (by omega)
    subst none
  · exact ⟨by simpa using eq.symm, tail⟩
  · exact ⟨by simpa using eq, tail.symm⟩

section

variable {pieces : List Laid} (placed : Placed pos pieces tokens)
include placed

theorem exists_selector (selected : tokens.getLast?.any Token.selects) :
    ∃ pre g mark, pieces = pre ++ [⟨g, .plain .punct mark⟩] ∧ IsSelector mark := by
  obtain ⟨selector, last, selects⟩ := (Option.any_eq_true _ _).1 selected
  obtain ⟨p, rfl⟩ := getLast?_eq_some_iff.1 last
  have kind : selector.kind = .punct := (isSelector_of_selects selects String.ofList_toList.symm).1
  have other (text : String) (plain : text ≠ "." ∧ text ≠ "?.") : selector.key ≠ .mark text := by
    intro eq
    have named : selector.text = text := congrArg Prod.snd eq
    simp [Token.selects, Token.isPunct, named, plain] at selects
  obtain ⟨pre, back, rfl, -, placed⟩ := placed_append placed (other "(" (by decide))
  obtain ⟨g, mark, r, rfl, eq, -, -, none⟩ := plain_of_placed placed (by simp [kind]) (other ")" (by decide))
  have empty : r = [] := by
    cases r with
    | nil => rfl
    | cons laid r =>
      obtain ⟨own, later, split, here, -⟩ := none
      have := here.first
      rw [(append_eq_nil_iff.1 split.symm).1] at this
      cases this
  subst empty
  exact ⟨pre, g, mark, by rw [kind], (isSelector_of_selects selects eq).2⟩

theorem head?_of_placed (plain : ∀ next ∈ tokens.head?, next.text.toList.head? ≠ some '/') :
    ∀ laid ∈ pieces.head?, laid.piece.text.head? ≠ some '/' := by
  intro laid mem
  obtain ⟨r, rfl⟩ := head?_eq_some_iff.1 mem
  obtain ⟨own, later, rfl, here, -⟩ := placed
  obtain ⟨g, piece⟩ := laid
  cases piece with
  | plain kind text =>
    obtain ⟨nl, rfl⟩ := here
    have other := plain _ rfl
    rwa [String.toList_ofList] at other
  | template chunk mark => simp [Piece.text]
  | resume chunk mark => simp [Piece.text]

end

theorem slash_of_placed {pieces : List Laid} (placed : Placed pos pieces (token :: rest))
    (slash : token.text.toList.head? = some '/') :
    ∃ g text r, pieces = ⟨g, .plain token.kind text⟩ :: r ∧ token.text = String.ofList text := by
  cases pieces with
  | nil => cases placed
  | cons laid r =>
    obtain ⟨own, later, split, here, -⟩ := placed
    obtain ⟨g, piece⟩ := laid
    rcases here.cases with ⟨_, text, rfl, rfl, eq, -, -⟩ | ⟨first, edges, rfl, key, -⟩
    · cases split
      exact ⟨g, text, r, rfl, eq⟩
    · cases split
      rcases key with key | key
      all_goals
        rw [show token.text = _ from congrArg Prod.snd key] at slash
        exact absurd slash (by decide)

/-- A text in which a word stands behind a selector, laid out in front of the word and
behind it. -/
structure Selection (u n v : List Char) (first rest : List Token) where
  front : List Laid
  gap : List Char
  mark : List Char
  gap' : List Char
  more : List Laid
  ending : List Char
  closed : Bool
  offset : Nat
  isSelector : IsSelector mark
  isWord : WordText n
  ends : v.head?.any isWordPart = false
  before : u = written front ++ gap ++ mark ++ gap'
  behind : v = written more ++ ending
  valid : Valid .start (named front gap mark gap' n) v
  later : Valid (Mode.start.run (named front gap mark gap' n)) more ending
  isGap : Gap closed ending
  outside : ((Mode.start.run (named front gap mark gap' n)).run more).braces = []
  keys : first.map Token.key = keysOf (front ++ [⟨gap, .plain .punct mark⟩])
  placed : Placed offset more rest

theorem selection_of_lexFrom {u n v : List Char} {first : List Token}
    (done : lexFrom {} (u ++ (n ++ v)) = .ok (first ++ token :: rest)) (start : token.start = byteLength u)
    (eq : token.text = String.ofList n) (word : token.kind = .ident ∨ token.kind = .keyword)
    (selected : first.getLast?.any Token.selects) :
    token.kind = wordKind n ∧ Nonempty (Selection u n v first rest) := by
  have plain : token.kind ≠ .punct ∧ token.kind ≠ .template := by
    rcases word with kind | kind <;> rw [kind] <;> decide
  obtain ⟨pieces, ending, closed, split, valid, isGap, outside, placed⟩ := laid_of_lexFrom done
  obtain ⟨p, back, rfl, placedFront, placedBack⟩ := placed_append placed (key_ne_mark _ plain.1)
  obtain ⟨g', text, r, rfl, eq', starts, -, placedMore⟩ :=
    plain_of_placed placedBack plain.2 (key_ne_mark _ plain.1)
  obtain ⟨pre, g, mark, rfl, isSelector⟩ := exists_selector placedFront selected
  have spelled : text = n := by
    simpa using congrArg String.toList (eq'.symm.trans eq)
  subst spelled
  have whole : u ++ (text ++ v) =
      written (pre ++ [⟨g, .plain .punct mark⟩]) ++ g' ++ (text ++ (written r ++ ending)) := by
    rw [split, written_append _ (_ :: r)]
    simp [written, Piece.text]
  obtain ⟨uSplit, vSplit⟩ := eq_of_byteLength whole (by
    rw [← start, starts, byteLength_append]
    exact congrArg (· + _) (Nat.zero_add _))
  have vSplit : v = written r ++ ending := append_cancel_left vSplit
  obtain ⟨-, -, -, got, -⟩ := valid_append.1 valid
  rw [← vSplit] at got
  obtain ⟨isWord, kind, ends⟩ := wordText_of_read got word
  have pieces : pre ++ [⟨g, .plain .punct mark⟩] ++ ⟨g', .plain token.kind text⟩ :: r =
      named pre g mark g' text ++ r := by
    simp [named, kind]
  rw [pieces] at valid outside
  obtain ⟨valid, later⟩ := valid_append.1 valid
  rw [← vSplit] at valid
  refine ⟨kind, ⟨⟨pre, g, mark, g', r, ending, closed, _, isSelector, isWord, ends, ?_,
    vSplit, valid, later, isGap, ?_, map_key_of_placed placedFront, placedMore⟩⟩⟩
  · rw [uSplit, written_append]
    simp [written, Piece.text]
  · rw [← Mode.run_append]
    exact outside

namespace Selection

variable {u n v name : List Char} {first : List Token}

/-- The layout down to the word, with another name in the word's place. -/
def pieces (selection : Selection u n v first rest) (name : List Char) : List Laid :=
  named selection.front selection.gap selection.mark selection.gap' name

section

variable (selection : Selection u n v first rest)
include selection

theorem written_pieces (name : List Char) : written (selection.pieces name) ++ v = u ++ (name ++ v) := by
  rw [pieces, written_named, ← selection.before, append_assoc]

theorem keysOf_pieces (name : List Char) :
    keysOf (selection.pieces name) = first.map Token.key ++ [(wordKind name, String.ofList name)] := by
  rw [pieces, keysOf_named, selection.keys]

theorem valid_pieces (isName : WordText name) : Valid .start (selection.pieces name) v :=
  selection.valid.renamed selection.isSelector selection.isWord isName selection.ends

theorem operand (name : List Char) :
    (Mode.start.run (selection.pieces name)).operand =
      Key.endsOperand (wordKind name, String.ofList name) := by
  rw [pieces, run_named]

/-- **Where no slash follows, or both names end operands or neither does, the other tokens
stay.** -/
theorem renamed (isName : WordText name)
    (eq : Key.endsOperand (Mode.wordKind name, String.ofList name) =
        Key.endsOperand (Mode.wordKind n, String.ofList n) ∨
      ∀ next ∈ rest.head?, next.text.toList.head? ≠ some '/') :
    ∃ tokens, lexFrom {} (u ++ (name ++ v)) = .ok tokens ∧
      tokens.map Token.key = first.map Token.key ++
        (Mode.wordKind name, String.ofList name) :: rest.map Token.key := by
  have agrees : (Mode.start.run (selection.pieces n)).Agrees
      (Mode.start.run (selection.pieces name)) selection.more := by
    refine ⟨by rw [pieces, pieces, run_named, run_named], ?_⟩
    rw [selection.operand, selection.operand]
    exact eq.imp id (head?_of_placed selection.placed)
  obtain ⟨later, braces⟩ := selection.later.agrees agrees
  have valid : Valid ({} : LexState).mode (selection.pieces name ++ selection.more) selection.ending :=
    valid_append.2 ⟨selection.behind ▸ selection.valid_pieces isName, later⟩
  have outside : (({} : LexState).mode.run (selection.pieces name ++ selection.more)).braces = [] := by
    rw [Mode.run_append]
    exact braces.trans selection.outside
  obtain ⟨tokens, done, keys⟩ := lexFrom_of_laid valid selection.isGap outside
  rw [written_append, append_assoc, ← selection.behind, selection.written_pieces] at done
  refine ⟨tokens, done, ?_⟩
  rw [keys, keysOf_append, selection.keysOf_pieces, map_key_of_placed selection.placed, append_assoc]
  rfl

/-- **A slash behind the word tells apart** a name that ends an operand from one that does not. -/
theorem endsOperand_eq (isName : WordText name)
    {tokens : List Token} (done : lexFrom {} (u ++ (name ++ v)) = .ok tokens)
    (keys : tokens.map Token.key = first.map Token.key ++
      (Mode.wordKind name, String.ofList name) :: rest.map Token.key)
    {next : Token} (follows : rest.head? = some next) (slash : next.text.toList.head? = some '/') :
    Key.endsOperand (Mode.wordKind name, String.ofList name) =
      Key.endsOperand (Mode.wordKind n, String.ofList n) := by
  -- both texts are read down to the word, and then the slash is read in two modes
  have valid : Valid ({} : LexState).mode (selection.pieces name) v := selection.valid_pieces isName
  obtain ⟨own, after, reads, ownKeys, m⟩ := reads_of_laid valid
  rw [selection.written_pieces] at reads
  have split := lexFrom_of_reads reads
  rw [done] at split
  cases behind : lexFrom after v with
  | error error => rw [behind] at split; cases split
  | ok later =>
    rw [behind] at split
    cases split
    rw [map_append, ownKeys, selection.keysOf_pieces, append_assoc] at keys
    obtain ⟨-, keys⟩ := cons.inj (append_cancel_left keys)
    obtain ⟨os, ending, _, -, valid', -, -, placed⟩ := laid_of_lexFrom behind
    obtain ⟨tail, rfl⟩ := head?_eq_some_iff.1 follows
    cases later with
    | nil => cases keys
    | cons next' later =>
      obtain ⟨key, -⟩ := cons.inj keys
      have kind : next'.kind = next.kind := congrArg Prod.fst key
      have eq : next'.text = next.text := congrArg Prod.snd key
      obtain ⟨g₁, text₁, r₁, split₁, spelled₁⟩ := slash_of_placed selection.placed slash
      obtain ⟨g₂, text₂, r₂, rfl, spelled₂⟩ := slash_of_placed placed (eq ▸ slash)
      have texts : text₂ = text₁ := by
        simpa using congrArg String.toList (spelled₂.symm.trans (eq.trans spelled₁))
      have first₁ : text₁.head? = some '/' := by
        rw [spelled₁, String.toList_ofList] at slash
        exact slash
      have later₁ := selection.later
      rw [split₁] at later₁
      obtain ⟨-, -, got₁, -⟩ := later₁
      obtain ⟨-, -, got₂, -⟩ := valid'
      rw [texts, kind] at got₂
      have operands := operand_of_slash first₁ got₁ got₂
      rw [m] at operands
      exact (selection.operand name).symm.trans (operands.trans (selection.operand n))

end

end Selection

/-- **Another name behind a selector changes no other token**, exactly when no slash follows
it or both names end operands or neither does. -/
theorem tokenize_property_name {u n v m : String} {first rest : List Token} {token : Token}
    (done : tokenize (u ++ n ++ v) = .ok (first ++ token :: rest))
    (start : token.start = byteLength u.toList) (same : token.text = n)
    (word : token.kind = .ident ∨ token.kind = .keyword)
    (selected : first.getLast?.any Token.selects = true) (name : WordText m.toList) :
    (∃ tokens, tokenize (u ++ m ++ v) = .ok tokens ∧
      tokens.map Token.key = first.map Token.key ++ nameKey m :: rest.map Token.key) ↔
    (nameKey m).endsOperand = token.endsOperand ∨
      ∀ next ∈ rest.head?, next.text.toList.head? ≠ some '/' := by
  have text (middle : String) : tokenize (u ++ middle ++ v) =
      lexFrom {} (u.toList ++ (middle.toList ++ v.toList)) := by
    rw [tokenize, String.toList_append, String.toList_append, List.append_assoc]
  rw [text] at done
  have spelled : token.text = String.ofList n.toList := same.trans String.ofList_toList.symm
  obtain ⟨kind, ⟨selection⟩⟩ := selection_of_lexFrom done start spelled word selected
  have key : nameKey m = (Mode.wordKind m.toList, String.ofList m.toList) := by
    rw [nameKey, String.ofList_toList]
  have ends : token.endsOperand = Key.endsOperand (Mode.wordKind n.toList, String.ofList n.toList) := by
    rw [← kind, ← spelled]
    rfl
  rw [text, key, ends]
  constructor
  · rintro ⟨tokens, done', keys⟩
    by_cases slash : ∃ next ∈ rest.head?, next.text.toList.head? = some '/'
    · obtain ⟨next, follows, slash⟩ := slash
      exact .inl (selection.endsOperand_eq name done' keys follows slash)
    · exact .inr fun next follows slash' => slash ⟨next, follows, slash'⟩
  · exact selection.renamed name

/-- A reserved word that ends an operand stands for a plain name in front of a slash. -/
theorem tokenize_property_name_this :
    let keys : List Key := [.name "o", .mark "?.", .word "this", .mark "/", (.number, "2"), .mark "/",
      .name "x"]
    ∃ tokens, tokenize ("o?." ++ "this" ++ " / 2 / x") = .ok tokens ∧ tokens.map Token.key = keys := by
  intro keys
  have done : tokenize ("o?." ++ "total" ++ " / 2 / x") =
      .ok ([⟨.ident, "o", 0, 1, false⟩, ⟨.punct, "?.", 1, 3, false⟩] ++
        ⟨.ident, "total", 3, 8, false⟩ :: [⟨.punct, "/", 9, 10, false⟩, ⟨.number, "2", 11, 12, false⟩,
          ⟨.punct, "/", 13, 14, false⟩, ⟨.ident, "x", 15, 16, false⟩]) :=
    Except.eq_ok_of_toOption (by decide +kernel)
  have name : WordText "this".toList :=
    ⟨'t', "his".toList, by decide, .inl (by decide +kernel), List.all_eq_true.1 (by decide +kernel)⟩
  exact (tokenize_property_name done (by decide) rfl (.inl rfl) (by decide) name).2 (.inl (by decide))

/-- A reserved word that ends no operand makes a regular expression of a division. -/
theorem tokenize_property_name_default :
    let total : List Key := [.name "o", .mark ".", .name "total", .mark "/", (.number, "2"), .mark "/",
      .name "x"]
    let default : List Key := [.name "o", .mark ".", .word "default", (.regex, "/ 2 /"), .name "x"]
    (tokenize "o.total / 2 / x").toOption.map (·.map Token.key) = some total ∧
      (tokenize "o.default / 2 / x").toOption.map (·.map Token.key) = some default ∧
      (tokenize "o.default / 2").toOption = none := by
  decide +kernel

end Bindery
