/-
Proofs.Library.Sentence -- texts that are written one after the other

A generated text is put together from constants, literals, names, numbers and passages
that were lexed before.  `Carries` is what each part must keep for this: wherever the part
stands outside of substitutions, and in front of a given text, it has the same tokens, and
it leaves no substitution and no comment open.
-/
import Bindery.Proofs.Cell.Normal

namespace Bindery

open List String Text Scan

variable {s g behind : List Char} {ks : List Key} {ps : List Laid} {c : Char}

/-- The tokens of a text, if it can be read. -/
def textKeys (s : String) : List Key :=
  (lexFrom {} s.toList).toOption.elim [] (·.map Token.key)

/-- Outside of substitutions and in front of `behind`, the text has the tokens, whatever
is in front of it.  It ends outside of substitutions and of comments. -/
def Carries (s : List Char) (ks : List Key) (behind : List Char) : Prop :=
  ∀ mode : Mode, mode.braces = [] → ∃ ps g, s = written ps ++ g ∧
    Valid mode ps (g ++ behind) ∧ Gap true g ∧ (mode.run ps).braces = [] ∧
    keysOf ps = ks

theorem lexFrom_of_carries (carries : Carries s ks []) :
    ∃ ts, lexFrom {} s = .ok ts ∧ ts.map Token.key = ks := by
  obtain ⟨ps, g, rfl, valid, isGap, outside, rfl⟩ := carries .start rfl
  rw [append_nil] at valid
  exact lexFrom_of_laid valid isGap outside

/-! ## Parts one after the other -/

theorem carries_gap (isGap : Gap true g) (behind : List Char) : Carries g [] behind :=
  fun _ outside => ⟨[], g, rfl, trivial, isGap, outside, rfl⟩

theorem carries_plain (plain : Plain ps behind) : Carries (written ps) (keysOf ps) behind := by
  intro m outside
  obtain ⟨valid, ends⟩ := plain m outside
  exact ⟨ps, [], (append_nil _).symm, valid, .nil, ends, rfl⟩

/-- **Parts are written one after the other.** -/
theorem Carries.append {fst snd : List Char} {ks' : List Key} (pre : Carries fst ks (snd ++ behind))
    (back : Carries snd ks' behind) : Carries (fst ++ snd) (ks ++ ks') behind := by
  intro m outside
  obtain ⟨ps, g, rfl, valid, isGap, outside', rfl⟩ := pre m outside
  obtain ⟨ps', g', rfl, valid', isGap', outside'', rfl⟩ := back _ outside'
  cases ps' with
  | nil =>
    refine ⟨ps, g ++ g', ?_, ?_, isGap.append isGap', outside', ?_⟩
    · simp [written]
    · simpa [written] using valid
    · exact (append_nil _).symm
  | cons laid tl =>
    -- the gap at the end of the first part belongs to the first piece of the second
    obtain ⟨between, starts, got, r⟩ := valid'
    refine ⟨ps ++ ⟨g ++ laid.gap, laid.piece⟩ :: tl, g', ?_,
      valid_append.2 ⟨?_, isGap.append between, starts, got, r⟩, isGap', ?_, ?_⟩
    · simp [written, written_append]
    · simpa [written] using valid
    · rw [Mode.run_append]
      exact outside''
    · rw [keysOf_append]
      rfl

theorem carries_intercalate {items : List String} {key : String → Key}
    (each : ∀ item ∈ items, ∀ rest, (rest.head? = some ',' ∨ rest = behind) → Carries item.toList [key item] rest)
    : Carries (", ".intercalate items).toList ((items.map key).intersperse (.mark ",")) behind := by
  have comma (rest : List Char) : Carries ", ".toList [.mark ","] rest := by
    have mark : Plain [⟨[], .plain .punct [',']⟩] ([' '] ++ rest) := .mark .nil (by decide) (.nil _)
    have space : Gap true [' '] := .blank (by decide) .nil
    exact (carries_plain mark).append (carries_gap space rest)
  induction items with
  | nil => exact carries_gap .nil behind
  | cons item rest ih =>
    cases rest with
    | nil =>
      rw [String.intercalate_singleton]
      exact each item List.mem_cons_self behind (.inr rfl)
    | cons next rest =>
      have later := ih fun other mem => each other (List.mem_cons_of_mem _ mem)
      have fst := each item List.mem_cons_self
        (", ".toList ++ ((", ".intercalate (next :: rest)).toList ++ behind)) (.inl rfl)
      rw [← List.append_assoc] at fst
      rw [String.intercalate_cons_cons, String.toList_append, String.toList_append, List.append_assoc]
      exact fst.append ((comma _).append later)

theorem carries_join {α : Type} {items : List α} {render : α → String} {ks : α → List Key}
    (each : ∀ item ∈ items, ∀ r, Carries (render item).toList (ks item) r) (behind : List Char) :
    Carries (String.join (items.map render)).toList (items.flatMap ks) behind := by
  induction items with
  | nil => exact carries_gap .nil behind
  | cons item r ih =>
    rw [map_cons, join_cons, toList_append]
    exact (each item mem_cons_self _).append (ih fun other mem => each other (.tail _ mem))

/-! ## Constants -/

theorem Gap.closed_of_no_slash {closed : Bool} (isGap : Gap closed g) (slash : '/' ∉ g) :
    Gap true g ∧ ∀ c, g.head? = some c → isBlank c := by
  induction isGap with
  | nil =>
    refine ⟨.nil, ?_⟩
    intro c head
    cases head
  | blank blank _ ih =>
    refine ⟨.blank blank (ih fun mem => slash (.tail _ mem)).1, ?_⟩
    rintro _ ⟨⟩
    exact blank
  | line _ | lineEnd _ _ | block _ _ => exact absurd mem_cons_self slash

theorem last_of_written {m : Mode} {r : List Char} (valid : Valid m ps r) :
    (written ps).getLast?.any isBlank = false := by
  have dropped := dropEnd_written (fun _ blank => blank) valid
  have head := head?_dropWhile isBlank (written ps).reverse
  rw [← reverse_reverse ((written ps).reverse.dropWhile isBlank)] at head
  rw [show ((written ps).reverse.dropWhile isBlank).reverse = written ps from dropped, head?_reverse] at head
  exact head

/-- **A constant is read as it is alone.**  It holds no slash, and it ends in white space
or stands in front of a text that continues nothing. -/
theorem carries_text (s : String) (lexed : (lexFrom {} s.toList).toOption.isSome) (slash : '/' ∉ s.toList)
    (ends : s.toList.getLast?.any isBlank ∨ Look behind false) : Carries s.toList (textKeys s) behind := by
  intro m outside
  cases got : lexFrom {} s.toList with
  | error error =>
    rw [got] at lexed
    cases lexed
  | ok ts =>
    obtain ⟨ps, g, closed, split, valid, isGap, inside, placed⟩ := laid_of_lexFrom got
    have slashes : '/' ∉ written ps ∧ '/' ∉ g := by
      rw [split] at slash
      simpa using slash
    obtain ⟨isGap, blank⟩ := isGap.closed_of_no_slash slashes.2
    have alike : Alike g (g ++ behind) := by
      cases g with
      | nil =>
        rcases ends with last | quiet
        · rw [split, append_nil, last_of_written valid] at last
          cases last
        · exact .of_look stop_nil.look quiet
      | cons c r =>
        exact .of_look (look_of_blank _ (blank c rfl)) (look_of_blank _ (blank c rfl))
    have fst : ∀ laid ∈ ps.head?, laid.piece.text.head? ≠ some '/' := by
      intro laid head eq
      obtain ⟨r, rfl⟩ := head?_eq_some_iff.1 head
      obtain ⟨tail, s⟩ := head?_eq_some_iff.1 eq
      exact slashes.1 (by simp [written, s])
    obtain ⟨valid, run⟩ := (valid.swap alike).agrees ⟨outside, .inr fst⟩
    refine ⟨ps, g, split, valid, isGap, run.trans inside, ?_⟩
    rw [textKeys, got]
    exact (map_key_of_placed placed).symm

/-! ## Single tokens -/

def quietMarks : List Char :=
  ['(', ')', '[', ']', ',', '\x22', '\x7d']

theorem look_of_mark (head : s.head? = some c) (mark : c ∈ quietMarks) : Look s false := by
  have all : ∀ c ∈ quietMarks, isNamePart c = false ∧ c ≠ '\\' ∧
      isNameStart c = false ∧ isNoisy c = false := forall_mem_of_all (by decide +kernel)
  obtain ⟨part, backslash, start, quiet⟩ := all c mark
  obtain ⟨r, rfl⟩ := head?_eq_some_iff.1 head
  exact look_of_char r part backslash start quiet

theorem look_of_literal (s : String) (r : List Char) : Look ((Json.quote s).toList ++ r) false :=
  ((literal_quote s).stop r).look

theorem carries_mark (single : c ∈ singleMarks) (behind : List Char) :
    Carries [c] [.mark (String.ofList [c])] behind :=
  carries_plain (Plain.mark .nil single (.nil behind))

theorem carries_literal (s : String) (behind : List Char) :
    Carries (Json.quote s).toList [(.string, Json.quote s)] behind := by
  intro m outside
  have literal := literal_quote s
  refine ⟨[⟨[], .plain .string (Json.quote s).toList⟩], [], ?_, ⟨.nil, ?_, ?_, trivial⟩, .nil, outside, ?_⟩
  · simp [written, Piece.text]
  · exact literal.starts _
  · exact read_literal m literal _
  · simp [keysOf, Piece.keys]

theorem carries_name {n : String} (w : IsWord n)
    (ends : behind.head?.any isWordPart = false) : Carries n.toList [.name n] behind := by
  have plain : Plain [⟨[], .plain .ident n.toList⟩] behind := Script.plain_name w .nil ends (.nil behind)
  have carries := carries_plain plain
  simpa [written, Piece.text, keysOf, Piece.keys, Key.name] using carries

theorem number_of_digits {digits : List Char} (all : ∀ c ∈ digits, c.isDigit) :
    number digits = (digits, []) := by
  have parts : ∀ c ∈ digits, isDigitPart c := by
    intro c mem
    simp [isDigitPart, all c mem]
  have run : run isDigitPart digits = (digits, []) := by
    have whole : run isDigitPart (digits ++ []) = (digits, []) := run_eq parts rfl
    rwa [append_nil] at whole
  have decimal : magnitude.decimal digits = (digits, []) := by
    simp [magnitude.decimal, run, fraction, exponent]
  have magnitude : magnitude digits = (digits, []) := by
    unfold magnitude
    split
    · next b r =>
      have plain : namesBase b = false := by
        have digit := all b (by simp)
        cases ns : namesBase b with
        | false => rfl
        | true =>
          simp only [namesBase, Bool.or_eq_true, beq_iff_eq] at ns
          rcases ns with ((((rfl | rfl) | rfl) | rfl) | rfl) | rfl <;> cases digit
      rw [if_neg (by simp [plain]), decimal]
    · exact decimal
  simp [number, magnitude, bigMark, keep]

theorem read_of_digit (m : Mode) (r : List Char) (digit : c.isDigit) :
    Starts (c :: r) ∧ m.read (c :: r) = some (.plain .number (number (c :: r)).1, (number (c :: r)).2) := by
  have other : ∀ d : Char, d.isDigit = false → c ≠ d := by
    rintro d none rfl
    rw [digit] at none
    cases none
  refine ⟨starts_of_ne r (visible_of_noisy (isNoisy_of_digit c digit)) (other '/' rfl), ?_⟩
  rw [Mode.read, if_neg (other '\x60' rfl), if_neg fun both => other '\x7d' rfl both.1,
    if_neg (by simp [other '\x22' rfl, other '\x27' rfl]), if_pos (.inl digit)]

theorem carries_number (number : Nat) (look : Look behind false) :
    Carries (toString number).toList [(.number, toString number)] behind := by
  have text : (toString number).toList = Nat.toDigits 10 number := by
    show (Nat.repr number).toList = _
    rw [Nat.repr_eq_ofList_toDigits, toList_ofList]
  have all : ∀ c ∈ (toString number).toList, c.isDigit := by
    intro c mem
    rw [text] at mem
    exact Nat.isDigit_of_mem_toDigits (by decide) (by decide) mem
  have ne : (toString number).toList ≠ [] := text ▸ Nat.toDigits_ne_nil
  have scanned := number_quiet look ne
  rw [number_of_digits all] at scanned
  intro m outside
  have read : Starts ((toString number).toList ++ behind) ∧
      m.read ((toString number).toList ++ behind) =
        some (.plain .number (toString number).toList, behind) := by
    cases fst : (toString number).toList with
    | nil => exact absurd fst ne
    | cons c r =>
      rw [fst] at scanned all
      obtain ⟨starts, got⟩ := read_of_digit m (r ++ behind) (all c mem_cons_self)
      rw [← cons_append, scanned] at got
      exact ⟨starts, got⟩
  refine ⟨[⟨[], .plain .number (toString number).toList⟩], [], ?_, ⟨.nil, read.1, read.2, trivial⟩,
    .nil, outside, ?_⟩
  · simp [written, Piece.text]
  · simp only [keysOf, flatMap_cons, flatMap_nil, Piece.keys, ofList_toList]
    rfl

/-! ## Passages -/

/-- **A text that has tokens keeps them between braces**, on lines of its own. -/
theorem carries_braced {body : List Char} (spells : Spells body ks []) (behind : List Char) :
    Carries ('\x7b' :: '\n' :: (body ++ ['\n', '\x7d']))
      (.mark openBrace :: (ks ++ [.mark closeBrace])) behind := by
  intro m outside
  have line : Gap true ['\n'] := .blank (by decide) .nil
  have indented : Spells ('\n' :: body) ks ('\n' :: '\x7d' :: behind) :=
    (spells.before stop_nil (stop_of_blank _ (by decide))).indent line
  obtain ⟨ps, last, closed, split, valid, isGap, inside, rfl⟩ := indented
  have opened : m.after (.plain .punct ['\x7b']) = .start := by
    show Mode.mk _ (LexState.countBrace _ m.braces) = _
    rw [outside]
    rfl
  refine ⟨⟨[], .plain .punct ['\x7b']⟩ :: (ps ++ [⟨last ++ ['\n'], .plain .punct ['\x7d']⟩]),
    [], ?_, ⟨.nil, ?_, ?_, ?_⟩, .nil, ?_, ?_⟩
  · have whole : '\n' :: (body ++ ['\n', '\x7d']) = '\n' :: body ++ ['\n', '\x7d'] := rfl
    rw [whole, split]
    simp [written, written_append, Piece.text]
  · exact starts_of_ne _ (by decide) (by decide)
  · exact read_single _ (by decide) outside
  · rw [opened]
    refine valid_append.2 ⟨?_, isGap.lineFeed, ?_, ?_, trivial⟩
    · simpa [written, Piece.text] using valid
    · exact starts_of_ne _ (by decide) (by decide)
    · exact read_single _ (by decide) inside
  · show ((m.after _).run (ps ++ [_])).braces = []
    rw [opened, Mode.run_append]
    show LexState.countBrace _ (Mode.start.run ps).braces = []
    rw [inside]
    rfl
  · rw [keysOf_cons, keysOf_append]
    rfl

end Bindery
