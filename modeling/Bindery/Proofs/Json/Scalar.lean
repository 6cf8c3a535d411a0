/-
Proofs.Json.Scalar -- strings and numbers read back

A quoted text is read back character by character (`string?_quote`).  An integer of 64 bits
is read back from its digits (`number?_integer`).
-/
import Bindery.Json.Parser
import Bindery.Json.Printer

namespace Bindery.Json

open List Nat Option

variable {P : List Char → Prop} {r r' run : List Char}

def Gives {α : Type} {P : List Char → Prop} (result : Option (α × { r // P r })) (value : α)
    (r : List Char) : Prop :=
  ∃ holds, result = some (value, ⟨r, holds⟩)

theorem Gives.of_eq {α : Type} {res : Option (α × { r // P r })} {v v' : α} {holds : P r'}
    (given : res = some (v', ⟨r', holds⟩)) (eq : v' = v) (left : r' = r) : Gives res v r := by
  subst eq left
  exact ⟨holds, given⟩

theorem Gives.unique {α : Type} {res : Option (α × { r // P r })} {v v' : α} (fst : Gives res v r)
    (snd : Gives res v' r') : v = v' ∧ r = r' := by
  obtain ⟨_, rfl⟩ := fst
  obtain ⟨_, eq⟩ := snd
  cases eq
  exact ⟨rfl, rfl⟩

/-! ## Strings -/

section Strings

variable {tail tl : List Char} {c : Char}

theorem stringTail?_quote (r : List Char) : Gives (stringTail? ('\x22' :: r)) [] r :=
  ⟨by simp, by rw [stringTail?]⟩

theorem stringTail?_letter {escaped : Char} (known : letterEscape? c = some escaped)
    (later : Gives (stringTail? tl) tail r) : Gives (stringTail? ('\\' :: c :: tl)) (escaped :: tail) r := by
  obtain ⟨less, got⟩ := later
  have other : c ≠ 'u' := by
    rintro rfl
    cases known
  refine ⟨by simp only [length_cons]; omega, ?_⟩
  rw [stringTail?]
  · rw [known]
    dsimp only
    rw [got]
    rfl
  · intro _ _ _ _ _ eq
    exact absurd eq other

theorem stringTail?_unit {a b d : Char} {unit : Nat} (known : hexUnit? a b c d = some unit)
    (small : unit < 0xD800) (later : Gives (stringTail? tl) tail r) :
    Gives (stringTail? ('\\' :: 'u' :: a :: b :: c :: d :: tl)) (Char.ofNat unit :: tail) r := by
  obtain ⟨less, got⟩ := later
  refine ⟨by simp only [length_cons]; omega, ?_⟩
  have leading : isLeading unit = false := by simp [isLeading]; omega
  have trailing : isTrailing unit = false := by simp [isTrailing]; omega
  rw [stringTail?, known]
  simp only [leading, trailing, got]
  rfl

theorem stringTail?_plain (vis : 0x20 ≤ c.toNat) (quote : c ≠ '\x22') (slash : c ≠ '\\')
    (later : Gives (stringTail? tl) tail r) : Gives (stringTail? (c :: tl)) (c :: tail) r := by
  obtain ⟨less, got⟩ := later
  refine ⟨by simp only [length_cons]; omega, ?_⟩
  rw [stringTail?]
  · rw [if_neg (by simp [slash]; omega), got]
    rfl
  · exact quote
  · intro _ _ _ _ _ eq
    exact absurd eq slash
  · intro _ _ eq
    exact absurd eq slash

end Strings

theorem escapeChar_cases (c : Char) :
    (∃ letter, escapeChar c = ['\\', letter] ∧ letterEscape? letter = some c) ∨
    (∃ high low, escapeChar c = ['\\', 'u', '0', '0', high, low] ∧ c.toNat < 0x20 ∧
      hexUnit? '0' '0' high low = some c.toNat) ∨
    (escapeChar c = [c] ∧ 0x20 ≤ c.toNat ∧ c ≠ '\x22' ∧ c ≠ '\\') := by
  have controls : ∀ point < 0x20,
      (controlEscape point = ['\\', (controlEscape point).getLast?.getD ' '] ∧
        letterEscape? ((controlEscape point).getLast?.getD ' ') = some (Char.ofNat point)) ∨
      (controlEscape point =
          ['\\', 'u', '0', '0', hexDigit (point / 16), hexDigit (point % 16)] ∧
        hexUnit? '0' '0' (hexDigit (point / 16)) (hexDigit (point % 16)) = some point) := by
    decide +kernel
  by_cases quote : c = '\x22'
  · exact .inl ⟨'\x22', by rw [escapeChar, if_pos quote], by rw [quote]; rfl⟩
  by_cases slash : c = '\\'
  · exact .inl ⟨'\\', by rw [escapeChar, if_neg quote, if_pos slash], by rw [slash]; rfl⟩
  by_cases control : c.toNat < 0x20
  · have escaped : escapeChar c = controlEscape c.toNat := by
      rw [escapeChar, if_neg quote, if_neg slash, if_pos control]
    rcases controls c.toNat control with ⟨written, known⟩ | ⟨written, known⟩
    · rw [Char.ofNat_toNat] at known
      exact .inl ⟨_, escaped.trans written, known⟩
    · exact .inr (.inl ⟨_, _, escaped.trans written, control, known⟩)
  · refine .inr (.inr ⟨?_, Nat.not_lt.1 control, quote, slash⟩)
    rw [escapeChar, if_neg quote, if_neg slash, if_neg control]

theorem stringTail?_escapeChar {tl tail : List Char} (c : Char) (later : Gives (stringTail? tl) tail r) :
    Gives (stringTail? (escapeChar c ++ tl)) (c :: tail) r := by
  rcases escapeChar_cases c with ⟨letter, written, known⟩ | ⟨high, low, written, control, known⟩ |
    ⟨written, vis, quote, slash⟩
  · rw [written]
    exact stringTail?_letter known later
  · have read := stringTail?_unit known (by omega) later
    rw [Char.ofNat_toNat] at read
    rw [written]
    exact read
  · rw [written]
    exact stringTail?_plain vis quote slash later

/-- **A quoted text is read back.** -/
theorem string?_quote (s : String) (r : List Char) : Gives (string? ((quote s).toList ++ r)) s r := by
  have tail (chars : List Char) : Gives (stringTail? (escape chars ++ '\x22' :: r)) chars r := by
    induction chars with
    | nil => exact stringTail?_quote r
    | cons c chars ih =>
      have split : escape (c :: chars) ++ '\x22' :: r =
          escapeChar c ++ (escape chars ++ '\x22' :: r) := by
        rw [escape, flatMap_cons, append_assoc]
        rfl
      exact split ▸ stringTail?_escapeChar c ih
  obtain ⟨less, got⟩ := tail s.toList
  have whole : (quote s).toList ++ r = '\x22' :: (escape s.toList ++ '\x22' :: r) := by
    simp [quote]
  rw [whole]
  refine ⟨Nat.lt_succ_of_lt less, ?_⟩
  rw [string?, got, Option.map_some]
  dsimp only
  rw [String.ofList_toList]

/-! ## The parts of a number -/

structure Digits (run after : List Char) : Prop where
  digit : ∀ c ∈ run, c.isDigit = true
  stops : ∀ c ∈ after.head?, c.isDigit = false

theorem digitRun_append {after : List Char} (digits : Digits run after) :
    (digitRun (run ++ after)).1 = run ∧ (digitRun (run ++ after)).2.val = after := by
  show (run ++ after).takeWhile Char.isDigit = run ∧ (run ++ after).dropWhile Char.isDigit = after
  rw [takeWhile_append_of_pos digits.digit, dropWhile_append_of_pos digits.digit]
  cases after with
  | nil => exact ⟨append_nil run, rfl⟩
  | cons c after =>
    have other : ¬ c.isDigit := by simp [digits.stops c rfl]
    rw [takeWhile_cons_of_neg other, dropWhile_cons_of_neg other, append_nil]
    exact ⟨rfl, rfl⟩

theorem digits_digitRun (s : List Char) :
    Digits (digitRun s).1 (digitRun s).2.val ∧ (digitRun s).1 ++ (digitRun s).2.val = s := by
  refine ⟨⟨fun c mem => ?_, fun c head => ?_⟩, takeWhile_append_dropWhile⟩
  · exact all_eq_true.1 (all_takeWhile (l := s) (p := Char.isDigit)) c mem
  · have stops := head?_dropWhile_not Char.isDigit s
    rw [show (digitRun s).2.val = s.dropWhile Char.isDigit from rfl] at head
    rw [head] at stops
    simpa using stops

section Parts

variable {s after : List Char} {sign : List Char} {negative : Bool} {mark : Char}

/-- A zero alone, or digits that do not start with one. -/
structure Whole (run after : List Char) : Prop extends Digits run after where
  nonempty : run ≠ []
  leading : run.head? = some '0' → run = ['0']

theorem wholePart?_of_whole (whole : Whole run after) : Gives (wholePart? (run ++ after)) run after := by
  cases run with
  | nil => exact absurd rfl whole.nonempty
  | cons c tl =>
    rw [cons_append, wholePart?]
    by_cases zero : c = '0'
    · have alone : tl = [] := (List.cons.inj (whole.leading (congrArg some zero))).2
      subst alone
      have stops : after.head?.any Char.isDigit = false := by
        cases after with
        | nil => rfl
        | cons d after => exact whole.stops d rfl
      rw [if_pos zero, nil_append, stops, if_neg (by decide)]
      exact ⟨_, rfl⟩
    · have digits : Digits tl after := ⟨fun d mem => whole.digit d (.tail _ mem), whole.stops⟩
      obtain ⟨taken, behind⟩ := digitRun_append digits
      rw [if_neg zero, if_pos (whole.digit c mem_cons_self)]
      exact .of_eq rfl (congrArg (c :: ·) taken) behind

theorem whole_of_wholePart? (read : Gives (wholePart? s) run after) : Whole run after ∧ s = run ++ after := by
  obtain ⟨_, read⟩ := read
  unfold wholePart? at read
  split at read
  · cases read
  · next c tl _ =>
    split at read
    · next zero =>
      split at read
      · cases read
      · next alone =>
        cases read
        refine ⟨⟨⟨fun d mem => ?_, fun d head => ?_⟩, nofun, fun _ => by rw [zero]⟩, rfl⟩
        · rw [mem_singleton.1 mem, zero]
          rfl
        · rw [mem_def.1 head] at alone
          simpa using alone
    · next other =>
      split at read
      · next digit =>
        obtain ⟨digits, split⟩ := digits_digitRun tl
        cases read
        refine ⟨⟨⟨fun d mem => ?_, digits.stops⟩, nofun, fun zero => absurd (some.inj zero) other⟩, ?_⟩
        · rcases mem_cons.1 mem with rfl | mem
          · exact digit
          · exact digits.digit d mem
        · rw [cons_append]
          exact congrArg _ split.symm
      · cases read

theorem fractionPart?_cons (tl : List Char) :
    fractionPart? ('.' :: tl) = if (digitRun tl).1.isEmpty then none
      else some ((digitRun tl).1, ⟨(digitRun tl).2.val, le_succ_of_le (digitRun tl).2.2⟩) :=
  rfl

theorem fractionPart?_of_point (digits : Digits run after) (ne : run ≠ []) :
    Gives (fractionPart? ('.' :: (run ++ after))) run after := by
  obtain ⟨taken, behind⟩ := digitRun_append digits
  rw [fractionPart?_cons, if_neg (by rw [taken]; simpa using ne)]
  exact .of_eq rfl taken behind

theorem fractionPart?_of_none (other : s.head? ≠ some '.') : Gives (fractionPart? s) [] s := by
  unfold fractionPart?
  split
  · exact absurd rfl other
  · exact ⟨_, rfl⟩

theorem fraction_of_fractionPart? (read : Gives (fractionPart? s) run after) :
    (run = [] ∧ after = s ∧ s.head? ≠ some '.') ∨
      (run ≠ [] ∧ Digits run after ∧ s = '.' :: (run ++ after)) := by
  by_cases point : s.head? = some '.'
  · obtain ⟨tl, rfl⟩ := head?_eq_some_iff.1 point
    obtain ⟨digits, split⟩ := digits_digitRun tl
    rw [fractionPart?_cons] at read
    obtain ⟨_, read⟩ := read
    split at read
    · cases read
    · next some_ =>
      cases read
      exact .inr ⟨by simpa using some_, digits, congrArg _ split.symm⟩
  · obtain ⟨rfl, rfl⟩ := read.unique (fractionPart?_of_none point)
    exact .inl ⟨rfl, rfl, point⟩

def exponentValue (negative : Bool) (run : List Char) : Int :=
  let value := Int.ofNat (run.foldl (fun value c => value * 10 + digitValue c) 0)
  if negative then -value else value

inductive Sign : List Char → Bool → Prop
  | minus : Sign ['-'] true
  | plus : Sign ['+'] false
  | absent : Sign [] false

theorem sign_signOf (s : List Char) : ∃ sign, Sign sign (signOf s).1 ∧ s = sign ++ (signOf s).2.val := by
  unfold signOf
  split
  · exact ⟨_, .minus, rfl⟩
  · exact ⟨_, .plus, rfl⟩
  · exact ⟨_, .absent, rfl⟩

theorem signOf_append (signed : Sign sign negative) (digits : Digits run after) (ne : run ≠ []) :
    (signOf (sign ++ (run ++ after))).1 = negative ∧
      (signOf (sign ++ (run ++ after))).2.val = run ++ after := by
  cases signed with
  | minus => exact ⟨rfl, rfl⟩
  | plus => exact ⟨rfl, rfl⟩
  | absent =>
    cases run with
    | nil => exact absurd rfl ne
    | cons c run =>
      have digit := digits.digit c mem_cons_self
      have unsigned : signOf (c :: (run ++ after)) = (false, ⟨c :: (run ++ after), Nat.le_refl _⟩) := by
        have minus : c ≠ '-' := by
          rintro rfl
          exact absurd digit (by decide)
        have plus : c ≠ '+' := by
          rintro rfl
          exact absurd digit (by decide)
        rw [signOf]
        · exact fun _ eq => minus (List.cons.inj eq).1
        · exact fun _ eq => plus (List.cons.inj eq).1
      rw [nil_append, cons_append, unsigned]
      exact ⟨rfl, rfl⟩

theorem exponentPart?_cons (isMark : mark = 'e' ∨ mark = 'E') (tl : List Char) :
    exponentPart? (mark :: tl) = if (digitRun (signOf tl).2.val).1.isEmpty then none
      else some (some (exponentValue (signOf tl).1 (digitRun (signOf tl).2.val).1),
        ⟨(digitRun (signOf tl).2.val).2.val,
          Nat.le_trans (digitRun (signOf tl).2.val).2.2 (le_succ_of_le (signOf tl).2.2)⟩) := by
  unfold exponentPart?
  exact if_pos isMark

theorem exponentPart?_of_mark (isMark : mark = 'e' ∨ mark = 'E') (signed : Sign sign negative)
    (digits : Digits run after) (ne : run ≠ []) :
    Gives (exponentPart? (mark :: (sign ++ (run ++ after)))) (some (exponentValue negative run)) after := by
  obtain ⟨taken, behind⟩ := digitRun_append digits
  obtain ⟨isNegative, unsigned⟩ := signOf_append signed digits ne
  rw [← unsigned] at taken behind
  rw [exponentPart?_cons isMark, if_neg (by rw [taken]; simpa using ne)]
  exact .of_eq rfl (by rw [isNegative, taken]) behind

theorem exponentPart?_of_none (other : ∀ c ∈ s.head?, c ≠ 'e' ∧ c ≠ 'E') : Gives (exponentPart? s) none s := by
  cases s with
  | nil => exact ⟨Nat.le_refl _, rfl⟩
  | cons c s =>
    refine ⟨Nat.le_refl _, ?_⟩
    unfold exponentPart?
    exact if_neg (not_or.2 (other c rfl))

theorem exponent_of_exponentPart? {v : Option Int} (read : Gives (exponentPart? s) v after) :
    (v = none ∧ after = s ∧ ∀ c ∈ s.head?, c ≠ 'e' ∧ c ≠ 'E') ∨
      ∃ mark sign negative run, (mark = 'e' ∨ mark = 'E') ∧ Sign sign negative ∧ Digits run after ∧
        run ≠ [] ∧ s = mark :: (sign ++ (run ++ after)) ∧ v = some (exponentValue negative run) := by
  cases s with
  | nil =>
    obtain ⟨rfl, rfl⟩ := read.unique (exponentPart?_of_none nofun)
    exact .inl ⟨rfl, rfl, nofun⟩
  | cons mark tl =>
    by_cases isMark : mark = 'e' ∨ mark = 'E'
    · rw [exponentPart?_cons isMark] at read
      obtain ⟨_, read⟩ := read
      split at read
      · cases read
      · next some_ =>
        cases read
        obtain ⟨sign, signed, split⟩ := sign_signOf tl
        obtain ⟨digits, whole⟩ := digits_digitRun (signOf tl).2.val
        refine .inr ⟨mark, sign, _, _, isMark, signed, digits, by simpa using some_, ?_, rfl⟩
        rw [whole, ← split]
    · have other : ∀ c ∈ (mark :: tl).head?, c ≠ 'e' ∧ c ≠ 'E' := by
        rintro c ⟨⟩
        exact not_or.1 isMark
      obtain ⟨rfl, rfl⟩ := read.unique (exponentPart?_of_none other)
      exact .inl ⟨rfl, rfl, other⟩

end Parts

/-! ## Numbers -/

def Ended (r : List Char) : Prop :=
  ∀ c ∈ r.head?, c.isDigit = false ∧ c ≠ '.' ∧ c ≠ 'e' ∧ c ≠ 'E'

section Numbers

variable {s : List Char} {negative : Bool} {number : Number}

def numberOf? (negative : Bool) (run fraction : List Char) (exponent : Option Int) : Option Number :=
  if fraction.isEmpty ∧ exponent.isNone then integerNumber? negative (gather ⟨0, 0, 0⟩ run)
  else doubleNumber? negative (gather ⟨0, 0, 0⟩ run) fraction (exponent.getD 0)

theorem magnitude?_iff : Gives (magnitude? negative s) number r ↔
    ∃ run afterWhole fraction afterFraction exponent,
      Gives (wholePart? s) run afterWhole ∧ Gives (fractionPart? afterWhole) fraction afterFraction ∧
      Gives (exponentPart? afterFraction) exponent r ∧
      numberOf? negative run fraction exponent = some number := by
  constructor
  · rintro ⟨_, read⟩
    unfold magnitude? at read
    split at read
    · cases read
    · next run afterWhole less whole =>
      split at read
      · cases read
      · next fraction afterFraction le point =>
        split at read
        · cases read
        · next exponent behind le' mark =>
          obtain ⟨got, computed, eq⟩ := map_eq_some_iff.1 read
          cases eq
          exact ⟨run, afterWhole, fraction, afterFraction, exponent, ⟨less, whole⟩, ⟨le, point⟩,
            ⟨le', mark⟩, computed⟩
  · rintro ⟨run, afterWhole, fraction, afterFraction, exponent, ⟨less, whole⟩, ⟨le, point⟩, ⟨le', mark⟩, read⟩
    refine ⟨by omega, ?_⟩
    unfold magnitude?
    rw [whole]
    dsimp only
    rw [point]
    dsimp only
    rw [mark]
    dsimp only
    rw [← numberOf?, read, map_some]

theorem magnitude?_append (ended : Ended r) (read : Gives (magnitude? negative s) number []) :
    Gives (magnitude? negative (s ++ r)) number r := by
  obtain ⟨run, afterWhole, fraction, afterFraction, exponent, fst, snd, third, got⟩ := magnitude?_iff.1 read
  obtain ⟨whole, rfl⟩ := whole_of_wholePart? fst
  have stops {after : List Char} (stop : ∀ c ∈ after.head?, c.isDigit = false) :
      ∀ c ∈ (after ++ r).head?, c.isDigit = false := by
    cases after with
    | nil => exact fun c head => (ended c head).1
    | cons d after => exact stop
  refine magnitude?_iff.2 ⟨run, afterWhole ++ r, fraction, afterFraction ++ r, exponent, ?_, ?_, ?_, got⟩
  · rw [append_assoc]
    exact wholePart?_of_whole ⟨⟨whole.digit, stops whole.stops⟩, whole.nonempty, whole.leading⟩
  · rcases fraction_of_fractionPart? snd with ⟨rfl, rfl, point⟩ | ⟨ne, digits, rfl⟩
    · refine fractionPart?_of_none ?_
      cases afterFraction with
      | nil => exact fun head => (ended '.' head).2.1 rfl
      | cons c afterFraction => exact point
    · rw [cons_append, append_assoc]
      exact fractionPart?_of_point ⟨digits.digit, stops digits.stops⟩ ne
  · rcases exponent_of_exponentPart? third with ⟨rfl, rfl, other⟩ |
      ⟨mark, sign, negative, run, isMark, signed, digits, ne, rfl, rfl⟩
    · exact exponentPart?_of_none fun c head => (ended c head).2.2
    · rw [append_nil, cons_append, append_assoc]
      exact exponentPart?_of_mark isMark signed ⟨digits.digit, fun c head => (ended c head).1⟩ ne

theorem number?_minus : Gives (number? ('-' :: s)) number r ↔ Gives (magnitude? true s) number r := by
  constructor
  · rintro ⟨_, read⟩
    obtain ⟨⟨got, behind, less⟩, computed, eq⟩ := map_eq_some_iff.1 read
    cases eq
    exact ⟨less, computed⟩
  · rintro ⟨less, computed⟩
    exact ⟨lt_succ_of_lt less, map_eq_some_iff.2 ⟨_, computed, rfl⟩⟩

theorem number?_plain (unsigned : s.head? ≠ some '-') :
    Gives (number? s) number r ↔ Gives (magnitude? false s) number r := by
  have eq : number? s = magnitude? false s := by
    unfold number?
    split
    · exact absurd rfl unsigned
    · rfl
  rw [eq]

theorem head_of_magnitude? (read : Gives (magnitude? negative s) number r) :
    ∃ c tl, s = c :: tl ∧ c.isDigit := by
  obtain ⟨run, afterWhole, -, -, -, fst, -⟩ := magnitude?_iff.1 read
  obtain ⟨whole, rfl⟩ := whole_of_wholePart? fst
  obtain ⟨c, run, rfl⟩ := exists_cons_of_ne_nil whole.nonempty
  exact ⟨c, run ++ afterWhole, rfl, whole.digit c mem_cons_self⟩

theorem head_of_number? (read : Gives (number? s) number r) : ∃ c tl, s = c :: tl ∧ (c = '-' ∨ c.isDigit) := by
  by_cases minus : s.head? = some '-'
  · obtain ⟨tl, rfl⟩ := head?_eq_some_iff.1 minus
    exact ⟨'-', tl, rfl, .inl rfl⟩
  · obtain ⟨c, tl, rfl, digit⟩ := head_of_magnitude? ((number?_plain minus).1 read)
    exact ⟨c, tl, rfl, .inr digit⟩

/-- **A number is read in front of what cannot continue it.** -/
theorem number?_append (ended : Ended r) (read : Gives (number? s) number []) :
    Gives (number? (s ++ r)) number r := by
  obtain ⟨c, tl, rfl, -⟩ := head_of_number? read
  by_cases minus : c = '-'
  · subst minus
    exact number?_minus.2 (magnitude?_append ended (number?_minus.1 read))
  · have unsigned (s : List Char) : (c :: s).head? ≠ some '-' := by simpa using minus
    exact (number?_plain (unsigned _)).2 (magnitude?_append ended ((number?_plain (unsigned _)).1 read))

end Numbers

/-! ## Integers -/

theorem le_ofDigitChars (run : List Char) (start : Nat) : start ≤ ofDigitChars 10 run start := by
  induction run generalizing start with
  | nil => exact Nat.le_refl _
  | cons c run ih =>
    have later := ih (10 * start + (c.toNat - '0'.toNat))
    exact Nat.le_trans (by omega) later

theorem gather_eq {start taken : Nat} (fits : ofDigitChars 10 run start < digitBound) :
    gather ⟨start, taken, 0⟩ run = ⟨ofDigitChars 10 run start, taken + run.length, 0⟩ := by
  induction run generalizing start taken with
  | nil => rfl
  | cons c run ih =>
    have step : ofDigitChars 10 (c :: run) start =
        ofDigitChars 10 run (start * 10 + digitValue c) := by
      rw [Nat.mul_comm start]
      rfl
    rw [step] at fits ⊢
    have small : start * 10 + digitValue c < digitBound := Nat.lt_of_le_of_lt (le_ofDigitChars run _) fits
    rw [gather, if_pos ⟨rfl, small⟩, ih fits, length_cons, Nat.add_right_comm, Nat.add_assoc]

theorem whole_toDigits (n : Nat) : Whole (toDigits 10 n) [] := by
  have ne (n : Nat) : toDigits 10 n ≠ [] := by
    rw [toDigits_eq_if (by decide)]
    split <;> simp
  refine ⟨⟨fun c mem => isDigit_of_mem_toDigits (by decide) (by decide) mem, nofun⟩, ne n, fun zero => ?_⟩
  induction n using Nat.strongRecOn with
  | _ n ih =>
    by_cases small : n < 10
    · rw [toDigits_of_lt_base small] at zero ⊢
      rw [some.inj zero]
    · -- the digits in front are those of a smaller number, which is not zero
      have front := toDigits_of_base_le (b := 10) (by decide) (Nat.not_lt.1 small)
      have fst : (toDigits 10 (n / 10)).head? = some '0' := by
        obtain ⟨c, tl, split⟩ := exists_cons_of_ne_nil (ne (n / 10))
        rw [front, split] at zero
        rwa [split]
      have digits := ih (n / 10) (by omega) fst
      have v := ofDigitChars_ten_toDigits (n := n / 10)
      rw [digits] at v
      have nothing : n / 10 = 0 := v.symm
      omega

def Number.IsWord (value : Int) : Prop :=
  -9223372036854775808 ≤ value ∧ value < 18446744073709551616

theorem magnitude?_toDigits {negative : Bool} {number : Number} (n : Nat) (small : n < digitBound)
    (got : integerNumber? negative ⟨n, (toDigits 10 n).length, 0⟩ = some number) :
    Gives (magnitude? negative (toDigits 10 n)) number [] := by
  have whole := wholePart?_of_whole (whole_toDigits n)
  rw [append_nil] at whole
  refine magnitude?_iff.2 ⟨_, [], [], [], none, whole, fractionPart?_of_none nofun,
    exponentPart?_of_none nofun, ?_⟩
  rw [numberOf?, if_pos ⟨rfl, rfl⟩, gather_eq (by rwa [ofDigitChars_ten_toDigits]),
    ofDigitChars_ten_toDigits, Nat.zero_add, got]

/-- **An integer is read back.** -/
theorem number?_integer {v : Int} (isWord : Number.IsWord v) :
    Gives (number? (toString v).toList) (.integer v) [] := by
  have bound : digitBound = 18446744073709551616 := rfl
  have half : Nat.pow 2 63 = 9223372036854775808 := rfl
  obtain ⟨above, below⟩ := isWord
  cases v with
  | ofNat n =>
    have text : (toString (Int.ofNat n)).toList = toDigits 10 n := by
      show (Nat.repr n).toList = _
      rw [repr_eq_ofList_toDigits, String.toList_ofList]
    rw [text]
    have small : n < digitBound := by
      rw [bound]
      have := Int.ofNat_eq_natCast n
      omega
    have read : Gives (magnitude? false (toDigits 10 n)) (.integer (Int.ofNat n)) [] :=
      magnitude?_toDigits n small rfl
    obtain ⟨c, tl, split, digit⟩ := head_of_magnitude? read
    refine (number?_plain ?_).2 read
    rw [split]
    rintro ⟨⟩
    exact absurd digit (by decide)
  | negSucc n =>
    have text : (toString (Int.negSucc n)).toList = '-' :: toDigits 10 (n + 1) := by
      show ("-" ++ Nat.repr (n + 1)).toList = _
      rw [repr_eq_ofList_toDigits, String.toList_append, String.toList_ofList, String.toList_ofList]
      rfl
    rw [text]
    refine number?_minus.2 (magnitude?_toDigits (n + 1) (by rw [bound]; omega) ?_)
    have fits : ¬ (n + 1 = 0 ∨ Nat.pow 2 63 < n + 1) := by
      rw [half]
      omega
    rw [integerNumber?, if_pos rfl, if_pos rfl, if_neg fits]
    rfl

end Bindery.Json
