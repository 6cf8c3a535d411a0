/-
Json.Parser -- reading JSON text

`parse?` reads a text that holds one value and nothing else but white space.  The
grammar is the strict one: no comments, no final comma, no leading zero, no raw
control character in a string, no lone surrogate.  Containers may be nested 127
deep.  Every reader returns the rest of the text together with the fact that it is
shorter, so that reading ends on every text.
-/
import Bindery.Json.Basic

namespace Bindery.Json

abbrev Shorter (text : List Char) := { rest : List Char // rest.length < text.length }

abbrev NotLonger (text : List Char) := { rest : List Char // rest.length ≤ text.length }

def isSpace (c : Char) : Bool :=
  c == ' ' || c == '\n' || c == '\t' || c == '\r'

def skipSpace (text : List Char) : NotLonger text :=
  ⟨text.dropWhile isSpace, (List.dropWhile_sublist isSpace).length_le⟩

def next? (mark : Char) (text : List Char) : Option (Shorter text) :=
  match same : (skipSpace text).val with
  | [] => none
  | c :: rest =>
    if c = mark then
      some ⟨rest, by
        have := (skipSpace text).2
        rw [same] at this
        exact this⟩
    else none

/-! ## Numbers -/

def digitValue (c : Char) : Nat :=
  c.toNat - '0'.toNat

/-- Digits are gathered up to this bound; those behind only count as places. -/
def digitBound : Nat := Nat.pow 2 64

/-- Digits as they are read: the number they make up, how many were read behind
it that no longer fit, and whether one was refused. -/
structure Gathered where
  digits : Nat
  /-- digits that were read and taken into the number -/
  taken : Nat
  /-- digits that were read and left out -/
  skipped : Nat

/-- Gather the digits of a list behind a number.  After the first digit that does
not fit no other is taken. -/
def gather (gathered : Gathered) : List Char → Gathered
  | [] => gathered
  | c :: rest =>
    let next := gathered.digits * 10 + digitValue c
    if gathered.skipped = 0 ∧ next < digitBound then
      gather { gathered with digits := next, taken := gathered.taken + 1 } rest
    else gather { gathered with skipped := gathered.skipped + 1 } rest

def digitRun (text : List Char) : List Char × NotLonger text :=
  (text.takeWhile Char.isDigit,
    ⟨text.dropWhile Char.isDigit, (List.dropWhile_sublist Char.isDigit).length_le⟩)

def signOf (text : List Char) : Bool × NotLonger text :=
  match text with
  | '-' :: more => (true, ⟨more, Nat.le_succ _⟩)
  | '+' :: more => (false, ⟨more, Nat.le_succ _⟩)
  | more => (false, ⟨more, Nat.le_refl _⟩)

/-- The exponent part of a number, if one stands here: its value, and the text
behind it.  A mark without a digit is an error. -/
def exponentPart? (text : List Char) : Option (Option Int × NotLonger text) :=
  match text with
  | [] => some (none, ⟨[], Nat.le_refl _⟩)
  | mark :: rest =>
    if mark = 'e' ∨ mark = 'E' then
      let signed := signOf rest
      let (run, behind) := digitRun signed.2.val
      if run.isEmpty then none
      else
        let value := Int.ofNat (run.foldl (fun value c => value * 10 + digitValue c) 0)
        some (some (if signed.1 then -value else value),
          ⟨behind.val, Nat.le_trans behind.2 (Nat.le_succ_of_le signed.2.2)⟩)
    else some (none, ⟨mark :: rest, Nat.le_refl _⟩)

/-- The fraction of a number, if a point stands here: its digits, and the text
behind it.  A point without a digit is an error. -/
def fractionPart? (text : List Char) : Option (List Char × NotLonger text) :=
  match text with
  | '.' :: rest =>
    let (run, behind) := digitRun rest
    if run.isEmpty then none
    else some (run, ⟨behind.val, by have := behind.2; simp; omega⟩)
  | other => some ([], ⟨other, Nat.le_refl _⟩)

/-- An integer, when it has 64 bits; a double otherwise. -/
def integerNumber? (negative : Bool) (gathered : Gathered) : Option Number :=
  if gathered.skipped = 0 then
    if negative then
      if gathered.digits = 0 ∨ Nat.pow 2 63 < gathered.digits then
        (Double.ofParts? true gathered.digits 0).map .double
      else some (.integer (-gathered.digits))
    else some (.integer gathered.digits)
  else (Double.ofParts? negative gathered.digits gathered.skipped).map .double

def doubleNumber? (negative : Bool) (whole : Gathered) (fraction : List Char) (exponent : Int) :
    Option Number :=
  let places := gather { whole with taken := 0, skipped := 0 } fraction
  (Double.ofParts? negative places.digits (whole.skipped - places.taken + exponent)).map .double

/-- The digits in front of the point: a zero alone, or a run without a leading
zero. -/
def wholePart? (text : List Char) : Option (List Char × Shorter text) :=
  match text with
  | [] => none
  | c :: rest =>
    if c = '0' then
      if rest.head?.any Char.isDigit then none else some ([c], ⟨rest, by simp⟩)
    else if c.isDigit then
      let (run, behind) := digitRun rest
      some (c :: run, ⟨behind.val, Nat.lt_succ_of_le behind.2⟩)
    else none

def magnitude? (negative : Bool) (text : List Char) : Option (Number × Shorter text) :=
  match wholePart? text with
  | none => none
  | some (run, ⟨afterWhole, less⟩) =>
    match fractionPart? afterWhole with
    | none => none
    | some (fraction, ⟨afterFraction, le⟩) =>
      match exponentPart? afterFraction with
      | none => none
      | some (exponent, ⟨rest, le'⟩) =>
        let whole := gather ⟨0, 0, 0⟩ run
        let number :=
          if fraction.isEmpty ∧ exponent.isNone then integerNumber? negative whole
          else doubleNumber? negative whole fraction (exponent.getD 0)
        number.map (·, ⟨rest, by omega⟩)

def number? (text : List Char) : Option (Number × Shorter text) :=
  match text with
  | '-' :: rest =>
    (magnitude? true rest).map fun (number, behind) =>
      (number, ⟨behind.val, by have := behind.2; simp; omega⟩)
  | other => magnitude? false other

/-! ## Strings -/

def hexValue? (c : Char) : Option Nat :=
  if c.isDigit then some (c.toNat - '0'.toNat)
  else if 'a' ≤ c ∧ c ≤ 'f' then some (c.toNat - 'a'.toNat + 10)
  else if 'A' ≤ c ∧ c ≤ 'F' then some (c.toNat - 'A'.toNat + 10)
  else none

def hexUnit? (a b c d : Char) : Option Nat :=
  match hexValue? a, hexValue? b, hexValue? c, hexValue? d with
  | some a, some b, some c, some d => some (((a * 16 + b) * 16 + c) * 16 + d)
  | _, _, _, _ => none

def letterEscape? (c : Char) : Option Char :=
  match c with
  | '\x22' => some '\x22'
  | '\\' => some '\\'
  | '/' => some '/'
  | 'b' => some '\x08'
  | 'f' => some '\x0c'
  | 'n' => some '\n'
  | 'r' => some '\r'
  | 't' => some '\t'
  | _ => none

def isLeading (unit : Nat) : Bool :=
  decide (0xD800 ≤ unit) && decide (unit ≤ 0xDBFF)

def isTrailing (unit : Nat) : Bool :=
  decide (0xDC00 ≤ unit) && decide (unit ≤ 0xDFFF)

def stringTail? (text : List Char) : Option (List Char × Shorter text) :=
  match text with
  | [] => none
  | '\x22' :: rest => some ([], ⟨rest, by simp⟩)
  | '\\' :: 'u' :: a :: b :: c :: d :: rest =>
    match hexUnit? a b c d with
    | none => none
    | some unit =>
      if isLeading unit then
        match rest with
        | '\\' :: 'u' :: e :: f :: g :: h :: rest =>
          match hexUnit? e f g h with
          | none => none
          | some next =>
            if isTrailing next then
              let point := 0x10000 + (unit - 0xD800) * 0x400 + (next - 0xDC00)
              (stringTail? rest).map fun (tail, behind) =>
                (Char.ofNat point :: tail, ⟨behind.val, by have := behind.2; simp; omega⟩)
            else none
        | _ => none
      else if isTrailing unit then none
      else
        (stringTail? rest).map fun (tail, behind) =>
          (Char.ofNat unit :: tail, ⟨behind.val, by have := behind.2; simp; omega⟩)
  | '\\' :: c :: rest =>
    match letterEscape? c with
    | none => none
    | some escaped =>
      (stringTail? rest).map fun (tail, behind) =>
        (escaped :: tail, ⟨behind.val, by have := behind.2; simp; omega⟩)
  | c :: rest =>
    if c.toNat < 0x20 ∨ c = '\\' then none
    else
      (stringTail? rest).map fun (tail, behind) =>
        (c :: tail, ⟨behind.val, by have := behind.2; simp; omega⟩)
  termination_by text.length

def string? (text : List Char) : Option (String × Shorter text) :=
  match text with
  | '\x22' :: rest =>
    (stringTail? rest).map fun (value, behind) =>
      (String.ofList value, ⟨behind.val, by have := behind.2; simp; omega⟩)
  | _ => none

/-! ## Values -/

def word? (word : List Char) (value : Value) (text : List Char) : Option (Value × Shorter text) :=
  if h : word.isPrefixOf text = true ∧ 0 < word.length then
    some (value, ⟨text.drop word.length, by
      have := (List.isPrefixOf_iff_prefix.1 h.1).length_le
      simp
      omega⟩)
  else none

def scalar? (text : List Char) : Option (Value × Shorter text) :=
  match text.head? with
  | some '\x22' => (string? text).map fun (value, behind) => (.string value, behind)
  | some 't' => word? "true".toList (.bool true) text
  | some 'f' => word? "false".toList (.bool false) text
  | some 'n' => word? "null".toList .null text
  | _ => (number? text).map fun (value, behind) => (.number value, behind)

def name? (text : List Char) : Option (String × Shorter text) :=
  match string? (skipSpace text).val with
  | none => none
  | some (name, rest) =>
    (next? ':' rest.val).map fun behind =>
      (name, ⟨behind.val,
        Nat.lt_of_lt_of_le (Nat.lt_trans behind.2 rest.2) (skipSpace text).2⟩)

mutual

/-- A value, with white space in front of it, in which containers may be nested
`depth` deep. -/
def value? (depth : Nat) (text : List Char) : Option (Value × Shorter text) :=
  match same : (skipSpace text).val with
  | [] => none
  | c :: rest =>
    have less : rest.length < text.length := by
      have := (skipSpace text).2
      rw [same] at this
      exact this
    if c = '[' then
      match depth with
      | 0 => none
      | depth + 1 =>
        match next? ']' rest with
        | some behind => some (.array [], ⟨behind.val, Nat.lt_trans behind.2 less⟩)
        | none =>
          (items? depth rest).map fun (items, behind) =>
            (.array items, ⟨behind.val, Nat.lt_trans behind.2 less⟩)
    else if c = '\x7b' then
      match depth with
      | 0 => none
      | depth + 1 =>
        match next? '\x7d' rest with
        | some behind => some (.object [], ⟨behind.val, Nat.lt_trans behind.2 less⟩)
        | none =>
          (members? depth [] rest).map fun (members, behind) =>
            (.object members, ⟨behind.val, Nat.lt_trans behind.2 less⟩)
    else
      (scalar? (c :: rest)).map fun (value, behind) =>
        (value, ⟨behind.val, Nat.lt_of_lt_of_le behind.2 less⟩)
  termination_by (depth, text.length, 0)

def items? (depth : Nat) (text : List Char) : Option (List Value × Shorter text) :=
  match value? depth text with
  | none => none
  | some (item, rest) =>
    match next? ']' rest.val with
    | some behind => some ([item], ⟨behind.val, Nat.lt_trans behind.2 rest.2⟩)
    | none =>
      match next? ',' rest.val with
      | none => none
      | some more =>
        have less : more.val.length < text.length := Nat.lt_trans more.2 rest.2
        (items? depth more.val).map fun (items, behind) =>
          (item :: items, ⟨behind.val, Nat.lt_trans behind.2 less⟩)
  termination_by (depth, text.length, 1)
  decreasing_by
    · exact Prod.Lex.right _ (Prod.Lex.right _ (by decide))
    · exact Prod.Lex.right _ (Prod.Lex.left _ _ less)

def members? (depth : Nat) (before : Members) (text : List Char) :
    Option (Members × Shorter text) :=
  match name? text with
  | none => none
  | some (name, afterColon) =>
    match value? depth afterColon.val with
    | none => none
    | some (value, rest) =>
      have shorter : rest.val.length < text.length := Nat.lt_trans rest.2 afterColon.2
      let members := before.insert name value
      match next? '\x7d' rest.val with
      | some behind => some (members, ⟨behind.val, Nat.lt_trans behind.2 shorter⟩)
      | none =>
        match next? ',' rest.val with
        | none => none
        | some more =>
          have less : more.val.length < text.length := Nat.lt_trans more.2 shorter
          (members? depth members more.val).map fun (members, behind) =>
            (members, ⟨behind.val, Nat.lt_trans behind.2 less⟩)
  termination_by (depth, text.length, 1)
  decreasing_by
    · exact Prod.Lex.right _ (Prod.Lex.left _ _ afterColon.2)
    · exact Prod.Lex.right _ (Prod.Lex.left _ _ less)

end

def maxDepth : Nat := 127

def parse? (text : String) : Option Value :=
  match value? maxDepth text.toList with
  | none => none
  | some (value, rest) => if (skipSpace rest.val).val.isEmpty then some value else none

end Bindery.Json
