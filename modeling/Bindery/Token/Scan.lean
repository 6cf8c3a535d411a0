/-
Token.Scan -- reading one lexeme

Each function takes the text at a lexeme's start, or just behind its opening
mark, and returns the characters of the lexeme and the text behind it.  Nothing
is lost: the two parts put together are the text that was given.
-/
import Bindery.Text.Blank
import Bindery.Text.Numeric
import Bindery.Token.Basic

namespace Bindery.Scan

open Text

def isNameStart (c : Char) : Bool :=
  c == '$' || c == '_' || isAlphabetic c

def isNamePart (c : Char) : Bool :=
  c == '$' || c == '_' || c == '\u200c' || c == '\u200d' || isAlphanumeric c

def isLineEnd (c : Char) : Bool :=
  c == '\n' || c == '\r' || c == '\u2028' || c == '\u2029'

def isDigitPart (c : Char) : Bool :=
  c.isDigit || c == '_'

def isHexPart (c : Char) : Bool :=
  c.isDigit || ('a' ≤ c && c ≤ 'f') || ('A' ≤ c && c ≤ 'F') || c == '_'

def run (p : Char → Bool) (text : List Char) : List Char × List Char :=
  (text.takeWhile p, text.dropWhile p)

def keep (before : List Char) : List Char × List Char → List Char × List Char
  | (taken, rest) => (before ++ taken, rest)

def stringTail (quote : Char) : List Char → Option (List Char × List Char)
  | [] => none
  | ['\\'] => none
  | '\\' :: c :: rest => (stringTail quote rest).map (keep ['\\', c])
  | c :: rest =>
    if c = quote then some ([c], rest)
    else if c = '\n' then none
    else (stringTail quote rest).map (keep [c])

/-- The rest of a regular expression up to its closing slash; `inClass` says that
the text stands inside square brackets, where a slash is ordinary. -/
def regexTail (inClass : Bool) : List Char → Option (List Char × List Char)
  | [] => none
  | ['\\'] => none
  | '\\' :: c :: rest => (regexTail inClass rest).map (keep ['\\', c])
  | c :: rest =>
    if c = '[' then (regexTail true rest).map (keep [c])
    else if c = ']' then (regexTail false rest).map (keep [c])
    else if c = '/' ∧ inClass = false then some ([c], rest)
    else if c = '\n' then none
    else (regexTail inClass rest).map (keep [c])

inductive TemplateEnd where
  /-- by the closing backquote -/
  | closed
  /-- by a dollar sign and a brace, which open a substitution -/
  | opened
  deriving Repr, DecidableEq

/-- Template text up to the mark that ends it; the mark is in neither part. -/
def templateText : List Char → Option (List Char × TemplateEnd × List Char)
  | [] => none
  | ['\\'] => none
  | '\\' :: c :: rest =>
    (templateText rest).map fun (taken, mark, behind) => ('\\' :: c :: taken, mark, behind)
  | '\x60' :: rest => some ([], .closed, rest)
  | '$' :: '\x7b' :: rest => some ([], .opened, rest)
  | c :: rest =>
    (templateText rest).map fun (taken, mark, behind) => (c :: taken, mark, behind)

def fraction : List Char → List Char × List Char
  | '.' :: rest => keep ['.'] (run isDigitPart rest)
  | text => ([], text)

def sign : List Char → List Char × List Char
  | c :: rest => if c = '+' ∨ c = '-' then ([c], rest) else ([], c :: rest)
  | [] => ([], [])

def exponent : List Char → List Char × List Char
  | mark :: rest =>
    let (signed, digits) := sign rest
    if (mark = 'e' ∨ mark = 'E') ∧ digits.head?.any Char.isDigit then
      keep (mark :: signed) (run isDigitPart digits)
    else ([], mark :: rest)
  | [] => ([], [])

def bigMark : List Char → List Char × List Char
  | 'n' :: rest => (['n'], rest)
  | text => ([], text)

def namesBase (c : Char) : Bool :=
  c == 'x' || c == 'X' || c == 'o' || c == 'O' || c == 'b' || c == 'B'

def magnitude : List Char → List Char × List Char
  | '0' :: base :: rest =>
    if namesBase base then keep ['0', base] (run isHexPart rest)
    else decimal ('0' :: base :: rest)
  | text => decimal text
where
  /-- Digits, then a fraction, then an exponent. -/
  decimal (text : List Char) : List Char × List Char :=
    let (digits, rest) := run isDigitPart text
    let (places, rest) := fraction rest
    let (scale, rest) := exponent rest
    (digits ++ places ++ scale, rest)

def number (text : List Char) : List Char × List Char :=
  let (digits, rest) := magnitude text
  keep digits (bigMark rest)

/-- The longest punctuator the text starts with.  A question mark before a
decimal fraction stands alone. -/
def punctuator? (text : List Char) : Option String :=
  match punctuators.find? (fun mark => mark.toList.isPrefixOf text) with
  | some mark =>
    if mark = "?." ∧ (text.drop 2).head?.any Char.isDigit then some "?" else some mark
  | none => none

/-- The text behind the end of a block comment, and whether the comment holds a
line feed. -/
def blockComment : List Char → Option (List Char × Bool × List Char)
  | [] => none
  | '*' :: '/' :: rest => some (['*', '/'], false, rest)
  | c :: rest =>
    (blockComment rest).map fun (taken, newline, behind) =>
      (c :: taken, newline || c == '\n', behind)

/-! ## Nothing is lost -/

theorem keep_append (before : List Char) (parts : List Char × List Char) :
    (keep before parts).1 ++ (keep before parts).2 = before ++ (parts.1 ++ parts.2) := by
  simp [keep]

theorem stringTail_append {quote : Char} {text : List Char} :
    ∀ {parts : List Char × List Char}, stringTail quote text = some parts →
      parts.1 ++ parts.2 = text := by
  fun_induction stringTail quote text with
  | case1 => simp
  | case2 => simp
  | case3 c rest ih =>
    intro parts found
    obtain ⟨inner, found', rfl⟩ := Option.map_eq_some_iff.1 found
    simp [keep_append, ih found']
  | case4 rest =>
    rintro parts ⟨⟩
    rfl
  | case5 => simp
  | case6 c rest _ _ _ _ ih =>
    intro parts found
    obtain ⟨inner, found', rfl⟩ := Option.map_eq_some_iff.1 found
    simp [keep_append, ih found']

theorem regexTail_append {inClass : Bool} {text : List Char} :
    ∀ {parts : List Char × List Char}, regexTail inClass text = some parts →
      parts.1 ++ parts.2 = text := by
  fun_induction regexTail inClass text with
  | case1 => simp
  | case2 => simp
  | case3 inClass c rest ih | case4 inClass rest _ _ ih | case5 inClass rest _ _ _ ih
  | case8 inClass c rest _ _ _ _ _ _ ih =>
    intro parts found
    obtain ⟨inner, found', rfl⟩ := Option.map_eq_some_iff.1 found
    simp [keep_append, ih found']
  | case6 inClass c rest _ _ _ stop =>
    rintro parts ⟨⟩
    rfl
  | case7 => simp

def TemplateEnd.text : TemplateEnd → List Char
  | .closed => ['\x60']
  | .opened => ['$', '\x7b']

theorem templateText_append {text : List Char} :
    ∀ {parts : List Char × TemplateEnd × List Char}, templateText text = some parts →
      parts.1 ++ parts.2.1.text ++ parts.2.2 = text := by
  fun_induction templateText text with
  | case1 => simp
  | case2 => simp
  | case3 c rest ih | case6 c rest _ _ _ _ ih =>
    intro parts found
    obtain ⟨inner, found', rfl⟩ := Option.map_eq_some_iff.1 found
    simp [← ih found']
  | case4 rest | case5 rest =>
    rintro parts ⟨⟩
    rfl

theorem blockComment_append {text : List Char} :
    ∀ {parts : List Char × Bool × List Char}, blockComment text = some parts →
      parts.1 ++ parts.2.2 = text := by
  fun_induction blockComment text with
  | case1 => simp
  | case2 rest =>
    rintro parts ⟨⟩
    rfl
  | case3 c rest _ ih =>
    intro parts found
    obtain ⟨inner, found', rfl⟩ := Option.map_eq_some_iff.1 found
    simp [ih found']

theorem run_append (p : Char → Bool) (text : List Char) :
    (run p text).1 ++ (run p text).2 = text := by
  simp [run]

theorem fraction_append (text : List Char) :
    (fraction text).1 ++ (fraction text).2 = text := by
  fun_cases fraction text with
  | case1 rest => simp [keep_append, run_append]
  | case2 => rfl

theorem sign_append (text : List Char) : (sign text).1 ++ (sign text).2 = text := by
  fun_cases sign text <;> rfl

theorem exponent_append (text : List Char) :
    (exponent text).1 ++ (exponent text).2 = text := by
  fun_cases exponent text with
  | case1 mark rest signed digits same marked =>
    have := sign_append rest
    simp [keep_append, run_append, same] at this ⊢
    exact this
  | case2 => rfl
  | case3 => rfl

theorem bigMark_append (text : List Char) : (bigMark text).1 ++ (bigMark text).2 = text := by
  fun_cases bigMark text <;> rfl

theorem decimal_append (text : List Char) :
    (magnitude.decimal text).1 ++ (magnitude.decimal text).2 = text := by
  simp [magnitude.decimal, exponent_append, fraction_append, run_append]

theorem magnitude_append (text : List Char) :
    (magnitude text).1 ++ (magnitude text).2 = text := by
  fun_cases magnitude text with
  | case1 base rest _ => simp [keep_append, run_append]
  | case2 base rest _ => exact decimal_append _
  | case3 => exact decimal_append _

theorem number_append (text : List Char) : (number text).1 ++ (number text).2 = text := by
  simp [number, keep_append, bigMark_append, magnitude_append]

/-! ## Something is taken -/

theorem length_run_le (p : Char → Bool) (text : List Char) :
    (run p text).2.length ≤ text.length := by
  have := congrArg List.length (run_append p text)
  simp at this
  omega

theorem magnitude_ne_nil {c : Char} (rest : List Char) (first : c.isDigit ∨ c = '.') :
    (magnitude (c :: rest)).1 ≠ [] := by
  have taken : (magnitude.decimal (c :: rest)).1 ≠ [] := by
    by_cases part : isDigitPart c = true
    · simp [magnitude.decimal, run, part]
    · have point : c = '.' := by
        rcases first with digit | point
        · simp [isDigitPart, digit] at part
        · exact point
      subst point
      simp [magnitude.decimal, run, part, fraction, keep]
  unfold magnitude
  split
  · next same =>
    split
    · simp [keep]
    · exact same ▸ taken
  · exact taken

theorem length_number_lt {c : Char} {rest : List Char}
    (first : c.isDigit ∨ (c = '.' ∧ rest.head?.any Char.isDigit)) :
    (number (c :: rest)).2.length < (c :: rest).length := by
  have taken := magnitude_ne_nil rest (first.imp id And.left)
  have := congrArg List.length (magnitude_append (c :: rest))
  have := congrArg List.length (bigMark_append (magnitude (c :: rest)).2)
  have := List.length_pos_iff.2 taken
  simp [number, keep] at *
  omega

theorem punctuator?_length_pos {text : List Char} {mark : String}
    (found : punctuator? text = some mark) : 0 < mark.length := by
  have written : ∀ mark ∈ punctuators, 0 < mark.length := by decide
  unfold punctuator? at found
  split at found
  · next mark' found' =>
    have := written _ (List.mem_of_find?_eq_some found')
    split at found
    · cases found; decide
    · cases found; exact this
  · cases found

end Bindery.Scan
