/-
Notebook.Element -- elements in a document

A document is searched for single elements; what stands around them does not
matter.  The name of an element is compared without regard to case, which by the
rules of case folding lets the Kelvin sign stand for a `k` and the long s for an
`s`.  An opening tag reaches to the next `>`, whatever stands in between, and an
element to the first closing tag of its name.
-/
import Bindery.Notebook.Entity
import Bindery.Text.Blank
import Bindery.Text.Lowercase
import Bindery.Text.Word

namespace Bindery.Notebook

open Option Text

/-! ## Tags -/

def isFormOf (letter c : Char) : Bool :=
  c.toLower == letter || (letter == 'k' && c == '\u212a') || (letter == 's' && c == '\u017f')

/-- The text behind a word written in lower case, whatever the case in the text. -/
def stripFolded? : List Char → List Char → Option (List Char)
  | [], text => some text
  | _ :: _, [] => none
  | letter :: letters, c :: rest =>
    if isFormOf letter c then stripFolded? letters rest else none

/-- The text behind the start of an opening tag: `<`, the name and the end of a
word. -/
def openStart? (name : String) (text : List Char) : Option (List Char) :=
  (stripFolded? ('<' :: name.toList) text).filter fun rest => !rest.head?.any isWordChar

def openTag? (name : String) (text : List Char) : Option (List Char × List Char) :=
  (openStart? name text).bind fun rest =>
    match rest.dropWhile (· != '>') with
    | [] => none
    | _ :: behind => some (rest.takeWhile (· != '>'), behind)

def closeTag? (name : String) (text : List Char) : Option (List Char) :=
  (stripFolded? ('<' :: '/' :: name.toList) text).bind fun rest =>
    match trimStart rest with
    | '>' :: behind => some behind
    | _ => none

/-- The first place of a text where something is found: the text before it, and
what was found. -/
def firstMatch {α : Type} (find? : List Char → Option α) : List Char → Option (List Char × α)
  | [] => (find? []).map ([], ·)
  | c :: rest =>
    match find? (c :: rest) with
    | some found => some ([], found)
    | none => (firstMatch find? rest).map fun (before, found) => (c :: before, found)

/-- An element: what stands in its opening tag, and its content. -/
structure Element where
  tag : List Char
  content : List Char
  deriving Repr, DecidableEq

def element? (name : String) (text : List Char) : Option (Element × List Char) :=
  (openTag? name text).bind fun (tag, rest) =>
    (firstMatch (closeTag? name) rest).map fun (content, behind) => (⟨tag, content⟩, behind)

theorem length_stripFolded? {letters text rest : List Char}
    (found : stripFolded? letters text = some rest) :
    rest.length + letters.length = text.length := by
  induction letters generalizing text with
  | nil =>
    simp only [stripFolded?, Option.some.injEq] at found
    simp [found]
  | cons letter letters ih =>
    cases text with
    | nil => simp [stripFolded?] at found
    | cons c text =>
      simp only [stripFolded?] at found
      split at found
      · have := ih found
        simp
        omega
      · cases found

theorem length_openStart?_lt {name : String} {text rest : List Char}
    (found : openStart? name text = some rest) : rest.length < text.length := by
  have := length_stripFolded? (filter_eq_some_iff.1 found).1
  simp at this
  omega

theorem length_openTag?_lt {name : String} {text : List Char} {parts : List Char × List Char}
    (found : openTag? name text = some parts) : parts.2.length < text.length := by
  obtain ⟨rest, start, found⟩ := bind_eq_some_iff.1 found
  have := length_openStart?_lt start
  have := (List.dropWhile_sublist (· != '>') (l := rest)).length_le
  split at found
  · cases found
  · next behind same =>
    cases found
    rw [same] at this
    simp at this ⊢
    omega

theorem length_closeTag?_le {name : String} {text rest : List Char}
    (found : closeTag? name text = some rest) : rest.length ≤ text.length := by
  obtain ⟨inner, start, found⟩ := bind_eq_some_iff.1 found
  have := length_stripFolded? start
  have := (List.dropWhile_sublist isBlank (l := inner)).length_le
  split at found
  · next behind same =>
    cases found
    rw [trimStart] at same
    rw [same] at this
    simp at this
    omega
  · cases found

theorem firstMatch_eq_some {α : Type} {find? : List Char → Option α} {text : List Char} :
    ∀ {before : List Char} {found : α}, firstMatch find? text = some (before, found) →
      ∃ here, before ++ here = text ∧ find? here = some found := by
  fun_induction firstMatch find? text with
  | case1 =>
    intro before found match_
    obtain ⟨_, here, same⟩ := map_eq_some_iff.1 match_
    cases same
    exact ⟨[], rfl, here⟩
  | case2 c rest _ here =>
    rintro before found ⟨⟩
    exact ⟨c :: rest, rfl, here⟩
  | case3 c rest _ ih =>
    intro before found match_
    obtain ⟨⟨inner, found'⟩, match', same⟩ := map_eq_some_iff.1 match_
    cases same
    obtain ⟨here, whole, found⟩ := ih match'
    exact ⟨here, by simp [whole], found⟩

theorem length_element?_lt {name : String} {text rest : List Char} {found : Element}
    (match_ : element? name text = some (found, rest)) : rest.length < text.length := by
  obtain ⟨⟨tag, inside⟩, opened, closed⟩ := bind_eq_some_iff.1 match_
  obtain ⟨⟨content, behind⟩, close, same⟩ := map_eq_some_iff.1 closed
  cases same
  obtain ⟨here, whole, close⟩ := firstMatch_eq_some close
  have := length_openTag?_lt opened
  have := length_closeTag?_le close
  have := congrArg List.length whole
  simp at *
  omega

/-! ## Attributes -/

def isAttributeStart (c : Char) : Bool :=
  c.isAlpha || c == '_' || c == ':'

def isAttributePart (c : Char) : Bool :=
  c.isAlphanum || c == '-' || c == '_' || c == ':' || c == '.'

def isUnquotedPart (c : Char) : Bool :=
  !isBlank c && c != '\x22' && c != '\x27' && c != '=' && c != '<' && c != '>' && c != '\x60'

def quotedValue? (quote : Char) (text : List Char) : Option (List Char × List Char) :=
  match text.dropWhile (· != quote) with
  | [] => none
  | _ :: behind => some (text.takeWhile (· != quote), behind)

def value? : List Char → Option (List Char × List Char)
  | [] => none
  | c :: rest =>
    if c = '\x22' ∨ c = '\x27' then quotedValue? c rest
    else if isUnquotedPart c then
      some (c :: rest.takeWhile isUnquotedPart, rest.dropWhile isUnquotedPart)
    else none

def assigned? (text : List Char) : Option (List Char × List Char) :=
  match trimStart text with
  | '=' :: rest => value? (trimStart rest)
  | _ => none

/-- An attribute: its name in lower case, and its value if it has one. -/
structure Attribute where
  name : String
  value : Option String
  deriving Repr, DecidableEq

theorem length_quotedValue?_le {quote : Char} {text : List Char} {parts : List Char × List Char}
    (found : quotedValue? quote text = some parts) : parts.2.length ≤ text.length := by
  unfold quotedValue? at found
  have := (List.dropWhile_sublist (· != quote) (l := text)).length_le
  split at found
  · cases found
  · next behind same =>
    cases found
    rw [same] at this
    simp at this ⊢
    omega

theorem length_trimStart_le (text : List Char) : (trimStart text).length ≤ text.length :=
  (List.dropWhile_sublist isBlank).length_le

theorem length_value?_le {text : List Char} {parts : List Char × List Char}
    (found : value? text = some parts) : parts.2.length ≤ text.length := by
  unfold value? at found
  split at found
  · cases found
  · split at found
    · have := length_quotedValue?_le found
      simp
      omega
    · split at found
      · cases found
        have := fun rest => (List.dropWhile_sublist isUnquotedPart (l := rest)).length_le
        exact Nat.le_succ_of_le (this _)
      · cases found

theorem length_assigned?_le {text : List Char} {parts : List Char × List Char}
    (found : assigned? text = some parts) : parts.2.length ≤ text.length := by
  unfold assigned? at found
  have outer := length_trimStart_le text
  split at found
  · next rest same =>
    have := length_value?_le found
    have := length_trimStart_le rest
    rw [same] at outer
    simp at outer
    omega
  · cases found

def attributes (text : List Char) : List Attribute :=
  match text with
  | [] => []
  | c :: rest =>
    if isAttributeStart c then
      let name := String.ofList (asciiLowercase (c :: rest.takeWhile isAttributePart))
      match _found : assigned? (rest.dropWhile isAttributePart) with
      | some (value, behind) =>
        ⟨name, some (String.ofList (decodeEntities value))⟩ :: attributes behind
      | none => ⟨name, none⟩ :: attributes (rest.dropWhile isAttributePart)
    else attributes rest
  termination_by text.length
  decreasing_by
    all_goals have := (List.dropWhile_sublist isAttributePart (l := rest)).length_le
    · have := length_assigned?_le _found
      simp at *
      omega
    · simp
      omega
    · simp

end Bindery.Notebook
