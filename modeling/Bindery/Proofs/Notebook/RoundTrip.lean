/-
Proofs.Notebook.RoundTrip -- a written notebook is read back

A title and a list of drafts are written as a document (`render`): the title with its
special characters as entities, and for each draft a script element with its identity, type
and names in the opening tag and its source, in which closing tags are escaped, inside.
Reading the document gives back the title and the drafts (`parse_render`).
-/
import Bindery.Notebook.Document
import Bindery.Proofs.Notebook.Entity
import Bindery.Proofs.Notebook.Tag
import Bindery.Proofs.Text.Split
import Mathlib.Data.List.Infix

namespace Bindery.Notebook

open List hiding splitBy
open Text

/-! ## Writing -/

def escapes : List (String × Char) :=
  [("&amp;", '&'), ("&lt;", '<'), ("&gt;", '>'), ("&quot;", '\x22')]

def escape (c : Char) : List Char :=
  match escapes.find? (·.2 == c) with
  | some entity => entity.1.toList
  | none => [c]

def escapeText (text : List Char) : List Char :=
  text.flatMap escape

def escapeClosing (src : List Char) : List Char :=
  replaceAll "</script".toList "<\\/script".toList src

def writeAttribute (name : String) (value : List Char) : List Char :=
  ' ' :: (name.toList ++ '=' :: '\x22' :: (escapeText value ++ ['\x22']))

def IsName (name : String) : Prop :=
  name ≠ "" ∧ ∀ c ∈ name.toList, c ≠ ',' ∧ isBlank c = false

instance (name : String) : Decidable (IsName name) :=
  decidable_of_iff (name ≠ "" ∧ name.toList.all (fun c => c != ',' && !isBlank c) = true) (by
    simp only [IsName, all_eq_true, Bool.and_eq_true, bne_iff_ne, Bool.not_eq_true'])

/-- A cell to be written. -/
structure Draft where
  id : String
  type : String
  names : List String
  source : String

namespace Draft

def output (draft : Draft) : List Char :=
  List.intercalate ", ".toList (draft.names.map String.toList)

def element (draft : Draft) : Element where
  tag := writeAttribute "id" draft.id.toList ++ writeAttribute "type" draft.type.toList ++
    writeAttribute "output" draft.output
  content := '\n' :: (escapeClosing draft.source.toList ++ ['\n'])

/-- What a cell needs to be read back. -/
structure Writable (draft : Draft) : Prop where
  identified : draft.id ≠ ""
  distinct : draft.names.Nodup
  named : ∀ name ∈ draft.names, IsName name
  unescaped : ¬ "<\\/script".toList <:+: draft.source.toList
  inside : Untagged "notebook" draft.source.toList
  closed : Untagged "script" (escapeClosing draft.source.toList)

/-- The cell is the draft read back. -/
structure ReadAs (draft : Draft) (index : Nat) (cell : SourceCell) : Prop where
  id : cell.id = draft.id
  index : cell.index = index
  language : cell.language = .ofAttribute (some draft.type)
  declared : cell.declared = draft.names
  source : cell.source = String.ofList (dedent ('\n' :: (draft.source.toList ++ ['\n'])))
  view : cell.isView = true ↔ ∃ blank rest, isBlank blank = true ∧
    cell.source.toList = "viewof".toList ++ blank :: rest

end Draft

variable {name title : String} {w src : List Char} {ns : List String}
  {elements : List Element} {drafts : List Draft}

def titleElement (title : String) : Element where
  tag := []
  content := escapeText title.toList

def notebookElement (title : String) (drafts : List Draft) : Element where
  tag := []
  content := (titleElement title).render "title" ++
    drafts.flatMap fun draft => draft.element.render "script"

/-- The text of a notebook. -/
def render (title : String) (drafts : List Draft) : String :=
  String.ofList ((notebookElement title drafts).render "notebook")

/-! ## Escaped characters -/

theorem escape_cases (c : Char) :
    (escape c = [c] ∧ ∀ ent ∈ escapes, ent.2 ≠ c) ∨ ∃ ent ∈ escapes, escape c = ent.1.toList ∧ ent.2 = c := by
  unfold escape
  cases got : escapes.find? (·.2 == c) with
  | none =>
    refine .inl ⟨rfl, fun ent mem eq => ?_⟩
    exact find?_eq_none.1 got ent mem (beq_iff_eq.2 eq)
  | some ent =>
    have eq := find?_some (p := fun ent : String × Char => ent.2 == c) got
    exact .inr ⟨ent, mem_of_find?_eq_some got, rfl, beq_iff_eq.1 eq⟩

theorem spelling_escape : Spelling escape := by
  have known : ∀ ent ∈ escapes, ent ∈ entities := by decide
  intro c
  rcases escape_cases c with ⟨plain, other⟩ | ⟨ent, mem, spelled, eq⟩
  · exact .inl ⟨plain, fun ampersand => other ("&amp;", '&') (by decide) ampersand.symm⟩
  · exact .inr ⟨ent, known ent mem, spelled, eq⟩

theorem decodeEntities_escapeText (s : List Char) : decodeEntities (escapeText s) = s :=
  decodeEntities_spelled spelling_escape s

theorem not_mem_escapeText (ent : String × Char) (mem : ent ∈ escapes)
    (special : ent.2 ≠ '&') (s : List Char) : ent.2 ∉ escapeText s := by
  have absent : ∀ ent ∈ escapes, ent.2 ≠ '&' → ∀ other ∈ escapes, ent.2 ∉ other.1.toList := by
    decide
  intro inside
  obtain ⟨c, -, inside⟩ := mem_flatMap.1 inside
  rcases escape_cases c with ⟨plain, nodup⟩ | ⟨other, known, spelled, -⟩
  · rw [plain, mem_singleton] at inside
    exact nodup ent mem inside
  · rw [spelled] at inside
    exact absent ent mem special other known inside

theorem angle_not_mem_escapeText (s : List Char) : '<' ∉ escapeText s :=
  not_mem_escapeText (("&lt;", '<')) (by decide) (by decide) s

theorem untagged_escapeText (s : List Char) : Untagged name (escapeText s) := by
  have plain := Untagged.plain_append (angle_not_mem_escapeText s) (.nil name)
  rwa [append_nil] at plain

/-- A text of which each character is written on its own keeps its blanks in front: blanks
stay, and nothing else is written with a blank in front. -/
theorem dropWhile_flatMap {spell : Char → List Char} (blank : ∀ c, isBlank c → spell c = [c])
    (vis : ∀ c, isBlank c = false → ∃ fst r, spell c = fst :: r ∧ isBlank fst = false) (s : List Char) :
    (s.flatMap spell).dropWhile isBlank = (s.dropWhile isBlank).flatMap spell := by
  induction s with
  | nil => rfl
  | cons c s ih =>
    rw [flatMap_cons]
    cases isIt : isBlank c with
    | true =>
      rw [blank c isIt, singleton_append, dropWhile_cons_of_pos isIt, dropWhile_cons_of_pos isIt, ih]
    | false =>
      obtain ⟨fst, r, spelled, differs⟩ := vis c isIt
      rw [dropWhile_cons_of_neg (by simp [isIt]), flatMap_cons, spelled, cons_append,
        dropWhile_cons_of_neg (by simp [differs])]

theorem escape_blank {c : Char} (blank : isBlank c) : escape c = [c] := by
  have vis : ∀ ent ∈ escapes, isBlank ent.2 = false := by decide
  rcases escape_cases c with ⟨plain, -⟩ | ⟨ent, mem, -, rfl⟩
  · exact plain
  · rw [vis ent mem] at blank
    cases blank

theorem trim_escapeText (s : List Char) : trim (escapeText s) = escapeText (trim s) := by
  have ends : ∀ ent ∈ escapes, (ent.1.toList.head?.any fun c => !isBlank c) ∧
      (ent.1.toList.reverse.head?.any fun c => !isBlank c) := by decide
  have exposed {w : List Char} (starts : (w.head?.any fun c => !isBlank c)) :
      ∃ fst r, w = fst :: r ∧ isBlank fst = false := by
    cases w with
    | nil => cases starts
    | cons fst r => exact ⟨fst, r, rfl, by simpa using starts⟩
  have front : trimStart (escapeText s) = escapeText (trimStart s) :=
    dropWhile_flatMap (fun c => escape_blank) (fun c vis => by
      rcases escape_cases c with ⟨plain, -⟩ | ⟨ent, mem, spelled, -⟩
      · exact ⟨c, [], plain, vis⟩
      · exact spelled ▸ exposed (ends ent mem).1) s
  have back (s : List Char) : trimEnd (escapeText s) = escapeText (trimEnd s) := by
    have behind (c : Char) (vis : isBlank c = false) :
        ∃ fst r, (reverse ∘ escape) c = fst :: r ∧ isBlank fst = false := by
      rcases escape_cases c with ⟨plain, -⟩ | ⟨ent, mem, spelled, -⟩
      · exact ⟨c, [], by simp [plain], vis⟩
      · exact exposed (by simpa [spelled] using (ends ent mem).2)
    rw [trimEnd, escapeText, reverse_flatMap,
      dropWhile_flatMap (fun c blank => by simp [escape_blank blank]) behind,
      trimEnd, escapeText, flatMap_reverse]
  rw [trim, front, back, trim]

/-! ## Attributes -/

/-- **An attribute is read back.** -/
theorem attributes_writeAttribute {fst : Char} {tl : List Char} (named : name.toList = fst :: tl)
    (starts : isAttributeStart fst) (continues : tl.all isAttributePart) (v r : List Char) :
    attributes (writeAttribute name v ++ r) =
      ⟨String.ofList (asciiLowercase name.toList), some (String.ofList v)⟩ :: attributes r := by
  have quote : '\x22' ∉ escapeText v := not_mem_escapeText (("&quot;", '\x22')) (by decide) (by decide) v
  have assigned : assigned? ('=' :: '\x22' :: (escapeText v ++ '\x22' :: r)) =
      some (escapeText v, r) := by
    have equals (s : List Char) : trimStart ('=' :: s) = '=' :: s := rfl
    have opens (s : List Char) : trimStart ('\x22' :: s) = '\x22' :: s := rfl
    rw [assigned?, equals]
    change value? (trimStart _) = _
    rw [opens, value?, if_pos (.inl rfl), quotedValue?, (span_append quote).1, (span_append quote).2]
  have part : ∀ c ∈ tl, isAttributePart c := fun c => all_eq_true.1 continues c
  have ends : isAttributePart '=' = false := by decide
  have whole : writeAttribute name v ++ r =
      ' ' :: fst :: (tl ++ '=' :: '\x22' :: (escapeText v ++ '\x22' :: r)) := by
    simp [writeAttribute, named]
  rw [whole, attributes, if_neg (by decide), attributes, if_pos starts]
  dsimp only
  rw [takeWhile_append_of_pos part, dropWhile_append_of_pos part,
    takeWhile_cons_of_neg (by simp [ends]), dropWhile_cons_of_neg (by simp [ends]),
    append_nil, ← named]
  split
  · next got =>
    rw [assigned] at got
    cases got
    rw [decodeEntities_escapeText]
  · next got =>
    rw [assigned] at got
    cases got

/-! ## Declared names -/

theorem trim_of_visible (vis : ∀ c ∈ w, isBlank c = false) : trim w = w := by
  have keep {s : List Char} (vis : ∀ c ∈ s, isBlank c = false) :
      s.dropWhile isBlank = s := by
    cases s with
    | nil => rfl
    | cons c s => rw [dropWhile_cons_of_neg (by simp [vis c mem_cons_self])]
  rw [trim, trimStart, keep vis, trimEnd, keep fun c mem => vis c (mem_reverse.1 mem), reverse_reverse]

section

variable (isName : IsName name)
include isName

theorem IsName.whole : ∀ c ∈ name.toList, separatesNames c = false := by
  intro c mem
  obtain ⟨comma, vis⟩ := isName.2 c mem
  have blanks : ∀ blank ∈ [' ', '\t', '\n'], c ≠ blank := by
    rintro blank known rfl
    simp only [mem_cons, not_mem_nil, or_false] at known
    rcases known with rfl | rfl | rfl <;> exact absurd vis (by decide)
  simp only [mem_cons, not_mem_nil, or_false, forall_eq_or_imp, forall_eq] at blanks
  simp [separatesNames, comma, blanks]

theorem IsName.trim : Text.trim name.toList = name.toList := trim_of_visible fun c mem => (isName.2 c mem).2

theorem IsName.isEmpty : name.toList.isEmpty = false := by
  cases letters : name.toList with
  | nil => exact absurd (String.toList_eq_nil_iff.1 letters) isName.1
  | cons c r => rfl

theorem namesIn_word : namesIn name.toList = [name] := by
  simp [namesIn, splitBy_word isName.whole, isName.trim, isName.isEmpty]

theorem namesIn_append (r : List Char) : namesIn (name.toList ++ ',' :: ' ' :: r) = name :: namesIn r := by
  have empty : Text.trim [] = [] := rfl
  rw [namesIn, Text.splitBy_append (by decide), splitBy_word isName.whole, splitBy, if_pos (by decide)]
  simp [namesIn, isName.trim, isName.isEmpty, empty]

end

/-- **The names are read back.** -/
theorem namesIn_intercalate (named : ∀ name ∈ ns, IsName name) :
    namesIn (intercalate ", ".toList (ns.map String.toList)) = ns := by
  induction ns with
  | nil => rfl
  | cons name ns ih =>
    have isName := named name mem_cons_self
    cases ns with
    | nil => simpa [intercalate] using namesIn_word isName
    | cons other ns =>
      have later := ih fun other mem => named other (.tail _ mem)
      rw [map_cons, map_cons, intercalate_cons_cons, ← map_cons, append_assoc]
      exact (namesIn_append isName _).trans (congrArg _ later)

theorem foldl_addName {known : List String} (nodup : (known ++ ns).Nodup) :
    ns.foldl addName known = known ++ ns := by
  induction ns generalizing known with
  | nil => rw [append_nil]; rfl
  | cons name ns ih =>
    have fresh : name ∉ known := fun mem =>
      (nodup_append.1 nodup).2.2 name mem name mem_cons_self rfl
    have shift : known ++ name :: ns = (known ++ [name]) ++ ns := by simp
    rw [shift] at nodup
    rw [foldl_cons, addName, if_neg (by simpa using fresh), ih nodup, shift]

/-! ## Sources -/

theorem escapeClosing_append (r : List Char) :
    escapeClosing ("</script".toList ++ r) = "<\\/script".toList ++ escapeClosing r :=
  replaceAll_append

/-- Induction along the escape: a source starts with what is escaped, or with a character
that is kept. -/
theorem escapeClosing_induction {P : List Char → Prop} (nil : P [])
    (escaped : ∀ r, P r → P ("</script".toList ++ r))
    (kept : ∀ c src, escapeClosing (c :: src) = c :: escapeClosing src → P src → P (c :: src))
    (src : List Char) : P src := by
  induction size : src.length using Nat.strongRecOn generalizing src with
  | _ _ ih =>
    subst size
    cases src with
    | nil => exact nil
    | cons c src =>
      by_cases closes : "</script".toList <+: c :: src
      · obtain ⟨r, whole⟩ := closes
        rw [← whole] at ih ⊢
        refine escaped r (ih _ ?_ r rfl)
        rw [length_append]
        exact Nat.lt_add_of_pos_left (by decide)
      · exact kept c src (replaceAll_cons closes) (ih _ (Nat.lt_succ_self _) src rfl)

theorem prefix_escapeClosing (free : '<' ∉ w) (src : List Char) : w <+: escapeClosing src ↔ w <+: src := by
  induction src using escapeClosing_induction generalizing w with
  | nil => rfl
  | escaped r =>
    cases w with
    | nil => simp
    | cons x w =>
      have other : x ≠ '<' := fun eq => free (eq ▸ mem_cons_self)
      rw [escapeClosing_append]
      constructor <;> intro starts <;> exact absurd (cons_prefix_cons.1 starts).1 other
  | kept c src eq ih =>
    cases w with
    | nil => simp
    | cons x w =>
      rw [mem_cons, not_or] at free
      rw [eq, cons_prefix_cons, cons_prefix_cons]
      exact and_congr_right fun _ => ih free.2

/-- **The escape is undone**, also with a line break behind the source. -/
theorem replaceAll_escapeClosing (unescaped : ¬ "<\\/script".toList <:+: src) :
    replaceAll "<\\/script".toList "</script".toList (escapeClosing src ++ ['\n']) = src ++ ['\n'] := by
  induction src using escapeClosing_induction with
  | nil => rfl
  | escaped r ih =>
    have later := ih fun inside => unescaped (inside.trans (suffix_append _ _).isInfix)
    rw [escapeClosing_append, append_assoc, append_assoc, ← later]
    exact replaceAll_append
  | kept c src eq ih =>
    have later := ih fun inside => unescaped (inside.trans (suffix_cons _ _).isInfix)
    have absent : ¬ "<\\/script".toList <+: c :: (escapeClosing src ++ ['\n']) := by
      -- what follows the bracket stands in the source already
      have split : "<\\/script".toList = '<' :: "\\/script".toList := by decide
      intro starts
      rw [split] at starts unescaped
      obtain ⟨rfl, behind⟩ := cons_prefix_cons.1 starts
      rcases prefix_concat_iff.1 behind with last | behind
      · have mem : '\n' ∈ "\\/script".toList := last ▸ mem_append_right _ mem_cons_self
        exact absurd mem (by decide)
      · have behind := (prefix_escapeClosing (by decide) src).1 behind
        exact unescaped (cons_prefix_cons.2 ⟨rfl, behind⟩).isInfix
    rw [eq, cons_append, replaceAll_cons absent, later, cons_append]

theorem untagged_escapeClosing (untagged : Untagged "notebook" src) :
    Untagged "notebook" (escapeClosing src) := by
  induction src using escapeClosing_induction with
  | nil => exact untagged
  | escaped r ih =>
    have later := ih fun tag closes inside =>
      untagged tag closes (inside.trans (suffix_append _ _).isInfix)
    have free : '<' ∉ "\\/script".toList := by decide
    rw [escapeClosing_append]
    exact .angle (by decide) (.plain_append free later)
  | kept c src eq ih =>
    have later := ih untagged.of_cons
    intro tag closes inside
    rw [eq] at inside
    rcases infix_cons_iff.1 inside with starts | inside
    · obtain ⟨tail, rfl, free⟩ := closes.eq_cons (by decide)
      obtain ⟨rfl, behind⟩ := cons_prefix_cons.1 starts
      have behind := (prefix_escapeClosing (by simpa using free) src).1 behind
      exact untagged _ closes (cons_prefix_cons.2 ⟨rfl, behind⟩).isInfix
    · exact later tag closes inside

/-! ## Reading a document -/

namespace Draft

variable {draft : Draft}

theorem not_mem_tag {bracket : Char} (isBracket : bracket = '<' ∨ bracket = '>') :
    bracket ∉ draft.element.tag := by
  have written {name : String} {v : List Char} (other : bracket ∉ ' ' :: (name.toList ++ ['=', '\x22'])) :
      bracket ∉ writeAttribute name v := by
    have free : bracket ∉ escapeText v := by
      rcases isBracket with rfl | rfl
      · exact angle_not_mem_escapeText v
      · exact not_mem_escapeText (("&gt;", '>')) (by decide) (by decide) v
    simp only [writeAttribute, mem_cons, mem_append, not_mem_nil, or_false] at other ⊢
    tauto
  simp only [element, mem_append, not_or]
  rcases isBracket with rfl | rfl
  · exact ⟨⟨written (by decide), written (by decide)⟩, written (by decide)⟩
  · exact ⟨⟨written (by decide), written (by decide)⟩, written (by decide)⟩

theorem Writable.readable (writable : draft.Writable) : draft.element.Readable "script" where
  tag := not_mem_tag (.inr rfl)
  apart := by
    have space : isWordChar ' ' = false := by decide
    exact space
  content := .cons_of_ne (by decide) (.append_singleton (by decide) writable.closed)

theorem attributes_tag (draft : Draft) :
    attributes draft.element.tag =
      [⟨"id", some draft.id⟩, ⟨"type", some draft.type⟩, ⟨"output", some (String.ofList draft.output)⟩] := by
  have none : attributes [] = [] := by rw [attributes]
  rw [element]
  dsimp only
  rw [append_assoc, attributes_writeAttribute rfl (by decide) (by decide),
    attributes_writeAttribute rfl (by decide) (by decide),
    ← append_nil (writeAttribute "output" _),
    attributes_writeAttribute rfl (by decide) (by decide), none, String.ofList_toList, String.ofList_toList]
  rfl

theorem Writable.header (writable : draft.Writable) :
    (attributes draft.element.tag).foldl Header.add {} =
      { id := some draft.id, type := some draft.type, declared := draft.names } := by
  have ns : namesIn draft.output = draft.names := namesIn_intercalate writable.named
  have declared : draft.names.foldl addName [] = draft.names := foldl_addName writable.distinct
  rw [attributes_tag]
  simp [Header.add, ns, declared]

theorem startsView_iff : startsView src ↔ ∃ blank r, isBlank blank ∧ src = "viewof".toList ++ blank :: r := by
  constructor
  · intro starts
    unfold startsView stripStart? at starts
    split at starts
    · next r stripped =>
      split at stripped
      · next isPrefix =>
        obtain ⟨tl, rfl⟩ := isPrefixOf_iff_prefix.1 isPrefix
        rw [drop_left] at stripped
        cases stripped
        cases r with
        | nil => cases starts
        | cons blank r => exact ⟨blank, r, by simpa using starts, rfl⟩
      · cases stripped
    · cases starts
  · rintro ⟨blank, r, isBlank, rfl⟩
    rw [startsView, stripStart?, if_pos <| isPrefixOf_iff_prefix.2 (prefix_append _ _), drop_left]
    exact isBlank

/-- **A cell is read back.** -/
theorem Writable.readAs (writable : draft.Writable) (i : Nat) : draft.ReadAs i (cellOf i draft.element) := by
  have src : sourceOf draft.element.content = dedent ('\n' :: (draft.source.toList ++ ['\n'])) := by
    have absent : ¬ "<\\/script".toList <+: '\n' :: (escapeClosing draft.source.toList ++ ['\n']) :=
      fun starts => absurd (cons_prefix_cons.1 starts).1 (by decide)
    rw [sourceOf, element]
    dsimp only
    rw [replaceAll_cons absent, replaceAll_escapeClosing writable.unescaped]
  have identity : (some draft.id).filter (!·.isEmpty) = some draft.id :=
    Option.filter_eq_some_iff.2 ⟨rfl, by simpa using writable.identified⟩
  rw [cellOf, writable.header, src]
  exact {
    id := by dsimp only; rw [identity, Option.getD_some]
    index := rfl
    language := by dsimp only
    declared := rfl
    source := rfl
    view := by simp only [String.toList_ofList]; exact startsView_iff }

end Draft

theorem skips_titleElement (title : String) (r : List Char) :
    Skips (openStart? "script") ((titleElement title).render "title") r := by
  have opening : '<' ∉ 't' :: ("itle>".toList ++ escapeText title.toList) := by
    rw [← cons_append, mem_append]
    exact not_or.2 ⟨by decide, angle_not_mem_escapeText _⟩
  exact (skips_openStart? _ _ rfl (by decide) opening _).append
    (skips_openStart? '/' "title>".toList rfl (by decide) (by decide) r)

theorem scripts_render (readable : ∀ e ∈ elements, e.Readable "script") (pre : List Char)
    (skips : ∀ r, Skips (openStart? "script") pre r) :
    ∃ behind, scripts (pre ++ elements.flatMap (·.render "script")) = (elements, behind) ∧
      firstMatch (openStart? "script") behind = none := by
  induction elements generalizing pre with
  | nil =>
    have noStart : firstMatch (openStart? "script") pre = none := firstMatch_eq_none (skips []) rfl
    have noScript : firstMatch (element? "script") pre = none :=
      firstMatch_eq_none ((skips []).imp fun _ => element?_of_openStart?) rfl
    refine ⟨pre, ?_, noStart⟩
    rw [flatMap_nil, append_nil, scripts]
    split
    · rfl
    · next got =>
      rw [noScript] at got
      cases got
  | cons e elements ih =>
    obtain ⟨behind, later, noStart⟩ := ih (fun other mem => readable other (.tail _ mem))
      [] (fun _ => trivial)
    have here := element?_render (by decide) (readable e mem_cons_self) (elements.flatMap (·.render "script"))
    have fst : firstMatch (element? "script")
        (pre ++ (e :: elements).flatMap (·.render "script")) =
        some (pre, e, elements.flatMap (·.render "script")) := by
      rw [flatMap_cons, ((skips _).imp fun _ => element?_of_openStart?).firstMatch,
        firstMatch_of_some here, Option.map_some]
      dsimp only
      rw [append_nil]
    refine ⟨behind, ?_, noStart⟩
    rw [scripts]
    split
    · next got =>
      rw [fst] at got
      cases got
    · next got =>
      rw [fst] at got
      cases got
      rw [nil_append] at later
      rw [later]

theorem scripts_append (writable : ∀ draft ∈ drafts, draft.Writable)
    (pre : List Char) (skips : ∀ r, Skips (openStart? "script") pre r) :
    ∃ behind, scripts (pre ++ drafts.flatMap fun draft => draft.element.render "script") =
        (drafts.map Draft.element, behind) ∧ firstMatch (openStart? "script") behind = none := by
  have readable : ∀ e ∈ drafts.map Draft.element, e.Readable "script" := by
    intro e mem
    obtain ⟨draft, inside, rfl⟩ := mem_map.1 mem
    exact (writable draft inside).readable
  have got := scripts_render readable pre skips
  rwa [flatMap_map] at got

theorem untagged_scripts (tags : ∀ e ∈ elements, '<' ∉ e.tag)
    (contents : ∀ e ∈ elements, Untagged "notebook" e.content) :
    Untagged "notebook" (elements.flatMap (·.render "script")) := by
  induction elements with
  | nil => exact .nil _
  | cons e elements ih =>
    have later := ih (fun other mem => tags other (.tail _ mem)) fun other mem => contents other (.tail _ mem)
    rw [flatMap_cons]
    exact .render_append (by decide) (by decide) (by decide) (tags e mem_cons_self)
      (contents e mem_cons_self) later

theorem untagged_notebookElement (writable : ∀ draft ∈ drafts, draft.Writable) :
    Untagged "notebook" (notebookElement title drafts).content := by
  have scripts : Untagged "notebook" ((drafts.map Draft.element).flatMap (·.render "script")) := by
    refine untagged_scripts ?_ ?_
    · intro e mem
      obtain ⟨draft, _, rfl⟩ := mem_map.1 mem
      exact Draft.not_mem_tag (.inl rfl)
    · intro e mem
      obtain ⟨draft, inside, rfl⟩ := mem_map.1 mem
      exact .cons_of_ne (by decide) (.append_singleton (by decide)
        (untagged_escapeClosing (writable draft inside).inside))
  rw [flatMap_map] at scripts
  exact .render_append (by decide) (by decide) (by decide) (by nofun) (untagged_escapeText _) scripts

theorem body_render (e : Element) (readable : e.Readable "notebook") (r : List Char) :
    body (e.render "notebook" ++ r) = .ok e.content := by
  rw [Element.render_append, body,
    firstMatch_of_some (openTag?_append (by decide) readable.tag readable.apart)]
  dsimp only
  rw [firstMatch_closeTag? (by decide) readable.content]

theorem titleOf_render (drafts : List Draft) (titled : trim title.toList ≠ []) :
    titleOf ((notebookElement title drafts).render "notebook") =
      some (String.ofList (trim title.toList)) := by
  have readable : (titleElement title).Readable "title" := ⟨nofun, rfl, untagged_escapeText _⟩
  have opening (r : List Char) : Skips (element? "title") "<notebook>".toList r :=
    (skips_openStart? 'n' "otebook>".toList rfl (by decide) (by decide) r).imp fun _ => element?_of_openStart?
  have got : firstMatch (element? "title") ((notebookElement title drafts).render "notebook") =
      some ("<notebook>".toList, titleElement title,
        (drafts.flatMap fun draft => draft.element.render "script") ++ "</notebook>".toList) := by
    have split : (notebookElement title drafts).render "notebook" =
        "<notebook>".toList ++ ((titleElement title).render "title" ++
          ((drafts.flatMap fun draft => draft.element.render "script") ++ "</notebook>".toList)) := by
      simp [Element.render, notebookElement]
    rw [split, (opening _).firstMatch, firstMatch_of_some (element?_render (by decide) readable _)]
    rfl
  rw [titleOf, got, Option.bind_some]
  dsimp only
  rw [titleElement, trim_escapeText, decodeEntities_escapeText]
  exact Option.filter_eq_some_iff.2 ⟨rfl, by simpa using titled⟩

/-- **A notebook is read back.** -/
theorem parse_render {title : String} {drafts : List Draft} (titled : trim title.toList ≠ [])
    (writable : ∀ draft ∈ drafts, draft.Writable) :
    ∃ notebook, parse (render title drafts) = .ok notebook ∧
      notebook.title = some (String.ofList (trim title.toList)) ∧
      List.Forall₂ (fun placed cell => placed.1.ReadAs placed.2 cell) drafts.zipIdx notebook.cells := by
  have content : body ((notebookElement title drafts).render "notebook") =
      .ok (notebookElement title drafts).content := by
    have read := body_render (notebookElement title drafts)
      ⟨nofun, rfl, untagged_notebookElement writable⟩ []
    rwa [List.append_nil] at read
  obtain ⟨behind, found, noStart⟩ := scripts_append writable _ (skips_titleElement title)
  have read : parse (render title drafts) = .ok {
      title := titleOf ((notebookElement title drafts).render "notebook")
      libraryName := libraryNameOf (titleOf ((notebookElement title drafts).render "notebook"))
      cells := (drafts.map Draft.element).zipIdx.map fun placed => cellOf placed.2 placed.1 } := by
    rw [parse, render, String.toList_ofList, content]
    dsimp only
    rw [notebookElement, found]
    dsimp only
    rw [noStart, if_neg (by decide)]
  refine ⟨_, read, titleOf_render drafts titled, ?_⟩
  dsimp only
  rw [List.zipIdx_map, List.map_map, List.forall₂_map_right_iff]
  refine List.forall₂_same.2 fun placed member => ?_
  exact (writable _ (List.fst_mem_of_mem_zipIdx member)).readAs _

/-- A view whose source has a closing tag in it, and a page in which a closing tag of the
notebook is not completed. -/
def sampleDrafts : List Draft :=
  [⟨"a <1> & \"2\"", "module", ["x", "y"], "viewof x = \"</script>\""⟩,
    ⟨"b", "text/html", [], "  <b></NOTEBOOK</b>\n  &lt;"⟩]

theorem parse_render_sample :
    (∀ draft ∈ sampleDrafts, draft.Writable) ∧
    ∃ notebook, parse (render " Maps & <more> " sampleDrafts) = .ok notebook ∧
      notebook.title = some (String.ofList (trim " Maps & <more> ".toList)) ∧
      List.Forall₂ (fun placed cell => placed.1.ReadAs placed.2 cell) sampleDrafts.zipIdx
        notebook.cells := by
  have writable : ∀ draft ∈ sampleDrafts, draft.Writable := by
    simp only [sampleDrafts, List.mem_cons, List.not_mem_nil, or_false, forall_eq_or_imp, forall_eq]
    constructor
    · exact ⟨by decide, by decide, by decide, by decide, by decide, by decide⟩
    · exact ⟨by decide, by decide, by decide, by decide, by decide, by decide⟩
  exact ⟨writable, parse_render (by decide) writable⟩

end Bindery.Notebook
