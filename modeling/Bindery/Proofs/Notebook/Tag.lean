/-
Proofs.Notebook.Tag -- where tags stand in a text

A closing tag is an angle bracket, a slash, the name in any case, blanks and an angle
bracket (`CloseTag`); `closeTag?_eq_some` says that the reader finds exactly these.  A tag
has no opening bracket but its first character, so whether a text is free of tags
(`Untagged`) can be decided part by part, where a part ends in front of a bracket.
-/
import Bindery.Notebook.Element
import Mathlib.Data.List.Forall2

namespace Bindery.Notebook

open List Option Text

/-! ## The first match -/

section FirstMatch

variable {α : Type} {find? : List Char → Option α} {s r : List Char}

theorem firstMatch_of_some {got : α} (here : find? s = some got) : firstMatch find? s = some ([], got) := by
  cases s with
  | nil => rw [firstMatch, here]; rfl
  | cons c r => rw [firstMatch, here]

theorem firstMatch_cons {c : Char} (absent : find? (c :: r) = none) :
    firstMatch find? (c :: r) = (firstMatch find? r).map fun (p, got) =>
      (c :: p, got) := by
  rw [firstMatch, absent]

def Skips (find? : List Char → Option α) (s r : List Char) : Prop :=
  match s with
  | [] => True
  | c :: s => find? (c :: (s ++ r)) = none ∧ Skips find? s r

theorem Skips.append {fst snd : List Char} (skips : Skips find? fst (snd ++ r))
    (later : Skips find? snd r) : Skips find? (fst ++ snd) r := by
  induction fst with
  | nil => exact later
  | cons c fst ih =>
    have here := skips.1
    rw [← append_assoc] at here
    exact ⟨here, ih skips.2⟩

theorem Skips.of_forall_mem (absent : ∀ c ∈ s, ∀ r, find? (c :: r) = none)
    (r : List Char) : Skips find? s r := by
  induction s with
  | nil => trivial
  | cons c s ih =>
    exact ⟨absent c mem_cons_self _, ih fun d mem => absent d (.tail _ mem)⟩

theorem Skips.imp {β : Type} {find' : List Char → Option β} (absent : ∀ s, find? s = none → find' s = none)
    (skips : Skips find? s r) : Skips find' s r := by
  induction s with
  | nil => trivial
  | cons c s ih => exact ⟨absent _ skips.1, ih skips.2⟩

theorem Skips.firstMatch (skips : Skips find? s r) :
    firstMatch find? (s ++ r) = (Notebook.firstMatch find? r).map fun (p, got) =>
      (s ++ p, got) := by
  induction s with
  | nil =>
    rw [nil_append]
    exact (congrFun map_id _).symm
  | cons c s ih =>
    rw [List.cons_append, firstMatch_cons skips.1, ih skips.2, Option.map_map]
    rfl

theorem firstMatch_eq_none (skips : Skips find? s []) (absent : find? [] = none) :
    firstMatch find? s = none := by
  have got := skips.firstMatch
  rw [append_nil, firstMatch, absent] at got
  exact got

theorem firstMatch_eq_none_iff : firstMatch find? s = none ↔ ∀ here, here <:+ s → find? here = none := by
  induction s with
  | nil => simp [firstMatch]
  | cons c s ih =>
    constructor
    · intro absent here suffix
      cases fst : find? (c :: s) with
      | some got =>
        rw [firstMatch_of_some fst] at absent
        cases absent
      | none =>
        rw [firstMatch_cons fst, map_eq_none_iff, ih] at absent
        rcases suffix_cons_iff.1 suffix with rfl | suffix
        · exact fst
        · exact absent here suffix
    · intro absent
      rw [firstMatch_cons (absent _ suffix_rfl), map_eq_none_iff, ih]
      exact fun here suffix => absent here (suffix.trans (suffix_cons c s))

end FirstMatch

/-! ## Words in any case -/

abbrev Folded (letters form : List Char) : Prop :=
  List.Forall₂ (fun letter c => isFormOf letter c = true) letters form

variable {letters s r : List Char} {n : String}

theorem stripFolded?_eq_some :
    stripFolded? letters s = some r ↔ ∃ form, Folded letters form ∧ s = form ++ r := by
  induction letters generalizing s with
  | nil =>
    simp only [stripFolded?, some.injEq]
    constructor
    · rintro rfl
      exact ⟨[], .nil, rfl⟩
    · rintro ⟨form, folded, rfl⟩
      cases folded
      rfl
  | cons letter letters ih =>
    cases s with
    | nil =>
      simp only [stripFolded?]
      constructor
      · intro absurd
        cases absurd
      · rintro ⟨form, folded, whole⟩
        cases folded
        cases whole
    | cons c s =>
      rw [stripFolded?]
      split
      · next here =>
        rw [ih]
        constructor
        · rintro ⟨form, folded, rfl⟩
          exact ⟨c :: form, .cons here folded, rfl⟩
        · rintro ⟨form, folded, whole⟩
          cases folded with
          | cons fst folded =>
            obtain ⟨rfl, rfl⟩ := cons.inj whole
            exact ⟨_, folded, rfl⟩
      · next other =>
        constructor
        · intro absurd
          cases absurd
        · rintro ⟨form, folded, whole⟩
          cases folded with
          | cons fst folded =>
            obtain ⟨rfl, rfl⟩ := cons.inj whole
            exact absurd fst other

theorem eq_of_isFormOf {mark c : Char} (isMark : mark.isAlpha = false) (form : isFormOf mark c) : c = mark := by
  have letters : mark ≠ 'k' ∧ mark ≠ 's' := by
    constructor <;> rintro rfl <;> exact absurd isMark (by decide)
  simp only [isFormOf, Bool.or_eq_true, Bool.and_eq_true, beq_iff_eq, letters.1, letters.2, false_and, or_false] at form
  unfold Char.toLower at form
  split at form
  · next upper =>
    subst form
    obtain ⟨above, below⟩ := upper
    have small := (Bool.or_eq_false_iff.1 isMark).2
    have outside := Bool.and_eq_false_iff.1 small
    simp only [decide_eq_false_iff_not, ge_iff_le, UInt32.le_iff_toNat_le, UInt32.toNat_add] at outside above below
    have bounds : 'A'.val.toNat = 65 ∧ 'Z'.val.toNat = 90 ∧ 'a'.val.toNat = 97 ∧
      'z'.val.toNat = 122 ∧ ('a'.val - 'A'.val).toNat = 32 := by decide
    omega
  · exact form

/-! ## Closing tags -/

def CloseTag (n : String) (tag : List Char) : Prop :=
  ∃ form blanks, Folded n.toList form ∧ (∀ c ∈ blanks, isBlank c = true) ∧
    tag = '<' :: '/' :: (form ++ blanks ++ ['>'])

theorem trimStart_append {blanks : List Char} {c : Char} (blank : ∀ c ∈ blanks, isBlank c)
    (vis : isBlank c = false) : trimStart (blanks ++ c :: r) = c :: r := by
  rw [trimStart, dropWhile_append_of_pos blank, dropWhile_cons_of_neg (by simp [vis])]

/-- **The reader finds the closing tags.** -/
theorem closeTag?_eq_some : closeTag? n s = some r ↔ ∃ tag, CloseTag n tag ∧ s = tag ++ r := by
  unfold closeTag?
  rw [bind_eq_some_iff]
  constructor
  · rintro ⟨behind, stripped, got⟩
    obtain ⟨form, folded, rfl⟩ := stripFolded?_eq_some.1 stripped
    cases folded with
    | cons angle folded =>
      cases folded with
      | cons slash folded =>
        cases eq_of_isFormOf (by decide) angle
        cases eq_of_isFormOf (by decide) slash
        split at got
        · next more trimmed =>
          cases got
          refine ⟨_, ⟨_, behind.takeWhile isBlank, folded, fun c mem => ?_, rfl⟩, ?_⟩
          · exact (all_eq_true.1 (all_takeWhile (l := behind) (p := isBlank))) c mem
          · have split := takeWhile_append_dropWhile (p := isBlank) (l := behind)
            rw [trimStart] at trimmed
            rw [trimmed] at split
            conv => lhs; rw [← split]
            simp
        · cases got
  · rintro ⟨tag, ⟨form, blanks, folded, blank, rfl⟩, rfl⟩
    refine ⟨blanks ++ '>' :: r, stripFolded?_eq_some.2 ⟨'<' :: '/' :: form, ?_, by simp⟩, ?_⟩
    · exact .cons (by decide) (.cons (by decide) folded)
    · rw [trimStart_append blank (by decide)]
      rfl

def IsTagName (n : String) : Prop :=
  (n.toList.all fun letter =>
    isFormOf letter letter && !isFormOf letter '<' && !isFormOf letter '/') = true

instance (n : String) : Decidable (IsTagName n) :=
  inferInstanceAs (Decidable (_ = true))

theorem IsTagName.letter {letter : Char} (isName : IsTagName n) (mem : letter ∈ n.toList) :
    isFormOf letter letter ∧ isFormOf letter '<' = false ∧ isFormOf letter '/' = false := by
  have all := all_eq_true.1 isName letter mem
  simp only [Bool.and_eq_true, Bool.not_eq_true'] at all
  exact ⟨all.1.1, all.1.2, all.2⟩

theorem IsTagName.folded (isName : IsTagName n) : Folded n.toList n.toList :=
  forall₂_same.2 fun _ mem => (isName.letter mem).1

theorem IsTagName.not_mem (isName : IsTagName n) {form : List Char}
    (folded : Folded n.toList form) : '<' ∉ form := by
  intro mem
  obtain ⟨i, bound, here⟩ := mem_iff_getElem.1 mem
  have letters := forall₂_iff_get.1 folded
  have bound' : i < n.toList.length := by rw [letters.1]; exact bound
  have isForm := letters.2 i bound' bound
  rw [get_eq_getElem, get_eq_getElem, here, (isName.letter (getElem_mem bound')).2.1] at isForm
  cases isForm

namespace CloseTag

variable {tag : List Char}

theorem plain (isName : IsTagName n) : CloseTag n ('<' :: '/' :: (n.toList ++ ['>'])) :=
  ⟨n.toList, [], isName.folded, fun _ => nofun, by rw [append_nil]⟩

theorem eq_cons (closes : CloseTag n tag) (isName : IsTagName n) :
    ∃ tail, tag = '<' :: '/' :: tail ∧ '<' ∉ tail := by
  obtain ⟨form, blanks, folded, blank, rfl⟩ := closes
  refine ⟨_, rfl, fun mem => ?_⟩
  rcases mem_append.1 mem with mem | last
  · rcases mem_append.1 mem with mem | mem
    · exact isName.not_mem folded mem
    · exact absurd (blank _ mem) (by decide)
  · exact absurd (mem_singleton.1 last) (by decide)

theorem prefix_of_prefix_append {c : Char} (closes : CloseTag n tag) (isName : IsTagName n)
    (starts : tag <+: c :: (s ++ '<' :: r)) : tag <+: c :: s := by
  obtain ⟨tail, rfl, free⟩ := closes.eq_cons isName
  rw [← cons_append] at starts
  rcases prefix_or_prefix_of_prefix starts (prefix_append _ _) with inside | ⟨tl, whole⟩
  · exact inside
  · rw [← whole, prefix_append_right_inj] at starts
    cases tl with
    | nil => exact ⟨[], by rw [← whole, append_nil, append_nil]⟩
    | cons d tl =>
      cases (cons_prefix_cons.1 starts).1
      rw [cons_append] at whole
      have mem : '<' ∈ '/' :: tail := (cons.inj whole).2 ▸ mem_append_right _ mem_cons_self
      rcases mem_cons.1 mem with slash | mem
      · exact absurd slash (by decide)
      · exact absurd mem free

end CloseTag

def Untagged (n : String) (s : List Char) : Prop :=
  ∀ tag, CloseTag n tag → ¬ tag <:+: s

theorem firstMatch_closeTag?_eq_none : firstMatch (closeTag? n) s = none ↔ Untagged n s := by
  rw [firstMatch_eq_none_iff]
  constructor
  · intro absent tag closes inside
    obtain ⟨here, starts, suffix⟩ := infix_iff_prefix_suffix.1 inside
    obtain ⟨r, whole⟩ := starts
    have got := closeTag?_eq_some.2 ⟨tag, closes, whole.symm⟩
    rw [absent here suffix] at got
    cases got
  · intro untagged here suffix
    cases got : closeTag? n here with
    | none => rfl
    | some r =>
      obtain ⟨tag, closes, whole⟩ := closeTag?_eq_some.1 got
      have starts : tag <+: here := ⟨r, whole.symm⟩
      exact absurd (infix_iff_prefix_suffix.2 ⟨here, starts, suffix⟩) (untagged tag closes)

instance (n : String) (s : List Char) : Decidable (Untagged n s) :=
  decidable_of_iff _ firstMatch_closeTag?_eq_none

namespace Untagged

variable {c : Char}

theorem nil (n : String) : Untagged n [] := by
  rintro tag ⟨form, blanks, -, -, rfl⟩ inside
  cases eq_nil_of_infix_nil inside

theorem cons_of_ne (other : c ≠ '<') (untagged : Untagged n s) : Untagged n (c :: s) := by
  intro tag closes inside
  rcases infix_cons_iff.1 inside with starts | inside
  · obtain ⟨form, blanks, -, -, rfl⟩ := closes
    exact other (cons_prefix_cons.1 starts).1.symm
  · exact untagged tag closes inside

theorem of_cons (untagged : Untagged n (c :: s)) : Untagged n s :=
  fun tag closes inside => untagged tag closes (infix_cons inside)

theorem plain_append {plain : List Char} (free : '<' ∉ plain) (untagged : Untagged n s) :
    Untagged n (plain ++ s) := by
  induction plain with
  | nil => exact untagged
  | cons c plain ih =>
    rw [mem_cons, not_or] at free
    exact cons_of_ne (Ne.symm free.1) (ih free.2)

theorem angle (other : c ≠ '/') (untagged : Untagged n (c :: s)) : Untagged n ('<' :: c :: s) := by
  intro tag closes inside
  rcases infix_cons_iff.1 inside with starts | inside
  · obtain ⟨form, blanks, -, -, rfl⟩ := closes
    exact other (cons_prefix_cons.1 (cons_prefix_cons.1 starts).2).1.symm
  · exact untagged tag closes inside

theorem angle_slash {letter : Char} {letters : List Char} (named : n.toList = letter :: letters)
    (differs : isFormOf letter c = false) (untagged : Untagged n (c :: s)) :
    Untagged n ('<' :: '/' :: c :: s) := by
  intro tag closes inside
  rcases infix_cons_iff.1 inside with starts | inside
  · obtain ⟨form, blanks, folded, -, rfl⟩ := closes
    rw [named] at folded
    cases folded with
    | cons fst folded =>
      have eq := (cons_prefix_cons.1 (cons_prefix_cons.1 (cons_prefix_cons.1 starts).2).2).1
      rw [eq, differs] at fst
      cases fst
  · exact (cons_of_ne (by decide) untagged) tag closes inside

theorem append_singleton (other : c ≠ '>') (untagged : Untagged n s) : Untagged n (s ++ [c]) := by
  rintro tag closes ⟨p, behind, whole⟩
  rcases eq_nil_or_concat behind with rfl | ⟨tl, last, rfl⟩
  · obtain ⟨form, blanks, -, -, rfl⟩ := closes
    have ends := congrArg getLast? whole
    simp only [append_nil, ← cons_append, ← append_assoc, getLast?_concat] at ends
    exact other (some.inj ends).symm
  · rw [concat_eq_append, ← append_assoc] at whole
    have eq := (append_inj' whole rfl).1
    exact untagged tag closes ⟨p, tl, eq⟩

theorem append (isName : IsTagName n) (untagged : Untagged n s)
    (later : Untagged n ('<' :: r)) : Untagged n (s ++ '<' :: r) := by
  induction s with
  | nil => exact later
  | cons c s ih =>
    intro tag closes inside
    rcases infix_cons_iff.1 inside with starts | inside
    · exact untagged tag closes (closes.prefix_of_prefix_append isName starts).isInfix
    · exact ih untagged.of_cons tag closes inside

theorem skips (isName : IsTagName n) (untagged : Untagged n s) : Skips (closeTag? n) s ('<' :: r) := by
  induction s with
  | nil => trivial
  | cons c s ih =>
    refine ⟨?_, ih untagged.of_cons⟩
    cases got : closeTag? n (c :: (s ++ '<' :: r)) with
    | none => rfl
    | some behind =>
      obtain ⟨tag, closes, whole⟩ := closeTag?_eq_some.1 got
      have starts : tag <+: c :: (s ++ '<' :: r) := ⟨behind, whole.symm⟩
      exact absurd (closes.prefix_of_prefix_append isName starts).isInfix (untagged tag closes)

end Untagged

/-- **The first closing tag.**  Behind a text without tags the reader finds the tag that
stands there. -/
theorem firstMatch_closeTag? (isName : IsTagName n) (untagged : Untagged n s) (r : List Char) :
    firstMatch (closeTag? n) (s ++ '<' :: '/' :: (n.toList ++ '>' :: r)) = some (s, r) := by
  have here : closeTag? n ('<' :: '/' :: (n.toList ++ '>' :: r)) = some r :=
    closeTag?_eq_some.2 ⟨_, .plain isName, by simp⟩
  rw [(untagged.skips isName).firstMatch, firstMatch_of_some here, map_some]
  dsimp only
  rw [append_nil]

/-! ## Opening tags -/

section Opening

variable {c : Char} {inside content : List Char}

theorem openStart?_of_ne (other : c ≠ '<') : openStart? n (c :: r) = none := by
  have differs : isFormOf '<' c = false :=
    Bool.eq_false_iff.2 fun form => other (eq_of_isFormOf (by decide) form)
  rw [openStart?, stripFolded?, differs]
  rfl

theorem openStart?_angle {letter : Char} {letters : List Char} (named : n.toList = letter :: letters)
    (differs : isFormOf letter c = false) : openStart? n ('<' :: c :: r) = none := by
  rw [openStart?, named, stripFolded?, if_pos (by decide), stripFolded?, differs]
  rfl

theorem element?_of_openStart? (absent : openStart? n s = none) : element? n s = none := by
  rw [element?, openTag?, absent, bind_none, bind_none]

theorem span_append {stop : Char} (free : stop ∉ inside) :
    (inside ++ stop :: r).takeWhile (· != stop) = inside ∧
      (inside ++ stop :: r).dropWhile (· != stop) = stop :: r := by
  have prev : ∀ c ∈ inside, (c != stop) := fun c mem =>
    bne_iff_ne.2 fun eq => free (eq ▸ mem)
  constructor
  · rw [takeWhile_append_of_pos prev, takeWhile_cons_of_neg (by simp), append_nil]
  · rw [dropWhile_append_of_pos prev, dropWhile_cons_of_neg (by simp)]

/-- **An opening tag is read back.** -/
theorem openTag?_append (isName : IsTagName n) (free : '>' ∉ inside)
    (apart : inside.head?.any isWordChar = false) :
    openTag? n ('<' :: (n.toList ++ (inside ++ '>' :: r))) = some (inside, r) := by
  have stripped : stripFolded? ('<' :: n.toList) ('<' :: (n.toList ++ (inside ++ '>' :: r))) =
      some (inside ++ '>' :: r) :=
    stripFolded?_eq_some.2 ⟨'<' :: n.toList, .cons (by decide) isName.folded, rfl⟩
  have ends : (inside ++ '>' :: r).head?.any isWordChar = false := by
    cases inside with
    | nil => exact Bool.eq_false_iff.2 (by decide : ¬ isWordChar '>')
    | cons c inside => exact apart
  have opened : openStart? n ('<' :: (n.toList ++ (inside ++ '>' :: r))) =
      some (inside ++ '>' :: r) :=
    filter_eq_some_iff.2 ⟨stripped, by rw [ends]; rfl⟩
  rw [openTag?, opened, bind_some, (span_append free).1, (span_append free).2]

end Opening

/-! ## Elements -/

def Element.render (n : String) (elem : Element) : List Char :=
  '<' :: (n.toList ++ (elem.tag ++ '>' ::
    (elem.content ++ '<' :: '/' :: (n.toList ++ ['>']))))

/-- An element whose parts end where their text says. -/
structure Element.Readable (n : String) (elem : Element) : Prop where
  tag : '>' ∉ elem.tag
  apart : elem.tag.head?.any isWordChar = false
  content : Untagged n elem.content

section Rendered

variable {other : String} {letter : Char} {elem : Element}

theorem Element.render_append :
    elem.render n ++ r = '<' :: (n.toList ++ (elem.tag ++ '>' ::
      (elem.content ++ '<' :: '/' :: (n.toList ++ '>' :: r)))) := by
  simp only [Element.render, cons_append, append_assoc, nil_append]

/-- **An element is read back.** -/
theorem element?_render (isName : IsTagName n) (readable : elem.Readable n) (r : List Char) :
    element? n (elem.render n ++ r) = some (elem, r) := by
  rw [Element.render_append, element?, openTag?_append isName readable.tag readable.apart, bind_some]
  dsimp only
  rw [firstMatch_closeTag? isName readable.content, map_some]

def startsOther (n other : String) : Bool :=
  match n.toList, other.toList with
  | letter :: _, first :: _ => !isFormOf letter first
  | _, _ => false

theorem exists_of_startsOther (differs : startsOther n other) :
    ∃ letter letters fst tl, n.toList = letter :: letters ∧ other.toList = fst :: tl ∧
      isFormOf letter fst = false := by
  unfold startsOther at differs
  split at differs
  · next letter letters fst tl named othered =>
    exact ⟨letter, letters, fst, tl, named, othered, by simpa using differs⟩
  · cases differs

theorem Untagged.render_append (isName : IsTagName n) (isOther : IsTagName other)
    (differs : startsOther n other) (tag : '<' ∉ elem.tag) (content : Untagged n elem.content)
    (later : Untagged n r) : Untagged n (elem.render other ++ r) := by
  obtain ⟨letter, letters, fst, tl, named, othered, apart⟩ := exists_of_startsOther differs
  have free : '<' ∉ fst :: tl := othered ▸ isOther.not_mem isOther.folded
  have slash : fst ≠ '/' := by
    rintro rfl
    have both := isOther.letter (othered ▸ mem_cons_self)
    rw [both.1] at both
    exact nomatch both.2.2
  have closing : Untagged n ('<' :: '/' :: fst :: (tl ++ '>' :: r)) :=
    .angle_slash named apart (.plain_append free (.cons_of_ne (by decide) later))
  have inner : Untagged n (elem.content ++ '<' :: '/' :: fst :: (tl ++ '>' :: r)) :=
    .append isName content closing
  rw [Element.render_append, othered]
  exact .angle slash (.plain_append free (.plain_append tag (.cons_of_ne (by decide) inner)))

end Rendered

/-- Nothing starts a tag of a name in an opening or closing tag of another one, and in the
text behind it. -/
theorem skips_openStart? {letter : Char} (c : Char) (s : List Char) (named : n.toList = letter :: letters)
    (differs : isFormOf letter c = false) (free : '<' ∉ c :: s) (r : List Char) :
    Skips (openStart? n) ('<' :: c :: s) r := by
  refine ⟨openStart?_angle named differs, .of_forall_mem (fun d mem _ => ?_) r⟩
  exact openStart?_of_ne fun eq => free (eq ▸ mem)

end Bindery.Notebook
