/-
Proofs.Import.Specifier -- the specifiers that code is left with

A package in a call or in a static import is written anew as its name and the path inside
it, without wrapper and version.  Such a specifier is read back from its literal up to
control characters, which stay spelled out (`value_quote`), so it begins with the name of
the package and has no colon (`bare_of_package`).
-/
import Bindery.Proofs.Cell.Rewriting

namespace Bindery

open List String Text Json Option Specifier Token

variable {s : List Char} {v : String} {ns : List String} {c : Char} {wrapped : Bool}

/-! ## The value of a quoted text -/

def literalValue? (literal : String) : Option String :=
  (⟨.string, literal, 0, 0, false⟩ : Token).stringValue?

theorem stringValue?_eq {t : Token} (string : t.kind = .string) : t.stringValue? = literalValue? t.text := by
  simp only [literalValue?, stringValue?, string]

/-- What is read back of a quoted character: itself, or the escape of a control character. -/
def Json.spell (c : Char) : List Char :=
  if c.toNat < 0x20 then controlEscape c.toNat else [c]

theorem unescape_cons (plain : c ≠ '\\') (r : List Char) : unescape (c :: r) = c :: unescape r := by
  rw [unescape]
  intro d tl absurd
  exact absurd |> plain |>.elim

theorem unescape_append (plain : ∀ c ∈ s, c ≠ '\\') (r : List Char) : unescape (s ++ r) = s ++ unescape r := by
  induction s with
  | nil => rfl
  | cons c s ih =>
    rw [cons_append, unescape_cons (plain c mem_cons_self),
      ih fun d mem => plain d (.tail _ mem), cons_append]

theorem unescape_controlEscape {point : Nat} (control : point < 0x20) (r : List Char) :
    unescape (controlEscape point ++ r) = controlEscape point ++ unescape r := by
  have kept : ∃ c tl, controlEscape point = '\\' :: c :: tl ∧
      ¬ (c = '\\' ∨ c = '\x27' ∨ c = '\x22') ∧ ∀ d ∈ tl, d ≠ '\\' := by
    have checked : ∀ point ∈ range 0x20, (controlEscape point).head? = some '\\' ∧
        (controlEscape point).tail.head?.any (fun c => c != '\\' && c != '\x27' && c != '\x22') ∧
        (controlEscape point).tail.tail.all (· != '\\') :=
      forall_mem_of_all (by decide +kernel)
    obtain ⟨fst, snd, tl⟩ := checked point (mem_range.2 control)
    obtain ⟨tail, split⟩ := head?_eq_some_iff.1 fst
    rw [split] at snd tl ⊢
    obtain ⟨c, head, other⟩ := (any_eq_true _ _).1 snd
    obtain ⟨r, rfl⟩ := head?_eq_some_iff.1 head
    exact ⟨c, r, rfl, by simpa [and_assoc] using other, by simpa using tl⟩
  obtain ⟨c, tl, split, other, plain⟩ := kept
  rw [split, cons_append, cons_append, unescape, if_neg other, unescape_append plain]
  rfl

theorem unescape_escapeChar (c : Char) (r : List Char) :
    unescape (escapeChar c ++ r) = spell c ++ unescape r := by
  unfold escapeChar
  split
  · next quote =>
    subst quote
    rfl
  split
  · next backslash =>
    subst backslash
    rfl
  next plain =>
  unfold spell
  split
  · next control => exact unescape_controlEscape control r
  · exact unescape_cons plain r

/-- **What is read back of a quoted text.** -/
theorem literalValue?_quote (s : String) :
    literalValue? (Json.quote s) = some (ofList (s.toList.flatMap spell)) := by
  have inner : ((Json.quote s).toList.drop 1).dropLast = escape s.toList := by
    rw [Json.quote, toList_ofList, cons_append, drop_succ_cons, drop_zero, dropLast_concat]
  have all : ∀ chars, unescape (escape chars) = chars.flatMap spell := by
    intro chars
    induction chars with
    | nil => rfl
    | cons c chars ih =>
      have split : escape (c :: chars) = escapeChar c ++ escape chars := rfl
      rw [split, unescape_escapeChar, ih, flatMap_cons]
  have long : 2 ≤ (Json.quote s).utf8ByteSize := by
    rw [Json.quote, cons_append, ofList_cons, ofList_append, utf8ByteSize_append, utf8ByteSize_append]
    exact Nat.add_le_add (a := 1) (c := 1) (by decide) (Nat.le_add_left _ _)
  rw [literalValue?, stringValue?, if_pos ⟨rfl, long⟩, inner, all]

theorem value_quote {s : String} (read : literalValue? (Json.quote s) = some v) :
    v.toList = s.toList.flatMap spell := by
  rw [literalValue?_quote] at read
  rw [← some.inj read, toList_ofList]

theorem flatMap_spell (vis : ∀ c ∈ s, 0x20 ≤ c.toNat) : s.flatMap spell = s := by
  induction s with
  | nil => rfl
  | cons c s ih =>
    have here : spell c = [c] := if_neg (Nat.not_lt.2 (vis c mem_cons_self))
    rw [flatMap_cons, here, ih fun d mem => vis d (.tail _ mem)]
    rfl

/-- **A quoted text is one string literal**, which stands for the text if that has no control
characters. -/
theorem tokenize_quote (s : String) :
    ∃ t, tokenize (Json.quote s) = .ok [t] ∧ t.kind = .string ∧ t.text = Json.quote s ∧
      t.start = 0 ∧ t.stop = byteLength (Json.quote s).toList ∧
      ((∀ c ∈ s.toList, 0x20 ≤ c.toNat) → t.stringValue? = some s) := by
  have starts := (literal_quote s).starts []
  obtain ⟨c, tail, split, mark, ends⟩ := literal_quote s
  rw [append_nil, split] at starts
  have others : c ≠ '\x60' ∧ c ≠ '\x7d' := by rcases mark with rfl | rfl <;> decide
  have lexed (st : LexState) : st.lexeme c tail = .ok (st.emit .string (c :: tail) []) := by
    have whole := ends []
    rw [append_nil] at whole
    rw [LexState.lexeme, if_neg others.1, if_neg fun both => others.2 both.1, if_pos mark, whole]
  have done := (lexFrom_of_step starts (lexed (.skip {} [] false))).trans
    (congrArg _ (lexFrom_of_end starts_nil rfl))
  rw [← split] at done
  refine ⟨_, done, rfl, ofList_toList, rfl, ?_, fun vis => ?_⟩
  · exact Nat.zero_add _
  · rw [stringValue?_eq rfl, ofList_toList, literalValue?_quote, flatMap_spell vis, ofList_toList]

theorem colon_not_mem_spell (free : ':' ∉ s) : ':' ∉ s.flatMap spell := by
  have escapes : ∀ point < 0x20, ':' ∉ controlEscape point := by decide
  intro mem
  obtain ⟨c, inside, colon⟩ := mem_flatMap.1 mem
  unfold spell at colon
  split at colon
  · next control => exact escapes _ control colon
  · exact free (mem_singleton.1 colon ▸ inside)

/-! ## Packages -/

namespace Specifier

variable {ref : PackageRef}

theorem visible_of_isNameChar (name : isNameChar c) : 0x20 ≤ c.toNat := by
  have none : ∀ point < 0x20, isNameChar (Char.ofNat point) = false := by decide
  refine Nat.not_lt.1 fun control => ?_
  have absurd := none _ control
  rw [Char.ofNat_toNat, name] at absurd
  cases absurd

theorem subpath_of_split {head subpath : List Char} (got : splitSubpath? s = some (head, subpath)) :
    (subpath = [] ∨ ∃ tl, subpath = '/' :: tl) ∧ ∀ c ∈ subpath, c ∈ s := by
  have slash : ∀ s : List Char, s.dropWhile (· != '/') = [] ∨
      ∃ tl, s.dropWhile (· != '/') = '/' :: tl := by
    intro s
    have fst := head?_dropWhile (· != '/') s
    cases rest : s.dropWhile (· != '/') with
    | nil => exact .inl rfl
    | cons c tl =>
      rw [rest] at fst
      exact .inr ⟨tl, by simpa using fst⟩
  have inside : ∀ s : List Char, ∀ c ∈ s.dropWhile (· != '/'), c ∈ s :=
    fun s c mem => (dropWhile_suffix _).subset mem
  unfold splitSubpath? at got
  dsimp only at got
  split at got
  · split at got
    · cases got
    · next fst n split =>
      cases got
      refine ⟨slash n, fun c mem => inside s c ?_⟩
      rw [split]
      exact mem_cons_of_mem _ (inside n c mem)
  · cases got
    exact ⟨slash s, inside s⟩

structure Parts (ref : PackageRef) (name subpath : List Char) : Prop where
  named : ref.name = String.ofList name
  path : ref.subpath = String.ofList subpath
  visible : ∀ c ∈ name, 0x20 ≤ c.toNat
  slash : subpath = [] ∨ ∃ more, subpath = '/' :: more
  free : ':' ∉ name ++ subpath

theorem parts_of_parseBare? (free : ':' ∉ s) (got : parseBare? s = some ref) :
    ∃ n subpath, Parts ref n subpath := by
  unfold parseBare? at got
  split at got
  · cases got
  · next head subpath split =>
    dsimp only at got
    split at got
    · next isName =>
      cases got
      obtain ⟨slash, inside⟩ := subpath_of_split split
      have chars : ∀ c ∈ (splitVersion head).1, isNameChar c := by
        simp only [Specifier.isName, Bool.and_eq_true] at isName
        exact all_eq_true.1 isName.2
      refine ⟨_, subpath, rfl, rfl, fun c mem => ?_, slash, fun colon => ?_⟩
      · exact visible_of_isNameChar (chars c mem)
      rcases mem_append.1 colon with colon | colon
      · exact absurd (chars _ colon) (by decide)
      · exact free (inside _ colon)
    · cases got

theorem bare_of_package {v : String}
    (got : classify v = .package ref wrapped) : ∃ n subpath, Parts ref n subpath := by
  unfold classify ofTrimmed at got
  split at got
  · cases got
  · dsimp only at got
    split at got
    · cases got
    · next plain =>
      have free : ':' ∉ (unwrap (trim v.toList)).1 := by
        simp only [not_or, contains_iff_mem] at plain
        exact plain.2.1
      split at got
      · next parsed =>
        cases got
        exact parts_of_parseBare? free parsed
      · cases got

end Specifier

/-! ## Literals in code -/

def Specifier.isPackage : Specifier → Bool
  | .package _ _ => true
  | _ => false

theorem Specifier.isPackage_iff {spec : Specifier} :
    spec.isPackage ↔ ∃ ref wrapped, spec = .package ref wrapped := by
  cases spec <;> simp [isPackage]

/-- A specifier whose literal refers to a package only if the specifier itself does.  A
control character is spelled out in the literal, where blanks are no longer trimmed. -/
def Specifier.Kept (specifier : String) : Prop :=
  ∀ v ∈ literalValue? (Json.quote specifier),
    (classify v).isPackage = true → (classify specifier).isPackage = true

instance (specifier : String) : Decidable (Specifier.Kept specifier) :=
  inferInstanceAs (Decidable (∀ v ∈ literalValue? (Json.quote specifier), _))

/-- A value that names a package of the list, or a path inside it, and has no wrapper. -/
structure Loadable (ns : List String) (v : String) : Prop where
  listed : ∃ name ∈ ns, v = name ∨ (name ++ "/").toList <+: v.toList
  unwrapped : ∀ wrapper ∈ Specifier.wrappers, ¬ wrapper.toList <+: v.toList

/-- If the value of a literal refers to a package at all, it does so as code may. -/
def Resolved (ns : List String) (literal : String) : Prop :=
  ∀ v ref wrapped, literalValue? literal = some v →
    Specifier.classify v = .package ref wrapped → Loadable ns v

theorem Loadable.mono {r : List String} (subset : ns ⊆ r) (loadable : Loadable ns v) : Loadable r v := by
  obtain ⟨⟨n, mem, named⟩, unwrapped⟩ := loadable
  exact ⟨⟨n, subset mem, named⟩, unwrapped⟩

theorem loadable_of_parts {n tail : List Char} (mem : String.ofList n ∈ ns) (split : v.toList = n ++ tail)
    (slash : tail = [] ∨ ∃ r, tail = '/' :: r) (free : ':' ∉ n ++ tail) : Loadable ns v := by
  refine ⟨⟨_, mem, ?_⟩, ?_⟩
  · rcases slash with rfl | ⟨r, rfl⟩
    · exact .inl (by rw [← ofList_toList (s := v), split, append_nil])
    · refine .inr ⟨r, ?_⟩
      rw [split, toList_append, toList_ofList]
      simp
  · intro wrapper known starts
    have colon : ∀ wrapper ∈ wrappers, ':' ∈ wrapper.toList := by decide
    exact free (split ▸ starts.subset (colon wrapper known))

/-- **A package that is written anew** is loadable. -/
theorem resolved_bare {ref : PackageRef} (package : classify v = .package ref wrapped) (mem : ref.name ∈ ns) :
    Resolved ns (Json.quote ref.bare) := by
  obtain ⟨n, subpath, ps⟩ := bare_of_package package
  rw [ps.named] at mem
  intro read _ _ got _
  have spelled := value_quote got
  rw [PackageRef.bare, ps.named, ps.path, toList_append, toList_ofList,
    toList_ofList, flatMap_append, flatMap_spell ps.visible] at spelled
  refine loadable_of_parts mem spelled ?_ ?_
  · rcases ps.slash with rfl | ⟨r, rfl⟩
    · exact .inl rfl
    · exact .inr ⟨r.flatMap Json.spell, rfl⟩
  · have free := colon_not_mem_spell ps.free
    rwa [flatMap_append, flatMap_spell ps.visible] at free

namespace Import

/-- **The argument of a call of `import`**, rewritten or left alone. -/
theorem resolved_argument {arg : Token} (string : arg.kind = .string)
    (listed : ∀ ref ∈ (callArgument .dynamicImport arg).packages, ref.name ∈ ns) :
    Resolved ns ((rewrite? .dynamicImport arg).getD arg.text) := by
  unfold rewrite?
  unfold callArgument at listed
  rw [stringValue?_eq string] at listed ⊢
  cases read : literalValue? arg.text with
  | none =>
    intro v ref wrapped got
    rw [getD_none, read] at got
    cases got
  | some v =>
    rw [read] at listed
    dsimp only at listed ⊢
    cases package : classify v with
    | package ref wrapped =>
      rw [package] at listed
      have mem : ref.name ∈ ns := listed ref mem_cons_self
      dsimp only [Loader.replacement?]
      split
      · next eq =>
        -- the value is bare already
        intro v' _ _ got _
        rw [map_none, getD_none, read] at got
        cases got
        obtain ⟨n, subpath, ps⟩ := bare_of_package package
        rw [ps.named] at mem
        refine loadable_of_parts mem ?_ ps.slash ps.free
        rw [← eq, PackageRef.bare, ps.named, ps.path, toList_append, toList_ofList, toList_ofList]
      · exact resolved_bare package mem
    | path | external =>
      intro v' ref wrapped got absurd
      rw [getD_none, read] at got
      cases got
      rw [package] at absurd
      cases absurd

def Statement.target (statement : Statement) : String :=
  match Specifier.classify statement.specifier with
  | .package ref _ => ref.bare
  | _ => statement.specifier

theorem edits_ofStatement (start : Nat) (stmt : Statement) :
    (ofStatement start stmt).edits = [⟨start, stmt.stop, stmt.clause.render stmt.target⟩] := by
  unfold ofStatement Statement.target
  cases classify stmt.specifier <;> rfl

/-- **The specifier of a static import**, rewritten or left alone. -/
theorem resolved_statement {start : Nat} {stmt : Statement} (kept : Specifier.Kept stmt.specifier)
    (listed : ∀ ref ∈ (ofStatement start stmt).packages, ref.name ∈ ns) :
    Resolved ns (Json.quote stmt.target) := by
  unfold Statement.target
  unfold ofStatement at listed
  cases package : classify stmt.specifier with
  | package ref wrapped =>
    rw [package] at listed
    exact resolved_bare package (listed ref mem_cons_self)
  | path | external =>
    intro v ref wrapped got read
    have absurd := kept v got (by rw [read]; rfl)
    rw [package] at absurd
    cases absurd

end Import

end Bindery
