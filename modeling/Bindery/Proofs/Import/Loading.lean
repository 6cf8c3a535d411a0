/-
Proofs.Import.Loading -- the literals that code loads

Code loads a module by `import`, a parenthesis and a literal, where `import` is no name of
a property.  `Loads` says that each such literal in a list of tokens has a property.  What
becomes of the tokens of a cell on their way to the body of a procedure adds no such
literal: cutting (`Loads.left`, `Loads.drop`), writing other tokens around them
(`Loads.append`), and merging references to controls (`Loads.mergeViews`).
-/
import Bindery.Proofs.Cell.Normal

namespace Bindery

open List

/-- Each literal that is loaded has the property, given whether the token before the list
selects a property of a value. -/
def Loads (fine : String → Prop) (selected : Bool) : List Key → Prop
  | [] => True
  | key :: rest =>
    (key = .word "import" → selected = false → ∀ (literal : String) (tl : List Key),
      rest = Key.mark "(" :: (.string, literal) :: tl → fine literal) ∧
    Loads fine key.selects rest

def selectedBehind (selected : Bool) (ks : List Key) : Bool :=
  (ks.getLast?.map Key.selects).getD selected

theorem selectedBehind_cons (selected : Bool) (key : Key) (rest : List Key) :
    selectedBehind selected (key :: rest) = selectedBehind key.selects rest := by
  unfold selectedBehind
  cases rest with
  | nil => rfl
  | cons next rest =>
    rw [getLast?_cons_cons, getLast?_eq_some_getLast (cons_ne_nil _ _)]
    rfl

namespace Loads

variable {fine : String → Prop} {selected : Bool} {ks tl : List Key}

theorem cons_of_ne {key : Key} (other : key ≠ .word "import") (later : Loads fine key.selects ks) :
    Loads fine selected (key :: ks) :=
  ⟨fun eq => absurd eq other, later⟩

theorem of_plain (plain : ∀ key ∈ ks, key ≠ .word "import") : Loads fine selected ks := by
  induction ks generalizing selected with
  | nil => trivial
  | cons key r ih =>
    exact .cons_of_ne (plain key mem_cons_self) (ih fun other mem => plain other (.tail _ mem))

theorem left (loads : Loads fine selected (ks ++ tl)) : Loads fine selected ks := by
  induction ks generalizing selected with
  | nil => trivial
  | cons key r ih =>
    refine ⟨fun isImport free literal tail eq => ?_, ih loads.2⟩
    exact loads.1 isImport free literal (tail ++ tl) (by rw [eq]; rfl)

theorem right (loads : Loads fine selected (ks ++ tl)) : Loads fine (selectedBehind selected ks) tl := by
  induction ks generalizing selected with
  | nil => exact loads
  | cons key r ih =>
    rw [selectedBehind_cons]
    exact ih loads.2

theorem append (loads : Loads fine selected ks)
    (loads' : Loads fine (selectedBehind selected ks) tl)
    (apart : ∀ key ∈ tl.head?, key ≠ .mark "(" ∧ key.1 ≠ .string) :
    Loads fine selected (ks ++ tl) := by
  induction ks generalizing selected with
  | nil => exact loads'
  | cons key r ih =>
    rw [selectedBehind_cons] at loads'
    refine ⟨fun isImport free literal tail eq => ?_, ih loads.2 loads'⟩
    cases r with
    | nil =>
      have fst : tl.head? = some (.mark "(") := congrArg head? eq
      exact absurd rfl (apart _ fst).1
    | cons snd r =>
      cases r with
      | nil =>
        have fst : tl.head? = some (.string, literal) := congrArg (fun ks => ks.tail.head?) eq
        exact absurd rfl (apart _ fst).2
      | cons third r =>
        injection eq with o eq
        injection eq with arg
        exact loads.1 isImport free literal r (by rw [o, arg])

theorem drop {i : Nat} (loads : Loads fine selected ks) (start : i = 0 → selected = false)
    (free : ∀ key, i ≠ 0 → ks[i - 1]? = some key → key.selects = false) : Loads fine false (ks.drop i) := by
  induction i generalizing selected ks with
  | zero => exact start rfl ▸ loads
  | succ i ih =>
    cases ks with
    | nil => trivial
    | cons key r =>
      refine ih loads.2 (fun fst => ?_) (fun other nonzero got => ?_)
      · exact free key (Nat.succ_ne_zero _) (by rw [fst]; rfl)
      · obtain ⟨p, rfl⟩ := Nat.exists_eq_succ_of_ne_zero nonzero
        exact free other (Nat.succ_ne_zero _) got

theorem literal {pre behind : List Key} {literal : String}
    (loads : Loads fine selected (pre ++ Key.word "import" :: Key.mark "(" :: (.string, literal) :: behind))
    (free : selectedBehind selected pre = false) : fine literal :=
  loads.right.1 rfl free literal behind rfl

end Loads

/-! ## References to controls -/

/-- **Merging references loads nothing new.** -/
theorem Loads.mergeViews {fine : String → Prop} {p : Option Key} {ks : List Key}
    (loads : Loads fine (p.any Key.selects) ks) : Loads fine (p.any Key.selects) (mergeViews p ks) := by
  have named (n : String) : (Key.name n).selects = false := by
    simp [Key.selects, Key.name, Key.mark]
  fun_induction Bindery.mergeViews p ks with
  | case1 p v n r got ih =>
    refine .cons_of_ne (by simp [Key.name, Key.word]) ?_
    have ident : n.1 = .ident := by
      simp only [isView, Bool.and_eq_true, beq_iff_eq] at got
      exact got.1.2
    have free : n.selects = false := by
      simp only [Key.selects, Key.mark, Bool.or_eq_false_iff, beq_eq_false_iff_ne]
      exact ⟨fun eq => absurd (ident.symm.trans (congrArg Prod.fst eq)) (by decide),
        fun eq => absurd (ident.symm.trans (congrArg Prod.fst eq)) (by decide)⟩
    have later := ih loads.2.2
    rw [Option.any_some, free] at later
    rw [named]
    exact later
  | case2 p v n r got ih =>
    refine ⟨fun isImport selected literal tl eq => ?_, ih loads.2⟩
    obtain ⟨r', split, tail⟩ := mergeViews_eq_cons eq (by decide)
    obtain ⟨tl', split', -⟩ := mergeViews_eq_cons tail.symm (fun eq => by cases eq)
    exact loads.1 isImport selected literal tl' (by rw [split, split'])
  | case3 ks p short => exact loads

/-! ## The body of a procedure -/

theorem selects_rewriteCalls (p : Option Token) (ts : List Token) :
    (rewriteCalls p ts).map Key.selects = ts.map Token.selects := by
  fun_induction rewriteCalls p ts with
  | case1 p callee o arg r loader called ih =>
    have string := (Import.call?_eq_some called).2.2.2
    have free : arg.selects = false := by simp [Token.selects, Token.isPunct, string]
    simp only [map_cons, ih, selects_key, free]
    rfl
  | case2 p callee o arg r called ih =>
    rw [map_cons, ih, selects_key]
    rfl
  | case3 ts p short =>
    rw [map_map]
    exact map_congr_left fun t _ => selects_key t

namespace Script

variable {fine : String → Prop} {ts : List Token}

theorem loads_drop {ks : List Key} {i : Nat} (kept : ks.map Key.selects = ts.map Token.selects)
    (loads : Loads fine false ks) (free : ∀ t, i ≠ 0 → ts[i - 1]? = some t → t.selects = false) :
    Loads fine false (ks.drop i) := by
  refine loads.drop (fun _ => rfl) fun key nonzero got => ?_
  have eq := congrArg (fun flags => flags[i - 1]?) kept
  simp only [getElem?_map, got, Option.map_some] at eq
  obtain ⟨t, here, flag⟩ := Option.map_eq_some_iff.1 eq.symm
  rw [← flag]
  exact free t nonzero here

theorem not_selects_of_isPunct {t : Token} {s : String} (mark : t.isPunct s)
    (other : s ≠ "." ∧ s ≠ "?.") : t.selects = false := by
  rw [Token.selects, Token.isPunct_of_isPunct mark, Token.isPunct_of_isPunct mark]
  simp [other]

section

variable {ks : List Key} (kept : ks.map Key.selects = ts.map Token.selects) (loads : Loads fine false ks)
include kept loads

theorem loads_keysBetween {o c : Nat} (got : Form.loneBlock? ts o = some c) :
    Loads fine false (keysBetween ks o c) := by
  obtain ⟨-, opening, -, -, fst, brace, -⟩ := loneBlock?_eq_some got
  have cut : Loads fine false (ks.drop (o + 1)) := by
    refine loads_drop kept loads fun t _ here => ?_
    cases fst.symm.trans here
    exact not_selects_of_isPunct brace (by decide)
  have split := take_append_drop (c - (o + 1)) (ks.drop (o + 1))
  rw [← split] at cut
  rw [keysBetween, drop_take]
  exact cut.left

theorem loads_expressionKeys {start : Nat}
    (free : ∀ t, start ≠ 0 → ts[start - 1]? = some t → t.selects = false) :
    Loads fine false (expressionKeys ts ks start) := by
  unfold expressionKeys
  split
  · next c got => exact loads_keysBetween kept loads got
  · have cut := loads_drop kept loads free
    have shorter : Loads fine false ((withoutSemicolon ks).drop start) := by
      unfold withoutSemicolon
      split
      · rw [dropLast_eq_take, drop_take]
        rw [← take_append_drop (ks.length - 1 - start) (ks.drop start)] at cut
        exact cut.left
      · exact cut
    refine .cons_of_ne (by decide) (.cons_of_ne (by decide) (shorter.append ?_ ?_))
    · exact .cons_of_ne (by decide) (.cons_of_ne (by decide) trivial)
    · rintro _ ⟨⟩
      decide

end

/-- **The body that a form gives loads nothing new.** -/
theorem loads_formKeys {ks : List Key} (isView : Bool) (kept : ks.map Key.selects = ts.map Token.selects)
    (loads : Loads fine false ks) : Loads fine false (formKeys (Form.detect ts isView) ts ks) := by
  have behindEquals {i : Nat} (equals : (TokenSeq.ofList ts).punctAt i "=") :
      ∀ t, i + 1 ≠ 0 → ts[i + 1 - 1]? = some t → t.selects = false := by
    intro t _ here
    obtain ⟨mark, got, isMark⟩ := TokenSeq.holds_eq_true.1 equals
    rw [TokenSeq.get?_ofList] at got
    cases got.symm.trans here
    exact not_selects_of_isPunct isMark (by decide)
  unfold Form.detect
  split
  · trivial
  · split
    · next name got =>
      obtain ⟨-, cond⟩ := Option.filter_eq_some_iff.1 got
      simp only [Bool.and_eq_true] at cond
      exact loads_expressionKeys kept loads (behindEquals cond.1.1.2)
    split
    · next cond => exact loads_expressionKeys kept loads (behindEquals cond.2.1)
    split
    · next c got => exact loads_keysBetween kept loads got
    split
    · exact loads_expressionKeys kept loads fun t nonzero => absurd rfl nonzero
    · exact loads

theorem loads_returnKeys {ks : List Key} (loads : Loads fine false ks) (ns : List String) :
    Loads fine false (ks ++ returnKeys ns) := by
  have named (n : String) : Key.name n ≠ .word "import" := by
    intro eq
    cases congrArg Prod.fst eq
  have listed : ∀ ns : List String, ∀ key ∈ (ns.map Key.name).intersperse (.mark ","),
      key ≠ .word "import" := by
    intro ns
    induction ns with
    | nil =>
      intro key mem
      cases mem
    | cons n rest ih =>
      intro key mem
      cases rest with
      | nil =>
        cases mem_singleton.1 mem
        exact named n
      | cons next rest =>
        simp only [map_cons, intersperse_cons_cons, mem_cons] at mem ih
        rcases mem with rfl | rfl | mem
        · exact named n
        · decide
        · exact ih key mem
  unfold returnKeys
  split
  · rw [append_nil]
    exact loads
  · refine loads.append (.of_plain fun key mem => ?_) (by rintro _ ⟨⟩; decide)
    simp only [mem_cons, not_mem_nil, or_false] at mem
    rcases mem with rfl | rfl | rfl
    · decide
    · exact named _
    · decide
  · refine loads.append (.of_plain fun key mem => ?_) (by rintro _ ⟨⟩; decide)
    simp only [mem_cons, mem_append, not_mem_nil, or_false] at mem
    rcases mem with rfl | rfl | mem | rfl | rfl
    · decide
    · decide
    · exact listed _ key mem
    · decide
    · decide

end Script

end Bindery
