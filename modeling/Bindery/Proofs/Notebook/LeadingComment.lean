/-
Proofs.Notebook.LeadingComment -- a comment line in front of a script

A comment line in front of a script's content becomes the first line of its source, and
blank lines that were dropped in front of the content stand behind it (`dedent_comment`).  So
the source is the old one behind a gap (`cellOf_commented`), and the procedure is the same up
to its body (`compile_leadingComment`).
-/
import Bindery.Proofs.Cell.LeadingGap
import Bindery.Proofs.Notebook.Dedent
import Bindery.Proofs.Notebook.RoundTrip

namespace Bindery.Notebook

open List Text

variable {s comment l : List Char} {script : Element}

/-! ## Lines -/

theorem lines_comment (stays : '\n' ∉ comment) (r : List Char) :
    ∃ l, '\n' ∉ l ∧ lines ('/' :: '/' :: (comment ++ '\n' :: r)) = ('/' :: '/' :: l) :: lines r := by
  obtain ⟨l, reads, split⟩ := lines_append stays r
  have inside : '\n' ∉ l := fun mem => stays <| by
    rcases reads with rfl | rfl
    exacts [mem, mem_append_left _ mem]
  refine ⟨l, inside, ?_⟩
  rw [lines_cons (by decide) (.inl (by decide)), lines_cons (by decide) (.inl (by decide)), split]

theorem unlines_append (pre : List (List Char)) {back : List (List Char)} (ne : back ≠ []) :
    unlines (pre ++ back) = pre.flatMap (· ++ ['\n']) ++ unlines back := by
  induction pre with
  | nil => rfl
  | cons l pre ih =>
    rw [cons_append, unlines_cons l (append_ne_nil_of_right_ne_nil pre ne), ih]
    simp

/-! ## Replaced words -/

section Replaced

variable {w replacement : List Char}

theorem prefix_of_prefix_line (fst : List Char) {r : List Char} (stays : '\n' ∉ w)
    (starts : w <+: fst ++ '\n' :: r) : w <+: fst := by
  rcases prefix_or_prefix_of_prefix starts (prefix_append fst _) with within | beyond
  · exact within
  · obtain ⟨tl, rfl⟩ := beyond
    cases tl with
    | nil => rw [append_nil]
    | cons c tl =>
      have eq := (cons_prefix_cons.1 ((prefix_append_right_inj fst).1 starts)).1
      exact absurd (mem_append_right fst (eq ▸ mem_cons_self)) stays

theorem replaceAll_append_line (ne : w ≠ []) (stays : '\n' ∉ w) (fst r : List Char) :
    replaceAll w replacement (fst ++ '\n' :: r) =
      replaceAll w replacement fst ++ '\n' :: replaceAll w replacement r := by
  induction size : fst.length using Nat.strongRecOn generalizing fst with
  | _ _ ih =>
    subst size
    cases fst with
    | nil =>
      refine replaceAll_cons fun starts => ?_
      exact ne (prefix_nil.1 (prefix_of_prefix_line [] stays starts))
    | cons c fst =>
      by_cases starts : w <+: c :: fst
      · obtain ⟨tail, whole⟩ := starts
        cases w with
        | nil => exact absurd rfl ne
        | cons d w =>
          have shorter : tail.length < (c :: fst).length := by
            rw [← whole, length_append, length_cons]
            omega
          rw [← whole, append_assoc, replaceAll_append, replaceAll_append,
            ih _ shorter tail rfl, append_assoc]
      · have absent : ¬ w <+: c :: (fst ++ '\n' :: r) := fun starts' =>
          starts (prefix_of_prefix_line (c :: fst) stays starts')
        rw [cons_append, replaceAll_cons absent, replaceAll_cons starts,
          ih _ (Nat.lt_succ_self _) fst rfl, cons_append]

theorem not_mem_replaceFrom {c : Char} (absent : c ∉ replacement) (skip : Nat) {s : List Char}
    (absent' : c ∉ s) : c ∉ replaceFrom w replacement skip s := by
  induction s generalizing skip with
  | nil => cases skip <;> exact not_mem_nil
  | cons d s ih =>
    rw [mem_cons, not_or] at absent'
    cases skip with
    | succ skip => exact ih skip absent'.2
    | zero =>
      rw [replaceFrom]
      split
      · exact fun mem => (mem_append.1 mem).elim absent (ih _ absent'.2)
      · exact not_mem_cons_of_ne_of_not_mem absent'.1 (ih 0 absent'.2)

end Replaced

/-! ## Blank lines -/

theorem rdropWhile_append {α : Type} (p : α → Bool) (fst snd : List α) :
    (fst ++ snd).rdropWhile p = if (snd.rdropWhile p).isEmpty then fst.rdropWhile p
      else fst ++ snd.rdropWhile p := by
  unfold rdropWhile
  rw [reverse_append, dropWhile_append, isEmpty_reverse]
  split
  · rfl
  · rw [reverse_append, reverse_reverse]

theorem trimBlankLines_cons (vis : isBlankText l = false) (lines : List (List Char)) :
    (trimBlankLines lines = [] ∧ trimBlankLines (l :: lines) = [l]) ∨
      trimBlankLines lines ≠ [] ∧ ∃ blank, (∀ other ∈ blank, isBlankText other) ∧
        trimBlankLines (l :: lines) = l :: (blank ++ trimBlankLines lines) := by
  have alone : [l].rdropWhile isBlankText = [l] := rdropWhile_singleton .. |>.trans (if_neg (by simp [vis]))
  have blank : ∀ other ∈ lines.takeWhile isBlankText, isBlankText other :=
    fun other mem => mem_takeWhile_imp mem
  have whole : trimBlankLines (l :: lines) = ([l] ++ lines).rdropWhile isBlankText := by
    rw [trimBlankLines_eq, dropWhile_cons_of_neg (by simp [vis])]
    rfl
  have gone : (lines.takeWhile isBlankText).rdropWhile isBlankText = [] := rdropWhile_eq_nil_iff.2 blank
  have split := rdropWhile_append isBlankText (lines.takeWhile isBlankText) (lines.dropWhile isBlankText)
  rw [takeWhile_append_dropWhile, ← trimBlankLines_eq, gone] at split
  rw [whole, rdropWhile_append, alone, split]
  cases inner : trimBlankLines lines with
  | nil => exact .inl ⟨rfl, rfl⟩
  | cons fst r =>
    refine .inr ⟨cons_ne_nil _ _, _, blank, ?_⟩
    simp

/-! ## The source -/

/-- A comment line is the first line of the text, and blank lines that were dropped before
stand behind it. -/
theorem dedent_comment (stays : '\n' ∉ comment) (flush : Flush s) :
    (dedent s = [] ∧ ∃ l, '\n' ∉ l ∧ dedent ('/' :: '/' :: (comment ++ '\n' :: s)) = '/' :: '/' :: l) ∨
    ∃ l blanks, '\n' ∉ l ∧ (∀ c ∈ blanks, isBlank c) ∧
      dedent ('/' :: '/' :: (comment ++ '\n' :: s)) = '/' :: '/' :: (l ++ '\n' :: blanks) ++ dedent s := by
  obtain ⟨l, inside, split⟩ := lines_comment stays s
  have vis : isBlankText ('/' :: '/' :: l) = false := rfl
  have cases_ := trimBlankLines_cons vis (lines s)
  have fst : ('/' :: '/' :: l) ∈ trimBlankLines (('/' :: '/' :: l) :: lines s) := by
    rcases cases_ with ⟨_, alone⟩ | ⟨_, blank, _, whole⟩
    · rw [alone]
      exact mem_cons_self
    · rw [whole]
      exact mem_cons_self
  have flush' : Flush ('/' :: '/' :: (comment ++ '\n' :: s)) := by
    rw [Flush, split]
    exact commonIndent_of_mem fst vis rfl
  rw [dedent_of_flush flush, dedent_of_flush flush', split]
  rcases cases_ with ⟨empty, alone⟩ | ⟨ne, blank, isBlank, whole⟩
  · rw [empty, alone]
    exact .inl ⟨rfl, l, inside, rfl⟩
  · refine .inr ⟨l, blank.flatMap (· ++ ['\n']), inside, ?_, ?_⟩
    · intro c mem
      obtain ⟨other, among, mem⟩ := mem_flatMap.1 mem
      rcases mem_append.1 mem with within | ends
      · exact all_eq_true.1 (isBlank other among) c within
      · rw [mem_singleton.1 ends]
        decide
    · rw [whole, unlines_cons _ (append_ne_nil_of_right_ne_nil blank ne), unlines_append blank ne]
      simp

def unescapeClosing (content : List Char) : List Char :=
  replaceAll "<\\/script".toList "</script".toList content

theorem unescapeClosing_comment (comment content : List Char) :
    unescapeClosing ('/' :: '/' :: (comment ++ '\n' :: content)) =
      '/' :: '/' :: (unescapeClosing comment ++ '\n' :: unescapeClosing content) := by
  have slash (s : List Char) : ¬ "<\\/script".toList <+: '/' :: s := fun starts =>
    absurd (cons_prefix_cons.1 starts).1 (by decide)
  unfold unescapeClosing
  rw [replaceAll_cons (slash _), replaceAll_cons (slash _), replaceAll_append_line (by decide) (by decide)]

/-- The script behind a comment line. -/
def Element.commented (comment : List Char) (script : Element) : Element :=
  { script with content := '/' :: '/' :: (comment ++ '\n' :: script.content) }

theorem lexFrom_of_gap {closed : Bool} {g : List Char} (isGap : Gap closed g) : lexFrom {} g = .ok [] := by
  obtain ⟨nl, skipped⟩ := trivia_of_gap isGap starts_nil (.inr rfl)
  rw [append_nil] at skipped
  exact lexFrom_of_end skipped rfl

/-- **The cell behind a comment line** has the old source behind a gap, or no tokens as before,
and is not taken for the definition of a view. -/
theorem cellOf_commented (stays : '\n' ∉ comment) (i : Nat) (flush : Flush (unescapeClosing script.content)) :
    ∃ src, cellOf i (script.commented comment) =
        { (cellOf i script).plain with source := String.ofList src } ∧
      Behind (cellOf i script).source.toList src := by
  have kept : '\n' ∉ unescapeClosing comment := not_mem_replaceFrom (by decide) 0 stays
  have own : (cellOf i script).source.toList = dedent (unescapeClosing script.content) := String.toList_ofList
  have src : sourceOf (script.commented comment).content =
      dedent ('/' :: '/' :: (unescapeClosing comment ++ '\n' :: unescapeClosing script.content)) :=
    congrArg dedent (unescapeClosing_comment comment script.content)
  have plain {r : List Char}
      (begins : sourceOf (script.commented comment).content = '/' :: r) :
      cellOf i (script.commented comment) =
        { (cellOf i script).plain with source := String.ofList ('/' :: r) } := by
    unfold cellOf
    rw [begins]
    rfl
  rw [own]
  rcases dedent_comment kept flush with
    ⟨empty, l, inside, whole⟩ | ⟨l, blanks, inside, blank, whole⟩
  · refine ⟨_, plain (src.trans whole), .inr ⟨?_, lexFrom_of_gap (.line inside)⟩⟩
    rw [empty]
    exact lexFrom_of_gap .nil
  · exact ⟨_, plain (src.trans whole), .inl ⟨_, lineGap_comment inside blank, rfl⟩⟩

/-! ## Documents -/

/-- A script that can stand in a notebook: its parts end where their text says. -/
structure Element.Placed (script : Element) : Prop where
  readable : script.Readable "script"
  tag : '<' ∉ script.tag
  content : Untagged "notebook" script.content

/-- A notebook with these scripts. -/
def document (scripts : List Element) : String :=
  String.ofList (Element.render "notebook" ⟨[], scripts.flatMap (·.render "script")⟩)

def cellAt? (document : String) (index : Nat) : Option SourceCell :=
  (parse document).toOption.bind (·.cells[index]?)

/-- **The scripts of a notebook are its cells.** -/
theorem cellAt?_document {scripts : List Element} (placed : ∀ script ∈ scripts, script.Placed)
    (i : Nat) : cellAt? (document scripts) i = scripts[i]?.map (cellOf i) := by
  have content : body (Element.render "notebook" ⟨[], scripts.flatMap (·.render "script")⟩) =
      .ok (scripts.flatMap (·.render "script")) := by
    have read := body_render ⟨[], scripts.flatMap (·.render "script")⟩
      ⟨nofun, rfl, untagged_scripts (fun script mem => (placed script mem).tag)
        fun script mem => (placed script mem).content⟩ []
    rwa [append_nil] at read
  obtain ⟨behind, got, noStart⟩ := scripts_render
    (fun script mem => (placed script mem).readable) [] fun _ => trivial
  rw [nil_append] at got
  rw [cellAt?, parse, document, String.toList_ofList, content]
  dsimp only
  rw [got]
  dsimp only
  rw [noStart, if_neg (by decide)]
  have nth : scripts.zipIdx[i]? = scripts[i]?.map (·, i) := by
    rw [getElem?_zipIdx, Nat.zero_add]
  show (scripts.zipIdx.map fun e => cellOf e.2 e.1)[i]? = _
  rw [getElem?_map, nth, Option.map_map]
  rfl

theorem untagged_comment {name : String} {content : List Char} (free : ¬ "</".toList <:+: comment)
    (untagged : Untagged name content) : Untagged name (comment ++ '\n' :: content) := by
  induction comment with
  | nil => exact .cons_of_ne (by decide) untagged
  | cons c comment ih =>
    have later := ih fun inside => free (inside.trans (suffix_cons _ _).isInfix)
    by_cases angle : c = '<'
    · subst angle
      cases comment with
      | nil => exact .angle (by decide) later
      | cons d comment =>
        refine .angle ?_ later
        rintro rfl
        exact free ⟨[], comment, rfl⟩
    · exact .cons_of_ne angle later

theorem Element.Placed.commented (placed : script.Placed) (free : ¬ "</".toList <:+: comment) :
    (script.commented comment).Placed := by
  have untagged {name : String} (content : Untagged name script.content) :
      Untagged name ('/' :: '/' :: (comment ++ '\n' :: script.content)) :=
    .cons_of_ne (by decide) (.cons_of_ne (by decide) (untagged_comment free content))
  exact ⟨⟨placed.readable.tag, placed.readable.apart, untagged placed.readable.content⟩,
    placed.tag, untagged placed.content⟩

theorem cellAt?_append {pre back : List Element} (placed : ∀ elem ∈ pre ++ script :: back, elem.Placed) :
    cellAt? (document (pre ++ script :: back)) pre.length = some (cellOf pre.length script) := by
  rw [cellAt?_document placed, getElem?_append_right (Nat.le_refl _), Nat.sub_self]
  rfl

/-- **A comment line in front of a script is trivia.**  The cell has the same outputs, inputs,
shape, packages and flags as before; only the body of its procedure may be another.  The one
exception is the definition of a view: behind a comment line nothing is one, and the cell is
compiled like any other script. -/
theorem compile_leadingComment {front back : List Element} {script : Element} {comment : List Char}
    (placed : ∀ element ∈ front ++ script :: back, element.Placed) (oneLine : '\n' ∉ comment)
    (unclosed : ¬ "</".toList <:+: comment) (flush : Flush (unescapeClosing script.content))
    {cell : SourceCell}
    (found : cellAt? (document (front ++ script :: back)) front.length = some cell)
    (isScript : cell.language = .script) :
    ∃ commented,
      cellAt? (document (front ++ script.commented comment :: back)) front.length =
        some commented ∧
      (∀ compiled, cell.compile = .ok compiled → compiled.shape ≠ .viewPair →
        (cell.form = .program → compiled.beginsOf = false) →
        ∃ body, commented.compile = .ok { compiled with body := body }) ∧
      (∀ compiled, cell.plain.compile = .ok compiled →
        (cell.plain.form = .program → compiled.beginsOf = false) →
        ∃ body, commented.compile = .ok { compiled with body := body }) ∧
      ∀ compiled, commented.compile = .ok compiled → compiled.shape ≠ .viewPair := by
  have placed' : ∀ element ∈ front ++ script.commented comment :: back, element.Placed := by
    intro element member
    rcases List.mem_append.1 member with before | member
    · exact placed element (List.mem_append_left _ before)
    rcases List.mem_cons.1 member with rfl | behind
    · exact (placed script (List.mem_append_right _ List.mem_cons_self)).commented unclosed
    · exact placed element (List.mem_append_right _ (List.mem_cons_of_mem _ behind))
  obtain rfl := Option.some.inj (found.symm.trans (cellAt?_append placed))
  obtain ⟨source, same, behind⟩ := cellOf_commented oneLine front.length flush
  refine ⟨_, (cellAt?_append placed').trans (congrArg some same), ?_⟩
  generalize cellOf front.length script = cell at isScript behind
  refine ⟨fun compiled done shape free => ?_, fun compiled done free => ?_, fun compiled done => ?_⟩
  · obtain ⟨plain, form⟩ := SourceCell.compile_plain isScript done shape
    exact cell.plain.compile_behind isScript behind plain (form ▸ free)
  · exact cell.plain.compile_behind isScript behind done free
  · refine SourceCell.shape_ne_viewPair ?_ ?_ done
    · exact isScript
    · rfl

def sampleImport : Element where
  tag := []
  content := "\n \nimport a from \"d@1\"".toList

def sampleView : Element where
  tag := []
  content := "viewof n = f()".toList

theorem placed_samples : ∀ elem ∈ [sampleView] ++ sampleImport :: [], elem.Placed := by
  simp only [singleton_append, mem_cons, not_mem_nil, or_false, forall_eq_or_imp, forall_eq]
  exact ⟨⟨⟨by decide, by decide, by decide⟩, by decide, by decide⟩,
    ⟨⟨by decide, by decide, by decide⟩, by decide, by decide⟩⟩

/-- Behind a comment an import still defines its name and pins its version. -/
theorem compile_leadingComment_import :
    ∃ commented body,
      cellAt? (document [sampleView, sampleImport.commented " <of> \x7b".toList]) 1 =
        some commented ∧
      commented.compile = .ok {
        index := 1
        outputs := ["a"]
        inputs := []
        body := body
        packages := ["d"]
        versions := [("d", "1")]
        shape := .single
        isAsync := true
        isGenerator := false } := by
  have unclosed : ¬ "</".toList <:+: " <of> \x7b".toList := by decide
  have done : (cellOf 1 sampleImport).compile.toOption = some {
      index := 1
      outputs := ["a"]
      inputs := []
      body := "const \x7bdefault: a\x7d = await import(\"d\");\nreturn a;"
      packages := ["d"]
      versions := [("d", "1")]
      shape := .single
      isAsync := true
      isGenerator := false } := by
    decide +kernel
  obtain ⟨commented, read, same, -⟩ := compile_leadingComment placed_samples (by decide) unclosed
    (by decide +kernel) (cellAt?_append placed_samples) (by decide +kernel)
  obtain ⟨body, compiled⟩ := same _ (Except.eq_ok_of_toOption done) (by decide)
    fun _ => by decide +kernel
  exact ⟨commented, body, read, compiled⟩

/-- Behind a comment the definition of a view defines nothing. -/
theorem compile_leadingComment_view :
    let defined (script : Element) := (cellAt? (document [script]) 0).bind fun cell =>
      cell.compile.toOption.map fun compiled => (compiled.outputs, compiled.shape)
    defined sampleView = some (["viewof n", "n"], .viewPair) ∧
      defined (sampleView.commented "c".toList) = some ([], .anonymous) := by
  decide +kernel

end Bindery.Notebook
