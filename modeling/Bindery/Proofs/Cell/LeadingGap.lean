/-
Proofs.Cell.LeadingGap -- a cell behind a gap

A comment line, or any gap that ends a line, may stand in front of a script.  The script has
the same form as before (`detect_movedBy`), and its procedure has the same body, with the gap
in front of it when the script is a program (`formBody_gap`).
-/
import Bindery.Proofs.Cell.Normal
import Bindery.Proofs.Import.Moved

namespace Bindery

open List TokenSeq Token Text Bool Form Option Script

variable {compiled : CompiledCell} {start : Nat} {imports : Import.Found}

/-! ## The form -/

namespace Form

variable (bs : Nat) (l : Bool) (ts : List Token) {seq : TokenSeq} {i : Nat}

theorem isLast_movedBy : isLast (.ofList (movedBy bs l ts)) = isLast (.ofList ts) := by
  funext i
  rw [isLast, isLast, size_movedBy, punctAt_movedBy]

theorem endsBefore_movedBy (start i : Nat) (t : Token) :
    endsBefore (.ofList (movedBy bs l ts)) start i (t.moved bs (l && i == 0)) =
      endsBefore (.ofList ts) start i t := by
  unfold endsBefore
  rw [moved_isPunct, isLast_movedBy, moved_newlineBefore, prevHolds_movedBy bs l ts i fun _ _ => rfl]
  by_cases behind : start < i
  · have later : (i == 0) = false := by
      rw [beq_eq_false_iff_ne]
      omega
    rw [later, Bool.and_false, Bool.or_false]
    rfl
  · simp [behind]

theorem isSingleFrom_of_some {t : Token} (here : seq.get? i = some t) :
    isSingleFrom seq start i = if endsBefore seq start i t then false
      else isSingleFrom seq start (seq.skip i) := by
  conv => lhs; rw [isSingleFrom]
  split
  · next missing =>
    rw [here] at missing
    cases missing
  · next got =>
    rw [here] at got
    cases got
    rfl

theorem isSingleFrom_movedBy (start i : Nat) :
    isSingleFrom (.ofList (movedBy bs l ts)) start i = isSingleFrom (.ofList ts) start i := by
  have moved {i : Nat} {t : Token}
      (here : (ofList ts).get? i = some t) :
      (ofList (movedBy bs l ts)).get? i =
        some (t.moved bs (l && i == 0)) := by
    rw [get?_movedBy, here, map_some]
  fun_induction isSingleFrom (ofList ts) start i with
  | case1 i missing =>
    rw [isSingleFrom]
    split
    · rfl
    · next got =>
      rw [get?_movedBy, missing] at got
      cases got
  | case2 i t here ends =>
    rw [isSingleFrom_of_some (moved here), endsBefore_movedBy, if_pos ends]
  | case3 i t here continues ih =>
    rw [isSingleFrom_of_some (moved here), endsBefore_movedBy, if_neg continues, skip_movedBy, ih]

theorem loneBlock?_movedBy (i : Nat) :
    loneBlock? (.ofList (movedBy bs l ts)) i = loneBlock? (.ofList ts) i := by
  rw [loneBlock?, loneBlock?, punctAt_movedBy, closer?_movedBy, isLast_movedBy]

theorem startsProgram_movedBy (fst : Token) (l' : Bool) :
    startsProgram (.ofList (movedBy bs l ts)) (fst.moved bs l') = startsProgram (.ofList ts) fst := by
  unfold startsProgram
  rw [get?_movedBy]
  cases (ofList ts).get? 1 <;> rfl

/-- **A gap does not change the form of a script.** -/
theorem detect_movedBy (isView : Bool) :
    detect (.ofList (movedBy bs l ts)) isView = detect (.ofList ts) isView := by
  unfold detect
  rw [get?_movedBy bs l ts 0]
  cases (ofList ts).get? 0 with
  | none => rfl
  | some fst =>
    dsimp only [map_some]
    simp only [punctAt_movedBy, size_movedBy, isSingleExpression, isSingleFrom_movedBy,
      loneBlock?_movedBy, startsProgram_movedBy, moved_isIdent, moved_kind,
      moved_text]
    rw [filter_movedBy bs l ts 1 fun _ _ => rfl]
    cases ((ofList ts).get? 1).filter _ <;> rfl

def Inside (seq : TokenSeq) : Form → Prop
  | .named _ start | .view _ start => start < seq.size
  | .block opener closer => opener < seq.size ∧ closer < seq.size
  | .expression => 0 < seq.size
  | .empty | .program => True

theorem lt_of_loneBlock? {c : Nat} (got : loneBlock? seq i = some c) : i < c ∧ c < seq.size := by
  unfold loneBlock? at got
  split at got
  · obtain ⟨pair, last⟩ := filter_eq_some_iff.1 got
    refine ⟨lt_closer pair, ?_⟩
    simp only [isLast, or_eq_true, and_eq_true, beq_iff_eq] at last
    omega
  · cases got

theorem inside_detect (seq : TokenSeq) (isView : Bool) : (detect seq isView).Inside seq := by
  unfold detect
  split
  · trivial
  next fst got =>
  have size := lt_of_get? got
  split
  · next name matched =>
    have conditions := (filter_eq_some_iff.1 matched).2
    simp only [and_eq_true, decide_eq_true_eq] at conditions
    exact conditions.1.2
  split
  · next named => exact named.2.2.1
  split
  · next c b => exact ⟨size, (lt_of_loneBlock? b).2⟩
  split
  · exact size
  · trivial

end Form

/-! ## Edits -/

namespace Text

theorem applyFrom_moved (bs stop : Nat) (edits : List Edit) (cursor : Nat) (r : List Char) :
    applyFrom (stop + bs) (edits.map (Edit.moved bs)) (cursor + bs) r = applyFrom stop edits cursor r := by
  induction edits generalizing cursor r with
  | nil => rfl
  | cons edit later ih =>
    rw [map_cons, applyFrom, applyFrom]
    simp only [Edit.moved, Nat.add_lt_add_iff_right, Nat.add_sub_add_right, ih]

theorem applyFrom_gap (g : List Char) (stop : Nat) (edits : List Edit) (r : List Char) :
    applyFrom (stop + byteLength g) (edits.map (Edit.moved (byteLength g))) 0 (g ++ r) =
      g ++ applyFrom stop edits 0 r := by
  induction edits with
  | nil => rfl
  | cons edit later ih =>
    have start : (edit.moved (byteLength g)).start - 0 = byteLength g + (edit.start - 0) := by
      simp only [Edit.moved]
      omega
    have ends : (edit.moved (byteLength g)).stop - 0 = byteLength g + (edit.stop - 0) := by
      simp only [Edit.moved]
      omega
    rw [map_cons, applyFrom, applyFrom, start, ends, takeBytes_append, dropBytes_append]
    by_cases outside : stop < edit.stop
    · rw [if_pos (.inr (by simp only [Edit.moved]; omega)), if_pos (.inr outside), ih]
    · rw [if_neg (by simp only [Edit.moved]; omega), if_neg (by omega)]
      simp only [Edit.moved, applyFrom_moved, append_assoc]

theorem slice_whole (s : List Char) : slice 0 (byteLength s) s = s := by
  have whole := slice_append [] s []
  simpa [byteLength] using whole

variable (g src : List Char) (edits : List Edit)

theorem applyEdits_gap (start stop : Nat) :
    applyEdits (g ++ src) (start + byteLength g) (stop + byteLength g)
        (edits.map (Edit.moved (byteLength g))) = applyEdits src start stop edits := by
  rw [applyEdits, applyEdits, applyFrom_moved, slice, slice, Nat.add_sub_add_right,
    Nat.add_comm start, dropBytes_append]

theorem applyEdits_whole :
    applyEdits (g ++ src) 0 (byteLength (g ++ src)) (edits.map (Edit.moved (byteLength g))) =
      g ++ applyEdits src 0 (byteLength src) edits := by
  rw [applyEdits, applyEdits, slice_whole, slice_whole, byteLength_append,
    Nat.add_comm (byteLength g), applyFrom_gap]

end Text

/-! ## The body -/

namespace Script

variable {g src : List Char} {l : Bool} {ts : List Token} {edits : List Edit}

theorem exists_get? {seq : TokenSeq} {i : Nat} (inside : i < seq.size) : ∃ t, seq.get? i = some t :=
  ⟨_, Array.getElem?_eq_getElem inside⟩

theorem blockBody_gap {o c : Nat} (opened : o < (ofList ts).size) (closed : c < (ofList ts).size) :
    blockBody (g ++ src) (.ofList (movedBy (byteLength g) l ts)) o c (edits.map (Edit.moved (byteLength g))) =
      blockBody src (.ofList ts) o c edits := by
  obtain ⟨opening, fst⟩ := exists_get? opened
  obtain ⟨closing, last⟩ := exists_get? closed
  unfold blockBody
  rw [get?_movedBy, get?_movedBy, fst, last]
  exact congrArg trimLineFeeds (applyEdits_gap g src edits opening.stop closing.start)

theorem expressionStop_gap :
    expressionStop (g ++ src) (.ofList (movedBy (byteLength g) l ts)) =
      expressionStop src (.ofList ts) + byteLength g := by
  unfold expressionStop
  rw [size_movedBy, filter_movedBy _ l ts _ fun _ _ => rfl]
  cases ((ofList ts).get? ((ofList ts).size - 1)).filter _ with
  | none => exact (byteLength_append g src).trans (Nat.add_comm _ _)
  | some semi => rfl

theorem expressionBody_gap (begun : start < (TokenSeq.ofList ts).size) :
    expressionBody (g ++ src) (.ofList (movedBy (byteLength g) l ts)) start
        (edits.map (Edit.moved (byteLength g))) =
      expressionBody src (.ofList ts) start edits := by
  unfold expressionBody
  rw [loneBlock?_movedBy]
  cases block : loneBlock? (ofList ts) start with
  | some c => exact blockBody_gap begun (lt_of_loneBlock? block).2
  | none =>
    obtain ⟨t, got⟩ := exists_get? begun
    dsimp only
    rw [get?_movedBy, got, expressionStop_gap]
    dsimp only [map_some, elim_some, moved_start]
    rw [applyEdits_gap]

def lead (form : Form) (g : List Char) : List Char :=
  if form = .program then g else []

/-- **The body of a script behind a gap.** -/
theorem formBody_gap {form : Form} (inside : form.Inside (.ofList ts)) :
    formBody form (g ++ src) (.ofList (movedBy (byteLength g) l ts)) (edits.map (Edit.moved (byteLength g))) =
      lead form g ++ formBody form src (.ofList ts) edits := by
  cases form with
  | empty => rfl
  | named n start => exact expressionBody_gap inside
  | view n start => exact expressionBody_gap inside
  | block o c => exact blockBody_gap inside.1 inside.2
  | expression => exact expressionBody_gap inside
  | program => exact applyEdits_whole g src edits

/-! ## References to controls -/

theorem viewEdits_movedBy (bs : Nat) (l : Bool) {p p' : Option Token}
    (eq : p'.any Token.selects = p.any Token.selects) (ts : List Token) :
    viewEdits p' (movedBy bs l ts) = (viewEdits p ts).map (Edit.moved bs) := by
  induction ts generalizing p p' l with
  | nil => rfl
  | cons v r ih =>
    cases r with
    | nil => rfl
    | cons n r =>
      have later : viewEdits (some (v.moved bs l))
          (movedBy bs false (n :: r)) = (viewEdits (some v) (n :: r)).map (Edit.moved bs) := ih false rfl
      by_cases cond : v.isIdent "viewof" ∧ n.kind = .ident ∧ ¬ p.any selects
      · rw [movedBy, map_cons, viewEdits, viewEdits, if_pos cond, if_pos (by rwa [eq])]
        exact congrArg _ later
      · rw [movedBy, map_cons, viewEdits, viewEdits, if_neg cond, if_neg (by rwa [eq])]
        exact later

theorem replaceViews_gap {s replaced : List Char} (isGap : LineGap g) (done : replaceViews s = .ok replaced) :
    replaceViews (g ++ s) = .ok (g ++ replaced) := by
  obtain ⟨ts, lexed, rfl⟩ := Except.map_eq_ok.1 done
  have edits : viewEdits none (movedBy (byteLength g) true ts) =
      (viewEdits none ts).map (Edit.moved (byteLength g)) :=
    viewEdits_movedBy (byteLength g) true rfl ts
  rw [replaceViews, isGap.lexFrom_moved lexed]
  exact congrArg _ ((congrArg _ edits).trans (applyEdits_whole g s _))

end Script

/-! ## The procedure -/

def SourceCell.plain (c : SourceCell) : SourceCell :=
  { c with isView := false }

def SourceCell.form (c : SourceCell) : Form :=
  (lexFrom {} c.source.toList).toOption.elim .empty fun ts =>
    Form.detect (.ofList ts) c.isView

theorem SourceCell.form_eq {c : SourceCell} {ts : List Token} (read : lexFrom {} c.source.toList = .ok ts) :
    c.form = detect (.ofList ts) c.isView := by
  rw [form, read]
  rfl

def CompiledCell.beginsOf (compiled : CompiledCell) : Bool :=
  (lexFrom {} compiled.body.toList).toOption.any Bindery.beginsOf

namespace Script

variable {g body : List Char} {ts : List Token} {c : SourceCell}

theorem replaceViews_lead {s replaced : List Char} (isGap : LineGap g) (form : Form)
    (done : replaceViews s = .ok replaced) :
    replaceViews (lead form g ++ s) = .ok (lead form g ++ replaced) := by
  unfold lead
  split
  · exact replaceViews_gap isGap done
  · exact done

theorem exists_lex_lead (isGap : LineGap g) (form : Form) (lexed : lexFrom {} body = .ok ts)
    (free : form = .program → Bindery.beginsOf ts = false) :
    ∃ ts', lex (lead form g ++ body) = .ok ts' ∧ Scope.analyze ts' = Scope.analyze ts := by
  unfold lead
  split
  · next program =>
    exact ⟨_, Except.mapError_eq_ok.2 (isGap.lexFrom_moved lexed), Scope.analyze_movedBy _ _ (free program)⟩
  · exact ⟨ts, Except.mapError_eq_ok.2 lexed, rfl⟩

theorem beginsOf_assemble (lexed : lexFrom {} body = .ok ts) {form : Form}
    (free : (assemble c form imports body (Scope.analyze ts)).beginsOf = false) :
    Bindery.beginsOf ts = false := by
  obtain ⟨all, read, ks⟩ := lexFrom_of_spells (spells_assemble lexed c form imports)
  rw [CompiledCell.beginsOf, read] at free
  refine eq_false_iff.2 fun begins => ?_
  have more : beginsOf all := by
    rw [beginsOf, isPrefixOf_iff_prefix] at begins ⊢
    rw [ks]
    exact begins.trans (prefix_append _ _)
  rw [show ((Except.ok all : Except LexError (List Token)).toOption.any beginsOf) =
    beginsOf all from rfl, more] at free
  cases free

/-- **A gap in front of a script is trivia.** -/
theorem compile_gap (isGap : LineGap g) (done : compile c = .ok compiled)
    (free : c.form = .program → compiled.beginsOf = false) :
    ∃ body, compile { c with source := String.ofList (g ++ c.source.toList) } =
      .ok { compiled with body := body } := by
  obtain ⟨ts, imports, body, bodyTokens, lexed, scanned, replaced, relexed, rfl⟩ := compile_eq_ok.1 done
  have read := Except.mapError_eq_ok.1 lexed
  have whole := Except.mapError_eq_ok.1 relexed
  have detected := SourceCell.form_eq read
  rw [← detected] at free replaced ⊢
  have inside : c.form.Inside (.ofList ts) := detected ▸ inside_detect _ _
  obtain ⟨ts', lexed', eq⟩ := exists_lex_lead isGap c.form whole
    fun program => beginsOf_assemble whole (free program)
  have done' : compile { c with source := String.ofList (g ++ c.source.toList) } =
      .ok (assemble { c with source := String.ofList (g ++ c.source.toList) } c.form
        (imports.moved (byteLength g)) (lead c.form g ++ body) (Scope.analyze ts')) := by
    refine compile_eq_ok.2 ⟨movedBy (byteLength g) true ts, imports.moved (byteLength g),
      lead c.form g ++ body, ts', Except.mapError_eq_ok.2 ?_,
      Import.scanFrom_movedBy (byteLength g) true ts 0 scanned, ?_, lexed', ?_⟩
    · rw [String.toList_ofList]
      exact isGap.lexFrom_moved read
    · rw [String.toList_ofList, detect_movedBy, ← detected]
      exact (formBody_gap inside) ▸ replaceViews_lead isGap _ replaced
    · rw [detect_movedBy, ← detected]
  rw [eq] at done'
  exact ⟨_, done'⟩

theorem compile_of_empty {src : List Char} (done : compile c = .ok compiled)
    (empty : lexFrom {} c.source.toList = .ok []) (empty' : lexFrom {} src = .ok []) :
    compile { c with source := String.ofList src } = .ok compiled := by
  obtain ⟨ts, imports, body, bodyTokens, lexed, scanned, replaced, relexed, eq⟩ := compile_eq_ok.1 done
  have read := Except.mapError_eq_ok.1 lexed
  rw [empty] at read
  cases read
  refine compile_eq_ok.2 ⟨[], imports, body, bodyTokens, Except.mapError_eq_ok.2 ?_, scanned,
    replaced, relexed, eq⟩
  rwa [String.toList_ofList]

end Script

/-- The second text is the first behind a gap, or neither holds a token. -/
def Behind (src src' : List Char) : Prop :=
  (∃ g, LineGap g ∧ src' = g ++ src) ∨
    lexFrom {} src = .ok [] ∧ lexFrom {} src' = .ok []

theorem SourceCell.compile_script (c : SourceCell) (isScript : c.language = .script) :
    c.compile = .ok compiled ↔ Script.compile c = .ok compiled := by
  rw [SourceCell.compile, isScript]
  exact Except.mapError_eq_ok

/-- **A script behind a gap is the same procedure**, up to its body. -/
theorem SourceCell.compile_behind (c : SourceCell) (isScript : c.language = .script)
    {src : List Char} (behind : Behind c.source.toList src)
    (done : c.compile = .ok compiled) (free : c.form = .program → compiled.beginsOf = false) :
    ∃ body, { c with source := String.ofList src }.compile = .ok { compiled with body := body } := by
  have moved {res : CompiledCell} :
      { c with source := String.ofList src }.compile = .ok res ↔
        Script.compile { c with source := String.ofList src } = .ok res :=
    compile_script { c with source := String.ofList src } isScript
  have done := (compile_script c isScript).1 done
  rcases behind with ⟨g, isGap, rfl⟩ | ⟨empty, empty'⟩
  · obtain ⟨body, done'⟩ := compile_gap isGap done free
    exact ⟨body, moved.2 done'⟩
  · exact ⟨compiled.body, moved.2 (compile_of_empty done empty empty')⟩

/-! ## The flag of a view -/

theorem Form.detect_of_not_view {seq : TokenSeq} {isView : Bool}
    (other : ∀ n start, detect seq isView ≠ .view n start) : detect seq false = detect seq isView := by
  unfold detect at other ⊢
  cases got : seq.get? 0 with
  | none => rfl
  | some fst =>
    rw [got] at other
    dsimp only at other ⊢
    cases matched : (seq.get? 1).filter (fun n =>
        isView && fst.isIdent "viewof" && n.kind == .ident && seq.punctAt 2 "=" &&
          3 < seq.size && isSingleExpression seq 3) with
    | some n =>
      rw [matched] at other
      exact absurd rfl (other n.text 3)
    | none => simp

theorem Form.detect_ne_view (seq : TokenSeq) (n : String) (start : Nat) : detect seq false ≠ .view n start := by
  unfold detect
  split
  · intro eq
    cases eq
  · split
    · next matched => simp at matched
    · repeat' split
      all_goals
        intro eq
        cases eq

namespace Script

theorem shape_assemble {c : SourceCell} {form : Form} {body : List Char} {analysis : Scope.Analysis} :
    (assemble c form imports body analysis).shape = .viewPair ↔ ∃ n start, form = .view n start := by
  have declared (ns : List String) : (declaredOutput ns).2 ≠ .viewPair := by
    cases ns <;> nofun
  have program (ns : List String) : programShape ns ≠ .viewPair := by
    match ns with
    | [] | [_] | _ :: _ :: _ => nofun
  cases form with
  | view n start => exact iff_of_true rfl ⟨n, start, rfl⟩
  | program => exact iff_of_false (program _) nofun
  | block => exact iff_of_false (declared _) nofun
  | expression => exact iff_of_false (declared _) nofun
  | empty => exact iff_of_false nofun nofun
  | named => exact iff_of_false nofun nofun

end Script

namespace SourceCell

variable {c : SourceCell}

theorem compile_plain (isScript : c.language = .script) (done : c.compile = .ok compiled)
    (other : compiled.shape ≠ .viewPair) : c.plain.compile = .ok compiled ∧ c.plain.form = c.form := by
  obtain ⟨ts, imports, body, bodyTokens, lexed, scanned, replaced, relexed, rfl⟩ :=
    compile_eq_ok.1 ((c.compile_script isScript).1 done)
  have eq : detect (.ofList ts) c.plain.isView =
      detect (.ofList ts) c.isView :=
    detect_of_not_view fun n start isView =>
      other (shape_assemble.2 ⟨n, start, isView⟩)
  have read := Except.mapError_eq_ok.1 lexed
  have read' : lexFrom {} c.plain.source.toList = .ok ts := read
  constructor
  · refine (c.plain.compile_script isScript).2 (compile_eq_ok.2
      ⟨ts, imports, body, bodyTokens, lexed, scanned, ?_, relexed, ?_⟩)
    · rwa [eq]
    · rw [eq]
      rfl
  · rw [form_eq read, form_eq read', eq]

theorem shape_ne_viewPair (isScript : c.language = .script) (flag : c.isView = false)
    (done : c.compile = .ok compiled) : compiled.shape ≠ .viewPair := by
  obtain ⟨ts, imports, body, bodyTokens, _, _, _, _, rfl⟩ :=
    compile_eq_ok.1 ((c.compile_script isScript).1 done)
  rw [flag, ne_eq, shape_assemble]
  rintro ⟨n, start, isView⟩
  exact detect_ne_view _ n start isView

end SourceCell

end Bindery
