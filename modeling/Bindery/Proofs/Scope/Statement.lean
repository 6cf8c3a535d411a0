/-
Proofs.Scope.Statement -- a statement leaves nothing open

The scopes a walk can go back to lie in its open brackets and in its delimited
scopes, mixed by depth.  `Nested` says that leaving them all, the innermost first,
ends in the outermost scope.  A walk over tokens without loose brackets and without
classes keeps that (`Tidy`): it has as many brackets open as the tokens have, and
an announced brace always comes next.
-/
import Bindery.Proofs.Token.Brackets
import Bindery.Scope.Analysis

namespace Bindery

open List TokenSeq Token

variable {ts : List Token} {i o : Nat} {t : Token}

/-! ## Going forward over whole brackets -/

/-- A token that is neither a bracket nor a semicolon. -/
structure Token.Plain (t : Token) : Prop where
  opens : t.closerText? = none
  closes : t.isCloser = false
  semicolon : t.isPunct ";" = false

theorem Token.plain_of_kind (other : t.kind ≠ .punct) : t.Plain where
  opens := by simp [closerText?, isPunct, other]
  closes := by simp [isCloser, isPunct, other]
  semicolon := by simp [isPunct, other]

theorem Token.plain_of_isPunct {text : String} (here : t.isPunct text)
    (other : [";", "(", "[", openBrace, ")", "]", closeBrace].contains text = false) : t.Plain := by
  simp only [contains_cons, Bool.or_eq_false_iff] at other
  obtain ⟨semi, paren, bracket, brace, closeParen, closeBracket, closeBrace', _⟩ := other
  exact {
    opens := by simp [closerText?, isPunct_of_isPunct here, paren, bracket, brace]
    closes := by simp [isCloser, isPunct_of_isPunct here, closeParen, closeBracket, closeBrace']
    semicolon := by rw [isPunct_of_isPunct here, semi] }

/-- The last token is a semicolon. -/
def EndsStatement (ts : List Token) : Prop :=
  ∃ t, ts.getLast? = some t ∧ t.isPunct ";" = true

instance (ts : List Token) : Decidable (EndsStatement ts) :=
  decidable_of_iff (ts.getLast?.any (·.isPunct ";") = true) <| by
    unfold EndsStatement
    cases ts.getLast? <;> simp

theorem EndsStatement.succ_lt_length (last : EndsStatement ts) (got : ts[i]? = some t)
    (other : t.isPunct ";" = false) : i + 1 < ts.length := by
  obtain ⟨semi, atEnd, isSemicolon⟩ := last
  rw [getLast?_eq_getElem?] at atEnd
  have bound := (List.getElem?_eq_some_iff.1 got).1
  refine Nat.lt_of_le_of_ne bound fun eq => ?_
  rw [← eq, Nat.add_sub_cancel, got] at atEnd
  cases atEnd
  rw [other] at isSemicolon
  cases isSemicolon

/-- A way from one index to another over plain tokens and whole brackets. -/
inductive Passes (ts : List Token) (start : Nat) : Nat → Prop
  | refl : Passes ts start start
  | plain {i : Nat} {t : Token} : Passes ts start i →
      ts[i]? = some t → t.Plain → Passes ts start (i + 1)
  | pair {opener closer : Nat} : Passes ts start opener → Closes ts opener closer →
      Passes ts start (closer + 1)

namespace Passes

variable {start stop : Nat}

theorem openAt_eq (passes : Passes ts start stop) : openAt ts stop = openAt ts start := by
  induction passes with
  | refl => rfl
  | plain _ got plain ih => rw [openAt_succ_of_plain got plain.opens plain.closes, ih]
  | pair _ closes ih => rw [closes.openAt_succ, ih]

theorem lt_length (passes : Passes ts start stop) (inside : start < ts.length)
    (last : EndsStatement ts) : stop < ts.length := by
  cases passes with
  | refl => exact inside
  | plain _ got plain => exact last.succ_lt_length got plain.semicolon
  | pair _ closes =>
    obtain ⟨_, closing, _, got, _, isCloser, _⟩ := closes.stack
    exact last.succ_lt_length got (isPunct_of_isCloser isCloser (by decide))

end Passes

namespace Scope

theorem passes_patternEnd {ts : List Token} (balanced : Balanced ts) {start i : Nat}
    (passes : Passes ts start i) : Passes ts start (patternEnd ts i) := by
  unfold patternEnd
  split
  · exact passes
  · next t got =>
    rw [get?_ofList] at got
    split
    · next kind => exact passes.plain got (plain_of_kind (by simp [kind]))
    · split
      · next opens =>
        have text : ∃ text, t.closerText? = some text := by
          unfold opensPattern at opens
          simp only [isPunct, Bool.or_eq_true, Bool.and_eq_true, beq_iff_eq] at opens
          rcases opens with ⟨kind, text⟩ | ⟨kind, text⟩ <;>
            simp [closerText?, isPunct, kind, text, openBrace]
        obtain ⟨text, opens⟩ := text
        obtain ⟨c, closes⟩ := balanced.exists_closes got opens
        unfold skip
        rw [closer?_ofList.2 closes]
        exact passes.pair closes
      · exact passes

/-! ## Nested scopes -/

def Opened.restore? : Opened → Option Chain
  | .paren | .bracket => none
  | .forHeader _ restore => some restore
  | .brace _ restore => restore

/-- Leaving all that is open, the innermost first, ends in the outermost scope. -/
inductive Nested : Chain → List Opened → List Delimited → Prop
  | root : Nested root [] []
  | delimited {here : Chain} {s : Delimited} {opens : List Opened} {outer : List Delimited} :
      s.depth = opens.length → Nested s.restore opens outer →
      Nested here opens (s :: outer)
  | keep {here : Chain} {opened : Opened} {outer : List Opened} {delimited : List Delimited} :
      opened.restore? = none → Nested here outer delimited → Nested here (opened :: outer) delimited
  | back {here restore : Chain} {opened : Opened} {outer : List Opened}
      {delimited : List Delimited} : opened.restore? = some restore →
      Nested restore outer delimited → Nested here (opened :: outer) delimited

namespace Nested

variable {here : Chain} {opens : List Opened} {delimited : List Delimited}

theorem depth_le (nested : Nested here opens delimited) : ∀ s ∈ delimited, s.depth ≤ opens.length := by
  induction nested with
  | root => exact fun _ mem => nomatch mem
  | delimited d _ ih =>
    intro s mem
    rcases mem_cons.1 mem with rfl | mem
    · exact Nat.le_of_eq d
    · exact ih s mem
  | keep _ _ ih => exact fun s mem => Nat.le_succ_of_le (ih s mem)
  | back _ _ ih => exact fun s mem => Nat.le_succ_of_le (ih s mem)

/-- Behind a bracket with no delimited scope left inside it, the scope it goes back
to is nested in what is around it. -/
theorem close {opened : Opened} {outer : List Opened} (nested : Nested here (opened :: outer) delimited)
    (left : ∀ s ∈ delimited.head?, s.depth ≤ outer.length) :
    Nested (opened.restore?.getD here) outer delimited := by
  cases nested with
  | delimited depth inner =>
    have := left _ rfl
    rw [depth, length_cons] at this
    omega
  | keep kept inner => rw [kept]; exact inner
  | back back inner => rw [back]; exact inner

theorem leave {s : Delimited} (nested : Nested here opens (s :: delimited))
    (own : opens.length ≤ s.depth) : Nested s.restore opens delimited := by
  cases nested with
  | delimited d inner => exact inner
  | keep _ inner =>
    have := inner.depth_le s mem_cons_self
    rw [length_cons] at own
    omega
  | back _ inner =>
    have := inner.depth_le s mem_cons_self
    rw [length_cons] at own
    omega

theorem here_eq_root (nested : Nested here [] []) : here = Scope.root := by
  cases nested
  rfl

end Nested

namespace Walk

variable {leaves : Delimited → Bool} {w : Walk} {s : Delimited} {outer : List Delimited}

theorem leaveWhile_of_leaves (top : w.delimited = s :: outer) (leave : leaves s) :
    w.leaveWhile leaves = ({ w with here := s.restore, delimited := outer } : Walk).leaveWhile leaves := by
  unfold leaveWhile
  simp only [top, takeWhile_cons_of_pos leave, dropWhile_cons_of_pos leave]
  cases more : (outer.takeWhile leaves).getLast? with
  | none =>
    have empty : outer.takeWhile leaves = [] := getLast?_eq_none_iff.1 more
    have stays : outer.dropWhile leaves = outer := by
      have whole := takeWhile_append_dropWhile (p := leaves) (l := outer)
      rwa [empty, nil_append] at whole
    simp [empty, stays]
  | some last =>
    rw [getLast?_cons, more]
    rfl

theorem nested_leaveWhile (leaves : Delimited → Bool) (scopes : List Delimited) (w : Walk)
    (top : w.delimited = scopes) (nested : Nested w.here w.opens w.delimited)
    (own : ∀ s, leaves s → w.opens.length ≤ s.depth) :
    Nested (w.leaveWhile leaves).here (w.leaveWhile leaves).opens (w.leaveWhile leaves).delimited ∧
    (w.leaveWhile leaves).opens = w.opens ∧
    (w.leaveWhile leaves).pending = w.pending ∧
    (w.leaveWhile leaves).delimited = scopes.dropWhile leaves := by
  induction scopes generalizing w with
  | nil =>
    have stays : w.leaveWhile leaves = w := by simp [leaveWhile, top]
    rw [stays]
    exact ⟨nested, rfl, rfl, top⟩
  | cons s outer ih =>
    cases leave : leaves s with
    | false =>
      have stays : w.leaveWhile leaves = w := by simp [leaveWhile, top, leave]
      rw [stays, dropWhile_cons_of_neg (by simp [leave])]
      exact ⟨nested, rfl, rfl, top⟩
    | true =>
      have inner := (top ▸ nested).leave (own s leave)
      rw [leaveWhile_of_leaves top leave, dropWhile_cons_of_pos leave]
      exact ih { w with here := s.restore, delimited := outer } rfl inner own

/-! ## What notes names and leaves the rest alone -/

/-- The part of a walk's state that says where it is. -/
structure Layout where
  here : Chain
  opens : List Opened
  pending : Option PendingBrace
  delimited : List Delimited

def layout (w : Walk) : Layout :=
  ⟨w.here, w.opens, w.pending, w.delimited⟩

section Layout

variable (seq : TokenSeq) (s : Chain) (w : Walk)

theorem layout_declare (n : String) : (w.declare s n).layout = w.layout := by
  unfold declare
  repeat' split
  all_goals rfl

theorem layout_referAt (i : Nat) : (referAt seq s w i).layout = w.layout := by
  unfold referAt
  repeat' split
  all_goals rfl

theorem layout_foldl {e : Type} {act : Walk → e → Walk} (each : ∀ w item, (act w item).layout = layout w)
    (es : List e) : (es.foldl act w).layout = w.layout := by
  induction es generalizing w with
  | nil => rfl
  | cons item r ih => rw [foldl_cons, ih, each]

theorem layout_apply (event : PatternEvent) : (apply seq s w event).layout = w.layout := by
  cases event with
  | declare n => exact layout_declare s w n
  | refer fst stop => exact layout_foldl w (layout_referAt seq s) _

theorem layout_bindPattern (i : Nat) : (w.bindPattern seq s i).layout = w.layout :=
  layout_foldl w (layout_apply seq s) _

theorem layout_bindParameters (o c : Nat) : (w.bindParameters seq s o c).layout = w.layout :=
  layout_foldl w (layout_apply seq s) _

theorem layout_bindArrow (fst : Nat) (params : Option (Nat × Nat)) :
    (w.bindArrow seq s fst params).layout = w.layout := by
  unfold bindArrow
  split
  · cases seq.get? fst with
    | none => rfl
    | some t => exact layout_declare s w t.text
  · exact layout_bindParameters seq s w _ _

theorem layout_suspend (isAwait : Bool) : (w.suspend isAwait).layout = w.layout := by
  unfold suspend
  repeat' split
  all_goals rfl

theorem layout_endDeclarationAtLineBreak (i : Nat) (t : Token) :
    (w.endDeclarationAtLineBreak seq i t).layout = w.layout := by
  unfold endDeclarationAtLineBreak
  repeat' split
  all_goals rfl

end Layout

/-! ## Tidy walks -/

/-- The walk is nested, has as many brackets open as the tokens have, and an
announced brace comes next. -/
structure Tidy (ts : List Token) (i : Nat) (w : Walk) : Prop where
  nested : Nested (w.pending.elim w.here (·.restore)) w.opens w.delimited
  depth : w.opens.length = (openAt ts i).length
  announced : w.pending.isSome = true →
    (ofList ts).punctAt i openBrace = true

structure Ready (ts : List Token) (i : Nat) (w : Walk) : Prop where
  nested : Nested w.here w.opens w.delimited
  depth : w.opens.length = (openAt ts i).length
  quiet : w.pending = none

def Lands (ts : List Token) (step : Step) : Prop :=
  step.1.Tidy ts step.2 ∧ step.2 < ts.length

namespace Ready

section

variable (ready : w.Ready ts i)
include ready

theorem tidy : w.Tidy ts i where
  nested := by rw [ready.quiet]; exact ready.nested
  depth := ready.depth
  announced := by rw [ready.quiet]; exact fun absent => nomatch absent

theorem of_layout {other : Walk} (eq : other.layout = w.layout) : other.Ready ts i := by
  injection eq with here opens pending delimited
  exact ⟨by rw [here, opens, delimited]; exact ready.nested, by rw [opens]; exact ready.depth,
    by rw [pending]; exact ready.quiet⟩

theorem newScope : w.newScope.Ready ts i := ready.of_layout rfl

theorem passes {stop : Nat} (passes : Passes ts i stop) : w.Ready ts stop :=
  ⟨ready.nested, by rw [passes.openAt_eq]; exact ready.depth, ready.quiet⟩

end

end Ready

namespace Tidy

theorem ready (tidy : w.Tidy ts i) {t : Token} (got : ts[i]? = some t)
    (other : t.isPunct openBrace = false) : w.Ready ts i := by
  have quiet : w.pending = none := by
    cases announced : w.pending with
    | none => rfl
    | some _ =>
      have brace := tidy.announced (by rw [announced]; rfl)
      rw [TokenSeq.punctAt, TokenSeq.holds, get?_ofList, got] at brace
      rw [show (some t).any (·.isPunct openBrace) = t.isPunct openBrace from rfl, other] at brace
      cases brace
  refine ⟨?_, tidy.depth, quiet⟩
  have nested := tidy.nested
  rw [quiet] at nested
  exact nested

end Tidy

/-! ## Steps -/

section Steps

variable {stop : Nat} {other : Walk} {opened : Opened}

theorem Ready.lands (ready : w.Ready ts i) (last : EndsStatement ts) (inside : i < ts.length)
    (passes : Passes ts i stop) (eq : other.layout = w.layout) : Lands ts (other, stop) :=
  ⟨((ready.of_layout eq).passes passes).tidy, passes.lt_length inside last⟩

theorem Ready.announceBody (ready : w.Ready ts i) (s : Chain) : (w.announceBody ts i s).Tidy ts i := by
  unfold Walk.announceBody
  split
  · next brace => exact ⟨ready.nested, ready.depth, fun _ => brace⟩
  · exact ready.tidy

theorem closes_of_group {c : Nat}
    (got : (if (ofList ts).punctAt o "(" then
      (ofList ts).closer? o else none) = some c) :
    Closes ts o c := by
  split at got
  · exact closer?_ofList.1 got
  · cases got

theorem Ready.functionTail (ready : w.Ready ts i) (last : EndsStatement ts) (inside : i < ts.length)
    (passes : Passes ts i o) (eq : other.layout = w.layout) (s : Chain) :
    Lands ts (other.functionTail ts o s) := by
  unfold Walk.functionTail
  split
  · exact ready.lands last inside passes eq
  · next c got =>
    have behind := passes.pair (closes_of_group got)
    have bound : (other.bindParameters ts s o c).layout = w.layout := by rw [layout_bindParameters, eq]
    exact ⟨((ready.of_layout bound).passes behind).announceBody s, behind.lt_length inside last⟩

theorem plain_of_holds {prop : Token → Bool} (passes : Passes ts i stop) (here : (ofList ts).holds stop prop)
    (plain : ∀ t, prop t → t.Plain) : Passes ts i (stop + 1) := by
  unfold holds at here
  rw [get?_ofList] at here
  cases got : ts[stop]? with
  | none => rw [got] at here; cases here
  | some t =>
    rw [got] at here
    exact passes.plain got (plain t here)

theorem Ready.push (ready : w.Ready ts i) (last : EndsStatement ts) (c : String) (got : ts[i]? = some t)
    (opens : t.closerText? = some c) (keeps : opened.restore? = none) (other : t.isPunct ";" = false) :
    Lands ts (w.push opened, i + 1) := by
  refine ⟨(Ready.tidy ⟨.keep keeps ready.nested, ?_, ready.quiet⟩), last.succ_lt_length got other⟩
  rw [openAt_succ_of_opens got opens]
  exact congrArg (· + 1) ready.depth

theorem Tidy.openBraceAt (tidy : w.Tidy ts i) (last : EndsStatement ts) (got : ts[i]? = some t)
    (brace : t.isPunct openBrace) : Lands ts (w.openBraceAt ts i, i + 1) := by
  have opens : t.closerText? = some closeBrace := by
    simp [closerText?, isPunct_of_isPunct brace, openBrace]
  have other : t.isPunct ";" = false := by rw [isPunct_of_isPunct brace]; decide
  have deeper : w.opens.length + 1 = (openAt ts (i + 1)).length := by
    rw [openAt_succ_of_opens got opens, length_cons, tidy.depth]
  have nested := tidy.nested
  unfold Walk.openBraceAt
  cases announced : w.pending with
  | some announced =>
    rw [announced] at nested
    refine ⟨Ready.tidy ⟨.back rfl nested, deeper, rfl⟩, last.succ_lt_length got other⟩
  | none =>
    rw [announced] at nested
    dsimp only
    split
    · exact Ready.push ⟨nested, tidy.depth, announced⟩ last _ got opens rfl other
    · exact ⟨Ready.tidy ⟨.back rfl nested, deeper, announced⟩, last.succ_lt_length got other⟩

theorem leaveWhile_opens (leaves : Delimited → Bool) (outer : List Opened) :
    ({ w with opens := outer } : Walk).leaveWhile leaves = { w.leaveWhile leaves with opens := outer } := by
  unfold leaveWhile
  dsimp only
  split <;> rfl

theorem tidy_afterClosing {outer : List Opened}
    (nested : Nested (opened.restore?.getD w.here) outer w.delimited)
    (depth : outer.length = (openAt ts (i + 1)).length) (quiet : w.pending = none) (keeps : Nat → Bool) :
    ((({ w with opens := outer } : Walk).keepDeclarations keeps).afterClosing
      ts i opened).Tidy ts (i + 1) := by
  cases opened with
  | paren => exact Ready.tidy ⟨nested, depth, quiet⟩
  | bracket => exact Ready.tidy ⟨nested, depth, quiet⟩
  | brace kind restore =>
    cases restore with
    | none => exact Ready.tidy ⟨nested, depth, quiet⟩
    | some restore => exact Ready.tidy ⟨nested, depth, quiet⟩
  | forHeader s restore =>
    show (afterForHeader _ _ _ _ _).Tidy _ _
    unfold afterForHeader
    split
    · next brace => exact ⟨nested, depth, fun _ => brace⟩
    · exact Ready.tidy ⟨.delimited rfl nested, depth, quiet⟩

theorem Ready.closeAt (ready : w.Ready ts i) (last : EndsStatement ts) (balanced : Balanced ts)
    (got : ts[i]? = some t) (closes : t.isCloser) : Lands ts (w.closeAt ts i, i + 1) := by
  refine ⟨?_, last.succ_lt_length got (isPunct_of_isCloser closes (by decide))⟩
  obtain ⟨o, pair⟩ := balanced.exists_opens got closes
  obtain ⟨_, _, _, _, _, _, stack⟩ := pair.stack
  have depth := ready.depth
  rw [stack, length_cons, ← pair.openAt_succ] at depth
  unfold Walk.closeAt
  cases opens : w.opens with
  | nil => rw [opens] at depth; cases depth
  | cons opened outer =>
    rw [opens, length_cons, Nat.add_right_cancel_iff] at depth
    -- leave what was opened inside the bracket while the bracket is still there
    obtain ⟨inner, eq, quiet, left⟩ := nested_leaveWhile
      (fun s => decide (outer.length < s.depth)) w.delimited w rfl ready.nested
      fun s deep => by
        rw [opens, length_cons]
        exact of_decide_eq_true deep
    rw [eq, opens] at inner
    have behind := inner.close fun s top => by
      rw [left] at top
      have := head?_dropWhile_not (fun s => decide (outer.length < s.depth)) w.delimited
      rw [top] at this
      simpa using this
    dsimp only
    rw [leaveWhile_opens]
    generalize w.leaveWhile (fun s => decide (outer.length < s.depth)) = left' at *
    rw [ready.quiet] at quiet
    exact tidy_afterClosing behind depth quiet _

theorem Ready.leaveWhile (ready : w.Ready ts i) (leaves : Delimited → Bool)
    (own : ∀ s, leaves s → s.depth = w.depth) : (w.leaveWhile leaves).Ready ts i := by
  obtain ⟨nested, opens, pending, _⟩ := nested_leaveWhile leaves w.delimited w rfl
    ready.nested fun s leave => Nat.le_of_eq (own s leave).symm
  exact ⟨nested, by rw [opens]; exact ready.depth, by rw [pending]; exact ready.quiet⟩

/-- The walk is ready at a plain token of a statement. -/
structure ReadyAt (ts : List Token) (i : Nat) (t : Token) (w : Walk) : Prop
    extends w.Ready ts i where
  last : EndsStatement ts
  found : ts[i]? = some t
  plain : t.Plain

namespace ReadyAt

variable (ready : w.ReadyAt ts i t)

include ready

theorem inside : i < ts.length := (List.getElem?_eq_some_iff.1 ready.found).1

theorem next : Passes ts i (i + 1) := Passes.refl.plain ready.found ready.plain

theorem lands (passes : Passes ts i stop) (eq : other.layout = w.layout) : Lands ts (other, stop) :=
  ready.toReady.lands ready.last ready.inside passes eq

theorem commaAt (balanced : Balanced ts) : Lands ts (w.separatorAt ts i false) := by
  unfold separatorAt
  dsimp only
  have left := ready.leaveWhile (fun s =>
    s.depth == w.depth && (false || s.endsAtComma)) fun s leave => by
      simp only [Bool.and_eq_true, beq_iff_eq] at leave
      exact leave.1
  generalize w.leaveWhile (fun s =>
    s.depth == w.depth && (false || s.endsAtComma)) = r at left
  replace ready : r.ReadyAt ts i t := { ready with toReady := left }
  unfold continueDeclaration
  rw [if_neg Bool.false_ne_true]
  split
  · split
    · exact ready.lands (passes_patternEnd balanced ready.next) (layout_bindPattern _ _ _ _)
    · exact ready.lands ready.next rfl
  · exact ready.lands ready.next rfl

theorem arrowAt : Lands ts (w.arrowAt ts i) := by
  unfold Walk.arrowAt
  split
  · exact ready.lands ready.next rfl
  · next fst params _ =>
    dsimp only
    refine ⟨?_, ready.next.lt_length ready.inside ready.last⟩
    generalize bound : bindArrow _ _ _ _ _ = w'
    have eq : w'.layout = w.layout := by
      rw [← bound, layout_bindArrow]
      rfl
    have ready' := (ready.of_layout eq).passes ready.next
    unfold enterArrowBody
    split
    · next brace => exact ⟨ready'.nested, ready'.depth, fun _ => brace⟩
    · exact Ready.tidy ⟨.delimited rfl ready'.nested, ready'.depth, ready'.quiet⟩

theorem functionAt : Lands ts (w.functionAt ts i) := by
  have next : Passes ts i (if (ofList ts).punctAt (i + 1) "*" then
      i + 2 else i + 1) := by
    split
    · next star =>
      exact plain_of_holds ready.next star fun t here => plain_of_isPunct here (by decide)
    · exact ready.next
  unfold Walk.functionAt
  dsimp only
  split
  · next name ident =>
    obtain ⟨got', kind⟩ := ident?_eq_some.1 ident
    rw [get?_ofList] at got'
    exact ready.newScope.functionTail ready.last ready.inside
      (next.plain got' (plain_of_kind (by simp [kind]))) (layout_declare _ _ _) _
  · exact ready.newScope.functionTail ready.last ready.inside next rfl _

theorem openForHeader (passes : Passes ts i o)
    (paren : (ofList ts).punctAt o "(")
    (eq : other.layout = w.layout) : Lands ts (other.openForHeader, o + 1) := by
  rw [TokenSeq.punctAt, TokenSeq.holds, get?_ofList] at paren
  cases got : ts[o]? with
  | none => rw [got] at paren; cases paren
  | some t =>
    rw [got] at paren
    have here : t.isPunct "(" := paren
    have ready' := (ready.of_layout eq).passes passes
    refine ⟨Ready.tidy ⟨.back rfl ready'.nested, ?_, ready'.quiet⟩,
      ready.last.succ_lt_length got (by rw [isPunct_of_isPunct here]; decide)⟩
    rw [openAt_succ_of_opens got (show t.closerText? = some ")" by simp [closerText?, here])]
    exact congrArg (· + 1) ready'.depth

theorem forAt : Lands ts (w.forAt ts i) := by
  unfold Walk.forAt
  split
  · next waits =>
    have behind : Passes ts i (i + 2) := plain_of_holds ready.next waits
      fun t here => by
        simp only [isKeyword, Bool.and_eq_true, beq_iff_eq] at here
        exact plain_of_kind (by simp [here.1])
    split
    · next paren => exact ready.openForHeader behind paren (layout_suspend _ _)
    · exact ready.lands ready.next (layout_suspend _ _)
  · split
    · next paren => exact ready.openForHeader ready.next paren rfl
    · exact ready.lands ready.next rfl

theorem catchAt : Lands ts (w.catchAt ts i) := by
  unfold Walk.catchAt
  dsimp only
  split
  · next c group =>
    have behind := ready.next.pair (closes_of_group group)
    exact ⟨((ready.newScope.of_layout (layout_bindPattern _ _ _ _)).passes behind).announceBody _,
      behind.lt_length ready.inside ready.last⟩
  · exact ⟨(ready.newScope.passes ready.next).announceBody _, ready.next.lt_length ready.inside ready.last⟩

theorem memberAt : Lands ts (w.memberAt ts i t) := by
  unfold Walk.memberAt
  split
  · exact ready.lands ready.next rfl
  · split
    · exact ready.newScope.functionTail ready.last ready.inside ready.next rfl _
    · split
      · exact ready.lands ready.next rfl
      · exact ready.lands ready.next rfl

theorem declarationAt (balanced : Balanced ts) (isVar : Bool) : Lands ts (w.declarationAt ts i isVar) := by
  unfold Walk.declarationAt
  split
  · exact ready.lands ready.next rfl
  · exact ready.lands (passes_patternEnd balanced ready.next) (layout_bindPattern _ _ _ _)

theorem suspendAt (isAwait : Bool) : Lands ts (w.suspendAt ts i isAwait) := by
  unfold Walk.suspendAt
  split
  · exact ready.lands ready.next rfl
  · exact ready.lands ready.next (layout_suspend _ _)

theorem keywordAt (balanced : Balanced ts) (kw : t.kind = .keyword) (noClass : t.isKeyword "class" = false) :
    Lands ts (w.keywordAt ts i t) := by
  have label : (ofList ts).holds (i + 1) (fun next => next.kind == .ident &&
      !next.newlineBefore) → Passes ts i (i + 2) := fun here =>
    plain_of_holds ready.next here fun t holds => by
      simp only [Bool.and_eq_true, beq_iff_eq] at holds
      exact plain_of_kind (by simp [holds.1])
  unfold Walk.keywordAt
  split
  · exact ready.declarationAt balanced false
  · exact ready.declarationAt balanced false
  · exact ready.declarationAt balanced true
  · exact ready.functionAt
  · next text => rw [isKeyword, kw, text] at noClass; cases noClass
  · exact ready.forAt
  · exact ready.catchAt
  · split
    · next here => exact ready.lands (label here) rfl
    · exact ready.lands ready.next rfl
  · split
    · next here => exact ready.lands (label here) rfl
    · exact ready.lands ready.next rfl
  · exact ready.suspendAt true
  · exact ready.suspendAt false
  · split
    · exact ready.memberAt
    · exact ready.lands ready.next rfl

theorem identAt : Lands ts (w.identAt ts i t) := by
  unfold Walk.identAt
  split
  · exact ready.lands ready.next rfl
  · split
    · exact ready.memberAt
    · split
      · exact ready.lands ready.next rfl
      · split
        · exact ready.lands ready.next rfl
        · split
          · next label =>
            exact ready.lands (plain_of_holds ready.next label.1
              fun t here => plain_of_isPunct here (by decide)) rfl
          · exact ready.lands ready.next rfl

end ReadyAt

section

variable (tidy : w.Tidy ts i) (last : EndsStatement ts) (balanced : Balanced ts) (got : ts[i]? = some t)
include tidy last balanced got

theorem Tidy.punctAt (punctuator : t.kind = .punct) (semi : t.isPunct ";" = false) :
    Lands ts (w.punctAt ts i t) := by
  have isText : ∀ text, t.isPunct text = (t.text == text) := fun text => by
    simp [isPunct, punctuator]
  have notBrace : t.text ≠ openBrace → t.isPunct openBrace = false := fun other => by
    rw [isText, beq_eq_false_iff_ne]
    exact other
  unfold Walk.punctAt
  split
  · next text =>
    exact (tidy.ready got (notBrace (by rw [text]; decide))).push last ")" got
      (by simp [closerText?, isText, text]) rfl semi
  · next notParen =>
    split
    · next text =>
      exact (tidy.ready got (notBrace (by rw [text]; decide))).push last "]" got
        (by simp [closerText?, isText, text]) rfl semi
    · next notBracket =>
      split
      · next text => exact tidy.openBraceAt last got (by rw [isText, text]; decide)
      · next other =>
        have ready := tidy.ready got (notBrace other)
        split
        · next closes => exact ready.closeAt last balanced got closes
        · next notCloser =>
          have plain : t.Plain := {
            opens := by simp [closerText?, isText, notParen, notBracket, other]
            closes := by simpa using notCloser
            semicolon := semi }
          have ready : w.ReadyAt ts i t := ⟨ready, last, got, plain⟩
          split
          · exact ready.commaAt balanced
          · split
            · next text => rw [isText, text] at semi; cases semi
            · split
              · exact ready.arrowAt
              · exact ready.lands ready.next rfl

/-- **A step keeps a walk tidy**, at every token but a semicolon and a class. -/
theorem Tidy.step (semi : t.isPunct ";" = false) (noClass : t.isKeyword "class" = false) :
    Lands ts (w.step ts i t) := by
  have eq := layout_endDeclarationAtLineBreak ts w i t
  have ready (other : t.kind ≠ .punct) :
      (w.endDeclarationAtLineBreak ts i t).ReadyAt ts i t :=
    ⟨(tidy.ready got (isPunct_of_kind_ne other _)).of_layout eq, last, got, plain_of_kind other⟩
  have tidy' : (w.endDeclarationAtLineBreak ts i t).Tidy ts i := by
    injection eq with here opens pending delimited
    exact ⟨by rw [here, opens, pending, delimited]; exact tidy.nested,
      by rw [opens]; exact tidy.depth, by rw [pending]; exact tidy.announced⟩
  unfold Walk.step
  dsimp only
  split
  · next kind => exact tidy'.punctAt last balanced got kind semi
  · next kind => exact (ready (by simp [kind])).keywordAt balanced kind noClass
  · next kind => exact (ready (by simp [kind])).identAt
  · next punct _ _ => exact (ready punct).lands (ready punct).next rfl

end

end Steps

/-! ## Behind a semicolon -/

/-- Nothing is open, and the walk is in the outermost scope. -/
structure Settled (w : Walk) : Prop where
  here : w.here = root
  opens : w.opens = []
  pending : w.pending = none
  delimited : w.delimited = []
  declarations : w.declarations = []

section Semicolon

theorem step_semicolon (seq : TokenSeq) (w : Walk) (i : Nat) (semi : t.isPunct ";") :
    w.step seq i t =
      (((w.leaveWhile fun s => s.depth == w.depth && true).keepDeclarations (· < w.depth)), i + 1) := by
  have text : t.kind = .punct ∧ t.text = ";" := by simpa [isPunct] using semi
  have unchanged : w.endDeclarationAtLineBreak seq i t = w := by
    unfold endDeclarationAtLineBreak
    rw [if_neg]
    rintro ⟨_, kind | kind, _⟩ <;> rw [text.1] at kind <;> cases kind
  have closer : t.isCloser = false := by
    simp [isCloser, isPunct_of_isPunct semi, closeBrace]
  unfold step
  dsimp only
  rw [unchanged, text.1]
  unfold punctAt
  simp [text.2, closer, openBrace, separatorAt]

section

variable (tidy : w.Tidy ts i) (got : ts[i]? = some t) (semi : t.isPunct ";")
include tidy got semi

theorem Tidy.semicolon :
    (w.step ts i t).1.Ready ts (i + 1) := by
  have opens : t.closerText? = none := by
    simp [closerText?, isPunct_of_isPunct semi, openBrace]
  have closes : t.isCloser = false := by
    simp [isCloser, isPunct_of_isPunct semi, closeBrace]
  have ready := tidy.ready got (by rw [isPunct_of_isPunct semi]; decide)
  have left := ready.leaveWhile (fun s => s.depth == w.depth && true) fun s leave => by simpa using leave
  rw [step_semicolon _ _ _ semi]
  exact ⟨left.nested, by rw [openAt_succ_of_plain got opens closes]; exact left.depth, left.quiet⟩

/-- **A semicolon outside all brackets settles the walk.** -/
theorem Tidy.settled (outside : openAt ts i = []) : (w.step ts i t).1.Settled := by
  have ready := tidy.ready got (by rw [isPunct_of_isPunct semi]; decide)
  have noOpens : w.opens = [] := by
    rw [← length_eq_zero_iff, ready.depth, outside]
    rfl
  have depth : w.depth = 0 := by rw [Walk.depth, noOpens]; rfl
  obtain ⟨nested, opens, pending, delimited⟩ := nested_leaveWhile
    (fun s => s.depth == w.depth && true) w.delimited w rfl ready.nested
    fun s _ => by rw [noOpens]; exact Nat.zero_le _
  -- every delimited scope lies at depth zero, so all are left
  have none : w.delimited.dropWhile (fun s => s.depth == w.depth && true) = [] := by
    cases rest : w.delimited.dropWhile (fun s => s.depth == w.depth && true) with
    | nil => rfl
    | cons s outer =>
      have stays := head?_dropWhile_not (fun s : Delimited => s.depth == w.depth && true) w.delimited
      have mem : s ∈ w.delimited := (dropWhile_sublist _).subset (rest ▸ mem_cons_self)
      have low := ready.nested.depth_le s mem
      rw [noOpens] at low
      rw [rest] at stays
      have deep : (s.depth == w.depth && true) = false := stays
      rw [depth, Nat.le_zero.1 low] at deep
      cases deep
  rw [none] at delimited
  rw [opens, noOpens, delimited] at nested
  rw [step_semicolon _ _ _ semi]
  refine ⟨?_, opens.trans noOpens, pending.trans ready.quiet, delimited, ?_⟩
  · exact nested.here_eq_root
  · simp [keepDeclarations, depth]

end

end Semicolon

end Walk

end Scope

end Bindery
