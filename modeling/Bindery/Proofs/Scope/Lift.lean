/-
Proofs.Scope.Lift -- a walk on top of another

A statement that has ended leaves nothing open, so the walk over what follows is
the walk that would be made if nothing stood in front, on top of what has been
noted: its scopes get the next free numbers, its tokens stand further behind, and a
name that the outermost scope has already is not declared again.  `Walk.lift` puts
one walk on top of another in this way.
-/
import Bindery.Proofs.Scope.Sound
import Bindery.Proofs.Scope.Window

namespace Bindery

open List Option TokenSeq Token

namespace Scope

open Walk hiding punctAt

variable {isProperty : Nat → Prop} {seq : TokenSeq} {b : Walk} {pos o c : Nat} {lower : Step}
  {n : String} {binding : Binding} {events : List PatternEvent} {params : Option (Nat × Nat)}

/-! ## Moving scopes -/

/-- The number of a scope that moves up by `room`; the outermost scope stays. -/
def number (room id : Nat) : Nat :=
  if id = 0 then 0 else id + room

def Frame.shift (room : Nat) (frame : Frame) : Frame :=
  ⟨number room frame.id, frame.isFunction⟩

def Chain.shift (room : Nat) (chain : Chain) : Chain :=
  chain.map (·.shift room)

def Opened.shift (room : Nat) : Opened → Opened
  | .paren => .paren
  | .bracket => .bracket
  | .forHeader s restore => .forHeader (s.shift room) (restore.shift room)
  | .brace kind restore => .brace kind (restore.map (Chain.shift room))

def PendingBrace.shift (room : Nat) (announced : PendingBrace) : PendingBrace :=
  ⟨announced.scope.shift room, announced.restore.shift room, announced.kind⟩

def Delimited.shift (room : Nat) (s : Delimited) : Delimited :=
  { s with restore := s.restore.shift room }

def Declaration.shift (room : Nat) (declaration : Declaration) : Declaration :=
  { declaration with target := declaration.target.shift room }

def Binding.shift (room : Nat) (binding : Binding) : Binding :=
  { binding with scope := number room binding.scope }

def Use.shift (room pos : Nat) (use : Use) : Use :=
  ⟨use.name, use.scope.shift room, use.token + pos⟩

theorem Chain.nearestFunction_cons (frame : Frame) {outer : Chain} (inside : outer ≠ []) :
    Chain.nearestFunction (frame :: outer) =
      if frame.isFunction then frame :: outer else Chain.nearestFunction outer := by
  cases outer with
  | nil => exact absurd rfl inside
  | cons next rest => rfl

theorem Chain.nearestFunction_shift (room : Nat) (chain : Chain) :
    Chain.nearestFunction (chain.shift room) = (Chain.nearestFunction chain).shift room := by
  induction chain with
  | nil => rfl
  | cons frame outer ih =>
    by_cases empty : outer = []
    · rw [empty]; rfl
    · have shifted : Chain.shift room outer ≠ [] := by simpa [Chain.shift] using empty
      show Chain.nearestFunction (frame.shift room :: Chain.shift room outer) = _
      rw [nearestFunction_cons _ shifted, nearestFunction_cons _ empty, ih]
      show (if frame.isFunction then _ else _) = _
      split <;> rfl

theorem Chain.isOutermostFunction_shift (room : Nat) (chain : Chain) :
    (chain.shift room).isOutermostFunction = chain.isOutermostFunction := by
  unfold Chain.isOutermostFunction
  rw [nearestFunction_shift]
  cases Chain.nearestFunction chain with
  | nil => rfl
  | cons frame outer =>
    show ((number room frame.id) == 0) = (frame.id == 0)
    unfold number
    split
    · next zero => rw [zero]
    · next other =>
      rw [beq_eq_false_iff_ne.2 other, beq_eq_false_iff_ne.2 (by omega)]

namespace Walk

abbrev room (b : Walk) : Nat := b.scopes - 1

def hasAlready (b : Walk) (binding : Binding) : Bool :=
  binding.scope == 0 && b.bindings.contains binding

/-- The walk on top of `b`, its tokens moved by `pos`. -/
def lift (w b : Walk) (pos : Nat) : Walk where
  scopes := w.scopes + b.room
  here := w.here.shift b.room
  opens := w.opens.map (·.shift b.room)
  pending := w.pending.map (·.shift b.room)
  delimited := w.delimited.map (·.shift b.room)
  declarations := w.declarations.map (·.shift b.room)
  bindings := (w.bindings.filter (!b.hasAlready ·)).map (·.shift b.room) ++ b.bindings
  uses := w.uses.map (·.shift b.room pos) ++ b.uses
  awaits := b.awaits || w.awaits
  yields := b.yields || w.yields

/-- A walk that another one can stand on: it has numbered its scopes, and its uses
lie before the offset. -/
structure Below (b : Walk) (pos : Nat) : Prop where
  scopes : 0 < b.scopes
  bindings : ∀ binding ∈ b.bindings, binding.scope < b.scopes
  uses : ∀ use ∈ b.uses, use.token < pos

/-- An `async` in front of the offset is no use.  An arrow behind it would take the use
back. -/
def Apart (v : TokenSeq) (b : Walk) (pos : Nat) : Prop :=
  v.prevHolds pos (·.isIdent "async") = true → ∀ use ∈ b.uses, use.token + 1 < pos

/-- A step on top of `b`. -/
def Step.lift (step : Step) (b : Walk) (pos : Nat) : Step :=
  (step.1.lift b pos, step.2 + pos)

section Operations

variable {w : Walk}

theorem depth_lift : (w.lift b pos).depth = w.depth := by
  simp [depth, lift]

theorem inBrace_lift (kind : BraceKind) : (w.lift b pos).inBrace kind = w.inBrace kind := by
  unfold inBrace lift
  cases w.opens with
  | nil => rfl
  | cons opened outer => cases opened <;> rfl

theorem inForHeader_lift : (w.lift b pos).inForHeader = w.inForHeader := by
  unfold inForHeader lift
  cases w.opens with
  | nil => rfl
  | cons opened outer => cases opened <;> rfl

theorem freshScope_lift (scopes : 0 < w.scopes) (outer : Chain) (isFunction : Bool) :
    (w.lift b pos).freshScope (outer.shift b.room) isFunction =
      (w.freshScope outer isFunction).shift b.room := by
  have other : w.scopes ≠ 0 := by omega
  simp [freshScope, Chain.shift, Frame.shift, number, lift, other]

theorem newScope_lift : (w.lift b pos).newScope = w.newScope.lift b pos := by
  simp [newScope, lift, Nat.add_right_comm]

theorem goTo_lift (s : Chain) : (w.lift b pos).goTo (s.shift b.room) = (w.goTo s).lift b pos := rfl

theorem push_lift (opened : Opened) : (w.lift b pos).push (opened.shift b.room) = (w.push opened).lift b pos :=
  rfl

theorem here_lift : (w.lift b pos).here = w.here.shift b.room := rfl

theorem openForHeader_lift (scopes : 0 < w.scopes) :
    (w.lift b pos).openForHeader = w.openForHeader.lift b pos := by
  unfold openForHeader
  dsimp only
  rw [here_lift, newScope_lift, freshScope_lift scopes, goTo_lift]
  exact push_lift (.forHeader _ w.here)

theorem announce_lift (announced : PendingBrace) :
    (w.lift b pos).announce (announced.shift b.room) = (w.announce announced).lift b pos :=
  rfl

theorem delimit_lift (restore : Chain) (endsAtComma : Bool) :
    (w.lift b pos).delimit (restore.shift b.room) endsAtComma =
      (w.delimit restore endsAtComma).lift b pos := by
  unfold delimit
  rw [depth_lift]
  rfl

theorem startDeclaration_lift (target : Chain) :
    (w.lift b pos).startDeclaration (target.shift b.room) = (w.startDeclaration target).lift b pos := by
  unfold startDeclaration
  rw [depth_lift]
  rfl

theorem suspend_lift (isAwait : Bool) : (w.lift b pos).suspend isAwait = (w.suspend isAwait).lift b pos := by
  have outermost : (w.lift b pos).here.isOutermostFunction =
      w.here.isOutermostFunction := Chain.isOutermostFunction_shift _ _
  unfold suspend
  rw [outermost]
  split
  · split <;> simp [lift]
  · rfl

theorem keepDeclarations_lift (keeps : Nat → Bool) :
    (w.lift b pos).keepDeclarations keeps = (w.keepDeclarations keeps).lift b pos := by
  simp only [keepDeclarations, lift, List.filter_map]
  rfl

theorem leaveWhile_lift {leaves : Delimited → Bool} (eq : ∀ s, leaves (Delimited.shift b.room s) = leaves s) :
    (w.lift b pos).leaveWhile leaves = (w.leaveWhile leaves).lift b pos := by
  have leaves_shift : leaves ∘ Delimited.shift b.room = leaves := funext eq
  unfold leaveWhile
  simp only [lift, takeWhile_map, dropWhile_map, getLast?_map, leaves_shift]
  cases (w.delimited.takeWhile leaves).getLast? <;> rfl

theorem takeBack_lift (below : b.Below pos) (start : Nat) :
    (w.lift b pos).takeBack (start + pos) = (w.takeBack start).lift b pos := by
  have kept : b.uses.filter (·.token < start + pos) = b.uses := by
    refine List.filter_eq_self.2 fun use mem => ?_
    have := below.uses use mem
    simp only [decide_eq_true_eq]
    omega
  have moved : (fun use : Use => decide (use.token < start + pos)) ∘
      Use.shift b.room pos = fun use => decide (use.token < start) := by
    funext use
    simp [Use.shift]
  simp only [takeBack, lift, List.filter_append, kept, List.filter_map, moved]

/-- The outermost scope has a name if the walk or what lies below declares it;
another scope has it if the walk does. -/
theorem contains_bindings_lift (below : b.Below pos) (id : Nat) (n : String) :
    (w.lift b pos).bindings.contains ⟨number b.room id, n⟩ =
      (w.bindings.contains ⟨id, n⟩ || b.hasAlready ⟨id, n⟩) := by
  have positive := below.scopes
  rw [Bool.eq_iff_iff]
  simp only [lift, contains_iff_mem, mem_append, List.mem_map, mem_filter,
    Bool.or_eq_true, hasAlready, Bool.and_eq_true, beq_iff_eq]
  have injective : ∀ other : Binding,
      other.shift b.room = ⟨number b.room id, n⟩ → other = ⟨id, n⟩ := by
    rintro ⟨s, text⟩ eq
    simp only [Binding.shift, Binding.mk.injEq, number] at eq ⊢
    refine ⟨?_, eq.2⟩
    have := eq.1
    repeat' split at this
    all_goals omega
  constructor
  · rintro (⟨other, ⟨mem, _⟩, eq⟩ | mem)
    · exact .inl (injective other eq ▸ mem)
    · have bound := below.bindings _ mem
      by_cases zero : id = 0
      · subst zero
        exact .inr ⟨rfl, mem⟩
      · simp only [number, zero, if_false, room] at bound
        omega
  · rintro (mem | ⟨rfl, mem⟩)
    · by_cases already : id = 0 ∧ (⟨id, n⟩ : Binding) ∈ b.bindings
      · obtain ⟨rfl, already⟩ := already
        exact .inr already
      · refine .inl ⟨⟨id, n⟩, ⟨mem, ?_⟩, rfl⟩
        rcases Decidable.not_and_iff_not_or_not.1 already with other | other <;> simp [other]
    · exact .inr mem

theorem declare_lift (below : b.Below pos) (s : Chain) (n : String) :
    (w.lift b pos).declare (s.shift b.room) n = (w.declare s n).lift b pos := by
  unfold declare
  cases s with
  | nil => rfl
  | cons frame outer =>
    show (if (w.lift b pos).bindings.contains ⟨number b.room frame.id, n⟩
      then _ else _) = lift (if w.bindings.contains ⟨frame.id, n⟩
      then _ else _) b pos
    rw [contains_bindings_lift below]
    by_cases declared : w.bindings.contains ⟨frame.id, n⟩
    · rw [declared, Bool.true_or, if_pos rfl, if_pos rfl]
    · rw [if_neg declared, Bool.not_eq_true _ |>.mp declared, Bool.false_or]
      by_cases already : b.hasAlready ⟨frame.id, n⟩
      · simp [lift, already]
      · simp [lift, already, Binding.shift, Frame.shift]

end Operations

theorem lift_initial (w : Walk) : w.lift {} 0 = w := by
  have frame : Frame.shift 0 = id := by
    funext frame
    obtain ⟨id, isFunction⟩ := frame
    simp only [Frame.shift, number, Nat.add_zero, id_eq, Frame.mk.injEq, and_true]
    split <;> omega
  have chain : Chain.shift 0 = id := by
    funext chain
    simp [Chain.shift, frame]
  have opened : Opened.shift 0 = id := by
    funext opened
    cases opened <;> simp [Opened.shift, chain]
  have binding : Binding.shift 0 = id := by
    funext binding
    obtain ⟨s, n⟩ := binding
    simp only [Binding.shift, number, Nat.add_zero, id_eq, Binding.mk.injEq, and_true]
    split <;> omega
  have use : Use.shift 0 0 = id := by
    funext use
    simp [Use.shift, chain]
  have fresh : w.bindings.filter (!hasAlready {} ·) = w.bindings :=
    filter_eq_self.2 fun binding _ => by simp [hasAlready]
  simp [lift, room, fresh, chain, opened, binding, use, PendingBrace.shift, Delimited.shift,
    Declaration.shift]

theorem Below.initial : Walk.Below {} 0 where
  scopes := Nat.one_pos
  bindings := fun _ mem => nomatch mem
  uses := fun _ mem => nomatch mem

end Walk

def Misread (isProperty : Nat → Prop) (w : Walk) : Prop :=
  (∃ i, isProperty i) ∧ ∃ binding ∈ w.bindings, binding.name = ""

theorem Misread.grows {p after : Walk} (misread : Misread isProperty p)
    (kept : ∀ binding ∈ p.bindings, binding ∈ after.bindings) : Misread isProperty after := by
  obtain ⟨prop, binding, mem, nameless⟩ := misread
  exact ⟨prop, binding, kept binding mem, nameless⟩

/-- The upper walk is the lower one on top of `b`, unless it declares a property. -/
def Mirrors (b : Walk) (pos : Nat) (isProperty : Nat → Prop) (upper lower : Walk) : Prop :=
  upper = lower.lift b pos ∨ Misread isProperty upper

/-- The upper step is the lower one on top of `b`, unless it declares a property. -/
def Follows (b : Walk) (pos : Nat) (isProperty : Nat → Prop) (upper lower : Step) : Prop :=
  upper = Walk.Step.lift lower b pos ∨ Misread isProperty upper.1

theorem Mirrors.follows {upper lower : Walk} (mirrors : Mirrors b pos isProperty upper lower)
    (i : Nat) : Follows b pos isProperty (upper, i + pos) (lower, i) :=
  mirrors.imp_left (congrArg (·, _))

theorem Follows.exact {upper : Step} (follows : Follows b pos (fun _ => False) upper lower) :
    upper = Walk.Step.lift lower b pos := by
  rcases follows with eq | ⟨⟨_, impossible⟩, _⟩
  · exact eq
  · exact impossible.elim

theorem Follows.ite {cond : Prop} [Decidable cond] {upper upper' lower' : Step}
    (held : cond → Follows b pos isProperty upper lower)
    (failed : ¬ cond → Follows b pos isProperty upper' lower') :
    Follows b pos isProperty (if cond then upper else upper') (if cond then lower else lower') := by
  by_cases holds : cond
  · rw [if_pos holds, if_pos holds]
    exact held holds
  · rw [if_neg holds, if_neg holds]
    exact failed holds

theorem mem_declare (frame : Frame) (outer : Chain) (n : String) (w : Walk) :
    ⟨frame.id, n⟩ ∈ (w.declare (frame :: outer) n).bindings := by
  simp only [declare, head?_cons]
  split
  · next known => exact contains_iff_mem.1 known
  · exact mem_cons_self

theorem bindings_foldl_referAt (seq : TokenSeq) (s : Chain) (indices : List Nat) :
    ∀ w : Walk, (indices.foldl (referAt seq s) w).bindings = w.bindings := by
  induction indices with
  | nil => exact fun _ => rfl
  | cons i r ih =>
    intro w
    rw [foldl_cons, ih]
    unfold referAt
    repeat' split
    all_goals rfl

theorem mem_bindings_declare {s : Chain} {w : Walk}
    (mem : binding ∈ w.bindings) : binding ∈ (w.declare s n).bindings := by
  unfold declare
  repeat' split
  · exact mem
  · exact mem
  · exact mem_cons_of_mem _ mem

theorem mem_bindings_foldl {s : Chain} (events : List PatternEvent) :
    ∀ {w : Walk}, binding ∈ w.bindings → binding ∈ (events.foldl (apply seq s) w).bindings := by
  induction events with
  | nil => exact id
  | cons event r ih =>
    intro w mem
    refine ih ?_
    cases event with
    | declare n => exact mem_bindings_declare mem
    | refer fst stop => exact (bindings_foldl_referAt seq s _ w).symm ▸ mem

theorem mem_foldl_apply (seq : TokenSeq) (frame : Frame) (outer : Chain) (mem : .declare n ∈ events) :
    ∀ w : Walk, ⟨frame.id, n⟩ ∈ (events.foldl (apply seq (frame :: outer)) w).bindings := by
  induction events with
  | nil => cases mem
  | cons event r ih =>
    intro w
    rcases mem_cons.1 mem with rfl | later
    · exact mem_bindings_foldl r (mem_declare frame outer n w)
    · exact ih later (apply seq (frame :: outer) w event)

theorem prev?_zero (seq : TokenSeq) : seq.prev? 0 = none := rfl

theorem semicolon_of_ends {t : Token} (ends : EndsBefore seq t) {text : String}
    (mark : seq.punctAt 0 text) : t.isPunct ";" := by
  rcases ends with semi | ⟨_, fst, got, _, word⟩
  · exact semi
  · rw [punctAt, holds, got, any_some, isPunct_of_word word] at mark
    cases mark

theorem arrowHead?_lt {i fst : Nat} (got : arrowHead? seq i = some (fst, params)) :
    fst < i ∧ ∀ pair ∈ params, pair.1 = fst ∧ pair.2 + 1 = i := by
  unfold arrowHead? at got
  split at got
  · cases got
  · next prev here =>
    have inside : 0 < i := by
      by_cases zero : i = 0
      · rw [prev?, if_pos zero] at here
        cases here
      · omega
    split at got
    · cases got
      refine ⟨by omega, fun _ mem => ?_⟩
      cases mem
    · split at got
      · obtain ⟨o, opens, eq⟩ := map_eq_some_iff.1 got
        have before : o < i - 1 := by
          simpa using (filter_eq_some_iff.1 opens).2
        cases eq
        refine ⟨by omega, fun pair mem => ?_⟩
        cases mem
        exact ⟨rfl, by dsimp only; omega⟩
      · cases got

namespace Window

variable {v : TokenSeq} {vis : Nat → Prop} {w : Walk}

section Names

variable (win : Window seq v pos vis isProperty) (below : b.Below pos) {i : Nat} {s : Chain}

include win below

/-! ## Names and patterns -/

theorem referAt (s : Chain) (behind : vis (i + 1)) :
    Walk.referAt v (s.shift b.room) (w.lift b pos) (i + pos) = (Walk.referAt seq s w i).lift b pos := by
  have seen : vis i := win.earlier behind (Nat.le_succ _)
  have colon : v.punctAt (i + pos + 1) ":" = seq.punctAt (i + 1) ":" := by
    rw [Nat.add_right_comm, win.punctAt behind]
  have noted : (w.lift b pos).uses.any (·.token == i + pos) =
      w.uses.any (·.token == i) := by
    have lower : b.uses.any (·.token == i + pos) = false := by
      refine List.any_eq_false.2 fun use mem => ?_
      have := below.uses use mem
      simp only [beq_iff_eq]
      omega
    have moved : (fun use : Use => use.token == i + pos) ∘ Use.shift b.room pos =
        fun use => use.token == i := by
      funext use
      rw [Bool.eq_iff_iff]
      simp only [Function.comp, Use.shift, beq_iff_eq]
      omega
    simp only [Walk.lift, List.any_append, lower, Bool.or_false, List.any_map, moved]
  unfold Walk.referAt
  cases got : seq.get? i with
  | none => rw [win.missing seen got]
  | some t =>
    by_cases prop : isProperty i
    · obtain ⟨_, hole, _, there, selected, _⟩ := win.property prop
      simp [there, win.prevSelects seen, selected]
    · obtain ⟨twin, there, like⟩ := win.resembles seen prop got
      rw [there]
      simp only [like.kind, like.text, win.prevSelects seen, colon, noted]
      split <;> rfl

omit win below in
theorem foldl_lift {e : Type} (es : List e) {move : e → e} {upper lower : Walk → e → Walk}
    (each : ∀ item ∈ es, ∀ w : Walk, upper (w.lift b pos) (move item) = (lower w item).lift b pos)
    (w : Walk) : (es.map move).foldl upper (w.lift b pos) = (es.foldl lower w).lift b pos := by
  induction es generalizing w with
  | nil => rfl
  | cons item r ih =>
    rw [map_cons, foldl_cons, foldl_cons, each item mem_cons_self]
    exact ih (fun other mem => each other (.tail _ mem)) _

theorem apply (s : Chain) {event : PatternEvent} (seen : event.Visible vis) :
    apply v (s.shift b.room) (w.lift b pos) (event.shift pos) = (apply seq s w event).lift b pos := by
  cases event with
  | declare n => exact declare_lift below s n
  | refer fst stop =>
    have range : range' (fst + pos) (stop + pos - (fst + pos)) =
        (range' fst (stop - fst)).map (· + pos) := by
      rw [Nat.add_sub_add_right, Nat.add_comm fst, ← map_add_range']
      simp only [Nat.add_comm]
    show (range' (fst + pos) (stop + pos - (fst + pos))).foldl _ _ = _
    rw [range]
    refine foldl_lift _ (fun i mem w => ?_) w
    have inside := mem_range'_1.1 mem
    exact win.referAt below s (win.earlier seen (by omega))

theorem foldl_events {upper : List PatternEvent}
    (eq : (upper = events.map (·.shift pos) ∨ MisreadEvents isProperty upper) ∧ ∀ event ∈ events, event.Visible vis)
    (ne : s ≠ []) :
    Mirrors b pos isProperty (upper.foldl (Walk.apply v (s.shift b.room)) (w.lift b pos))
      (events.foldl (Walk.apply seq s) w) := by
  obtain ⟨rfl | ⟨prop, declared⟩, seen⟩ := eq
  · exact .inl (foldl_lift _ (fun event mem w =>
      win.apply below s (seen event mem)) w)
  · obtain ⟨frame, outer, rfl⟩ := exists_cons_of_ne_nil ne
    exact .inr ⟨prop, _, mem_foldl_apply v (frame.shift b.room) _ declared _, rfl⟩

theorem bindPattern (ne : s ≠ []) (seen : vis i) :
    Mirrors b pos isProperty (bindPattern v (s.shift b.room) (i + pos) (w.lift b pos))
      (bindPattern seq s i w) :=
  win.foldl_events below (win.events.1 i seen) ne

theorem bindParameters (ne : s ≠ []) (seen : vis (o + 1)) (behind : vis (c + 1)) :
    Mirrors b pos isProperty (bindParameters v (s.shift b.room) (o + pos) (c + pos) (w.lift b pos))
      (bindParameters seq s o c w) := by
  have events := win.events.2 .array c (o + 1) behind seen
  rw [Nat.add_right_comm] at events
  exact win.foldl_events below events ne

end Names

section LookingBack

variable (win : Window seq v pos vis isProperty) {i : Nat} {t twin : Token} {upper : Walk}

include win

/-! ## Looking back -/

theorem isObjectBrace (seen : vis i) (brace : seq.punctAt i openBrace) :
    Walk.isObjectBrace v (i + pos) = Walk.isObjectBrace seq i := by
  obtain ⟨t, got, isBrace⟩ := holds_eq_true.1 brace
  unfold Walk.isObjectBrace
  rcases win.prev_cases seen got (asks_of_isPunct isBrace (.inl rfl)) with
    ⟨here, there⟩ | ⟨earlier, p, twin, rfl, here, there, alike⟩ | ⟨rfl, t, front, ends⟩
  · rw [here, there]
  · rw [Nat.add_right_comm, prev?_succ, prev?_succ, here, there]
    dsimp only
    rw [alike.kind]
    cases kind : p.kind with
    | ident =>
      -- a line break is asked for behind an `of` only
      have isOf : (twin.text == "of") = (p.text == "of") := by
        simpa [isIdent, alike.kind, kind] using alike.isIdent "of" (by decide)
      by_cases text : p.text = "of"
      · have line : twin.newlineBefore = p.newlineBefore := by
          refine win.line (win.earlier seen (Nat.le_succ _)) here there ?_
          rcases Nat.eq_zero_or_pos earlier with rfl | behind
          · exact .inr (.inr ⟨by simp [isIdent, kind, text], brace⟩)
          · exact .inl (by omega)
        simp only [isOf, line]
      · simp only [isOf, beq_false_of_ne text, Bool.false_and]
    | _ => simp only [alike.text (by simp [kind])]
  · have text : t.kind = .punct ∧ t.text = ";" := by
      simpa [isPunct] using semicolon_of_ends ends brace
    rw [front, prev?_zero]
    simp only [text.1, text.2]
    decide

theorem atStatementStart (seen : vis i) (got : seq.get? i = some t) (asks : t.asks) :
    Walk.atStatementStart v (i + pos) = Walk.atStatementStart seq i := by
  unfold Walk.atStatementStart
  rcases win.prev_cases seen got asks with
    ⟨here, there⟩ | ⟨earlier, p, twin, rfl, here, there, alike⟩ | ⟨rfl, t, pre, ends⟩
  · rw [here, there]
  · rw [win.newline seen (.inl (Nat.succ_ne_zero _)), Nat.add_right_comm, prev?_succ, prev?_succ, here, there]
    simp only [alike.isPunct, alike.isKeyword, alike.endsOperand]
  · rw [win.newline seen (.inr (by simpa using ne_none_iff_exists'.2 ⟨t, pre⟩)), pre, prev?_zero]
    rcases ends with semi | ⟨operand, fst, got, l, _⟩
    · simp only [semi, Bool.true_or]
    · simp only [TokenSeq.holds, got, any_some, l, operand, Bool.and_self, Bool.or_true]

theorem isModifier (behind : vis (i + 1)) (here : seq.get? i = some t) (there : v.get? (i + pos) = some twin)
    (alike : t.Alike twin) : Walk.isModifier v (i + pos) = Walk.isModifier seq i := by
  unfold Walk.isModifier
  rw [holds_of_get? here, holds_of_get? there, alike.isModifier]
  by_cases ident : t.kind = .ident
  · have plain : ¬ isProperty (i + 1) := win.not_property here (not_selects_of_word (.inl ident))
    rw [Nat.add_right_comm, win.holds behind plain fun t twin like => by
      rw [isNameLike, isNameLike, like.kind, like.isPunct, like.isPunct, like.isPunct]]
  · rw [beq_false_of_ne ident, Bool.false_and, Bool.false_and, Bool.false_and]

theorem isGeneratorStar (seen : vis i) : Walk.isGeneratorStar v (i + pos) = Walk.isGeneratorStar seq i := by
  unfold Walk.isGeneratorStar
  rw [win.punctAt seen]
  cases star : seq.punctAt i "*" with
  | false => rfl
  | true =>
    obtain ⟨t, got, isStar⟩ := holds_eq_true.1 star
    rcases win.prev_cases seen got (asks_of_isPunct isStar (.inr (.inl rfl))) with
      ⟨here, there⟩ | ⟨earlier, p, twin, rfl, here, there, alike⟩ | ⟨rfl, t, front, ends⟩
    · rw [here, there]
    · rw [Nat.add_right_comm, prev?_succ, prev?_succ, here, there]
      simp only [all_some, alike.isPunct, alike.isIdent "static" (by decide),
        alike.isIdent "async" (by decide)]
    · rw [front, prev?_zero]
      simp [semicolon_of_ends ends star]

section

variable (seen : vis i) (got : seq.get? i = some t)
include seen got

theorem inMemberPosition (asks : t.asks)
    (start : i = 0 → v.prev? pos = none ∨ (w.opens, w.declarations) = ([], [])) :
    (w.lift b pos).inMemberPosition v (i + pos) = w.inMemberPosition seq i := by
  unfold Walk.inMemberPosition
  rcases win.prev_cases seen got asks with
    ⟨here, there⟩ | ⟨earlier, p, twin, rfl, here, there, alike⟩ | ⟨rfl, t, front, ends⟩
  · rw [here, there]
  · have line := win.newline seen (.inl (Nat.succ_ne_zero _))
    rw [Nat.add_right_comm] at line ⊢
    rw [prev?_succ, prev?_succ, here, there, line, Nat.add_sub_cancel, Nat.add_sub_cancel,
      win.isModifier seen here there alike,
      win.isGeneratorStar (win.earlier seen (Nat.le_succ _))]
    simp only [inBrace_lift, alike.isPunct, alike.endsOperand]
  · have empty : w.opens = [] := by
      rcases start rfl with nothing | empty
      · rw [Nat.zero_add, nothing] at front
        cases front
      · exact congrArg Prod.fst empty
    have outside : ∀ kind, w.inBrace kind = false := fun kind => by
      rw [inBrace, empty]
    rw [front, prev?_zero]
    simp [inBrace_lift, outside]

theorem isFunctionStatement (asks : t.asks) :
    Walk.isFunctionStatement v (i + pos) = Walk.isFunctionStatement seq i := by
  unfold Walk.isFunctionStatement
  rw [win.atStatementStart seen got asks]
  rcases win.prev_cases seen got asks with
    ⟨here, there⟩ | ⟨earlier, p, twin, rfl, here, there, alike⟩ | ⟨rfl, _⟩
  · rw [prevHolds, prevHolds, here, there]
    rfl
  · rw [Nat.add_right_comm, prevHolds, prevHolds, prev?_succ, prev?_succ, here,
      there, any_some, any_some, alike.isIdent "async" (by decide),
      Nat.add_sub_cancel, Nat.add_sub_cancel]
    cases async : p.isIdent "async" with
    | false => rfl
    | true =>
      -- the `async` is a word, so it asks in its turn
      have ident : p.kind = .ident := by simpa using (Bool.and_eq_true_iff.1 async).1
      rw [win.atStatementStart (win.earlier seen (Nat.le_succ _)) here (asks_of_word (.inl ident))]
  · have begins : Walk.atStatementStart seq 0 := rfl
    rw [begins, Bool.true_or, Bool.true_or]

theorem endDeclarationAtLineBreak (there : v.get? (i + pos) = some twin) (like : t.Resembles twin)
    (start : i = 0 → v.prev? pos = none ∨ (w.opens, w.declarations) = ([], [])) :
    (w.lift b pos).endDeclarationAtLineBreak v (i + pos) twin =
      (w.endDeclarationAtLineBreak seq i t).lift b pos := by
  rcases Nat.eq_zero_or_pos i with rfl | inside
  · -- nothing stands in front of the first token, or nothing is open there
    have unchanged : w.endDeclarationAtLineBreak seq 0 t = w := if_neg fun ends => Bool.false_ne_true ends.2.2
    rw [unchanged]
    unfold endDeclarationAtLineBreak
    rcases start rfl with nothing | empty
    · have nowhere : v.prevHolds (0 + pos) endsOperand = false := by
        rw [Nat.zero_add, prevHolds, nothing]
        rfl
      rw [nowhere, if_neg fun ends => Bool.false_ne_true ends.2.2]
    · have none : (w.lift b pos).declarations = [] := by
        simp [lift, show w.declarations = [] from congrArg Prod.snd empty]
      rw [none]
      split <;> rfl
  · unfold Walk.endDeclarationAtLineBreak
    rw [like.kind, win.line seen got there (.inl (by omega))]
    by_cases word : t.kind = .ident ∨ t.kind = .keyword
    · have operand : v.prevHolds (i + pos) endsOperand =
          seq.prevHolds i endsOperand := by
        unfold prevHolds
        rcases win.prev_cases seen got (asks_of_word word) with
          ⟨here, there⟩ | ⟨earlier, p, twin, rfl, here, there, alike⟩ | ⟨rfl, _⟩
        · rw [here, there]
        · rw [Nat.add_right_comm, prev?_succ, prev?_succ, here, there, any_some, any_some, alike.endsOperand]
        · omega
      rw [operand]
      split
      · simp only [depth_lift]
        cases open_ : w.declarations with
        | nil => simp [lift, open_]
        | cons last outer =>
          simp only [lift, open_, map_cons]
          show (if last.depth = w.depth then _ else _) = lift (if _ then _ else _) b pos
          split
          · rfl
          · simp [lift, open_]
      · rfl
    · rw [if_neg fun ends => word ends.2.1, if_neg fun ends => word ends.2.1]

end

/-! ## Brackets and separators -/

theorem openBraceAt (seen : vis i) (brace : seq.punctAt i openBrace) (scopes : 0 < w.scopes) :
    (w.lift b pos).openBraceAt v (i + pos) = (w.openBraceAt seq i).lift b pos := by
  unfold Walk.openBraceAt
  rw [win.isObjectBrace seen brace]
  cases announced : w.pending with
  | some announced => simp only [lift, announced, map_some]; rfl
  | none =>
    have nothing : (w.lift b pos).pending = none := by simp [lift, announced]
    rw [nothing]
    dsimp only
    split
    · exact push_lift (.brace .object none)
    · rw [here_lift, newScope_lift, freshScope_lift scopes, goTo_lift]
      exact push_lift (.brace .block (some w.here))

theorem afterForHeader (behind : vis (c + 1)) (s restore : Chain) :
    (w.lift b pos).afterForHeader v (c + pos) (s.shift b.room) (restore.shift b.room) =
      (w.afterForHeader seq c s restore).lift b pos := by
  unfold Walk.afterForHeader
  rw [Nat.add_right_comm, win.punctAt behind]
  split
  · exact announce_lift ⟨s, restore, .block⟩
  · exact delimit_lift restore false

theorem closeAt (behind : vis (i + 1)) : (w.lift b pos).closeAt v (i + pos) = (w.closeAt seq i).lift b pos := by
  unfold Walk.closeAt
  cases stack : w.opens with
  | nil => simp only [lift, stack, map_nil]
  | cons opened outer =>
    have top : (w.lift b pos).opens =
        opened.shift b.room :: outer.map (·.shift b.room) := by
      simp [lift, stack]
    rw [top]
    dsimp only
    rw [length_map]
    show ((({ w with opens := outer } : Walk).lift b pos).leaveWhile _
      |>.keepDeclarations _).afterClosing _ _ _ = _
    rw [leaveWhile_lift fun _ => rfl, keepDeclarations_lift]
    generalize keepDeclarations _ _ = left
    cases opened with
    | paren => rfl
    | bracket => rfl
    | forHeader s restore => exact win.afterForHeader behind s restore
    | brace kind restore =>
      cases restore with
      | none => rfl
      | some restore => rfl

theorem announceBody (mirrors : Mirrors b pos isProperty upper w) (seen : vis i) (s : Chain) :
    Mirrors b pos isProperty (upper.announceBody v (i + pos) (s.shift b.room)) (w.announceBody seq i s) := by
  rcases mirrors with rfl | misread
  · left
    unfold announceBody
    rw [win.punctAt seen]
    split
    · exact announce_lift ⟨s, w.here, .block⟩
    · rfl
  · refine .inr (misread.grows fun _ => ?_)
    unfold Walk.announceBody
    split <;> exact id

theorem forAt (seen : vis i) (got : seq.get? i = some t) (kw : t.kind = .keyword) (scopes : 0 < w.scopes) :
    (w.lift b pos).forAt v (i + pos) = Walk.Step.lift (w.forAt seq i) b pos := by
  obtain ⟨behind, plain⟩ := win.behind_word seen got (.inr kw)
  unfold Walk.forAt
  rw [Nat.add_right_comm i pos 1, win.holds behind plain fun _ _ like => like.isKeyword "await", win.punctAt behind]
  split
  · next waits =>
    have seen : vis (i + 2) := win.behind behind waits fun t isAwait => by
      simp only [isKeyword, Bool.and_eq_true, beq_iff_eq] at isAwait
      exact isPunct_of_word (.inr isAwait.1) _
    have suspended : 0 < (w.suspend true).scopes := by
      unfold suspend
      repeat' split
      all_goals exact scopes
    rw [Nat.add_right_comm i pos 2, win.punctAt seen, suspend_lift]
    split
    · rw [openForHeader_lift suspended, Nat.add_right_comm i pos 3]
      rfl
    · rfl
  · split
    · rw [openForHeader_lift scopes, Nat.add_right_comm i pos 2]
      rfl
    · rfl

theorem suspendAt (seen : vis i) (isAwait : Bool) :
    (w.lift b pos).suspendAt v (i + pos) isAwait = Walk.Step.lift (w.suspendAt seq i isAwait) b pos := by
  unfold Walk.suspendAt
  rw [win.prevSelects seen, suspend_lift, Nat.add_right_comm]
  split <;> rfl

def shiftHead (pos : Nat) (head : Nat × Option (Nat × Nat)) : Nat × Option (Nat × Nat) :=
  (head.1 + pos, head.2.map fun pair => (pair.1 + pos, pair.2 + pos))

theorem arrowHead? (seen : vis i) (arrow : seq.punctAt i "=>") :
    Walk.arrowHead? v (i + pos) = (Walk.arrowHead? seq i).map (shiftHead pos) := by
  obtain ⟨t, got, isArrow⟩ := holds_eq_true.1 arrow
  unfold Walk.arrowHead?
  rcases win.prev_cases seen got (asks_of_isPunct isArrow (.inr (.inr rfl))) with
    ⟨here, there⟩ | ⟨earlier, p, twin, rfl, here, there, alike⟩ | ⟨rfl, t, front, ends⟩
  · rw [here, there]
    rfl
  · rw [Nat.add_right_comm, prev?_succ, prev?_succ, here, there, Nat.add_sub_cancel,
      Nat.add_sub_cancel, win.opener? (win.earlier seen (Nat.le_succ _))]
    dsimp only
    rw [alike.kind, alike.isPunct]
    split
    · rfl
    · split
      · cases seq.opener? earlier <;> rfl
      · rfl
  · have semi := semicolon_of_ends ends arrow
    have kind : t.kind ≠ .ident := by
      simp only [isPunct, Bool.and_eq_true, beq_iff_eq] at semi
      simp [semi.1]
    rw [front, prev?_zero]
    dsimp only
    rw [if_neg kind, isPunct_of_isPunct semi]
    rfl

theorem enterArrowBody (mirrors : Mirrors b pos isProperty upper w) (seen : vis i) (s : Chain) :
    Mirrors b pos isProperty (upper.enterArrowBody v (i + pos) (s.shift b.room))
      (w.enterArrowBody seq i s) := by
  rcases mirrors with rfl | misread
  · left
    unfold enterArrowBody
    rw [win.punctAt seen, here_lift]
    split
    · exact announce_lift ⟨s, w.here, .block⟩
    · rw [delimit_lift, goTo_lift]
  · refine .inr (misread.grows fun _ => ?_)
    unfold Walk.enterArrowBody
    split <;> exact id

theorem group (seen : vis o) :
    (if v.punctAt (o + pos) "(" then v.closer? (o + pos) else none) =
      (if seq.punctAt o "(" then seq.closer? o else none).map (· + pos) := by
  rw [win.punctAt seen, win.closer? seen]
  split <;> rfl

theorem lt_size (all : ∀ i, vis i) (i : Nat) : i + pos < v.size ↔ i < seq.size := by
  have inside (seq : TokenSeq) (i : Nat) :
      i < seq.size ↔ ∃ t, seq.get? i = some t := by
    rw [← isSome_iff_exists]
    simp [get?, size]
  rw [inside, inside]
  constructor
  · rintro ⟨twin, there⟩
    cases got : seq.get? i with
    | none =>
      rw [win.missing (all i) got] at there
      cases there
    | some t => exact ⟨t, rfl⟩
  · rintro ⟨_, got⟩
    exact win.exists_twin (all i) got

theorem hasClassBody (all : ∀ i, vis i) {start : Nat} (plain : ¬ isProperty start) (i : Nat) :
    Walk.hasClassBody v (start + pos) (i + pos) = Walk.hasClassBody seq start i := by
  have extended := win.holds (all start) plain fun _ _ like => like.isKeyword "extends"
  fun_induction Walk.hasClassBody seq start i with
  | case1 i inside body =>
    unfold Walk.hasClassBody
    rw [if_pos ((win.lt_size all i).2 inside), win.punctAt (all i), extended, if_pos]
    exact ⟨body.1, body.2.imp (by omega) fun extended => ⟨extended.1, by omega⟩⟩
  | case2 i inside other ih =>
    conv => lhs; unfold Walk.hasClassBody
    rw [if_pos ((win.lt_size all i).2 inside), win.punctAt (all i), extended, if_neg, win.skip (all i), ih]
    rintro ⟨brace, place⟩
    exact other ⟨brace, place.imp (by omega) fun extended => ⟨extended.1, by omega⟩⟩
  | case3 i outside =>
    unfold Walk.hasClassBody
    rw [if_neg fun inside => outside ((win.lt_size all i).1 inside)]

end LookingBack

section Steps

variable (win : Window seq v pos vis isProperty) (below : b.Below pos) {i : Nat} {t twin : Token}
  {fst : Nat} {s : Chain}

include win below

/-! ## Separators and arrows -/

theorem commaAt (seen : vis i) (comma : seq.punctAt i ",") (sound : w.Sound seq) :
    Follows b pos isProperty ((w.lift b pos).separatorAt v (i + pos) false) (w.separatorAt seq i false) := by
  have behind := win.behind_punct seen comma (by decide)
  have plain := win.not_property_of_punct comma (by decide)
  have left := sound.grown.leaveWhile fun s => s.depth == w.depth && (false || s.endsAtComma)
  unfold separatorAt
  simp only [depth_lift, Bool.false_eq_true, if_false]
  rw [leaveWhile_lift fun _ => rfl]
  generalize w.leaveWhile _ = w at left
  unfold continueDeclaration
  rw [Nat.add_right_comm i pos 1, win.patternEnd behind plain, depth_lift]
  cases lists : w.declarations with
  | nil =>
    have nothing : (w.lift b pos).declarations = [] := by simp [lift, lists]
    rw [nothing]
    exact .inl rfl
  | cons last outer =>
    have top : (w.lift b pos).declarations =
        last.shift b.room :: outer.map (·.shift b.room) := by
      simp [lift, lists]
    have target := (left.declarations last (lists ▸ mem_cons_self)).ne_nil
    rw [top]
    show Follows b pos isProperty (if last.depth = w.depth then _ else _)
      (if last.depth = w.depth then _ else _)
    split
    · exact (win.bindPattern below target behind).follows _
    · exact .inl rfl

omit win below in
theorem semicolonAt (w : Walk) (i : Nat) :
    (w.lift b pos).separatorAt v (i + pos) true = Walk.Step.lift (w.separatorAt seq i true) b pos := by
  unfold separatorAt
  simp only [depth_lift, if_true]
  rw [leaveWhile_lift fun _ => rfl, keepDeclarations_lift, Nat.add_right_comm]
  rfl

omit win below in
theorem takeBack_of_unused (unused : v.prevHolds fst (·.isIdent "async") → ∀ use ∈ w.uses, use.token + 1 ≠ fst)
    : w.takeBack (arrowStart v fst) = w.takeBack fst := by
  unfold arrowStart
  split
  · next async =>
    have kept : ∀ use ∈ w.uses, decide (use.token < fst - 1) = decide (use.token < fst) := by
      intro use mem
      have other := unused async use mem
      rw [decide_eq_decide]
      omega
    unfold takeBack
    rw [filter_congr kept]
  · rfl

/-- The uses that the head of an arrow was read as are taken back.  Where the arrow starts
matters for uses only, and no property is one. -/
theorem takeBack_arrowStart (apart : b.Apart v pos)
    (unselected : ∀ use ∈ w.uses, ¬ isProperty use.token) (seen : vis fst) :
    (w.lift b pos).takeBack (arrowStart v (fst + pos)) = (w.takeBack (arrowStart seq fst)).lift b pos := by
  cases fst with
  | zero =>
    have here : arrowStart seq 0 = 0 := rfl
    rw [here, takeBack_of_unused, takeBack_lift below]
    intro async use mem
    rw [Nat.zero_add] at async ⊢
    rcases mem_append.1 mem with mem | mem
    · obtain ⟨use, _, rfl⟩ := mem_map.1 mem
      have : pos ≤ (use.shift b.room pos).token := Nat.le_add_left _ _
      omega
    · have := apart async use mem
      omega
  | succ fst =>
    by_cases prop : isProperty fst
    · have unused : ∀ use ∈ w.uses, use.token ≠ fst := fun use mem eq => unselected use mem (eq ▸ prop)
      rw [takeBack_of_unused, takeBack_lift below, takeBack_of_unused]
      · intro _ use mem
        have := unused use mem
        omega
      · intro _ use mem
        rcases mem_append.1 mem with mem | mem
        · obtain ⟨use, old, rfl⟩ := mem_map.1 mem
          have moved : (use.shift b.room pos).token = use.token + pos := rfl
          have := unused use old
          omega
        · have := below.uses use mem
          omega
    · have async := win.holds (win.earlier seen (Nat.le_succ _)) prop fun _ _ like => like.isIdent "async"
      have start : arrowStart v (fst + 1 + pos) =
          arrowStart seq (fst + 1) + pos := by
        unfold arrowStart prevHolds
        rw [Nat.add_right_comm, prev?_succ, prev?_succ]
        unfold TokenSeq.holds at async
        rw [async]
        split <;> omega
      rw [start, takeBack_lift below]

theorem bindArrow (ne : s ≠ []) (seen : vis i) (got : Walk.arrowHead? seq i = some (fst, params)) :
    Mirrors b pos isProperty
      ((w.lift b pos).bindArrow v (s.shift b.room)
        (shiftHead pos (fst, params)).1 (shiftHead pos (fst, params)).2)
      (w.bindArrow seq s fst params) := by
  obtain ⟨p, pairs⟩ := arrowHead?_lt got
  cases params with
  | none =>
    have seenFirst := win.earlier seen (Nat.le_of_lt p)
    show Mirrors b pos isProperty ((v.get? (fst + pos)).elim _ _) ((seq.get? fst).elim _ _)
    cases here : seq.get? fst with
    | none =>
      rw [win.missing seenFirst here]
      exact .inl rfl
    | some t =>
      by_cases prop : isProperty fst
      · obtain ⟨_, hole, _, there, _, _, nameless⟩ := win.property prop
        obtain ⟨frame, outer, rfl⟩ := exists_cons_of_ne_nil ne
        rw [there, elim_some, nameless.text]
        exact .inr ⟨⟨fst, prop⟩, _, mem_declare (frame.shift b.room) _ "" _, rfl⟩
      · obtain ⟨twin, there, like⟩ := win.resembles seenFirst prop here
        rw [there, elim_some, elim_some, like.text]
        exact .inl (declare_lift below s t.text)
  | some pair =>
    obtain ⟨start, stop⟩ := pairs pair rfl
    exact win.bindParameters below ne (win.earlier seen (by omega)) (win.earlier seen (by omega))

theorem arrowAt (apart : b.Apart v pos) (unselected : ∀ use ∈ w.uses, ¬ isProperty use.token) (seen : vis i)
    (arrow : seq.punctAt i "=>") (scopes : 0 < w.scopes) :
    Follows b pos isProperty ((w.lift b pos).arrowAt v (i + pos)) (w.arrowAt seq i) := by
  have behind := win.behind_punct seen arrow (by decide)
  unfold Walk.arrowAt
  rw [win.arrowHead? seen arrow]
  cases got : Walk.arrowHead? seq i with
  | none => exact .inl (congrArg _ (Nat.add_right_comm i pos 1))
  | some head =>
    obtain ⟨fst, params⟩ := head
    obtain ⟨p, _⟩ := arrowHead?_lt got
    have taken : (w.lift b pos).takeBack (arrowStart v
        (shiftHead pos (fst, params)).1) = _ :=
      win.takeBack_arrowStart below apart unselected (win.earlier seen (Nat.le_of_lt p))
    rw [map_some]
    dsimp only
    rw [taken, here_lift, newScope_lift, freshScope_lift scopes, Nat.add_right_comm]
    exact (win.enterArrowBody (win.bindArrow below (cons_ne_nil _ _) seen got) behind _).follows _

/-! ## Functions, classes, loops -/

theorem functionTail (seen : vis o) (ne : s ≠ []) :
    Follows b pos isProperty ((w.lift b pos).functionTail v (o + pos) (s.shift b.room))
      (w.functionTail seq o s) := by
  unfold Walk.functionTail
  rw [win.group seen]
  cases pair : (if seq.punctAt o "(" then seq.closer? o else none) with
  | none => exact .inl rfl
  | some c =>
    have closes : seq.closer? o = some c := (ite_none_right_eq_some.1 pair).2
    have behind := (win.closer closes).2
    have inside := lt_closer closes
    rw [map_some]
    dsimp only
    rw [Nat.add_right_comm]
    exact (win.announceBody (win.bindParameters below ne
      (win.earlier behind (by omega)) behind) behind s).follows _

theorem functionAt (seen : vis i) (got : seq.get? i = some t) (kw : t.kind = .keyword) (scopes : 0 < w.scopes) :
    Follows b pos isProperty ((w.lift b pos).functionAt v (i + pos)) (w.functionAt seq i) := by
  obtain ⟨behind, plain⟩ := win.behind_word seen got (.inr kw)
  have next : (if v.punctAt (i + pos + 1) "*" then i + pos + 2
      else i + pos + 1) =
      (if seq.punctAt (i + 1) "*" then i + 2 else i + 1) + pos := by
    rw [Nat.add_right_comm i pos 1, win.punctAt behind]
    split <;> omega
  have start : vis (if seq.punctAt (i + 1) "*" then i + 2 else i + 1) ∧
      ¬ isProperty (if seq.punctAt (i + 1) "*" then i + 2 else i + 1) := by
    split
    · next star =>
      exact ⟨win.behind_punct behind star (by decide), win.not_property_of_punct star (by decide)⟩
    · exact ⟨behind, plain⟩
  have ne : w.freshScope w.here true ≠ [] := cons_ne_nil _ _
  unfold Walk.functionAt
  dsimp only
  rw [next, here_lift]
  generalize (if seq.punctAt (i + 1) "*" then i + 2 else i + 1) = fst at start
  rw [freshScope_lift scopes, newScope_lift, win.isFunctionStatement seen got (asks_of_word (.inr kw))]
  rcases win.ident?_cases start.1 start.2 with ⟨name, there⟩ | ⟨name, twin, named, there, text⟩
  · rw [name, there]
    exact win.functionTail below start.1 ne
  · have target : (if Walk.isFunctionStatement seq i then w.here.shift b.room
        else (w.freshScope w.here true).shift b.room) =
        Chain.shift b.room (if Walk.isFunctionStatement seq i then w.here
          else w.freshScope w.here true) := by
      split <;> rfl
    obtain ⟨got, ident⟩ := ident?_eq_some.1 named
    rw [named, there]
    dsimp only
    rw [text, target, declare_lift below, Nat.add_right_comm]
    exact win.functionTail below (win.behind_word start.1 got (.inl ident)).1 ne

theorem classAt (all : ∀ i, vis i) (got : seq.get? i = some t) (kw : t.kind = .keyword) :
    (w.lift b pos).classAt v (i + pos) = Walk.Step.lift (w.classAt seq i) b pos := by
  obtain ⟨behind, plain⟩ := win.behind_word (all i) got (.inr kw)
  have named : (w.lift b pos).declareClass v (i + pos) =
      (w.declareClass seq i).lift b pos := by
    unfold declareClass
    rw [Nat.add_right_comm i pos 1, win.atStatementStart (all i) got (asks_of_word (.inr kw))]
    rcases win.ident?_cases behind plain with ⟨here, there⟩ | ⟨n, twin, here, there, text⟩
    · rw [here, there]
    · rw [here, there]
      dsimp only
      rw [text]
      split
      · exact declare_lift below w.here n.text
      · rfl
  have isNamed : (v.ident? (i + pos + 1)).isSome = (seq.ident? (i + 1)).isSome := by
    rw [Nat.add_right_comm i pos 1]
    rcases win.ident?_cases behind plain with ⟨here, there⟩ | ⟨n, twin, here, there, _⟩ <;>
      rw [here, there] <;> rfl
  have start : (if (seq.ident? (i + 1)).isSome then i + pos + 2 else i + pos + 1) =
      (if (seq.ident? (i + 1)).isSome then i + 2 else i + 1) + pos := by
    split <;> omega
  have plainStart :
      ¬ isProperty (if (seq.ident? (i + 1)).isSome then i + 2 else i + 1) := by
    split
    · next some =>
      obtain ⟨n, here⟩ := isSome_iff_exists.1 some
      obtain ⟨there, ident⟩ := ident?_eq_some.1 here
      exact win.not_property there (not_selects_of_word (.inl ident))
    · exact plain
  unfold Walk.classAt
  dsimp only
  rw [named, isNamed, start, win.hasClassBody all plainStart]
  generalize (if (seq.ident? (i + 1)).isSome then i + 2 else i + 1) = start
  split
  · exact congrArg (·, _) (announce_lift ⟨_, _, .classBody⟩)
  · rfl

theorem catchAt (behind : vis (i + 1)) (scopes : 0 < w.scopes) :
    Follows b pos isProperty ((w.lift b pos).catchAt v (i + pos)) (w.catchAt seq i) := by
  have ne : w.freshScope w.here false ≠ [] := cons_ne_nil _ _
  unfold Walk.catchAt
  dsimp only
  rw [here_lift, freshScope_lift scopes, newScope_lift, Nat.add_right_comm i pos 1, win.group behind]
  cases pair : (if seq.punctAt (i + 1) "(" then seq.closer? (i + 1) else none) with
  | none => exact (win.announceBody (.inl rfl) behind _).follows _
  | some c =>
    have closes : seq.closer? (i + 1) = some c := (ite_none_right_eq_some.1 pair).2
    have seenCloser := (win.closer closes).2
    have inside := lt_closer closes
    rw [map_some]
    dsimp only
    rw [Nat.add_right_comm i pos 2, Nat.add_right_comm c pos 1]
    exact (win.announceBody (win.bindPattern below ne
      (win.earlier seenCloser (by omega))) seenCloser _).follows _

/-! ## Members, names and keywords -/

section

variable (seen : vis i) (got : seq.get? i = some t)
include seen got

theorem memberAt (there : v.get? (i + pos) = some twin) (like : t.Resembles twin)
    (word : t.kind = .ident ∨ t.kind = .keyword) (scopes : 0 < w.scopes) :
    Follows b pos isProperty ((w.lift b pos).memberAt v (i + pos) twin) (w.memberAt seq i t) := by
  obtain ⟨behind, plain⟩ := win.behind_word seen got word
  have ends : (v.get? (i + 1 + pos)).all (fun next =>
        next.isPunct "," || next.isPunct closeBrace || next.isPunct "=") =
      (seq.get? (i + 1)).all (fun next =>
        next.isPunct "," || next.isPunct closeBrace || next.isPunct "=") := by
    cases there : seq.get? (i + 1) with
    | none => rw [win.missing behind there]
    | some next =>
      obtain ⟨next', there', alike⟩ := win.resembles behind plain there
      simp only [there', all_some, alike.isPunct]
  unfold Walk.memberAt
  rw [win.isModifier behind got there like.alike, Nat.add_right_comm i pos 1, win.punctAt behind, ends,
    like.kind, like.text, inBrace_lift, here_lift, newScope_lift,
    freshScope_lift scopes]
  split
  · exact .inl rfl
  split
  · exact win.functionTail below behind (cons_ne_nil _ _)
  split
  · exact .inl rfl
  · exact .inl rfl

theorem declarationAt (kw : t.kind = .keyword) (isVar : Bool) (sound : w.Sound seq) :
    Follows b pos isProperty ((w.lift b pos).declarationAt v (i + pos) isVar)
      (w.declarationAt seq i isVar) := by
  obtain ⟨behind, plain⟩ := win.behind_word seen got (.inr kw)
  have target : (if isVar then Chain.nearestFunction (w.lift b pos).here
      else (w.lift b pos).here) =
      Chain.shift b.room (if isVar then Chain.nearestFunction w.here else w.here) := by
    split
    · exact Chain.nearestFunction_shift _ _
    · rfl
  have ne : (if isVar then Chain.nearestFunction w.here else w.here) ≠ [] := by
    split
    · exact sound.here.nearestFunction.ne_nil
    · exact sound.here.ne_nil
  unfold Walk.declarationAt
  rw [win.prevSelects seen, Nat.add_right_comm]
  split
  · exact .inl rfl
  · dsimp only
    rw [target, depth_lift, keepDeclarations_lift, startDeclaration_lift, win.patternEnd behind plain]
    exact (win.bindPattern below ne behind).follows _

section

variable (there : v.get? (i + pos) = some twin) (like : t.Resembles twin)
include there like

theorem keywordAt (kw : t.kind = .keyword)
    (sound : w.Sound seq) (start : i = 0 → v.prev? pos = none ∨ (w.opens, w.declarations) = ([], [])) :
    Follows b pos isProperty ((w.lift b pos).keywordAt v (i + pos) twin) (w.keywordAt seq i t) := by
  obtain ⟨behind, plain⟩ := win.behind_word seen got (.inr kw)
  have labelled :
      v.holds (i + 1 + pos) (fun next => next.kind == .ident && !next.newlineBefore) =
        seq.holds (i + 1) (fun next => next.kind == .ident && !next.newlineBefore) :=
    win.holds_behind behind plain fun _ _ alike l => by rw [alike.kind, l]
  have labelAt : Follows b pos isProperty
      (if seq.holds (i + 1) (fun next => next.kind == .ident && !next.newlineBefore) then
        (w.lift b pos, i + 2 + pos) else (w.lift b pos, i + 1 + pos))
      (if seq.holds (i + 1) (fun next => next.kind == .ident && !next.newlineBefore) then
        (w, i + 2) else (w, i + 1)) := by
    split <;> exact .inl rfl
  unfold Walk.keywordAt
  rw [like.text, Nat.add_right_comm i pos 1, labelled, Nat.add_right_comm i pos 2,
    win.inMemberPosition seen got (asks_of_word (.inr kw)) start]
  split
  · exact win.declarationAt below seen got kw false sound
  · exact win.declarationAt below seen got kw false sound
  · exact win.declarationAt below seen got kw true sound
  · exact win.functionAt below seen got kw sound.scopes
  · next text =>
    exact .inl (win.classAt below (win.classes seen got (by simp [isKeyword, kw, text])) got kw)
  · exact .inl (win.forAt seen got kw sound.scopes)
  · exact win.catchAt below behind sound.scopes
  · exact labelAt
  · exact labelAt
  · exact .inl (win.suspendAt seen true)
  · exact .inl (win.suspendAt seen false)
  · split
    · exact win.memberAt below seen got there like (.inr kw) sound.scopes
    · exact .inl rfl

theorem identAt (ident : t.kind = .ident)
    (scopes : 0 < w.scopes) (start : i = 0 → v.prev? pos = none ∨ (w.opens, w.declarations) = ([], [])) :
    Follows b pos isProperty ((w.lift b pos).identAt v (i + pos) twin) (w.identAt seq i t) := by
  obtain ⟨behind, plain⟩ := win.behind_word seen got (.inl ident)
  have asks := asks_of_word (.inl ident)
  have fn : v.holds (i + 1 + pos) (fun next =>
        !next.newlineBefore && (next.isKeyword "function" || next.kind == .ident)) =
      seq.holds (i + 1) (fun next =>
        !next.newlineBefore && (next.isKeyword "function" || next.kind == .ident)) :=
    win.holds_behind behind plain fun _ _ alike line => by
      rw [line, alike.isKeyword, alike.kind]
  unfold Walk.identAt
  rw [win.prevSelects seen, win.inMemberPosition seen got asks start, Nat.add_right_comm i pos 1, fn,
    win.punctAt behind, win.atStatementStart seen got asks, win.inConditional seen, here_lift,
    like.text]
  simp only [inBrace_lift, inForHeader_lift, depth_lift]
  refine .ite (fun _ => .inl rfl) fun _ => .ite (fun _ => ?_) fun _ => .ite (fun _ => ?_) fun _ =>
    .ite (fun _ => .inl rfl) fun _ => .ite (fun _ => ?_) fun _ => .inl rfl
  · exact win.memberAt below seen got there like (.inl ident) scopes
  · rw [keepDeclarations_lift]
    exact .inl rfl
  · exact .inl (congrArg _ (Nat.add_right_comm i pos 2))

end

end

section

variable (apart : b.Apart v pos) (unselected : ∀ use ∈ w.uses, ¬ isProperty use.token) (seen : vis i) (got : seq.get? i = some t)
include apart unselected seen got

theorem punctAt_lift (like : t.Resembles twin) (punct : t.kind = .punct) (sound : w.Sound seq) :
    Follows b pos isProperty ((w.lift b pos).punctAt v (i + pos) twin) (w.punctAt seq i t) := by
  have closes : twin.isCloser = t.isCloser := by
    simp only [isCloser, like.isPunct]
  have here : ∀ {text : String}, t.text = text → seq.punctAt i text := by
    rintro text rfl
    simp [TokenSeq.punctAt, holds_of_get? got, Token.isPunct, punct]
  unfold Walk.punctAt
  rw [like.text, closes, Nat.add_right_comm i pos 1]
  refine .ite (fun _ => .inl rfl) fun _ => .ite (fun _ => .inl rfl) fun _ => .ite (fun brace => ?_) fun _ =>
    .ite (fun closing => ?_) fun _ => .ite (fun comma => ?_) fun _ => .ite (fun _ => ?_) fun _ =>
      .ite (fun arrow => ?_) fun _ => .inl rfl
  · exact .inl (congrArg (·, _) (win.openBraceAt seen (here brace) sound.scopes))
  · have behind := win.next seen got (isPunct_of_isCloser closing (by decide))
    exact .inl (congrArg (·, _) (win.closeAt behind))
  · exact win.commaAt below seen (here comma) sound
  · exact .inl (semicolonAt w i)
  · exact win.arrowAt below apart unselected seen (here arrow) sound.scopes

/-- **A step through a window on top of another walk is the step made alone**, unless it
declares a property. -/
theorem step (there : v.get? (i + pos) = some twin) (sound : w.Sound seq)
    (start : i = 0 → v.prev? pos = none ∨ (w.opens, w.declarations) = ([], [])) :
    Follows b pos isProperty ((w.lift b pos).step v (i + pos) twin) (w.step seq i t) := by
  by_cases prop : isProperty i
  · obtain ⟨n, hole, here, hidden, selected, passed, nameless⟩ := win.property prop
    obtain rfl := some.inj (got.symm.trans here)
    obtain rfl := some.inj (there.symm.trans hidden)
    have hole : twin.Passed (v.get? (i + pos + 1)) := {
      word := .inl nameless.kind
      calm := fun kw => by rw [nameless.kind] at kw; cases kw
      quiet := .inl nameless.isPlainName }
    rw [step_of_selected selected passed,
      step_of_selected ((win.prevSelects seen).trans selected) hole, Nat.add_right_comm]
    exact .inl rfl
  · obtain ⟨twin', there', like⟩ := win.resembles seen prop got
    obtain rfl := some.inj (there.symm.trans there')
    have ended := (sound.grown.endDeclarationAtLineBreak i t).toSound
    have kept : (w.endDeclarationAtLineBreak seq i t).uses = w.uses := by
      unfold Walk.endDeclarationAtLineBreak
      repeat' split
      all_goals rfl
    have start' : i = 0 → v.prev? pos = none ∨
        ((w.endDeclarationAtLineBreak seq i t).opens,
          (w.endDeclarationAtLineBreak seq i t).declarations) = ([], []) := by
      rintro rfl
      have unchanged : w.endDeclarationAtLineBreak seq 0 t = w :=
        if_neg fun ends => Bool.false_ne_true ends.2.2
      rw [unchanged]
      exact start rfl
    rw [← kept] at unselected
    unfold Walk.step
    dsimp only
    rw [win.endDeclarationAtLineBreak seen got there like start, like.kind]
    split
    · next punct => exact win.punctAt_lift below apart unselected seen got like punct ended
    · next kw => exact win.keywordAt below seen got there like kw ended start'
    · next ident =>
      exact win.identAt below seen got there like ident ended.scopes start'
    · exact .inl (congrArg _ (Nat.add_right_comm i pos 1))

end

end Steps

end Window

end Scope

end Bindery
