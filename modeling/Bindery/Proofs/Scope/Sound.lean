/-
Proofs.Scope.Sound -- what every walk keeps

Whatever the tokens are, balanced or not, a walk keeps its state in order
(`Walk.Sound`).  Every scope it remembers is a chain of frames that it has made
itself, and the chain ends in the outermost scope.
-/
import Bindery.Proofs.Scope.Pattern
import Bindery.Scope.Analysis

namespace Bindery

open List TokenSeq

namespace Scope

variable {seq : TokenSeq} {i : Nat}

/-- The chain ends in the outermost scope, its frames are among the first `scopes` scopes,
and each of them is younger than those around it. -/
structure Chain.Within (scopes : Nat) (chain : Chain) : Prop where
  ends : root <:+ chain
  id_lt : ∀ frame ∈ chain, frame.id < scopes
  younger : chain.Pairwise (·.id > ·.id)

def Opened.chains : Opened → List Chain
  | .paren | .bracket => []
  | .forHeader s restore => [s, restore]
  | .brace _ restore => restore.toList

structure Walk.Sound (seq : TokenSeq) (w : Walk) : Prop where
  scopes : 0 < w.scopes
  here : w.here.Within w.scopes
  opens : ∀ opened ∈ w.opens, ∀ chain ∈ opened.chains, chain.Within w.scopes
  pending : ∀ announced ∈ w.pending,
    announced.scope.Within w.scopes ∧ announced.restore.Within w.scopes
  delimited : ∀ s ∈ w.delimited, s.restore.Within w.scopes
  declarations : ∀ declaration ∈ w.declarations, declaration.target.Within w.scopes
  bindings : ∀ binding ∈ w.bindings, binding.scope < w.scopes ∧ seq.HasName binding.name
  distinct : w.bindings.Nodup
  uses : ∀ use ∈ w.uses,
    use.scope.Within w.scopes ∧ seq.HasName use.name ∧ use.token < seq.size

/-- The state is in order and has grown out of an earlier one: it has every declaration
of that one, and its new uses are not properties. -/
structure Walk.Grown (seq : TokenSeq) (w start : Walk) : Prop extends w.Sound seq where
  kept : ∀ binding ∈ start.bindings, binding ∈ w.bindings
  unselected : ∀ use ∈ w.uses, use ∈ start.uses ∨ seq.prevHolds use.token Token.selects = false

namespace Chain.Within

variable {scopes : Nat} {chain : Chain}

section

variable (within : chain.Within scopes)
include within

theorem mono {r : Nat} (le : scopes ≤ r) : chain.Within r :=
  { within with id_lt := fun frame mem => Nat.lt_of_lt_of_le (within.id_lt frame mem) le }

theorem fresh (isFunction : Bool) : Chain.Within (scopes + 1) (⟨scopes, isFunction⟩ :: chain) where
  ends := within.ends.trans (suffix_cons _ _)
  id_lt := forall_mem_cons.2 ⟨Nat.lt_succ_self _, (within.mono (Nat.le_succ _)).id_lt⟩
  younger := pairwise_cons.2 ⟨within.id_lt, within.younger⟩

theorem nearestFunction : (Chain.nearestFunction chain).Within scopes := by
  fun_induction Chain.nearestFunction chain with
  | case1 | case2 | case3 => exact within
  | case4 frame outer other _ ih =>
    have around : root <:+ outer := by
      rcases suffix_cons_iff.1 within.ends with eq | around
      · exact absurd (List.cons.inj eq).2.symm other
      · exact around
    exact ih ⟨around, fun frame mem => within.id_lt frame (.tail _ mem), within.younger.of_cons⟩

theorem ne_nil : chain ≠ [] := ne_nil_of_mem (within.ends.subset mem_cons_self)

theorem any_root {prop : Frame → Bool} (outermost : prop ⟨0, true⟩) : chain.any prop :=
  any_eq_true.2 ⟨_, within.ends.subset mem_cons_self, outermost⟩

end

end Chain.Within

namespace Walk.Sound

variable {w : Walk}

theorem initial (seq : TokenSeq) : Walk.Sound seq {} where
  scopes := Nat.one_pos
  here := ⟨suffix_refl _, by decide, by decide⟩
  opens := fun _ mem => nomatch mem
  pending := fun _ mem => nomatch mem
  delimited := fun _ mem => nomatch mem
  declarations := fun _ mem => nomatch mem
  bindings := fun _ mem => nomatch mem
  distinct := nodup_nil
  uses := fun _ mem => nomatch mem

theorem grown (sound : w.Sound seq) : w.Grown seq w :=
  { sound with kept := fun _ => id, unselected := fun _ => .inl }

end Walk.Sound

namespace Walk.Grown

variable {w start : Walk} {s restore : Chain} {opened : Opened} {t : Token} (grown : w.Grown seq start)

include grown

/-! ## Single operations -/

theorem newScope : w.newScope.Grown seq start := by
  have le : w.scopes ≤ w.scopes + 1 := Nat.le_succ _
  exact { grown with
    scopes := Nat.succ_pos _
    here := grown.here.mono le
    opens := fun opened mem chain inside => (grown.opens opened mem chain inside).mono le
    pending := fun announced mem =>
      ⟨(grown.pending announced mem).1.mono le, (grown.pending announced mem).2.mono le⟩
    delimited := fun s mem => (grown.delimited s mem).mono le
    declarations := fun declaration mem => (grown.declarations declaration mem).mono le
    bindings := fun b mem =>
      ⟨Nat.lt_succ_of_lt (grown.bindings b mem).1, (grown.bindings b mem).2⟩
    uses := fun use mem =>
      ⟨(grown.uses use mem).1.mono le, (grown.uses use mem).2⟩ }

theorem goTo (within : s.Within w.scopes) : (w.goTo s).Grown seq start := { grown with here := within }

theorem push (within : ∀ chain ∈ opened.chains, chain.Within w.scopes) : (w.push opened).Grown seq start := by
  refine { grown with opens := fun other mem chain inside => ?_ }
  rcases mem_cons.1 mem with rfl | mem
  · exact within chain inside
  · exact grown.opens other mem chain inside

theorem announce {announced : PendingBrace} (within : announced.scope.Within w.scopes)
    (outside : announced.restore.Within w.scopes) : (w.announce announced).Grown seq start := by
  refine { grown with pending := fun other mem => ?_ }
  cases Option.mem_some.1 mem
  exact ⟨within, outside⟩

theorem announceBody (i : Nat) (within : s.Within w.scopes) : (w.announceBody seq i s).Grown seq start := by
  unfold Walk.announceBody
  split
  · exact grown.announce within grown.here
  · exact grown

theorem delimit (endsAtComma : Bool) (outside : restore.Within w.scopes) :
    (w.delimit restore endsAtComma).Grown seq start := by
  refine { grown with delimited := fun s mem => ?_ }
  rcases mem_cons.1 mem with rfl | mem
  · exact outside
  · exact grown.delimited s mem

theorem startDeclaration {target : Chain} (within : target.Within w.scopes) :
    (w.startDeclaration target).Grown seq start := by
  refine { grown with declarations := fun declaration mem => ?_ }
  rcases mem_cons.1 mem with rfl | mem
  · exact within
  · exact grown.declarations declaration mem

theorem takeBack (fst : Nat) : (w.takeBack fst).Grown seq start :=
  { grown with
    uses := fun use mem => grown.uses use (mem_filter.1 mem).1
    unselected := fun use mem => grown.unselected use (mem_filter.1 mem).1 }

theorem suspend (isAwait : Bool) : (w.suspend isAwait).Grown seq start := by
  unfold Walk.suspend
  repeat' split
  · exact { grown with }
  · exact { grown with }
  · exact grown

theorem declare {n : String} (within : s.Within w.scopes) (named : seq.HasName n) :
    (w.declare s n).Grown seq start := by
  unfold Walk.declare
  split
  · exact grown
  · next frame head =>
    split
    · exact grown
    · next absent =>
      refine { grown with
        bindings := fun b mem => ?_
        distinct := nodup_cons.2 ⟨by simpa using absent, grown.distinct⟩
        kept := fun b mem => mem_cons_of_mem _ (grown.kept b mem) }
      rcases mem_cons.1 mem with rfl | mem
      · exact ⟨within.id_lt _ (mem_of_head? head), named⟩
      · exact grown.bindings b mem

theorem refer (within : s.Within w.scopes) (got : seq.get? i = some t) (ident : t.kind = .ident)
    (unselected : seq.prevHolds i Token.selects = false) : (w.refer t.text s i).Grown seq start := by
  refine { grown with uses := fun use mem => ?_, unselected := fun use mem => ?_ } <;>
    rcases mem_cons.1 mem with rfl | mem
  · exact ⟨within, ⟨i, t, got, ident, rfl⟩, lt_of_get? got⟩
  · exact grown.uses use mem
  · exact .inr unselected
  · exact grown.unselected use mem

theorem leaveWhile (leaves : Delimited → Bool) : (w.leaveWhile leaves).Grown seq start := by
  unfold Walk.leaveWhile
  split
  · exact grown
  · next last got =>
    have mem : last ∈ w.delimited := (takeWhile_sublist leaves).mem (mem_of_getLast? got)
    exact { grown with
      here := grown.delimited last mem
      delimited := fun s inside =>
        grown.delimited s ((dropWhile_sublist leaves).mem inside) }

theorem keepDeclarations (keeps : Nat → Bool) : (w.keepDeclarations keeps).Grown seq start :=
  { grown with
    declarations := fun declaration mem =>
      grown.declarations declaration (mem_filter.1 mem).1 }

/-! ## Patterns -/

theorem referAt (within : s.Within w.scopes) (i : Nat) : (Walk.referAt seq s w i).Grown seq start := by
  unfold Walk.referAt
  split
  · exact grown
  · next t got =>
    split
    · exact grown
    · next noted =>
      have ident : t.kind = .ident := Decidable.of_not_not fun other => noted (.inl other)
      exact grown.refer within got ident (Bool.eq_false_iff.2 fun selected => noted (.inr (.inl selected)))

omit grown in
theorem scopes_referAt (seq : TokenSeq) (w : Walk) (s : Chain) (i : Nat) :
    (Walk.referAt seq s w i).scopes = w.scopes := by
  unfold Walk.referAt
  repeat' split
  all_goals rfl

omit grown in
theorem scopes_declare (s : Chain) (n : String) : (w.declare s n).scopes = w.scopes := by
  unfold Walk.declare
  repeat' split
  all_goals rfl

omit grown in
theorem foldl_referAt (indices : List Nat) :
    ∀ {w : Walk}, w.Grown seq start → s.Within w.scopes →
      (indices.foldl (Walk.referAt seq s) w).Grown seq start ∧
        (indices.foldl (Walk.referAt seq s) w).scopes = w.scopes := by
  induction indices with
  | nil => exact fun grown _ => ⟨grown, rfl⟩
  | cons i r ih =>
    intro w grown within
    have eq := scopes_referAt seq w s i
    obtain ⟨kept, scopes⟩ := ih (grown.referAt within i) (eq ▸ within)
    exact ⟨kept, scopes.trans eq⟩

theorem apply (within : s.Within w.scopes) {event : PatternEvent} (named : event.Named seq) :
    (Walk.apply seq s w event).Grown seq start ∧ (Walk.apply seq s w event).scopes = w.scopes := by
  cases event with
  | declare n => exact ⟨grown.declare within named, scopes_declare s n⟩
  | refer fst stop => exact foldl_referAt _ grown within

omit grown in
theorem foldl_apply (events : List PatternEvent) :
    ∀ {w : Walk}, w.Grown seq start → s.Within w.scopes → (∀ event ∈ events, event.Named seq) →
      (events.foldl (Walk.apply seq s) w).Grown seq start ∧
        (events.foldl (Walk.apply seq s) w).scopes = w.scopes := by
  induction events with
  | nil => exact fun grown _ _ => ⟨grown, rfl⟩
  | cons event r ih =>
    intro w grown within named
    obtain ⟨fst, eq⟩ := grown.apply within (named event mem_cons_self)
    obtain ⟨kept, scopes⟩ := ih fst (eq ▸ within) fun later mem => named later (.tail _ mem)
    exact ⟨kept, scopes.trans eq⟩

theorem bindPattern (within : s.Within w.scopes) (i : Nat) :
    (w.bindPattern seq s i).Grown seq start ∧ (w.bindPattern seq s i).scopes = w.scopes :=
  foldl_apply _ grown within (named_events.1 i)

theorem bindParameters (within : s.Within w.scopes) (o c : Nat) :
    (w.bindParameters seq s o c).Grown seq start ∧ (w.bindParameters seq s o c).scopes = w.scopes :=
  foldl_apply _ grown within (named_events.2 _ _ _)

/-! ## Brackets and separators -/

theorem openBraceAt (i : Nat) : (w.openBraceAt seq i).Grown seq start := by
  unfold Walk.openBraceAt
  split
  · next announced got =>
    obtain ⟨within, outside⟩ := grown.pending announced got
    have taken : { w with pending := none }.Grown seq start :=
      { grown with pending := fun _ mem => nomatch mem }
    refine (taken.goTo within).push fun chain mem => ?_
    cases mem_singleton.1 mem
    exact outside
  · split
    · exact grown.push fun _ mem => nomatch mem
    · refine (grown.newScope.goTo (grown.here.fresh false)).push fun chain mem => ?_
      cases mem_singleton.1 mem
      exact grown.newScope.here

theorem afterForHeader (c : Nat) (within : s.Within w.scopes) (outside : restore.Within w.scopes) :
    (w.afterForHeader seq c s restore).Grown seq start := by
  unfold Walk.afterForHeader
  split
  · exact grown.announce within outside
  · exact grown.delimit false outside

theorem afterClosing (i : Nat) (within : ∀ chain ∈ opened.chains, chain.Within w.scopes) :
    (w.afterClosing seq i opened).Grown seq start := by
  cases opened with
  | paren => exact grown
  | bracket => exact grown
  | forHeader s restore =>
    exact grown.afterForHeader i (within s (by simp [Opened.chains]))
      (within restore (by simp [Opened.chains]))
  | brace kind restore =>
    cases restore with
    | none => exact grown
    | some restore => exact grown.goTo (within restore (by simp [Opened.chains]))

omit grown in
theorem scopes_leaveWhile (w : Walk) (leaves : Delimited → Bool) : (w.leaveWhile leaves).scopes = w.scopes := by
  unfold Walk.leaveWhile
  split <;> rfl

theorem closeAt (i : Nat) : (w.closeAt seq i).Grown seq start := by
  unfold Walk.closeAt
  split
  · exact grown
  · next opened outer got =>
    have popped : { w with opens := outer }.Grown seq start :=
      { grown with
        opens := fun other mem =>
          grown.opens other (got ▸ mem_cons_of_mem _ mem) }
    have left := (popped.leaveWhile (outer.length < ·.depth)).keepDeclarations (· ≤ outer.length)
    refine left.afterClosing i fun chain mem => ?_
    have eq := scopes_leaveWhile { w with opens := outer } (outer.length < ·.depth)
    have inside := grown.opens opened (got ▸ mem_cons_self) chain mem
    exact eq.symm ▸ inside

theorem continueDeclaration (i : Nat) : (w.continueDeclaration seq i).1.Grown seq start := by
  unfold Walk.continueDeclaration
  split
  · next last outer got =>
    split
    · exact (grown.bindPattern (grown.declarations last (got ▸ mem_cons_self)) _).1
    · exact grown
  · exact grown

theorem separatorAt (i : Nat) (isSemicolon : Bool) : (w.separatorAt seq i isSemicolon).1.Grown seq start := by
  unfold Walk.separatorAt
  dsimp only
  split
  · exact (grown.leaveWhile _).keepDeclarations (· < w.depth)
  · exact (grown.leaveWhile _).continueDeclaration i

theorem bindArrow (within : s.Within w.scopes) {fst : Nat} {params : Option (Nat × Nat)}
    (head : Walk.arrowHead? seq i = some (fst, params)) :
    (w.bindArrow seq s fst params).Grown seq start ∧ (w.bindArrow seq s fst params).scopes = w.scopes := by
  cases params with
  | some pair => exact grown.bindParameters within pair.1 pair.2
  | none =>
    unfold arrowHead? at head
    split at head
    · cases head
    · next prev got =>
      split at head
      · next ident =>
        cases head
        have here : seq.get? (i - 1) = some prev := by
          unfold prev? at got
          split at got
          · cases got
          · exact got
        simp only [Walk.bindArrow, here, Option.elim_some]
        exact ⟨grown.declare within ⟨_, prev, here, ident, rfl⟩, scopes_declare _ _⟩
      · split at head
        · simp at head
        · cases head

theorem enterArrowBody (i : Nat) (within : s.Within w.scopes) : (w.enterArrowBody seq i s).Grown seq start := by
  unfold Walk.enterArrowBody
  split
  · exact grown.announce within grown.here
  · exact (grown.delimit true grown.here).goTo within

theorem arrowAt (i : Nat) : (w.arrowAt seq i).1.Grown seq start := by
  unfold Walk.arrowAt
  split
  · exact grown
  · next fst params head =>
    have within := grown.here.fresh true
    obtain ⟨bound, eq⟩ := (grown.takeBack (arrowStart seq fst)).newScope.bindArrow within head
    exact bound.enterArrowBody (i + 1) (eq.symm ▸ within)

theorem punctAt (i : Nat) (t : Token) : (w.punctAt seq i t).1.Grown seq start := by
  unfold Walk.punctAt
  repeat' split
  · exact grown.push fun _ mem => nomatch mem
  · exact grown.push fun _ mem => nomatch mem
  · exact grown.openBraceAt i
  · exact grown.closeAt i
  · exact grown.separatorAt i false
  · exact grown.separatorAt i true
  · exact grown.arrowAt i
  · exact grown

/-! ## Functions, classes, loops -/

theorem functionTail (o : Nat) (within : s.Within w.scopes) : (w.functionTail seq o s).1.Grown seq start := by
  unfold Walk.functionTail
  split
  · exact grown
  · next c _ =>
    obtain ⟨bound, eq⟩ := grown.bindParameters within o c
    exact bound.announceBody (c + 1) (eq.symm ▸ within)

theorem functionAt (i : Nat) : (w.functionAt seq i).1.Grown seq start := by
  have within := grown.here.fresh true
  unfold Walk.functionAt
  dsimp only
  generalize (if seq.punctAt (i + 1) "*" then i + 2 else i + 1) = next
  split
  · next name got =>
    obtain ⟨here, ident⟩ := ident?_eq_some.1 got
    have named : seq.HasName name.text := ⟨next, name, here, ident, rfl⟩
    have target : (if isFunctionStatement seq i then w.here
        else w.freshScope w.here true).Within w.newScope.scopes := by
      split
      · exact grown.newScope.here
      · exact within
    refine (grown.newScope.declare target named).functionTail (next + 1) ?_
    rw [scopes_declare]
    exact within
  · exact grown.newScope.functionTail next within

theorem declareClass (i : Nat) : (w.declareClass seq i).Grown seq start := by
  unfold Walk.declareClass
  split
  · next name got =>
    obtain ⟨here, ident⟩ := ident?_eq_some.1 got
    split
    · exact grown.declare grown.here ⟨_, name, here, ident, rfl⟩
    · exact grown
  · exact grown

theorem classAt (i : Nat) : (w.classAt seq i).1.Grown seq start := by
  have named := grown.declareClass i
  unfold Walk.classAt
  dsimp only
  generalize (if (seq.ident? (i + 1)).isSome then i + 2 else i + 1) = next
  split
  · exact named.announce named.here named.here
  · exact named

theorem openForHeader : w.openForHeader.Grown seq start := by
  refine (grown.newScope.goTo (grown.here.fresh false)).push fun chain mem => ?_
  rcases mem_cons.1 mem with rfl | mem
  · exact grown.here.fresh false
  · cases mem_singleton.1 mem
    exact grown.newScope.here

theorem forAt (i : Nat) : (w.forAt seq i).1.Grown seq start := by
  unfold Walk.forAt
  repeat' split
  · exact (grown.suspend true).openForHeader
  · exact grown.suspend true
  · exact grown.openForHeader
  · exact grown

theorem catchAt (i : Nat) : (w.catchAt seq i).1.Grown seq start := by
  have within := grown.here.fresh false
  unfold Walk.catchAt
  dsimp only
  split
  · next c _ =>
    obtain ⟨bound, eq⟩ := grown.newScope.bindPattern within (i + 2)
    exact bound.announceBody (c + 1) (eq.symm ▸ within)
  · exact grown.newScope.announceBody (i + 1) within

/-! ## Members, names and keywords -/

theorem memberAt (got : seq.get? i = some t)
    (unselected : t.kind = .ident → seq.prevHolds i Token.selects = false) :
    (w.memberAt seq i t).1.Grown seq start := by
  unfold Walk.memberAt
  repeat' split
  · exact grown
  · exact grown.newScope.functionTail (i + 1) (grown.here.fresh true)
  · next shorthand => exact grown.refer grown.here got shorthand.2.1 (unselected shorthand.2.1)
  · exact grown

theorem declarationAt (i : Nat) (isVar : Bool) : (w.declarationAt seq i isVar).1.Grown seq start := by
  unfold Walk.declarationAt
  split
  · exact grown
  · have target : (if isVar then Chain.nearestFunction w.here else w.here).Within
        w.scopes := by
      split
      · exact grown.here.nearestFunction
      · exact grown.here
    exact (((grown.keepDeclarations _).startDeclaration target).bindPattern target _).1

theorem suspendAt (i : Nat) (isAwait : Bool) : (w.suspendAt seq i isAwait).1.Grown seq start := by
  unfold Walk.suspendAt
  split
  · exact grown
  · exact grown.suspend isAwait

theorem keywordAt (got : seq.get? i = some t) (kw : t.kind = .keyword) :
    (w.keywordAt seq i t).1.Grown seq start := by
  unfold Walk.keywordAt
  split
  · exact grown.declarationAt i false
  · exact grown.declarationAt i false
  · exact grown.declarationAt i true
  · exact grown.functionAt i
  · exact grown.classAt i
  · exact grown.forAt i
  · exact grown.catchAt i
  · split <;> exact grown
  · split <;> exact grown
  · exact grown.suspendAt i true
  · exact grown.suspendAt i false
  · split
    · exact grown.memberAt got fun ident => by rw [kw] at ident; cases ident
    · exact grown

theorem identAt (got : seq.get? i = some t) (ident : t.kind = .ident) :
    (w.identAt seq i t).1.Grown seq start := by
  unfold Walk.identAt
  split
  · exact grown
  · next unselected =>
    have unselected := Bool.eq_false_iff.2 unselected
    repeat' split
    · exact grown.memberAt got fun _ => unselected
    · exact grown.keepDeclarations (· < w.depth)
    · exact grown
    · exact grown
    · exact grown.refer grown.here got ident unselected

theorem endDeclarationAtLineBreak (i : Nat) (t : Token) :
    (w.endDeclarationAtLineBreak seq i t).Grown seq start := by
  unfold Walk.endDeclarationAtLineBreak
  split
  · split
    · next last outer got =>
      split
      · exact { grown with
          declarations := fun declaration mem =>
            grown.declarations declaration (got ▸ mem_cons_of_mem _ mem) }
      · exact grown
    · exact grown
  · exact grown

/-- **A step keeps the state in order and grows it.** -/
theorem step (got : seq.get? i = some t) : (w.step seq i t).1.Grown seq start := by
  have ended := grown.endDeclarationAtLineBreak i t
  unfold Walk.step
  dsimp only
  split
  · exact ended.punctAt i t
  · next kw => exact ended.keywordAt got kw
  · next ident => exact ended.identAt got ident
  · exact ended

/-- **A walk of any length keeps the state in order and grows it.** -/
theorem runFrom (i : Nat) : (w.runFrom seq i).Grown seq start := by
  fun_induction Walk.runFrom seq i w with
  | case1 => exact grown
  | case2 i w t got ih => exact ih (grown.step got)

end Walk.Grown

namespace Walk.Sound

variable {w : Walk}

theorem step {t : Token} (sound : w.Sound seq) (got : seq.get? i = some t) : (w.step seq i t).1.Sound seq :=
  (sound.grown.step got).toSound

theorem runFrom (sound : w.Sound seq) (i : Nat) : (w.runFrom seq i).Sound seq := (sound.grown.runFrom i).toSound

end Walk.Sound

theorem Walk.runFrom_of_none (w : Walk) (missing : seq.get? i = none) : w.runFrom seq i = w := by
  unfold Walk.runFrom
  split
  · rfl
  · next got => rw [missing] at got; cases got

theorem Walk.runFrom_of_some {t : Token} (w : Walk) (got : seq.get? i = some t) :
    w.runFrom seq i = (w.step seq i t).1.runFrom seq (w.step seq i t).2 := by
  conv => lhs; unfold Walk.runFrom
  split
  · next missing => rw [got] at missing; cases missing
  · next other here =>
    rw [got] at here
    cases here
    rfl

/-! ## The names of an analysis -/

theorem nodup_eraseDups {α : Type} [BEq α] [LawfulBEq α] (items : List α) : items.eraseDups.Nodup := by
  match items with
  | [] => exact nodup_nil
  | first :: r =>
    rw [eraseDups_cons, nodup_cons, mem_eraseDups]
    exact ⟨by simp, nodup_eraseDups _⟩
  termination_by items.length
  decreasing_by exact Nat.lt_succ_of_le (length_filter_le _ _)

theorem eraseDups_of_nodup {α : Type} [BEq α] [LawfulBEq α] {items : List α}
    (nodup : items.Nodup) : items.eraseDups = items := by
  induction items with
  | nil => rfl
  | cons fst r ih =>
    obtain ⟨absent, nodup⟩ := nodup_cons.1 nodup
    have kept : (r.filter fun item => !item == fst) = r :=
      filter_eq_self.2 fun item mem => by
        have : item ≠ fst := fun eq => absent (eq ▸ mem)
        simpa using this
    rw [eraseDups_cons, kept, ih nodup]

theorem Walk.Sound.nodup_topLevel {w : Walk} (sound : w.Sound seq) : w.topLevel.Nodup := by
  have nodup : w.bindings.reverse.Nodup := (reverse_perm w.bindings).nodup_iff.2 sound.distinct
  unfold Walk.topLevel Nodup
  rw [pairwise_map, pairwise_filter]
  refine nodup.imp fun {fst snd} different here there eq => different ?_
  have scopes : fst.scope = snd.scope := by
    rw [beq_iff_eq] at here there
    rw [here, there]
  cases fst
  cases snd
  simp_all

theorem analyze_topLevel (ts : List Token) :
    (analyze ts).topLevel.Nodup ∧ ∀ n ∈ (analyze ts).topLevel, (ofList ts).HasName n := by
  have sound := (Walk.Sound.initial ts).runFrom 0
  refine ⟨sound.nodup_topLevel, fun n mem => ?_⟩
  obtain ⟨b, inside, rfl⟩ := mem_map.1 mem
  exact (sound.bindings b (mem_reverse.1 (mem_filter.1 inside).1)).2

theorem analyze_references (ts : List Token) :
    (analyze ts).references.Nodup ∧ ∀ n ∈ (analyze ts).references, (ofList ts).HasName n := by
  have sound := (Walk.Sound.initial ts).runFrom 0
  refine ⟨nodup_eraseDups _, fun n mem => ?_⟩
  obtain ⟨use, inside, rfl⟩ := mem_map.1 (mem_eraseDups.1 mem)
  exact (sound.uses use (mem_reverse.1 (mem_filter.1 inside).1)).2.1

end Scope

end Bindery
