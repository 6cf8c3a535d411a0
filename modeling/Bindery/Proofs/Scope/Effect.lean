/-
Proofs.Scope.Effect -- what a stretch of a program adds to a walk

A walk notes declarations and uses, and judges the uses when it is over.  `Effect`
says what a stretch of tokens adds to the notes in terms of the program that stands
there: the names it declares in the scopes around it, and the uses that remain when
the scopes inside it have taken theirs.
-/
import Bindery.Proofs.Scope.Program
import Bindery.Scope.Analysis

namespace Bindery

open List Program

variable {ns : List String} {n : String} {id stop' : Nat}

namespace Scope

/-! ## Names in order -/

/-- Add a name that is not there yet. -/
def addName (names : List String) (name : String) : List String :=
  if names.contains name then names else names ++ [name]

def addNames (names more : List String) : List String :=
  more.foldl addName names

theorem mem_addName {other : String} : other ∈ addName ns n ↔ other ∈ ns ∨ other = n := by
  unfold addName
  split
  · next present =>
    rw [contains_iff_mem] at present
    constructor
    · exact .inl
    · rintro (mem | rfl)
      · exact mem
      · exact present
  · simp

theorem mem_addNames {tl : List String} : n ∈ addNames ns tl ↔ n ∈ ns ∨ n ∈ tl := by
  induction tl generalizing ns with
  | nil => simp [addNames]
  | cons fst r ih =>
    show n ∈ addNames (addName ns fst) r ↔ _
    rw [ih, mem_addName, mem_cons, or_assoc]

theorem addNames_eq (tl ns : List String) : addNames ns tl = ns ++ (tl.filter (· ∉ ns)).eraseDups := by
  induction tl generalizing ns with
  | nil => simp [addNames]
  | cons fst r ih =>
    show addNames (addName ns fst) r = _
    rw [ih, filter_cons]
    unfold addName
    by_cases present : fst ∈ ns
    · simp [present]
    · simp only [contains_eq_mem, present, decide_false, Bool.false_eq_true, if_false,
        not_false_eq_true, decide_true, if_true, eraseDups_cons, filter_filter,
        append_assoc, singleton_append]
      refine congrArg (fun r => ns ++ fst :: eraseDups r) (filter_congr fun n _ => ?_)
      by_cases eq : n = fst <;> simp [eq]

theorem addNames_nil (ns : List String) : addNames [] ns = ns.eraseDups := by
  rw [addNames_eq, filter_eq_self.2 fun _ _ => by simp, nil_append]

def namesOf (bindings : List Binding) (id : Nat) : List String :=
  (bindings.reverse.filter (·.scope == id)).map (·.name)

theorem mem_namesOf {bs : List Binding} : n ∈ namesOf bs id ↔ ⟨id, n⟩ ∈ bs := by
  unfold namesOf
  simp only [mem_map, mem_filter, mem_reverse, beq_iff_eq]
  constructor
  · rintro ⟨⟨s, n⟩, ⟨mem, rfl⟩, rfl⟩
    exact mem
  · intro mem
    exact ⟨⟨id, n⟩, ⟨mem, rfl⟩, rfl⟩

theorem namesOf_cons (b : Binding) (bs : List Binding) (id : Nat) :
    namesOf (b :: bs) id = namesOf bs id ++ if b.scope = id then [b.name] else [] := by
  unfold namesOf
  rw [reverse_cons, filter_append, map_append]
  congr 1
  by_cases eq : b.scope = id
  · simp [eq]
  · simp [eq]

theorem namesOf_declare (w : Walk) (frame : Frame) (outer : Chain) (n : String) (id : Nat) :
    namesOf (w.declare (frame :: outer) n).bindings id =
      if frame.id = id then addName (namesOf w.bindings id) n
      else namesOf w.bindings id := by
  unfold Walk.declare addName
  rw [head?_cons]
  dsimp only
  by_cases eq : frame.id = id
  · subst eq
    have contains : (namesOf w.bindings frame.id).contains n =
        w.bindings.contains ⟨frame.id, n⟩ := by
      rw [Bool.eq_iff_iff, contains_iff_mem, contains_iff_mem, mem_namesOf]
    rw [if_pos rfl, contains]
    split
    · rfl
    · rw [namesOf_cons, if_pos rfl]
  · rw [if_neg eq]
    split
    · rfl
    · rw [namesOf_cons, if_neg eq, append_nil]

/-! ## Uses and final bindings -/

def boundIn (bindings : List Binding) (name : String) (scope : Chain) : Bool :=
  scope.any fun frame => bindings.contains ⟨frame.id, name⟩

def unbound (bindings : List Binding) (uses : List Use) : List String :=
  (uses.reverse.filter fun use => !boundIn bindings use.name use.scope).map (·.name)

theorem unbound_append (bs : List Binding) (later earlier : List Use) :
    unbound bs (later ++ earlier) = unbound bs earlier ++ unbound bs later := by
  simp [unbound]

def leftOver (bindings : List Binding) (here : Chain) (names : List String) : List String :=
  names.filter fun name => !boundIn bindings name here

structure Notes where
  scopes : Nat
  bindings : List Binding
  uses : List Use
  awaits : Bool
  yields : Bool

def Walk.notes (walk : Walk) : Notes :=
  ⟨walk.scopes, walk.bindings, walk.uses, walk.awaits, walk.yields⟩

def target (here : Chain) (declared : Declared) : Option Frame :=
  (if declared.isVar then Chain.nearestFunction here else here).head?

def declaredIn (here : Chain) (ds : List Declared) (id : Nat) : List String :=
  (ds.filter fun declared => (target here declared).any (·.id == id)).map (·.name)

def AgreeOn (final bindings : List Binding) (first stop : Nat) : Prop :=
  ∀ id name, first ≤ id → id < stop → (⟨id, name⟩ ∈ final ↔ ⟨id, name⟩ ∈ bindings)

/-- What a stretch in the scope `here` adds, up to the token `stop`: it declares
`ds` around it, leaves the uses `free`, and `waits` outside all functions.  New
uses stand behind the old ones. -/
structure Effect (here : Chain) (p after : Notes) (stop : Nat) (ds : List Declared)
    (free : List String) (waits : Bool) : Prop where
  scopes : p.scopes ≤ after.scopes
  names : ∀ id < p.scopes,
    namesOf after.bindings id =
      addNames (namesOf p.bindings id) (declaredIn here ds id)
  uses : ∃ new, after.uses = new ++ p.uses ∧
    (∀ use ∈ new, use.token < stop ∧ ∀ old ∈ p.uses, old.token < use.token) ∧
    ∀ final, AgreeOn final after.bindings p.scopes after.scopes →
      unbound final new = leftOver final here free
  awaits : after.awaits = (p.awaits || (here.isOutermostFunction && waits))
  yields : after.yields = p.yields

/-- The scope exists, and its frames have been numbered. -/
structure Numbered (here : Chain) (scopes : Nat) : Prop where
  nonempty : here ≠ []
  below : ∀ frame ∈ here, frame.id < scopes

namespace Numbered

variable {here : Chain} {scopes : Nat}

theorem fresh (numbered : Numbered here scopes) (isFunction : Bool) :
    Numbered (⟨scopes, isFunction⟩ :: here) (scopes + 1) := by
  refine ⟨cons_ne_nil _ _, fun frame mem => ?_⟩
  rcases mem_cons.1 mem with rfl | mem
  · exact Nat.lt_succ_self _
  · exact Nat.lt_succ_of_lt (numbered.below frame mem)

theorem scopes_pos (numbered : Numbered here scopes) : 0 < scopes := by
  cases here with
  | nil => exact absurd rfl numbered.nonempty
  | cons frame outer =>
    exact Nat.lt_of_le_of_lt (Nat.zero_le _) (numbered.below frame mem_cons_self)

end Numbered

theorem mem_nearestFunction {frame : Frame} {chain : Chain}
    (mem : frame ∈ Chain.nearestFunction chain) : frame ∈ chain := by
  induction chain with
  | nil => exact mem
  | cons fst outer ih =>
    cases outer with
    | nil => exact mem
    | cons snd r =>
      unfold Chain.nearestFunction at mem
      split at mem
      · exact mem
      · exact mem_cons_of_mem _ (ih mem)

theorem declaredIn_of_le {here : Chain} {scopes : Nat} (numbered : Numbered here scopes) (ds : List Declared)
    (fresh : scopes ≤ id) : declaredIn here ds id = [] := by
  unfold declaredIn
  rw [map_eq_nil_iff, filter_eq_nil_iff]
  intro declared _ goes
  unfold target at goes
  obtain ⟨frame, top, eq⟩ := (Option.any_eq_true _ _).1 goes
  have mem : frame ∈ here := by
    split at top
    · exact mem_nearestFunction (mem_of_mem_head? top)
    · exact mem_of_mem_head? top
  have := numbered.below frame mem
  rw [beq_iff_eq] at eq
  omega

theorem declaredIn_append (here : Chain) (fst snd : List Declared) (id : Nat) :
    declaredIn here (fst ++ snd) id = declaredIn here fst id ++ declaredIn here snd id := by
  simp [declaredIn]

namespace Effect

variable {here : Chain} {p after : Notes} {stop : Nat} {ds : List Declared}
  {free : List String} {waits : Bool}

theorem refl (here : Chain) (notes : Notes) (stop : Nat) : Effect here notes notes stop [] [] false where
  scopes := Nat.le_refl _
  names := fun _ _ => rfl
  uses := ⟨[], rfl, (fun _ mem => nomatch mem), fun _ _ => rfl⟩
  awaits := by simp
  yields := rfl

/-- **One stretch after another.** -/
theorem trans {middle : Notes} {ds' : List Declared} {free' : List String} {waits' : Bool}
    (fst : Effect here p middle stop ds free waits) (snd : Effect here middle after stop' ds' free' waits')
    (forward : stop ≤ stop') (numbered : Numbered here p.scopes) :
    Effect here p after stop' (ds ++ ds') (free ++ free') (waits || waits') := by
  obtain ⟨new, uses, ts, judged⟩ := fst.uses
  obtain ⟨new', uses', ts', judged'⟩ := snd.uses
  have le := fst.scopes
  have le' := snd.scopes
  refine ⟨Nat.le_trans le le', fun id inside => ?_, ⟨new' ++ new, ?_, fun use mem => ?_,
    fun final agree => ?_⟩, ?_, snd.yields.trans fst.yields⟩
  · rw [snd.names id (by omega), fst.names id inside, declaredIn_append]
    exact foldl_append.symm
  · rw [uses', uses, append_assoc]
  · rcases mem_append.1 mem with mem | mem
    · obtain ⟨below, above⟩ := ts' use mem
      exact ⟨below, fun old earlier => above old (uses ▸ mem_append_right new earlier)⟩
    · obtain ⟨below, above⟩ := ts use mem
      exact ⟨Nat.lt_of_lt_of_le below forward, above⟩
  · -- the second stretch declares nothing in the scopes of the first
    have kept : AgreeOn final middle.bindings p.scopes middle.scopes := by
      intro id n old new
      have eq := snd.names id new
      rw [declaredIn_of_le numbered ds' old] at eq
      rw [agree id n old (by omega), ← mem_namesOf, ← mem_namesOf, eq]
      rfl
    rw [unbound_append, judged final kept, judged' final fun id n old new => agree id n (by omega) new]
    simp [leftOver]
  · rw [snd.awaits, fst.awaits, Bool.and_or_distrib_left, Bool.or_assoc]

theorem mono (effect : Effect here p after stop ds free waits)
    (forward : stop ≤ stop') : Effect here p after stop' ds free waits := by
  obtain ⟨new, uses, ts, judged⟩ := effect.uses
  exact { effect with
    uses := ⟨new, uses, fun use mem =>
      ⟨Nat.lt_of_lt_of_le (ts use mem).1 forward, (ts use mem).2⟩, judged⟩ }

theorem refer (here : Chain) (w : Walk) (n : String) {t : Nat} (inside : t < stop)
    (behind : ∀ use ∈ w.uses, use.token < t) :
    Effect here w.notes (w.refer n here t).notes stop [] [n] false where
  scopes := Nat.le_refl _
  names := fun _ _ => rfl
  uses := by
    refine ⟨[⟨n, here, t⟩], rfl, fun use mem => ?_, fun final _ => ?_⟩
    · rw [mem_singleton.1 mem]
      exact ⟨inside, behind⟩
    · show (filter _ [_]).map _ = [n].filter _
      rw [filter_cons, filter_nil, filter_cons, filter_nil]
      split <;> rfl
  awaits := by simp [Walk.notes, Walk.refer]
  yields := rfl

theorem wait (w : Walk) (stop : Nat) : Effect w.here w.notes (w.suspend true).notes stop [] [] true := by
  unfold Walk.suspend
  split
  · next outermost =>
    exact ⟨Nat.le_refl _, fun _ _ => rfl, ⟨[], rfl, (fun _ mem => nomatch mem),
      fun _ _ => rfl⟩, by simp [Walk.notes, outermost], rfl⟩
  · next inner =>
    exact ⟨Nat.le_refl _, fun _ _ => rfl, ⟨[], rfl, (fun _ mem => nomatch mem),
      fun _ _ => rfl⟩, by simp [Walk.notes, inner], rfl⟩

theorem declare (here : Chain) (w : Walk) (declared : Declared) (stop : Nat) :
    Effect here w.notes (w.declare (if declared.isVar then Chain.nearestFunction here
      else here) declared.name).notes stop [declared] [] false := by
  have eq : ∀ s, (w.declare s declared.name).scopes = w.scopes ∧
      (w.declare s declared.name).uses = w.uses ∧
      (w.declare s declared.name).awaits = w.awaits ∧
      (w.declare s declared.name).yields = w.yields := by
    intro s
    unfold Walk.declare
    repeat' split
    all_goals exact ⟨rfl, rfl, rfl, rfl⟩
  obtain ⟨scopes, uses, awaits, yields⟩ := eq (if declared.isVar then Chain.nearestFunction here else here)
  refine ⟨Nat.le_of_eq scopes.symm, fun id _ => ?_, ⟨[], uses, (fun _ mem => nomatch mem),
    fun _ _ => rfl⟩, ?_, yields⟩
  · unfold declaredIn target
    rw [filter_cons, filter_nil]
    show namesOf (w.declare _ _).bindings id = addNames (namesOf w.bindings id) _
    generalize (if declared.isVar then Chain.nearestFunction here else here) = s
    cases s with
    | nil => rfl
    | cons frame outer =>
      rw [namesOf_declare]
      by_cases own : frame.id = id
      · simp [own, addNames]
      · simp [own, addNames]
  · show (w.declare _ _).awaits = _
    rw [awaits, Bool.and_false, Bool.or_false]
    rfl

theorem declaredIn_fresh {scopes : Nat} (numbered : Numbered here scopes) (isFunction : Bool)
    (ds : List Declared) :
    declaredIn (⟨scopes, isFunction⟩ :: here) ds scopes =
        (if isFunction then ds.map (·.name) else lexical ds) ∧
      ∀ id < scopes, declaredIn (⟨scopes, isFunction⟩ :: here) ds id =
        declaredIn here (if isFunction then [] else hoisted ds) id := by
  have unfolded : Chain.nearestFunction (⟨scopes, isFunction⟩ :: here) =
      if isFunction then ⟨scopes, isFunction⟩ :: here else Chain.nearestFunction here := by
    cases here with
    | nil => exact absurd rfl numbered.nonempty
    | cons frame outer => rfl
  have toNearest : ∀ declared : Declared, target (⟨scopes, isFunction⟩ :: here) declared =
      if declared.isVar && !isFunction then (Chain.nearestFunction here).head?
      else some ⟨scopes, isFunction⟩ := by
    intro declared
    unfold target
    rw [unfolded]
    cases declared.isVar <;> cases isFunction <;> rfl
  have outside : (Chain.nearestFunction here).head?.any (·.id == scopes) = false := by
    cases top : (Chain.nearestFunction here).head? with
    | none => rfl
    | some frame =>
      have := numbered.below frame (mem_nearestFunction (mem_of_mem_head? top))
      simp only [Option.any_some, beq_eq_false_iff_ne]
      omega
  unfold declaredIn
  constructor
  · cases isFunction with
    | true =>
      rw [filter_eq_self.2 fun declared _ => by simp [toNearest]]
      rfl
    | false =>
      rw [if_neg Bool.false_ne_true, lexical]
      refine congrArg (List.map _) (filter_congr fun declared _ => ?_)
      rw [toNearest]
      cases declared.isVar with
      | true => simpa using outside
      | false => simp
  · intro id inside
    have other : scopes ≠ id := by omega
    cases isFunction with
    | true => simp [toNearest, other]
    | false =>
      rw [if_neg Bool.false_ne_true, hoisted, filter_filter]
      refine congrArg (List.map _) (filter_congr fun declared _ => ?_)
      rw [toNearest]
      cases isVar : declared.isVar with
      | true => simp [target, isVar]
      | false => simp [other]

/-- **A new scope around a stretch.**  It has the names `heads` from the start. -/
theorem scope {inner : Notes} {isFunction : Bool} {heads : List String}
    (effect : Effect (⟨p.scopes, isFunction⟩ :: here) inner after stop ds free waits)
    (scopes : inner.scopes = p.scopes + 1) (uses : inner.uses = p.uses) (awaits : inner.awaits = p.awaits)
    (yields : inner.yields = p.yields) (own : ∀ n, ⟨p.scopes, n⟩ ∈ inner.bindings ↔ n ∈ heads)
    (others : ∀ id < p.scopes, namesOf inner.bindings id = namesOf p.bindings id)
    (numbered : Numbered here p.scopes) :
    Effect here p after stop (if isFunction then [] else hoisted ds)
      (without (heads ++ if isFunction then ds.map (·.name) else lexical ds) free)
      (!isFunction && waits) := by
  obtain ⟨declaredHere, declaredAround⟩ := declaredIn_fresh numbered isFunction ds
  obtain ⟨new, newUses, ts, judged⟩ := effect.uses
  have le := effect.scopes
  rw [scopes] at le
  refine ⟨by omega, fun id inside => ?_, ⟨new, by rw [newUses, uses], uses ▸ ts,
    fun final agree => ?_⟩, ?_, effect.yields.trans yields⟩
  · rw [effect.names id (by omega), others id inside, declaredAround id inside]
  · have ns : ∀ n, final.contains ⟨p.scopes, n⟩ =
        decide (n ∈ heads ++ if isFunction then ds.map (·.name) else lexical ds) := by
      intro n
      rw [Bool.eq_iff_iff, contains_iff_mem, decide_eq_true_iff, mem_append,
        agree _ _ (Nat.le_refl _) (by omega), ← mem_namesOf,
        effect.names p.scopes (by omega), declaredHere, mem_addNames, mem_namesOf, own]
    rw [judged final fun id n fst => agree id n (by omega)]
    unfold leftOver without
    rw [filter_filter]
    refine filter_congr fun n _ => ?_
    show (!(final.contains ⟨p.scopes, n⟩ || boundIn final n here)) = _
    rw [ns, Bool.not_or, Bool.and_comm, decide_not]
  · have outermost : Chain.isOutermostFunction (⟨p.scopes, isFunction⟩ :: here) =
        (!isFunction && here.isOutermostFunction) := by
      have positive := numbered.scopes_pos
      cases here with
      | nil => exact absurd rfl numbered.nonempty
      | cons frame outer =>
        cases isFunction with
        | true =>
          show (p.scopes == 0) = false
          rw [beq_eq_false_iff_ne]
          omega
        | false => rfl
    rw [effect.awaits, awaits, outermost, Bool.and_comm (!isFunction), Bool.and_assoc]

end Effect

end Scope

end Bindery
