/-
Proofs.Page.Lifecycle -- how often the runtime of a mount is disposed of

A session goes on by operations: modules are mounted, requests are made, mounts are disposed of
and dropped, in any order and under any names.  A mount is followed from the attempt that made
it for as long as its name is not used for another one.
-/
import Bindery.Page.Session
import Bindery.Proofs.Table

namespace Bindery

open List Option Session

/-! ## Operations -/

/-- A step of a session.  A module is mounted with a new runtime, which may refuse it. -/
inductive Operation where
  | mount (name : String) (container : Option ElementId) (refusal : Option String)
      (module : Module) (options : MountOptions)
  | observe (name : String) (output : Option String)
  | dispose (name : String)
  | drop (name : String)

namespace Operation

def name : Operation → String
  | .mount name _ _ _ _ | .observe name _ | .dispose name | .drop name => name

def mounts (name : String) : Operation → Bool
  | .mount used _ _ _ _ => used == name
  | .observe _ _ | .dispose _ | .drop _ => false

def drops (name : String) : Operation → Bool
  | .drop used => used == name
  | .mount _ _ _ _ _ | .observe _ _ | .dispose _ => false

def releases (name : String) : Operation → Bool
  | .dispose used | .drop used => used == name
  | .mount _ _ _ _ _ | .observe _ _ => false

variable {operations : List Operation}

theorem any_drops {name : String} : operations.any (·.drops name) ↔ .drop name ∈ operations := by
  refine any_eq_true.trans ⟨?_, fun mem => ⟨_, mem, beq_self_eq_true name⟩⟩
  rintro ⟨operation, mem, drops⟩
  cases operation with
  | drop used => exact eq_of_beq drops ▸ mem
  | mount _ _ _ _ _ | observe _ _ | dispose _ => cases drops

theorem any_releases {name : String} :
    operations.any (·.releases name) ↔ .dispose name ∈ operations ∨ .drop name ∈ operations := by
  constructor
  · intro released
    obtain ⟨operation, mem, releases⟩ := any_eq_true.1 released
    cases operation with
    | dispose used => exact .inl (eq_of_beq releases ▸ mem)
    | drop used => exact .inr (eq_of_beq releases ▸ mem)
    | mount _ _ _ _ _ | observe _ _ => cases releases
  · rintro (mem | mem) <;> exact any_eq_true.2 ⟨_, mem, beq_self_eq_true name⟩

end Operation

namespace Mount

variable (mount : Mount) (page : Page)

theorem phase_select (out : Option String) : (mount.select page out).2.1.phase = mount.phase := by
  cases out <;> rfl

theorem phase_observe (out : Option String) : (mount.observe page out).2.1.phase = mount.phase := by
  unfold Mount.observe
  split
  · exact mount.phase_select page out
  · rfl

theorem phase_selectAll (requests : List (Option String)) :
    (mount.selectAll page requests).2.1.phase = mount.phase := by
  induction requests generalizing mount page with
  | nil => rfl
  | cons q r ih => exact (ih _ _).trans (mount.phase_select page q)

end Mount

namespace Session

def act (s : Session) : Operation → Session
  | .mount name container refusal module options =>
    (s.mount name container { refusal := refusal } module options).2
  | .observe name output =>
    match s.observe name output with
    | .ok (_, next) => next
    | .error _ => s
  | .dispose name =>
    match s.dispose name with
    | .ok next => next
    | .error _ => s
  | .drop name =>
    match s.drop name with
    | .ok next => next
    | .error _ => s

def run (s : Session) (operations : List Operation) : Session :=
  operations.foldl act s

variable {s : Session} {name other : String} {slot : MountSlot}

theorem find?_setSlot :
    (s.setSlot name slot).slots.find? other = if other = name then some slot else s.slots.find? other :=
  Table.find?_insert

theorem slot_eq_ok : s.slot name = .ok slot ↔ s.slots.find? name = some slot := by
  unfold Session.slot
  split <;> simp_all

theorem mounted_of_some {mount : Mount} (found : s.slots.find? name = some slot)
    (there : slot.mount = some mount) : s.mounted name = .ok (slot, mount) := by
  simp only [mounted, Session.slot, found, there]

theorem mounted_of_gone (found : s.slots.find? name = some slot) (gone : slot.mount = none) :
    s.mounted name = .error .mount := by
  simp only [mounted, Session.slot, found, gone]

/-! ## One operation

An operation leaves the slots of other names alone.  What it does to the slot of its own name is
an equation for each kind of operation, also where there is no mount any more. -/

variable {operation : Operation}

theorem slots_act (s : Session) (operation : Operation) :
    (s.act operation).slots = s.slots ∨
      ∃ slot, (s.act operation).slots = s.slots.insert operation.name slot := by
  cases operation with
  | mount name container refusal module options =>
    simp only [act, mount]
    cases (Bindery.mount s.page container { refusal := refusal } module options).result <;>
      exact .inr ⟨_, rfl⟩
  | observe name out =>
    simp only [act, observe]
    cases s.mounted name with
    | error missing => exact .inl rfl
    | ok found => exact .inr ⟨_, rfl⟩
  | dispose name =>
    simp only [act, dispose]
    cases s.mounted name with
    | error missing => exact .inl rfl
    | ok found => exact .inr ⟨_, rfl⟩
  | drop name =>
    simp only [act, drop]
    cases s.slot name with
    | error missing => exact .inl rfl
    | ok found => exact .inr ⟨_, rfl⟩

theorem find?_act_of_ne (different : operation.name ≠ name) :
    (s.act operation).slots.find? name = s.slots.find? name := by
  obtain eq | ⟨slot, eq⟩ := s.slots_act operation
  · rw [eq]
  · rw [eq, Table.find?_insert, if_neg (Ne.symm different)]

section Own

variable (found : s.slots.find? name = some slot)

include found

theorem find?_act_observe (out : Option String) :
    (s.act (.observe name out)).slots.find? name =
      some { slot with mount := slot.mount.map fun mount => (mount.observe s.page out).2.1 } := by
  cases there : slot.mount with
  | none =>
    simp only [act, observe, mounted_of_gone found there, map_none]
    rw [found, ← there]
  | some mount =>
    simp only [act, observe, mounted_of_some found there, map_some]
    exact find?_setSlot.trans (if_pos rfl)

theorem find?_act_dispose : (s.act (.dispose name)).slots.find? name = some slot.dispose := by
  cases there : slot.mount with
  | none =>
    simp only [act, dispose, mounted_of_gone found there, MountSlot.dispose, there]
    exact found
  | some mount =>
    simp only [act, dispose, mounted_of_some found there]
    exact find?_setSlot.trans (if_pos rfl)

theorem find?_act_drop : (s.act (.drop name)).slots.find? name = some slot.drop := by
  simp only [act, Session.drop, Session.slot, found]
  exact find?_setSlot.trans (if_pos rfl)

end Own

/-- **What an operation does to a slot**, as long as the name is not used for a new mount. -/
theorem act_cases (found : s.slots.find? name = some slot) (kept : operation.mounts name = false) :
    ∃ next, (s.act operation).slots.find? name = some next ∧
      ((operation.releases name = false ∧ operation.drops name = false ∧
          next.runtime = slot.runtime ∧ next.mount.map (·.phase) = slot.mount.map (·.phase)) ∨
        (operation.releases name ∧ operation.drops name = false ∧ next = slot.dispose) ∨
        (operation.releases name ∧ operation.drops name ∧ next = slot.drop)) := by
  by_cases own : operation.name = name
  · cases operation with
    | mount used container refusal module options => exact absurd own (ne_of_beq_false kept)
    | observe used out =>
      cases own
      refine ⟨_, find?_act_observe found out, .inl ⟨rfl, rfl, rfl, ?_⟩⟩
      rw [Option.map_map]
      exact Option.map_congr fun mount _ => mount.phase_observe s.page out
    | dispose used =>
      cases own
      exact ⟨_, find?_act_dispose found, .inr (.inl ⟨beq_self_eq_true _, rfl, rfl⟩)⟩
    | drop used =>
      cases own
      exact ⟨_, find?_act_drop found, .inr (.inr ⟨beq_self_eq_true _, beq_self_eq_true _, rfl⟩)⟩
  · have away := beq_false_of_ne own
    refine ⟨slot, (find?_act_of_ne own).trans found, .inl ⟨?_, ?_, rfl, rfl⟩⟩
    · cases operation <;> first | rfl | exact away
    · cases operation <;> first | rfl | exact away

end Session

/-! ## A slot without a mount -/

section Gone

variable {slot : MountSlot} (gone : slot.mount = none)

include gone

theorem MountSlot.dispose_of_gone : slot.dispose = slot := by
  rw [MountSlot.dispose, gone]

theorem MountSlot.drop_of_gone : slot.drop = slot := by
  rw [MountSlot.drop, dispose_of_gone gone, ← gone]

variable {s : Session} {name : String} (found : s.slots.find? name = some slot)

include found

theorem Session.find?_act_of_gone {operation : Operation} (kept : operation.mounts name = false) :
    (s.act operation).slots.find? name = some slot := by
  obtain ⟨next, there, step⟩ := act_cases found kept
  rw [there, some_inj]
  obtain ⟨-, -, runtimes, phases⟩ | ⟨-, -, rfl⟩ | ⟨-, -, rfl⟩ := step
  · obtain ⟨runtime, mount⟩ := next
    rw [gone, map_none, map_eq_none_iff] at phases
    cases runtimes
    cases phases
    rw [← gone]
  · exact MountSlot.dispose_of_gone gone
  · exact MountSlot.drop_of_gone gone

/-- **A slot without a mount stays as it is.** -/
theorem Session.find?_run_of_gone {operations : List Operation}
    (kept : ∀ operation ∈ operations, operation.mounts name = false) :
    (s.run operations).slots.find? name = some slot := by
  induction operations generalizing s with
  | nil => exact found
  | cons operation r ih =>
    exact ih (find?_act_of_gone gone found (kept operation mem_cons_self))
      fun other mem => kept other (.tail _ mem)

end Gone

/-! ## A slot with a mount -/

/-- A slot in which a module was mounted with a runtime: the runtime was disposed of once if the
mount was released, and the mount is there as long as it was not dropped. -/
structure Held (runtime : Runtime) (released dropped : Bool) (slot : MountSlot) : Prop where
  runtime_eq : slot.runtime = if released then runtime.dispose else runtime
  phase_eq : slot.mount.map (·.phase) =
    if dropped then none else some (if released then .disposed else .running)
  released_of_dropped : dropped = true → released = true

namespace Held

variable {runtime : Runtime} {released dropped : Bool} {slot : MountSlot}
  (held : Held runtime released dropped slot)

include held

theorem dispose : Held runtime true dropped slot.dispose := by
  obtain ⟨runtimes, phases, order⟩ := held
  obtain ⟨used, mount⟩ := slot
  cases dropped with
  | true =>
    cases order rfl
    cases mount with
    | none => exact ⟨runtimes, rfl, fun _ => rfl⟩
    | some mount => cases phases
  | false =>
    cases mount with
    | none => cases phases
    | some mount =>
      have phase := some.inj phases
      cases released with
      | true =>
        simp only [MountSlot.dispose, show mount.phase = .disposed from phase]
        exact ⟨runtimes, phases, fun _ => rfl⟩
      | false =>
        simp only [MountSlot.dispose, show mount.phase = .running from phase]
        exact ⟨congrArg Runtime.dispose runtimes, rfl, fun _ => rfl⟩

theorem drop : Held runtime true true slot.drop := ⟨held.dispose.runtime_eq, rfl, fun _ => rfl⟩

theorem mount_eq_none_iff : slot.mount = none ↔ dropped := by
  rw [← map_eq_none_iff, held.phase_eq]
  cases dropped <;> simp

theorem phase_of_mount {mount : Mount} (there : slot.mount = some mount) :
    dropped = false ∧ mount.phase = if released then .disposed else .running := by
  have phases := held.phase_eq
  rw [there, map_some] at phases
  cases dropped with
  | true => cases phases
  | false => exact ⟨rfl, some.inj phases⟩

variable {s : Session} {name : String}

theorem act (found : s.slots.find? name = some slot)
    {operation : Operation} (kept : operation.mounts name = false) :
    ∃ next, (s.act operation).slots.find? name = some next ∧
      Held runtime (released || operation.releases name) (dropped || operation.drops name) next := by
  obtain ⟨next, there, step⟩ := act_cases found kept
  refine ⟨next, there, ?_⟩
  obtain ⟨stays, kept, runtimes, phases⟩ | ⟨leaves, kept, rfl⟩ | ⟨leaves, taken, rfl⟩ := step
  · rw [stays, kept, Bool.or_false, Bool.or_false]
    exact ⟨runtimes.trans held.runtime_eq, phases.trans held.phase_eq, held.released_of_dropped⟩
  · rw [leaves, kept, Bool.or_true, Bool.or_false]
    exact held.dispose
  · rw [leaves, taken, Bool.or_true, Bool.or_true]
    exact held.drop

/-- **A mount is released by the operations that dispose of it or drop it**, and its runtime is
disposed of with it, once. -/
theorem run (found : s.slots.find? name = some slot)
    {operations : List Operation} (kept : ∀ operation ∈ operations, operation.mounts name = false) :
    ∃ next, (s.run operations).slots.find? name = some next ∧
      Held runtime (released || operations.any (·.releases name))
        (dropped || operations.any (·.drops name)) next := by
  induction operations generalizing s released dropped slot with
  | nil =>
    refine ⟨slot, found, ?_⟩
    rwa [any_nil, any_nil, Bool.or_false, Bool.or_false]
  | cons operation r ih =>
    obtain ⟨next, there, held⟩ := held.act found (kept operation mem_cons_self)
    rw [any_cons, any_cons, ← Bool.or_assoc, ← Bool.or_assoc]
    exact ih held there fun other mem => kept other (.tail _ mem)

end Held

/-! ## Requests to a mount that was disposed of -/

namespace Session

variable {s : Session}

section

variable (ascending : s.slots.Ascending)
include ascending

theorem ascending_act (operation : Operation) : (s.act operation).slots.Ascending := by
  obtain eq | ⟨slot, eq⟩ := s.slots_act operation
  · rwa [eq]
  · rw [eq]
    exact Table.Ascending.insert ascending _ _

theorem ascending_run (operations : List Operation) : (s.run operations).slots.Ascending := by
  induction operations generalizing s with
  | nil => exact ascending
  | cons operation r ih => exact ih (ascending_act ascending operation)

theorem observe_of_disposed {name : String} {slot : MountSlot} {mount : Mount}
    (found : s.slots.find? name = some slot) (there : slot.mount = some mount)
    (disposed : mount.phase = .disposed) (out : Option String) : s.observe name out = .ok (.suppress, s) := by
  simp only [observe, mounted_of_some found there, Mount.observe, disposed]
  rw [← there]
  simp only [setSlot, Table.Ascending.insert_of_find? ascending found]

end

end Session

/-! ## Attempts -/

section Attempt

variable (s : Session) (name : String) (container : Option ElementId) (refusal : Option String)
  (module : Module) (options : MountOptions)

/-- Nothing is refused, and the container is on the page. -/
def Mountable (page : Page) : Prop :=
  refusal = none ∧ ∃ element, container = some element ∧ page.isConnected element = true

/-- **What an attempt to mount a module comes to.**  One that fails puts its runtime into the
slot of the name and changes nothing else. -/
theorem Session.mount_cases :
    (Mountable container refusal s.page ∧
      (s.mount name container { refusal := refusal } module options).1 = none ∧
      ∃ slot, (s.mount name container { refusal := refusal } module options).2.slots.find? name =
        some slot ∧ slot.runtime.disposals = 0 ∧ Held slot.runtime false false slot) ∨
    (¬ Mountable container refusal s.page ∧ ∃ error runtime,
      s.mount name container { refusal := refusal } module options =
        (some error, s.setSlot name ⟨runtime, none⟩) ∧
      ((error = .missingContainer ∨ error = .detachedContainer) ∧ runtime = { refusal := refusal } ∨
        (∃ reason, error = .refused reason) ∧ runtime = { refusal := refusal, disposals := 1 })) := by
  cases container with
  | none =>
    refine .inr ⟨?_, _, _, rfl, .inl ⟨.inl rfl, rfl⟩⟩
    rintro ⟨-, elem, there, -⟩
    cases there
  | some elem =>
    cases connected : s.page.isConnected elem with
    | false =>
      refine .inr ⟨?_, .detachedContainer, { refusal := refusal }, ?_, .inl ⟨.inr rfl, rfl⟩⟩
      · rintro ⟨-, elem, there, attached⟩
        cases there
        exact Bool.false_ne_true (connected.symm.trans attached)
      · simp [mount, Bindery.mount, connected]
    | true =>
      cases refusal with
      | some reason =>
        refine .inr ⟨fun mountable => some_ne_none _ mountable.1, .refused reason,
          { refusal := some reason, disposals := 1 }, ?_, .inr ⟨⟨reason, rfl⟩, rfl⟩⟩
        simp [mount, Bindery.mount, connected, Runtime.dispose]
      | none =>
        refine .inl ⟨⟨rfl, elem, rfl, connected⟩, by simp [mount, Bindery.mount, connected], ?_⟩
        simp only [mount, Bindery.mount, connected, Bool.not_true, Bool.false_eq_true, if_false,
          find?_setSlot, if_true]
        exact ⟨_, rfl, rfl, rfl, congrArg some (Mount.phase_selectAll _ _ _), Bool.noConfusion⟩

end Attempt

/-- **The runtime of a mount is disposed of once, when the mount is.**  After any operations on a
page a module is mounted, and any operations follow that leave the name to this mount.

If the module was mounted, its runtime was disposed of exactly once if the mount was disposed of
or dropped, and never otherwise; a request to the mount after that is suppressed and leaves the
whole session as it is.  If it was not, the page and every other mount are as before; the runtime
made no request, and it was disposed of once if it refused the module, and never for want of a
container. -/
theorem disposals_run (page : Page) (before : List Operation) (name : String)
    (container : Option ElementId) (refusal : Option String) (module : Module) (options : MountOptions)
    (after : List Operation) (kept : ∀ operation ∈ after, operation.mounts name = false) :
    let start := Session.run ⟨page, []⟩ before
    let attempt := start.mount name container { refusal := refusal } module options
    let last := attempt.2.run after
    (attempt.1 = none ↔ Mountable container refusal start.page) ∧
    (attempt.1 = none → ∃ slot, last.slot name = .ok slot ∧
      slot.runtime.disposals = (if after.any (·.releases name) then 1 else 0) ∧
      (slot.mount = none ↔ Operation.drop name ∈ after) ∧
      ∀ mount ∈ slot.mount, (mount.phase = .disposed ↔ Operation.dispose name ∈ after) ∧
        (Operation.dispose name ∈ after → ∀ output, last.observe name output = .ok (.suppress, last))) ∧
    ∀ error, attempt.1 = some error →
      attempt.2.page = start.page ∧ (∀ other, other ≠ name → attempt.2.slot other = start.slot other) ∧
      ((error = .missingContainer ∨ error = .detachedContainer) ∧
          last.slot name = .ok ⟨{ calls := [], disposals := 0, refusal := refusal }, none⟩ ∨
        (∃ reason, error = .refused reason) ∧
          last.slot name = .ok ⟨{ calls := [], disposals := 1, refusal := refusal }, none⟩) := by
  intro start attempt last
  have ascending : last.slots.Ascending := by
    have empty : Table.Ascending (Session.mk page []).slots := List.Pairwise.nil
    exact Session.ascending_run (Session.ascending_act (Session.ascending_run empty before)
      (.mount name container refusal module options)) after
  obtain ⟨mountable, mounted, slot, found, unused, held⟩ | ⟨unmountable, error, runtime, failed, cause⟩ :=
    start.mount_cases name container refusal module options
  · refine ⟨⟨fun _ => mountable, fun _ => mounted⟩, fun _ => ?_,
      fun error failed => absurd (failed.symm.trans mounted) (Option.some_ne_none error)⟩
    obtain ⟨next, there, held⟩ := held.run found kept
    rw [Bool.false_or, Bool.false_or] at held
    refine ⟨next, Session.slot_eq_ok.2 there, ?_, held.mount_eq_none_iff.trans Operation.any_drops,
      fun mount running => ?_⟩
    · rw [held.runtime_eq]
      split <;> simp [Runtime.dispose, unused]
    · obtain ⟨undropped, phase⟩ := held.phase_of_mount running
      have released : after.any (·.releases name) = true ↔ .dispose name ∈ after := by
        rw [Operation.any_releases, ← Operation.any_drops, undropped]
        simp
      have disposed : mount.phase = .disposed ↔ .dispose name ∈ after := by
        rw [← released, phase]
        cases after.any (·.releases name) <;> simp
      exact ⟨disposed, fun member =>
        Session.observe_of_disposed ascending there running (disposed.2 member)⟩
  · have failure : attempt = (some error, start.setSlot name ⟨runtime, none⟩) := failed
    have gone : last.slot name = .ok ⟨runtime, none⟩ := by
      refine Session.slot_eq_ok.2 (Session.find?_run_of_gone rfl ?_ kept)
      rw [failure]
      exact Session.find?_setSlot.trans (if_pos rfl)
    have unmounted : attempt.1 ≠ none := by
      rw [failure]
      exact Option.some_ne_none error
    refine ⟨⟨fun mounted => absurd mounted unmounted, fun mountable => absurd mountable unmountable⟩,
      fun mounted => absurd mounted unmounted, fun _ occurred => ?_⟩
    rw [failure] at occurred
    cases occurred
    rw [failure, gone]
    refine ⟨rfl, fun other different => ?_, cause.imp (And.imp_right ?_) (And.imp_right ?_)⟩
    · simp only [Session.slot, Session.find?_setSlot, if_neg different]
    · rintro rfl
      rfl
    · rintro rfl
      rfl

/-- Three modules are mounted.  The first is refused; the second is disposed of and asked again,
and then dropped, while the third runs. -/
theorem disposals_run_interleaved :
    let module : Module := ⟨"demo", [⟨0, ["a"], [], "return 1;", .single, false, false⟩], []⟩
    let start := Session.run ⟨Page.empty, []⟩ [.mount "x" (some Page.body) (some "no") module {}]
    let attempt := start.mount "y" (some Page.body) {} module {}
    let after : List Operation :=
      [.mount "z" (some Page.body) none module {}, .dispose "y", .observe "y" none, .observe "z" none]
    let ended := after ++ [.drop "y", .dispose "y"]
    (∀ operation ∈ ended, operation.mounts "y" = false) ∧
      (∃ slot, (attempt.2.run after).slot "y" = .ok slot ∧ slot.runtime.disposals = 1 ∧ slot.mount ≠ none) ∧
      ∃ slot, (attempt.2.run ended).slot "y" = .ok slot ∧ slot.runtime.disposals = 1 ∧ slot.mount = none := by
  intro module start attempt after ended
  have kept : ∀ operation ∈ ended, operation.mounts "y" = false := by
    intro operation member
    simp only [ended, after, List.cons_append, List.nil_append, List.mem_cons, List.not_mem_nil, or_false] at member
    rcases member with rfl | rfl | rfl | rfl | rfl | rfl <;> decide
  have mountable : Mountable (some Page.body) none start.page := ⟨rfl, Page.body, rfl, by decide +kernel⟩
  have first := disposals_run Page.empty [.mount "x" (some Page.body) (some "no") module {}] "y"
    (some Page.body) none module {} after fun operation member => kept operation (List.mem_append_left _ member)
  have second := disposals_run Page.empty [.mount "x" (some Page.body) (some "no") module {}] "y"
    (some Page.body) none module {} ended kept
  obtain ⟨slot, found, once, dropped, -⟩ := first.2.1 (first.1.2 mountable)
  obtain ⟨next, there, still, taken, -⟩ := second.2.1 (second.1.2 mountable)
  have undropped : Operation.drop "y" ∉ after := by
    intro member
    cases Operation.any_drops.2 member
  exact ⟨kept, ⟨slot, found, once, fun gone => undropped (dropped.1 gone)⟩,
    next, there, still, taken.2 (List.mem_append_right _ List.mem_cons_self)⟩

end Bindery
