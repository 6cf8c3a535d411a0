/-
Proofs.Page.Appending -- what requests add to a page

Several mounts answer requests on one page, in any order, and may share a container.  Each
operation adds bindings to the mount that it is about; taken together these are the history of
a run.  The page grows by the elements that the history tells of and by nothing else: each of
them is new and stands at the end of its container (`Page.Grows`, `children_run`).
-/
import Bindery.Proofs.Page.Forest
import Bindery.Proofs.Page.Lifecycle

namespace Bindery

open List

/-! ## Histories -/

/-- The container and the element of a binding that was appended. -/
def MountBinding.appended? (container : ElementId) (binding : MountBinding) :
    Option (ElementId × ElementId) :=
  match binding.outcome with
  | .appended element => some (container, element)
  | .rendered _ | .evaluated | .suppressed => none

/-- The elements that went to a container, in the order of the requests. -/
def elementsIn (container : ElementId) (history : List (ElementId × ElementId)) : List ElementId :=
  (history.filter (·.1 == container)).map (·.2)

def Mount.appendedSince (mount : Mount) (known : Nat) : List (ElementId × ElementId) :=
  (mount.bindings.drop known).filterMap (·.appended? mount.container)

namespace Session

def mountOf? (session : Session) (name : String) : Option Mount :=
  (session.slots.find? name).bind (·.mount)

/-- How many bindings the mount of an operation had before; a new mount has none. -/
def known (session : Session) (operation : Operation) : Nat :=
  if operation.mounts operation.name then 0
  else (session.mountOf? operation.name).elim 0 (·.bindings.length)

/-- The bindings that an operation adds to its mount, as far as they were appended. -/
def added (session : Session) (operation : Operation) : List (ElementId × ElementId) :=
  ((session.act operation).mountOf? operation.name).elim []
    (·.appendedSince (session.known operation))

/-- The elements that are added, each with its parent. -/
def history (session : Session) : List Operation → List (ElementId × ElementId)
  | [] => []
  | operation :: rest => session.added operation ++ (session.act operation).history rest

end Session

/-! ## Pages that grow -/

/-- The later page is the earlier one with the elements of a history, each at the end of its
container. -/
structure Page.Grows (p later : Page) (history : List (ElementId × ElementId)) : Prop where
  faces : p.Extends later
  length : later.nodes.length = p.nodes.length + history.length
  fresh : history.map (·.2) = range' p.nodes.length history.length
  children : ∀ element, later.children element = p.children element ++ elementsIn element history

namespace Page.Grows

variable {p later last : Page} {fst snd : List (ElementId × ElementId)}

theorem refl (p : Page) : p.Grows p [] := ⟨prefix_rfl, rfl, rfl, fun _ => (append_nil _).symm⟩

theorem trans (grows : p.Grows later fst) (r : later.Grows last snd) : p.Grows last (fst ++ snd) := by
  refine ⟨grows.faces.trans r.faces, ?_, ?_, fun elem => ?_⟩
  · rw [r.length, grows.length, length_append, Nat.add_assoc]
  · rw [map_append, length_append, ← range'_append_1, ← grows.length, ← r.fresh, ← grows.fresh]
  · rw [r.children, grows.children, append_assoc, elementsIn, elementsIn, elementsIn,
      filter_append, map_append]

/-- **A request that is placed** adds what its binding tells. -/
theorem place {box : ElementId} (inside : box < p.nodes.length)
    (placement : Placement) (c : Option Nat) (out : Option String) :
    p.Grows (Mount.place p box placement).2
      ([MountBinding.mk c out (Mount.place p box placement).1.2].filterMap (·.appended? box)) := by
  cases placement with
  | append =>
    refine ⟨⟨_, (p.faces_append box).symm⟩, length_add .., rfl, fun elem => ?_⟩
    have allowed : ∀ par ∈ some box, par ≤ p.nodes.length := fun par mem => by
      cases mem
      exact Nat.le_of_lt inside
    refine (children_add { p with appended := p.appended + 1 } _ _ allowed elem).trans ?_
    refine congrArg (p.children elem ++ ·) ?_
    by_cases eq : box = elem
    · simp [elementsIn, MountBinding.appended?, eq, Mount.place, Page.append, nextId]
    · simp [elementsIn, MountBinding.appended?, eq, Mount.place]
  | renderAt _ | suppress | evaluate => exact refl p

end Page.Grows

/-! ## Mounts that go on -/

/-- A mount answers requests on a page, and the page grows by what it answers. -/
def Mount.Proceeds (mount : Mount) (p : Page) (next : Mount) (later : Page) : Prop :=
  next.container = mount.container ∧ ∃ bindings, next.bindings = mount.bindings ++ bindings ∧
    p.Grows later (bindings.filterMap (·.appended? mount.container))

namespace Mount

variable {mount next : Mount} {p later : Page}

theorem Proceeds.refl (mount : Mount) (p : Page) : mount.Proceeds p mount p :=
  ⟨rfl, [], (append_nil _).symm, .refl p⟩

theorem Proceeds.grows (proceeds : mount.Proceeds p next later) :
    p.Grows later (next.appendedSince mount.bindings.length) := by
  obtain ⟨eq, bs, r, grows⟩ := proceeds
  rwa [appendedSince, r, drop_left, eq]

variable (inside : mount.container < p.nodes.length)

include inside

theorem proceeds_select (q : Option String) :
    mount.Proceeds p (mount.select p q).2.1 (mount.select p q).2.2 := by
  cases q <;> exact ⟨rfl, [_], rfl, Page.Grows.place inside _ _ _⟩

theorem proceeds_observe (q : Option String) :
    mount.Proceeds p (mount.observe p q).2.1 (mount.observe p q).2.2 := by
  unfold Mount.observe
  split
  · exact proceeds_select inside q
  · exact .refl mount p

theorem proceeds_selectAll (requests : List (Option String)) :
    mount.Proceeds p (mount.selectAll p requests).2.1 (mount.selectAll p requests).2.2 := by
  induction requests generalizing mount p with
  | nil => exact .refl mount p
  | cons q r ih =>
    obtain ⟨eq, bs, more, grows⟩ := proceeds_select inside q
    have later : (mount.select p q).2.1.container <
        (mount.select p q).2.2.nodes.length := by
      rw [eq, grows.length]
      exact Nat.lt_add_right _ inside
    obtain ⟨eq', bs', more', grows'⟩ := ih later
    refine ⟨eq'.trans eq, bs ++ bs', ?_, ?_⟩
    · exact more'.trans (by rw [more, append_assoc])
    · rw [eq] at grows'
      rw [filterMap_append]
      exact grows.trans grows'

end Mount

/-! ## Sessions -/

theorem Page.lt_of_isConnected {p : Page} {elem : ElementId} (body : Page.body < p.nodes.length)
    (connected : p.isConnected elem) : elem < p.nodes.length := by
  refine Nat.lt_of_not_le fun outside => ?_
  rcases Relation.ReflTransGen.cases_head (Page.below_of_climbs connected) with rfl | ⟨par, below, -⟩
  · exact absurd body (Nat.not_lt.2 outside)
  · rw [Page.Below, Page.parent?_of_le outside] at below
    cases below

namespace Session

variable {session : Session}

/-- Every mount has its container on the page. -/
structure Housed (session : Session) : Prop where
  body : Page.body < session.page.nodes.length
  container : ∀ name mount, session.mountOf? name = some mount →
    mount.container < session.page.nodes.length

theorem mountOf?_setSlot (n : String) (slot : MountSlot) (other : String) :
    (session.setSlot n slot).mountOf? other = if other = n then slot.mount else session.mountOf? other := by
  rw [mountOf?, find?_setSlot]
  split <;> rfl

theorem mounted_cases (session : Session) (n : String) :
    (∃ missing, session.mounted n = .error missing ∧ session.mountOf? n = none) ∨
      ∃ slot mount, session.mounted n = .ok (slot, mount) ∧ session.mountOf? n = some mount ∧
        slot.mount = some mount := by
  unfold mountOf?
  cases got : session.slots.find? n with
  | none => exact .inl ⟨.slot, by simp only [mounted, slot, got], rfl⟩
  | some slot =>
    cases there : slot.mount with
    | none => exact .inl ⟨_, mounted_of_gone got there, there⟩
    | some mount => exact .inr ⟨slot, mount, mounted_of_some got there, there, there⟩

theorem mount_dispose (slot : MountSlot) :
    slot.dispose.mount = slot.mount.map fun mount => { mount with phase := .disposed } := by
  unfold MountSlot.dispose
  split
  · next mount there =>
    cases phase : mount.phase with
    | running => rw [there]; rfl
    | disposed => rw [there, Option.map_some, ← phase]
  · next gone => rw [gone]; rfl

/-- **What an operation does.**  The mount of its name is gone and the page is as it was, or the
mount has gone on.  The other mounts stay as they were. -/
theorem act_spec (housed : session.Housed) (op : Operation) :
    ∃ next : Option Mount,
      (∀ n, (session.act op).mountOf? n = if n = op.name then next else session.mountOf? n) ∧
      ((next = none ∧ (session.act op).page = session.page) ∨
        ∃ mount after : Mount, next = some after ∧ mount.bindings.length = session.known op ∧
          mount.container < session.page.nodes.length ∧
          mount.Proceeds session.page after (session.act op).page) := by
  have absent {n : String} (gone : session.mountOf? n = none) (other : String) :
      session.mountOf? other = if other = n then none else session.mountOf? other := by
    split
    · next eq => rw [eq, gone]
    · rfl
  cases op with
  | mount n box refusal module opts =>
    rcases session.mount_cases n box refusal module opts with
      ⟨⟨rfl, elem, rfl, connected⟩, -⟩ | ⟨-, error, runtime, failed, -⟩
    · have inside := Page.lt_of_isConnected housed.body connected
      simp only [act, Session.mount, Bindery.mount, connected, Bool.not_true, Bool.false_eq_true, if_false]
      refine ⟨_, mountOf?_setSlot n _, .inr ⟨⟨_, elem, [], .running⟩, _, rfl, ?_, inside,
        Mount.proceeds_selectAll inside _⟩⟩
      simp [known, Operation.mounts, Operation.name]
    · simp only [act, failed]
      exact ⟨_, mountOf?_setSlot n _, .inl ⟨rfl, rfl⟩⟩
  | observe n out =>
    simp only [act, Session.observe]
    rcases session.mounted_cases n with ⟨missing, got, gone⟩ | ⟨slot, mount, got, there, held⟩
    · rw [got]
      exact ⟨none, absent gone, .inl ⟨rfl, rfl⟩⟩
    · have inside := housed.container n mount there
      rw [got]
      refine ⟨_, mountOf?_setSlot n _, .inr ⟨mount, _, rfl, ?_, inside, Mount.proceeds_observe inside out⟩⟩
      simp [known, Operation.mounts, Operation.name, there]
  | dispose n =>
    simp only [act, Session.dispose]
    rcases session.mounted_cases n with ⟨missing, got, gone⟩ | ⟨slot, mount, got, there, held⟩
    · rw [got]
      exact ⟨none, absent gone, .inl ⟨rfl, rfl⟩⟩
    · rw [got]
      refine ⟨_, mountOf?_setSlot n _, .inr ⟨mount, { mount with phase := .disposed }, ?_, ?_,
        housed.container n mount there, rfl, [], (append_nil _).symm, .refl session.page⟩⟩
      · rw [mount_dispose, held, Option.map_some]
      · simp [known, Operation.mounts, Operation.name, there]
  | drop n =>
    simp only [act, Session.drop, slot]
    cases got : session.slots.find? n with
    | none =>
      have gone : session.mountOf? n = none := by rw [mountOf?, got]; rfl
      exact ⟨none, absent gone, .inl ⟨rfl, rfl⟩⟩
    | some slot => exact ⟨_, mountOf?_setSlot n _, .inl ⟨rfl, rfl⟩⟩

/-- **One operation** adds to the page what it adds to its mount, and no more. -/
theorem Housed.act (housed : session.Housed) (op : Operation) :
    session.page.Grows (session.act op).page (session.added op) ∧ (session.act op).Housed := by
  obtain ⟨next, mounts, step⟩ := act_spec housed op
  have grows : session.page.Grows (session.act op).page (session.added op) := by
    rw [added, mounts, if_pos rfl]
    rcases step with ⟨rfl, eq⟩ | ⟨mount, after, rfl, count, -, proceeds⟩
    · exact eq ▸ .refl _
    · exact count ▸ proceeds.grows
  have longer := grows.length ▸ Nat.le_add_right session.page.nodes.length _
  refine ⟨grows, Nat.lt_of_lt_of_le housed.body longer, fun n mount there => ?_⟩
  rw [mounts] at there
  split at there
  · rcases step with ⟨rfl, -⟩ | ⟨prev, after, rfl, -, inside, proceeds⟩
    · cases there
    · cases there
      exact proceeds.1 ▸ Nat.lt_of_lt_of_le inside longer
  · exact Nat.lt_of_lt_of_le (housed.container n mount there) longer

/-- **A run** adds to the page what its history tells. -/
theorem Housed.run (housed : session.Housed) (operations : List Operation) :
    session.page.Grows (session.run operations).page (session.history operations) := by
  induction operations generalizing session with
  | nil => exact .refl _
  | cons op r ih =>
    obtain ⟨grows, housed⟩ := housed.act op
    exact grows.trans (ih housed)

end Session

/-- **Appending keeps the order of the requests and touches nothing else.**  On a page with a body,
any mounts whose containers are attached go on and further modules are mounted, in any order.  The
children of every element are those it had, followed by the elements that were appended to it, in
the order of the requests over all mounts.  These elements are new and distinct, the page has no
other new elements, and every element of before keeps its parent, its cell name and its label. -/
theorem children_run (session : Session) (body : Page.body < session.page.nodes.length)
    (connected : ∀ name mount, session.mountOf? name = some mount →
      session.page.isConnected mount.container = true) (operations : List Operation) :
    let last := (session.run operations).page
    let history := session.history operations
    (∀ element, last.children element =
      session.page.children element ++ elementsIn element history) ∧
    (history.map (·.2)).Nodup ∧
    (∀ element ∈ history.map (·.2), session.page.nodes.length ≤ element) ∧
    last.nodes.length = session.page.nodes.length + history.length ∧
    session.page.Extends last := by
  intro last history
  have housed : session.Housed :=
    ⟨body, fun name mount there => Page.lt_of_isConnected body (connected name mount there)⟩
  have grows : session.page.Grows last history := housed.run operations
  refine ⟨grows.children, ?_, fun element member => ?_, grows.length, grows.faces⟩
  · rw [grows.fresh]
    exact nodup_range'
  · rw [grows.fresh] at member
    exact (mem_range'_1.1 member).1

/-- Two modules share the body, the second answers a late request of its own between two of the
first, and a target stands in front. -/
theorem children_run_shared :
    let module : Module := ⟨"demo", [⟨0, ["a"], [], "return 1;", .single, false, false⟩], []⟩
    let session : Session := ⟨(Page.empty.target "b").2, []⟩
    let operations : List Operation :=
      [.mount "x" (some Page.body) none module ⟨[], true, false⟩,
        .mount "y" (some Page.body) none module ⟨[], true, false⟩,
        .observe "x" (some "c"), .dispose "x", .observe "y" none, .observe "x" none]
    (Page.body < session.page.nodes.length ∧ (∀ name mount, session.mountOf? name = some mount →
      session.page.isConnected mount.container = true)) ∧
    (session.run operations).page.children Page.body = [1, 2, 3, 4, 5] ∧
    (session.history operations).map (·.2) = [2, 3, 4, 5] := by
  intro module session operations
  have none : ∀ name mount, session.mountOf? name = some mount →
      session.page.isConnected mount.container = true := fun _ _ absurd => by cases absurd
  have known : elementsIn Page.body (session.history operations) = [2, 3, 4, 5] ∧
      (session.history operations).map (·.2) = [2, 3, 4, 5] := by decide +kernel
  obtain ⟨children, -⟩ := children_run session (by decide) none operations
  exact ⟨⟨by decide, none⟩, by rw [children, known.1]; rfl, known.2⟩

end Bindery
