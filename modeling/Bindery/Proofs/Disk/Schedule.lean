/-
Proofs.Disk.Schedule -- jobs below one base, in any order

Each job fills the directory of a name of its own below a common base.  It may do nothing; else
it makes the directories above the base and then keeps to its directory (`Fills`).  The first job
that does anything makes the base for all of them (`runJobs_prepared`).  From then on every job
finds its own directory as it was before all of them, so in the end each directory holds what its
job makes of it alone, and nothing else has changed (`find?_runJobs`).
-/
import Bindery.Proofs.Disk.Region

namespace Bindery.FileTree

open List

def aboveOf (b : String) : List String :=
  Path.ancestors (Path.trimmed b)

theorem ready_of_aboveOf {b : String} {t : FileTree}
    (there : ∀ p ∈ aboveOf b, t.isDirectory p) : Ready b t := by
  obtain ⟨above, itself⟩ := ancestors_eq_cons (Path.trimmed b)
  refine ready_of_isDirectory (there _ ?_)
  rw [aboveOf, itself]
  exact mem_cons_self

section Schedule

variable {ε α ι : Type}

/-- A job that fills the directory of a name below a base.  Without a plan it does nothing but
fail; else it makes the directories above the base and then carries out its plan. -/
structure Fills (b n : String) (job : StateM FileTree (Except ε α))
    (plan : Option (StateM FileTree (Except ε α))) : Prop where
  idle : plan = none → ∀ t, ∃ error, job t = (.error error, t)
  confined : ∀ action, plan = some action → Confined b n action
  blocked : ∀ action, plan = some action → ∀ t error later,
    ensureAll (aboveOf b) t = (.error error, later) → ∃ error', job t = (.error error', later)
  starts : ∀ action, plan = some action → ∀ t later,
    ensureAll (aboveOf b) t = (.ok (), later) → Sim (job t) (action later)

def runJobs (job : ι → StateM FileTree (Except ε α)) (jobs : List ι) (t : FileTree) : FileTree :=
  jobs.foldl (fun t i => (job i t).2) t

variable {b : String} {n : ι → String} {job : ι → StateM FileTree (Except ε α)}
  {plan : ι → Option (StateM FileTree (Except ε α))} {jobs os : List ι} {t later : FileTree}

theorem runJobs_cons (i : ι) (jobs : List ι) (t : FileTree) :
    runJobs job (i :: jobs) t = runJobs job jobs (job i t).2 := rfl

variable (fills : ∀ i, Fills b (n i) (job i) (plan i))

include fills

theorem runJobs_of_idle (idle : ∀ i ∈ jobs, plan i = none) (t : FileTree) : runJobs job jobs t = t := by
  induction jobs with
  | nil => rfl
  | cons i jobs ih =>
    obtain ⟨error, failed⟩ := (fills i).idle (idle i mem_cons_self) t
    rw [runJobs_cons, failed]
    exact ih fun other mem => idle other (.tail _ mem)

/-- **The first job that does anything makes the base for all.** -/
theorem runJobs_prepared (active : ∃ i ∈ jobs, plan i ≠ none) (t : FileTree) :
    runJobs job jobs t = runJobs job jobs (ensureAll (aboveOf b) t).2 := by
  induction jobs with
  | nil =>
    obtain ⟨i, mem, -⟩ := active
    cases mem
  | cons i jobs ih =>
    rw [runJobs_cons, runJobs_cons]
    cases planned : plan i with
    | none =>
      obtain ⟨error, failed⟩ := (fills i).idle planned t
      obtain ⟨error', failed'⟩ := (fills i).idle planned (ensureAll (aboveOf b) t).2
      rw [failed, failed']
      obtain ⟨other, mem, busy⟩ := active
      rcases mem_cons.1 mem with rfl | mem
      · exact absurd planned busy
      · exact ih ⟨other, mem, busy⟩
    | some action =>
      rcases made : ensureAll (aboveOf b) t with ⟨outcome, later⟩
      cases outcome with
      | error error =>
        obtain ⟨_, failed⟩ := (fills i).blocked action planned t error later made
        obtain ⟨_, failed'⟩ := (fills i).blocked action planned later error later (ensureAll_of_error made)
        rw [failed, failed']
      | ok _ =>
        have again := ensureAll_of_isDirectory (isDirectory_of_ensureAll made)
        rw [((fills i).starts action planned t later made).2,
          ((fills i).starts action planned later later again).2]

theorem runJobs_of_blocked {error : DiskError} (blocked : ensureAll (aboveOf b) t = (.error error, t)) :
    runJobs job jobs t = t := by
  induction jobs with
  | nil => rfl
  | cons i jobs ih =>
    rw [runJobs_cons]
    cases planned : plan i with
    | none =>
      obtain ⟨_, failed⟩ := (fills i).idle planned t
      rw [failed]
      exact ih
    | some action =>
      obtain ⟨_, failed⟩ := (fills i).blocked action planned t error t blocked
      rw [failed]
      exact ih

section

variable (nodup : jobs.Pairwise fun i other => n i ≠ n other)
include nodup

/-- **Each directory holds what its job makes of it alone**, and nothing else has changed. -/
theorem find?_runJobs (there : ∀ p ∈ aboveOf b, t.isDirectory p) :
    (∀ i ∈ jobs, ∀ action, plan i = some action → ∀ loc, Region b (n i) loc →
      (runJobs job jobs t).find? loc = (action t).2.find? loc) ∧
    ∀ loc, (∀ i ∈ jobs, plan i ≠ none → ¬ Region b (n i) loc) →
      (runJobs job jobs t).find? loc = t.find? loc := by
  induction jobs generalizing t with
  | nil => exact ⟨nofun, fun _ _ => rfl⟩
  | cons fst jobs ih =>
    obtain ⟨apart, nodup⟩ := pairwise_cons.1 nodup
    rw [runJobs_cons]
    cases planned : plan fst with
    | none =>
      obtain ⟨_, failed⟩ := (fills fst).idle planned t
      rw [failed]
      obtain ⟨inside, outside⟩ := ih nodup there
      refine ⟨fun i mem action busy => ?_, fun loc away =>
        outside loc fun i mem => away i (.tail _ mem)⟩
      rcases mem_cons.1 mem with rfl | mem
      · cases planned.symm.trans busy
      · exact inside i mem action busy
    | some action =>
      have ready := ready_of_aboveOf there
      have first_tree : (job fst t).2 = (action t).2 :=
        ((fills fst).starts action planned t t (ensureAll_of_isDirectory there)).2
      obtain ⟨-, -, kept, grows⟩ := (fills fst).confined action planned t t ready ready fun _ _ => rfl
      rw [first_tree]
      obtain ⟨inside, outside⟩ := ih nodup fun p mem => grows.isDirectory (there p mem)
      refine ⟨fun i mem action' busy loc here => ?_, fun loc away => ?_⟩
      · rcases mem_cons.1 mem with rfl | mem
        · cases planned.symm.trans busy
          exact outside loc fun other mem' _ => not_region_of_ne (apart other mem') here
        · -- the directory of a later job is as it was
          have agree : Agree b (n i) t (action t).2 := fun other there =>
            kept other (not_region_of_ne (Ne.symm (apart i mem)) there)
          obtain ⟨-, eq, -⟩ := (fills i).confined action' busy t (action t).2 ready (ready.grows grows) agree
          rw [inside i mem action' busy loc here, eq loc here]
      · rw [outside loc fun i mem => away i (.tail _ mem)]
        exact kept loc (away fst mem_cons_self (by rw [planned]; nofun))

/-- **The order of the jobs does not matter.** -/
theorem runJobs_perm (eq : os.Perm jobs) (t : FileTree) : Same (runJobs job jobs t) (runJobs job os t) := by
  by_cases active : ∃ i ∈ jobs, plan i ≠ none
  · have active' : ∃ i ∈ os, plan i ≠ none := by
      simpa only [eq.mem_iff] using active
    have nodup' : os.Pairwise fun i other => n i ≠ n other :=
      eq.symm.pairwise nodup fun different => different.symm
    rw [runJobs_prepared fills active, runJobs_prepared fills active']
    rcases made : ensureAll (aboveOf b) t with ⟨outcome, later⟩
    cases outcome with
    | error error =>
      have again := ensureAll_of_error made
      rw [runJobs_of_blocked fills again, runJobs_of_blocked fills again]
      exact fun _ => rfl
    | ok _ =>
      have there := isDirectory_of_ensureAll made
      obtain ⟨inside, outside⟩ := find?_runJobs fills nodup there
      obtain ⟨inside', outside'⟩ := find?_runJobs fills nodup' there
      intro loc
      by_cases here : ∃ i ∈ jobs, plan i ≠ none ∧ Region b (n i) loc
      · obtain ⟨i, mem, busy, here⟩ := here
        obtain ⟨action, planned⟩ := Option.ne_none_iff_exists'.1 busy
        rw [inside i mem action planned loc here, inside' i (eq.mem_iff.2 mem) action planned loc here]
      · have away : ∀ i ∈ jobs, plan i ≠ none → ¬ Region b (n i) loc :=
          fun i mem busy region => here ⟨i, mem, busy, region⟩
        rw [outside loc away, outside' loc fun i mem => away i (eq.mem_iff.1 mem)]
  · have idle : ∀ i ∈ jobs, plan i = none := fun i mem =>
      Classical.byContradiction fun busy => active ⟨i, mem, busy⟩
    rw [runJobs_of_idle fills idle, runJobs_of_idle fills fun i mem => idle i (eq.mem_iff.1 mem)]
    exact fun _ => rfl

end

end Schedule

end Bindery.FileTree
