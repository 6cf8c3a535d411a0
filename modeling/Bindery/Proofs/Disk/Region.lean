/-
Proofs.Disk.Region -- actions that keep to one directory

Below a base that is there, a path into the directory of a name is followed inside that
directory (`resolve_inside`).  An action on such paths neither sees nor changes anything else
(`Confined`), and neither does one that is put together from others (`Confined.bind`).
-/
import Bindery.Proofs.Disk.Ancestors

namespace Bindery.FileTree

open List

variable {b n : String} {t : FileTree} {loc : Location}

/-! ## Paths into a directory -/

structure Ready (b : String) (t : FileTree) : Prop where
  leads : t.walk [] (Path.names b) = .ok (Path.target b)
  directory : t.find? (Path.target b) = some .directory

theorem Ready.grows {later : FileTree} (ready : Ready b t) (grows : Grows t later) : Ready b later :=
  ⟨grows.walk ready.leads, grows _ ready.directory⟩

theorem walk_dots (dir : t.find? loc = some .directory) (count : Nat) :
    t.walk loc (replicate count ".") = .ok loc := by
  induction count with
  | zero => rfl
  | succ count ih =>
    rw [replicate_succ, walk]
    simpa [step, dir] using ih

theorem ready_of_isDirectory (there : t.isDirectory (Path.trimmed b)) : Ready b t := by
  obtain ⟨loc, leads, dir⟩ := isDirectory_iff.1 there
  obtain ⟨count, ns⟩ := Path.names_trimmed b
  obtain ⟨-, -, walked⟩ := resolve_eq_ok.1 leads
  obtain ⟨dot, parts, dots⟩ := exists_segments (Path.trimmed b)
  rw [parts] at walked
  obtain ⟨middle, pre, back⟩ := walk_append.1 walked
  have eq : middle = loc := by
    rcases dots with rfl | rfl
    · exact Except.ok.inj back
    · rw [walk] at back
      split at back
      · cases back
      · next next stepped =>
        cases back
        exact (eq_follow_of_step stepped).2.symm
  subst eq
  have whole : t.walk [] (Path.names b) = .ok middle := by
    rw [ns]
    exact walk_append.2 ⟨middle, pre, walk_dots dir count⟩
  obtain rfl := (eq_foldl_of_walk whole).trans (Path.target_eq b).symm
  exact ⟨whole, dir⟩

def Region (b n : String) (loc : Location) : Prop :=
  Path.target b ++ [n] <+: loc

theorem not_region_of_ne {other : String} (different : n ≠ other)
    (inside : Region b n loc) : ¬ Region b other loc := by
  rintro ⟨r, rfl⟩
  obtain ⟨tl, eq⟩ := inside
  simp only [append_assoc, append_cancel_left_eq, singleton_append, cons.injEq] at eq
  exact different eq.1

def Agree (b n : String) (t other : FileTree) : Prop :=
  ∀ loc, Region b n loc → other.find? loc = t.find? loc

/-- A path into the directory of a name below a base. -/
structure Inside (b n p : String) : Prop where
  plain : Path.IsPlain n
  segments : ∃ more, (∀ part ∈ more, Path.IsPlain part) ∧ Path.segments p = Path.names b ++ n :: more

theorem inside_join (plain : Path.IsPlain n) : Inside b n (Path.join b n) :=
  ⟨plain, [], nofun, segments_join b plain⟩

theorem Inside.join {p part : String} (inside : Inside b n p) (ns : Path.names p = Path.segments p)
    (plain : Path.IsPlain part) : Inside b n (Path.join p part) := by
  obtain ⟨r, each, ps⟩ := inside.segments
  refine ⟨inside.plain, r ++ [part], fun other mem => ?_, ?_⟩
  · rcases mem_append.1 mem with mem | mem
    · exact each other mem
    · exact mem_singleton.1 mem ▸ plain
  · rw [segments_join p plain, ns, ps, append_assoc, cons_append]

section Following

variable {p : String} {other : FileTree}

theorem walk_agree (agree : Agree b n t other) (here : Region b n loc) {r : List String}
    (each : ∀ part ∈ r, Path.IsPlain part) : other.walk loc r = t.walk loc r := by
  induction r generalizing loc with
  | nil => rfl
  | cons part r ih =>
    have stepped : other.step loc part = t.step loc part := by
      rw [step, step, agree loc here]
    rw [walk, walk, stepped]
    cases next : t.step loc part with
    | error error => rfl
    | ok next' =>
      have plain := each part mem_cons_self
      obtain ⟨-, rfl⟩ := eq_follow_of_step next
      rw [Path.follow, if_neg plain.2.2.1, if_neg plain.2.2.2]
      exact ih (here.trans (prefix_append _ _)) fun other mem => each other (.tail _ mem)

/-- **A path into the directory of a name** leads to the same location in trees that agree there. -/
theorem resolve_inside (inside : Inside b n p) (ready : Ready b t) (ready' : Ready b other)
    (agree : Agree b n t other) : other.resolve p = t.resolve p := by
  obtain ⟨plain, r, each, parts⟩ := inside
  have walked : other.walk [] (Path.segments p) = t.walk [] (Path.segments p) := by
    rw [parts, walk_append_eq, walk_append_eq, ready.leads, ready'.leads]
    show other.walk (Path.target b) (n :: r) = t.walk (Path.target b) (n :: r)
    have stepped : other.step (Path.target b) n = t.step (Path.target b) n := by
      rw [step, step, ready.directory, ready'.directory]
    rw [walk, walk, stepped]
    cases next : t.step (Path.target b) n with
    | error error => rfl
    | ok next' =>
      obtain ⟨-, rfl⟩ := eq_follow_of_step next
      rw [Path.follow, if_neg plain.2.2.1, if_neg plain.2.2.2]
      exact walk_agree agree (prefix_refl _) each
  rw [resolve, resolve, walked]

theorem region_of_resolve (inside : Inside b n p) (leads : t.resolve p = .ok loc) : Region b n loc := by
  obtain ⟨plain, r, each, ps⟩ := inside
  have appended : ∀ {start : Location} {r : List String}, (∀ part ∈ r, Path.IsPlain part) →
      r.foldl Path.follow start = start ++ r := by
    intro start r each
    induction r generalizing start with
    | nil => simp
    | cons part r ih =>
      have plain := each part mem_cons_self
      rw [foldl_cons, Path.follow, if_neg plain.2.2.1, if_neg plain.2.2.2,
        ih fun other mem => each other (.tail _ mem), append_assoc, singleton_append]
  rw [eq_target_of_resolve leads, Path.target, ps, foldl_append, ← Path.target_eq,
    appended (forall_mem_cons.2 ⟨plain, each⟩)]
  exact ⟨r, by rw [append_assoc, singleton_append]⟩

theorem lookup_inside (inside : Inside b n p) (ready : Ready b t) (ready' : Ready b other)
    (agree : Agree b n t other) : other.lookup p = t.lookup p := by
  rw [lookup, lookup, resolve_inside inside ready ready' agree]
  cases leads : t.resolve p with
  | error error => rfl
  | ok loc =>
    dsimp only
    rw [agree loc (region_of_resolve inside leads)]

end Following

/-! ## Confined actions -/

def place (p : String) (accept : Option Entry → Except DiskError Entry) (t : FileTree) :
    Except DiskError FileTree :=
  match t.resolve p with
  | .error error => .error error
  | .ok loc =>
    match accept (t.find? loc) with
    | .error error => .error error
    | .ok entry => .ok (t.put loc entry)

theorem write_eq_place (t : FileTree) (p : String) (content : Content) :
    t.write p content =
      place p (fun got => if got = some .directory then .error .isDirectory else .ok (.file content)) t := by
  rw [write, place]
  cases t.resolve p with
  | error error => rfl
  | ok loc =>
    dsimp only
    split <;> rfl

theorem makeDirectory_eq_place (t : FileTree) (p : String) :
    t.makeDirectory p =
      place p (fun got => if got.isSome then .error .alreadyExists else .ok .directory) t := by
  rw [makeDirectory, place]
  cases t.resolve p with
  | error error => rfl
  | ok loc =>
    dsimp only
    split <;> rfl

/-- An action that neither sees nor changes anything but the directory of a name, where the base
is there. -/
def Confined {α : Type} (b n : String) (action : StateM FileTree α) : Prop :=
  ∀ t other : FileTree, Ready b t → Ready b other → Agree b n t other →
    (action other).1 = (action t).1 ∧ Agree b n (action t).2 (action other).2 ∧
      (∀ loc, ¬ Region b n loc → (action t).2.find? loc = t.find? loc) ∧
      Grows t (action t).2

namespace Confined

variable {α β ε : Type} {p : String}

theorem of_looks {action : StateM FileTree α} (looks : ∀ t, (action t).2 = t)
    (eq : ∀ {t other : FileTree}, Ready b t → Ready b other → Agree b n t other →
      (action other).1 = (action t).1) : Confined b n action := by
  intro t other ready ready' agree
  rw [looks, looks]
  exact ⟨eq ready ready' agree, agree, fun _ _ => rfl, .refl t⟩

theorem pure (v : α) : Confined b n (Pure.pure v) := of_looks (fun _ => rfl) fun _ _ _ => rfl

theorem bind {fst : StateM FileTree α} {next : α → StateM FileTree β} (head : Confined b n fst)
    (r : ∀ v, Confined b n (next v)) : Confined b n (fst >>= next) := by
  intro t other ready ready' agree
  obtain ⟨values, middle, kept, grows⟩ := head t other ready ready' agree
  obtain ⟨-, -, -, grows'⟩ := head other other ready' ready' fun _ _ => rfl
  have later := r (fst t).1 _ _ (ready.grows grows) (ready'.grows grows') middle
  rw [bind_apply, bind_apply, values]
  refine ⟨later.1, later.2.1, fun loc outside => ?_, grows.trans later.2.2.2⟩
  rw [later.2.2.1 loc outside, kept loc outside]

theorem bindExcept {fst : ExceptT ε (StateM FileTree) α} {next : α → ExceptT ε (StateM FileTree) β}
    (head : Confined b n fst.run) (r : ∀ v, Confined b n (next v).run) : Confined b n (fst >>= next).run := by
  show Confined b n (fst.run >>= ExceptT.bindCont next)
  refine bind head fun outcome => ?_
  cases outcome with
  | ok v => exact r v
  | error error => exact pure _

variable (inside : Inside b n p)

include inside

theorem read : Confined b n (disk.read p) :=
  of_looks (fun _ => rfl) fun {t other} ready ready' agree => by
    show other.read p = t.read p
    rw [FileTree.read, FileTree.read, lookup_inside inside ready ready' agree]

theorem isFile : Confined b n (disk.isFile p) :=
  of_looks (fun _ => rfl) fun {t other} ready ready' agree => by
    show other.isFile p = t.isFile p
    rw [FileTree.isFile, FileTree.isFile, lookup_inside inside ready ready' agree]

theorem isDirectory : Confined b n (disk.isDirectory p) :=
  of_looks (fun _ => rfl) fun {t other} ready ready' agree => by
    show other.isDirectory p = t.isDirectory p
    rw [FileTree.isDirectory, FileTree.isDirectory, lookup_inside inside ready ready' agree]

theorem place {accept : Option Entry → Except DiskError Entry} {error : DiskError}
    (kept : accept (some .directory) = .error error) : Confined b n (attempt (FileTree.place p accept)) := by
  intro t other ready ready' agree
  have eq := resolve_inside inside ready ready' agree
  have idle {error : DiskError} (failed : FileTree.place p accept t = .error error)
      (failed' : FileTree.place p accept other = .error error) :
      (attempt (FileTree.place p accept) other).1 = (attempt (FileTree.place p accept) t).1 ∧
        Agree b n (attempt (FileTree.place p accept) t).2 (attempt (FileTree.place p accept) other).2 ∧
        (∀ loc, ¬ Region b n loc → (attempt (FileTree.place p accept) t).2.find? loc = t.find? loc) ∧
        Grows t (attempt (FileTree.place p accept) t).2 := by
    rw [attempt, attempt, failed, failed']
    exact ⟨rfl, agree, fun _ _ => rfl, .refl t⟩
  cases leads : t.resolve p with
  | error error =>
    rw [leads] at eq
    exact idle (by rw [FileTree.place, leads]) (by rw [FileTree.place, eq])
  | ok loc =>
    have here := region_of_resolve inside leads
    rw [leads] at eq
    cases accepted : accept (t.find? loc) with
    | error error =>
      refine idle (show _ = Except.error error from ?_) ?_
      · simp only [FileTree.place, leads, accepted]
      · simp only [FileTree.place, eq, agree loc here, accepted]
    | ok e =>
      have file : t.find? loc ≠ some .directory := by
        intro dir
        rw [dir, kept] at accepted
        cases accepted
      have below : loc ≠ [] := ne_root file
      have done : FileTree.place p accept t = .ok (t.put loc e) := by
        simp only [FileTree.place, leads, accepted]
      have done' : FileTree.place p accept other = .ok (other.put loc e) := by
        simp only [FileTree.place, eq, agree loc here, accepted]
      rw [attempt_eq_ok.2 done, attempt_eq_ok.2 done']
      refine ⟨rfl, fun other' there => ?_, fun other' outside => ?_, fun other' dir => ?_⟩
      · rw [find?_put below, find?_put below, agree other' there]
      · rw [find?_put below, if_neg]
        rintro rfl
        exact outside here
      · rw [find?_put below, if_neg, dir]
        rintro rfl
        exact file dir

theorem write (s : String) : Confined b n (disk.write p s) := by
  show Confined b n (attempt (·.write p (.text s)))
  rw [funext fun t => write_eq_place t p (.text s)]
  exact place inside rfl

theorem makeDirectory : Confined b n (disk.makeDirectory p) := by
  show Confined b n (attempt (·.makeDirectory p))
  rw [funext fun t => makeDirectory_eq_place t p]
  exact place inside rfl

theorem ensure : Confined b n (FileTree.ensure p) := by
  refine bind (makeDirectory inside) fun outcome => ?_
  cases outcome with
  | ok _ => exact pure _
  | error error => exact bind (isDirectory inside) fun _ => pure _

end Confined

end Bindery.FileTree
