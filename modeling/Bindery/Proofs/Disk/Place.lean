/-
Proofs.Disk.Place -- the location that a path means

Whether a path leads anywhere depends on the tree, but not where: every name along it is
followed in the same way (`Path.target`).  So a path is resolved to its target or not at all
(`eq_target_of_resolve`), and what an action may change can be said without the trees in
between: it adds directories, and it writes files at known locations (`Alters`).
-/
import Bindery.Proofs.Disk.Batch

namespace Bindery

variable {n : String}

namespace Path

def follow (loc : Location) (name : String) : Location :=
  if name = "." then loc
  else if name = ".." then loc.dropLast
  else loc ++ [name]

/-- The location that a path leads to. -/
def target (p : String) : Location :=
  (segments p).foldl follow []

theorem target_eq (p : String) : target p = (names p).foldl follow [] := by
  have parts : segments p = names p ++ if p.toList.getLast? == some '/' then ["."] else [] := rfl
  rw [target, parts, List.foldl_append]
  split <;> rfl

theorem target_join (b : String) (plain : IsPlain n) : target (join b n) = target b ++ [n] := by
  rw [target, FileTree.segments_join b plain, List.foldl_append, ← target_eq]
  show follow (target b) n = _
  rw [follow, if_neg plain.2.2.1, if_neg plain.2.2.2]

end Path

namespace FileTree

variable {t later last : FileTree} {loc next : Location} {p : String}

theorem eq_follow_of_step (leads : t.step loc n = .ok next) :
    t.find? loc = some .directory ∧ next = Path.follow loc n := by
  unfold step at leads
  split at leads
  · cases leads
  · cases leads
  · next dir =>
    refine ⟨dir, ?_⟩
    rw [Path.follow]
    split at leads
    · next here => rw [if_pos here, Except.ok.inj leads]
    · next other =>
      rw [if_neg other]
      split at leads
      · next above => rw [if_pos above, Except.ok.inj leads]
      · next below =>
        rw [if_neg below]
        split at leads
        · cases leads
        · exact (Except.ok.inj leads).symm

theorem eq_foldl_of_walk {ns : List String} (leads : t.walk loc ns = .ok next) :
    next = ns.foldl Path.follow loc := by
  induction ns generalizing loc with
  | nil => exact (Except.ok.inj leads).symm
  | cons n ns ih =>
    rw [walk] at leads
    split at leads
    · cases leads
    · next middle stepped =>
      rw [List.foldl_cons, ← (eq_follow_of_step stepped).2]
      exact ih leads

/-- **A path leads to the location that it means**, or nowhere. -/
theorem eq_target_of_resolve (leads : t.resolve p = .ok loc) : loc = Path.target p :=
  eq_foldl_of_walk (resolve_eq_ok.1 leads).2.2

theorem find?_of_read {s : String} (read : t.read p = .ok s) :
    t.find? (Path.target p) = some (.file (.text s)) := by
  obtain ⟨loc, leads, file⟩ := read_eq_ok.1 read
  rwa [← eq_target_of_resolve leads]

theorem find?_writeAll {files : List (String × String)} (apart : ∀ file ∈ files, Path.target file.1 ≠ loc)
    (done : t.writeAll files = .ok last) : last.find? loc = t.find? loc := by
  induction files generalizing t with
  | nil =>
    cases done
    rfl
  | cons file files ih =>
    obtain ⟨later, written, done⟩ := writeAll_cons.1 done
    obtain ⟨target, leads, -⟩ := write_eq_ok.1 written
    rw [ih (fun other mem => apart other (List.mem_cons_of_mem _ mem)) done,
      find?_write leads written, if_neg]
    rintro rfl
    exact apart file List.mem_cons_self (eq_target_of_resolve leads).symm

/-! ## What an action changes -/

/-- The later tree has directories where nothing was, texts at the given locations, and is
otherwise the same. -/
structure Alters (files : List Location) (t later : FileTree) : Prop where
  grows : Grows t later
  cases : ∀ loc, later.find? loc = t.find? loc ∨
    (t.find? loc = none ∧ later.find? loc = some .directory) ∨
    (loc ∈ files ∧ t.find? loc ≠ some .directory ∧
      ∃ s, later.find? loc = some (.file (.text s)))

namespace Alters

variable {files : List Location} {s : String}

theorem refl (files : List Location) (t : FileTree) : Alters files t t := ⟨.refl t, fun _ => .inl rfl⟩

theorem trans (fst : Alters files t later) (snd : Alters files later last) : Alters files t last := by
  refine ⟨fst.grows.trans snd.grows, fun loc => ?_⟩
  rcases snd.cases loc with eq | ⟨absent, made⟩ | ⟨mem, free, written⟩
  · rw [eq]
    exact fst.cases loc
  · rcases fst.cases loc with eq | ⟨-, made'⟩ | ⟨-, -, s, written⟩
    · exact .inr (.inl ⟨eq ▸ absent, made⟩)
    · rw [absent] at made'
      cases made'
    · rw [absent] at written
      cases written
  · exact .inr (.inr ⟨mem, fun dir => free (fst.grows loc dir), written⟩)

theorem write (mem : Path.target p ∈ files) (done : t.write p (.text s) = .ok later)
    : Alters files t later := by
  obtain ⟨loc, leads, file, -⟩ := write_eq_ok.1 done
  refine ⟨grows_write done, fun other => ?_⟩
  rw [find?_write leads done]
  split
  · next eq =>
    subst eq
    exact .inr (.inr ⟨eq_target_of_resolve leads ▸ mem, file, s, rfl⟩)
  · exact .inl rfl

/-- **A file at another location** stays as it is. -/
theorem find?_file (alters : Alters files t later) {loc : Location} {content : Content} (apart : loc ∉ files)
    (got : t.find? loc = some (.file content)) : later.find? loc = some (.file content) := by
  rcases alters.cases loc with eq | ⟨absent, -⟩ | ⟨mem, -⟩
  · rw [eq, got]
  · rw [absent] at got
    cases got
  · exact absurd mem apart

theorem read (alters : Alters files t later) (apart : Path.target p ∉ files)
    (got : t.read p = .ok s) : later.read p = .ok s := by
  obtain ⟨loc, leads, file⟩ := read_eq_ok.1 got
  refine read_eq_ok.2 ⟨loc, alters.grows.resolve leads, alters.find?_file ?_ file⟩
  rwa [eq_target_of_resolve leads]

end Alters

def Altering {α : Type} (files : List Location) (action : StateM FileTree α) : Prop :=
  ∀ t, Alters files t (action t).2

namespace Altering

variable {α β ε : Type} {files : List Location}

theorem of_looks {action : StateM FileTree α} (looks : ∀ t, (action t).2 = t) :
    Altering files action := fun t => (looks t).symm ▸ .refl files t

theorem bind {fst : StateM FileTree α} {next : α → StateM FileTree β} (head : Altering files fst)
    (r : ∀ v, Altering files (next v)) : Altering files (fst >>= next) := fun t =>
  (head t).trans (r (fst t).1 (fst t).2)

theorem bindExcept {fst : ExceptT ε (StateM FileTree) α} {next : α → ExceptT ε (StateM FileTree) β}
    (head : Altering files fst.run) (r : ∀ v, Altering files (next v).run) :
    Altering files (fst >>= next).run := by
  show Altering files (fst.run >>= ExceptT.bindCont next)
  refine Altering.bind head fun outcome => ?_
  cases outcome with
  | ok v => exact r v
  | error error => exact of_looks fun _ => rfl

theorem write {p : String} (mem : Path.target p ∈ files) (s : String) : Altering files (disk.write p s) := by
  intro t
  show Alters files t (attempt (·.write p (.text s)) t).2
  cases written : t.write p (.text s) with
  | ok later =>
    rw [attempt_eq_ok.2 written]
    exact .write mem written
  | error error =>
    rw [attempt, written]
    exact .refl files t

theorem makeDirectories (p : String) : Altering files (disk.makeDirectories p) := fun t =>
  have adds := (adds_makeDirectories p t).1
  ⟨adds.grows, fun loc => (adds loc).imp_right .inl⟩

end Altering

end FileTree

end Bindery
