/-
Proofs.Disk.Batch -- several files are written

Writing a file changes no directory, so a path that leads to another location than the one
written leads to what it led to before (`lookup_write`).  Of files that are written one after
the other (`writeAll`), to different locations, each can be read afterwards (`read_writeAll`),
and nothing else has changed (`lookup_writeAll`).
-/
import Bindery.Proofs.Disk.Change

namespace Bindery.FileTree

open List

variable {t last : FileTree} {files : List (String × String)} {s : String}

/-! ## One file -/

section One

variable {later : FileTree} {p other : String} {content : Content} {loc : Location}

theorem lookup_eq_ok {e : Entry} : t.lookup p = .ok (loc, e) ↔
    t.resolve p = .ok loc ∧ t.find? loc = some e := by
  unfold lookup
  cases resolved : t.resolve p with
  | error error => simp
  | ok got =>
    cases here : t.find? got with
    | none =>
      simp only [here, Except.ok.injEq, reduceCtorEq, false_iff]
      rintro ⟨rfl, there⟩
      rw [here] at there
      cases there
    | some e =>
      simp only [here, Except.ok.injEq, Prod.mk.injEq]
      constructor
      · rintro ⟨rfl, rfl⟩
        exact ⟨rfl, here⟩
      · rintro ⟨rfl, there⟩
        exact ⟨rfl, Option.some.inj (here.symm.trans there)⟩

theorem write_grows (done : t.write p content = .ok later) : Grows later t := by
  obtain ⟨loc, resolved, -⟩ := write_eq_ok.1 done
  intro other dir
  rw [find?_write resolved done] at dir
  split at dir
  · cases dir
  · exact dir

theorem resolve_write (done : t.write p content = .ok later) :
    later.resolve other = .ok loc ↔ t.resolve other = .ok loc :=
  ⟨(write_grows done).resolve, (grows_write done).resolve⟩

/-- The two paths do not lead to one location. -/
def Apart (t : FileTree) (p other : String) : Prop :=
  ∀ loc, t.resolve p = .ok loc → t.resolve other ≠ .ok loc

theorem Apart.symm (apart : Apart t p other) : Apart t other p := fun loc leads leads' => apart loc leads' leads

theorem apart_write {third : String} (done : t.write third content = .ok later) :
    Apart later p other ↔ Apart t p other := by
  simp only [Apart, ne_eq, resolve_write done]

theorem apart_join {b b' n n' : String} (plain : Path.IsPlain n) (plain' : Path.IsPlain n')
    (different : n ≠ n') : Apart t (Path.join b n) (Path.join b' n') := by
  intro loc leads leads'
  have fst := getLast?_of_resolve_join plain leads
  rw [getLast?_of_resolve_join plain' leads'] at fst
  exact different (Option.some.inj fst).symm

theorem pairwise_apart {places : List (String × String)} (plain : ∀ place ∈ places, Path.IsPlain place.2)
    (nodup : (places.map Prod.snd).Nodup) :
    (places.map fun place => Path.join place.1 place.2).Pairwise (Apart t) := by
  rw [pairwise_map]
  rw [nodup_iff_pairwise_ne, pairwise_map] at nodup
  exact nodup.imp_of_mem fun mem mem' different =>
    apart_join (plain _ mem) (plain _ mem') different

/-- **A path apart from the one written** leads to what it led to. -/
theorem lookup_write (apart : Apart t p other) (done : t.write p content = .ok later)
    {got : Location × Entry} : later.lookup other = .ok got ↔ t.lookup other = .ok got := by
  obtain ⟨loc, e⟩ := got
  obtain ⟨target, resolved, -⟩ := write_eq_ok.1 done
  rw [lookup_eq_ok, lookup_eq_ok, resolve_write done]
  refine and_congr_right fun leads => ?_
  rw [find?_write resolved done, if_neg]
  rintro rfl
  exact apart _ resolved leads

end One

/-! ## What a lookup decides -/

section Lookup

variable {later : FileTree} {p : String}

theorem read_iff : t.read p = .ok s ↔ ∃ loc, t.lookup p = .ok (loc, .file (.text s)) := by
  simp only [read_eq_ok, lookup_eq_ok]

theorem isFile_iff : t.isFile p ↔ ∃ loc content, t.lookup p = .ok (loc, .file content) := by
  unfold isFile
  split
  · next got => exact ⟨fun _ => ⟨_, _, got⟩, fun _ => rfl⟩
  · next none => exact ⟨nofun, fun ⟨loc, content, got⟩ => absurd got (none loc content)⟩

theorem isDirectory_lookup : t.isDirectory p ↔ ∃ loc, t.lookup p = .ok (loc, .directory) := by
  simp only [isDirectory_iff, lookup_eq_ok]

end Lookup

/-! ## Several files -/

def writeAll (t : FileTree) : List (String × String) → Except DiskError FileTree
  | [] => .ok t
  | (p, text) :: files =>
    match t.write p (.text text) with
    | .error error => .error error
    | .ok later => later.writeAll files

theorem writeAll_cons {p : String} :
    t.writeAll ((p, s) :: files) = .ok last ↔
      ∃ later, t.write p (.text s) = .ok later ∧ later.writeAll files = .ok last := by
  rw [writeAll]
  cases t.write p (.text s) with
  | error error => simp
  | ok later => simp

theorem writeAll_append {r : List (String × String)} :
    t.writeAll (files ++ r) = .ok last ↔
      ∃ later, t.writeAll files = .ok later ∧ later.writeAll r = .ok last := by
  induction files generalizing t with
  | nil => exact ⟨fun done => ⟨t, rfl, done⟩, by rintro ⟨_, ⟨⟩, done⟩; exact done⟩
  | cons file files ih =>
    obtain ⟨p, s⟩ := file
    simp only [cons_append, writeAll_cons, ih]
    constructor
    · rintro ⟨next, written, later, done, done'⟩
      exact ⟨later, ⟨next, written, done⟩, done'⟩
    · rintro ⟨later, ⟨next, written, done⟩, done'⟩
      exact ⟨next, written, later, done, done'⟩

section Several

variable {other : String} {got : Location × Entry}

theorem grows_writeAll (done : t.writeAll files = .ok last) : Grows t last := by
  induction files generalizing t with
  | nil =>
    cases done
    exact .refl _
  | cons file files ih =>
    obtain ⟨later, written, done⟩ := writeAll_cons.1 done
    exact (grows_write written).trans (ih done)

theorem lookup_writeAll (apart : ∀ file ∈ files, Apart t file.1 other) (done : t.writeAll files = .ok last) :
    last.lookup other = .ok got ↔ t.lookup other = .ok got := by
  induction files generalizing t with
  | nil =>
    cases done
    rfl
  | cons file files ih =>
    obtain ⟨later, written, done⟩ := writeAll_cons.1 done
    have later := ih (fun file mem =>
      (apart_write written).2 (apart file (.tail _ mem))) done
    rw [later, lookup_write (apart _ mem_cons_self) written]

/-- **Each of the files can be read.** -/
theorem read_writeAll (apart : files.Pairwise fun file next => Apart t file.1 next.1)
    (done : t.writeAll files = .ok last) : ∀ file ∈ files, last.read file.1 = .ok file.2 := by
  induction files generalizing t with
  | nil => nofun
  | cons fst files ih =>
    obtain ⟨later, written, r⟩ := writeAll_cons.1 done
    rw [pairwise_cons] at apart
    intro file mem
    rcases mem_cons.1 mem with rfl | mem
    · have here := read_write written
      rw [read_iff] at here ⊢
      obtain ⟨loc, got⟩ := here
      refine ⟨loc, (lookup_writeAll (fun next mem => ?_) r).2 got⟩
      exact (apart_write written).2 (apart.1 next mem).symm
    · refine ih ?_ r file mem
      exact apart.2.imp fun apart => (apart_write written).2 apart

/-! ## Trees with the same entries -/

/-- The trees hold the same. -/
def Same (t other : FileTree) : Prop :=
  ∀ loc, other.find? loc = t.find? loc

theorem Same.lookup {other : FileTree} (eq : Same t other) {p : String}
    (leads : t.lookup p = .ok got) : other.lookup p = .ok got := by
  obtain ⟨loc, e⟩ := got
  rw [lookup_eq_ok] at leads ⊢
  refine ⟨?_, by rw [eq, leads.2]⟩
  have grows : Grows t other := fun loc dir => by rw [eq, dir]
  exact grows.resolve leads.1

/-- **Files that hold their texts already** are written without effect. -/
theorem writeAll_of_read (holds : ∀ file ∈ files, t.read file.1 = .ok file.2) :
    ∃ last, t.writeAll files = .ok last ∧ Same t last := by
  induction files generalizing t with
  | nil => exact ⟨t, rfl, fun _ => rfl⟩
  | cons file files ih =>
    obtain ⟨later, written, eq⟩ := write_of_read (holds file mem_cons_self)
    have kept : ∀ file ∈ files, later.read file.1 = .ok file.2 := by
      intro next mem
      obtain ⟨loc, got⟩ := read_iff.1 (holds next (.tail _ mem))
      exact read_iff.2 ⟨loc, Same.lookup eq got⟩
    obtain ⟨last, done, eq'⟩ := ih kept
    exact ⟨last, writeAll_cons.2 ⟨later, written, done⟩, fun loc => (eq' loc).trans (eq loc)⟩

end Several

end Bindery.FileTree
