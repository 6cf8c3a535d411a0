/-
Proofs.Disk.Change -- what an operation changes in a tree

A path is followed through directories, so where it leads does not change as long as the
directories stay (`Grows.resolve`), and no operation takes one away.  Making directories
adds directories where nothing was (`Adds`), and writing a file changes the one location
that the path leads to (`find?_write`).
-/
import Bindery.Disk.Tree
import Bindery.Proofs.Text.Split

namespace Bindery

open List hiding splitBy
open String Text

/-! ## Paths that end in a name -/

namespace Path

def IsPlain (n : String) : Prop :=
  n.toList ≠ [] ∧ '/' ∉ n.toList ∧ n ≠ "." ∧ n ≠ ".."

instance decidableIsPlain (n : String) : Decidable (IsPlain n) :=
  inferInstanceAs (Decidable (_ ∧ _))

def names (p : String) : List String :=
  ((splitBy (· == '/') p.toList).filter (!·.isEmpty)).map String.ofList

variable {w : List Char} {n : String} {ns : List String}

def namesOf (text : List Char) : List String :=
  ((splitBy (· == '/') text).filter (!·.isEmpty)).map String.ofList

theorem names_eq (p : String) : names p = namesOf p.toList := rfl

theorem namesOf_slash (s : List Char) : namesOf (s ++ ['/']) = namesOf s := by
  rw [namesOf, Text.splitBy_append (by decide), filter_append, map_append]
  simp [namesOf, splitBy]

theorem namesOf_word (some : w ≠ []) (whole : '/' ∉ w) : namesOf w = [String.ofList w] := by
  have kept : ∀ c ∈ w, (c == '/') = false := fun c mem => by
    rw [beq_eq_false_iff_ne]
    rintro rfl
    exact whole mem
  rw [namesOf, splitBy_word kept]
  simp [some]

theorem namesOf_append (s : List Char) (some : w ≠ []) (whole : '/' ∉ w) :
    namesOf (s ++ '/' :: w) = namesOf s ++ [String.ofList w] := by
  rw [← namesOf_word some whole, namesOf, Text.splitBy_append (by decide), filter_append, map_append]
  rfl

theorem toList_join (b : String) (plain : IsPlain n) :
    (join b n).toList = b.toList ++ n.toList ∧ (b.toList = [] ∨ b.toList.getLast? = some '/') ∨
      (join b n).toList = b.toList ++ '/' :: n.toList ∧ b.toList ≠ [] := by
  have relative : isAbsolute n = false := by
    rw [isAbsolute, beq_eq_false_iff_ne]
    exact fun fst => plain.2.1 (mem_of_head? fst)
  rw [join, relative, if_neg Bool.false_ne_true]
  split
  · next bare =>
    refine .inl ⟨toList_append, ?_⟩
    simpa using bare
  · next open_ =>
    refine .inr ⟨by simp, ?_⟩
    intro empty
    rw [toList_eq_nil_iff] at empty
    simp [empty] at open_

theorem names_join (b : String) (plain : IsPlain n) : names (join b n) = names b ++ [n] := by
  have behind (s : List Char) : namesOf (s ++ '/' :: n.toList) = namesOf s ++ [n] := by
    rw [namesOf_append s plain.1 plain.2.1, ofList_toList]
  rw [names_eq, names_eq]
  rcases toList_join b plain with ⟨parts, empty | slash⟩ | ⟨parts, -⟩
  · rw [parts, empty, List.nil_append, namesOf_word plain.1 plain.2.1, ofList_toList]
    rfl
  · obtain ⟨pre, ended⟩ := getLast?_eq_some_iff.1 slash
    rw [parts, ended, List.append_assoc, singleton_append, behind, namesOf_slash]
  · rw [parts, behind]

end Path

namespace FileTree

variable {p n b : String} {t : FileTree} {loc last : Location}

/-! ## Directories stay -/

def Grows (t later : FileTree) : Prop :=
  ∀ loc, t.find? loc = some .directory → later.find? loc = some .directory

namespace Grows

variable {later last : FileTree} {next : Location}

theorem refl (t : FileTree) : Grows t t := fun _ => id

theorem trans (fst : Grows t later) (snd : Grows later last) : Grows t last :=
  fun loc got => snd loc (fst loc got)

theorem step (grows : Grows t later) {n : String} (leads : t.step loc n = .ok next)
    : later.step loc n = .ok next := by
  unfold FileTree.step at leads ⊢
  split at leads
  · cases leads
  · cases leads
  · next dir => rw [grows loc dir]; exact leads

theorem walk (grows : Grows t later) (leads : t.walk loc ns = .ok next) : later.walk loc ns = .ok next := by
  induction ns generalizing loc with
  | nil => exact leads
  | cons n ns ih =>
    unfold walk at leads ⊢
    split at leads
    · cases leads
    · next next stepped => rw [grows.step stepped]; exact ih leads

/-- **A path leads where it led before.** -/
theorem resolve (grows : Grows t later) {p : String}
    (leads : t.resolve p = .ok loc) : later.resolve p = .ok loc := by
  unfold FileTree.resolve at leads ⊢
  split at leads
  · cases leads
  · next clean =>
    rw [if_neg clean]
    split at leads
    · cases leads
    · next short => rw [if_neg short]; exact grows.walk leads

end Grows

/-! ## Reading and writing -/

section Files

variable {later : FileTree} {s : String} {other : Location} {content : Content}

theorem read_eq_ok : t.read p = .ok s ↔
    ∃ loc, t.resolve p = .ok loc ∧ t.find? loc = some (.file (.text s)) := by
  unfold read lookup
  cases resolved : t.resolve p with
  | error error => simp
  | ok loc =>
    cases got : t.find? loc with
    | none => simp [got]
    | some e =>
      cases e with
      | directory => simp [got]
      | file content => cases content <;> simp [got]

theorem isDirectory_iff : t.isDirectory p ↔ ∃ loc, t.resolve p = .ok loc ∧ t.find? loc = some .directory := by
  unfold isDirectory lookup
  cases resolved : t.resolve p with
  | error error => simp
  | ok loc =>
    cases got : t.find? loc with
    | none => simp [got]
    | some e => cases e <;> simp [got]

theorem ne_root (other : t.find? loc ≠ some .directory) : loc ≠ [] := by
  rintro rfl
  exact other rfl

theorem write_eq_ok : t.write p content = .ok later ↔
    ∃ loc, t.resolve p = .ok loc ∧ t.find? loc ≠ some .directory ∧ later = t.put loc (.file content) := by
  unfold write
  cases resolved : t.resolve p with
  | error error => simp
  | ok loc =>
    by_cases dir : t.find? loc = some .directory
    · simp [dir]
    · simpa [dir] using eq_comm

theorem makeDirectory_eq_ok : t.makeDirectory p = .ok later ↔
    ∃ loc, t.resolve p = .ok loc ∧ t.find? loc = none ∧ later = t.put loc .directory := by
  unfold makeDirectory
  cases resolved : t.resolve p with
  | error error => simp
  | ok loc =>
    cases got : t.find? loc with
    | none => simp [got, eq_comm]
    | some e => simp [got]

/-- **Writing changes one location.** -/
theorem find?_write (resolved : t.resolve p = .ok loc) (done : t.write p content = .ok later) :
    later.find? other = if other = loc then some (.file content) else t.find? other := by
  obtain ⟨loc', resolved', file, rfl⟩ := write_eq_ok.1 done
  cases resolved.symm.trans resolved'
  exact find?_put (ne_root file)

theorem grows_write (done : t.write p content = .ok later) : Grows t later := by
  obtain ⟨loc, resolved, file, -⟩ := write_eq_ok.1 done
  intro other dir
  rw [find?_write resolved done, if_neg, dir]
  rintro rfl
  exact file dir

theorem read_write (done : t.write p (.text s) = .ok later) : later.read p = .ok s := by
  obtain ⟨loc, resolved, -⟩ := write_eq_ok.1 done
  refine read_eq_ok.2 ⟨loc, (grows_write done).resolve resolved, ?_⟩
  rw [find?_write resolved done, if_pos rfl]

theorem write_of_read (holds : t.read p = .ok s) :
    ∃ later, t.write p (.text s) = .ok later ∧ ∀ other, later.find? other = t.find? other := by
  obtain ⟨loc, resolved, got⟩ := read_eq_ok.1 holds
  have file : t.find? loc ≠ some .directory := by rw [got]; nofun
  have done : t.write p (.text s) = .ok (t.put loc (.file (.text s))) :=
    write_eq_ok.2 ⟨loc, resolved, file, rfl⟩
  refine ⟨_, done, fun other => ?_⟩
  rw [find?_write resolved done]
  split
  · next eq => rw [eq, got]
  · rfl

end Files

/-! ## Making directories -/

/-- The later tree has the same entries, and directories where nothing was. -/
def Adds (t later : FileTree) : Prop :=
  ∀ loc, later.find? loc = t.find? loc ∨
    (t.find? loc = none ∧ later.find? loc = some .directory)

namespace Adds

variable {later last : FileTree}

theorem refl (t : FileTree) : Adds t t := fun _ => .inl rfl

theorem trans (fst : Adds t later) (snd : Adds later last) : Adds t last := by
  intro loc
  rcases snd loc with eq | ⟨absent, added⟩
  · exact eq ▸ fst loc
  · rcases fst loc with eq | ⟨-, added'⟩
    · exact .inr ⟨eq ▸ absent, added⟩
    · rw [added'] at absent
      cases absent

theorem grows (adds : Adds t later) : Grows t later := by
  intro loc dir
  rcases adds loc with eq | ⟨absent, -⟩
  · rw [eq, dir]
  · rw [absent] at dir
    cases dir

theorem file_iff (adds : Adds t later) {loc : Location} {content : Content} :
    later.find? loc = some (.file content) ↔ t.find? loc = some (.file content) := by
  rcases adds loc with eq | ⟨absent, added⟩
  · rw [eq]
  · rw [absent, added]
    exact ⟨nofun, nofun⟩

theorem makeDirectory {p : String} (done : t.makeDirectory p = .ok later) :
    Adds t later ∧ later.isDirectory p := by
  obtain ⟨loc, resolved, absent, rfl⟩ := makeDirectory_eq_ok.1 done
  have inside : loc ≠ [] := ne_root (by rw [absent]; nofun)
  have adds : Adds t (t.put loc .directory) := by
    intro other
    rw [find?_put inside]
    split
    · next eq => exact .inr ⟨eq ▸ absent, rfl⟩
    · exact .inl rfl
  refine ⟨adds, isDirectory_iff.2 ⟨loc, adds.grows.resolve resolved, ?_⟩⟩
  rw [find?_put inside, if_pos rfl]

end Adds

section Steps

variable {α β : Type} {later : FileTree} {error : DiskError}

theorem bind_apply (fst : StateM FileTree α) (next : α → StateM FileTree β) (t : FileTree) :
    (fst >>= next) t = next (fst t).1 (fst t).2 := rfl

theorem attempt_eq_ok {change : FileTree → Except DiskError FileTree} :
    attempt change t = (.ok (), later) ↔ change t = .ok later := by
  unfold attempt
  cases change t with
  | ok changed => exact ⟨fun eq => congrArg Except.ok (Prod.ext_iff.1 eq).2, by rintro ⟨⟩; rfl⟩
  | error error => exact ⟨fun eq => (nomatch (Prod.ext_iff.1 eq).1), nofun⟩

theorem makeDirectory_of_ok (made : t.makeDirectory p = .ok later) :
    disk.makeDirectory p t = (.ok (), later) := by
  show attempt (·.makeDirectory p) t = _
  exact attempt_eq_ok.2 made

theorem makeDirectory_of_error (failed : t.makeDirectory p = .error error) :
    disk.makeDirectory p t = (.error error, t) := by
  show attempt (·.makeDirectory p) t = _
  rw [attempt, failed]

end Steps

def ensure (p : String) : StateM FileTree (Except DiskError Unit) := do
  match ← disk.makeDirectory p with
  | .ok _ => return .ok ()
  | .error error => return if ← disk.isDirectory p then .ok () else .error error

theorem adds_ensure (p : String) (t : FileTree) :
    Adds t (ensure p t).2 ∧ ((ensure p t).1 = .ok () → (ensure p t).2.isDirectory p) := by
  rw [ensure, bind_apply]
  cases made : t.makeDirectory p with
  | ok later =>
    rw [makeDirectory_of_ok made]
    obtain ⟨adds, there⟩ := Adds.makeDirectory made
    exact ⟨adds, fun _ => there⟩
  | error error =>
    rw [makeDirectory_of_error made]
    refine ⟨.refl t, fun done => ?_⟩
    change (if t.isDirectory p then Except.ok () else .error error) = .ok () at done
    split at done
    · assumption
    · cases done

theorem makeAll_cases (p : String) (above : List String) (t : FileTree) :
    disk.makeAll (p :: above) t = ensure p t ∨
      (∃ error, (disk.makeAll above t).1 = .error error ∧
        disk.makeAll (p :: above) t = disk.makeAll above t) ∨
      disk.makeAll (p :: above) t = ensure p (disk.makeAll above t).2 := by
  rw [Disk.makeAll, bind_apply]
  cases made : t.makeDirectory p with
  | ok later => exact .inl (by rw [ensure, bind_apply, makeDirectory_of_ok made])
  | error error =>
    rw [makeDirectory_of_error made]
    cases error with
    | notFound =>
      dsimp only
      rw [bind_apply]
      cases outcome : (disk.makeAll above t).1 with
      | error error => exact .inr (.inl ⟨error, rfl, Prod.ext outcome.symm rfl⟩)
      | ok _ => exact .inr (.inr rfl)
    | alreadyExists | notDirectory | isDirectory | nameTooLong | zeroInName | notText | other _ =>
      exact .inl (by rw [ensure, bind_apply, makeDirectory_of_error made])

theorem adds_makeAll (paths : List String) (t : FileTree) : Adds t (disk.makeAll paths t).2 := by
  induction paths generalizing t with
  | nil => exact .refl t
  | cons p above ih =>
    rcases makeAll_cases p above t with eq | ⟨error, -, eq⟩ | eq
    · exact eq ▸ (adds_ensure p t).1
    · exact eq ▸ ih t
    · exact eq ▸ (ih t).trans (adds_ensure p _).1

theorem ancestors_eq_cons (p : String) : ∃ above, Path.ancestors p = p :: above := by
  have itself : ofList p.toList.reverse.reverse = p := by
    rw [reverse_reverse, ofList_toList]
  unfold Path.ancestors Path.ancestorsBack
  split
  · exact ⟨[], by rw [map_singleton, itself]⟩
  · exact ⟨_, by rw [map_cons, itself]⟩

/-- **Making directories** only adds directories, and in the end the one that was asked for
is there. -/
theorem adds_makeDirectories (p : String) (t : FileTree) :
    Adds t (disk.makeDirectories p t).2 ∧
      ((disk.makeDirectories p t).1 = .ok () → (disk.makeDirectories p t).2.isDirectory p) := by
  refine ⟨adds_makeAll _ t, ?_⟩
  obtain ⟨above, itself⟩ := ancestors_eq_cons p
  rw [Disk.makeDirectories, itself]
  rcases makeAll_cases p above t with eq | ⟨error, failed, eq⟩ | eq
  · exact eq ▸ (adds_ensure p t).2
  · rw [eq, failed]
    nofun
  · exact eq ▸ (adds_ensure p _).2

theorem adds_of_makeDirectories {res : Except DiskError Unit} (made : disk.makeDirectories p t = (res, later)) :
    Adds t later := by
  have adds := (adds_makeDirectories p t).1
  rwa [made] at adds

theorem makeDirectory_of_isDirectory (there : t.isDirectory p) : t.makeDirectory p = .error .alreadyExists := by
  obtain ⟨loc, leads, got⟩ := isDirectory_iff.1 there
  simp [makeDirectory, leads, got]

theorem makeDirectories_of_isDirectory (there : t.isDirectory p) : disk.makeDirectories p t = (.ok (), t) := by
  obtain ⟨above, itself⟩ := ancestors_eq_cons p
  rw [Disk.makeDirectories, itself, Disk.makeAll, bind_apply,
    makeDirectory_of_error (makeDirectory_of_isDirectory there)]
  show ((if t.isDirectory p then Except.ok () else .error _), t) = _
  rw [if_pos there]

/-! ## Files with different names -/

theorem segments_join (b : String) (plain : Path.IsPlain n) :
    Path.segments (Path.join b n) = Path.names b ++ [n] := by
  have behind (pre : List Char) : (pre ++ n.toList).getLast? ≠ some '/' := by
    rw [getLast?_append, getLast?_eq_some_getLast plain.1, Option.some_or]
    exact fun last => plain.2.1 (Option.some.inj last ▸ getLast_mem plain.1)
  have open_ : (Path.join b n).toList.getLast? ≠ some '/' := by
    rcases Path.toList_join b plain with ⟨parts, -⟩ | ⟨parts, -⟩
    · rw [parts]
      exact behind _
    · rw [parts, append_cons]
      exact behind _
  unfold Path.segments
  rw [if_neg (by simpa using open_), append_nil]
  exact Path.names_join b plain

theorem walk_append {r : List String} :
    t.walk loc (ns ++ r) = .ok last ↔ ∃ middle, t.walk loc ns = .ok middle ∧ t.walk middle r = .ok last := by
  induction ns generalizing loc with
  | nil => simp [walk]
  | cons n ns ih =>
    rw [cons_append, walk, walk]
    cases t.step loc n with
    | error error => simp
    | ok next => exact ih

theorem walk_name (plain : Path.IsPlain n) (leads : t.walk loc [n] = .ok last) :
    t.find? loc = some .directory ∧ last = loc ++ [n] := by
  rw [walk] at leads
  split at leads
  · cases leads
  · next next stepped =>
    cases leads
    unfold step at stepped
    split at stepped
    · cases stepped
    · cases stepped
    · next dir =>
      rw [if_neg plain.2.2.1, if_neg plain.2.2.2] at stepped
      split at stepped
      · cases stepped
      · cases stepped
        exact ⟨dir, rfl⟩

theorem resolve_eq_ok :
    t.resolve p = .ok loc ↔
      '\x00' ∉ p.toList ∧ byteLength p.toList ≤ longestPath ∧ t.walk [] (Path.segments p) = .ok loc := by
  unfold resolve
  split
  · next zero =>
    constructor
    · nofun
    · exact fun leads => absurd (contains_iff_mem.1 zero) leads.1
  · next clean =>
    have absent : '\x00' ∉ p.toList := fun inside => clean (contains_iff_mem.2 inside)
    split
    · next long =>
      constructor
      · nofun
      · exact fun leads => absurd leads.2.1 (Nat.not_le.2 long)
    · next short => exact ⟨fun leads => ⟨absent, Nat.not_lt.1 short, leads⟩, fun leads => leads.2.2⟩

section

variable (plain : Path.IsPlain n) (resolved : t.resolve (Path.join b n) = .ok loc)
include plain resolved

theorem walk_of_resolve_join :
    ∃ middle, t.walk [] (Path.names b) = .ok middle ∧ t.find? middle = some .directory ∧
      loc = middle ++ [n] := by
  obtain ⟨-, -, leads⟩ := resolve_eq_ok.1 resolved
  rw [segments_join b plain] at leads
  obtain ⟨middle, pre, leads⟩ := walk_append.1 leads
  exact ⟨middle, pre, walk_name plain leads⟩

/-- **A file is written under its own name.** -/
theorem getLast?_of_resolve_join : loc.getLast? = some n := by
  obtain ⟨middle, -, -, rfl⟩ := walk_of_resolve_join plain resolved
  exact getLast?_concat

end

end FileTree

end Bindery
