/-
Proofs.Disk.Ancestors -- directories are made from the top

A directory is made by trying the path itself first and going up only if something above it is
missing.  That comes to the same as making every ancestor from the top on, each if it is not
there (`makeAll_sim_ensureAll`), because a path can only lead somewhere, or fail for another
reason than a missing name, if its parent does (`isDirectory_of_resolve`,
`makeDirectory_of_resolve_error`).
-/
import Bindery.Proofs.Disk.Place

namespace Bindery

open List hiding splitBy
open String Text

namespace Path

variable {w back : List Char} {n : String}

/-! ## The names of a parent -/

theorem namesOf_trimBack (back : List Char) :
    ∃ count, namesOf back.reverse = namesOf (trimBack back).reverse ++ List.replicate count "." := by
  fun_induction trimBack back with
  | case1 => exact ⟨0, rfl⟩
  | case2 r _ ih =>
    obtain ⟨count, eq⟩ := ih
    exact ⟨count, by rw [List.reverse_cons, namesOf_slash, eq]⟩
  | case3 r ih =>
    obtain ⟨count, eq⟩ := ih
    refine ⟨count + 1, ?_⟩
    have dot := namesOf_append r.reverse (show ['.'] ≠ [] by decide) (by decide)
    rw [List.reverse_cons, namesOf_slash] at eq
    rw [List.reverse_cons, List.reverse_cons, List.append_assoc, List.singleton_append, dot, eq,
      List.append_assoc, List.replicate_succ']
  | case4 => exact ⟨0, by simp⟩

theorem trimBack_suffix (back : List Char) : trimBack back <:+ back := by
  fun_induction trimBack back with
  | case1 => exact suffix_rfl
  | case2 r _ ih => exact ih.trans (suffix_cons _ _)
  | case3 r ih => exact ih.trans (suffix_cons _ _)
  | case4 => exact suffix_rfl

/-- A path stands above another: it is the beginning of its text and of its names. -/
structure Above (par p : String) : Prop where
  text : par.toList <+: p.toList
  names : ∃ rest, rest ≠ [] ∧ names p = names par ++ rest

theorem exists_word (some : trimBack back ≠ []) (below : trimBack back ≠ ['/']) :
    (trimBack back).takeWhile (· != '/') ≠ [] := by
  cases shape : trimBack back with
  | nil => exact absurd shape some
  | cons c r =>
    by_cases slash : c = '/'
    · subst slash
      rw [trimBack_slash shape] at shape
      exact absurd shape below
    · simp [slash]

theorem namesOf_last (word : back.takeWhile (· != '/') ≠ []) :
    namesOf back.reverse = namesOf (back.dropWhile (· != '/')).reverse ++
      [String.ofList (back.takeWhile (· != '/')).reverse] := by
  have whole : '/' ∉ (back.takeWhile (· != '/')).reverse := by
    intro mem
    have kept := List.all_eq_true.1 List.all_takeWhile _ (List.mem_reverse.1 mem)
    simp at kept
  have some : (back.takeWhile (· != '/')).reverse ≠ [] := by simpa using word
  have parts : back.reverse = (back.dropWhile (· != '/')).reverse ++ (back.takeWhile (· != '/')).reverse := by
    rw [← List.reverse_append, List.takeWhile_append_dropWhile]
  rw [parts]
  cases rest : back.dropWhile (· != '/') with
  | nil => exact namesOf_word some whole
  | cons c rest' =>
    have slash := List.head_dropWhile_not (l := back) (· != '/') (by rw [rest]; exact List.cons_ne_nil c rest')
    simp only [rest, List.head_cons, bne_eq_false_iff_eq] at slash
    subst slash
    rw [List.reverse_cons, namesOf_slash, List.append_assoc, List.singleton_append,
      namesOf_append _ some whole]

theorem above_of_parentBack? {par : List Char} (got : parentBack? back = some par) :
    Above (String.ofList par.reverse) (String.ofList back.reverse) := by
  unfold parentBack? at got
  split at got
  · cases got
  · cases got
  · next some below =>
      cases got
      obtain ⟨count, cut⟩ := namesOf_trimBack back
      obtain ⟨r, pre⟩ := namesOf_trimBack ((trimBack back).dropWhile (· != '/'))
      constructor
      · rw [toList_ofList, toList_ofList, reverse_prefix]
        exact (trimBack_suffix _).trans ((dropWhile_suffix _).trans (trimBack_suffix back))
      · -- the names of the parent, dots, the last name, dots
        refine ⟨replicate r "." ++
          ([ofList ((trimBack back).takeWhile (· != '/')).reverse] ++ replicate count "."), by simp, ?_⟩
        rw [names_eq, names_eq, toList_ofList, toList_ofList, cut, namesOf_last (exists_word some below), pre]
        simp only [List.append_assoc]

/-- Paths, each of which stands above the one before it. -/
inductive Lineage : List String → Prop where
  | root (p : String) : Lineage [p]
  | child {p par : String} {rest : List String} (above : Above par p)
      (line : Lineage (par :: rest)) : Lineage (p :: par :: rest)

theorem ancestorsBack_eq_cons (back : List Char) : ∃ above, ancestorsBack back = back :: above := by
  unfold ancestorsBack
  split
  · exact ⟨[], rfl⟩
  · exact ⟨_, rfl⟩

/-- **Each ancestor stands above the one before it.** -/
theorem lineage_ancestors (p : String) : Lineage (ancestors p) := by
  have line : ∀ back : List Char, Lineage ((ancestorsBack back).map fun back => ofList back.reverse) := by
    intro back
    fun_induction ancestorsBack back with
    | case1 back none => exact .root _
    | case2 back par got ih =>
      obtain ⟨above, itself⟩ := ancestorsBack_eq_cons par
      rw [itself, map_cons] at ih ⊢
      exact .child (above_of_parentBack? got) ih
  exact line p.toList.reverse

/-! ## A base and what is below it -/

def trimmed (p : String) : String :=
  String.ofList (trimBack p.toList.reverse).reverse

theorem names_trimmed (p : String) : ∃ count, names p = names (trimmed p) ++ replicate count "." := by
  obtain ⟨count, eq⟩ := namesOf_trimBack p.toList.reverse
  rw [reverse_reverse] at eq
  exact ⟨count, by rw [names_eq, eq, names_eq, trimmed, toList_ofList]⟩

theorem trimBack_of_name {c : Char} {r : List Char} (slash : c ≠ '/')
    (dot : c = '.' → r.head? ≠ some '/') : trimBack (c :: r) = c :: r := by
  unfold trimBack
  split
  · next eq => exact absurd (List.cons.inj eq).1 slash
  · next eq => exact absurd (List.cons.inj eq).1 slash
  · next more eq =>
    obtain ⟨here, behind⟩ := List.cons.inj eq
    exact absurd (by rw [behind]; rfl) (dot here)
  · rfl

theorem trimBack_append (plain : IsPlain n) (r : List Char) :
    trimBack (n.toList.reverse ++ r) = n.toList.reverse ++ r := by
  obtain ⟨some, whole, here, -⟩ := plain
  rcases eq_nil_or_concat n.toList with empty | ⟨pre, c, ended⟩
  · exact absurd empty some
  · rw [ended] at whole
    rw [ended, concat_eq_append, reverse_append, reverse_singleton, singleton_append, cons_append]
    refine trimBack_of_name (fun slash => whole (by simp [slash])) fun dot => ?_
    -- a name that ends in a dot is longer than the dot
    rcases eq_nil_or_concat pre with empty | ⟨inner, d, ended'⟩
    · subst empty dot
      exact absurd (toList_inj.1 ended) here
    · subst ended'
      intro slash
      simp only [concat_eq_append, reverse_append, reverse_singleton, cons_append,
        head?_cons, Option.some.injEq] at slash
      exact whole (by simp [slash])

section

variable (b : String) (plain : IsPlain n)
include b plain

theorem parentBack?_join : parentBack? (join b n).toList.reverse = some (trimBack b.toList.reverse) := by
  have kept : ∀ c ∈ n.toList.reverse, (c != '/') := fun c mem => by
    rw [bne_iff_ne]
    rintro rfl
    exact plain.2.1 (List.mem_reverse.1 mem)
  have ne : n.toList.reverse ≠ [] := by simpa using plain.1
  -- the parent of a name is what stands in front of it, cut
  have cut (r : List Char) : parentBack? (n.toList.reverse ++ r) =
      some (trimBack (r.dropWhile (· != '/'))) := by
    unfold parentBack?
    rw [trimBack_append plain]
    split
    · next empty => simp_all
    · next slash =>
      rcases List.exists_cons_of_ne_nil ne with ⟨c, tl, shape⟩
      rw [shape] at slash kept
      have fst := kept c List.mem_cons_self
      rw [(List.cons.inj slash).1] at fst
      cases fst
    · rw [List.dropWhile_append_of_pos kept]
  have stops (r : List Char) : ('/' :: r).dropWhile (· != '/') = '/' :: r := rfl
  rcases toList_join b plain with ⟨text, ends⟩ | ⟨text, some⟩
  · rw [text, List.reverse_append, cut]
    rcases ends with empty | slash
    · rw [empty]
      rfl
    · obtain ⟨pre, shape⟩ := List.getLast?_eq_some_iff.1 slash
      rw [shape, List.reverse_append, List.reverse_singleton, List.singleton_append, stops]
  · rw [text, List.reverse_append, List.reverse_cons, List.append_assoc, cut, List.singleton_append, stops,
      trimBack]
    simpa using some

/-- **The ancestors of a name behind a base** are those of the base. -/
theorem ancestors_join : ancestors (join b n) = join b n :: ancestors (trimmed b) := by
  have back : ancestorsBack (join b n).toList.reverse =
      (join b n).toList.reverse :: ancestorsBack (trimBack b.toList.reverse) := by
    rw [ancestorsBack]
    split
    · next none => rw [parentBack?_join b plain] at none; cases none
    · next parent got =>
      rw [parentBack?_join b plain] at got
      cases got
      rfl
  rw [ancestors, back, map_cons, reverse_reverse, ofList_toList, ancestors, trimmed,
    toList_ofList, reverse_reverse]

theorem trimmed_join : trimmed (join b n) = join b n := by
  rcases toList_join b plain with ⟨s, -⟩ | ⟨s, -⟩
  · rw [trimmed, s, reverse_append, trimBack_append plain, ← reverse_append, reverse_reverse,
      ← s, ofList_toList]
  · rw [trimmed, s, append_cons, reverse_append, trimBack_append plain, ← reverse_append,
      reverse_reverse, ← append_cons, ← s, ofList_toList]

end

def Clean (p : String) : Prop :=
  '\x00' ∉ p.toList ∧ byteLength p.toList ≤ FileTree.longestPath

theorem Clean.of_above {par p : String} (clean : Clean p) (above : Above par p) : Clean par := by
  obtain ⟨r, s⟩ := above.text
  obtain ⟨zero, short⟩ := clean
  rw [← s] at zero short
  rw [byteLength_append] at short
  exact ⟨fun mem => zero (mem_append_left _ mem), by omega⟩

end Path

namespace FileTree

variable {t later : FileTree} {p par : String} {loc : Location} {error : DiskError} {ε α : Type}

/-! ## A path and its parent -/

theorem resolve_of_clean (clean : Path.Clean p) : t.resolve p = t.walk [] (Path.segments p) := by
  rw [resolve, if_neg (by simpa using clean.1), if_neg (by have := clean.2; omega)]

theorem resolve_of_unclean (t : FileTree) (unclean : ¬ Path.Clean p) :
    ∃ error, t.resolve p = .error error ∧ error ≠ .notFound := by
  unfold resolve
  split
  · exact ⟨_, rfl, nofun⟩
  · next zero =>
    split
    · exact ⟨_, rfl, nofun⟩
    · next short => exact absurd ⟨by simpa using zero, by omega⟩ unclean

theorem walk_append_eq (loc : Location) (ns more : List String) :
    t.walk loc (ns ++ more) = (t.walk loc ns).bind fun next => t.walk next more := by
  induction ns generalizing loc with
  | nil => rfl
  | cons n ns ih =>
    rw [cons_append, walk, walk]
    cases t.step loc n with
    | error error => rfl
    | ok next => exact ih next

theorem exists_segments (p : String) :
    ∃ dot, Path.segments p = Path.names p ++ dot ∧ (dot = [] ∨ dot = ["."]) := by
  have parts : Path.segments p = Path.names p ++ if p.toList.getLast? == some '/' then ["."] else [] := rfl
  refine ⟨_, parts, ?_⟩
  split
  · exact .inr rfl
  · exact .inl rfl

theorem segments_of_above (above : Path.Above par p) : ∃ n r, Path.segments p = Path.names par ++ n :: r := by
  obtain ⟨r, some, ns⟩ := above.names
  obtain ⟨dot, parts, -⟩ := exists_segments p
  obtain ⟨n, tl, rfl⟩ := exists_cons_of_ne_nil some
  exact ⟨n, tl ++ dot, by rw [parts, ns, List.append_assoc, cons_append]⟩

theorem isDirectory_of_walk (clean : Path.Clean p) (leads : t.walk [] (Path.names p) = .ok loc)
    (got : t.find? loc = some .directory) : t.isDirectory p = true := by
  refine isDirectory_iff.2 ⟨loc, ?_, got⟩
  obtain ⟨dot, ps, rfl | rfl⟩ := exists_segments p
  · rw [resolve_of_clean clean, ps, append_nil, leads]
  · rw [resolve_of_clean clean, ps, walk_append_eq, leads]
    simp [Except.bind, walk, step, got]

theorem isDirectory_of_resolve (above : Path.Above par p)
    (leads : t.resolve p = .ok loc) : t.isDirectory par := by
  obtain ⟨zero, short, walked⟩ := resolve_eq_ok.1 leads
  obtain ⟨n, r, parts⟩ := segments_of_above above
  rw [parts] at walked
  obtain ⟨middle, pre, walked⟩ := walk_append.1 walked
  rw [walk] at walked
  split at walked
  · cases walked
  · next next stepped =>
    exact isDirectory_of_walk (Path.Clean.of_above ⟨zero, short⟩ above) pre (eq_follow_of_step stepped).1

theorem makeDirectory_of_resolve_error (above : Path.Above par p) (clean : Path.Clean p)
    (failed : t.resolve p = .error error) (other : error ≠ .notFound) :
    ∃ error, t.makeDirectory par = .error error ∧ error ≠ .notFound := by
  obtain ⟨n, r, ps⟩ := segments_of_above above
  obtain ⟨dot, ps', dots⟩ := exists_segments par
  rw [resolve_of_clean clean, ps, walk_append_eq] at failed
  have itself : t.resolve par =
      (t.walk [] (Path.names par)).bind fun next => t.walk next dot := by
    rw [resolve_of_clean (clean.of_above above), ps', walk_append_eq]
  cases walked : t.walk [] (Path.names par) with
  | error error' =>
    rw [walked] at failed itself
    cases failed
    exact ⟨_, by rw [makeDirectory, itself]; rfl, other⟩
  | ok middle =>
    rw [walked] at failed itself
    cases got : t.find? middle with
    | none =>
      have missing : t.walk middle (n :: r) = .error .notFound := by simp [walk, step, got]
      cases missing.symm.trans failed
      exact absurd rfl other
    | some e =>
      rcases dots with rfl | rfl
      · refine ⟨.alreadyExists, ?_, by decide⟩
        have leads : t.resolve par = .ok middle := itself
        simp [makeDirectory, leads, got]
      · cases e with
        | directory =>
          refine ⟨.alreadyExists, ?_, by decide⟩
          have leads : t.resolve par = .ok middle := by
            simp [itself, Except.bind, walk, step, got]
          simp [makeDirectory, leads, got]
        | file content =>
          refine ⟨.notDirectory, ?_, by decide⟩
          have leads : t.resolve par = .error .notDirectory := by
            simp [itself, Except.bind, walk, step, got]
          simp [makeDirectory, leads]

/-! ## Making every ancestor -/

theorem ensure_of_ok (made : t.makeDirectory p = .ok later) : ensure p t = (.ok (), later) := by
  rw [ensure, bind_apply, makeDirectory_of_ok made]
  rfl

theorem ensure_of_error (failed : t.makeDirectory p = .error error) :
    ensure p t = (if t.isDirectory p then .ok () else .error error, t) := by
  rw [ensure, bind_apply, makeDirectory_of_error failed]
  rfl

theorem ensure_of_isDirectory (there : t.isDirectory p) : ensure p t = (.ok (), t) := by
  rw [ensure_of_error (makeDirectory_of_isDirectory there), if_pos there]

theorem eq_of_ensure_error (failed : ensure p t = (.error error, later)) : later = t := by
  cases made : t.makeDirectory p with
  | ok next => rw [ensure_of_ok made] at failed; cases failed
  | error error =>
    rw [ensure_of_error made] at failed
    exact (Prod.mk.inj failed).2.symm

def ensureAll : List String → StateM FileTree (Except DiskError Unit)
  | [] => return .ok ()
  | p :: above => do
      match ← ensureAll above with
      | .error error => return .error error
      | .ok _ => ensure p

section EnsureAll

variable {above : List String} {paths : List String}

theorem ensureAll_cons_of_ok (p : String) (done : ensureAll above t = (.ok (), later)) :
    ensureAll (p :: above) t = ensure p later := by
  rw [ensureAll, bind_apply, done]

theorem ensureAll_cons_of_error (p : String) (failed : ensureAll above t = (.error error, later)) :
    ensureAll (p :: above) t = (.error error, later) := by
  rw [ensureAll, bind_apply, failed]
  rfl

theorem Grows.isDirectory (grows : Grows t later) (there : t.isDirectory p) : later.isDirectory p := by
  obtain ⟨loc, leads, got⟩ := isDirectory_iff.1 there
  exact isDirectory_iff.2 ⟨loc, grows.resolve leads, grows loc got⟩

theorem isDirectory_of_ensureAll (done : ensureAll paths t = (.ok (), later)) :
    ∀ p ∈ paths, later.isDirectory p := by
  induction paths generalizing later with
  | nil => nofun
  | cons fst above ih =>
    rcases prev : ensureAll above t with ⟨outcome, middle⟩
    cases outcome with
    | error error => rw [ensureAll_cons_of_error _ prev] at done; cases done
    | ok _ =>
      rw [ensureAll_cons_of_ok _ prev] at done
      have made := adds_ensure fst middle
      rw [done] at made
      intro p mem
      rcases mem_cons.1 mem with rfl | mem
      · exact made.2 rfl
      · exact made.1.grows.isDirectory (ih prev p mem)

/-- **Directories that are there** are made without effect. -/
theorem ensureAll_of_isDirectory (there : ∀ p ∈ paths, t.isDirectory p) : ensureAll paths t = (.ok (), t) := by
  induction paths with
  | nil => rfl
  | cons p above ih =>
    rw [ensureAll_cons_of_ok _ (ih fun p mem => there p (.tail _ mem))]
    exact ensure_of_isDirectory (there p mem_cons_self)

/-- **What failed once fails again**, without effect. -/
theorem ensureAll_of_error (failed : ensureAll paths t = (.error error, later)) :
    ensureAll paths later = (.error error, later) := by
  induction paths generalizing later with
  | nil => cases failed
  | cons p above ih =>
    rcases prev : ensureAll above t with ⟨outcome, middle⟩
    cases outcome with
    | error error' =>
      rw [ensureAll_cons_of_error _ prev] at failed
      cases failed
      exact ensureAll_cons_of_error _ (ih prev)
    | ok _ =>
      rw [ensureAll_cons_of_ok _ prev] at failed
      cases eq_of_ensure_error failed
      rw [ensureAll_cons_of_ok _ (ensureAll_of_isDirectory (isDirectory_of_ensureAll prev)), failed]

end EnsureAll

/-! ## The two ways agree -/

/-- Two outcomes with the same tree, which differ at most in the reason of a failure. -/
def Sim {ε α : Type} (first second : Except ε α × FileTree) : Prop :=
  first.1.toOption = second.1.toOption ∧ first.2 = second.2

variable {fst snd : Except ε α × FileTree}

theorem Sim.of_eq (eq : fst = snd) : Sim fst snd := eq ▸ ⟨rfl, rfl⟩

theorem Sim.symm (sim : Sim fst snd) : Sim snd fst := ⟨sim.1.symm, sim.2.symm⟩

theorem Sim.cases {outcome : Except ε α} (sim : Sim (outcome, later) snd) :
    (∃ v, outcome = .ok v ∧ snd = (.ok v, later)) ∨
      ∃ error error', outcome = .error error ∧ snd = (.error error', later) := by
  obtain ⟨other, last⟩ := snd
  obtain ⟨values, trees⟩ := sim
  cases trees
  cases outcome with
  | ok v =>
    cases other with
    | ok v' =>
      cases values
      exact .inl ⟨v, rfl, rfl⟩
    | error error => cases values
  | error error =>
    cases other with
    | ok v => cases values
    | error error' => exact .inr ⟨error, error', rfl, rfl⟩

section MakeAll

variable {above : List String}

theorem makeAll_of_ok (made : t.makeDirectory p = .ok later) :
    disk.makeAll (p :: above) t = (.ok (), later) := by
  rw [Disk.makeAll, bind_apply, makeDirectory_of_ok made]
  rfl

theorem makeAll_of_error (failed : t.makeDirectory p = .error error) (other : error ≠ .notFound) :
    disk.makeAll (p :: above) t = ensure p t := by
  rw [Disk.makeAll, ensure, bind_apply, bind_apply, makeDirectory_of_error failed]
  cases error with
  | notFound => exact absurd rfl other
  | alreadyExists | notDirectory | isDirectory | nameTooLong | zeroInName | notText | other _ => rfl

theorem makeAll_of_missing (failed : t.makeDirectory p = .error .notFound) {outcome : Except DiskError Unit}
    (prev : disk.makeAll above t = (outcome, later)) :
    disk.makeAll (p :: above) t = if outcome.isOk then ensure p later else (outcome, later) := by
  rw [Disk.makeAll, bind_apply, makeDirectory_of_error failed]
  dsimp only
  rw [bind_apply, prev]
  cases outcome <;> rfl

theorem makeAll_of_isDirectory (there : t.isDirectory p) : disk.makeAll (p :: above) t = (.ok (), t) := by
  rw [makeAll_of_error (makeDirectory_of_isDirectory there) (by decide), ensure_of_isDirectory there]

theorem isDirectory_of_resolve_error (failed : t.resolve p = .error error) : t.isDirectory p = false := by
  rw [← Bool.not_eq_true, isDirectory_iff]
  rintro ⟨loc, leads, -⟩
  cases leads.symm.trans failed

theorem resolve_of_makeDirectory_missing (failed : t.makeDirectory p = .error .notFound) :
    t.resolve p = .error .notFound := by
  unfold makeDirectory at failed
  split at failed
  · next error resolved =>
    cases failed
    exact resolved
  · split at failed <;> cases failed

theorem resolve_of_makeDirectory_error (failed : t.makeDirectory p = .error error) :
    (∃ loc, t.resolve p = .ok loc) ∨ t.resolve p = .error error := by
  unfold makeDirectory at failed
  split at failed
  · next error resolved =>
    cases failed
    exact .inr resolved
  · next loc resolved => exact .inl ⟨loc, resolved⟩

/-- **Making a directory comes to making every ancestor from the top.** -/
theorem makeAll_sim_ensureAll {paths : List String} (l : Path.Lineage paths)
    (clean : ∀ p ∈ paths.head?, Path.Clean p) (t : FileTree) :
    Sim (disk.makeAll paths t) (ensureAll paths t) := by
  induction l with
  | root p =>
    show Sim _ (ensure p t)
    cases made : t.makeDirectory p with
    | ok later => exact .of_eq (by rw [makeAll_of_ok made, ensure_of_ok made])
    | error error =>
      by_cases missing : error = .notFound
      · subst missing
        have absent := isDirectory_of_resolve_error (resolve_of_makeDirectory_missing made)
        rw [makeAll_of_missing made (show disk.makeAll [] t = (.error .notFound, t) from rfl),
          ensure_of_error made, absent]
        exact ⟨rfl, rfl⟩
      · exact .of_eq (makeAll_of_error made missing)
  | @child p par r above l ih =>
    have clean : Path.Clean p := clean p rfl
    have ih := ih fun _ head => Option.some.inj head ▸ clean.of_above above
    -- below a parent that is there, only the directory itself is made
    have below (there : t.isDirectory par) :
        ensureAll (p :: par :: r) t = ensure p t := by
      rw [makeAll_of_isDirectory there] at ih
      obtain ⟨_, -, done⟩ | ⟨_, _, failed, -⟩ := ih.cases
      · exact ensureAll_cons_of_ok _ done
      · cases failed
    cases made : t.makeDirectory p with
    | ok later =>
      obtain ⟨loc, leads, -⟩ := makeDirectory_eq_ok.1 made
      rw [makeAll_of_ok made, below (isDirectory_of_resolve above leads), ensure_of_ok made]
      exact ⟨rfl, rfl⟩
    | error error =>
      by_cases missing : error = .notFound
      · subst missing
        rcases prev : disk.makeAll (par :: r) t with ⟨outcome, later⟩
        rw [prev] at ih
        rw [makeAll_of_missing made prev]
        obtain ⟨_, rfl, done⟩ | ⟨_, _, rfl, failed⟩ := ih.cases
        · rw [ensureAll_cons_of_ok _ done]
          exact ⟨rfl, rfl⟩
        · rw [ensureAll_cons_of_error _ failed]
          exact ⟨rfl, rfl⟩
      · rw [makeAll_of_error made missing]
        rcases resolve_of_makeDirectory_error made with ⟨loc, leads⟩ | failed
        · exact .of_eq (below (isDirectory_of_resolve above leads)).symm
        · obtain ⟨error', unmade, other⟩ := makeDirectory_of_resolve_error above clean failed missing
          rw [makeAll_of_error unmade other, ensure_of_error unmade] at ih
          obtain ⟨_, -, done⟩ | ⟨_, _, -, failed'⟩ := ih.cases
          · rw [ensureAll_cons_of_ok _ done]
            exact ⟨rfl, rfl⟩
          · rw [ensureAll_cons_of_error _ failed', ensure_of_error made, isDirectory_of_resolve_error failed]
            exact ⟨rfl, rfl⟩

theorem makeDirectories_of_unclean (t : FileTree) (unclean : ¬ Path.Clean p) :
    ∃ error, disk.makeDirectories p t = (.error error, t) := by
  obtain ⟨error, failed, other⟩ := resolve_of_unclean t unclean
  obtain ⟨above, itself⟩ := ancestors_eq_cons p
  have made : t.makeDirectory p = .error error := by rw [makeDirectory, failed]
  rw [Disk.makeDirectories, itself, makeAll_of_error made other, ensure_of_error made,
    isDirectory_of_resolve_error failed]
  exact ⟨error, rfl⟩

end MakeAll

end FileTree

end Bindery
