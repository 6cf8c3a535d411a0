/-
Proofs.Command.Order -- several notebooks in one request

The library of each notebook goes to a directory of its own name below a common base.  Where
the names differ, and no notebook is a file that another library is made of, every build finds
its notebook as it was (`buildAll_eq_runJobs`) and fills its directory as if it were alone
(`exists_fills`).  So the order of the builds makes no difference, and no library is lost
(`buildAll_perm`).
-/
import Bindery.Command.Run
import Bindery.Proofs.Build.Filling
import Bindery.Proofs.Notebook.Slug

namespace Bindery

open List String FileTree Build Notebook

/-! ## Where libraries go -/

namespace Path

def glue (b : String) : String :=
  if b.isEmpty || b.toList.getLast? == some '/' then "" else "/"

variable {p n : String}

theorem join_of_relative (b : String) (relative : isAbsolute p = false) : join b p = b ++ glue b ++ p := by
  rw [join, relative, if_neg Bool.false_ne_true, glue]
  split
  · rw [append_empty]
  · rfl

theorem join_of_absolute (b : String) (absolute : isAbsolute p) : join b p = p := if_pos absolute

theorem isAbsolute_append {fst : String} (ne : fst ≠ "") (r : String) :
    isAbsolute (fst ++ r) = isAbsolute fst := by
  have some : fst.toList ≠ [] := fun empty => ne (toList_eq_nil_iff.1 empty)
  rw [isAbsolute, isAbsolute, toList_append, head?_append_of_ne_nil _ some]

theorem glue_append (fst : String) {r : String} (ne : r ≠ "") : glue (fst ++ r) = glue r := by
  have some : r.toList ≠ [] := fun empty => ne (toList_eq_nil_iff.1 empty)
  have longer : fst ++ r ≠ "" := fun empty => ne (append_eq_empty_iff.1 empty).2
  have present {text : String} (ne : text ≠ "") : text.isEmpty = false := by
    rwa [← Bool.not_eq_true, String.isEmpty_iff]
  rw [glue, glue, present longer, present ne, toList_append, getLast?_append_of_ne_nil _ some]

theorem glue_glue (b : String) : glue (b ++ glue b) = "" := by
  by_cases bare : (b.isEmpty || b.toList.getLast? == some '/')
  · rw [glue, glue, if_pos bare, append_empty, if_pos bare]
  · have slash : glue b = "/" := if_neg bare
    rw [slash, glue_append _ (by decide)]
    rfl

theorem join_join (dir out : String) (plain : IsPlain n) : join dir (join out n) = join (join dir out) n := by
  have relative : isAbsolute n = false := by
    rw [isAbsolute, beq_eq_false_iff_ne]
    exact fun fst => plain.2.1 (mem_of_head? fst)
  rw [join_of_relative out relative, join_of_relative (join dir out) relative]
  by_cases empty : out = ""
  · subst empty
    rw [show "" ++ glue "" ++ n = n from empty_append, join_of_relative dir relative,
      join_of_relative dir (show isAbsolute "" = false from rfl), append_empty, glue_glue,
      append_empty]
  · have whole : isAbsolute (out ++ glue out ++ n) = isAbsolute out := by
      rw [String.append_assoc, isAbsolute_append empty]
    cases absolute : isAbsolute out with
    | true => rw [join_of_absolute _ (whole.trans absolute), join_of_absolute _ absolute]
    | false =>
      rw [join_of_relative _ (whole.trans absolute), join_of_relative _ absolute, glue_append _ empty]
      simp only [String.append_assoc]

end Path

/-! ## The job of one notebook -/

/-- The library of the notebook in a text. -/
def Build.libraryOf (text : String) : Except Error Library :=
  match Notebook.parse text with
  | .error fault => .error (.document fault)
  | .ok notebook => (generate notebook notebook.libraryName [] defaultRange).map Prod.fst

/-- Write the library of the notebook in a text to the directory of its name. -/
def Build.jobOf (b text : String) : StateM FileTree (Except Error (Bool × Bool)) :=
  match libraryOf text with
  | .error error => pure (.error error)
  | .ok library => (writeLibrary FileTree.disk library (Path.join b (Notebook.libraryNameIn text))).run

namespace Build

variable {b text : String} {library : Library}

theorem jobOf_of_library (made : libraryOf text = .ok library) :
    jobOf b text = (writeLibrary FileTree.disk library (Path.join b (libraryNameIn text))).run := by
  rw [jobOf, made]

theorem jobOf_of_error {error : Error} (failed : libraryOf text = .error error) :
    jobOf b text = pure (.error error) := by
  rw [jobOf, failed]

theorem altering_jobOf (b text : String) :
    Altering ((artifacts (Path.join b (libraryNameIn text))).map Path.target) (jobOf b text) := by
  cases made : libraryOf text with
  | error error =>
    rw [jobOf_of_error made]
    exact .of_looks fun _ => rfl
  | ok library =>
    rw [jobOf_of_library made]
    exact altering_writeLibrary library _

variable {tree later : FileTree}

theorem read_of_jobOf {done : Bool × Bool} (succeeds : jobOf b text tree = (.ok done, later)) :
    ∃ library, libraryOf text = .ok library ∧
      later.read (Path.join (Path.join (Path.join b (libraryNameIn text)) "src") "define.js") =
        .ok library.moduleText := by
  cases made : libraryOf text with
  | error error =>
    rw [jobOf_of_error made] at succeeds
    cases succeeds
  | ok library =>
    rw [jobOf_of_library made] at succeeds
    obtain ⟨existing, holds, -⟩ := holds_of_writeLibrary succeeds
    have source := holds.source
    simp only [sourceFiles, forall_mem_cons] at source
    exact ⟨library, rfl, source.1⟩

/-- **The job of a notebook fills the directory of its name.** -/
theorem exists_fills (b text : String) : ∃ plan, Fills b (libraryNameIn text) (jobOf b text) plan := by
  have plain := isPlain_libraryNameIn text
  cases made : libraryOf text with
  | error error =>
    refine ⟨none, fun _ tree => ⟨error, ?_⟩, nofun, nofun, nofun⟩
    rw [jobOf_of_error made]
    rfl
  | ok library =>
    by_cases clean : Path.Clean (Path.join (Path.join b (libraryNameIn text)) "src")
    · refine ⟨some (fill library (Path.join b (libraryNameIn text))).run, nofun, ?_, ?_, ?_⟩
      · intro action eq
        obtain rfl := Option.some.inj eq
        exact confined_fill plain library
      · intro _ _ tree error later blocked
        rw [jobOf_of_library made]
        exact writeLibrary_of_blocked plain clean blocked
      · intro action eq tree later ready
        obtain rfl := Option.some.inj eq
        rw [jobOf_of_library made]
        exact writeLibrary_of_made plain clean ready
    · refine ⟨none, fun _ tree => ?_, nofun, nofun, nofun⟩
      rw [jobOf_of_library made]
      exact writeLibrary_of_unclean clean

end Build

namespace Command

def BuildRequest.base (setting : Setting) (request : BuildRequest) : String :=
  match request.out with
  | none => setting.directory
  | some out => Path.join setting.directory out

def textAt (tree : FileTree) (input : String) : String :=
  (tree.read input).toOption.getD ""

def libraryNameAt (tree : FileTree) (input : String) : String :=
  Notebook.libraryNameIn (textAt tree input)

/-- The directory of the library of an input. -/
def BuildRequest.outputAt (setting : Setting) (request : BuildRequest) (tree : FileTree) (input : String) :
    String :=
  Path.join (request.base setting) (libraryNameAt tree input)

variable {tree : FileTree} {input : String}

theorem textAt_of_read {text : String} (read : tree.read input = .ok text) : textAt tree input = text := by
  rw [textAt, read]
  rfl

section Single

variable {setting : Setting} {request : BuildRequest} {text : String}

theorem outFor_run (several : 1 < request.inputs.length) (read : tree.read input = .ok text) :
    (request.outFor FileTree.disk input).run tree =
      (.ok (request.out.map (Path.join · (libraryNameIn text))), tree) := by
  unfold BuildRequest.outFor
  cases request.out with
  | none => rfl
  | some out =>
    dsimp only
    rw [if_neg (Nat.not_le.2 several)]
    exact bind_of_ok (onDisk_eq_ok.2 (Prod.ext read rfl))

variable {opts : BuildOptions}

theorem outOf_eq (setting : Setting) (request : BuildRequest) (text : String)
    (dir : opts.directory = setting.directory)
    (out : opts.out = request.out.map (Path.join · (libraryNameIn text))) :
    outOf opts (libraryNameIn text) = Path.join (request.base setting) (libraryNameIn text) := by
  rw [outOf, dir, out, BuildRequest.base]
  cases request.out with
  | none => rfl
  | some out => exact Path.join_join _ _ (isPlain_libraryNameIn text)

theorem run_of_unlinked {b : String} (name : opts.name = none)
    (unlinked : opts.linkWorkspace = false) (range : opts.range = defaultRange)
    (place : outOf opts (libraryNameIn text) = Path.join b (libraryNameIn text))
    (read : tree.read (Path.join opts.directory input) = .ok text) :
    ((Build.run FileTree.disk input opts).run tree).1.isOk = (jobOf b text tree).1.isOk ∧
      ((Build.run FileTree.disk input opts).run tree).2 = (jobOf b text tree).2 := by
  have linked : (linkable disk opts tree).1 = [] := by
    rw [linkable, unlinked]
    rfl
  cases parsed : Notebook.parse text with
  | error fault =>
    have failed : libraryOf text = .error (.document fault) := by rw [libraryOf, parsed]
    rw [run_of_fault read parsed, jobOf_of_error failed]
    exact ⟨rfl, rfl⟩
  | ok nb =>
    have named : opts.name.getD nb.libraryName = nb.libraryName := by rw [name]; rfl
    have made : libraryOf text = (generate nb nb.libraryName [] defaultRange).map Prod.fst := by
      rw [libraryOf, parsed]
    cases gen : generate nb nb.libraryName [] defaultRange with
    | error error =>
      rw [gen] at made
      rw [run_of_refusal read parsed (by rw [named, linked, range, gen]), jobOf_of_error made]
      exact ⟨rfl, rfl⟩
    | ok library =>
      rw [gen] at made
      rw [run_of_library read parsed (by rw [named, linked, range, gen]), named,
        libraryName_of_parse parsed, place, jobOf_of_library made]
      refine ⟨?_, rfl⟩
      cases ((writeLibrary disk library.1 (Path.join b (libraryNameIn text))).run tree).1 <;> rfl

/-- **The build of one of several inputs is its job.** -/
theorem buildOne_run (several : 1 < request.inputs.length) (unnamed : request.name = none)
    (unlinked : request.linkWorkspace = false) (absolute : Path.isAbsolute input)
    (read : tree.read input = .ok text) :
    ((request.buildOne FileTree.disk setting input).run tree).1.isOk =
        (jobOf (request.base setting) text tree).1.isOk ∧
      ((request.buildOne FileTree.disk setting input).run tree).2 =
        (jobOf (request.base setting) text tree).2 := by
  rw [BuildRequest.buildOne, bind_of_ok (outFor_run several read)]
  exact run_of_unlinked unnamed unlinked rfl (outOf_eq setting request text rfl rfl)
    (by rw [Path.join_of_absolute _ absolute, read])

end Single

/-! ## All inputs of a request -/

section Preparing

variable {setting : Setting} {request : BuildRequest}

theorem canonicalInputs_cons (p : String) (paths : List String) :
    (canonicalInputs FileTree.disk setting (p :: paths) tree).1 =
      (tree.canonical (Path.join setting.directory p)).bind fun fst =>
        (canonicalInputs FileTree.disk setting paths tree).1.map (fst :: ·) := by
  have looked : disk.canonical (Path.join setting.directory p) tree =
      (tree.canonical (Path.join setting.directory p), tree) := rfl
  rw [canonicalInputs, bind_apply, looked]
  cases tree.canonical (Path.join setting.directory p) <;> rfl

variable {inputs : List String}

theorem isAbsolute_of_canonicalInputs {paths : List String}
    (got : (canonicalInputs FileTree.disk setting paths tree).1 = .ok inputs) :
    ∀ input ∈ inputs, Path.isAbsolute input := by
  induction paths generalizing inputs with
  | nil =>
    cases got
    nofun
  | cons p paths ih =>
    rw [canonicalInputs_cons] at got
    cases canonical : tree.canonical (Path.join setting.directory p) with
    | error error =>
      rw [canonical] at got
      cases got
    | ok fst =>
      rw [canonical] at got
      obtain ⟨r, tl, rfl⟩ := Except.map_eq_ok.1 got
      refine forall_mem_cons.2 ⟨?_, ih tl⟩
      unfold FileTree.canonical at canonical
      split at canonical
      · cases canonical
      · cases canonical
        rw [Path.isAbsolute, pathOf, String.toList_append]
        rfl

theorem prepare_eq_ok (several : 1 < request.inputs.length)
    (prepared : (request.prepare FileTree.disk setting tree).1 = .ok inputs) :
    request.name = none ∧ ∀ input ∈ inputs, Path.isAbsolute input := by
  unfold BuildRequest.prepare at prepared
  rw [bind_apply] at prepared
  cases fault : (request.fault? disk setting tree).1 with
  | some fault =>
    rw [fault] at prepared
    cases prepared
  | none =>
    rw [fault] at prepared
    refine ⟨?_, isAbsolute_of_canonicalInputs (Except.mapError_eq_ok.1 prepared)⟩
    cases named : request.name with
    | none => rfl
    | some n =>
      have refused : (request.name.isSome && decide (1 < request.inputs.length)) := by
        rw [named, decide_eq_true several]
        rfl
      rw [BuildRequest.fault?, if_pos refused] at fault
      cases fault

end Preparing

/-- Two inputs whose libraries do not meet: the libraries have different names, and neither input
is a file of the other's library. -/
structure BuildRequest.Apart (setting : Setting) (request : BuildRequest) (tree : FileTree)
    (input other : String) : Prop where
  names : libraryNameAt tree input ≠ libraryNameAt tree other
  spares : Path.target other ∉ (artifacts (request.outputAt setting tree input)).map Path.target
  spared : Path.target input ∉ (artifacts (request.outputAt setting tree other)).map Path.target

theorem BuildRequest.Apart.symm {setting : Setting} {request : BuildRequest} {other : String}
    (apart : request.Apart setting tree input other) : request.Apart setting tree other input :=
  ⟨apart.names.symm, apart.spared, apart.spares⟩

theorem region_artifacts {b : String} (plain : Path.IsPlain n) :
    ∀ loc ∈ (artifacts (Path.join b n)).map Path.target, Region b n loc := by
  intro loc mem
  rw [target_artifacts, Path.target_join b plain] at mem
  rcases mem_append.1 mem with file | readme
  · simp only [libraryFiles, mem_cons, not_mem_nil, or_false] at file
    rcases file with rfl | rfl | rfl | rfl <;> exact prefix_append _ _
  · rw [mem_singleton.1 readme]
    exact prefix_append _ _

theorem mem_artifacts_define (out : String) : Path.join (Path.join out "src") "define.js" ∈ artifacts out := by
  rw [artifacts, places, map_cons]
  exact mem_cons_self

section Several

variable (setting : Setting) (request : BuildRequest)

theorem buildAll_cons_snd (input : String) (r : List String) (now : FileTree) :
    (request.buildAll FileTree.disk setting (input :: r) now).2 =
      (request.buildAll FileTree.disk setting r
        ((request.buildOne FileTree.disk setting input).run now).2).2 := by
  rw [BuildRequest.buildAll, bind_apply, bind_apply]
  generalize request.buildAll disk setting r ((request.buildOne disk setting input).run now).2 = later
  obtain ⟨⟨text, failures⟩, last⟩ := later
  split <;> rfl

theorem mem_failures_cons (input : String) (r : List String) (now : FileTree) (failure : String × Error) :
    failure ∈ (request.buildAll FileTree.disk setting (input :: r) now).1.2 ↔
      (failure.1 = input ∧ ((request.buildOne FileTree.disk setting input).run now).1 = .error failure.2) ∨
      failure ∈ (request.buildAll FileTree.disk setting r
        ((request.buildOne FileTree.disk setting input).run now).2).1.2 := by
  rw [BuildRequest.buildAll, bind_apply, bind_apply]
  generalize request.buildAll disk setting r ((request.buildOne disk setting input).run now).2 = later
  obtain ⟨⟨text, failures⟩, last⟩ := later
  split
  · next report succeeded =>
    rw [succeeded]
    exact ⟨.inr, fun either => either.resolve_left nofun⟩
  · next error failed =>
    rw [failed]
    refine mem_cons.trans (or_congr_left ?_)
    rw [Prod.ext_iff, Except.error.injEq, eq_comm (a := error)]

variable {now : FileTree} {text : String}

theorem mem_of_mem_failures {order : List String} {failure : String × Error}
    (failed : failure ∈ (request.buildAll FileTree.disk setting order now).1.2) : failure.1 ∈ order := by
  induction order generalizing now with
  | nil => cases failed
  | cons input order ih =>
    rcases (mem_failures_cons setting request input order now failure).1 failed with ⟨here, -⟩ | behind
    · exact here ▸ mem_cons_self
    · exact mem_cons_of_mem _ (ih behind)

variable {setting request} {order : List String} (several : 1 < request.inputs.length)
  (unnamed : request.name = none) (unlinked : request.linkWorkspace = false)

theorem altering_job (input : String) :
    Altering ((artifacts (request.outputAt setting tree input)).map Path.target)
      (jobOf (request.base setting) (textAt tree input)) :=
  altering_jobOf _ _

theorem read_runJobs {p : String}
    (spared : ∀ input ∈ order, Path.target p ∉ (artifacts (request.outputAt setting tree input)).map Path.target)
    (got : now.read p = .ok text) :
    (runJobs (fun input => jobOf (request.base setting) (textAt tree input)) order now).read p = .ok text := by
  induction order generalizing now with
  | nil => exact got
  | cons fst order ih =>
    obtain ⟨here, spared⟩ := forall_mem_cons.1 spared
    rw [runJobs_cons]
    exact ih spared ((altering_job fst now).read here got)

include several unnamed unlinked

/-- **Builds one after the other are their jobs**, as each finds its notebook as it was. -/
theorem buildAll_eq_runJobs (apart : order.Pairwise (request.Apart setting tree))
    (absolute : ∀ input ∈ order, Path.isAbsolute input)
    (readable : ∀ input ∈ order, now.read input = .ok (textAt tree input)) :
    (request.buildAll FileTree.disk setting order now).2 =
      runJobs (fun input => jobOf (request.base setting) (textAt tree input)) order now := by
  induction order generalizing now with
  | nil => rfl
  | cons fst order ih =>
    obtain ⟨head, apart⟩ := pairwise_cons.1 apart
    obtain ⟨rooted, absolute⟩ := forall_mem_cons.1 absolute
    obtain ⟨read, readable⟩ := forall_mem_cons.1 readable
    obtain ⟨-, later⟩ := buildOne_run several unnamed unlinked rooted read
    rw [buildAll_cons_snd, runJobs_cons, later]
    refine ih apart absolute fun input mem => ?_
    exact (altering_job fst now).read (head input mem).spares (readable input mem)

/-- **A library that was written stays.** -/
theorem read_define (apart : order.Pairwise (request.Apart setting tree))
    (absolute : ∀ input ∈ order, Path.isAbsolute input)
    (readable : ∀ input ∈ order, now.read input = .ok (textAt tree input)) {input : String}
    (mem : input ∈ order)
    (succeeds : ∀ error, (input, error) ∉ (request.buildAll FileTree.disk setting order now).1.2) :
    ∃ library, libraryOf (textAt tree input) = .ok library ∧
      (request.buildAll FileTree.disk setting order now).2.read
        (Path.join (Path.join (request.outputAt setting tree input) "src") "define.js") =
          .ok library.moduleText := by
  induction order generalizing now with
  | nil => cases mem
  | cons fst order ih =>
    obtain ⟨head, os⟩ := pairwise_cons.1 apart
    obtain ⟨rooted, roots⟩ := forall_mem_cons.1 absolute
    obtain ⟨read, reads⟩ := forall_mem_cons.1 readable
    obtain ⟨outcome, later⟩ := buildOne_run several unnamed unlinked rooted read
    have still : ∀ input ∈ order, (jobOf (request.base setting) (textAt tree fst) now).2.read input =
        .ok (textAt tree input) := fun input mem =>
      (altering_job fst now).read (head input mem).spares (reads input mem)
    rw [buildAll_cons_snd, later]
    simp only [mem_failures_cons, later, not_or] at succeeds
    rcases mem_cons.1 mem with rfl | mem
    · rcases ran : jobOf (request.base setting) (textAt tree input) now with ⟨res, middle⟩
      rw [ran] at outcome still
      have ok : ∃ done, res = .ok done := by
        cases res with
        | ok done => exact ⟨done, rfl⟩
        | error error =>
          cases built : ((request.buildOne disk setting input).run now).1 with
          | ok report =>
            rw [built] at outcome
            cases outcome
          | error error => exact absurd ⟨rfl, built⟩ (succeeds error).1
      obtain ⟨done, rfl⟩ := ok
      obtain ⟨library, made, written⟩ := read_of_jobOf ran
      refine ⟨library, made, ?_⟩
      rw [buildAll_eq_runJobs several unnamed unlinked os roots still]
      refine read_runJobs (fun other behind inside => ?_) written
      have define := mem_artifacts_define (request.outputAt setting tree input)
      exact not_region_of_ne (head other behind).names
        (region_artifacts (isPlain_libraryNameIn _) _ (mem_map_of_mem define))
        (region_artifacts (isPlain_libraryNameIn _) _ inside)
    · exact ih os roots still mem fun error => (succeeds error).2

end Several

/-- **The order of the builds of several notebooks makes no difference**, and no library is lost.
Let no two of the notebooks have libraries of the same name, and let none be a file that
another's library is made of.  Then whatever order the builds run in, they leave the same tree, and
there every notebook whose build did not fail has its own module in its output directory. -/
theorem buildAll_perm {setting : Setting} {request : BuildRequest} {tree : FileTree} {inputs order : List String}
    (several : 1 < request.inputs.length) (unlinked : request.linkWorkspace = false)
    (prepared : (request.prepare FileTree.disk setting tree).1 = .ok inputs)
    (readable : ∀ input ∈ inputs, ∃ text, tree.read input = .ok text)
    (apart : inputs.Pairwise (request.Apart setting tree)) (permuted : order.Perm inputs) :
    Same (request.buildAll FileTree.disk setting inputs tree).2
        (request.buildAll FileTree.disk setting order tree).2 ∧
      ∀ input ∈ inputs,
        (∀ error, (input, error) ∉ (request.buildAll FileTree.disk setting order tree).1.2) →
        ∃ library, libraryOf (textAt tree input) = .ok library ∧
          (request.buildAll FileTree.disk setting order tree).2.read
            (Path.join (Path.join (request.outputAt setting tree input) "src") "define.js") =
              .ok library.moduleText := by
  obtain ⟨unnamed, absolute⟩ := prepare_eq_ok several prepared
  have texts : ∀ input ∈ inputs, tree.read input = .ok (textAt tree input) := by
    intro input member
    obtain ⟨text, read⟩ := readable input member
    rw [read, textAt_of_read read]
  have apart' : order.Pairwise (request.Apart setting tree) :=
    permuted.symm.pairwise apart fun either => either.symm
  have absolute' : ∀ input ∈ order, Path.isAbsolute input = true := fun input member =>
    absolute input (permuted.mem_iff.1 member)
  have texts' : ∀ input ∈ order, tree.read input = .ok (textAt tree input) := fun input member =>
    texts input (permuted.mem_iff.1 member)
  constructor
  · rw [buildAll_eq_runJobs several unnamed unlinked apart absolute texts,
      buildAll_eq_runJobs several unnamed unlinked apart' absolute' texts']
    choose plan fills using exists_fills (request.base setting)
    have distinct : inputs.Pairwise fun input other => libraryNameAt tree input ≠ libraryNameAt tree other :=
      apart.imp fun either => either.names
    exact runJobs_perm (fun input => fills (textAt tree input)) distinct permuted tree
  · intro input member
    exact read_define several unnamed unlinked apart' absolute' texts' (permuted.mem_iff.2 member)

/-- A notebook without cells. -/
def emptyNotebook : String := "<notebook><title>D</title></notebook>"

def filledNotebook : String := "<notebook><title>D</title><script type=\x22module\x22>1</script></notebook>"

def otherNotebook : String := "<notebook><title>E</title></notebook>"

def pairTree (first second : String) : FileTree :=
  ⟨[(["a"], .file (.text first)), (["b"], .file (.text second))]⟩

def pairRequest : BuildRequest :=
  { inputs := ["a", "b"], out := none, name := none, linkWorkspace := false }

def rootSetting : Setting := ⟨"/", none⟩

/-- Two notebooks of different titles, the second built first. -/
theorem buildAll_perm_pair :
    Same (pairRequest.buildAll FileTree.disk rootSetting ["/a", "/b"] (pairTree emptyNotebook otherNotebook)).2
      (pairRequest.buildAll FileTree.disk rootSetting ["/b", "/a"] (pairTree emptyNotebook otherNotebook)).2 ∧
    ∃ library, libraryOf otherNotebook = .ok library ∧
      (pairRequest.buildAll FileTree.disk rootSetting ["/b", "/a"] (pairTree emptyNotebook otherNotebook)).2.read
        "/e/src/define.js" = .ok library.moduleText := by
  have readable : ∀ input ∈ ["/a", "/b"], ∃ text, (pairTree emptyNotebook otherNotebook).read input = .ok text :=
    List.forall_mem_cons.2 ⟨⟨emptyNotebook, by decide +kernel⟩, List.forall_mem_cons.2
      ⟨⟨otherNotebook, by decide +kernel⟩, nofun⟩⟩
  have apart : pairRequest.Apart rootSetting (pairTree emptyNotebook otherNotebook) "/a" "/b" :=
    ⟨by decide +kernel, by decide +kernel, by decide +kernel⟩
  obtain ⟨same, kept⟩ := buildAll_perm (by decide) rfl
    (show (pairRequest.prepare FileTree.disk rootSetting (pairTree emptyNotebook otherNotebook)).1 =
      .ok ["/a", "/b"] by decide +kernel)
    readable (List.pairwise_pair.2 apart) (List.Perm.swap "/a" "/b" [])
  have built : ((pairRequest.buildOne FileTree.disk rootSetting "/b").run
      (pairTree emptyNotebook otherNotebook)).1.isOk = true := by decide +kernel
  have out : Path.join (Path.join (pairRequest.outputAt rootSetting (pairTree emptyNotebook otherNotebook) "/b")
      "src") "define.js" = "/e/src/define.js" := by decide +kernel
  refine ⟨same, ?_⟩
  rw [← out]
  refine kept "/b" (by decide) fun error failed => ?_
  rcases (mem_failures_cons _ _ _ _ _ _).1 failed with ⟨-, error⟩ | behind
  · rw [error] at built
    cases built
  · exact absurd (mem_of_mem_failures _ _ behind) (show "/b" ∉ ["/a"] by decide)

/-- Two notebooks of one title: neither build fails, but the module that the first build wrote is
gone. -/
theorem buildAll_twins :
    (pairRequest.prepare FileTree.disk rootSetting (pairTree emptyNotebook filledNotebook)).1 =
      .ok ["/a", "/b"] ∧
    (pairRequest.buildAll FileTree.disk rootSetting ["/a", "/b"] (pairTree emptyNotebook filledNotebook)).1.2 = [] ∧
    pairRequest.outputAt rootSetting (pairTree emptyNotebook filledNotebook) "/a" = "/d" ∧
    ∃ library, libraryOf emptyNotebook = .ok library ∧
      (pairRequest.buildAll FileTree.disk rootSetting ["/a", "/b"] (pairTree emptyNotebook filledNotebook)).2.read
        "/d/src/define.js" ≠ .ok library.moduleText := by
  have clash : (pairRequest.buildAll FileTree.disk rootSetting ["/a", "/b"]
        (pairTree emptyNotebook filledNotebook)).1.2.isEmpty = true ∧
      (libraryOf emptyNotebook).isOk = true ∧
      ((pairRequest.buildAll FileTree.disk rootSetting ["/a", "/b"]
        (pairTree emptyNotebook filledNotebook)).2.read "/d/src/define.js").toOption ≠
          (libraryOf emptyNotebook).toOption.map Library.moduleText := by decide +kernel
  obtain ⟨succeeds, isOk, different⟩ := clash
  cases made : libraryOf emptyNotebook with
  | error error =>
    rw [made] at isOk
    cases isOk
  | ok library =>
    refine ⟨by decide +kernel, List.isEmpty_iff.1 succeeds, by decide +kernel, library, rfl, fun same => ?_⟩
    rw [made] at different
    exact different (congrArg Except.toOption same)

end Command

end Bindery
