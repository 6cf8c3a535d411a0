/-
Proofs.Build.Frame -- what a build may change

A build whose notebook cannot be read or gives no library leaves the tree as it was: nothing is
written before the library is generated.  A build that gets further makes directories and writes
its own files, whether it ends well or not (`altering_writeLibrary`).
-/
import Bindery.Proofs.Build.Rebuild
import Bindery.Proofs.Disk.Place
import Bindery.Proofs.Library.Ownership

namespace Bindery.Build

open List FileTree

variable {n p : String} {library : Library} {tree : FileTree} {notebook : Notebook}

/-! ## The files of a library -/

/-- The files that every build writes. -/
def libraryFiles (base : Location) : List Location :=
  [base ++ ["src", "define.js"], base ++ ["src", "runtime.js"], base ++ ["src", "index.js"],
    base ++ ["package.json"]]

theorem target_source (out : String) (plain : Path.IsPlain n) :
    Path.target (Path.join (Path.join out "src") n) = Path.target out ++ ["src", n] := by
  rw [Path.target_join _ plain, Path.target_join out (show Path.IsPlain "src" by decide), append_assoc]
  rfl

theorem target_manifest (out : String) :
    Path.target (Path.join out "package.json") = Path.target out ++ ["package.json"] :=
  Path.target_join out (by decide)

theorem target_readme (out : String) :
    Path.target (Path.join out "README.md") = Path.target out ++ ["README.md"] :=
  Path.target_join out (by decide)

theorem target_artifacts (out : String) :
    (artifacts out).map Path.target =
      libraryFiles (Path.target out) ++ [Path.target out ++ ["README.md"]] := by
  simp only [artifacts, places, map_cons, map_nil, libraryFiles, cons_append, nil_append]
  rw [target_source out (show Path.IsPlain "define.js" by decide),
    target_source out (show Path.IsPlain "runtime.js" by decide),
    target_source out (show Path.IsPlain "index.js" by decide), target_manifest, target_readme]

theorem target_sourceFiles_ne {out : String} (n : String) :
    ∀ file ∈ sourceFiles library out, Path.target file.1 ≠ Path.target out ++ [n] := by
  simp only [sourceFiles, forall_mem_cons]
  rw [target_source out (show Path.IsPlain "define.js" by decide),
    target_source out (show Path.IsPlain "runtime.js" by decide),
    target_source out (show Path.IsPlain "index.js" by decide)]
  simp

theorem altering_onDisk {α : Type} {files : List Location} {action : StateM FileTree (Except DiskError α)}
    (altering : Altering files action) : Altering files (onDisk action).run := by
  intro tree
  rw [onDisk_apply]
  exact altering tree

/-- **Writing a library**, well or not, makes directories and writes the files of the library. -/
theorem altering_writeLibrary (library : Library) (out : String) :
    Altering ((artifacts out).map Path.target) (writeLibrary FileTree.disk library out).run := by
  have writes {b n : String} (mem : (b, n) ∈ places out) (s : String) :
      Altering ((artifacts out).map Path.target) (onDisk (FileTree.disk.write (Path.join b n) s)).run :=
    altering_onDisk (.write (mem_map_of_mem (mem_map_of_mem mem)) s)
  have looks {α : Type} {action : StateM FileTree α} (looks : ∀ tree, (action tree).2 = tree) :
      Altering ((artifacts out).map Path.target) (ExceptT.lift action : ExceptT Error _ α).run :=
    .of_looks looks
  refine .bindExcept (altering_onDisk (.makeDirectories _)) fun _ => ?_
  refine .bindExcept (writes (.head _) _) fun _ => ?_
  refine .bindExcept (writes (.tail _ (.head _)) _) fun _ => ?_
  refine .bindExcept (writes (.tail _ (.tail _ (.head _))) _) fun _ => ?_
  refine .bindExcept (looks fun tree => congrArg Prod.snd (existingManifest?_eq _ tree)) fun _ => ?_
  refine .bindExcept (writes (.tail _ (.tail _ (.tail _ (.head _)))) _) fun _ => ?_
  refine .bindExcept (looks fun tree => congrArg Prod.snd (isPresent_eq _ tree)) fun present => ?_
  cases present with
  | true => exact .of_looks fun _ => rfl
  | false =>
    refine .bindExcept (writes (.tail _ (.tail _ (.tail _ (.tail _ (.head _))))) _) fun _ => ?_
    exact .of_looks fun _ => rfl

/-! ## What is reported -/

theorem isSome_manifestIn? {loc : Location} (leads : tree.resolve p = .ok loc) :
    (manifestIn? tree p).isSome ↔
      ∃ text, tree.find? loc = some (.file (.text text)) ∧ (Json.parse? text).isSome := by
  rw [manifestIn?]
  constructor
  · intro got
    split at got
    · next text read =>
      obtain ⟨other, leads', file⟩ := read_eq_ok.1 read
      cases leads.symm.trans leads'
      exact ⟨text, file, got⟩
    · cases got
  · rintro ⟨text, file, parsed⟩
    rw [read_eq_ok.2 ⟨loc, leads, file⟩]
    exact parsed

theorem isPresent_iff : isPresent tree p ↔ ∃ loc, tree.resolve p = .ok loc ∧ tree.find? loc ≠ none := by
  rw [isPresent, Bool.or_eq_true, isFile_iff, isDirectory_iff]
  constructor
  · rintro (⟨loc, content, got⟩ | ⟨loc, leads, got⟩)
    · obtain ⟨leads, got⟩ := lookup_eq_ok.1 got
      exact ⟨loc, leads, by simp [got]⟩
    · exact ⟨loc, leads, by simp [got]⟩
  · rintro ⟨loc, leads, present⟩
    cases got : tree.find? loc with
    | none => exact absurd got present
    | some e =>
      cases e with
      | directory => exact .inr ⟨loc, leads, got⟩
      | file content => exact .inl ⟨loc, content, lookup_eq_ok.2 ⟨leads, got⟩⟩

section Report

variable {out : String} {last : FileTree} {merged written : Bool}
  (done : (writeLibrary FileTree.disk library out).run tree = (.ok (merged, written), last))

include done

theorem writeLibrary_merged :
    merged ↔ ∃ s, tree.find? (Path.target out ++ ["package.json"]) = some (.file (.text s)) ∧
      (Json.parse? s).isSome := by
  obtain ⟨made, entered, existing, listed, directories, source, rfl, list, rfl, -, -⟩ :=
    writeLibrary_eq_ok.1 done
  have adds := adds_of_makeDirectories directories
  obtain ⟨place, leads, -⟩ := FileTree.write_eq_ok.1 list
  obtain rfl := (eq_target_of_resolve leads).trans (target_manifest out)
  have eq : entered.find? (Path.target out ++ ["package.json"]) =
      made.find? (Path.target out ++ ["package.json"]) := find?_writeAll (target_sourceFiles_ne _) source
  rw [isSome_manifestIn? leads]
  simp only [eq, adds.file_iff]

theorem writeLibrary_readme :
    (written ∧ tree.find? (Path.target out ++ ["README.md"]) = none ∧
      ∃ s, last.find? (Path.target out ++ ["README.md"]) = some (.file (.text s))) ∨
    (written = false ∧
      (last.find? (Path.target out ++ ["README.md"]) = tree.find? (Path.target out ++ ["README.md"]) ∧
          tree.find? (Path.target out ++ ["README.md"]) ≠ none ∨
        tree.find? (Path.target out ++ ["README.md"]) = none ∧
          last.find? (Path.target out ++ ["README.md"]) = some .directory)) := by
  obtain ⟨made, entered, existing, listed, directories, source, -, list, -, absent, ends⟩ :=
    writeLibrary_eq_ok.1 done
  have adds := adds_of_makeDirectories directories
  obtain ⟨place, leads, -⟩ := FileTree.write_eq_ok.1 list
  have apart : Path.target out ++ ["README.md"] ≠ place := by
    rw [eq_target_of_resolve leads, target_manifest]
    simp
  have eq : listed.find? (Path.target out ++ ["README.md"]) =
      made.find? (Path.target out ++ ["README.md"]) := by
    rw [find?_write leads list, if_neg apart, find?_writeAll (target_sourceFiles_ne _) source]
  cases written with
  | true =>
    obtain ⟨_, write, ⟨⟩⟩ := writeAll_cons.1 ends
    obtain ⟨place, leads, -⟩ := FileTree.write_eq_ok.1 write
    obtain rfl := (eq_target_of_resolve leads).trans (target_readme out)
    have none : listed.find? (Path.target out ++ ["README.md"]) = none := by
      by_contra some
      rw [isPresent_iff.2 ⟨_, leads, some⟩] at absent
      cases absent
    refine .inl ⟨rfl, ?_, _, (find?_write leads write).trans (if_pos rfl)⟩
    rcases adds (Path.target out ++ ["README.md"]) with kept | ⟨prev, -⟩
    · rw [← kept, ← eq, none]
    · exact prev
  | false =>
    cases ends
    obtain ⟨place, leads, some⟩ := isPresent_iff.1 (Bool.not_eq_false' _ ▸ absent)
    obtain rfl := (eq_target_of_resolve leads).trans (target_readme out)
    refine .inr ⟨rfl, ?_⟩
    rw [eq] at some ⊢
    rcases adds (Path.target out ++ ["README.md"]) with kept | made
    · exact .inl ⟨kept, kept ▸ some⟩
    · exact .inr made

/-- **The frame of a library that was written.** -/
theorem writeLibrary_frame (loc : Location) :
    last.find? loc = tree.find? loc ∨ (tree.find? loc = none ∧ last.find? loc = some .directory) ∨
      loc ∈ libraryFiles (Path.target out) ∨
      (loc = Path.target out ++ ["README.md"] ∧ written) := by
  have alters := altering_writeLibrary library out tree
  rw [done, target_artifacts] at alters
  rcases alters.cases loc with eq | made | ⟨mem, -⟩
  · exact .inl eq
  · exact .inr (.inl made)
  · rcases mem_append.1 mem with file | readme
    · exact .inr (.inr (.inl file))
    · cases mem_singleton.1 readme
      rcases writeLibrary_readme done with ⟨written, -⟩ | ⟨-, ⟨kept, -⟩ | made⟩
      · exact .inr (.inr (.inr ⟨rfl, written⟩))
      · exact .inl kept
      · exact .inr (.inl made)

theorem find?_libraryFiles :
    ∀ loc ∈ libraryFiles (Path.target out), ∃ s, last.find? loc = some (.file (.text s)) := by
  obtain ⟨existing, holds, -⟩ := holds_of_writeLibrary done
  have src : ∀ file ∈ sourceFiles library out,
      ∃ s, last.find? (Path.target file.1) = some (.file (.text s)) := fun file mem =>
    ⟨file.2, find?_of_read (holds.source file mem)⟩
  simp only [sourceFiles, forall_mem_cons] at src
  rw [target_source out (show Path.IsPlain "define.js" by decide),
    target_source out (show Path.IsPlain "runtime.js" by decide),
    target_source out (show Path.IsPlain "index.js" by decide)] at src
  obtain ⟨define, provide, enter, -⟩ := src
  have manifest := find?_of_read holds.manifest
  rw [target_manifest] at manifest
  intro loc mem
  simp only [libraryFiles, mem_cons, not_mem_nil, or_false] at mem
  rcases mem with rfl | rfl | rfl | rfl
  · exact define
  · exact provide
  · exact enter
  · exact ⟨_, manifest⟩

end Report

/-! ## Whole builds -/

theorem length_compileAll (cs : List SourceCell) :
    (compileAll cs).1.length + (compileAll cs).2.length = cs.length := by
  simpa using (compileAll_perm cs).length_eq

theorem length_cells_generate {range : String} {workspace : NameSet} {errors : List CellError}
    (gen : generate notebook n workspace range = .ok (library, errors)) :
    library.module.cells.length + errors.length = notebook.cells.length := by
  unfold generate at gen
  dsimp only at gen
  split at gen
  · next got =>
    cases gen
    obtain ⟨-, built, -⟩ := Library.generate_eq_ok.1 got
    rw [built, ← length_compileAll]
    simp [Module.ofCells, resolveInputs, (inDocumentOrder_perm _).length_eq]
  · cases gen

theorem generate_of_shared {document : String} (parsed : Notebook.parse document = .ok notebook)
    {shared : String} (twice : Shared (compileAll notebook.cells).1 shared) (n range : String)
    (workspace : NameSet) :
    ∃ duplicate, generate notebook n workspace range = .error (.library (.duplicate duplicate)) := by
  have ascending := pairwise_compileAll (Notebook.pairwise_cells parsed)
  cases got : duplicateOutput? (compileAll notebook.cells).1 with
  | none => exact absurd ⟨shared, twice⟩ ((duplicateOutput?_eq_none ascending).1 got)
  | some duplicate =>
    have refused : Library.generate (compileAll notebook.cells).1 n workspace range =
        .error (.duplicate duplicate) := by
      rw [Library.generate_eq_duplicate, inDocumentOrder_eq (.refl _) ascending, got]
    refine ⟨duplicate, ?_⟩
    unfold generate
    dsimp only
    rw [refused]

/-- **What a build changes.**  A build whose notebook cannot be read, is malformed or has a name
that two cells define leaves the tree exactly as it was.

A build that succeeds makes directories where nothing was, and writes the four files of the
library and the readme, below the output directory; nothing else changes.  The cells that are in
the library and those that are reported make up the notebook.  The manifest was merged if there
was a file with a JSON text in its place.  The readme was written if nothing was in its place, nor
a directory that the build made there itself. -/
theorem run_frame (input : String) (options : BuildOptions) (tree : FileTree) :
    (∀ error, tree.read (Path.join options.directory input) = .error error →
      (run FileTree.disk input options).run tree = (.error (.disk error), tree)) ∧
    (∀ text fault, tree.read (Path.join options.directory input) = .ok text →
      Notebook.parse text = .error fault →
      (run FileTree.disk input options).run tree = (.error (.document fault), tree)) ∧
    (∀ text notebook shared, tree.read (Path.join options.directory input) = .ok text →
      Notebook.parse text = .ok notebook → Shared (compileAll notebook.cells).1 shared →
      ∃ duplicate, (run FileTree.disk input options).run tree =
        (.error (.library (.duplicate duplicate)), tree)) ∧
    ∀ report last, (run FileTree.disk input options).run tree = (.ok report, last) →
      ∃ base, base = Path.target report.out ∧
        (∀ location, last.find? location = tree.find? location ∨
          (tree.find? location = none ∧ last.find? location = some .directory) ∨
          location ∈ libraryFiles base ∨ (location = base ++ ["README.md"] ∧ report.readmeWritten = true)) ∧
        (∀ location ∈ libraryFiles base, ∃ text, last.find? location = some (.file (.text text))) ∧
        (report.readmeWritten = true →
          ∃ text, last.find? (base ++ ["README.md"]) = some (.file (.text text))) ∧
        report.cellsCompiled + report.cellErrors.length = report.cellsTotal ∧
        (report.readmeWritten = true ↔ tree.find? (base ++ ["README.md"]) = none ∧
          last.find? (base ++ ["README.md"]) ≠ some .directory) ∧
        (report.manifestMerged = true ↔
          ∃ text, tree.find? (base ++ ["package.json"]) = some (.file (.text text)) ∧
            (Json.parse? text).isSome = true) := by
  refine ⟨fun _ => run_of_unreadable, fun _ _ read => run_of_fault read,
    fun text notebook shared read parsed twice => ?_, fun report last done => ?_⟩
  · obtain ⟨duplicate, refused⟩ := generate_of_shared parsed twice
      (options.name.getD notebook.libraryName) options.range (linkable FileTree.disk options tree).1
    exact ⟨duplicate, run_of_refusal read parsed refused⟩
  · obtain ⟨text, notebook, library, errors, merged, written, read, parsed, generated, wrote, rfl⟩ :=
      run_eq_ok.1 done
    refine ⟨_, rfl, writeLibrary_frame wrote, find?_libraryFiles wrote, ?_, length_cells_generate generated, ?_,
      writeLibrary_merged wrote⟩
    · rcases writeLibrary_readme wrote with ⟨-, -, text⟩ | ⟨unwritten, -⟩
      · exact fun _ => text
      · exact fun written => absurd (unwritten.symm.trans written) Bool.false_ne_true
    · rcases writeLibrary_readme wrote with ⟨written, none, text, file⟩ | ⟨unwritten, kept⟩
      · exact ⟨fun _ => ⟨none, fun directory => by cases file.symm.trans directory⟩, fun _ => written⟩
      · refine ⟨fun written => absurd (unwritten.symm.trans written) Bool.false_ne_true, fun free => ?_⟩
        rcases kept with ⟨-, some⟩ | ⟨-, directory⟩
        · exact absurd free.1 some
        · exact absurd directory free.2

/-- A library next to its notebook, whose manifest is merged, and a notebook that is not there. -/
theorem run_frame_sample :
    (∃ report built, (run FileTree.disk "demo.html" sampleOptions).run sampleTree = (.ok report, built) ∧
      report.manifestMerged = true ∧
      built.find? ["work", "demo.html"] = sampleTree.find? ["work", "demo.html"]) ∧
    sampleTree.read (Path.join "/work" "other.html") = .error .notFound ∧
    (run FileTree.disk "other.html" sampleOptions).run sampleTree = (.error (.disk .notFound), sampleTree) := by
  have missing : sampleTree.read (Path.join "/work" "other.html") = .error .notFound := rfl
  refine ⟨?_, missing, (run_frame "other.html" sampleOptions sampleTree).1 .notFound missing⟩
  obtain ⟨report, built, done, out, -⟩ := exists_run_sample
  obtain ⟨-, -, -, succeeds⟩ := run_frame "demo.html" sampleOptions sampleTree
  obtain ⟨base, rfl, frame, -, -, -, -, merged⟩ := succeeds report built done
  have place : Path.target report.out = ["work", "demo"] := by
    rw [out]
    decide +kernel
  rw [place] at frame merged
  refine ⟨report, built, done, merged.2 ⟨Json.render sampleManifest, rfl, ?_⟩, ?_⟩
  · rw [Json.parse?_render readable_sampleManifest]
    rfl
  · rcases frame ["work", "demo.html"] with same | ⟨absent, -⟩ | file | ⟨readme, -⟩
    · exact same
    · cases absent
    · exact absurd file (by decide)
    · exact absurd readme (by decide)

/-- A directory with nothing but a notebook. -/
def freshTree : FileTree :=
  ⟨[(["work"], .directory), (["work", "demo.html"], .file (.text sampleNotebook))]⟩

/-- The output directory is given by a path that goes through the place of the readme.  Nothing is
there before, a directory is made there, and no readme is written. -/
theorem run_readme_directory :
    ∃ report built, (run FileTree.disk "demo.html"
        { sampleOptions with out := some "demo/README.md/.." }).run freshTree = (.ok report, built) ∧
      freshTree.find? (Path.target report.out ++ ["README.md"]) = none ∧
      built.find? (Path.target report.out ++ ["README.md"]) = some .directory ∧
      report.readmeWritten = false := by
  have reported : ((run FileTree.disk "demo.html"
      { sampleOptions with out := some "demo/README.md/.." }).run freshTree).1.toOption.any (fun report =>
        report.out == "/work/demo/README.md/.." && !report.readmeWritten) = true := by
    decide +kernel
  rcases done : (run FileTree.disk "demo.html"
    { sampleOptions with out := some "demo/README.md/.." }).run freshTree with ⟨outcome, built⟩
  rw [done] at reported
  cases outcome with
  | error error => cases reported
  | ok report =>
      obtain ⟨out, unwritten⟩ := Bool.and_eq_true_iff.1 reported
      have place : Path.target report.out = ["work", "demo"] := by
        rw [beq_iff_eq.1 out]
        decide +kernel
      have none : freshTree.find? (Path.target report.out ++ ["README.md"]) = none := by
        rw [place]
        rfl
      obtain ⟨_, notebook, library, errors, merged, written, -, -, -, wrote, rfl⟩ := run_eq_ok.1 done
      have kept : written = false := Bool.not_eq_true' _ ▸ unwritten
      refine ⟨_, built, rfl, none, ?_, kept⟩
      rcases writeLibrary_readme wrote with ⟨written, -⟩ | ⟨-, ⟨-, some⟩ | ⟨-, directory⟩⟩
      · exact absurd (kept.symm.trans written) Bool.false_ne_true
      · exact absurd none some
      · exact directory

end Bindery.Build
