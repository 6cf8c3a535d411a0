/-
Proofs.Build.Rebuild -- building a second time changes no file

A build writes five files with different names.  The second build finds each of them as the
first one left it: the source is written anew with the same texts, the manifest is read back
(`Json.parse?_render`) and stays as it is because it was merged already
(`Manifest.mergeInto_of_settled`), and the readme is there (`writeLibrary_again`).
-/
import Bindery.Proofs.Build.Step
import Bindery.Proofs.Json.RoundTrip
import Bindery.Proofs.Library.Image
import Bindery.Proofs.Library.Merge

namespace Bindery.Build

open List FileTree Json

variable {n : String}

/-! ## The files of a library -/

def places (out : String) : List (String × String) :=
  [(Path.join out "src", "define.js"), (Path.join out "src", "runtime.js"),
    (Path.join out "src", "index.js"), (out, "package.json"), (out, "README.md")]

/-- The paths of the files of a library. -/
def artifacts (out : String) : List String :=
  (places out).map fun place => Path.join place.1 place.2

def filesOf (library : Library) (out : String) (manifest : Value) (written : Bool) :
    List (String × String) :=
  sourceFiles library out ++
    (Path.join out "package.json", render manifest) :: readmeFiles library out manifest written

theorem sublist_artifacts (library : Library) (out : String) (manifest : Value) (written : Bool) :
    ((filesOf library out manifest written).map Prod.fst).Sublist (artifacts out) := by
  cases written <;> simp [filesOf, sourceFiles, readmeFiles, artifacts, places]

theorem names_places (out : String) :
    (places out).map Prod.snd = ["define.js", "runtime.js", "index.js", "package.json", "README.md"] := rfl

theorem isPlain_of_mem_places {out : String} {place : String × String} (mem : place ∈ places out) :
    Path.IsPlain place.2 := by
  have each : ∀ n ∈ (places out).map Prod.snd, Path.IsPlain n := by
    rw [names_places]
    decide
  exact each place.2 (mem_map_of_mem mem)

theorem pairwise_filesOf (tree : FileTree) (library : Library) (out : String) (manifest : Value)
    (written : Bool) :
    (filesOf library out manifest written).Pairwise fun file next => Apart tree file.1 next.1 := by
  have nodup : ((places out).map Prod.snd).Nodup := by
    rw [names_places]
    decide
  exact pairwise_map.1 ((pairwise_apart (fun _ => isPlain_of_mem_places) nodup).sublist
    (sublist_artifacts ..))

theorem apart_artifacts (tree : FileTree) (out b : String) (plain : Path.IsPlain n)
    (other : n ∉ (places out).map Prod.snd) :
    ∀ artifact ∈ artifacts out, Apart tree artifact (Path.join b n) := by
  intro artifact got
  obtain ⟨place, mem, rfl⟩ := mem_map.1 got
  refine apart_join (isPlain_of_mem_places mem) plain fun eq => other ?_
  exact eq ▸ mem_map_of_mem mem

/-! ## What the first build leaves -/

/-- The tree holds a library that was written, with the given manifest. -/
structure Holds (tree : FileTree) (library : Library) (out : String) (manifest : Value) : Prop where
  directory : tree.isDirectory (Path.join out "src") = true
  source : ∀ file ∈ sourceFiles library out, tree.read file.1 = .ok file.2
  manifest : tree.read (Path.join out "package.json") = .ok (render manifest)
  readme : isPresent tree (Path.join out "README.md") = true

section Writing

variable {library : Library} {out : String} {tree built : FileTree} {merged written : Bool}

section Done

variable (done : (writeLibrary disk library out).run tree = (.ok (merged, written), built))

include done

theorem writeAll_of_writeLibrary :
    ∃ made existing, disk.makeDirectories (Path.join out "src") tree = (.ok (), made) ∧
      made.writeAll (filesOf library out (manifestValue library existing) written) = .ok built ∧
      (∀ v, existing = some v → ∃ text, made.read (Path.join out "package.json") = .ok text ∧
        parse? text = some v) ∧
      (written = false → isPresent built (Path.join out "README.md")) := by
  obtain ⟨made, entered, existing, listed, directories, source, got, list, -, present, ends⟩ :=
    writeLibrary_eq_ok.1 done
  have all : made.writeAll (filesOf library out (manifestValue library existing) written) = .ok built :=
    writeAll_append.2 ⟨entered, source, writeAll_cons.2 ⟨listed, list, ends⟩⟩
  have apart : ∀ file ∈ sourceFiles library out, Apart made file.1 (Path.join out "package.json") := by
    have pairs := pairwise_filesOf made library out (manifestValue library existing) written
    exact fun file mem => (pairwise_append.1 pairs).2.2 file mem
      (Path.join out "package.json", render (manifestValue library existing)) mem_cons_self
  refine ⟨made, existing, directories, all, fun v some => ?_, fun kept => ?_⟩
  · have here : manifestIn? entered (Path.join out "package.json") = Option.some v := got.trans some
    unfold manifestIn? at here
    split at here
    · next text read =>
      obtain ⟨loc, leads⟩ := read_iff.1 read
      exact ⟨text, read_iff.2 ⟨loc, (lookup_writeAll apart source).1 leads⟩, here⟩
    · cases here
  · subst kept
    cases ends
    simpa using present

theorem holds_of_writeLibrary :
    ∃ existing, Holds built library out (manifestValue library existing) ∧
      ∀ v, existing = some v → ∃ loc text, built.resolve (Path.join out "package.json") = .ok loc ∧
        tree.find? loc = some (.file (.text text)) ∧ parse? text = some v := by
  obtain ⟨made, existing, directories, all, got, kept⟩ := writeAll_of_writeLibrary done
  have reads := read_writeAll (pairwise_filesOf made ..) all
  obtain ⟨adds, there⟩ := adds_makeDirectories (Path.join out "src") tree
  rw [directories] at adds there
  have readme : isPresent built (Path.join out "README.md") := by
    cases written with
    | false => exact kept rfl
    | true =>
      have text := reads (Path.join out "README.md", _) (mem_append_right _ (.tail _ mem_cons_self))
      obtain ⟨loc, leads⟩ := read_iff.1 text
      rw [isPresent, isFile_iff.2 ⟨loc, _, leads⟩, Bool.true_or]
  obtain ⟨loc, leads, dir⟩ := isDirectory_iff.1 (there rfl)
  have grows := grows_writeAll all
  refine ⟨existing, ⟨?_, fun file mem => reads file (mem_append_left _ mem), ?_, readme⟩, fun v some => ?_⟩
  · exact isDirectory_iff.2 ⟨loc, grows.resolve leads, grows loc dir⟩
  · exact reads (Path.join out "package.json", render (manifestValue library existing))
      (mem_append_right _ mem_cons_self)
  · obtain ⟨text, read, parsed⟩ := got v some
    obtain ⟨loc, leads, file⟩ := read_eq_ok.1 read
    exact ⟨loc, text, grows.resolve leads, adds.file_iff.1 file, parsed⟩

theorem grows_writeLibrary : Grows tree built := by
  obtain ⟨made, existing, directories, all, -⟩ := writeAll_of_writeLibrary done
  have adds := adds_of_makeDirectories directories
  exact adds.grows.trans (grows_writeAll all)

theorem read_writeLibrary {p s : String} (apart : ∀ artifact ∈ artifacts out, Apart built artifact p)
    (read : tree.read p = .ok s) : built.read p = .ok s := by
  obtain ⟨made, existing, directories, all, -⟩ := writeAll_of_writeLibrary done
  have adds := adds_of_makeDirectories directories
  obtain ⟨loc, leads, file⟩ := read_eq_ok.1 read
  have got : made.lookup p = .ok (loc, .file (.text s)) :=
    lookup_eq_ok.2 ⟨adds.grows.resolve leads, adds.file_iff.2 file⟩
  refine read_iff.2 ⟨loc, (lookup_writeAll (fun file mem => ?_) all).2 got⟩
  intro target leads' leads''
  have artifact := (sublist_artifacts library out _ written).subset (mem_map_of_mem mem)
  have grows := grows_writeAll all
  exact apart file.1 artifact target (grows.resolve leads') (grows.resolve leads'')

end Done

/-- **Writing a library that is there** changes nothing. -/
theorem writeLibrary_of_holds {manifest : Value} (holds : Holds tree library out manifest)
    (readBack : parse? (render manifest) = some manifest)
    (settled : library.manifest.mergeInto manifest = manifest) :
    ∃ last, (writeLibrary disk library out).run tree = (.ok (true, false), last) ∧ Same tree last := by
  obtain ⟨entered, src, eq⟩ := writeAll_of_read holds.source
  obtain ⟨loc, leads⟩ := read_iff.1 holds.manifest
  have read : entered.read (Path.join out "package.json") = .ok (render manifest) :=
    read_iff.2 ⟨loc, eq.lookup leads⟩
  have got : manifestIn? entered (Path.join out "package.json") = some manifest := by
    rw [manifestIn?, read]
    exact readBack
  obtain ⟨listed, list, eq'⟩ := write_of_read read
  have both : Same tree listed := fun loc => (eq' loc).trans (eq loc)
  have present : isPresent listed (Path.join out "README.md") := by
    have prev := holds.readme
    rw [isPresent, Bool.or_eq_true] at prev ⊢
    refine prev.imp (fun file => ?_) fun dir => ?_
    · obtain ⟨loc, content, leads⟩ := isFile_iff.1 file
      exact isFile_iff.2 ⟨loc, content, both.lookup leads⟩
    · obtain ⟨loc, leads⟩ := isDirectory_lookup.1 dir
      exact isDirectory_lookup.2 ⟨loc, both.lookup leads⟩
  refine ⟨listed, writeLibrary_eq_ok.2 ⟨tree, entered, some manifest, listed,
    makeDirectories_of_isDirectory holds.directory, src, got, ?_, rfl, by rw [present]; rfl, rfl⟩, both⟩
  rw [manifestValue, settled]
  exact list

theorem manifestValue_stable (nodup : (library.manifest.dependencies.map Prod.fst).Nodup)
    {existing : Option Value} (readable : ∀ v, existing = some v → Readable Double.ReadsBack maxDepth v) :
    parse? (render (manifestValue library existing)) = some (manifestValue library existing) ∧
      library.manifest.mergeInto (manifestValue library existing) = manifestValue library existing := by
  have written : Readable Double.ReadsBack (125 + 2) (manifestValue library existing) := by
    cases existing with
    | none => exact Manifest.readable_toValue nodup
    | some v => exact Manifest.readable_mergeInto nodup (readable v rfl)
  have settled : ∃ ms, manifestValue library existing = .object ms ∧
      library.manifest.Settled ms := by
    cases existing with
    | none => exact Manifest.settled_toValue _ nodup
    | some v => exact Manifest.settled_mergeInto _ nodup v
  refine ⟨parse?_render written, ?_⟩
  obtain ⟨ms, eq, settled⟩ := settled
  rw [eq]
  exact Manifest.mergeInto_of_settled settled

end Writing

/-! ## Building again -/

theorem nodup_dependencies {nb : Notebook} {range : String} {workspace : NameSet} {library : Library}
    {errors : List CellError} (gen : generate nb n workspace range = .ok (library, errors)) :
    (library.manifest.dependencies.map Prod.fst).Nodup := by
  unfold generate at gen
  dsimp only at gen
  split at gen
  · next got =>
    cases gen
    obtain ⟨-, -, -, manifest⟩ := Library.generate_eq_ok.1 got
    rw [manifest]
    exact (ascending_collectDependencies _ _ _).nodup
  · cases gen

/-- **Building a second time** succeeds and leaves every file as the first build left it,
whatever was there before.  The notebook is not one of the files that are written, the same
packages can be linked, and the doubles in a manifest that was there are read back. -/
theorem run_again {input : String} {options : BuildOptions} {tree built : FileTree} {report : BuildReport}
    (first : (run FileTree.disk input options).run tree = (.ok report, built))
    (apart : ∀ artifact ∈ artifacts report.out, Apart built artifact (Path.join options.directory input))
    (workspace : (linkable FileTree.disk options built).1 = (linkable FileTree.disk options tree).1)
    (doubles : ∀ location text existing, built.resolve (Path.join report.out "package.json") = .ok location →
      tree.find? location = some (.file (.text text)) → parse? text = some existing →
      ∀ double ∈ existing.doubles, double.ReadsBack) :
    ∃ rebuilt, (run FileTree.disk input options).run built =
        (.ok { report with manifestMerged := true, readmeWritten := false }, rebuilt) ∧
      ∀ location, rebuilt.find? location = built.find? location := by
  obtain ⟨text, notebook, library, errors, merged, written, read, parsed, generated, wrote, rfl⟩ :=
    run_eq_ok.1 first
  obtain ⟨existing, holds, before⟩ := holds_of_writeLibrary wrote
  have readable : ∀ value, existing = some value → Readable Double.ReadsBack maxDepth value := by
    intro value there
    obtain ⟨location, text, leads, file, parsed⟩ := before value there
    exact (readable_of_parse? parsed).of_doubles (doubles location text value leads file parsed)
  obtain ⟨readBack, settled⟩ := manifestValue_stable (nodup_dependencies generated) readable
  obtain ⟨rebuilt, again, same⟩ := writeLibrary_of_holds holds readBack settled
  refine ⟨rebuilt, run_eq_ok.2 ⟨text, notebook, library, errors, true, false, ?_, parsed, ?_, again, rfl⟩, same⟩
  · exact read_writeLibrary wrote apart read
  · rw [workspace, generated]

def sampleManifest : Value :=
  .object [("name", .string "mine"), ("weight", .number (.double ⟨false, 6755399441055744, -52⟩)),
    ("dependencies", .object [("d3", .string "^7.0.0")])]

def sampleNotebook : String :=
  "<notebook><title>Demo</title><script type=\x22module\x22>const a = 1</script></notebook>"

def sampleTree : FileTree :=
  ⟨[(["work"], .directory), (["work", "demo"], .directory),
    (["work", "demo", "package.json"], .file (.text (render sampleManifest))),
    (["work", "demo", "src"], .directory),
    (["work", "demo.html"], .file (.text sampleNotebook))]⟩

/-- Options for a build in `/work`. -/
def sampleOptions : BuildOptions := { directory := "/work", linkWorkspace := false }

theorem readsBack_sample : Double.ReadsBack ⟨false, 6755399441055744, -52⟩ :=
  ⟨by decide +kernel, by decide +kernel⟩

theorem readable_sampleManifest : Readable Double.ReadsBack maxDepth sampleManifest := by
  have dependencies : ReadableMembers Double.ReadsBack 125 [("d3", .string "^7.0.0")] :=
    ReadableMembers.nil.insert "d3" (.string "^7.0.0")
  have fields := ((ReadableMembers.nil.insert "name" (.string "mine")).insert "weight"
    (.double readsBack_sample)).insert "dependencies" dependencies.object
  exact fields.object

theorem exists_run_sample :
    ∃ report built, (run disk "demo.html" sampleOptions).run sampleTree = (.ok report, built) ∧
      report.out = "/work/demo" ∧ Grows sampleTree built := by
  have outcome : ((run disk "demo.html" sampleOptions).run sampleTree).1.toOption.map (·.out) =
      some "/work/demo" := by decide +kernel
  rcases ran : (run disk "demo.html" sampleOptions).run sampleTree with ⟨done, built⟩
  rw [ran] at outcome
  cases done with
  | error error => cases outcome
  | ok report =>
    obtain ⟨_, _, _, _, _, _, -, -, -, wrote, -⟩ := run_eq_ok.1 ran
    exact ⟨report, built, rfl, Option.some.inj outcome, grows_writeLibrary wrote⟩

theorem run_again_sample :
    ∃ report built rebuilt, (run FileTree.disk "demo.html" sampleOptions).run sampleTree = (.ok report, built) ∧
      (run FileTree.disk "demo.html" sampleOptions).run built =
        (.ok { report with manifestMerged := true, readmeWritten := false }, rebuilt) ∧
      ∀ location, rebuilt.find? location = built.find? location := by
  obtain ⟨report, built, first, out, grows⟩ := exists_run_sample
  have doubles : ∀ location text existing, built.resolve (Path.join report.out "package.json") = .ok location →
      sampleTree.find? location = some (.file (.text text)) → parse? text = some existing →
      ∀ double ∈ existing.doubles, double.ReadsBack := by
    intro location text existing leads file parsed double member
    have there : sampleTree.resolve (Path.join "/work/demo" "package.json") =
      .ok ["work", "demo", "package.json"] := rfl
    rw [out] at leads
    cases (grows.resolve there).symm.trans leads
    cases file
    cases (parse?_render readable_sampleManifest).symm.trans parsed
    exact List.mem_singleton.1 member ▸ readsBack_sample
  obtain ⟨rebuilt, again, same⟩ :=
    run_again first (apart_artifacts built _ "/work" (by decide) (by rw [names_places]; decide)) rfl doubles
  exact ⟨report, built, rebuilt, first, again, same⟩

end Bindery.Build
