/-
Proofs.Build.Filling -- a build fills one directory

Writing a library to the directory of a name below a base is a job in the sense of
`FileTree.Fills`: if its path can be asked for at all, it makes the directories above the base,
then its own two directories, and writes its files there.
-/
import Bindery.Proofs.Build.Frame
import Bindery.Proofs.Disk.Schedule

namespace Bindery.Build

open FileTree

def writeFiles (l : Library) (out : String) : ExceptT Error (StateM FileTree) (Bool × Bool) := do
  let source := Path.join out "src"
  onDisk (disk.write (Path.join source "define.js") l.moduleText)
  onDisk (disk.write (Path.join source "runtime.js") runtimeText)
  onDisk (disk.write (Path.join source "index.js") entryText)
  let manifestPath := Path.join out "package.json"
  let existing ← ExceptT.lift (existingManifest? disk manifestPath)
  let manifest := manifestValue l existing
  onDisk (disk.write manifestPath (Json.render manifest))
  let readmePath := Path.join out "README.md"
  if ← ExceptT.lift (disk.isPresent readmePath) then return (existing.isSome, false)
  onDisk (disk.write readmePath (renderReadme (packageName l manifest) l.module))
  return (existing.isSome, true)

theorem writeLibrary_eq (l : Library) (out : String) :
    writeLibrary disk l out =
      onDisk (disk.makeDirectories (Path.join out "src")) >>= fun _ => writeFiles l out := rfl

def fill (l : Library) (out : String) : ExceptT Error (StateM FileTree) (Bool × Bool) := do
  onDisk (ensure out)
  onDisk (ensure (Path.join out "src"))
  writeFiles l out

section Confinement

variable {b n : String} (plain : Path.IsPlain n) (l : Library) {part : String}

theorem confined_onDisk {α : Type} {action : StateM FileTree (Except DiskError α)}
    (confined : Confined b n action) : Confined b n (onDisk action).run := by
  refine confined.bind fun outcome => ?_
  cases outcome with
  | ok v => exact .pure _
  | error error => exact .pure _

theorem confined_lift {α : Type} {action : StateM FileTree α} (confined : Confined b n action) :
    Confined b n (ExceptT.lift action : ExceptT Error (StateM FileTree) α).run := by
  intro t other ready ready' agree
  obtain ⟨values, later⟩ := confined t other ready ready' agree
  exact ⟨congrArg Except.ok values, later⟩

include plain

theorem inside_directory (other : Path.IsPlain part) : Inside b n (Path.join (Path.join b n) part) :=
  (inside_join plain).join (by rw [Path.names_join b plain, segments_join b plain]) other

theorem inside_source (other : Path.IsPlain part) :
    Inside b n (Path.join (Path.join (Path.join b n) "src") part) := by
  have source : Path.IsPlain "src" := by decide
  exact (inside_directory plain source).join (by rw [Path.names_join _ source, segments_join _ source]) other

/-- **Filling a directory** neither sees nor changes anything outside of it. -/
theorem confined_fill : Confined b n (fill l (Path.join b n)).run := by
  have writes {p : String} (inside : Inside b n p) (s : String) :
      Confined b n (onDisk (disk.write p s)).run :=
    confined_onDisk (Confined.write inside s)
  have source : Inside b n (Path.join (Path.join b n) "src") := inside_directory plain (by decide)
  have manifest : Inside b n (Path.join (Path.join b n) "package.json") := inside_directory plain (by decide)
  have readme : Inside b n (Path.join (Path.join b n) "README.md") := inside_directory plain (by decide)
  have define := writes (inside_source plain (show Path.IsPlain "define.js" by decide)) l.moduleText
  have provide := writes (inside_source plain (show Path.IsPlain "runtime.js" by decide)) runtimeText
  have enter := writes (inside_source plain (show Path.IsPlain "index.js" by decide)) entryText
  have existing : Confined b n (existingManifest? disk
      (Path.join (Path.join b n) "package.json")) := by
    refine (Confined.read manifest).bind fun outcome => ?_
    cases outcome with
    | ok s => exact .pure _
    | error error => exact .pure _
  have present : Confined b n (disk.isPresent (Path.join (Path.join b n) "README.md")) :=
    (Confined.isFile readme).bind fun _ => (Confined.isDirectory readme).bind fun _ => .pure _
  unfold fill writeFiles
  refine .bindExcept (confined_onDisk (Confined.ensure (inside_join plain))) fun _ => ?_
  refine .bindExcept (confined_onDisk (Confined.ensure source)) fun _ => ?_
  refine .bindExcept define fun _ => .bindExcept provide fun _ => .bindExcept enter fun _ => ?_
  refine .bindExcept (confined_lift existing) fun _ => .bindExcept (writes manifest _) fun _ => ?_
  refine .bindExcept (confined_lift present) fun got => ?_
  cases got with
  | true => exact .pure _
  | false => exact .bindExcept (writes readme _) fun _ => .pure _

end Confinement

/-! ## The directories of a library -/

section Directories

variable {b n : String} {l : Library} {t later : FileTree}

theorem writeLibrary_of_unclean {out : String} (unclean : ¬ Path.Clean (Path.join out "src")) :
    ∃ error, (writeLibrary disk l out).run t = (.error error, t) := by
  obtain ⟨error, failed⟩ := makeDirectories_of_unclean t unclean
  refine ⟨.disk error, bind_of_error ?_⟩
  rw [onDisk_apply, failed]
  rfl

variable (plain : Path.IsPlain n) (clean : Path.Clean (Path.join (Path.join b n) "src"))

include plain clean

theorem makeDirectories_sim (t : FileTree) :
    Sim (ensureAll (Path.join (Path.join b n) "src" :: Path.join b n :: aboveOf b) t)
      (disk.makeDirectories (Path.join (Path.join b n) "src") t) := by
  have line : Path.ancestors (Path.join (Path.join b n) "src") =
      Path.join (Path.join b n) "src" :: Path.join b n :: aboveOf b := by
    rw [Path.ancestors_join _ (show Path.IsPlain "src" by decide), Path.trimmed_join b plain,
      Path.ancestors_join b plain, aboveOf]
  rw [← line]
  refine (makeAll_sim_ensureAll (Path.lineage_ancestors _) (fun p head => ?_) t).symm
  rw [line] at head
  exact Option.some.inj head ▸ clean

theorem writeLibrary_of_blocked {error : DiskError}
    (blocked : ensureAll (aboveOf b) t = (.error error, later)) :
    ∃ error, (writeLibrary disk l (Path.join b n)).run t = (.error error, later) := by
  have sim := makeDirectories_sim plain clean t
  rw [ensureAll_cons_of_error _ (ensureAll_cons_of_error _ blocked)] at sim
  obtain ⟨_, done, -⟩ | ⟨_, error', -, failed⟩ := sim.cases
  · cases done
  · refine ⟨.disk error', bind_of_error ?_⟩
    rw [onDisk_apply, failed]
    rfl

theorem writeLibrary_of_made (made : ensureAll (aboveOf b) t = (.ok (), later)) :
    Sim ((writeLibrary disk l (Path.join b n)).run t) ((fill l (Path.join b n)).run later) := by
  have sim := makeDirectories_sim plain clean t
  -- a directory that cannot be made ends both
  have stopped {error : DiskError} {last : FileTree}
      (failed : ensureAll (Path.join (Path.join b n) "src" :: Path.join b n :: aboveOf b) t =
        (.error error, last))
      (failed' : (fill l (Path.join b n)).run later = (.error (.disk error), last)) :
      Sim ((writeLibrary disk l (Path.join b n)).run t)
        ((fill l (Path.join b n)).run later) := by
    rw [failed] at sim
    obtain ⟨_, done, -⟩ | ⟨_, error', -, unmade⟩ := sim.cases
    · cases done
    · have ends : (writeLibrary disk l (Path.join b n)).run t =
          (.error (.disk error'), last) := bind_of_error (by rw [onDisk_apply, unmade]; rfl)
      rw [ends, failed']
      exact ⟨rfl, rfl⟩
  rcases fst : ensure (Path.join b n) later with ⟨outcome, middle⟩
  have dir := ensureAll_cons_of_ok (Path.join b n) made
  rw [fst] at dir
  cases outcome with
  | error error =>
    refine stopped (ensureAll_cons_of_error _ dir) (bind_of_error ?_)
    rw [onDisk_apply, fst]
    rfl
  | ok _ =>
    have opened : (onDisk (ensure (Path.join b n))).run later = (.ok (), middle) := onDisk_eq_ok.2 fst
    rcases snd : ensure (Path.join (Path.join b n) "src") middle with ⟨outcome, last⟩
    have source := ensureAll_cons_of_ok (Path.join (Path.join b n) "src") dir
    rw [snd] at source
    cases outcome with
    | error error =>
      refine stopped source ?_
      rw [fill, bind_of_ok opened]
      refine bind_of_error ?_
      rw [onDisk_apply, snd]
      rfl
    | ok _ =>
      rw [source] at sim
      obtain ⟨_, -, done⟩ | ⟨_, _, failed, -⟩ := sim.cases
      · rw [writeLibrary_eq, bind_of_ok (onDisk_eq_ok.2 done), fill, bind_of_ok opened,
          bind_of_ok (onDisk_eq_ok.2 snd)]
        exact ⟨rfl, rfl⟩
      · cases failed

end Directories

end Bindery.Build
