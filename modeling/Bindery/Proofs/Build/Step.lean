/-
Proofs.Build.Step -- what a build does to a tree of files

A build that succeeds on a tree reads the notebook, looks for packages to link, and writes
the library: first the directories, then the files one after the other.  The inversion lemmas
`writeLibrary_eq_ok` and `run_eq_ok` name every tree in between.
-/
import Bindery.Build.Basic
import Bindery.Proofs.Disk.Batch
import Bindery.Proofs.Success

namespace Bindery.Build

open FileTree

variable {t last : FileTree} {p : String} {error : Error} {l : Library}

/-! ## Looking -/

def Looks {α : Type} (action : StateM FileTree α) : Prop :=
  ∀ t, (action t).2 = t

section Looking

variable {α β : Type}

theorem Looks.pure (v : α) : Looks (Pure.pure v) := fun _ => rfl

theorem Looks.bind {fst : StateM FileTree α} {next : α → StateM FileTree β} (looks : Looks fst)
    (later : ∀ v, Looks (next v)) : Looks (fst >>= next) := by
  intro t
  show (next (fst t).1 (fst t).2).2 = t
  rw [later, looks]

theorem Looks.mapM {action : α → StateM FileTree β} (looks : ∀ item, Looks (action item))
    (items : List α) : Looks (items.mapM action) := by
  induction items with
  | nil => exact Looks.pure []
  | cons item items ih =>
    rw [List.mapM_cons]
    exact (looks item).bind fun _ => ih.bind fun _ => Looks.pure _

theorem looks_firstMarked? (directories : List String) : Looks (Workspace.firstMarked? disk directories) := by
  induction directories with
  | nil => exact Looks.pure none
  | cons dir directories ih =>
    refine Looks.bind (fun _ => rfl) fun got => ?_
    cases got with
    | true => exact Looks.pure _
    | false => exact ih

theorem looks_findRoot? (named : Option String) (start : String) :
    Looks (Workspace.findRoot? disk named start) := by
  cases named with
  | none => exact looks_firstMarked? _
  | some dir =>
    refine Looks.bind (fun _ => rfl) fun got => ?_
    cases got with
    | true => exact Looks.pure _
    | false => exact looks_firstMarked? _

theorem looks_packageName? (dir : String) : Looks (Workspace.packageName? disk dir) := by
  refine Looks.bind (fun _ => rfl) fun outcome => ?_
  cases outcome <;> exact Looks.pure _

theorem looks_namesBelow (d : Nat) (dir : String) : Looks (Workspace.namesBelow disk d dir) := by
  induction d generalizing dir with
  | zero => exact (looks_packageName? dir).bind fun _ => Looks.pure _
  | succ d ih =>
    refine (looks_packageName? dir).bind fun here => Looks.bind (fun _ => rfl) fun children => ?_
    exact (Looks.mapM (fun child => ih (Path.join dir child)) _).bind fun _ => Looks.pure _

theorem looks_packages (root : String) : Looks (Workspace.packages disk root) := by
  refine Looks.bind (fun _ => rfl) fun there => ?_
  cases there with
  | true => exact (looks_namesBelow _ _).bind fun _ => Looks.pure _
  | false => exact Looks.pure _

/-- **Looking for packages** leaves the tree as it is. -/
theorem looks_linkable (opts : BuildOptions) : Looks (linkable disk opts) := by
  unfold linkable
  split
  · exact Looks.pure _
  · dsimp only
    split
    · exact looks_packages _
    · refine (looks_findRoot? _ _).bind fun got => ?_
      cases got with
      | some root => exact looks_packages root
      | none => exact Looks.pure _

end Looking

/-! ## Steps -/

section Steps

variable {α β : Type} {later : FileTree} {fst : ExceptT Error (StateM FileTree) α}
  {next : α → ExceptT Error (StateM FileTree) β}

theorem bind_eq_ok {v : β} :
    (fst >>= next).run t = (.ok v, later) ↔
      ∃ inner middle, fst.run t = (.ok inner, middle) ∧ (next inner).run middle = (.ok v, later) := by
  rcases here : fst.run t with ⟨outcome, middle⟩
  have opened : (fst >>= next).run t = ExceptT.bindCont next outcome middle := by
    show ExceptT.bindCont next (fst.run t).1 (fst.run t).2 = _
    rw [here]
  rw [opened]
  cases outcome with
  | error error =>
    constructor
    · intro eq
      cases (Prod.ext_iff.1 eq).1
    · rintro ⟨_, _, ⟨⟩, -⟩
  | ok inner =>
    constructor
    · exact fun done => ⟨inner, middle, rfl, done⟩
    · rintro ⟨_, _, ⟨⟩, done⟩
      exact done

theorem bind_of_ok {v : α} (done : fst.run t = (.ok v, later)) : (fst >>= next).run t = (next v).run later := by
  show ExceptT.bindCont next (fst.run t).1 (fst.run t).2 = _
  rw [done]
  rfl

theorem bind_of_error (failed : fst.run t = (.error error, later)) :
    (fst >>= next).run t = (.error error, later) := by
  show ExceptT.bindCont next (fst.run t).1 (fst.run t).2 = _
  rw [failed]
  rfl

theorem pure_eq_ok {v res : α} :
    (pure v : ExceptT Error (StateM FileTree) α).run t = (.ok res, later) ↔ v = res ∧ t = later := by
  constructor
  · rintro ⟨⟩
    exact ⟨rfl, rfl⟩
  · rintro ⟨rfl, rfl⟩
    rfl

theorem onDisk_apply (action : StateM FileTree (Except DiskError α)) (t : FileTree) :
    (onDisk action).run t = ((action t).1.mapError .disk, (action t).2) := by
  rw [onDisk, ExceptT.run_mk, bind_apply]
  cases (action t).1 <;> rfl

theorem onDisk_eq_ok {action : StateM FileTree (Except DiskError α)} {v : α} :
    (onDisk action).run t = (.ok v, later) ↔ action t = (.ok v, later) := by
  rcases here : action t with ⟨outcome, middle⟩
  rw [onDisk_apply, here, Prod.mk.injEq, Prod.mk.injEq, Except.mapError_eq_ok]

theorem lift_eq_ok {action : StateM FileTree α} {v : α} :
    (ExceptT.lift action : ExceptT Error (StateM FileTree) α).run t = (.ok v, later) ↔
      action t = (v, later) := by
  show (Except.ok (action t).1, (action t).2) = _ ↔ _
  rw [Prod.mk.injEq, Except.ok.injEq, Prod.ext_iff]

theorem write_eq_ok {p s : String} {done : Unit} :
    disk.write p s t = (.ok done, later) ↔ t.write p (.text s) = .ok later := by
  show attempt (·.write p (.text s)) t = _ ↔ _
  exact attempt_eq_ok

end Steps

/-! ## A whole build -/

def manifestIn? (t : FileTree) (p : String) : Option Json.Value :=
  match t.read p with
  | .ok s => Json.parse? s
  | .error _ => none

theorem existingManifest?_eq (p : String) (t : FileTree) :
    existingManifest? disk p t = (manifestIn? t p, t) := by
  show (match t.read p with
    | .ok s => (pure (Json.parse? s) : StateM FileTree (Option Json.Value))
    | .error _ => pure none) t = _
  unfold manifestIn?
  cases t.read p <;> rfl

def isPresent (t : FileTree) (p : String) : Bool :=
  t.isFile p || t.isDirectory p

theorem isPresent_eq (p : String) (t : FileTree) : disk.isPresent p t = (isPresent t p, t) := rfl

def sourceFiles (library : Library) (out : String) : List (String × String) :=
  [(Path.join (Path.join out "src") "define.js", library.moduleText),
    (Path.join (Path.join out "src") "runtime.js", runtimeText),
    (Path.join (Path.join out "src") "index.js", entryText)]

def readmeFiles (library : Library) (out : String) (manifest : Json.Value) (written : Bool) :
    List (String × String) :=
  if written then
    [(Path.join out "README.md", renderReadme (packageName library manifest) library.module)]
  else []

/-- **Writing a library** that succeeds: the directories, the source, the manifest merged with
the one that is there, and the readme if there is none. -/
theorem writeLibrary_eq_ok {out : String} {merged written : Bool} :
    (writeLibrary disk l out).run t = (.ok (merged, written), last) ↔
      ∃ made entered existing listed, disk.makeDirectories (Path.join out "src") t = (.ok (), made) ∧
        made.writeAll (sourceFiles l out) = .ok entered ∧
        manifestIn? entered (Path.join out "package.json") = existing ∧
        entered.write (Path.join out "package.json")
          (.text (Json.render (manifestValue l existing))) = .ok listed ∧
        existing.isSome = merged ∧ (!isPresent listed (Path.join out "README.md")) = written ∧
        listed.writeAll (readmeFiles l out (manifestValue l existing) written) = .ok last := by
  unfold writeLibrary
  simp only [bind_eq_ok, onDisk_eq_ok, lift_eq_ok, existingManifest?_eq, isPresent_eq, write_eq_ok]
  constructor
  · rintro ⟨⟨⟩, made, directories, ⟨⟩, defined, define, ⟨⟩, provided, provide, ⟨⟩, entered, enter,
      existing, _, ⟨⟩, ⟨⟩, listed, list, present, _, ⟨⟩, ends⟩
    refine ⟨made, entered, _, listed, directories, ?_, rfl, list, ?_⟩
    · exact writeAll_cons.2 ⟨defined, define, writeAll_cons.2 ⟨provided, provide,
        writeAll_cons.2 ⟨entered, enter, rfl⟩⟩⟩
    · cases present : isPresent listed (Path.join out "README.md") with
      | true =>
        rw [present, if_pos rfl, pure_eq_ok] at ends
        obtain ⟨⟨⟩, rfl⟩ := ends
        exact ⟨rfl, rfl, rfl⟩
      | false =>
        rw [present, if_neg Bool.false_ne_true, bind_eq_ok] at ends
        obtain ⟨⟨⟩, _, write, ends⟩ := ends
        obtain ⟨⟨⟩, rfl⟩ := pure_eq_ok.1 ends
        rw [onDisk_eq_ok, write_eq_ok] at write
        exact ⟨rfl, rfl, writeAll_cons.2 ⟨_, write, rfl⟩⟩
  · rintro ⟨made, entered, existing, listed, directories, source, rfl, list, rfl, rfl, ends⟩
    obtain ⟨defined, define, source⟩ := writeAll_cons.1 source
    obtain ⟨provided, provide, source⟩ := writeAll_cons.1 source
    obtain ⟨_, enter, ⟨⟩⟩ := writeAll_cons.1 source
    refine ⟨(), made, directories, (), defined, define, (), provided, provide, (), entered, enter,
      _, _, rfl, (), listed, list, _, _, rfl, ?_⟩
    cases present : isPresent listed (Path.join out "README.md") with
    | true =>
      rw [present] at ends
      cases ends
      rfl
    | false =>
      rw [present] at ends
      obtain ⟨_, write, ⟨⟩⟩ := writeAll_cons.1 ends
      rw [if_neg Bool.false_ne_true]
      exact bind_eq_ok.2 ⟨(), _, onDisk_eq_ok.2 (write_eq_ok.2 write), rfl⟩

def outOf (opts : BuildOptions) (name : String) : String :=
  Path.join opts.directory (opts.out.getD name)

def reportOf (opts : BuildOptions) (nb : Notebook) (library : Library) (errors : List CellError)
    (merged written : Bool) : BuildReport where
  libraryName := opts.name.getD nb.libraryName
  out := outOf opts (opts.name.getD nb.libraryName)
  cellsTotal := nb.cells.length
  cellsCompiled := library.module.cells.length
  cellErrors := errors
  dependencies := library.manifest.dependencies
  manifestMerged := merged
  readmeWritten := written

theorem readNotebook_eq_ok {later : FileTree} {nb : Notebook} :
    (readNotebook disk p).run t = (.ok nb, later) ↔
      ∃ s, t.read p = .ok s ∧ Notebook.parse s = .ok nb ∧ t = later := by
  unfold readNotebook
  simp only [bind_eq_ok, onDisk_eq_ok]
  constructor
  · rintro ⟨s, middle, read, parsed⟩
    obtain ⟨here, rfl⟩ := Prod.mk.inj read
    split at parsed
    · next got =>
      obtain ⟨rfl, rfl⟩ := pure_eq_ok.1 parsed
      exact ⟨s, here, got, rfl⟩
    · cases parsed
  · rintro ⟨s, read, parsed, rfl⟩
    refine ⟨s, t, Prod.ext read rfl, ?_⟩
    rw [parsed]
    rfl

theorem readNotebook_of_text {s : String} (read : t.read p = .ok s) :
    (readNotebook disk p).run t = ((Notebook.parse s).mapError .document, t) := by
  have got : (onDisk (disk.read p)).run t = (.ok s, t) := onDisk_eq_ok.2 (Prod.ext read rfl)
  rw [readNotebook, bind_of_ok got]
  cases Notebook.parse s <;> rfl

theorem readNotebook_of_unreadable {error : DiskError} (unreadable : t.read p = .error error)
    : (readNotebook disk p).run t = (.error (.disk error), t) := by
  refine bind_of_error ((onDisk_apply _ t).trans ?_)
  show ((t.read p).mapError Error.disk, t) = _
  rw [unreadable]
  rfl

theorem lift_linkable (opts : BuildOptions) (t : FileTree) :
    (ExceptT.lift (linkable disk opts) : ExceptT Error _ _).run t = (.ok (linkable disk opts t).1, t) :=
  lift_eq_ok.2 (Prod.ext rfl (looks_linkable opts t))

/-! ### Every way that a build can go -/

section Ways

variable {input : String} {opts : BuildOptions}

theorem run_of_unreadable {error : DiskError}
    (unreadable : t.read (Path.join opts.directory input) = .error error) :
    (run disk input opts).run t = (.error (.disk error), t) :=
  bind_of_error (readNotebook_of_unreadable unreadable)

variable {s : String} (read : t.read (Path.join opts.directory input) = .ok s)

include read

theorem run_of_fault {fault : Notebook.DocumentFault} (malformed : Notebook.parse s = .error fault) :
    (run disk input opts).run t = (.error (.document fault), t) := by
  refine bind_of_error ?_
  rw [readNotebook_of_text read, malformed]
  rfl

variable {nb : Notebook} (parsed : Notebook.parse s = .ok nb)

include parsed

theorem run_of_refusal
    (refused : generate nb (opts.name.getD nb.libraryName)
      (linkable disk opts t).1 opts.range = .error error) :
    (run disk input opts).run t = (.error error, t) := by
  have got := readNotebook_of_text read
  rw [parsed] at got
  rw [run, bind_of_ok got, bind_of_ok (lift_linkable opts t), refused]
  rfl

theorem run_of_library {errors : List CellError}
    (gen : generate nb (opts.name.getD nb.libraryName)
      (linkable disk opts t).1 opts.range = .ok (l, errors)) :
    (run disk input opts).run t =
      (((writeLibrary disk l (outOf opts (opts.name.getD nb.libraryName))).run t).1.map
          fun done => reportOf opts nb l errors done.1 done.2,
        ((writeLibrary disk l (outOf opts (opts.name.getD nb.libraryName))).run t).2) := by
  have got := readNotebook_of_text read
  rw [parsed] at got
  rw [run, bind_of_ok got, bind_of_ok (lift_linkable opts t), gen]
  rcases wrote : (writeLibrary disk l (outOf opts (opts.name.getD nb.libraryName))).run t with ⟨outcome, last⟩
  cases outcome with
  | error error => exact bind_of_error wrote
  | ok done => exact bind_of_ok wrote

end Ways

/-- **A build that succeeds**: the notebook is read, its library generated and written. -/
theorem run_eq_ok {input : String} {opts : BuildOptions} {report : BuildReport} :
    (run disk input opts).run t = (.ok report, last) ↔
      ∃ s nb l errors merged written,
        t.read (Path.join opts.directory input) = .ok s ∧ Notebook.parse s = .ok nb ∧
        generate nb (opts.name.getD nb.libraryName) (linkable disk opts t).1 opts.range = .ok (l, errors) ∧
        (writeLibrary disk l (outOf opts (opts.name.getD nb.libraryName))).run t =
          (.ok (merged, written), last) ∧
        report = reportOf opts nb l errors merged written := by
  unfold run
  simp only [bind_eq_ok, readNotebook_eq_ok, lift_eq_ok]
  constructor
  · rintro ⟨nb, _, ⟨s, read, parsed, rfl⟩, workspace, middle, looked, done⟩
    have eq := looks_linkable opts t
    rw [looked] at eq
    obtain rfl : middle = t := eq
    split at done
    · cases done
    · next l errors gen =>
      obtain ⟨⟨merged, written⟩, _, wrote, ends⟩ := bind_eq_ok.1 done
      obtain ⟨rfl, rfl⟩ := pure_eq_ok.1 ends
      exact ⟨s, nb, l, errors, merged, written, read, parsed, by rw [looked, gen], wrote, rfl⟩
  · rintro ⟨s, nb, l, errors, merged, written, read, parsed, gen, wrote, rfl⟩
    refine ⟨nb, t, ⟨s, read, parsed, rfl⟩, _, t, Prod.ext rfl (looks_linkable opts t), ?_⟩
    rw [gen]
    exact bind_eq_ok.2 ⟨(merged, written), last, wrote, rfl⟩

end Bindery.Build
