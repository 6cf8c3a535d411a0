/-
Proofs.Build.Workspace -- which packages a workspace has

The packages of a workspace are the named directories that are at most three names below its
`packages`, behind names that are searched (`packages_exact`).  A manifest that cannot be read or has
no name hides nothing but itself.  In which order the disk lists a directory is of no account.
-/
import Bindery.Build.Workspace
import Bindery.Proofs.Disk.Ancestors
import Bindery.Proofs.Json.RoundTrip
import Bindery.Proofs.Success
import Bindery.Proofs.Table

namespace Bindery

open List

namespace FileTree

variable {tree : FileTree} {b name path : String} {d : Nat}

/-! ## Directories and their names -/

theorem isDirectory_of_join (plain : Path.IsPlain name) {loc : Location}
    (leads : tree.resolve (Path.join b name) = .ok loc) : tree.isDirectory b := by
  refine isDirectory_of_resolve ⟨?_, [name], cons_ne_nil _ _, Path.names_join b plain⟩ leads
  rcases Path.toList_join b plain with ⟨s, -⟩ | ⟨s, -⟩ <;> exact ⟨_, s.symm⟩

theorem isDirectory_of_foldl {ns : List String} (plain : ∀ name ∈ ns, Path.IsPlain name)
    (there : tree.isDirectory (ns.foldl Path.join b)) : tree.isDirectory b := by
  induction ns generalizing b with
  | nil => exact there
  | cons name ns ih =>
    obtain ⟨loc, leads, -⟩ := isDirectory_iff.1 (ih (fun name mem => plain name (.tail _ mem)) there)
    exact isDirectory_of_join (plain name mem_cons_self) leads

/-- **A directory is listed in the one above it.** -/
theorem mem_subdirectories (plain : Path.IsPlain name)
    (there : tree.isDirectory (Path.join b name)) : name ∈ tree.subdirectories b := by
  obtain ⟨loc, leads, got⟩ := isDirectory_iff.1 there
  obtain ⟨above, leads', got'⟩ := isDirectory_iff.1 (isDirectory_of_join plain leads)
  have here : loc = above ++ [name] := by
    rw [eq_target_of_resolve leads, eq_target_of_resolve leads', Path.target_join b plain]
  rw [here, find?, if_neg (by simp)] at got
  rw [subdirectories, lookup, leads']
  dsimp only
  rw [got']
  refine mem_filterMap.2 ⟨_, mem_filter.2 ⟨Table.mem_of_find? got, rfl⟩, ?_⟩
  simp [nameIn?]

/-- The names of a tree can be put behind a path. -/
def Proper (tree : FileTree) : Prop :=
  ∀ entry ∈ tree.entries, ∀ name ∈ entry.1, Path.IsPlain name

theorem Proper.isPlain (proper : tree.Proper) (listed : name ∈ tree.subdirectories b) : Path.IsPlain name := by
  unfold subdirectories at listed
  split at listed
  · obtain ⟨e, mem, named⟩ := mem_filterMap.1 listed
    unfold nameIn? at named
    split at named
    · exact proper e (mem_filter.1 mem).1 name (mem_of_getLast? named)
    · cases named
  · cases listed

/-- The disk of a tree that lists a directory in an order of its own. -/
def listing (order : String → List String → List String) : Disk (StateM FileTree) :=
  { disk with subdirectories := fun path tree => (order path (tree.subdirectories path), tree) }

theorem mapM_eq {α β : Type} {action : α → StateM FileTree β} {v : α → β}
    (eq : ∀ item, action item tree = (v item, tree)) (items : List α) :
    items.mapM action tree = (items.map v, tree) := by
  induction items with
  | nil => rfl
  | cons item items ih => rw [mapM_cons, bind_apply, eq, bind_apply, ih]; rfl

end FileTree

namespace Workspace

open FileTree

variable {tree : FileTree} {order : String → List String → List String} {dir name : String}

/-- The directory has a manifest with a name. -/
def IsNamed (tree : FileTree) (dir name : String) : Prop :=
  ∃ manifest value, tree.read (Path.join dir "package.json") = .ok manifest ∧
    Json.parse? manifest = some value ∧ value.member? "name" = some (.string name)

/-- So many names below the directory at most, none of them hidden or of built code, there is one
with a name. -/
def Holds (tree : FileTree) (depth : Nat) (dir name : String) : Prop :=
  ∃ below : List String, below.length ≤ depth ∧
    (∀ part ∈ below, Path.IsPlain part ∧ part.toList.head? ≠ some '.' ∧
      part ∉ ["node_modules", "dist", "build", ".git"]) ∧
    IsNamed tree (below.foldl Path.join dir) name

theorem isSearched_iff : isSearched name ↔
    name.toList.head? ≠ some '.' ∧ name ∉ ["node_modules", "dist", "build", ".git"] := by
  simp [isSearched, skippedNames]

theorem nameIn?_eq_some {manifest : String} : nameIn? manifest = some name ↔
    ∃ v, Json.parse? manifest = some v ∧ v.member? "name" = some (.string name) := by
  have isString (v : Json.Value) : v.string? = some name ↔ v = .string name := by
    cases v <;> simp [Json.Value.string?]
  simp [nameIn?, Option.bind_eq_some_iff, isString]

theorem packageName?_exact (dir : String) :
    (packageName? (listing order) dir tree).2 = tree ∧
      ∀ name, name ∈ (packageName? (listing order) dir tree).1.toList ↔ IsNamed tree dir name := by
  have asked : (listing order).read (Path.join dir "package.json") tree =
    (tree.read (Path.join dir "package.json"), tree) := rfl
  rw [packageName?, bind_apply, asked]
  cases read : tree.read (Path.join dir "package.json") with
  | ok manifest =>
    refine ⟨rfl, fun name => ?_⟩
    show name ∈ (nameIn? manifest).toList ↔ _
    simp [IsNamed, read, ← nameIn?_eq_some]
  | error error =>
    refine ⟨rfl, fun name => ?_⟩
    show name ∈ none.toList ↔ _
    simp [IsNamed, read]

theorem IsNamed.isDirectory (named : IsNamed tree dir name) : tree.isDirectory dir := by
  obtain ⟨manifest, -, read, -⟩ := named
  obtain ⟨loc, leads, -⟩ := read_eq_ok.1 read
  exact isDirectory_of_join (by decide) leads

theorem Holds.isDirectory (holds : Holds tree d dir name) : tree.isDirectory dir := by
  obtain ⟨below, -, fine, named⟩ := holds
  exact isDirectory_of_foldl (fun part mem => (fine part mem).1) named.isDirectory

/-- What is below a directory is there or below one that it lists. -/
theorem holds_succ (proper : tree.Proper) : Holds tree (d + 1) dir name ↔
    IsNamed tree dir name ∨ ∃ child ∈ tree.subdirectories dir, isSearched child ∧
      Holds tree d (Path.join dir child) name := by
  constructor
  · rintro ⟨below, short, fine, named⟩
    cases below with
    | nil => exact .inl named
    | cons child below =>
      obtain ⟨plain, searched⟩ := fine child mem_cons_self
      have holds : Holds tree d (Path.join dir child) name :=
        ⟨below, Nat.le_of_succ_le_succ short, fun part mem => fine part (.tail _ mem), named⟩
      exact .inr ⟨child, mem_subdirectories plain holds.isDirectory, isSearched_iff.2 searched, holds⟩
  · rintro (named | ⟨child, mem, searched, below, short, fine, named⟩)
    · exact ⟨[], Nat.zero_le _, nofun, named⟩
    · refine ⟨child :: below, Nat.succ_le_succ short, fun part inside => ?_, named⟩
      rcases mem_cons.1 inside with rfl | inside
      · exact ⟨proper.isPlain mem, isSearched_iff.1 searched⟩
      · exact fine part inside

theorem namesBelow_exact (proper : tree.Proper)
    (permutes : ∀ path ns, order path ns ~ ns) (d : Nat) (dir : String) :
    (namesBelow (listing order) d dir tree).2 = tree ∧
      ∀ name, name ∈ (namesBelow (listing order) d dir tree).1 ↔ Holds tree d dir name := by
  induction d generalizing dir with
  | zero =>
    obtain ⟨stays, here⟩ := @packageName?_exact tree order dir
    refine ⟨stays, fun name => (here name).trans ⟨fun named => ⟨[], Nat.le_refl _, nofun, named⟩, ?_⟩⟩
    rintro ⟨below, short, -, named⟩
    cases length_eq_zero_iff.1 (Nat.le_zero.1 short)
    exact named
  | succ d ih =>
    obtain ⟨stays, here⟩ := @packageName?_exact tree order dir
    have below := mapM_eq
      (fun child => show namesBelow (listing order) d (Path.join dir child) tree = (_, tree)
        from Prod.ext rfl (ih (Path.join dir child)).1)
      ((order dir (tree.subdirectories dir)).filter isSearched)
    have asked : (listing order).subdirectories dir tree = (order dir (tree.subdirectories dir), tree) := rfl
    rw [namesBelow, bind_apply, stays, bind_apply, asked, bind_apply, below]
    refine ⟨rfl, fun name => ?_⟩
    rw [holds_succ proper, ← here name]
    show name ∈ _ ++ (map _ _).flatten ↔ _
    rw [mem_append, mem_flatten]
    refine or_congr_right ⟨?_, ?_⟩
    · rintro ⟨_, inside, mem⟩
      obtain ⟨child, kept, rfl⟩ := mem_map.1 inside
      obtain ⟨mem', searched⟩ := mem_filter.1 kept
      exact ⟨child, (permutes dir _).mem_iff.1 mem', searched, ((ih _).2 name).1 mem⟩
    · rintro ⟨child, mem, searched, holds⟩
      exact ⟨_, mem_map_of_mem (mem_filter.2 ⟨(permutes dir _).mem_iff.2 mem, searched⟩),
        ((ih _).2 name).2 holds⟩

theorem packages_eq {root : String} (permutes : ∀ path ns, order path ns ~ ns)
    (proper : tree.Proper) : ∃ ns, packages (listing order) root tree = (ns, tree) ∧ ns.Pairwise (· < ·) ∧
      ∀ name, name ∈ ns ↔ Holds tree searchDepth (Path.join root "packages") name := by
  have asked : (listing order).isDirectory (Path.join root "packages") tree =
    (tree.isDirectory (Path.join root "packages"), tree) := rfl
  rw [packages, bind_apply, asked]
  cases there : tree.isDirectory (Path.join root "packages") with
  | false =>
    refine ⟨[], rfl, .nil, fun name => ⟨nofun, fun holds => ?_⟩⟩
    rw [holds.isDirectory] at there
    cases there
  | true =>
    obtain ⟨stays, ns⟩ := namesBelow_exact proper permutes searchDepth (Path.join root "packages")
    generalize namesBelow (listing order) searchDepth (Path.join root "packages") = search at *
    exact ⟨_, Prod.ext rfl stays, Sorted.pairwise_ofList _, fun name => Sorted.mem_ofList.trans (ns name)⟩

/-- **The packages of a workspace**, in whatever order its directories are listed. -/
theorem packages_exact (proper : tree.Proper) (root : String) :
    ∃ names, packages disk root tree = (names, tree) ∧
      (∀ order, (∀ path names, order path names ~ names) →
        packages (listing order) root tree = (names, tree)) ∧
      ∀ name, name ∈ names ↔ Holds tree 3 (Path.join root "packages") name := by
  obtain ⟨names, found, ascending, exact_⟩ :=
    @packages_eq tree (fun _ names => names) root (fun _ names => Perm.refl names) proper
  have unordered : listing (fun _ names => names) = disk := rfl
  refine ⟨names, unordered ▸ found, fun order permutes => ?_, exact_⟩
  obtain ⟨names', found', ascending', exact'⟩ := @packages_eq tree order root permutes proper
  rw [found', Sorted.eq_of_mem ascending' ascending fun name => (exact' name).trans (exact_ name).symm]

theorem packages_exact_below : let manifest := Json.render (.object [("name", .string "c")])
    let tree : FileTree := ⟨[(["packages"], .directory), (["packages", "a"], .directory),
      (["packages", "a", "b"], .directory),
      (["packages", "a", "b", "package.json"], .file (.text manifest)),
      (["packages", "a", "package.json"], .file (.binary [255]))]⟩
    ∃ names, packages disk "/" tree = (names, tree) ∧ "c" ∈ names := by
  intro manifest tree
  have proper : tree.Proper := by
    unfold FileTree.Proper
    decide
  obtain ⟨names, found, -, holds⟩ := packages_exact proper "/"
  have read : Json.parse? manifest = some (.object [("name", .string "c")]) :=
    Json.parse?_render (Json.ReadableMembers.nil.insert "name" (.string "c")).object
  have leads : tree.resolve (Path.join (["a", "b"].foldl Path.join (Path.join "/" "packages"))
      "package.json") = .ok ["packages", "a", "b", "package.json"] :=
    Except.eq_ok_of_toOption (by decide +kernel)
  have read' := read_eq_ok.2 ⟨_, leads, rfl⟩
  exact ⟨names, found, (holds "c").2 ⟨["a", "b"], by decide, by decide, manifest, _, read', read, rfl⟩⟩

end Workspace

end Bindery
