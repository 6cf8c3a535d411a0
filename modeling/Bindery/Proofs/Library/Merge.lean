/-
Proofs.Library.Merge -- merging a manifest a second time changes nothing

The generated dependencies have distinct names (`nodup_collectDependencies`), because they
are a table with ascending keys.  An existing manifest is changed only as far as something is
missing: the type, the main entry, the dependencies, and in them each generated package
(`Settled`).  A settled manifest stays as it is (`mergeInto_of_settled`), and both a manifest
that was merged and one that was generated are settled.
-/
import Bindery.Library.Manifest
import Bindery.Proofs.Json.Readable
import Bindery.Proofs.Table

namespace Bindery

open List Option

/-! ## Members of an object -/

namespace Json.Members

variable {n other : String} {value : Value} {members : Members} {e : String × String} {es : NameMap String}

theorem find?_insert :
    find? other (insert n value members) = if other = n then some value else find? other members := by
  induction members with
  | nil => rfl
  | cons mem r ih =>
    obtain ⟨key, old⟩ := mem
    unfold insert
    split
    · next eq =>
      subst eq
      by_cases here : other = n <;> simp [find?, here]
    · next different =>
      simp only [find?, ih]
      by_cases here : other = key
      · subst here
        simp [Ne.symm different]
      · simp [here]

theorem insert_of_find? (got : find? n members = some value) : insert n value members = members := by
  induction members with
  | nil => cases got
  | cons mem r ih =>
    obtain ⟨key, old⟩ := mem
    unfold find? at got
    unfold insert
    split at got
    · next eq =>
      cases got
      rw [if_pos eq]
    · next different => rw [if_neg different, ih got]

theorem insertIfAbsent_of_isSome (present : (find? n members).isSome) :
    insertIfAbsent n value members = members :=
  if_pos present

theorem find?_append_singleton :
    find? other (members ++ [(n, value)]) =
      (find? other members).or (if other = n then some value else none) := by
  induction members with
  | nil => rfl
  | cons mem r ih =>
    obtain ⟨key, old⟩ := mem
    rw [cons_append, find?, find?, ih]
    split <;> rfl

theorem find?_insertIfAbsent :
    find? other (insertIfAbsent n value members) =
      (find? other members).or (if other = n then some value else none) := by
  unfold insertIfAbsent
  split
  · next present =>
    split
    · next eq =>
      subst eq
      obtain ⟨old, got⟩ := isSome_iff_exists.1 present
      rw [got, some_or]
    · rw [or_none]
  · exact find?_append_singleton

theorem isSome_find?_insertIfAbsent : (find? n (insertIfAbsent n value members)).isSome := by
  rw [find?_insertIfAbsent, if_pos rfl]
  cases find? n members <;> rfl

theorem mem_of_find? (got : find? n members = some value) : (n, value) ∈ members := by
  induction members with
  | nil => cases got
  | cons mem r ih =>
    obtain ⟨key, old⟩ := mem
    unfold find? at got
    split at got
    · next eq =>
      cases got
      exact eq ▸ mem_cons_self
    · exact mem_cons_of_mem _ (ih got)

end Json.Members

/-! ## Generated dependencies -/

theorem ascending_collectDependencies (cs : List CompiledCell) (workspace : List String)
    (fallback : String) : Table.Ascending (collectDependencies cs workspace fallback) := by
  have start : Table.Ascending runtimePackages := by decide
  have grow (packages : List String) (table : NameMap String) (ascending : Table.Ascending table)
      (range : String → String) :
      Table.Ascending (packages.foldl (fun got package => got.insert package (range package)) table) := by
    induction packages generalizing table with
    | nil => exact ascending
    | cons package packages ih => exact ih _ (ascending.insert package (range package))
  exact grow _ _ start _

/-! ## Settled manifests -/

namespace Manifest

open Json

/-- The dependencies list a generated package, with the generated range if it links to the
workspace. -/
def Listed (members : Members) (entry : String × String) : Prop :=
  ∃ value, Members.find? entry.1 members = some value ∧
    (linksToWorkspace entry.2 = true → value = .string entry.2)

theorem addDependency_of_listed {members : Members}
    (listed : Listed members e) : addDependency members e = members := by
  obtain ⟨value, got, linked⟩ := listed
  unfold addDependency
  split
  · next adds =>
    rw [got, isNone_some, Bool.or_false] at adds
    exact Members.insert_of_find? (linked adds ▸ got)
  · rfl

theorem listed_addDependency (members : Members) (e : String × String) :
    Listed (addDependency members e) e := by
  unfold addDependency
  split
  · exact ⟨_, by rw [Members.find?_insert, if_pos rfl], fun _ => rfl⟩
  · next keeps =>
    rw [Bool.not_eq_true, Bool.or_eq_false_iff, isNone_eq_false_iff] at keeps
    obtain ⟨value, got⟩ := isSome_iff_exists.1 keeps.2
    exact ⟨value, got, fun linked => by rw [keeps.1] at linked; cases linked⟩

theorem Listed.addDependency {members : Members} {other : String × String} (listed : Listed members e)
    (different : e.1 ≠ other.1) : Listed (addDependency members other) e := by
  obtain ⟨value, got, linked⟩ := listed
  refine ⟨value, ?_, linked⟩
  unfold Manifest.addDependency
  split
  · rw [Members.find?_insert, if_neg different, got]
  · exact got

theorem listed_foldl {es : List (String × String)} (nodup : (es.map Prod.fst).Nodup)
    (members : Members) : ∀ e ∈ es, Listed (es.foldl addDependency members) e := by
  -- what is added later is another package
  have kept {e : String × String} (later : List (String × String)) (members : Members)
      (fresh : e.1 ∉ later.map Prod.fst) (listed : Listed members e) :
      Listed (later.foldl addDependency members) e := by
    induction later generalizing members with
    | nil => exact listed
    | cons other later ih =>
      rw [map_cons, mem_cons, not_or] at fresh
      exact ih _ fresh.2 (listed.addDependency fresh.1)
  induction es generalizing members with
  | nil => nofun
  | cons fst es ih =>
    rw [map_cons, nodup_cons] at nodup
    intro e mem
    rcases mem_cons.1 mem with rfl | mem
    · exact kept es _ nodup.1 (listed_addDependency members e)
    · exact ih nodup.2 _ e mem

/-- The members of a manifest to which nothing is added. -/
structure Settled (generated : Manifest) (members : Members) : Prop where
  typed : (Members.find? "type" members).isSome = true
  entered : (Members.find? "main" members).isSome = true
  listed : ∃ dependencies, Members.find? "dependencies" members = some (.object dependencies) ∧
    ∀ entry ∈ generated.dependencies, Listed dependencies entry

/-- **A settled manifest stays as it is.** -/
theorem mergeInto_of_settled {gen : Manifest} {members : Members} (settled : gen.Settled members) :
    gen.mergeInto (.object members) = .object members := by
  obtain ⟨dependencies, got, listed⟩ := settled.listed
  have eq : gen.dependencies.foldl addDependency dependencies = dependencies := by
    generalize gen.dependencies = es at listed
    induction es with
    | nil => rfl
    | cons e es ih =>
      rw [foldl_cons, addDependency_of_listed (listed e mem_cons_self)]
      exact ih fun other mem => listed other (.tail _ mem)
  rw [mergeInto, Members.insertIfAbsent_of_isSome settled.typed,
    Members.insertIfAbsent_of_isSome settled.entered, dependenciesIn, got]
  dsimp only
  rw [eq, Members.insert_of_find? got]

section

variable (gen : Manifest) (nodup : (gen.dependencies.map Prod.fst).Nodup)
include gen nodup

theorem settled_toValue :
    ∃ members, gen.toValue = .object members ∧ gen.Settled members := by
  refine ⟨_, rfl, rfl, rfl, _, rfl, ?_⟩
  unfold dependencyMembers
  generalize gen.dependencies = es at nodup
  induction es with
  | nil => nofun
  | cons fst es ih =>
    rw [map_cons, nodup_cons] at nodup
    intro e mem
    rcases mem_cons.1 mem with rfl | mem
    · exact ⟨_, if_pos rfl, fun _ => rfl⟩
    · obtain ⟨value, got, linked⟩ := ih nodup.2 e mem
      have different : e.1 ≠ fst.1 := fun eq =>
        nodup.1 (eq ▸ mem_map_of_mem mem)
      exact ⟨value, (if_neg different).trans got, linked⟩

/-- **A merged manifest is settled.** -/
theorem settled_mergeInto (existing : Value) :
    ∃ members, gen.mergeInto existing = .object members ∧ gen.Settled members := by
  cases existing with
  | object existing =>
    refine ⟨_, rfl, ?_, ?_, _, by rw [Members.find?_insert, if_pos rfl], listed_foldl nodup _⟩
    · rw [Members.find?_insert, if_neg (by decide), Members.find?_insertIfAbsent, isSome_or,
        Members.isSome_find?_insertIfAbsent, Bool.true_or]
    · rw [Members.find?_insert, if_neg (by decide)]
      exact Members.isSome_find?_insertIfAbsent
  | null | bool _ | number _ | string _ | array _ => exact settled_toValue gen nodup

end

/-! ## Readable manifests -/

section Readable

variable {P : Double → Prop} {d : Nat}

theorem readable_dependenciesIn {existing : Members} (readable : ReadableMembers P (d + 1) existing) :
    ReadableMembers P d (dependenciesIn existing) := by
  unfold dependenciesIn
  split
  · next members got =>
    exact .of_object (readable.all _ (Members.mem_of_find? got))
  · exact .nil

theorem readable_foldl (es : List (String × String)) {members : Members}
    (readable : ReadableMembers P d members) : ReadableMembers P d (es.foldl addDependency members) := by
  induction es generalizing members with
  | nil => exact readable
  | cons e es ih =>
    refine ih ?_
    unfold addDependency
    split
    · exact readable.insert e.1 (.string e.2)
    · exact readable

section

variable {gen : Manifest} (nodup : (gen.dependencies.map Prod.fst).Nodup)
include nodup

theorem readable_toValue : Readable P (d + 2) gen.toValue := by
  have ns : gen.dependencyMembers.map Prod.fst = gen.dependencies.map Prod.fst := map_map
  have dependencies : ReadableMembers P d gen.dependencyMembers := by
    refine ⟨ns ▸ nodup, fun mem got => ?_⟩
    obtain ⟨e, -, rfl⟩ := mem_map.1 got
    exact .string e.2
  have fields : ReadableMembers P (d + 1) [("name", .string gen.name), ("version", .string "0.1.0"),
      ("type", .string "module"), ("main", .string mainEntry),
      ("dependencies", .object gen.dependencyMembers)] :=
    ReadableMembers.nil.insert "name" (.string gen.name)
      |>.insert "version" (.string "0.1.0") |>.insert "type" (.string "module")
      |>.insert "main" (.string mainEntry) |>.insert "dependencies" dependencies.object
  exact fields.object

theorem readable_mergeInto {existing : Value} (readable : Readable P (d + 2) existing) :
    Readable P (d + 2) (gen.mergeInto existing) := by
  cases existing with
  | object existing =>
    have members := ReadableMembers.of_object readable
    have merged := (members.insertIfAbsent "type" (.string "module")).insertIfAbsent "main" (.string mainEntry)
    have dependencies := readable_foldl gen.dependencies (readable_dependenciesIn members)
    exact (merged.insert "dependencies" dependencies.object).object
  | null | bool _ | number _ | string _ | array _ => exact readable_toValue nodup

end

end Readable

end Manifest

/-! ## What stays of an existing manifest -/

namespace Json.Members

variable {n other : String} {value : Value} {members : Members}

theorem isSome_find? : (find? n members).isSome ↔ n ∈ members.map Prod.fst := by
  induction members with
  | nil => simp [find?]
  | cons mem r ih =>
    obtain ⟨key, old⟩ := mem
    rw [find?, map_cons, mem_cons, ← ih]
    split
    · next eq => simp [eq]
    · next different => simp [different]

theorem map_fst_insert :
    (insert n value members).map Prod.fst =
      members.map Prod.fst ++ [n].filter (· ∉ members.map Prod.fst) := by
  by_cases known : n ∈ members.map Prod.fst
  · rw [filter_cons_of_neg (by simpa using known), filter_nil, append_nil]
    induction members with
    | nil => cases known
    | cons mem r ih =>
      unfold insert
      split
      · rfl
      · next different =>
        rw [map_cons, map_cons, ih ((mem_cons.1 known).resolve_left different)]
  · rw [insert_of_not_mem known, filter_cons_of_pos (by simpa using known), map_append]
    rfl

theorem map_fst_insertIfAbsent :
    (insertIfAbsent n value members).map Prod.fst =
      members.map Prod.fst ++ [n].filter (· ∉ members.map Prod.fst) := by
  unfold insertIfAbsent
  split
  · next present =>
    rw [filter_cons_of_neg (by simpa using isSome_find?.1 present), filter_nil, append_nil]
  · next absent =>
    rw [filter_cons_of_pos (by simpa using fun known => absent (isSome_find?.2 known)), map_append]
    rfl

/-- A member of distinct ones is replaced in place. -/
theorem insert_eq_map (nodup : (members.map Prod.fst).Nodup) (known : n ∈ members.map Prod.fst) :
    insert n value members = members.map fun mem => if mem.1 = n then (n, value) else mem := by
  induction members with
  | nil => cases known
  | cons mem r ih =>
    obtain ⟨key, old⟩ := mem
    rw [map_cons, nodup_cons] at nodup
    rw [insert, map_cons]
    by_cases here : n = key
    · subst here
      rw [if_pos rfl, if_pos rfl]
      refine congrArg _ (Eq.symm <| (map_congr_left fun mem later => ?_).trans (map_id' r))
      exact if_neg fun eq => nodup.1 (mem_map.2 ⟨mem, later, eq⟩)
    · rw [if_neg here, if_neg (Ne.symm here), ih nodup.2 ((mem_cons.1 known).resolve_left here)]

end Json.Members

namespace Manifest

open Json

/-- A dependency that is there already, beside generated ones: it is changed only to link
it to the workspace. -/
def relinked (generated : NameMap String) (member : String × Value) : String × Value :=
  (generated.find? member.1).elim member fun range =>
    if linksToWorkspace range then (member.1, .string range) else member

theorem fst_relinked (es : NameMap String) (mem : String × Value) : (relinked es mem).1 = mem.1 := by
  unfold relinked
  cases es.find? mem.1 with
  | none => rfl
  | some range =>
    rw [elim_some]
    split <;> rfl

theorem relinked_of_not_mem {mem : String × Value}
    (unknown : mem.1 ∉ es.map Prod.fst) : relinked es mem = mem := by
  unfold relinked
  cases got : es.find? mem.1 with
  | none => rfl
  | some range => exact absurd (mem_map_of_mem (Table.mem_of_find? got)) unknown

/-- The dependencies that are there stay in front, and the others follow as generated. -/
theorem foldl_addDependency (once : (es.map Prod.fst).Nodup)
    {members : Members} (nodup : (members.map Prod.fst).Nodup) :
    es.foldl addDependency members =
      members.map (relinked es) ++
        (es.filter (·.1 ∉ members.map Prod.fst)).map fun e => (e.1, .string e.2) := by
  induction es generalizing members with
  | nil => exact ((append_nil _).trans (map_id' members)).symm
  | cons e es ih =>
    rw [map_cons, nodup_cons] at once
    have fresh {other : String × Value} (eq : other.1 = e.1) : relinked es other = other :=
      relinked_of_not_mem (eq ▸ once.1)
    -- the first entry is linked in place or passed over, or else appended
    by_cases known : e.1 ∈ members.map Prod.fst
    · have there : (Members.find? e.1 members).isNone = false := by
        simpa using Members.isSome_find?.2 known
      have changed : addDependency members e =
          members.map fun mem => if mem.1 = e.1 then relinked [e] mem else mem := by
        rw [addDependency, there, Bool.or_false]
        split
        · next linked =>
          rw [Members.insert_eq_map nodup known]
          refine map_congr_left fun mem _ => ?_
          split
          · next eq => simp [relinked, Table.find?, eq, linked]
          · rfl
        · next kept =>
          refine Eq.symm ((map_congr_left fun mem _ => ?_).trans (map_id' members))
          split
          · next eq => simp [relinked, Table.find?, eq, kept]
          · rfl
      have ks : (addDependency members e).map Prod.fst = members.map Prod.fst := by
        rw [changed, List.map_map]
        refine map_congr_left fun mem _ => ?_
        rw [Function.comp_apply, apply_ite Prod.fst, fst_relinked, ite_self]
      rw [foldl_cons, ih once.2 (ks ▸ nodup), ks, changed, List.map_map,
        filter_cons_of_neg (by simpa using known)]
      refine congrArg (· ++ _) (map_congr_left fun mem _ => ?_)
      dsimp only [Function.comp_apply]
      split
      · next eq =>
        rw [fresh ((fst_relinked _ _).trans eq)]
        simp [relinked, Table.find?, eq]
      · next different => simp [relinked, Table.find?, different]
    · have absent : (Members.find? e.1 members).isNone := by
        rw [isNone_iff_eq_none, ← not_isSome_iff_eq_none, Members.isSome_find?]
        exact known
      have added : addDependency members e = members ++ [(e.1, .string e.2)] := by
        rw [addDependency, absent, Bool.or_true, if_pos rfl, Members.insert_of_not_mem known]
      have ks : (members ++ [(e.1, Value.string e.2)]).map Prod.fst =
          members.map Prod.fst ++ [e.1] := map_append
      have unique : ((members ++ [(e.1, Value.string e.2)]).map Prod.fst).Nodup := by
        refine ks ▸ nodup_append.2 ⟨nodup, pairwise_singleton _ _, fun key inside other eq => ?_⟩
        rw [mem_singleton.1 eq]
        exact fun equal => known (equal ▸ inside)
      rw [foldl_cons, added, ih once.2 unique, ks, map_append, append_assoc,
        filter_cons_of_pos (by simpa using known), map_cons]
      congr 1
      · refine map_congr_left fun mem inside => ?_
        have different : mem.1 ≠ e.1 := fun eq => known (eq ▸ mem_map_of_mem inside)
        simp [relinked, Table.find?, different]
      · rw [map_cons, map_nil, fresh rfl, singleton_append]
        refine congrArg (_ :: map _ ·) (filter_congr fun other later => ?_)
        have different : other.1 ≠ e.1 := fun eq => once.1 (eq ▸ mem_map_of_mem later)
        simp [different]

/-- **Merging keeps what is there, and merging again changes nothing.** -/
theorem mergeInto_preserves (generated : Manifest) (ascending : Table.Ascending generated.dependencies) :
    (∀ existing : Members, ∃ members, generated.mergeInto (.object existing) = .object members ∧
      members.map Prod.fst = existing.map Prod.fst ++
        ["type", "main", "dependencies"].filter (· ∉ existing.map Prod.fst) ∧
      (∀ key value, key ≠ "dependencies" → Members.find? key existing = some value →
        Members.find? key members = some value) ∧
      ∀ dependencies, Members.find? "dependencies" existing = some (.object dependencies) →
        (dependencies.map Prod.fst).Nodup →
        Members.find? "dependencies" members =
          some (.object (dependencies.map (relinked generated.dependencies) ++
            (generated.dependencies.filter (·.1 ∉ dependencies.map Prod.fst)).map
              fun entry => (entry.1, .string entry.2)))) ∧
    (∀ existing, generated.mergeInto (generated.mergeInto existing) = generated.mergeInto existing) ∧
    generated.mergeInto generated.toValue = generated.toValue := by
  refine ⟨fun existing => ⟨_, rfl, ?_, fun key value other found => ?_, fun dependencies found distinct => ?_⟩,
    fun existing => ?_, ?_⟩
  · simp only [Members.map_fst_insert, Members.map_fst_insertIfAbsent]
    by_cases typed : "type" ∈ existing.map Prod.fst <;>
      by_cases entered : "main" ∈ existing.map Prod.fst <;>
        by_cases listed : "dependencies" ∈ existing.map Prod.fst <;>
          simp [typed, entered, listed]
  · rw [Members.find?_insert, if_neg other, Members.find?_insertIfAbsent,
      Members.find?_insertIfAbsent, found, some_or, some_or]
  · rw [Members.find?_insert, if_pos rfl, dependenciesIn, found]
    exact congrArg (some <| Value.object ·) (foldl_addDependency ascending.nodup distinct)
  · obtain ⟨members, merged, settled⟩ := settled_mergeInto generated ascending.nodup existing
    rw [merged, mergeInto_of_settled settled]
  · obtain ⟨members, same, settled⟩ := settled_toValue generated ascending.nodup
    rw [same, mergeInto_of_settled settled]

/-- A package that is linked in place, one that is kept, and one that is new. -/
theorem mergeInto_preserves_linked :
    let generated : Manifest := ⟨"demo", [("a", "latest"), ("b", "workspace:*"), ("c", "latest")]⟩
    let dependencies : Members := [("b", .string "1"), ("a", .string "2")]
    let existing : Members := [("dependencies", .object dependencies), ("main", .string "x.js")]
    Table.Ascending generated.dependencies ∧ (dependencies.map Prod.fst).Nodup ∧
      ∃ members, generated.mergeInto (.object existing) = .object members ∧
        members.map Prod.fst = ["dependencies", "main", "type"] ∧
        Members.find? "main" members = some (.string "x.js") ∧
        Members.find? "dependencies" members = some (.object
          [("b", .string "workspace:*"), ("a", .string "2"), ("c", .string "latest")]) := by
  intro generated dependencies existing
  have ascending : Table.Ascending generated.dependencies := by decide
  have distinct : (dependencies.map Prod.fst).Nodup := by decide
  obtain ⟨members, merged, keys, kept, listed⟩ :=
    (mergeInto_preserves generated ascending).1 existing
  exact ⟨ascending, distinct, members, merged, keys, kept "main" _ (by decide) rfl,
    listed dependencies rfl distinct⟩

end Manifest

end Bindery
