/-
Proofs.Import.Reference -- a package put together again

A specifier of a package is taken apart into wrapper, name, version and path.  `Core` says
without a function which part of a trimmed specifier names the package, and determines that
part (`Core.unwrap`).  Nothing of it is lost: name, version and path, one behind the other,
are the core again, but for an at sign with no version behind it.  The wrapper in turn adds
nothing: a core behind any of them names the package that it names on its own.
-/
import Bindery.Proofs.Import.Specifier
import Bindery.Proofs.Name.View
import Mathlib.Data.List.DropRight

namespace Bindery

open List Text

namespace Specifier

variable {s rest core head : List Char} {ref : PackageRef} {wrapper : String} {wrapped : Bool}

/-! ## The core of a specifier -/

/-- The part of a trimmed specifier that names a package: the whole of a bare one, and of a
wrapped one what stands between the wrapper and a query, a fragment or a final `/+esm`. -/
inductive Core (s : List Char) : Bool → List Char → Prop
  | bare (free : ∀ wrapper ∈ wrappers, ¬ wrapper.toList <+: s) : Core s false s
  | wrapped {wrapper : String} {core ending tail : List Char} (known : wrapper ∈ wrappers)
      (split : s = wrapper.toList ++ (core ++ ending ++ tail))
      (clean : ∀ c ∈ core ++ ending, c ≠ '?' ∧ c ≠ '\x23')
      (cut : ∀ c ∈ tail.head?, c = '?' ∨ c = '\x23')
      (ended : ending = "/+esm".toList ∨ ending = [] ∧ ¬ "/+esm".toList <:+ core) :
      Core s true core

/-- No wrapper begins with another one. -/
theorem eq_of_wrapper_append {other : String} (known : wrapper ∈ wrappers) (also : other ∈ wrappers)
    (starts : other.toList <+: wrapper.toList ++ rest) : other = wrapper := by
  have apart : ∀ fst ∈ wrappers, ∀ second ∈ wrappers, fst.toList <+: second.toList → fst = second := by decide
  rcases prefix_or_prefix_of_prefix starts (prefix_append _ rest) with inside | inside
  · exact apart _ also _ known inside
  · exact (apart _ known _ also inside).symm

theorem unwrap_append (known : wrapper ∈ wrappers) (rest : List Char) :
    unwrap (wrapper.toList ++ rest) = (unwrapTail rest, true) := by
  unfold unwrap
  split
  · next behind found =>
    obtain ⟨other, also, stripped⟩ := exists_of_findSome?_eq_some found
    have split := eq_append_of_stripStart? stripped
    obtain rfl := eq_of_wrapper_append known also ⟨behind, split.symm⟩
    rw [append_cancel_left split]
  · next missing =>
    have absurd := findSome?_eq_none_iff.1 missing wrapper known
    rw [stripStart?_append] at absurd
    cases absurd

theorem unwrap_of_free (free : ∀ wrapper ∈ wrappers, ¬ wrapper.toList <+: s) : unwrap s = (s, false) := by
  have missing : wrappers.findSome? (fun wrapper => stripStart? wrapper.toList s) = none :=
    findSome?_eq_none_iff.2 fun wrapper known =>
      if_neg fun is_start => free wrapper known <| isPrefixOf_iff_prefix.1 is_start
  unfold unwrap
  rw [missing]

theorem takeWhile_clean {fst tail : List Char} (clean : ∀ c ∈ fst, c ≠ '?' ∧ c ≠ '\x23')
    (cut : ∀ c ∈ tail.head?, c = '?' ∨ c = '\x23') :
    (fst ++ tail).takeWhile (fun c => c != '?' && c != '\x23') = fst := by
  rw [takeWhile_append_of_pos (by simpa using clean)]
  cases tail with
  | nil => rw [takeWhile_nil, append_nil]
  | cons c r => rcases cut c rfl with rfl | rfl <;> simp

/-- **The core is determined.** -/
theorem Core.unwrap (found : Core s wrapped core) : Specifier.unwrap s = (core, wrapped) := by
  cases found with
  | bare free => exact unwrap_of_free free
  | wrapped known split clean cut ended =>
    rw [split, unwrap_append known]
    unfold unwrapTail
    rw [takeWhile_clean clean cut]
    rcases ended with rfl | ⟨rfl, other⟩
    · have cut : stripEnd? "/+esm".toList (core ++ "/+esm".toList) = some core := by
        rw [stripEnd?, if_pos (isSuffixOf_iff_suffix.2 (suffix_append _ _)), length_append,
          Nat.add_sub_cancel, take_left]
      dsimp only
      rw [cut, Option.getD_some]
    · have uncut : stripEnd? "/+esm".toList core = none :=
        if_neg fun is_end => other (isSuffixOf_iff_suffix.1 is_end)
      dsimp only
      rw [append_nil, uncut, Option.getD_none]

theorem exists_clean (s : List Char) :
    ∃ fst tail, s = fst ++ tail ∧ (∀ c ∈ fst, c ≠ '?' ∧ c ≠ '\x23') ∧
      ∀ c ∈ tail.head?, c = '?' ∨ c = '\x23' := by
  induction s with
  | nil => exact ⟨[], [], rfl, by simp⟩
  | cons c s ih =>
    by_cases ends : c = '?' ∨ c = '\x23'
    · exact ⟨[], c :: s, rfl, by simpa using ends⟩
    · obtain ⟨fst, tail, rfl, clean, cut⟩ := ih
      exact ⟨c :: fst, tail, rfl, forall_mem_cons.2 ⟨not_or.1 ends, clean⟩, cut⟩

/-- **Every text has a core.** -/
theorem exists_core (s : List Char) : ∃ wrapped core, Core s wrapped core := by
  by_cases free : ∀ wrapper ∈ wrappers, ¬ wrapper.toList <+: s
  · exact ⟨false, s, .bare free⟩
  · push Not at free
    obtain ⟨wrapper, known, behind, rfl⟩ := free
    obtain ⟨fst, tail, rfl, clean, cut⟩ := exists_clean behind
    by_cases ended : "/+esm".toList <:+ fst
    · obtain ⟨core, rfl⟩ := ended
      exact ⟨true, core, .wrapped known rfl clean cut (.inl rfl)⟩
    · exact ⟨true, fst, .wrapped known (by rw [append_nil]) (by rwa [append_nil]) cut (.inr ⟨rfl, ended⟩)⟩

/-! ## The parts of a core -/

/-- The text is the name of the package, its version behind an at sign and the path inside it.
An at sign with nothing behind it says no version. -/
structure Spelled (ref : PackageRef) (version s : List Char) : Prop where
  whole : s = ref.name.toList ++ version ++ ref.subpath.toList
  pinned : ∀ range ∈ ref.version, version = '@' :: range.toList
  unpinned : ref.version = none → version = [] ∨ version = ['@']
  path : ref.subpath = "" ∨ ∃ more, ref.subpath.toList = '/' :: more

theorem eq_append_of_splitLast? {c : Char} {before behind : List Char}
    (found : splitLast? c s = some (before, behind)) : s = before ++ c :: behind := by
  induction s generalizing before behind with
  | nil => cases found
  | cons fst s ih =>
    unfold splitLast? at found
    split at found
    · next inside =>
      cases found
      rw [ih inside, cons_append]
    · split at found
      · next same =>
        cases found
        rw [same, nil_append]
      · cases found

theorem eq_append_of_splitSubpath? {subpath : List Char}
    (found : splitSubpath? s = some (head, subpath)) : s = head ++ subpath := by
  unfold splitSubpath? at found
  dsimp only at found
  split at found
  · split at found
    · cases found
    · next slash n behind =>
      cases found
      rw [append_assoc, cons_append, takeWhile_append_dropWhile, ← behind, takeWhile_append_dropWhile]
  · cases found
    rw [takeWhile_append_dropWhile]

/-- A version stands behind an at sign, and the at sign alone gives none. -/
theorem splitVersion_cases {n : List Char} {found : Option (List Char)}
    (split : splitVersion head = (n, found)) :
    (found = none ∧ (head = n ∨ head = n ++ ['@'])) ∨
      ∃ range, range ≠ [] ∧ found = some range ∧ head = n ++ '@' :: range := by
  unfold splitVersion at split
  split at split
  · next before version last =>
    have whole := eq_append_of_splitLast? last
    split at split
    · cases split
      exact .inl ⟨rfl, .inl rfl⟩
    · cases split
      cases version with
      | nil => exact .inl ⟨rfl, .inr whole⟩
      | cons c r => exact .inr ⟨c :: r, cons_ne_nil _ _, rfl, whole⟩
  · cases split
    exact .inl ⟨rfl, .inl rfl⟩

/-- **A bare specifier is lossless**, and pinning restores it unless the version is missing. -/
theorem spelled_of_parseBare? (found : parseBare? s = some ref) :
    ∃ version, Spelled ref version s ∧ (ref.pinned.toList = s ↔ version ≠ ['@']) := by
  unfold parseBare? at found
  split at found
  · cases found
  · next head subpath split =>
    cases parts : splitVersion head with
    | mk n range =>
    rw [parts] at found
    dsimp only at found
    split at found
    · cases found
      have joined := eq_append_of_splitSubpath? split
      have path : String.ofList subpath = "" ∨
          ∃ r, (String.ofList subpath).toList = '/' :: r := by
        rw [String.toList_ofList]
        exact (subpath_of_split split).1.imp_left fun empty => by rw [empty]
      rcases splitVersion_cases parts with ⟨rfl, rfl | rfl⟩ | ⟨range, nonempty, rfl, rfl⟩
      · exact ⟨[], ⟨by simpa using joined, by simp, by simp, path⟩,
          by simp [joined, PackageRef.pinned, PackageRef.bare]⟩
      · exact ⟨['@'], ⟨by simpa using joined, by simp, by simp, path⟩,
          by simp [joined, PackageRef.pinned, PackageRef.bare]⟩
      · exact ⟨'@' :: range, ⟨by simpa using joined, by simp, by simp, path⟩,
          by simpa [joined, PackageRef.pinned] using nonempty⟩
    · cases found

/-- What a package's specifier is: no path, no other scheme, and a core that names it. -/
theorem ofTrimmed_eq_package :
    ofTrimmed s = .package ref wrapped ↔
      ¬ ("./".toList <+: s ∨ "../".toList <+: s ∨ ['/'] <+: s) ∧
        (unwrap s).2 = wrapped ∧ ':' ∉ (unwrap s).1 ∧
          (unwrap s).1.head? ≠ some '\x23' ∧ parseBare? (unwrap s).1 = some ref := by
  have slash : ['/'] <+: s ↔ s.head? = some '/' := by
    cases s <;> simp [eq_comm]
  have named : ∀ ref, parseBare? [] ≠ some ref := by
    intro ref found
    cases found
  unfold ofTrimmed
  simp only [slash, isPrefixOf_iff_prefix]
  split
  · next path =>
    simp only [path, not_true_eq_false, false_and, iff_false]
    intro absurd
    cases absurd
  · next other =>
    split
    · next outside =>
      simp only [List.isEmpty_iff, contains_iff_mem] at outside
      refine ⟨fun absurd => ?_, ?_⟩
      · cases absurd
      rintro ⟨-, -, free, fst, parsed⟩
      rcases outside with empty | colon | mark
      · rw [empty] at parsed
        exact absurd parsed (named ref)
      · exact absurd colon free
      · exact absurd mark fst
    · next inside =>
      simp only [List.isEmpty_iff, contains_iff_mem, not_or] at inside
      simp only [other, inside, not_false_eq_true, true_and, ne_eq]
      split
      · next parsed =>
        rw [parsed, Specifier.package.injEq, Option.some.injEq]
        exact and_comm
      · next parsed => simp [parsed]

/-! ## The wrapper adds nothing -/

theorem trim_wrapper_append (known : wrapper ∈ wrappers) (trimmed : trim rest = rest) :
    trim (wrapper.toList ++ rest) = wrapper.toList ++ rest := by
  have visible : ∀ wrapper ∈ wrappers, wrapper.toList.dropWhile isBlank = wrapper.toList ∧
      wrapper.toList ≠ [] ∧ wrapper.toList.rdropWhile isBlank = wrapper.toList := by decide
  obtain ⟨fst, nonempty, last⟩ := visible wrapper known
  have front : trimStart (wrapper.toList ++ rest) = wrapper.toList ++ rest := by
    rw [trimStart, dropWhile_append, fst, isEmpty_eq_false_iff.2 nonempty]
    rfl
  have back : rest.rdropWhile isBlank = rest := by
    have cut : (trimStart rest).rdropWhile isBlank = rest := trimmed
    rw [← cut, rdropWhile_idempotent]
  have behind : (wrapper.toList ++ rest).rdropWhile isBlank = wrapper.toList ++ rest := by
    rcases eq_nil_or_concat rest with rfl | ⟨before, c, rfl⟩
    · rw [append_nil, last]
    · rw [concat_eq_append] at back ⊢
      rw [← append_assoc, rdropWhile_concat_neg]
      intro blank
      rw [rdropWhile_concat_pos _ _ _ blank] at back
      have shorter := rdropWhile_prefix isBlank before |>.length_le
      rw [back, length_append, length_singleton] at shorter
      omega
  rw [trim, front]
  exact behind

/-- A core of its own behind a wrapper: trimmed, without query, fragment and `/+esm`. -/
structure Separable (rest : List Char) : Prop where
  trimmed : trim rest = rest
  clean : ∀ c ∈ rest, c ≠ '?' ∧ c ≠ '\x23'
  endless : ¬ "/+esm".toList <:+ rest
  pathless : ¬ ("./".toList <+: rest ∨ "../".toList <+: rest ∨ ['/'] <+: rest)

/-- **A wrapper changes nothing** but that the package counts as wrapped. -/
theorem ofTrimmed_wrapper (known : wrapper ∈ wrappers) (separable : Separable rest) :
    ofTrimmed (wrapper.toList ++ rest) = .package ref true ↔ ofTrimmed rest = .package ref false := by
  have split : wrapper.toList ++ rest = wrapper.toList ++ (rest ++ [] ++ []) := by simp
  have core : Core (wrapper.toList ++ rest) true rest :=
    .wrapped known split (by simpa using separable.clean) (fun c absurd => by cases absurd)
      (.inr ⟨rfl, separable.endless⟩)
  have pathless : ¬ ("./".toList <+: wrapper.toList ++ rest ∨
      "../".toList <+: wrapper.toList ++ rest ∨ ['/'] <+: wrapper.toList ++ rest) := by
    have fst : ∀ wrapper ∈ wrappers, ∃ r, wrapper.toList = 'n' :: r ∨
        wrapper.toList = 'h' :: r := by
      simp only [wrappers, forall_mem_cons]
      exact ⟨⟨_, .inl rfl⟩, ⟨_, .inr rfl⟩, ⟨_, .inr rfl⟩, ⟨_, .inr rfl⟩, ⟨_, .inr rfl⟩, by simp⟩
    obtain ⟨r, split | split⟩ := fst wrapper known <;> rw [split] <;> simp
  have unmarked : rest.head? ≠ some '\x23' := fun fst =>
    (separable.clean _ (mem_of_mem_head? fst)).2 rfl
  rw [ofTrimmed_eq_package, ofTrimmed_eq_package, core.unwrap]
  simp only [pathless, separable.pathless, unmarked, not_false_eq_true, true_and, ne_eq]
  by_cases free : ∀ wrapper ∈ wrappers, ¬ wrapper.toList <+: rest
  · rw [unwrap_of_free free]
    simp [unmarked]
  · -- a wrapper behind a wrapper leaves a colon, so no package is meant either way
    push Not at free
    obtain ⟨other, also, starts⟩ := free
    have colon : ∀ wrapper ∈ wrappers, ':' ∈ wrapper.toList := by decide
    obtain ⟨behind, rfl⟩ := starts
    rw [unwrap_append also]
    simp [colon other also]

/-- **Specifiers of packages are lossless and do not depend on the wrapper.**  The core of a
package's specifier is its name, version and path, and pinning the package gives the core
back unless an at sign has no version behind it.  A core behind any wrapper refers to the
same package as the core on its own. -/
theorem package_reassembled :
    (∀ (s : String) (ref : PackageRef) (wrapped : Bool),
      classify s = .package ref wrapped →
        ∃ core version, Core (trim s.toList) wrapped core ∧ Spelled ref version core ∧
          (ref.pinned.toList = core ↔ version ≠ ['@'])) ∧
    (∀ (rest : String), Separable rest.toList → ∀ wrapper ∈ wrappers, ∀ ref,
      classify (wrapper ++ rest) = .package ref true ↔ classify rest = .package ref false) := by
  refine ⟨fun s ref wrapped found => ?_, fun rest separable wrapper known ref => ?_⟩
  · obtain ⟨-, same, -, -, parsed⟩ := ofTrimmed_eq_package.1 found
    obtain ⟨version, spelled, pinned⟩ := spelled_of_parseBare? parsed
    obtain ⟨_, core, isCore⟩ := exists_core (trim s.toList)
    rw [isCore.unwrap] at same spelled pinned
    exact ⟨core, version, same ▸ isCore, spelled, pinned⟩
  · unfold classify
    rw [String.toList_append, trim_wrapper_append known separable.trimmed, separable.trimmed]
    exact ofTrimmed_wrapper known separable

/-- A scoped package in an address, and one with a version and a path behind `npm:`. -/
theorem package_reassembled_scoped :
    (classify " https://esm.sh/@d3/scale@4/src?raw" = .package ⟨"@d3/scale", "4", "/src"⟩ true ∧
      ∃ core version, Core (trim " https://esm.sh/@d3/scale@4/src?raw".toList) true core ∧
        Spelled ⟨"@d3/scale", "4", "/src"⟩ version core ∧
        ((⟨"@d3/scale", "4", "/src"⟩ : PackageRef).pinned.toList = core ↔ version ≠ ['@'])) ∧
    (Separable "d3@7/dist".toList ∧
      (classify ("npm:" ++ "d3@7/dist") = .package ⟨"d3", "7", "/dist"⟩ true ↔
        classify "d3@7/dist" = .package ⟨"d3", "7", "/dist"⟩ false)) := by
  have separable : Separable "d3@7/dist".toList := ⟨by decide, by simp, by decide, by decide⟩
  have found : classify " https://esm.sh/@d3/scale@4/src?raw" =
      .package ⟨"@d3/scale", "4", "/src"⟩ true := by decide +kernel
  exact ⟨⟨found, package_reassembled.1 _ _ _ found⟩, separable,
    package_reassembled.2 _ separable _ (by decide) _⟩

end Specifier

end Bindery
