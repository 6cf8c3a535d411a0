/-
Proofs.Name.View -- inputs and their parameters

A free identifier of a procedure asks for an input, and the input is bound to a
parameter again.  On texts without a blank the way there and back changes nothing
(`parameterName_inputName`), so no two inputs share a parameter.
-/
import Bindery.Name.View
import Mathlib.Data.List.Nodup

namespace Bindery

open Text

theorem stripStart?_append (start s : List Char) : stripStart? start (start ++ s) = some s := by
  simp [stripStart?]

theorem eq_append_of_stripStart? {start s r : List Char}
    (got : stripStart? start s = some r) : s = start ++ r := by
  unfold stripStart? at got
  split at got
  · next is_start =>
    obtain ⟨behind, rfl⟩ := List.isPrefixOf_iff_prefix.1 is_start
    rw [List.drop_left, Option.some.injEq] at got
    rw [got]
  · cases got

theorem controlledValue?_controlName (v : String) : controlledValue? (controlName v) = some v := by
  simp [controlledValue?, controlName, stripStart?_append]

theorem space_mem_controlName (v : String) : ' ' ∈ (controlName v).toList := by
  have mark : ' ' ∈ viewMark.toList := by decide
  simp [controlName, mark]

theorem controlName_ne (v : String) : controlName v ≠ v := by
  intro eq
  have longer := congrArg String.length eq
  rw [controlName, String.length_append] at longer
  have mark : viewMark.length = 7 := by decide
  omega

theorem parameterName_of_not_mem {n : String} (blank : ' ' ∉ n.toList) : parameterName n = n := by
  have none : controlledValue? n = none := by
    cases got : controlledValue? n with
    | none => rfl
    | some v =>
      obtain ⟨r, stripped, -⟩ := Option.map_eq_some_iff.1 got
      refine absurd ?_ blank
      rw [eq_append_of_stripStart? stripped]
      exact List.mem_append_left _ (by decide)
  simp [parameterName, none]

theorem parameterName_inputName {reference : String} (blank : ' ' ∉ reference.toList) :
    parameterName (inputName reference) = reference := by
  cases got : stripStart? viewParameterMark.toList reference.toList with
  | none =>
    rw [inputName, got]
    exact parameterName_of_not_mem blank
  | some v =>
    simp only [inputName, got, parameterName, controlledValue?_controlName]
    rw [← String.toList_inj, String.toList_append, String.toList_ofList]
    exact (eq_append_of_stripStart? got).symm

def IsInput (name : String) : Prop :=
  ∃ reference : String, ' ' ∉ reference.toList ∧ inputName reference = name

theorem IsInput.parameterName_inj {n other : String} (input : IsInput n)
    (another : IsInput other) (eq : parameterName n = parameterName other) : n = other := by
  obtain ⟨reference, blank, rfl⟩ := input
  obtain ⟨reference', blank', rfl⟩ := another
  rw [parameterName_inputName blank, parameterName_inputName blank'] at eq
  rw [eq]

theorem nodup_map_inputName {references : List String} (nodup : references.Nodup)
    (blank : ∀ reference ∈ references, ' ' ∉ reference.toList) : (references.map inputName).Nodup := by
  refine List.Nodup.of_map parameterName ?_
  rw [List.map_map]
  have back : references.map (parameterName ∘ inputName) = references := by
    refine (List.map_congr_left fun reference mem => ?_).trans references.map_id
    exact parameterName_inputName (blank reference mem)
  rw [back]
  exact nodup

theorem nodup_map_parameterName {inputs : List String} (nodup : inputs.Nodup)
    (named : ∀ n ∈ inputs, IsInput n) : (inputs.map parameterName).Nodup :=
  nodup.map_on fun n mem other mem' eq =>
    (named n mem).parameterName_inj (named other mem') eq

end Bindery
