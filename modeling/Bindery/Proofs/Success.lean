/-
Proofs.Success -- when a computation that can fail succeeds

A computation in several steps succeeds exactly when every step does.
-/

namespace Bindery.Except

open List

variable {ε δ α β : Type} {res : Except ε α}

theorem map_eq_ok {f : α → β} {v : β} : res.map f = .ok v ↔ ∃ inner, res = .ok inner ∧ f inner = v := by
  cases res with
  | error error => simp [Except.map]
  | ok inner => simp [Except.map]

theorem mapError_eq_ok {f : ε → δ} {v : α} : res.mapError f = .ok v ↔ res = .ok v := by
  cases res with
  | error error =>
    show Except.error (f error) = Except.ok v ↔ _
    constructor
    · intro absurd
      cases absurd
    · intro absurd
      cases absurd
  | ok inner =>
    show Except.ok inner = Except.ok v ↔ _
    rw [Except.ok.injEq, Except.ok.injEq]

theorem bind_eq_ok {next : α → Except ε β} {v : β} :
    (res >>= next) = .ok v ↔ ∃ inner, res = .ok inner ∧ next inner = .ok v := by
  cases res with
  | error error => simp [bind, Except.bind]
  | ok inner => simp [bind, Except.bind]

theorem eq_ok_of_toOption {v : α} (known : res.toOption = some v) : res = .ok v := by
  cases res with
  | error error => cases known
  | ok inner => exact congrArg _ (Option.some.inj known)

end Bindery.Except

namespace Bindery

theorem mem_of_mapM {α β : Type} {f : α → Option β} {items : List α}
    {results : List β} (done : items.mapM f = some results) :
    (∀ item ∈ items, ∃ res, f item = some res) ∧ ∀ res ∈ results, ∃ item ∈ items, f item = some res := by
  induction items generalizing results with
  | nil =>
    cases done
    exact ⟨fun item mem => absurd mem List.not_mem_nil, fun res mem => absurd mem List.not_mem_nil⟩
  | cons fst r ih =>
    rw [List.mapM_cons] at done
    obtain ⟨v, here, done⟩ := Option.bind_eq_some_iff.1 done
    obtain ⟨values, later, eq⟩ := Option.bind_eq_some_iff.1 done
    cases eq
    obtain ⟨defined, known⟩ := ih later
    refine ⟨fun item mem => ?_, fun res mem => ?_⟩
    · rcases List.mem_cons.1 mem with rfl | mem
      · exact ⟨v, here⟩
      · exact defined item mem
    · rcases List.mem_cons.1 mem with rfl | mem
      · exact ⟨fst, List.mem_cons_self, here⟩
      · obtain ⟨item, inside, got⟩ := known res mem
        exact ⟨item, List.mem_cons_of_mem _ inside, got⟩

end Bindery
