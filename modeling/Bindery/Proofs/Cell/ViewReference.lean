/-
Proofs.Cell.ViewReference -- references to controls on tokens

On tokens the references to controls are replaced from left to right, each pair of
words by one identifier and nothing else (`mergeViews`).  What is left holds no further
reference: the new identifier starts with a mark that no `viewof` has, and the token
behind a kept word keeps its kind.
-/
import Bindery.Proofs.Cell.Normal

namespace Bindery

open Text

variable {p : Option Key} {tokens : List Token}

/-- No two neighbours refer to a control, given the token before the list. -/
def ViewFree (p : Option Key) : List Key → Prop
  | view :: name :: rest => isView p view name = false ∧ ViewFree (some view) (name :: rest)
  | _ => True

/-! ## The merged tokens hold no reference -/

theorem viewParameterMark_append_ne (n : String) : viewParameterMark ++ n ≠ "viewof" := by
  intro eq
  have fst := congrArg (·.toList.head?) eq
  have mark : viewParameterMark.toList = '$' :: "viewof$".toList := by decide
  rw [String.toList_append, mark] at fst
  exact absurd (Option.some.inj fst) (by decide)

theorem ViewFree.cons {key : Key} {ks : List Key} (head : ∀ n ∈ ks.head?, isView p key n = false)
    (free : ViewFree (some key) ks) : ViewFree p (key :: ks) := by
  cases ks with
  | nil => trivial
  | cons n r => exact ⟨head n rfl, free⟩

theorem viewFree_mergeViews {p' : Option Key} (ks : List Key) (eq : p'.any Key.selects = p.any Key.selects) :
    ViewFree p' (mergeViews p ks) := by
  fun_induction mergeViews p ks generalizing p' with
  | case1 p v n r got ih =>
    -- an identifier selects nothing, whether it is the control's or the value's
    have ident : n.1 = .ident := by
      simp only [isView, Bool.and_eq_true, beq_iff_eq] at got
      exact got.1.2
    have selects : Key.selects n = false := by
      simp [Key.selects, Key.mark, Prod.ext_iff, ident]
    refine .cons (fun other _ => ?_) (ih ?_)
    · simp [isView, Key.name, viewParameterMark_append_ne]
    · rw [Option.any_some, Option.any_some, selects]
      rfl
  | case2 p v n r got ih =>
    refine .cons (fun other head => ?_) (ih rfl)
    have kind : other.1 = n.1 := by
      have := kind_head_mergeViews (some v) (n :: r)
      rw [Option.mem_def.1 head] at this
      exact Option.some.inj this
    rw [isView, kind, eq, ← isView]
    exact Bool.eq_false_iff.2 got
  | case3 p ks short =>
    cases ks with
    | nil => trivial
    | cons v r =>
      cases r with
      | nil => trivial
      | cons n r => exact (short v n r rfl).elim

/-! ## A second replacement -/

theorem viewEdits_of_viewFree {p : Option Token} (free : ViewFree (p.map Token.key) (tokens.map Token.key)) :
    viewEdits p tokens = [] := by
  induction tokens generalizing p with
  | nil => rfl
  | cons v r ih =>
    cases r with
    | nil => rfl
    | cons n r =>
      obtain ⟨head, later⟩ := free
      have plain : ¬ isView (p.map Token.key) v.key n.key := Bool.eq_false_iff.1 head
      rw [viewEdits, if_neg fun got => plain ((isView_key p v n).2 got)]
      exact ih later

theorem replaceViews_of_viewFree {s : List Char} (done : lexFrom {} s = .ok tokens)
    (free : ViewFree none (tokens.map Token.key)) : replaceViews s = .ok s := by
  have none : viewEdits none tokens = [] := viewEdits_of_viewFree free
  have whole : applyEdits s 0 (byteLength s) (viewEdits .none tokens) = s := by
    have all := slice_append [] s []
    rw [List.nil_append, List.append_nil, byteLength, Nat.zero_add] at all
    rw [none, applyEdits, applyFrom, all]
  rw [replaceViews, done, Except.map, whole]

/-- **References to controls are replaced token by token.**  The result has the merged
tokens, a second replacement changes nothing, and every identifier of the result is the
parameter of its input. -/
theorem replaceViews_keys (text : String) {tokens : List Token} (done : tokenize text = .ok tokens) :
    ∃ result resultTokens, replaceViews text.toList = .ok result ∧
      lexFrom {} result = .ok resultTokens ∧
      resultTokens.map Token.key = mergeViews none (tokens.map Token.key) ∧
      replaceViews result = .ok result ∧
      ∀ token ∈ resultTokens, token.kind = .ident →
        parameterName (inputName token.text) = token.text := by
  obtain ⟨result, resultTokens, replaced, read, keys⟩ := Script.replaceViews_eq done
  refine ⟨result, resultTokens, replaced, read, keys, ?_, ?_⟩
  · refine replaceViews_of_viewFree read ?_
    rw [keys]
    exact viewFree_mergeViews _ rfl
  · intro token member ident
    exact parameterName_inputName (isWord_of_mem_lexFrom read token member ident).space_not_mem

/-- A control named `viewof`, a property of that name and a reference in a template. -/
theorem replaceViews_keys_overlapping :
    let text := "viewof viewof x + o.viewof y + `a$\x7bviewof /* b */ z\x7d`"
    let keys : List Key :=
      [.name "$viewof$viewof", .name "x", .mark "+", .name "o", .mark ".", .name "viewof", .name "y",
        .mark "+", (.template, "`"), .mark "(", .name "$viewof$z", .mark ")"]
    ∃ result resultTokens, replaceViews text.toList = .ok result ∧
      lexFrom {} result = .ok resultTokens ∧ resultTokens.map Token.key = keys ∧
      replaceViews result = .ok result ∧
      ∀ token ∈ resultTokens, token.kind = .ident →
        parameterName (inputName token.text) = token.text := by
  intro text keys
  have known : (tokenize text).toOption.map (fun tokens => mergeViews none (tokens.map Token.key)) =
      some keys := by
    decide +kernel
  cases done : tokenize text with
  | error error => rw [done] at known; cases known
  | ok tokens =>
      obtain ⟨result, resultTokens, replaced, read, same, again⟩ := replaceViews_keys text done
      rw [done] at known
      exact ⟨result, resultTokens, replaced, read, same.trans (Option.some.inj known), again⟩

end Bindery
