/-
Proofs.Scope.Grammar -- how brackets nest in what is written

What the trees of `Program` print has every bracket closed in its place, no comma
outside the brackets of a value, and no question mark (`nests_expr`, `nests_stmt`).
`Shows` says which keys stand at an index of a list of tokens.  There the brackets of
nested keys match each other (`closes_of_nests`).
-/
import Bindery.Proofs.Scope.Program
import Bindery.Proofs.Token.Brackets

namespace Bindery

open List

namespace Program

/-! ## Nested brackets -/

def bracketPairs : List (String × String) :=
  [("(", ")"), ("[", "]"), (openBrace, closeBrace)]

/-- Every bracket closes in its place, and there is no question mark.  Without the flag,
no comma stands outside all brackets. -/
inductive Nests : Bool → List Key → Prop where
  | nil (commas : Bool) : Nests commas []
  | plain {commas : Bool} {key : Key} {rest : List Key}
      (bare : ∀ pair ∈ bracketPairs, key ≠ .mark pair.1 ∧ key ≠ .mark pair.2)
      (question : key ≠ .mark "?") (comma : commas = false → key ≠ .mark ",") :
      Nests commas rest → Nests commas (key :: rest)
  | enclose {commas : Bool} {opens closes : String} {inner rest : List Key}
      (isPair : (opens, closes) ∈ bracketPairs) : Nests true inner → Nests commas rest →
      Nests commas (.mark opens :: (inner ++ (.mark closes :: rest)))

namespace Nests

variable {commas : Bool} {ks tl : List Key}

theorem append (fst : Nests commas ks) (snd : Nests commas tl) : Nests commas (ks ++ tl) := by
  induction fst with
  | nil => exact snd
  | plain bare question comma _ ih => exact .plain bare question comma (ih snd)
  | enclose isPair inner _ _ ih =>
    rw [cons_append, append_assoc, cons_append]
    exact .enclose isPair inner (ih snd)

theorem withCommas (nests : Nests commas ks) : Nests true ks := by
  induction nests with
  | nil => exact .nil true
  | plain bare question _ _ ih => exact .plain bare question (fun absurd => nomatch absurd) ih
  | enclose isPair inner _ _ ih => exact .enclose isPair inner ih

theorem question_not_mem (nests : Nests commas ks) : Key.mark "?" ∉ ks := by
  induction nests with
  | nil => exact not_mem_nil
  | plain _ question _ _ ih => exact not_mem_cons_of_ne_of_not_mem question.symm ih
  | enclose isPair _ _ inner rest =>
    simp only [bracketPairs, mem_cons, Prod.mk.injEq, not_mem_nil, or_false] at isPair
    simp only [mem_cons, mem_append, not_or]
    rcases isPair with ⟨rfl, rfl⟩ | ⟨rfl, rfl⟩ | ⟨rfl, rfl⟩ <;>
      exact ⟨by decide, inner, by decide, rest⟩

/-- A key that is no mark. -/
theorem other {key : Key} (other : key.1 ≠ .punct) (r : Nests commas tl) : Nests commas (key :: tl) := by
  have differs : ∀ s, key ≠ Key.mark s := fun s eq => other (congrArg Prod.fst eq)
  exact .plain (fun pair _ => ⟨differs pair.1, differs pair.2⟩) (differs "?") (fun _ => differs ",") r

theorem name (n : String) (r : Nests commas tl) : Nests commas (.name n :: tl) :=
  .other (by simp [Key.name]) r

theorem word (s : String) (r : Nests commas tl) : Nests commas (.word s :: tl) :=
  .other (by simp [Key.word]) r

theorem mark {s : String} (other : s ∉ ["(", ")", "[", "]", openBrace, closeBrace, "?", ","])
    (r : Nests commas tl) : Nests commas (.mark s :: tl) := by
  have different : ∀ {mark : String}, mark ∈ ["(", ")", "[", "]", openBrace, closeBrace, "?", ","] →
      Key.mark s ≠ .mark mark := by
    rintro mark mem eq
    injection eq with _ eq
    exact other (eq ▸ mem)
  refine .plain (fun pair mem => ?_) (different (by simp)) (fun _ => different (by simp)) r
  simp only [bracketPairs, mem_cons, not_mem_nil, or_false] at mem
  rcases mem with rfl | rfl | rfl <;>
    exact ⟨different (by simp), different (by simp)⟩

theorem paren {inside : Bool} (inner : Nests inside ks) (r : Nests commas tl) :
    Nests commas (.mark "(" :: (ks ++ (.mark ")" :: tl))) :=
  .enclose (by simp [bracketPairs]) inner.withCommas r

theorem brace (inner : Nests true ks) (r : Nests commas tl) :
    Nests commas (.mark openBrace :: (ks ++ (.mark closeBrace :: tl))) :=
  .enclose (by simp [bracketPairs]) inner r

theorem comma (r : Nests true tl) : Nests true (.mark "," :: tl) :=
  .plain (by decide) (by decide) (fun absurd => nomatch absurd) r

theorem printMore : ∀ ns : List String, Nests true (printMore ns)
  | [] => .nil true
  | _ :: r => .comma (.name _ (printMore r))

theorem printNames (ns : List String) : Nests true (printNames ns) := by
  cases ns with
  | nil => exact .nil true
  | cons n r => exact .name n (printMore r)

theorem printParameters (ns : List String) (r : Nests commas tl) : Nests commas (printParameters ns ++ tl) := by
  rw [Program.printParameters, cons_append, append_assoc]
  exact .paren (.printNames ns) r

theorem printFunction (n : Option String) (params : List String) (body : Nests true ks) :
    Nests commas (printFunction n params ks) := by
  have tail : Nests commas (Program.printParameters params ++
      (.mark openBrace :: (ks ++ [.mark closeBrace]))) :=
    .printParameters params (.brace body (.nil _))
  cases n with
  | none => exact .word "function" tail
  | some n => exact .word "function" (.name n tail)

theorem head (head : Head) (r : Nests commas tl) : Nests commas (head.print ++ tl) := by
  cases head with
  | one n => exact .name n r
  | many ns => exact .printParameters ns r

end Nests

/-! ## Trees

Every tree prints nested keys: one case for each of its constructors. -/

mutual

theorem nests_phrase : ∀ p : Phrase, Nests false p.print
  | .name n => .name n (.nil _)
  | .number _ | .string _ => .other (by simp) (.nil _)
  | .group v => .paren (nests_expr v) (.nil _)
  | .sum left right =>
    .paren (nests_expr left) (.mark (by decide) (.paren (nests_expr right) (.nil _)))
  | .member v prop => .paren (nests_expr v) (.mark (by decide) (.name prop (.nil _)))
  | .call fn arguments => .name fn (.paren (nests_args arguments) (.nil _))
  | .apply fn arguments => .paren (nests_expr fn) (.paren (nests_args arguments) (.nil _))
  | .array items => .enclose (by simp [bracketPairs]) (nests_args items) (.nil _)
  | .wait v => .word "await" (.paren (nests_expr v) (.nil _))
  | .arrow head body => .head head (.mark (by decide) (nests_body body))

theorem nests_body : ∀ body : Body, Nests false body.print
  | .phrase p => nests_phrase p
  | .function n params body => .printFunction n params (nests_block body)
  | .block body => .brace (nests_block body) (.nil _)

theorem nests_expr : ∀ v : Expr, Nests false v.print
  | .phrase p => nests_phrase p
  | .object es => .brace (nests_entries es) (.nil _)
  | .function n params body => .printFunction n params (nests_block body)

theorem nests_args : ∀ arguments : Args, Nests true arguments.print
  | .nil => .nil _
  | .cons fst r => (nests_expr fst).withCommas.append (nests_moreArgs r)

theorem nests_moreArgs : ∀ arguments : Args, Nests true arguments.printMore
  | .nil => .nil _
  | .cons fst r => .comma ((nests_expr fst).withCommas.append (nests_moreArgs r))

theorem nests_entry : ∀ e : Entry, Nests true e.print
  | .pair key v => .other (by cases key <;> simp [EntryKey.key, Key.name])
    (.mark (by decide) (nests_expr v).withCommas)
  | .short n => .name n (.nil _)
  | .method n params body => .name n (.printParameters params (.brace (nests_block body) (.nil _)))

theorem nests_entries : ∀ es : Entries, Nests true es.print
  | .nil => .nil _
  | .cons fst r => (nests_entry fst).append (nests_moreEntries r)

theorem nests_moreEntries : ∀ es : Entries, Nests true es.printMore
  | .nil => .nil _
  | .cons fst r => .comma ((nests_entry fst).append (nests_moreEntries r))

theorem nests_stmt : ∀ stmt : Stmt, Nests true stmt.print
  | .declare _ n v => .word _ (.name n (.mark (by decide)
    ((nests_expr v).withCommas.append (.mark (by decide) (.nil _)))))
  | .phrase p => (nests_phrase p).withCommas.append (.mark (by decide) (.nil _))
  | .give v => .word "return" ((nests_expr v).withCommas.append (.mark (by decide) (.nil _)))
  | .branch cond yes no => .word "if" (.paren (nests_expr cond)
    (.brace (nests_block yes) (.word "else" (.brace (nests_block no) (.nil _)))))
  | .loop cond body => .word "while" (.paren (nests_expr cond)
    (.brace (nests_block body) (.nil _)))
  | .guard body n handler => .word "try" (.brace (nests_block body) (.word "catch"
    (.paren (.name n (.nil true)) (.brace (nests_block handler) (.nil _)))))
  | .function n params body => .printFunction (some n) params (nests_block body)

theorem nests_block : ∀ b : Block, Nests true b.print
  | .nil => .nil _
  | .cons fst r => (nests_stmt fst).append (nests_block r)

end

end Program

/-! ## Keys in a list of tokens -/

namespace Scope

open Bindery.Program TokenSeq

section Brackets

variable {ts : List Token} {i : Nat} {ks : List Key} {s : String}

def Shows (ts : List Token) : Nat → List Key → Prop
  | _, [] => True
  | i, key :: rest =>
    (∃ t, ts[i]? = some t ∧ t.key = key) ∧ Shows ts (i + 1) rest

theorem shows_append {fst snd : List Key} :
    Shows ts i (fst ++ snd) ↔ Shows ts i fst ∧ Shows ts (i + fst.length) snd := by
  induction fst generalizing i with
  | nil => simp [Shows]
  | cons key r ih =>
    rw [cons_append, Shows, Shows, ih, and_assoc, length_cons, Nat.add_assoc, Nat.add_comm 1]

theorem punctAt_iff {key : Key} (shows : Shows ts i [key]) : (ofList ts).punctAt i s ↔ key = .mark s := by
  obtain ⟨⟨t, got, rfl⟩, _⟩ := shows
  rw [punctAt, holds, get?_ofList, got, Option.any_some, key_eq_mark]

theorem not_punctAt {key : Key} (shows : Shows ts i [key]) (other : key ≠ .mark s) :
    (ofList ts).punctAt i s = false :=
  Bool.eq_false_iff.2 fun here => other ((punctAt_iff shows).1 here)

theorem punctAt_of_shows (shows : Shows ts i [.mark s]) (s' : String) :
    (ofList ts).punctAt i s' = (s == s') := by
  rw [Bool.eq_iff_iff, punctAt_iff shows]
  simp [Key.mark]

section

variable {pair : String × String} (isPair : pair ∈ bracketPairs) {t : Token}
include isPair

theorem closerText?_of_pair (eq : t.key = .mark pair.1) : t.closerText? = some pair.2 := by
  have text := Token.isPunct_of_isPunct (key_eq_mark.1 eq)
  simp only [bracketPairs, mem_cons, not_mem_nil, or_false] at isPair
  rcases isPair with rfl | rfl | rfl <;> simp [Token.closerText?, text, openBrace]

theorem isCloser_of_pair (eq : t.key = .mark pair.2) : t.isCloser := by
  have text := Token.isPunct_of_isPunct (key_eq_mark.1 eq)
  simp only [bracketPairs, mem_cons, not_mem_nil, or_false] at isPair
  rcases isPair with rfl | rfl | rfl <;> simp [Token.isCloser, text]

end

theorem no_bracket_of_bare {key : Key} (bare : ∀ pair ∈ bracketPairs, key ≠ .mark pair.1 ∧ key ≠ .mark pair.2)
    {t : Token} (eq : t.key = key) : t.closerText? = none ∧ t.isCloser = false := by
  have other : ∀ s, key ≠ .mark s → t.isPunct s = false := fun s differs =>
    Bool.eq_false_iff.2 fun here => differs (eq ▸ key_eq_mark.2 here)
  have paren := bare ("(", ")") (by simp [bracketPairs])
  have bracket := bare ("[", "]") (by simp [bracketPairs])
  have brace := bare (openBrace, closeBrace) (by simp [bracketPairs])
  simp [Token.closerText?, Token.isCloser, other _ paren.1, other _ paren.2, other _ bracket.1,
    other _ bracket.2, other _ brace.1, other _ brace.2]

theorem openAt_of_nests {commas : Bool} (nests : Nests commas ks) (shows : Shows ts i ks) :
    openAt ts (i + ks.length) = openAt ts i := by
  induction nests generalizing i with
  | nil => rfl
  | @plain _ _ r bare _ _ _ ih =>
    obtain ⟨⟨t, got, eq⟩, os⟩ := shows
    obtain ⟨opens, closes⟩ := no_bracket_of_bare bare eq
    rw [length_cons, Nat.add_comm r.length, ← Nat.add_assoc, ih os, openAt_succ_of_plain got opens closes]
  | @enclose _ opens closes inside r isPair _ _ ihInside ihRest =>
    obtain ⟨⟨opening, got, eq⟩, os⟩ := shows
    obtain ⟨shown, ⟨closing, got', eq'⟩, tl⟩ := shows_append.1 os
    have opened := openAt_succ_of_opens got (closerText?_of_pair isPair eq)
    have stack := (ihInside shown).trans opened
    have closed : Closes ts i (i + 1 + inside.length) :=
      ⟨closing, _, got', isCloser_of_pair isPair eq', by rw [stack, (key_eq eq').2]⟩
    have length : i + (Key.mark opens :: (inside ++ (.mark closes :: r))).length =
        i + 1 + inside.length + 1 + r.length := by
      simp only [length_cons, length_append]
      omega
    rw [length, ihRest tl, closed.openAt_succ]

theorem closes_of_nests {pair : String × String} (isPair : pair ∈ bracketPairs) {commas : Bool}
    (nests : Nests commas ks) (shows : Shows ts i (.mark pair.1 :: (ks ++ [.mark pair.2]))) :
    Closes ts i (i + 1 + ks.length) := by
  obtain ⟨⟨opening, got, eq⟩, os⟩ := shows
  obtain ⟨shown, ⟨closing, got', eq'⟩, _⟩ := shows_append.1 os
  have opened := openAt_succ_of_opens got (closerText?_of_pair isPair eq)
  have stack := (openAt_of_nests nests shown).trans opened
  exact ⟨closing, _, got', isCloser_of_pair isPair eq', by rw [stack, (key_eq eq').2]⟩

end Brackets

end Scope

end Bindery
