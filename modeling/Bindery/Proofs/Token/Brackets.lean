/-
Proofs.Token.Brackets -- partners and the stack of open brackets

The table of partners is made by one scan.  `openAt` is what the scan holds at an
index: the brackets that are open there, the innermost first.  Every fact about
partners is read off it.  `Closes tokens opener closer` says that the innermost
bracket open at `closer` is `opener` and is of the same kind, and the table holds
exactly these pairs (`TokenSeq.closer?_ofList`, `TokenSeq.opener?_ofList`).
-/
import Bindery.Token.Brackets

namespace Bindery

open List Option Token

variable {seq : TokenSeq} {i c o : Nat} {t : Token} {s : String} {ts fst : List Token}

theorem TokenSeq.holds_eq_true {prop : Token → Bool} :
    seq.holds i prop ↔ ∃ t, seq.get? i = some t ∧ prop t := by
  unfold holds
  cases seq.get? i <;> simp

theorem TokenSeq.holds_of_get? (got : seq.get? i = some t) (prop : Token → Bool) :
    seq.holds i prop = prop t := by
  rw [holds, got, any_some]

theorem Token.isPunct_of_isPunct (here : t.isPunct s) (other : String) : t.isPunct other = (s == other) := by
  unfold isPunct at here ⊢
  simp only [Bool.and_eq_true, beq_iff_eq] at here
  simp [here.1, here.2]

theorem Token.isPunct_of_kind_ne (other : t.kind ≠ .punct) (s : String) : t.isPunct s = false := by
  simp [isPunct, other]

theorem Token.isPunct_of_isCloser (closes : t.isCloser)
    (other : [")", "]", closeBrace].contains s = false) : t.isPunct s = false := by
  refine Bool.eq_false_iff.2 fun here => ?_
  simp only [isCloser, isPunct_of_isPunct here] at closes
  simp_all

theorem Token.closerText?_of_isCloser (closes : t.isCloser) : t.closerText? = none := by
  unfold isCloser at closes
  unfold closerText?
  simp only [isPunct, Bool.or_eq_true, Bool.and_eq_true, beq_iff_eq] at closes ⊢
  rcases closes with (⟨kind, s⟩ | ⟨kind, s⟩) | ⟨kind, s⟩ <;>
    simp [kind, s, openBrace, closeBrace]

theorem Token.kind_of_isCloser (closes : t.isCloser) : t.kind = .punct := by
  simp only [isCloser, isPunct, Bool.or_eq_true, Bool.and_eq_true, beq_iff_eq] at closes
  rcases closes with (closes | closes) | closes <;> exact closes.1

theorem Token.not_isCloser {c : String} (opens : t.closerText? = some c) : t.isCloser = false := by
  cases closes : t.isCloser with
  | false => rfl
  | true => rw [closerText?_of_isCloser closes] at opens; cases opens

namespace BracketScan

theorem step_cases (scan : BracketScan) (t : Token) (i : Nat) :
    (∃ c, t.closerText? = some c ∧ scan.step t i = ⟨(i, c) :: scan.stack, scan.partners⟩) ∨
    (∃ o outer, t.isCloser ∧ scan.stack = (o, t.text) :: outer ∧
      scan.step t i = ⟨outer, (scan.partners.setIfInBounds o (some i)).setIfInBounds i (some o)⟩) ∨
    (t.closerText? = none ∧ (t.isCloser → ∀ o outer, scan.stack ≠ (o, t.text) :: outer) ∧
      scan.step t i = scan) := by
  unfold step
  split
  · next c opens => exact .inl ⟨c, opens, rfl⟩
  · next other =>
    split
    · next closes =>
      split
      · next o c outer top =>
        split
        · next eq => exact .inr (.inl ⟨o, outer, closes, by rw [top, eq], rfl⟩)
        · next differs =>
          refine .inr (.inr ⟨other, fun _ o' outer' eq => ?_, rfl⟩)
          rw [top] at eq
          injection eq with eq _
          injection eq with _ eq
          exact differs eq.symm
      · next empty =>
        refine .inr (.inr ⟨other, fun _ o outer eq => ?_, rfl⟩)
        rw [empty] at eq
        cases eq
    · next plain => exact .inr (.inr ⟨other, fun closes => absurd closes plain, rfl⟩)

theorem run_append (scan : BracketScan) (fst snd : List Token) (i : Nat) :
    scan.run (fst ++ snd) i = (scan.run fst i).run snd (i + fst.length) := by
  induction fst generalizing scan i with
  | nil => rfl
  | cons t r ih =>
    show (scan.step t i).run (r ++ snd) (i + 1) = _
    rw [ih]
    show _ = ((scan.step t i).run r (i + 1)).run snd _
    rw [length_cons, Nat.add_assoc, Nat.add_comm 1]

end BracketScan

def scanTo (ts : List Token) (i : Nat) : BracketScan :=
  BracketScan.run ⟨[], Array.replicate ts.length none⟩ (ts.take i) 0

def openAt (ts : List Token) (i : Nat) : List (Nat × String) :=
  (scanTo ts i).stack

def Closes (ts : List Token) (o c : Nat) : Prop :=
  ∃ t outer, ts[c]? = some t ∧ t.isCloser = true ∧
    openAt ts c = (o, t.text) :: outer

section Scan

variable {fst snd : Nat}

theorem scanTo_succ (got : ts[i]? = some t) : scanTo ts (i + 1) = (scanTo ts i).step t i := by
  have inside : i < ts.length := (List.getElem?_eq_some_iff.1 got).1
  unfold scanTo
  rw [take_add_one, got, BracketScan.run_append, length_take,
    Nat.min_eq_left (Nat.le_of_lt inside), Nat.zero_add]
  rfl

theorem scanTo_succ_of_none (missing : ts[i]? = none) : scanTo ts (i + 1) = scanTo ts i := by
  unfold scanTo
  rw [take_add_one, missing]
  simp

theorem scanTo_length : (scanTo ts ts.length).partners = matchBrackets ts := by
  unfold scanTo matchBrackets
  rw [take_length]

theorem openAt_zero : openAt ts 0 = [] := by
  simp [openAt, scanTo, BracketScan.run]

theorem openAt_succ_cases (ts : List Token) (i : Nat) :
    (∃ t c, ts[i]? = some t ∧ t.closerText? = some c ∧ openAt ts (i + 1) = (i, c) :: openAt ts i) ∨
    (∃ o s, Closes ts o i ∧ openAt ts i = (o, s) :: openAt ts (i + 1)) ∨
    ((∀ o, ¬ Closes ts o i) ∧ (∀ t, ts[i]? = some t → t.closerText? = none) ∧
      openAt ts (i + 1) = openAt ts i) := by
  cases got : ts[i]? with
  | none =>
    refine .inr (.inr ⟨?_, (fun _ absent => nomatch absent),
      congrArg BracketScan.stack (scanTo_succ_of_none got)⟩)
    rintro o ⟨t, _, got', _⟩
    rw [got] at got'
    cases got'
  | some t =>
    have next := scanTo_succ got
    rcases (scanTo ts i).step_cases t i with
      ⟨c, opens, behind⟩ | ⟨o, outer, closes, top, behind⟩ | ⟨other, loose, behind⟩
    · rw [behind] at next
      exact .inl ⟨t, c, rfl, opens, congrArg BracketScan.stack next⟩
    · rw [behind] at next
      have stack : openAt ts (i + 1) = outer := congrArg BracketScan.stack next
      exact .inr (.inl ⟨o, t.text, ⟨t, outer, got, closes, top⟩, by rw [stack]; exact top⟩)
    · rw [behind] at next
      refine .inr (.inr ⟨?_, ?_, congrArg BracketScan.stack next⟩)
      · rintro o ⟨t', outer, got', closes, top⟩
        rw [got] at got'
        cases got'
        exact loose closes o outer top
      · intro t' eq
        cases eq
        exact other

theorem lt_of_mem_openAt (inside : (o, s) ∈ openAt ts i) : o < i := by
  induction i with
  | zero => rw [openAt_zero] at inside; cases inside
  | succ i ih =>
    rcases openAt_succ_cases ts i with ⟨_, _, _, _, stack⟩ | ⟨_, _, _, stack⟩ | ⟨_, _, stack⟩
    · rw [stack] at inside
      rcases mem_cons.1 inside with eq | inside
      · cases eq; exact Nat.lt_succ_self _
      · exact Nat.lt_succ_of_lt (ih inside)
    · exact Nat.lt_succ_of_lt (ih (stack ▸ mem_cons_of_mem _ inside))
    · exact Nat.lt_succ_of_lt (ih (stack ▸ inside))

theorem openAt_succ_of_plain (got : ts[i]? = some t) (opens : t.closerText? = none)
    (closes : t.isCloser = false) : openAt ts (i + 1) = openAt ts i := by
  rcases openAt_succ_cases ts i with
    ⟨t', _, got', opens', _⟩ | ⟨_, _, ⟨t', _, got', closes', _⟩, _⟩ | ⟨_, _, stack⟩
  · rw [got] at got'
    cases got'
    rw [opens] at opens'
    cases opens'
  · rw [got] at got'
    cases got'
    rw [closes] at closes'
    cases closes'
  · exact stack

theorem openAt_succ_of_opens {c : String} (got : ts[i]? = some t) (opens : t.closerText? = some c) :
    openAt ts (i + 1) = (i, c) :: openAt ts i := by
  rcases openAt_succ_cases ts i with
    ⟨t', _, got', opens', stack⟩ | ⟨_, _, ⟨t', _, got', closes', _⟩, _⟩ | ⟨_, other, _⟩
  · rw [got] at got'
    cases got'
    rw [opens] at opens'
    cases opens'
    exact stack
  · rw [got] at got'
    cases got'
    rw [not_isCloser opens] at closes'
    cases closes'
  · rw [other t got] at opens
    cases opens

/-- **Below an open bracket lies the stack of its opening**, and above it only
brackets that were opened later. -/
theorem mem_openAt (inside : (o, s) ∈ openAt ts i) : (∃ t, ts[o]? = some t ∧ t.closerText? = some s) ∧
    ∃ above, openAt ts i = above ++ (o, s) :: openAt ts o ∧ ∀ e ∈ above, o < e.1 := by
  induction i with
  | zero => rw [openAt_zero] at inside; cases inside
  | succ i ih =>
    rcases openAt_succ_cases ts i with
      ⟨t, c, got, opens, stack⟩ | ⟨closed, _, _, stack⟩ | ⟨_, _, stack⟩
    · rw [stack] at inside ⊢
      rcases mem_cons.1 inside with eq | inside
      · cases eq
        exact ⟨⟨t, got, opens⟩, [], rfl, (fun _ absent => nomatch absent)⟩
      · obtain ⟨opened, above, split, later⟩ := ih inside
        refine ⟨opened, (i, c) :: above, by rw [split]; rfl, fun e mem => ?_⟩
        rcases mem_cons.1 mem with eq | mem
        · rw [eq]; exact lt_of_mem_openAt inside
        · exact later e mem
    · obtain ⟨opened, above, split, later⟩ := ih (stack ▸ mem_cons_of_mem _ inside)
      refine ⟨opened, ?_⟩
      rw [stack] at split
      -- the closed bracket lies above this one, since it cannot be below itself
      cases above with
      | nil =>
        injection split with _ r
        rw [r] at inside
        exact absurd (lt_of_mem_openAt inside) (Nat.lt_irrefl _)
      | cons top above =>
        injection split with _ r
        exact ⟨above, r, fun e mem => later e (.tail _ mem)⟩
    · exact stack ▸ ih (stack ▸ inside)

namespace Closes

variable {o' : Nat}

section

variable (closes : Closes ts o c)
include closes

theorem lt : o < c := by
  obtain ⟨t, outer, _, _, top⟩ := closes
  exact lt_of_mem_openAt (top ▸ mem_cons_self)

theorem lt_length : c < ts.length := by
  obtain ⟨t, _, got, _⟩ := closes
  exact (List.getElem?_eq_some_iff.1 got).1

theorem stack :
    ∃ opening closing, ts[o]? = some opening ∧ ts[c]? = some closing ∧
      opening.closerText? = some closing.text ∧ closing.isCloser = true ∧
      openAt ts c = (o, closing.text) :: openAt ts o := by
  obtain ⟨closing, outer, got, closes, top⟩ := closes
  obtain ⟨⟨opening, opened, s⟩, above, split, later⟩ :=
    mem_openAt (show (o, closing.text) ∈ openAt ts c from top ▸ mem_cons_self)
  refine ⟨opening, closing, opened, got, s, closes, ?_⟩
  cases above with
  | nil => exact split
  | cons e above =>
    rw [top] at split
    injection split with eq _
    have := later e mem_cons_self
    rw [← eq] at this
    exact absurd this (Nat.lt_irrefl _)

theorem brace {opening : Token} (fst : ts[o]? = some opening) (opens : opening.isPunct openBrace) :
    ∃ closing, ts[c]? = some closing ∧ closing.isPunct closeBrace := by
  obtain ⟨opening', closing, fst', snd, s, isCloser, -⟩ := closes.stack
  cases fst.symm.trans fst'
  have wanted : opening.closerText? = some closeBrace := by
    simp only [isPunct, Bool.and_eq_true, beq_iff_eq] at opens
    simp [closerText?, isPunct, opens, openBrace]
  rw [wanted] at s
  refine ⟨closing, snd, ?_⟩
  rw [isPunct, ← some.inj s, kind_of_isCloser isCloser]
  rfl

/-- **Behind a pair the stack is what it was in front of it.** -/
theorem openAt_succ : openAt ts (c + 1) = openAt ts o := by
  obtain ⟨opening, closing, _, got, _, isCloser, top⟩ := closes.stack
  rcases openAt_succ_cases ts c with
    ⟨t, _, got', opens, _⟩ | ⟨_, _, _, stack⟩ | ⟨loose, _, _⟩
  · rw [got] at got'
    cases got'
    rw [closerText?_of_isCloser isCloser] at opens
    cases opens
  · rw [top] at stack
    injection stack with _ r
    exact r.symm
  · exact absurd closes (loose o)

theorem not_mem_openAt {i : Nat} (behind : c < i) (s : String) : (o, s) ∉ openAt ts i := by
  induction i with
  | zero => exact absurd behind (Nat.not_lt_zero _)
  | succ i ih =>
    intro inside
    by_cases here : c = i
    · rw [← here, closes.openAt_succ] at inside
      exact Nat.lt_irrefl _ (lt_of_mem_openAt inside)
    · have earlier := ih (by omega)
      rcases openAt_succ_cases ts i with
        ⟨_, _, _, _, stack⟩ | ⟨_, _, _, stack⟩ | ⟨_, _, stack⟩
      · rw [stack] at inside
        rcases mem_cons.1 inside with eq | inside
        · have := closes.lt
          cases eq
          omega
        · exact earlier inside
      · exact earlier (stack ▸ mem_cons_of_mem _ inside)
      · exact earlier (stack ▸ inside)

theorem opener_eq (closes' : Closes ts o' c) : o = o' := by
  obtain ⟨_, _, _, _, top⟩ := closes
  obtain ⟨_, _, _, _, top'⟩ := closes'
  rw [top] at top'
  injection top' with eq _
  exact congrArg Prod.fst eq

theorem closer_eq {c' : Nat} (closes' : Closes ts o c') : c = c' := by
  obtain ⟨t, _, _, _, top⟩ := id closes
  obtain ⟨t', _, _, _, top'⟩ := id closes'
  rcases Nat.lt_trichotomy c c' with p | eq | behind
  · exact absurd (top' ▸ mem_cons_self) (closes.not_mem_openAt p t'.text)
  · exact eq
  · exact absurd (top ▸ mem_cons_self) (closes'.not_mem_openAt behind t.text)

theorem closer_ne_opener : ¬ Closes ts o' o := by
  rintro ⟨t, _, got, isCloser, _⟩
  obtain ⟨opening, _, got', _, s, _⟩ := closes.stack
  rw [got] at got'
  cases got'
  rw [closerText?_of_isCloser isCloser] at s
  cases s

end

end Closes

/-! ## The table of partners -/

theorem size_partners_scanTo (i : Nat) : (scanTo ts i).partners.size = ts.length := by
  induction i with
  | zero => simp [scanTo, BracketScan.run]
  | succ i ih =>
    cases got : ts[i]? with
    | none => rw [scanTo_succ_of_none got, ih]
    | some t =>
      rw [scanTo_succ got]
      rcases (scanTo ts i).step_cases t i with
        ⟨_, _, behind⟩ | ⟨_, _, _, _, behind⟩ | ⟨_, _, behind⟩ <;> rw [behind]
      · exact ih
      · simp [ih]
      · exact ih

theorem partners_of_closes (closes : Closes ts o i)
    (sofar : ∀ {fst snd : Nat}, (scanTo ts i).partners[fst]?.join = some snd ↔ (snd < i ∧ Closes ts fst snd) ∨ (fst < i ∧ Closes ts snd fst)) :
    (((scanTo ts i).partners.setIfInBounds o (some i)).setIfInBounds i (some o))[fst]?.join = some snd ↔
      (snd < i + 1 ∧ Closes ts fst snd) ∨ (fst < i + 1 ∧ Closes ts snd fst) := by
  have order := closes.lt
  have inside := closes.lt_length
  have size : (scanTo ts i).partners.size = ts.length := size_partners_scanTo i
  by_cases atCloser : fst = i
  · subst atCloser
    have entry : (((scanTo ts fst).partners.setIfInBounds o
        (some fst)).setIfInBounds fst (some o))[fst]? = some (some o) := by
      rw [Array.getElem?_setIfInBounds, if_pos rfl, if_pos (by simp [size]; omega)]
    rw [entry]
    simp only [join_some, some.injEq]
    constructor
    · intro eq
      exact .inr ⟨by omega, eq ▸ closes⟩
    · rintro (⟨p, closes'⟩ | ⟨_, closes'⟩)
      · have := closes'.lt
        omega
      · exact closes.opener_eq closes'
  · by_cases atOpener : fst = o
    · subst atOpener
      have entry : (((scanTo ts i).partners.setIfInBounds fst
          (some i)).setIfInBounds i (some fst))[fst]? = some (some i) := by
        rw [Array.getElem?_setIfInBounds, if_neg (by omega), Array.getElem?_setIfInBounds,
          if_pos rfl, if_pos (by omega)]
      rw [entry]
      simp only [join_some, some.injEq]
      constructor
      · intro eq
        exact .inl ⟨by omega, eq ▸ closes⟩
      · rintro (⟨_, closes'⟩ | ⟨_, closes'⟩)
        · exact closes.closer_eq closes'
        · exact absurd closes' closes.closer_ne_opener
    · rw [Array.getElem?_setIfInBounds, if_neg (Ne.symm atCloser), Array.getElem?_setIfInBounds,
        if_neg (Ne.symm atOpener), sofar]
      constructor
      · rintro (⟨p, closes'⟩ | ⟨p, closes'⟩)
        · exact .inl ⟨by omega, closes'⟩
        · exact .inr ⟨by omega, closes'⟩
      · rintro (⟨p, closes'⟩ | ⟨p, closes'⟩)
        · refine .inl ⟨Nat.lt_of_le_of_ne (by omega) fun eq => ?_, closes'⟩
          exact atOpener ((eq ▸ closes').opener_eq closes)
        · exact .inr ⟨by omega, closes'⟩

theorem partners_scanTo :
    (scanTo ts i).partners[fst]?.join = some snd ↔
      (snd < i ∧ Closes ts fst snd) ∨ (fst < i ∧ Closes ts snd fst) := by
  induction i generalizing fst snd with
  | zero =>
    have empty : (scanTo ts 0).partners[fst]?.join = none := by
      simp [scanTo, BracketScan.run, Array.getElem?_replicate]
      split <;> rfl
    simp [empty]
  | succ i ih =>
    have later : ∀ {fst snd : Nat}, (∀ o, ¬ Closes ts o i) →
        (((snd < i ∧ Closes ts fst snd) ∨ (fst < i ∧ Closes ts snd fst)) ↔
        ((snd < i + 1 ∧ Closes ts fst snd) ∨
          (fst < i + 1 ∧ Closes ts snd fst))) := by
      intro fst snd loose
      constructor
      · rintro (⟨p, closes⟩ | ⟨p, closes⟩)
        · exact .inl ⟨by omega, closes⟩
        · exact .inr ⟨by omega, closes⟩
      · rintro (⟨p, closes⟩ | ⟨p, closes⟩)
        · refine .inl ⟨Nat.lt_of_le_of_ne (by omega) fun eq => ?_, closes⟩
          exact loose fst (eq ▸ closes)
        · refine .inr ⟨Nat.lt_of_le_of_ne (by omega) fun eq => ?_, closes⟩
          exact loose snd (eq ▸ closes)
    cases got : ts[i]? with
    | none =>
      rw [scanTo_succ_of_none got, ih]
      refine later fun o closes => ?_
      obtain ⟨_, _, got', _⟩ := closes
      rw [got] at got'
      cases got'
    | some t =>
      rw [scanTo_succ got]
      rcases (scanTo ts i).step_cases t i with
        ⟨c, opens, behind⟩ | ⟨o, outer, isCloser, top, behind⟩ | ⟨_, loose, behind⟩
      · rw [behind, ih]
        refine later fun o closes => ?_
        obtain ⟨_, _, got', isCloser, _⟩ := closes
        rw [got] at got'
        cases got'
        rw [closerText?_of_isCloser isCloser] at opens
        cases opens
      · have closes : Closes ts o i := ⟨t, outer, got, isCloser, top⟩
        rw [behind]
        exact partners_of_closes closes ih
      · rw [behind, ih]
        refine later fun o closes => ?_
        obtain ⟨_, outer, got', isCloser, top⟩ := closes
        rw [got] at got'
        cases got'
        exact loose isCloser o outer top

end Scan

namespace TokenSeq

theorem get?_ofList (ts : List Token) (i : Nat) : (ofList ts).get? i = ts[i]? := by
  simp [ofList, get?]

theorem partner?_ofList {fst snd : Nat} :
    (ofList ts).partner? fst = some snd ↔ Closes ts fst snd ∨ Closes ts snd fst := by
  have table : (ofList ts).partner? fst = (scanTo ts ts.length).partners[fst]?.join := by
    rw [scanTo_length]
    rfl
  rw [table, partners_scanTo]
  constructor
  · rintro (⟨_, closes⟩ | ⟨_, closes⟩)
    · exact .inl closes
    · exact .inr closes
  · rintro (closes | closes)
    · exact .inl ⟨closes.lt_length, closes⟩
    · exact .inr ⟨closes.lt_length, closes⟩

/-- **A bracket's closer is the token that takes it off the stack.** -/
theorem closer?_ofList : (ofList ts).closer? o = some c ↔ Closes ts o c := by
  unfold closer?
  rw [filter_eq_some_iff, partner?_ofList, decide_eq_true_iff]
  constructor
  · rintro ⟨closes | closes, order⟩
    · exact closes
    · have := closes.lt
      omega
  · intro closes
    exact ⟨.inl closes, closes.lt⟩

theorem opener?_ofList : (ofList ts).opener? c = some o ↔ Closes ts o c := by
  unfold opener?
  rw [filter_eq_some_iff, partner?_ofList, decide_eq_true_iff]
  constructor
  · rintro ⟨closes | closes, order⟩
    · have := closes.lt
      omega
    · exact closes
  · intro closes
    exact ⟨.inr closes, closes.lt⟩

end TokenSeq

/-! ## Lists of tokens in front of others -/

/-- No bracket is loose: every one has a partner. -/
def Balanced (ts : List Token) : Prop :=
  ∀ i t, ts[i]? = some t → t.isOpener = true ∨ t.isCloser = true →
    ((TokenSeq.ofList ts).partner? i).isSome = true

instance (ts : List Token) : Decidable (Balanced ts) :=
  decidable_of_iff (∀ i : Fin ts.length, ts[i].isOpener = true ∨
      ts[i].isCloser = true → ((TokenSeq.ofList ts).partner? i).isSome = true) <| by
    constructor
    · intro all i t found bracket
      obtain ⟨inside, rfl⟩ := List.getElem?_eq_some_iff.1 found
      exact all ⟨i, inside⟩ bracket
    · intro balanced i bracket
      exact balanced i _ (getElem?_eq_getElem i.isLt) bracket

theorem Balanced.exists_closes (balanced : Balanced ts) (got : ts[i]? = some t)
    (opens : t.closerText? = some s) : ∃ c, Closes ts i c := by
  have partner := balanced i t got (.inl (by simp [isOpener, opens]))
  obtain ⟨other, pair⟩ := isSome_iff_exists.1 partner
  rcases TokenSeq.partner?_ofList.1 pair with closes | ⟨t', _, got', isCloser, _⟩
  · exact ⟨other, closes⟩
  · rw [got] at got'
    cases got'
    rw [closerText?_of_isCloser isCloser] at opens
    cases opens

theorem Balanced.exists_opens (balanced : Balanced ts) (got : ts[i]? = some t)
    (isCloser : t.isCloser) : ∃ o, Closes ts o i := by
  have partner := balanced i t got (.inr isCloser)
  obtain ⟨other, pair⟩ := isSome_iff_exists.1 partner
  rcases TokenSeq.partner?_ofList.1 pair with closes | closes
  · obtain ⟨opening, _, got', _, s, _⟩ := closes.stack
    rw [got] at got'
    cases got'
    rw [closerText?_of_isCloser isCloser] at s
    cases s
  · exact ⟨other, closes⟩

theorem Balanced.openAt_length (balanced : Balanced ts) : openAt ts ts.length = [] := by
  refine eq_nil_iff_forall_not_mem.2 fun (o, s) inside => ?_
  obtain ⟨⟨t, got, opens⟩, _⟩ := mem_openAt inside
  obtain ⟨c, closes⟩ := balanced.exists_closes got opens
  exact closes.not_mem_openAt closes.lt_length s inside

/-- A scan that starts elsewhere, above brackets of its own, holds the same stack
with its numbers moved. -/
theorem BracketScan.stack_run_shift (pos : Nat) (ts : List Token) (scan scan' : BracketScan)
    (moved : scan'.stack = scan.stack.map fun e => (e.1 + pos, e.2)) (i : Nat) :
    (scan'.run ts (i + pos)).stack = (scan.run ts i).stack.map fun e => (e.1 + pos, e.2) := by
  induction ts generalizing scan scan' i with
  | nil => exact moved
  | cons t r ih =>
    have next : (scan'.step t (i + pos)).stack =
        (scan.step t i).stack.map fun e => (e.1 + pos, e.2) := by
      unfold step
      cases t.closerText? with
      | some c => simp [moved]
      | none =>
        cases stack : scan.stack with
        | nil => simp [moved, stack]
        | cons top outer =>
          simp only [moved, stack, map_cons]
          by_cases closes : t.isCloser
          · by_cases eq : t.text = top.2
            · simp [closes, eq]
            · simp [closes, eq, moved, stack]
          · simp [closes, moved, stack]
    have moves := ih _ _ next (i + 1)
    rw [Nat.add_right_comm] at moves
    exact moves

theorem openAt_append_left (snd : List Token) (inside : i ≤ fst.length) :
    openAt (fst ++ snd) i = openAt fst i := by
  unfold openAt scanTo
  rw [take_append_of_le_length inside]
  have eq := BracketScan.stack_run_shift 0 (fst.take i)
    ⟨[], Array.replicate fst.length none⟩ ⟨[], Array.replicate (fst ++ snd).length none⟩ rfl 0
  simpa using eq

theorem openAt_append_right (snd : List Token) (closed : openAt fst fst.length = []) (i : Nat) :
    openAt (fst ++ snd) (i + fst.length) = (openAt snd i).map fun e => (e.1 + fst.length, e.2) := by
  have start : openAt (fst ++ snd) fst.length = [] := by
    rw [openAt_append_left snd (Nat.le_refl _), closed]
  unfold openAt scanTo at start ⊢
  rw [take_left] at start
  rw [Nat.add_comm i, take_length_add_append, BracketScan.run_append, Nat.zero_add]
  have moved := BracketScan.stack_run_shift fst.length (snd.take i)
    ⟨[], Array.replicate snd.length none⟩
    (BracketScan.run ⟨[], Array.replicate (fst ++ snd).length none⟩ fst 0) start 0
  rw [Nat.zero_add] at moved
  exact moved

theorem closes_append_left (snd : List Token) (inside : c < fst.length) :
    Closes (fst ++ snd) o c ↔ Closes fst o c := by
  unfold Closes
  rw [openAt_append_left snd (Nat.le_of_lt inside), getElem?_append_left inside]

theorem closes_append_right (snd : List Token) (closed : openAt fst fst.length = []) :
    Closes (fst ++ snd) (o + fst.length) (c + fst.length) ↔ Closes snd o c := by
  unfold Closes
  rw [openAt_append_right snd closed, getElem?_append_right (Nat.le_add_left _ _), Nat.add_sub_cancel]
  constructor
  · rintro ⟨t, outer, got, isCloser, top⟩
    cases stack : openAt snd c with
    | nil => rw [stack] at top; cases top
    | cons e inner =>
      rw [stack, map_cons] at top
      injection top with eq _
      injection eq with number s
      exact ⟨t, inner, got, isCloser, by
        rw [← s, ← Nat.add_right_cancel number]⟩
  · rintro ⟨t, outer, got, isCloser, top⟩
    exact ⟨t, outer.map fun e => (e.1 + fst.length, e.2), got, isCloser, by
      rw [top]; rfl⟩

theorem Closes.le_opener {snd : List Token} (closed : openAt fst fst.length = [])
    (closes : Closes (fst ++ snd) o c) (behind : fst.length ≤ c) : fst.length ≤ o := by
  obtain ⟨_, _, _, _, top⟩ := closes
  obtain ⟨distance, rfl⟩ := Nat.exists_eq_add_of_le' behind
  rw [openAt_append_right snd closed] at top
  have mem : _ ∈ (openAt snd distance).map fun e =>
    (e.1 + fst.length, e.2) := top ▸ mem_cons_self
  obtain ⟨e, _, eq⟩ := mem_map.1 mem
  have := congrArg Prod.fst eq
  dsimp only at this
  omega

namespace TokenSeq

variable (snd : List Token)

theorem closer?_append_left (closed : openAt fst fst.length = []) (inside : i < fst.length) :
    (ofList (fst ++ snd)).closer? i = (ofList fst).closer? i := by
  refine ext fun c => ?_
  rw [closer?_ofList, closer?_ofList]
  by_cases prev : c < fst.length
  · exact closes_append_left snd prev
  · constructor
    · intro closes
      have := closes.le_opener closed (by omega)
      omega
    · intro closes
      exact absurd closes.lt_length prev

theorem opener?_append_left (inside : i < fst.length) :
    (ofList (fst ++ snd)).opener? i = (ofList fst).opener? i := by
  refine ext fun o => ?_
  rw [opener?_ofList, opener?_ofList, closes_append_left snd inside]

theorem closer?_append_right (closed : openAt fst fst.length = []) (i : Nat) :
    (ofList (fst ++ snd)).closer? (i + fst.length) = ((ofList snd).closer? i).map (· + fst.length) := by
  refine ext fun c => ?_
  rw [closer?_ofList, map_eq_some_iff]
  constructor
  · intro closes
    have order := closes.lt
    obtain ⟨distance, rfl⟩ := Nat.exists_eq_add_of_le' (show fst.length ≤ c by omega)
    exact ⟨distance, closer?_ofList.2 ((closes_append_right snd closed).1 closes), rfl⟩
  · rintro ⟨distance, closes, rfl⟩
    exact (closes_append_right snd closed).2 (closer?_ofList.1 closes)

theorem opener?_append_right (closed : openAt fst fst.length = []) (i : Nat) :
    (ofList (fst ++ snd)).opener? (i + fst.length) = ((ofList snd).opener? i).map (· + fst.length) := by
  refine ext fun o => ?_
  rw [opener?_ofList, map_eq_some_iff]
  constructor
  · intro closes
    obtain ⟨distance, rfl⟩ := Nat.exists_eq_add_of_le' (closes.le_opener closed (by omega))
    exact ⟨distance, opener?_ofList.2 ((closes_append_right snd closed).1 closes), rfl⟩
  · rintro ⟨distance, closes, rfl⟩
    exact (closes_append_right snd closed).2 (opener?_ofList.1 closes)

end TokenSeq

end Bindery
