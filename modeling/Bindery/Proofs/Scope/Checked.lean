/-
Proofs.Scope.Checked -- no lookup of an analysis fails

Each function of the checked walk gives what its total counterpart does, as long as the
state is in order and the current token is there.
-/
import Bindery.Scope.Checked
import Bindery.Proofs.Scope.Stretch

namespace Bindery.Scope

open List TokenSeq

variable {ts : List Token} {i limit : Nat} {t : Token}

/-! ## Brackets and patterns -/

theorem some_bind {α β : Type} (a : α) (f : α → Option β) : (some a >>= f) = f a := rfl

theorem get?_eq (inside : i < ts.length) : (ofList ts).get? i = some ts[i] := by
  rw [get?_ofList, getElem?_eq_getElem inside]

theorem lt_length_of_get? (got : (ofList ts).get? i = some t) : i < ts.length := lt_of_get? got

theorem partnerAt_eq (inside : i < ts.length) :
    (ofList ts).partners[i]? = some ((ofList ts).partner? i) := by
  have bound : i < (ofList ts).partners.size := by
    show i < (matchBrackets ts).size
    rwa [← scanTo_length, size_partners_scanTo]
  rw [partner?, Array.getElem?_eq_getElem bound, Option.join_some]

theorem closerAt?_eq (inside : i < ts.length) :
    (ofList ts).closerAt? i = some ((ofList ts).closer? i) := by
  rw [closerAt?, partnerAt_eq inside, Option.map_some, closer?]

theorem skip?_eq (inside : i < ts.length) : (ofList ts).skip? i = some ((ofList ts).skip i) := by
  rw [skip?, closerAt?_eq inside, Option.map_some, skip]
  cases (ofList ts).closer? i <;> rfl

theorem patternEnd?_eq (ts : List Token) (i : Nat) : patternEnd? ts i = some (patternEnd ts i) := by
  unfold patternEnd?
  split
  · next opens =>
    obtain ⟨t, got, opens⟩ := (Option.any_eq_true _ _).1 opens
    have other : t.kind ≠ .ident := by
      intro ident
      simp [opensPattern, Token.isPunct, ident] at opens
    rw [skip?_eq (lt_length_of_get? got), patternEnd, got]
    simp [other, opens]
  · rfl

theorem defaultEnd?_eq (le : limit ≤ ts.length) (i : Nat) :
    defaultEnd? ts limit i = some (defaultEnd ts limit i) := by
  fun_induction defaultEnd ts limit i with
  | case1 i inside comma =>
    obtain ⟨t, got, comma⟩ := (Option.any_eq_true _ _).1 comma
    rw [defaultEnd?, if_pos inside, got]
    simp [comma]
  | case2 i inside comma ih =>
    have bound : i < ts.length := by omega
    have got := get?_eq bound
    have plain : ts[i].isPunct "," = false := by
      rw [punctAt, holds, got] at comma
      simpa using comma
    rw [defaultEnd?, if_pos inside, got, skip?_eq bound]
    simp [plain, lt_skip, ih]
  | case3 i outside => rw [defaultEnd?, if_neg outside]

section Items

variable (le : limit ≤ ts.length)
include le

theorem withDefault?_eq (item : PatternItem) :
    item.withDefault? ts limit = some (item.withDefault ts limit) := by
  unfold PatternItem.withDefault? PatternItem.withDefault
  split
  · simp [defaultEnd?_eq le]
  · rfl

theorem patternItem?_eq (inside : i < ts.length) (t : Token) (shape : PatternShape) :
    patternItem? shape ts limit i t = some (patternItem shape ts limit i t) := by
  have entry : objectEntry? ts limit i t = some (objectEntry ts limit i t) := by
    unfold objectEntry? objectEntry
    simp only [patternEnd?_eq, closerAt?_eq inside, some_bind,
      Option.pure_def]
    repeat' split
    all_goals rfl
  have entry' : arrayEntry? ts i t = some (arrayEntry ts i t) := by
    unfold arrayEntry? arrayEntry
    simp [patternEnd?_eq]
  unfold patternItem?
  cases shape with
  | object => simp [entry, withDefault?_eq le, patternItem, objectItem]
  | array =>
    rw [if_neg (by decide), entry', patternItem, arrayItem]
    split
    · rfl
    · exact withDefault?_eq le _

end Items

/-- The events of patterns and items, by induction on the tokens that are left. -/
theorem events?_eq (ts : List Token) (n : Nat) :
    (∀ i, 2 * (ts.length - i) ≤ n → patternEvents? ts i = some (patternEvents ts i)) ∧
      ∀ shape limit i, limit ≤ ts.length → 2 * (ts.length - i) + 1 ≤ n →
        itemEvents? shape ts limit i = some (itemEvents shape ts limit i) := by
  induction n using Nat.strongRecOn with
  | ind n ih =>
    refine ⟨fun i left => ?_, fun shape limit i le left => ?_⟩
    · rw [patternEvents?]
      split
      · next inside =>
        have bound : i < ts.length := inside
        rw [patternEvents_of_some (get?_eq bound), get?_eq bound]
        simp only [some_bind, closerAt?_eq bound]
        split
        · rfl
        split
        · cases closed : (ofList ts).closer? i with
          | none => rfl
          | some close =>
            exact (ih (n - 1) (by omega)).2 _ close (i + 1)
              (Nat.le_of_lt (closer?_ofList.1 closed).lt_length) (by omega)
        · rfl
      · next outside =>
        have beyond : ts.length ≤ i := Nat.le_of_not_lt outside
        rw [patternEvents_of_none (by rw [get?_ofList, getElem?_eq_none beyond])]
    · rw [itemEvents?]
      split
      · next inside =>
        have bound : i < ts.length := by omega
        have got := get?_eq bound
        have forward := lt_stop_patternItem shape ts inside ts[i]
        rw [itemEvents_of_lt got inside, got]
        simp only [some_bind, patternItem?_eq le bound]
        rw [dif_pos ⟨bound, forward⟩, (ih (n - 1) (by omega)).2 _ _ _ le (by omega)]
        cases nested : (patternItem shape ts limit i ts[i]).nested with
        | none => rfl
        | some start =>
          have after := le_nested_patternItem shape ts inside ts[i] nested
          simp only [Option.elim_some, if_pos after]
          rw [(ih (n - 1) (by omega)).1 start (by omega)]
          rfl
      · next outside => rw [itemEvents_of_le (Nat.le_of_not_lt outside)]

theorem patternEvents?_eq (ts : List Token) (i : Nat) :
    patternEvents? ts i = some (patternEvents ts i) :=
  (events?_eq ts _).1 i (Nat.le_refl _)

theorem itemEvents?_eq {o c : Nat} (closed : (ofList ts).closer? o = some c) :
    itemEvents? .array ts c (o + 1) = some (parameterEvents ts o c) :=
  (events?_eq ts _).2 _ _ _ (Nat.le_of_lt (closer?_ofList.1 closed).lt_length) (Nat.le_refl _)

/-- The parameters of an arrow are a name, or stand between brackets that match. -/
theorem arrowHead?_inside {fst : Nat} {params : Option (Nat × Nat)}
    (head : Walk.arrowHead? (ofList ts) i = some (fst, params)) :
    fst < ts.length ∧ ∀ pair ∈ params, (ofList ts).closer? pair.1 = some pair.2 := by
  unfold Walk.arrowHead? prev? at head
  split at head
  · cases head
  · next prev got =>
    split at got
    · cases got
    rw [get?_ofList] at got
    have bound := (List.getElem?_eq_some_iff.1 got).1
    split at head
    · cases head
      exact ⟨bound, by simp⟩
    · split at head
      · obtain ⟨o, opened, eq⟩ := Option.map_eq_some_iff.1 head
        cases eq
        have closes := opener?_ofList.1 opened
        exact ⟨Nat.lt_trans closes.lt bound, by simpa using closer?_ofList.2 closes⟩
      · cases head

namespace Walk

variable {w : Walk} {s : Chain}

/-! ## Scopes -/

section Scopes

variable (within : s.Within w.scopes)
include within

theorem scope?_eq : w.scope? s = some s := if_pos ⟨within.ne_nil, within.id_lt⟩

theorem declare?_eq (n : String) : w.declare? s n = some (w.declare s n) := by
  rw [declare?, scope?_eq within]
  rfl

theorem bind?_eq (events : List PatternEvent) :
    w.bind? ts s (some events) = some (events.foldl (apply ts s) w) := by
  rw [bind?, scope?_eq within]
  rfl

theorem readPattern?_eq (i : Nat) :
    w.readPattern? ts s i = some (w.bindPattern ts s i, patternEnd ts i) := by
  rw [readPattern?, patternEvents?_eq, bind?_eq within, patternEnd?_eq]
  rfl

theorem functionTail?_eq (o : Nat) : w.functionTail? ts o s = some (w.functionTail ts o s) := by
  unfold functionTail? functionTail
  by_cases opens : (ofList ts).punctAt o "("
  · obtain ⟨_, got, _⟩ := (Option.any_eq_true _ _).1 opens
    rw [if_pos opens, if_pos opens, closerAt?_eq (lt_length_of_get? got)]
    cases closed : (ofList ts).closer? o with
    | none => rfl
    | some c =>
      simp only [some_bind, Option.elim_some, itemEvents?_eq closed,
        bind?_eq within]
      rfl
  · rw [if_neg opens, if_neg opens]

end Scopes

/-! ## Looking back -/

section Back

variable (inside : i < ts.length)
include inside

theorem look?_eq {α : Type} (answer : α) : (ofList ts).look? i answer = some answer := by
  rw [look?, get?_eq inside]
  rfl

theorem atStatementStart?_eq : atStatementStart? ts i = some (atStatementStart ts i) := by
  unfold atStatementStart?
  split
  · exact look?_eq inside _
  · next none =>
    rw [Option.not_isSome_iff_eq_none] at none
    rw [atStatementStart, none]

theorem inMemberPosition?_eq (w : Walk) :
    w.inMemberPosition? ts i = some (w.inMemberPosition ts i) := by
  unfold inMemberPosition?
  split
  · rw [look?_eq (Nat.lt_of_le_of_lt (Nat.sub_le i 1) inside)]
    exact look?_eq inside _
  · next none =>
    rw [Option.not_isSome_iff_eq_none] at none
    rw [inMemberPosition, none]

theorem isFunctionStatement?_eq : isFunctionStatement? ts i = some (isFunctionStatement ts i) := by
  rw [isFunctionStatement?, atStatementStart?_eq inside,
    atStatementStart?_eq (Nat.lt_of_le_of_lt (Nat.sub_le i 1) inside), isFunctionStatement]
  cases atStatementStart ts i
  · cases (ofList ts).prevHolds i (·.isIdent "async") <;> rfl
  · rfl

theorem isLabel?_eq (w : Walk) : w.isLabel? ts i = some ((ofList ts).punctAt (i + 1) ":" &&
    (atStatementStart ts i && !w.inBrace .object && !inConditional ts i)) := by
  have bound : i ≤ (ofList ts).size := Nat.le_of_lt inside
  rw [isLabel?, atStatementStart?_eq inside, inConditional?, if_pos bound]
  cases (ofList ts).punctAt (i + 1) ":" <;> rfl

theorem arrowHeadAt?_eq : arrowHeadAt? ts i = some (arrowHead? ts i) := by
  unfold arrowHeadAt? arrowHead? prev?
  split
  · rfl
  · have bound : i - 1 < ts.length := Nat.lt_of_le_of_lt (Nat.sub_le i 1) inside
    rw [get?_eq bound]
    simp only [some_bind, openerAt?, partnerAt_eq bound]
    repeat' split
    all_goals rfl

end Back

theorem hasClassBody?_eq (ts : List Token) (start i : Nat) :
    hasClassBody? ts start i = some (hasClassBody ts start i) := by
  fun_induction hasClassBody ts start i with
  | case1 i inside found => rw [hasClassBody?, if_pos inside, if_pos found]
  | case2 i inside other ih =>
    have bound : i < ts.length := inside
    rw [hasClassBody?, if_pos inside, if_neg other, skip?_eq bound]
    simp [lt_skip, ih]
  | case3 i outside => rw [hasClassBody?, if_neg outside]

/-! ## Steps -/

section Steps

variable (sound : w.Sound ts)
include sound

theorem suspend?_eq (isAwait : Bool) : w.suspend? isAwait = some (w.suspend isAwait) := by
  rw [suspend?, scope?_eq sound.here]
  rfl

theorem separatorAt?_eq (i : Nat) (isSemicolon : Bool) :
    w.separatorAt? ts i isSemicolon = some (w.separatorAt ts i isSemicolon) := by
  unfold separatorAt? separatorAt
  dsimp only
  split
  · rfl
  · have left := (sound.grown.leaveWhile fun s =>
      s.depth == w.depth && (isSemicolon || s.endsAtComma)).toSound
    generalize w.leaveWhile _ = w' at left ⊢
    unfold continueDeclaration
    cases lists : w'.declarations with
    | nil => rfl
    | cons last outer =>
      have within := left.declarations last (lists ▸ mem_cons_self)
      rw [head?_cons, Option.elim_some, readPattern?_eq within]
      dsimp only
      split <;> rfl

theorem suspendAt?_eq (i : Nat) (isAwait : Bool) :
    w.suspendAt? ts i isAwait = some (w.suspendAt ts i isAwait) := by
  unfold suspendAt? suspendAt
  rw [suspend?_eq sound]
  split <;> rfl

theorem forAt?_eq (i : Nat) : w.forAt? ts i = some (w.forAt ts i) := by
  unfold forAt? forAt
  rw [suspend?_eq sound]
  simp only [some_bind, Option.pure_def]
  repeat' split
  all_goals rfl

theorem catchAt?_eq (i : Nat) : w.catchAt? ts i = some (w.catchAt ts i) := by
  have within : (w.freshScope w.here false).Within w.newScope.scopes := sound.here.fresh false
  unfold catchAt? catchAt
  by_cases opens : (ofList ts).punctAt (i + 1) "("
  · obtain ⟨_, got, _⟩ := (Option.any_eq_true _ _).1 opens
    rw [if_pos opens, if_pos opens, closerAt?_eq (lt_length_of_get? got), patternEvents?_eq,
      bind?_eq within]
    cases (ofList ts).closer? (i + 1) <;> rfl
  · rw [if_neg opens, if_neg opens]

theorem declarationAt?_eq (i : Nat) (isVar : Bool) :
    w.declarationAt? ts i isVar = some (w.declarationAt ts i isVar) := by
  unfold declarationAt? declarationAt
  rw [scope?_eq sound.here]
  split
  · rfl
  · have within : (if isVar then Chain.nearestFunction w.here else w.here).Within w.scopes := by
      split
      · exact sound.here.nearestFunction
      · exact sound.here
    rw [some_bind]
    refine readPattern?_eq ?_ _
    exact within

variable (inside : i < ts.length)
include inside

theorem arrowAt?_eq : w.arrowAt? ts i = some (w.arrowAt ts i) := by
  rw [arrowAt?, arrowHeadAt?_eq inside, arrowAt]
  cases got : arrowHead? ts i with
  | none => rfl
  | some head =>
    obtain ⟨fst, params⟩ := head
    have within : (w.freshScope w.here true).Within
        (w.takeBack (arrowStart ts fst)).newScope.scopes := sound.here.fresh true
    obtain ⟨bound, closes⟩ := arrowHead?_inside got
    have binds : (w.takeBack (arrowStart ts fst)).newScope.bindArrow? ts
        (w.freshScope w.here true) fst params = some ((w.takeBack (arrowStart ts fst)).newScope.bindArrow ts
          (w.freshScope w.here true) fst params) := by
      unfold bindArrow? bindArrow
      cases params with
      | none =>
        rw [get?_eq bound]
        exact declare?_eq within _
      | some pair =>
        rw [Option.elim_some, itemEvents?_eq (closes pair rfl)]
        exact bind?_eq within _
    simp only [some_bind, Option.elim_some, binds]
    rfl

theorem functionAt?_eq : w.functionAt? ts i = some (w.functionAt ts i) := by
  have own : (w.freshScope w.here true).Within w.newScope.scopes := sound.here.fresh true
  have outer : w.here.Within w.newScope.scopes := sound.here.mono (Nat.le_succ _)
  unfold functionAt? functionAt
  dsimp only
  rw [isFunctionStatement?_eq inside]
  generalize (if (ofList ts).punctAt (i + 1) "*" = true then i + 2 else i + 1) = next
  cases (ofList ts).ident? next with
  | none => exact functionTail?_eq own next
  | some name =>
    have target : (if isFunctionStatement ts i then w.here else w.freshScope w.here true).Within
        w.newScope.scopes := by
      split
      · exact outer
      · exact own
    rw [Option.elim_some, some_bind, declare?_eq target]
    refine functionTail?_eq ?_ _
    rwa [Walk.Grown.scopes_declare]

theorem declareClass?_eq : w.declareClass? ts i = some (w.declareClass ts i) := by
  unfold declareClass? declareClass
  rw [atStatementStart?_eq inside]
  cases (ofList ts).ident? (i + 1) with
  | none => rfl
  | some name =>
    simp only [Option.elim_some, some_bind, declare?_eq sound.here]
    split <;> rfl

theorem classAt?_eq : w.classAt? ts i = some (w.classAt ts i) := by
  unfold classAt? classAt
  rw [declareClass?_eq sound inside]
  simp only [some_bind, hasClassBody?_eq]
  generalize (if ((ofList ts).ident? (i + 1)).isSome = true then i + 2 else i + 1) = next
  split <;> rfl

theorem memberAt?_eq (t : Token) : w.memberAt? ts i t = some (w.memberAt ts i t) := by
  have own : (w.freshScope w.here true).Within w.newScope.scopes := sound.here.fresh true
  unfold memberAt?
  rw [look?_eq inside, functionTail?_eq own]
  simp only [some_bind, Bool.and_eq_true, beq_iff_eq]
  unfold memberAt
  repeat' split
  all_goals rfl

theorem wordAt?_eq (t : Token) (other : Step) : w.wordAt? ts i t other =
    some (if w.inMemberPosition ts i then w.memberAt ts i t else other) := by
  rw [wordAt?, inMemberPosition?_eq inside, memberAt?_eq sound inside]
  simp only [some_bind]
  split <;> rfl

theorem keywordAt?_eq (t : Token) : w.keywordAt? ts i t = some (w.keywordAt ts i t) := by
  unfold keywordAt?
  simp only [declarationAt?_eq sound, functionAt?_eq sound inside, classAt?_eq sound inside,
    forAt?_eq sound, catchAt?_eq sound, suspendAt?_eq sound, wordAt?_eq sound inside]
  symm
  unfold keywordAt
  split <;> simp_all

theorem identAt?_eq (t : Token) : w.identAt? ts i t = some (w.identAt ts i t) := by
  unfold identAt? identAt
  rw [isLabel?_eq inside]
  simp only [some_bind, wordAt?_eq sound inside, Bool.and_eq_true,
    Bool.not_eq_true', and_assoc, Bool.not_eq_true]
  split <;> rfl

theorem punctAt?_eq (t : Token) : w.punctAt? ts i t = some (w.punctAt ts i t) := by
  unfold punctAt?
  rw [separatorAt?_eq sound, separatorAt?_eq sound, arrowAt?_eq sound inside]
  unfold punctAt
  repeat' split
  all_goals simp_all [Token.isCloser, Token.isPunct, openBrace, closeBrace]

theorem step?_eq (t : Token) : w.step? ts i t = some (w.step ts i t) := by
  have ended := (sound.grown.endDeclarationAtLineBreak i t).toSound
  unfold step? step
  dsimp only
  generalize w.endDeclarationAtLineBreak ts i t = w' at ended ⊢
  rw [punctAt?_eq ended inside, keywordAt?_eq ended inside, identAt?_eq ended inside]
  cases t.kind <;> rfl

end Steps

theorem runFrom?_eq (sound : w.Sound ts) (i : Nat) : w.runFrom? ts i = some (w.runFrom ts i) := by
  fun_induction runFrom ts i w with
  | case1 i w got =>
    rw [runFrom?, dif_neg]
    rw [get?_ofList, getElem?_eq_none_iff] at got
    exact Nat.not_lt.2 got
  | case2 i w t got ih =>
    have inside := lt_of_get? got
    rw [runFrom?, dif_pos inside, got]
    simp only [some_bind, step?_eq sound inside t]
    rw [if_pos (lt_step ..)]
    exact ih (sound.step got)

end Walk

/-- **No lookup of an analysis fails.** -/
theorem analyze?_eq (ts : List Token) : analyze? ts = some (analyze ts) := by
  have sound : (Walk.runFrom ts 0 {}).Sound ts := (Walk.Sound.initial ts).runFrom 0
  have outermost : root.Within (Walk.runFrom ts 0 {}).scopes :=
    ⟨suffix_refl _, by simpa [root] using sound.scopes, by simp [root]⟩
  have known : (Walk.runFrom ts 0 {}).uses.all fun use =>
      ((Walk.runFrom ts 0 {}).scope? use.scope).isSome :=
    all_eq_true.2 fun use mem => by rw [Walk.scope?_eq (sound.uses use mem).1]; rfl
  rw [analyze?, Walk.runFrom?_eq (.initial ts)]
  simp only [some_bind, Walk.scope?_eq outermost, known, if_pos]
  rfl

end Bindery.Scope
