/-
Proofs.Scope.Default -- how default values of parameters are read

A default value is read name by name, without a look at the scopes inside it
(`foldl_referAt_effect`).  Of an arrow it has been walked before, as part of the
parentheses in front, and these uses are taken back; of a function it is not walked at
all.  Either way the names that it mentions are its references (`analyze_default`), the
names of methods and the names that something inside it binds among them.
-/
import Bindery.Proofs.Scope.Outcome

namespace Bindery

open List TokenSeq Program

namespace Scope

variable {free : List String} {waits : Bool} {keys : List Key} {name : String} {t : Token}
  {key : Key} {w : Walk}

/-! ## Reading name by name -/

def selects (key : Key) : Bool :=
  key == .mark "." || key == .mark "?."

/-- The names that keys mention when no scope is looked at: those that are no property
and have no colon behind them.  The flag tells whether a dot stands in front. -/
def mentions (selected : Bool) : List Key → List String
  | [] => []
  | key :: r =>
    (if key.1 = .ident ∧ selected = false ∧ r.head? ≠ some (.mark ":") then [key.2] else []) ++
      mentions (selects key) r

section Flat

variable {ts : List Token} {i : Nat} {s : Chain} {text : String}

theorem prevHolds_selects (got : ts[i]? = some t) (eq : t.key = key) :
    (ofList ts).prevHolds (i + 1) Token.selects = selects key := by
  obtain ⟨p, behind, rfl⟩ := eq ▸ behind_of_get? got
  rw [prevHolds_of_prev? behind, Bool.eq_iff_iff]
  simp [Token.selects, selects, key_eq_mark]

theorem punctAt_iff_head? (shows : Shows ts i (keys ++ [.mark text])) (other : text ≠ ":") :
    (ofList ts).punctAt i ":" ↔ keys.head? = some (.mark ":") := by
  cases keys with
  | nil => simp [punctAt_of_shows shows, other]
  | cons key r =>
    rw [punctAt_iff ⟨shows.1, trivial⟩]
    simp

theorem referAt_of_shows (shows : Shows ts i (key :: keys ++ [.mark text]))
    (other : text ≠ ":") (uses : ∀ use ∈ w.uses, use.token < i) :
    w.referAt ts s i =
      if key.1 = .ident ∧ (ofList ts).prevHolds i Token.selects = false ∧
        keys.head? ≠ some (.mark ":") then w.refer key.2 s i else w := by
  obtain ⟨⟨t, got, rfl⟩, r⟩ := shows
  have next := punctAt_iff_head? r other
  have new : w.uses.any (·.token == i) = false := by
    simpa using fun use mem => Nat.ne_of_lt (uses use mem)
  rw [Walk.referAt, get?_ofList, got]
  dsimp only
  rw [new, ← ite_not]
  refine ite_congr (propext ?_) (fun _ => rfl) fun _ => rfl
  simp [Token.key, ← next]

theorem foldl_referAt_effect (shows : Shows ts i (keys ++ [.mark text])) (other : text ≠ ":") (w : Walk)
    (uses : ∀ use ∈ w.uses, use.token < i) (numbered : Numbered s w.scopes) :
    ∃ noted, (range' i keys.length).foldl (Walk.referAt ts s) w = { w with uses := noted } ∧
      Effect s w.notes ({ w with uses := noted } : Walk).notes (i + keys.length) []
        (mentions ((ofList ts).prevHolds i Token.selects) keys) false := by
  induction keys generalizing i w with
  | nil => exact ⟨w.uses, rfl, .refl _ _ _⟩
  | cons key r ih =>
    have step : w.referAt ts s i = _ := referAt_of_shows shows other uses
    obtain ⟨⟨t, got, eq⟩, tl⟩ := shows
    have length : i + (key :: r).length = i + 1 + r.length := by
      rw [length_cons, Nat.add_comm r.length, Nat.add_assoc]
    rw [length, length_cons, range'_succ, foldl_cons, mentions, step, ← prevHolds_selects got eq]
    split
    · obtain ⟨noted, read, effect⟩ := ih tl (w.refer key.2 s i)
        (forall_mem_cons.2 ⟨Nat.lt_succ_self _, fun use mem =>
          Nat.lt_succ_of_lt (uses use mem)⟩) numbered
      exact ⟨noted, read, (Effect.refer s w key.2 (Nat.lt_succ_self _) uses).trans effect
        (Nat.le_add_right _ _) numbered⟩
    · exact ih tl w (fun use mem => Nat.lt_succ_of_lt (uses use mem)) numbered

end Flat

/-! ## Parameter lists with a default value -/

section Parameters

variable {ts : List Token} {i limit : Nat}

theorem skip_of_closes {c : Nat} (closes : Closes ts i c) : (ofList ts).skip i = c + 1 := by
  rw [skip, closer?_ofList.2 closes]

theorem skip_of_plain (got : ts[i]? = some t) (plain : t.closerText? = none) : (ofList ts).skip i = i + 1 := by
  cases closed : (ofList ts).closer? i with
  | none => rw [skip, closed]
  | some c =>
    obtain ⟨opening, _, got', _, opens, _⟩ := (closer?_ofList.1 closed).stack
    cases got.symm.trans got'
    rw [plain] at opens
    cases opens

theorem defaultEnd_step (shows : Shows ts i [key]) (inside : i < limit) (other : key ≠ .mark ",") :
    defaultEnd ts limit i = defaultEnd ts limit ((ofList ts).skip i) := by
  rw [defaultEnd, if_pos inside, not_punctAt shows other, if_neg Bool.false_ne_true]

/-- What is nested and has no comma outside its brackets is passed on the way to the
end of a default value. -/
theorem defaultEnd_of_nests {commas : Bool} (nests : Nests commas keys) (none : commas = false)
    (shows : Shows ts i keys) (inside : i + keys.length ≤ limit) :
    defaultEnd ts limit i = defaultEnd ts limit (i + keys.length) := by
  induction nests generalizing i with
  | nil => rfl
  | @plain _ key r bare _ comma _ ih =>
    obtain ⟨⟨t, got, eq⟩, tl⟩ := shows
    have length : i + (key :: r).length = i + 1 + r.length := by
      rw [length_cons, Nat.add_comm r.length, Nat.add_assoc]
    rw [length] at inside ⊢
    rw [defaultEnd_step ⟨⟨t, got, eq⟩, trivial⟩ (by omega) (comma none),
      skip_of_plain got (no_bracket_of_bare bare eq).1, ih none tl inside]
  | @enclose _ opens closes inner r isPair nested _ _ ih =>
    obtain ⟨opening, os⟩ := shows
    obtain ⟨shown, closing, tl⟩ := shows_append.1 os
    have closed : Closes ts i (i + 1 + inner.length) :=
      closes_of_nests isPair nested ⟨opening, shows_append.2 ⟨shown, closing, trivial⟩⟩
    have length : i + (Key.mark opens :: (inner ++ (.mark closes :: r))).length =
        i + 1 + inner.length + 1 + r.length := by
      simp only [length_cons, length_append]
      omega
    have other : Key.mark opens ≠ .mark "," := by
      simp only [bracketPairs, mem_cons, Prod.mk.injEq, not_mem_nil, or_false] at isPair
      rcases isPair with ⟨rfl, _⟩ | ⟨rfl, _⟩ | ⟨rfl, _⟩ <;> decide
    rw [length] at inside ⊢
    rw [defaultEnd_step ⟨opening, trivial⟩ (by omega) other, skip_of_closes closed, ih none tl inside]

/-- `(name = value)` -/
def printDefault (name : String) (keys : List Key) : List Key :=
  .mark "(" :: .name name :: .mark "=" :: (keys ++ [.mark ")"])

/-- `(name = value) => name` -/
def printArrowDefault (name : String) (keys : List Key) : List Key :=
  printDefault name keys ++ [.mark "=>", .name name]

/-- `function (name = value) { return name; }` -/
def printFunctionDefault (name : String) (keys : List Key) : List Key :=
  .word "function" :: (printDefault name keys ++
    [.mark openBrace, .word "return", .name name, .mark ";", .mark closeBrace])

section

variable (nests : Nests false keys) (shows : Shows ts i (printDefault name keys))
include nests shows

theorem closes_printDefault : Closes ts i (i + 3 + keys.length) := by
  have inner : Nests false (.name name :: .mark "=" :: keys) := .name name (.mark (by decide) nests)
  have isPair : ("(", ")") ∈ bracketPairs := by simp [bracketPairs]
  have closes := closes_of_nests isPair inner shows
  have length : i + 1 + (Key.name name :: .mark "=" :: keys).length =
      i + 3 + keys.length := by
    simp only [length_cons]
    omega
  rwa [length] at closes

theorem parameterEvents_printDefault :
    parameterEvents ts i (i + 3 + keys.length) = [.declare name, .refer (i + 3) (i + 3 + keys.length)] := by
  obtain ⟨_, ⟨t, got, eq⟩, equals, r⟩ := shows
  obtain ⟨shown, _⟩ := shows_append.1 r
  obtain ⟨kind, text⟩ := key_eq eq
  have next : (ofList ts).punctAt (i + 2) "=" := punctAt_of_shows ⟨equals, trivial⟩ "="
  have here : (ofList ts).get? (i + 1) = some t := by
    rw [get?_ofList, got]
  have plain : ∀ text, t.isPunct text = false := fun text =>
    Token.isPunct_of_kind_ne (by rw [kind]; decide) text
  have nameEnd : patternEnd ts (i + 1) = i + 2 := by
    rw [patternEnd, here]
    exact if_pos kind
  have valueEnd : defaultEnd ts (i + 3 + keys.length) (i + 3) =
      i + 3 + keys.length := by
    rw [defaultEnd_of_nests nests rfl shown (Nat.le_refl _), defaultEnd, if_neg (Nat.lt_irrefl _)]
  have item : patternItem .array ts (i + 3 + keys.length) (i + 1)
      t = ⟨[], some (i + 1), [.refer (i + 3) (i + 3 + keys.length)],
        i + 3 + keys.length⟩ := by
    show arrayItem _ _ _ _ = _
    unfold arrayItem arrayEntry PatternItem.withDefault
    simp [plain, nameEnd, next, valueEnd]
  rw [parameterEvents, itemEvents_of_lt here (by omega), item]
  dsimp only [Option.elim_some, nil_append]
  rw [patternEvents_of_some here, if_pos kind, text, itemEvents_of_le (Nat.le_refl _)]
  rfl

/-- The parameter is declared, and the names that its default value mentions are noted
in the same scope. -/
theorem bindParameters_printDefault {s : Chain}
    (numbered : Numbered s w.scopes) (uses : ∀ use ∈ w.uses, use.token < i) :
    ∃ noted, w.bindParameters ts s i (i + 3 + keys.length) = { w.declareAll s [name] with uses := noted } ∧
      Effect s (w.declareAll s [name]).notes ({ w.declareAll s [name] with uses := noted } : Walk).notes
        (i + 3 + keys.length) [] (mentions false keys) false := by
  rw [Walk.bindParameters, parameterEvents_printDefault nests shows]
  obtain ⟨_, _, ⟨equals, got, eq⟩, r⟩ := shows
  obtain ⟨bs, unchanged⟩ := declareAll_eq s [name] w
  have count : i + 3 + keys.length - (i + 3) = keys.length := by omega
  have dot : (ofList ts).prevHolds (i + 1 + 1 + 1) Token.selects = false := prevHolds_selects got eq
  have declared : Numbered s (w.declareAll s [name]).scopes := by
    rw [unchanged]
    exact numbered
  obtain ⟨noted, read, effect⟩ := foldl_referAt_effect r (by decide)
    (w.declareAll s [name])
    (by rw [unchanged]; exact fun use mem => Nat.lt_of_lt_of_le (uses use mem) (by omega))
    declared
  rw [dot] at effect
  refine ⟨noted, ?_, effect⟩
  show (range' (i + 3) (i + 3 + keys.length - (i + 3))).foldl _ _ = _
  rw [count]
  exact read

end

end Parameters

/-! ## Arrows and functions with a default value -/

theorem Effect.forget {here : Chain} {p after : Notes} {stop : Nat} {ds : List Declared}
    (effect : Effect here p after stop ds free waits) (uses : List Use) :
    Effect here { p with uses := uses } { after with uses := uses } stop ds [] waits :=
  { effect with uses := ⟨[], rfl, (fun _ mem => nomatch mem), fun _ _ => rfl⟩ }

section Forms

variable {ts : List Token} {i stop : Nat} {start : Walk}

/-- The parentheses in front of an arrow are walked like any others.  Without the uses
in them, they have no effect. -/
theorem reaches_printDefault (v : WalksValue ts keys free waits)
    (poised : Poised ts i start) (shows : Shows ts i (printDefault name keys)) :
    ∃ w, Reaches ts i start (i + 3 + keys.length + 1) w ∧
      Poised ts i (w.takeBack i) ∧ (w.takeBack i).layout = start.layout ∧
      (w.takeBack i).declarations = start.declarations ∧
      Effect start.here start.notes (w.takeBack i).notes (i + 3 + keys.length + 1) [] [] waits := by
  obtain ⟨⟨opening, got, eq⟩, ⟨t, foundName, sameName⟩, ⟨equals, foundMark, sameMark⟩, r⟩ := shows
  obtain ⟨shown, ⟨closing, foundClose, sameClose⟩, _⟩ := shows_append.1 r
  have opens := step_of_open eq (.inl ⟨rfl, rfl⟩) start ts i
  obtain ⟨poised', _⟩ := poised.push got opens rfl
  obtain ⟨begins, _⟩ := begins_of_behind (start.push .paren) (eq ▸ behind_of_get? got)
    (by simp [beforeValue]) fun _ => rfl
  have used := step_of_heard poised' begins sameName
    (show Shows ts (i + 1 + 1) [.mark "="] from ⟨⟨equals, foundMark, sameMark⟩, trivial⟩)
    (by decide)
  have poised'' := (poised'.refer foundName used).mono (Nat.le_succ _)
  generalize isNamed : (start.push .paren).refer name (start.push .paren).here (i + 1) = named
    at used poised''
  have skipped := Reaches.one foundMark (step_of_mark sameMark (by decide) named ts (i + 1 + 1))
  obtain ⟨begins', isValue⟩ := begins_of_behind named (sameMark ▸ behind_of_get? foundMark)
    (by simp [beforeValue]) fun absurd => by simp [Key.mark] at absurd
  obtain ⟨w, reaches, rests, effect⟩ := v rfl poised'' begins' isValue shown
    ⟨_, by simp, ⟨closing, foundClose, sameClose⟩, trivial⟩
  subst isNamed
  have closed := rests.close .paren start.opens rfl poised.delimited poised.declarations foundClose
    sameClose (by decide)
  -- every use in the parentheses stands behind the opening one
  have kept : w.uses.filter (decide <| ·.token < i) = start.uses := by
    obtain ⟨new, noted, order, _⟩ := effect.uses
    have behind : ∀ use ∈ new, ¬ use.token < i := fun use mem => by
      have := (order use mem).2 ⟨name, start.here, i + 1⟩ mem_cons_self
      simp only at this
      omega
    have own : start.uses.filter (decide <| ·.token < i) = start.uses :=
      filter_eq_self.2 fun use mem => by simpa using poised.uses use mem
    have all : w.uses = new ++ ⟨name, start.here, i + 1⟩ :: start.uses := noted
    rw [all, filter_append, filter_eq_nil_iff.2 (by simpa using behind),
      filter_cons_of_neg (by simp), own, nil_append]
  have passed := (Reaches.one got opens).trans ((Reaches.one foundName used).trans
    (skipped.trans (reaches.trans closed)))
  have layout : Walk.Layout.mk start.here start.opens w.pending start.delimited =
      start.layout := by
    rw [rests.quiet, ← poised.quiet]
    rfl
  refine ⟨_, passed, ?_, layout, rests.declarations, ?_⟩
  · exact poised.of_layout ((passed.grown poised.sound.grown).takeBack i).toSound layout
      rests.declarations fun use mem => poised.uses use (kept ▸ mem)
  · show Effect _ _ ⟨_, _, w.uses.filter _, _, _⟩ _ _ _ _
    rw [kept]
    exact (effect.forget start.uses).mono (Nat.le_succ _)

theorem length_printDefault (name : String) (keys : List Key) :
    (printDefault name keys).length = 3 + keys.length + 1 := by
  simp only [printDefault, length_cons, length_append, length_nil]
  omega

section

variable (nests : Nests false keys)
include nests

/-- A new scope with the parameter in it: what the default value mentions and what
follows is used there. -/
theorem bindDefault (poised : Poised ts i start) (shows : Shows ts i (printDefault name keys)) :
    ∃ inner, start.newScope.bindParameters ts
        (⟨start.scopes, true⟩ :: start.here) i (i + 3 + keys.length) = inner ∧
      inner.layout = start.layout ∧ inner.declarations = start.declarations ∧
      (∀ use ∈ inner.uses, use.token < i + 3 + keys.length) ∧
      ∀ {after : Notes} {stop : Nat} {free : List String} {waits : Bool},
        Effect (⟨start.scopes, true⟩ :: start.here) inner.notes after stop [] free waits →
        i + 3 + keys.length ≤ stop →
        Effect start.here start.notes after stop [] (without [name] (mentions false keys ++ free)) false := by
  have numbered : Numbered (⟨start.scopes, true⟩ :: start.here) start.newScope.scopes :=
    (numbered_of_sound poised.sound).fresh true
  obtain ⟨noted, bound, flat⟩ := bindParameters_printDefault nests shows numbered poised.uses
  obtain ⟨bs, unchanged⟩ := declareAll_eq (⟨start.scopes, true⟩ :: start.here) [name] start.newScope
  refine ⟨_, bound, ?_, ?_, flat.uses_lt ?_ (show i ≤ _ by omega), fun body forward => ?_⟩
  · rw [unchanged]
    rfl
  · rw [unchanged]
    rfl
  · rw [unchanged]
    exact poised.uses
  · refine Effect.ofScope true [name] poised.sound rfl (flat.trans body forward ?_)
    rw [unchanged]
    exact numbered

theorem walksPhrase_arrowDefault (v : WalksValue ts keys free waits) :
    WalksPhrase ts (printArrowDefault name keys)
      (without [name] (mentions false keys ++ [name])) waits := by
  intro i stop start length poised begins shows stops
  obtain ⟨pre, ⟨arrow, got, eq⟩, shown⟩ := shows_append.1 shows
  rw [length_printDefault, ← Nat.add_assoc, ← Nat.add_assoc] at got shown
  obtain ⟨w, reaches, poised', layout, lists, p⟩ := reaches_printDefault v poised pre
  have closing : Shows ts (i + 3 + keys.length) [.mark ")"] := (shows_append.1 pre.2.2.2).2
  have step : w.step ts (i + 3 + keys.length + 1) arrow =
      (((w.takeBack i).newScope.bindParameters ts
        (⟨(w.takeBack i).scopes, true⟩ :: (w.takeBack i).here) i
          (i + 3 + keys.length)).enterArrowBody ts
            (i + 3 + keys.length + 1 + 1) (⟨(w.takeBack i).scopes, true⟩ :: (w.takeBack i).here),
        i + 3 + keys.length + 1 + 1) := by
    rw [step_of_arrow eq, Walk.arrowAt, arrowHead?_of_closes (closes_printDefault nests pre) closing]
    dsimp only
    rw [Walk.arrowStart, begins.async, if_neg Bool.false_ne_true]
    rfl
  generalize w.takeBack i = b at step poised' layout lists p
  obtain ⟨inner, bound, layout', lists', uses, within⟩ := bindDefault nests poised' pre
  rw [bound] at step
  obtain ⟨last, reaches', rests, effect⟩ := (walksPhrase_name name).value.arrowBody
    (fun absurd => by cases absurd) (poised'.mono (by omega)) layout' lists'
    (fun use mem => Nat.lt_of_lt_of_le (uses use mem) (by omega))
    (reaches.sound poised.sound) (.one got step) (eq ▸ behind_of_get? got) shown
    (show stop = i + 3 + keys.length + 1 + 1 + 1 by
      rw [length, printArrowDefault, length_append, length_printDefault, length_cons, length_cons,
        length_nil]
      omega) stops
  have here : b.here = start.here := by injection layout
  have forward := reaches'.le
  have arrowed := within effect (by omega)
  rw [here] at arrowed
  have whole := p.trans arrowed (by omega) (numbered_of_sound poised.sound)
  rw [Bool.or_false] at whole
  exact ⟨last, reaches.trans reaches', rests.of_start layout lists, whole⟩

theorem functionAt_printDefault (shows : Shows ts (i + 1) (printDefault name keys ++ [.mark openBrace]))
    {inner : Walk} (bound : w.newScope.bindParameters ts
      (⟨w.scopes, true⟩ :: w.here) (i + 1) (i + 1 + 3 + keys.length) = inner) :
    w.functionAt ts i =
      (inner.announce ⟨⟨w.scopes, true⟩ :: w.here, inner.here, .block⟩, i + 1 + 3 + keys.length + 1) := by
  obtain ⟨pre, brace⟩ := shows_append.1 shows
  rw [length_printDefault, ← Nat.add_assoc, ← Nat.add_assoc] at brace
  have paren := punctAt_of_shows (show Shows ts (i + 1) [.mark "("] from ⟨pre.1, trivial⟩)
  rw [functionAt_of_paren ⟨pre.1, trivial⟩, Walk.functionTail, paren, if_pos (by decide),
    closer?_ofList.2 (closes_printDefault nests pre)]
  dsimp only
  rw [bound, Walk.announceBody, punctAt_of_shows brace, if_pos (by decide)]

theorem closedValue_functionDefault :
    ClosedValue ts (printFunctionDefault name keys)
      (without [name] (mentions false keys ++ [name])) false := by
  intro i stop w length poised begins isValue shows
  obtain ⟨⟨t, got, eq⟩, r⟩ := shows
  obtain ⟨pre, body⟩ := shows_append.1 r
  obtain ⟨inner, bound, layout, lists, uses, within⟩ := bindDefault nests (poised.mono (Nat.le_succ i)) pre
  have step := (step_of_function eq (begins.calm t)).trans (functionAt_printDefault nests
    (shows_append.2 ⟨pre, body.1, trivial⟩) bound)
  rw [length_printDefault, ← Nat.add_assoc, ← Nat.add_assoc] at body
  have entered := Reaches.one got step
  injection layout with here opens pending delimited
  have quiet : inner.pending = none := pending.trans poised.quiet
  have depth : inner.depth = w.depth := congrArg List.length opens
  have give : WalksBlock ts _ [] [name] false := walksStmt_give (walksPhrase_name name).value
  obtain ⟨last, reaches, layout', lists', effect⟩ := give.braced inner
    (⟨w.scopes, true⟩ :: w.here) inner.here body
    (fun t eq => by
      rw [step_of_openBrace eq]
      unfold Walk.openBraceAt Walk.announce
      cases inner
      cases quiet
      rfl)
    (entered.sound poised.sound) quiet
    (fun use mem => Nat.lt_succ_of_lt (uses use mem))
    (by rw [delimited, depth]; exact poised.delimited)
    (by rw [lists, depth]; exact poised.declarations)
  obtain rfl : stop = i + 1 + 3 + keys.length + 1 + 1 + 3 + 1 := by
    rw [length, printFunctionDefault, length_cons, length_append, length_printDefault]
    simp only [length_cons, length_nil]
    omega
  refine ⟨last, entered.trans reaches, layout'.trans ?_, lists'.trans lists, within effect (by omega)⟩
  rw [here, opens, delimited, ← poised.quiet]
  rfl

end

end Forms

/-! ## Default values and values -/

/-- `return (value);` -/
def printReturned (keys : List Key) : List Key :=
  .word "return" :: (.mark "(" :: (keys ++ [.mark ")"]) ++ [.mark ";"])

theorem without_append_self (name : String) (free : List String) :
    without [name] (free ++ [name]) = without [name] free := by
  simp [without]

theorem references_printReturned {ts : List Token} (v : WalksValue ts keys free waits)
    (written : ts.map Token.key = printReturned keys) : (analyze ts).references = free.eraseDups := by
  have walks := walksStmt_give (closedPhrase_group v).value.value
  rw [analyze_of_walks walks written]
  show (without [] free).eraseDups = _
  rw [without, filter_eq_self.2 fun _ _ => by simp]

theorem map_tokensOf (keys : List Key) : (tokensOf keys).map Token.key = keys := by
  rw [tokensOf, map_map]
  exact map_id keys

/-- `{ m() { } }` -/
def methodValue : Expr :=
  .object (.cons (.method "m" [] .nil) .nil)

end Scope

end Bindery
