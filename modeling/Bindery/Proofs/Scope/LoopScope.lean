/-
Proofs.Scope.LoopScope -- the one scope of a loop

The header and the body of `for (const name of value) { body }` share a scope, and uses
are judged when the walk is over.  So a name that the body declares binds the uses of it
in `value` too, although the braces of the body do not enclose them (`analyze_forOf`); a
block behind `while` or `if` has a scope of its own and binds nothing in front of it.
-/
import Bindery.Proofs.Scope.Outcome

namespace Bindery

open List TokenSeq

namespace Program

/-- `for (const name of value) { body }` -/
def printForOf (name : String) (value body : List Key) : List Key :=
  .word "for" :: .mark "(" :: .word "const" :: .name name :: .name "of" ::
    (value ++ (.mark ")" :: .mark openBrace :: (body ++ [.mark closeBrace])))

mutual

/-- The uses that a walk hears of a phrase in the header of a loop: its free names, without
an `of` that stands there outside all brackets. -/
def Phrase.heard : Phrase → List String
  | .name name => Scope.heard true name
  | .number _ | .string _ => []
  | .group value | .member value _ | .wait value => value.free
  | .sum left right => left.free ++ right.free
  | .call function arguments => Scope.heard true function ++ arguments.free
  | .apply function arguments => function.free ++ arguments.free
  | .array items => items.free
  | .arrow head body => without (head.names ++ body.names) body.heard

/-- The uses that are heard of the body of an arrow in the header. -/
def Body.heard : Body → List String
  | .phrase phrase => phrase.heard
  | .function name parameters body => without (name.toList ++ parameters ++ body.names) body.free
  | .block body => body.free

end

/-- The uses that are heard of a value in the header. -/
def Expr.heard : Expr → List String
  | .phrase value => value.heard
  | .object entries => entries.free
  | .function name parameters body => without (name.toList ++ parameters ++ body.names) body.free

theorem heard_subset (name : String) : Scope.heard true name ⊆ [name] := by
  unfold Scope.heard
  cases true && name == "of" with
  | true => exact nil_subset _
  | false => exact Subset.refl _

theorem mem_without {ns uses : List String} {used : String} :
    used ∈ without ns uses ↔ used ∈ uses ∧ used ∉ ns := by
  simp [without]

mutual

theorem Phrase.heard_subset : ∀ p : Phrase, p.heard ⊆ p.free
  | .name name => heard_subset name
  | .number _ | .string _ => Subset.refl _
  | .group _ | .member _ _ | .wait _ => Subset.refl _
  | .sum _ _ | .apply _ _ | .array _ => Subset.refl _
  | .call fn arguments =>
    append_subset.2
      ⟨subset_append_of_subset_left arguments.free (heard_subset fn), subset_append_right [fn] arguments.free⟩
  | .arrow _ body => filter_subset _ body.heard_subset

theorem Body.heard_subset : ∀ body : Body, body.heard ⊆ body.free
  | .phrase p => p.heard_subset
  | .function _ _ _ | .block _ => Subset.refl _

end

theorem Expr.heard_subset (v : Expr) : v.heard ⊆ v.free := by
  cases v with
  | phrase v => exact v.heard_subset
  | object es => exact Subset.refl _
  | function name params body => exact Subset.refl _

end Program

open Bindery.Program

namespace Scope

open Walk

section Header

variable {tokens : List Token}

mutual

theorem hears_phrase : ∀ p : Phrase, WalksPhraseIn true tokens p.print p.heard p.waits
  | .name name => walksPhrase_name name
  | .number s => (closedPhrase_literal s (.inl rfl)).phrase
  | .string s => (closedPhrase_literal s (.inr rfl)).phrase
  | .group v => (closedPhrase_group (walks_expr v)).phrase
  | .sum left right => (closedPhrase_sum (walks_expr left) (walks_expr right)).phrase
  | .member v prop => (closedPhrase_member (walks_expr v) prop).phrase
  | .call fn arguments => (closedPhrase_call fn (walks_args arguments)).phrase
  | .apply fn arguments =>
    (closedPhrase_apply (walks_expr fn) (walks_args arguments)).phrase
  | .array items => (closedPhrase_array (walks_args items)).phrase
  | .wait v => (closedPhrase_wait (walks_expr v)).phrase
  | .arrow head body => hears_body head body

theorem hears_body (head : Head) : ∀ body : Body,
    WalksPhraseIn true tokens (head.print ++ (.mark "=>" :: body.print))
      (without (head.names ++ body.names) body.heard) false
  | .phrase p => walksPhrase_arrowPhrase head p (hears_phrase p)
  | .function name params body =>
    walksPhrase_arrowValue head (closedValue_function name params (walks_block body)).value
      fun absurd => by cases absurd
  | .block body => (closedPhrase_arrowBlock head (walks_block body)).phrase

end

/-- **A value in the header of a loop.** -/
theorem hears_expr (v : Expr) : WalksValueIn true tokens v.print v.heard v.waits := by
  cases v with
  | phrase p => exact (hears_phrase p).value
  | object es => exact (closedValue_object (walks_entries es)).value
  | function name params body =>
    exact (closedValue_function name params (walks_block body)).value

theorem declare_of_bindings (s : Chain) (name : String) {w other : Walk} (eq : other.bindings = w.bindings) :
    other.declare s name = { other with bindings := (w.declare s name).bindings } := by
  unfold declare
  rw [← eq]
  repeat' split
  all_goals first | rfl | rw [← eq]

def Walk.loopScope (w : Walk) : Chain :=
  ⟨w.scopes, false⟩ :: w.here

/-- The walk in the header of a loop over the items of a value, behind its `of`. -/
def Walk.inForOf (name : String) (w : Walk) : Walk :=
  { w.openForHeader with bindings := (w.declare w.loopScope name).bindings }

theorem notes_inForOf (name : String) (w : Walk) :
    (w.inForOf name).notes = (w.newScope.declareAll w.loopScope [name]).notes := by
  rw [show w.newScope.declareAll w.loopScope [name] = _ from
    declare_of_bindings w.loopScope name (show w.newScope.bindings = w.bindings from rfl)]
  rfl

variable {i : Nat} {w : Walk} {name : String}

theorem step_of_for {t : Token} (inside : Inside w) (eq : t.key = .word "for")
    (paren : Shows tokens (i + 1) [.mark "("]) :
    w.step tokens i t = (w.openForHeader, i + 2) := by
  have opens := punctAt_of_shows paren "("
  have word : (ofList tokens).holds (i + 1) (·.isKeyword "await") = false := by
    obtain ⟨⟨opening, got, isOpening⟩, _⟩ := paren
    rw [holds, get?_ofList, got]
    simp [Token.isKeyword, (key_eq isOpening).1]
  rw [step_of_word eq (inside.calm _ _ _), keywordAt, (key_eq eq).2]
  show w.forAt _ i = _
  rw [forAt, word, opens, if_neg Bool.false_ne_true]
  rfl

theorem step_of_of {t : Token} {lists : List Declaration} {target : Chain} (eq : t.key = .name "of")
    (header : w.inForHeader) (behind : Behind tokens i (.name name))
    (top : w.declarations = ⟨w.depth, target⟩ :: lists)
    (inside : ∀ declaration ∈ lists, declaration.depth < w.depth) :
    w.step tokens i t = ({ w with declarations := lists }, i + 1) := by
  have layout := layout_endDeclarationAtLineBreak tokens w i t
  have kept : lists.filter (decide <| ·.depth < w.depth) = lists :=
    filter_eq_self.2 fun declaration mem => by simpa using inside declaration mem
  have ended : (w.endDeclarationAtLineBreak tokens i
      t).keepDeclarations (· < w.depth) = { w with declarations := lists } := by
    unfold endDeclarationAtLineBreak keepDeclarations
    rw [top]
    dsimp only
    split
    · rw [if_pos rfl, kept]
    · rw [top, filter_cons_of_neg (by simp), kept]
  obtain ⟨p, got, isName⟩ := behind
  have selects : (ofList tokens).prevHolds i Token.selects = false := by
    rw [prevHolds_of_prev? got]
    simp [Token.selects, Token.isPunct, (key_eq isName).1]
  obtain ⟨kind, s⟩ := key_eq eq
  unfold step
  dsimp only
  rw [kind]
  generalize w.endDeclarationAtLineBreak tokens i t = later
    at layout ended ⊢
  injection layout with _ opens
  have depth : later.depth = w.depth := congrArg length opens
  have loop : later.inForHeader := by
    rw [inForHeader, opens]
    exact header
  have mem : later.inMemberPosition tokens i = false := by
    refine InBlock.not_member ⟨?_, ?_⟩ _ _
    all_goals
      unfold inForHeader at loop
      unfold inBrace
      split
      · next top => simp [top] at loop
      · rfl
  show later.identAt _ i t = _
  rw [identAt, selects, mem, if_neg Bool.false_ne_true, if_neg Bool.false_ne_true,
    if_pos ⟨s, loop⟩, depth, ended]

/-- **The header of a loop up to its `of`.** -/
theorem reaches_forOf (inside : Inside w)
    (shows : Shows tokens i [.word "for", .mark "(", .word "const", .name name, .name "of"]) :
    Reaches tokens i w (i + 5) (w.inForOf name) := by
  obtain ⟨⟨word, foundFor, isFor⟩, paren, ⟨const, foundConst, isConst⟩, ⟨own, foundName, isName⟩,
    ⟨of, foundOf, isOf⟩, _⟩ := shows
  have entered : Inside w.openForHeader :=
    ⟨fun s mem => Nat.lt_succ_of_lt (inside.delimited s mem),
      fun declaration mem => Nat.lt_succ_of_lt (inside.declarations declaration mem)⟩
  obtain ⟨begins, _⟩ := begins_of_behind w.openForHeader
    (show Behind tokens (i + 1 + 1) (.mark "(") by
      obtain ⟨opening, got, eq⟩ := paren
      exact eq ▸ behind_of_get? got)
    (by simp [beforeValue]) fun absurd => by simp [Key.mark] at absurd
  have declared := step_of_declaration .const entered begins.selects isConst foundName isName
    (show _ = w.loopScope from rfl)
  rw [declare_of_bindings w.loopScope name (show (w.openForHeader.startDeclaration
    w.loopScope).bindings = w.bindings from rfl)] at declared
  have ended : step tokens (i + 1 + 1 + 1 + 1) of
      { w.inForOf name with
        declarations := ⟨w.depth + 1, w.loopScope⟩ :: w.declarations } =
      (w.inForOf name, i + 5) :=
    step_of_of isOf rfl (isName ▸ behind_of_get? foundName) rfl entered.declarations
  exact (Reaches.one foundFor (step_of_for inside isFor ⟨paren, trivial⟩)).trans
    ((Reaches.one foundConst declared).trans (.one foundOf ended))

/-- No line break stands in front of the token. -/
def OnLine (tokens : List Token) (i : Nat) : Prop :=
  ∀ token, tokens[i]? = some token → token.newlineBefore = false

theorem begins_of_of (inside : Inside w) (b : InBlock w) (behind : Behind tokens (i + 1) (.name "of"))
    (l : OnLine tokens i) (l' : OnLine tokens (i + 1)) :
    Begins tokens (i + 1) w ∧ IsValue tokens (i + 1) := by
  obtain ⟨of, got, isOf⟩ := behind
  obtain ⟨kind, s⟩ := key_eq isOf
  have here : tokens[i]? = some of := by
    rw [← get?_ofList]
    exact get?_of_prev? got
  have fst : (ofList tokens).holds (i + 1) (·.newlineBefore) = false := by
    rw [holds, get?_ofList]
    cases next : tokens[i + 1]? with
    | none => rfl
    | some t => exact l' t next
  have async : (ofList tokens).prevHolds (i + 1) (·.isIdent "async") = false := by
    rw [prevHolds_of_prev? got]
    simp [Token.isIdent, s]
  refine ⟨⟨?_, async, inside.calm _ _, b.not_member _ _⟩, ?_, ?_⟩
  · rw [prevHolds_of_prev? got]
    simp [Token.selects, Token.isPunct, kind]
  · rw [isObjectBrace, got]
    simp [kind, s, l of here]
  · rw [isFunctionStatement, async, atStatementStart, got]
    simp [Token.isPunct, Token.isKeyword, kind, fst]

/-- **A loop over the items of a value.**  Its scope takes away the uses of its own name and
of the names that the body declares, in the body and in the header. -/
theorem whole_forOf {ks tl : List Key} {ds : List Declared} {free free' : List String} {waits waits' : Bool}
    (v : WalksValueIn true tokens ks free waits) (body : WalksBlock tokens tl ds free' waits')
    (poised : Poised tokens i w) (inside : Inside w) (l : OnLine tokens (i + 4)) (l' : OnLine tokens (i + 5))
    (shows : Shows tokens i (printForOf name ks tl)) :
    Whole tokens w i (i + 5 + ks.length + 1 + 1 + tl.length + 1) (hoisted ds)
      (without (name :: lexical ds) (free ++ free')) (waits || waits') := by
  obtain ⟨isFor, isParen, isConst, isName, isOf, r⟩ := shows
  obtain ⟨shown, closing, b⟩ := shows_append.1 r
  have head := reaches_forOf inside ⟨isFor, isParen, isConst, isName, isOf, trivial⟩
  have entered : Inside (w.inForOf name) :=
    ⟨fun s mem => Nat.lt_succ_of_lt (inside.delimited s mem),
      fun declaration mem => Nat.lt_succ_of_lt (inside.declarations declaration mem)⟩
  have steady : Steady true tokens (i + 5) (w.inForOf name) :=
    ⟨head.sound poised.sound, poised.quiet, (poised.mono (by omega)).uses,
      fun s mem => Nat.le_of_lt (entered.delimited s mem), entered.declarations, rfl⟩
  obtain ⟨begins, isValue⟩ := begins_of_of entered ⟨rfl, rfl⟩
    (by obtain ⟨t, got, eq⟩ := isOf; exact eq ▸ behind_of_get? got) l l'
  obtain ⟨last, reaches, rests, effect⟩ := v rfl steady begins isValue shown ⟨_, by simp, closing, trivial⟩
  -- the parenthesis closes the header and announces the scope for the body
  obtain ⟨close, foundClose, isClose⟩ := closing
  have closed := rests.close (.forHeader w.loopScope w.here) w.opens rfl
    (fun s mem => Nat.le_of_lt (inside.delimited s mem))
    (fun declaration mem => Nat.le_of_lt (inside.declarations declaration mem)) foundClose
    isClose (by decide)
  have brace := punctAt_of_shows (show Shows tokens _ [.mark openBrace] from ⟨b.1, trivial⟩) openBrace
  rw [afterClosing, afterForHeader, brace, if_pos (by decide)] at closed
  have reached := head.trans (reaches.trans closed)
  obtain ⟨final, reaches', layout, lists, effect'⟩ := body.braced
    { (w.inForOf name).resume last with opens := w.opens } w.loopScope w.here b
    (fun t eq => by
      rw [step_of_openBrace eq]
      show (push _ (goTo _ { (w.inForOf name).resume last with
        opens := w.opens, pending := none }), _) = _
      rw [← rests.quiet]
      rfl)
    (reached.sound poised.sound) rests.quiet
    (fun use mem => Nat.lt_succ_of_lt (effect.uses_lt steady.uses reaches.le use mem))
    (fun s mem => Nat.le_of_lt (inside.delimited s mem)) (by
      show ∀ declaration ∈ last.declarations, _
      rw [rests.declarations]
      exact fun declaration mem => Nat.le_of_lt (inside.declarations declaration mem))
  have both : Effect w.loopScope (w.newScope.declareAll w.loopScope [name]).notes
      final.notes (i + 5 + ks.length + 1 + 1 + tl.length + 1) ds (free ++ free')
      (waits || waits') := by
    rw [← notes_inForOf]
    exact effect.trans effect' (by omega) (numbered_of_sound steady.sound)
  refine ⟨final, reached.trans reaches', ?_, lists.trans rests.declarations,
    Effect.ofScope false [name] poised.sound rfl both⟩
  rw [layout, ← poised.quiet]
  rfl

end Header

theorem without_shared_iff (name : String) (own uses : List String) {heard free : List String}
    (subset : heard ⊆ free) :
    (∀ used, used ∈ without (name :: own) (heard ++ uses) ↔
        used ∈ without [name] (free ++ without own uses)) ↔
      ∀ used ∈ free, used ≠ name → used ∉ own ∧ used ∈ heard ++ uses := by
  simp only [mem_without, mem_append, mem_cons, not_mem_nil, or_false, not_or]
  constructor
  · intro eq used free other
    have kept := (eq used).2 ⟨.inl free, other⟩
    exact ⟨kept.2.2, kept.1⟩
  · intro all used
    constructor
    · rintro ⟨heard | body, other, outside⟩
      · exact ⟨.inl (subset heard), other⟩
      · exact ⟨.inr ⟨body, outside⟩, other⟩
    · rintro ⟨v | ⟨body, outside⟩, other⟩
      · obtain ⟨outside, noted⟩ := all used v other
        exact ⟨noted, other, outside⟩
      · exact ⟨.inr body, other, outside⟩

/-- **A name that a loop's body declares binds the header too.**  The references of a loop
are the uses of its header and its body that neither its own name nor a name of its body
binds.  They are the free names of the value and of the block, without the loop's own name,
exactly when every free name of the value is heard and the body declares none of them. -/
theorem analyze_forOf (name : String) (value : Expr) (body : Block) (tokens : List Token)
    (written : tokens.map Token.key = printForOf name value.print body.print)
    (line : OnLine tokens 4) (line' : OnLine tokens 5) :
    analyze tokens = outcome ((hoisted body.declares).map (·.name))
        (without (name :: lexical body.declares) (value.heard ++ body.free))
        (value.waits || body.waits) ∧
      (hoisted body.declares = [] →
        ((∀ used, used ∈ (analyze tokens).references ↔
            used ∈ without [name] (value.free ++ without (lexical body.declares) body.free)) ↔
          ∀ used ∈ value.free, used ≠ name →
            used ∉ lexical body.declares ∧ used ∈ value.heard ++ body.free)) := by
  have length : tokens.length = 0 + 5 + value.print.length + 1 + 1 + body.print.length + 1 := by
    rw [← List.length_map Token.key, written, printForOf]
    simp only [List.length_cons, List.length_append, List.length_nil]
    omega
  have whole := whole_forOf (hears_expr value) (walks_block body) (poised_initial tokens)
    inside_initial line line' (shows_of_map written)
  rw [← length] at whole
  have analysis := analyze_of_whole whole
  refine ⟨analysis, fun bare => ?_⟩
  have found : ∀ used, used ∈ (analyze tokens).references ↔
      used ∈ without (name :: lexical body.declares) (value.heard ++ body.free) := by
    intro used
    rw [analysis, bare]
    simp [outcome, mem_without]
  rw [forall_congr' fun used => iff_congr (found used) Iff.rfl]
  exact without_shared_iff name (lexical body.declares) body.free value.heard_subset

theorem onLine_tokensOf (ks : List Key) (i : Nat) : OnLine (tokensOf ks) i := by
  intro t got
  rw [tokensOf, getElem?_map] at got
  obtain ⟨key, _, rfl⟩ := Option.map_eq_some_iff.1 got
  rfl

/-- `for (const x of f(y, g)) { const z = () => x; h(z, y); }` -/
theorem analyze_forOf_free :
    let value : Expr := .phrase (.call "f" (.cons (.phrase (.name "y"))
      (.cons (.phrase (.name "g")) .nil)))
    let body : Block :=
      .cons (.declare .const "z" (.phrase (.arrow (.many []) (.phrase (.name "x")))))
        (.cons (.phrase (.call "h" (.cons (.phrase (.name "z"))
          (.cons (.phrase (.name "y")) .nil)))) .nil)
    let tokens := tokensOf (printForOf "x" value.print body.print)
    (analyze tokens).references = ["f", "y", "g", "h"] ∧
      ∀ used, used ∈ (analyze tokens).references ↔
        used ∈ without ["x"] (value.free ++ without (lexical body.declares) body.free) := by
  intro value body tokens
  obtain ⟨same, iff⟩ := analyze_forOf "x" value body tokens (by decide +kernel)
    (onLine_tokensOf _ 4) (onLine_tokensOf _ 5)
  exact ⟨(congrArg Analysis.references same).trans (by decide +kernel),
    (iff (by decide +kernel)).2 (by decide +kernel)⟩

/-- `for (const x of a) { const a = 1; }` and `for (const x of of) { }`: the use in the header
is lost. -/
theorem analyze_forOf_captured :
    let value : Expr := .phrase (.name "a")
    let body : Block := .cons (.declare .const "a" (.phrase (.number "1"))) .nil
    "a" ∈ without ["x"] (value.free ++ without (lexical body.declares) body.free) ∧
      (analyze (tokensOf (printForOf "x" value.print body.print))).references = [] ∧
      (analyze (tokensOf (printForOf "x" [.name "of"] []))).references = [] := by
  decide +kernel

end Scope

end Bindery
