/-
Proofs.Scope.LineBreak -- a line break that ends a declaration

A declaration without a semicolon ends in front of a word on a new line, if an operand
stands before the break.  For most values the analysis is then the one that it would
have been with the semicolon (`analyze_lineBreak`).  Two kinds of value are apart.  An
arrow whose body is an expression has its scope left by a separator only, so what comes
behind the line break is still in it (`analyze_arrow_lineBreak`).  The name `async` in
front of an arrow on the next line is taken for the modifier of that arrow.
-/
import Bindery.Proofs.Scope.Outcome
import Bindery.Proofs.Scope.Property

namespace Bindery

open List TokenSeq Program Token

/-! ## Values that end at a line break -/

/-- The phrase is over at a line break: it is neither an arrow with an expression as its
body nor the name `async`. -/
def Program.Phrase.endsLine : Phrase → Bool
  | .name text => text != "async"
  | .arrow _ (.phrase _) | .arrow _ (.function _ _ _) => false
  | _ => true

/-- The value is over at a line break, as every object and function is. -/
def Program.Expr.endsLine : Expr → Bool
  | .phrase inner => inner.endsLine
  | .object _ | .function _ _ _ => true

namespace Scope

def LineAt (ts : List Token) (i : Nat) : Prop :=
  ∃ token, ts[i]? = some token ∧ token.newlineBefore = true ∧
    (token.kind = .ident ∨ token.kind = .keyword)

section Values

variable {ts : List Token} {i : Nat} {w : Walk} {n : String}

theorem step_of_name_line (poised : Poised ts i w) (begins : Begins ts i w) {t : Token} (eq : t.key = .name n)
    (l : LineAt ts (i + 1)) : w.step ts i t = (w.refer n w.here i, i + 1) := by
  obtain ⟨next, got, newline, word⟩ := l
  refine step_of_name_heard poised begins eq ?_ (.inl ?_)
  · rw [holds, get?_ofList, got]
    simp [newline]
  · rw [punctAt, holds, get?_ofList, got, Option.any_some]
    exact isPunct_of_kind_ne (by rcases word with word | word <;> rw [word] <;> decide) ":"

theorem whole_of_phrase (p : Phrase) (ends : p.endsLine) (poised : Poised ts i w) (begins : Begins ts i w)
    (shows : Shows ts i p.print) (l : LineAt ts (i + p.print.length)) :
    Whole ts w i (i + p.print.length) [] p.free p.waits := by
  cases p with
  | name n =>
    obtain ⟨⟨t, got, eq⟩, _⟩ := shows
    exact ⟨_, .one got (step_of_name_line poised begins eq l), rfl, rfl,
      .refer _ _ _ (Nat.lt_succ_self _) poised.uses⟩
  | number s => exact closedPhrase_literal s (.inl rfl) rfl poised begins shows
  | string s => exact closedPhrase_literal s (.inr rfl) rfl poised begins shows
  | group v => exact closedPhrase_group (walks_expr v) rfl poised begins shows
  | sum left right =>
    exact closedPhrase_sum (walks_expr left) (walks_expr right) rfl poised begins shows
  | member v prop =>
    exact closedPhrase_member (walks_expr v) prop rfl poised begins shows
  | call fn arguments =>
    have closed : ClosedPhrase ts _ _ _ := closedPhrase_call fn (walks_args arguments)
    exact closed rfl poised begins shows
  | apply fn arguments =>
    exact closedPhrase_apply (walks_expr fn) (walks_args arguments) rfl poised begins shows
  | array items => exact closedPhrase_array (walks_args items) rfl poised begins shows
  | wait v => exact closedPhrase_wait (walks_expr v) rfl poised begins shows
  | arrow head body =>
    cases body with
    | phrase _ => cases ends
    | function _ _ _ => cases ends
    | block body =>
      have closed : ClosedPhrase ts _ _ _ := closedPhrase_arrowBlock head (walks_block body)
      exact closed rfl poised begins shows

theorem whole_of_endsLine (v : Expr) (ends : v.endsLine) (poised : Poised ts i w) (begins : Begins ts i w)
    (isValue : IsValue ts i) (shows : Shows ts i v.print) (l : LineAt ts (i + v.print.length)) :
    Whole ts w i (i + v.print.length) [] v.free v.waits := by
  cases v with
  | phrase p => exact whole_of_phrase p ends poised begins shows l
  | object es =>
    exact closedValue_object (walks_entries es) rfl poised begins isValue shows
  | function n params body =>
    exact closedValue_function n params (walks_block body) rfl poised begins isValue shows

end Values

/-! ## The end of a value -/

/-- The last key of a value: it ends an operand, and if it is `async` a dot stands in
front of it. -/
structure EndsOperand (ks : List Key) : Prop where
  last : ∃ front key, ks = front ++ [key] ∧
    (∀ token : Token, token.key = key → token.endsOperand = true) ∧
    (key = .name "async" → ∃ before, front = before ++ [.mark "."])

namespace EndsOperand

variable {ks : List Key}

theorem append (ends : EndsOperand ks) (r : List Key) : EndsOperand (r ++ ks) := by
  obtain ⟨pre, key, rfl, operand, async⟩ := ends.last
  refine ⟨r ++ pre, key, (append_assoc _ _ _).symm, operand, fun eq => ?_⟩
  obtain ⟨p, rfl⟩ := async eq
  exact ⟨r ++ p, (append_assoc _ _ _).symm⟩

theorem cons (ends : EndsOperand ks) (key : Key) : EndsOperand (key :: ks) := ends.append [key]

theorem closing (s : String) (closes : s ∈ [")", "]", closeBrace]) :
    EndsOperand [.mark s] := by
  refine ⟨[], _, rfl, fun t eq => ?_, fun absurd => by cases absurd⟩
  obtain ⟨kind, here⟩ := key_eq eq
  simp only [mem_cons, not_mem_nil, or_false] at closes
  rcases closes with rfl | rfl | rfl <;> simp [endsOperand, kind, here]

theorem atom (pre : List Key) {kind : TokenKind} (s : String)
    (isAtom : kind = .ident ∨ kind = .number ∨ kind = .string)
    (async : (kind, s) = Key.name "async" → ∃ p, pre = p ++ [.mark "."]) :
    EndsOperand (pre ++ [(kind, s)]) := by
  refine ⟨pre, _, rfl, fun t eq => ?_, async⟩
  rw [endsOperand, (key_eq eq).1]
  rcases isAtom with rfl | rfl | rfl <;> rfl

end EndsOperand

theorem endsOperand_phrase (p : Phrase) (ends : p.endsLine) : EndsOperand p.print := by
  have paren : EndsOperand [.mark ")"] := .closing ")" (by simp)
  cases p with
  | name n =>
    refine .atom [] n (.inl rfl) fun eq => ?_
    cases eq
    cases ends
  | number s => exact .atom [] s (.inr (.inl rfl)) fun absurd => by cases absurd
  | string s => exact .atom [] s (.inr (.inr rfl)) fun absurd => by cases absurd
  | group _ => exact (paren.append _).cons _
  | sum _ _ => exact (((((paren.append _).cons _).cons _).cons _).append _).cons _
  | member v prop =>
    exact ((EndsOperand.atom [.mark ")", .mark "."] prop (.inl rfl)
      fun _ => ⟨[.mark ")"], rfl⟩).append _).cons _
  | call _ _ => exact ((paren.append _).cons _).cons _
  | apply _ _ => exact ((((paren.append _).cons _).cons _).append _).cons _
  | array _ => exact ((EndsOperand.closing "]" (by simp)).append _).cons _
  | wait _ => exact ((paren.append _).cons _).cons _
  | arrow head body =>
    cases body with
    | phrase _ => cases ends
    | function _ _ _ => cases ends
    | block body =>
      exact ((((EndsOperand.closing closeBrace (by simp)).append _).cons _).cons _).append _

theorem endsOperand_expr (v : Expr) (ends : v.endsLine) : EndsOperand v.print := by
  have brace : EndsOperand [.mark closeBrace] := .closing closeBrace (by simp)
  cases v with
  | phrase p => exact endsOperand_phrase p ends
  | object _ => exact (brace.append _).cons _
  | function _ _ _ => exact ((((brace.append _).cons _).append _).append _).cons _

/-! ## Beginnings -/

/-- The first tokens are walked with an effect, and the others as if they began the
text, on top of it. -/
def Begun (first snd : List Token) (ds : List Declared) (free : List String)
    (waits : Bool) : Prop :=
  ∃ base : Walk, base.Sound (first ++ snd) ∧ base.Below first.length ∧
    Effect root ({} : Walk).notes base.notes first.length ds free waits ∧
    Walk.runFrom (first ++ snd) 0 {} =
      (Walk.runFrom snd 0 {}).lift base first.length

section Beginnings

variable {first snd : List Token} {ks : List Key} {ds : List Declared} {free : List String} {waits : Bool}

/-- **Two beginnings with one effect are as good as each other.** -/
theorem Begun.analyze_eq {first' snd' : List Token} (begun : Begun first snd ds free waits)
    (begun' : Begun first' snd' ds free waits) (eq : snd'.map look = snd.map look) :
    analyze (first ++ snd) = analyze (first' ++ snd') := by
  obtain ⟨b, sound, below, effect, run⟩ := begun
  obtain ⟨b', sound', below', effect', run'⟩ := begun'
  have later := (Walk.Sound.initial snd).runFrom 0
  rw [Scope.analyze_eq, Scope.analyze_eq, run, run', runFrom_of_look eq]
  exact effect.analysis_lift effect' below below' sound sound' later

theorem awaitsColon_of_no_question {ts : List Token} (none : ∀ t ∈ ts, t.isPunct "?" = false) (d : Nat) :
    Walk.awaitsColon d ts = false := by
  induction ts generalizing d with
  | nil => rfl
  | cons t r ih =>
    have later := ih fun other mem => none other (.tail _ mem)
    unfold Walk.awaitsColon
    rw [none t mem_cons_self]
    cases d with
    | zero => simp [later]
    | succ d => simp [later]

theorem window_of_nests (written : first.map key = ks) (nests : Nests true ks)
    (ends : ∀ t, first.getLast? = some t → EndsBefore snd t) :
    Window snd (first ++ snd) first.length (fun _ => True) fun _ => False := by
  refine windowBehind snd ?_ ends fun d =>
    awaitsColon_of_no_question (fun t mem => ?_) d
  · have closed := openAt_of_nests nests (show Shows first 0 ks from shows_of_map written)
    rwa [Nat.zero_add, ← written, length_map, openAt_zero] at closed
  · refine Bool.eq_false_iff.2 fun question => nests.question_not_mem ?_
    rw [← written]
    exact mem_map.2 ⟨t, mem_reverse.1 mem, key_eq_mark.2 question⟩

theorem shows_first (written : first.map key = ks) (snd : List Token) : Shows (first ++ snd) 0 ks := by
  have all : Shows (first ++ snd) 0 (ks ++ snd.map key) :=
    shows_of_map (by rw [drop_zero, map_append, written])
  exact (shows_append.1 all).1

theorem begun_of_settled {b : Walk}
    (win : Window snd (first ++ snd) first.length (fun _ => True) fun _ => False) (settled : b.Settled)
    (sound : b.Sound (first ++ snd)) (apart : b.Apart (first ++ snd) first.length)
    (effect : Effect root ({} : Walk).notes b.notes first.length ds free waits)
    (run : Walk.runFrom (first ++ snd) 0 {} = b.runFrom (first ++ snd) first.length) :
    Begun first snd ds free waits := by
  have below : b.Below first.length := {
    scopes := sound.scopes
    bindings := fun binding mem => (sound.bindings binding mem).1
    uses := effect.uses_lt (fun _ absurd => by cases absurd) (Nat.zero_le _) }
  have later := Walk.runFrom_window win below apart 0 (.initial _) fun _ => rfl
  rw [settled.lift_initial sound.scopes, Nat.zero_add] at later
  exact ⟨b, sound, below, effect, run.trans later⟩

theorem prev?_length (first snd : List Token) :
    (ofList (first ++ snd)).prev? first.length = first.getLast? := by
  rw [getLast?_eq_getElem?, prev?]
  split
  · next empty =>
    rw [length_eq_zero_iff.1 empty]
    rfl
  · rw [get?_ofList, getElem?_append_left (by omega)]

theorem EndsOperand.token (ends : EndsOperand ks) (written : first.map Token.key = ks) (snd : List Token) :
    ∃ t, first.getLast? = some t ∧ t.endsOperand ∧
      (t.isIdent "async" → (ofList (first ++ snd)).prevHolds (first.length - 1) Token.selects) := by
  obtain ⟨pre, key, rfl, operand, async⟩ := ends.last
  obtain ⟨earlier, r, rfl, eq, one⟩ := map_eq_append_iff.1 written
  obtain ⟨t, rfl, isKey⟩ := map_eq_singleton_iff.1 one
  refine ⟨t, getLast?_concat, operand t isKey, fun isAsync => ?_⟩
  simp only [Token.isIdent, Bool.and_eq_true, beq_iff_eq] at isAsync
  have isName : key = .name "async" := by rw [← isKey, Token.key, isAsync.1, isAsync.2]; rfl
  obtain ⟨p, rfl⟩ := async isName
  obtain ⟨pre, r, rfl, _, dotted⟩ := map_eq_append_iff.1 eq
  obtain ⟨dot, rfl, isDot⟩ := map_eq_singleton_iff.1 dotted
  rw [length_append, length_singleton, Nat.add_sub_cancel, append_assoc,
    prevHolds, prev?_length, getLast?_concat, Option.any_some, Token.selects,
    key_eq_mark.1 isDot, Bool.true_or]

theorem begun_of_semicolon {stmt : Stmt} {semi : Token} (written : (first ++ [semi]).map key = stmt.print)
    (isSemicolon : semi.key = .mark ";") :
    Begun (first ++ [semi]) snd stmt.declares stmt.free stmt.waits := by
  have length : stmt.print.length = (first ++ [semi]).length := by
    rw [← written, length_map]
  obtain ⟨b, reaches, layout, lists, effect⟩ := walks_stmt stmt rfl (poised_initial _)
    inside_initial ⟨rfl, rfl⟩ (.inl rfl) (shows_first written snd)
  rw [length, Nat.zero_add] at reaches effect
  injection layout with here opens pending delimited
  refine begun_of_settled (window_of_nests written (nests_stmt stmt) fun t got => ?_)
    ⟨here, opens, pending, delimited, lists⟩ (reaches.sound (.initial _)) (fun async => ?_) effect
    reaches.runFrom
  · rw [getLast?_concat] at got
    cases got
    exact .inl (key_eq_mark.1 isSemicolon)
  · rw [prevHolds, prev?_length, getLast?_concat] at async
    simp [isIdent, (key_eq isSemicolon).1] at async

theorem runFrom_of_line {ts : List Token} {i : Nat} {w : Walk} {last : Declaration} (l : LineAt ts i)
    (operand : (ofList ts).prevHolds i endsOperand)
    (list : w.declarations = [last]) (depth : last.depth = w.depth) :
    w.runFrom ts i = ({ w with declarations := [] } : Walk).runFrom ts i := by
  obtain ⟨t, got, nl, word⟩ := l
  have here : (ofList ts).get? i = some t := by
    rw [get?_ofList, got]
  have ended : ∀ declarations ∈ [[last], []],
      ({ w with declarations := declarations } : Walk).endDeclarationAtLineBreak
        ts i t = { w with declarations := [] } := by
    intro declarations mem
    unfold Walk.endDeclarationAtLineBreak
    rw [if_pos ⟨nl, word, operand⟩]
    simp only [mem_cons, not_mem_nil, or_false] at mem
    rcases mem with rfl | rfl
    · exact if_pos depth
    · rfl
  have eq : w = { w with declarations := [last] } := by rw [← list]
  rw [Walk.runFrom_of_some _ here, Walk.runFrom_of_some _ here, eq]
  unfold Walk.step
  rw [ended [last] (by simp), ended [] (by simp)]

theorem begun_of_line {v : Expr} (ends : v.endsLine)
    (written : first.map key = .word "const" :: .name n :: .mark "=" :: v.print) (l : LineAt snd 0) :
    Begun first snd [⟨false, n⟩] v.free v.waits := by
  have length : 0 + 1 + 1 + 1 + v.print.length = first.length := by
    rw [← length_map key, written]
    simp only [length_cons]
    omega
  have shows := shows_first written snd
  obtain ⟨isKeyword, isName, ⟨equals, got, eq⟩, shown⟩ := shows
  have lineBehind : LineAt (first ++ snd) first.length := by
    obtain ⟨t, here, r⟩ := l
    exact ⟨t, by rw [getElem?_append_right (Nat.le_refl _), Nat.sub_self, here], r⟩
  obtain ⟨entered, reaches, poised, layout, lists, declared⟩ := reaches_declaration .const
    (poised_initial (first ++ snd)) inside_initial ⟨rfl, rfl⟩ (.inl rfl)
    ⟨isKeyword, isName, ⟨equals, got, eq⟩, trivial⟩
  obtain ⟨begins, isValue⟩ := begins_of_behind entered (eq ▸ behind_of_get? got)
    (by simp [beforeValue]) fun absurd => by simp [Key.mark] at absurd
  obtain ⟨w, reaches', layout', lists', effect⟩ := whole_of_endsLine v ends poised begins
    isValue shown (by rw [length]; exact lineBehind)
  have here : entered.here = root := by injection layout
  rw [here] at effect
  have whole := declared.trans effect (Nat.le_add_right _ _)
    (numbered_of_sound (poised_initial (first ++ snd)).sound)
  have reached := reaches.trans reaches'
  rw [length] at whole reached
  injection layout'.trans layout with here opens pending delimited
  obtain ⟨t, last, operand, async⟩ := (((endsOperand_expr v ends).cons _).cons _).cons _ |>.token written snd
  have front := prev?_length first snd
  rw [last] at front
  -- the word behind the line break ends the declaration
  have run := runFrom_of_line lineBehind (by rw [prevHolds_of_prev? front, operand])
    (lists'.trans lists) (congrArg List.length opens).symm
  have grown := reached.grown (Walk.Sound.initial _).grown
  have settled : ({ w with declarations := [] } : Walk).Settled := ⟨here, opens, pending, delimited, rfl⟩
  have nests : Nests true (.word "const" :: .name n :: .mark "=" :: v.print) :=
    .word _ (.name _ (.mark (by decide) (nests_expr v).withCommas))
  refine begun_of_settled (window_of_nests written nests fun t' got => ?_) settled
    { grown.toSound with declarations := fun _ absurd => by cases absurd } (fun isAsync use mem => ?_)
    whole (reached.runFrom.trans run)
  · rw [last] at got
    cases got
    obtain ⟨next, here, nl, word⟩ := l
    exact .inr ⟨operand, next, by rw [get?_ofList, here], nl, word⟩
  · -- a property is no use
    rw [prevHolds_of_prev? front] at isAsync
    have inside := whole.uses_lt (fun _ absurd => by cases absurd) (Nat.zero_le _) use mem
    rcases grown.unselected use mem with absurd | other
    · cases absurd
    · have : use.token ≠ first.length - 1 := by
        rintro eq
        rw [eq, async isAsync] at other
        cases other
      omega

end Beginnings

/-- **A line break ends a declaration as a semicolon does**, in front of an identifier or
a keyword, unless the value is an arrow that ends in an expression or the name `async`. -/
theorem analyze_lineBreak (name : String) (value : Expr) (ends : value.endsLine = true)
    (declaration rest rest' : List Token) (semicolon : Token)
    (written : declaration.map Token.key =
      .word "const" :: .name name :: .mark "=" :: value.print)
    (isSemicolon : semicolon.key = .mark ";")
    (line : ∃ first, rest.head? = some first ∧ first.newlineBefore = true ∧
      (first.kind = .ident ∨ first.kind = .keyword))
    (same : rest'.map Token.look = rest.map Token.look) :
    analyze (declaration ++ rest) = analyze (declaration ++ semicolon :: rest') := by
  obtain ⟨first, head, isLine⟩ := line
  have stmt : (declaration ++ [semicolon]).map Token.key =
      (Stmt.declare .const name value).print := by
    rw [List.map_append, written, List.map_singleton, isSemicolon]
    rfl
  have broken : Begun declaration rest [⟨false, name⟩] value.free value.waits :=
    begun_of_line ends written ⟨first, by rw [← List.head?_eq_getElem?, head], isLine⟩
  have ended : Begun (declaration ++ [semicolon]) rest' [⟨false, name⟩] value.free value.waits :=
    begun_of_semicolon stmt isSemicolon
  rw [broken.analyze_eq ended same, List.append_assoc, List.singleton_append]

/-- `const f = (p).async` in front of a line with `x => y`: the arrow is another
statement, and no async one. -/
theorem analyze_property_lineBreak :
    analyze (tokensOf [.word "const", .name "f", .mark "=", .mark "(", .name "p", .mark ")",
        .mark ".", .name "async"] ++
          ⟨.ident, "x", 0, 0, true⟩ :: tokensOf [.mark "=>", .name "y"]) =
      ⟨["f"], ["p", "y"], false, false⟩ :=
  (analyze_lineBreak "f" (.phrase (.member (.phrase (.name "p")) "async")) rfl _ _
    (⟨.ident, "x", 0, 0, true⟩ :: tokensOf [.mark "=>", .name "y"]) ⟨.punct, ";", 0, 0, false⟩ rfl
    rfl ⟨_, rfl, rfl, .inl rfl⟩ rfl).trans (by decide +kernel)

/-- `const f = x => x` in front of a line with `x;` keeps the `x` of the next line in the
arrow; with a semicolon it does not. -/
theorem analyze_arrow_lineBreak :
    analyze (tokensOf [.word "const", .name "f", .mark "=", .name "x", .mark "=>", .name "x"] ++
        ⟨.ident, "x", 0, 0, true⟩ :: tokensOf [.mark ";"]) = ⟨["f"], [], false, false⟩ ∧
      analyze (tokensOf [.word "const", .name "f", .mark "=", .name "x", .mark "=>", .name "x",
        .mark ";"] ++ ⟨.ident, "x", 0, 0, true⟩ :: tokensOf [.mark ";"]) =
          ⟨["f"], ["x"], false, false⟩ := by
  decide +kernel

end Scope

end Bindery
