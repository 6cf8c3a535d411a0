/-
Proofs.Scope.Function -- how functions, arrows and objects are walked

A block has a scope of its own: a new one for a bare block, or one that was announced
with the names of parameters in it.  The parameters of an arrow are read before the
walk knows that they are parameters; they are noted as uses, and the arrow takes these
back.
-/
import Bindery.Proofs.Scope.Phrase

namespace Bindery

open List TokenSeq Token Program Nat Option

namespace Scope

open Walk hiding punctAt

/-! ## Blocks and functions -/

variable {fst : Nat} {n : Option String} {params : List String} {t : Token} {key : Key}
  {r : List Key} {s : String}

section Blocks

variable {inHeader : Bool} {ts : List Token} {i stop : Nat} {start p : Walk}
  {ks : List Key} {ds : List Declared} {free : List String} {waits : Bool}

section

variable (b : WalksBlock ts ks ds free waits)
include b

theorem WalksBlock.braced (start : Walk) (s restore : Chain)
    (shows : Shows ts i (.mark openBrace :: (ks ++ [.mark closeBrace])))
    (opens : ∀ t, t.key = .mark openBrace →
      p.step ts i t = ((start.goTo s).push (.brace .block (some restore)), i + 1))
    (sound : p.Sound ts) (quiet : start.pending = none)
    (uses : ∀ use ∈ start.uses, use.token < i)
    (delimited : ∀ s ∈ start.delimited, s.depth ≤ start.depth)
    (declarations : ∀ declaration ∈ start.declarations, declaration.depth ≤ start.depth) :
    ∃ last, Reaches ts i p (i + 1 + ks.length + 1) last ∧
      last.layout = ⟨restore, start.opens, none, start.delimited⟩ ∧
      last.declarations = start.declarations ∧
      Effect s start.notes last.notes (i + 1 + ks.length + 1) ds free waits := by
  obtain ⟨⟨t, got, eq⟩, r⟩ := shows
  obtain ⟨shown, ⟨closing, got', eq'⟩, _⟩ := shows_append.1 r
  have entered := Reaches.one got (opens t eq)
  have poised : Poised ts (i + 1) ((start.goTo s).push (.brace .block (some restore))) :=
    ⟨entered.sound sound, quiet, fun use mem => lt_succ_of_lt (uses use mem),
      fun s mem => le_succ_of_le (delimited s mem),
      fun declaration mem => le_succ_of_le (declarations declaration mem), rfl⟩
  have inside : Inside ((start.goTo s).push (.brace .block (some restore))) :=
    ⟨fun s mem => lt_succ_of_le (delimited s mem),
      fun declaration mem => lt_succ_of_le (declarations declaration mem)⟩
  obtain ⟨w, reaches, layout, lists, effect⟩ := b rfl poised inside ⟨rfl, rfl⟩
    (.inr ⟨_, by simp, eq ▸ behind_of_get? got⟩) shown
  have rests := Rests.of_layout layout lists quiet
  have closed := rests.close (.brace .block (some restore)) start.opens rfl
    delimited declarations got' eq' (by decide)
  refine ⟨_, entered.trans (reaches.trans closed), ?_, lists, effect.mono (le_succ _)⟩
  show Layout.mk restore start.opens w.pending start.delimited = _
  rw [rests.quiet]

theorem WalksBlock.bare (poised : Steady inHeader ts i start)
    (shows : Shows ts i (.mark openBrace :: (ks ++ [.mark closeBrace]))) (stmt : isObjectBrace ts i = false) :
    Whole ts start i (i + 1 + ks.length + 1) (hoisted ds) (without (lexical ds) free) waits := by
  obtain ⟨last, reaches, layout, lists, effect⟩ := b.braced start.newScope
    (⟨start.scopes, false⟩ :: start.here) start.here shows
    (fun t eq => by
      rw [step_of_openBrace eq]
      unfold openBraceAt
      rw [poised.quiet]
      dsimp only
      rw [stmt, if_neg Bool.false_ne_true]
      rfl)
    poised.sound poised.quiet poised.uses poised.delimited poised.lists
  refine ⟨last, reaches, ?_, lists, Effect.ofScope false [] poised.sound rfl effect⟩
  rw [layout]
  show _ = Layout.mk _ _ start.pending _
  rw [poised.quiet]
  rfl

theorem WalksBlock.announced (isFunction : Bool) {ns : List String} (poised : Steady inHeader ts i start)
    (head : Reaches ts fst p i ((start.newScope.declareAll
      (⟨start.scopes, isFunction⟩ :: start.here) ns).announce
        ⟨⟨start.scopes, isFunction⟩ :: start.here, start.here, .block⟩))
    (sound : p.Sound ts)
    (shows : Shows ts i (.mark openBrace :: (ks ++ [.mark closeBrace]))) :
    ∃ last, Reaches ts fst p (i + 1 + ks.length + 1) last ∧
      last.layout = start.layout ∧ last.declarations = start.declarations ∧
      Effect start.here start.notes last.notes (i + 1 + ks.length + 1) (if isFunction then [] else hoisted ds)
        (without (ns ++ if isFunction then ds.map (·.name) else lexical ds) free)
        (!isFunction && waits) := by
  obtain ⟨bs, unchanged⟩ := declareAll_eq (⟨start.scopes, isFunction⟩ :: start.here) ns start.newScope
  obtain ⟨last, reaches, layout, lists, effect⟩ := b.braced
    (start.newScope.declareAll (⟨start.scopes, isFunction⟩ :: start.here) ns)
    (⟨start.scopes, isFunction⟩ :: start.here) start.here shows
    (fun t eq => by
      rw [step_of_openBrace eq]
      unfold openBraceAt announce
      dsimp only
      rw [unchanged]
      show (push _ (goTo _ { start.newScope with
        bindings := bs, pending := none }), _) = (push _ (goTo _ { start.newScope with bindings := bs }), _)
      rw [← poised.quiet]
      rfl)
    (head.sound sound) (by rw [unchanged]; exact poised.quiet)
    (by rw [unchanged]; exact poised.uses) (by rw [unchanged]; exact poised.delimited)
    (by rw [unchanged]; exact poised.lists)
  refine ⟨last, head.trans reaches, ?_, ?_, Effect.ofScope isFunction ns poised.sound rfl effect⟩
  · rw [layout, unchanged]
    show _ = Layout.mk _ _ start.pending _
    rw [poised.quiet]
    rfl
  · rw [lists, unchanged]
    rfl

end

theorem functionAt_of_paren (shows : Shows ts (i + 1) [.mark "("]) (w : Walk) :
    w.functionAt (ofList ts) i =
      w.newScope.functionTail (ofList ts) (i + 1) (⟨w.scopes, true⟩ :: w.here) := by
  have none : (ofList ts).ident? (i + 1) = none := by
    obtain ⟨⟨t, got, eq⟩, _⟩ := shows
    rw [ident?, get?_ofList, got]
    simp [(key_eq eq).1]
  unfold functionAt
  rw [punctAt_of_shows shows, if_neg (by decide)]
  dsimp only
  rw [none]
  rfl

/-- The names that the head of a function declares: its own, in one scope, and its
parameters, in another. -/
theorem functionAt_of_shows (shows : Shows ts (i + 1) ((n.map Key.name).toList ++
      (printParameters params ++ [.mark openBrace]))) (w : Walk) :
    w.functionAt (ofList ts) i =
      (((w.newScope.declareAll
          (if isFunctionStatement (ofList ts) i then w.here
            else ⟨w.scopes, true⟩ :: w.here) n.toList).declareAll
          (⟨w.scopes, true⟩ :: w.here) params).announce
        ⟨⟨w.scopes, true⟩ :: w.here, w.here, .block⟩,
        i + 1 + n.toList.length + (printParameters params).length) := by
  cases n with
  | none =>
    rw [functionAt_of_paren ⟨shows.1, trivial⟩]
    exact functionTail_of_shows shows _ _
  | some n =>
    have notStar := not_punctAt (s := "*") ⟨shows.1, trivial⟩ (by simp [Key.name, Key.mark])
    obtain ⟨⟨t, got, eq⟩, r⟩ := shows
    unfold functionAt
    rw [notStar, if_neg Bool.false_ne_true]
    dsimp only
    have some : (ofList ts).ident? (i + 1) = some t := by
      rw [ident?, get?_ofList, got]
      simp [(key_eq eq).1]
    rw [some]
    dsimp only
    rw [functionTail_of_shows r, (key_eq eq).2]
    obtain ⟨bs, unchanged⟩ := declare_eq
      (if isFunctionStatement (ofList ts) i then w.here
        else ⟨w.scopes, true⟩ :: w.here) n w.newScope
    have here : (w.newScope.declare (if isFunctionStatement (ofList ts) i
        then w.here else ⟨w.scopes, true⟩ :: w.here) n).here = w.here := by
      rw [unchanged]
      rfl
    rw [freshScope, here]
    rfl

theorem step_of_function {w : Walk} (eq : t.key = .word "function")
    (calm : w.endDeclarationAtLineBreak ts i t = w) : w.step ts i t = w.functionAt ts i := by
  rw [step_of_word eq calm]
  unfold keywordAt
  rw [(key_eq eq).2]
  rfl

theorem shows_function (shows : Shows ts i (printFunction n params ks)) :
    (∃ t, ts[i]? = some t ∧ t.key = .word "function") ∧
      Shows ts (i + 1) ((n.map Key.name).toList ++ (printParameters params ++ [.mark openBrace])) ∧
      Shows ts (i + 1 + n.toList.length + (printParameters params).length)
        (.mark openBrace :: (ks ++ [.mark closeBrace])) := by
  obtain ⟨fst, r⟩ := shows
  obtain ⟨own, tl⟩ := shows_append.1 r
  obtain ⟨head, body⟩ := shows_append.1 tl
  have length : (n.map Key.name).toList.length = n.toList.length := by cases n <;> rfl
  refine ⟨fst, shows_append.2 ⟨own, shows_append.2 ⟨head, body.1, trivial⟩⟩, ?_⟩
  rw [← length]
  exact body

theorem length_printFunction (n : Option String) (params : List String) (ks : List Key) :
    (printFunction n params ks).length =
      1 + n.toList.length + (printParameters params).length + 1 + ks.length + 1 := by
  have length : (n.map Key.name).toList.length = n.toList.length := by cases n <;> rfl
  simp only [printFunction, length_cons, length_append, length_nil, length]
  omega

theorem closedValue_function (n : Option String) (params : List String) (b : WalksBlock ts ks ds free waits) :
    ClosedValueIn inHeader ts (printFunction n params ks)
      (without (n.toList ++ params ++ ds.map (·.name)) free) false := by
  intro i stop w length poised begins isValue shows
  obtain ⟨⟨t, got, eq⟩, head, body⟩ := shows_function shows
  have step := (step_of_function eq (begins.calm t)).trans (functionAt_of_shows head w)
  rw [isValue.expression, if_neg Bool.false_ne_true, declareAll, declareAll, ← foldl_append] at step
  have whole := b.announced true (poised.mono (by omega)) (.one got step) poised.sound body
  rw [length_printFunction] at length
  obtain rfl : stop = i + 1 + n.toList.length + (printParameters params).length + 1 +
      ks.length + 1 := by omega
  exact whole

end Blocks

/-! ## Arrows -/

section Arrows

variable {inHeader : Bool} {ts : List Token} {i stop : Nat} {start : Walk} {ks : List Key}
  {ds : List Declared} {free : List String} {waits : Bool}

theorem Steady.refer (poised : Steady inHeader ts i start) (got : ts[i]? = some t) {n : String}
    (step : start.step ts i t = (start.refer n start.here i, i + 1)) :
    Steady inHeader ts (i + 1) (start.refer n start.here i) :=
  poised.later (le_succ _) (.one got step) rfl rfl (.refer start.here start n (lt_succ_self _) poised.uses)

theorem mark_of_more (ns : List String)
    (shows : Shows ts i (printMore ns ++ [.mark ")"])) :
    ∃ s, Shows ts i [.mark s] ∧ (s == ":") = false := by
  cases ns with
  | nil => exact ⟨")", shows, by decide⟩
  | cons n r => exact ⟨",", ⟨shows.1, trivial⟩, by decide⟩

theorem reaches_more (ns : List String) (poised : Poised ts i start)
    (inside : Inside start) (object : start.inBrace .object = false)
    (shows : Shows ts i (printMore ns ++ [.mark ")"])) :
    ∃ new, Reaches ts i start (i + (printMore ns).length)
        { start with uses := new ++ start.uses } ∧ ∀ use ∈ new, i ≤ use.token := by
  induction ns generalizing i start with
  | nil => exact ⟨[], .refl _ _, (fun _ mem => nomatch mem)⟩
  | cons n r ih =>
    obtain ⟨⟨comma, got, eq⟩, ⟨t, got', eq'⟩, tl⟩ := shows
    have passed := (Rests.refl poised.quiet).comma inside got eq
    obtain ⟨begins, _⟩ := begins_of_behind start (eq ▸ behind_of_get? got)
      (by simp [beforeValue]) fun _ => object
    obtain ⟨s, next, other⟩ := mark_of_more r tl
    have poised' := poised.mono (le_succ i)
    have used := step_of_heard poised' begins eq' next other
    obtain ⟨new, reaches, later⟩ := ih (poised'.refer got' used)
      ⟨inside.delimited, inside.declarations⟩ object tl
    refine ⟨new ++ [⟨n, start.here, i + 1⟩], ?_, fun use mem => ?_⟩
    · have length : i + 1 + 1 + (printMore r).length =
          i + (printMore (n :: r)).length := by
        simp only [printMore, length_cons]
        omega
      rw [append_assoc, ← length]
      exact passed.trans ((Reaches.one got' used).trans reaches)
    · rcases mem_append.1 mem with mem | mem
      · have := later use mem
        omega
      · rw [mem_singleton.1 mem]
        exact le_succ i

theorem reaches_parameters (ns : List String) (poised : Steady inHeader ts i start)
    (shows : Shows ts i (printParameters ns)) :
    ∃ new, Reaches ts i start (i + (printParameters ns).length)
        { start with uses := new ++ start.uses } ∧ ∀ use ∈ new, i ≤ use.token := by
  obtain ⟨⟨opening, got, eq⟩, r⟩ := shows
  obtain ⟨_, ⟨closing, got', eq'⟩, _⟩ := shows_append.1 r
  have opens := step_of_open eq (.inl ⟨rfl, rfl⟩) start ts i
  obtain ⟨poised', inside⟩ := poised.push got opens rfl
  have inner : ∃ new, Reaches ts (i + 1) (start.push .paren)
      (i + 1 + (printNames ns).length)
        { start.push .paren with uses := new ++ start.uses } ∧ ∀ use ∈ new, i ≤ use.token := by
    cases ns with
    | nil => exact ⟨[], .refl _ _, (fun _ mem => nomatch mem)⟩
    | cons n tl =>
      obtain ⟨⟨t, foundName, sameName⟩, os⟩ := r
      obtain ⟨begins, _⟩ := begins_of_behind (start.push .paren) (eq ▸ behind_of_get? got)
        (by simp [beforeValue]) fun _ => rfl
      obtain ⟨s, next, other⟩ := mark_of_more tl os
      have used := step_of_heard poised' begins sameName next other
      obtain ⟨new, reaches, later⟩ := reaches_more tl (poised'.refer foundName used)
        ⟨inside.delimited, inside.declarations⟩ rfl os
      refine ⟨new ++ [⟨n, start.here, i + 1⟩], ?_, fun use mem => ?_⟩
      · have length : i + 1 + 1 + (printMore tl).length =
            i + 1 + (printNames (n :: tl)).length := by
          simp only [printNames, length_cons]
          omega
        rw [append_assoc, ← length]
        exact (Reaches.one foundName used).trans reaches
      · rcases mem_append.1 mem with mem | mem
        · have := later use mem
          omega
        · rw [mem_singleton.1 mem]
          exact le_succ i
  obtain ⟨new, reaches, later⟩ := inner
  have rests : Rests (start.push .paren) { start.push .paren with uses := new ++ start.uses } :=
    .of_layout rfl rfl poised.quiet
  have closed := rests.close .paren start.opens rfl poised.delimited poised.lists got' eq' (by decide)
  have length : i + 1 + (printNames ns).length + 1 =
      i + (printParameters ns).length := by
    simp only [printParameters, length_cons, length_append, length_nil]
    omega
  exact ⟨new, length ▸ (Reaches.one got opens).trans (reaches.trans closed), later⟩

theorem hear_eq (inHeader : Bool) (n : String) (i : Nat) (w : Walk) :
    ∃ new, w.hear inHeader n i = { w with uses := new ++ w.uses } ∧ ∀ use ∈ new, use.token = i := by
  unfold hear
  cases inHeader && n == "of" with
  | true => exact ⟨[], rfl, nofun⟩
  | false =>
    exact ⟨[⟨n, w.here, i⟩], rfl, fun use mem => by rw [mem_singleton.1 mem]⟩

theorem arrowHead?_of_closes {o c : Nat} (closes : Closes ts o c) (shows : Shows ts c [.mark ")"]) :
    arrowHead? (ofList ts) (c + 1) = some (o, some (o, c)) := by
  obtain ⟨⟨closing, got, eq⟩, _⟩ := shows
  obtain ⟨p, behind, isPrev⟩ := behind_of_get? got
  have kind : p.kind = .punct := (key_eq (isPrev.trans eq)).1
  rw [arrowHead?, behind]
  dsimp only
  rw [if_neg (by rw [kind]; decide), if_pos (key_eq_mark.1 (isPrev.trans eq)),
    Nat.add_sub_cancel, opener?_ofList.2 closes]
  rfl

section

variable (head : Head) (poised : Steady inHeader ts i start) (begins : Begins ts i start)
  (shows : Shows ts i (head.print ++ [.mark "=>"]))
include head poised begins shows

theorem reaches_head :
    ∃ new params, Reaches ts i start (i + head.print.length)
        { start with uses := new ++ start.uses } ∧ (∀ use ∈ new, i ≤ use.token) ∧
      arrowHead? (ofList ts) (i + head.print.length) = some (i, params) ∧
      ∀ (s : Chain) (w : Walk), w.bindArrow (ofList ts) s i params = w.declareAll s head.names := by
  obtain ⟨pre, arrow, _⟩ := shows_append.1 shows
  cases head with
  | one n =>
    obtain ⟨⟨t, got, eq⟩, _⟩ := pre
    obtain ⟨new, heard, own⟩ := hear_eq inHeader n i start
    have step := step_of_heard poised begins eq
      (show Shows ts (i + 1) [.mark "=>"] from ⟨arrow, trivial⟩) (by decide)
    rw [heard] at step
    refine ⟨new, none, .one got step, fun use mem => ?_, ?_, fun s w => ?_⟩
    · exact Nat.le_of_eq (own use mem).symm
    · obtain ⟨p, behind, isPrev⟩ := behind_of_get? got
      show arrowHead? _ (i + 1) = _
      rw [arrowHead?, behind]
      dsimp only
      rw [if_pos ((key_eq isPrev).1.trans (key_eq eq).1), Nat.add_sub_cancel]
    · rw [bindArrow, get?_ofList, got, elim_some, (key_eq eq).2]
      rfl
  | many ns =>
    obtain ⟨new, reaches, later⟩ := reaches_parameters ns poised pre
    have closes := closes_printParameters pre
    have length : i + (printParameters ns).length =
        i + 1 + (printNames ns).length + 1 := by
      simp only [printParameters, length_cons, length_append, length_nil]
      omega
    refine ⟨new, some (i, i + 1 + (printNames ns).length), reaches, later, ?_,
      fun s w => bindParameters_of_shows pre s w⟩
    show arrowHead? _ (i + (printParameters ns).length) = _
    rw [length]
    exact arrowHead?_of_closes closes (shows_append.1 pre.2).2

/-- The head of an arrow and the arrow itself: the parameters are no uses any more,
and they are declared in the scope of the body. -/
theorem reaches_arrow :
    Reaches ts i start (i + head.print.length + 1)
      ((start.newScope.declareAll (⟨start.scopes, true⟩ :: start.here) head.names).enterArrowBody
        ts (i + head.print.length + 1) (⟨start.scopes, true⟩ :: start.here)) := by
  obtain ⟨new, params, reaches, later, got, bind⟩ := reaches_head head poised begins shows
  obtain ⟨_, ⟨arrow, foundArrow, eq⟩, _⟩ := shows_append.1 shows
  refine reaches.trans (.one foundArrow ?_)
  rw [step_of_arrow eq, arrowAt, got]
  dsimp only
  have fst : arrowStart ts i = i := by
    rw [arrowStart, begins.async, if_neg Bool.false_ne_true]
  have forgotten : ({ start with uses := new ++ start.uses } : Walk).takeBack i = start := by
    have dropped : new.filter (decide <| ·.token < i) = [] :=
      filter_eq_nil_iff.2 fun use mem => by simpa using later use mem
    have kept : start.uses.filter (decide <| ·.token < i) = start.uses :=
      filter_eq_self.2 fun use mem => by simpa using poised.uses use mem
    show ({ start with uses := _ } : Walk) = start
    rw [filter_append, dropped, kept, nil_append]
  rw [fst, forgotten, bind]
  rfl

end

theorem closedPhrase_arrowBlock (head : Head) (b : WalksBlock ts ks ds free waits) :
    ClosedPhraseIn inHeader ts (head.print ++ (.mark "=>" :: .mark openBrace :: (ks ++
      [.mark closeBrace]))) (without (head.names ++ ds.map (·.name)) free) false := by
  intro i stop w length poised begins shows
  obtain ⟨pre, arrow, body⟩ := shows_append.1 shows
  have reaches := reaches_arrow head poised begins (shows_append.2 ⟨pre, arrow, trivial⟩)
  have brace : (ofList ts).punctAt (i + head.print.length + 1) openBrace :=
    punctAt_of_shows ⟨body.1, trivial⟩ _
  obtain ⟨bs, unchanged⟩ := declareAll_eq (⟨w.scopes, true⟩ :: w.here) head.names w.newScope
  have here : (w.newScope.declareAll (⟨w.scopes, true⟩ :: w.here) head.names).here =
      w.here := by
    rw [unchanged]
    rfl
  rw [enterArrowBody, if_pos brace, here] at reaches
  have whole := b.announced true (poised.mono (by omega)) reaches poised.sound body
  obtain rfl : stop = i + head.print.length + 1 + 1 + ks.length + 1 := by
    rw [length]
    simp only [length_cons, length_append, length_nil]
    omega
  exact whole

/-- The body of an arrow, if it is a value: its scope stays open behind it.  Here `inner`
is the walk in which the scope has been made and the parameters have been read. -/
theorem WalksValueIn.arrowBody {p inner : Walk} (body : WalksValueIn inHeader ts (key :: r) free waits)
    (other : key ≠ .mark openBrace) (poised : Steady inHeader ts i start)
    (layout : inner.layout = start.layout) (lists : inner.declarations = start.declarations)
    (uses : ∀ use ∈ inner.uses, use.token < i) (sound : p.Sound (ofList ts))
    (reaches : Reaches ts fst p i (inner.enterArrowBody (ofList ts) i (⟨start.scopes, true⟩ :: start.here)))
    (arrow : Behind ts i (.mark "=>")) (shows : Shows ts i (key :: r)) (length : stop = i + (key :: r).length)
    (stops : Stops ts stop) :
    ∃ last, Reaches ts fst p stop last ∧ Rests start last ∧
      Effect (⟨start.scopes, true⟩ :: start.here) inner.notes last.notes stop [] free waits := by
  have noBrace := not_punctAt ⟨shows.1, trivial⟩ other
  rw [enterArrowBody, noBrace, if_neg Bool.false_ne_true] at reaches
  injection layout with here opens pending delimited
  have depth : inner.depth = start.depth := congrArg List.length opens
  rw [here] at reaches
  generalize isEntered : goTo (⟨start.scopes, true⟩ :: start.here)
    (inner.delimit start.here true) = entered at reaches
  have delimited' : entered.delimited = ⟨start.depth, start.here, true⟩ :: start.delimited := by
    rw [← isEntered, ← depth, ← delimited]
    rfl
  have opens' : entered.opens = start.opens := by rw [← isEntered, ← opens]; rfl
  have lists' : entered.declarations = start.declarations := by rw [← isEntered, ← lists]; rfl
  have depth' : entered.depth = start.depth := congrArg List.length opens'
  have poised' : Steady inHeader ts i entered := by
    refine ⟨reaches.sound sound, ?_, ?_, ?_, ?_, ?_⟩
    · rw [← isEntered]
      exact pending.trans poised.quiet
    · rw [← isEntered]
      exact uses
    · rw [delimited', depth']
      exact forall_mem_cons.2 ⟨Nat.le_refl _, poised.delimited⟩
    · rw [lists', depth']
      exact poised.declarations
    · rw [inForHeader, opens']
      exact poised.header
  obtain ⟨begins, isValue⟩ := begins_of_behind entered arrow (by simp [beforeValue])
    fun absurd => by simp [Key.mark] at absurd
  obtain ⟨last, reaches', rests, effect⟩ := body length poised' begins isValue shows stops
  refine ⟨last, reaches.trans reaches', ⟨rests.opens.trans opens', rests.quiet,
    rests.declarations.trans lists', ?_⟩, by rw [← isEntered] at effect; exact effect⟩
  obtain ⟨extra, left, own, _⟩ := rests.extra
  rw [depth'] at own
  refine ⟨extra ++ [⟨start.depth, start.here, true⟩], ?_, fun s mem => ?_, ?_⟩
  · rw [left, delimited', append_assoc]
    rfl
  · rcases mem_append.1 mem with mem | mem
    · exact own s mem
    · rw [mem_singleton.1 mem]
      exact ⟨rfl, rfl⟩
  · rw [getLast?_concat]
    rfl

theorem walksPhrase_arrowValue (head : Head)
    (body : WalksValueIn inHeader ts (key :: r) free waits) (other : key ≠ .mark openBrace) :
    WalksPhraseIn inHeader ts (head.print ++ (.mark "=>" :: key :: r))
      (without (head.names ++ []) free) false := by
  intro i stop w length poised begins shows stops
  obtain ⟨pre, arrow, shown⟩ := shows_append.1 shows
  have reaches := reaches_arrow head poised begins (shows_append.2 ⟨pre, arrow, trivial⟩)
  obtain ⟨bs, unchanged⟩ := declareAll_eq (⟨w.scopes, true⟩ :: w.here) head.names w.newScope
  have poised' := poised.mono (show i ≤ i + head.print.length + 1 by omega)
  obtain ⟨last, reaches', rests, effect⟩ := body.arrowBody other poised' (by rw [unchanged]; rfl)
    (by rw [unchanged]; rfl) (by rw [unchanged]; exact poised'.uses) poised.sound reaches
    (by obtain ⟨t, got, eq⟩ := arrow; exact eq ▸ behind_of_get? got) shown
    (show stop = i + head.print.length + 1 + (key :: r).length by
      rw [length]
      simp only [length_cons, length_append]
      omega) stops
  exact ⟨last, reaches', rests, Effect.ofScope true head.names poised.sound rfl effect⟩

end Arrows

/-! ## Objects -/

section Objects

variable {inHeader : Bool} {ts : List Token} {i stop : Nat} {start : Walk} {ks : List Key}
  {ds : List Declared} {free : List String} {waits : Bool}

theorem step_of_entry (inside : Inside start) (kind : start.inBrace .object)
    (behind : ∃ key ∈ beforeItem true, Behind ts i key) {n : String} (eq : t.key = .name n) :
    start.step ts i t = start.memberAt ts i t := by
  obtain ⟨key, mem, p, got, rfl⟩ := behind
  rw [step_of_name eq (inside.calm _ _ _)]
  unfold identAt
  have front : p.selects = false ∧ (p.isPunct openBrace || p.isPunct ",") := by
    simp only [beforeItem, if_true, mem_cons, not_mem_nil, or_false] at mem
    rcases mem with here | here
    all_goals
      obtain ⟨kind, s⟩ := key_eq here
      simp [selects, isPunct, kind, s, openBrace]
  have position : start.inMemberPosition ts i := by
    rw [inMemberPosition, got]
    dsimp only
    rw [kind, if_pos rfl, front.2, Bool.true_or, Bool.true_or]
  rw [prevHolds_of_prev? got, front.1, if_neg Bool.false_ne_true, if_pos position]

theorem not_modifier (next : Shows ts (i + 1) [.mark s])
    (other : ["[", "*", openBrace].contains s = false) :
    isModifier (ofList ts) i = false := by
  obtain ⟨⟨follower, got, eq⟩, _⟩ := next
  simp only [contains_cons, Bool.or_eq_false_iff, beq_eq_false_iff_ne] at other
  have there : (ofList ts).get? (i + 1) = some follower := by
    rw [get?_ofList, got]
  unfold isModifier holds
  rw [there, any_some,
    isPunct_of_isPunct (key_eq_mark.1 eq), isPunct_of_isPunct (key_eq_mark.1 eq),
    isPunct_of_isPunct (key_eq_mark.1 eq)]
  simp [isNameLike, (key_eq eq).1, other]

theorem walksEntry_pair (key : EntryKey) (v : WalksValue ts ks free waits) :
    WalksItems ts true (key.key :: .mark ":" :: ks) free waits := by
  intro i stop start length poised inside kind behind shows stops
  obtain ⟨⟨t, got, eq⟩, colon, shown⟩ := shows
  have next : Shows ts (i + 1) [.mark ":"] := ⟨colon, trivial⟩
  have skipped : start.step (ofList ts) i t = (start, i + 1) := by
    cases key with
    | name s =>
      have all : ((ofList ts).get? (i + 1)).all (fun next =>
          next.isPunct "," || next.isPunct closeBrace || next.isPunct "=") = false := by
        obtain ⟨follower, foundNext, sameNext⟩ := colon
        rw [get?_ofList, foundNext, all_some,
          isPunct_of_isPunct (key_eq_mark.1 sameNext),
          isPunct_of_isPunct (key_eq_mark.1 sameNext),
          isPunct_of_isPunct (key_eq_mark.1 sameNext)]
        decide
      rw [step_of_entry inside kind behind eq, memberAt, not_modifier next (by decide),
        punctAt_of_shows next, all]
      simp
    | string s => exact step_of_literal start _ i (.inr (key_eq eq).1)
    | number s => exact step_of_literal start _ i (.inl (key_eq eq).1)
  obtain ⟨mark, foundMark, sameMark⟩ := colon
  have fst := (Whole.skip got skipped).andThen poised fun w _ _ _ =>
    Whole.skip foundMark (step_of_mark sameMark (by decide) w (ofList ts) (i + 1))
  refine fst.andDone poised fun w poised' _ _ => ?_
  obtain ⟨begins, isValue⟩ := begins_of_behind w (sameMark ▸ behind_of_get? foundMark)
    (by simp [beforeValue]) fun absurd => by simp [Key.mark] at absurd
  refine v ?_ poised' begins isValue shown stops.stops
  rw [length, length_cons, length_cons]
  omega

theorem walksEntry_short (n : String) : WalksItems ts true [.name n] [n] false := by
  intro i stop start length poised inside kind behind shows stops
  obtain ⟨⟨t, got, eq⟩, _⟩ := shows
  obtain rfl : stop = i + 1 := length
  obtain ⟨key, mem, next⟩ := stops
  simp only [if_true, mem_cons, not_mem_nil, or_false] at mem
  have step : start.step (ofList ts) i t =
      (start.refer n start.here i, i + 1) := by
    rw [step_of_entry inside kind behind eq, memberAt]
    rcases mem with rfl | rfl
    all_goals
      rw [not_modifier next (by decide), punctAt_of_shows next]
      obtain ⟨⟨follower, foundNext, sameNext⟩, _⟩ := next
      rw [get?_ofList, foundNext, Option.all_some,
        isPunct_of_isPunct (key_eq_mark.1 sameNext),
        isPunct_of_isPunct (key_eq_mark.1 sameNext), kind, (key_eq eq).1, (key_eq eq).2]
      simp [closeBrace]
  exact ⟨_, .one got step, .of_layout rfl rfl poised.quiet, .refer _ _ _ (Nat.lt_succ_self _) poised.uses⟩

theorem walksEntry_method (n : String) (params : List String) (b : WalksBlock ts ks ds free waits) :
    WalksItems ts true (.name n :: (printParameters params ++
      (.mark openBrace :: (ks ++ [.mark closeBrace]))))
      (without (params ++ ds.map (·.name)) free) false := by
  intro i stop start length poised inside kind behind shows _
  obtain ⟨⟨t, got, eq⟩, r⟩ := shows
  obtain ⟨head, body⟩ := shows_append.1 r
  have next : Shows ts (i + 1) [.mark "("] := ⟨head.1, trivial⟩
  have step : start.step ts i t =
      ((start.newScope.declareAll (⟨start.scopes, true⟩ :: start.here) params).announce
        ⟨⟨start.scopes, true⟩ :: start.here, start.here, .block⟩,
        i + 1 + (printParameters params).length) := by
    rw [step_of_entry inside kind behind eq, memberAt, not_modifier next (by decide), punctAt_of_shows next]
    simp only [Bool.false_eq_true, and_false, if_false, BEq.rfl, if_true]
    exact functionTail_of_shows (shows_append.2 ⟨head, body.1, trivial⟩) _ _
  have whole := b.announced true (poised.mono (by omega)) (.one got step) poised.sound body
  obtain rfl : stop = i + 1 + (printParameters params).length + 1 + ks.length + 1 := by
    rw [length]
    simp only [length_cons, length_append, length_nil]
    omega
  exact Whole.done whole poised.quiet

theorem closedValue_object (es : WalksItems ts true ks free waits) :
    ClosedValueIn inHeader ts (.mark openBrace :: (ks ++ [.mark closeBrace])) free waits := by
  intro i stop w length poised begins isValue shows
  obtain ⟨⟨opening, got, eq⟩, r⟩ := shows
  obtain ⟨inner, close⟩ := shows_append.1 r
  have opens : w.step ts i opening =
      (w.push (.brace .object none), i + 1) := by
    rw [step_of_openBrace eq, openBraceAt, poised.quiet]
    dsimp only
    rw [if_pos isValue.object]
  obtain ⟨poised', inside⟩ := poised.push got opens rfl
  have whole := Whole.enclosed poised got opens (fun _ _ _ => rfl) (es rfl poised' inside rfl
    ⟨_, by simp [beforeItem], eq ▸ behind_of_get? got⟩ inner ⟨_, by simp, close⟩) close
    (by decide)
  obtain rfl : stop = i + 1 + ks.length + 1 := by
    rw [length, length_cons, length_append, length_singleton]
    omega
  exact whole

end Objects

end Scope

end Bindery
