/-
Proofs.Scope.Composition -- the analysis of one statement after another

Tokens that end with a semicolon and have no loose bracket and no class can be
analyzed on their own.  In front of any other tokens they leave the walk settled, and
the walk goes on as if it began there, on top of what has been noted.  The analysis
of both is then made of the two analyses (`analyze_append`): the declared names one
after the other, and the needed names of both without those that either declares.
-/
import Bindery.Proofs.Scope.Lift
import Bindery.Proofs.Scope.Statement

namespace Bindery

open List TokenSeq

namespace Scope

/-! ## Two windows into tokens that follow one another -/

variable {i : Nat} {first : List Token}

theorem window_of_get? {seq v : TokenSeq} {pos : Nat} {vis : Nat → Prop}
    (eq : ∀ {i}, vis i → v.get? (i + pos) = seq.get? i) {t : Token}
    (seen : vis i) (got : seq.get? i = some t) :
    (∃ twin, v.get? (i + pos) = some twin ∧ t.Resembles twin) ∧
      ∀ {twin}, v.get? (i + pos) = some twin → twin.newlineBefore = t.newlineBefore := by
  rw [eq seen, got]
  refine ⟨⟨t, rfl, rfl, rfl⟩, fun there => ?_⟩
  cases there
  rfl

theorem prefixWindow (snd : List Token) (balanced : Balanced first) (last : EndsStatement first)
    (noClass : ∀ t ∈ first, t.isKeyword "class" = false) :
    Window first (first ++ snd) 0 (· < first.length) fun _ => False := by
  have eq : ∀ {i}, i < first.length →
      (ofList (first ++ snd)).get? (i + 0) = (ofList first).get? i := by
    intro i inside
    rw [get?_ofList, get?_ofList, Nat.add_zero, getElem?_append_left inside]
  exact {
    missing := fun inside gone => (eq inside).trans gone
    resembles := fun inside _ got => (window_of_get? eq inside got).1
    property := fun impossible => impossible.elim
    line := fun inside got there _ => (window_of_get? eq inside got).2 there
    closer? := fun inside => by
      rw [Nat.add_zero, closer?_append_left snd balanced.openAt_length inside]
      simp
    opener? := fun inside => by
      rw [Nat.add_zero, opener?_append_left snd inside]
      simp
    front := fun t got => nomatch got
    inConditional := fun inside => by
      unfold Walk.inConditional ofList
      rw [Nat.add_zero, take_append_of_le_length (Nat.le_of_lt inside)]
    first := by
      obtain ⟨t, atEnd, _⟩ := last
      refine length_pos_iff.2 fun empty => ?_
      rw [empty] at atEnd
      cases atEnd
    earlier := fun inside p => Nat.lt_of_le_of_lt p inside
    next := fun inside got other => by
      rw [get?_ofList] at got
      exact last.succ_lt_length got other
    closes := fun got => by
      have closes := closer?_ofList.1 got
      obtain ⟨_, closing, _, c, _, isCloser, _⟩ := closes.stack
      exact ⟨closes.lt_length, closing, by rw [get?_ofList]; exact c, isCloser⟩
    classes := fun inside got isClass => by
      rw [get?_ofList] at got
      rw [noClass _ (mem_of_getElem? got)] at isClass
      cases isClass }

/-- Looking back over tokens without loose brackets, no question mark waits for a
colon from inside a bracket that was closed behind them. -/
theorem awaitsColon_of_balanced {ts : List Token} (balanced : Balanced ts) (d : Nat) (inside : i ≤ ts.length) :
    Walk.awaitsColon (d + 1 + (openAt ts i).length) (ts.take i).reverse = false := by
  induction i with
  | zero => rfl
  | succ i ih =>
    have inside' : i < ts.length := inside
    have earlier := ih (Nat.le_of_lt inside')
    have got : ts[i]? = some ts[i] := getElem?_eq_getElem inside'
    rw [take_add_one, got, Option.toList_some, reverse_append, reverse_singleton, singleton_append]
    generalize ts[i] = t at got
    unfold Walk.awaitsColon
    by_cases closes : t.isCloser
    · obtain ⟨o, pair⟩ := balanced.exists_opens got closes
      obtain ⟨_, _, _, _, _, _, stack⟩ := pair.stack
      rw [if_pos closes, pair.openAt_succ]
      rw [stack] at earlier
      exact earlier
    · rw [if_neg closes]
      cases opens : t.closerText? with
      | some c =>
        rw [openAt_succ_of_opens got opens, if_pos (by simp [Token.isOpener, opens])]
        exact earlier
      | none =>
        rw [openAt_succ_of_plain got opens (by simpa using closes),
          if_neg (by simp [Token.isOpener, opens]), if_neg (by omega), if_neg (by omega)]
        exact earlier

theorem awaitsColon_append {earlier : List Token} (settled : ∀ d, Walk.awaitsColon d earlier = false)
    (later : List Token) (d : Nat) : Walk.awaitsColon d (later ++ earlier) = Walk.awaitsColon d later := by
  induction later generalizing d with
  | nil => exact settled d
  | cons t r ih =>
    rw [cons_append]
    unfold Walk.awaitsColon
    simp only [ih]

/-- Behind tokens that leave no bracket open and no question mark waiting, and that end
where a statement may begin, others are seen as they are. -/
theorem windowBehind (snd : List Token) (closed : openAt first first.length = [])
    (ends : ∀ t, first.getLast? = some t → EndsBefore snd t)
    (settled : ∀ d, Walk.awaitsColon d first.reverse = false) :
    Window snd (first ++ snd) first.length (fun _ => True) fun _ => False := by
  have eq : ∀ {i}, True → (ofList (first ++ snd)).get? (i + first.length) =
      (ofList snd).get? i := by
    intro i _
    rw [get?_ofList, get?_ofList, getElem?_append_right (Nat.le_add_left _ _), Nat.add_sub_cancel]
  exact {
    missing := fun inside gone => (eq inside).trans gone
    resembles := fun inside _ got => (window_of_get? eq inside got).1
    property := fun impossible => impossible.elim
    line := fun inside got there _ => (window_of_get? eq inside got).2 there
    closer? := fun {i} _ => closer?_append_right snd closed i
    opener? := fun {i} _ => opener?_append_right snd closed i
    front := fun t got => by
      unfold prev? at got
      split at got
      · cases got
      · rw [get?_ofList, getElem?_append_left (by omega), ← getLast?_eq_getElem?] at got
        exact ends t got
    inConditional := fun {i} _ => by
      unfold Walk.inConditional ofList
      rw [Nat.add_comm, take_length_add_append, reverse_append]
      exact awaitsColon_append settled _ 0
    first := trivial
    earlier := fun _ _ => trivial
    next := fun _ _ _ => trivial
    closes := fun got => by
      obtain ⟨_, closing, _, c, _, isCloser, _⟩ := (closer?_ofList.1 got).stack
      exact ⟨trivial, closing, by rw [get?_ofList]; exact c, isCloser⟩
    classes := fun _ _ _ _ => trivial }

theorem suffixWindow (snd : List Token) (balanced : Balanced first) (last : EndsStatement first) :
    Window snd (first ++ snd) first.length (fun _ => True) fun _ => False := by
  obtain ⟨semi, atEnd, isSemicolon⟩ := last
  refine windowBehind snd balanced.openAt_length (fun t got => ?_) fun d => ?_
  · rw [atEnd] at got
    cases got
    exact .inl isSemicolon
  · cases d with
    | zero =>
      obtain ⟨p, rfl⟩ := getLast?_eq_some_iff.1 atEnd
      rw [reverse_append, reverse_singleton, singleton_append]
      have isText := Token.isPunct_of_isPunct isSemicolon
      unfold Walk.awaitsColon
      simp [Token.isCloser, Token.isOpener, Token.closerText?, isText, openBrace, closeBrace]
    | succ d =>
      have back := awaitsColon_of_balanced balanced d (Nat.le_refl _)
      rw [balanced.openAt_length, take_length] at back
      exact back

/-! ## Two walks -/

namespace Walk

/-- In front of other tokens, the first ones are walked as they are alone, and they
leave the walk settled. -/
theorem runFrom_prefix {first : List Token} (snd : List Token) (balanced : Balanced first)
    (last : EndsStatement first) (noClass : ∀ t ∈ first, t.isKeyword "class" = false)
    {i : Nat} {walk : Walk} (inside : i < first.length) (tidy : walk.Tidy first i)
    (sound : walk.Sound first) (w : i = 0 → (walk.opens, walk.declarations) = ([], [])) :
    walk.runFrom (first ++ snd) i = (walk.runFrom first i).runFrom (first ++ snd) first.length ∧
      (walk.runFrom first i).Settled := by
  have win := prefixWindow snd balanced last noClass
  have got : first[i]? = some first[i] := getElem?_eq_getElem inside
  generalize first[i] = t at got
  have here : (ofList first).get? i = some t := by
    rw [get?_ofList, got]
  have there : (ofList (first ++ snd)).get? i = some t := by
    rw [get?_ofList, getElem?_append_left inside, got]
  have eq : walk.step (first ++ snd) i t =
      walk.step first i t := by
    have moved := (win.step Below.initial (fun absurd => nomatch absurd) (fun _ _ => id) inside
      here there sound fun zero => .inr (w zero)).exact
    simp only [lift_initial, Nat.add_zero, Step.lift] at moved
    exact moved
  have forward := lt_step first i t walk
  have sound' := sound.step here
  rw [runFrom_of_some walk here, runFrom_of_some walk there, eq]
  by_cases semi : t.isPunct ";"
  · have ready := tidy.semicolon got semi
    have next : (walk.step first i t).2 = i + 1 := by
      rw [step_semicolon _ _ _ semi]
    rw [next]
    by_cases more : i + 1 < first.length
    · exact runFrom_prefix snd balanced last noClass more ready.tidy sound' (fun absurd => by omega)
    · have stop : i + 1 = first.length := by omega
      have outside : openAt first i = [] := by
        rw [← balanced.openAt_length, ← stop, openAt_succ_of_plain got]
        · simp [Token.closerText?, Token.isPunct_of_isPunct semi, openBrace]
        · simp [Token.isCloser, Token.isPunct_of_isPunct semi, closeBrace]
      have missing : (ofList first).get? first.length = none := by
        rw [get?_ofList, getElem?_eq_none (Nat.le_refl _)]
      rw [stop, runFrom_of_none _ missing]
      exact ⟨rfl, tidy.settled got semi outside⟩
  · obtain ⟨tidy', inside'⟩ := tidy.step last balanced got (by simpa using semi)
      (noClass t (mem_of_getElem? got))
    exact runFrom_prefix snd balanced last noClass inside' tidy' sound' (fun absurd => by omega)
  termination_by first.length - i
  decreasing_by all_goals omega

variable {base walk : Walk} {name : String} {pos : Nat} {s : Chain} {seq : TokenSeq}

theorem runFrom_window {snd : List Token}
    (win : Window snd (first ++ snd) first.length (fun _ => True) fun _ => False)
    (below : base.Below first.length) (apart : base.Apart (first ++ snd) first.length) (i : Nat)
    (sound : walk.Sound snd) (w : i = 0 → (walk.opens, walk.declarations) = ([], [])) :
    (walk.lift base first.length).runFrom (first ++ snd) (i + first.length) =
      (walk.runFrom snd i).lift base first.length := by
  fun_induction runFrom snd i walk with
  | case1 i walk missing =>
    rw [runFrom_of_none _ (win.missing trivial missing)]
  | case2 i walk t got ih =>
    have forward := lt_step snd i t walk
    obtain ⟨twin, there⟩ := win.exists_twin trivial got
    have step := (win.step below apart (fun _ _ => id) trivial got there sound
      fun zero => .inr (w zero)).exact
    rw [runFrom_of_some _ there, step]
    exact ih (sound.step got) (fun absurd => by omega)

theorem runFrom_suffix (snd : List Token) (balanced : Balanced first) (last : EndsStatement first)
    (below : base.Below first.length) (i : Nat) (sound : walk.Sound snd)
    (w : i = 0 → (walk.opens, walk.declarations) = ([], [])) :
    (walk.lift base first.length).runFrom (first ++ snd) (i + first.length) =
      (walk.runFrom snd i).lift base first.length := by
  refine runFrom_window (suffixWindow snd balanced last) below (fun async => ?_) i sound w
  obtain ⟨semi, atEnd, isSemicolon⟩ := last
  obtain ⟨p, rfl⟩ := getLast?_eq_some_iff.1 atEnd
  simp only [Token.isPunct, Bool.and_eq_true, beq_iff_eq] at isSemicolon
  simp [prevHolds, prev?, get?_ofList, Token.isIdent, isSemicolon] at async

/-! ## The names of both -/

/-- The uses that no scope binds, in order. -/
def freeOccurrences (walk : Walk) : List String :=
  (walk.uses.reverse.filter fun use => !walk.isBound use.name use.scope).map (·.name)

theorem mem_topLevel : name ∈ walk.topLevel ↔ (⟨0, name⟩ : Binding) ∈ walk.bindings := by
  unfold topLevel
  simp only [mem_map, mem_filter, mem_reverse, beq_iff_eq]
  constructor
  · rintro ⟨⟨s, name⟩, ⟨mem, rfl⟩, rfl⟩
    exact mem
  · intro mem
    exact ⟨⟨0, name⟩, ⟨mem, rfl⟩, rfl⟩

theorem topLevel_lift (walk base : Walk) (pos : Nat) :
    (walk.lift base pos).topLevel = base.topLevel ++ walk.topLevel.filter (· ∉ base.topLevel) := by
  unfold topLevel
  simp only [lift, reverse_append, filter_append, map_append,
    append_cancel_left_eq, ← map_reverse, ← filter_reverse, filter_map,
    map_map, filter_filter]
  have outermost : ∀ b : Binding,
      ((b.shift base.room).scope == 0) = (b.scope == 0) := by
    rintro ⟨s, name⟩
    simp only [Binding.shift, number]
    split
    · next zero => rw [zero]
    · next other => rw [beq_eq_false_iff_ne.2 other, beq_eq_false_iff_ne.2 (by omega)]
  have kept : ∀ b : Binding,
      (((fun b => b.scope == 0) ∘ Binding.shift base.room) b && !base.hasAlready b) =
      (((fun name => decide (name ∉ base.topLevel)) ∘ Binding.name) b &&
        (b.scope == 0)) := by
    rintro ⟨s, name⟩
    simp only [Function.comp, outermost, hasAlready]
    by_cases zero : s = 0
    · subst zero
      simp [mem_topLevel]
    · simp [beq_eq_false_iff_ne.2 zero]
  exact congrArg (map _) (filter_congr fun b _ => kept b)

theorem isBound_lift (walk : Walk) {scopes : Nat} (below : base.Below pos) (name : String)
    (within : s.Within scopes) :
    (walk.lift base pos).isBound name (s.shift base.room) =
      (walk.isBound name s || decide (name ∈ base.topLevel)) := by
  unfold isBound Chain.shift
  rw [any_map]
  have each : ∀ frame : Frame, ((walk.lift base pos).bindings.contains
      ⟨(frame.shift base.room).id, name⟩) =
      (walk.bindings.contains ⟨frame.id, name⟩ || base.hasAlready ⟨frame.id, name⟩) :=
    fun frame => contains_bindings_lift below frame.id name
  simp only [Function.comp_def, each]
  rw [Bool.eq_iff_iff, Bool.or_eq_true, decide_eq_true_iff, mem_topLevel]
  constructor
  · intro bound
    obtain ⟨frame, inside, declared⟩ := any_eq_true.1 bound
    rcases Bool.or_eq_true_iff.1 declared with declared | already
    · exact .inl (any_eq_true.2 ⟨frame, inside, declared⟩)
    · simp only [hasAlready, Bool.and_eq_true, beq_iff_eq, contains_iff_mem] at already
      rw [← already.1]
      exact .inr already.2
  · rintro (bound | declared)
    · obtain ⟨frame, inside, declared⟩ := any_eq_true.1 bound
      exact any_eq_true.2 ⟨frame, inside, by rw [declared, Bool.true_or]⟩
    · exact within.any_root (by simp [hasAlready, declared])

theorem isBound_base (below : base.Below pos) (name : String) (within : s.Within base.scopes) :
    (walk.lift base pos).isBound name s = (base.isBound name s || decide (name ∈ walk.topLevel)) := by
  have positive := below.scopes
  rw [Bool.eq_iff_iff, Bool.or_eq_true, decide_eq_true_iff, mem_topLevel]
  unfold isBound
  simp only [any_eq_true, contains_iff_mem, lift, mem_append, mem_map, mem_filter]
  constructor
  · rintro ⟨frame, inside, ⟨⟨id, text⟩, ⟨mem, _⟩, eq⟩ | mem⟩
    · have low := within.id_lt _ inside
      simp only [Binding.shift, Binding.mk.injEq, number] at eq
      obtain ⟨number, rfl⟩ := eq
      split at number
      · next zero =>
        subst zero
        exact .inr mem
      · simp only [room] at number
        omega
    · exact .inl ⟨frame, inside, mem⟩
  · rintro (⟨frame, inside, mem⟩ | mem)
    · exact ⟨frame, inside, .inr mem⟩
    · refine ⟨⟨0, true⟩, within.ends.subset mem_cons_self, ?_⟩
      by_cases already : (⟨0, name⟩ : Binding) ∈ base.bindings
      · exact .inr already
      · exact .inl ⟨⟨0, name⟩, ⟨mem, by simp [hasAlready, already]⟩, rfl⟩

/-- The free uses of both walks are the free uses of each, without the names that
the outermost scope of the other has. -/
theorem freeOccurrences_lift {seq' : TokenSeq} (below : base.Below pos) (lower : base.Sound seq)
    (upper : walk.Sound seq') :
    (walk.lift base pos).freeOccurrences =
      base.freeOccurrences.filter (· ∉ walk.topLevel) ++ walk.freeOccurrences.filter (· ∉ base.topLevel) := by
  unfold freeOccurrences
  have uses : (walk.lift base pos).uses.reverse =
      base.uses.reverse ++ walk.uses.reverse.map (·.shift base.room pos) := by
    simp [lift, map_reverse]
  rw [uses, filter_append, map_append, filter_map, map_map, filter_map,
    filter_map, filter_filter, filter_filter]
  congr 1
  · refine congrArg (map _) (filter_congr fun use mem => ?_)
    rw [isBound_base below use.name (lower.uses use (mem_reverse.1 mem)).1]
    simp [Bool.and_comm]
  · refine congrArg (map _) (filter_congr fun use mem => ?_)
    have bound := isBound_lift walk below use.name (upper.uses use (mem_reverse.1 mem)).1
    show (!(walk.lift base pos).isBound use.name (use.scope.shift base.room)) = _
    rw [bound]
    simp [Bool.and_comm]

theorem not_mem_topLevel_of_free (sound : walk.Sound seq) (free : name ∈ walk.freeOccurrences) :
    name ∉ walk.topLevel := by
  obtain ⟨use, mem, rfl⟩ := mem_map.1 free
  rw [mem_filter, mem_reverse] at mem
  intro declared
  have bound : walk.isBound use.name use.scope :=
    (sound.uses use mem.1).1.any_root (by simpa using mem_topLevel.1 declared)
  simp [bound] at mem

theorem Settled.lift_initial (settled : base.Settled) (scopes : 0 < base.scopes) (pos : Nat) :
    (({} : Walk).lift base pos) = base := by
  obtain ⟨here, opens, pending, delimited, declarations⟩ := settled
  obtain ⟨_, _, _, _, _, _, _, _, _, _⟩ := base
  subst here opens pending delimited declarations
  have room : 1 + (_ - 1) = _ := Nat.add_sub_of_le scopes
  simp only [lift, room]
  simp [root, Chain.shift, Frame.shift, number]

end Walk

/-! ## Names without repetition -/

theorem eraseDups_filter (keeps : String → Bool) (ns : List String) :
    (ns.filter keeps).eraseDups = ns.eraseDups.filter keeps := by
  match ns with
  | [] => rfl
  | first :: r =>
    have r' := eraseDups_filter keeps (r.filter fun name => !name == first)
    rw [filter_filter] at r'
    rw [eraseDups_cons, filter_cons, filter_cons]
    split
    · next kept => rw [eraseDups_cons, filter_filter, ← r']; simp only [Bool.and_comm]
    · next dropped =>
      rw [← r']
      refine congrArg eraseDups (filter_congr fun name _ => ?_)
      by_cases eq : name = first
      · simp [eq, dropped]
      · simp [eq]
  termination_by ns.length
  decreasing_by exact Nat.lt_succ_of_le (length_filter_le _ _)

theorem eraseDups_append_eraseDups (first snd : List String) :
    (first.eraseDups ++ snd.eraseDups).eraseDups = (first ++ snd).eraseDups := by
  rw [eraseDups_append, eraseDups_append, eraseDups_of_nodup (nodup_eraseDups first)]
  congr 1
  show (snd.eraseDups.filter _).eraseDups = (snd.filter _).eraseDups
  rw [eraseDups_filter, eraseDups_of_nodup (nodup_eraseDups snd), ← eraseDups_filter]
  refine congrArg eraseDups (filter_congr fun name _ => ?_)
  simp [mem_eraseDups]

/-- **The analysis composes over statements.**  The first tokens end with a
semicolon, every bracket among them has its partner there, and they hold no class;
the others are arbitrary. -/
theorem analyze_append (first second : List Token) (balanced : Balanced first)
    (ends : EndsStatement first) (noClass : ∀ token ∈ first, token.isKeyword "class" = false) :
    (analyze (first ++ second)).topLevel =
        (analyze first).topLevel ++
          (analyze second).topLevel.filter (· ∉ (analyze first).topLevel) ∧
      (analyze (first ++ second)).awaits = ((analyze first).awaits || (analyze second).awaits) ∧
      (analyze (first ++ second)).yields = ((analyze first).yields || (analyze second).yields) ∧
      (analyze (first ++ second)).references =
        ((analyze first).references ++ (analyze second).references).eraseDups.filter
          (· ∉ (analyze (first ++ second)).topLevel) := by
  have lower := (Walk.Sound.initial (TokenSeq.ofList first)).runFrom 0
  have upper := (Walk.Sound.initial (TokenSeq.ofList second)).runFrom 0
  have tidy : ({} : Walk).Tidy first 0 :=
    ⟨.root, by rw [openAt_zero]; rfl, fun absent => nomatch absent⟩
  obtain ⟨joined, settled⟩ := Walk.runFrom_prefix second balanced ends noClass
    (prefixWindow second balanced ends noClass).first tidy (Walk.Sound.initial _) fun _ => rfl
  have below : (Walk.runFrom (TokenSeq.ofList first) 0 {}).Below first.length := {
    scopes := lower.scopes
    bindings := fun binding member => (lower.bindings binding member).1
    uses := fun use member => by simpa [TokenSeq.ofList, TokenSeq.size] using
      (lower.uses use member).2.2 }
  have whole := Walk.runFrom_suffix second balanced ends below 0 (Walk.Sound.initial _)
    fun _ => rfl
  rw [settled.lift_initial lower.scopes, Nat.zero_add, ← joined] at whole
  unfold analyze
  dsimp only
  rw [whole]
  generalize Walk.runFrom (TokenSeq.ofList first) 0 {} = base at lower below
  generalize Walk.runFrom (TokenSeq.ofList second) 0 {} = walk at upper
  refine ⟨Walk.topLevel_lift walk base _, rfl, rfl, ?_⟩
  show (walk.lift base first.length).freeOccurrences.eraseDups =
    (base.freeOccurrences.eraseDups ++ walk.freeOccurrences.eraseDups).eraseDups.filter _
  rw [eraseDups_append_eraseDups, ← eraseDups_filter, List.filter_append,
    Walk.freeOccurrences_lift below lower upper]
  -- a name that is free in one part is not declared by that part
  refine congrArg List.eraseDups (congr (congrArg _ ?_) ?_)
  · refine List.filter_congr fun name member => ?_
    have free := Walk.not_mem_topLevel_of_free lower member
    simp [Walk.topLevel_lift, free]
  · refine List.filter_congr fun name member => ?_
    have free := Walk.not_mem_topLevel_of_free upper member
    simp [Walk.topLevel_lift, free]

/-- `let a = (b);` in front of `a ) => c`, whose bracket is loose. -/
theorem analyze_append_loose :
    (analyze ([⟨.keyword, "let", 0, 3, false⟩, ⟨.ident, "a", 4, 5, false⟩,
        ⟨.punct, "=", 6, 7, false⟩, ⟨.punct, "(", 8, 9, false⟩, ⟨.ident, "b", 9, 10, false⟩,
        ⟨.punct, ")", 10, 11, false⟩, ⟨.punct, ";", 11, 12, false⟩] ++
      [⟨.ident, "a", 13, 14, false⟩, ⟨.punct, ")", 15, 16, false⟩,
        ⟨.punct, "=>", 17, 19, false⟩, ⟨.ident, "c", 20, 21, false⟩])).references =
      ["b", "c"] := by
  rw [(analyze_append _ _ ?_ ?_ ?_).2.2.2]
  all_goals decide +kernel

end Scope

end Bindery
