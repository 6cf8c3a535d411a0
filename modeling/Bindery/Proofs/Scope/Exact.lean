/-
Proofs.Scope.Exact -- the analysis of a program finds its free names

On the programs of `Program` the analysis is exact: the names it finds are the ones
that the scopes of the program leave free, and the names that the program declares
are those of its outermost scope (`analyze_program`).
-/
import Bindery.Proofs.Scope.Function

namespace Bindery

open List TokenSeq Program

namespace Scope

open Walk

/-! ## Statements -/

section Statements

variable {tokens : List Token} {i middle stop : Nat} {start w : Walk}
  {ks tl os : List Key} {ds ds' : List Declared}
  {free free' free'' : List String} {waits waits' waits'' : Bool} {t : Token} {text name : String}

theorem Inside.of_layout (inside : Inside start) (eq : w.layout = start.layout)
    (lists : w.declarations = start.declarations) : Inside w := by
  injection eq with _ opens _ delimited
  have depth : w.depth = start.depth := congrArg length opens
  refine ⟨?_, ?_⟩
  · rw [delimited, depth]
    exact inside.delimited
  · rw [lists, depth]
    exact inside.declarations

theorem InBlock.of_layout (b : InBlock start) (eq : w.layout = start.layout) : InBlock w := by
  injection eq with _ opens
  refine ⟨?_, ?_⟩
  · rw [inBrace, opens]
    exact b.object
  · rw [inBrace, opens]
    exact b.classBody

theorem Inside.keepDeclarations (inside : Inside w) : w.keepDeclarations (· < w.depth) = w := by
  have kept : w.declarations.filter (decide <| ·.depth < w.depth) = w.declarations :=
    filter_eq_self.2 fun declaration mem => by
      simpa using inside.declarations declaration mem
  unfold Walk.keepDeclarations
  rw [kept]

theorem Done.semicolon (done : Done tokens start i stop free waits) (quiet : start.pending = none)
    (inside : Inside start) (shows : Shows tokens stop [.mark ";"]) :
    Whole tokens start i (stop + 1) [] free waits := by
  obtain ⟨w, reaches, rests, effect⟩ := done
  obtain ⟨⟨t, got, eq⟩, _⟩ := shows
  have ended := rests.semicolon inside.delimited got eq
  have depth : (start.resume w).depth = start.depth := congrArg length rests.opens
  have kept := (inside.resume rests).keepDeclarations
  rw [depth] at kept
  rw [kept] at ended
  refine ⟨_, reaches.trans ended, ?_, rests.declarations, effect.mono (Nat.le_succ _)⟩
  show Walk.Layout.mk start.here w.opens w.pending start.delimited = _
  rw [rests.opens, rests.quiet, ← quiet]
  rfl

theorem step_of_plainWord (inside : Inside w) (b : InBlock w) (eq : t.key = .word text)
    (plain : text ∈ ["return", "if", "else", "while", "try", "switch", "case", "default"]) :
    w.step tokens i t = (w, i + 1) := by
  rw [step_of_word eq (inside.calm _ _ _)]
  unfold keywordAt
  rw [(key_eq eq).2, b.not_member]
  simp only [mem_cons, not_mem_nil, or_false] at plain
  rcases plain with rfl | rfl | rfl | rfl | rfl | rfl | rfl | rfl <;> rfl

theorem walksBlock_nil : WalksBlock tokens [] [] [] false := by
  intro i stop w length poised _ _ _ _
  exact ⟨w, length ▸ .refl _ _, rfl, rfl, .refl _ _ _⟩

/-- A statement ends with a semicolon or a brace. -/
def EndsWell (ks : List Key) : Prop :=
  ∃ front key, ks = front ++ [key] ∧ key ∈ [Key.mark ";", .mark closeBrace]

theorem walksBlock_cons (fst : WalksBlock tokens ks ds free waits)
    (ends : EndsWell ks) (r : WalksBlock tokens tl ds' free' waits') :
    WalksBlock tokens (ks ++ tl) (ds ++ ds') (free ++ free') (waits || waits') := by
  intro i stop w length poised inside b start shows
  obtain ⟨shownFirst, shownRest⟩ := shows_append.1 shows
  obtain rfl : stop = i + ks.length + tl.length := by
    rw [length, length_append]
    omega
  refine (fst rfl poised inside b start shownFirst).andThen poised
    fun last poised' eq lists => r rfl poised' (inside.of_layout eq lists)
      (b.of_layout eq) (.inr ?_) shownRest
  obtain ⟨pre, key, rfl, mem⟩ := ends
  refine ⟨key, ?_, ?_⟩
  · simp only [mem_cons, not_mem_nil, or_false] at mem ⊢
    rcases mem with eq | eq
    · exact .inl eq
    · exact .inr (.inr eq)
  · rw [length_append, length_singleton, ← Nat.add_assoc]
    exact shownFirst.behind

theorem walksStmt_phrase (p : WalksPhrase tokens ks free waits) :
    WalksBlock tokens (ks ++ [.mark ";"]) [] free waits := by
  intro i stop w length poised inside b start shows
  obtain ⟨shown, semi⟩ := shows_append.1 shows
  obtain ⟨begins, _⟩ := start.begins inside b
  obtain rfl : stop = i + ks.length + 1 := by
    rw [length, length_append, length_singleton, Nat.add_assoc]
  exact (p rfl poised begins shown ⟨_, by simp, semi⟩).semicolon poised.quiet inside semi

theorem walksStmt_give (v : WalksValue tokens ks free waits) :
    WalksBlock tokens (.word "return" :: (ks ++ [.mark ";"])) [] free waits := by
  intro i stop w length poised inside b _ shows
  obtain ⟨⟨t, got, eq⟩, r⟩ := shows
  obtain ⟨shown, semi⟩ := shows_append.1 r
  obtain rfl : stop = i + 1 + ks.length + 1 := by
    rw [length, length_cons, length_append, length_singleton]
    omega
  have skip := Whole.skip got (step_of_plainWord inside b eq (by simp))
  have done := skip.andDone poised fun w poised' _ _ => by
    obtain ⟨begins, isValue⟩ := begins_of_behind w (eq ▸ behind_of_get? got)
      (by simp [beforeValue]) fun absurd => by cases absurd
    exact v rfl poised' begins isValue shown ⟨_, by simp, semi⟩
  exact done.semicolon poised.quiet inside semi

theorem not_object_of_behind {key : Key} (behind : Behind tokens i key)
    (mem : key ∈ [Key.mark ")", .mark ";", .mark closeBrace, .word "else", .word "try"]) :
    isObjectBrace tokens i = false := by
  obtain ⟨p, got, rfl⟩ := behind
  unfold isObjectBrace
  rw [got]
  simp only [mem_cons, not_mem_nil, or_false] at mem
  rcases mem with eq | eq | eq | eq | eq
  all_goals
    obtain ⟨kind, text⟩ := key_eq eq
    simp [kind, text]

theorem WalksValue.thenBlock (v : WalksValue tokens ks free waits)
    (body : WalksBlock tokens tl ds free' waits') (poised : Poised tokens i start)
    (shows : Shows tokens i (.mark "(" :: (ks ++ (.mark ")" :: .mark openBrace ::
      (tl ++ [.mark closeBrace]))))) :
    Whole tokens start i (i + 1 + ks.length + 1 + 1 + tl.length + 1)
      (hoisted ds) (free ++ without (lexical ds) free') (waits || waits') := by
  obtain ⟨opening, r⟩ := shows
  obtain ⟨shown, close, b⟩ := shows_append.1 r
  refine (v.paren poised ⟨opening, shows_append.2 ⟨shown, close, trivial⟩⟩).andThen poised
    fun w poised' _ _ => body.bare poised' b ?_
  obtain ⟨closing, got, eq⟩ := close
  exact not_object_of_behind (eq ▸ behind_of_get? got) (by simp)

theorem walksStmt_loop (cond : WalksValue tokens ks free waits) (body : WalksBlock tokens tl ds free' waits') :
    WalksBlock tokens (.word "while" :: .mark "(" :: (ks ++ (.mark ")" :: .mark openBrace ::
      (tl ++ [.mark closeBrace])))) (hoisted ds)
      (free ++ without (lexical ds) free') (waits || waits') := by
  intro i stop w length poised inside b _ shows
  obtain ⟨⟨t, got, eq⟩, r⟩ := shows
  obtain rfl : stop = i + 1 + 1 + ks.length + 1 + 1 + tl.length + 1 := by
    rw [length]
    simp only [length_cons, length_append, length_nil]
    omega
  exact (Whole.skip got (step_of_plainWord inside b eq (by simp))).andThen poised
    fun w poised' _ _ => cond.thenBlock body poised' r

theorem WalksBlock.behindWord (body : WalksBlock tokens ks ds free waits) (word : text = "else" ∨ text = "try")
    (poised : Poised tokens i start) (inside : Inside start) (b : InBlock start)
    (shows : Shows tokens i (.word text :: .mark openBrace :: (ks ++ [.mark closeBrace]))) :
    Whole tokens start i (i + 1 + 1 + ks.length + 1) (hoisted ds) (without (lexical ds) free) waits := by
  obtain ⟨⟨t, got, eq⟩, r⟩ := shows
  have plain : text ∈ ["return", "if", "else", "while", "try", "switch", "case", "default"] := by
    rcases word with rfl | rfl <;> simp
  refine (Whole.skip got (step_of_plainWord inside b eq plain)).andThen poised
    fun w poised' _ _ => body.bare poised' r ?_
  refine not_object_of_behind (eq ▸ behind_of_get? got) ?_
  rcases word with rfl | rfl <;> simp

theorem walksStmt_branch (cond : WalksValue tokens ks free waits) (yes : WalksBlock tokens tl ds free' waits')
    (no : WalksBlock tokens os ds' free'' waits'') :
    WalksBlock tokens (.word "if" :: .mark "(" :: (ks ++ (.mark ")" :: .mark openBrace ::
      (tl ++ (.mark closeBrace :: .word "else" :: .mark openBrace :: (os ++ [.mark closeBrace]))))))
      (hoisted ds ++ hoisted ds')
      (free ++ (without (lexical ds) free' ++ without (lexical ds') free''))
      (waits || (waits' || waits'')) := by
  intro i stop w length poised inside b _ shows
  obtain ⟨⟨t, got, eq⟩, r⟩ := shows
  have split : .mark "(" :: (ks ++ (.mark ")" :: .mark openBrace :: (tl ++ (.mark closeBrace ::
      .word "else" :: .mark openBrace :: (os ++ [.mark closeBrace]))))) =
      (.mark "(" :: (ks ++ (.mark ")" :: .mark openBrace :: (tl ++ [.mark closeBrace])))) ++
        (.word "else" :: .mark openBrace :: (os ++ [.mark closeBrace])) := by simp
  rw [split] at r
  obtain ⟨fst, snd⟩ := shows_append.1 r
  have middle : i + 1 + (Key.mark "(" :: (ks ++ (.mark ")" :: .mark openBrace ::
      (tl ++ [.mark closeBrace])))).length =
      i + 1 + 1 + ks.length + 1 + 1 + tl.length + 1 := by
    simp only [length_cons, length_append, length_nil]
    omega
  rw [middle] at snd
  obtain rfl : stop = i + 1 + 1 + ks.length + 1 + 1 + tl.length + 1 + 1 + 1 +
      os.length + 1 := by
    rw [length]
    simp only [length_cons, length_append, length_nil]
    omega
  have skip := Whole.skip got (step_of_plainWord inside b eq (by simp))
  have whole := skip.andThen poised fun w poised layout lists =>
    (cond.thenBlock yes poised fst).andThen poised fun w' poised' layout' lists' =>
      no.behindWord (.inl rfl) poised' (inside.of_layout (layout'.trans layout)
        (lists'.trans lists)) (b.of_layout (layout'.trans layout)) snd
  rw [← append_assoc, ← Bool.or_assoc]
  exact whole

theorem bindPattern_of_name (got : tokens[i]? = some t) (eq : t.key = .name name) (s : Chain) (w : Walk) :
    w.bindPattern tokens s i = w.declare s name ∧ patternEnd tokens i = i + 1 := by
  obtain ⟨kind, text⟩ := key_eq eq
  have here : (ofList tokens).get? i = some t := by
    rw [get?_ofList, got]
  refine ⟨?_, ?_⟩
  · rw [bindPattern, patternEvents_of_some here, if_pos kind, text]
    rfl
  · rw [patternEnd, here]
    exact if_pos kind

theorem WalksBlock.behindCatch (body : WalksBlock tokens ks ds free waits) (name : String)
    (poised : Poised tokens i start) (inside : Inside start)
    (shows : Shows tokens i (.word "catch" :: .mark "(" :: .name name :: .mark ")" ::
      .mark openBrace :: (ks ++ [.mark closeBrace]))) :
    Whole tokens start i (i + 1 + 3 + 1 + ks.length + 1) (hoisted ds)
      (without (name :: lexical ds) free) waits := by
  obtain ⟨⟨t, got, eq⟩, opening, ⟨pattern, foundName, sameName⟩, closing, b⟩ := shows
  have closes := closes_printParameters (show Shows tokens (i + 1) (printParameters [name]) from
    ⟨opening, ⟨pattern, foundName, sameName⟩, closing, trivial⟩)
  have paren := punctAt_of_shows (show Shows tokens (i + 1) [.mark "("] from ⟨opening, trivial⟩)
  have brace := punctAt_of_shows (show Shows tokens (i + 1 + 3) [.mark openBrace] from ⟨b.1, trivial⟩)
  have step : start.step tokens i t =
      ((start.newScope.declareAll (⟨start.scopes, false⟩ :: start.here) [name]).announce
        ⟨⟨start.scopes, false⟩ :: start.here, start.here, .block⟩, i + 1 + 3) := by
    rw [step_of_word eq (inside.calm _ _ _), keywordAt, (key_eq eq).2]
    show start.catchAt _ i = _
    obtain ⟨bs, unchanged⟩ := declare_eq (⟨start.scopes, false⟩ :: start.here) name start.newScope
    unfold catchAt
    rw [paren, if_pos (by decide), closer?_ofList.2 closes]
    dsimp only
    rw [(bindPattern_of_name foundName sameName _ _).1, announceBody]
    show (if (ofList tokens).punctAt (i + 1 + 3) openBrace = true then _ else _, _) = _
    rw [brace, if_pos (by decide), freshScope, unchanged, declareAll, foldl_cons, unchanged]
    rfl
  exact body.announced false (poised.mono (by omega)) (.one got step) poised.sound b

theorem walksStmt_guard (name : String) (body : WalksBlock tokens ks ds free waits)
    (handler : WalksBlock tokens tl ds' free' waits') :
    WalksBlock tokens (.word "try" :: .mark openBrace :: (ks ++ (.mark closeBrace ::
      .word "catch" :: .mark "(" :: .name name :: .mark ")" :: .mark openBrace ::
        (tl ++ [.mark closeBrace])))) (hoisted ds ++ hoisted ds')
      (without (lexical ds) free ++ without (name :: lexical ds') free')
      (waits || waits') := by
  intro i stop w length poised inside b _ shows
  have split : .word "try" :: .mark openBrace :: (ks ++ (.mark closeBrace ::
      .word "catch" :: .mark "(" :: .name name :: .mark ")" :: .mark openBrace ::
        (tl ++ [.mark closeBrace]))) =
      (.word "try" :: .mark openBrace :: (ks ++ [.mark closeBrace])) ++
        (.word "catch" :: .mark "(" :: .name name :: .mark ")" :: .mark openBrace ::
          (tl ++ [.mark closeBrace])) := by simp
  rw [split] at shows
  obtain ⟨fst, snd⟩ := shows_append.1 shows
  have middle : i + (Key.word "try" :: .mark openBrace :: (ks ++ [.mark closeBrace])).length =
      i + 1 + 1 + ks.length + 1 := by
    simp only [length_cons, length_append, length_nil]
    omega
  rw [middle] at snd
  obtain rfl : stop = i + 1 + 1 + ks.length + 1 + 1 + 3 + 1 + tl.length + 1 := by
    rw [length]
    simp only [length_cons, length_append, length_nil]
    omega
  exact (body.behindWord (.inr rfl) poised inside b fst).andThen poised
    fun w poised' layout lists =>
      handler.behindCatch name poised' (inside.of_layout layout lists) snd

theorem walksStmt_function (name : String) (params : List String) (b : WalksBlock tokens ks ds free waits) :
    WalksBlock tokens (printFunction (some name) params ks) [⟨false, name⟩]
      (without (params ++ ds.map (·.name)) free) false := by
  intro i stop w length poised inside inBlock begin shows
  obtain ⟨⟨t, got, eq⟩, head, body⟩ := shows_function shows
  have isStatement : isFunctionStatement tokens i := by
    rw [isFunctionStatement, (begin.begins inside inBlock).2, Bool.true_or]
  have step := (step_of_function eq (inside.calm _ _ _)).trans (functionAt_of_shows head w)
  rw [if_pos isStatement] at step
  -- the name is declared around the function before its scope is made
  obtain ⟨bs, unchanged⟩ := declare_eq w.here name w
  have commutes : w.newScope.declareAll w.here (some name).toList =
      (w.declare w.here name).newScope := by
    unfold declareAll declare newScope
    dsimp only [Option.toList_some, foldl_cons, foldl_nil]
    repeat' split
    all_goals rfl
  have sound : (w.declare w.here name).Sound tokens := by
    obtain ⟨⟨own, foundOwn, sameOwn⟩, _⟩ := head
    refine (poised.sound.grown.declare poised.sound.here
      ⟨i + 1, own, ?_, (key_eq sameOwn).1, (key_eq sameOwn).2⟩).toSound
    rw [get?_ofList, foundOwn]
  have noted := Effect.declare w.here w ⟨false, name⟩ i
  rw [if_neg Bool.false_ne_true] at noted
  rw [commutes] at step
  generalize w.declare w.here name = around at unchanged sound noted step
  have declared : Poised tokens i around := by
    refine ⟨sound, ?_, ?_, ?_, ?_, ?_⟩ <;> rw [unchanged]
    · exact poised.quiet
    · exact poised.uses
    · exact poised.delimited
    · exact poised.declarations
    · exact poised.header
  have here : around.here = w.here := by rw [unchanged]
  have scopes : around.scopes = w.scopes := by rw [unchanged]
  rw [← here, ← scopes] at step
  obtain ⟨last, reaches, layout, lists, effect⟩ :=
    b.announced true (declared.mono (by omega)) (.one got step) poised.sound body
  rw [length_printFunction] at length
  obtain rfl : stop = i + 1 + (some name).toList.length + (printParameters params).length +
      1 + ks.length + 1 := by omega
  rw [here] at effect
  refine ⟨last, reaches, layout.trans ?_, lists.trans ?_,
    noted.trans effect reaches.le (numbered_of_sound poised.sound)⟩
  · rw [unchanged]
    rfl
  · rw [unchanged]

theorem step_of_declaration (kw : Keyword) {pattern : Token} (inside : Inside w)
    (selects : (ofList tokens).prevHolds i Token.selects = false) (eq : t.key = .word kw.text)
    (got : tokens[i + 1]? = some pattern) (sameName : pattern.key = .name name) {target : Chain}
    (isTarget : (if kw == .var then Chain.nearestFunction w.here else w.here) = target) :
    w.step tokens i t = ((w.startDeclaration target).declare target name, i + 1 + 1) := by
  have at_ : w.step tokens i t =
      w.declarationAt tokens i (kw == .var) := by
    rw [step_of_word eq (inside.calm _ _ _), keywordAt, (key_eq eq).2]
    cases kw <;> rfl
  rw [at_, declarationAt, selects, if_neg Bool.false_ne_true]
  dsimp only
  rw [inside.keepDeclarations, (bindPattern_of_name got sameName _ _).1,
    (bindPattern_of_name got sameName root w).2, isTarget]

theorem reaches_declaration (kw : Keyword) (poised : Poised tokens i w) (inside : Inside w) (b : InBlock w)
    (begin : AtStart tokens i) (shows : Shows tokens i [.word kw.text, .name name, .mark "="]) :
    ∃ entered, Reaches tokens i w (i + 1 + 1 + 1) entered ∧
      Poised tokens (i + 1 + 1 + 1) entered ∧ entered.layout = w.layout ∧
      entered.declarations = ⟨w.depth, if kw == .var then Chain.nearestFunction w.here
        else w.here⟩ :: w.declarations ∧
      Effect w.here w.notes entered.notes (i + 1 + 1 + 1) [⟨kw == .var, name⟩] [] false := by
  obtain ⟨⟨t, got, eq⟩, ⟨pattern, foundName, sameName⟩, ⟨equals, foundMark, sameMark⟩, _⟩ := shows
  obtain ⟨begins, _⟩ := begin.begins inside b
  generalize isTarget : (if kw == .var then Chain.nearestFunction w.here else w.here) = target
  have step := step_of_declaration kw inside begins.selects eq foundName sameName isTarget
  obtain ⟨bs, unchanged⟩ := declare_eq target name (w.startDeclaration target)
  have notes : ((w.startDeclaration target).declare target name).notes =
      (w.declare target name).notes := by
    unfold declare startDeclaration
    dsimp only
    repeat' split
    all_goals rfl
  generalize opened : (w.startDeclaration target).declare target name = entered at step notes
  have entered_eq : entered = { w.startDeclaration target with bindings := bs } := by
    rw [← opened, unchanged]
  have reaches := Reaches.one got step
  have passed : Reaches tokens (i + 1 + 1) entered (i + 1 + 1 + 1) entered := .one foundMark
    (step_of_mark sameMark (by decide) entered tokens (i + 1 + 1))
  have declared := Effect.declare w.here w ⟨kw == .var, name⟩ (i + 1 + 1 + 1)
  rw [isTarget, ← notes] at declared
  refine ⟨entered, reaches.trans passed, ⟨reaches.sound poised.sound, ?_, ?_, ?_, ?_, ?_⟩, ?_, ?_,
    declared⟩ <;> rw [entered_eq]
  · exact poised.quiet
  · exact (poised.mono (by omega)).uses
  · exact poised.delimited
  · exact forall_mem_cons.2 ⟨Nat.le_refl _, poised.declarations⟩
  · exact poised.header
  · rfl
  · rfl

theorem walksStmt_declare (kw : Keyword) (name : String) (v : WalksValue tokens ks free waits) :
    WalksBlock tokens (.word kw.text :: .name name :: .mark "=" :: (ks ++ [.mark ";"]))
      [⟨kw == .var, name⟩] free waits := by
  intro i stop w length poised inside b begin shows
  obtain ⟨isKeyword, isName, isMark, r⟩ := shows
  obtain ⟨shown, semi⟩ := shows_append.1 r
  obtain rfl : stop = i + 1 + 1 + 1 + ks.length + 1 := by
    rw [length]
    simp only [length_cons, length_append, length_nil]
    omega
  obtain ⟨entered, reaches, poised', layout, lists, declared⟩ :=
    reaches_declaration kw poised inside b begin ⟨isKeyword, isName, isMark, trivial⟩
  injection layout with here opens pending delimited
  have depth : entered.depth = w.depth := congrArg List.length opens
  obtain ⟨equals, foundMark, sameMark⟩ := isMark
  obtain ⟨begins, isValue⟩ := begins_of_behind entered (sameMark ▸ behind_of_get? foundMark)
    (by simp [beforeValue]) fun absurd => by simp [Key.mark] at absurd
  obtain ⟨last, reaches', rests, effect⟩ := v rfl poised' begins isValue shown ⟨_, by simp, semi⟩
  obtain ⟨⟨ending, foundEnd, sameEnd⟩, _⟩ := semi
  have ended := rests.semicolon (by rw [delimited, depth]; exact inside.delimited) foundEnd sameEnd
  rw [here] at effect
  refine ⟨_, reaches.trans (reaches'.trans ended), ?_, ?_, declared.trans
    (effect.mono (Nat.le_succ _)) (by omega) (numbered_of_sound poised.sound)⟩
  · show Walk.Layout.mk entered.here last.opens last.pending entered.delimited = _
    rw [rests.opens, rests.quiet, here, opens, delimited, ← poised.quiet]
    rfl
  · -- the semicolon ends the declaration and no other
    show last.declarations.filter _ = w.declarations
    rw [rests.declarations, depth, lists, filter_cons_of_neg (by simp)]
    exact filter_eq_self.2 fun declaration mem => by
      simpa using inside.declarations declaration mem

end Statements

/-! ## Programs -/

section Programs

variable {tokens : List Token} {ks : List Key}

theorem print_phrase (p : Phrase) : ∃ key r, p.print = key :: r ∧ key ≠ .mark openBrace := by
  cases p with
  | arrow head body =>
    cases head with
    | one name => exact ⟨_, _, rfl, fun absurd => by cases absurd⟩
    | many ns => exact ⟨_, _, rfl, by decide⟩
  | name _ | number _ | string _ | call _ _ | wait _ =>
    exact ⟨_, _, rfl, fun absurd => by cases absurd⟩
  | group _ | sum _ _ | member _ _ | apply _ _ | array _ => exact ⟨_, _, rfl, by decide⟩

theorem walksPhrase_arrowPhrase {inHeader : Bool} (head : Head) (p : Phrase) {free : List String} {waits : Bool}
    (walks : WalksPhraseIn inHeader tokens p.print free waits) :
    WalksPhraseIn inHeader tokens (head.print ++ (.mark "=>" :: p.print))
      (without (head.names ++ []) free) false := by
  obtain ⟨key, r, print, other⟩ := print_phrase p
  have v := walks.value
  rw [print] at v ⊢
  exact walksPhrase_arrowValue head v other

theorem fromComma_args (arguments : Args) : FromComma arguments.printMore := by
  cases arguments with
  | nil => exact .inl rfl
  | cons fst r => exact .inr ⟨_, rfl⟩

theorem fromComma_entries (es : Entries) : FromComma es.printMore := by
  cases es with
  | nil => exact .inl rfl
  | cons fst r => exact .inr ⟨_, rfl⟩

theorem endsWell_brace (ks : List Key) : EndsWell (ks ++ [.mark closeBrace]) := ⟨ks, _, rfl, by simp⟩

theorem EndsWell.cons (ends : EndsWell ks) (key : Key) : EndsWell (key :: ks) := by
  obtain ⟨pre, last, rfl, mem⟩ := ends
  exact ⟨key :: pre, last, rfl, mem⟩

theorem EndsWell.append (ends : EndsWell ks) (pre : List Key) : EndsWell (pre ++ ks) := by
  obtain ⟨pre', last, rfl, mem⟩ := ends
  exact ⟨pre ++ pre', last, (append_assoc _ _ _).symm, mem⟩

theorem endsWell_stmt (stmt : Stmt) : EndsWell stmt.print := by
  have semi : EndsWell [Key.mark ";"] := ⟨[], _, rfl, by simp⟩
  cases stmt with
  | declare _ _ _ => exact (((semi.append _).cons _).cons _).cons _
  | phrase _ => exact semi.append _
  | give _ => exact (semi.append _).cons _
  | branch _ _ _ =>
    exact ((((((((endsWell_brace _).cons _).cons _).cons _).append _).cons _).cons _).append
      _).cons _ |>.cons _
  | loop _ _ => exact (((((endsWell_brace _).cons _).cons _).append _).cons _).cons _
  | guard _ _ _ =>
    exact ((((((((((endsWell_brace _).cons _).cons _).cons _).cons _).cons _).cons _).append
      _).cons _).cons _)
  | function _ _ _ =>
    exact ((((endsWell_brace _).cons _).append _).append _).cons _

mutual

theorem walks_phrase : ∀ p : Phrase, WalksPhrase tokens p.print p.free p.waits
  | .name name => walksPhrase_name name
  | .number text => (closedPhrase_literal text (.inl rfl)).phrase
  | .string text => (closedPhrase_literal text (.inr rfl)).phrase
  | .group v => (closedPhrase_group (walks_expr v)).phrase
  | .sum left right => (closedPhrase_sum (walks_expr left) (walks_expr right)).phrase
  | .member v prop => (closedPhrase_member (walks_expr v) prop).phrase
  | .call fn arguments => (closedPhrase_call fn (walks_args arguments)).phrase
  | .apply fn arguments =>
    (closedPhrase_apply (walks_expr fn) (walks_args arguments)).phrase
  | .array items => (closedPhrase_array (walks_args items)).phrase
  | .wait v => (closedPhrase_wait (walks_expr v)).phrase
  | .arrow head body => walks_body head body

theorem walks_expr : ∀ v : Expr, WalksValue tokens v.print v.free v.waits
  | .phrase p => (walks_phrase p).value
  | .object es => (closedValue_object (walks_entries es)).value
  | .function name params body =>
    (closedValue_function name params (walks_block body)).value

theorem walks_body (head : Head) : ∀ body : Body,
    WalksPhrase tokens (head.print ++ (.mark "=>" :: body.print))
      (without (head.names ++ body.names) body.free) false
  | .phrase p => walksPhrase_arrowPhrase head p (walks_phrase p)
  | .function name params body =>
    walksPhrase_arrowValue head (closedValue_function name params (walks_block body)).value
      fun absurd => by cases absurd
  | .block body => (closedPhrase_arrowBlock head (walks_block body)).phrase

theorem walks_args : ∀ arguments : Args, WalksItems tokens false arguments.print arguments.free arguments.waits
  | .nil => walksItems_nil
  | .cons fst r => walksItems_cons (walks_expr fst).item (walks_moreArgs r) (fromComma_args r)

theorem walks_moreArgs : ∀ arguments : Args,
    WalksMore tokens false arguments.printMore arguments.free arguments.waits
  | .nil => walksMore_nil
  | .cons fst r => walksMore_cons (walks_expr fst).item (walks_moreArgs r) (fromComma_args r)

theorem walks_entry : ∀ e : Program.Entry, WalksItems tokens true e.print e.free e.waits
  | .pair key v => walksEntry_pair key (walks_expr v)
  | .short name => walksEntry_short name
  | .method name params body => walksEntry_method name params (walks_block body)

theorem walks_entries : ∀ es : Entries, WalksItems tokens true es.print es.free es.waits
  | .nil => walksItems_nil
  | .cons fst r => walksItems_cons (walks_entry fst) (walks_moreEntries r) (fromComma_entries r)

theorem walks_moreEntries : ∀ es : Entries, WalksMore tokens true es.printMore es.free es.waits
  | .nil => walksMore_nil
  | .cons fst r => walksMore_cons (walks_entry fst) (walks_moreEntries r) (fromComma_entries r)

theorem walks_stmt : ∀ stmt : Stmt, WalksBlock tokens stmt.print stmt.declares stmt.free stmt.waits
  | .declare kw name v => walksStmt_declare kw name (walks_expr v)
  | .phrase p => walksStmt_phrase (walks_phrase p)
  | .give v => walksStmt_give (walks_expr v)
  | .branch cond yes no =>
    walksStmt_branch (walks_expr cond) (walks_block yes) (walks_block no)
  | .loop cond body => walksStmt_loop (walks_expr cond) (walks_block body)
  | .guard body name handler => walksStmt_guard name (walks_block body) (walks_block handler)
  | .function name params body => walksStmt_function name params (walks_block body)

theorem walks_block : ∀ b : Block, WalksBlock tokens b.print b.declares b.free b.waits
  | .nil => walksBlock_nil
  | .cons fst r => walksBlock_cons (walks_stmt fst) (endsWell_stmt fst) (walks_block r)

end

theorem declaredIn_root (ds : List Declared) : declaredIn root ds 0 = ds.map (·.name) := by
  unfold declaredIn
  rw [filter_eq_self.2 fun declared _ => ?_]
  unfold target
  cases declared.isVar <;> rfl

theorem topLevel_eq_namesOf (w : Walk) : w.topLevel = namesOf w.bindings 0 := rfl

/-- **The analysis of a program is exact.**  The names of the outermost scope are
those that the program declares there, a name is a reference when no scope around
some use of it declares it, and both come in the order of the program. -/
theorem analyze_program (program : Block) (tokens : List Token)
    (written : tokens.map Token.key = program.print) :
    analyze tokens =
      { topLevel := program.names.eraseDups
        references := (without program.names program.free).eraseDups
        awaits := program.waits
        yields := false } := by
  have poised : Poised tokens 0 {} :=
    ⟨.initial _, rfl, (fun _ member => nomatch member), (fun _ member => nomatch member),
      (fun _ member => nomatch member), rfl⟩
  have inside : Inside {} := ⟨(fun _ member => nomatch member), fun _ member => nomatch member⟩
  have shows : Shows tokens 0 program.print := shows_of_map written
  obtain ⟨last, reaches, _, _, effect⟩ :=
    walks_block program rfl poised inside ⟨rfl, rfl⟩ (.inl rfl) shows
  have length : 0 + program.print.length = tokens.length := by
    rw [← written, List.length_map, Nat.zero_add]
  have run : Walk.runFrom (TokenSeq.ofList tokens) 0 {} = last := by
    rw [reaches.runFrom, Walk.runFrom_of_none]
    rw [TokenSeq.get?_ofList, length, List.getElem?_eq_none (Nat.le_refl _)]
  have names : namesOf last.bindings 0 = program.names.eraseDups := by
    rw [← addNames_nil, Block.names, ← declaredIn_root]
    exact effect.names 0 Nat.one_pos
  have bound : ∀ name, boundIn last.bindings name root = decide (name ∈ program.names) := by
    intro name
    rw [Bool.eq_iff_iff, decide_eq_true_iff, ← List.mem_eraseDups, ← names, mem_namesOf]
    simp [boundIn, root]
  have references : last.freeNames = (without program.names program.free).eraseDups := by
    obtain ⟨new, uses, _, judged⟩ := effect.uses
    have free := judged last.bindings fun _ _ _ _ => Iff.rfl
    have all : last.uses = new := uses.trans (List.append_nil new)
    rw [← all] at free
    refine congrArg List.eraseDups (free.trans (List.filter_congr fun name _ => ?_))
    show (!boundIn last.bindings name root) = _
    rw [bound, decide_not]
  have awaits : last.awaits = program.waits := effect.awaits
  have yields : last.yields = false := effect.yields
  unfold analyze
  dsimp only
  rw [run, topLevel_eq_namesOf, names, references, awaits, yields]

def tokensOf (ks : List Key) : List Token :=
  ks.map fun key => ⟨key.1, key.2, 0, 0, false⟩

/-- `const f = (x) => { if (x) { var y = g(x); } else { } return y; }; let r = await (f(z));` -/
def hoistingProgram : Block :=
  .cons (.declare .const "f" (.phrase (.arrow (.many ["x"]) (.block
    (.cons (.branch (.phrase (.name "x"))
      (.cons (.declare .var "y" (.phrase (.call "g" (.cons (.phrase (.name "x")) .nil)))) .nil) .nil)
    (.cons (.give (.phrase (.name "y"))) .nil))))))
  (.cons (.declare .let "r" (.phrase (.wait (.phrase (.call "f"
    (.cons (.phrase (.name "z")) .nil)))))) .nil)

theorem analyze_hoistingProgram :
    analyze (tokensOf hoistingProgram.print) = ⟨["f", "r"], ["g", "z"], true, false⟩ :=
  (analyze_program hoistingProgram _ (by decide +kernel)).trans (by decide +kernel)

end Programs

end Scope

end Bindery
