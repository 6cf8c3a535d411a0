/-
Proofs.Cell.Normal -- the tokens of a procedure

A script cell becomes a procedure by cutting a stretch out of its source, replacing
parts of it, trimming it, and writing other text around it.  On tokens this is simple
(`normalKeys`): an expression stands between `return (` and `);`, a block loses its
braces, a program is followed by a `return` of its outputs, the arguments of calls are
rewritten and references to controls are merged.
-/
import Bindery.Proofs.Cell.Rewriting
import Bindery.Proofs.Cell.WellFormed
import Bindery.Proofs.Token.Passage

namespace Bindery

open List TokenSeq Text Import

namespace Script

variable {pre s behind source g : List Char} {tokens r : List Token} {t : Token} {snd ks : List Key}
  {tl : List Laid} {c o i : Nat} {name : String} {m : Mode}

/-! ## The tokens of a body -/

/-- The tokens without one final semicolon. -/
def withoutSemicolon (keys : List Key) : List Key :=
  if keys.getLast? = some (.mark ";") then keys.dropLast else keys

def keysBetween (keys : List Key) (o c : Nat) : List Key :=
  (keys.take c).drop (o + 1)

/-- The body that returns the expression starting at an index, or the inside of a lone
block. -/
def expressionKeys (seq : TokenSeq) (keys : List Key) (start : Nat) : List Key :=
  match Form.loneBlock? seq start with
  | some c => keysBetween keys start c
  | none => .word "return" :: .mark "(" ::
      ((withoutSemicolon keys).drop start ++ [.mark ")", .mark ";"])

def formKeys (form : Form) (seq : TokenSeq) (keys : List Key) : List Key :=
  match form with
  | .empty => []
  | .named _ start | .view _ start => expressionKeys seq keys start
  | .block o c => keysBetween keys o c
  | .expression => expressionKeys seq keys 0
  | .program => keys

def returnKeys : List String → List Key
  | [] => []
  | [name] => [.word "return", .name name, .mark ";"]
  | names => .word "return" :: .mark openBrace ::
      ((names.map Key.name).intersperse (.mark ",") ++ [.mark closeBrace, .mark ";"])

/-- The tokens of a cell's body. -/
def normalKeys (isView : Bool) (tokens : List Token) (outputs : List String) : List Key :=
  let form := Form.detect tokens isView
  mergeViews none (formKeys form tokens (rewriteCalls none tokens)) ++
    if form = .program then returnKeys outputs else []

/-! ## Passages of a cell -/

theorem spells_calls (stands : Stands .start pre s tokens behind) (p : Option Token) :
    Spells (applyEdits (pre ++ (s ++ behind)) (byteLength pre) (byteLength (pre ++ s))
      (callEdits p tokens)) (rewriteCalls p tokens) behind := by
  obtain ⟨ps, g, closed, rfl, valid, isGap, outside, placed⟩ := stands
  obtain ⟨ps', edited, read⟩ := edited_calls p placed
  rw [← read, byteLength_append]
  exact spells_applyEdits edited valid isGap outside

theorem replaceViews_eq (done : lexFrom {} s = .ok tokens) :
    ∃ s' tokens', replaceViews s = .ok s' ∧ lexFrom {} s' = .ok tokens' ∧
      tokens'.map Token.key = mergeViews none (tokens.map Token.key) := by
  obtain ⟨ps, g, closed, split, valid, isGap, outside, placed⟩ := stands_of_lexFrom done
  obtain ⟨ps', edited, read⟩ := edited_views none placed
  have spells := spells_applyEdits edited valid isGap outside
  rw [read, ← split] at spells
  obtain ⟨tokens', done', ks⟩ := lexFrom_of_spells spells
  refine ⟨_, tokens', by rw [replaceViews, done]; rfl, ?_, ks⟩
  simpa [byteLength] using done'

/-- The tokens from an index on stand in the text behind `pre`, and are rewritten by
themselves. -/
def Begins (mode : Mode) (pre s : List Char) (tokens : List Token) (index : Nat) : Prop :=
  ∃ before, Stands mode pre s (tokens.drop index) [] ∧
    callEdits none tokens = callEdits before (tokens.drop index) ∧
    rewriteCalls none tokens =
      (tokens.take index).map Token.key ++ rewriteCalls before (tokens.drop index)

theorem Begins.next {pre s : List Char} {tokens : List Token}
    {t : Token} (begins : Begins m pre s tokens i)
    (here : tokens[i]? = some t) (single : t.Single)
    (plain : loader? t = none ∨ ∀ o, tokens[i + 1]? = some o → o.isPunct "(" = false) :
    ∃ pre' s', pre ++ s = pre' ++ s' ∧ t.stop = byteLength pre' ∧
      Begins (m.after (.plain t.kind t.text.toList)) pre' s' tokens (i + 1) := by
  obtain ⟨p, stands, edits, ks⟩ := begins
  obtain ⟨inside, rfl⟩ := List.getElem?_eq_some_iff.1 here
  rw [drop_eq_getElem_cons inside] at stands edits ks
  have none : ∀ o ∈ (tokens.drop (i + 1)).head?, ∀ arg,
      call? p tokens[i] o arg = none := by
    intro o next arg
    rcases plain with other | unopened
    · exact call?_of_loader other _ _ _
    · rw [head?_drop] at next
      unfold call?
      split
      · rfl
      · rw [if_neg (by simp [unopened o next])]
  rw [callEdits_cons _ fun o mem arg _ => none o mem arg] at edits
  rw [rewriteCalls_cons _ none] at ks
  obtain ⟨g, s', rfl, stop, later⟩ := stands.tail single
  refine ⟨_, s', ?_, stop, some tokens[i], later, edits, ?_⟩
  · simp
  · rw [ks, take_add_one, here, map_append, append_assoc]
    rfl

/-! ## Expressions -/

theorem isBlank_of_lineFeed (c : Char) (feed : (c == '\n')) : isBlank c := by
  rw [beq_iff_eq.1 feed]
  decide

theorem stop_of_mark {s : String} (mark : t.isPunct s) (other : s = ";" ∨ s = closeBrace) (tl : List Char) :
    Stop (t.text.toList ++ tl) := by
  rw [(key_eq (key_eq_mark.2 mark)).2]
  rcases other with rfl | rfl
  · rintro _ ⟨⟩
    exact .inr (.inl rfl)
  · rintro _ ⟨⟩
    exact .inr (.inr (.inl rfl))

theorem spells_trimmed (stands : Stands .start pre s (t :: r) behind)
    (stop : Stop behind) (p : Option Token) :
    Spells (trimEnd (applyEdits (pre ++ (s ++ behind)) t.start (byteLength (pre ++ s))
      (callEdits p (t :: r)))) (rewriteCalls p (t :: r))
      "\n);".toList := by
  obtain ⟨g, s', rfl, start, stands'⟩ := stands.first
  have spells := spells_calls stands' p
  rw [← start] at spells
  simp only [append_assoc] at spells ⊢
  exact spells.dropEnd (fun _ blank => blank) stop (stop_of_blank _ (by decide))

theorem withoutSemicolon_append_of_ne_nil (fst : List Key) (ne : snd ≠ []) :
    withoutSemicolon (fst ++ snd) = fst ++ withoutSemicolon snd := by
  unfold withoutSemicolon
  rw [getLast?_append_of_ne_nil _ ne]
  split
  · rw [dropLast_append_of_ne_nil ne]
  · rfl

theorem withoutSemicolon_rewriteCalls {last : Token} (p : Option Token) (other : last.isPunct ";" = false) :
    withoutSemicolon (rewriteCalls p (tokens ++ [last])) = rewriteCalls p (tokens ++ [last]) := by
  rw [withoutSemicolon, if_neg]
  intro got
  have kind : last.kind = .punct := by
    have kinds := congrArg getLast? (kinds_rewriteCalls p (tokens ++ [last]))
    rw [getLast?_map, got, getLast?_map, getLast?_concat] at kinds
    exact (Option.some.inj kinds).symm
  have plain : ∀ t ∈ [last], t.kind ≠ .string := by simp [kind]
  rw [(calls_append_of_no_string p tokens plain).2, map_singleton, getLast?_concat] at got
  rw [key_eq_mark.1 (Option.some.inj got)] at other
  cases other

/-- **The expression of a cell, up to a final semicolon.** -/
theorem spells_expression (split : source = pre ++ s)
    (stands : Stands .start pre s (t :: r) []) (p : Option Token) :
    Spells (trimEnd (applyEdits source t.start
      (match (t :: r).getLast?.filter (·.isPunct ";") with
        | some semi => semi.start
        | none => byteLength source)
      (callEdits p (t :: r))))
      (withoutSemicolon (rewriteCalls p (t :: r))) "\n);".toList := by
  subst split
  obtain ⟨init, last, whole⟩ : ∃ init last, t :: r = init ++ [last] := by
    rcases eq_nil_or_concat (t :: r) with absurd | ⟨init, last, whole⟩
    · cases absurd
    · exact ⟨init, last, by rw [whole, concat_eq_append]⟩
  have filtered : (some last).filter (·.isPunct ";") =
      if last.isPunct ";" then some last else none := rfl
  rw [whole, getLast?_concat, filtered]
  cases mark : last.isPunct ";" with
  | false =>
    rw [if_neg (by decide)]
    dsimp only
    rw [withoutSemicolon_rewriteCalls p mark, ← whole]
    simpa using spells_trimmed stands stop_nil p
  | true =>
    rw [if_pos rfl]
    dsimp only
    have plain : ∀ t ∈ [last], t.kind ≠ .string := by
      have kind : last.kind = .punct := congrArg Prod.fst (key_eq_mark.2 mark)
      simp [kind]
    have single : ∀ other ∈ [last], other.Single := by
      simpa using single_of_mark mark (by decide) (by decide)
    rw [whole] at stands
    obtain ⟨s', tl, rfl, start, stands'⟩ := stands.init single
    obtain ⟨edits, ks⟩ := calls_append_of_no_string p init plain
    rw [edits, ks, map_singleton, key_eq_mark.2 mark, withoutSemicolon, if_pos (by simp),
      dropLast_concat, start]
    cases init with
    | nil =>
      -- a semicolon alone: the window is empty
      cases whole
      rw [start]
      show Spells (trimEnd (takeBytes (_ - _) _)) [] _
      rw [Nat.sub_self, takeBytes_zero]
      exact spells_nil _
    | cons fst init =>
      cases whole
      have spells := spells_trimmed stands' (stop_of_mark mark (.inl rfl) _) p
      simpa using spells

theorem plain_return {r : List Char} (isGap : Gap true g)
    (ends : (written tl ++ r).head?.any isWordPart = false) (later : Plain tl r) :
    Plain (⟨g, .plain .keyword "return".toList⟩ :: tl) r := by
  have parts : ∀ d ∈ "eturn".toList, isWordPart d := forall_mem_of_all (by decide +kernel)
  exact Plain.word isGap (.inl (by decide +kernel)) parts ends later

/-- **A returned expression** stands between `return (` and `);`. -/
theorem spells_return {s : List Char}
    (spells : Spells s ks "\n);".toList) :
    Spells ("return (\n".toList ++ s ++ "\n);".toList)
      (.word "return" :: .mark "(" :: (ks ++ [.mark ")", .mark ";"])) [] := by
  have line : Gap true ['\n'] := .blank (by decide) .nil
  have closing : Plain [⟨['\n'], .plain .punct [')']⟩, ⟨[], .plain .punct [';']⟩] [] :=
    .mark line (by decide) (.mark .nil (by decide) (.nil []))
  have opening (r : List Char) :
      Plain [⟨[], .plain .keyword "return".toList⟩, ⟨[' '], .plain .punct ['(']⟩] r :=
    plain_return .nil (show isWordPart ' ' = false by decide +kernel)
      (.mark (.blank (by decide) .nil) (by decide) (.nil r))
  -- the line feed in front of the parenthesis ends a comment that the cut has left open
  have whole := ((Spells.append closing spells).indent line).prepend (opening _) rfl
  rw [append_assoc]
  exact whole

/-! ## Blocks -/

/-- **The inside of a block.** -/
theorem spells_block {suffix : List Token} {c : Token} (split : source = pre ++ s)
    (stands : Stands .start pre s (tokens ++ c :: suffix) []) (closing : c.isPunct closeBrace)
    (ending : ∀ t ∈ suffix, t.isPunct ";") (p : Option Token) :
    Spells (trimLineFeeds (applyEdits source (byteLength pre) c.start
      (callEdits p (tokens ++ c :: suffix)))) (rewriteCalls p tokens) [] ∧
    rewriteCalls p (tokens ++ c :: suffix) = rewriteCalls p tokens ++ (c :: suffix).map Token.key := by
  have single : ∀ other ∈ c :: suffix, other.Single := by
    intro other mem
    rcases mem_cons.1 mem with rfl | mem
    · exact single_of_mark closing (by decide) (by decide)
    · exact single_of_mark (ending other mem) (by decide) (by decide)
  have plain : ∀ t ∈ c :: suffix, t.kind ≠ .string := by
    intro other mem
    have mark : other.kind = .punct := by
      rcases mem_cons.1 mem with rfl | mem
      · exact congrArg Prod.fst (key_eq_mark.2 closing)
      · exact congrArg Prod.fst (key_eq_mark.2 (ending other mem))
    simp [mark]
  obtain ⟨s', tl, rfl, start, stands'⟩ := stands.init single
  obtain ⟨edits, ks⟩ := calls_append_of_no_string p tokens plain
  refine ⟨?_, ks⟩
  have spells := spells_calls stands' p
  rw [append_nil, ← split, ← start, ← edits] at spells
  exact (spells.dropStart isBlank_of_lineFeed).dropEnd isBlank_of_lineFeed
    (stop_of_mark closing (.inr rfl) _) stop_nil

theorem loneBlock?_eq_some (got : Form.loneBlock? tokens o = some c) :
    o < c ∧ ∃ opening closing suffix, tokens[o]? = some opening ∧
      opening.isPunct openBrace ∧ tokens.drop c = closing :: suffix ∧
      closing.isPunct closeBrace ∧ ∀ t ∈ suffix, t.isPunct ";" := by
  unfold Form.loneBlock? at got
  split at got
  · next opens =>
    obtain ⟨pair, last⟩ := Option.filter_eq_some_iff.1 got
    have closes := closer?_ofList.1 pair
    obtain ⟨opening, fst, brace⟩ := holds_eq_true.1 opens
    rw [get?_ofList] at fst
    obtain ⟨closing, snd, brace'⟩ := closes.brace fst brace
    refine ⟨closes.lt, opening, closing, tokens.drop (c + 1), fst, brace, ?_, brace', ?_⟩
    · exact (drop_of_get? (by rw [get?_ofList, snd])).1
    · intro t mem
      rw [Form.isLast, Bool.or_eq_true, beq_iff_eq, Bool.and_eq_true, beq_iff_eq] at last
      have size : (ofList tokens).size = tokens.length := by
        simp [size, ofList]
      rw [size] at last
      rcases last with last | ⟨last, semi⟩
      · rw [drop_eq_nil_of_le (by omega)] at mem
        cases mem
      · obtain ⟨mark, here, isMark⟩ := holds_eq_true.1 semi
        rw [(drop_of_get? here).1, drop_eq_nil_of_le (by omega)] at mem
        cases mem_singleton.1 mem
        exact isMark
  · cases got

theorem keysBetween_append {fst third : List Key} (start : fst.length = o + 1)
    (stop : fst.length + snd.length = c) : keysBetween (fst ++ (snd ++ third)) o c = snd := by
  rw [keysBetween, ← append_assoc, take_left' (by simpa using stop), drop_left' start]

/-- **The body of a lone block.** -/
theorem spells_blockBody (begins : Begins .start pre s tokens o) (got : Form.loneBlock? tokens o = some c) :
    Spells (blockBody (pre ++ s) tokens o c
      (callEdits none tokens)) (keysBetween (rewriteCalls none tokens) o c) [] := by
  obtain ⟨order, opening, closing, suffix, fst, brace, r, brace', semicolons⟩ := loneBlock?_eq_some got
  obtain ⟨kind, w⟩ := key_eq (key_eq_mark.2 brace)
  obtain ⟨pre', s', split, stop, p, stands, edits, ks⟩ :=
    begins.next fst (single_of_mark brace (by decide) (by decide)) (.inl (loader?_of_isPunct brace))
  rw [kind, w] at stands
  have snd : tokens[c]? = some closing := by
    rw [← head?_drop, r]
    rfl
  have bound := (List.getElem?_eq_some_iff.1 snd).1
  -- the tokens between the braces
  obtain ⟨middle, length, inside⟩ : ∃ middle : List Token, middle.length = c - (o + 1) ∧
      tokens.drop (o + 1) = middle ++ closing :: suffix := by
    refine ⟨(tokens.drop (o + 1)).take (c - (o + 1)), ?_, ?_⟩
    · rw [length_take, length_drop]
      omega
    · have := take_append_drop (c - (o + 1)) (tokens.drop (o + 1))
      rw [drop_drop, Nat.add_sub_cancel' order, r] at this
      exact this.symm
  rw [inside] at stands edits ks
  obtain ⟨spells, ks'⟩ := spells_block split stands brace' semicolons p
  have between : keysBetween (rewriteCalls none tokens) o c = rewriteCalls p middle := by
    rw [ks, ks']
    refine keysBetween_append ?_ ?_
    · rw [length_map, length_take]
      omega
    · rw [length_map, length_take, length_rewriteCalls]
      omega
  rw [between, edits, blockBody, get?_ofList, get?_ofList, fst, snd]
  dsimp only [Option.elim]
  rw [stop]
  exact spells

/-- **The body of an expression, or of a lone block in its place.** -/
theorem spells_expressionBody {start : Nat} (begins : Begins .start pre s tokens start)
    (inside : start < tokens.length) :
    Spells (expressionBody (pre ++ s) tokens start (callEdits none tokens))
      (expressionKeys tokens (rewriteCalls none tokens) start) [] := by
  unfold expressionBody expressionKeys
  cases got : Form.loneBlock? tokens start with
  | some c => exact spells_blockBody begins got
  | none =>
    obtain ⟨p, stands, edits, ks⟩ := begins
    have here : tokens[start]? = some tokens[start] := getElem?_eq_getElem inside
    have last : (ofList tokens).get? ((ofList tokens).size - 1) =
        (tokens.drop start).getLast? := by
      rw [get?_ofList, getLast?_drop, if_neg (by omega), getLast?_eq_getElem?]
      simp [size, ofList]
    have expression : (withoutSemicolon (rewriteCalls none tokens)).drop start =
        withoutSemicolon (rewriteCalls p (tokens.drop start)) := by
      have ne : rewriteCalls p (tokens.drop start) ≠ [] := by
        intro empty
        have length := congrArg length empty
        rw [length_rewriteCalls, length_drop, length_nil] at length
        omega
      rw [ks, withoutSemicolon_append_of_ne_nil _ ne, drop_left']
      rw [length_map, length_take]
      omega
    dsimp only
    rw [expression, edits, get?_ofList, here, expressionStop, last]
    rw [drop_eq_getElem_cons inside] at stands ⊢
    exact spells_return (spells_expression rfl stands p)

/-! ## Forms -/

theorem Begins.definition {name equals : Token} (begins : Begins m pre s tokens i) (outside : m.braces = [])
    (fst : tokens[i]? = some name) (ident : name.kind = .ident) (snd : tokens[i + 1]? = some equals)
    (mark : equals.isPunct "=") :
    ∃ pre' s', pre ++ s = pre' ++ s' ∧ Begins .start pre' s' tokens (i + 2) := by
  obtain ⟨kind, w⟩ := key_eq (key_eq_mark.2 mark)
  have unopened : ∀ o, tokens[i + 1]? = some o → o.isPunct "(" = false := by
    intro o got
    rw [snd] at got
    cases got
    simp [Token.isPunct, w]
  obtain ⟨pre₁, s₁, split₁, -, begins₁⟩ := begins.next fst (single_of_ident ident) (.inr unopened)
  obtain ⟨pre₂, s₂, split₂, -, begins₂⟩ :=
    begins₁.next snd (single_of_mark mark (by decide) (by decide)) (.inl (loader?_of_isPunct mark))
  refine ⟨pre₂, s₂, split₁.trans split₂, ?_⟩
  have start : (m.after (.plain name.kind name.text.toList)).after
      (.plain equals.kind equals.text.toList) = .start := by
    rw [kind, w, ident]
    simp only [Mode.after, outside]
    rfl
  rw [start] at begins₂
  exact begins₂

/-- **The body that a form gives**, whatever the form. -/
theorem spells_formBody (isView : Bool) (done : lexFrom {} source = .ok tokens) :
    Spells (formBody (Form.detect tokens isView) source tokens (callEdits none tokens))
      (formKeys (Form.detect tokens isView) tokens (rewriteCalls none tokens)) [] := by
  have begins : Begins .start [] source tokens 0 := ⟨none, stands_of_lexFrom done, rfl, rfl⟩
  have size : (ofList tokens).size = tokens.length := by
    simp [TokenSeq.size, ofList]
  unfold Form.detect
  split
  · exact spells_nil []
  · next fst here =>
    rw [get?_ofList] at here
    have ne : 0 < tokens.length := (List.getElem?_eq_some_iff.1 here).1
    split
    · next name got =>
      obtain ⟨snd, cond⟩ := Option.filter_eq_some_iff.1 got
      simp only [Bool.and_eq_true, beq_iff_eq, decide_eq_true_eq] at cond
      obtain ⟨⟨⟨⟨⟨-, viewof⟩, ident⟩, equals⟩, long⟩, -⟩ := cond
      obtain ⟨mark, third, isMark⟩ := holds_eq_true.1 equals
      rw [get?_ofList] at snd third
      have word : fst.kind = .ident ∧ fst.text = "viewof" := by
        simpa [Token.isIdent] using viewof
      have plain : loader? fst = none := by
        simp [loader?, Token.isKeyword, Token.isIdent, word]
      obtain ⟨pre₁, s₁, split₁, -, begins₁⟩ := begins.next here (single_of_ident word.1) (.inl plain)
      have outside : (Mode.start.after (.plain fst.kind fst.text.toList)).braces = [] := by
        rw [word.1]
        rfl
      obtain ⟨pre₂, s₂, split₂, begins₂⟩ := begins₁.definition outside snd ident third isMark
      rw [show source = pre₂ ++ s₂ from split₁.trans split₂]
      exact spells_expressionBody begins₂ (size ▸ long)
    split
    · next cond =>
      obtain ⟨ident, equals, long, -⟩ := cond
      obtain ⟨mark, snd, isMark⟩ := holds_eq_true.1 equals
      rw [get?_ofList] at snd
      obtain ⟨pre, s, split, begins'⟩ := begins.definition rfl here ident snd isMark
      rw [show source = pre ++ s from split]
      exact spells_expressionBody begins' (size ▸ long)
    split
    · next c got => exact spells_blockBody begins got
    split
    · exact spells_expressionBody begins ne
    · have spells := spells_calls (stands_of_lexFrom done) none
      rw [append_nil] at spells
      exact spells

/-! ## The statement behind a program -/

theorem plain_name {r : List Char} (w : IsWord name) (isGap : Gap true g)
    (ends : (written tl ++ r).head?.any isWordPart = false) (later : Plain tl r) :
    Plain (⟨g, .plain .ident name.toList⟩ :: tl) r := by
  obtain ⟨c, ps, rfl, start, all, free⟩ := w
  have plain := Plain.word isGap start all ends later
  rw [Mode.wordKind, if_neg (by rw [free]; decide)] at plain
  rw [String.toList_ofList]
  exact plain

def listPieces (g : List Char) (name : String) : List String → List Laid
  | [] => [⟨g, .plain .ident name.toList⟩, ⟨[], .plain .punct ['\x7d']⟩, ⟨[], .plain .punct [';']⟩]
  | next :: r => ⟨g, .plain .ident name.toList⟩ :: ⟨[], .plain .punct [',']⟩ ::
      listPieces [' '] next r

theorem written_listPieces (g : List Char) (name : String) (r : List String) :
    written (listPieces g name r) = g ++ ((", ".intercalate (name :: r)).toList ++ ['\x7d', ';']) := by
  induction r generalizing g name with
  | nil => simp [listPieces, written, Piece.text]
  | cons next r ih =>
    rw [listPieces, written, written, ih, String.intercalate_cons_cons, String.toList_append,
      String.toList_append]
    simp [Piece.text]

theorem keysOf_listPieces (g : List Char) (name : String) (r : List String) :
    keysOf (listPieces g name r) =
      ((name :: r).map Key.name).intersperse (.mark ",") ++ [.mark closeBrace, .mark ";"] := by
  induction r generalizing g name with
  | nil =>
    simp [listPieces, keysOf, Piece.keys, Key.name]
    exact ⟨rfl, rfl⟩
  | cons next r ih =>
    rw [listPieces, keysOf_cons, keysOf_cons, ih]
    simp only [map_cons, intersperse_cons_cons, Piece.keys, cons_append, nil_append, String.ofList_toList]
    rfl

theorem plain_listPieces {r : List String} (isGap : Gap true g)
    (words : ∀ other ∈ name :: r, IsWord other) : Plain (listPieces g name r) [] := by
  induction r generalizing g name with
  | nil =>
    exact plain_name (words name mem_cons_self) isGap
      (show isWordPart '\x7d' = false by decide +kernel)
      (.mark .nil (by decide) (.mark .nil (by decide) (.nil [])))
  | cons next r ih =>
    exact plain_name (words name mem_cons_self) isGap
      (show isWordPart ',' = false by decide +kernel)
      (.mark .nil (by decide) (ih (.blank (by decide) .nil) fun other mem =>
        words other (.tail _ mem)))

/-- **A program and the statement that returns its outputs.** -/
theorem spells_returnStatement {ns : List String} (spells : Spells s ks []) (words : ∀ name ∈ ns, IsWord name) :
    Spells (s ++ (returnStatement ns).toList) (ks ++ returnKeys ns) [] := by
  have line : Gap true ['\n'] := .blank (by decide) .nil
  have space : Gap true [' '] := .blank (by decide) .nil
  have spaced : isWordPart ' ' = false := by decide +kernel
  have lined (r : List Char) : Stop ('\n' :: r) := stop_of_blank r (by decide)
  match ns with
  | [] =>
    rw [returnKeys, append_nil, show (returnStatement []).toList = [] from rfl, append_nil]
    exact spells
  | [name] =>
    have plain : Plain [⟨['\n'], .plain .keyword "return".toList⟩,
        ⟨[' '], .plain .ident name.toList⟩, ⟨[], .plain .punct [';']⟩] [] :=
      plain_return line spaced (plain_name (words name mem_cons_self) space
        (show isWordPart ';' = false by decide +kernel) (.mark .nil (by decide) (.nil [])))
    have whole := Spells.append plain (spells.before stop_nil (lined _))
    have text : (returnStatement [name]).toList = written [⟨['\n'], .plain .keyword "return".toList⟩,
        ⟨[' '], .plain .ident name.toList⟩, ⟨[], .plain .punct [';']⟩] := by
      simp [returnStatement, written, Piece.text]
    have ks' : returnKeys [name] = keysOf [⟨['\n'], .plain .keyword "return".toList⟩,
        ⟨[' '], .plain .ident name.toList⟩, ⟨[], .plain .punct [';']⟩] := by
      simp only [keysOf, flatMap_cons, Piece.keys, String.ofList_toList]
      rfl
    rw [text, ks']
    exact whole
  | name :: next :: r =>
    have plain : Plain (⟨['\n'], .plain .keyword "return".toList⟩ ::
        ⟨[' '], .plain .punct ['\x7b']⟩ :: listPieces [] name (next :: r)) [] :=
      plain_return line spaced (.mark space (by decide) (plain_listPieces .nil words))
    have whole := Spells.append plain (spells.before stop_nil (lined _))
    have text : (returnStatement (name :: next :: r)).toList =
        written (⟨['\n'], .plain .keyword "return".toList⟩ :: ⟨[' '], .plain .punct ['\x7b']⟩ ::
          listPieces [] name (next :: r)) := by
      rw [written, written, written_listPieces]
      simp [returnStatement, Piece.text]
    have ks' : returnKeys (name :: next :: r) =
        keysOf (⟨['\n'], .plain .keyword "return".toList⟩ :: ⟨[' '], .plain .punct ['\x7b']⟩ ::
          listPieces [] name (next :: r)) := by
      rw [keysOf_cons, keysOf_cons, keysOf_listPieces]
      rfl
    rw [text, ks']
    exact whole

/-! ## Procedures -/

theorem isWord_of_mem_outputs (done : lexFrom {} s = .ok tokens) (declared : List String) :
    ∀ name ∈ programOutputs declared (Scope.analyze tokens).topLevel, IsWord name := by
  intro name mem
  have top : name ∈ (Scope.analyze tokens).topLevel := by
    unfold programOutputs at mem
    split at mem
    · exact mem
    · exact (mem_filter.1 mem).1
  obtain ⟨i, t, got, ident, rfl⟩ := (Scope.analyze_topLevel tokens).2 name top
  rw [get?_ofList] at got
  exact isWord_of_mem_lexFrom done t (mem_of_getElem? got) ident

theorem spells_assemble (done : lexFrom {} s = .ok tokens) (cell : SourceCell) (form : Form)
    (imports : Import.Found) :
    Spells (assemble cell form imports s (Scope.analyze tokens)).body.toList
      (tokens.map Token.key ++ if form = .program then
        returnKeys (assemble cell form imports s (Scope.analyze tokens)).outputs else []) [] := by
  have spells := spells_of_lexFrom done
  unfold assemble endingOf outputsOf
  dsimp only
  rw [String.toList_append, String.toList_ofList]
  by_cases program : form = .program
  · rw [if_pos program, if_pos program, if_pos program]
    exact spells_returnStatement spells (isWord_of_mem_outputs done cell.declared)
  · rw [if_neg program, if_neg program, append_nil]
    simpa using spells

theorem compile_of_lexFrom {cell : SourceCell} (done : lexFrom {} cell.source.toList = .ok tokens)
    (calls : onlyCalls none tokens) :
    ∃ compiled bodyTokens, compile cell = .ok compiled ∧ lexFrom {} compiled.body.toList = .ok bodyTokens ∧
      bodyTokens.map Token.key = normalKeys cell.isView tokens compiled.outputs := by
  obtain ⟨imports, scanned, edits⟩ := scan_eq calls
  -- the body is read once to find the references and once more to be analysed
  obtain ⟨formTokens, formed, formRead⟩ := lexFrom_of_spells (spells_formBody cell.isView done)
  obtain ⟨body, tokens', replaced, relexed, read⟩ := replaceViews_eq formed
  obtain ⟨bodyTokens, lexed, ks⟩ := lexFrom_of_spells (spells_assemble relexed cell
    (Form.detect tokens cell.isView) imports)
  refine ⟨_, bodyTokens, compile_eq_ok.2 ⟨tokens, imports, body, tokens',
    Except.mapError_eq_ok.2 done, scanned, edits ▸ replaced, Except.mapError_eq_ok.2 relexed, rfl⟩,
    lexed, ?_⟩
  rw [ks, read, formRead]
  rfl

end Script

/-- **A script cell without static imports becomes a procedure exactly when its source has
tokens, and then the body has the same tokens in normal form.** -/
theorem compile_keys (cell : SourceCell) (script : cell.language = .script)
    (calls : ∀ tokens, lexFrom {} cell.source.toList = .ok tokens →
      Import.onlyCalls none tokens = true) :
    ((∃ compiled, cell.compile = .ok compiled) ↔
      ∃ tokens, lexFrom {} cell.source.toList = .ok tokens) ∧
    ∀ compiled, cell.compile = .ok compiled → ∃ tokens bodyTokens,
      lexFrom {} cell.source.toList = .ok tokens ∧
      lexFrom {} compiled.body.toList = .ok bodyTokens ∧
      bodyTokens.map Token.key = Script.normalKeys cell.isView tokens compiled.outputs := by
  have same (compiled : CompiledCell) :
      cell.compile = .ok compiled ↔ Script.compile cell = .ok compiled := by
    rw [SourceCell.compile, script]
    exact Except.mapError_eq_ok
  have lexed {compiled : CompiledCell} (done : cell.compile = .ok compiled) :
      ∃ tokens, lexFrom {} cell.source.toList = .ok tokens := by
    obtain ⟨tokens, -, -, -, lexed, -⟩ := Script.compile_eq_ok.1 ((same compiled).1 done)
    exact ⟨tokens, Except.mapError_eq_ok.1 lexed⟩
  refine ⟨⟨fun ⟨compiled, done⟩ => lexed done, ?_⟩, ?_⟩
  · rintro ⟨tokens, done⟩
    obtain ⟨compiled, _, compiles, -⟩ := Script.compile_of_lexFrom done (calls tokens done)
    exact ⟨compiled, (same compiled).2 compiles⟩
  · intro compiled done
    obtain ⟨tokens, source⟩ := lexed done
    obtain ⟨compiled', bodyTokens, compiles, body, keys⟩ :=
      Script.compile_of_lexFrom source (calls tokens source)
    have unique : compiled' = compiled := by
      rw [(same compiled).1 done] at compiles
      exact (Except.ok.inj compiles).symm
    subst unique
    exact ⟨tokens, bodyTokens, source, body, keys⟩

/-- A definition that loads a package, reads a control and ends in a comment. -/
theorem compile_keys_definition :
    let cell : SourceCell := ⟨"1", 1, .script,
      "y = import(\"npm:d3@7\").then(f => f(viewof x) / 2) // half", [], false⟩
    let keys : List Key :=
      [.word "return", .mark "(", .word "import", .mark "(", (.string, "\"d3\""), .mark ")",
        .mark ".", .name "then", .mark "(", .name "f", .mark "=>", .name "f", .mark "(",
        .name "$viewof$x", .mark ")", .mark "/", (.number, "2"), .mark ")", .mark ")", .mark ";"]
    ∃ compiled bodyTokens, cell.compile = .ok compiled ∧ compiled.outputs = ["y"] ∧
      lexFrom {} compiled.body.toList = .ok bodyTokens ∧ bodyTokens.map Token.key = keys := by
  intro cell keys
  have known : (lexFrom {} cell.source.toList).toOption.any (fun tokens =>
      Import.onlyCalls none tokens && Script.normalKeys cell.isView tokens ["y"] == keys) = true := by
    decide +kernel
  have outputs : cell.compile.toOption.map (·.outputs) = some ["y"] := by decide +kernel
  cases source : lexFrom {} cell.source.toList with
  | error error => rw [source] at known; cases known
  | ok tokens =>
      rw [source] at known
      obtain ⟨calls, normal⟩ := Bool.and_eq_true_iff.1 known
      obtain ⟨compiles, read⟩ := compile_keys cell rfl fun tokens' source' => by
        rw [source] at source'
        cases source'
        exact calls
      obtain ⟨compiled, done⟩ := compiles.2 ⟨tokens, source⟩
      obtain ⟨tokens', bodyTokens, source', body, same⟩ := read compiled done
      rw [source] at source'
      cases source'
      rw [done] at outputs
      have named : compiled.outputs = ["y"] := Option.some.inj outputs
      rw [named, beq_iff_eq.1 normal] at same
      exact ⟨compiled, bodyTokens, done, named, body, same⟩

end Bindery
