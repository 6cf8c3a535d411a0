/-
Proofs.Token.Tiling -- how the tokens cover a text

The spans of the tokens lie in the text one behind the other, and nothing but gaps and the texts
of templates is left between them (`tokenize_tiles`).  A template has the marks of its substitutions
at their edges, and these marks nest: inside a substitution the braces that are tokens pair up, so
that the brace that closes it is the first one that closes none of them (`tokenize_nested`).
-/
import Bindery.Proofs.Token.Lookahead

namespace Bindery

open List Text Scan

/-- A mark without width, at the edge of a substitution. -/
def Token.isEdge (tok : Token) (text : String) : Bool :=
  tok.isPunct text && tok.start == tok.stop

variable {tok : Token} {p : Option Token} {toks later : List Token} {pieces : List Laid}
  {chunk lead trail text rest lexeme : List Char} {mark : Scan.TemplateEnd} {m : Mode}
  {closed : Bool} {pos : Nat} {kind : TokenKind} {piece : Piece}

theorem isEdge_mark (text : String) (pos : Nat) (nl : Bool) :
    (⟨.punct, text, pos, pos, nl⟩ : Token).isEdge text := by
  simp [Token.isEdge, Token.isPunct]

/-! ## Between two tokens -/

/-- Template text: no backquote and no opening of a substitution that is not escaped. -/
inductive IsChunk : List Char → Prop where
  | nil : IsChunk []
  | escape (c : Char) {rest : List Char} (later : IsChunk rest) : IsChunk ('\\' :: c :: rest)
  | cons {c : Char} {rest : List Char} (escape : c ≠ '\\') (backquote : c ≠ '\x60')
      (opening : c = '$' → rest.head? ≠ some '\x7b') (later : IsChunk rest) : IsChunk (c :: rest)

/-- What stands between a token and the template text behind it. -/
inductive Leads : Token → List Char → Prop where
  | template {tok : Token} (kind : tok.kind = .template) : Leads tok []
  | resume {tok : Token} (edge : tok.isEdge ")" = true) : Leads tok ['\x7d']

/-- What stands between a token and the gap behind it. -/
inductive Trails : Option Token → List Char → Prop where
  | start : Trails none []
  | plain {tok : Token} (kind : tok.kind ≠ .template) (wide : tok.start ≠ tok.stop) :
      Trails (some tok) []
  | opened {tok : Token} (edge : tok.isEdge "(" = true) : Trails (some tok) ['$', '\x7b']
  | closed {tok : Token} {lead chunk : List Char} (leads : Leads tok lead)
      (isChunk : IsChunk chunk) : Trails (some tok) (lead ++ (chunk ++ ['\x60']))

/-- The text from the end of a token to the beginning of the next: a gap, which may be open only at
the end of the text, or template text in front of a substitution. -/
inductive Between : Option Token → List Char → Option Token → Prop where
  | gap {p next : Option Token} {trail gap : List Char} {closed : Bool}
      (trails : Trails p trail) (isGap : Gap closed gap) (ends : next ≠ none → closed = true) :
      Between p (trail ++ gap) next
  | chunk {tok next : Token} {lead chunk : List Char} (leads : Leads tok lead)
      (isChunk : IsChunk chunk) (edge : next.isEdge "(" = true) :
      Between (some tok) (lead ++ chunk) (some next)

/-- The tokens cover the text from an offset on, which is where the token before them ends. -/
def Tiles (p : Option Token) (pos : Nat) : List Token → List Char → Prop
  | [], text => Between p text none
  | tok :: rest, text => ∃ between lexeme behind, text = between ++ (lexeme ++ behind) ∧
      Between p between (some tok) ∧ tok.start = pos + byteLength between ∧
      tok.stop = tok.start + byteLength lexeme ∧
      (tok.text = String.ofList lexeme ∨
        lexeme = [] ∧ (tok.isEdge "(" = true ∨ tok.isEdge ")" = true)) ∧
      Tiles (some tok) tok.stop rest behind

/-! ## The pieces of a text -/

theorem isChunk_of_templateText (got : templateText text = some (chunk, mark, rest)) : IsChunk chunk := by
  fun_induction templateText text generalizing chunk with
  | case1 | case2 => cases got
  | case3 c rest ih =>
    obtain ⟨⟨inner, ending, behind⟩, got', ⟨⟩⟩ := Option.map_eq_some_iff.1 got
    exact .escape c (ih got')
  | case4 | case5 =>
    cases got
    exact .nil
  | case6 c rest notLast notEscape notClosed notOpened ih =>
    obtain ⟨⟨inner, ending, behind⟩, got', ⟨⟩⟩ := Option.map_eq_some_iff.1 got
    refine .cons (ne_backslash notLast notEscape) notClosed (fun dollar head => ?_) (ih got')
    obtain ⟨r, rfl⟩ := head?_eq_some_iff.1 head
    exact notOpened _ dollar (templateText_append got').symm

theorem kind_of_read
    (got : m.read text = some (.plain kind lexeme, rest)) : kind ≠ .template ∧ lexeme ≠ [] := by
  refine ⟨?_, text_ne_nil_of_read got⟩
  cases takes_of_read got with
  | word => unfold Mode.wordKind; split <;> decide
  | _ => decide

theorem chunk_of_read (eq : piece = .template chunk mark ∨ piece = .resume chunk mark)
    (got : m.read text = some (piece, rest)) : IsChunk chunk := by
  rcases eq with rfl | rfl
  · cases takes_of_read got with
    | template inner => exact isChunk_of_templateText inner
  · cases takes_of_read got with
    | resume _ inner => exact isChunk_of_templateText inner

theorem byteLength_pos (ne : text ≠ []) : 0 < byteLength text := by
  cases text with
  | nil => exact absurd rfl ne
  | cons c rest =>
    have := c.utf8Size_pos
    rw [byteLength]
    omega

/-- Behind template text the tokens go on after its backquote, or inside the substitution. -/
theorem tiles_mark (leads : Leads tok lead) (isChunk : IsChunk chunk) (mark : Scan.TemplateEnd)
    (next : ∀ {p stop trail}, Trails p trail →
      stop + byteLength trail = tok.stop + byteLength (lead ++ (chunk ++ mark.text)) →
      Tiles p stop later (trail ++ rest)) :
    Tiles (some tok) tok.stop (mark.tokens (tok.stop + byteLength lead + byteLength chunk) ++ later)
      (lead ++ (chunk ++ mark.text) ++ rest) := by
  cases mark with
  | closed => exact next (.closed leads isChunk) rfl
  | opened =>
    have edge := fun pos => isEdge_mark "(" pos false
    refine ⟨lead ++ chunk, [], ['$', '\x7b'] ++ rest, by simp [Scan.TemplateEnd.text],
      .chunk leads isChunk (edge _), ?_, rfl, .inr ⟨rfl, .inl (edge _)⟩, next (.opened (edge _)) ?_⟩
    · show _ = tok.stop + byteLength (lead ++ chunk)
      rw [byteLength_append, Nat.add_assoc]
    · simp only [Scan.TemplateEnd.text, byteLength_append]
      omega

theorem tiles_of_placed (trails : Trails p trail) (valid : Valid m pieces rest)
    (isGap : Gap closed rest) (placed : Placed (pos + byteLength trail) pieces toks) :
    Tiles p pos toks (trail ++ (written pieces ++ rest)) := by
  induction pieces generalizing m p trail pos toks with
  | nil =>
    cases placed
    exact .gap trails isGap fun absurd => absurd rfl |>.elim
  | cons laid r ih =>
    obtain ⟨g, piece⟩ := laid
    obtain ⟨isGap', -, got, valid'⟩ := valid
    obtain ⟨_, later, rfl, ⟨nl, rfl⟩, placed'⟩ := placed
    have between {next : Option Token} : Between p (trail ++ g) next := .gap trails isGap' fun _ => rfl
    have size : pos + byteLength trail + byteLength g = pos + byteLength (trail ++ g) := by
      rw [byteLength_append, Nat.add_assoc]
    dsimp only at placed'
    rw [size] at placed'
    dsimp only [Piece.tokens]
    rw [size]
    cases piece with
    | plain kind lexeme =>
      obtain ⟨kind, ne⟩ := kind_of_read got
      have wide : pos + byteLength (trail ++ g) ≠
          pos + byteLength (trail ++ g) + byteLength lexeme := by
        have := byteLength_pos ne
        omega
      exact ⟨trail ++ g, lexeme, written r ++ rest, by simp [written, Piece.text], between, rfl,
        rfl, .inl rfl, ih (.plain kind wide) valid' placed'⟩
    | template chunk mark =>
      refine ⟨trail ++ g, ['\x60'], chunk ++ mark.text ++ (written r ++ rest),
        by simp [written, Piece.text], between, rfl, rfl, .inl rfl, ?_⟩
      refine tiles_mark (.template rfl) (chunk_of_read (.inl rfl) got) mark fun trails eq => ?_
      refine ih trails valid' ?_
      rw [eq]
      exact (Nat.add_assoc _ 1 (byteLength (chunk ++ mark.text))).symm ▸ placed'
    | resume chunk mark =>
      have edge := isEdge_mark ")" (pos + byteLength (trail ++ g)) nl
      refine ⟨trail ++ g, [], '\x7d' :: (chunk ++ mark.text) ++ (written r ++ rest),
        by simp [written, Piece.text], between, rfl, rfl, .inr ⟨rfl, .inr edge⟩, ?_⟩
      refine tiles_mark (.resume edge) (chunk_of_read (.inr rfl) got) mark fun trails eq => ?_
      refine ih trails valid' ?_
      rw [eq]
      exact placed'

/-- **The tokens of a text tile it.** -/
theorem tokenize_tiles {src : String} (done : tokenize src = .ok toks) :
    Tiles none 0 toks src.toList := by
  obtain ⟨pieces, rest, closed, split, valid, isGap, -, placed⟩ := laid_of_lexFrom done
  rw [split]
  exact tiles_of_placed .start valid isGap placed

theorem tokenize_tiles_template :
    Tiles none 0
      [⟨.template, "\x60", 1, 2, false⟩, ⟨.punct, "(", 3, 3, false⟩, ⟨.ident, "b", 6, 7, false⟩,
        ⟨.punct, ")", 7, 7, false⟩, ⟨.punct, ";", 12, 13, false⟩]
      " \x60a$\x7b b\x7d$\\c\x60; // d".toList := by
  refine tokenize_tiles (Except.eq_ok_of_toOption ?_)
  decide +kernel

/-! ## Substitutions nest -/

/-- The edges of substitutions pair up, and around what they enclose so do the braces.  Outside all
substitutions the braces are free. -/
inductive Paired : Bool → List Token → Prop where
  | nil (inside : Bool) : Paired inside []
  | skip {inside : Bool} {tok : Token} {rest : List Token}
      (edge : tok.isEdge "(" = false ∧ tok.isEdge ")" = false)
      (brace : inside = true → tok.isPunct openBrace = false ∧ tok.isPunct closeBrace = false)
      (later : Paired inside rest) : Paired inside (tok :: rest)
  | braces {opener closer : Token} {body rest : List Token} (opens : opener.isPunct openBrace = true)
      (closes : closer.isPunct closeBrace = true) (inner : Paired true body)
      (later : Paired true rest) : Paired true (opener :: body ++ closer :: rest)
  | substitution {inside : Bool} {opener closer : Token} {body rest : List Token}
      (opens : opener.isEdge "(" = true) (closes : closer.isEdge ")" = true)
      (inner : Paired true body) (later : Paired inside rest) :
      Paired inside (opener :: body ++ closer :: rest)

/-- The tokens close so many open braces, and then stand inside a substitution. -/
def Unwinds : Nat → List Token → Prop
  | 0, toks => Paired true toks
  | depth + 1, toks => ∃ body closer rest, toks = body ++ closer :: rest ∧ Paired true body ∧
      closer.isPunct closeBrace = true ∧ Unwinds depth rest

/-- The tokens close the open substitutions, the innermost first, each with its braces. -/
def Completes : List Nat → List Token → Prop
  | [], toks => Paired false toks
  | depth :: outer, toks => ∃ body closer rest, toks = body ++ closer :: rest ∧
      Unwinds depth body ∧ closer.isEdge ")" = true ∧ Completes outer rest

variable {depth : Nat} {outer stack : List Nat} {pre : List Token}

theorem Unwinds.prepend (unwinds : Unwinds depth toks)
    (keeps : ∀ body, Paired true body → Paired true (pre ++ body)) : Unwinds depth (pre ++ toks) := by
  cases depth with
  | zero => exact keeps toks unwinds
  | succ depth =>
    obtain ⟨body, c, rest, rfl, inner, closes, later⟩ := unwinds
    exact ⟨pre ++ body, c, rest, by simp, keeps body inner, closes, later⟩

theorem Completes.prepend (completes : Completes stack toks)
    (keeps : ∀ body, Paired (!stack.isEmpty) body → Paired (!stack.isEmpty) (pre ++ body)) :
    Completes stack (pre ++ toks) := by
  cases stack with
  | nil => exact keeps toks completes
  | cons depth outer =>
    obtain ⟨body, c, rest, rfl, inner, closes, later⟩ := completes
    exact ⟨pre ++ body, c, rest, by simp, inner.prepend keeps, closes, later⟩

theorem Completes.openBrace (completes : Completes ((depth + 1) :: outer) toks)
    (opens : tok.isPunct openBrace) : Completes (depth :: outer) (tok :: toks) := by
  obtain ⟨_, c, rest, rfl, ⟨body, brace, r, rfl, inner, closes, unwinds⟩, edge, later⟩ := completes
  refine ⟨tok :: body ++ [brace] ++ r, c, rest, by simp, unwinds.prepend fun next paired => ?_, edge, later⟩
  simpa using Paired.braces opens closes inner paired

theorem Completes.closeBrace (completes : Completes (depth :: outer) toks) (closes : tok.isPunct closeBrace) :
    Completes ((depth + 1) :: outer) (tok :: toks) := by
  obtain ⟨body, c, rest, rfl, unwinds, edge, later⟩ := completes
  exact ⟨tok :: body, c, rest, rfl, ⟨[], tok, body, rfl, .nil _, closes, unwinds⟩, edge, later⟩

theorem Completes.enter (completes : Completes (0 :: stack) toks)
    (opens : tok.isEdge "(") : Completes stack (tok :: toks) := by
  obtain ⟨body, c, rest, rfl, inner, closes, later⟩ := completes
  have whole : Completes stack (tok :: body ++ [c] ++ rest) := later.prepend fun next paired => by
    simpa using Paired.substitution opens closes inner paired
  simpa using whole

theorem Completes.leave (completes : Completes stack toks) (closes : tok.isEdge ")") :
    Completes (0 :: stack) (tok :: toks) :=
  ⟨[], tok, toks, rfl, .nil _, closes, completes⟩

theorem Completes.skip (completes : Completes stack toks) (edge : ∀ text, tok.isEdge text = false)
    (brace : stack ≠ [] → tok.isPunct Bindery.openBrace = false ∧ tok.isPunct Bindery.closeBrace = false) :
    Completes stack (tok :: toks) := by
  have whole : Completes stack ([tok] ++ toks) := completes.prepend fun body paired =>
    .skip ⟨edge _, edge _⟩ (fun inside => brace (by simpa using inside)) paired
  exact whole

/-- A brace that closes no substitution finds one open that it can close. -/
theorem depth_of_read (got : m.read text = some (piece, rest)) (eq : piece = .plain .punct lexeme)
    (closes : String.ofList lexeme = closeBrace) : m.braces.head? ≠ some 0 := by
  cases takes_of_read got with
  | word =>
    injection eq with kind
    unfold Mode.wordKind at kind
    split at kind <;> cases kind
  | mark opens _ inner =>
    cases eq
    obtain ⟨r, whole⟩ := prefix_of_punctuator inner
    rw [String.ofList_toList] at closes
    subst closes
    cases whole
    exact opens rfl
  | _ => cases eq

theorem completes_plain {nl : Bool} (got : m.read text = some (.plain kind lexeme, rest))
    (next : Completes (m.after (.plain kind lexeme)).braces toks) :
    Completes m.braces ((Piece.plain kind lexeme).tokens pos nl ++ toks) := by
  have wide := byteLength_pos (kind_of_read got).2
  have edge : ∀ text, (⟨kind, String.ofList lexeme, pos, pos + byteLength lexeme, nl⟩ :
      Token).isEdge text = false := by
    intro text
    simp [Token.isEdge]
    omega
  unfold Mode.after at next
  dsimp only at next
  cases stack : m.braces with
  | nil =>
    refine Completes.skip ?_ edge fun absurd => absurd rfl |>.elim
    simpa [stack, LexState.countBrace] using next
  | cons depth outer =>
    rw [stack] at next
    by_cases punct : kind = .punct
    · subst punct
      rw [if_pos rfl, LexState.countBrace] at next
      split at next
      · next opens => exact next.openBrace (by simp [Token.isPunct, opens])
      split at next
      · next closes =>
        have positive := depth_of_read got rfl closes
        rw [stack] at positive
        obtain ⟨less, rfl⟩ := Nat.exists_eq_succ_of_ne_zero fun zero => positive (congrArg some zero)
        exact next.closeBrace (by simp [Token.isPunct, closes])
      · next opens closes => exact next.skip edge fun _ => by simp [Token.isPunct, opens, closes]
    · rw [if_neg punct] at next
      exact next.skip edge fun _ => by simp [Token.isPunct, punct]

theorem completes_mark (closed : mark = .closed → Completes stack toks)
    (opened : mark = .opened → Completes (0 :: stack) toks) : Completes stack (mark.tokens pos ++ toks) := by
  cases mark with
  | closed => exact closed rfl
  | opened => exact (opened rfl).enter (isEdge_mark _ _ _)

theorem completes_of_placed (valid : Valid m pieces rest) (placed : Placed pos pieces toks)
    (outside : (m.run pieces).braces = []) : Completes m.braces toks := by
  induction pieces generalizing m pos toks with
  | nil =>
    cases placed
    rw [show m.braces = [] from outside]
    exact .nil false
  | cons laid r ih =>
    obtain ⟨g, piece⟩ := laid
    obtain ⟨-, -, got, valid'⟩ := valid
    obtain ⟨_, later, rfl, ⟨nl, rfl⟩, placed'⟩ := placed
    have next := ih valid' placed' outside
    cases piece with
    | plain kind lexeme => exact completes_plain got next
    | template chunk mark =>
      refine Completes.skip (completes_mark ?_ ?_) (by simp [Token.isEdge]) fun _ => ⟨rfl, rfl⟩
      all_goals
        rintro rfl
        exact next
    | resume chunk mark =>
      cases takes_of_read got with
      | resume closes =>
        obtain ⟨outer, stack⟩ := head?_eq_some_iff.1 closes
        rw [stack]
        refine Completes.leave (completes_mark ?_ ?_) (isEdge_mark _ _ _)
        all_goals
          rintro rfl
          simpa [Mode.after, stack] using next

/-- **Substitutions nest**, and no brace is counted down from zero. -/
theorem tokenize_nested {src : String} (done : tokenize src = .ok toks) :
    Paired false toks ∧
      ∀ {state : LexState} {c : Char} {behind : List Char} {step : Lexed},
        state.lexeme c behind = .ok step → ∀ tok ∈ step.tokens,
          tok.isPunct closeBrace = true → state.braces.head? ≠ some 0 := by
  constructor
  · obtain ⟨pieces, rest, -, -, valid, -, outside, placed⟩ := laid_of_lexFrom done
    exact completes_of_placed valid placed outside
  · intro state c behind step lexed tok mem brace
    have reading := lexeme_read state c behind
    rw [lexed] at reading
    cases found : state.mode.read (c :: behind) with
    | none =>
      rw [found] at reading
      obtain ⟨_, ⟨⟩⟩ := reading
    | some parts =>
      obtain ⟨piece, rest⟩ := parts
      rw [found] at reading
      obtain ⟨_, ⟨⟩, -, takes⟩ := reading
      have key := key_eq_mark.2 brace
      rcases Piece.PlacedAt.cases ⟨_, takes.tokens⟩ with
        ⟨own, lexeme, rfl, toks, same, -⟩ | ⟨first, edges, toks, other, marks⟩
      · rw [toks] at mem
        cases mem_singleton.1 mem
        obtain ⟨kind, text⟩ := key_eq key
        exact depth_of_read found (by rw [kind]) (same.symm.trans text)
      · rw [toks] at mem
        rcases mem_cons.1 mem with rfl | mem
        · rw [key] at other
          exact absurd other (by decide)
        · exact absurd (key.symm.trans (marks tok mem)) (by decide)

theorem tokenize_nested_braces :
    ∃ toks, tokenize "\x60$\x7b\x7ba: \x60$\x7bb\x7d\x60\x7d\x7d\x60 \x7d" = .ok toks ∧
      Paired false toks := by
  cases done : tokenize "\x60$\x7b\x7ba: \x60$\x7bb\x7d\x60\x7d\x7d\x60 \x7d" with
  | ok toks => exact ⟨toks, rfl, (tokenize_nested done).1⟩
  | error error =>
    have none : (tokenize "\x60$\x7b\x7ba: \x60$\x7bb\x7d\x60\x7d\x7d\x60 \x7d").toOption = none := by
      rw [done]
      rfl
    exact absurd none (by decide +kernel)

end Bindery
