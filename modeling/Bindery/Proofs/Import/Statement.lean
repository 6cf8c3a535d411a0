/-
Proofs.Import.Statement -- static imports as they are read

`parse?` takes a static import for a stretch of the tokens.  If its attributes hold no
brackets, each token of the stretch is a piece of its own and the stretch closes the braces
it opens (`Even`), so that a text without it goes on as it did.  The names of the clause are
words that the lexer has read (`Clause.Sound`).
-/
import Bindery.Proofs.Import.Loading
import Bindery.Proofs.Import.Specifier

namespace Bindery

open List TokenSeq Text Token Option

variable {ts : List Token} {s : String}

/-! ## Tokens that the lexer has read -/

/-- What is known of the text of a token that the lexer has read. -/
structure Token.Legible (t : Token) : Prop where
  ident : t.kind = .ident → IsWord t.text
  word : t.kind = .ident ∨ t.kind = .keyword → WordText t.text.toList
  literal : t.kind = .string → Literal t.text.toList

theorem legible_of_placed {m : Mode} {pos : Nat} {ps : List Laid} {r : List Char} (valid : Valid m ps r)
    (placed : Placed pos ps ts) : ∀ t ∈ ts, t.Legible := by
  induction ps generalizing m pos ts with
  | nil =>
    intro t mem
    rw [show ts = [] from placed] at mem
    cases mem
  | cons laid tl ih =>
    obtain ⟨own, later, rfl, here, next⟩ := placed
    obtain ⟨-, -, got, valid⟩ := valid
    intro t mem
    rcases mem_append.1 mem with mem | mem
    · rcases here.cases with ⟨single, s, piece, rfl, eq, -⟩ | ⟨fst, edges, rfl, key, marks⟩
      · cases mem_singleton.1 mem
        rw [piece] at got
        have chars : t.text.toList = s := by rw [eq, String.toList_ofList]
        refine ⟨fun ident => ?_, fun w => ?_, fun string => ?_⟩
        · rw [ident] at got
          rw [eq]
          exact (word_of_read got).1
        · rw [chars]
          exact (wordText_of_read got w).1
        · rw [string] at got
          rw [chars]
          exact literal_of_read got
      · rcases kind_of_edges key marks t mem with kind | kind
        all_goals exact ⟨by simp [kind], by simp [kind], by simp [kind]⟩
    · exact ih valid next t mem

/-! ## Even stretches -/

/-- The braces open in each substitution, behind tokens that are pieces of their own. -/
def bracesBehind (braces : List Nat) (ts : List Token) : List Nat :=
  ts.foldl (fun braces t =>
    if t.kind = .punct then LexState.countBrace t.text braces else braces) braces

/-- Tokens that are pieces of their own and close the braces that they open. -/
structure Even (ts : List Token) : Prop where
  single : ∀ t ∈ ts, t.Single
  level : ∀ braces, bracesBehind braces ts = braces

/-- No templates and no brackets. -/
def Flat (ts : List Token) : Prop :=
  ∀ t ∈ ts, t.kind ≠ .template ∧ t.isOpener = false ∧ t.isCloser = false

namespace Even

variable {t : Token}

theorem nil : Even [] := ⟨fun _ mem => absurd mem not_mem_nil, fun _ => rfl⟩

theorem append {fst snd : List Token} (even : Even fst) (even' : Even snd) : Even (fst ++ snd) := by
  refine ⟨fun t mem => ?_, fun braces => ?_⟩
  · exact (mem_append.1 mem).elim (even.single t) (even'.single t)
  · rw [bracesBehind, foldl_append]
    exact (congrArg (bracesBehind · snd) (even.level braces)).trans (even'.level braces)

theorem word (template : t.kind ≠ .template) (punct : t.kind ≠ .punct) : Even [t] := by
  refine ⟨fun other mem => ?_, fun braces => if_neg punct⟩
  cases mem_singleton.1 mem
  exact single_of_kind template punct

theorem mark (isMark : t.isPunct s) (plain : s ∉ ["(", ")", openBrace, closeBrace]) : Even [t] := by
  simp only [mem_cons, not_mem_nil, or_false, not_or] at plain
  refine ⟨fun other mem => ?_, fun braces => ?_⟩
  · cases mem_singleton.1 mem
    exact single_of_mark isMark plain.2.1 plain.1
  · obtain ⟨kind, eq⟩ := key_eq (key_eq_mark.2 isMark)
    show (if t.kind = .punct then LexState.countBrace t.text braces else braces) = braces
    rw [if_pos kind, eq]
    cases braces with
    | nil => rfl
    | cons d outer => rw [LexState.countBrace, if_neg plain.2.2.1, if_neg plain.2.2.2]

theorem of_flat {ts : List Token} (flat : Flat ts) : Even ts := by
  induction ts with
  | nil => exact nil
  | cons t r ih =>
    have here : Even [t] := by
      obtain ⟨template, o, c⟩ := flat t mem_cons_self
      by_cases punct : t.kind = .punct
      · have isMark : t.isPunct t.text := by simp [isPunct, punct]
        refine mark isMark fun mem => ?_
        simp only [isOpener, closerText?, isCloser, isPunct, punct]
          at o c
        simp only [mem_cons, not_mem_nil, or_false] at mem
        rcases mem with eq | eq | eq | eq
        all_goals simp [eq, openBrace, closeBrace] at o c
      · exact word template punct
    exact here.append (ih fun other mem => flat other (.tail _ mem))

theorem braced {opening closing : Token} {inner : List Token} (opens : opening.isPunct openBrace)
    (even : Even inner) (closes : closing.isPunct closeBrace) : Even (opening :: (inner ++ [closing])) := by
  refine ⟨fun t mem => ?_, fun braces => ?_⟩
  · simp only [mem_cons, mem_append, not_mem_nil, or_false] at mem
    rcases mem with rfl | mem | rfl
    · exact single_of_mark opens (by decide) (by decide)
    · exact even.single t mem
    · exact single_of_mark closes (by decide) (by decide)
  · obtain ⟨kind, eq⟩ := key_eq (key_eq_mark.2 opens)
    obtain ⟨kind', eq'⟩ := key_eq (key_eq_mark.2 closes)
    have inside := even.level (LexState.countBrace openBrace braces)
    unfold bracesBehind at inside ⊢
    rw [foldl_cons, foldl_append, if_pos kind, eq, inside, foldl_cons, foldl_nil, if_pos kind', eq']
    cases braces with
    | nil => rfl
    | cons d outer => rfl

end Even

/-! ## Stretches between indices -/

def stretch (ts : List Token) (fst stop : Nat) : List Token :=
  (ts.take stop).drop fst

theorem stretch_append {fst middle stop : Nat} (order : fst ≤ middle) (order' : middle ≤ stop)
    (inside : middle ≤ ts.length) :
    stretch ts fst stop = stretch ts fst middle ++ stretch ts middle stop := by
  have split : ts.take stop = ts.take middle ++ stretch ts middle stop := by
    have := take_append_drop middle (ts.take stop)
    rw [take_take, Nat.min_eq_left order'] at this
    exact this.symm
  rw [stretch, split, drop_append_of_le_length (by rw [length_take]; omega)]
  rfl

theorem stretch_one {i : Nat} {t : Token} (here : ts[i]? = some t) : stretch ts i (i + 1) = [t] := by
  have inside := (List.getElem?_eq_some_iff.1 here).1
  rw [stretch, take_add_one, here, drop_left' (by rw [length_take]; omega)]
  rfl

/-- An even stretch between two indices. -/
structure Span (ts : List Token) (fst stop : Nat) : Prop where
  order : fst ≤ stop
  inside : stop ≤ ts.length
  even : Even (stretch ts fst stop)

namespace Span

variable {fst middle stop : Nat} {t : Token}

theorem refl (inside : fst ≤ ts.length) : Span ts fst fst := by
  refine ⟨Nat.le_refl _, inside, ?_⟩
  rw [stretch, drop_eq_nil_of_le (by rw [length_take]; omega)]
  exact .nil

theorem trans (span : Span ts fst middle) (span' : Span ts middle stop) : Span ts fst stop := by
  refine ⟨Nat.le_trans span.order span'.order, span'.inside, ?_⟩
  rw [stretch_append span.order span'.order span.inside]
  exact span.even.append span'.even

theorem of_get? (here : ts[fst]? = some t) (even : Even [t]) : Span ts fst (fst + 1) :=
  ⟨Nat.le_succ _, (List.getElem?_eq_some_iff.1 here).1, stretch_one here ▸ even⟩

theorem word (here : (ofList ts).get? fst = some t) (template : t.kind ≠ .template) (punct : t.kind ≠ .punct) :
    Span ts fst (fst + 1) := by
  rw [get?_ofList] at here
  exact of_get? here (.word template punct)

theorem mark (here : (ofList ts).punctAt fst s)
    (plain : s ∉ ["(", ")", openBrace, closeBrace]) : Span ts fst (fst + 1) := by
  obtain ⟨t, got, isMark⟩ := holds_eq_true.1 here
  rw [get?_ofList] at got
  exact of_get? got (.mark isMark plain)

theorem braced {c : Nat} (opens : (ofList ts).punctAt fst openBrace) (pair : (ofList ts).closer? fst = some c)
    (flat : Flat (stretch ts (fst + 1) c)) : Span ts fst (c + 1) := by
  obtain ⟨opening, got, brace⟩ := holds_eq_true.1 opens
  rw [get?_ofList] at got
  have closes := closer?_ofList.1 pair
  obtain ⟨closing, got', brace'⟩ := closes.brace got brace
  have order := closes.lt
  have inside := closes.lt_length
  refine ⟨by omega, inside, ?_⟩
  rw [stretch_append (Nat.le_succ fst) (by omega) (by omega), stretch_one got,
    stretch_append order (Nat.le_succ c) (by omega), stretch_one got']
  exact .braced brace (.of_flat flat) brace'

end Span

/-! ## Clauses -/

namespace Import

variable {t : Token}

def Label (text : String) : Prop :=
  WordText text.toList ∨ Literal text.toList

/-- The names of a clause can be written where the lexer reads them. -/
structure Clause.Sound (clause : Clause) : Prop where
  default : ∀ name ∈ clause.default?, IsWord name
  star : ∀ name ∈ clause.star?, IsWord name
  named : ∀ named ∈ clause.named, Label named.imported ∧ IsWord named.name

theorem mem_splitAtCommas : (∃ part ∈ splitAtCommas ts, t ∈ part) → t ∈ ts := by
  induction ts with
  | nil =>
    rintro ⟨part, mem, inside⟩
    cases mem_singleton.1 mem
    cases inside
  | cons fst r ih =>
    rintro ⟨part, mem, inside⟩
    unfold splitAtCommas at mem
    split at mem
    · rcases mem_cons.1 mem with rfl | mem
      · cases inside
      · exact mem_cons_of_mem _ (ih ⟨part, mem, inside⟩)
    · split at mem
      · cases mem_singleton.1 mem
        exact mem_cons.2 (.inl (mem_singleton.1 inside))
      · next part' ps got =>
        rw [got] at ih
        rcases mem_cons.1 mem with rfl | mem
        · rcases mem_cons.1 inside with rfl | inside
          · exact mem_cons_self
          · exact mem_cons_of_mem _ (ih ⟨part', mem_cons_self, inside⟩)
        · exact mem_cons_of_mem _ (ih ⟨part, mem_cons_of_mem _ mem, inside⟩)

theorem splitAtCommas_cover (mem : t ∈ ts) : t.isPunct "," ∨ ∃ part ∈ splitAtCommas ts, t ∈ part := by
  induction ts with
  | nil => cases mem
  | cons fst r ih =>
    unfold splitAtCommas
    split
    · next comma =>
      rcases mem_cons.1 mem with rfl | mem
      · exact .inl comma
      · rcases ih mem with comma' | ⟨part, inside, got⟩
        · exact .inl comma'
        · exact .inr ⟨part, mem_cons_of_mem _ inside, got⟩
    · split
      · next none =>
        rcases mem_cons.1 mem with rfl | mem
        · exact .inr ⟨[t], mem_cons_self, mem_cons_self⟩
        · rcases ih mem with comma' | ⟨part, inside, got⟩
          · exact .inl comma'
          · rw [none] at inside
            cases inside
      · next part ps split =>
        rcases mem_cons.1 mem with rfl | mem
        · exact .inr ⟨t :: part, mem_cons_self, mem_cons_self⟩
        · rcases ih mem with comma' | ⟨other, inside, got⟩
          · exact .inl comma'
          · rw [split] at inside
            rcases mem_cons.1 inside with rfl | inside
            · exact .inr ⟨fst :: other, mem_cons_self, mem_cons_of_mem _ got⟩
            · exact .inr ⟨other, mem_cons_of_mem _ inside, got⟩

theorem parseNamed?_eq_some {part : List Token} {e : List Named} (got : parseNamed? part = some e) :
    (∀ t ∈ part, t.kind = .ident ∨ t.kind = .keyword ∨ t.kind = .string) ∧
    ∀ named ∈ e, (∃ name ∈ part, name.kind = .ident ∧ named.name = name.text) ∧
      ∃ imported ∈ part, named.imported = imported.text := by
  unfold parseNamed? at got
  split at got
  · cases got
    simp
  · next name =>
    split at got
    · next ident =>
      cases got
      simp [ident]
    · cases got
  · next imported link name =>
    split at got
    · next kinds =>
      cases got
      have linked : link.kind = .ident := by
        have := kinds.1
        simp only [isIdent, Bool.and_eq_true, beq_iff_eq] at this
        exact this.1
      refine ⟨?_, ?_⟩
      · intro t mem
        simp only [mem_cons, not_mem_nil, or_false] at mem
        rcases mem with rfl | rfl | rfl
        · exact kinds.2.2
        · exact .inl linked
        · exact .inl kinds.2.1
      · intro named mem
        cases mem_singleton.1 mem
        exact ⟨⟨name, by simp, kinds.2.1, rfl⟩, imported, by simp, rfl⟩
    · cases got
  · cases got

theorem parseBindings?_eq_some {named : List Named} (got : parseBindings? ts = some named) :
    Flat ts ∧ ((∀ t ∈ ts, t.Legible) → ∀ e ∈ named, Label e.imported ∧ IsWord e.name) := by
  unfold parseBindings? at got
  obtain ⟨es, parsed, rfl⟩ := map_eq_some_iff.1 got
  obtain ⟨kinds, known⟩ := mem_of_mapM parsed
  refine ⟨fun t mem => ?_, fun legible e mem => ?_⟩
  · rcases splitAtCommas_cover mem with comma | ⟨part, inside, here⟩
    · obtain ⟨kind, s⟩ := key_eq (key_eq_mark.2 comma)
      refine ⟨by simp [kind], ?_, ?_⟩
      · simp [isOpener, closerText?, isPunct, s, openBrace]
      · simp [isCloser, isPunct, s, closeBrace]
    · obtain ⟨e, parsed⟩ := kinds part inside
      have kind := (parseNamed?_eq_some parsed).1 t here
      have punct : t.kind ≠ .punct := by rcases kind with kind | kind | kind <;> simp [kind]
      refine ⟨by rcases kind with kind | kind | kind <;> simp [kind], ?_, ?_⟩
      · simp [isOpener, closerText?, isPunct, punct]
      · simp [isCloser, isPunct, punct]
  · obtain ⟨ps, inside, here⟩ := mem_flatten.1 mem
    obtain ⟨part, among, parsed⟩ := known ps inside
    obtain ⟨kinds, ns⟩ := parseNamed?_eq_some parsed
    obtain ⟨⟨n, isName, ident, eq⟩, imported, isImported, eq'⟩ := ns e here
    have read (t : Token) (mem : t ∈ part) : t.Legible := legible t (mem_splitAtCommas ⟨part, among, mem⟩)
    refine ⟨?_, eq ▸ (read n isName).ident ident⟩
    rw [eq']
    rcases kinds imported isImported with kind | kind | kind
    · exact .inl ((read imported isImported).word (.inl kind))
    · exact .inl ((read imported isImported).word (.inr kind))
    · exact .inr ((read imported isImported).literal kind)

section Parse

variable {i : Nat} {next stop : Nat} {clause : Clause}

theorem tokensBetween_eq (fst stop : Nat) : tokensBetween ts fst stop = stretch ts fst stop := by
  simp [tokensBetween, stretch, ofList]

theorem kind_of_isIdent {n : String} (named : t.isIdent n) : t.kind = .ident := by
  simp only [isIdent, Bool.and_eq_true, beq_iff_eq] at named
  exact named.1

theorem span_ident {p : Token → Bool} (ident : ∀ t, p t → t.kind = .ident)
    (here : (ofList ts).holds i p) : Span ts i (i + 1) := by
  obtain ⟨t, got, holds⟩ := holds_eq_true.1 here
  have kind := ident t holds
  exact .word got (by simp [kind]) (by simp [kind])

theorem mem_of_get? (got : (ofList ts).get? i = some t) : t ∈ ts := by
  rw [get?_ofList] at got
  exact mem_of_getElem? got

section

variable (inside : i ≤ ts.length) (legible : ∀ t ∈ ts, t.Legible)
include inside legible

theorem parseDefault_sound :
    Span ts i (parseDefault (TokenSeq.ofList ts) i).2 ∧
      ∀ n ∈ (parseDefault (TokenSeq.ofList ts) i).1, IsWord n := by
  unfold parseDefault
  split
  · next t got =>
      obtain ⟨here, cond⟩ := filter_eq_some_iff.1 got
      rw [Bool.and_eq_true, beq_iff_eq] at cond
      have span : Span ts i (i + 1) := .word here (by simp [cond.1]) (by simp [cond.1])
      refine ⟨?_, ?_⟩
      · dsimp only
        split
        · next comma => exact span.trans (.mark comma (by decide))
        · exact span
      · rintro _ ⟨⟩
        exact (legible t (mem_of_get? here)).ident cond.1
  · refine ⟨.refl inside, ?_⟩
    intro n absurd
    cases absurd

theorem parseGroup?_sound {n : Option String} (named : ∀ w ∈ n, IsWord w)
    (got : parseGroup? (TokenSeq.ofList ts) i n = some (clause, next)) : Span ts i next ∧ clause.Sound := by
  have none {α : Type} {p : α → Prop} : ∀ item ∈ (none : Option α), p item := by
    intro item absurd
    cases absurd
  have empty {p : Named → Prop} : ∀ item ∈ ([] : List Named), p item := fun item mem => absurd mem not_mem_nil
  unfold parseGroup? at got
  split at got
  · next star =>
      split at got
      · next link =>
          obtain ⟨t, filtered, eq⟩ := map_eq_some_iff.1 got
          obtain ⟨here, ident⟩ := filter_eq_some_iff.1 filtered
          rw [beq_iff_eq] at ident
          cases eq
          have fst : Span ts i (i + 1) := .mark star (by decide)
          have snd := span_ident (fun _ => kind_of_isIdent) link
          have third : Span ts (i + 2) (i + 3) := .word here (by simp [ident]) (by simp [ident])
          refine ⟨(fst.trans snd).trans third, named, ?_, empty⟩
          rintro _ ⟨⟩
          exact (legible t (mem_of_get? here)).ident ident
      · cases got
  split at got
  · next opens =>
      obtain ⟨close, pair, parsed⟩ := bind_eq_some_iff.1 got
      obtain ⟨bs, read, eq⟩ := map_eq_some_iff.1 parsed
      cases eq
      rw [tokensBetween_eq] at read
      obtain ⟨flat, es⟩ := parseBindings?_eq_some read
      refine ⟨.braced opens pair flat, named, none, es fun t mem => ?_⟩
      exact legible t (mem_of_mem_take (mem_of_mem_drop mem))
  · cases got
    exact ⟨.refl inside, named, none, empty⟩

theorem parseClause?_sound (got : parseClause? (TokenSeq.ofList ts) i = some (clause, next)) :
    Span ts i next ∧ clause.Sound := by
  unfold parseClause? at got
  split at got
  · cases got
    refine ⟨.refl inside, ?_, ?_, fun item mem => absurd mem not_mem_nil⟩
    all_goals
      intro n absurd
      cases absurd
  · obtain ⟨⟨group, behind⟩, parsed, r⟩ := bind_eq_some_iff.1 got
    obtain ⟨span, named⟩ := parseDefault_sound inside legible
    obtain ⟨span', sound⟩ := parseGroup?_sound span.inside legible named parsed
    dsimp only at r
    split at r
    · next link =>
        cases r
        exact ⟨(span.trans span').trans (span_ident (fun _ => kind_of_isIdent) link), sound⟩
    · cases r

end

def Ends (ts : List Token) (stop i : Nat) : Prop :=
  ∃ last, 0 < i ∧ ts[i - 1]? = some last ∧ last.stop = stop ∧ last.selects = false

theorem ends_of_mark (here : ts[i]? = some t) (mark : t.isPunct s) (other : s ≠ "." ∧ s ≠ "?.") :
    Ends ts t.stop (i + 1) :=
  ⟨t, Nat.succ_pos _, here, rfl, Script.not_selects_of_isPunct mark other⟩

theorem afterAttributes_sound (inside : i ≤ ts.length) (ends : Ends ts stop i)
    (flat : ∀ c, (ofList ts).closer? (i + 1) = some c → c < (afterAttributes ts stop i).2 → Flat (stretch ts (i + 2) c)) :
    Span ts i (afterAttributes ts stop i).2 ∧
      Ends ts (afterAttributes ts stop i).1 (afterAttributes ts stop i).2 := by
  unfold afterAttributes at flat ⊢
  split
  · next close got =>
    split at got
    · next cond =>
      rw [Bool.and_eq_true] at cond
      obtain ⟨link, opens⟩ := cond
      obtain ⟨t, here, w⟩ := holds_eq_true.1 link
      have kind : t.kind = .keyword ∨ t.kind = .ident := by
        simp only [isKeyword, isIdent, Bool.or_eq_true, Bool.and_eq_true, beq_iff_eq] at w
        exact w.imp And.left And.left
      have fst : Span ts i (i + 1) :=
        .word here (by rcases kind with kind | kind <;> simp [kind])
          (by rcases kind with kind | kind <;> simp [kind])
      have inner := flat close got (by
        rw [if_pos (by rw [link, opens]; rfl), got]
        exact Nat.lt_succ_self _)
      obtain ⟨opening, at_, brace⟩ := holds_eq_true.1 opens
      rw [get?_ofList] at at_
      obtain ⟨closing, snd, brace'⟩ := (closer?_ofList.1 got).brace at_ brace
      refine ⟨fst.trans (.braced opens got inner), ?_⟩
      rw [get?_ofList, snd]
      exact ends_of_mark snd brace' (by decide)
    · cases got
  · exact ⟨.refl inside, ends⟩

theorem afterSemicolon_sound (inside : i ≤ ts.length) (ends : Ends ts stop i) :
    Span ts i (afterSemicolon (TokenSeq.ofList ts) stop i).2 ∧
      Ends ts (afterSemicolon (TokenSeq.ofList ts) stop i).1
        (afterSemicolon (TokenSeq.ofList ts) stop i).2 := by
  unfold afterSemicolon
  split
  · next semi got =>
      obtain ⟨here, mark⟩ := filter_eq_some_iff.1 got
      refine ⟨.mark (holds_eq_true.2 ⟨semi, here, mark⟩) (by decide), ?_⟩
      rw [get?_ofList] at here
      exact ends_of_mark here mark (by decide)
  · exact ⟨.refl inside, ends⟩

end Parse

instance (ts : List Token) : Decidable (Flat ts) :=
  inferInstanceAs (Decidable (∀ t ∈ ts, _))

/-- A static import that a text can lose without being read in another way: its brackets
hold no others and no template, no division follows it, and its specifier means the same in
another literal. -/
structure Detached (seq : TokenSeq) (i : Nat) (statement : Statement) : Prop where
  flat : ∀ opener < statement.next, i < opener → ∀ closer ∈ seq.closer? opener,
    closer < statement.next → Flat (tokensBetween seq (opener + 1) closer)
  followed : seq.holds statement.next (fun t => t.isPunct "/" || t.isPunct "/=") = false
  kept : Specifier.Kept statement.specifier

instance (seq : TokenSeq) (i : Nat) (statement : Statement) :
    Decidable (Detached seq i statement) :=
  decidable_of_iff
    ((∀ opener < statement.next, i < opener → ∀ closer ∈ seq.closer? opener,
        closer < statement.next → Flat (tokensBetween seq (opener + 1) closer)) ∧
      seq.holds statement.next (fun t => t.isPunct "/" || t.isPunct "/=") = false ∧
      Specifier.Kept statement.specifier)
    ⟨fun ⟨flat, followed, kept⟩ => ⟨flat, followed, kept⟩,
      fun ⟨flat, followed, kept⟩ => ⟨flat, followed, kept⟩⟩

/-- **A static import is an even stretch of the tokens**, and its clause can be written. -/
theorem parse?_sound {i : Nat} {stmt : Statement} (here : ts[i]? = some t) (legible : ∀ t ∈ ts, t.Legible)
    (got : parse? (TokenSeq.ofList ts) i = some stmt) (detached : Detached (TokenSeq.ofList ts) i stmt) :
    Span ts (i + 1) stmt.next ∧ i + 1 < stmt.next ∧ stmt.clause.Sound ∧ Ends ts stmt.stop stmt.next := by
  unfold parse? at got
  obtain ⟨⟨clause, position⟩, head, r⟩ := bind_eq_some_iff.1 got
  obtain ⟨literal, filtered, r⟩ := bind_eq_some_iff.1 r
  obtain ⟨v, -, eq⟩ := map_eq_some_iff.1 r
  obtain ⟨there, string⟩ := filter_eq_some_iff.1 filtered
  rw [beq_iff_eq] at string
  obtain ⟨span, sound⟩ := parseClause?_sound
    (show i + 1 ≤ ts.length from (List.getElem?_eq_some_iff.1 here).1) legible head
  have span' : Span ts position (position + 1) := .word there (by simp [string]) (by simp [string])
  have ends : Ends ts literal.stop (position + 1) := by
    rw [get?_ofList] at there
    exact ⟨literal, Nat.succ_pos _, there, rfl, by simp [selects, isPunct, string]⟩
  have next : stmt.next =
      (statementEnd (ofList ts) literal.stop (position + 1)).2 := by
    rw [← eq]
  have stop : stmt.stop =
      (statementEnd (ofList ts) literal.stop (position + 1)).1 := by
    rw [← eq]
  have named : stmt.clause = clause := by rw [← eq]
  have bound := le_afterSemicolon (ofList ts)
    (afterAttributes (ofList ts) literal.stop (position + 1)).1
    (afterAttributes (ofList ts) literal.stop (position + 1)).2
  unfold statementEnd at next stop
  obtain ⟨span₁, ends₁⟩ := afterAttributes_sound span'.inside ends fun c pair inside => by
    have order := lt_closer pair
    have behind : i < position + 2 := by have := span.order; omega
    have := detached.flat (position + 2) (by omega) behind c pair (by omega)
    rwa [tokensBetween_eq] at this
  obtain ⟨span₂, ends₂⟩ := afterSemicolon_sound span₁.inside ends₁
  rw [next, stop, named]
  have order := span.order
  exact ⟨((span.trans span').trans span₁).trans span₂, by have := span₁.order; omega, sound, ends₂⟩

end Import

end Bindery
