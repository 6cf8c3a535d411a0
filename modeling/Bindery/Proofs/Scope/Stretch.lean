/-
Proofs.Scope.Stretch -- a walk over written keys

`Reaches` says that a walk comes from one index to another.
-/
import Bindery.Proofs.Scope.Effect
import Bindery.Proofs.Scope.Grammar
import Bindery.Proofs.Scope.Sound
import Bindery.Proofs.Scope.Statement

namespace Bindery

open List TokenSeq Token Program Option

namespace Scope

open Walk hiding punctAt

variable {ts : List Token} {i : Nat} {ks : List Key}
  {t : Token} {text : String} {here : Chain} {after : Notes} {limit : Nat}

/-! ## Keys in a list of tokens -/

def Behind (ts : List Token) (i : Nat) (key : Key) : Prop :=
  ∃ t, (ofList ts).prev? i = some t ∧ t.key = key

theorem shows_of_map (eq : (ts.drop i).map Token.key = ks) : Shows ts i ks := by
  induction ks generalizing i with
  | nil => exact trivial
  | cons key r ih =>
    cases got : ts[i]? with
    | none =>
      rw [drop_eq_nil_of_le (getElem?_eq_none_iff.1 got)] at eq
      cases eq
    | some t =>
      obtain ⟨inside, here⟩ := List.getElem?_eq_some_iff.1 got
      rw [drop_eq_getElem_cons inside, map_cons, here] at eq
      injection eq with fst os
      exact ⟨⟨t, got, fst⟩, ih os⟩

theorem behind_of_get? (got : ts[i]? = some t) : Behind ts (i + 1) t.key := by
  refine ⟨t, ?_, rfl⟩
  rw [prev?, if_neg (Nat.succ_ne_zero i), get?_ofList, Nat.add_sub_cancel, got]

theorem Shows.behind {key : Key} (shows : Shows ts i (ks ++ [key])) : Behind ts (i + ks.length + 1) key := by
  obtain ⟨_, ⟨t, got, eq⟩, _⟩ := shows_append.1 shows
  exact eq ▸ behind_of_get? got

/-! ## Walks -/

inductive Reaches (ts : List Token) : Nat → Walk → Nat → Walk → Prop
  | refl (i : Nat) (w : Walk) : Reaches ts i w i w
  | step {i stop : Nat} {t : Token} {w last : Walk} :
      ts[i]? = some t →
      Reaches ts (w.step ts i t).2
        (w.step ts i t).1 stop last →
      Reaches ts i w stop last

namespace Reaches

variable {middle stop : Nat} {w next last : Walk}

theorem trans (fst : Reaches ts i w middle next)
    (snd : Reaches ts middle next stop last) : Reaches ts i w stop last := by
  induction fst with
  | refl => exact snd
  | step got _ ih => exact .step got (ih snd)

theorem one (got : ts[i]? = some t) (eq : w.step ts i t = (next, stop)) : Reaches ts i w stop next := by
  refine .step got ?_
  rw [eq]
  exact .refl stop next

section

variable (reaches : Reaches ts i w stop last)
include reaches

theorem grown {start : Walk} (grown : w.Grown ts start) : last.Grown ts start := by
  induction reaches with
  | refl => exact grown
  | step got _ ih => exact ih (grown.step (by rw [get?_ofList, got]))

theorem sound (sound : w.Sound ts) : last.Sound ts := (reaches.grown sound.grown).toSound

theorem runFrom : w.runFrom ts i = last.runFrom ts stop := by
  induction reaches with
  | refl => rfl
  | step got _ ih => rw [runFrom_of_some _ (by rw [get?_ofList, got]), ih]

end

end Reaches

/-! ## Single tokens -/

section Tokens

variable {w : Walk}

theorem endDeclaration_of_kind (w : Walk) (seq : TokenSeq) (i : Nat)
    (kind : t.kind ≠ .ident ∧ t.kind ≠ .keyword) : w.endDeclarationAtLineBreak seq i t = w := by
  unfold endDeclarationAtLineBreak
  rw [if_neg]
  rintro ⟨_, here | here, _⟩
  · exact kind.1 here
  · exact kind.2 here

theorem step_of_punct (w : Walk) (seq : TokenSeq) (i : Nat) (kind : t.kind = .punct) :
    w.step seq i t = w.punctAt seq i t := by
  unfold step
  rw [endDeclaration_of_kind w seq i (by simp [kind])]
  simp only [kind]

theorem step_of_literal (w : Walk) (seq : TokenSeq) (i : Nat) (kind : t.kind = .number ∨ t.kind = .string) :
    w.step seq i t = (w, i + 1) := by
  unfold step
  rcases kind with kind | kind
  all_goals
    rw [endDeclaration_of_kind w seq i (by simp [kind])]
    simp only [kind]

theorem step_of_mark (eq : t.key = .mark text)
    (other : ["(", "[", openBrace, ")", "]", closeBrace, ",", ";", "=>"].contains text = false) (w : Walk)
    (seq : TokenSeq) (i : Nat) : w.step seq i t = (w, i + 1) := by
  obtain ⟨kind, here⟩ := key_eq eq
  simp only [contains_cons, Bool.or_eq_false_iff, beq_eq_false_iff_ne] at other
  obtain ⟨paren, bracket, brace, closeParen, closeBracket, closeBrace', comma, semi, arrow, _⟩ := other
  rw [step_of_punct w seq i kind]
  unfold Walk.punctAt isCloser isPunct
  simp [here, paren, bracket, brace, closeParen, closeBracket, closeBrace', comma, semi, arrow]

theorem step_of_open {opened : Opened} (eq : t.key = .mark text)
    (bracket : text = "(" ∧ opened = .paren ∨ text = "[" ∧ opened = .bracket)
    (w : Walk) (seq : TokenSeq) (i : Nat) :
    w.step seq i t = (w.push opened, i + 1) := by
  obtain ⟨kind, here⟩ := key_eq eq
  rw [step_of_punct w seq i kind]
  unfold Walk.punctAt
  rcases bracket with ⟨rfl, rfl⟩ | ⟨rfl, rfl⟩
  · rw [if_pos here]
  · rw [here, if_neg (by decide), if_pos rfl]

theorem step_of_openBrace (eq : t.key = .mark openBrace) (w : Walk) (seq : TokenSeq)
    (i : Nat) : w.step seq i t = (w.openBraceAt seq i, i + 1) := by
  obtain ⟨kind, here⟩ := key_eq eq
  rw [step_of_punct w seq i kind]
  unfold Walk.punctAt
  rw [here, if_neg (by decide), if_neg (by decide), if_pos rfl]

theorem step_of_close (eq : t.key = .mark text)
    (bracket : [")", "]", closeBrace].contains text) (w : Walk) (seq : TokenSeq)
    (i : Nat) : w.step seq i t = (w.closeAt seq i, i + 1) := by
  obtain ⟨kind, here⟩ := key_eq eq
  rw [step_of_punct w seq i kind]
  unfold Walk.punctAt isCloser
  rw [here]
  simp only [contains_cons, contains_nil, Bool.or_false, Bool.or_eq_true, beq_iff_eq] at bracket
  rcases bracket with rfl | rfl | rfl <;> simp [isPunct, kind, here, openBrace, closeBrace]

theorem step_of_comma (eq : t.key = .mark ",") (w : Walk) (seq : TokenSeq)
    (i : Nat) : w.step seq i t = w.separatorAt seq i false := by
  obtain ⟨kind, here⟩ := key_eq eq
  rw [step_of_punct w seq i kind]
  unfold Walk.punctAt isCloser isPunct
  simp [here, openBrace, closeBrace]

theorem step_of_arrow (eq : t.key = .mark "=>") (w : Walk) (seq : TokenSeq)
    (i : Nat) : w.step seq i t = w.arrowAt seq i := by
  obtain ⟨kind, here⟩ := key_eq eq
  rw [step_of_punct w seq i kind]
  unfold Walk.punctAt isCloser isPunct
  simp [here, openBrace, closeBrace]

theorem step_of_word (eq : t.key = .word text) (calm : w.endDeclarationAtLineBreak ts i t = w) :
    w.step ts i t = w.keywordAt ts i t := by
  obtain ⟨kind, _⟩ := key_eq eq
  unfold step
  rw [calm]
  simp only [kind]

theorem step_of_name (eq : t.key = .name text) (calm : w.endDeclarationAtLineBreak ts i t = w) :
    w.step ts i t = w.identAt ts i t := by
  obtain ⟨kind, _⟩ := key_eq eq
  unfold step
  rw [calm]
  simp only [kind]

end Tokens

/-! ## What stands in front -/

def beforeValue : List Key :=
  [.mark "(", .mark "[", .mark ",", .mark "=", .mark "?", .mark ":", .mark "=>", .word "return",
    .word "case"]

structure Begins (ts : List Token) (i : Nat) (w : Walk) : Prop where
  selects : (ofList ts).prevHolds i Token.selects = false
  async : (ofList ts).prevHolds i (·.isIdent "async") = false
  calm : ∀ t, w.endDeclarationAtLineBreak ts i t = w
  member : w.inMemberPosition ts i = false

/-- A brace at the index is an object, and a function is no statement. -/
structure IsValue (ts : List Token) (i : Nat) : Prop where
  object : Walk.isObjectBrace ts i = true
  expression : Walk.isFunctionStatement ts i = false

def AtStart (ts : List Token) (i : Nat) : Prop :=
  (ofList ts).prev? i = none ∨
    ∃ key ∈ [Key.mark ";", .mark openBrace, .mark closeBrace], Behind ts i key

structure InBlock (w : Walk) : Prop where
  object : w.inBrace .object = false
  classBody : w.inBrace .classBody = false

/-- Nothing that ends by itself is open at the walk's depth. -/
structure Inside (w : Walk) : Prop where
  delimited : ∀ scope ∈ w.delimited, scope.depth < w.depth
  declarations : ∀ declaration ∈ w.declarations, declaration.depth < w.depth

section Front

variable {w : Walk} {key : Key} {p : Token}

theorem prevHolds_of_prev? {prop : Token → Bool} (got : (ofList ts).prev? i = some p) :
    (ofList ts).prevHolds i prop = prop p := by
  rw [prevHolds, got]
  rfl

theorem get?_of_prev? (got : (ofList ts).prev? i = some p) : (ofList ts).get? (i - 1) = some p := by
  unfold prev? at got
  split at got
  · cases got
  · exact got

theorem calm_of_not_endsOperand (other : (ofList ts).prevHolds i Token.endsOperand = false) (t : Token) :
    w.endDeclarationAtLineBreak ts i t = w := by
  unfold endDeclarationAtLineBreak
  rw [if_neg]
  rintro ⟨_, _, operand⟩
  rw [other] at operand
  cases operand

theorem Inside.calm (inside : Inside w) (seq : TokenSeq) (i : Nat) (t : Token) :
    w.endDeclarationAtLineBreak seq i t = w := by
  unfold endDeclarationAtLineBreak
  split
  · split
    · next last outer lists =>
      have := inside.declarations last (lists ▸ mem_cons_self)
      rw [if_neg (by omega)]
    · rfl
  · rfl

theorem InBlock.not_member (b : InBlock w) (seq : TokenSeq) (i : Nat) : w.inMemberPosition seq i = false := by
  unfold inMemberPosition
  rw [b.object, b.classBody]
  split <;> rfl

structure Introduces (t : Token) : Prop where
  kind : t.kind = .punct ∨ t.kind = .keyword
  selects : t.selects = false
  operand : t.endsOperand = false
  star : t.isPunct "*" = false
  statement : (t.isPunct ";" || t.isPunct openBrace || t.isPunct closeBrace ||
    t.isKeyword "export" || t.isKeyword "default" || t.isKeyword "else") = false
  object : (match t.kind with
    | .punct => !([")", "]", closeBrace, ";", "++", "--"].contains t.text)
    | .keyword =>
      ["return", "typeof", "void", "delete", "in", "instanceof", "new", "yield", "await",
        "case", "throw", "extends"].contains t.text
    | .ident => t.text == "of" && !t.newlineBefore
    | _ => false) = true
  comma : t.isPunct "," = true → t.key = .mark ","

theorem introduces_of_key (v : t.key ∈ beforeValue) : Introduces t := by
  simp only [beforeValue, mem_cons, not_mem_nil, or_false] at v
  rcases v with eq | eq | eq | eq | eq | eq | eq | eq | eq <;>
    obtain ⟨kind, text⟩ := key_eq eq <;>
    constructor <;>
    simp [kind, text, eq, selects, endsOperand, isPunct, isKeyword, openBrace, closeBrace]

theorem begins_of_behind (w : Walk) (behind : Behind ts i key) (v : key ∈ beforeValue)
    (item : key = .mark "," → w.inBrace .object = false) : Begins ts i w ∧ IsValue ts i := by
  obtain ⟨p, got, rfl⟩ := behind
  have before := get?_of_prev? got
  have front := introduces_of_key v
  have notName : ∀ text, p.isIdent text = false := by
    intro text
    rcases front.kind with kind | kind <;> simp [isIdent, kind]
  have operand : (ofList ts).prevHolds i endsOperand = false := by
    rw [prevHolds_of_prev? got, front.operand]
  have modifier : isModifier (ofList ts) (i - 1) = false := by
    unfold isModifier holds
    rw [before]
    rcases front.kind with kind | kind <;> simp [kind]
  have star : isGeneratorStar (ofList ts) (i - 1) = false := by
    unfold isGeneratorStar punctAt holds
    rw [before, Option.any_some, front.star, Bool.false_and]
  have stmt := front.statement
  simp only [Bool.or_eq_false_iff] at stmt
  obtain ⟨⟨⟨⟨⟨semi, openBrace'⟩, closeBrace'⟩, exports⟩, default⟩, otherwise⟩ := stmt
  refine ⟨⟨?_, ?_, calm_of_not_endsOperand operand, ?_⟩, ?_, ?_⟩
  · rw [prevHolds_of_prev? got, front.selects]
  · rw [prevHolds_of_prev? got, notName]
  · unfold inMemberPosition
    rw [got]
    dsimp only
    rw [modifier, star, openBrace', semi, closeBrace', front.operand]
    by_cases comma : p.isPunct ","
    · simp [item (front.comma comma)]
    · simp [comma]
  · unfold isObjectBrace
    rw [got]
    exact front.object
  · unfold isFunctionStatement atStatementStart
    rw [got, prevHolds_of_prev? got, notName]
    dsimp only
    rw [semi, openBrace', closeBrace', exports, default, otherwise, front.operand]
    simp

theorem AtStart.begins (start : AtStart ts i) (inside : Inside w) (b : InBlock w) :
    Begins ts i w ∧ atStatementStart ts i := by
  refine ⟨⟨?_, ?_, inside.calm _ _, b.not_member _ _⟩, ?_⟩
  all_goals
    rcases start with none | ⟨key, mem, p, got, rfl⟩
  · rw [prevHolds, none]; rfl
  · rw [prevHolds_of_prev? got]
    simp only [mem_cons, not_mem_nil, or_false] at mem
    rcases mem with eq | eq | eq <;> obtain ⟨kind, text⟩ := key_eq eq <;>
      simp [selects, isPunct, text, openBrace, closeBrace]
  · rw [prevHolds, none]; rfl
  · rw [prevHolds_of_prev? got]
    simp only [mem_cons, not_mem_nil, or_false] at mem
    rcases mem with eq | eq | eq <;> obtain ⟨kind, text⟩ := key_eq eq <;>
      simp [isIdent, kind]
  · rw [atStatementStart, none]
  · rw [atStatementStart, got]
    simp only [mem_cons, not_mem_nil, or_false] at mem
    rcases mem with eq | eq | eq <;> simp [key_eq_mark.1 eq]

end Front

/-! ## Stretches -/

/-- A walk from which an expression can be read, in the header of a loop or not. -/
structure Steady (inHeader : Bool) (ts : List Token) (i : Nat) (w : Walk) : Prop where
  sound : w.Sound ts
  quiet : w.pending = none
  uses : ∀ use ∈ w.uses, use.token < i
  delimited : ∀ scope ∈ w.delimited, scope.depth ≤ w.depth
  /-- in a header, the list of its own depth has ended with the `of` -/
  declarations : ∀ declaration ∈ w.declarations,
    declaration.depth + inHeader.toNat ≤ w.depth
  header : w.inForHeader = inHeader

/-- A walk from which an expression can be read outside the headers of loops. -/
abbrev Poised := Steady false

/-- Behind an expression: some arrows may still be open at its depth, and leaving
them leads back to the scope of its beginning. -/
structure Rests (start w : Walk) : Prop where
  opens : w.opens = start.opens
  quiet : w.pending = none
  declarations : w.declarations = start.declarations
  extra : ∃ extra, w.delimited = extra ++ start.delimited ∧
    (∀ scope ∈ extra, scope.depth = start.depth ∧ scope.endsAtComma = true) ∧
    (extra.getLast?.map (·.restore)).getD w.here = start.here

def Done (ts : List Token) (start : Walk) (i stop : Nat) (free : List String)
    (waits : Bool) : Prop :=
  ∃ w, Reaches ts i start stop w ∧ Rests start w ∧
    Effect start.here start.notes w.notes stop [] free waits

def Whole (ts : List Token) (start : Walk) (i stop : Nat) (ds : List Declared)
    (free : List String) (waits : Bool) : Prop :=
  ∃ w, Reaches ts i start stop w ∧ w.layout = start.layout ∧
    w.declarations = start.declarations ∧
    Effect start.here start.notes w.notes stop ds free waits

def Walk.resume (start w : Walk) : Walk :=
  { w with here := start.here, delimited := start.delimited }

section Stretches

variable {inHeader : Bool} {stop : Nat} {start w : Walk} {ds : List Declared} {free : List String}
  {waits : Bool}

theorem numbered_of_sound (sound : w.Sound ts) : Numbered w.here w.notes.scopes :=
  ⟨sound.here.ne_nil, sound.here.id_lt⟩

theorem Effect.uses_lt {before : Notes} (effect : Effect here before after stop ds free waits)
    (uses : ∀ use ∈ before.uses, use.token < i) (forward : i ≤ stop) :
    ∀ use ∈ after.uses, use.token < stop := by
  obtain ⟨new, noted, below, _⟩ := effect.uses
  intro use mem
  rw [noted] at mem
  rcases mem_append.1 mem with mem | mem
  · exact (below use mem).1
  · exact Nat.lt_of_lt_of_le (uses use mem) forward

theorem Steady.mono (poised : Steady inHeader ts i w) (forward : i ≤ stop) : Steady inHeader ts stop w :=
  { poised with uses := fun use mem => Nat.lt_of_lt_of_le (poised.uses use mem) forward }

theorem Steady.lists (poised : Steady inHeader ts i w) :
    ∀ declaration ∈ w.declarations, declaration.depth ≤ w.depth :=
  fun declaration mem => Nat.le_of_add_right_le (poised.declarations declaration mem)

theorem Steady.of_layout (poised : Steady inHeader ts i start) (sound : w.Sound ts)
    (eq : w.layout = start.layout) (lists : w.declarations = start.declarations)
    (uses : ∀ use ∈ w.uses, use.token < stop) : Steady inHeader ts stop w := by
  injection eq with here opens pending delimited
  refine ⟨sound, pending.trans poised.quiet, uses, ?_, ?_, ?_⟩
  · rw [depth, opens, delimited]
    exact poised.delimited
  · rw [depth, opens, lists]
    exact poised.declarations
  · rw [inForHeader, opens]
    exact poised.header

theorem Steady.later (poised : Steady inHeader ts i start) (forward : i ≤ stop)
    (reaches : Reaches ts i start stop w) (eq : w.layout = start.layout)
    (lists : w.declarations = start.declarations)
    (effect : Effect start.here start.notes w.notes stop ds free waits) : Steady inHeader ts stop w :=
  poised.of_layout (reaches.sound poised.sound) eq lists (effect.uses_lt poised.uses forward)

theorem Rests.refl (quiet : w.pending = none) : Rests w w :=
  ⟨rfl, quiet, rfl, [], rfl, (fun _ mem => nomatch mem), rfl⟩

theorem Rests.of_layout (eq : w.layout = start.layout) (lists : w.declarations = start.declarations)
    (quiet : start.pending = none) : Rests start w := by
  injection eq with here opens pending delimited
  exact ⟨opens, pending.trans quiet, lists, [], delimited, (fun _ mem => nomatch mem), here⟩

theorem Rests.of_start {b : Walk} (rests : Rests b w) (eq : b.layout = start.layout)
    (lists : b.declarations = start.declarations) : Rests start w := by
  injection eq with here opens _ delimited
  have depth : b.depth = start.depth := congrArg length opens
  refine ⟨rests.opens.trans opens, rests.quiet, rests.declarations.trans lists, ?_⟩
  rw [← delimited, ← depth, ← here]
  exact rests.extra

theorem Whole.done (whole : Whole ts start i stop [] free waits)
    (quiet : start.pending = none) : Done ts start i stop free waits := by
  obtain ⟨w, reaches, eq, lists, effect⟩ := whole
  exact ⟨w, reaches, .of_layout eq lists quiet, effect⟩

section

variable (rests : Rests start w)
include rests

theorem Rests.depth : (start.resume w).depth = start.depth := congrArg length rests.opens

theorem Rests.lists : (start.resume w).declarations = start.declarations := rests.declarations

theorem Rests.leaveWhile {leaves : Delimited → Bool}
    (arrows : ∀ s, s.depth = start.depth → s.endsAtComma → leaves s)
    (stays : ∀ s ∈ start.delimited, leaves s = false) : w.leaveWhile leaves = start.resume w := by
  obtain ⟨extra, delimited, own, back⟩ := rests.extra
  have all : ∀ s ∈ extra, leaves s := fun s mem =>
    arrows s (own s mem).1 (own s mem).2
  have rest : start.delimited.takeWhile leaves = [] ∧
      start.delimited.dropWhile leaves = start.delimited := by
    cases lower : start.delimited with
    | nil => exact ⟨rfl, rfl⟩
    | cons s outer =>
      have := stays s (lower ▸ mem_cons_self)
      exact ⟨takeWhile_cons_of_neg (by simp [this]), dropWhile_cons_of_neg (by simp [this])⟩
  unfold Walk.leaveWhile Walk.resume
  rw [delimited, takeWhile_append_of_pos all, dropWhile_append_of_pos all, rest.1, rest.2, append_nil]
  cases last : extra.getLast? with
  | none =>
    rw [last] at back
    have empty : extra = [] := getLast?_eq_none_iff.1 last
    rw [empty, nil_append] at delimited
    simp only [map_none, getD_none] at back
    simp [← back, ← delimited]
  | some s =>
    rw [last] at back
    simp only [map_some, getD_some] at back
    simp [back]

theorem Rests.comma (inside : Inside start) (got : ts[i]? = some t) (eq : t.key = .mark ",") :
    Reaches ts i w (i + 1) (start.resume w) := by
  refine .one got ?_
  have depth : w.depth = start.depth := rests.depth
  rw [step_of_comma eq]
  unfold separatorAt
  dsimp only
  rw [rests.leaveWhile (fun s own comma => by simp [own, comma, depth]) fun s mem => by
    have := inside.delimited s mem
    simp only [depth, Bool.and_eq_false_iff, beq_eq_false_iff_ne]
    exact .inl (by omega)]
  unfold continueDeclaration
  rw [if_neg Bool.false_ne_true]
  rw [rests.lists, rests.depth]
  split
  · next last outer top =>
    have := inside.declarations last (top ▸ mem_cons_self)
    rw [if_neg (by omega)]
  · rfl

theorem Rests.close (opened : Opened) (outer : List Opened)
    (top : start.opens = opened :: outer)
    (delimited : ∀ s ∈ start.delimited, s.depth ≤ outer.length)
    (declarations : ∀ declaration ∈ start.declarations, declaration.depth ≤ outer.length)
    (got : ts[i]? = some t) (eq : t.key = .mark text)
    (bracket : [")", "]", closeBrace].contains text) :
    Reaches ts i w (i + 1)
      (({ start.resume w with opens := outer } : Walk).afterClosing ts
        i opened) := by
  refine .one got ?_
  rw [step_of_close eq bracket]
  unfold closeAt
  rw [rests.opens, top]
  dsimp only
  have depth : start.depth = outer.length + 1 := by rw [Walk.depth, top, length_cons]
  rw [leaveWhile_opens, rests.leaveWhile (fun s own _ => by simp [own, depth])
    fun s mem => by simpa using delimited s mem]
  have kept : (start.resume w).declarations.filter (decide <| ·.depth ≤ outer.length) =
      (start.resume w).declarations := by
    refine filter_eq_self.2 fun declaration mem => ?_
    rw [rests.lists] at mem
    simpa using declarations declaration mem
  unfold keepDeclarations
  dsimp only
  rw [kept]

theorem Rests.semicolon (delimited : ∀ s ∈ start.delimited, s.depth < start.depth)
    (got : ts[i]? = some t) (eq : t.key = .mark ";") :
    Reaches ts i w (i + 1) ((start.resume w).keepDeclarations (· < start.depth)) := by
  refine .one got ?_
  have depth : w.depth = start.depth := rests.depth
  rw [step_semicolon _ _ _ (key_eq_mark.1 eq),
    rests.leaveWhile (fun s own _ => by simp [own, depth]) fun s mem => by
      have := delimited s mem
      simp only [depth, Bool.and_true, beq_eq_false_iff_ne]
      omega, depth]

end

theorem Steady.resume (poised : Steady inHeader ts i start) (rests : Rests start w)
    (sound : (start.resume w).Sound ts) (uses : ∀ use ∈ w.uses, use.token < stop) :
    Steady inHeader ts stop (start.resume w) := by
  refine ⟨sound, rests.quiet, uses, ?_, ?_, ?_⟩
  · rw [rests.depth]
    exact poised.delimited
  · rw [rests.depth, rests.lists]
    exact poised.declarations
  · have opens : (start.resume w).opens = start.opens := rests.opens
    rw [inForHeader, opens]
    exact poised.header

theorem Rests.trans_resume {last : Walk} (rests : Rests start w)
    (later : Rests (start.resume w) last) : Rests start last := by
  refine ⟨later.opens.trans rests.opens, later.quiet, later.declarations.trans rests.declarations, ?_⟩
  rw [← rests.depth]
  exact later.extra

end Stretches

/-! ## Parameters -/

def Walk.declareAll (scope : Chain) (ns : List String) (w : Walk) : Walk :=
  ns.foldl (fun w name => w.declare scope name) w

section Parameters

variable {start : Nat} {ns : List String}

theorem namesOf_declareAll (frame : Frame) (outer : Chain) (ns : List String) (w : Walk)
    (id : Nat) : namesOf (w.declareAll (frame :: outer) ns).bindings id =
      if frame.id = id then addNames (namesOf w.bindings id) ns
      else namesOf w.bindings id := by
  induction ns generalizing w with
  | nil => simp [declareAll, addNames]
  | cons n r ih =>
    show namesOf ((w.declare _ n).declareAll _ r).bindings id = _
    rw [ih, namesOf_declare]
    split <;> rfl

theorem declare_eq (s : Chain) (n : String) (w : Walk) : ∃ bs, w.declare s n = { w with bindings := bs } := by
  unfold declare
  repeat' split
  all_goals exact ⟨_, rfl⟩

theorem declareAll_eq (s : Chain) (ns : List String) (w : Walk) :
    ∃ bs, w.declareAll s ns = { w with bindings := bs } := by
  induction ns generalizing w with
  | nil => exact ⟨_, rfl⟩
  | cons n r ih =>
    obtain ⟨fst, eq⟩ := declare_eq s n w
    obtain ⟨bs, more⟩ := ih (w.declare s n)
    refine ⟨bs, ?_⟩
    show (w.declare s n).declareAll s r = _
    rw [more, eq]

theorem Effect.ofScope {w : Walk} (isFunction : Bool)
    (ns : List String) {stop : Nat} {ds : List Declared} {free : List String}
    {waits : Bool} (sound : w.Sound ts) (eq : w.here = here)
    (effect : Effect (⟨w.scopes, isFunction⟩ :: here) (w.newScope.declareAll
      (⟨w.scopes, isFunction⟩ :: here) ns).notes after stop ds free waits) :
    Effect here w.notes after stop (if isFunction then [] else hoisted ds)
      (without (ns ++ if isFunction then ds.map (·.name) else lexical ds) free)
      (!isFunction && waits) := by
  obtain ⟨bs, unchanged⟩ := declareAll_eq (⟨w.scopes, isFunction⟩ :: here) ns w.newScope
  have none : namesOf w.newScope.bindings w.scopes = [] := by
    refine eq_nil_iff_forall_not_mem.2 fun n mem => ?_
    have := (sound.bindings _ (mem_namesOf.1 mem)).1
    exact Nat.lt_irrefl _ this
  refine Effect.scope effect ?_ ?_ ?_ ?_ (fun n => ?_) (fun id inside => ?_) (eq ▸ numbered_of_sound sound)
  · rw [unchanged]; rfl
  · rw [unchanged]; rfl
  · rw [unchanged]; rfl
  · rw [unchanged]; rfl
  · rw [← mem_namesOf]
    show n ∈ namesOf (declareAll _ _ _).bindings w.scopes ↔ _
    rw [namesOf_declareAll, if_pos rfl, none, mem_addNames]
    simp
  · show namesOf (declareAll _ _ _).bindings id = namesOf w.bindings id
    have : w.scopes ≠ id := Ne.symm (Nat.ne_of_lt inside)
    rw [namesOf_declareAll, if_neg this]
    rfl

theorem closes_printParameters (shows : Shows ts i (printParameters ns)) :
    Closes ts i (i + 1 + (printNames ns).length) :=
  have isPair : ("(", ")") ∈ bracketPairs := by simp [bracketPairs]
  closes_of_nests isPair (.printNames ns) shows

theorem not_equals_more (ns : List String)
    (shows : Shows ts i (printMore ns ++ [.mark ")"])) :
    (TokenSeq.ofList ts).punctAt i "=" = false := by
  cases ns with
  | nil => exact punctAt_of_shows shows "="
  | cons n r => exact punctAt_of_shows ⟨shows.1, trivial⟩ "="

theorem itemEvents_name {n : String} (inside : i < limit) (got : ts[i]? = some t) (eq : t.key = .name n)
    (next : (TokenSeq.ofList ts).punctAt (i + 1) "=" = false) :
    itemEvents .array (TokenSeq.ofList ts) limit i =
      .declare n :: itemEvents .array (TokenSeq.ofList ts) limit (i + 1) := by
  obtain ⟨kind, text⟩ := key_eq eq
  have here : (ofList ts).get? i = some t := by
    rw [get?_ofList, got]
  have stop : patternEnd (ofList ts) i = i + 1 := by
    rw [patternEnd, here]
    exact if_pos kind
  have plain : ∀ text, t.isPunct text = false := fun text =>
    isPunct_of_kind_ne (by rw [kind]; decide) text
  have item : patternItem .array (ofList ts) limit i t =
      { nested := some i, stop := i + 1 } := by
    show arrayItem (ofList ts) limit i t = _
    unfold arrayItem arrayEntry
    rw [plain, plain]
    simp only [Bool.false_eq_true, if_false, stop, Nat.succ_ne_self]
    unfold PatternItem.withDefault
    dsimp only
    rw [next, if_neg Bool.false_ne_true]
  rw [itemEvents_of_lt here inside, item]
  simp only [Option.elim_some, nil_append, append_nil]
  rw [patternEvents_of_some here, if_pos kind, text]
  rfl

theorem itemEvents_more (ns : List String) (shows : Shows ts i (printMore ns ++ [.mark ")"]))
    (stop : limit = i + (printMore ns).length) :
    itemEvents .array (TokenSeq.ofList ts) limit i = ns.map .declare := by
  induction ns generalizing i with
  | nil => exact itemEvents_of_le (Nat.le_of_eq stop)
  | cons n r ih =>
    obtain ⟨⟨comma, got, eq⟩, ⟨t, got', eq'⟩, tl⟩ := shows
    have inside : i + 1 < limit := by
      rw [stop, printMore, length_cons, length_cons]
      omega
    have isComma := key_eq_mark.1 eq
    have here : (ofList ts).get? i = some comma := by
      rw [get?_ofList, got]
    have item : patternItem .array (ofList ts) limit i comma = { stop := i + 1 } := by
      show arrayItem (ofList ts) limit i comma = _
      rw [arrayItem, if_pos isComma]
    rw [itemEvents_of_lt here (by omega), item]
    simp only [elim_none, nil_append]
    rw [itemEvents_name inside got' eq' (not_equals_more r tl), ih tl]
    · rfl
    · rw [stop, printMore, length_cons, length_cons]
      omega

theorem parameterEvents_of_shows (shows : Shows ts i (printParameters ns)) :
    parameterEvents ts i (i + 1 + (printNames ns).length) = ns.map .declare := by
  obtain ⟨_, r⟩ := shows
  unfold parameterEvents
  cases ns with
  | nil => exact itemEvents_of_le (Nat.le_refl _)
  | cons n tl =>
    obtain ⟨⟨t, got, eq⟩, os⟩ := r
    rw [itemEvents_name (by simp [printNames]) got eq (not_equals_more tl os), itemEvents_more tl os]
    · rfl
    · rw [printNames, length_cons]
      omega

theorem bindParameters_of_shows (shows : Shows ts i (printParameters ns)) (s : Chain) (w : Walk) :
    w.bindParameters ts s i (i + 1 + (printNames ns).length) = w.declareAll s ns := by
  unfold bindParameters
  rw [parameterEvents_of_shows shows, foldl_map]
  rfl

theorem functionTail_of_shows (shows : Shows ts i (printParameters ns ++ [.mark openBrace])) (s : Chain)
    (w : Walk) :
    w.functionTail ts i s =
      ((w.declareAll s ns).announce ⟨s, w.here, .block⟩, i + (printParameters ns).length) := by
  obtain ⟨head, brace⟩ := shows_append.1 shows
  have length : i + 1 + (printNames ns).length + 1 =
      i + (printParameters ns).length := by
    simp only [printParameters, length_cons, length_append, length_nil]
    omega
  have paren : (ofList ts).punctAt i "(" := punctAt_of_shows ⟨head.1, trivial⟩ "("
  have next : (ofList ts).punctAt (i + (printParameters ns).length) openBrace := punctAt_of_shows brace _
  obtain ⟨bs, unchanged⟩ := declareAll_eq s ns w
  unfold functionTail
  rw [if_pos paren, closer?_ofList.2 (closes_printParameters head)]
  dsimp only
  rw [bindParameters_of_shows head, length, announceBody, if_pos next, unchanged]

end Parameters

end Scope

end Bindery
