/-
Proofs.Scope.Phrase -- how expressions are walked

What it means that the keys of an expression, of a list or of statements are walked
with the effect they have (`WalksPhrase`, `WalksItems`, `WalksBlock`), and the lemmas
for expressions without functions and objects: if the parts are walked so, the whole
is.
-/
import Bindery.Proofs.Scope.Stretch

namespace Bindery

open List TokenSeq Program

namespace Scope

def Stops (ts : List Token) (i : Nat) : Prop :=
  ∃ key ∈ [Key.mark ")", .mark "]", .mark closeBrace, .mark ",", .mark ";"],
    Shows ts i [key]

/-- The keys of a phrase are walked with the effect that the phrase has, in the header of a
loop or not. -/
def WalksPhraseIn (inHeader : Bool) (ts : List Token) (ks : List Key) (free : List String)
    (waits : Bool) : Prop :=
  ∀ ⦃i stop : Nat⦄ ⦃w : Walk⦄, stop = i + ks.length →
    Steady inHeader ts i w → Begins ts i w → Shows ts i ks →
    Stops ts stop → Done ts w i stop free waits

def WalksValueIn (inHeader : Bool) (ts : List Token) (ks : List Key) (free : List String)
    (waits : Bool) : Prop :=
  ∀ ⦃i stop : Nat⦄ ⦃w : Walk⦄, stop = i + ks.length →
    Steady inHeader ts i w → Begins ts i w → IsValue ts i →
    Shows ts i ks → Stops ts stop → Done ts w i stop free waits

/-- The keys of a phrase are walked with its effect, and no arrow is left open behind
them, whatever follows. -/
def ClosedPhraseIn (inHeader : Bool) (ts : List Token) (ks : List Key) (free : List String)
    (waits : Bool) : Prop :=
  ∀ ⦃i stop : Nat⦄ ⦃w : Walk⦄, stop = i + ks.length →
    Steady inHeader ts i w → Begins ts i w → Shows ts i ks →
    Whole ts w i stop [] free waits

def ClosedValueIn (inHeader : Bool) (ts : List Token) (ks : List Key) (free : List String)
    (waits : Bool) : Prop :=
  ∀ ⦃i stop : Nat⦄ ⦃w : Walk⦄, stop = i + ks.length →
    Steady inHeader ts i w → Begins ts i w → IsValue ts i →
    Shows ts i ks → Whole ts w i stop [] free waits

abbrev WalksPhrase := WalksPhraseIn false
abbrev WalksValue := WalksValueIn false
abbrev ClosedPhrase := ClosedPhraseIn false
abbrev ClosedValue := ClosedValueIn false

section In

variable {inHeader : Bool} {ts : List Token} {ks : List Key} {free : List String} {waits : Bool}

theorem WalksPhraseIn.value (p : WalksPhraseIn inHeader ts ks free waits) :
    WalksValueIn inHeader ts ks free waits :=
  fun _ _ _ length poised begins _ shows stops => p length poised begins shows stops

theorem ClosedPhraseIn.phrase (closed : ClosedPhraseIn inHeader ts ks free waits) :
    WalksPhraseIn inHeader ts ks free waits :=
  fun _ _ _ length poised begins shows _ => (closed length poised begins shows).done poised.quiet

theorem ClosedPhraseIn.value (closed : ClosedPhraseIn inHeader ts ks free waits) :
    ClosedValueIn inHeader ts ks free waits :=
  fun _ _ _ length poised begins _ shows => closed length poised begins shows

theorem ClosedValueIn.value (closed : ClosedValueIn inHeader ts ks free waits) :
    WalksValueIn inHeader ts ks free waits :=
  fun _ _ _ length poised begins isValue shows _ =>
    (closed length poised begins isValue shows).done poised.quiet

end In

/-- The keys of statements are walked with the effect that the statements have. -/
def WalksBlock (ts : List Token) (ks : List Key) (ds : List Declared)
    (free : List String) (waits : Bool) : Prop :=
  ∀ ⦃i stop : Nat⦄ ⦃w : Walk⦄, stop = i + ks.length → Poised ts i w →
    Inside w → InBlock w → AtStart ts i → Shows ts i ks →
    Whole ts w i stop ds free waits

section Combinators

variable {inHeader : Bool} {ts : List Token} {i middle stop : Nat} {start : Walk}
  {ds ds' : List Declared} {free free' : List String} {waits waits' : Bool} {t : Token}

theorem Reaches.le {w last : Walk} (reaches : Reaches ts i w stop last) : i ≤ stop := by
  induction reaches with
  | refl => exact Nat.le_refl _
  | @step i _ t w _ _ _ ih =>
    exact Nat.le_trans (Nat.le_of_lt (Walk.lt_step ts i t w)) ih

theorem Whole.andThen (poised : Steady inHeader ts i start) (fst : Whole ts start i middle ds free waits)
    (snd : ∀ w, Steady inHeader ts middle w → w.layout = start.layout → w.declarations = start.declarations →
      Whole ts w middle stop ds' free' waits') :
    Whole ts start i stop (ds ++ ds') (free ++ free') (waits || waits') := by
  obtain ⟨w, reaches, eq, lists, effect⟩ := fst
  have poised' := poised.later reaches.le reaches eq lists effect
  obtain ⟨last, reaches', eq', lists', effect'⟩ := snd w poised' eq lists
  have here : w.here = start.here := by injection eq
  rw [here] at effect'
  exact ⟨last, reaches.trans reaches', eq'.trans eq, lists'.trans lists,
    effect.trans effect' reaches'.le (numbered_of_sound poised.sound)⟩

theorem Whole.andDone (poised : Steady inHeader ts i start) (fst : Whole ts start i middle [] free waits)
    (snd : ∀ w, Steady inHeader ts middle w → w.layout = start.layout →
      w.declarations = start.declarations → Done ts w middle stop free' waits') :
    Done ts start i stop (free ++ free') (waits || waits') := by
  obtain ⟨w, reaches, eq, lists, effect⟩ := fst
  have poised' := poised.later reaches.le reaches eq lists effect
  obtain ⟨last, reaches', rests, effect'⟩ := snd w poised' eq lists
  have here : w.here = start.here := by injection eq
  rw [here] at effect'
  exact ⟨last, reaches.trans reaches', rests.of_start eq lists,
    effect.trans effect' reaches'.le (numbered_of_sound poised.sound)⟩

theorem Whole.skip (got : ts[i]? = some t) (eq : start.step ts i t = (start, i + 1)) :
    Whole ts start i (i + 1) [] [] false :=
  ⟨start, .one got eq, rfl, rfl, .refl _ _ _⟩

section

variable (poised : Steady inHeader ts i start) {opened : Opened}
include poised

theorem Steady.push (got : ts[i]? = some t)
    (eq : start.step ts i t = (start.push opened, i + 1)) (header : (start.push opened).inForHeader = false) :
    Poised ts (i + 1) (start.push opened) ∧ Inside (start.push opened) := by
  refine ⟨⟨(Reaches.one got eq).sound poised.sound, poised.quiet, fun use mem => ?_,
    fun s mem => ?_, fun declaration mem => ?_, header⟩, fun s mem => ?_,
    fun declaration mem => ?_⟩
  · exact Nat.lt_succ_of_lt (poised.uses use mem)
  · exact Nat.le_succ_of_le (poised.delimited s mem)
  · exact Nat.le_succ_of_le (poised.lists declaration mem)
  · exact Nat.lt_succ_of_le (poised.delimited s mem)
  · exact Nat.lt_succ_of_le (poised.lists declaration mem)

/-- **Brackets around a stretch.** -/
theorem Whole.enclosed
    {opening : Token} (got : ts[i]? = some opening)
    (eq : start.step ts i opening = (start.push opened, i + 1))
    (plain : ∀ (seq : TokenSeq) (at_ : Nat) (w : Walk), w.afterClosing seq at_ opened = w)
    (inner : Done ts (start.push opened) (i + 1) middle free waits) {s : String}
    (close : Shows ts middle [.mark s])
    (bracket : [")", "]", closeBrace].contains s) :
    Whole ts start i (middle + 1) [] free waits := by
  obtain ⟨w, reaches, rests, effect⟩ := inner
  obtain ⟨⟨closing, foundClosing, isClosing⟩, _⟩ := close
  have closed := rests.close opened start.opens rfl poised.delimited
    poised.lists foundClosing isClosing bracket
  rw [plain] at closed
  refine ⟨_, (Reaches.one got eq).trans (reaches.trans closed), ?_, rests.declarations,
    (effect.mono (Nat.le_succ _))⟩
  show Walk.Layout.mk _ _ w.pending _ = Walk.Layout.mk _ _ start.pending _
  rw [rests.quiet, poised.quiet]
  rfl

end

end Combinators

/-! ## Lists in brackets -/

def beforeItem (object : Bool) : List Key :=
  if object then [.mark openBrace, .mark ","] else [.mark "(", .mark "[", .mark ","]

def StopsItem (ts : List Token) (object : Bool) (i : Nat) : Prop :=
  ∃ key ∈ if object then [Key.mark ",", .mark closeBrace] else [.mark ",", .mark ")", .mark "]"],
    Shows ts i [key]

/-- The keys of one item or of more are walked with the effect that they have. -/
def WalksItems (ts : List Token) (object : Bool) (ks : List Key) (free : List String)
    (waits : Bool) : Prop :=
  ∀ ⦃i stop : Nat⦄ ⦃start : Walk⦄, stop = i + ks.length → Poised ts i start →
    Inside start → start.inBrace .object = object →
    (∃ key ∈ beforeItem object, Behind ts i key) → Shows ts i ks →
    StopsItem ts object stop → Done ts start i stop free waits

def WalksMore (ts : List Token) (object : Bool) (ks : List Key) (free : List String)
    (waits : Bool) : Prop :=
  ∀ ⦃i stop : Nat⦄ ⦃start w : Walk⦄, stop = i + ks.length →
    Poised ts i start → Inside start → start.inBrace .object = object → Rests start w →
    w.Sound ts → (∀ use ∈ w.uses, use.token < i) →
    Shows ts i ks → StopsItem ts object stop →
    ∃ last, Reaches ts i w stop last ∧ Rests start last ∧
      Effect start.here w.notes last.notes stop [] free waits

section Items

variable {ts : List Token} {object : Bool} {i stop : Nat} {start w : Walk}
  {ks tl : List Key} {free free' : List String} {waits waits' : Bool}

/-- Keys behind an item: none, or first a comma. -/
def FromComma (ks : List Key) : Prop :=
  ks = [] ∨ ∃ rest, ks = .mark "," :: rest

theorem stops_of_shows (shows : Shows ts i tl) (stops : StopsItem ts object (i + tl.length))
    (comma : FromComma tl) : StopsItem ts object i := by
  rcases comma with rfl | ⟨r, rfl⟩
  · exact stops
  · exact ⟨.mark ",", by cases object <;> simp, shows.1, trivial⟩

theorem Rests.inBrace (rests : Rests start w) (kind : BraceKind) : w.inBrace kind = start.inBrace kind := by
  rw [Walk.inBrace, rests.opens, Walk.inBrace]

theorem Inside.resume (inside : Inside start) (rests : Rests start w) : Inside (start.resume w) := by
  have depth : (start.resume w).depth = start.depth := congrArg length rests.opens
  have lists : (start.resume w).declarations = start.declarations := rests.declarations
  refine ⟨?_, ?_⟩
  · rw [depth]
    exact inside.delimited
  · rw [depth, lists]
    exact inside.declarations

theorem walksMore_nil : WalksMore ts object [] [] false := by
  intro i stop start w length poised _ _ rests _ _ _ _
  exact ⟨w, length ▸ .refl _ _, rests, .refl _ _ _⟩

theorem walksMore_cons (fst : WalksItems ts object ks free waits)
    (r : WalksMore ts object tl free' waits') (comma : FromComma tl) :
    WalksMore ts object (.mark "," :: (ks ++ tl)) (free ++ free') (waits || waits') := by
  intro i stop start w length poised inside kind rests sound uses shows stops
  obtain ⟨⟨t, got, eq⟩, shown⟩ := shows
  obtain ⟨shownFirst, shownRest⟩ := shows_append.1 shown
  obtain rfl : stop = i + 1 + ks.length + tl.length := by
    rw [length, length_cons, length_append]
    omega
  -- the comma goes back to the beginning of the list
  have passed := rests.comma inside got eq
  have resumed : Poised ts (i + 1) (start.resume w) :=
    poised.resume rests (passed.sound sound) fun use mem => Nat.lt_succ_of_lt (uses use mem)
  have behind : Behind ts (i + 1) (.mark ",") := eq ▸ behind_of_get? got
  obtain ⟨middle, reaches, restsMiddle, effect⟩ := fst rfl resumed (inside.resume rests)
    ((rests.inBrace .object).trans kind) ⟨_, by cases object <;> simp [beforeItem], behind⟩
    shownFirst (stops_of_shows shownRest stops comma)
  obtain ⟨last, reaches', restsLast, effect'⟩ := r rfl (poised.mono (by omega)) inside kind
    (rests.trans_resume restsMiddle) (reaches.sound (passed.sound sound))
    (effect.uses_lt resumed.uses reaches.le) shownRest stops
  exact ⟨last, passed.trans (reaches.trans reaches'), restsLast,
    effect.trans effect' reaches'.le (numbered_of_sound resumed.sound)⟩

theorem walksItems_nil : WalksItems ts object [] [] false := by
  intro i stop start length poised _ _ _ _ _
  exact ⟨start, length ▸ .refl _ _, .refl poised.quiet, .refl _ _ _⟩

theorem walksItems_cons (fst : WalksItems ts object ks free waits) (r : WalksMore ts object tl free' waits')
    (comma : FromComma tl) : WalksItems ts object (ks ++ tl) (free ++ free') (waits || waits') := by
  intro i stop start length poised inside kind behind shows stops
  obtain ⟨shownFirst, shownRest⟩ := shows_append.1 shows
  obtain rfl : stop = i + ks.length + tl.length := by
    rw [length, length_append]
    omega
  obtain ⟨w, reaches, rests, effect⟩ := fst rfl poised inside kind behind shownFirst
    (stops_of_shows shownRest stops comma)
  obtain ⟨last, reaches', restsLast, effect'⟩ := r rfl (poised.mono (by omega)) inside kind
    rests (reaches.sound poised.sound) (effect.uses_lt poised.uses reaches.le) shownRest stops
  exact ⟨last, reaches.trans reaches', restsLast,
    effect.trans effect' reaches'.le (numbered_of_sound poised.sound)⟩

theorem StopsItem.stops (stops : StopsItem ts object i) : Stops ts i := by
  obtain ⟨key, mem, shows⟩ := stops
  refine ⟨key, ?_, shows⟩
  cases object <;> simp only [if_true, Bool.false_eq_true, if_false, mem_cons,
    not_mem_nil, or_false] at mem ⊢ <;> grind

theorem WalksValueIn.item (v : WalksValue ts ks free waits) : WalksItems ts false ks free waits := by
  intro i stop start length poised _ kind behind shows stops
  obtain ⟨key, mem, behind⟩ := behind
  have isFront : key ∈ beforeValue := by
    simp only [beforeItem, Bool.false_eq_true, if_false, mem_cons, not_mem_nil, or_false] at mem
    rcases mem with rfl | rfl | rfl <;> simp [beforeValue]
  obtain ⟨begins, isValue⟩ := begins_of_behind start behind isFront fun _ => kind
  exact v length poised begins isValue shows stops.stops

end Items

/-! ## Phrases -/

/-- What the walk notes of a name: in the header of a loop, `of` is no use. -/
def heard (inHeader : Bool) (n : String) : List String :=
  bif inHeader && n == "of" then [] else [n]

@[simp] theorem heard_false (n : String) : heard false n = [n] := rfl

def Walk.hear (inHeader : Bool) (n : String) (i : Nat) (w : Walk) : Walk :=
  bif inHeader && n == "of" then w else w.refer n w.here i

section Phrases

variable {inHeader : Bool} {ts : List Token} {i stop : Nat} {start : Walk}
  {ks tl : List Key} {free free' : List String} {waits waits' : Bool} {w : Walk} {t : Token} {n s : String}

/-- A name that is used, or heard in the header of a loop: no function or name follows it on its
line, and a colon only where no statement begins. -/
theorem step_of_name_heard (poised : Steady inHeader ts i w) (begins : Begins ts i w) (eq : t.key = .name n)
    (word : (ofList ts).holds (i + 1) (fun next => !next.newlineBefore && (next.isKeyword "function" || next.kind == .ident)) = false)
    (label : (ofList ts).punctAt (i + 1) ":" = false ∨ Walk.atStatementStart ts i = false) :
    w.step ts i t = (w.hear inHeader n i, i + 1) := by
  obtain ⟨kind, here⟩ := key_eq eq
  rw [step_of_name eq (begins.calm t)]
  unfold Walk.identAt Walk.hear
  rw [begins.selects, begins.member, poised.header, word, here, if_neg Bool.false_ne_true,
    if_neg Bool.false_ne_true]
  by_cases loop : n = "of" ∧ inHeader
  · have kept : w.keepDeclarations (· < w.depth) = w := by
      rw [Walk.keepDeclarations, filter_eq_self.2 fun declaration mem => by
        have bound := poised.declarations declaration mem
        rw [loop.2] at bound
        simpa using Nat.lt_of_succ_le bound]
    rw [if_pos loop, kept, loop.1, loop.2]
    rfl
  · have other : (inHeader && n == "of") = false := by
      rw [Bool.eq_false_iff, ne_eq, Bool.and_eq_true, beq_iff_eq, and_comm]
      exact loop
    rw [if_neg loop, other, cond_false]
    rcases label with colon | start
    · rw [colon]
      simp
    · rw [start]
      simp

theorem not_word_of_mark (next : Shows ts i [.mark s]) :
    (ofList ts).holds i (fun next =>
      !next.newlineBefore && (next.isKeyword "function" || next.kind == .ident)) = false := by
  obtain ⟨⟨follower, got, eq⟩, _⟩ := next
  rw [TokenSeq.holds, get?_ofList, got]
  simp [Token.isKeyword, (key_eq eq).1]

theorem step_of_heard (poised : Steady inHeader ts i w) (begins : Begins ts i w) (eq : t.key = .name n)
    (next : Shows ts (i + 1) [.mark s]) (other : (s == ":") = false) :
    w.step ts i t = (w.hear inHeader n i, i + 1) := by
  refine step_of_name_heard poised begins eq (not_word_of_mark next) (.inl ?_)
  obtain ⟨⟨follower, got, isMark⟩, _⟩ := next
  rw [TokenSeq.punctAt, TokenSeq.holds, get?_ofList, got]
  exact (Token.isPunct_of_isPunct (key_eq_mark.1 isMark) ":").trans other

theorem Whole.hear (poised : Steady inHeader ts i w) (got : ts[i]? = some t)
    (step : w.step ts i t = (w.hear inHeader n i, i + 1))
    : Whole ts w i (i + 1) [] (heard inHeader n) false := by
  refine ⟨_, .one got step, ?_⟩
  unfold Walk.hear heard
  cases inHeader && n == "of" with
  | true => exact ⟨rfl, rfl, .refl _ _ _⟩
  | false => exact ⟨rfl, rfl, .refer _ _ _ (Nat.lt_succ_self _) poised.uses⟩

theorem Stops.mark (stops : Stops ts i) : ∃ s, Shows ts i [.mark s] ∧ (s == ":") = false := by
  obtain ⟨key, mem, shows⟩ := stops
  simp only [mem_cons, not_mem_nil, or_false] at mem
  rcases mem with rfl | rfl | rfl | rfl | rfl <;> exact ⟨_, shows, by decide⟩

theorem walksPhrase_name (n : String) : WalksPhraseIn inHeader ts [.name n] (heard inHeader n) false := by
  intro i stop w length poised begins shows stops
  obtain ⟨⟨t, got, eq⟩, _⟩ := shows
  obtain rfl : stop = i + 1 := length
  obtain ⟨s, next, other⟩ := stops.mark
  exact (Whole.hear poised got (step_of_heard poised begins eq next other)).done poised.quiet

theorem closedPhrase_literal {kind : TokenKind} (s : String) (literal : kind = .number ∨ kind = .string) :
    ClosedPhraseIn inHeader ts [(kind, s)] [] false := by
  intro i stop w length poised begins shows
  obtain ⟨⟨t, got, eq⟩, _⟩ := shows
  obtain rfl : stop = i + 1 := length
  refine Whole.skip got (step_of_literal w _ i ?_)
  rw [(key_eq eq).1]
  exact literal

theorem WalksValueIn.paren (v : WalksValue ts ks free waits) (poised : Steady inHeader ts i start)
    (shows : Shows ts i (.mark "(" :: (ks ++ [.mark ")"]))) :
    Whole ts start i (i + 1 + ks.length + 1) [] free waits := by
  obtain ⟨⟨opening, got, eq⟩, r⟩ := shows
  obtain ⟨inner, close⟩ := shows_append.1 r
  have opens := step_of_open eq (.inl ⟨rfl, rfl⟩) start ts i
  obtain ⟨poised', _⟩ := poised.push got opens rfl
  obtain ⟨begins, isValue⟩ := begins_of_behind (start.push .paren)
    (eq ▸ behind_of_get? got) (by simp [beforeValue]) fun _ => rfl
  exact Whole.enclosed poised got opens (fun _ _ _ => rfl)
    (v rfl poised' begins isValue inner ⟨_, by simp, close⟩) close (by decide)

theorem WalksItems.enclosed (items : WalksItems ts false ks free waits)
    (poised : Steady inHeader ts i start) {s' : String} {opened : Opened}
    (bracket : s = "(" ∧ s' = ")" ∧ opened = .paren ∨ s = "[" ∧ s' = "]" ∧ opened = .bracket)
    (shows : Shows ts i (.mark s :: (ks ++ [.mark s']))) :
    Whole ts start i (i + 1 + ks.length + 1) [] free waits := by
  obtain ⟨⟨opening, got, eq⟩, r⟩ := shows
  obtain ⟨inner, close⟩ := shows_append.1 r
  have behind : Behind ts (i + 1) (.mark s) := eq ▸ behind_of_get? got
  have opens := step_of_open eq (bracket.imp (fun kind => ⟨kind.1, kind.2.2⟩)
    fun kind => ⟨kind.1, kind.2.2⟩) start ts i
  rcases bracket with ⟨rfl, rfl, rfl⟩ | ⟨rfl, rfl, rfl⟩
  all_goals
    obtain ⟨poised', inside⟩ := poised.push got opens rfl
    exact Whole.enclosed poised got opens (fun _ _ _ => rfl) (items rfl poised' inside rfl
      ⟨_, by simp [beforeItem], behind⟩ inner ⟨_, by simp, close⟩) close (by decide)

theorem closedPhrase_group (v : WalksValue ts ks free waits) :
    ClosedPhraseIn inHeader ts (.mark "(" :: (ks ++ [.mark ")"])) free waits := by
  intro i stop w length poised begins shows
  have whole := v.paren poised shows
  obtain rfl : stop = i + 1 + ks.length + 1 := by
    rw [length, length_cons, length_append, length_singleton]
    omega
  exact whole

theorem closedPhrase_array (items : WalksItems ts false ks free waits) :
    ClosedPhraseIn inHeader ts (.mark "[" :: (ks ++ [.mark "]"])) free waits := by
  intro i stop w length poised begins shows
  have whole := items.enclosed poised (.inr ⟨rfl, rfl, rfl⟩) shows
  obtain rfl : stop = i + 1 + ks.length + 1 := by
    rw [length, length_cons, length_append, length_singleton]
    omega
  exact whole

theorem WalksValueIn.thenMore (v : WalksValue ts ks free waits)
    (free' : List String) (waits' : Bool)
    (poised : Steady inHeader ts i start)
    (shows : Shows ts i (.mark "(" :: (ks ++ (.mark ")" :: tl))))
    (r : ∀ {i : Nat} {w : Walk}, Steady inHeader ts i w →
      Shows ts i tl → Behind ts i (.mark ")") →
      Whole ts w i (i + tl.length) [] free' waits') :
    Whole ts start i (i + (ks.length + tl.length + 2)) [] (free ++ free')
      (waits || waits') := by
  have split : .mark "(" :: (ks ++ (.mark ")" :: tl)) = (.mark "(" :: (ks ++ [.mark ")"])) ++ tl := by simp
  rw [split] at shows
  obtain ⟨fst, snd⟩ := shows_append.1 shows
  have length : i + (Key.mark "(" :: (ks ++ [Key.mark ")"])).length =
      i + 1 + ks.length + 1 := by
    simp only [length_cons, length_append, length_nil]
    omega
  rw [length] at snd
  have closing : Behind ts (i + 1 + ks.length + 1) (.mark ")") := by
    have behind := (show Shows ts i ((.mark "(" :: ks) ++ [.mark ")"]) from fst).behind
    rwa [length_cons, Nat.add_comm ks.length, ← Nat.add_assoc] at behind
  have stop : i + (ks.length + tl.length + 2) = i + 1 + ks.length + 1 + tl.length := by
    omega
  rw [stop]
  exact (v.paren poised fst).andThen poised fun w poised' _ _ => r poised' snd closing

theorem closedPhrase_sum (left : WalksValue ts ks free waits) (right : WalksValue ts tl free' waits') :
    ClosedPhraseIn inHeader ts (.mark "(" :: (ks ++ (.mark ")" :: .mark "+" :: .mark "(" ::
      (tl ++ [.mark ")"])))) (free ++ free') (waits || waits') := by
  intro i stop w length poised begins shows
  have whole := left.thenMore free' waits' poised shows
    fun {i w} poised shows _ => by
      obtain ⟨⟨plus, got, eq⟩, r⟩ := shows
      have skip := Whole.skip got (step_of_mark eq (by decide) w ts i)
      have stop : i + (Key.mark "+" :: Key.mark "(" :: (tl ++ [Key.mark ")"])).length =
          i + 1 + 1 + tl.length + 1 := by
        simp only [length_cons, length_append, length_nil]
        omega
      rw [stop]
      exact skip.andThen poised fun w poised _ _ => right.paren poised r
  obtain rfl : stop = i + (ks.length + (Key.mark "+" :: Key.mark "(" :: (tl ++
      [Key.mark ")"])).length + 2) := by
    rw [length]
    simp only [length_cons, length_append, length_nil]
    omega
  exact whole

theorem closedPhrase_member (v : WalksValue ts ks free waits) (prop : String) :
    ClosedPhraseIn inHeader ts (.mark "(" :: (ks ++ [.mark ")", .mark ".", .name prop])) free waits := by
  intro i stop w length poised begins shows
  have whole := v.thenMore [] false poised shows
    fun {i w} poised shows _ => by
      obtain ⟨⟨dot, got, eq⟩, ⟨n, got', eq'⟩, _⟩ := shows
      have skip := Whole.skip got (step_of_mark eq (by decide) w ts i)
      refine (skip.andThen poised fun w poised _ _ => ?_ :
        Whole ts w i (i + 1 + 1) ([] ++ []) ([] ++ []) (false || false))
      have isDot := key_eq_mark.1 eq
      have front : (ofList ts).prev? (i + 1) = some dot := by
        rw [prev?, if_neg (Nat.succ_ne_zero _), get?_ofList, Nat.add_sub_cancel, got]
      have selects : (ofList ts).prevHolds (i + 1) Token.selects := by
        rw [prevHolds_of_prev? front]
        simp [Token.selects, isDot]
      have calm : w.endDeclarationAtLineBreak ts (i + 1) n = w :=
        calm_of_not_endsOperand (by
            rw [prevHolds_of_prev? front]
            obtain ⟨kind, s⟩ := key_eq eq
            simp [Token.endsOperand, kind, s, closeBrace]) n
      refine Whole.skip got' ?_
      rw [step_of_name eq' calm]
      unfold Walk.identAt
      rw [if_pos selects]
  rw [append_nil, Bool.or_false] at whole
  obtain rfl : stop = i + (ks.length + [Key.mark ".", Key.name prop].length + 2) := by
    rw [length]
    simp only [length_cons, length_append, length_nil, Nat.add_assoc]
  exact whole

theorem closedPhrase_apply (v : WalksValue ts ks free waits) (items : WalksItems ts false tl free' waits') :
    ClosedPhraseIn inHeader ts (.mark "(" :: (ks ++ (.mark ")" :: .mark "(" ::
      (tl ++ [.mark ")"])))) (free ++ free') (waits || waits') := by
  intro i stop w length poised begins shows
  have whole := v.thenMore free' waits' poised shows
    fun {i w} poised shows _ => by
      have stop : i + (Key.mark "(" :: (tl ++ [Key.mark ")"])).length =
          i + 1 + tl.length + 1 := by
        simp only [length_cons, length_append, length_nil]
        omega
      rw [stop]
      exact items.enclosed poised (.inl ⟨rfl, rfl, rfl⟩) shows
  obtain rfl : stop = i + (ks.length + (Key.mark "(" :: (tl ++ [Key.mark ")"])).length +
      2) := by
    rw [length]
    simp only [length_cons, length_append, length_nil]
    omega
  exact whole

theorem closedPhrase_call (fn : String) (items : WalksItems ts false ks free waits) :
    ClosedPhraseIn inHeader ts (.name fn :: .mark "(" :: (ks ++ [.mark ")"]))
      (heard inHeader fn ++ free) waits := by
  intro i stop w length poised begins shows
  obtain ⟨⟨n, got, eq⟩, r⟩ := shows
  have fst := Whole.hear poised got (step_of_heard poised begins eq
    (show Shows ts (i + 1) [.mark "("] from ⟨r.1, trivial⟩) (by decide))
  have whole := fst.andThen poised fun w poised _ _ =>
    items.enclosed poised (.inl ⟨rfl, rfl, rfl⟩) r
  obtain rfl : stop = i + 1 + 1 + ks.length + 1 := by
    rw [length]
    simp only [length_cons, length_append, length_nil]
    omega
  exact whole

theorem closedPhrase_wait (v : WalksValue ts ks free waits) :
    ClosedPhraseIn inHeader ts (.word "await" :: .mark "(" :: (ks ++ [.mark ")"])) free true := by
  intro i stop w length poised begins shows
  obtain ⟨⟨t, got, eq⟩, r⟩ := shows
  have fst : Whole ts w i (i + 1) [] [] true := by
    refine ⟨w.suspend true, .one got ?_, Walk.layout_suspend w true, ?_, .wait w _⟩
    · rw [step_of_word eq (begins.calm t)]
      unfold Walk.keywordAt
      rw [(key_eq eq).2]
      show w.suspendAt _ _ true = _
      unfold Walk.suspendAt
      rw [begins.selects, if_neg Bool.false_ne_true]
    · unfold Walk.suspend
      repeat' split
      all_goals rfl
  have whole := fst.andThen poised fun w poised _ _ => v.paren poised r
  obtain rfl : stop = i + 1 + 1 + ks.length + 1 := by
    rw [length]
    simp only [length_cons, length_append, length_nil]
    omega
  exact whole

end Phrases

end Scope

end Bindery
