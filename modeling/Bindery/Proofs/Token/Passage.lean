/-
Proofs.Token.Passage -- passages of a source

A passage that is cut out of a source, edited and trimmed is read by itself later on.
`Stands` says where the tokens of a passage stand in their source, and `Spells` that a
passage, read from the start and in front of a given text, has given tokens.
-/
import Bindery.Proofs.Token.Splice

namespace Bindery

open List Text

variable {s r g behind : List Char} {ts : List Token} {ks : List Key}
  {p : Char → Bool} {c : Char} {m : Mode} {ps tl : List Laid} {piece : Piece}
  {closed : Bool} {t : Token}

/-- How the lexer starts: outside all substitutions, where an operand may begin. -/
def Mode.start : Mode := ⟨false, []⟩

/-! ## What a passage spells -/

/-- Read from the start and in front of `behind`, the text has the tokens, and no
substitution is left open. -/
def Spells (s : List Char) (ks : List Key) (behind : List Char) : Prop :=
  ∃ ps g closed, s = written ps ++ g ∧ Valid .start ps (g ++ behind) ∧
    Gap closed g ∧ (Mode.start.run ps).braces = [] ∧ keysOf ps = ks

theorem spells_nil (behind : List Char) : Spells [] [] behind := ⟨[], [], true, rfl, trivial, .nil, rfl, rfl⟩

theorem spells_of_lexFrom (done : lexFrom {} s = .ok ts) : Spells s (ts.map Token.key) [] := by
  obtain ⟨ps, g, closed, split, valid, isGap, outside, placed⟩ := laid_of_lexFrom done
  exact ⟨ps, g, closed, split, by rw [append_nil]; exact valid, isGap, outside,
    (map_key_of_placed placed).symm⟩

theorem lexFrom_of_spells (spells : Spells s ks []) : ∃ ts, lexFrom {} s = .ok ts ∧ ts.map Token.key = ks := by
  obtain ⟨ps, g, closed, rfl, valid, isGap, outside, rfl⟩ := spells
  rw [append_nil] at valid
  exact lexFrom_of_laid valid isGap outside

/-! ## White space at the ends -/

def dropEnd (p : Char → Bool) (s : List Char) : List Char :=
  (s.reverse.dropWhile p).reverse

theorem dropEnd_append (p : Char → Bool) (fst snd : List Char) :
    dropEnd p (fst ++ snd) = if dropEnd p snd = [] then dropEnd p fst else fst ++ dropEnd p snd := by
  unfold dropEnd
  rw [reverse_append, dropWhile_append]
  cases snd.reverse.dropWhile p with
  | nil => simp
  | cons c r => simp

theorem dropEnd_of_last (last : s.getLast? = some c) (other : p c = false) : dropEnd p s = s := by
  rw [← head?_reverse] at last
  obtain ⟨pre, split⟩ := head?_eq_some_iff.1 last
  rw [dropEnd, split, dropWhile_cons_of_neg (by simp [other]), ← split, reverse_reverse]

theorem dropEnd_split (p : Char → Bool) (s : List Char) :
    ∃ dropped, s = dropEnd p s ++ dropped ∧ ∀ c ∈ dropped, p c := by
  refine ⟨(s.reverse.takeWhile p).reverse, ?_, ?_⟩
  · unfold dropEnd
    rw [← reverse_append, takeWhile_append_dropWhile, reverse_reverse]
  · intro c mem
    exact all_eq_true.1 all_takeWhile c (mem_reverse.1 mem)

theorem dropEnd_written (blank : ∀ c, p c → isBlank c)
    (valid : Valid m ps r) : dropEnd p (written ps) = written ps := by
  rcases eq_nil_or_concat ps with rfl | ⟨pre, laid, split⟩
  · rfl
  · rw [concat_eq_append] at split
    subst split
    obtain ⟨-, -, -, got, -⟩ := valid_append.1 valid
    obtain ⟨c, last, vis⟩ := last_of_read got
    have other : p c = false := by
      cases holds : p c with
      | false => rfl
      | true => exact absurd (blank c holds) (by simp [vis])
    refine dropEnd_of_last ?_ other
    rw [written_append, getLast?_append]
    simp [written, getLast?_append, last]

theorem first_of_read (starts : Starts (piece.text ++ r)) (got : m.read (piece.text ++ r) = some (piece, r)) :
    ∃ c tail, piece.text = c :: tail ∧ isBlank c = false := by
  cases text : piece.text with
  | nil => exact absurd text (text_ne_nil_of_read got)
  | cons c tail =>
    rw [text] at starts
    obtain nothing | ⟨d, tl, eq, vis, -⟩ := starts.cases
    · cases nothing
    · cases eq
      exact ⟨c, tail, rfl, vis⟩

theorem Gap.dropWhile (blank : ∀ c, p c → isBlank c) (isGap : Gap closed g) : Gap closed (g.dropWhile p) := by
  induction g with
  | nil => exact isGap
  | cons c r ih =>
    cases holds : p c with
    | false =>
      rw [dropWhile_cons_of_neg (by simp [holds])]
      exact isGap
    | true =>
      rw [dropWhile_cons_of_pos holds]
      exact ih (isGap.of_blank (blank c holds))

theorem dropWhile_append_of_head (fst : List Char) {snd : List Char}
    (other : ∀ c, snd.head? = some c → p c = false) : (fst ++ snd).dropWhile p = fst.dropWhile p ++ snd := by
  rw [dropWhile_append]
  cases fst.dropWhile p with
  | cons c r => rfl
  | nil =>
    cases snd with
    | nil => rfl
    | cons c r => simp [other c rfl]

section Ends

variable {behind' : List Char}

theorem Spells.dropEnd (blank : ∀ c, p c → isBlank c) (stop : Stop behind) (stop' : Stop behind')
    (spells : Spells s ks behind) : Spells (dropEnd p s) ks behind' := by
  obtain ⟨ps, g, closed, rfl, valid, isGap, outside, read⟩ := spells
  obtain ⟨dropped, split, blanks⟩ := dropEnd_split p g
  have text : Bindery.dropEnd p (written ps ++ g) = written ps ++ Bindery.dropEnd p g := by
    rw [dropEnd_append]
    split
    · next empty => rw [empty, dropEnd_written blank valid, append_nil]
    · rfl
  have stops : Stop (dropped ++ behind) := by
    cases dropped with
    | nil => exact stop
    | cons c r => exact stop_of_blank _ (blank c (blanks c mem_cons_self))
  -- seen from the last piece, only what is behind the rest of the gap has changed
  have alike : Alike (g ++ behind) (Bindery.dropEnd p g ++ behind') := by
    have := (Alike.of_look stops.look stop'.look).prepend (Bindery.dropEnd p g)
    rwa [← append_assoc, ← split] at this
  rw [split] at isGap
  obtain ⟨closed', isGap'⟩ := isGap.dropBlanks dropped fun c mem => blank c (blanks c mem)
  exact ⟨ps, _, closed', text, valid.swap alike, isGap', outside, read⟩

theorem Spells.before (stop : Stop behind) (stop' : Stop behind') (spells : Spells s ks behind) :
    Spells s ks behind' := by
  obtain ⟨ps, g, closed, split, valid, isGap, outside, read⟩ := spells
  exact ⟨ps, g, closed, split, valid.swap ((Alike.of_look stop.look stop'.look).prepend g),
    isGap, outside, read⟩

theorem Spells.dropStart (blank : ∀ c, p c → isBlank c)
    (spells : Spells s ks behind) : Spells (s.dropWhile p) ks behind := by
  obtain ⟨ps, g, closed, rfl, valid, isGap, outside, read⟩ := spells
  cases ps with
  | nil => exact ⟨[], g.dropWhile p, closed, rfl, trivial, isGap.dropWhile blank, outside, read⟩
  | cons laid tl =>
    obtain ⟨isGap', starts, got, later⟩ := valid
    refine ⟨⟨laid.gap.dropWhile p, laid.piece⟩ :: tl, g, closed, ?_,
      ⟨isGap'.dropWhile blank, starts, got, later⟩, isGap, outside, read⟩
    obtain ⟨c, tail, text, vis⟩ := first_of_read starts got
    simp only [written, append_assoc]
    refine dropWhile_append_of_head _ ?_
    rw [text]
    rintro _ ⟨⟩
    cases holds : p c with
    | false => rfl
    | true => exact absurd (blank c holds) (by simp [vis])

end Ends

/-! ## Putting a passage between tokens -/

theorem Spells.indent {prev : List Char} (isGap : Gap true prev)
    (spells : Spells s ks behind) : Spells (prev ++ s) ks behind := by
  obtain ⟨ps, g, closed, rfl, valid, isGap', outside, read⟩ := spells
  cases ps with
  | nil => exact ⟨[], prev ++ g, closed, rfl, trivial, isGap.append isGap', outside, read⟩
  | cons laid tl =>
    obtain ⟨fst, starts, got, later⟩ := valid
    exact ⟨⟨prev ++ laid.gap, laid.piece⟩ :: tl, g, closed, by simp [written],
      ⟨isGap.append fst, starts, got, later⟩, isGap', outside, read⟩

/-- Pieces that are read outside of substitutions, whatever is in front of them. -/
def Plain (ps : List Laid) (r : List Char) : Prop :=
  ∀ m : Mode, m.braces = [] → Valid m ps r ∧ (m.run ps).braces = []

theorem Plain.nil (r : List Char) : Plain [] r := fun _ outside => ⟨trivial, outside⟩

theorem Plain.mark (isGap : Gap true g) (single : c ∈ singleMarks) (later : Plain tl r) :
    Plain (⟨g, .plain .punct [c]⟩ :: tl) r := by
  intro m outside
  have others : ∀ c ∈ singleMarks, isBlank c = false ∧ c ≠ '/' := forall_mem_of_all (by decide)
  obtain ⟨vis, slash⟩ := others c single
  have next : (m.after (.plain .punct [c])).braces = [] := by
    show LexState.countBrace _ m.braces = []
    rw [outside]
    rfl
  obtain ⟨valid, ends⟩ := later _ next
  exact ⟨⟨isGap, starts_of_ne _ vis slash, read_single _ single outside, valid⟩, ends⟩

theorem Plain.word {parts : List Char} (isGap : Gap true g) (start : Scan.isNameStart c ∨ c = '\\')
    (all : ∀ d ∈ parts, isWordPart d) (ends : (written tl ++ r).head?.any isWordPart = false)
    (later : Plain tl r) : Plain (⟨g, .plain (Mode.wordKind (c :: parts)) (c :: parts)⟩ :: tl) r := by
  intro m outside
  have vis : isBlank c = false := by
    rcases start with start | rfl
    · exact visible_of_nameStart start
    · decide
  have slash : c ≠ '/' := by
    rintro rfl
    exact (starts_only_words start).1 (by decide)
  have next : (m.after (.plain (Mode.wordKind (c :: parts)) (c :: parts))).braces = [] := by
    have kind : Mode.wordKind (c :: parts) ≠ .punct := by
      unfold Mode.wordKind
      split <;> decide
    show (if _ then _ else m.braces) = []
    rw [if_neg kind, outside]
  obtain ⟨valid, ends'⟩ := later _ next
  exact ⟨⟨isGap, starts_of_ne _ vis slash, read_word m start all ends, valid⟩, ends'⟩

theorem Spells.prepend {pre : List Laid} (plain : Plain pre (s ++ behind)) (m : Mode.start.run pre = .start)
    (spells : Spells s ks behind) : Spells (written pre ++ s) (keysOf pre ++ ks) behind := by
  obtain ⟨ps, g, closed, rfl, valid, isGap, outside, rfl⟩ := spells
  refine ⟨pre ++ ps, g, closed, ?_, valid_append.2 ⟨?_, m.symm ▸ valid⟩, isGap, ?_, keysOf_append _ _⟩
  · rw [written_append, append_assoc]
  · rw [← append_assoc]
    exact (plain .start rfl).1
  · rw [Mode.run_append, m]
    exact outside

theorem Spells.append (plain : Plain (⟨'\n' :: g, piece⟩ :: tl) behind)
    (spells : Spells s ks (written (⟨'\n' :: g, piece⟩ :: tl) ++ behind)) :
    Spells (s ++ written (⟨'\n' :: g, piece⟩ :: tl)) (ks ++ keysOf (⟨'\n' :: g, piece⟩ :: tl)) behind := by
  obtain ⟨ps, last, closed, rfl, valid, isGap, outside, rfl⟩ := spells
  obtain ⟨⟨l, starts, got, later⟩, ends⟩ := plain _ outside
  have joined : Gap true (last ++ '\n' :: g) := by
    have := isGap.lineFeed.append (l.of_blank (by decide))
    rwa [append_assoc] at this
  refine ⟨ps ++ ⟨last ++ '\n' :: g, piece⟩ :: tl, [], true, ?_, ?_, .nil, ?_, ?_⟩
  · simp [written, written_append]
  · refine valid_append.2 ⟨?_, joined, starts, got, later⟩
    simpa [written] using valid
  · rw [Mode.run_append]
    exact ends
  · rw [keysOf_append]
    rfl

/-! ## Where a passage stands -/

/-- Between `pre` and `behind` in its source, the text holds the tokens and a last gap.
The lexer reads it in the given mode, and leaves no substitution open. -/
def Stands (m : Mode) (pre s : List Char) (ts : List Token) (behind : List Char) : Prop :=
  ∃ ps g closed, s = written ps ++ g ∧ Valid m ps (g ++ behind) ∧
    Gap closed g ∧ (m.run ps).braces = [] ∧ Placed (byteLength pre) ps ts

theorem stands_of_lexFrom {src : List Char} (done : lexFrom {} src = .ok ts) : Stands .start [] src ts [] := by
  obtain ⟨ps, g, closed, split, valid, isGap, outside, placed⟩ := laid_of_lexFrom done
  exact ⟨ps, g, closed, split, by rw [append_nil]; exact valid, isGap, outside, placed⟩

def Token.Single (t : Token) : Prop :=
  t.kind ≠ .template ∧ t.key ≠ .mark ")" ∧ t.key ≠ .mark "("

theorem single_of_kind (template : t.kind ≠ .template) (punct : t.kind ≠ .punct) : t.Single :=
  ⟨template, key_ne_mark _ punct, key_ne_mark _ punct⟩

theorem single_of_ident (ident : t.kind = .ident) : t.Single :=
  single_of_kind (by simp [ident]) (by simp [ident])

theorem single_of_mark {t : Token} {s : String} (mark : t.isPunct s)
    (other : s ≠ ")") (other' : s ≠ "(") : t.Single := by
  have key : t.key = .mark s := key_eq_mark.2 mark
  have kind : t.kind = .punct := congrArg Prod.fst key
  refine ⟨by simp [kind], ?_, ?_⟩
  · rw [key]
    exact fun eq => other (congrArg Prod.snd eq)
  · rw [key]
    exact fun eq => other' (congrArg Prod.snd eq)

theorem outside_of_singles {pos : Nat} (placed : Placed pos ps ts) (single : ∀ t ∈ ts, t.Single)
    (outside : (m.run ps).braces = []) : m.braces = [] := by
  induction ts generalizing m pos ps with
  | nil =>
    cases ps with
    | nil => exact outside
    | cons laid tl =>
      obtain ⟨own, later, split, here, -⟩ := placed
      have fst := here.first
      rw [(append_eq_nil_iff.1 split.symm).1] at fst
      cases fst
  | cons t r ih =>
    have here := single t mem_cons_self
    obtain ⟨g, s, tl, rfl, -, -, -, placed'⟩ := plain_of_placed placed here.1 here.2.1
    have next := ih placed' (fun t mem => single t (.tail _ mem)) outside
    simp only [Mode.after] at next
    split at next
    · cases got : m.braces with
      | nil => rfl
      | cons d outer =>
        rw [got, LexState.countBrace] at next
        split at next
        · cases next
        split at next <;> cases next
    · exact next

namespace Stands

variable {pre : List Char} {r : List Token}

theorem first (stands : Stands m pre s (t :: r) behind) :
    ∃ g s', s = g ++ s' ∧ t.start = byteLength (pre ++ g) ∧ Stands m (pre ++ g) s' (t :: r) behind := by
  obtain ⟨ps, last, closed, rfl, valid, isGap, outside, placed⟩ := stands
  cases ps with
  | nil => cases placed
  | cons laid tl =>
    obtain ⟨own, later, split, here, next⟩ := placed
    obtain ⟨-, starts, got, valid⟩ := valid
    have start : t.start = byteLength (pre ++ laid.gap) := by
      have fst := here.first
      cases own with
      | nil => cases fst
      | cons head own =>
        cases split
        rw [byteLength_append]
        exact Option.some.inj fst
    refine ⟨laid.gap, written (⟨[], laid.piece⟩ :: tl) ++ last, by simp [written], start,
      ⟨[], laid.piece⟩ :: tl, last, closed, rfl, ⟨.nil, starts, got, valid⟩, isGap, outside,
      own, later, split, ?_, ?_⟩
    · rw [byteLength_append]
      exact here
    · rw [byteLength_append]
      exact next

theorem tail (stands : Stands m pre s (t :: r) behind) (single : t.Single) :
    ∃ g s', s = g ++ (t.text.toList ++ s') ∧ t.stop = byteLength (pre ++ (g ++ t.text.toList)) ∧
      Stands (m.after (.plain t.kind t.text.toList)) (pre ++ (g ++ t.text.toList)) s' r behind := by
  obtain ⟨ps, last, closed, rfl, valid, isGap, outside, placed⟩ := stands
  obtain ⟨g, w, tl, rfl, eq, starts, stops, placed'⟩ := plain_of_placed placed single.1 single.2.1
  have w' : t.text.toList = w := by rw [eq, String.toList_ofList]
  obtain ⟨-, -, -, later⟩ := valid
  have stop : t.stop = byteLength (pre ++ (g ++ w)) := by
    rw [stops, starts, byteLength_append, byteLength_append]
    omega
  rw [w']
  exact ⟨g, written tl ++ last, by simp [written, Piece.text], stop, tl, last, closed,
    rfl, later, isGap, outside, stop ▸ placed'⟩

theorem init {ts : List Token} (stands : Stands m pre s (ts ++ t :: r) behind)
    (single : ∀ other ∈ t :: r, other.Single) :
    ∃ s' tl, s = s' ++ (t.text.toList ++ tl) ∧ t.start = byteLength (pre ++ s') ∧
      Stands m pre s' ts (t.text.toList ++ (tl ++ behind)) := by
  obtain ⟨ps, last, closed, rfl, valid, isGap, outside, placed⟩ := stands
  have here := single t mem_cons_self
  obtain ⟨prev, back, rfl, inside, placed'⟩ := placed_append placed here.2.2
  rw [Mode.run_append] at outside
  -- no substitution is open at the cut, or the last tokens would have had to close it
  have outside' := outside_of_singles placed' single outside
  obtain ⟨g, w, tl, rfl, eq, starts, -, -⟩ := plain_of_placed placed' here.1 here.2.1
  have w' : t.text.toList = w := by rw [eq, String.toList_ofList]
  obtain ⟨valid, isGap', -⟩ := valid_append.1 valid
  rw [w']
  refine ⟨written prev ++ g, written tl ++ last, ?_, ?_, prev, g, true, rfl, ?_, isGap', outside', inside⟩
  · simp [written, written_append, Piece.text]
  · rw [starts, byteLength_append, byteLength_append, Nat.add_assoc]
  · simpa [written, Piece.text] using valid

end Stands

/-- **An edited passage spells the edited tokens.** -/
theorem spells_applyEdits {pre : List Char} {edits : List Edit} {ps' : List Laid}
    (edited : Edited (byteLength pre) ps edits ps') (valid : Valid .start ps (g ++ behind))
    (isGap : Gap closed g) (outside : (Mode.start.run ps).braces = []) :
    Spells (applyEdits (pre ++ ((written ps ++ g) ++ behind)) (byteLength pre)
      (byteLength pre + byteLength (written ps ++ g)) edits) (keysOf ps') behind := by
  obtain ⟨valid', run, -⟩ := edited.valid valid (.refl _)
  refine ⟨ps', g, closed, ?_, valid', isGap, run ▸ outside, rfl⟩
  rw [applyEdits, slice_append, edited.changed.applyFrom]
  rw [byteLength_append]
  omega

end Bindery
