/-
Proofs.Import.Exchange -- the edits of the scan on the text

The edits of a scan put literals in the place of literals, and declarations in the place of
static imports.  A layout of the source becomes a layout of the edited text, piece by piece
from the end (`Exchanged`).  Two things are not as they were in front of and behind a
declaration: an operand may start behind it, and a number in another base that stands
directly in front of it takes its first letter.  Neither concerns a token that loads a
module (`Blurred`), so what the edited text loads is what the trace leaves
(`exchanged_of_trace`).
-/
import Bindery.Proofs.Import.Trace

namespace Bindery

open List Text Import

variable {tl ps : List Laid} {pos : Nat} {r : List Char} {mode : Mode} {edits : List Edit} {ks : List Key}

/-! ## Tokens that load nothing -/

/-- A token that is no part of a call of `import`, and selects no property. -/
structure Key.Idle (key : Key) : Prop where
  word : key ≠ .word "import"
  mark : key ≠ .mark "("
  literal : key.1 ≠ .string
  free : key.selects = false

inductive Blurred : List Key → List Key → Prop where
  | nil : Blurred [] []
  | keep {ks ks' : List Key} (key : Key) (later : Blurred ks ks') :
      Blurred (key :: ks) (key :: ks')
  | blur {key key' : Key} {ks ks' : List Key} (idle : key.Idle) (idle' : key'.Idle)
      (later : Blurred ks ks') : Blurred (key :: ks) (key' :: ks')

namespace Blurred

variable {ks' : List Key}

theorem append (pre : List Key) (blurred : Blurred ks ks') : Blurred (pre ++ ks) (pre ++ ks') := by
  induction pre with
  | nil => exact blurred
  | cons key pre ih => exact .keep key ih

theorem of_cons {key' : Key} (blurred : Blurred ks (key' :: ks')) :
    ∃ key r, ks = key :: r ∧ Blurred r ks' ∧ (key = key' ∨ key.Idle ∧ key'.Idle) := by
  cases blurred with
  | keep key later => exact ⟨_, _, rfl, later, .inl rfl⟩
  | blur idle idle' later => exact ⟨_, _, rfl, later, .inr ⟨idle, idle'⟩⟩

theorem loads {fine : String → Prop} {selected : Bool} (blurred : Blurred ks ks')
    (loads : Loads fine selected ks) : Loads fine selected ks' := by
  induction blurred generalizing selected with
  | nil => trivial
  | keep key later ih =>
    refine ⟨fun isImport free literal tl eq => ?_, ih loads.2⟩
    subst eq
    obtain ⟨o, r, rfl, later', rfl | ⟨-, idle⟩⟩ := later.of_cons
    · obtain ⟨arg, r, rfl, -, rfl | ⟨-, idle⟩⟩ := later'.of_cons
      · exact loads.1 isImport free literal r rfl
      · exact absurd rfl idle.literal
    · exact absurd rfl idle.mark
  | blur idle idle' later ih =>
    refine .cons_of_ne idle'.word (ih ?_)
    rw [idle'.free, ← idle.free]
    exact loads.2

end Blurred

theorem Key.idle_of_kind {key : Key} (known : key.1 = .number ∨ key.1 = .ident) : key.Idle := by
  obtain ⟨kind, s⟩ := key
  rcases known with rfl | rfl
  all_goals exact ⟨by simp [Key.word], by simp [Key.mark], by simp, by simp [Key.selects, Key.mark]⟩

/-! ## The first word of a declaration -/

/-- Pieces that begin with the first word of a declaration. -/
structure Declared (c d : Char) (parts : List Char) (tl : List Laid) : Prop where
  meek : ∀ r, Meek (c :: r) true
  digit : Scan.isHexPart d = false
  small : d ≠ 'n'
  start : Scan.isNameStart d = true
  all : ∀ e ∈ parts, isWordPart e = true
  free : Mode.wordKind (d :: parts) = .ident
  idle : Key.Idle (.keyword, String.ofList (c :: d :: parts))
  slash : ∀ laid ∈ tl.head?, laid.piece.text.head? ≠ some '/'

theorem declared_of_word {w : String} (known : w = "await" ∨ w = "const")
    (slash : ∀ laid ∈ tl.head?, laid.piece.text.head? ≠ some '/') :
    ∃ c d parts, w.toList = c :: d :: parts ∧ Declared c d parts tl := by
  have meek (c : Char) (known : c = 'a' ∨ c = 'c') (r : List Char) : Meek (c :: r) true := by
    rcases known with rfl | rfl
    all_goals
      exact meek_of_char r (by decide +kernel) (by decide) (by decide +kernel) (by decide)
  rcases known with rfl | rfl
  · exact ⟨'a', 'w', "ait".toList, rfl, meek 'a' (.inl rfl), by decide, by decide, by decide +kernel,
      forall_mem_of_all (by decide +kernel), by decide, ⟨by decide, by decide, by decide, by decide⟩,
      slash⟩
  · exact ⟨'c', 'o', "nst".toList, rfl, meek 'c' (.inr rfl), by decide, by decide, by decide +kernel,
      forall_mem_of_all (by decide +kernel), by decide, ⟨by decide, by decide, by decide, by decide⟩,
      slash⟩

/-! ## Exchanged layouts -/

/-- The pieces in front of two layouts are read alike, or the second one begins with a
declaration where the first one begins with a letter. -/
def Near (text : List Char) (ps : List Laid) (r : List Char) : Prop :=
  Alike text (written ps ++ r) ∨
    Meek text true ∧ ∃ c d parts tl,
      ps = ⟨[], .plain .keyword (c :: d :: parts)⟩ :: tl ∧ Declared c d parts tl

/-- The edits turn the layout that starts at an offset into another one, which has the
tokens up to idle ones and is read in every mode that agrees with that of the first. -/
structure Exchanged (pos : Nat) (mode : Mode) (ps : List Laid) (r : List Char)
    (edits : List Edit) (keys : List Key) (ps' : List Laid) : Prop where
  changed : Changed pos (written ps) edits (written ps')
  valid : ∀ mode', mode.Agrees mode' ps →
    Valid mode' ps' r ∧ (mode'.run ps').braces = (mode.run ps).braces
  near : Near (written ps ++ r) ps' r
  keys : Blurred keys (keysOf ps')

namespace Exchanged

variable {tl' : List Laid} {laid : Laid} {g : List Char} {start stop : Nat}

theorem nil (pos : Nat) (mode : Mode) (r : List Char) : Exchanged pos mode [] r [] [] [] where
  changed := .nil pos
  valid := fun _ agrees => ⟨trivial, agrees.1⟩
  near := .inl (.refl _)
  keys := .nil

section

variable
  (later : Exchanged (pos + byteLength laid.gap + byteLength laid.piece.text) (mode.after laid.piece) tl r edits ks tl')
include later

theorem changed_keep : Changed pos (written (laid :: tl)) edits (laid.gap ++ (laid.piece.text ++ written tl')) := by
  have changed := later.changed
  rw [Nat.add_assoc, ← byteLength_append] at changed
  simpa [written] using Changed.keep (laid.gap ++ laid.piece.text) changed

theorem keep_of_read (isGap : Gap true laid.gap) (starts : Starts (laid.piece.text ++ (written tl' ++ r)))
    (got : mode.read (laid.piece.text ++ (written tl' ++ r)) = some (laid.piece, written tl' ++ r))
    (alike : Alike (laid.piece.text ++ (written tl ++ r)) (laid.piece.text ++ (written tl' ++ r))) :
    Exchanged pos mode (laid :: tl) r edits (laid.piece.keys ++ ks) (laid :: tl') where
  changed := later.changed_keep
  valid := by
    intro mode' agrees
    have eq := Mode.after_congr agrees.1 laid.piece
    obtain ⟨valid, braces⟩ := later.valid (mode'.after laid.piece)
      ⟨congrArg Mode.braces eq, .inl (congrArg Mode.operand eq)⟩
    refine ⟨⟨isGap, starts, ?_, valid⟩, braces⟩
    rw [agrees.read (text_ne_nil_of_read got)]
    exact got
  near := .inl (by simpa [written] using alike.prepend laid.gap)
  keys := later.keys.append _

end

theorem lengthen {digits parts : List Char} {c d : Char} {tail : List Laid} (isGap : Gap true g)
    (later : Exchanged (pos + byteLength g + byteLength digits) (mode.after (.plain .number digits)) tl r
      edits ks (⟨[], .plain .keyword (c :: d :: parts)⟩ :: tail))
    (declared : Declared c d parts tail) (ne : digits ≠ [])
    (starts : Starts (digits ++ (c :: d :: parts ++ (written tail ++ r))))
    (got : mode.read (digits ++ (c :: d :: parts ++ (written tail ++ r))) =
      some (.plain .number (digits ++ [c]), d :: parts ++ (written tail ++ r)))
    (alike : Alike (digits ++ (written tl ++ r)) (digits ++ (c :: d :: parts ++ (written tail ++ r)))) :
    Exchanged pos mode (⟨g, .plain .number digits⟩ :: tl) r edits ((.number, String.ofList digits) :: ks)
      (⟨g, .plain .number (digits ++ [c])⟩ :: ⟨[], .plain .ident (d :: parts)⟩ :: tail) := by
  have shift : (digits ++ [c]) ++ (d :: parts ++ (written tail ++ r)) =
      digits ++ (c :: d :: parts ++ (written tail ++ r)) := by simp
  refine ⟨?_, fun mode' agrees => ?_, .inl ?_, ?_⟩
  · have changed : Changed pos (written (⟨g, .plain .number digits⟩ :: tl)) edits
        (g ++ (digits ++ written (⟨[], .plain .keyword (c :: d :: parts)⟩ :: tail))) :=
      later.changed_keep
    simpa [written, Piece.text] using changed
  · have eq := Mode.after_congr agrees.1 (.plain .number digits)
    obtain ⟨⟨-, -, w, valid⟩, braces⟩ := later.valid (mode'.after (.plain .number digits))
      ⟨congrArg Mode.braces eq, .inl (congrArg Mode.operand eq)⟩
    have ends := (wordText_of_read w (.inr rfl)).2.2
    have read := read_word (mode'.after (.plain .number (digits ++ [c]))) (.inl declared.start)
      declared.all ends
    rw [declared.free] at read
    have vis : isBlank d = false := visible_of_nameStart declared.start
    have slash : d ≠ '/' := by
      rintro rfl
      exact (starts_only_words (.inl declared.start)).1 (by decide)
    -- no operand matters in front of what follows the first word
    have agrees' : ((mode'.after (.plain .number digits)).after
        (.plain .keyword (c :: d :: parts))).Agrees
        ((mode'.after (.plain .number (digits ++ [c]))).after (.plain .ident (d :: parts))) tail :=
      ⟨rfl, .inr declared.slash⟩
    obtain ⟨valid', run⟩ := valid.agrees agrees'
    have number : mode'.read ((digits ++ [c]) ++ (d :: parts ++ (written tail ++ r))) =
        some (.plain .number (digits ++ [c]), d :: parts ++ (written tail ++ r)) := by
      rw [shift]
      exact (agrees.read ne).trans got
    have text : written (⟨[], .plain .ident (d :: parts)⟩ :: tail) ++ r =
        d :: parts ++ (written tail ++ r) := by simp [written, Piece.text]
    refine ⟨⟨isGap, ?_, ?_, .nil, starts_of_ne _ vis slash, read, valid'⟩, run.trans braces⟩
    · rw [text]
      exact shift ▸ starts
    · rw [text]
      exact number
  · simpa [written, Piece.text] using alike.prepend g
  · obtain ⟨key, ks', rfl, blurred, known⟩ := later.keys.of_cons
    have idle : key.Idle := by
      rcases known with rfl | ⟨idle, -⟩
      · exact declared.idle
      · exact idle
    exact .blur (Key.idle_of_kind (.inl rfl)) (Key.idle_of_kind (.inl rfl))
      (.blur idle (Key.idle_of_kind (.inr rfl)) blurred)

/-- **A piece in front of an exchanged layout** is kept, or it is a number that takes a
letter. -/
theorem keep (valid : Valid mode (laid :: tl) r)
    (later : Exchanged (pos + byteLength laid.gap + byteLength laid.piece.text) (mode.after laid.piece) tl r edits ks tl') :
    ∃ ps', Exchanged pos mode (laid :: tl) r edits (laid.piece.keys ++ ks) ps' := by
  obtain ⟨isGap, starts, got, -⟩ := valid
  have ne := text_ne_nil_of_read got
  rcases later.near with alike | ⟨meek, c, d, parts, tail, rfl, declared⟩
  · exact ⟨_, later.keep_of_read isGap (alike.starts ne starts) (alike.read ne got) (alike.prepend _)⟩
  have text : written (⟨[], .plain .keyword (c :: d :: parts)⟩ :: tail) ++ r =
      c :: d :: parts ++ (written tail ++ r) := by simp [written, Piece.text]
  have meek' := declared.meek (d :: parts ++ (written tail ++ r))
  have starts' := meek'.starts ne starts
  have alike := Alike.of_meek ne meek meek'
  by_cases number : ∃ digits, laid.piece = .plain .number digits
  · obtain ⟨digits, isNumber⟩ := number
    obtain ⟨g, piece⟩ := laid
    cases isNumber
    rcases read_number_letter meek meek' declared.digit
        (fun eq => declared.small (Option.some.inj eq)) got ne with eq | longer
    · exact ⟨_, later.keep_of_read isGap (text ▸ starts') (text ▸ eq) (text ▸ alike)⟩
    · exact ⟨_, later.lengthen isGap declared ne starts' longer alike⟩
  · have read := read_swap (m := []) meek meek' ne (fun digits eq => absurd ⟨digits, eq⟩ number) got
    exact ⟨_, later.keep_of_read isGap (text ▸ starts') (text ▸ read) (text ▸ alike)⟩

theorem literal {old new : List Char} (isLiteral : Literal new) (begins : start = pos + byteLength g)
    (ends : stop = start + byteLength old) (valid : Valid mode (⟨g, .plain .string old⟩ :: tl) r)
    (later : Exchanged stop (mode.after (.plain .string old)) tl r edits ks tl') :
    Exchanged pos mode (⟨g, .plain .string old⟩ :: tl) r
      (⟨start, stop, String.ofList new⟩ :: edits) ((.string, String.ofList new) :: ks)
      (⟨g, .plain .string new⟩ :: tl') := by
  obtain ⟨isGap, -, got, -⟩ := valid
  refine ⟨?_, fun mode' agrees => ?_, .inl ?_, .keep _ later.keys⟩
  · subst begins
    have replaced : Changed (pos + byteLength g) (old ++ written tl)
        (⟨pos + byteLength g, stop, String.ofList new⟩ :: ([] ++ edits))
        (new ++ written tl') :=
      .replace old new ends (fun _ mem => absurd mem not_mem_nil) later.changed
    exact .keep g replaced
  · have eq := Mode.after_congr agrees.1 (.plain .string old)
    obtain ⟨valid', braces⟩ := later.valid (mode'.after (.plain .string old))
      ⟨congrArg Mode.braces eq, .inl (congrArg Mode.operand eq)⟩
    exact ⟨⟨isGap, isLiteral.starts _, read_literal mode' isLiteral _, valid'⟩, braces⟩
  · have alike : Alike (old ++ (written tl ++ r)) (new ++ (written tl' ++ r)) :=
      .of_look ((literal_of_read got).stop _).look (isLiteral.stop _).look
    simpa [written, Piece.text] using alike.prepend g

theorem statement {pre : List Laid} {clause : Import.Clause} (sound : clause.Sound)
    (spec : String) (isGap : Gap true g) (begins : start = pos + byteLength g)
    (ends : stop = start + byteLength ("import".toList ++ written pre))
    (level : ∀ mode : Mode, (mode.run pre).braces = mode.braces)
    (followed : ((mode.after (.plain .keyword "import".toList)).run pre).operand → ∀ laid ∈ tl.head?, laid.piece.text.head? ≠ some '/')
    (later : Exchanged stop ((mode.after (.plain .keyword "import".toList)).run pre) tl r edits ks tl') :
    ∃ ps', Exchanged pos mode (⟨g, .plain .keyword "import".toList⟩ :: (pre ++ tl)) r
      (⟨start, stop, clause.render spec⟩ :: edits) (keysOf (clause.pieces spec) ++ ks)
      ps' := by
  obtain ⟨w, next, tail, known, split, slash⟩ := pieces_eq_cons sound spec
  have quiet : ∀ laid ∈ (next :: tail ++ tl').head?, laid.piece.text.head? ≠ some '/' := by
    rintro _ ⟨⟩
    exact slash
  obtain ⟨c, d, parts, letters, declared⟩ := declared_of_word known quiet
  have text := written_pieces sound spec
  rw [split, letters] at text
  have render : String.ofList (c :: d :: parts ++ written (next :: tail)) =
      clause.render spec := by
    rw [← String.ofList_toList (s := clause.render spec), ← text]
    rfl
  refine ⟨⟨g, .plain .keyword (c :: d :: parts)⟩ :: (next :: tail ++ tl'), ?_, ?_, ?_, ?_⟩
  · subst begins
    have replaced : Changed (pos + byteLength g)
        (("import".toList ++ written pre) ++ written tl)
        (⟨pos + byteLength g, stop, clause.render spec⟩ :: ([] ++ edits))
        ((c :: d :: parts ++ written (next :: tail)) ++ written tl') := by
      rw [← render]
      exact .replace _ _ ends (fun _ mem => absurd mem not_mem_nil) later.changed
    simpa [written, written_append, Piece.text] using Changed.keep g replaced
  · intro mode' agrees
    -- the declaration is read in any mode, and leaves the braces as the import did
    have steady : Steady (clause.pieces spec) (written tl' ++ r) := steady_pieces sound
    obtain ⟨valid, braces⟩ := steady mode'
    have operand := operand_pieces clause spec mode'
    obtain ⟨valid', run⟩ := later.valid (mode'.run (clause.pieces spec)) (by
      refine ⟨?_, ?_⟩
      · rw [braces, agrees.1, level]
        rfl
      · cases old : ((mode.after (.plain .keyword "import".toList)).run pre).operand with
        | false => exact .inl operand
        | true => exact .inr (followed old))
    rw [split, letters] at valid valid' run
    obtain ⟨-, starts, got, valid⟩ := valid
    have whole : written (next :: tail) ++ (written tl' ++ r) =
        written (next :: tail ++ tl') ++ r := by rw [written_append, append_assoc]
    rw [whole] at starts got
    refine ⟨⟨isGap, starts, got, valid_append.2 ⟨valid, valid'⟩⟩, ?_⟩
    refine (congrArg Mode.braces ?_).trans (run.trans (congrArg Mode.braces ?_))
    · exact Mode.run_append _ (⟨g, .plain .keyword (c :: d :: parts)⟩ :: next :: tail) tl'
    · exact (Mode.run_append _ (⟨g, .plain .keyword "import".toList⟩ :: pre) tl).symm
  · have meek :
        Meek (written (⟨[], .plain .keyword "import".toList⟩ :: (pre ++ tl)) ++ r) true :=
      meek_of_char _ (by decide +kernel) (by decide) (by decide +kernel) (by decide)
    cases g with
    | nil => exact .inr ⟨meek, c, d, parts, _, rfl, declared⟩
    | cons blank g =>
      have alike := Alike.of_meek (cons_ne_nil blank g) meek
        (declared.meek (d :: parts ++ (written (next :: tail ++ tl') ++ r)))
      exact .inl (by simpa [written, Piece.text] using alike)
  · rw [split, letters]
    show Blurred _ (keysOf ((⟨g, .plain .keyword (c :: d :: parts)⟩ :: next :: tail) ++ tl'))
    rw [keysOf_append]
    exact later.keys.append _

end Exchanged

/-! ## The edits of a trace -/

theorem placed_singles {own r : List Token} (placed : Placed pos ps (own ++ r)) (single : ∀ t ∈ own, t.Single) :
    ∃ pre tl, ps = pre ++ tl ∧ Placed (pos + byteLength (written pre)) tl r ∧
      (∀ mode : Mode, (mode.run pre).braces = bracesBehind mode.braces own) ∧
      (own.getLast?.map (·.stop)).getD pos = pos + byteLength (written pre) := by
  induction own generalizing pos ps with
  | nil => exact ⟨[], ps, rfl, placed, fun _ => rfl, rfl⟩
  | cons t own ih =>
    have here := single t mem_cons_self
    obtain ⟨g, s, tl, rfl, eq, starts, stops, placed⟩ := plain_of_placed placed here.1 here.2.1
    obtain ⟨pre, tl, rfl, placed, braces, ends⟩ := ih placed fun other mem => single other (.tail _ mem)
    have size : t.stop + byteLength (written pre) =
        pos + byteLength (written (⟨g, .plain t.kind s⟩ :: pre)) := by
      simp only [written, Piece.text, byteLength_append]
      omega
    have last : ((t :: own).getLast?.map (·.stop)).getD pos =
        (own.getLast?.map (·.stop)).getD t.stop := by
      cases own with
      | nil => rfl
      | cons next own => rw [getLast?_cons_cons, getLast?_eq_some_getLast (by simp)]; rfl
    refine ⟨⟨g, .plain t.kind s⟩ :: pre, tl, rfl, size ▸ placed, fun mode => ?_, last.trans (ends.trans size)⟩
    rw [bracesBehind, foldl_cons, eq]
    exact braces (mode.after (.plain t.kind s))

theorem exchanged_statement {kw last : Token} {inner later : List Token}
    {stmt : Import.Statement} (held : stmt.Held kw inner last later)
    (valid : Valid mode ps r)
    (placed : Placed pos ps (kw :: (inner ++ last :: later)))
    (next : ∀ {pos : Nat} {mode : Mode} {tl : List Laid}, tl.length < ps.length → Valid mode tl r →
      Placed pos tl later → ∃ tl', Exchanged pos mode tl r edits ks tl') :
    ∃ ps', Exchanged pos mode ps r ((ofStatement kw.start stmt).edits ++ edits)
      (keysOf (stmt.clause.pieces stmt.target) ++ ks) ps' := by
  obtain ⟨kind, w⟩ : kw.kind = .keyword ∧ kw.text = "import" := by
    simpa [Token.isKeyword] using held.keyword
  obtain ⟨g, text, behind, rfl, eq, starts, stops, placed'⟩ :=
    plain_of_placed placed (by simp [kind]) (key_ne_mark _ (by simp [kind]))
  obtain rfl : text = "import".toList := by
    rw [← w, eq, String.toList_ofList]
  rw [append_cons] at placed'
  obtain ⟨pre, tl, rfl, placed', braces, ends⟩ := placed_singles placed' held.even.single
  rw [getLast?_concat] at ends
  have ends : last.stop = kw.stop + byteLength (written pre) := ends
  rw [kind] at valid ⊢
  obtain ⟨isGap, -, -, behind⟩ := valid
  obtain ⟨-, behind⟩ := valid_append.1 behind
  rw [← ends] at placed'
  have shorter : tl.length <
      (⟨g, .plain .keyword "import".toList⟩ :: (pre ++ tl) : List Laid).length := by
    simp only [length_cons, length_append]
    omega
  obtain ⟨tl', exchanged⟩ := next shorter behind placed'
  rw [edits_ofStatement, ← held.stop]
  refine exchanged.statement held.sound stmt.target isGap starts ?_ (fun mode => ?_) ?_
  · rw [ends, stops, byteLength_append, Nat.add_assoc]
  · rw [braces, held.even.level]
  · -- behind an operand, only a division starts with a slash
    intro operand laid head slash
    obtain ⟨tail, rfl⟩ := head?_eq_some_iff.1 head
    obtain ⟨-, -, got, -⟩ := behind
    obtain ⟨chars, text⟩ := head?_eq_some_iff.1 slash
    rw [text] at got
    obtain ⟨own, after, rfl, here, -⟩ := placed'
    rcases slash_of_read operand got with division | division
    all_goals
      rw [division] at here
      obtain ⟨nl, rfl⟩ := here
      obtain ⟨absurd, absurd'⟩ := held.followed _ rfl
      simp [Token.isPunct] at absurd absurd'

theorem exchanged_argument (loader : Import.Loader) {arg : Token} {g s : List Char} {tl' : List Laid}
    (eq : arg.text = String.ofList s) (starts : arg.start = pos + byteLength g)
    (stops : arg.stop = arg.start + byteLength s) (valid : Valid mode (⟨g, .plain .string s⟩ :: tl) r)
    (later : Exchanged arg.stop (mode.after (.plain .string s)) tl r edits ks tl') :
    ∃ ps', Exchanged pos mode (⟨g, .plain .string s⟩ :: tl) r ((callArgument loader arg).edits ++ edits)
      ((.string, (rewrite? loader arg).getD arg.text) :: ks) ps' := by
  rw [edits_callArgument, argumentEdits]
  cases got : rewrite? loader arg with
  | none =>
    rw [stops, starts] at later
    rw [Option.getD_none, eq]
    exact later.keep valid
  | some literal =>
    obtain ⟨v, quoted⟩ := quote_of_rewrite? got
    have isLiteral : Literal literal.toList := quoted ▸ literal_quote v
    have exchanged := later.literal isLiteral starts stops valid
    rw [String.ofList_toList] at exchanged
    exact ⟨_, exchanged⟩

/-- **The edits of a scan turn a layout of the source into one of the edited text**, which
has the tokens that the trace leaves, up to idle ones. -/
theorem exchanged_of_trace {p : Option Token} {ts : List Token} {got : Import.Found}
    (trace : Import.Trace p ts got ks) (valid : Valid mode ps r) (placed : Placed pos ps ts) :
    ∃ ps', Exchanged pos mode ps r got.edits ks ps' := by
  -- on the number of pieces, since a call takes three at once and a statement more
  induction size : ps.length using Nat.strongRecOn
    generalizing p ts got ks pos mode ps with
  | ind count ih =>
  cases ps with
  | nil =>
    cases placed
    cases trace
    exact ⟨[], .nil _ _ _⟩
  | cons laid tl =>
    have whole := placed
    obtain ⟨own, later, rfl, here, next⟩ := placed
    have ks' := here.keys
    have behind := valid.2.2.2
    rcases here.cases with ⟨t, s, -, rfl, -⟩ | ⟨fst, edges, rfl, key, marks⟩
    · rw [singleton_append] at trace whole
      cases trace with
      | pass plain trace =>
        obtain ⟨tl', exchanged⟩ := ih _ (by simp at size; omega) trace behind next rfl
        have kept := exchanged.keep valid
        rwa [← ks'] at kept
      | @call _ _ o arg _ loader _ ks called trace =>
        -- a parenthesis behind a token that is no template is a piece of its own
        obtain ⟨-, -, mark, string⟩ := call?_eq_some called
        have kind : o.kind = .punct := congrArg Prod.fst mark
        obtain ⟨g₁, s₁, tl₁, rfl, eq₁, starts₁, stops₁, next₁⟩ :=
          plain_of_placed next (by simp [kind]) (by rw [mark]; decide)
        obtain ⟨g₂, s₂, tl₂, rfl, eq₂, starts₂, stops₂, next₂⟩ :=
          plain_of_placed next₁ (by simp [string]) (key_ne_mark _ (by simp [string]))
        rw [string] at valid behind ⊢
        have behind₁ := behind.2.2.2
        obtain ⟨tl', exchanged⟩ := ih _ (by simp at size; omega) trace behind₁.2.2.2 next₂ rfl
        obtain ⟨argued, exchanged⟩ := exchanged_argument loader eq₂ starts₂ stops₂ behind₁ exchanged
        rw [stops₁, starts₁] at exchanged
        obtain ⟨opened, exchanged⟩ := exchanged.keep behind
        have kept := exchanged.keep valid
        have opened : (Piece.plain o.kind s₁).keys = [o.key] := by
          rw [Token.key, eq₁]
          rfl
        rw [← ks', opened] at kept
        exact kept
      | statement held static trace =>
        exact exchanged_statement held valid whole fun shorter valid placed =>
          ih _ (size ▸ shorter) trace valid placed rfl
    · have plain : ∀ t ∈ fst :: edges, loader? t = none := by
        intro t mem
        rcases kind_of_edges key marks t mem with kind | kind
        all_goals exact loader?_of_kind (by simp [kind]) (by simp [kind])
      obtain ⟨p', left, rfl, skipped⟩ := trace.skips plain
      obtain ⟨tl', exchanged⟩ := ih _ (by simp at size; omega) skipped behind next rfl
      have kept := exchanged.keep valid
      rwa [← ks'] at kept

end Bindery
