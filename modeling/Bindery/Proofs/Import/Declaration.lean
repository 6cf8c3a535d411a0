/-
Proofs.Import.Declaration -- what is written in place of a static import

A static import is written anew as a declaration that waits for the module.  Its pieces are
read in every mode and leave the braces as they were (`Steady`), so the declaration may
stand wherever the import stood, also inside a substitution (`steady_pieces`).
-/
import Bindery.Proofs.Import.Statement

namespace Bindery

open List Text Json LexState

/-! ## Steady layouts -/

/-- Pieces that are read in every mode, and leave the braces as they were. -/
def Steady (pieces : List Laid) (r : List Char) : Prop :=
  ∀ mode : Mode, Valid mode pieces r ∧ (mode.run pieces).braces = mode.braces

namespace Steady

variable {laid : Laid} {pre tl : List Laid} {g r : List Char} {s : String} {piece : Piece} {fst : Named}

theorem nil (r : List Char) : Steady [] r := fun _ => ⟨trivial, rfl⟩

theorem cons (isGap : Gap true laid.gap) (starts : Starts (laid.piece.text ++ (written tl ++ r)))
    (got : ∀ m : Mode, m.read (laid.piece.text ++ (written tl ++ r)) = some (laid.piece, written tl ++ r))
    (level : ∀ m : Mode, (m.after laid.piece).braces = m.braces)
    (later : Steady tl r) : Steady (laid :: tl) r := by
  intro m
  obtain ⟨valid, braces⟩ := later (m.after laid.piece)
  exact ⟨⟨isGap, starts, got m, valid⟩, braces.trans (level m)⟩

theorem append (steady : Steady pre (written tl ++ r)) (later : Steady tl r) : Steady (pre ++ tl) r := by
  intro m
  obtain ⟨valid, braces⟩ := steady m
  obtain ⟨valid', braces'⟩ := later (m.run pre)
  refine ⟨valid_append.2 ⟨valid, valid'⟩, ?_⟩
  rw [Mode.run_append, braces', braces]

section

variable (isGap : Gap true g)
include isGap

theorem word {s : List Char} (isWord : WordText s) (ends : (written tl ++ r).head?.any isWordPart = false)
    (later : Steady tl r) : Steady (⟨g, .plain (Mode.wordKind s) s⟩ :: tl) r := by
  obtain ⟨c, ps, rfl, start, all⟩ := isWord
  have vis : isBlank c = false := by
    rcases start with start | rfl
    · exact visible_of_nameStart start
    · decide
  have slash : c ≠ '/' := by
    rintro rfl
    exact (starts_only_words start).1 (by decide)
  have kind : Mode.wordKind (c :: ps) ≠ .punct := by
    unfold Mode.wordKind
    split <;> decide
  exact cons isGap (starts_of_ne _ vis slash) (fun m => read_word m start all ends)
    (fun m => if_neg kind) later

theorem keyword (reserved : isReserved s)
    (isWord : WordText s.toList) (ends : (written tl ++ r).head?.any isWordPart = false)
    (later : Steady tl r) : Steady (⟨g, .plain .keyword s.toList⟩ :: tl) r := by
  have steady := word isGap isWord ends later
  rwa [Mode.wordKind, String.ofList_toList, if_pos reserved] at steady

theorem name (isWord : IsWord s) (ends : (written tl ++ r).head?.any isWordPart = false) (later : Steady tl r) :
    Steady (⟨g, .plain .ident s.toList⟩ :: tl) r := by
  obtain ⟨c, ps, rfl, start, all, free⟩ := isWord
  have steady := word isGap ⟨c, ps, rfl, start, all⟩ ends later
  rw [Mode.wordKind, if_neg (by rw [free]; decide)] at steady
  rw [String.toList_ofList]
  exact steady

theorem literal {s : List Char} (isLiteral : Literal s)
    (later : Steady tl r) : Steady (⟨g, .plain .string s⟩ :: tl) r :=
  cons isGap (isLiteral.starts _) (fun m => read_literal m isLiteral _) (fun _ => rfl) later

theorem mark {c : Char} (single : c ∈ singleMarks) (plain : c ≠ '\x7b' ∧ c ≠ '\x7d') (later : Steady tl r) :
    Steady (⟨g, .plain .punct [c]⟩ :: tl) r := by
  have others : ∀ c ∈ singleMarks, isBlank c = false ∧ c ≠ '/' := forall_mem_of_all (by decide)
  obtain ⟨vis, slash⟩ := others c single
  refine cons isGap (starts_of_ne _ vis slash)
    (fun m => read_mark _ single fun eq => absurd eq plain.2) (fun m => ?_) later
  show countBrace (String.ofList [c]) m.braces = m.braces
  have other : ∀ d : Char, c ≠ d → String.ofList [c] ≠ String.ofList [d] := by
    intro d differs eq
    exact differs (List.cons.inj (String.ofList_injective eq)).1
  have notOpen : String.ofList [c] ≠ openBrace := other '\x7b' plain.1
  have notClosed : String.ofList [c] ≠ closeBrace := other '\x7d' plain.2
  cases m.braces with
  | nil => rfl
  | cons depth outer => rw [countBrace, if_neg notOpen, if_neg notClosed]

theorem equals {g' : List Char} (later : Steady (⟨' ' :: g', piece⟩ :: tl) r) :
    Steady (⟨g, .plain .punct ['=']⟩ :: ⟨' ' :: g', piece⟩ :: tl) r := by
  refine cons isGap (starts_of_ne _ (by decide) (by decide)) (fun m => ?_) (fun m => ?_) later
  · show m.read ('=' :: ' ' :: _) = _
    have start : Scan.isNameStart '=' = false := by decide +kernel
    have digit : '='.isDigit = false := by decide
    rw [Mode.read, if_neg (by decide), if_neg (by simp), if_neg (by decide),
      if_neg (by simp [digit]), if_neg (by simp), if_neg (by simp [start]), if_neg (by simp)]
    rfl
  · show countBrace "=" m.braces = m.braces
    cases m.braces <;> rfl

theorem braced (inner : Steady pre ('\x7d' :: (written tl ++ r))) (later : Steady tl r) :
    Steady (⟨g, .plain .punct ['\x7b']⟩ :: (pre ++ ⟨[], .plain .punct ['\x7d']⟩ :: tl)) r := by
  intro m
  obtain ⟨valid, braces⟩ := inner (m.after (.plain .punct ['\x7b']))
  have opened : (m.after (.plain .punct ['\x7b'])).braces = countBrace openBrace m.braces := rfl
  have inside : ((m.after (.plain .punct ['\x7b'])).run pre).braces.head? ≠ some 0 := by
    rw [braces, opened]
    cases m.braces with
    | nil => exact fun absurd => by cases absurd
    | cons d outer => exact fun absurd => by cases absurd
  have closed : (((m.after (.plain .punct ['\x7b'])).run pre).after
      (.plain .punct ['\x7d'])).braces = m.braces := by
    show countBrace closeBrace _ = _
    rw [braces, opened]
    cases m.braces <;> rfl
  obtain ⟨valid', braces'⟩ := later (((m.after (.plain .punct ['\x7b'])).run pre).after
    (.plain .punct ['\x7d']))
  have ending : written (⟨[], .plain .punct ['\x7d']⟩ :: tl) ++ r = '\x7d' :: (written tl ++ r) := rfl
  refine ⟨⟨isGap, starts_of_ne _ (by decide) (by decide), read_mark _ (by decide) (by simp), ?_⟩, ?_⟩
  · refine valid_append.2 ⟨ending ▸ valid, .nil, starts_of_ne _ (by decide) (by decide), ?_, valid'⟩
    exact read_mark _ (by decide) fun _ => inside
  · show ((m.after _).run (pre ++ _)).braces = _
    rw [Mode.run_append]
    exact braces'.trans closed

end

end Steady

/-! ## Bindings -/

namespace Import

variable {g r : List Char} {clause : Clause}

def labelKind (s : List Char) : TokenKind :=
  if s.head? = some '\x22' ∨ s.head? = some '\x27' then .string else Mode.wordKind s

def entryPieces (g : List Char) (named : Named) : List Laid :=
  if named.imported = named.name then [⟨g, .plain .ident named.name.toList⟩]
  else [⟨g, .plain (labelKind named.imported.toList) named.imported.toList⟩,
    ⟨[], .plain .punct [':']⟩, ⟨[' '], .plain .ident named.name.toList⟩]

def bindingPieces (g : List Char) (first : Named) : List Named → List Laid
  | [] => entryPieces g first
  | next :: r =>
    entryPieces g first ++ ⟨[], .plain .punct [',']⟩ :: bindingPieces [' '] next r

def entryText (named : Named) : String :=
  if named.imported = named.name then named.name else named.imported ++ ": " ++ named.name

theorem written_entryPieces (g : List Char) (named : Named) :
    written (entryPieces g named) = g ++ (entryText named).toList := by
  unfold entryPieces entryText
  split
  · simp [written, Piece.text]
  · simp [written, Piece.text, String.toList_append]

theorem written_bindingPieces (g : List Char) (fst : Named) (r : List Named) :
    written (bindingPieces g fst r) = g ++ (", ".intercalate ((fst :: r).map entryText)).toList := by
  induction r generalizing g fst with
  | nil => simp [bindingPieces, written_entryPieces]
  | cons next r ih =>
    rw [bindingPieces, written_append, written, ih, written_entryPieces]
    simp only [map_cons, String.intercalate_cons_cons, String.toList_append]
    simp [Piece.text]

theorem Steady.label {tl : List Laid} {s : String} (isGap : Gap true g) (label : Label s)
    (ends : (written tl ++ r).head?.any isWordPart = false) (later : Steady tl r) :
    Steady (⟨g, .plain (labelKind s.toList) s.toList⟩ :: tl) r := by
  unfold labelKind
  rcases label with w | literal
  · rw [if_neg]
    · exact .word isGap w ends later
    · obtain ⟨c, ps, split, start, -⟩ := w
      rw [split]
      have others := (starts_only_words start).1
      rintro (eq | eq) <;> cases eq <;> exact others (by decide)
  · rw [if_pos]
    · exact .literal isGap literal later
    · obtain ⟨c, tail, split, quote, -⟩ := literal
      rw [split]
      exact quote.imp (congrArg some) (congrArg some)

theorem steady_entryPieces {named : Named} (isGap : Gap true g) (label : Label named.imported)
    (w : IsWord named.name) (ends : r.head?.any isWordPart = false) : Steady (entryPieces g named) r := by
  unfold entryPieces
  split
  · exact .name isGap w ends (.nil r)
  · refine Steady.label isGap label (show isWordPart ':' = false by decide +kernel) ?_
    exact .mark .nil (by decide) (by decide) (.name (.blank (by decide) .nil) w ends (.nil r))

theorem steady_bindingPieces {others : List Named} (isGap : Gap true g)
    (sound : ∀ named ∈ fst :: others, Label named.imported ∧ IsWord named.name)
    (ends : r.head?.any isWordPart = false) : Steady (bindingPieces g fst others) r := by
  induction others generalizing g fst with
  | nil =>
    obtain ⟨label, w⟩ := sound fst mem_cons_self
    exact steady_entryPieces isGap label w ends
  | cons next others ih =>
    obtain ⟨label, w⟩ := sound fst mem_cons_self
    have later : Steady (bindingPieces [' '] next others) r :=
      ih (.blank (by decide) .nil) fun named mem => sound named (.tail _ mem)
    have comma : isWordPart ',' = false := by decide +kernel
    exact .append (steady_entryPieces isGap label w comma) (.mark .nil (by decide) (by decide) later)

section Keys

variable {fine : String → Prop} {selected : Bool} {ks : List Key}

theorem loads_name (n : List Char) (later : Loads fine false ks) :
    Loads fine selected ((.ident, String.ofList n) :: ks) := by
  refine .cons_of_ne (fun eq => by cases congrArg Prod.fst eq) ?_
  exact later

theorem loads_entryPieces (g : List Char) (named : Named) (later : Loads fine false ks) :
    Loads fine selected (keysOf (entryPieces g named) ++ ks) := by
  unfold entryPieces
  split
  · exact loads_name _ later
  · refine ⟨?_, ?_⟩
    · rintro - - literal tl eq
      exact absurd (List.cons.inj eq).1 (by decide)
    · exact .cons_of_ne (by decide) (loads_name _ later)

theorem loads_bindingPieces (g : List Char) (fst : Named) (others : List Named) (later : Loads fine false ks) :
    Loads fine selected (keysOf (bindingPieces g fst others) ++ ks) := by
  induction others generalizing g fst selected with
  | nil => exact loads_entryPieces g fst later
  | cons next others ih =>
    rw [bindingPieces, keysOf_append, append_assoc]
    exact loads_entryPieces g fst (.cons_of_ne (by decide) (ih [' '] next))

end Keys

/-! ## Declarations -/

theorem wordText_of_all {s : List Char} (start : s.head?.any Scan.isNameStart)
    (parts : s.tail.all isWordPart) : WordText s := by
  cases s with
  | nil => cases start
  | cons c tl => exact ⟨c, tl, rfl, .inl start, all_eq_true.1 parts⟩

def Clause.bindings (clause : Clause) : List Named :=
  clause.default?.toList.map (⟨"default", ·⟩) ++ clause.named

theorem entryText_default {n : String} (w : IsWord n) : entryText ⟨"default", n⟩ = "default: " ++ n := by
  unfold entryText
  rw [if_neg]
  · rfl
  · intro eq
    obtain ⟨c, ps, rfl, -, -, free⟩ := w
    rw [← show "default" = String.ofList (c :: ps) from eq] at free
    exact absurd free (by decide)

theorem Clause.Sound.bindings (sound : clause.Sound) :
    ∀ named ∈ clause.bindings, Label named.imported ∧ IsWord named.name := by
  intro named mem
  rcases mem_append.1 mem with mem | mem
  · obtain ⟨n, inside, rfl⟩ := mem_map.1 mem
    have word : WordText "default".toList := wordText_of_all (by decide +kernel) (by decide +kernel)
    exact ⟨.inl word, sound.default n (Option.mem_toList.1 inside)⟩
  · exact sound.named named mem

theorem Clause.Sound.entries (sound : clause.Sound) : clause.entries = clause.bindings.map entryText := by
  unfold Clause.entries Clause.bindings
  rw [map_append, map_map]
  congr 1
  refine map_congr_left fun n mem => ?_
  exact (entryText_default (sound.default n (Option.mem_toList.1 mem))).symm

def loadPieces (g : List Char) (spec : String) (tl : List Laid) : List Laid :=
  ⟨g, .plain .keyword "await".toList⟩ :: ⟨[' '], .plain .keyword "import".toList⟩ ::
    ⟨[], .plain .punct ['(']⟩ :: ⟨[], .plain .string (Json.quote spec).toList⟩ ::
    ⟨[], .plain .punct [')']⟩ :: tl

def starPieces (star spec : String) (tl : List Laid) : List Laid :=
  ⟨[' '], .plain .ident star.toList⟩ :: ⟨[' '], .plain .punct ['=']⟩ ::
    loadPieces [' '] spec tl

def patternPieces (first : Named) (others : List Named) (spec : String) (tl : List Laid) :
    List Laid :=
  ⟨[' '], .plain .punct ['\x7b']⟩ :: (bindingPieces [] first others ++
    ⟨[], .plain .punct ['\x7d']⟩ :: ⟨[' '], .plain .punct ['=']⟩ :: loadPieces [' '] spec tl)

def Clause.pieces (clause : Clause) (spec : String) : List Laid :=
  match clause.star?, clause.default? with
  | some star, some name =>
    ⟨[], .plain .keyword "const".toList⟩ :: patternPieces ⟨"default", name⟩ [] spec
      (⟨[], .plain .punct [',']⟩ :: starPieces star spec [⟨[], .plain .punct [';']⟩])
  | some star, none =>
    ⟨[], .plain .keyword "const".toList⟩ :: starPieces star spec [⟨[], .plain .punct [';']⟩]
  | none, _ =>
    match clause.bindings with
    | [] => loadPieces [] spec [⟨[], .plain .punct [';']⟩]
    | first :: others =>
      ⟨[], .plain .keyword "const".toList⟩ ::
        patternPieces first others spec [⟨[], .plain .punct [';']⟩]

section Written

variable (spec : String) (tl : List Laid)

theorem written_loadPieces (g : List Char) :
    written (loadPieces g spec tl) =
      g ++ (("await import(" ++ Json.quote spec ++ ")").toList ++ written tl) := by
  simp [loadPieces, written, Piece.text, String.toList_append]

theorem written_starPieces (star : String) :
    written (starPieces star spec tl) =
      (" " ++ star ++ " = await import(" ++ Json.quote spec ++ ")").toList ++ written tl := by
  simp [starPieces, written_loadPieces, written, Piece.text, String.toList_append]

theorem written_patternPieces (fst : Named) (os : List Named) :
    written (patternPieces fst os spec tl) =
      (" \x7b" ++ ", ".intercalate ((fst :: os).map entryText) ++ "\x7d = await import(" ++
        Json.quote spec ++ ")").toList ++ written tl := by
  simp [patternPieces, written_bindingPieces, written_loadPieces, written, written_append,
    Piece.text, String.toList_append]

end Written

theorem written_pieces (sound : clause.Sound) (spec : String) :
    written (clause.pieces spec) = (clause.render spec).toList := by
  have entries := sound.entries
  unfold Clause.pieces Clause.render
  cases clause.star? with
  | some star =>
    cases isDefault : clause.default? with
    | some n =>
      simp [written, written_patternPieces, written_starPieces, Piece.text, String.toList_append,
        entryText_default (sound.default n isDefault)]
    | none => simp [written, written_starPieces, Piece.text, String.toList_append]
  | none =>
    rw [entries]
    cases clause.bindings with
    | nil => simp [written, written_loadPieces, Piece.text, String.toList_append]
    | cons fst os =>
      simp [written, written_patternPieces, Piece.text, String.toList_append]

section Steady

variable {tl : List Laid} {spec : String}

theorem steady_loadPieces {g : List Char} (isGap : Gap true g) (later : Steady tl r) :
    Steady (loadPieces g spec tl) r := by
  have space : isWordPart ' ' = false := by decide +kernel
  have opener : isWordPart '(' = false := by decide +kernel
  have blank : Gap true [' '] := .blank (by decide) .nil
  refine Steady.keyword isGap (show isReserved "await" = true by decide)
    (wordText_of_all (by decide +kernel) (by decide +kernel)) space ?_
  refine Steady.keyword blank (show isReserved "import" = true by decide)
    (wordText_of_all (by decide +kernel) (by decide +kernel)) opener ?_
  exact .mark .nil (by decide) (by decide) (.literal .nil (literal_quote spec)
    (.mark .nil (by decide) (by decide) later))

theorem steady_starPieces {star : String} (w : IsWord star) (later : Steady tl r) :
    Steady (starPieces star spec tl) r := by
  have blank : Gap true [' '] := .blank (by decide) .nil
  exact .name blank w (show isWordPart ' ' = false by decide +kernel)
    (.equals blank (steady_loadPieces blank later))

theorem steady_patternPieces {os : List Named}
    (sound : ∀ named ∈ fst :: os, Label named.imported ∧ IsWord named.name)
    (later : Steady tl r) : Steady (patternPieces fst os spec tl) r := by
  have blank : Gap true [' '] := .blank (by decide) .nil
  refine .braced blank (steady_bindingPieces .nil sound ?_) (.equals blank (steady_loadPieces blank later))
  exact (show isWordPart '\x7d' = false by decide +kernel)

theorem steady_const (later : Steady (⟨[' '], piece⟩ :: tl) r) :
    Steady (⟨[], .plain .keyword "const".toList⟩ :: ⟨[' '], piece⟩ :: tl) r :=
  Steady.keyword .nil (show isReserved "const" = true by decide)
    (wordText_of_all (by decide +kernel) (by decide +kernel))
    (show isWordPart ' ' = false by decide +kernel) later

/-- **A declaration is read in every mode**, whatever follows it. -/
theorem steady_pieces {clause : Clause} (sound : clause.Sound) : Steady (clause.pieces spec) r := by
  have ends : Steady [⟨[], .plain .punct [';']⟩] r := .mark .nil (by decide) (by decide) (.nil r)
  unfold Clause.pieces
  cases isStar : clause.star? with
  | some star =>
    have whole : Steady (starPieces star spec [⟨[], .plain .punct [';']⟩]) r :=
      steady_starPieces (sound.star star isStar) ends
    cases isDefault : clause.default? with
    | some n =>
      refine steady_const (steady_patternPieces (fun named mem => ?_)
        (.mark .nil (by decide) (by decide) whole))
      cases mem_singleton.1 mem
      exact sound.bindings _ (mem_append_left _ (by simp [isDefault]))
    | none => exact steady_const whole
  | none =>
    have bindings := sound.bindings
    cases split : clause.bindings with
    | nil => exact steady_loadPieces .nil ends
    | cons fst os => exact steady_const (steady_patternPieces (split ▸ bindings) ends)

end Steady

section Loaded

variable {fine : String → Prop} {selected : Bool} {ks : List Key} {tl : List Laid} {spec : String}

theorem keysOf_loadPieces (g : List Char) :
    keysOf (loadPieces g spec tl) = Key.word "await" :: Key.word "import" :: Key.mark "(" ::
      (.string, Json.quote spec) :: Key.mark ")" :: keysOf tl := by
  simp [loadPieces, keysOf_cons, Piece.keys, Key.word, Key.mark]

theorem loads_loadPieces (g : List Char) (isFine : fine (Json.quote spec))
    (later : Loads fine false (keysOf tl ++ ks)) :
    Loads fine selected (keysOf (loadPieces g spec tl) ++ ks) := by
  rw [keysOf_loadPieces]
  refine .cons_of_ne (by decide) ⟨fun _ _ s tail eq => ?_, ?_⟩
  · have arg : Json.quote spec = s := congrArg Prod.snd (List.cons.inj (List.cons.inj eq).2).1
    exact arg ▸ isFine
  · exact .cons_of_ne (by decide) (.cons_of_ne (fun eq => by cases congrArg Prod.fst eq)
      (.cons_of_ne (by decide) later))

theorem loads_starPieces (star : String) (isFine : fine (Json.quote spec))
    (later : Loads fine false (keysOf tl ++ ks)) :
    Loads fine selected (keysOf (starPieces star spec tl) ++ ks) :=
  loads_name _ (.cons_of_ne (by decide) (loads_loadPieces [' '] isFine later))

theorem loads_patternPieces (fst : Named) (os : List Named) (isFine : fine (Json.quote spec))
    (later : Loads fine false (keysOf tl ++ ks)) :
    Loads fine selected (keysOf (patternPieces fst os spec tl) ++ ks) := by
  refine .cons_of_ne (by decide) ?_
  show Loads fine false (keysOf (_ ++ _) ++ ks)
  rw [keysOf_append, append_assoc]
  refine loads_bindingPieces [] fst os (.cons_of_ne (by decide) ?_)
  exact .cons_of_ne (by decide) (loads_loadPieces [' '] isFine later)

/-- **A declaration loads one module.** -/
theorem loads_pieces (clause : Clause) (isFine : fine (Json.quote spec)) (later : Loads fine false ks) :
    Loads fine selected (keysOf (clause.pieces spec) ++ ks) := by
  have ends : Loads fine false (keysOf [⟨[], .plain .punct [';']⟩] ++ ks) := .cons_of_ne (by decide) later
  unfold Clause.pieces
  cases clause.star? with
  | some star =>
    cases clause.default? with
    | some n =>
      exact .cons_of_ne (by decide) (loads_patternPieces _ [] isFine
        (.cons_of_ne (by decide) (loads_starPieces star isFine ends)))
    | none => exact .cons_of_ne (by decide) (loads_starPieces star isFine ends)
  | none =>
    cases clause.bindings with
    | nil => exact loads_loadPieces [] isFine ends
    | cons fst os =>
      exact .cons_of_ne (by decide) (loads_patternPieces fst os isFine ends)

end Loaded

theorem pieces_eq_cons (sound : clause.Sound) (spec : String) :
    ∃ w next more, (w = "await" ∨ w = "const") ∧
      clause.pieces spec = ⟨[], .plain .keyword w.toList⟩ :: next :: more ∧
      next.piece.text.head? ≠ some '/' := by
  unfold Clause.pieces
  cases isStar : clause.star? with
  | some star =>
    cases isDefault : clause.default? with
    | some n => exact ⟨"const", _, _, .inr rfl, rfl, by decide⟩
    | none =>
      refine ⟨"const", _, _, .inr rfl, rfl, ?_⟩
      obtain ⟨c, ps, rfl, start, -⟩ := sound.star star isStar
      intro slash
      rw [show (Piece.plain .ident _).text = _ from rfl, String.toList_ofList] at slash
      cases Option.some.inj slash
      exact (starts_only_words start).1 (by decide)
  | none =>
    cases split : clause.bindings with
    | nil => exact ⟨"await", _, _, .inl rfl, rfl, by decide⟩
    | cons fst os => exact ⟨"const", _, _, .inr rfl, rfl, by decide⟩

theorem run_patternPieces (m : Mode) (fst : Named) (os : List Named) (spec : String) (tl : List Laid) :
    ∃ m' : Mode, m.run (patternPieces fst os spec tl) = m'.run tl := by
  have split : patternPieces fst os spec tl =
      patternPieces fst os spec [] ++ tl := by
    simp [patternPieces, loadPieces]
  exact ⟨_, by rw [split, Mode.run_append]⟩

theorem operand_pieces (clause : Clause) (spec : String) (m : Mode) :
    (m.run (clause.pieces spec)).operand = false := by
  unfold Clause.pieces
  cases clause.star? with
  | some star =>
    cases clause.default? with
    | some n =>
      obtain ⟨m', run⟩ := run_patternPieces (m.after (.plain .keyword "const".toList))
        ⟨"default", n⟩ [] spec
        (⟨[], .plain .punct [',']⟩ :: starPieces star spec [⟨[], .plain .punct [';']⟩])
      exact congrArg Mode.operand run
    | none => rfl
  | none =>
    cases clause.bindings with
    | nil => rfl
    | cons fst os =>
      obtain ⟨m', run⟩ := run_patternPieces (m.after (.plain .keyword "const".toList))
        fst os spec [⟨[], .plain .punct [';']⟩]
      exact congrArg Mode.operand run

end Import

end Bindery
