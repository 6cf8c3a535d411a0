/-
Proofs.Json.RoundTrip -- a written value is read back

What the reader makes of a text is a value whose objects have distinct names, whose
integers have 64 bits and whose containers are nested at most as deep as is allowed
(`Readable`); `readable_of_parse?` says so of every text.  Such a value is written and read
back (`parse?_render`), if only each of its doubles is: a double is printed with the fewest
digits that are nearer to it than to any other one, but it is read by two roundings.
-/
import Bindery.Proofs.Json.Readable

namespace Bindery.Json

open List String

variable {level d outer : Nat} {c : Char} {spaces : List Char} {fst v : Value} {name : String}
  {p ms : Members} {items : List Value}

/-- The printed double is read as itself. -/
def Double.ReadsBack (double : Double) : Prop :=
  Gives (number? (printDouble double).toList) (.double double) []

/-! ## One step of the reader -/

section Steps

variable {s tl rest : List Char} {mark : Char} {behind : List Char}

theorem next?_of_skip (skipped : (skipSpace s).val = mark :: rest) :
    ∃ less, next? mark s = some ⟨rest, less⟩ := by
  have less := (skipSpace s).2
  rw [skipped] at less
  refine ⟨less, ?_⟩
  unfold next?
  split
  · next absent => cases skipped.symm.trans absent
  · next got =>
    cases skipped.symm.trans got
    exact if_pos rfl

theorem next?_of_ne (skipped : (skipSpace s).val = c :: rest) (other : c ≠ mark) : next? mark s = none := by
  unfold next?
  split
  · rfl
  · next got =>
    cases skipped.symm.trans got
    exact if_neg other

theorem value?_scalar (skipped : (skipSpace s).val = c :: tl) (bracket : c ≠ '[')
    (brace : c ≠ '\x7b') (read : Gives (scalar? (c :: tl)) v rest) :
    Gives (value? d s) v rest := by
  obtain ⟨less, read⟩ := read
  unfold value?
  split
  · next absent => cases skipped.symm.trans absent
  · next got =>
    cases skipped.symm.trans got
    rw [if_neg bracket, if_neg brace, read, Option.map_some]
    exact ⟨_, rfl⟩

theorem value?_emptyArray (skipped : (skipSpace s).val = '[' :: ']' :: rest) :
    Gives (value? (d + 1) s) (.array []) rest := by
  obtain ⟨less, closed⟩ := next?_of_skip (show (skipSpace (']' :: rest)).val = ']' :: rest from rfl)
  unfold value?
  split
  · next absent => cases skipped.symm.trans absent
  · next got =>
    cases skipped.symm.trans got
    rw [if_pos rfl]
    dsimp only
    rw [closed]
    exact ⟨_, rfl⟩

theorem value?_array (skipped : (skipSpace s).val = '[' :: tl) {items : List Value} (ne : next? ']' tl = none)
    (read : Gives (items? d tl) items rest) : Gives (value? (d + 1) s) (.array items) rest := by
  obtain ⟨less, read⟩ := read
  unfold value?
  split
  · next absent => cases skipped.symm.trans absent
  · next got =>
    cases skipped.symm.trans got
    rw [if_pos rfl]
    dsimp only
    rw [ne, read, Option.map_some]
    exact ⟨_, rfl⟩

theorem value?_emptyObject (skipped : (skipSpace s).val = '\x7b' :: '\x7d' :: rest) :
    Gives (value? (d + 1) s) (.object []) rest := by
  obtain ⟨less, closed⟩ := next?_of_skip (show (skipSpace ('\x7d' :: rest)).val = '\x7d' :: rest from rfl)
  unfold value?
  split
  · next absent => cases skipped.symm.trans absent
  · next got =>
    cases skipped.symm.trans got
    rw [if_neg (by decide), if_pos rfl]
    dsimp only
    rw [closed]
    exact ⟨_, rfl⟩

theorem value?_object (skipped : (skipSpace s).val = '\x7b' :: tl) (ne : next? '\x7d' tl = none)
    (read : Gives (members? d [] tl) ms rest) : Gives (value? (d + 1) s) (.object ms) rest := by
  obtain ⟨less, read⟩ := read
  unfold value?
  split
  · next absent => cases skipped.symm.trans absent
  · next got =>
    cases skipped.symm.trans got
    rw [if_neg (by decide), if_pos rfl]
    dsimp only
    rw [ne, read, Option.map_some]
    exact ⟨_, rfl⟩

theorem items?_last {behind : List Char} (read : Gives (value? d s) v behind)
    (closed : (skipSpace behind).val = ']' :: rest) : Gives (items? d s) [v] rest := by
  obtain ⟨less, read⟩ := read
  obtain ⟨_, closed⟩ := next?_of_skip closed
  unfold items?
  rw [read]
  dsimp only
  rw [closed]
  exact ⟨_, rfl⟩

theorem items?_more (read : Gives (value? d s) v behind) (comma : (skipSpace behind).val = ',' :: tl)
    (later : Gives (items? d tl) items rest) : Gives (items? d s) (v :: items) rest := by
  obtain ⟨less, read⟩ := read
  obtain ⟨_, later⟩ := later
  have open_ := next?_of_ne comma (show ',' ≠ ']' by decide)
  obtain ⟨_, comma⟩ := next?_of_skip comma
  unfold items?
  rw [read]
  dsimp only
  rw [open_, comma]
  dsimp only
  rw [later]
  exact ⟨_, rfl⟩

theorem name?_of_string (read : Gives (string? (skipSpace s).val) name behind)
    (colon : (skipSpace behind).val = ':' :: rest) : Gives (name? s) name rest := by
  obtain ⟨less, read⟩ := read
  obtain ⟨_, colon⟩ := next?_of_skip colon
  unfold name?
  rw [read]
  dsimp only
  rw [colon]
  exact ⟨_, rfl⟩

section

variable (named : Gives (name? s) name tl) (read : Gives (value? d tl) v behind)
include named read

theorem members?_last (closed : (skipSpace behind).val = '\x7d' :: rest) :
    Gives (members? d p s) (p.insert name v) rest := by
  obtain ⟨_, named⟩ := named
  obtain ⟨_, read⟩ := read
  obtain ⟨_, closed⟩ := next?_of_skip closed
  unfold members?
  rw [named]
  dsimp only
  rw [read]
  dsimp only
  rw [closed]
  exact ⟨_, rfl⟩

theorem members?_more {after : List Char} (comma : (skipSpace behind).val = ',' :: after)
    (later : Gives (members? d (p.insert name v) after) ms rest) : Gives (members? d p s) ms rest := by
  obtain ⟨_, named⟩ := named
  obtain ⟨_, read⟩ := read
  obtain ⟨_, later⟩ := later
  have open_ := next?_of_ne comma (show ',' ≠ '\x7d' by decide)
  obtain ⟨_, comma⟩ := next?_of_skip comma
  unfold members?
  rw [named]
  dsimp only
  rw [read]
  dsimp only
  rw [open_, comma]
  dsimp only
  rw [later]
  exact ⟨_, rfl⟩

end

end Steps

/-! ## Lines -/

theorem isSpace_of_mem_indent (mem : c ∈ (indent level).toList) : isSpace c := by
  rw [indent, toList_ofList] at mem
  rw [eq_of_mem_replicate mem]
  rfl

/-- The lines behind the first one, each with a comma in front of it, and the closing
bracket. -/
def linesTail (closer : String) (level : Nat) : List String → List Char
  | [] => '\n' :: ((indent level).toList ++ closer.toList)
  | line :: lines =>
    ',' :: '\n' :: ((indent (level + 1)).toList ++ (line.toList ++ linesTail closer level lines))

theorem toList_enclose_nil (o closer : String) (level : Nat) :
    (enclose o closer level []).toList = o.toList ++ closer.toList :=
  toList_append

theorem toList_enclose_cons (o closer : String) (level : Nat) (l : String) (lines : List String) :
    (enclose o closer level (l :: lines)).toList = o.toList ++
      '\n' :: ((indent (level + 1)).toList ++ (l.toList ++ linesTail closer level lines)) := by
  have inner (l : String) (lines : List String) :
      ((",\n".intercalate ((l :: lines).map (indent (level + 1) ++ ·))) ++ "\n" ++
        indent level ++ closer).toList =
      (indent (level + 1)).toList ++ (l.toList ++ linesTail closer level lines) := by
    induction lines generalizing l with
    | nil => simp [linesTail]
    | cons next lines ih =>
      have later := ih next
      simp only [String.toList_append, String.toList_intercalate, List.map_cons, List.append_assoc] at later ⊢
      rw [List.intercalate_cons_cons, linesTail, ← later]
      simp
  have ne : ¬ (l :: lines).isEmpty := nofun
  rw [enclose, if_neg ne, ← inner]
  simp only [String.toList_append, List.append_assoc]
  rfl

theorem ended_linesTail (closer : String) (level : Nat) (lines : List String) (rest : List Char) :
    Ended (linesTail closer level lines ++ rest) := by
  intro c head
  cases lines with
  | nil => cases head; decide
  | cons l lines => cases head; decide

/-! ## Values -/

/-- A value is read from its text, whatever blanks stand in front of it and whatever stands
behind it that cannot continue a number. -/
def Reads (d : Nat) (v : Value) : Prop :=
  ∀ (level : Nat) (spaces rest : List Char), (∀ c ∈ spaces, isSpace c = true) → Ended rest →
    Gives (value? d (spaces ++ ((v.print level).toList ++ rest))) v rest

theorem skipSpace_append {tl : List Char} (blank : ∀ c ∈ spaces, isSpace c)
    (vis : isSpace c = false) : (skipSpace (spaces ++ c :: tl)).val = c :: tl := by
  show (spaces ++ c :: tl).dropWhile isSpace = _
  rw [dropWhile_append_of_pos blank, dropWhile_cons_of_neg (by simp [vis])]

theorem isSpace_of_mem_break (mem : c ∈ '\n' :: (indent level).toList) : isSpace c := by
  rcases mem_cons.1 mem with rfl | mem
  · rfl
  · exact isSpace_of_mem_indent mem

theorem skipSpace_linesTail_nil {closer : String} (level : Nat) (written : closer.toList = [c])
    (vis : isSpace c = false) (rest : List Char) :
    (skipSpace (linesTail closer level [] ++ rest)).val = c :: rest := by
  have split : linesTail closer level [] ++ rest = ('\n' :: (indent level).toList) ++ c :: rest := by
    simp [linesTail, written]
  rw [split]
  exact skipSpace_append (fun _ => isSpace_of_mem_break) vis

theorem linesTail_cons_append (closer : String) (level : Nat) (l : String) (lines : List String)
    (rest : List Char) :
    linesTail closer level (l :: lines) ++ rest = ',' :: (('\n' :: (indent (level + 1)).toList) ++
      (l.toList ++ (linesTail closer level lines ++ rest))) := by
  simp [linesTail]

theorem items?_print (reads : ∀ item ∈ fst :: items, Reads d item)
    (spaces : List Char) (blank : ∀ c ∈ spaces, isSpace c) (rest : List Char) :
    Gives (items? d (spaces ++ ((fst.print level).toList ++
      (linesTail "]" outer (printItems level items) ++ rest)))) (fst :: items) rest := by
  induction items generalizing fst spaces with
  | nil =>
    have here := reads fst mem_cons_self level spaces _ blank (ended_linesTail "]" outer [] rest)
    exact items?_last here (skipSpace_linesTail_nil outer rfl rfl rest)
  | cons next items ih =>
    have here := reads fst mem_cons_self level spaces _ blank
      (ended_linesTail "]" outer (printItems level (next :: items)) rest)
    have later := ih (fun item mem => reads item (.tail _ mem))
      ('\n' :: (indent (outer + 1)).toList) (fun _ => isSpace_of_mem_break)
    rw [printItems, linesTail_cons_append] at here ⊢
    exact items?_more here rfl later

theorem not_mem_of_nodup (nodup : ((p ++ (name, v) :: ms).map Prod.fst).Nodup) : name ∉ p.map Prod.fst := by
  rw [map_append, map_cons, nodup_append] at nodup
  exact fun known => nodup.2.2 name known name mem_cons_self rfl

theorem name?_print (level : Nat) (name : String) (v : Value)
    (blank : ∀ c ∈ spaces, isSpace c) (rest : List Char) :
    Gives (name? (spaces ++ ((quote name ++ ": " ++ v.print level).toList ++ rest))) name
      ([' '] ++ ((v.print level).toList ++ rest)) := by
  have start : (quote name ++ ": " ++ v.print level).toList ++ rest =
      (quote name).toList ++ (':' :: ([' '] ++ ((v.print level).toList ++ rest))) := by
    simp
  have quoted : (quote name).toList = '\x22' :: (escape name.toList ++ ['\x22']) := toList_ofList
  have skipped (behind : List Char) :
      (skipSpace (spaces ++ ((quote name).toList ++ behind))).val = (quote name).toList ++ behind := by
    rw [quoted, cons_append]
    exact skipSpace_append blank rfl
  have read := string?_quote name (':' :: ([' '] ++ ((v.print level).toList ++ rest)))
  rw [← skipped] at read
  rw [start]
  exact name?_of_string read rfl

theorem members?_print (nodup : ((p ++ (name, fst) :: ms).map Prod.fst).Nodup)
    (reads : ∀ mem ∈ (name, fst) :: ms, Reads d mem.2) (spaces : List Char)
    (blank : ∀ c ∈ spaces, isSpace c) (rest : List Char) :
    Gives (members? d p (spaces ++ ((quote name ++ ": " ++ fst.print level).toList ++
      (linesTail "\x7d" outer (printMembers level ms) ++ rest))))
      (p ++ (name, fst) :: ms) rest := by
  have space : ∀ c ∈ [' '], isSpace c := fun c mem => by rw [List.mem_singleton.1 mem]; rfl
  induction ms generalizing name fst p spaces with
  | nil =>
    have unknown := not_mem_of_nodup nodup
    have here := reads (name, fst) List.mem_cons_self level [' '] _ space
      (ended_linesTail "\x7d" outer [] rest)
    rw [← Members.insert_of_not_mem unknown]
    exact members?_last (name?_print level name fst blank _) here (skipSpace_linesTail_nil outer rfl rfl rest)
  | cons mem ms ih =>
    obtain ⟨next, v⟩ := mem
    have unknown := not_mem_of_nodup nodup
    have shift : p ++ (name, fst) :: (next, v) :: ms =
        p.insert name fst ++ (next, v) :: ms := by
      rw [Members.insert_of_not_mem unknown, List.append_assoc]
      rfl
    have here := reads (name, fst) List.mem_cons_self level [' '] _ space
      (ended_linesTail "\x7d" outer (printMembers level ((next, v) :: ms)) rest)
    have named := name?_print level name fst blank
      (linesTail "\x7d" outer (printMembers level ((next, v) :: ms)) ++ rest)
    rw [shift] at nodup
    have later := ih nodup (fun item mem => reads item (List.mem_cons_of_mem _ mem))
      ('\n' :: (indent (outer + 1)).toList) (fun _ => isSpace_of_mem_break)
    rw [shift]
    rw [printMembers, linesTail_cons_append] at here named ⊢
    exact members?_more named here rfl later

/-! ## Every value -/

/-- The text of a value that is no container: its first character tells it from the other
values, and it is read back. -/
def IsScalar (s : List Char) (v : Value) : Prop :=
  ∃ c tl, s = c :: tl ∧ isSpace c = false ∧ (c ≠ '[' ∧ c ≠ '\x7b' ∧ c ≠ ']') ∧
    ∀ rest, Ended rest → Gives (scalar? (s ++ rest)) v rest

theorem isScalar_word {w : List Char} (vis : isSpace c = false) (start : c ≠ '[' ∧ c ≠ '\x7b' ∧ c ≠ ']')
    (read : ∀ rest, scalar? (c :: w ++ rest) = word? (c :: w) v (c :: w ++ rest)) : IsScalar (c :: w) v := by
  refine ⟨c, w, rfl, vis, start, fun rest _ => ?_⟩
  have got : (c :: w).isPrefixOf (c :: w ++ rest) ∧ 0 < (c :: w).length :=
    ⟨ isPrefixOf_iff_prefix.2 (prefix_append _ _), Nat.succ_pos _⟩
  rw [read, word?, dif_pos got]
  exact .of_eq rfl rfl drop_left

theorem isScalar_string (v : String) : IsScalar (quote v).toList (.string v) := by
  have quoted : (quote v).toList = '\x22' :: (escape v.toList ++ ['\x22']) := toList_ofList
  refine ⟨'\x22', _, quoted, by decide, by decide, fun rest _ => ?_⟩
  have read := string?_quote v rest
  rw [quoted] at read ⊢
  obtain ⟨less, read⟩ := read
  refine ⟨less, ?_⟩
  show Option.map _ (string? _) = _
  rw [read]
  rfl

theorem isScalar_number {s : List Char} {number : Number} (read : Gives (number? s) number []) :
    IsScalar s (.number number) := by
  obtain ⟨c, tl, rfl, start⟩ := head_of_number? read
  have other (mark : Char) (unlike : mark ≠ '-') (letter : mark.isDigit = false) : c ≠ mark := by
    rintro rfl
    rcases start with minus | digit
    · exact unlike minus
    · exact absurd (letter.symm.trans digit) (by decide)
  have vis : isSpace c = false := by
    simp only [isSpace, Bool.or_eq_false_iff, beq_eq_false_iff_ne]
    exact ⟨⟨⟨other ' ' (by decide) rfl, other '\n' (by decide) rfl⟩, other '\t' (by decide) rfl⟩,
      other '\r' (by decide) rfl⟩
  refine ⟨c, tl, rfl, vis, ⟨other '[' (by decide) rfl, other '\x7b' (by decide) rfl,
    other ']' (by decide) rfl⟩, fun rest ended => ?_⟩
  obtain ⟨less, behind⟩ := number?_append ended read
  unfold scalar?
  split
  iterate 4
    · next head => exact absurd (Option.some.inj head) (other _ (by decide) rfl)
  · rw [behind]
    exact ⟨less, rfl⟩

/-- An array or an object. -/
def Value.IsContainer (v : Value) : Prop :=
  (∃ items, v = .array items) ∨ ∃ ms, v = .object ms

section Values

theorem isScalar_print (readable : Readable Double.ReadsBack d v) (scalar : ¬ v.IsContainer)
    (level : Nat) : IsScalar (v.print level).toList v := by
  cases readable with
  | null =>
    rw [Value.print]
    exact isScalar_word (by decide) (by decide) fun _ => rfl
  | bool v =>
    cases v <;> rw [Value.print] <;> exact isScalar_word (by decide) (by decide) fun _ => rfl
  | integer isWord => exact isScalar_number (number?_integer isWord)
  | double holds => exact isScalar_number holds
  | string v => exact isScalar_string v
  | array all => exact absurd (.inl ⟨_, rfl⟩) scalar
  | object nodup all => exact absurd (.inr ⟨_, rfl⟩) scalar

theorem reads_of_isScalar (scalar : ∀ level, IsScalar (v.print level).toList v) : Reads d v := by
  intro level spaces rest blank ended
  obtain ⟨c, tl, split, vis, ⟨bracket, brace, -⟩, read⟩ := scalar level
  have here := read rest ended
  rw [split] at here ⊢
  exact value?_scalar (skipSpace_append blank vis) bracket brace here

theorem toList_enclose (o closer : String) (level : Nat) (lines : List String) :
    ∃ tl, (enclose o closer level lines).toList = o.toList ++ tl := by
  cases lines with
  | nil => exact ⟨closer.toList, toList_enclose_nil ..⟩
  | cons l lines => exact ⟨_, toList_enclose_cons ..⟩

theorem print_start (readable : Readable Double.ReadsBack d v) (level : Nat) :
    ∃ c tl, (v.print level).toList = c :: tl ∧ isSpace c = false ∧ c ≠ ']' := by
  by_cases box : v.IsContainer
  · rcases box with ⟨items, rfl⟩ | ⟨ms, rfl⟩
    · obtain ⟨tl, split⟩ := toList_enclose "[" "]" level (printItems (level + 1) items)
      exact ⟨'[', tl, split, by decide, by decide⟩
    · obtain ⟨tl, split⟩ := toList_enclose "\x7b" "\x7d" level (printMembers (level + 1) ms)
      exact ⟨'\x7b', tl, split, by decide, by decide⟩
  · obtain ⟨c, tl, split, vis, ⟨-, -, other⟩, -⟩ := isScalar_print readable box level
    exact ⟨c, tl, split, vis, other⟩

theorem reads_array (all : ∀ item ∈ items, Readable Double.ReadsBack d item)
    (reads : ∀ item ∈ items, Reads d item) : Reads (d + 1) (.array items) := by
  intro level spaces rest blank ended
  cases items with
  | nil =>
    have printed : (Value.print level (.array [])).toList = ['[', ']'] := by
      rw [Value.print, printItems, toList_enclose_nil]
      rfl
    rw [printed]
    exact value?_emptyArray (skipSpace_append blank (by decide))
  | cons fst items =>
    have printed : (Value.print level (.array (fst :: items))).toList ++ rest =
        '[' :: (('\n' :: (indent (level + 1)).toList) ++ ((fst.print (level + 1)).toList ++
          (linesTail "]" level (printItems (level + 1) items) ++ rest))) := by
      rw [Value.print, printItems, toList_enclose_cons]
      simp
    obtain ⟨c, tl, split, vis, other⟩ := print_start (all fst mem_cons_self) (level + 1)
    have ne : next? ']' (('\n' :: (indent (level + 1)).toList) ++
        ((fst.print (level + 1)).toList ++
          (linesTail "]" level (printItems (level + 1) items) ++ rest))) = none := by
      rw [split]
      exact next?_of_ne (skipSpace_append (fun _ => isSpace_of_mem_break) vis) other
    rw [printed]
    exact value?_array (skipSpace_append blank (by decide)) ne
      (items?_print reads _ (fun _ => isSpace_of_mem_break) rest)

theorem reads_object {ms : Members} (nodup : (ms.map Prod.fst).Nodup)
    (reads : ∀ mem ∈ ms, Reads d mem.2) : Reads (d + 1) (.object ms) := by
  intro level spaces rest blank ended
  cases ms with
  | nil =>
    have printed : (Value.print level (.object [])).toList = ['\x7b', '\x7d'] := by
      rw [Value.print, printMembers, toList_enclose_nil]
      rfl
    rw [printed]
    exact value?_emptyObject (skipSpace_append blank (by decide))
  | cons mem ms =>
    obtain ⟨name, fst⟩ := mem
    have printed : (Value.print level (.object ((name, fst) :: ms))).toList ++ rest =
        '\x7b' :: (('\n' :: (indent (level + 1)).toList) ++
          ((quote name ++ ": " ++ fst.print (level + 1)).toList ++
            (linesTail "\x7d" level (printMembers (level + 1) ms) ++ rest))) := by
      rw [Value.print, printMembers, toList_enclose_cons]
      simp
    have quoted : (quote name).toList = '\x22' :: (escape name.toList ++ ['\x22']) := toList_ofList
    have ne : next? '\x7d' (('\n' :: (indent (level + 1)).toList) ++
        ((quote name ++ ": " ++ fst.print (level + 1)).toList ++
          (linesTail "\x7d" level (printMembers (level + 1) ms) ++ rest))) = none := by
      rw [toList_append, toList_append, quoted]
      exact next?_of_ne (skipSpace_append (fun _ => isSpace_of_mem_break) (by decide)) (by decide)
    rw [printed]
    exact value?_object (skipSpace_append blank (by decide)) ne
      (members?_print nodup reads _ (fun _ => isSpace_of_mem_break) rest)

theorem reads_print (readable : Readable Double.ReadsBack d v) : Reads d v := by
  induction readable with
  | @null d =>
    exact reads_of_isScalar (isScalar_print (@Readable.null _ d) (by simp [Value.IsContainer]))
  | @bool d v =>
    exact reads_of_isScalar (isScalar_print (@Readable.bool _ d v) (by simp [Value.IsContainer]))
  | integer isWord => exact reads_of_isScalar fun _ => isScalar_number (number?_integer isWord)
  | double holds => exact reads_of_isScalar fun _ => isScalar_number holds
  | string v => exact reads_of_isScalar fun _ => isScalar_string v
  | array all ih => exact reads_array all ih
  | object nodup all ih => exact reads_object nodup ih

end Values

theorem parse?_render (readable : Readable Double.ReadsBack maxDepth v) : parse? (render v) = some v := by
  have ended : Ended ['\n'] := by
    intro c head
    cases head
    decide
  have read := reads_print readable 0 [] ['\n'] (forall_mem_nil _) ended
  have text : (render v).toList = [] ++ ((v.print 0).toList ++ ['\n']) := toList_append
  rw [← text] at read
  obtain ⟨less, read⟩ := read
  rw [parse?, read]
  rfl

end Bindery.Json
