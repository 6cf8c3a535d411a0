/-
Proofs.Scope.Setting -- where a block stands

A brace that begins a statement opens a block, but the walk knows only the token in
front of it.  Behind a semicolon, a parenthesis or another brace that closed it is
right; behind a colon or an opening brace it takes the block for an object
(`analyze_arm_brace`).  In every other place the analysis is exact
(`analyze_setting`): the block binds its own names and no use outside it, and what
it leaves free is free around it.
-/
import Bindery.Proofs.Scope.Outcome

namespace Bindery

open List

namespace Program

/-! ## Settings -/

structure Summary where
  declares : List Declared
  free : List String
  waits : Bool

namespace Summary

def ofUses (free : List String) (waits : Bool) : Summary :=
  ⟨[], free, waits⟩

def followedBy (first second : Summary) : Summary :=
  ⟨first.declares ++ second.declares, first.free ++ second.free, first.waits || second.waits⟩

def braced (inner : Summary) : Summary :=
  ⟨hoisted inner.declares, without (lexical inner.declares) inner.free, inner.waits⟩

def names (summary : Summary) : List String :=
  summary.declares.map (·.name)

end Summary

def Block.summary (block : Block) : Summary :=
  ⟨block.declares, block.free, block.waits⟩

/-- What stands in front of a block, in the same list of statements. -/
inductive Site where
  /-- the condition of an `if` -/
  | branch (condition : Expr)
  /-- an expression statement and others behind it -/
  | behind (phrase : Phrase) (others : Block)

def Block.printBraced (block : Block) : List Key :=
  .mark openBrace :: (block.print ++ [.mark closeBrace])

def Site.print (block : Block) : Site → List Key
  | .branch condition =>
    .word "if" :: .mark "(" :: (condition.print ++ (.mark ")" :: block.printBraced))
  | .behind phrase others => phrase.print ++ (.mark ";" :: (others.print ++ block.printBraced))

def Site.summary : Site → Summary
  | .branch condition => .ofUses condition.free condition.waits
  | .behind phrase others => (Summary.ofUses phrase.free phrase.waits).followedBy others.summary

inductive Place where
  | program
  /-- an arm of a `switch`, for a name or for all others -/
  | arm (subject : Expr) (label : Option String)
  | function (name : String) (parameters : List String)

def printLabel : Option String → List Key
  | some name => [.word "case", .name name, .mark ":"]
  | none => [.word "default", .mark ":"]

def Place.print (keys : List Key) : Place → List Key
  | .program => keys
  | .arm subject label =>
    .word "switch" :: .mark "(" :: (subject.print ++ (.mark ")" :: .mark openBrace ::
      (printLabel label ++ keys ++ [.mark closeBrace])))
  | .function name parameters => printFunction (some name) parameters keys

def Place.summary (inner : Summary) : Place → Summary
  | .program => inner
  | .arm subject label =>
    (Summary.ofUses subject.free subject.waits).followedBy
      ((Summary.ofUses label.toList false).followedBy inner).braced
  | .function name parameters =>
    ⟨[⟨false, name⟩], without (parameters ++ inner.names) inner.free, false⟩

def Place.binds (inner : Summary) : Place → List String
  | .program => []
  | .arm _ _ => lexical inner.declares
  | .function _ parameters => parameters ++ inner.names

/-- A block in its place in a program. -/
structure Setting where
  /-- the statements in front of the place -/
  before : Block
  place : Place
  site : Site
  /-- the statements behind the block -/
  after : Block
  /-- the statements behind the place -/
  rest : Block

namespace Setting

variable (setting : Setting) (block : Block) {ks : List Key} {i : Nat} {w : Walk}

def print : List Key :=
  setting.before.print ++ (setting.place.print (setting.site.print block ++ setting.after.print) ++
    setting.rest.print)

def inner : Summary :=
  (setting.site.summary.followedBy block.summary.braced).followedBy setting.after.summary

def summary : Summary :=
  setting.before.summary.followedBy
    ((setting.place.summary (setting.inner block)).followedBy setting.rest.summary)

/-- The names that are bound around the block.  Of the names of the block itself, only
those of a `var` are among them. -/
def bound : List String :=
  (setting.summary block).names ++ setting.place.binds (setting.inner block)

end Setting

end Program

namespace Scope

open Bindery.Program

section Walks

variable {tokens : List Token}

def Walks (tokens : List Token) (keys : List Key) (summary : Summary) : Prop :=
  WalksBlock tokens keys summary.declares summary.free summary.waits

theorem walks_before {summary : Summary} (walks : Walks tokens ks summary)
    (block : Block) : Walks tokens (block.print ++ ks) (block.summary.followedBy summary) := by
  cases block with
  | nil => exact walks
  | cons fst r =>
    have joined := walksBlock_cons (walks_stmt fst) (endsWell_stmt fst) (walks_before walks r)
    rw [Block.print, append_assoc]
    simpa only [Walks, Summary.followedBy, Block.summary, Block.declares, Block.free, Block.waits,
      append_assoc, Bool.or_assoc] using joined

theorem EndsWell.append_block (ends : EndsWell ks) (block : Block) : EndsWell (ks ++ block.print) := by
  cases block with
  | nil => rwa [Block.print, append_nil]
  | cons fst r =>
    rw [Block.print, ← append_assoc]
    exact ((endsWell_stmt fst).append ks).append_block r

theorem behind_of_endsWell (ends : EndsWell ks) (shows : Shows tokens i ks) :
    ∃ key ∈ [Key.mark ";", .mark closeBrace], Behind tokens (i + ks.length) key := by
  obtain ⟨pre, key, rfl, mem⟩ := ends
  exact ⟨key, mem, by rw [length_append, length_singleton]; exact shows.behind⟩

theorem EndsWell.atStart (ends : EndsWell ks) (shows : Shows tokens i ks) : AtStart tokens (i + ks.length) := by
  obtain ⟨key, mem, behind⟩ := behind_of_endsWell ends shows
  refine .inr ⟨key, ?_, behind⟩
  simp only [mem_cons, not_mem_nil, or_false] at mem ⊢
  rcases mem with eq | eq
  · exact .inl eq
  · exact .inr (.inr eq)

theorem whole_braced (block : Block) (poised : Poised tokens i w)
    (front : ∃ key ∈ [Key.mark ";", .mark closeBrace], Behind tokens i key)
    (shows : Shows tokens i block.printBraced) :
    Whole tokens w i (i + block.printBraced.length) (hoisted block.declares)
      (without (lexical block.declares) block.free) block.waits := by
  obtain ⟨key, mem, behind⟩ := front
  have whole := (walks_block block).bare poised shows (not_object_of_behind behind (by
    simp only [mem_cons, not_mem_nil, or_false] at mem
    rcases mem with rfl | rfl <;> simp))
  have length : i + 1 + block.print.length + 1 = i + block.printBraced.length := by
    simp only [Block.printBraced, length_cons, length_append, length_nil]
    omega
  rwa [length] at whole

theorem whole_site (site : Site) (block : Block) (poised : Poised tokens i w) (inside : Inside w)
    (inBlock : InBlock w) (begins : Begins tokens i w) (shows : Shows tokens i (site.print block)) :
    Whole tokens w i (i + (site.print block).length) (site.summary.declares ++ hoisted block.declares)
      (site.summary.free ++ without (lexical block.declares) block.free)
      (site.summary.waits || block.waits) := by
  cases site with
  | branch cond =>
    obtain ⟨⟨t, got, eq⟩, r⟩ := shows
    have skip := Whole.skip got (step_of_plainWord inside inBlock eq (by simp))
    have whole := skip.andThen poised fun w poised' _ _ =>
      (walks_expr cond).thenBlock (walks_block block) poised' r
    have length : i + 1 + 1 + cond.print.length + 1 + 1 + block.print.length + 1 =
        i + (Site.print block (.branch cond)).length := by
      simp only [Site.print, Block.printBraced, length_cons, length_append, length_nil]
      omega
    rw [length] at whole
    exact whole
  | behind p os =>
    obtain ⟨shown, semi, tl⟩ := shows_append.1 shows
    have stop : Shows tokens (i + p.print.length) [.mark ";"] := ⟨semi, trivial⟩
    obtain ⟨shownOthers, braced⟩ := shows_append.1 tl
    have fst := (walks_phrase p rfl poised begins shown ⟨_, by simp, stop⟩).semicolon poised.quiet inside stop
    have begin : AtStart tokens (i + p.print.length + 1) := by
      obtain ⟨t, got, eq⟩ := semi
      exact .inr ⟨_, by simp, eq ▸ behind_of_get? got⟩
    have front : ∃ key ∈ [Key.mark ";", .mark closeBrace],
        Behind tokens (i + p.print.length + 1 + os.print.length) key := by
      have ends : EndsWell ([.mark ";"] ++ os.print) := EndsWell.append_block ⟨[], _, rfl, by simp⟩ os
      have behind := behind_of_endsWell ends
        (show Shows tokens (i + p.print.length) _ from ⟨semi, shownOthers⟩)
      rwa [length_append, length_singleton, ← Nat.add_assoc] at behind
    have both := fst.andThen poised fun w poised' layout lists =>
      walks_block os rfl poised' (inside.of_layout layout lists) (inBlock.of_layout layout) begin shownOthers
    have whole := both.andThen poised fun w poised' _ _ =>
      whole_braced block poised' front braced
    have length : i + p.print.length + 1 + os.print.length +
        block.printBraced.length = i + (Site.print block (.behind p os)).length := by
      simp only [Site.print, length_cons, length_append]
      omega
    rw [length] at whole
    exact whole

theorem endsWell_site (site : Site) (block : Block) : EndsWell (site.print block) := by
  have braced : EndsWell block.printBraced := (endsWell_brace _).cons _
  cases site with
  | branch _ => exact (((braced.cons _).append _).cons _).cons _
  | behind _ _ => exact ((braced.append _).cons _).append _

variable (setting : Setting) (block : Block)

theorem whole_inner (poised : Poised tokens i w) (inside : Inside w) (inBlock : InBlock w)
    (begins : Begins tokens i w) (shows : Shows tokens i (setting.site.print block ++ setting.after.print)) :
    Whole tokens w i (i + (setting.site.print block ++ setting.after.print).length)
      (setting.inner block).declares (setting.inner block).free (setting.inner block).waits := by
  obtain ⟨fst, snd⟩ := shows_append.1 shows
  rw [length_append, ← Nat.add_assoc]
  exact (whole_site setting.site block poised inside inBlock begins fst).andThen poised
    fun w poised' layout lists => walks_block setting.after rfl poised'
      (inside.of_layout layout lists) (inBlock.of_layout layout)
      ((endsWell_site setting.site block).atStart fst) snd

theorem walks_inner : Walks tokens (setting.site.print block ++ setting.after.print) (setting.inner block) := by
  intro i stop w length poised inside inBlock start shows
  subst length
  exact whole_inner setting block poised inside inBlock (start.begins inside inBlock).1 shows

theorem whole_label (label : Option String) (poised : Poised tokens i w) (inside : Inside w)
    (inBlock : InBlock w) (shows : Shows tokens i (printLabel label)) :
    Whole tokens w i (i + (printLabel label).length) [] label.toList false := by
  cases label with
  | none =>
    obtain ⟨⟨word, foundWord, sameWord⟩, ⟨colon, foundColon, sameColon⟩, _⟩ := shows
    have fst := Whole.skip foundWord (step_of_plainWord inside inBlock sameWord (by simp))
    exact fst.andThen poised fun w' _ _ _ =>
      Whole.skip foundColon (step_of_mark sameColon (by decide) w' _ _)
  | some name =>
    obtain ⟨⟨word, foundWord, sameWord⟩, ⟨t, got, eq⟩, ⟨colon, foundColon, sameColon⟩, _⟩ := shows
    have fst := Whole.skip foundWord (step_of_plainWord inside inBlock sameWord (by simp))
    have used := fst.andThen poised fun w' poised' _ _ => by
      obtain ⟨begins, isValue⟩ := begins_of_behind w' (sameWord ▸ behind_of_get? foundWord)
        (by simp [beforeValue]) fun absurd => by cases absurd
      have notStart : Walk.atStatementStart tokens (i + 1) = false :=
        (Bool.or_eq_false_iff.1 isValue.expression).1
      exact (⟨_, .one got (step_of_name_heard poised' begins eq
        (not_word_of_mark ⟨⟨colon, foundColon, sameColon⟩, trivial⟩) (.inr notStart)), rfl, rfl,
        .refer _ _ _ (Nat.lt_succ_self _) poised'.uses⟩ : Whole tokens w' (i + 1) (i + 1 + 1) [] [name] false)
    exact used.andThen poised fun w' _ _ _ =>
      Whole.skip foundColon (step_of_mark sameColon (by decide) w' _ _)

/-- An arm of a `switch`.  No statement begins behind the colon for the walk, but an
expression does, and the keyword of a condition may stand there. -/
theorem walks_arm (label : Option String) :
    Walks tokens (printLabel label ++ (setting.site.print block ++ setting.after.print))
      ((Summary.ofUses label.toList false).followedBy (setting.inner block)) := by
  intro i stop w length poised inside inBlock start shows
  subst length
  obtain ⟨head, r⟩ := shows_append.1 shows
  have colon : Behind tokens (i + (printLabel label).length) (.mark ":") := by
    obtain ⟨pre, shape⟩ : ∃ pre, printLabel label = pre ++ [.mark ":"] := by
      cases label with
      | none => exact ⟨[_], rfl⟩
      | some name => exact ⟨[_, _], rfl⟩
    rw [shape] at head ⊢
    rw [length_append, length_singleton, ← Nat.add_assoc]
    exact head.behind
  have whole := (whole_label label poised inside inBlock head).andThen poised
    fun w' poised' layout lists =>
      whole_inner setting block poised' (inside.of_layout layout lists) (inBlock.of_layout layout)
        (begins_of_behind w' colon (by simp [beforeValue]) fun absurd => by
          simp [Key.mark] at absurd).1 r
  rw [length_append, ← Nat.add_assoc]
  exact whole

theorem walks_place :
    Walks tokens (setting.place.print (setting.site.print block ++ setting.after.print))
      (setting.place.summary (setting.inner block)) := by
  cases setting.place with
  | program => exact walks_inner setting block
  | arm subject label =>
    intro i stop w length poised inside inBlock _ shows
    obtain ⟨⟨t, got, eq⟩, r⟩ := shows
    have skip := Whole.skip got (step_of_plainWord inside inBlock eq (by simp))
    have whole := skip.andThen poised fun w poised' _ _ =>
      (walks_expr subject).thenBlock (walks_arm setting block label) poised' r
    obtain rfl : stop = i + 1 + 1 + subject.print.length + 1 + 1 + (printLabel label ++
        (setting.site.print block ++ setting.after.print)).length + 1 := by
      rw [length]
      simp only [Place.print, length_cons, length_append, length_nil]
      omega
    exact whole
  | function name params =>
    exact walksStmt_function name params (walks_inner setting block)

theorem endsWell_place : EndsWell (setting.place.print (setting.site.print block ++ setting.after.print)) := by
  cases setting.place with
  | program => exact (endsWell_site setting.site block).append_block setting.after
  | arm _ _ => exact (((((endsWell_brace _).cons _).cons _).append _).cons _).cons _
  | function _ _ => exact ((((endsWell_brace _).cons _).append _).append _).cons _

/-- **A program with a block in some place is walked as its summary says.** -/
theorem walks_setting : Walks tokens (setting.print block) (setting.summary block) := by
  have place : Walks tokens (setting.place.print (setting.site.print block ++ setting.after.print) ++
      setting.rest.print)
      ((setting.place.summary (setting.inner block)).followedBy setting.rest.summary) :=
    walksBlock_cons (walks_place setting block) (endsWell_place setting block) (walks_block setting.rest)
  exact walks_before place setting.before

end Walks

/-! ## What is free around a block -/

section Free

variable (setting : Setting) (block : Block) {name : String}

theorem mem_free_of_inner (used : name ∈ (setting.inner block).free)
    (unbound : name ∉ setting.bound block) : name ∈ (setting.summary block).free := by
  have outside : name ∉ setting.place.binds (setting.inner block) := fun mem =>
    unbound (mem_append_right _ mem)
  refine mem_append_right _ (mem_append_left _ ?_)
  cases place : setting.place with
  | program => exact used
  | arm subject label =>
    rw [place] at outside
    exact mem_append_right _ (mem_filter.2 ⟨mem_append_right _ used, decide_eq_true outside⟩)
  | function name params =>
    rw [place] at outside
    exact mem_filter.2 ⟨used, decide_eq_true outside⟩

end Free

/-- **A brace that begins a statement opens a block.**  The analysis of a program with a
block is exact, wherever the block stands behind a condition or another statement.  So
what the block leaves free is needed unless something around it binds it, and so is what
is used in front of the block and behind it, whatever names the block has. -/
theorem analyze_setting (setting : Setting) (block : Block) (tokens : List Token)
    (written : tokens.map Token.key = setting.print block) :
    analyze tokens = outcome (setting.summary block).names (setting.summary block).free
        (setting.summary block).waits ∧
      ∀ name, name ∈ without (lexical block.declares) block.free ∨
        name ∈ setting.site.summary.free ++ setting.after.free →
        name ∉ setting.bound block → name ∈ (analyze tokens).references := by
  have whole := analyze_of_walks (walks_setting setting block) written
  refine ⟨whole, fun name used unbound => ?_⟩
  have inner : name ∈ (setting.inner block).free := by
    rcases used with leftOver | other
    · exact List.mem_append_left _ (List.mem_append_right _ leftOver)
    · rcases List.mem_append.1 other with front | behind
      · exact List.mem_append_left _ (List.mem_append_left _ front)
      · exact List.mem_append_right _ behind
  have free := mem_free_of_inner setting block inner unbound
  rw [whole]
  refine List.mem_eraseDups.2 (List.mem_filter.2 ⟨free, decide_eq_true fun declared => ?_⟩)
  exact unbound (List.mem_append_left _ declared)

/-- An arm of `switch (k)` with `case c: f(x);` in front of a block and `y;` behind it. -/
def armSetting : Setting where
  before := .nil
  place := .arm (.phrase (.name "k")) (some "c")
  site := .behind (.call "f" (.cons (.phrase (.name "x")) .nil)) .nil
  after := .cons (.phrase (.name "y")) .nil
  rest := .nil

/-- `const y = z; g(y);` -/
def shadowingBlock : Block :=
  .cons (.declare .const "y" (.phrase (.name "z")))
    (.cons (.phrase (.call "g" (.cons (.phrase (.name "y")) .nil))) .nil)

theorem analyze_armSetting :
    analyze (tokensOf (armSetting.print shadowingBlock)) =
      ⟨[], ["k", "c", "f", "x", "z", "g", "y"], false, false⟩ :=
  (analyze_setting armSetting shadowingBlock _ (by decide +kernel)).1.trans (by decide +kernel)

/-- `switch (k) { case c: { f(x); } }` and `function h() { { f(x); } }`: behind a colon and
behind an opening brace the block is taken for an object, and its call for a method. -/
theorem analyze_arm_brace :
    analyze (tokensOf [.word "switch", .mark "(", .name "k", .mark ")", .mark openBrace,
        .word "case", .name "c", .mark ":", .mark openBrace, .name "f", .mark "(", .name "x",
        .mark ")", .mark ";", .mark closeBrace, .mark closeBrace]) =
      ⟨[], ["k", "c"], false, false⟩ ∧
    analyze (tokensOf [.word "function", .name "h", .mark "(", .mark ")", .mark openBrace,
        .mark openBrace, .name "f", .mark "(", .name "x", .mark ")", .mark ";", .mark closeBrace,
        .mark closeBrace]) = ⟨["h"], [], false, false⟩ := by
  decide +kernel

end Scope

end Bindery
