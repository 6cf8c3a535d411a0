/-
Scope.Analysis -- the names a cell declares and the names it needs

`analyze` walks the tokens of a cell once.  Each step looks at one token, changes
the state of the walk and says at which index the walk goes on; a step may pass
over a name, a pattern or a parameter list that it has already read.  When the walk
is over, a use is free if no scope around it declares its name.

The analysis is forgiving: it has an answer for every list of tokens, balanced or
not, and syntax it does not know adds or drops a name and nothing else.  It ends
because every step goes forward (`lt_step`).
-/
import Bindery.Scope.Walk

namespace Bindery.Scope

/-- Where a walk stands after a step: its state, and the index of the next token. -/
abbrev Step := Walk × Nat

namespace Walk

def endDeclarationAtLineBreak (seq : TokenSeq) (index : Nat) (token : Token) (walk : Walk) :
    Walk :=
  if token.newlineBefore ∧ (token.kind = .ident ∨ token.kind = .keyword) ∧
      seq.prevHolds index Token.endsOperand then
    match walk.declarations with
    | last :: outer =>
      if last.depth = walk.depth then { walk with declarations := outer } else walk
    | [] => walk
  else walk

/-! ## Punctuators -/

/-- A comma goes on with the declaration list of its depth, if there is one. -/
def continueDeclaration (seq : TokenSeq) (index : Nat) (walk : Walk) : Step :=
  match walk.declarations with
  | last :: _ =>
    if last.depth = walk.depth then
      (walk.bindPattern seq last.target (index + 1), patternEnd seq (index + 1))
    else (walk, index + 1)
  | [] => (walk, index + 1)

def separatorAt (seq : TokenSeq) (index : Nat) (isSemicolon : Bool) (walk : Walk) : Step :=
  let left := walk.leaveWhile fun scope =>
    scope.depth == walk.depth && (isSemicolon || scope.endsAtComma)
  if isSemicolon then (left.keepDeclarations (· < walk.depth), index + 1)
  else left.continueDeclaration seq index

/-- Where the parameters of an arrow start and, when they are in parentheses, where
these stand. -/
def arrowHead? (seq : TokenSeq) (index : Nat) : Option (Nat × Option (Nat × Nat)) :=
  match seq.prev? index with
  | none => none
  | some prev =>
    if prev.kind = .ident then some (index - 1, none)
    else if prev.isPunct ")" then
      (seq.opener? (index - 1)).map fun opener => (opener, some (opener, index - 1))
    else none

/-- Where an arrow starts: at its parameters or at the `async` in front of them. -/
def arrowStart (seq : TokenSeq) (first : Nat) : Nat :=
  if seq.prevHolds first (·.isIdent "async") then first - 1 else first

/-- Declare the parameters of an arrow: a single name, or a list in parentheses. -/
def bindArrow (seq : TokenSeq) (scope : Chain) (first : Nat) (parameters : Option (Nat × Nat))
    (walk : Walk) : Walk :=
  match parameters with
  | none => (seq.get? first).elim walk fun token => walk.declare scope token.text
  | some (opener, closer) => walk.bindParameters seq scope opener closer

/-- The body of an arrow: a block, or an expression that ends at a separator. -/
def enterArrowBody (seq : TokenSeq) (index : Nat) (scope : Chain) (walk : Walk) : Walk :=
  if seq.punctAt index openBrace then walk.announce ⟨scope, walk.here, .block⟩
  else (walk.delimit walk.here true).goTo scope

/-- An arrow: its parameters were read as uses, which are taken back, and its body
gets a scope of its own. -/
def arrowAt (seq : TokenSeq) (index : Nat) (walk : Walk) : Step :=
  match arrowHead? seq index with
  | none => (walk, index + 1)
  | some (first, parameters) =>
    let scope := walk.freshScope walk.here true
    (((walk.takeBack (arrowStart seq first)).newScope.bindArrow seq scope first
      parameters).enterArrowBody seq (index + 1) scope, index + 1)

def punctAt (seq : TokenSeq) (index : Nat) (token : Token) (walk : Walk) : Step :=
  if token.text = "(" then (walk.push .paren, index + 1)
  else if token.text = "[" then (walk.push .bracket, index + 1)
  else if token.text = openBrace then (walk.openBraceAt seq index, index + 1)
  else if token.isCloser then (walk.closeAt seq index, index + 1)
  else if token.text = "," then walk.separatorAt seq index false
  else if token.text = ";" then walk.separatorAt seq index true
  else if token.text = "=>" then walk.arrowAt seq index
  else (walk, index + 1)

/-! ## Functions, classes, loops -/

/-- The parameters and the announced body of a function whose parameter list starts
at `opener`. -/
def functionTail (seq : TokenSeq) (opener : Nat) (scope : Chain) (walk : Walk) : Step :=
  match (if seq.punctAt opener "(" then seq.closer? opener else none) with
  | none => (walk, opener)
  | some closer =>
    ((walk.bindParameters seq scope opener closer).announceBody seq (closer + 1) scope,
      closer + 1)

/-- Whether the keyword `function` at an index starts a statement, with `async` in
front of it or without. -/
def isFunctionStatement (seq : TokenSeq) (index : Nat) : Bool :=
  atStatementStart seq index ||
    (seq.prevHolds index (·.isIdent "async") && atStatementStart seq (index - 1))

/-- The keyword `function`.  A statement declares its name around it, an expression
inside itself. -/
def functionAt (seq : TokenSeq) (index : Nat) (walk : Walk) : Step :=
  let next := if seq.punctAt (index + 1) "*" then index + 2 else index + 1
  let scope := walk.freshScope walk.here true
  match seq.ident? next with
  | some name =>
    (walk.newScope.declare (if isFunctionStatement seq index then walk.here else scope)
      name.text).functionTail seq (next + 1) scope
  | none => walk.newScope.functionTail seq next scope

/-- Whether a class body starts behind the heritage that begins at `start`,
looking on from `index`. -/
def hasClassBody (seq : TokenSeq) (start index : Nat) : Bool :=
  if index < seq.size then
    if seq.punctAt index openBrace ∧
        (index = start ∨ (seq.holds start (·.isKeyword "extends") ∧ start + 1 < index)) then true
    else hasClassBody seq start (seq.skip index)
  else false
  termination_by seq.size - index
  decreasing_by have := seq.lt_skip index; omega

def declareClass (seq : TokenSeq) (index : Nat) (walk : Walk) : Walk :=
  match seq.ident? (index + 1) with
  | some name => if atStatementStart seq index then walk.declare walk.here name.text else walk
  | none => walk

/-- The keyword `class`.  The heritage is walked like any expression. -/
def classAt (seq : TokenSeq) (index : Nat) (walk : Walk) : Step :=
  let next := if (seq.ident? (index + 1)).isSome then index + 2 else index + 1
  let named := walk.declareClass seq index
  if hasClassBody seq next next then (named.announce ⟨named.here, named.here, .classBody⟩, next)
  else (named, next)

/-- Note that the cell itself waits or yields, if the walk is outside all functions. -/
def suspend (isAwait : Bool) (walk : Walk) : Walk :=
  if walk.here.isOutermostFunction then
    if isAwait then { walk with awaits := true } else { walk with yields := true }
  else walk

def openForHeader (walk : Walk) : Walk :=
  let scope := walk.freshScope walk.here false
  (walk.newScope.goTo scope).push (.forHeader scope walk.here)

def forAt (seq : TokenSeq) (index : Nat) (walk : Walk) : Step :=
  if seq.holds (index + 1) (·.isKeyword "await") then
    if seq.punctAt (index + 2) "(" then ((walk.suspend true).openForHeader, index + 3)
    else (walk.suspend true, index + 1)
  else if seq.punctAt (index + 1) "(" then (walk.openForHeader, index + 2)
  else (walk, index + 1)

def catchAt (seq : TokenSeq) (index : Nat) (walk : Walk) : Step :=
  let scope := walk.freshScope walk.here false
  match (if seq.punctAt (index + 1) "(" then seq.closer? (index + 1) else none) with
  | some closer =>
    ((walk.newScope.bindPattern seq scope (index + 2)).announceBody seq (closer + 1) scope,
      closer + 1)
  | none => (walk.newScope.announceBody seq (index + 1) scope, index + 1)

/-! ## Members, names and keywords -/

/-- An object key or the name of a class member.  A method gets a scope, and a
shorthand is a use. -/
def memberAt (seq : TokenSeq) (index : Nat) (token : Token) (walk : Walk) : Step :=
  if token.kind = .ident ∧ isModifier seq index then (walk, index + 1)
  else if seq.punctAt (index + 1) "(" then
    walk.newScope.functionTail seq (index + 1) (walk.freshScope walk.here true)
  else if walk.inBrace .object ∧ token.kind = .ident ∧
      (seq.get? (index + 1)).all (fun next =>
        next.isPunct "," || next.isPunct closeBrace || next.isPunct "=") then
    (walk.refer token.text walk.here index, index + 1)
  else (walk, index + 1)

def declarationAt (seq : TokenSeq) (index : Nat) (isVar : Bool) (walk : Walk) : Step :=
  if seq.prevHolds index Token.selects then (walk, index + 1)
  else
    let target := if isVar then Chain.nearestFunction walk.here else walk.here
    (((walk.keepDeclarations (· < walk.depth)).startDeclaration target).bindPattern seq target
      (index + 1), patternEnd seq (index + 1))

def suspendAt (seq : TokenSeq) (index : Nat) (isAwait : Bool) (walk : Walk) : Step :=
  if seq.prevHolds index Token.selects then (walk, index + 1)
  else (walk.suspend isAwait, index + 1)

def keywordAt (seq : TokenSeq) (index : Nat) (token : Token) (walk : Walk) : Step :=
  match token.text with
  | "const" | "let" => walk.declarationAt seq index false
  | "var" => walk.declarationAt seq index true
  | "function" => walk.functionAt seq index
  | "class" => walk.classAt seq index
  | "for" => walk.forAt seq index
  | "catch" => walk.catchAt seq index
  | "break" | "continue" =>
    if seq.holds (index + 1) (fun next => next.kind == .ident && !next.newlineBefore) then
      (walk, index + 2)
    else (walk, index + 1)
  | "await" => walk.suspendAt seq index true
  | "yield" => walk.suspendAt seq index false
  | _ => if walk.inMemberPosition seq index then walk.memberAt seq index token else (walk, index + 1)

/-- An identifier: a property, a member, the `of` of a loop, the `async` of a
function, a label, or a use. -/
def identAt (seq : TokenSeq) (index : Nat) (token : Token) (walk : Walk) : Step :=
  if seq.prevHolds index Token.selects then (walk, index + 1)
  else if walk.inMemberPosition seq index then walk.memberAt seq index token
  else if token.text = "of" ∧ walk.inForHeader then
    (walk.keepDeclarations (· < walk.depth), index + 1)
  else if token.text = "async" ∧ seq.holds (index + 1) (fun next =>
      !next.newlineBefore && (next.isKeyword "function" || next.kind == .ident)) then
    (walk, index + 1)
  else if seq.punctAt (index + 1) ":" ∧ atStatementStart seq index ∧ ¬ walk.inBrace .object ∧
      ¬ inConditional seq index then
    (walk, index + 2)
  else (walk.refer token.text walk.here index, index + 1)

def step (seq : TokenSeq) (index : Nat) (token : Token) (walk : Walk) : Step :=
  let walk := walk.endDeclarationAtLineBreak seq index token
  match token.kind with
  | .punct => walk.punctAt seq index token
  | .keyword => walk.keywordAt seq index token
  | .ident => walk.identAt seq index token
  | _ => (walk, index + 1)

/-! ## Every step goes forward -/

theorem le_functionTail (seq : TokenSeq) (opener : Nat) (scope : Chain) (walk : Walk) :
    opener ≤ (walk.functionTail seq opener scope).2 := by
  unfold functionTail
  split
  · exact Nat.le_refl _
  · next closer found =>
    have : opener < closer := by
      split at found
      · exact TokenSeq.lt_closer found
      · cases found
    dsimp only
    omega

theorem lt_separatorAt (seq : TokenSeq) (index : Nat) (isSemicolon : Bool) (walk : Walk) :
    index < (walk.separatorAt seq index isSemicolon).2 := by
  have := le_patternEnd seq (index + 1)
  unfold separatorAt continueDeclaration
  dsimp only
  repeat' split
  all_goals omega

theorem lt_arrowAt (seq : TokenSeq) (index : Nat) (walk : Walk) :
    index < (walk.arrowAt seq index).2 := by
  unfold arrowAt
  split
  · simp
  · simp

theorem lt_punctAt (seq : TokenSeq) (index : Nat) (token : Token) (walk : Walk) :
    index < (walk.punctAt seq index token).2 := by
  have comma := lt_separatorAt seq index false walk
  have semicolon := lt_separatorAt seq index true walk
  have arrow := lt_arrowAt seq index walk
  unfold punctAt
  repeat' split
  all_goals assumption

theorem lt_functionAt (seq : TokenSeq) (index : Nat) (walk : Walk) :
    index < (walk.functionAt seq index).2 := by
  unfold functionAt
  dsimp only
  split
  · next name _ =>
    refine Nat.lt_of_lt_of_le ?_ (le_functionTail seq _ _ _)
    split <;> omega
  · refine Nat.lt_of_lt_of_le ?_ (le_functionTail seq _ _ _)
    split <;> omega

theorem lt_classAt (seq : TokenSeq) (index : Nat) (walk : Walk) :
    index < (walk.classAt seq index).2 := by
  unfold classAt
  dsimp only
  split <;> (split <;> omega)

theorem lt_forAt (seq : TokenSeq) (index : Nat) (walk : Walk) :
    index < (walk.forAt seq index).2 := by
  unfold forAt
  repeat' split
  all_goals (dsimp only; omega)

theorem lt_catchAt (seq : TokenSeq) (index : Nat) (walk : Walk) :
    index < (walk.catchAt seq index).2 := by
  unfold catchAt
  dsimp only
  split
  · next closer found =>
    have : index + 1 < closer := by
      split at found
      · exact TokenSeq.lt_closer found
      · cases found
    dsimp only
    omega
  · exact Nat.lt_succ_self index

theorem lt_memberAt (seq : TokenSeq) (index : Nat) (token : Token) (walk : Walk) :
    index < (walk.memberAt seq index token).2 := by
  unfold memberAt
  split
  · simp
  · split
    · exact Nat.lt_of_succ_le (le_functionTail seq _ _ _)
    · split <;> simp

theorem lt_declarationAt (seq : TokenSeq) (index : Nat) (isVar : Bool) (walk : Walk) :
    index < (walk.declarationAt seq index isVar).2 := by
  have := le_patternEnd seq (index + 1)
  unfold declarationAt
  split
  · simp
  · dsimp only
    omega

theorem lt_suspendAt (seq : TokenSeq) (index : Nat) (isAwait : Bool) (walk : Walk) :
    index < (walk.suspendAt seq index isAwait).2 := by
  unfold suspendAt
  repeat' split
  all_goals simp

theorem lt_keywordAt (seq : TokenSeq) (index : Nat) (token : Token) (walk : Walk) :
    index < (walk.keywordAt seq index token).2 := by
  unfold keywordAt
  split
  · exact lt_declarationAt ..
  · exact lt_declarationAt ..
  · exact lt_declarationAt ..
  · exact lt_functionAt ..
  · exact lt_classAt ..
  · exact lt_forAt ..
  · exact lt_catchAt ..
  · split <;> (dsimp only; omega)
  · split <;> (dsimp only; omega)
  · exact lt_suspendAt ..
  · exact lt_suspendAt ..
  · split
    · exact lt_memberAt ..
    · simp

theorem lt_identAt (seq : TokenSeq) (index : Nat) (token : Token) (walk : Walk) :
    index < (walk.identAt seq index token).2 := by
  have := lt_memberAt seq index token walk
  unfold identAt
  repeat' split
  all_goals first | assumption | (dsimp only; omega)

/-- **Every step goes forward.** -/
theorem lt_step (seq : TokenSeq) (index : Nat) (token : Token) (walk : Walk) :
    index < (walk.step seq index token).2 := by
  unfold step
  dsimp only
  split
  · exact lt_punctAt ..
  · exact lt_keywordAt ..
  · exact lt_identAt ..
  · simp

def runFrom (seq : TokenSeq) (index : Nat) (walk : Walk) : Walk :=
  match _found : seq.get? index with
  | none => walk
  | some token =>
    runFrom seq (walk.step seq index token).2 (walk.step seq index token).1
  termination_by seq.size - index
  decreasing_by
    have := TokenSeq.lt_of_get? _found
    have := lt_step seq index token walk
    omega

def isBound (walk : Walk) (name : String) (scope : Chain) : Bool :=
  scope.any fun frame => walk.bindings.contains ⟨frame.id, name⟩

def topLevel (walk : Walk) : List String :=
  (walk.bindings.reverse.filter (·.scope == 0)).map (·.name)

/-- The names used and not bound, each where it is first used. -/
def freeNames (walk : Walk) : List String :=
  ((walk.uses.reverse.filter fun use => !walk.isBound use.name use.scope).map (·.name)).eraseDups

end Walk

structure Analysis where
  /-- the names declared in the outermost scope, in order -/
  topLevel : List String
  /-- the free names, in order of first use -/
  references : List String
  /-- the cell itself waits for a promise -/
  awaits : Bool
  /-- the cell itself yields -/
  yields : Bool
  deriving Repr, DecidableEq

/-- The analysis of a cell's tokens. -/
def analyze (tokens : List Token) : Analysis :=
  let walk := Walk.runFrom tokens 0 {}
  ⟨walk.topLevel, walk.freeNames, walk.awaits, walk.yields⟩

end Bindery.Scope
