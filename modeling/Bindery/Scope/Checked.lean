/-
Scope.Checked -- the analysis with lookups that can fail

The walk looks up tokens, partners of brackets and scopes by their index.  Some of these
lookups are guarded: they ask whether there is a token first.  The others rely on the
index being in range.  Here each of them can fail, and so can a step that does not go
forward: `analyze?` has no answer if the analysis would leave one of its tables or go
round in a circle.
-/
import Bindery.Scope.Analysis

namespace Bindery

namespace TokenSeq

variable (seq : TokenSeq) (index : Nat)

/-- The end of the bracket that opens at an index; a failure outside of the table. -/
def closerAt? : Option (Option Nat) :=
  seq.partners[index]?.map (·.filter (index < ·))

/-- The start of the bracket that closes at an index; a failure outside of the table. -/
def openerAt? : Option (Option Nat) :=
  seq.partners[index]?.map (·.filter (· < index))

def skip? : Option Nat :=
  (seq.closerAt? index).map (·.getD index + 1)

/-- An answer that looks at the token of an index; a failure outside of the tokens. -/
def look? {α : Type} (answer : α) : Option α :=
  (seq.get? index).map fun _ => answer

end TokenSeq

namespace Scope

/-! ## Patterns -/

def patternEnd? (seq : TokenSeq) (index : Nat) : Option Nat :=
  if seq.holds index opensPattern then seq.skip? index else some (patternEnd seq index)

def defaultEnd? (seq : TokenSeq) (limit index : Nat) : Option Nat :=
  if index < limit then do
    let token ← seq.get? index
    if token.isPunct "," then some index
    else
      let next ← seq.skip? index
      if index < next then defaultEnd? seq limit next else none
  else some index
  termination_by limit - index

def PatternItem.withDefault? (seq : TokenSeq) (limit : Nat) (item : PatternItem) :
    Option PatternItem :=
  if seq.punctAt item.stop "=" then do
    let stop ← defaultEnd? seq limit (item.stop + 1)
    return { item with trailing := [.refer (item.stop + 1) stop], stop := stop }
  else some item

def objectEntry? (seq : TokenSeq) (limit index : Nat) (token : Token) : Option PatternItem :=
  if token.isPunct "," then some { stop := index + 1 }
  else if token.isPunct "..." then do
    return { nested := some (index + 1), stop := ← patternEnd? seq (index + 1) }
  else if token.isPunct "[" then do
    let close := (← seq.closerAt? index).getD limit
    if seq.punctAt (close + 1) ":" then
      return { leading := [.refer (index + 1) close], nested := some (close + 2),
               stop := ← patternEnd? seq (close + 2) }
    else return { leading := [.refer (index + 1) close], stop := close + 1 }
  else if seq.punctAt (index + 1) ":" then do
    return { nested := some (index + 2), stop := ← patternEnd? seq (index + 2) }
  else if token.kind = .ident then some { leading := [.declare token.text], stop := index + 1 }
  else some { stop := index + 1 }

def arrayEntry? (seq : TokenSeq) (index : Nat) (token : Token) : Option PatternItem := do
  let start := if token.isPunct "..." then index + 1 else index
  let stop ← patternEnd? seq start
  return { nested := some start, stop := if stop = index then index + 1 else stop }

def patternItem? (shape : PatternShape) (seq : TokenSeq) (limit index : Nat) (token : Token) :
    Option PatternItem :=
  if shape = .object then do (← objectEntry? seq limit index token).withDefault? seq limit
  else if token.isPunct "," then some { stop := index + 1 }
  else do (← arrayEntry? seq index token).withDefault? seq limit

mutual

def patternEvents? (seq : TokenSeq) (index : Nat) : Option (List PatternEvent) :=
  if _inside : index < seq.size then do
    let token ← seq.get? index
    if token.kind = .ident then return [.declare token.text]
    else if opensPattern token then
      (← seq.closerAt? index).elim (some []) fun close =>
        itemEvents? (if token.isPunct openBrace then .object else .array) seq close (index + 1)
    else return []
  else some []
  termination_by 2 * (seq.size - index)

def itemEvents? (shape : PatternShape) (seq : TokenSeq) (limit index : Nat) :
    Option (List PatternEvent) :=
  if index < limit then do
    let item ← patternItem? shape seq limit index (← seq.get? index)
    if _forward : index < seq.size ∧ index < item.stop then
      let inner ← item.nested.elim (some []) fun start =>
        if index ≤ start then patternEvents? seq start else none
      let rest ← itemEvents? shape seq limit item.stop
      return item.leading ++ inner ++ item.trailing ++ rest
    else none
  else some []
  termination_by 2 * (seq.size - index) + 1

end

namespace Walk

/-! ## Scopes -/

/-- A scope and the scopes around it; a failure if one of them is not known. -/
def scope? (walk : Walk) (scope : Chain) : Option Chain :=
  if scope ≠ [] ∧ ∀ frame ∈ scope, frame.id < walk.scopes then some scope else none

def declare? (walk : Walk) (scope : Chain) (name : String) : Option Walk := do
  return walk.declare (← walk.scope? scope) name

/-- Note what the events of a pattern say. -/
def bind? (seq : TokenSeq) (scope : Chain) (events : Option (List PatternEvent)) (walk : Walk) :
    Option Walk := do
  return (← events).foldl (apply seq (← walk.scope? scope)) walk

/-- Read the pattern at an index and go on behind it. -/
def readPattern? (seq : TokenSeq) (scope : Chain) (index : Nat) (walk : Walk) : Option Step := do
  return (← walk.bind? seq scope (patternEvents? seq index), ← patternEnd? seq index)

def suspend? (isAwait : Bool) (walk : Walk) : Option Walk := do
  let _ ← walk.scope? walk.here
  return walk.suspend isAwait

/-! ## Looking back -/

variable (seq : TokenSeq) (index : Nat) (walk : Walk)

def atStatementStart? : Option Bool :=
  if (seq.prev? index).isSome then seq.look? index (atStatementStart seq index) else some true

def inMemberPosition? : Option Bool :=
  if (seq.prev? index).isSome then do
    seq.look? index (← seq.look? (index - 1) (walk.inMemberPosition seq index))
  else some false

def inConditional? : Option Bool :=
  if index ≤ seq.size then some (inConditional seq index) else none

/-! ## Punctuators -/

def separatorAt? (isSemicolon : Bool) : Option Step :=
  let left := walk.leaveWhile fun scope =>
    scope.depth == walk.depth && (isSemicolon || scope.endsAtComma)
  if isSemicolon then some (left.keepDeclarations (· < walk.depth), index + 1)
  else left.declarations.head?.elim (some (left, index + 1)) fun last =>
    if last.depth = left.depth then left.readPattern? seq last.target (index + 1)
    else some (left, index + 1)

def arrowHeadAt? : Option (Option (Nat × Option (Nat × Nat))) :=
  if index = 0 then some none
  else do
    let prev ← seq.get? (index - 1)
    if prev.kind = .ident then return some (index - 1, none)
    else if prev.isPunct ")" then
      return (← seq.openerAt? (index - 1)).map fun opener => (opener, some (opener, index - 1))
    else return none

def bindArrow? (scope : Chain) (first : Nat) (parameters : Option (Nat × Nat)) : Option Walk :=
  parameters.elim (do walk.declare? scope (← seq.get? first).text) fun pair =>
    walk.bind? seq scope (itemEvents? .array seq pair.2 (pair.1 + 1))

def arrowAt? : Option Step := do
  (← arrowHeadAt? seq index).elim (some (walk, index + 1)) fun head => do
    let scope := walk.freshScope walk.here true
    let bound ← (walk.takeBack (arrowStart seq head.1)).newScope.bindArrow? seq scope head.1 head.2
    return (bound.enterArrowBody seq (index + 1) scope, index + 1)

def punctAt? (token : Token) : Option Step :=
  if token.text = "," then walk.separatorAt? seq index false
  else if token.text = ";" then walk.separatorAt? seq index true
  else if token.text = "=>" then walk.arrowAt? seq index
  else some (walk.punctAt seq index token)

/-! ## Functions, classes, loops -/

def functionTail? (opener : Nat) (scope : Chain) : Option Step :=
  if seq.punctAt opener "(" then do
    (← seq.closerAt? opener).elim (some (walk, opener)) fun closer => do
      let bound ← walk.bind? seq scope (itemEvents? .array seq closer (opener + 1))
      return (bound.announceBody seq (closer + 1) scope, closer + 1)
  else some (walk, opener)

def isFunctionStatement? : Option Bool := do
  if ← atStatementStart? seq index then return true
  else if seq.prevHolds index (·.isIdent "async") then atStatementStart? seq (index - 1)
  else return false

def functionAt? : Option Step :=
  let next := if seq.punctAt (index + 1) "*" then index + 2 else index + 1
  let scope := walk.freshScope walk.here true
  (seq.ident? next).elim (walk.newScope.functionTail? seq next scope) fun name => do
    let isStatement ← isFunctionStatement? seq index
    let named ← walk.newScope.declare? (if isStatement then walk.here else scope) name.text
    named.functionTail? seq (next + 1) scope

def hasClassBody? (seq : TokenSeq) (start index : Nat) : Option Bool :=
  if index < seq.size then
    if seq.punctAt index openBrace ∧
        (index = start ∨ (seq.holds start (·.isKeyword "extends") ∧ start + 1 < index)) then some true
    else do
      let next ← seq.skip? index
      if index < next then hasClassBody? seq start next else none
  else some false
  termination_by seq.size - index

def declareClass? : Option Walk :=
  (seq.ident? (index + 1)).elim (some walk) fun name => do
    if ← atStatementStart? seq index then walk.declare? walk.here name.text else return walk

def classAt? : Option Step := do
  let next := if (seq.ident? (index + 1)).isSome then index + 2 else index + 1
  let named ← walk.declareClass? seq index
  if ← hasClassBody? seq next next then
    return (named.announce ⟨named.here, named.here, .classBody⟩, next)
  else return (named, next)

def forAt? : Option Step :=
  if seq.holds (index + 1) (·.isKeyword "await") then do
    let waiting ← walk.suspend? true
    if seq.punctAt (index + 2) "(" then return (waiting.openForHeader, index + 3)
    else return (waiting, index + 1)
  else some (walk.forAt seq index)

def catchAt? : Option Step :=
  let scope := walk.freshScope walk.here false
  let bare : Step := (walk.newScope.announceBody seq (index + 1) scope, index + 1)
  if seq.punctAt (index + 1) "(" then do
    (← seq.closerAt? (index + 1)).elim (some bare) fun closer => do
      let bound ← walk.newScope.bind? seq scope (patternEvents? seq (index + 2))
      return (bound.announceBody seq (closer + 1) scope, closer + 1)
  else some bare

/-! ## Members, names and keywords -/

def memberAt? (token : Token) : Option Step := do
  if ← seq.look? index (token.kind == .ident && isModifier seq index) then
    return (walk, index + 1)
  else if seq.punctAt (index + 1) "(" then
    walk.newScope.functionTail? seq (index + 1) (walk.freshScope walk.here true)
  else return walk.memberAt seq index token

def declarationAt? (isVar : Bool) : Option Step :=
  if seq.prevHolds index Token.selects then some (walk, index + 1)
  else do
    let here ← walk.scope? walk.here
    let target := if isVar then Chain.nearestFunction here else here
    ((walk.keepDeclarations (· < walk.depth)).startDeclaration target).readPattern? seq target
      (index + 1)

def suspendAt? (isAwait : Bool) : Option Step :=
  if seq.prevHolds index Token.selects then some (walk, index + 1)
  else do return (← walk.suspend? isAwait, index + 1)

/-- A word that may be an object key or the name of a class member. -/
def wordAt? (token : Token) (other : Step) : Option Step := do
  if ← walk.inMemberPosition? seq index then walk.memberAt? seq index token else return other

def keywordAt? (token : Token) : Option Step :=
  if token.text = "const" ∨ token.text = "let" then walk.declarationAt? seq index false
  else if token.text = "var" then walk.declarationAt? seq index true
  else if token.text = "function" then walk.functionAt? seq index
  else if token.text = "class" then walk.classAt? seq index
  else if token.text = "for" then walk.forAt? seq index
  else if token.text = "catch" then walk.catchAt? seq index
  else if token.text = "break" ∨ token.text = "continue" then some (walk.keywordAt seq index token)
  else if token.text = "await" then walk.suspendAt? seq index true
  else if token.text = "yield" then walk.suspendAt? seq index false
  else walk.wordAt? seq index token (walk, index + 1)

/-- Whether the identifier at an index is a label. -/
def isLabel? : Option Bool :=
  if seq.punctAt (index + 1) ":" then do
    let starts ← atStatementStart? seq index
    return starts && !walk.inBrace .object && !(← inConditional? seq index)
  else some false

def identAt? (token : Token) : Option Step :=
  if seq.prevHolds index Token.selects then some (walk, index + 1)
  else do
    let isLabel ← walk.isLabel? seq index
    walk.wordAt? seq index token <|
      if token.text = "of" ∧ walk.inForHeader then
        (walk.keepDeclarations (· < walk.depth), index + 1)
      else if token.text = "async" ∧ seq.holds (index + 1) (fun next =>
          !next.newlineBefore && (next.isKeyword "function" || next.kind == .ident)) then
        (walk, index + 1)
      else if isLabel then (walk, index + 2)
      else (walk.refer token.text walk.here index, index + 1)

def step? (token : Token) : Option Step :=
  let walk := walk.endDeclarationAtLineBreak seq index token
  if token.kind = .punct then walk.punctAt? seq index token
  else if token.kind = .keyword then walk.keywordAt? seq index token
  else if token.kind = .ident then walk.identAt? seq index token
  else some (walk, index + 1)

def runFrom? (seq : TokenSeq) (index : Nat) (walk : Walk) : Option Walk :=
  if _inside : index < seq.size then do
    let after ← walk.step? seq index (← seq.get? index)
    if index < after.2 then runFrom? seq after.2 after.1 else none
  else some walk
  termination_by seq.size - index

end Walk

/-- The analysis, if no lookup fails: those of the walk, and in the end those of the
scopes around each use and of the outermost scope. -/
def analyze? (tokens : List Token) : Option Analysis := do
  let walk ← Walk.runFrom? tokens 0 {}
  let _ ← walk.scope? root
  if walk.uses.all fun use => (walk.scope? use.scope).isSome then
    return ⟨walk.topLevel, walk.freeNames, walk.awaits, walk.yields⟩
  else none

end Scope

end Bindery
