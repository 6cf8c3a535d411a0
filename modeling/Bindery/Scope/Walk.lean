/-
Scope.Walk -- scopes while the tokens go by

A walk over the tokens of a cell keeps the scopes that are open and notes every
declaration and every use of a name.  A scope is the chain of frames around it, so
it carries its own ancestors: a name is bound in a scope when some frame of the
chain declares it, and a `var` belongs to the nearest frame of a function.  A
declaration may come after the use it binds, which is why uses are judged only
when the walk is over.

Three things open a scope.  A brace that is not an object literal does; so does a
brace announced by what stands before it (a function, an arrow, a `for` header, a
`catch`, a class); and an arrow's or a loop's body without braces opens a delimited
scope, which ends with the bracket around it or at a semicolon of its own depth.
This module holds the walk's state and what each of these does to it.
-/
import Bindery.Scope.Pattern

namespace Bindery.Scope

/-- One scope of a chain: its number, and whether it is a function's. -/
structure Frame where
  id : Nat
  isFunction : Bool
  deriving Repr, DecidableEq

abbrev Chain := List Frame

def root : Chain := [⟨0, true⟩]

def Chain.nearestFunction : Chain → Chain
  | [] => []
  | [last] => [last]
  | frame :: outer => if frame.isFunction then frame :: outer else Chain.nearestFunction outer

def Chain.isOutermostFunction (chain : Chain) : Bool :=
  (Chain.nearestFunction chain).head?.any (·.id == 0)

inductive BraceKind where
  | block
  | object
  | classBody
  deriving Repr, DecidableEq

/-- An open bracket, with the scope to return to when it closes. -/
inductive Opened where
  | paren
  | bracket
  | forHeader (scope restore : Chain)
  | brace (kind : BraceKind) (restore : Option Chain)
  deriving Repr, DecidableEq

structure PendingBrace where
  scope : Chain
  restore : Chain
  kind : BraceKind
  deriving Repr, DecidableEq

/-- A scope without braces, which ends at a separator of its depth or when that
depth is left. -/
structure Delimited where
  depth : Nat
  restore : Chain
  endsAtComma : Bool
  deriving Repr, DecidableEq

/-- An open declaration list: `const`, `let` or `var` with more names to come. -/
structure Declaration where
  depth : Nat
  target : Chain
  deriving Repr, DecidableEq

structure Binding where
  scope : Nat
  name : String
  deriving Repr, DecidableEq

/-- A use of a name: the scope it stands in and the index of its token. -/
structure Use where
  name : String
  scope : Chain
  token : Nat
  deriving Repr, DecidableEq

/-- The state of a walk.  Lists hold the newest entry first. -/
structure Walk where
  /-- the number of scopes made so far -/
  scopes : Nat := 1
  /-- the scope the walk is in -/
  here : Chain := root
  opens : List Opened := []
  pending : Option PendingBrace := none
  delimited : List Delimited := []
  declarations : List Declaration := []
  bindings : List Binding := []
  uses : List Use := []
  awaits : Bool := false
  yields : Bool := false
  deriving Repr, DecidableEq

namespace Walk

def depth (walk : Walk) : Nat :=
  walk.opens.length

def inBrace (walk : Walk) (kind : BraceKind) : Bool :=
  match walk.opens with
  | .brace found _ :: _ => found == kind
  | _ => false

def inForHeader (walk : Walk) : Bool :=
  match walk.opens with
  | .forHeader _ _ :: _ => true
  | _ => false

def freshScope (walk : Walk) (outer : Chain) (isFunction : Bool) : Chain :=
  ⟨walk.scopes, isFunction⟩ :: outer

def declare (walk : Walk) (scope : Chain) (name : String) : Walk :=
  match scope.head? with
  | none => walk
  | some frame =>
    if walk.bindings.contains ⟨frame.id, name⟩ then walk
    else { walk with bindings := ⟨frame.id, name⟩ :: walk.bindings }

def refer (walk : Walk) (name : String) (scope : Chain) (token : Nat) : Walk :=
  { walk with uses := ⟨name, scope, token⟩ :: walk.uses }

/-- Note the identifier at an index as a use, unless it is a property, a key or
already noted. -/
def referAt (seq : TokenSeq) (scope : Chain) (walk : Walk) (index : Nat) : Walk :=
  match seq.get? index with
  | none => walk
  | some token =>
    if token.kind ≠ .ident ∨ seq.prevHolds index Token.selects ∨ seq.punctAt (index + 1) ":" ∨
        walk.uses.any (·.token == index) then walk
    else walk.refer token.text scope index

def apply (seq : TokenSeq) (scope : Chain) (walk : Walk) : PatternEvent → Walk
  | .declare name => walk.declare scope name
  | .refer first stop =>
    (List.range' first (stop - first)).foldl (referAt seq scope) walk

def bindPattern (seq : TokenSeq) (scope : Chain) (index : Nat) (walk : Walk) : Walk :=
  (patternEvents seq index).foldl (apply seq scope) walk

def bindParameters (seq : TokenSeq) (scope : Chain) (opener closer : Nat) (walk : Walk) : Walk :=
  (parameterEvents seq opener closer).foldl (apply seq scope) walk

def newScope (walk : Walk) : Walk :=
  { walk with scopes := walk.scopes + 1 }

def goTo (scope : Chain) (walk : Walk) : Walk :=
  { walk with here := scope }

def push (opened : Opened) (walk : Walk) : Walk :=
  { walk with opens := opened :: walk.opens }

def announce (announced : PendingBrace) (walk : Walk) : Walk :=
  { walk with pending := some announced }

/-- Announce a block with the given scope, behind which the walk comes back to the
scope it is in, if a brace stands at the index. -/
def announceBody (seq : TokenSeq) (index : Nat) (scope : Chain) (walk : Walk) : Walk :=
  if seq.punctAt index openBrace then walk.announce ⟨scope, walk.here, .block⟩ else walk

/-- Start a scope without braces, behind which the walk goes to `restore`. -/
def delimit (restore : Chain) (endsAtComma : Bool) (walk : Walk) : Walk :=
  { walk with delimited := ⟨walk.depth, restore, endsAtComma⟩ :: walk.delimited }

def startDeclaration (target : Chain) (walk : Walk) : Walk :=
  { walk with declarations := ⟨walk.depth, target⟩ :: walk.declarations }

def takeBack (start : Nat) (walk : Walk) : Walk :=
  { walk with uses := walk.uses.filter (·.token < start) }

def leaveWhile (leaves : Delimited → Bool) (walk : Walk) : Walk :=
  match (walk.delimited.takeWhile leaves).getLast? with
  | none => walk
  | some last =>
    { walk with here := last.restore, delimited := walk.delimited.dropWhile leaves }

def keepDeclarations (keeps : Nat → Bool) (walk : Walk) : Walk :=
  { walk with declarations := walk.declarations.filter (keeps ·.depth) }

/-! ## Brackets -/

/-- Whether the brace at an index opens an object literal, judged by the token
before it. -/
def isObjectBrace (seq : TokenSeq) (index : Nat) : Bool :=
  match seq.prev? index with
  | none => false
  | some prev =>
    match prev.kind with
    | .punct => !([")", "]", closeBrace, ";", "++", "--"].contains prev.text)
    | .keyword =>
      ["return", "typeof", "void", "delete", "in", "instanceof", "new", "yield", "await",
        "case", "throw", "extends"].contains prev.text
    | .ident => prev.text == "of" && !prev.newlineBefore
    | _ => false

def openBraceAt (seq : TokenSeq) (index : Nat) (walk : Walk) : Walk :=
  match walk.pending with
  | some announced =>
    ({ walk with pending := none }.goTo announced.scope).push
      (.brace announced.kind (some announced.restore))
  | none =>
    if isObjectBrace seq index then walk.push (.brace .object none)
    else
      (walk.newScope.goTo (walk.freshScope walk.here false)).push (.brace .block (some walk.here))

/-- Behind the header of a `for`: the body is a block with the loop's scope, or a
statement that ends at a semicolon. -/
def afterForHeader (seq : TokenSeq) (closer : Nat) (scope restore : Chain) (walk : Walk) : Walk :=
  if seq.punctAt (closer + 1) openBrace then walk.announce ⟨scope, restore, .block⟩
  else walk.delimit restore false

def afterClosing (seq : TokenSeq) (index : Nat) (walk : Walk) : Opened → Walk
  | .brace _ (some restore) => walk.goTo restore
  | .forHeader scope restore => walk.afterForHeader seq index scope restore
  | _ => walk

def closeAt (seq : TokenSeq) (index : Nat) (walk : Walk) : Walk :=
  match walk.opens with
  | [] => walk
  | opened :: outer =>
    (({ walk with opens := outer }.leaveWhile (outer.length < ·.depth)).keepDeclarations
      (· ≤ outer.length)).afterClosing seq index opened

/-! ## Looking back -/

def atStatementStart (seq : TokenSeq) (index : Nat) : Bool :=
  match seq.prev? index with
  | none => true
  | some prev =>
    prev.isPunct ";" || prev.isPunct openBrace || prev.isPunct closeBrace ||
      prev.isKeyword "export" || prev.isKeyword "default" || prev.isKeyword "else" ||
      (seq.holds index (·.newlineBefore) && prev.endsOperand)

def isNameLike (token : Token) : Bool :=
  match token.kind with
  | .ident | .keyword | .string | .number | .privateName => true
  | _ => false

def isModifier (seq : TokenSeq) (index : Nat) : Bool :=
  seq.holds index (fun token =>
    token.kind == .ident && ["get", "set", "async", "static"].contains token.text) &&
  seq.holds (index + 1) (fun next =>
    isNameLike next || next.isPunct "[" || next.isPunct "*" || next.isPunct openBrace)

def isGeneratorStar (seq : TokenSeq) (index : Nat) : Bool :=
  seq.punctAt index "*" &&
    (seq.prev? index).all (fun prev =>
      prev.isPunct openBrace || prev.isPunct "," || prev.isPunct ";" || prev.isPunct closeBrace ||
        prev.isIdent "static" || prev.isIdent "async")

/-- Whether the token at an index stands where an object key or the name of a class
member does. -/
def inMemberPosition (seq : TokenSeq) (index : Nat) (walk : Walk) : Bool :=
  match seq.prev? index with
  | none => false
  | some prev =>
    if walk.inBrace .object then
      prev.isPunct openBrace || prev.isPunct "," || isModifier seq (index - 1) ||
        isGeneratorStar seq (index - 1)
    else if walk.inBrace .classBody then
      prev.isPunct openBrace || prev.isPunct ";" || prev.isPunct closeBrace ||
        isModifier seq (index - 1) || isGeneratorStar seq (index - 1) ||
        (seq.holds index (·.newlineBefore) && prev.endsOperand)
    else false

/-- Whether a question mark waits for its colon at this depth, looking back over
tokens given the nearest first.  `depth` counts the closed brackets that were
passed and not yet reopened. -/
def awaitsColon (depth : Nat) : List Token → Bool
  | [] => false
  | token :: earlier =>
    if token.isCloser then awaitsColon (depth + 1) earlier
    else if token.isOpener then
      match depth with
      | 0 => false
      | depth + 1 => awaitsColon depth earlier
    else if token.isPunct "?" ∧ depth = 0 then true
    else if token.isPunct ";" ∧ depth = 0 then false
    else awaitsColon depth earlier

def inConditional (seq : TokenSeq) (index : Nat) : Bool :=
  awaitsColon 0 (seq.tokens.toList.take index).reverse

end Walk

end Bindery.Scope
