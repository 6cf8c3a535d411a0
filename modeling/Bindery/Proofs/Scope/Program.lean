/-
Proofs.Scope.Program -- programs and their free names

A core of the language as syntax trees: names, literals, sums, members, calls,
arrays, objects with methods, `await`, arrows and functions; declarations,
`return`, branches, loops, `catch` and function statements.  The types keep to the
grammar: a `Phrase` is an expression that begins neither with an object nor with
`function`, so it may begin a statement, and the body of an arrow is a phrase, a
function or a block but never an object.
-/
import Bindery.Proofs.Token.Reading

namespace Bindery

namespace Program

/-! ## Trees -/

inductive Keyword where
  | const
  | let
  | var
  deriving Repr, DecidableEq

/-- The parameters of an arrow: a name alone, or names in parentheses. -/
inductive Head where
  | one (name : String)
  | many (names : List String)
  deriving Repr, DecidableEq

inductive EntryKey where
  | name (text : String)
  | string (text : String)
  | number (text : String)
  deriving Repr, DecidableEq

mutual

/-- An expression that begins neither with an object nor with `function`. -/
inductive Phrase where
  | name (name : String)
  | number (text : String)
  | string (text : String)
  | group (value : Expr)
  | sum (left right : Expr)
  | member (value : Expr) (property : String)
  | call (function : String) (arguments : Args)
  | apply (function : Expr) (arguments : Args)
  | array (items : Args)
  | wait (value : Expr)
  | arrow (head : Head) (body : Body)

inductive Expr where
  | phrase (phrase : Phrase)
  | object (entries : Entries)
  | function (name : Option String) (parameters : List String) (body : Block)

inductive Body where
  | phrase (phrase : Phrase)
  | function (name : Option String) (parameters : List String) (body : Block)
  | block (body : Block)

inductive Args where
  | nil
  | cons (first : Expr) (rest : Args)

inductive Entry where
  | pair (key : EntryKey) (value : Expr)
  | short (name : String)
  | method (name : String) (parameters : List String) (body : Block)

inductive Entries where
  | nil
  | cons (first : Entry) (rest : Entries)

inductive Stmt where
  | declare (keyword : Keyword) (name : String) (value : Expr)
  | phrase (phrase : Phrase)
  | give (value : Expr)
  | branch (condition : Expr) (yes no : Block)
  | loop (condition : Expr) (body : Block)
  | guard (body : Block) (name : String) (handler : Block)
  | function (name : String) (parameters : List String) (body : Block)

/-- Statements, in braces or as a whole program. -/
inductive Block where
  | nil
  | cons (first : Stmt) (rest : Block)

end

/-! ## What is written -/

def Keyword.text : Keyword → String
  | .const => "const"
  | .let => "let"
  | .var => "var"

def EntryKey.key : EntryKey → Key
  | .name text => .name text
  | .string text => (.string, text)
  | .number text => (.number, text)

def printMore : List String → List Key
  | [] => []
  | name :: rest => .mark "," :: .name name :: printMore rest

def printNames : List String → List Key
  | [] => []
  | name :: rest => .name name :: printMore rest

def printParameters (names : List String) : List Key :=
  .mark "(" :: (printNames names ++ [.mark ")"])

def Head.print : Head → List Key
  | .one name => [.name name]
  | .many names => printParameters names

def printFunction (name : Option String) (parameters : List String) (body : List Key) : List Key :=
  .word "function" :: ((name.map Key.name).toList ++
    (printParameters parameters ++ (.mark openBrace :: (body ++ [.mark closeBrace]))))

mutual

def Phrase.print : Phrase → List Key
  | .name name => [.name name]
  | .number text => [(.number, text)]
  | .string text => [(.string, text)]
  | .group value => .mark "(" :: (value.print ++ [.mark ")"])
  | .sum left right =>
    .mark "(" :: (left.print ++ (.mark ")" :: .mark "+" :: .mark "(" :: (right.print ++
      [.mark ")"])))
  | .member value property => .mark "(" :: (value.print ++ [.mark ")", .mark ".", .name property])
  | .call function arguments =>
    .name function :: .mark "(" :: (arguments.print ++ [.mark ")"])
  | .apply function arguments =>
    .mark "(" :: (function.print ++ (.mark ")" :: .mark "(" :: (arguments.print ++ [.mark ")"])))
  | .array items => .mark "[" :: (items.print ++ [.mark "]"])
  | .wait value => .word "await" :: .mark "(" :: (value.print ++ [.mark ")"])
  | .arrow head body => head.print ++ (.mark "=>" :: body.print)

def Expr.print : Expr → List Key
  | .phrase phrase => phrase.print
  | .object entries => .mark openBrace :: (entries.print ++ [.mark closeBrace])
  | .function name parameters body => printFunction name parameters body.print

def Body.print : Body → List Key
  | .phrase phrase => phrase.print
  | .function name parameters body => printFunction name parameters body.print
  | .block body => .mark openBrace :: (body.print ++ [.mark closeBrace])

def Args.print : Args → List Key
  | .nil => []
  | .cons first rest => first.print ++ rest.printMore

def Args.printMore : Args → List Key
  | .nil => []
  | .cons first rest => .mark "," :: (first.print ++ rest.printMore)

def Entry.print : Entry → List Key
  | .pair key value => key.key :: .mark ":" :: value.print
  | .short name => [.name name]
  | .method name parameters body =>
    .name name :: (printParameters parameters ++
      (.mark openBrace :: (body.print ++ [.mark closeBrace])))

def Entries.print : Entries → List Key
  | .nil => []
  | .cons first rest => first.print ++ rest.printMore

def Entries.printMore : Entries → List Key
  | .nil => []
  | .cons first rest => .mark "," :: (first.print ++ rest.printMore)

def Stmt.print : Stmt → List Key
  | .declare keyword name value =>
    .word keyword.text :: .name name :: .mark "=" :: (value.print ++ [.mark ";"])
  | .phrase phrase => phrase.print ++ [.mark ";"]
  | .give value => .word "return" :: (value.print ++ [.mark ";"])
  | .branch condition yes no =>
    .word "if" :: .mark "(" :: (condition.print ++ (.mark ")" :: .mark openBrace ::
      (yes.print ++ (.mark closeBrace :: .word "else" :: .mark openBrace ::
        (no.print ++ [.mark closeBrace])))))
  | .loop condition body =>
    .word "while" :: .mark "(" :: (condition.print ++ (.mark ")" :: .mark openBrace ::
      (body.print ++ [.mark closeBrace])))
  | .guard body name handler =>
    .word "try" :: .mark openBrace :: (body.print ++ (.mark closeBrace :: .word "catch" ::
      .mark "(" :: .name name :: .mark ")" :: .mark openBrace ::
        (handler.print ++ [.mark closeBrace])))
  | .function name parameters body => printFunction (some name) parameters body.print

def Block.print : Block → List Key
  | .nil => []
  | .cons first rest => first.print ++ rest.print

end

/-! ## What is declared -/

structure Declared where
  /-- a `var` belongs to the nearest function, anything else to the block -/
  isVar : Bool
  name : String
  deriving Repr, DecidableEq

/-- The declarations that leave their block. -/
def hoisted (declares : List Declared) : List Declared :=
  declares.filter (·.isVar)

/-- The names that a block keeps. -/
def lexical (declares : List Declared) : List String :=
  (declares.filter (!·.isVar)).map (·.name)

mutual

def Stmt.declares : Stmt → List Declared
  | .declare keyword name _ => [⟨keyword == .var, name⟩]
  | .phrase _ | .give _ => []
  | .branch _ yes no => hoisted yes.declares ++ hoisted no.declares
  | .loop _ body => hoisted body.declares
  | .guard body _ handler => hoisted body.declares ++ hoisted handler.declares
  | .function name _ _ => [⟨false, name⟩]

def Block.declares : Block → List Declared
  | .nil => []
  | .cons first rest => first.declares ++ rest.declares

end

def Block.names (block : Block) : List String :=
  block.declares.map (·.name)

def Head.names : Head → List String
  | .one name => [name]
  | .many names => names

def Body.names : Body → List String
  | .phrase _ | .function _ _ _ => []
  | .block body => body.names

/-! ## What is free -/

/-- The uses of other names. -/
def without (names uses : List String) : List String :=
  uses.filter (· ∉ names)

mutual

def Phrase.free : Phrase → List String
  | .name name => [name]
  | .number _ | .string _ => []
  | .group value | .member value _ | .wait value => value.free
  | .sum left right => left.free ++ right.free
  | .call function arguments => function :: arguments.free
  | .apply function arguments => function.free ++ arguments.free
  | .array items => items.free
  | .arrow head body => without (head.names ++ body.names) body.free

def Expr.free : Expr → List String
  | .phrase phrase => phrase.free
  | .object entries => entries.free
  | .function name parameters body => without (name.toList ++ parameters ++ body.names) body.free

def Body.free : Body → List String
  | .phrase phrase => phrase.free
  | .function name parameters body => without (name.toList ++ parameters ++ body.names) body.free
  | .block body => body.free

def Args.free : Args → List String
  | .nil => []
  | .cons first rest => first.free ++ rest.free

def Entry.free : Entry → List String
  | .pair _ value => value.free
  | .short name => [name]
  | .method _ parameters body => without (parameters ++ body.names) body.free

def Entries.free : Entries → List String
  | .nil => []
  | .cons first rest => first.free ++ rest.free

def Stmt.free : Stmt → List String
  | .declare _ _ value | .give value => value.free
  | .phrase phrase => phrase.free
  | .branch condition yes no =>
    condition.free ++ (without (lexical yes.declares) yes.free ++
      without (lexical no.declares) no.free)
  | .loop condition body => condition.free ++ without (lexical body.declares) body.free
  | .guard body name handler =>
    without (lexical body.declares) body.free ++
      without (name :: lexical handler.declares) handler.free
  | .function _ parameters body => without (parameters ++ body.names) body.free

/-- The uses in a block; what the block itself declares is not taken away yet. -/
def Block.free : Block → List String
  | .nil => []
  | .cons first rest => first.free ++ rest.free

end

/-! ## What waits -/

mutual

def Phrase.waits : Phrase → Bool
  | .name _ | .number _ | .string _ | .arrow _ _ => false
  | .group value | .member value _ => value.waits
  | .sum left right => left.waits || right.waits
  | .call _ arguments => arguments.waits
  | .apply function arguments => function.waits || arguments.waits
  | .array items => items.waits
  | .wait _ => true

def Expr.waits : Expr → Bool
  | .phrase phrase => phrase.waits
  | .object entries => entries.waits
  | .function _ _ _ => false

def Args.waits : Args → Bool
  | .nil => false
  | .cons first rest => first.waits || rest.waits

def Entry.waits : Entry → Bool
  | .pair _ value => value.waits
  | .short _ | .method _ _ _ => false

def Entries.waits : Entries → Bool
  | .nil => false
  | .cons first rest => first.waits || rest.waits

end

mutual

def Stmt.waits : Stmt → Bool
  | .declare _ _ value | .give value => value.waits
  | .phrase phrase => phrase.waits
  | .branch condition yes no => condition.waits || (yes.waits || no.waits)
  | .loop condition body => condition.waits || body.waits
  | .guard body _ handler => body.waits || handler.waits
  | .function _ _ _ => false

def Block.waits : Block → Bool
  | .nil => false
  | .cons first rest => first.waits || rest.waits

end

end Program

end Bindery
