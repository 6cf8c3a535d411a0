/-
Import.Scan -- the imports of a cell

`scan` finds every static import, every `import(...)` and every `require(...)` with
a string argument in a cell.  It lists the packages they name, in order, and the
edits that make the cell a procedure body with bare specifiers: a static import
becomes a declaration that waits, the argument of `import(...)` loses its wrapper
and its version, and the argument of `require(...)` loses only its wrapper, because
the loader behind it resolves versions itself.
-/
import Bindery.Import.Specifier
import Bindery.Import.Statement
import Bindery.Text.Edit

namespace Bindery.Import

open Text

structure Found where
  /-- replacements in the source, in ascending order -/
  edits : List Edit := []
  packages : List PackageRef := []
  /-- the local names that static imports bind, in order -/
  locals : List String := []
  deriving Repr, DecidableEq

def Found.append (first later : Found) : Found :=
  ⟨first.edits ++ later.edits, first.packages ++ later.packages, first.locals ++ later.locals⟩

inductive Loader where
  | dynamicImport
  | require
  deriving Repr, DecidableEq

def Loader.replacement? (loader : Loader) (value : String) (ref : PackageRef) (wrapped : Bool) :
    Option String :=
  match loader with
  | .dynamicImport => if ref.bare = value then none else some ref.bare
  | .require => if wrapped then some ref.pinned else none

def callArgument (loader : Loader) (argument : Token) : Found :=
  match argument.stringValue? with
  | none => {}
  | some value =>
    match Specifier.classify value with
    | .package ref wrapped =>
      { edits := (loader.replacement? value ref wrapped).toList.map fun text =>
          ⟨argument.start, argument.stop, Json.quote text⟩
        packages := [ref] }
    | _ => {}

def ofStatement (start : Nat) (statement : Statement) : Found :=
  let (specifier, packages) := match Specifier.classify statement.specifier with
    | .package ref _ => (ref.bare, [ref])
    | _ => (statement.specifier, [])
  { edits := [⟨start, statement.stop, statement.clause.render specifier⟩]
    packages := packages
    locals := statement.clause.locals }

def argumentAt? (seq : TokenSeq) (index : Nat) : Option Token :=
  (seq.get? index).filter (·.kind == .string)

/-- The imports from an index on; the byte position of a static import that cannot
be read is the error. -/
def scanFrom (seq : TokenSeq) (index : Nat) : Except Nat Found :=
  match _here : seq.get? index with
  | none => .ok {}
  | some token =>
    if seq.prevHolds index Token.selects then scanFrom seq (index + 1)
    else if token.isKeyword "import" then
      if seq.punctAt (index + 1) "(" then
        (scanFrom seq (index + 2)).map
          (((argumentAt? seq (index + 2)).elim {} (callArgument .dynamicImport)).append)
      else if seq.punctAt (index + 1) "." then scanFrom seq (index + 2)
      else
        match _parsed : parse? seq index with
        | none => .error token.start
        | some statement =>
          (scanFrom seq statement.next).map ((ofStatement token.start statement).append)
    else if token.isIdent "require" ∧ seq.punctAt (index + 1) "(" then
      match argumentAt? seq (index + 2) with
      | some argument =>
        (scanFrom seq (index + 3)).map ((callArgument .require argument).append)
      | none => scanFrom seq (index + 1)
    else scanFrom seq (index + 1)
  termination_by seq.size - index
  decreasing_by
    all_goals have := TokenSeq.lt_of_get? _here
    case _ => omega
    case _ => omega
    case _ => omega
    case _ => have := lt_parse? _parsed; omega
    case _ => omega
    case _ => omega
    case _ => omega

def scan (seq : TokenSeq) : Except Nat Found :=
  scanFrom seq 0

end Bindery.Import
