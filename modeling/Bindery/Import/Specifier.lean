/-
Import.Specifier -- what a module specifier refers to

A specifier is a path, a package, or something else that is left alone.  A package
may be written bare, behind `npm:`, or as an address of a delivery network; the
last two forms may carry a query, a fragment and a final `/+esm`, which say nothing
about the package.
-/
import Bindery.Text.Affix
import Bindery.Text.Blank

namespace Bindery

open Text

structure PackageRef where
  /-- the package, possibly scoped -/
  name : String
  /-- the version or range, when one is pinned -/
  version : Option String
  /-- the path inside the package, empty or with a leading slash -/
  subpath : String
  deriving Repr, DecidableEq

namespace PackageRef

def bare (ref : PackageRef) : String :=
  ref.name ++ ref.subpath

def pinned (ref : PackageRef) : String :=
  match ref.version with
  | some version => ref.name ++ "@" ++ version ++ ref.subpath
  | none => ref.bare

end PackageRef

inductive Specifier where
  /-- a package; `wrapped` says that it came behind `npm:` or in an address -/
  | package (ref : PackageRef) (wrapped : Bool)
  /-- a relative or absolute path -/
  | path
  /-- any other address or scheme -/
  | external
  deriving Repr, DecidableEq

namespace Specifier

def wrappers : List String :=
  ["npm:", "https://cdn.jsdelivr.net/npm/", "https://unpkg.com/", "https://esm.sh/",
    "https://esm.run/"]

def splitLast? (c : Char) : List Char → Option (List Char × List Char)
  | [] => none
  | first :: rest =>
    match splitLast? c rest with
    | some (before, behind) => some (first :: before, behind)
    | none => if first = c then some ([], rest) else none

/-- The name with its version, and the path behind them.  A scoped name reaches to
its second slash, and without a first one it is no name. -/
def splitSubpath? (text : List Char) : Option (List Char × List Char) :=
  let head := text.takeWhile (· != '/')
  let rest := text.dropWhile (· != '/')
  if text.head? = some '@' then
    match rest with
    | [] => none
    | slash :: name =>
      some (head ++ slash :: name.takeWhile (· != '/'), name.dropWhile (· != '/'))
  else some (head, rest)

/-- The name and the version, which stands behind the last at sign that is not the
first character. -/
def splitVersion (head : List Char) : List Char × Option (List Char) :=
  match splitLast? '@' head with
  | some (name, version) =>
    if name.isEmpty then (head, none)
    else (name, if version.isEmpty then none else some version)
  | none => (head, none)

def isNameChar (c : Char) : Bool :=
  c.isAlphanum || c == '-' || c == '.' || c == '_' || c == '~' || c == '@' || c == '/'

def isName (name : List Char) : Bool :=
  !name.isEmpty && name.getLast? != some '/' && name.all isNameChar

def parseBare? (text : List Char) : Option PackageRef :=
  match splitSubpath? text with
  | none => none
  | some (head, subpath) =>
    let (name, version) := splitVersion head
    if isName name then
      some ⟨String.ofList name, version.map String.ofList, String.ofList subpath⟩
    else none

/-- What is left of a wrapped specifier: neither query nor fragment nor `/+esm`. -/
def unwrapTail (text : List Char) : List Char :=
  let rest := text.takeWhile fun c => c != '?' && c != '\x23'
  (stripEnd? "/+esm".toList rest).getD rest

def unwrap (text : List Char) : List Char × Bool :=
  match wrappers.findSome? (fun wrapper => stripStart? wrapper.toList text) with
  | some rest => (unwrapTail rest, true)
  | none => (text, false)

def ofTrimmed (text : List Char) : Specifier :=
  if "./".toList.isPrefixOf text ∨ "../".toList.isPrefixOf text ∨ text.head? = some '/' then .path
  else
    let (rest, wrapped) := unwrap text
    if rest.isEmpty ∨ rest.contains ':' ∨ rest.head? = some '\x23' then .external
    else match parseBare? rest with
      | some ref => .package ref wrapped
      | none => .external

def classify (text : String) : Specifier :=
  ofTrimmed (trim text.toList)

end Specifier

end Bindery
