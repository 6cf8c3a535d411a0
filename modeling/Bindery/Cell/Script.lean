/-
Cell.Script -- a script cell as a procedure

The body of the procedure depends on the form of the cell.  An expression is
returned; a lone block is the body itself; a program is followed by a `return` of
the names it declares at its top level, restricted to the declared names when there
are any.  The names it reads are the free names of the body, built-in names and its
own outputs left out.
-/
import Bindery.Cell.Basic
import Bindery.Cell.Form
import Bindery.Cell.ViewReference
import Bindery.Import.Scan
import Bindery.Name.Builtin
import Bindery.Scope.Analysis

namespace Bindery

open Text

namespace Script

def trimLineFeeds (text : List Char) : List Char :=
  ((text.dropWhile (· == '\n')).reverse.dropWhile (· == '\n')).reverse

def blockBody (source : List Char) (seq : TokenSeq) (opener closer : Nat) (edits : List Edit) :
    List Char :=
  let start := (seq.get? opener).elim 0 (·.stop)
  let stop := (seq.get? closer).elim 0 (·.start)
  trimLineFeeds (applyEdits source start stop edits)

/-- The byte position where the cell's last expression ends: in front of a final
semicolon, or at the end of the source. -/
def expressionStop (source : List Char) (seq : TokenSeq) : Nat :=
  match (seq.get? (seq.size - 1)).filter (·.isPunct ";") with
  | some semicolon => semicolon.start
  | none => byteLength source

/-- The body that returns the expression starting at a token, or the inside of a
lone block. -/
def expressionBody (source : List Char) (seq : TokenSeq) (expression : Nat) (edits : List Edit) :
    List Char :=
  match Form.loneBlock? seq expression with
  | some closer => blockBody source seq expression closer edits
  | none =>
    let start := (seq.get? expression).elim 0 (·.start)
    "return (\n".toList ++
      trimEnd (applyEdits source start (expressionStop source seq) edits) ++ "\n);".toList

/-- The output of a cell that does not name it itself: the first declared name. -/
def declaredOutput (declared : List String) : List String × CellShape :=
  match declared with
  | name :: _ => ([name], .single)
  | [] => ([], .anonymous)

def programOutputs (declared topLevel : List String) : List String :=
  if declared.isEmpty then topLevel else topLevel.filter declared.contains

def programShape : List String → CellShape
  | [] => .anonymous
  | [_] => .single
  | _ => .multiple

def returnStatement : List String → String
  | [] => ""
  | [name] => "\nreturn " ++ name ++ ";"
  | names => "\nreturn \x7b" ++ ", ".intercalate names ++ "\x7d;"

def formOutputs (form : Form) (declared : List String) : List String × CellShape :=
  match form with
  | .named name _ => ([name], .single)
  | .view name _ => ([controlName name, name], .viewPair)
  | .block _ _ | .expression => declaredOutput declared
  | .empty | .program => ([], .anonymous)

def formBody (form : Form) (source : List Char) (seq : TokenSeq) (edits : List Edit) : List Char :=
  match form with
  | .empty => []
  | .named _ expression | .view _ expression => expressionBody source seq expression edits
  | .block opener closer => blockBody source seq opener closer edits
  | .expression => expressionBody source seq 0 edits
  | .program => applyEdits source 0 (byteLength source) edits

def inputsOf (references outputs : List String) : List String :=
  (references.map inputName).filter fun name => !isBuiltin name && !outputs.contains name

def packageSet (refs : List PackageRef) : NameSet :=
  Sorted.ofList (refs.map (·.name))

/-- The versions that a cell pins; of two for one package the later counts. -/
def versionMap (refs : List PackageRef) : NameMap String :=
  Table.ofList (refs.filterMap fun ref => ref.version.map (ref.name, ·))

def lex (text : List Char) : Except SyntaxFault (List Token) :=
  (lexFrom {} text).mapError .lexing

def outputsOf (form : Form) (declared topLevel : List String) : List String × CellShape :=
  if form = .program then
    (programOutputs declared topLevel, programShape (programOutputs declared topLevel))
  else formOutputs form declared

def endingOf (form : Form) (outputs : List String) : String :=
  if form = .program then returnStatement outputs else ""

def assemble (cell : SourceCell) (form : Form) (imports : Import.Found) (body : List Char)
    (analysis : Scope.Analysis) : CompiledCell :=
  let outputs := outputsOf form cell.declared analysis.topLevel
  { index := cell.index
    outputs := outputs.1
    inputs := inputsOf analysis.references outputs.1
    body := String.ofList body ++ endingOf form outputs.1
    packages := packageSet imports.packages
    versions := versionMap imports.packages
    shape := outputs.2
    isAsync := analysis.awaits
    isGenerator := analysis.yields }

def compile (cell : SourceCell) : Except SyntaxFault CompiledCell := do
  let source := cell.source.toList
  let seq := TokenSeq.ofList (← lex source)
  let imports ← (Import.scan seq).mapError .malformedImport
  let form := Form.detect seq cell.isView
  let body ← (replaceViews (formBody form source seq imports.edits)).mapError .lexing
  return assemble cell form imports body (Scope.analyze (← lex body))

end Script

end Bindery
