/-
Cell.Markup -- a markup cell as a procedure

A cell in Markdown, HTML or TeX is a text with interpolations between a dollar sign
with a brace and the closing brace.  Its procedure returns a template literal under
the language's tag: the text with backquotes, backslashes and openings of
substitutions escaped, and the interpolations as they are.
-/
import Bindery.Cell.Script

namespace Bindery

open Text

namespace Markup

inductive Segment where
  | text (content : List Char)
  | interpolation (expression : List Char)
  deriving Repr, DecidableEq

def splitOpening? : List Char → Option (List Char × List Char)
  | [] => none
  | '$' :: '\x7b' :: rest => some ([], rest)
  | c :: rest => (splitOpening? rest).map (Scan.keep [c])

def isQuote (c : Char) : Bool :=
  c == '\x22' || c == '\x27' || c == '\x60'

/-- An interpolation up to its closing brace, which is in neither part.  `depth`
counts the braces open inside it, and `quote` is the mark of the quotation the text
stands in. -/
def interpolationTail : Nat → Option Char → List Char → Option (List Char × List Char)
  | _, _, [] => none
  | depth, some quote, c :: rest =>
    if c = '\\' then
      match rest with
      | [] => none
      | escaped :: rest =>
        (interpolationTail depth (some quote) rest).map (Scan.keep [c, escaped])
    else if c = quote then (interpolationTail depth none rest).map (Scan.keep [c])
    else (interpolationTail depth (some quote) rest).map (Scan.keep [c])
  | depth, none, c :: rest =>
    if c = '\x7b' then (interpolationTail (depth + 1) none rest).map (Scan.keep [c])
    else if c = '\x7d' then
      match depth with
      | 0 => some ([], rest)
      | depth + 1 => (interpolationTail depth none rest).map (Scan.keep [c])
    else if isQuote c then (interpolationTail depth (some c) rest).map (Scan.keep [c])
    else (interpolationTail depth none rest).map (Scan.keep [c])

def textSegment (content : List Char) : List Segment :=
  if content.isEmpty then [] else [.text content]

theorem length_splitOpening?_lt {source : List Char} :
    ∀ {parts : List Char × List Char}, splitOpening? source = some parts →
      parts.2.length < source.length := by
  fun_induction splitOpening? source with
  | case1 => simp
  | case2 rest =>
    rintro parts ⟨⟩
    show rest.length < rest.length + 1 + 1
    omega
  | case3 c rest _ ih =>
    intro parts found
    obtain ⟨inner, found', rfl⟩ := Option.map_eq_some_iff.1 found
    have := ih found'
    simp [Scan.keep]
    omega

theorem length_interpolationTail_le {depth : Nat} {quote : Option Char} {source : List Char} :
    ∀ {parts : List Char × List Char}, interpolationTail depth quote source = some parts →
      parts.2.length ≤ source.length := by
  fun_induction interpolationTail depth quote source with
  | case1 => simp
  | case2 => simp
  | case7 =>
    rintro parts ⟨⟩
    simp
  | _ =>
    rename_i ih
    intro parts found
    obtain ⟨inner, found', rfl⟩ := Option.map_eq_some_iff.1 found
    have := ih found'
    simp [Scan.keep]
    omega

/-- The segments of a markup cell.  An interpolation that never ends is text, with
everything behind it. -/
def segments (source : List Char) : List Segment :=
  match _opened : splitOpening? source with
  | none => textSegment source
  | some (before, behind) =>
    match _closed : interpolationTail 0 none behind with
    | none => textSegment source
    | some (expression, rest) =>
      textSegment before ++ .interpolation expression :: segments rest
  termination_by source.length
  decreasing_by
    have := length_splitOpening?_lt _opened
    have := length_interpolationTail_le _closed
    simp at *
    omega

def escapeText : List Char → List Char
  | [] => []
  | '$' :: '\x7b' :: rest => '\\' :: '$' :: '\x7b' :: escapeText rest
  | c :: rest =>
    if c = '\\' ∨ c = '\x60' then '\\' :: c :: escapeText rest else c :: escapeText rest

/-- A template under construction: its text, the names it reads and whether it
waits. -/
structure Template where
  text : List Char := []
  inputs : List String
  isAsync : Bool := false

def addInput (inputs : List String) (name : String) : List String :=
  if isBuiltin name || inputs.contains name then inputs else inputs ++ [name]

def addSegment (template : Template) : Segment → Except SyntaxFault Template
  | .text content => .ok { template with text := template.text ++ escapeText content }
  | .interpolation expression => do
      let expression ← (replaceViews expression).mapError .lexing
      let tokens ← Script.lex ("return (".toList ++ expression ++ ");".toList)
      let analysis := Scope.analyze tokens
      return {
        text := template.text ++ '$' :: '\x7b' :: expression ++ ['\x7d']
        inputs := (analysis.references.map inputName).foldl addInput template.inputs
        isAsync := template.isAsync || analysis.awaits }

def compile (tag : String) (cell : SourceCell) : Except SyntaxFault CompiledCell := do
  let template ← (segments cell.source.toList).foldlM addSegment { inputs := [tag] }
  let (outputs, shape) := Script.declaredOutput cell.declared
  return {
    index := cell.index
    outputs := outputs
    inputs := template.inputs.filter fun name => !outputs.contains name
    body := "return " ++ tag ++ "\x60" ++ String.ofList template.text ++ "\x60;"
    packages := []
    versions := []
    shape := shape
    isAsync := template.isAsync
    isGenerator := false }

end Markup

def SourceCell.compile (cell : SourceCell) : Except CellError CompiledCell :=
  match cell.language with
  | .script => (Script.compile cell).mapError (.badSyntax cell.index)
  | .markdown => (Markup.compile "md" cell).mapError (.badSyntax cell.index)
  | .html => (Markup.compile "html" cell).mapError (.badSyntax cell.index)
  | .tex => (Markup.compile "tex" cell).mapError (.badSyntax cell.index)
  | .other tag => .error (.unsupportedLanguage cell.index tag)

def errorOf? : Except CellError CompiledCell → Option CellError
  | .error error => some error
  | .ok _ => none

/-- The cells that compile and the errors of those that do not, both in order.  An error
of a cell is always recoverable (`Error.isRecoverable`), so it never ends the others. -/
def compileAll (cells : List SourceCell) : List CompiledCell × List CellError :=
  let results := cells.map SourceCell.compile
  (results.filterMap Except.toOption, results.filterMap errorOf?)

end Bindery
