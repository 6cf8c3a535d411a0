/-
Notebook.Document -- reading a notebook

A notebook document holds one `notebook` element with a script element for each
cell, and a title.  A script's attributes give the cell's identity, its language and
the names it declares; of two attributes of one name the later counts, and the
declared names of all `output` attributes add up.  Its content, in which an escaped
closing tag stands for a closing tag, gives the source.
-/
import Bindery.Cell.Basic
import Bindery.Notebook.Dedent
import Bindery.Notebook.Element
import Bindery.Notebook.Slug
import Bindery.Text.Affix

namespace Bindery

open Text

structure Notebook where
  title : Option String
  libraryName : String
  cells : List SourceCell
  deriving Repr, DecidableEq

namespace Notebook

/-- Why a document is no notebook. -/
inductive DocumentFault where
  | noNotebook
  | unclosedNotebook
  | unclosedScript
  deriving Repr, DecidableEq

def DocumentFault.message : DocumentFault → String
  | .noNotebook => "no <notebook> element found"
  | .unclosedNotebook => "<notebook> element is never closed"
  | .unclosedScript => "unterminated <script> element inside <notebook>"

def body (document : List Char) : Except DocumentFault (List Char) :=
  match firstMatch (openTag? "notebook") document with
  | none => .error .noNotebook
  | some (_, _, rest) =>
    match firstMatch (closeTag? "notebook") rest with
    | none => .error .unclosedNotebook
    | some (content, _) => .ok content

def titleOf (document : List Char) : Option String :=
  (firstMatch (element? "title") document).bind fun (_, element, _) =>
    (some (String.ofList (decodeEntities (trim element.content)))).filter (!·.isEmpty)

def libraryNameIn (document : String) : String :=
  libraryNameOf (titleOf document.toList)

/-! ## Cells -/

structure Header where
  id : Option String := none
  type : Option String := none
  declared : List String := []

def separatesNames (c : Char) : Bool :=
  c == ',' || c == ' ' || c == '\t' || c == '\n'

def namesIn (value : List Char) : List String :=
  (((splitBy separatesNames value).map trim).filter (!·.isEmpty)).map String.ofList

def addName (names : List String) (name : String) : List String :=
  if names.contains name then names else names ++ [name]

def Header.add (header : Header) (given : Attribute) : Header :=
  if given.name = "id" then { header with id := given.value }
  else if given.name = "type" then { header with type := given.value }
  else if given.name = "output" then
    { header with
      declared := (namesIn (given.value.elim [] String.toList)).foldl addName header.declared }
  else header

def startsView (source : List Char) : Bool :=
  match stripStart? "viewof".toList source with
  | some rest => rest.head?.any isBlank
  | none => false

def sourceOf (content : List Char) : List Char :=
  dedent (replaceAll "<\\/script".toList "</script".toList content)

def cellOf (index : Nat) (script : Element) : SourceCell :=
  let header := (attributes script.tag).foldl Header.add {}
  let source := sourceOf script.content
  { id := (header.id.filter (!·.isEmpty)).getD ("cell-" ++ toString index)
    index := index
    language := Language.ofAttribute header.type
    source := String.ofList source
    declared := header.declared
    isView := startsView source }

theorem length_script_lt {text before rest : List Char} {script : Element}
    (found : firstMatch (element? "script") text = some (before, script, rest)) :
    rest.length < text.length := by
  obtain ⟨here, whole, found⟩ := firstMatch_eq_some found
  have := length_element?_lt found
  have := congrArg List.length whole
  simp at this
  omega

def scripts (content : List Char) : List Element × List Char :=
  match _found : firstMatch (element? "script") content with
  | none => ([], content)
  | some (_, script, rest) =>
    let later := scripts rest
    (script :: later.1, later.2)
  termination_by content.length
  decreasing_by exact length_script_lt _found

def parse (document : String) : Except DocumentFault Notebook :=
  match body document.toList with
  | .error fault => .error fault
  | .ok content =>
    let (found, rest) := scripts content
    if (firstMatch (openStart? "script") rest).isSome then .error .unclosedScript
    else
      let title := titleOf document.toList
      .ok {
        title := title
        libraryName := libraryNameOf title
        cells := found.zipIdx.map fun (script, index) => cellOf index script }

end Notebook

end Bindery
