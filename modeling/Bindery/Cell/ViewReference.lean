/-
Cell.ViewReference -- references to controls

Inside a cell `viewof NAME` is a reference to the control of a view.  Before the
cell is analysed each such pair of identifiers is replaced by the one identifier
that stands for the control.
-/
import Bindery.Name.View
import Bindery.Text.Edit
import Bindery.Token.Lexer

namespace Bindery

open Text

def viewEdits (before : Option Token) : List Token → List Edit
  | view :: name :: rest =>
    let later := viewEdits (some view) (name :: rest)
    if view.isIdent "viewof" ∧ name.kind = .ident ∧ ¬ before.any Token.selects then
      ⟨view.start, name.stop, viewParameterMark ++ name.text⟩ :: later
    else later
  | _ => []

def replaceViews (text : List Char) : Except LexError (List Char) :=
  (lexFrom {} text).map fun tokens =>
    applyEdits text 0 (byteLength text) (viewEdits none tokens)

end Bindery
