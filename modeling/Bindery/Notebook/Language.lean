/-
Notebook.Language -- the language of a cell

A cell says by its `type` attribute in which language it is written.  Without the
attribute it is a script.  Case and surrounding white space do not matter.
-/
import Bindery.Text.Blank
import Bindery.Text.Lowercase

namespace Bindery

open Text

inductive Language where
  | script
  | markdown
  | html
  | tex
  /-- a language that no rule covers, by its lower-case tag -/
  | other (tag : String)
  deriving Repr, DecidableEq

namespace Language

def ofAttribute : Option String → Language
  | none => .script
  | some value =>
    let tag := String.ofList (asciiLowercase (trim value.toList))
    if ["", "module", "text/javascript", "application/javascript",
        "application/vnd.observable.javascript"].contains tag then .script
    else if tag = "text/markdown" then .markdown
    else if tag = "text/html" then .html
    else if tag = "application/x-tex" ∨ tag = "text/x-tex" then .tex
    else .other tag

def tag : Language → String
  | .script => "javascript"
  | .markdown => "markdown"
  | .html => "html"
  | .tex => "tex"
  | .other tag => tag

end Language

end Bindery
