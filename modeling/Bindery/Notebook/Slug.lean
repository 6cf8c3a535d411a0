/-
Notebook.Slug -- the name of a library

A library is named after its notebook's title: the title's runs of letters and
numbers, in lower case, with a dash between two of them.
-/
import Bindery.Text.Lines
import Bindery.Text.Lowercase
import Bindery.Text.Numeric

namespace Bindery.Notebook

open Text

def words (text : List Char) : List (List Char) :=
  (splitBy (fun c => !isAlphanumeric c) text).filter (!·.isEmpty)

def slugify (title : String) : String :=
  "-".intercalate ((words title.toList).map fun word => String.ofList (word.flatMap lowercase))

def defaultLibraryName : String := "notebook"

def libraryNameOf (title : Option String) : String :=
  ((title.map slugify).filter (!·.isEmpty)).getD defaultLibraryName

end Bindery.Notebook
