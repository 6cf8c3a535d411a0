/-
Notebook.Entity -- characters written as entities

Five characters have entities: the angle brackets, the two quotes, and the
ampersand, which starts every entity.  The ampersand's own entity is decoded last,
so that a text that spells out an entity is not decoded twice.
-/
import Bindery.Text.Replace

namespace Bindery.Notebook

open Text

def entities : List (String × Char) :=
  [("&lt;", '<'), ("&gt;", '>'), ("&quot;", '\x22'), ("&#39;", '\x27'), ("&apos;", '\x27'),
    ("&amp;", '&')]

def decodeEntities (text : List Char) : List Char :=
  entities.foldl (fun text entity => replaceAll entity.1.toList [entity.2] text) text

end Bindery.Notebook
