/-
Text.Affix -- how a text begins and ends

Taking a known beginning or a known end off a text.
-/

namespace Bindery.Text

def stripStart? (start text : List Char) : Option (List Char) :=
  if start.isPrefixOf text then some (text.drop start.length) else none

def stripEnd? (stop text : List Char) : Option (List Char) :=
  if stop.isSuffixOf text then some (text.take (text.length - stop.length)) else none

end Bindery.Text
