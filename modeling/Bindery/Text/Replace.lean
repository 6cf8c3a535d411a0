/-
Text.Replace -- replacing every occurrence of a word

The occurrences of a word are found from left to right and do not overlap.
-/

namespace Bindery.Text

/-- Replace every occurrence of `word`, after `skip` characters that belong to the
occurrence found last. -/
def replaceFrom (word replacement : List Char) : Nat → List Char → List Char
  | _, [] => []
  | skip + 1, _ :: rest => replaceFrom word replacement skip rest
  | 0, c :: rest =>
    if word.isPrefixOf (c :: rest) then
      replacement ++ replaceFrom word replacement (word.length - 1) rest
    else c :: replaceFrom word replacement 0 rest

def replaceAll (word replacement text : List Char) : List Char :=
  replaceFrom word replacement 0 text

end Bindery.Text
