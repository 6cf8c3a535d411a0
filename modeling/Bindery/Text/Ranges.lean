/-
Text.Ranges -- sets of characters given by code point ranges

A character property of the Unicode standard is a list of closed ranges of code
points in ascending order.  A table gives the lengths of the ranges and of the gaps
between them (`Ranges.ofRuns`).  Membership walks the list and stops at the first
range that starts beyond the character, so the order of the list is what makes
the answer right: `Ranges.contains` of an ascending list is membership in one of
its ranges.
-/

namespace Bindery.Text

abbrev Ranges := List (Nat × Nat)

/-- The ranges of a table of runs: from `first` on, so many code points outside, so many inside,
and so on in turn. -/
def Ranges.ofRuns (first : Nat) : List Nat → Ranges
  | outside :: inside :: rest =>
    (first + outside, first + outside + inside - 1) ::
      Ranges.ofRuns (first + outside + inside) rest
  | _ => []

def Ranges.contains : Ranges → Nat → Bool
  | [], _ => false
  | (first, last) :: rest, point =>
    if point < first then false
    else if point ≤ last then true
    else Ranges.contains rest point

end Bindery.Text
