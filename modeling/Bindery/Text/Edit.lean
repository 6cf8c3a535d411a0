/-
Text.Edit -- replacing stretches of a text

An edit replaces the bytes between two positions by a text.  Edits come in
ascending order.  They are applied to a window of a source: an edit that does not
lie wholly inside the window, or that starts before the end of the one applied
last, is left out.
-/
import Bindery.Text.Bytes

namespace Bindery.Text

/-- A replacement of the bytes from `start` up to `stop`. -/
structure Edit where
  start : Nat
  stop : Nat
  text : String
  deriving Repr, DecidableEq

/-- Apply edits to the text that reaches from `cursor` to `stop`. -/
def applyFrom (stop : Nat) : List Edit → Nat → List Char → List Char
  | [], _, rest => rest
  | edit :: later, cursor, rest =>
    if edit.start < cursor ∨ stop < edit.stop then applyFrom stop later cursor rest
    else
      takeBytes (edit.start - cursor) rest ++ edit.text.toList ++
        applyFrom stop later edit.stop (dropBytes (edit.stop - cursor) rest)

/-- Apply the edits inside the window of the source from `start` up to `stop`. -/
def applyEdits (source : List Char) (start stop : Nat) (edits : List Edit) : List Char :=
  applyFrom stop edits start (slice start stop source)

end Bindery.Text
