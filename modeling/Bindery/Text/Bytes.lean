/-
Text.Bytes -- positions in a text, counted in bytes

Positions in a text are byte offsets into its UTF-8 form.  A text is taken apart
as a list of characters, so a position only matters when it falls between two
characters; `dropBytes?` says so by failing inside a character.
-/

namespace Bindery.Text

def byteLength : List Char → Nat
  | [] => 0
  | c :: rest => c.utf8Size + byteLength rest

/-- The text behind the first `count` bytes; nothing when the text is shorter or
the position falls inside a character. -/
def dropBytes? : Nat → List Char → Option (List Char)
  | 0, text => some text
  | _ + 1, [] => none
  | count + 1, c :: rest =>
    if c.utf8Size ≤ count + 1 then dropBytes? (count + 1 - c.utf8Size) rest else none
  termination_by _ text => text.length

def takeBytes : Nat → List Char → List Char
  | _, [] => []
  | count, c :: rest => if count = 0 then [] else c :: takeBytes (count - c.utf8Size) rest

def dropBytes : Nat → List Char → List Char
  | _, [] => []
  | count, c :: rest => if count = 0 then c :: rest else dropBytes (count - c.utf8Size) rest

def slice (start stop : Nat) (text : List Char) : List Char :=
  takeBytes (stop - start) (dropBytes start text)

theorem byteLength_append (left right : List Char) :
    byteLength (left ++ right) = byteLength left + byteLength right := by
  induction left with
  | nil => simp [byteLength]
  | cons c rest ih => simp [byteLength, ih, Nat.add_assoc]

end Bindery.Text
