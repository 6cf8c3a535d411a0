/-
Text.Lines -- lines and parts of a text

A line ends at a line feed, and a carriage return in front of the line feed belongs
to the line's end.  The empty text has no line, and a final line feed starts none.
-/

namespace Bindery.Text

def lines : List Char → List (List Char)
  | [] => []
  | '\n' :: rest => [] :: lines rest
  | '\r' :: '\n' :: rest => [] :: lines rest
  | c :: rest =>
    match lines rest with
    | [] => [[c]]
    | line :: more => (c :: line) :: more

def unlines : List (List Char) → List Char
  | [] => []
  | [line] => line
  | line :: more => line ++ '\n' :: unlines more

def splitBy (separates : Char → Bool) : List Char → List (List Char)
  | [] => [[]]
  | c :: rest =>
    if separates c then [] :: splitBy separates rest
    else match splitBy separates rest with
      | [] => [[c]]
      | part :: parts => (c :: part) :: parts

end Bindery.Text
