/-
Notebook.Dedent -- a cell's text without its surroundings

A cell stands indented in the document, with line breaks around it.  Its text is
taken without the blank lines at both ends and without the indentation that all
lines with content share.  The shared indentation is counted in bytes; a line that
cannot be cut there, because it is shorter or because the cut falls inside a
character, loses all its leading white space instead.
-/
import Bindery.Text.Blank
import Bindery.Text.Bytes
import Bindery.Text.Lines

namespace Bindery.Notebook

open Text

def trimBlankLines (lines : List (List Char)) : List (List Char) :=
  ((lines.dropWhile isBlankText).reverse.dropWhile isBlankText).reverse

def indentOf (line : List Char) : Nat :=
  byteLength (line.takeWhile isBlank)

/-- The least indentation of the lines that are not blank. -/
def commonIndent (lines : List (List Char)) : Nat :=
  ((lines.filter (!isBlankText ·)).map indentOf).min?.getD 0

/-- The line without `indent` bytes, or without its white space when it cannot be
cut there. -/
def cutIndent (indent : Nat) (line : List Char) : List Char :=
  (dropBytes? indent line).getD (trimStart line)

/-- The text without blank lines around it and without common indentation. -/
def dedent (text : List Char) : List Char :=
  let inner := trimBlankLines (lines text)
  unlines (inner.map (cutIndent (commonIndent inner)))

end Bindery.Notebook
