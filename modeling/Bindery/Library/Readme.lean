/-
Library.Readme -- the first text that a user of the library reads

It says how the library is installed and mounted, and lists the cells by the names
that a page can use for them.
-/
import Bindery.Library.Module

namespace Bindery

def codeSpan (text : String) : String :=
  "\x60" ++ text ++ "\x60"

/-- The key of a cell that a page can use whatever its outputs. -/
def cellKey (index : Nat) : String :=
  "cell-" ++ toString index

def CellEntry.readmeLine (entry : CellEntry) : String :=
  if entry.outputs.isEmpty then "- " ++ codeSpan (cellKey entry.index) ++ " (anonymous)\n"
  else "- " ++ ", ".intercalate (entry.outputs.map codeSpan) ++ "\n"

def renderReadme (package : String) (module : Module) : String :=
  "# " ++ package ++ "\n\n" ++
  "JavaScript library generated from the \x60" ++ module.libraryName ++ "\x60 notebook.\n\n" ++
  "## Install\n\n" ++
  "\x60\x60\x60sh\n" ++
  "npm install " ++ package ++ "\n" ++
  "\x60\x60\x60\n\n" ++
  "## Usage\n\n" ++
  "\x60\x60\x60js\n" ++
  "import \x7b mount \x7d from \"" ++ package ++ "\";\n\n" ++
  "const handle = mount(document.querySelector(\"#notebook\"), \x7b\n" ++
  "  targets: \x7b\x7d,\n" ++
  "  appendUnmatched: true,\n" ++
  "\x7d);\n\n" ++
  "// later\n" ++
  "handle.dispose();\n" ++
  "\x60\x60\x60\n\n" ++
  "Elements with a \x60data-cell=\"NAME\"\x60 attribute receive the output named \x60NAME\x60.\n" ++
  "\n## Cells\n\n" ++
  String.join (module.directory.map CellEntry.readmeLine)

end Bindery
