/-
Import.Statement -- static imports

A static import names bindings and a module.  A cell becomes the body of a
procedure, where no static import may stand, so the statement is written anew as a
declaration that waits for the module (`Statement.render`).

`parse?` reads a statement whose keyword stands at a given index.  Attributes
behind the specifier and one semicolon belong to the statement.
-/
import Bindery.Json.Quote
import Bindery.Token.Brackets

namespace Bindery.Import

open Option

/-- A binding of one exported name: the name in the module and the local name. -/
structure Named where
  imported : String
  name : String
  deriving Repr, DecidableEq

/-- What stands between `import` and `from`. -/
structure Clause where
  /-- the local name of the default export -/
  default? : Option String := none
  /-- the local name of the whole module -/
  star? : Option String := none
  /-- the bindings in braces -/
  named : List Named := []
  deriving Repr, DecidableEq

structure Statement where
  clause : Clause
  specifier : String
  /-- the byte position behind the statement -/
  stop : Nat
  /-- the index of the token behind the statement -/
  next : Nat
  deriving Repr, DecidableEq

namespace Clause

def locals (clause : Clause) : List String :=
  clause.default?.toList ++ clause.star?.toList ++ clause.named.map (·.name)

def entries (clause : Clause) : List String :=
  (clause.default?.toList.map ("default: " ++ ·)) ++
    clause.named.map fun named =>
      if named.imported = named.name then named.name else named.imported ++ ": " ++ named.name

/-- The statement that binds the clause's names to the module behind `specifier`. -/
def render (clause : Clause) (specifier : String) : String :=
  let target := "await import(" ++ Json.quote specifier ++ ")"
  match clause.star?, clause.default? with
  | some star, some name =>
    "const \x7bdefault: " ++ name ++ "\x7d = " ++ target ++ ", " ++ star ++ " = " ++ target ++ ";"
  | some star, none => "const " ++ star ++ " = " ++ target ++ ";"
  | none, _ =>
    if clause.entries.isEmpty then target ++ ";"
    else "const \x7b" ++ ", ".intercalate clause.entries ++ "\x7d = " ++ target ++ ";"

end Clause

def splitAtCommas : List Token → List (List Token)
  | [] => [[]]
  | token :: rest =>
    if token.isPunct "," then [] :: splitAtCommas rest
    else match splitAtCommas rest with
      | [] => [[token]]
      | part :: parts => (token :: part) :: parts

/-- One entry of the braces of a clause; nothing for an empty entry. -/
def parseNamed? : List Token → Option (List Named)
  | [] => some []
  | [name] => if name.kind = .ident then some [⟨name.text, name.text⟩] else none
  | [imported, link, name] =>
    if link.isIdent "as" ∧ name.kind = .ident ∧
        (imported.kind = .ident ∨ imported.kind = .keyword ∨ imported.kind = .string) then
      some [⟨imported.text, name.text⟩]
    else none
  | _ => none

def parseBindings? (tokens : List Token) : Option (List Named) :=
  ((splitAtCommas tokens).mapM parseNamed?).map List.flatten

def tokensBetween (seq : TokenSeq) (first stop : Nat) : List Token :=
  (seq.tokens.toList.take stop).drop first

def parseDefault (seq : TokenSeq) (index : Nat) : Option String × Nat :=
  match (seq.get? index).filter (fun token => token.kind == .ident && token.text != "from") with
  | some token =>
    (some token.text, if seq.punctAt (index + 1) "," then index + 2 else index + 1)
  | none => (none, index)

/-- The rest of a clause behind the default: the whole module, braces, or nothing. -/
def parseGroup? (seq : TokenSeq) (index : Nat) (name : Option String) : Option (Clause × Nat) :=
  if seq.punctAt index "*" then
    if seq.holds (index + 1) (·.isIdent "as") then
      ((seq.get? (index + 2)).filter (·.kind == .ident)).map fun star =>
        ({ default? := name, star? := some star.text }, index + 3)
    else none
  else if seq.punctAt index openBrace then
    (seq.closer? index).bind fun close =>
      (parseBindings? (tokensBetween seq (index + 1) close)).map fun named =>
        ({ default? := name, named := named }, close + 1)
  else some ({ default? := name }, index)

/-- A clause with its `from`, and the index behind them.  A specifier that follows
the keyword at once has no clause. -/
def parseClause? (seq : TokenSeq) (index : Nat) : Option (Clause × Nat) :=
  if seq.holds index (·.kind == .string) then some ({}, index)
  else
    let (name, next) := parseDefault seq index
    (parseGroup? seq next name).bind fun (clause, next) =>
      if seq.holds next (·.isIdent "from") then some (clause, next + 1) else none

/-- The byte position and the index behind attributes, if they stand at an index. -/
def afterAttributes (seq : TokenSeq) (stop index : Nat) : Nat × Nat :=
  match (if seq.holds index (fun token => token.isKeyword "with" || token.isIdent "assert") &&
      seq.punctAt (index + 1) openBrace then seq.closer? (index + 1) else none) with
  | some close => ((seq.get? close).elim stop (·.stop), close + 1)
  | none => (stop, index)

/-- The byte position and the index behind a semicolon, if one stands at an index. -/
def afterSemicolon (seq : TokenSeq) (stop index : Nat) : Nat × Nat :=
  match (seq.get? index).filter (·.isPunct ";") with
  | some semicolon => (semicolon.stop, index + 1)
  | none => (stop, index)

/-- The end of a statement whose specifier ends at byte `stop` before the token at
`index`: attributes, then one semicolon. -/
def statementEnd (seq : TokenSeq) (stop index : Nat) : Nat × Nat :=
  afterSemicolon seq (afterAttributes seq stop index).1 (afterAttributes seq stop index).2

def parse? (seq : TokenSeq) (index : Nat) : Option Statement :=
  (parseClause? seq (index + 1)).bind fun (clause, position) =>
    ((seq.get? position).filter (·.kind == .string)).bind fun token =>
      token.stringValue?.map fun value =>
        let (stop, next) := statementEnd seq token.stop (position + 1)
        ⟨clause, value, stop, next⟩

/-! ## The statement ends behind its keyword -/

theorem le_parseDefault (seq : TokenSeq) (index : Nat) : index ≤ (parseDefault seq index).2 := by
  unfold parseDefault
  split
  · dsimp only
    split <;> omega
  · exact Nat.le_refl _

theorem le_parseGroup? {seq : TokenSeq} {index next : Nat} {name : Option String} {clause : Clause}
    (found : parseGroup? seq index name = some (clause, next)) : index ≤ next := by
  unfold parseGroup? at found
  split at found
  · split at found
    · simp only [map_eq_some_iff, Prod.mk.injEq] at found
      obtain ⟨_, _, _, rfl⟩ := found
      omega
    · cases found
  · split at found
    · simp only [bind_eq_some_iff, map_eq_some_iff, Prod.mk.injEq] at found
      obtain ⟨close, closes, _, _, _, rfl⟩ := found
      have := TokenSeq.lt_closer closes
      omega
    · simp only [Option.some.injEq, Prod.mk.injEq] at found
      omega

theorem le_parseClause? {seq : TokenSeq} {index next : Nat} {clause : Clause}
    (found : parseClause? seq index = some (clause, next)) : index ≤ next := by
  unfold parseClause? at found
  split at found
  · simp only [Option.some.injEq, Prod.mk.injEq] at found
    omega
  · simp only [bind_eq_some_iff] at found
    obtain ⟨⟨inner, behind⟩, group, rest⟩ := found
    have := le_parseDefault seq index
    have := le_parseGroup? group
    split at rest
    · simp only [Option.some.injEq, Prod.mk.injEq] at rest
      omega
    · cases rest

theorem le_afterAttributes (seq : TokenSeq) (stop index : Nat) :
    index ≤ (afterAttributes seq stop index).2 := by
  unfold afterAttributes
  split
  · next close found =>
    have : index + 1 < close := by
      split at found
      · exact TokenSeq.lt_closer found
      · cases found
    dsimp only
    omega
  · exact Nat.le_refl _

theorem le_afterSemicolon (seq : TokenSeq) (stop index : Nat) :
    index ≤ (afterSemicolon seq stop index).2 := by
  unfold afterSemicolon
  split <;> (dsimp only; omega)

theorem le_statementEnd (seq : TokenSeq) (stop index : Nat) :
    index ≤ (statementEnd seq stop index).2 :=
  Nat.le_trans (le_afterAttributes seq stop index) (le_afterSemicolon seq _ _)

theorem lt_parse? {seq : TokenSeq} {index : Nat} {statement : Statement}
    (found : parse? seq index = some statement) : index < statement.next := by
  unfold parse? at found
  simp only [bind_eq_some_iff, map_eq_some_iff] at found
  obtain ⟨⟨clause, behind⟩, head, token, _, value, _, rfl⟩ := found
  have := le_parseClause? head
  have := le_statementEnd seq token.stop (behind + 1)
  dsimp only at this ⊢
  omega

end Bindery.Import
