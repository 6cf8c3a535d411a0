/-
Json.Printer -- JSON values as text

Values are written over several lines, two spaces deeper at each level; an empty
array or object stays on one line.  A double is written by position when its first
digit stands between the fifth place behind the point and the sixteenth before it,
always with a point, and otherwise with an exponent that carries its sign.
-/
import Bindery.Json.Basic
import Bindery.Json.Quote
import Bindery.Json.Shortest

namespace Bindery.Json

/-- Which doubles are written by position: those whose first digit has one of these
powers of ten. -/
structure PositionalRange where
  first : Int
  last : Int

def positionalRange : PositionalRange := ⟨-5, 15⟩

def zeros (count : Nat) : String :=
  String.ofList (List.replicate count '0')

/-- Digits by position; `power` is the power of ten of the first digit. -/
def positional (digits : String) (power : Int) : String :=
  let count : Int := digits.length
  if power < 0 then "0." ++ zeros (-power - 1).toNat ++ digits
  else if count ≤ power + 1 then digits ++ zeros (power + 1 - count).toNat ++ ".0"
  else
    String.ofList (digits.toList.take (power + 1).toNat) ++ "." ++
      String.ofList (digits.toList.drop (power + 1).toNat)

def scientific (digits : String) (power : Int) : String :=
  let head := String.ofList (digits.toList.take 1)
  let tail := digits.toList.drop 1
  let point := if tail.isEmpty then "" else "." ++ String.ofList tail
  let sign := if power < 0 then "-" else "+"
  head ++ point ++ "e" ++ sign ++ toString power.natAbs

def printDouble (double : Double) : String :=
  let sign := if double.negative then "-" else ""
  if double.mantissa = 0 then sign ++ "0.0"
  else
    let decimal := shortest double
    let digits := toString decimal.digits
    let power : Int := decimal.power + digits.length - 1
    if positionalRange.first ≤ power ∧ power ≤ positionalRange.last then
      sign ++ positional digits power
    else sign ++ scientific digits power

def Number.print : Number → String
  | .integer value => toString value
  | .double value => printDouble value

def indent (level : Nat) : String :=
  String.ofList (List.replicate (2 * level) ' ')

def enclose (opener closer : String) (level : Nat) (lines : List String) : String :=
  if lines.isEmpty then opener ++ closer
  else
    opener ++ "\n" ++ ",\n".intercalate (lines.map (indent (level + 1) ++ ·)) ++ "\n" ++
      indent level ++ closer

mutual

def Value.print (level : Nat) : Value → String
  | .null => "null"
  | .bool true => "true"
  | .bool false => "false"
  | .number value => value.print
  | .string value => quote value
  | .array items => enclose "[" "]" level (printItems (level + 1) items)
  | .object members => enclose "\x7b" "\x7d" level (printMembers (level + 1) members)

def printItems (level : Nat) : List Value → List String
  | [] => []
  | item :: rest => item.print level :: printItems level rest

def printMembers (level : Nat) : List (String × Value) → List String
  | [] => []
  | (name, value) :: rest => (quote name ++ ": " ++ value.print level) :: printMembers level rest

end

/-- A value as the text of a file: several lines, the last one ended. -/
def render (value : Value) : String :=
  value.print 0 ++ "\n"

end Bindery.Json
