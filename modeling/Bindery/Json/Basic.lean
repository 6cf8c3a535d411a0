/-
Json.Basic -- JSON values

A JSON value keeps the order of an object's members, because a manifest is written
back with its members where they were.  A member is put in by `Members.insert`: it
replaces the value of a member of the same name in place, and is added at the end
otherwise.
-/
import Bindery.Json.Double

namespace Bindery.Json

/-- A number: an integer of 64 bits, or a double. -/
inductive Number where
  | integer (value : Int)
  | double (value : Double)
  deriving Repr, DecidableEq

inductive Value where
  | null
  | bool (value : Bool)
  | number (value : Number)
  | string (value : String)
  | array (items : List Value)
  | object (members : List (String × Value))
  deriving Repr

abbrev Members := List (String × Value)

namespace Members

def find? (name : String) : Members → Option Value
  | [] => none
  | (key, value) :: rest => if name = key then some value else Members.find? name rest

def insert (name : String) (value : Value) : Members → Members
  | [] => [(name, value)]
  | (key, old) :: rest =>
    if name = key then (key, value) :: rest else (key, old) :: Members.insert name value rest

/-- The members with one put in at the end, unless there is one of its name. -/
def insertIfAbsent (name : String) (value : Value) (members : Members) : Members :=
  if (members.find? name).isSome then members else members ++ [(name, value)]

end Members

def Value.member? (name : String) : Value → Option Value
  | .object members => Members.find? name members
  | _ => none

def Value.string? : Value → Option String
  | .string value => some value
  | _ => none

end Bindery.Json
