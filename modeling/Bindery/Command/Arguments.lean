/-
Command.Arguments -- options and operands of a command

An argument that starts with a dash is an option, a single dash excepted; two dashes
end the options.  A long option may carry its value behind an equals sign, and short
options may stand together, the last of them with its value.  An option that takes a
value and carries none takes the next argument, which may not start with a dash.  All
other arguments are operands.

Arguments are read from left to right, and the first that is out of place, or that
asks for help or for the version, decides.
-/

namespace Bindery.Command

inductive OptionKind where
  /-- it is given or not -/
  | flag
  /-- it has a value -/
  | value
  /-- it has a value each time it is given -/
  | values
  | help
  | version
  deriving Repr, DecidableEq

structure OptionSpec where
  long : String
  short : Option Char
  kind : OptionKind
  deriving Repr, DecidableEq

def OptionSpec.takesValue (spec : OptionSpec) : Bool :=
  spec.kind == .value || spec.kind == .values

structure Given where
  long : String
  value : Option String
  deriving Repr, DecidableEq

inductive UsageFault where
  | unexpected (argument : String)
  | missingValue (long : String)
  | unexpectedValue (long : String)
  | repeated (long : String)
  | missingInput
  | missingCommand
  deriving Repr, DecidableEq

def UsageFault.message : UsageFault → String
  | .unexpected argument => "unexpected argument '" ++ argument ++ "'"
  | .missingValue long => "a value is required for '--" ++ long ++ "'"
  | .unexpectedValue long => "no value is allowed for '--" ++ long ++ "'"
  | .repeated long => "'--" ++ long ++ "' cannot be used multiple times"
  | .missingInput => "no notebook is given"
  | .missingCommand => "no command is given"

inductive Stop where
  | help
  | version
  | fault (fault : UsageFault)
  deriving Repr, DecidableEq

structure Reading where
  /-- the options, in order -/
  given : List Given := []
  /-- the arguments that are not options, in order -/
  operands : List String := []
  /-- the option whose value is next -/
  pending : Option OptionSpec := none
  /-- whether two dashes were read -/
  optionsEnded : Bool := false
  deriving Repr, DecidableEq

namespace Reading

def give (reading : Reading) (spec : OptionSpec) (value : Option String) :
    Except Stop Reading :=
  let more : Reading :=
    { reading with given := reading.given ++ [⟨spec.long, value⟩], pending := none }
  match spec.kind with
  | .help => .error .help
  | .version => .error .version
  | .values => .ok more
  | .flag | .value =>
    if reading.given.any (·.long == spec.long) then .error (.fault (.repeated spec.long))
    else .ok more

def splitLong (text : List Char) : String × Option String :=
  (String.ofList (text.takeWhile (· != '=')),
    match text.dropWhile (· != '=') with
    | [] => none
    | _ :: value => some (String.ofList value))

def long (specs : List OptionSpec) (reading : Reading) (text : List Char) :
    Except Stop Reading :=
  let (name, value) := splitLong text
  match specs.find? (·.long == name) with
  | none => .error (.fault (.unexpected ("--" ++ name)))
  | some spec =>
    match spec.takesValue, value with
    | true, some value => reading.give spec (some value)
    | true, none => .ok { reading with pending := some spec }
    | false, some _ => .error (.fault (.unexpectedValue spec.long))
    | false, none => reading.give spec none

def shorts (specs : List OptionSpec) (reading : Reading) : List Char → Except Stop Reading
  | [] => .ok reading
  | c :: more =>
    match specs.find? (·.short == some c) with
    | none => .error (.fault (.unexpected (String.ofList ['-', c])))
    | some spec =>
      if spec.takesValue then
        match more with
        | [] => .ok { reading with pending := some spec }
        | '=' :: value => reading.give spec (some (String.ofList value))
        | value => reading.give spec (some (String.ofList value))
      else
        match reading.give spec none with
        | .error stop => .error stop
        | .ok reading => shorts specs reading more

def operand (most : Option Nat) (reading : Reading) (argument : String) : Except Stop Reading :=
  if most.any (· ≤ reading.operands.length) then .error (.fault (.unexpected argument))
  else .ok { reading with operands := reading.operands ++ [argument] }

def dashed (specs : List OptionSpec) (reading : Reading) (text : List Char) :
    Except Stop Reading :=
  match text with
  | ['-'] => .ok { reading with optionsEnded := true }
  | '-' :: name => reading.long specs name
  | letters => reading.shorts specs letters

def step (specs : List OptionSpec) (most : Option Nat) (reading : Reading) (argument : String) :
    Except Stop Reading :=
  if reading.optionsEnded then reading.operand most argument
  else
    match argument.toList, reading.pending with
    | '-' :: _ :: _, some spec => .error (.fault (.missingValue spec.long))
    | '-' :: c :: rest, none => reading.dashed specs (c :: rest)
    | _, some spec => reading.give spec (some argument)
    | _, none => reading.operand most argument

def steps (specs : List OptionSpec) (most : Option Nat) :
    Reading → List String → Except Stop Reading
  | reading, [] =>
    match reading.pending with
    | some spec => .error (.fault (.missingValue spec.long))
    | none => .ok reading
  | reading, argument :: rest =>
    match reading.step specs most argument with
    | .error stop => .error stop
    | .ok reading => steps specs most reading rest

def has (reading : Reading) (long : String) : Bool :=
  reading.given.any (·.long == long)

def values (reading : Reading) (long : String) : List String :=
  (reading.given.filter (·.long == long)).filterMap (·.value)

end Reading

end Bindery.Command
