import Cognate.Target

/-! # Arguments

A line of arguments as options and operands. An option is `--name` or `-n`; its value follows as the next argument, or
in the same one as `--name=value`, `-n=value` or `-nvalue`. Switches have no value, and several may share a dash. Behind
`--` there are only operands. Each option may be given once. -/

namespace Cognate.Command

/-- What an operand or the value of an option has to be. -/
inductive Kind where
  | text
  /-- Not empty. -/
  | path
  /-- The name of a preset. -/
  | target
deriving DecidableEq, Repr

def Kind.accepts (text : String) : Kind → Bool
  | .text => true
  | .path => !text.isEmpty
  | .target => (Target.named? text).isSome

/-- What an option does. -/
inductive Effect where
  | switch
  | value (kind : Kind)
  /-- Nothing behind these counts. -/
  | help | version
deriving DecidableEq, Repr

/-- An option, with or without a name of one letter. -/
structure Flag where
  name : String
  letter : Option Char
  effect : Effect
deriving DecidableEq, Repr

/-- Why arguments make no command. -/
inductive UsageFault where
  | unknownOption (option : String)
  | repeatedOption (name : String)
  | missingValue (name : String)
  | unwantedValue (name : String)
  | invalidValue (text : String)
  | extraOperand (text : String)
  | missingOperands
  | excludedOption (name : String)
  | missingCommand
  | unknownCommand (name : String)
deriving DecidableEq, Repr

/-- The fault in words. -/
def UsageFault.message : UsageFault → String
  | unknownOption option => s!"unknown option '{option}'"
  | repeatedOption name => s!"'--{name}' is given more than once"
  | missingValue name => s!"'--{name}' needs a value"
  | unwantedValue name => s!"'--{name}' takes no value"
  | invalidValue text => s!"invalid value '{text}'"
  | extraOperand text => s!"unexpected argument '{text}'"
  | missingOperands => "too few arguments"
  | excludedOption name => s!"'--{name}' does not go with the other arguments"
  | missingCommand => "no command"
  | unknownCommand name => s!"unknown command '{name}'"

/-- Why reading arguments ends without a command. -/
inductive Halt where
  | help
  | version
  | fault (cause : UsageFault)
deriving DecidableEq, Repr

/-- What the arguments so far say. Switches that are on have an empty value. -/
structure Reading where
  values : List (String × String) := []
  operands : List String := []
  /-- The option whose value is the next argument. -/
  pending : Option (Flag × Kind) := none
  /-- There was a `--`. -/
  operandsOnly : Bool := false

namespace Reading

def value? (r : Reading) (name : String) : Option String := r.values.lookup name

def isOn (r : Reading) (name : String) : Bool := (r.value? name).isSome

/-- Sets an option that is not set. -/
def set (r : Reading) (flag : Flag) (value : String) : Except Halt Reading :=
  if r.isOn flag.name then .error (.fault (.repeatedOption flag.name))
  else .ok { r with values := (flag.name, value) :: r.values, pending := none }

/-- Gives an option its value. -/
def give (r : Reading) (flag : Flag) (kind : Kind) (value : String) : Except Halt Reading :=
  if kind.accepts value then r.set flag value else .error (.fault (.invalidValue value))

/-- The next operand; `kinds` are those of all operands. -/
def addOperand (kinds : List Kind) (r : Reading) (text : String) : Except Halt Reading :=
  match kinds[r.operands.length]? with
  | none => .error (.fault (.extraOperand text))
  | some kind =>
    if kind.accepts text then .ok { r with operands := r.operands ++ [text] }
    else .error (.fault (.invalidValue text))

/-- An option by its name, with the value behind an equals sign. -/
def addNamed (known : List Flag) (r : Reading) (name : String) (value? : Option String) : Except Halt Reading :=
  match known.find? (·.name == name) with
  | none => .error (.fault (.unknownOption s!"--{name}"))
  | some flag =>
    match flag.effect, value? with
    | .value kind, some value => r.give flag kind value
    | .value kind, none => .ok { r with pending := some (flag, kind) }
    | _, some _ => .error (.fault (.unwantedValue name))
    | .switch, none => r.set flag ""
    | .help, none => .error .help
    | .version, none => .error .version

/-- Options by their letters; what follows the letter of an option with a value is that value. -/
def addLetters (known : List Flag) (r : Reading) : List Char → Except Halt Reading
  | [] => .ok r
  | c :: cs =>
    match known.find? (·.letter == some c) with
    | none => .error (.fault (.unknownOption s!"-{c}"))
    | some flag =>
      match flag.effect with
      | .switch => (r.set flag "").bind fun r => r.addLetters known cs
      | .help => .error .help
      | .version => .error .version
      | .value kind =>
        match cs with
        | [] => .ok { r with pending := some (flag, kind) }
        | '=' :: value => r.give flag kind (String.ofList value)
        | value => r.give flag kind (String.ofList value)

/-- One more argument. An option that waits for its value takes anything but an option. -/
def add (known : List Flag) (kinds : List Kind) (r : Reading) (argument : String) : Except Halt Reading :=
  let settled (other : Except Halt Reading) : Except Halt Reading :=
    match r.pending with
    | some (flag, _) => .error (.fault (.missingValue flag.name))
    | none => other
  if r.operandsOnly then r.addOperand kinds argument
  else
    match argument.toList with
    | ['-', '-'] => settled (.ok { r with operandsOnly := true })
    | '-' :: '-' :: cs =>
      let name := cs.takeWhile (· != '=')
      let value? := if name.length < cs.length then some (String.ofList (cs.drop (name.length + 1))) else none
      settled (r.addNamed known (String.ofList name) value?)
    | '-' :: c :: cs => settled (r.addLetters known (c :: cs))
    | _ =>
      match r.pending with
      | some (flag, kind) => r.give flag kind argument
      | none => r.addOperand kinds argument

/-- All arguments. -/
def ofArguments (known : List Flag) (kinds : List Kind) (arguments : List String) : Except Halt Reading := do
  let r ← arguments.foldlM (add known kinds) {}
  match r.pending with
  | some (flag, _) => .error (.fault (.missingValue flag.name))
  | none => .ok r

end Reading

/-- The options in front of the first operand, that operand, and what follows it. -/
def Reading.splitAtOperand (known : List Flag) (r : Reading) :
    List String → Except Halt (Reading × String × List String)
  | [] => .error (.fault .missingCommand)
  | argument :: rest =>
    if argument.startsWith "-" && argument != "-" && argument != "--" then
      (r.add known [] argument).bind fun r => splitAtOperand known r rest
    else .ok (r, argument, rest)

end Cognate.Command
