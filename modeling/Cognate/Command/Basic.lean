import Cognate.Command.Arguments

/-! # Commands

What can be asked on a command line: whether the types of two texts correspond, what bytes say as a value of a type, and
which values a text declares. -/

namespace Cognate

/-- A type in the declarations of a file, as a value or a type name. -/
structure Subject where
  path : String
  type : String
  target : Target
deriving Repr

/-- Where the bytes of a value come from. -/
inductive Input where
  | absent
  | typed (hex : String)
  | file (path : String)
deriving Repr

/-- A question. -/
inductive Command where
  | compare (left right : Subject)
  | decode (subject : Subject) (input : Input) (withType : Bool)
  | values (path : String) (target : Target)
deriving Repr

/-- A question, and whether the tokens of its files are listed on the way. -/
structure Invocation where
  command : Command
  listsTokens : Bool
deriving Repr

namespace Command

/-! ## Options and operands -/

/-- Options that every command has. -/
def sharedFlags : List Flag :=
  [⟨"verbose", some 'v', .switch⟩, ⟨"dump-tokens", none, .switch⟩, ⟨"help", some 'h', .help⟩]

/-- Options in front of the command. -/
def leadingFlags : List Flag := sharedFlags ++ [⟨"version", some 'V', .version⟩]

/-- The preset that an option names, or the machine's own. -/
def targetOf (r : Reading) (name : String) : Target := ((r.value? name).bind Target.named?).getD .host

/-- `match` with two files, a type in each, and their targets. -/
def readCompare (arguments : List String) : Except Halt (Reading × Command) := do
  let flags := sharedFlags ++ [⟨"target-a", none, .value .target⟩, ⟨"target-b", none, .value .target⟩]
  let r ← Reading.ofArguments flags [.path, .text, .path, .text] arguments
  match r.operands with
  | [a, x, b, y] => return (r, .compare ⟨a, x, targetOf r "target-a"⟩ ⟨b, y, targetOf r "target-b"⟩)
  | _ => throw (.fault .missingOperands)

/-- `decode` with a file, a type in it, and bytes as digits or in a file. -/
def readDecode (arguments : List String) : Except Halt (Reading × Command) := do
  let flags := sharedFlags ++ [⟨"file", some 'f', .value .path⟩, ⟨"typed", none, .switch⟩]
  let r ← Reading.ofArguments flags [.path, .text, .text] arguments
  let decode (a x : String) (input : Input) := (r, Command.decode ⟨a, x, .host⟩ input (r.isOn "typed"))
  match r.operands, r.value? "file" with
  | [_, _, _], some _ => throw (.fault (.excludedOption "file"))
  | [a, x, hex], none => return decode a x (.typed hex)
  | [a, x], some path => return decode a x (.file path)
  | [a, x], none => return decode a x .absent
  | _, _ => throw (.fault .missingOperands)

/-- `dump` with a file and its target. -/
def readValues (arguments : List String) : Except Halt (Reading × Command) := do
  let r ← Reading.ofArguments (sharedFlags ++ [⟨"target", some 't', .value .target⟩]) [.path] arguments
  match r.operands with
  | [a] => return (r, .values a (targetOf r "target"))
  | _ => throw (.fault .missingOperands)

/-- The words behind `help`: nothing or one command. -/
def readHelp (arguments : List String) : Except Halt (Reading × Command) :=
  match arguments with
  | [] | ["match"] | ["decode"] | ["dump"] | ["help"] => .error .help
  | name :: _ => .error (.fault (.unknownCommand name))

/-- The files that a question is about. -/
def paths : Command → List String
  | compare left right => [left.path, right.path]
  | decode subject (.file path) _ => [subject.path, path]
  | decode subject _ _ => [subject.path]
  | values path _ => [path]

end Command

open Command in
/-- The question that arguments ask. -/
def Invocation.ofArguments (arguments : List String) : Except Halt Invocation := do
  let (leading, name, rest) ← Reading.splitAtOperand leadingFlags {} arguments
  let (own, command) ←
    match name with
    | "match" => readCompare rest
    | "decode" => readDecode rest
    | "dump" => readValues rest
    | "help" => readHelp rest
    | _ => throw (.fault (.unknownCommand name))
  return ⟨command, leading.isOn "dump-tokens" || own.isOn "dump-tokens"⟩

end Cognate
