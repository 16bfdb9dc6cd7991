import Cognate.Command.Basic
import Cognate.Correspondence
import Cognate.Decoded.Basic
import Cognate.Diagnostic.Render
import Cognate.Grammar.Declaration
import Cognate.Text.HexBytes
import Cognate.Token.Stream

/-! # Running commands

A command reads its files, prints its answer, and ends with 0 if the answer is yes, with 1 if it is no or cannot be
given, with 2 if the arguments make no command, and with 101 if types cannot be compared at all. -/

namespace Cognate

/-- What a run leaves behind. -/
structure Outcome where
  code : Nat
  output : String
  complaint : String
deriving DecidableEq, Repr

/-- The bytes of a file, or why they cannot be read. -/
abbrev Reader := String → Except String (List UInt8)

/-- The end of a run without an answer: a last complaint, and the exit code. -/
structure Stop where
  last : String
  code : Nat := 1

/-- A step of a run: it adds to the complaints, and may end the run. -/
abbrev Run := EStateM Stop String

namespace Run

/-- Adds a complaint. -/
def say (text : String) : Run Unit := modify (· ++ text)

/-- Ends the run. -/
def stop {α : Type} (last : String) : Run α := throw { last }

/-- The lines of an answer, and whether it is a yes. -/
structure Answer where
  lines : List String
  positive : Bool

/-- Lines with their ends. -/
def printed (lines : List String) : String := String.join (lines.map (· ++ "\n"))

/-- What a run that starts without complaints leaves behind. -/
def outcome (run : Run Answer) : Outcome :=
  match run "" with
  | .ok answer said => ⟨if answer.positive then 0 else 1, printed answer.lines, said⟩
  | .error stop said => ⟨stop.code, "", said ++ printed ["error: " ++ stop.last]⟩

end Run

namespace Command

open Run

/-- The bytes of a file. -/
def bytesOf (read : Reader) (path : String) : Run (List UInt8) :=
  match read path with
  | .ok bytes => pure bytes
  | .error reason => stop s!"cannot read {path}: {reason}"

/-- The text of a file. -/
def textOf (read : Reader) (path : String) : Run String := do
  match String.fromUTF8? ⟨(← bytesOf read path).toArray⟩ with
  | some text => return text
  | none => stop s!"cannot read {path}: stream did not contain valid UTF-8"

/-- Declarations that were read, and their text. -/
structure Loaded where
  file : SourceFile
  unit : DeclUnit

/-- Shows where a text is at fault, and ends the run. -/
def refuse {α : Type} (fault : Fault) (file : Nat) (files : List SourceFile) (last : String) : Run α := do
  say (fault.report.render file files)
  stop last

/-- Reads the declarations of a file. -/
def load (read : Reader) (listsTokens : Bool) (path : String) (target : Target) : Run Loaded := do
  let text ← textOf read path
  let file : SourceFile := ⟨path, text⟩
  let check {α : Type} (outcome : Except Fault α) : Run α :=
    match outcome with
    | .ok a => pure a
    | .error fault => refuse fault 0 [file] s!"failed to parse {path}"
  if listsTokens then
    say s!"=== Tokens: {path} ===\n"
    say ((← check (listing text)) ++ "=== End Tokens ===\n\n")
  return ⟨file, ← check (DeclUnit.ofSource path target text)⟩

/-- The type that a text stands for among declarations. -/
def Loaded.site (l : Loaded) (text : String) : Run Site :=
  match l.unit.resolveType text with
  | (.ok t, u) => return ⟨u, t⟩
  | (.error fault, _) =>
    refuse fault 1 [l.file, ⟨"<type name>", text⟩] s!"'{text}' is neither a value nor a type in {l.unit.name}"

/-- The bytes of a value. -/
def Input.bytes (read : Reader) : Input → Run (List UInt8)
  | .typed hex =>
    match Text.hexBytes hex with
    | .ok bytes => pure bytes
    | .error fault => stop (fault.message hex)
  | .file path => bytesOf read path
  | .absent => stop "no bytes given; pass hex bytes or --file"

/-- The exit code where a comparison comes to no verdict. -/
def stopCode : Nat := 101

/-- A value that is declared, its type and its size. On the targets that a command knows, measuring the types of a text
never stops. -/
def valueLine (u : DeclUnit) (d : ValueDecl) : String :=
  let size := ((u.extent d.type).map fun e => toString e.bytes).getD "?"
  s!"{d.name}: {u.describe d.type} ({size} bytes)"

/-- Answers a question. -/
def answer (read : Reader) (listsTokens : Bool) : Command → Run Answer
  | .compare left right => do
    let a ← load read listsTokens left.path left.target
    let b ← load read listsTokens right.path right.target
    let x ← a.site left.type
    let y ← b.site right.type
    match corresponds x.unit x.type y.unit y.type with
    | .error reason => throw ⟨reason.message, stopCode⟩
    | .ok verdict =>
      let (word, sign) := if verdict then ("match", "==") else ("mismatch", "!=")
      return ⟨[s!"{word}: {x.unit.describe x.type} {sign} {y.unit.describe y.type}"], verdict⟩
  | .decode subject input withType => do
    let loaded ← load read listsTokens subject.path subject.target
    let x ← loaded.site subject.type
    let bytes ← Input.bytes read input
    let value := Decoded.ofBytes x.unit x.type bytes
    return ⟨[if withType then x.unit.renderTyped x.type (some bytes) else value.text], !value.isDegraded⟩
  | .values path target => do
    let loaded ← load read listsTokens path target
    return ⟨loaded.unit.values.toList.map (valueLine loaded.unit), true⟩

end Command

namespace Outcome

/-- Name and number of the program. -/
def versionLine : String := "retrace 0.1.0"

/-- How the program is called. -/
def usage : List String :=
  ["Usage: retrace [-v] [--dump-tokens] match FILE TYPE FILE TYPE [--target-a TARGET] [--target-b TARGET]",
   "       retrace [-v] [--dump-tokens] decode FILE TYPE (HEX | --file FILE) [--typed]",
   "       retrace [-v] [--dump-tokens] dump FILE [--target TARGET]",
   "Targets: " ++ ", ".intercalate (Target.presets.map Target.name)]

/-- What a call with these arguments leaves behind. -/
def ofArguments (read : Reader) (arguments : List String) : Outcome :=
  match Invocation.ofArguments arguments with
  | .ok call => (call.command.answer read call.listsTokens).outcome
  | .error .version => ⟨0, Run.printed [versionLine], ""⟩
  | .error .help => ⟨0, Run.printed usage, ""⟩
  | .error (.fault cause) => ⟨2, "", Run.printed (s!"error: {cause.message}" :: usage)⟩

end Outcome
end Cognate
