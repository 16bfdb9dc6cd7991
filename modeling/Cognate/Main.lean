import Cognate.Command.Run

/-! # The program

Reads the files that the arguments name, and prints what `Outcome.ofArguments` says. -/

namespace Cognate

/-- What the system says about a failed read. -/
def systemText : IO.Error → String
  | .alreadyExists _ code text | .resourceExhausted _ code text | .inappropriateType _ code text
  | .noSuchThing _ code text | .invalidArgument _ code text | .permissionDenied _ code text
  | .noFileOrDirectory _ code text | .interrupted _ code text | .otherError code text | .resourceBusy code text
  | .resourceVanished code text | .unsupportedOperation code text | .hardwareFault code text
  | .unsatisfiedConstraints code text | .illegalOperation code text | .protocolError code text
  | .timeExpired code text => s!"{text} (os error {code})"
  | .unexpectedEof => "unexpected end of file"
  | .userError text => text

/-- The bytes of a file, or what the system says. -/
def readFile (path : String) : IO (Except String (List UInt8)) := do
  match ← (IO.FS.withFile path .read (·.readBinToEnd)).toBaseIO with
  | .ok bytes => return .ok bytes.toList
  | .error e => return .error (systemText e)

end Cognate

open Cognate in
def main (arguments : List String) : IO UInt32 := do
  let paths := match Invocation.ofArguments arguments with
    | .ok call => call.command.paths
    | .error _ => []
  let files ← paths.mapM fun path => return (path, ← readFile path)
  let read (path : String) := (files.lookup path).getD (.error "not read")
  let outcome := Outcome.ofArguments read arguments
  (← IO.getStderr).putStr outcome.complaint
  (← IO.getStdout).putStr outcome.output
  return outcome.code.toUInt32
