import Cognate.Fault

/-! # Diagnostics

What is told about a text that is not read: a headline, the place in the text, and notes. -/

namespace Cognate

/-- Why a text was not read. -/
inductive Report where
  | fault (kind : FaultKind) (message : String) (span : Span)
  /-- There is no text. -/
  | unreadable (message : String)
deriving Repr

def Fault.report (f : Fault) : Report := .fault f.cause.kind f.cause.message f.span

/-- A span of a file, and what is said about it. -/
structure Label where
  file : Nat
  span : Span
  message : String
deriving Repr

/-- A headline, with a place or with notes. -/
structure Diagnostic where
  title : String
  label : Option Label
  notes : List String
deriving Repr

/-- The headline of faults of a stage. -/
def FaultKind.title : FaultKind → String
  | .lexical => "unrecognized input"
  | .syntactic => "malformed declaration"
  | .semantic => "invalid declaration"
  | .typing => "inconsistent type"

namespace Report

/-- On one line. -/
def text : Report → String
  | fault _ message span => s!"{message} (bytes {span.text})"
  | unreadable message => message

/-- The report on a file of that number. -/
def diagnostic (file : Nat) : Report → Diagnostic
  | fault kind message span => ⟨kind.title, some ⟨file, span, message⟩, []⟩
  | unreadable message => ⟨"cannot read declarations", none, [message]⟩

end Report

end Cognate
