import Cognate.Token.Stream
import Cognate.Unit.Scope

/-! # Reading tokens

A reader looks at one token, may look at the one behind it, and moves on; all the while it builds types in a unit. A
fault ends the reading and leaves the unit as it is then. -/

namespace Cognate.Grammar

/-- Where a reader stands, and what it has built. -/
structure State where
  /-- The token that is looked at. -/
  current : Lexed
  /-- The items behind it. -/
  ahead : List (Except Fault Lexed)
  /-- Number of bytes of the text. -/
  stop : Nat
  unit : DeclUnit

/-- Readers: they move on, build types, and may fail. -/
abbrev Parse := EStateM Fault State

/-- The item at the front, and those behind it; behind the last one stands the end. -/
def takeItem (stop : Nat) : List (Except Fault Lexed) → Except Fault (Lexed × List (Except Fault Lexed))
  | [] => .ok (finishAt stop, [])
  | .ok t :: ahead => .ok (t, ahead)
  | .error fault :: _ => .error fault

/-- A reader at the first token of a text. -/
def State.ofSource (source : String) (u : DeclUnit) : Except Fault State :=
  (takeItem source.utf8ByteSize (scan source)).map fun (t, ahead) => ⟨t, ahead, source.utf8ByteSize, u⟩

/-- The readings a loop may need: one for each token up to the end, and one that ends it. -/
def State.allowance (s : State) : Nat := s.ahead.length + 2

/-! ## Steps -/

def fail {α : Type} (cause : Cause) (span : Span) : Parse α := throw ⟨cause, span⟩

/-- The token that is looked at. -/
def current : Parse Lexed := return (← get).current

/-- The place of that token. -/
def here : Parse Span := return (← get).current.span

def atEnd : Parse Bool := return (← get).current.token == .finish

/-- Moves on; the answer is the token left behind. -/
def advance : Parse Lexed := do
  let s ← get
  match takeItem s.stop s.ahead with
  | .ok (t, ahead) =>
    set { s with current := t, ahead }
    return s.current
  | .error fault => throw fault

/-- The token behind the one that is looked at. -/
def peek : Parse Token := do
  let s ← get
  match takeItem s.stop s.ahead with
  | .ok (t, _) => return t.token
  | .error fault => throw fault

/-- The token that is looked at is this one. -/
def check (t : Token) : Parse Bool := return (← get).current.token == t

/-- Moves past a token if it stands here. -/
def accept (t : Token) : Parse Bool := do
  if ← check t then
    let _ ← advance
    return true
  return false

/-- Moves past a mark that must stand here. -/
def expect (mark : Punct) : Parse Lexed := do
  let t ← current
  if t.token == .punct mark then advance else fail (.expected mark t.token) t.span

/-- Reads a name, if one stands here. -/
def name? : Parse (Option (String × Span)) := do
  match (← current).token with
  | .name text =>
    let t ← advance
    return some (text, t.span)
  | _ => return none

/-- Reads a name that must stand here. -/
def name : Parse (String × Span) := do
  match ← name? with
  | some found => return found
  | none =>
    let t ← current
    fail (.expectedName t.token) t.span

/-! ## Building -/

/-- The unit as it is now. -/
def unit : Parse DeclUnit := return (← get).unit

/-- Builds a type. -/
def build (f : DeclUnit → Ty × DeclUnit) : Parse Ty := do
  let s ← get
  let (t, u) := f s.unit
  set { s with unit := u }
  return t

def intern (shape : Shape) : Parse Ty := build (·.intern shape)

/-- Changes the unit by what may be refused; a refusal is a fault at `span`, with the unit as it is left then. -/
def define {α : Type} (span : Span) (f : DeclUnit → Except TypeFault α × DeclUnit) : Parse α := do
  let s ← get
  let (outcome, u) := f s.unit
  set { s with unit := u }
  match outcome with
  | .ok a => return a
  | .error fault => fail (.type fault) span

/-! ## Loops -/

/-- What one round of a loop comes to. -/
inductive Round (σ α : Type) where
  | again (s : σ)
  | done (a : α)

/-- Rounds of a loop, at most `fuel` of them. -/
def loopFor {σ α : Type} (round : σ → Parse (Round σ α)) : Nat → σ → Parse α
  | 0, _ => do fail .nestedTooDeep (← here)
  | fuel + 1, s => do
    match ← round s with
    | .again s => loopFor round fuel s
    | .done a => return a

/-- Rounds of a loop each of which moves on or ends it. -/
def loop {σ α : Type} (start : σ) (round : σ → Parse (Round σ α)) : Parse α := do
  loopFor round (← get).allowance start

/-! ## Skipping -/

/-- Opens or closes a group, as a change of depth. -/
def opens : Token → Bool
  | .punct .lparen | .punct .lbracket | .punct .lbrace => true
  | _ => false

def closes : Token → Bool
  | .punct .rparen | .punct .rbracket | .punct .rbrace => true
  | _ => false

/-- Skips a group in brackets of any kind from its opening token on. Only the depth is counted: a group is closed by as
many closing brackets of any kind as were opened. -/
def skipGroup : Parse Unit := do
  let opening ← advance
  loop 1 fun depth => do
    let t := (← current).token
    if t == .finish then fail (.unterminatedGroup opening.token) opening.span
    else
      let depth := if opens t then depth + 1 else if closes t then depth - 1 else depth
      let _ ← advance
      return if depth = 0 then .done () else .again depth

/-- Skips an initializer up to the comma or semicolon behind it. -/
def skipInitializer : Parse Unit := do
  let start ← here
  loop () fun () => do
    let t := (← current).token
    if t == .punct .comma || t == .punct .semi then return .done ()
    else if t == .finish then fail .unterminatedInitializer start
    else if opens t then
      skipGroup
      return .again ()
    else
      let _ ← advance
      return .again ()

/-- Skips declarations of parameters up to the body of a function. -/
def skipToBody : Parse Unit := do
  let start ← here
  loop () fun () => do
    let t := (← current).token
    if t == .punct .lbrace then return .done ()
    else if t == .finish then fail .expectedBody start
    else
      let _ ← advance
      return .again ()

end Cognate.Grammar
