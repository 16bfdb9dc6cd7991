import Cognate.Fault
import Cognate.Token.Rule

/-! # Token streams

A text as the tokens it holds, each with the bytes it covers. A stray lexeme is an item of its own, and reading goes on
behind it. -/

namespace Cognate

/-- A token and the bytes it covers. -/
structure Lexed where
  token : Token
  span : Span
deriving DecidableEq, Repr

/-- The tokens and strays of `cs`, which stands at byte `pos`; what is skipped leaves no item. -/
def scanAt (pos : Nat) (cs : List Char) : List (Except Fault Lexed) :=
  match cs with
  | [] => []
  | c :: rest =>
    let lexeme := Lexeme.first (c :: rest)
    let behind := rest.drop (lexeme.length - 1)
    let text := (c :: rest).take lexeme.length
    let stop := pos + byteLength text
    match lexeme with
    | .skipped _ => scanAt stop behind
    | .token _ t => .ok ⟨t, ⟨pos, stop⟩⟩ :: scanAt stop behind
    | .stray _ => .error ⟨.strayText (String.ofList text), ⟨pos, stop⟩⟩ :: scanAt stop behind
termination_by cs.length
decreasing_by all_goals simp only [List.length_drop, List.length_cons]; omega

/-- All items of a text, without its end. -/
def scan (source : String) : List (Except Fault Lexed) := scanAt 0 source.toList

/-- The end of a text of so many bytes, as a token. -/
def finishAt (stop : Nat) : Lexed := ⟨.finish, ⟨stop, stop⟩⟩

/-- The tokens of a text up to and including its end, or its first stray. -/
def tokens (source : String) : Except Fault (List Lexed) :=
  (scan source).foldr (fun item rest => item.bind fun t => rest.map (t :: ·)) (.ok [finishAt source.utf8ByteSize])

/-- One token as a line of a listing. -/
def Lexed.line (t : Lexed) : String :=
  "Token \x7b kind: " ++ t.token.label ++ s!", span: Span \x7b start: {t.span.start}, end: {t.span.stop} \x7d \x7d\n"

/-- The listing of all tokens. -/
def listing (source : String) : Except Fault String :=
  (tokens source).map fun ts => String.join (ts.map Lexed.line)

/-! ## Reading one by one -/

/-- A text being read: the token that was looked at and not taken, and the items behind it. -/
structure TokenStream where
  peeked : Option Lexed
  ahead : List (Except Fault Lexed)
  stop : Nat

namespace TokenStream

def ofSource (source : String) : TokenStream := ⟨none, scan source, source.utf8ByteSize⟩

/-- Takes the next item; behind the last one stands the end, as often as it is asked for. -/
def next (s : TokenStream) : Except Fault Lexed × TokenStream :=
  match s.peeked, s.ahead with
  | some t, _ => (.ok t, { s with peeked := none })
  | none, item :: ahead => (item, { s with ahead })
  | none, [] => (.ok (finishAt s.stop), s)

/-- Looks at the next item: a token stays, a fault is taken. -/
def peek (s : TokenStream) : Except Fault Lexed × TokenStream :=
  match s.next with
  | (.ok t, behind) => (.ok t, { behind with peeked := some t })
  | fault => fault

end TokenStream
end Cognate
