/-! # Spans

Half-open byte ranges of a source text, whose bytes are those of UTF-8. -/

namespace Cognate

/-- Number of bytes of the characters. -/
def byteLength (cs : List Char) : Nat := cs.foldr (fun c n => c.utf8Size + n) 0

theorem byteLength_cons (c : Char) (cs : List Char) : byteLength (c :: cs) = c.utf8Size + byteLength cs := rfl

theorem byteLength_append (cs ds : List Char) : byteLength (cs ++ ds) = byteLength cs + byteLength ds := by
  induction cs with
  | nil => simp [byteLength]
  | cons c cs ih => rw [List.cons_append, byteLength_cons, byteLength_cons, ih, Nat.add_assoc]

/-- Characters take as many bytes as the text they make up. -/
theorem byteLength_eq (cs : List Char) : byteLength cs = (String.ofList cs).utf8ByteSize := by
  induction cs with
  | nil => rfl
  | cons c cs ih =>
    have hsplit : String.ofList (c :: cs) = String.singleton c ++ String.ofList cs := by
      rw [String.singleton_eq_ofList, ← String.ofList_append]
      rfl
    rw [byteLength_cons, ih, hsplit, String.utf8ByteSize_append, String.utf8ByteSize_singleton]

/-- The bytes from `start` up to and not including `stop`. -/
structure Span where
  start : Nat
  stop : Nat
deriving DecidableEq, Repr, Inhabited

namespace Span

/-- The smallest span that covers both. -/
def merge (a b : Span) : Span := ⟨min a.start b.start, max a.stop b.stop⟩

/-- Bytes of the span, in a word of 64 bits: a span that ends in front of its start wraps around. -/
def size (s : Span) : Nat := if s.start ≤ s.stop then s.stop - s.start else Nat.pow 2 64 - (s.start - s.stop)

def isEmpty (s : Span) : Bool := s.start == s.stop

/-- Written with two dots between the ends. -/
def text (s : Span) : String := s!"{s.start}..{s.stop}"

end Span
end Cognate
