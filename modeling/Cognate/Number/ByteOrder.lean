import Cognate.Number.WideInt

/-! # Byte orders

The order in which the bytes of a number stand in memory. Converting between the order of this machine and a given one
is nothing or a reversal of the whole value, so the same conversion twice gives the value back. -/

namespace Cognate

inductive ByteOrder where
  /-- Least significant byte first. -/
  | little
  /-- Most significant byte first. -/
  | big
deriving DecidableEq, Repr

namespace ByteOrder

/-- The order of this machine. -/
def host : ByteOrder := little

def isHost (o : ByteOrder) : Bool := o == host

/-- In words. -/
def describe : ByteOrder → String
  | little => "little-endian"
  | big => "big-endian"

/-- Name in listings. -/
def label : ByteOrder → String
  | little => "Little"
  | big => "Big"

end ByteOrder

/-- Values whose bytes can be reversed over the full width. -/
class SwapBytes (α : Type) where
  swapBytes : α → α

instance : SwapBytes WideInt := ⟨WideInt.swapBytes⟩

/-- A value between the order of this machine and `order`, in either direction. -/
def ByteOrder.convert {α : Type} [SwapBytes α] (order : ByteOrder) (value : α) : α :=
  if order.isHost then value else SwapBytes.swapBytes value

/-- A value between the order of this machine and little-endian order. -/
def little {α : Type} [SwapBytes α] (value : α) : α := ByteOrder.little.convert value

/-- A value between the order of this machine and big-endian order. -/
def big {α : Type} [SwapBytes α] (value : α) : α := ByteOrder.big.convert value

/-! ## Cells -/

/-- A value kept in a declared byte order. -/
structure Cell (order : ByteOrder) (α : Type) where
  /-- The value whose bytes on this machine are the stored ones. -/
  raw : α
deriving Repr

namespace Cell

variable {order : ByteOrder} {α : Type} [SwapBytes α]

/-- Stores a value. -/
def store (value : α) : Cell order α := ⟨order.convert value⟩

/-- Stores another value in place of the one there is. -/
def set (c : Cell order α) (value : α) : Cell order α := { c with raw := order.convert value }

/-- The stored value. -/
def get (c : Cell order α) : α := order.convert c.raw

/-- Cells are compared by what is stored, as values of this machine. -/
instance {order : ByteOrder} {α : Type} [BEq α] : BEq (Cell order α) := ⟨fun a b => a.raw == b.raw⟩

/-- The cell with its value as `render` writes it. -/
def text (render : α → String) (c : Cell order α) : String :=
  "StoreAs \x7b order: " ++ order.label ++ ", value: " ++ render c.get ++ " \x7d"

end Cell
end Cognate
