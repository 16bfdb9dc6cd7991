import Cognate.Number.ByteOrder
import Cognate.Raw.Basic

/-! # Encoding of raw values

Raw values as bytes in little-endian order, whatever the machine. Reading takes the front of a byte string and gives the
count of bytes taken; too few bytes are a fault, never part of a value. -/

namespace Cognate

/-- Why a raw value is not written or read. -/
inductive RawFault where
  | truncated (needed available : Nat)
  | unsupported (type : RawType)
  | mismatch (value : RawValue) (expected : RawType)
  /-- The buffer has no room for all bytes. -/
  | full
deriving Repr

/-- The fault in words. -/
def RawFault.message : RawFault → String
  | truncated needed available => s!"truncated value: need {needed} bytes, {available} available"
  | unsupported type => s!"no raw encoding for {type.describe}"
  | mismatch value expected => s!"value {value.label} cannot be written as {expected.describe}"
  | full => "IO error: failed to write whole buffer"

namespace RawValue

/-- The bytes of a value written as `type`. Whatever is written as `void` or as an aggregate leaves none. -/
def encode (type : RawType) (value : RawValue) : Except RawFault (List UInt8) :=
  match type, value with
  | .void, _ | .struct _, _ | .array _ _, _ | .vector _ _, _ => .ok []
  | .float, float bits => .ok (toBytes 4 bits.toNat)
  | .double, double bits => .ok (toBytes 8 bits.toNat)
  | .pointer, pointer address => .ok (toBytes 8 address.toNat)
  | .int bits, int v =>
    if v.bits = max bits 1 then .ok v.words.toByteList else .error (.mismatch value type)
  | _, _ => .error (.mismatch value type)

/-- The value of `type` whose bytes these are; `none` for aggregates. -/
def ofEncoding (type : RawType) (bytes : List UInt8) : Option RawValue :=
  match type with
  | .void => some void
  | .float => some (float (UInt32.ofNat (ofBytes bytes)))
  | .double => some (double (UInt64.ofNat (ofBytes bytes)))
  | .pointer => some (pointer (UInt64.ofNat (ofBytes bytes)))
  | .int bits => some (int (WideInt.ofWords bits (Limbs.ofByteList bytes)))
  | .struct _ | .array _ _ | .vector _ _ => none

/-- The value at the front of some bytes, and how many bytes it takes. -/
def read (type : RawType) (bytes : List UInt8) : Except RawFault (RawValue × Nat) :=
  match type.encodedSize? with
  | none => .error (.unsupported type)
  | some needed =>
    if bytes.length < needed then .error (.truncated needed bytes.length)
    else
      match ofEncoding type (bytes.take needed) with
      | some value => .ok (value, needed)
      | none => .error (.unsupported type)

/-- The value at the front of some bytes; what follows it does not matter. -/
def decode (type : RawType) (bytes : List UInt8) : Except RawFault RawValue := (read type bytes).map (·.1)

/-- A value read as `type`, for a reader: a value of another kind shows nothing. -/
def print (type : RawType) (value : RawValue) : String :=
  match type, value with
  | .float, float _ | .double, double _ | .pointer, pointer _ => value.text
  | .int bits, int v => if v.bits = bits then value.text else ""
  | _, _ => ""

end RawValue

/-! ## Buffers of a fixed size -/

/-- A buffer that is filled from the front. -/
structure RawBuffer where
  /-- What was written so far. -/
  written : List UInt8
  /-- Bytes that still fit. -/
  room : Nat

namespace RawBuffer

def empty (capacity : Nat) : RawBuffer := ⟨[], capacity⟩

/-- Puts bytes in; the first ones fill the buffer where not all of them fit. -/
def put (b : RawBuffer) (bytes : List UInt8) : Option RawFault × RawBuffer :=
  (if bytes.length ≤ b.room then none else some .full,
    ⟨b.written ++ bytes.take b.room, b.room - bytes.length⟩)

/-- Writes a value and counts its bytes. -/
def write (b : RawBuffer) (type : RawType) (value : RawValue) : Except RawFault Nat × RawBuffer :=
  match value.encode type with
  | .error fault => (.error fault, b)
  | .ok bytes =>
    match b.put bytes with
    | (none, b) => (.ok bytes.length, b)
    | (some fault, b) => (.error fault, b)

/-- All bytes: what was written, and zeros. -/
def bytes (b : RawBuffer) : List UInt8 := b.written ++ List.replicate b.room 0

end RawBuffer
end Cognate
