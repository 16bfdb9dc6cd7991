import Cognate.Decoded.Scalar
import Cognate.Unit.Spelling

/-! # Decoded values

Bytes of this machine read through a type. Reading never fails: what cannot be read is marked in its place, so that one
bad element does not hide its siblings. -/

namespace Cognate

/-- Why something is not read. -/
inductive Degradation where
  /-- The bytes are not as many as the type takes. -/
  | size (expected actual : Nat)
  /-- The bytes do not divide into the elements. -/
  | arraySize (length count : Nat)
  | unread (b : Builtin)
  | unhandled (c : Shape.Class)
  /-- The bytes are no valid extended float. -/
  | longDouble
  | foreign
deriving DecidableEq, Repr

/-- The mark in a text. -/
def Degradation.text : Degradation → String
  | size _ _ => "<size mismatch>"
  | arraySize _ _ => "<array size mismatch>"
  | unread b => s!"<builtin {b.spelling} not implemented>"
  | unhandled c => s!"<unhandled type: {c.label}>"
  | longDouble => "<long double: length unavailable>"
  | foreign => DeclUnit.foreignSpelling

/-- A value read from bytes. -/
inductive Decoded where
  | void
  | scalar (text : String)
  | pointer (address : Nat)
  | array (elements : List Decoded)
  | degraded (d : Degradation)
deriving Repr

namespace Decoded

mutual

/-- Some part of the value was not read. -/
def isDegraded : Decoded → Bool
  | degraded _ => true
  | array elements => anyDegraded elements
  | void | scalar _ | pointer _ => false

/-- Some part of some value was not read. -/
def anyDegraded : List Decoded → Bool
  | [] => false
  | d :: ds => d.isDegraded || anyDegraded ds

end

mutual

/-- The value in text. -/
def text : Decoded → String
  | void => "void"
  | scalar text => text
  | pointer address => "0x" ++ String.ofList (Nat.toDigits 16 address)
  | array elements => "\x7b" ++ ", ".intercalate (texts elements) ++ "\x7d"
  | degraded d => d.text

/-- The values in text, one by one. -/
def texts : List Decoded → List String
  | [] => []
  | d :: ds => d.text :: texts ds

end

/-! ## Reading -/

/-- Bytes of a pointer. -/
def pointerSize : Nat := 8

def ofPointer (bytes : List UInt8) : Decoded :=
  if bytes.length = pointerSize then pointer (ofBytes bytes) else degraded (.size pointerSize bytes.length)

def ofBuiltin (b : Builtin) (bytes : List UInt8) : Decoded :=
  let form := HostForm.ofBuiltin b
  match form.size? with
  | none => if form = .void then void else degraded (.unread b)
  | some size =>
    if bytes.length ≠ size then degraded (.size size bytes.length)
    else
      match form.text? bytes with
      | some text => scalar text
      | none => degraded .longDouble

/-- The first `count` pieces of `size` bytes. -/
def pieces (size : Nat) : Nat → List UInt8 → List (List UInt8)
  | 0, _ => []
  | count + 1, bytes => bytes.take size :: pieces size count (bytes.drop size)

/-- Elements of one size each; an array without elements has no bytes. -/
def ofArray (element : List UInt8 → Decoded) (count : Nat) (bytes : List UInt8) : Decoded :=
  if count = 0 then if bytes.isEmpty then array [] else degraded (.arraySize bytes.length count)
  else if bytes.length % count ≠ 0 || bytes.length < count then degraded (.arraySize bytes.length count)
  else array ((pieces (bytes.length / count) count bytes).map element)

/-- The value of some bytes through at most `fuel` levels of arrays. -/
def within (u : DeclUnit) : Nat → Ty → List UInt8 → Decoded
  | 0, _, _ => degraded .foreign
  | fuel + 1, t, bytes =>
    match u.canonicalShape? t with
    | none => degraded .foreign
    | some (.builtin b) => ofBuiltin b bytes
    | some (.pointer _) => ofPointer bytes
    | some (.constantArray element size) => ofArray (within u fuel element) size bytes
    | some shape => degraded (.unhandled shape.cls)

/-- The value of some bytes read as a type. -/
def ofBytes (u : DeclUnit) (t : Ty) (bytes : List UInt8) : Decoded := within u (t.index + 1) t bytes

end Decoded

namespace DeclUnit

/-- Bytes that a type takes on this machine, through at most `fuel` levels of arrays. -/
def hostSizeWithin (u : DeclUnit) : Nat → Ty → Option Nat
  | 0, _ => none
  | fuel + 1, t =>
    match u.canonicalShape? t with
    | some (.builtin b) => (HostForm.ofBuiltin b).size?
    | some (.pointer _) => some Decoded.pointerSize
    | some (.constantArray element size) => (u.hostSizeWithin fuel element).bind fun n => word? (n * size)
    | _ => none

/-- Bytes that a type takes on this machine, if its values are read. -/
def hostSize? (u : DeclUnit) (t : Ty) : Option Nat := u.hostSizeWithin (t.index + 1) t

/-- A value behind its type as written; without bytes there is no value yet. -/
def renderTyped (u : DeclUnit) (t : Ty) : Option (List UInt8) → String
  | none => "uninitialized"
  | some bytes =>
    if u.contains t then "(" ++ u.describe t ++ ")" ++ (Decoded.ofBytes u t bytes).text
    else foreignSpelling

end DeclUnit
end Cognate
