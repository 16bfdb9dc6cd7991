import Cognate.Number.Bytes
import Cognate.Number.Limbs

/-! # Integers of a width

An integer of any number of bits, kept as words. The bits above the width are zero, and zeros on top are not kept, so
two values are the same exactly if their widths and their numbers are. -/

namespace Cognate

/-- Words that hold so many bits. -/
def wordsFor (bits : Nat) : Nat := (bits + 63) / 64

namespace Limbs

/-- The words of some bytes, eight bytes a word; the last word may have fewer. -/
def ofByteList : List UInt8 → Limbs
  | [] => []
  | b :: bs => UInt64.ofNat (ofBytes ((b :: bs).take 8)) :: ofByteList (bs.drop 7)
termination_by bs => bs.length
decreasing_by simp only [List.length_drop, List.length_cons]; omega

/-- The bytes of the words, eight a word. -/
def toByteList (ls : Limbs) : List UInt8 := ls.flatMap fun l => toBytes 8 l.toNat

/-- The low bits, without zeros on top: whole words, and of the word behind them what is left. -/
def lowBits (bits : Nat) (ls : Limbs) : Limbs :=
  let above := ((ls.drop (bits / 64)).take 1).map fun l => UInt64.ofNat (l.toNat % Nat.pow 2 (bits % 64))
  trim (ls.take (bits / 64) ++ above)

end Limbs

/-- An integer of a width, at least one bit wide. -/
structure WideInt where
  bits : Nat
  /-- The words of the number without zeros on top. -/
  significant : Limbs
deriving DecidableEq, Repr

namespace WideInt

/-- The low bits of the given words; a width of zero counts as one. -/
def ofWords (bits : Nat) (words : Limbs) : WideInt :=
  let bits := max bits 1
  ⟨bits, words.lowBits bits⟩

/-- The low bits of one word. -/
def ofWord (bits : Nat) (word : UInt64) : WideInt := ofWords bits [word]

/-- The two's complement of a signed number of at most 128 bits; the sign of a negative one fills wider values. -/
def ofInt (bits : Nat) (value : Int) : WideInt :=
  let fill : Limbs := if value < 0 then List.replicate (wordsFor bits - 2) (UInt64.ofNat (limbBase - 1)) else []
  let low := UInt64.ofNat (value % limbBase).toNat
  let high := UInt64.ofNat (value / limbBase % limbBase).toNat
  ofWords bits (low :: high :: fill)

/-- As many words as hold the width, zeros on top. -/
def words (v : WideInt) : Limbs :=
  v.significant ++ List.replicate (wordsFor v.bits - v.significant.length) 0

/-- The number read without a sign. -/
def toNat (v : WideInt) : Nat := v.significant.toNat

/-- The low word. -/
def low (v : WideInt) : UInt64 := v.significant.headD 0

/-- The highest bit is set. -/
def isNegative (v : WideInt) : Bool := v.significant.bit (v.bits - 1)

/-- The whole bytes in reverse order; bits above the last whole byte stay where they are. -/
def swapBytes (v : WideInt) : WideInt :=
  let bytes := v.words.toByteList.take ((v.bits + 7) / 8)
  let whole := v.bits / 8
  ofWords v.bits (Limbs.ofByteList ((bytes.take whole).reverse ++ bytes.drop whole))

/-- Unsigned decimal text. -/
def toDecimal (v : WideInt) : String := v.significant.toDecimal

/-- Hexadecimal text of some words, the top one first: the first word that is not zero as it is, the words below it in
sixteen digits. -/
def hexDigits : List UInt64 → List Char
  | [] => ['0']
  | w :: ws =>
    if w = 0 then hexDigits ws
    else Nat.toDigits 16 w.toNat ++ ws.flatMap fun w' => Limbs.padZeros 16 (Nat.toDigits 16 w'.toNat)

/-- Unsigned hexadecimal text in lower case. -/
def toHex (v : WideInt) : String := String.ofList (hexDigits v.significant.reverse)

end WideInt
end Cognate
