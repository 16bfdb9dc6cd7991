/-! # Numbers as bytes

A number as so many bytes, the least significant first, and the number such bytes stand for. The two are inverse
(`ofBytes_toBytes`, `toBytes_ofBytes`). -/

namespace Cognate

/-- The `count` low bytes of a number, least significant first. -/
def toBytes : Nat → Nat → List UInt8
  | 0, _ => []
  | count + 1, n => UInt8.ofNat n :: toBytes count (n / 256)

/-- The number whose bytes these are, least significant first. -/
def ofBytes : List UInt8 → Nat
  | [] => 0
  | b :: bs => b.toNat + 256 * ofBytes bs

@[simp] theorem length_toBytes (count n : Nat) : (toBytes count n).length = count := by
  induction count generalizing n with
  | zero => rfl
  | succ count ih => simp [toBytes, ih]

theorem ofBytes_lt (bs : List UInt8) : ofBytes bs < Nat.pow 256 bs.length := by
  rw [Nat.pow_eq]
  induction bs with
  | nil => simp [ofBytes]
  | cons b bs ih =>
    have hb : b.toNat < 256 := b.toNat_lt
    simp only [ofBytes, List.length_cons, Nat.pow_succ]
    omega

/-- Bytes keep a number up to the power they can hold. -/
theorem ofBytes_toBytes (count n : Nat) : ofBytes (toBytes count n) = n % Nat.pow 256 count := by
  rw [Nat.pow_eq]
  induction count generalizing n with
  | zero => simp [toBytes, ofBytes, Nat.mod_one]
  | succ count ih =>
    rw [toBytes, ofBytes, ih, Nat.pow_succ, Nat.mul_comm _ 256, Nat.mod_mul]
    simp

theorem toBytes_ofBytes (bs : List UInt8) : toBytes bs.length (ofBytes bs) = bs := by
  induction bs with
  | nil => rfl
  | cons b bs ih =>
    have hb : b.toNat < 256 := b.toNat_lt
    have hd : (b.toNat + 256 * ofBytes bs) / 256 = ofBytes bs := by omega
    have hm : UInt8.ofNat (b.toNat + 256 * ofBytes bs) = b := by
      apply UInt8.toNat_inj.1
      simp only [UInt8.toNat_ofNat']
      omega
    simp only [List.length_cons, toBytes, ofBytes, hd, hm, ih]

/-- Fewer bytes of a number are the first of more. -/
theorem take_toBytes (k count n : Nat) : (toBytes count n).take k = toBytes (min k count) n := by
  induction count generalizing k n with
  | zero => simp [toBytes]
  | succ count ih =>
    cases k with
    | zero => simp [toBytes]
    | succ k => simp [toBytes, ih, Nat.add_min_add_right]

end Cognate
