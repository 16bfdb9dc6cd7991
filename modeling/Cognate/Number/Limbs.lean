/-! # Limbs

Numbers of any size as words of 64 bits, least significant first; words of zero may stand on top. `Limbs.toNat` is the
number they stand for, and says what every operation does. -/

namespace Cognate

/-- Words of a number, least significant first. -/
abbrev Limbs := List UInt64

/-- One more than the greatest word. -/
def limbBase : Nat := Nat.pow 2 64

theorem limbBase_eq : limbBase = 18446744073709551616 := rfl

theorem limbBase_pos : 0 < limbBase := Nat.two_pow_pos 64

namespace Limbs

/-- The number the words stand for. -/
def toNat : Limbs → Nat
  | [] => 0
  | l :: ls => l.toNat + limbBase * toNat ls

/-- Drops the zeros on top. -/
def trim : Limbs → Limbs
  | [] => []
  | l :: ls =>
    match trim ls with
    | [] => if l = 0 then [] else [l]
    | l' :: ls' => l :: l' :: ls'

def isZero (ls : Limbs) : Bool := ls.all (· == 0)

/-- The two low words of a number, without zeros on top. -/
def ofNat128 (n : Nat) : Limbs := trim [UInt64.ofNat n, UInt64.ofNat (n / limbBase)]

/-! ## Products and shifts to the left -/

/-- Every word times `factor`, with `carry` coming in from below; what goes out on top is one more word unless it is
zero. -/
def mulCarry (factor : UInt64) (carry : Nat) : Limbs → Limbs
  | [] => if carry = 0 then [] else [UInt64.ofNat carry]
  | l :: ls =>
    let product := l.toNat * factor.toNat + carry
    UInt64.ofNat product :: mulCarry factor (product / limbBase) ls

def mul (factor : UInt64) (ls : Limbs) : Limbs := mulCarry factor 0 ls

/-- Shifts by whole words and by what is left; zero stays as it is. -/
def shiftLeft (shift : Nat) (ls : Limbs) : Limbs :=
  if ls.isZero then ls
  else List.replicate (shift / 64) 0 ++ mul (UInt64.ofNat (Nat.pow 2 (shift % 64))) ls

/-! ## Quotients and shifts to the right -/

/-- Quotient and remainder by a divisor that is not zero, from the top word down. -/
def divMod (divisor : UInt64) : Limbs → Limbs × Nat
  | [] => ([], 0)
  | l :: ls =>
    let (quotient, above) := divMod divisor ls
    let current := above * limbBase + l.toNat
    (UInt64.ofNat (current / divisor.toNat) :: quotient, current % divisor.toNat)

/-- The bit of that index. -/
def bit (index : Nat) (ls : Limbs) : Bool := (ls.getD (index / 64) 0).toNat.testBit (index % 64)

/-- Some bit below that index is set. -/
def anyBelow (index : Nat) (ls : Limbs) : Bool :=
  (ls.take (index / 64)).any (· != 0) || (ls.getD (index / 64) 0).toNat % Nat.pow 2 (index % 64) != 0

/-- One more. -/
def succ : Limbs → Limbs
  | [] => [1]
  | l :: ls => if l + 1 = 0 then 0 :: succ ls else (l + 1) :: ls

/-- The words of the number without its `shift` low bits. -/
def shiftDown (shift : Nat) (ls : Limbs) : Limbs :=
  trim (divMod (UInt64.ofNat (Nat.pow 2 (shift % 64))) (ls.drop (shift / 64))).1

/-- Divides by a power of two and rounds to the nearest number, a half to the even one. The highest bit shifted out says
whether at least a half is lost, the bits below it whether more than a half is. -/
def shiftRightEven (shift : Nat) (ls : Limbs) : Limbs :=
  if shift = 0 then trim ls
  else
    let floor := shiftDown shift ls
    if bit (shift - 1) ls && (anyBelow (shift - 1) ls || bit 0 floor) then succ floor else floor

/-! ## Numbers of the words -/

@[simp] theorem toNat_nil : toNat [] = 0 := rfl

@[simp] theorem toNat_cons (l : UInt64) (ls : Limbs) : toNat (l :: ls) = l.toNat + limbBase * toNat ls := rfl

@[simp] theorem toNat_trim (ls : Limbs) : (trim ls).toNat = ls.toNat := by
  induction ls with
  | nil => rfl
  | cons l ls ih =>
    simp only [trim]
    split
    · next h =>
      have hz : toNat ls = 0 := by simpa [h] using ih.symm
      split
      · next hl => simp [hl, hz]
      · simp [hz]
    · next h => simp only [h] at ih; simp [← ih]

theorem toNat_mulCarry (factor : UInt64) (carry : Nat) (ls : Limbs) (h : carry < limbBase) :
    (mulCarry factor carry ls).toNat = ls.toNat * factor.toNat + carry := by
  induction ls generalizing carry with
  | nil =>
    simp only [mulCarry]
    split
    · next h0 => simp [h0]
    · have hw : carry % 2 ^ 64 = carry := Nat.mod_eq_of_lt h
      simp only [toNat_cons, toNat_nil, UInt64.toNat_ofNat', hw]
      omega
  | cons l ls ih =>
    have hl : l.toNat < limbBase := l.toNat_lt
    have hf : factor.toNat < limbBase := factor.toNat_lt
    have hc : (l.toNat * factor.toNat + carry) / limbBase < limbBase := by
      rw [Nat.div_lt_iff_lt_mul limbBase_pos]
      have := Nat.mul_le_mul (Nat.le_sub_one_of_lt hl) (Nat.le_sub_one_of_lt hf)
      simp only [limbBase_eq] at *
      omega
    simp only [mulCarry, toNat_cons, ih _ hc, UInt64.toNat_ofNat']
    have := Nat.mod_add_div (l.toNat * factor.toNat + carry) limbBase
    simp only [Nat.add_mul, Nat.mul_add, Nat.mul_assoc]
    simp only [limbBase_eq] at *
    omega

theorem toNat_mul (factor : UInt64) (ls : Limbs) : (mul factor ls).toNat = ls.toNat * factor.toNat := by
  simp [mul, toNat_mulCarry factor 0 ls limbBase_pos]

theorem divMod_spec (divisor : UInt64) (ls : Limbs) (h : 0 < divisor.toNat) :
    (divMod divisor ls).1.toNat = ls.toNat / divisor.toNat ∧ (divMod divisor ls).2 = ls.toNat % divisor.toNat := by
  induction ls with
  | nil => simp [divMod]
  | cons l ls ih =>
    obtain ⟨hq, hr⟩ := ih
    have hl : l.toNat < limbBase := l.toNat_lt
    have hlt : (divMod divisor ls).2 < divisor.toNat := hr ▸ Nat.mod_lt _ h
    have hcur : ((divMod divisor ls).2 * limbBase + l.toNat) / divisor.toNat < limbBase := by
      rw [Nat.div_lt_iff_lt_mul h]
      have : (divMod divisor ls).2 * limbBase + limbBase ≤ divisor.toNat * limbBase := by
        rw [← Nat.succ_mul]; exact Nat.mul_le_mul_right _ hlt
      rw [Nat.mul_comm limbBase]
      omega
    have hsplit : l.toNat + limbBase * toNat ls =
        divisor.toNat * (limbBase * (toNat ls / divisor.toNat)) +
          ((divMod divisor ls).2 * limbBase + l.toNat) := by
      rw [hr]
      conv => lhs; rw [← Nat.div_add_mod (toNat ls) divisor.toNat]
      rw [Nat.mul_add, Nat.mul_left_comm limbBase, Nat.mul_comm limbBase (toNat ls % divisor.toNat)]
      omega
    constructor
    · simp only [divMod, toNat_cons, hq, UInt64.toNat_ofNat']
      rw [Nat.mod_eq_of_lt (show _ < 2 ^ 64 from hcur), hsplit, Nat.mul_add_div h]
      omega
    · simp only [divMod, toNat_cons]
      rw [hsplit, Nat.mul_add_mod]

/-! ## Decimal text -/

/-- The largest power of ten in one word; its remainders have nineteen digits. -/
def decimalChunk : UInt64 := 10000000000000000000

theorem toNat_decimalChunk : decimalChunk.toNat = 10000000000000000000 := rfl

/-- The remainders of repeated division by `decimalChunk`, the first one first; none for zero. -/
def chunks (ls : Limbs) : List Nat :=
  if ls.toNat = 0 then []
  else
    let step := divMod decimalChunk ls
    step.2 :: chunks (trim step.1)
termination_by ls.toNat
decreasing_by
  rw [toNat_trim, (divMod_spec decimalChunk ls (by rw [toNat_decimalChunk]; omega)).1]
  exact Nat.div_lt_self (by omega) (by rw [toNat_decimalChunk]; omega)

/-- The text with zeros in front, up to a width. -/
def padZeros (width : Nat) (digits : List Char) : List Char :=
  List.replicate (width - digits.length) '0' ++ digits

/-- Unsigned decimal text: the chunk on top as it is, the others padded. -/
def toDecimal (ls : Limbs) : String :=
  match (chunks ls).reverse with
  | [] => "0"
  | top :: rest =>
    String.ofList (Nat.toDigits 10 top ++ rest.flatMap fun chunk => padZeros 19 (Nat.toDigits 10 chunk))

end Limbs
end Cognate
