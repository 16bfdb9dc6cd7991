import Cognate.Number.Scalar
import Cognate.Proofs.Raw.Integers
import Cognate.Proofs.Raw.Padding

/-!
# Reversed bytes and cells

Reversing the bytes of a value moves its bits as `reversedIndex` says: those of the whole bytes go to the byte on the
other side, those above them stay (`bitAt_reversed`). The index is its own inverse, and so are the reversal and the
conversion to either byte order. A cell therefore gives back what was stored last (`swapBytes_reversed`). Cells are
compared by their raw values, which for floats in the foreign order is not the comparison of what they hold:
`Cell.beq_store_iff` says when it is.
-/

namespace Cognate

variable {bytes : List UInt8} {whole index bits n : Nat} {order : ByteOrder}

/-! ## Bits of reversed bytes -/

/-- Where the bit of that index comes from when so many whole bytes are reversed. -/
def reversedIndex (whole index : Nat) : Nat :=
  if index / 8 < whole then 8 * (whole - 1 - index / 8) + index % 8 else index

theorem reversedIndex_reversedIndex (whole index : Nat) : reversedIndex whole (reversedIndex whole index) = index := by
  unfold reversedIndex
  split_ifs <;> omega

theorem reversedIndex_byte {i k : Nat} (hi : i < whole) (hk : k < 8) :
    reversedIndex whole (8 * i + k) = 8 * (whole - 1 - i) + k := by
  unfold reversedIndex
  split_ifs <;> omega

theorem reversedIndex_above (h : 8 * whole ≤ index) : reversedIndex whole index = index := by
  unfold reversedIndex
  split_ifs <;> omega

theorem bitAt_reversed (h : whole ≤ bytes.length) (index : Nat) :
    bitAt ((bytes.take whole).reverse ++ bytes.drop whole) index = bitAt bytes (reversedIndex whole index) := by
  have hlength : (bytes.take whole).reverse.length = whole := by simp [h]
  unfold bitAt reversedIndex
  split_ifs with hindex
  · have hbyte : (8 * (whole - 1 - index / 8) + index % 8) / 8 = whole - 1 - index / 8 := by omega
    have hbit : (8 * (whole - 1 - index / 8) + index % 8) % 8 = index % 8 := by omega
    have htake : (bytes.take whole).length = whole := List.length_take_of_le h
    rw [hbyte, hbit, List.getD_eq_getElem?_getD, List.getElem?_append_left (by omega), List.getElem?_reverse (by omega),
      htake, List.getElem?_take_of_lt (by omega), List.getD_eq_getElem?_getD]
  · rw [List.getD_eq_getElem?_getD, List.getElem?_append_right (by omega), hlength, List.getElem?_drop,
      Nat.add_sub_cancel' (by omega), List.getD_eq_getElem?_getD]

theorem bitAt_toBytes (count n index : Nat) :
    bitAt (toBytes count n) index = (decide (index < 8 * count) && n.testBit index) := by
  have hbase : Nat.pow 256 count = 2 ^ (8 * count) := by rw [Nat.pow_eq, Nat.pow_mul]
  rw [← testBit_ofBytes, ofBytes_toBytes, hbase, Nat.testBit_mod_two_pow]

/-- Bytes of a number that they hold have its bits. -/
theorem bitAt_toBytes_of_lt {count : Nat} (h : n < 2 ^ (8 * count)) (index : Nat) :
    bitAt (toBytes count n) index = n.testBit index := by
  rw [bitAt_toBytes]
  by_cases hindex : index < 8 * count
  · simp [hindex]
  · have hhigh := Nat.testBit_lt_two_pow (h.trans_le (Nat.pow_le_pow_right (by omega) (Nat.not_lt.1 hindex)))
    rw [hhigh, Bool.and_false]

/-! ## Conversions -/

namespace ByteOrder

variable {α : Type} [SwapBytes α] {value : α}

/-- Bytes of a number in that order, from those with the least significant one first. -/
def arrange : ByteOrder → List UInt8 → List UInt8
  | little, bytes => bytes
  | big, bytes => bytes.reverse

theorem convert_convert (h : SwapBytes.swapBytes (SwapBytes.swapBytes value) = value) (order : ByteOrder) :
    order.convert (order.convert value) = value := by
  cases order with
  | little => rfl
  | big => exact h

end ByteOrder

/-! ## Integers of a width -/

namespace WideInt

variable {v w : WideInt}

/-- The second integer has the width of the first one, its whole bytes in reverse order, and the bits above these where
they were. -/
structure Reversed (v w : WideInt) : Prop where
  bits_eq : w.bits = v.bits
  byte : ∀ i k, i < v.bits / 8 → k < 8 → w.words.bit (8 * i + k) = v.words.bit (8 * (v.bits / 8 - 1 - i) + k)
  above : ∀ index, 8 * (v.bits / 8) ≤ index → w.words.bit index = v.words.bit index

theorem testBit_swappedNumber (hn : n < 2 ^ bits) (index : Nat) :
    (swappedNumber bits n).testBit index = n.testBit (reversedIndex (bits / 8) index) := by
  have hwhole : bits / 8 ≤ (bits + 7) / 8 := by omega
  have htake : toBytes (bits / 8) n = (toBytes ((bits + 7) / 8) n).take (bits / 8) := by
    rw [take_toBytes, Nat.min_eq_left hwhole]
  have hlt : n < 2 ^ (8 * ((bits + 7) / 8)) := hn.trans_le (Nat.pow_le_pow_right (by omega) (by omega))
  rw [swappedNumber, testBit_ofBytes, htake, bitAt_reversed (by rw [length_toBytes]; exact hwhole),
    bitAt_toBytes_of_lt hlt]

theorem bits_swapBytes (hv : v.Proper) : v.swapBytes.bits = v.bits := by
  obtain ⟨words, hswap, -⟩ := hv.swapBytes_eq
  rw [hswap, bits_ofWords, Nat.max_eq_left hv.bits_pos]

theorem swapBytes_proper (v : WideInt) : v.swapBytes.Proper := ofWords_proper _ _

/-- Above the width no bit is set, and none comes there. -/
theorem testBit_swapBytes (hv : v.Proper) (index : Nat) :
    v.swapBytes.toNat.testBit index = v.toNat.testBit (reversedIndex (v.bits / 8) index) := by
  obtain ⟨words, hswap, hnumber⟩ := hv.swapBytes_eq
  rw [hswap, toNat_ofWords, hnumber, Nat.max_eq_left hv.bits_pos, Nat.testBit_mod_two_pow,
    testBit_swappedNumber hv.toNat_lt]
  by_cases hindex : index < v.bits
  · simp [hindex]
  · rw [reversedIndex_above (by omega),
      Nat.testBit_lt_two_pow (hv.toNat_lt.trans_le (Nat.pow_le_pow_right (by omega) (Nat.not_lt.1 hindex))),
      Bool.and_false]

theorem swapBytes_swapBytes (hv : v.Proper) : v.swapBytes.swapBytes = v := by
  have hbits := bits_swapBytes hv
  refine (swapBytes_proper _).ext hv ((bits_swapBytes (swapBytes_proper v)).trans hbits) ?_
  refine Nat.eq_of_testBit_eq fun i => ?_
  rw [testBit_swapBytes (swapBytes_proper v), testBit_swapBytes hv, hbits, reversedIndex_reversedIndex]

theorem reversed_swapBytes (hv : v.Proper) : v.Reversed v.swapBytes where
  bits_eq := bits_swapBytes hv
  byte i k hi hk := by
    rw [Limbs.bit_eq, Limbs.bit_eq, toNat_words, toNat_words, testBit_swapBytes hv, reversedIndex_byte hi hk]
  above index h := by
    rw [Limbs.bit_eq, Limbs.bit_eq, toNat_words, toNat_words, testBit_swapBytes hv, reversedIndex_above h]

end WideInt

/-! ## Scalars -/

namespace Scalar

variable {t : ScalarType} {s x y : Scalar t}

theorem length_toBytes (s : Scalar t) : s.toBytes.length = t.size := Cognate.length_toBytes _ _

theorem toBytes_ofBytes (h : bytes.length = t.size) : (ofBytes t bytes).toBytes = bytes := by
  have hlt : Cognate.ofBytes bytes < 2 ^ (8 * t.size) := by
    rw [Nat.pow_mul, ← h]
    exact ofBytes_lt bytes
  rw [toBytes, ofBytes, BitVec.toNat_ofNat, Nat.mod_eq_of_lt hlt, ← h]
  exact Cognate.toBytes_ofBytes bytes

theorem ofBytes_toBytes (s : Scalar t) : ofBytes t s.toBytes = s := by
  have hlt : s.bits.toNat < Nat.pow 256 t.size := by
    rw [Nat.pow_eq, show (256 : Nat) = 2 ^ 8 from rfl, ← Nat.pow_mul]
    exact s.bits.isLt
  rw [ofBytes, toBytes, Cognate.ofBytes_toBytes, Nat.mod_eq_of_lt hlt, BitVec.ofNat_toNat, BitVec.setWidth_eq]

theorem toBytes_swapBytes (s : Scalar t) : s.swapBytes.toBytes = s.toBytes.reverse :=
  toBytes_ofBytes (by rw [List.length_reverse, length_toBytes])

theorem testBit_bits (s : Scalar t) (index : Nat) : s.bits.toNat.testBit index = bitAt s.toBytes index :=
  (bitAt_toBytes_of_lt s.bits.isLt index).symm

theorem getLsbD_swapBytes (s : Scalar t) (index : Nat) :
    s.swapBytes.bits.getLsbD index = s.bits.getLsbD (reversedIndex t.size index) := by
  have hlength := length_toBytes s
  have hreversed := bitAt_reversed hlength.ge index
  rw [List.take_of_length_le hlength.le, List.drop_of_length_le hlength.le, List.append_nil] at hreversed
  rw [← BitVec.testBit_toNat, ← BitVec.testBit_toNat, testBit_bits, testBit_bits, toBytes_swapBytes, hreversed]

theorem swapBytes_swapBytes (s : Scalar t) : s.swapBytes.swapBytes = s := by
  rw [swapBytes, toBytes_swapBytes, List.reverse_reverse, ofBytes_toBytes]

theorem convert_convert (order : ByteOrder) (s : Scalar t) : order.convert (order.convert s) = s :=
  order.convert_convert (swapBytes_swapBytes s)

theorem toBytes_convert (order : ByteOrder) (s : Scalar t) : (order.convert s).toBytes = order.arrange s.toBytes := by
  cases order with
  | little => rfl
  | big => exact toBytes_swapBytes s

end Scalar

/-! ## Cells -/

namespace Cell

variable {t : ScalarType}

theorem raw_foldl_set (values : List (Scalar t)) (c : Cell order (Scalar t)) (value : Scalar t)
    (h : c.raw = order.convert value) : (values.foldl Cell.set c).raw = order.convert (values.getLastD value) := by
  induction values generalizing c value with
  | nil => exact h
  | cons next values ih => rw [List.foldl_cons, ih (c.set next) next rfl, List.getLastD_cons]

end Cell

/-- Reversing the bytes of an integer keeps its width, reverses its whole bytes and leaves the bits above them; it is
its own inverse, and with it the conversion to either order: to the big one a reversal, to the one of this machine
nothing. The same holds of scalars of every size over all of their bytes. A cell that some values are stored in, one
after the other, gives back the last one, and its raw bytes are those of that value in its order. -/
theorem swapBytes_reversed :
    (∀ v : WideInt, v.Proper → v.swapBytes.Proper ∧ v.Reversed v.swapBytes ∧ v.swapBytes.swapBytes = v ∧
      (∀ order : ByteOrder, order.convert (order.convert v) = v) ∧ big v = v.swapBytes ∧ little v = v) ∧
    (∀ (t : ScalarType) (s : Scalar t), s.swapBytes.toBytes = s.toBytes.reverse ∧
      (∀ i k, i < t.size → k < 8 →
        s.swapBytes.bits.getLsbD (8 * i + k) = s.bits.getLsbD (8 * (t.size - 1 - i) + k)) ∧
      s.swapBytes.swapBytes = s ∧ (∀ order : ByteOrder, order.convert (order.convert s) = s) ∧
      big s = s.swapBytes ∧ little s = s) ∧
    ∀ (order : ByteOrder) (t : ScalarType) (value : Scalar t) (values : List (Scalar t)),
      let c : Cell order (Scalar t) := values.foldl Cell.set (.store value)
      c.get = values.getLastD value ∧ c.raw.toBytes = order.arrange (values.getLastD value).toBytes := by
  refine ⟨fun v hv => ?_, fun t s => ?_, fun order t value values => ?_⟩
  · exact ⟨v.swapBytes_proper, WideInt.reversed_swapBytes hv, WideInt.swapBytes_swapBytes hv,
      ByteOrder.convert_convert (WideInt.swapBytes_swapBytes hv), rfl, rfl⟩
  · refine ⟨s.toBytes_swapBytes, fun i k hi hk => ?_, s.swapBytes_swapBytes, s.convert_convert, rfl, rfl⟩
    rw [s.getLsbD_swapBytes, reversedIndex_byte hi hk]
  · intro c
    have hraw : c.raw = order.convert (values.getLastD value) := Cell.raw_foldl_set values _ value rfl
    refine ⟨?_, by rw [hraw, Scalar.toBytes_convert]⟩
    rw [Cell.get, hraw, Scalar.convert_convert]

/-- Of twenty bits, the four on top of the two whole bytes stay; a cell in the big order holds the later of two
numbers. -/
theorem swapBytes_reversed_20 :
    let v := WideInt.ofWord 20 0xA1234
    let c : Cell .big (Scalar (.unsigned 2)) := Cell.set (.store (.ofInt _ 7)) (.ofInt _ 0x1234)
    v.Proper ∧ v.swapBytes.words = [0xA3412] ∧ v.swapBytes.swapBytes = v ∧ big v = v.swapBytes ∧
      c.get = .ofInt _ 0x1234 ∧ c.raw.toBytes = [0x12, 0x34] := by
  intro v c
  have hv : v.Proper := WideInt.ofWords_proper _ _
  obtain ⟨hwide, -, hcell⟩ := swapBytes_reversed
  obtain ⟨-, -, htwice, -, hbig, -⟩ := hwide v hv
  obtain ⟨hget, hraw⟩ := hcell .big (.unsigned 2) (.ofInt _ 7) [.ofInt _ 0x1234]
  exact ⟨hv, by decide +kernel, htwice, hbig, hget, hraw.trans (by decide +kernel)⟩

/-! ## Comparing cells -/

namespace Scalar

variable {t : ScalarType} {s x y : Scalar t}

/-- A float that is no number. -/
def isNan (s : Scalar t) : Bool := t.format?.any (·.isNan s.bits.toNat)

/-- Either of the two zeros of a float. -/
def isZero (s : Scalar t) : Bool := t.format?.any (·.isZero s.bits.toNat)

theorem isNan_of_isZero (h : s.isZero = true) : s.isNan = false := by
  unfold isZero at h
  unfold isNan
  cases hformat : t.format? with
  | none => rfl
  | some f =>
    rw [hformat] at h
    have hfraction : f.fraction s.bits.toNat = 0 := by simpa using (Bool.and_eq_true_iff.1 h).2
    simp [FloatFormat.isNan, hfraction]

theorem beq_of_format {f : FloatFormat} (h : t.format? = some f) (x y : Scalar t) :
    (x == y) = f.equal x.bits.toNat y.bits.toNat := by
  rw [BEq.beq, instBEq, h]

theorem beq_of_no_format (h : t.format? = none) (x y : Scalar t) : (x == y) = (x.bits == y.bits) := by
  rw [BEq.beq, instBEq, h]

/-- Only what is no number differs from itself. -/
theorem beq_self (x : Scalar t) : (x == x) = !x.isNan := by
  unfold isNan
  cases hformat : t.format? with
  | none => simp [beq_of_no_format hformat]
  | some f => simp [beq_of_format hformat, FloatFormat.equal]

/-- Only the zeros have more than one pattern. -/
theorem beq_of_ne (h : x ≠ y) : (x == y) = (x.isZero && y.isZero) := by
  have hbits : x.bits ≠ y.bits := fun he => h (by cases x; cases y; exact congrArg Scalar.mk he)
  have hnat : x.bits.toNat ≠ y.bits.toNat := fun he => hbits (BitVec.eq_of_toNat_eq he)
  have hx : x.isZero = true → x.isNan = false := isNan_of_isZero
  have hy : y.isZero = true → y.isNan = false := isNan_of_isZero
  unfold isZero isNan at *
  cases hformat : t.format? with
  | none => simp [beq_of_no_format hformat, hbits]
  | some f =>
    rw [hformat] at hx hy
    simp only [Option.any_some] at hx hy ⊢
    rw [beq_of_format hformat, FloatFormat.equal, beq_eq_false_iff_ne.2 hnat, Bool.false_or]
    cases hzero : f.isZero x.bits.toNat && f.isZero y.bits.toNat with
    | false => rw [Bool.and_false]
    | true =>
      obtain ⟨hzx, hzy⟩ := Bool.and_eq_true_iff.1 hzero
      rw [hx hzx, hy hzy]
      rfl

theorem convert_ne (h : x ≠ y) (order : ByteOrder) : order.convert x ≠ order.convert y := fun he =>
  h (by rw [← convert_convert order x, he, convert_convert])

end Scalar

namespace Cell

variable {t : ScalarType}

/-- Cells of integers, and of all values in the order of this machine, are equal exactly if the values are. In general
two cells are equal exactly if both raw values are numbers, or infinite, and either the values have the same bits or the
raw values are zeros. That agrees with the comparison of the values in two cases: they have the same bits, and these are
a number as they are exactly if they are one in the other order; or the bits differ, and the raw values are zeros
exactly if the values are. -/
theorem beq_store_iff (order : ByteOrder) (t : ScalarType) (x y : Scalar t) :
    let stored : Bool := (store x : Cell order (Scalar t)) == store y
    let x' := order.convert x
    let y' := order.convert y
    (t.format? = none ∨ order = .little → stored = (x == y)) ∧
      (stored = true ↔ x'.isNan = false ∧ y'.isNan = false ∧ (x = y ∨ x'.isZero = true ∧ y'.isZero = true)) ∧
      (stored = (x == y) ↔
        if x = y then x'.isNan = x.isNan else (x'.isZero && y'.isZero) = (x.isZero && y.isZero)) := by
  intro stored x' y'
  have hstored : stored = (x' == y') := rfl
  by_cases hxy : x = y
  · subst hxy
    rw [hstored, if_pos rfl, Scalar.beq_self, Scalar.beq_self]
    refine ⟨?_, by simp [x', y'], by simp [x']⟩
    rintro (hformat | rfl)
    · simp [Scalar.isNan, hformat]
    · rfl
  · rw [hstored, if_neg hxy, Scalar.beq_of_ne (Scalar.convert_ne hxy order), Scalar.beq_of_ne hxy]
    refine ⟨?_, ?_, Iff.rfl⟩
    · rintro (hformat | rfl)
      · simp [Scalar.isZero, hformat]
      · rfl
    · rw [Bool.and_eq_true_iff]
      refine ⟨fun ⟨hx, hy⟩ => ⟨Scalar.isNan_of_isZero hx, Scalar.isNan_of_isZero hy, .inr ⟨hx, hy⟩⟩, ?_⟩
      rintro ⟨-, -, h | h⟩
      · exact absurd h hxy
      · exact h

/-- The integers -2 in two cells are equal in either order, and the zeros of a float are so only in the one of this
machine. -/
theorem beq_store_iff_zeros :
    let plus : Scalar .float32 := .ofInt _ 0
    let minus : Scalar .float32 := .ofInt _ 0x80000000
    let n : Scalar (.signed 4) := .ofInt _ (-2)
    ((store n : Cell .big (Scalar (.signed 4))) == store n) = true ∧
      ((store plus : Cell .little (Scalar .float32)) == store minus) = true ∧
      ((store plus : Cell .big (Scalar .float32)) == store minus) ≠ (plus == minus) := by
  intro plus minus n
  obtain ⟨hn, -⟩ := beq_store_iff .big (.signed 4) n n
  obtain ⟨hlittle, -⟩ := beq_store_iff .little .float32 plus minus
  obtain ⟨-, -, hbig⟩ := beq_store_iff .big .float32 plus minus
  exact ⟨(hn (.inl rfl)).trans (by decide +kernel), (hlittle (.inr rfl)).trans (by decide +kernel),
    fun h => absurd (hbig.1 h) (by decide +kernel)⟩

/-- The float 1.0039214 equals itself, but two cells that hold it in the big order are different: with its bytes
reversed it is no number. -/
theorem exists_beq_store_ne :
    ∃ (order : ByteOrder) (t : ScalarType) (x y : Scalar t),
      (x == y) = true ∧ ((store x : Cell order (Scalar t)) == store y) = false :=
  ⟨.big, .float32, .ofInt _ 0x3F80807F, .ofInt _ 0x3F80807F, by decide +kernel, by decide +kernel⟩

end Cell
end Cognate
