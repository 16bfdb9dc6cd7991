import Cognate.Proofs.Raw.Streams

/-!
# Padding of raw values

What is read and then written again. The bytes of a value are those it was read from with the bits above the width of an
integer cleared (`ofBytes_encode`); they are its canonical bytes, and as they give the value back, two byte strings are
read as the same value exactly if they agree up to the padding (`encode_read`).
-/

namespace Cognate

/-- The bit of that index, counted from the low end of the first byte. -/
def bitAt (bytes : List UInt8) (index : Nat) : Bool := (bytes.getD (index / 8) 0).toNat.testBit (index % 8)

/-- Bits of the encoding that are not padding: of an integer those of its width, of other types all. -/
def RawType.valueBits : RawType → Nat
  | .int bits => max bits 1
  | type => 8 * type.size

theorem RawType.valueBits_of_ne {type : RawType} (h : ∀ bits, type ≠ .int bits) : type.valueBits = 8 * type.size := by
  unfold valueBits
  split
  · exact absurd rfl (h _)
  · rfl

/-! ## Bits of bytes -/

theorem testBit_ofBytes (bytes : List UInt8) (index : Nat) : (ofBytes bytes).testBit index = bitAt bytes index := by
  induction bytes generalizing index with
  | nil => simp [ofBytes, bitAt]
  | cons b bytes ih =>
    have hb : b.toNat < 2 ^ 8 := b.toNat_lt
    have hnumber : ofBytes (b :: bytes) = 2 ^ 8 * ofBytes bytes + b.toNat := Nat.add_comm _ _
    rw [hnumber, Nat.testBit_two_pow_mul_add _ hb]
    split
    · next hlow =>
      rw [bitAt, Nat.div_eq_of_lt hlow, Nat.mod_eq_of_lt hlow]
      rfl
    · next hhigh =>
      have hindex : index = index - 8 + 8 := by omega
      rw [ih, bitAt, bitAt]
      conv => rhs; rw [hindex, Nat.add_div_right _ (by omega), Nat.add_mod_right]
      rfl

theorem bitAt_take {n index : Nat} (bytes : List UInt8) (h : index < 8 * n) :
    bitAt (bytes.take n) index = bitAt bytes index := by
  have hlt : index / 8 < n := by omega
  simp only [bitAt, List.getD_eq_getElem?_getD, List.getElem?_take_of_lt hlt]

/-- Low bits are the same exactly if they are the same one by one. -/
theorem mod_two_pow_eq_iff {m n bits : Nat} :
    m % 2 ^ bits = n % 2 ^ bits ↔ ∀ i < bits, m.testBit i = n.testBit i := by
  refine ⟨fun h i hi => ?_, fun h => Nat.eq_of_testBit_eq fun i => ?_⟩
  · have hbit := congrArg (Nat.testBit · i) h
    simpa [Nat.testBit_mod_two_pow, hi] using hbit
  · rw [Nat.testBit_mod_two_pow, Nat.testBit_mod_two_pow]
    by_cases hi : i < bits
    · rw [h i hi]
    · simp [hi]

/-- So many bytes of the same number are the same. -/
theorem ofBytes_inj {bytes bytes' : List UInt8} (hlength : bytes.length = bytes'.length)
    (h : ofBytes bytes = ofBytes bytes') : bytes = bytes' := by
  rw [← toBytes_ofBytes bytes, ← toBytes_ofBytes bytes', hlength, h]

namespace RawValue

open RawType

variable {type : RawType} {value value' : RawValue} {bytes bytes' : List UInt8} {n n' : Nat}

/-! ## Values as they are read -/

/-- Reading takes as many bytes as the type says. -/
theorem read_length (h : read type bytes = .ok (value, n)) (h' : read type bytes' = .ok (value', n')) : n = n' :=
  Option.some.inj ((read_eq_ok h).1.symm.trans (read_eq_ok h').1)

/-- What is read fits the type it is read as. -/
theorem fits_of_ofEncoding (h : ofEncoding type bytes = some value) : Fits type value := by
  cases type with
  | void => cases h; exact .void
  | float => cases h; exact .float _
  | double => cases h; exact .double _
  | pointer => cases h; exact .pointer _
  | int bits => cases h; exact .int (WideInt.ofWords_proper _ _) rfl
  | struct | array | vector => cases h

/-- The bytes of a value that was read have its number: that of the bytes it was read from, up to the padding. -/
theorem ofBytes_encode {encoded : List UInt8} (hsize : type.encodedSize? = some bytes.length)
    (hvalue : ofEncoding type bytes = some value) (hencoded : value.encode type = .ok encoded) :
    ofBytes encoded = ofBytes bytes % 2 ^ type.valueBits := by
  have hlt := ofBytes_lt bytes
  cases type with
  | void =>
    cases hvalue
    cases hencoded
    have hnil : bytes = [] := List.length_eq_zero_iff.1 (Option.some.inj hsize).symm
    rw [hnil]
    rfl
  | float =>
    cases hvalue
    cases hencoded
    rw [ofBytes_toBytes, UInt32.toNat_ofNat']
    exact Nat.mod_mod _ _
  | double =>
    cases hvalue
    cases hencoded
    rw [Limbs.ofBytes_toBytes_word, UInt64.toNat_ofNat']
    rfl
  | pointer =>
    cases hvalue
    cases hencoded
    rw [Limbs.ofBytes_toBytes_word, UInt64.toNat_ofNat']
    rfl
  | int bits =>
    cases hvalue
    rw [encode, if_pos (WideInt.bits_ofWords _ _)] at hencoded
    cases hencoded
    rw [Limbs.ofBytes_toByteList, WideInt.toNat_words, WideInt.toNat_ofWords, Limbs.toNat_ofByteList]
    rfl
  | struct | array | vector => cases hvalue

theorem valueBits_le (hsize : type.encodedSize? = some n) : type.valueBits ≤ 8 * n := by
  by_cases hint : ∃ bits, type = .int bits
  · obtain ⟨bits, rfl⟩ := hint
    cases hsize
    rw [valueBits, wordsFor]
    omega
  · rw [valueBits_of_ne (not_exists.1 hint), size_eq hsize]

/-- A value that was read is written as many bytes as it was read from, and these give it back. -/
theorem read_canonical (h : read type bytes = .ok (value, n)) :
    ∃ encoded, value.encode type = .ok encoded ∧ encoded.length = n ∧
      ofBytes encoded = ofBytes (bytes.take n) % 2 ^ type.valueBits ∧ read type encoded = .ok (value, n) := by
  obtain ⟨hsize, hle, hvalue⟩ := read_eq_ok h
  obtain ⟨encoded, hencoded, hlength, hagain⟩ := (fits_of_ofEncoding hvalue).encode
  have hn : encoded.length = n := Option.some.inj (hlength.symm.trans hsize)
  have htake : type.encodedSize? = some (bytes.take n).length := by rw [hsize, List.length_take_of_le hle]
  refine ⟨encoded, hencoded, hn, ofBytes_encode htake hvalue hencoded, ?_⟩
  have hread : read type (encoded ++ []) = .ok (value, encoded.length) := read_append hlength hagain
  rwa [List.append_nil, hn] at hread

/-- Values that were read are the same exactly if the numbers of their bytes are, up to the padding: each value goes
with its canonical bytes. -/
theorem eq_iff_ofBytes (h : read type bytes = .ok (value, n)) (h' : read type bytes' = .ok (value', n)) :
    value = value' ↔ ofBytes (bytes.take n) % 2 ^ type.valueBits = ofBytes (bytes'.take n) % 2 ^ type.valueBits := by
  obtain ⟨encoded, hencoded, hlength, hnumber, hread⟩ := read_canonical h
  obtain ⟨encoded', hencoded', hlength', hnumber', hread'⟩ := read_canonical h'
  rw [← hnumber, ← hnumber']
  constructor
  · rintro rfl
    rw [hencoded] at hencoded'
    cases hencoded'
    rfl
  · intro heq
    rw [← ofBytes_inj (hlength.trans hlength'.symm) heq, hread] at hread'
    cases hread'
    rfl

/-- A value that was read is written again, as the bytes it was read from with the padding cleared, and so unchanged
where there is no padding; reading these gives the value again. Another byte string is read as the same value exactly if
it agrees with the first one in all bits that are not padding. -/
theorem encode_read (h : read type bytes = .ok (value, n)) :
    ∃ encoded, value.encode type = .ok encoded ∧ encoded.length = n ∧ n ≤ bytes.length ∧ type.valueBits ≤ 8 * n ∧
      (∀ i < 8 * n, bitAt encoded i = (decide (i < type.valueBits) && bitAt bytes i)) ∧
      ((∀ bits, type ≠ .int bits) → encoded = bytes.take n) ∧ decode type encoded = .ok value ∧
      ∀ bytes' value' n', read type bytes' = .ok (value', n') →
        (value = value' ↔ ∀ i < type.valueBits, bitAt bytes i = bitAt bytes' i) := by
  obtain ⟨hsize, hle, -⟩ := read_eq_ok h
  obtain ⟨encoded, hencoded, hlength, hnumber, hread⟩ := read_canonical h
  have hbits := valueBits_le hsize
  refine ⟨encoded, hencoded, hlength, hle, hbits, ?_, ?_, by rw [decode, hread]; rfl, ?_⟩
  · intro i hi
    rw [← testBit_ofBytes, hnumber, Nat.testBit_mod_two_pow, testBit_ofBytes, bitAt_take bytes hi]
  · intro hint
    have htake : (bytes.take n).length = n := List.length_take_of_le hle
    have hlt := ofBytes_lt (bytes.take n)
    rw [htake, Nat.pow_eq, show (256 : Nat) = 2 ^ 8 from rfl, ← Nat.pow_mul] at hlt
    rw [valueBits_of_ne hint, size_eq hsize, Nat.mod_eq_of_lt hlt] at hnumber
    exact ofBytes_inj (hlength.trans htake.symm) hnumber
  · intro bytes' value' n' h'
    obtain rfl := read_length h h'
    rw [eq_iff_ofBytes h h', mod_two_pow_eq_iff]
    refine forall₂_congr fun i hi => ?_
    have hi' : i < 8 * n := hi.trans_le hbits
    rw [testBit_ofBytes, testBit_ofBytes, bitAt_take bytes hi', bitAt_take bytes' hi']

/-- An integer of 65 bits takes two words. Of the second one all bits but the lowest are padding: they are cleared in
what is written, and bytes that differ there are read as the same value. -/
theorem encode_read_65 :
    let bytes : List UInt8 := List.replicate 8 0xA5 ++ List.replicate 9 0xFF
    let bytes' : List UInt8 := List.replicate 8 0xA5 ++ 3 :: List.replicate 7 0
    let value := RawValue.int (.ofWords 65 [0xA5A5A5A5A5A5A5A5, 1])
    read (.int 65) bytes = .ok (value, 16) ∧ read (.int 65) bytes' = .ok (value, 16) ∧
      value.encode (.int 65) = .ok (List.replicate 8 0xA5 ++ 1 :: List.replicate 7 0) ∧
      decode (.int 65) (List.replicate 8 0xA5 ++ 1 :: List.replicate 7 0) = .ok value ∧
      ∀ i < 65, bitAt bytes i = bitAt bytes' i := by
  intro bytes bytes' value
  have h : read (.int 65) bytes = .ok (value, 16) := by cbv
  have h' : read (.int 65) bytes' = .ok (value, 16) := by cbv
  obtain ⟨encoded, hencoded, -, -, -, -, -, hagain, hsame⟩ := encode_read h
  have hbytes : value.encode (.int 65) = .ok (List.replicate 8 0xA5 ++ 1 :: List.replicate 7 0) := by cbv
  rw [hencoded] at hbytes
  cases hbytes
  exact ⟨h, h', hencoded, hagain, (hsame _ _ _ h').1 rfl⟩

end RawValue
end Cognate
