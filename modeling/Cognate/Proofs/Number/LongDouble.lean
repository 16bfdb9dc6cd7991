import Cognate.Number.LongDouble
import Cognate.Proofs.Number.Decimal

/-!
# Texts of extended floats

A float is written in a buffer of exactly its length (`render_eq`). `Encoding` says where the fields of the three
formats stand and which numbers they denote, and `render_spec` what text they have.
-/

namespace Cognate

namespace LongDouble

variable {format : LongDouble} {bytes : List UInt8}

/-! ## Writing in two passes -/

theorem le_countBytes (start : Nat) (pieces : List String) : start ≤ countBytes start pieces := by
  induction pieces generalizing start with
  | nil => exact le_rfl
  | cons piece pieces ih => exact (Nat.le_add_right _ _).trans (ih _)

/-- A buffer of the length that was counted takes all pieces and is full then. -/
theorem fill_countBytes (text : String) (pieces : List String) :
    fill (countBytes text.utf8ByteSize pieces) text pieces = some (pieces.foldl (· ++ ·) text) ∧
      (pieces.foldl (· ++ ·) text).utf8ByteSize = countBytes text.utf8ByteSize pieces := by
  induction pieces generalizing text with
  | nil => exact ⟨rfl, rfl⟩
  | cons piece pieces ih =>
    have hle := le_countBytes (text.utf8ByteSize + piece.utf8ByteSize) pieces
    have ih := ih (text ++ piece)
    rw [String.utf8ByteSize_append] at ih
    rw [fill, countBytes, if_neg (Nat.not_lt.2 hle)]
    exact ih

/-- Both passes write the same, so that the buffer is never too small or too large. -/
theorem render_eq (format : LongDouble) (bytes : List UInt8) :
    format.render bytes =
      match format.value bytes with
      | none => .error .length
      | some v => .ok (String.join (pieces v)) := by
  unfold render
  cases format.value bytes with
  | none => rfl
  | some v =>
    obtain ⟨hfill, hsize⟩ := fill_countBytes "" (pieces v)
    have hempty : "".utf8ByteSize = 0 := rfl
    rw [hempty] at hfill hsize
    dsimp only
    rw [hfill]
    dsimp only
    rw [hsize, if_neg (not_not.2 rfl)]
    rfl

/-! ## Encodings -/

/-- Bits of the stored exponent. -/
def exponentBits : LongDouble → Nat
  | extended _ => 15
  | quadruple => 15
  | double => 11

/-- Bits of a significand behind the point. -/
def fractionBits : LongDouble → Nat
  | extended _ => 63
  | quadruple => 112
  | double => 52

/-- The bit in front of the point is stored as well. -/
def storesInteger : LongDouble → Bool
  | extended _ => true
  | quadruple => false
  | double => false

/-- The fields of an encoded float. -/
structure Encoding where
  negative : Bool
  exponent : Nat
  /-- The bit of the significand in front of the point. -/
  integer : Bool
  fraction : Nat

/-- The fields of a bit pattern: from the top the sign, the exponent, the integer bit if it is stored, the fraction. A
format that does not store the integer bit has it set unless the exponent is zero. -/
def encoding (format : LongDouble) (bits : Nat) : Encoding :=
  let significandBits := format.fractionBits + if format.storesInteger then 1 else 0
  let exponent := bits / 2 ^ significandBits % 2 ^ format.exponentBits
  { negative := bits.testBit (significandBits + format.exponentBits)
    exponent
    integer := if format.storesInteger then bits.testBit format.fractionBits else exponent != 0
    fraction := bits % 2 ^ format.fractionBits }

namespace Encoding

variable {e : Encoding}

/-- Only the least exponent goes without the integer bit. -/
def Valid (e : Encoding) : Prop := e.exponent = 0 ∨ e.integer = true

/-- The greatest exponent stands for no number. -/
def Special (format : LongDouble) (e : Encoding) : Prop := e.exponent = 2 ^ format.exponentBits - 1

/-- The significand as a whole number. -/
def significand (format : LongDouble) (e : Encoding) : Nat :=
  e.fraction + if e.integer then 2 ^ format.fractionBits else 0

/-- The exponent of the whole number. The two least stored exponents mean the same. -/
def scale (format : LongDouble) (e : Encoding) : Int :=
  max e.exponent 1 - (2 ^ (format.exponentBits - 1) - 1 : Nat) - format.fractionBits

/-- The absolute value of the number. -/
def magnitude (format : LongDouble) (e : Encoding) : ℚ := e.significand format * 2 ^ e.scale format

instance : Decidable e.Valid := inferInstanceAs (Decidable (_ ∨ _))

instance : Decidable (e.Special format) := inferInstanceAs (Decidable (_ = _))

/-- What the fields denote. -/
def value (format : LongDouble) (e : Encoding) : Option (FloatValue Nat) :=
  if ¬ e.Valid then none
  else if e.Special format then some (if e.fraction = 0 then .infinite e.negative else .nan e.negative)
  else some (.finite e.negative (e.significand format) (e.scale format))

end Encoding

/-! ## The three formats -/

theorem toNat_word {n : Nat} (h : n < 2 ^ 64) : Limbs.toNat [UInt64.ofNat n] = n := by
  rw [Limbs.toNat_cons, Limbs.toNat_nil, UInt64.toNat_ofNat', Nat.mod_eq_of_lt h, Nat.mul_zero, Nat.add_zero]

theorem encoding_extended (storage : Nat) {mantissa signExponent : Nat} (hm : mantissa < 2 ^ 64)
    (hs : signExponent < 2 ^ 16) :
    (extended storage).encoding (mantissa + 2 ^ 64 * signExponent) =
      ⟨signExponent / 2 ^ 15 == 1, signExponent % 2 ^ 15, mantissa / 2 ^ 63 == 1, mantissa % 2 ^ 63⟩ := by
  have hdiv : (mantissa + 2 ^ 64 * signExponent) / 2 ^ 64 = signExponent := by omega
  have hsign : (mantissa + 2 ^ 64 * signExponent).testBit (64 + 15) = (signExponent / 2 ^ 15 == 1) := by
    rw [Nat.testBit_eq_decide_div_mod_eq, Nat.pow_add, ← Nat.div_div_eq_div_mul, hdiv, Bool.eq_iff_iff]
    simp only [decide_eq_true_eq, beq_iff_eq]
    omega
  have hinteger : (mantissa + 2 ^ 64 * signExponent).testBit 63 = (mantissa / 2 ^ 63 == 1) := by
    rw [Nat.testBit_eq_decide_div_mod_eq, Bool.eq_iff_iff]
    simp only [decide_eq_true_eq, beq_iff_eq]
    omega
  have hfraction : (mantissa + 2 ^ 64 * signExponent) % 2 ^ 63 = mantissa % 2 ^ 63 := by omega
  simp only [encoding, storesInteger, fractionBits, exponentBits, if_true, hdiv, hsign, hinteger, hfraction]

theorem extendedValue_eq (storage : Nat) {mantissa signExponent : Nat} (hm : mantissa < 2 ^ 64)
    (hs : signExponent < 2 ^ 16) :
    (extendedValue mantissa signExponent).map (FloatValue.map Limbs.toNat) =
      ((extended storage).encoding (mantissa + 2 ^ 64 * signExponent)).value (extended storage) := by
  rw [encoding_extended storage hm hs]
  have hsignificand : (mantissa % 2 ^ 63 + if (mantissa / 2 ^ 63 == 1) = true then 2 ^ 63 else 0) = mantissa := by
    rcases (by omega : mantissa / 2 ^ 63 = 0 ∨ mantissa / 2 ^ 63 = 1) with h | h
    · rw [h, if_neg (by decide)]
      omega
    · rw [h, if_pos (by decide)]
      omega
  have hword := toNat_word hm
  unfold extendedValue
  simp only [Nat.pow_eq]
  -- Only the fields matter from here on.
  generalize signExponent % 2 ^ 15 = exponent
  generalize (signExponent / 2 ^ 15 == 1) = negative
  revert hsignificand
  generalize (mantissa / 2 ^ 63 == 1) = integer
  generalize mantissa % 2 ^ 63 = fraction
  intro hsignificand
  unfold Encoding.value Encoding.significand Encoding.scale
  by_cases hzero : exponent = 0
  · subst hzero
    simp only [Encoding.Valid, Encoding.Special, exponentBits, fractionBits, hsignificand]
    simp [FloatValue.map, hword]
  · cases integer with
    | false => simp [Encoding.Valid, hzero]
    | true =>
      have hsum : fraction + 9223372036854775808 = mantissa := hsignificand
      by_cases hspecial : exponent = 32767
      · by_cases hfraction : fraction = 0 <;>
          simp [Encoding.Valid, Encoding.Special, exponentBits, hspecial, hfraction, FloatValue.map]
      · have hmax : max (exponent : Int) 1 = exponent := by omega
        simp [Encoding.Valid, Encoding.Special, exponentBits, fractionBits, hzero, hspecial, hsum, hmax, FloatValue.map,
          hword]

/-- A format without a stored integer bit is an interchange format. -/
theorem interchange_value {f : FloatFormat} (hfraction : f.fractionBits = format.fractionBits)
    (hexponent : f.exponentBits = format.exponentBits) (hinteger : format.storesInteger = false) (bits : Nat) :
    some (f.value bits) = (format.encoding bits).value format := by
  have hsign : f.sign bits = (format.encoding bits).negative := by
    simp [FloatFormat.sign, encoding, hinteger, hfraction, hexponent]
  have hstored : f.exponent bits = (format.encoding bits).exponent := by
    simp [FloatFormat.exponent, encoding, hinteger, hfraction, hexponent]
  have hfields : f.fraction bits = (format.encoding bits).fraction := by
    simp [FloatFormat.fraction, encoding, hfraction]
  have hset : (format.encoding bits).integer = ((format.encoding bits).exponent != 0) := by
    simp [encoding, hinteger]
  unfold FloatFormat.value
  rw [hsign, hstored, hfields]
  -- Only the fields matter from here on.
  generalize format.encoding bits = e at hset ⊢
  have hbias : f.bias = 2 ^ (format.exponentBits - 1) - 1 := by rw [FloatFormat.bias, hexponent, Nat.pow_eq]
  have hspecial : f.specialExponent = 2 ^ format.exponentBits - 1 := by
    rw [FloatFormat.specialExponent, hexponent, Nat.pow_eq]
  have hvalid : e.Valid := by
    by_cases hzero : e.exponent = 0
    · exact .inl hzero
    · exact .inr (by simp [hset, hzero])
  unfold Encoding.value
  rw [if_neg (not_not.2 hvalid)]
  by_cases hs : e.Special format
  · have hs' : e.exponent = f.specialExponent := hs.trans hspecial.symm
    simp [hs, hs']
  · have hs' : e.exponent ≠ f.specialExponent := fun he => hs (he.trans hspecial)
    by_cases hzero : e.exponent = 0
    · have hne : 0 ≠ f.specialExponent := hzero ▸ hs'
      simp [hs, hne, hzero, Encoding.significand, Encoding.scale, hset, hbias, hfraction]
    · have hmax : max (e.exponent : Int) 1 = e.exponent := by omega
      simp [hs, hs', hzero, Encoding.significand, Encoding.scale, hset, hbias, hfraction, hmax,
        Nat.add_comm]

/-- A significand is no longer than the fraction and the bit in front of it. -/
theorem significand_lt {f : FloatFormat} {bits m : Nat} {negative : Bool} {e : Int}
    (h : f.value bits = .finite negative m e) : m < 2 ^ (f.fractionBits + 1) := by
  have hfraction : f.fraction bits < 2 ^ f.fractionBits := Nat.mod_lt _ (Nat.two_pow_pos _)
  unfold FloatFormat.value at h
  dsimp only at h
  split at h
  · split at h <;> cases h
  · split at h
    · cases h
      exact hfraction.trans (Nat.pow_lt_pow_right (by omega) (by omega))
    · cases h
      rw [Nat.pow_eq, Nat.pow_succ]
      omega

/-- Words keep a value if they keep significands of its length. -/
theorem map_toNat_map {f : FloatFormat} {words : Nat → Limbs}
    (hwords : ∀ m < 2 ^ (f.fractionBits + 1), (words m).toNat = m) (bits : Nat) :
    ((f.value bits).map words).map Limbs.toNat = f.value bits := by
  cases h : f.value bits with
  | finite negative m e => exact congrArg (FloatValue.finite negative · e) (hwords m (significand_lt h))
  | infinite negative => rfl
  | nan negative => rfl

/-- The value of bytes, by the fields of their bits. -/
theorem value_eq (h : format.significantBytes ≤ bytes.length) :
    (format.value bytes).map (FloatValue.map Limbs.toNat) =
      (format.encoding (ofBytes (bytes.take format.significantBytes))).value format := by
  unfold value
  rw [if_neg (Nat.not_lt.2 h)]
  cases format with
  | extended storage =>
    have hlength : 10 ≤ bytes.length := h
    have hlow : (bytes.take 8).length = 8 := List.length_take_of_le (by omega)
    have hhigh : ((bytes.drop 8).take 2).length = 2 := List.length_take_of_le (by rw [List.length_drop]; omega)
    have hm := ofBytes_lt (bytes.take 8)
    have hs := ofBytes_lt ((bytes.drop 8).take 2)
    rw [hlow] at hm
    rw [hhigh] at hs
    have hbits : ofBytes (bytes.take 10) =
        ofBytes (bytes.take 8) + 2 ^ 64 * ofBytes ((bytes.drop 8).take 2) := by
      rw [List.take_add (i := 8) (j := 2), ofBytes_append, hlow]
      rfl
    rw [significantBytes, hbits]
    exact extendedValue_eq storage hm hs
  | quadruple =>
    refine (congrArg some (map_toNat_map (fun m hm => Limbs.toNat_ofNat128 ?_) _)).trans
      (interchange_value rfl rfl rfl _)
    exact hm.trans (by decide)
  | double =>
    refine (congrArg some (map_toNat_map (fun m hm => toNat_word ?_) _)).trans (interchange_value rfl rfl rfl _)
    exact hm.trans (by decide)

/-! ## Texts -/

/-- The pieces of a value make up its text with six places. -/
theorem join_pieces (v : FloatValue Limbs) : String.join (pieces v) = Text.fixed (v.map Limbs.toNat) := by
  cases v with
  | infinite negative => cases negative <;> rfl
  | nan negative => cases negative <;> rfl
  | finite negative m e =>
    have hdigits : (Text.limbMillionths m e).toDecimal.toList = Nat.toDigits 10 (Text.millionths m.toNat e) := by
      rw [Limbs.toList_toDecimal, Text.toNat_limbMillionths]
    rw [pieces, FloatValue.map, Text.fixed, Text.withPoint, hdigits]
    apply String.toList_injective
    cases negative <;> simp [String.join, Text.minus]

theorem render_eq_fixed (format : LongDouble) (bytes : List UInt8) :
    format.render bytes =
      match (format.value bytes).map (FloatValue.map Limbs.toNat) with
      | none => .error .length
      | some v => .ok (Text.fixed v) := by
  rw [render_eq]
  cases format.value bytes with
  | none => rfl
  | some v => exact congrArg Except.ok (join_pieces v)

/-- The text of bytes. Too few bytes and invalid encodings have none. The others have their sign in front; a number is
written as the whole number of millionths that is nearest to it. -/
theorem render_spec (format : LongDouble) (bytes : List UInt8) :
    let e := format.encoding (ofBytes (bytes.take format.significantBytes))
    (bytes.length < format.significantBytes ∨ ¬ e.Valid → format.render bytes = .error .length) ∧
      (format.significantBytes ≤ bytes.length → e.Valid → e.Special format →
        format.render bytes = .ok (Text.minus e.negative ++ if e.fraction = 0 then "inf" else "nan")) ∧
      (format.significantBytes ≤ bytes.length → e.Valid → ¬ e.Special format →
        ∃ n text, NearestEven (e.magnitude format * 10 ^ 6) n ∧ Text.SixPlaces n text ∧
          format.render bytes = .ok (Text.minus e.negative ++ text)) ∧
      format.render bytes ≠ .error .format := by
  intro e
  have hrender : format.significantBytes ≤ bytes.length →
      format.render bytes =
        match e.value format with
        | none => .error .length
        | some v => .ok (Text.fixed v) := fun h => by rw [render_eq_fixed, value_eq h]
  refine ⟨fun h => ?_, fun h hvalid hspecial => ?_, fun h hvalid hspecial => ?_, fun hformat => ?_⟩
  · by_cases hshort : bytes.length < format.significantBytes
    · have hvalue : format.value bytes = none := by
        unfold value
        rw [if_pos hshort]
      rw [render_eq, hvalue]
    · rw [hrender (Nat.not_lt.1 hshort), Encoding.value, if_pos (h.resolve_left hshort)]
  · rw [hrender h, Encoding.value, if_neg (not_not.2 hvalid), if_pos hspecial]
    by_cases hz : e.fraction = 0
    · rw [if_pos hz, if_pos hz]
      rfl
    · rw [if_neg hz, if_neg hz]
      rfl
  · rw [hrender h, Encoding.value, if_neg (not_not.2 hvalid), if_neg hspecial]
    exact ⟨_, _, Text.nearestEven_millionths _ _, Text.sixPlaces_withPoint _, rfl⟩
  · rw [render_eq] at hformat
    split at hformat <;> cases hformat

/-- An infinity below zero, a number that lacks its integer bit, too few bytes, and one half with its sign set. -/
theorem render_spec_half :
    (extended 16).render [0, 0, 0, 0, 0, 0, 0, 0x80, 0xFF, 0xFF] = .ok "-inf" ∧
      (extended 16).render [1, 0, 0, 0, 0, 0, 0, 0, 0xFF, 0x3F] = .error .length ∧
      quadruple.render [0, 0, 0, 0, 0, 0, 0xF0] = .error .length ∧
      ∃ n text, NearestEven ((2 ^ 52 : Nat) * 2 ^ (-53 : Int) * 10 ^ 6) n ∧ Text.SixPlaces n text ∧
        double.render [0, 0, 0, 0, 0, 0, 0xE0, 0xBF] = .ok ("-" ++ text) := by
  refine ⟨?_, ?_, ?_, ?_⟩
  · exact (render_spec (extended 16) _).2.1 (by decide) (by decide) (by decide)
  · exact (render_spec (extended 16) _).1 (.inr (by decide))
  · exact (render_spec quadruple _).1 (.inl (by decide))
  · exact (render_spec double [0, 0, 0, 0, 0, 0, 0xE0, 0xBF]).2.2.1 (by decide) (by decide) (by decide)

end LongDouble
end Cognate
