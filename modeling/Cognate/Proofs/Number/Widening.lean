import Cognate.Proofs.Number.LongDouble

/-!
# Widening

What bits stand for is their sign, whether they are a number, and the number as an exact rational (`magnitude`). A
format that is wider in the sense of `Wider` has bits for all of it, so that nothing is lost on the way (`same_widen`).
-/

namespace Cognate.FloatFormat

variable {f g : FloatFormat} {bits fraction exponent : Nat} {negative : Bool}

/-! ## Fields -/

theorem fraction_lt (f : FloatFormat) (bits : Nat) : f.fraction bits < 2 ^ f.fractionBits :=
  Nat.mod_lt _ (Nat.two_pow_pos _)

theorem exponent_lt (f : FloatFormat) (bits : Nat) : f.exponent bits < 2 ^ f.exponentBits :=
  Nat.mod_lt _ (Nat.two_pow_pos _)

theorem fraction_assemble (negative : Bool) (exponent : Nat) (hfraction : fraction < 2 ^ f.fractionBits) :
    f.fraction (f.assemble negative exponent fraction) = fraction := by
  rw [FloatFormat.fraction, assemble, Nat.pow_eq, Nat.pow_eq, Nat.mul_add_mod_self_right, Nat.mod_eq_of_lt hfraction]

/-- The fields above the fraction. -/
theorem assemble_div (negative : Bool) (exponent : Nat) (hfraction : fraction < 2 ^ f.fractionBits) :
    f.assemble negative exponent fraction / 2 ^ f.fractionBits =
      (if negative then 1 else 0) * 2 ^ f.exponentBits + exponent := by
  rw [assemble, Nat.pow_eq, Nat.pow_eq, Nat.mul_comm _ (2 ^ f.fractionBits), Nat.mul_add_div (Nat.two_pow_pos _),
    Nat.div_eq_of_lt hfraction, Nat.add_zero]

theorem exponent_assemble (negative : Bool) (hexponent : exponent < 2 ^ f.exponentBits)
    (hfraction : fraction < 2 ^ f.fractionBits) :
    f.exponent (f.assemble negative exponent fraction) = exponent := by
  rw [FloatFormat.exponent, Nat.pow_eq, assemble_div negative exponent hfraction, Nat.pow_eq,
    Nat.mul_add_mod_self_right, Nat.mod_eq_of_lt hexponent]

theorem sign_assemble (negative : Bool) (hexponent : exponent < 2 ^ f.exponentBits)
    (hfraction : fraction < 2 ^ f.fractionBits) :
    f.sign (f.assemble negative exponent fraction) = negative := by
  rw [sign, Nat.testBit_eq_decide_div_mod_eq, Nat.pow_add, ← Nat.div_div_eq_div_mul,
    assemble_div negative exponent hfraction, Nat.mul_comm _ (2 ^ f.exponentBits),
    Nat.mul_add_div (Nat.two_pow_pos _), Nat.div_eq_of_lt hexponent]
  cases negative <;> rfl

theorem assemble_lt (negative : Bool) (hexponent : exponent < 2 ^ f.exponentBits)
    (hfraction : fraction < 2 ^ f.fractionBits) : f.assemble negative exponent fraction < 2 ^ f.width := by
  have habove : f.assemble negative exponent fraction / 2 ^ f.fractionBits < 2 ^ (1 + f.exponentBits) := by
    rw [assemble_div negative exponent hfraction, Nat.add_comm 1, Nat.pow_succ]
    cases negative <;> simp <;> omega
  rw [width, Nat.pow_add]
  exact (Nat.div_lt_iff_lt_mul (Nat.two_pow_pos _)).1 habove

/-! ## What bits stand for -/

/-- The greatest exponent stands for no number. -/
def Special (f : FloatFormat) (bits : Nat) : Prop := f.exponent bits = f.specialExponent

instance : Decidable (f.Special bits) := inferInstanceAs (Decidable (_ = _))

/-- The absolute value of a number with these fields. Only the least exponent has no hidden bit; it means the same as
the one above it. -/
def magnitudeOf (f : FloatFormat) (exponent fraction : Nat) : ℚ :=
  ((if exponent = 0 then 0 else 2 ^ f.fractionBits) + fraction : Nat) *
    2 ^ (max exponent 1 - f.bias - f.fractionBits : Int)

/-- The absolute value of a number. -/
def magnitude (f : FloatFormat) (bits : Nat) : ℚ := f.magnitudeOf (f.exponent bits) (f.fraction bits)

theorem magnitudeOf_normal (f : FloatFormat) (fraction : Nat) (h : exponent ≠ 0) :
    f.magnitudeOf exponent fraction =
      (2 ^ f.fractionBits + fraction : Nat) * 2 ^ (exponent - f.bias - f.fractionBits : Int) := by
  have hmax : max exponent 1 = exponent := by omega
  rw [magnitudeOf, if_neg h, hmax]

theorem magnitudeOf_zero (f : FloatFormat) (fraction : Nat) :
    f.magnitudeOf 0 fraction = fraction * 2 ^ (1 - f.bias - f.fractionBits : Int) := by
  rw [magnitudeOf, if_pos rfl, Nat.zero_add]
  rfl

theorem value_of_special (h : f.Special bits) :
    f.value bits = if f.fraction bits = 0 then .infinite (f.sign bits) else .nan (f.sign bits) := by
  have h : f.exponent bits = f.specialExponent := h
  simp [value, h]

/-- The value of a number, with the sign and the magnitude of the bits. -/
theorem value_of_not_special (h : ¬f.Special bits) :
    ∃ significand scale, f.value bits = .finite (f.sign bits) significand scale ∧
      (significand : ℚ) * 2 ^ scale = f.magnitude bits := by
  have h : f.exponent bits ≠ f.specialExponent := h
  by_cases hzero : f.exponent bits = 0
  · have hne : 0 ≠ f.specialExponent := hzero ▸ h
    refine ⟨f.fraction bits, 1 - f.bias - f.fractionBits, by simp [value, hne, hzero], ?_⟩
    rw [magnitude, hzero, magnitudeOf_zero]
  · refine ⟨2 ^ f.fractionBits + f.fraction bits, f.exponent bits - f.bias - f.fractionBits, ?_, ?_⟩
    · simp [value, h, hzero]
    · rw [magnitude, magnitudeOf_normal f _ hzero]

/-- Bits of one format and bits of another stand for the same: one infinity, no number with one sign, or one number. -/
structure Same (f : FloatFormat) (bits : Nat) (g : FloatFormat) (wide : Nat) : Prop where
  sign : g.sign wide = f.sign bits
  special : g.Special wide ↔ f.Special bits
  infinite : f.Special bits → (g.fraction wide = 0 ↔ f.fraction bits = 0)
  magnitude : ¬f.Special bits → g.magnitude wide = f.magnitude bits

theorem Same.refl (f : FloatFormat) (bits : Nat) : f.Same bits f bits := ⟨rfl, .rfl, fun _ => .rfl, fun _ => rfl⟩

/-- What is assembled stands for its fields. -/
theorem same_assemble (hexponent : exponent < 2 ^ g.exponentBits) (hfraction : fraction < 2 ^ g.fractionBits)
    (hspecial : exponent = g.specialExponent ↔ f.Special bits)
    (hinfinite : f.Special bits → (fraction = 0 ↔ f.fraction bits = 0))
    (hmagnitude : ¬f.Special bits → g.magnitudeOf exponent fraction = f.magnitude bits) :
    f.Same bits g (g.assemble (f.sign bits) exponent fraction) where
  sign := sign_assemble _ hexponent hfraction
  special := by rwa [Special, exponent_assemble _ hexponent hfraction]
  infinite := by rwa [fraction_assemble _ _ hfraction]
  magnitude := by rwa [magnitude, exponent_assemble _ hexponent hfraction, fraction_assemble _ _ hfraction]

/-! ## Wider formats -/

/-- A format with room for all numbers of another: for the fractions, and for the exponents, with those that numbers
without a hidden bit get when they have one. -/
structure Wider (f g : FloatFormat) : Prop where
  exponentBits : 0 < f.exponentBits ∧ 0 < g.exponentBits
  fractionBits : f.fractionBits < g.fractionBits
  bias : f.bias + f.fractionBits ≤ g.bias

theorem wider_binary32_binary64 : binary32.Wider binary64 := ⟨by decide, by decide, by decide⟩

theorem specialExponent_eq (h : 0 < f.exponentBits) : f.specialExponent = 2 * f.bias + 1 := by
  obtain ⟨n, hn⟩ := Nat.exists_eq_succ_of_ne_zero h.ne'
  have hpos := Nat.two_pow_pos n
  rw [specialExponent, bias, hn, Nat.succ_sub_one, Nat.pow_eq, Nat.pow_eq, Nat.pow_succ]
  omega

/-- Factors of two may stand in the significand or in the exponent. -/
theorem mul_two_pow_zpow (m d : Nat) (e : Int) : ((m * 2 ^ d : Nat) : ℚ) * 2 ^ e = m * 2 ^ (e + d) := by
  rw [zpow_add₀ two_ne_zero, zpow_natCast]
  push_cast
  ring

theorem shifted_lt (h : f.Wider g) (bits : Nat) :
    f.fraction bits * 2 ^ (g.fractionBits - f.fractionBits) < 2 ^ g.fractionBits := by
  have hle := h.fractionBits
  calc f.fraction bits * 2 ^ (g.fractionBits - f.fractionBits)
      < 2 ^ f.fractionBits * 2 ^ (g.fractionBits - f.fractionBits) :=
        Nat.mul_lt_mul_of_pos_right (fraction_lt f bits) (Nat.two_pow_pos _)
    _ = 2 ^ g.fractionBits := by rw [← Nat.pow_add, Nat.add_sub_cancel' hle.le]

/-- A number with a hidden bit keeps it. -/
theorem magnitudeOf_shifted (h : f.Wider g) {stored : Nat} (hstored : stored ≠ 0) (fraction : Nat) :
    g.magnitudeOf (stored + (g.bias - f.bias)) (fraction * 2 ^ (g.fractionBits - f.fractionBits)) =
      f.magnitudeOf stored fraction := by
  have hle := h.fractionBits
  have hbias := h.bias
  have hsignificand : 2 ^ g.fractionBits + fraction * 2 ^ (g.fractionBits - f.fractionBits) =
      (2 ^ f.fractionBits + fraction) * 2 ^ (g.fractionBits - f.fractionBits) := by
    rw [Nat.add_mul, ← Nat.pow_add, Nat.add_sub_cancel' hle.le]
  rw [magnitudeOf_normal g _ (by omega), magnitudeOf_normal f _ hstored, hsignificand, mul_two_pow_zpow]
  congr 2
  omega

/-- A number without a hidden bit gets one, its highest bit. -/
theorem magnitudeOf_raised (h : f.Wider g) (hne : fraction ≠ 0) (hlt : fraction < 2 ^ f.fractionBits) :
    g.magnitudeOf (fraction.log2 + 1 + (g.bias - f.bias) - f.fractionBits)
        ((fraction - 2 ^ fraction.log2) * 2 ^ (g.fractionBits - fraction.log2)) =
      f.magnitudeOf 0 fraction := by
  have hle := h.fractionBits
  have hbias := h.bias
  have htop : fraction.log2 < f.fractionBits := (Nat.log2_lt hne).2 hlt
  have hself := Nat.log2_self_le hne
  have hsignificand : 2 ^ g.fractionBits + (fraction - 2 ^ fraction.log2) * 2 ^ (g.fractionBits - fraction.log2) =
      fraction * 2 ^ (g.fractionBits - fraction.log2) := by
    have hsplit : 2 ^ g.fractionBits = 2 ^ fraction.log2 * 2 ^ (g.fractionBits - fraction.log2) := by
      rw [← Nat.pow_add, Nat.add_sub_cancel' (by omega)]
    rw [hsplit, ← Nat.add_mul, Nat.add_sub_cancel' hself]
  rw [magnitudeOf_normal g _ (by omega), magnitudeOf_zero, hsignificand, mul_two_pow_zpow]
  congr 2
  omega

theorem raised_lt (hle : fraction.log2 ≤ g.fractionBits) (hne : fraction ≠ 0) :
    (fraction - 2 ^ fraction.log2) * 2 ^ (g.fractionBits - fraction.log2) < 2 ^ g.fractionBits := by
  have hlt : fraction < 2 ^ (fraction.log2 + 1) := (Nat.log2_lt hne).1 (Nat.lt_succ_self _)
  rw [Nat.pow_succ] at hlt
  calc (fraction - 2 ^ fraction.log2) * 2 ^ (g.fractionBits - fraction.log2)
      < 2 ^ fraction.log2 * 2 ^ (g.fractionBits - fraction.log2) :=
        Nat.mul_lt_mul_of_pos_right (by omega) (Nat.two_pow_pos _)
    _ = 2 ^ g.fractionBits := by rw [← Nat.pow_add, Nat.add_sub_cancel' hle]

/-- The quiet bit fits, and what is no number does not become an infinity. -/
theorem quiet_spec (h : f.Wider g) (bits : Nat) :
    let fraction := if f.fraction bits = 0 then 0
      else f.fraction bits * 2 ^ (g.fractionBits - f.fractionBits) ||| 2 ^ (g.fractionBits - 1)
    fraction < 2 ^ g.fractionBits ∧ (fraction = 0 ↔ f.fraction bits = 0) := by
  intro fraction
  have hlt := h.fractionBits
  by_cases hzero : f.fraction bits = 0
  · simp [fraction, hzero]
  · have hquiet : 2 ^ (g.fractionBits - 1) < 2 ^ g.fractionBits := Nat.pow_lt_pow_right (by omega) (by omega)
    have hpos := Nat.two_pow_pos (g.fractionBits - 1)
    simp only [fraction, if_neg hzero]
    refine ⟨Nat.or_lt_two_pow (shifted_lt h bits) hquiet, ?_⟩
    rw [Nat.or_eq_zero_iff]
    omega

/-- The fields in the wider format, and that they stand for the same. -/
theorem widen_fields (h : f.Wider g) (bits : Nat) :
    ∃ exponent fraction, f.widen g bits = g.assemble (f.sign bits) exponent fraction ∧
      exponent < 2 ^ g.exponentBits ∧ fraction < 2 ^ g.fractionBits ∧
      (exponent = g.specialExponent ↔ f.Special bits) ∧
      (f.Special bits → (fraction = 0 ↔ f.fraction bits = 0)) ∧
      (¬f.Special bits → g.magnitudeOf exponent fraction = f.magnitude bits) := by
  have hbias := h.bias
  have hlt := exponent_lt f bits
  have hf := specialExponent_eq h.exponentBits.1
  have hg := specialExponent_eq h.exponentBits.2
  have hfspecial : f.specialExponent + 1 = 2 ^ f.exponentBits := Nat.sub_add_cancel (Nat.two_pow_pos _)
  have hgspecial : g.specialExponent + 1 = 2 ^ g.exponentBits := Nat.sub_add_cancel (Nat.two_pow_pos _)
  unfold widen
  dsimp only
  by_cases hspecial : f.exponent bits = f.specialExponent
  · have hspecial' : f.Special bits := hspecial
    obtain ⟨hquiet, hzero⟩ := quiet_spec h bits
    refine ⟨g.specialExponent, _, ?_, by omega, hquiet, iff_of_true rfl hspecial', fun _ => hzero,
      fun hnot => absurd hspecial' hnot⟩
    simp [hspecial]
  · have hspecial' : ¬f.Special bits := hspecial
    by_cases hstored : f.exponent bits = 0
    · have hne : 0 ≠ f.specialExponent := by omega
      by_cases hzero : f.fraction bits = 0
      · refine ⟨0, 0, by simp [hne, hstored, hzero], Nat.two_pow_pos _, Nat.two_pow_pos _,
          iff_of_false (by omega) hspecial', fun hyes => absurd hyes hspecial', fun _ => ?_⟩
        rw [magnitude, hstored, hzero, magnitudeOf_zero, magnitudeOf_zero]
        simp
      · have htop : (f.fraction bits).log2 < f.fractionBits := (Nat.log2_lt hzero).2 (fraction_lt f bits)
        have hwide := h.fractionBits
        refine ⟨(f.fraction bits).log2 + 1 + (g.bias - f.bias) - f.fractionBits, _, ?_, by omega,
          raised_lt (by omega) hzero, iff_of_false (by omega) hspecial', fun hyes => absurd hyes hspecial',
          fun _ => ?_⟩
        · simp [hne, hstored, hzero]
        · rw [magnitudeOf_raised h hzero (fraction_lt f bits), magnitude, hstored]
    · refine ⟨f.exponent bits + (g.bias - f.bias), _, ?_, by omega, shifted_lt h bits,
        iff_of_false (by omega) hspecial', fun hyes => absurd hyes hspecial', fun _ => ?_⟩
      · simp [hspecial, hstored]
      · exact magnitudeOf_shifted h hstored _

/-- Widening loses nothing. -/
theorem same_widen (h : f.Wider g) (bits : Nat) : f.Same bits g (f.widen g bits) := by
  obtain ⟨exponent, fraction, hwiden, hexponent, hfraction, hspecial, hinfinite, hmagnitude⟩ := widen_fields h bits
  rw [hwiden]
  exact same_assemble hexponent hfraction hspecial hinfinite hmagnitude

theorem widen_lt (h : f.Wider g) (bits : Nat) : f.widen g bits < 2 ^ g.width := by
  obtain ⟨exponent, fraction, hwiden, hexponent, hfraction, -⟩ := widen_fields h bits
  rw [hwiden]
  exact assemble_lt _ hexponent hfraction

end Cognate.FloatFormat
