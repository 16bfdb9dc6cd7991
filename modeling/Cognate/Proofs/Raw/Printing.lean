import Cognate.Proofs.Raw.Streams

/-!
# Raw values, written and printed

Whether a type takes a value is decided twice, where the value is written and where it is printed. Both decide alike,
and what is printed is the text of the value, which is never empty (`print_of_encode`). They differ at the integer type
of no bits: it is written and read as one bit, but no value prints as it.
-/

namespace Cognate

/-- Positional text has a digit or a point, whatever the digits are. -/
theorem Text.DecimalDigits.positional_ne_nil (d : Text.DecimalDigits) : d.positional ≠ [] := by
  unfold positional
  dsimp only
  split
  · simp
  · next hpoint =>
    split
    · next hwhole =>
      intro h
      have hlength := congrArg List.length h
      rw [List.length_append, List.length_replicate, List.length_nil] at hlength
      omega
    · simp

theorem Text.shortest_plain_ne_empty (f : FloatFormat) (bits : Nat) : Text.shortest .plain f bits ≠ "" := by
  unfold Text.shortest
  dsimp only
  split
  · decide
  · next negative _ => cases negative <;> decide
  · next negative significand exponent _ =>
    split
    · cases negative <;> decide
    · have hpositional := (Text.shortestDigits f significand exponent).positional_ne_nil
      simp [Text.FloatStyle.plain, hpositional]

theorem Limbs.toDecimal_ne_empty (ls : Limbs) : ls.toDecimal ≠ "" := by
  unfold Limbs.toDecimal
  split
  · decide
  · simp [Nat.toDigits_ne_nil]

namespace RawValue

variable {type : RawType} {value : RawValue}

theorem text_ne_empty (h : value ≠ .void) : value.text ≠ "" := by
  cases value with
  | void => exact absurd rfl h
  | float bits | double bits => exact Text.shortest_plain_ne_empty _ _
  | pointer address => simp [text]
  | int v => exact Limbs.toDecimal_ne_empty _

/-- Values of a type that is neither void nor an aggregate are written only if the type takes them. -/
theorem fits_of_encode (hvoid : type ≠ .void) (hscalar : type.isAggregate = false)
    (hvalue : ∀ v, value = .int v → v.Proper) {bytes : List UInt8} (h : value.encode type = .ok bytes) :
    Fits type value := by
  cases type with
  | void => exact absurd rfl hvoid
  | struct | array | vector => cases hscalar
  | float | double | pointer =>
    cases value <;> cases h
    constructor
  | int bits =>
    cases value with
    | int v =>
      rw [encode] at h
      split at h
      · next hbits => exact .int (hvalue v rfl) hbits
      · cases h
    | _ => cases h

/-- A type prints the values it takes as their text; only an integer type of no bits prints none. -/
theorem Fits.print (h : Fits type value) (hvoid : type ≠ .void) :
    value.text ≠ "" ∧ (type ≠ .int 0 → value.print type = value.text) ∧ (type = .int 0 → value.print type = "") := by
  cases h with
  | void => exact absurd rfl hvoid
  | float bits | double bits | pointer address => exact ⟨text_ne_empty (by simp), fun _ => rfl, by simp⟩
  | @int bits v hv hbits =>
    refine ⟨text_ne_empty (by simp), fun hpos => ?_, ?_⟩
    · have hne : bits ≠ 0 := fun h => hpos (by rw [h])
      rw [RawValue.print, if_pos (by omega)]
    · rintro ⟨⟩
      rw [RawValue.print, if_neg (by omega)]

/-- A value that is not written as a type of its kind is not printed as it. -/
theorem print_of_encode_error (hvalue : ∀ v, value = .int v → v.Proper) {fault : RawFault}
    (h : value.encode type = .error fault) : value.print type = "" := by
  cases type with
  | void | struct | array | vector => rfl
  | float | double | pointer => cases value <;> first | rfl | cases h
  | int bits =>
    cases value with
    | int v =>
      have hbits : v.bits ≠ max bits 1 := by
        intro heq
        rw [encode, if_pos heq] at h
        cases h
      have hpos := (hvalue v rfl).bits_pos
      rw [print, if_neg (by omega)]
    | _ => rfl

/-- A value written as a type that is neither void nor an aggregate is printed as its text, which is not empty, except
at the integer type of no bits, which prints nothing; a value that is not written is not printed either. -/
theorem print_of_encode (hvoid : type ≠ .void) (hscalar : type.isAggregate = false)
    (hvalue : ∀ v, value = .int v → v.Proper) :
    (∀ bytes, value.encode type = .ok bytes →
      value.text ≠ "" ∧ (type ≠ .int 0 → value.print type = value.text) ∧ (type = .int 0 → value.print type = "")) ∧
      ∀ fault, value.encode type = .error fault → value.print type = "" :=
  ⟨fun _ h => (fits_of_encode hvoid hscalar hvalue h).print hvoid, fun _ => print_of_encode_error hvalue⟩

/-- An integer of eight bits is written and printed as one, and neither as one of nine bits. -/
theorem print_of_encode_bits :
    let value := RawValue.int (.ofWord 8 171)
    value.encode (.int 8) = .ok [171, 0, 0, 0, 0, 0, 0, 0] ∧ value.print (.int 8) = value.text ∧ value.text ≠ "" ∧
      value.encode (.int 9) = .error (.mismatch value (.int 9)) ∧ value.print (.int 9) = "" := by
  intro value
  have hvalue : ∀ v, value = .int v → v.Proper := fun v hv => RawValue.int.inj hv ▸ WideInt.ofWords_proper _ _
  have hok : value.encode (.int 8) = .ok [171, 0, 0, 0, 0, 0, 0, 0] := by rfl
  have herror : value.encode (.int 9) = .error (.mismatch value (.int 9)) := by rfl
  obtain ⟨htext, hprint, -⟩ := (print_of_encode (by simp) rfl hvalue).1 _ hok
  have hnone := (print_of_encode (by simp) rfl hvalue).2 _ herror
  exact ⟨hok, hprint (by simp), htext, herror, hnone⟩

/-- An integer of one bit is written as one of no bits, and read back from there, but it is not printed as one. -/
theorem exists_encode_not_print :
    ∃ value : RawValue, (∀ v, value = .int v → v.Proper) ∧
      value.encode (.int 0) = .ok [1, 0, 0, 0, 0, 0, 0, 0] ∧
      decode (.int 0) [1, 0, 0, 0, 0, 0, 0, 0] = .ok value ∧ value.print (.int 0) ≠ value.text := by
  have hproper : (WideInt.ofWord 1 1).Proper := WideInt.ofWords_proper _ _
  have hfits : Fits (.int 0) (.int (.ofWord 1 1)) := .int hproper rfl
  have hencode : encode (.int 0) (.int (.ofWord 1 1)) = .ok [1, 0, 0, 0, 0, 0, 0, 0] := by rfl
  obtain ⟨bytes, hbytes, hsize, hvalue⟩ := hfits.encode
  cases hbytes.symm.trans hencode
  obtain ⟨htext, -, hprint⟩ := hfits.print (by simp)
  refine ⟨.int (.ofWord 1 1), fun v hv => RawValue.int.inj hv ▸ hproper, hencode, ?_, ?_⟩
  · rw [← List.append_nil [1, 0, 0, 0, 0, 0, 0, 0], decode, read_append hsize hvalue]
    rfl
  · rw [hprint rfl]
    exact htext.symm

end RawValue
end Cognate
