import Cognate.Decoded.Basic
import Cognate.Proofs.Number.Widening
import Cognate.Proofs.Unit.Runs

/-!
# Floats

Both floating types are written as sixty-four bits. The shorter ones are widened on the way, so the text speaks of what
the bytes stand for because what is widened stands for the same (`same_toBinary64`). The renderer of extended floats has
the same text for sixty-four bits, although it works on words.
-/

namespace Cognate

open FloatFormat (binary32 binary64)

variable {u : DeclUnit} {t : Ty} {b : Builtin} {f g : FloatFormat} {bits wide : Nat} {bytes : List UInt8}

/-! ## Texts of bits -/

namespace FloatFormat

/-- What is no number is written as a word. -/
theorem Same.fixed_special (h : f.Same bits g wide) (hspecial : f.Special bits) :
    Text.fixed (g.value wide) = Text.minus (f.sign bits) ++ if f.fraction bits = 0 then "inf" else "nan" := by
  rw [value_of_special (h.special.2 hspecial), h.sign]
  by_cases hzero : f.fraction bits = 0
  · rw [if_pos ((h.infinite hspecial).2 hzero), if_pos hzero]
    rfl
  · rw [if_neg (fun hwide => hzero ((h.infinite hspecial).1 hwide)), if_neg hzero]
    rfl

/-- A number is written as the nearest count of millionths. -/
theorem Same.fixed_number (h : f.Same bits g wide) (hspecial : ¬f.Special bits) :
    ∃ n text, NearestEven (f.magnitude bits * 10 ^ 6) n ∧ Text.SixPlaces n text ∧
      Text.fixed (g.value wide) = Text.minus (f.sign bits) ++ text := by
  obtain ⟨significand, scale, hvalue, hmagnitude⟩ := value_of_not_special (mt h.special.1 hspecial)
  rw [h.magnitude hspecial] at hmagnitude
  refine ⟨_, _, hmagnitude ▸ Text.nearestEven_millionths significand scale, Text.sixPlaces_withPoint _, ?_⟩
  rw [hvalue, h.sign, Text.fixed]

/-- The format of a floating type, which is written as sixty-four bits. -/
theorem same_toBinary64 (h : f = binary32 ∨ f = binary64) (hbits : bits < 2 ^ f.width) :
    f.toBinary64 bits < 2 ^ 64 ∧ f.Same bits binary64 (f.toBinary64 bits) := by
  rcases h with rfl | rfl
  · rw [toBinary64, if_neg (by decide)]
    exact ⟨widen_lt wider_binary32_binary64 bits, same_widen wider_binary32_binary64 bits⟩
  · rw [toBinary64, if_pos rfl]
    exact ⟨hbits, .refl _ _⟩

end FloatFormat

/-- The renderer of extended floats on sixty-four bits. -/
theorem LongDouble.render_double (h : bytes.length = 8) :
    LongDouble.double.render bytes = .ok (Text.fixed (binary64.value (ofBytes bytes))) := by
  have hwords : ∀ m < 2 ^ (binary64.fractionBits + 1), Limbs.toNat [UInt64.ofNat m] = m :=
    fun m hm => toNat_word (hm.trans (by decide))
  have hvalue : LongDouble.double.value bytes =
      some ((binary64.value (ofBytes (bytes.take 8))).map fun m => [UInt64.ofNat m]) := by
    rw [value, if_neg (by rw [significantBytes, h]; omega)]
  rw [render_eq_fixed, hvalue, Option.map_some, map_toNat_map hwords, List.take_of_length_le h.le]

namespace Decoded

/-! ## Texts of bytes -/

theorem ofBytes_float (hshape : u.canonicalShape? t = some (.builtin b)) (hform : HostForm.ofBuiltin b = .float f)
    (hlength : bytes.length = f.width / 8) :
    ofBytes u t bytes = scalar (Text.fixed (binary64.value (f.toBinary64 (Cognate.ofBytes bytes)))) := by
  simp [ofBytes, within, hshape, ofBuiltin, hform, HostForm.size?, HostForm.text?, hlength]

/-- Four bytes of a `float`, or eight of a `double`. The text has a sign if and only if the highest bit is set. Behind
it stand a word for what is no number, or six places of the exact value, rounded to the nearest and on a tie to the even
neighbour. Widening loses nothing, and a `double` has the text of an extended float of its format. -/
theorem ofBytes_floats (hshape : u.canonicalShape? t = some (.builtin b))
    (hformat : b = .float ∧ f = binary32 ∨ b = .double ∧ f = binary64) (hlength : 8 * bytes.length = f.width) :
    let bits := Cognate.ofBytes bytes
    (f.Special bits →
        ofBytes u t bytes = scalar (Text.minus (f.sign bits) ++ if f.fraction bits = 0 then "inf" else "nan")) ∧
      (¬f.Special bits → ∃ n text, NearestEven (f.magnitude bits * 10 ^ 6) n ∧ Text.SixPlaces n text ∧
        ofBytes u t bytes = scalar (Text.minus (f.sign bits) ++ text)) ∧
      (f.toBinary64 bits < 2 ^ 64 ∧ f.Same bits binary64 (f.toBinary64 bits)) ∧
      (b = .double → ∃ text, ofBytes u t bytes = scalar text ∧ LongDouble.double.render bytes = .ok text) := by
  intro bits
  have hform : HostForm.ofBuiltin b = .float f := by rcases hformat with ⟨rfl, rfl⟩ | ⟨rfl, rfl⟩ <;> rfl
  have hbits : bits < 2 ^ f.width := by
    rw [← hlength, Nat.pow_mul]
    exact ofBytes_lt bytes
  obtain ⟨hlt, hsame⟩ := FloatFormat.same_toBinary64 (hformat.imp And.right And.right) hbits
  have htext : ofBytes u t bytes = scalar (Text.fixed (binary64.value (f.toBinary64 bits))) :=
    ofBytes_float hshape hform (by omega)
  refine ⟨fun hspecial => ?_, fun hspecial => ?_, ⟨hlt, hsame⟩, fun hdouble => ?_⟩
  · rw [htext, hsame.fixed_special hspecial]
  · obtain ⟨n, text, hnearest, hplaces, hfixed⟩ := hsame.fixed_number hspecial
    exact ⟨n, text, hnearest, hplaces, htext.trans (congrArg scalar hfixed)⟩
  · obtain ⟨hfloat, -⟩ | ⟨-, rfl⟩ := hformat
    · cases hfloat.symm.trans hdouble
    · refine ⟨_, htext, ?_⟩
      rw [FloatFormat.toBinary64, if_pos rfl]
      exact LongDouble.render_double (by have hwidth : binary64.width = 64 := rfl; omega)

/-- A tie with its sign set, the least number above zero, which has no hidden bit, and what is no number. -/
theorem ofBytes_floats_tie :
    let u := (DeclUnit.empty "unit" .lp64).applyAll [.intern (.builtin .float), .intern (.builtin .double)]
    (∃ n text, NearestEven (binary32.magnitude 0xBC000000 * 10 ^ 6) n ∧ Text.SixPlaces n text ∧
        ofBytes u ⟨0⟩ [0, 0, 0, 0xBC] = scalar ("-" ++ text)) ∧
      binary64.magnitude (binary32.toBinary64 1) = binary32.magnitude 1 ∧
      ofBytes u ⟨1⟩ [1, 0, 0, 0, 0, 0, 0xF0, 0xFF] = scalar "-nan" := by
  intro u
  have hfloat : u.canonicalShape? ⟨0⟩ = some (.builtin .float) := by decide +kernel
  have hdouble : u.canonicalShape? ⟨1⟩ = some (.builtin .double) := by decide +kernel
  have htie := ofBytes_floats hfloat (.inl ⟨rfl, rfl⟩) (show 8 * [0, 0, 0, 0xBC].length = binary32.width by decide)
  have hleast := ofBytes_floats hfloat (.inl ⟨rfl, rfl⟩) (show 8 * [1, 0, 0, 0].length = binary32.width by decide)
  have hnan := ofBytes_floats hdouble (.inr ⟨rfl, rfl⟩)
    (show 8 * [1, 0, 0, 0, 0, 0, 0xF0, 0xFF].length = binary64.width by decide)
  exact ⟨htie.2.1 (by decide), hleast.2.2.1.2.magnitude (by decide), hnan.1 (by decide)⟩

example :
    let u := (DeclUnit.empty "unit" .lp64).applyAll [.intern (.builtin .float), .intern (.builtin .double)]
    (ofBytes u ⟨0⟩ [0, 0, 0, 0xBC]).text = "-0.007812" ∧
      (ofBytes u ⟨1⟩ [0, 0, 0, 0, 0, 0, 0x98, 0x3F]).text = "0.023438" := by
  decide +kernel

end Decoded
end Cognate
