import Cognate.Proofs.Text.Digits
import Mathlib.Data.List.Induction

/-!
# Numbers in a radix

The number that digits write in a radix up to sixteen, with letters of either case (`Writes`). Numerals are read as the
number they write (`numeral?_eq_some`), and where a sign is allowed, behind a plus as well (`signedNumeral?_eq_some`).
One of the numerals of a number is the canonical one, its digits as they are computed (`canonical_iff`).
-/

namespace Cognate.Text

variable {radix limit n m d : Nat} {c e : Char} {cs ds : List Char}

/-- A digit of a radix, in either case, and its value. -/
def IsDigit (radix : Nat) (c : Char) (d : Nat) : Prop := d < radix ∧ c.toLower = d.digitChar

instance : Decidable (IsDigit radix c d) := inferInstanceAs (Decidable (_ ∧ _))

/-- The number that one or more digits write: a digit behind others makes them count `radix` times as much. -/
inductive Writes (radix : Nat) : List Char → Nat → Prop
  | digit {c : Char} {d : Nat} (value : IsDigit radix c d) : Writes radix [c] d
  | append {cs : List Char} {c : Char} {n d : Nat} (front : Writes radix cs n) (value : IsDigit radix c d) :
      Writes radix (cs ++ [c]) (n * radix + d)

/-! ## Digits -/

theorem toNat_lt_of_digitValue? (h : digitValue? 16 c = some d) : c.toNat < 128 := by
  by_contra hc
  have hle : ∀ e : Char, e.toNat < 128 → ¬c ≤ e := by
    intro e he hce
    have := UInt32.le_iff_toNat_le.1 (Char.le_def.1 hce)
    change c.toNat ≤ e.toNat at this
    omega
  simp [digitValue?, hle '9' (by decide), hle 'f' (by decide), hle 'F' (by decide)] at h

/-- What can be decided for each of the first 128 characters. -/
theorem forall_ascii {p : Char → Prop} (h : ∀ k : Fin 128, p (Char.ofNat k)) (hc : c.toNat < 128) : p c :=
  Char.ofNat_toNat c ▸ h ⟨c.toNat, hc⟩

theorem IsDigit.ascii (h : IsDigit radix c d) (hr : radix ≤ 16) : c.toNat < 128 := by
  have hdigit : ∀ d : Fin 16, (Nat.digitChar d).toNat < 128 := by decide
  have hlower := hdigit ⟨d, h.1.trans_le hr⟩
  rw [← h.2] at hlower
  unfold Char.toLower at hlower
  split at hlower
  · next hc =>
    have := UInt32.le_iff_toNat_le.1 hc.2
    change c.toNat ≤ 90 at this
    omega
  · exact hlower

theorem digitValue?_hex : digitValue? 16 c = some d ↔ IsDigit 16 c d := by
  have hall : c.toNat < 128 → ∀ d : Fin 16, digitValue? 16 c = some d.val ↔ c.toLower = Nat.digitChar d :=
    forall_ascii (p := fun c => ∀ d : Fin 16, digitValue? 16 c = some d.val ↔ c.toLower = Nat.digitChar d)
      (by decide +kernel)
  constructor
  · intro h
    have hd : d < 16 := by simpa using (Option.filter_eq_some_iff.1 h).2
    exact ⟨hd, (hall (toNat_lt_of_digitValue? h) ⟨d, hd⟩).1 h⟩
  · intro h
    exact (hall (h.ascii le_rfl) ⟨d, h.1⟩).2 h.2

theorem digitValue?_eq_some (hr : radix ≤ 16) : digitValue? radix c = some d ↔ IsDigit radix c d := by
  have hfilter : digitValue? radix c = (digitValue? 16 c).filter (· < radix) := by
    unfold digitValue?
    rw [Option.filter_filter]
    refine congrArg (Option.filter · _) (funext fun d => ?_)
    by_cases hd : d < radix <;> simp [hd]
    omega
  rw [hfilter, Option.filter_eq_some_iff, digitValue?_hex, decide_eq_true_iff]
  exact ⟨fun h => ⟨h.2, h.1.2⟩, fun h => ⟨⟨h.1.trans_le hr, h.2⟩, h.1⟩⟩

theorem not_digit (hr : radix ≤ 16) (h : digitValue? radix c = none) : ¬IsDigit radix c d := by
  intro hd
  rw [(digitValue?_eq_some hr).2 hd] at h
  cases h

/-! ## Numerals -/

theorem Writes.ne_nil (h : Writes radix cs n) : cs ≠ [] := by
  cases h <;> simp

/-- The last digit, and what stands in front of it. -/
theorem writes_append : Writes radix (cs ++ [c]) n ↔
    (cs = [] ∧ IsDigit radix c n) ∨ ∃ m d, Writes radix cs m ∧ IsDigit radix c d ∧ n = m * radix + d := by
  constructor
  · intro h
    generalize he : cs ++ [c] = ds at h
    cases h with
    | digit value =>
      obtain ⟨rfl, he⟩ := List.append_eq_singleton_iff.1 he |>.resolve_right (by simp)
      cases he
      exact .inl ⟨rfl, value⟩
    | append front value =>
      obtain ⟨rfl, hc⟩ := List.append_inj' he rfl
      obtain rfl := List.singleton_inj.1 hc
      exact .inr ⟨_, _, front, value, rfl⟩
  · rintro (⟨rfl, hn⟩ | ⟨m, d, hm, hd, rfl⟩)
    · exact .digit hn
    · exact .append hm hd

theorem writes_one : Writes radix [c] n ↔ IsDigit radix c n := by
  rw [← List.nil_append [c], writes_append]
  constructor
  · rintro (⟨-, hn⟩ | ⟨m, d, hm, -⟩)
    · exact hn
    · exact absurd rfl hm.ne_nil
  · exact fun h => .inl ⟨rfl, h⟩

theorem writes_two : Writes radix [e, c] n ↔ ∃ m d, IsDigit radix e m ∧ IsDigit radix c d ∧ n = m * radix + d := by
  rw [← List.singleton_append, writes_append]
  simp only [List.cons_ne_nil, false_and, false_or, writes_one]

/-- By induction from the last digit on, as the number of the digits in front of it is what it is added to. -/
theorem numeral?_eq_some (hr : radix ≤ 16) : numeral? radix cs = some n ↔ Writes radix cs n := by
  constructor
  · intro h
    rw [numeral?, Option.ite_none_left_eq_some] at h
    obtain ⟨hne, h⟩ := h
    induction cs using List.reverseRecOn generalizing n with
    | nil => simp at hne
    | append_singleton cs c ih =>
      rw [numeralFrom_append] at h
      obtain ⟨m, hm, h⟩ := Option.bind_eq_some_iff.1 h
      obtain ⟨d, hd, h⟩ := Option.bind_eq_some_iff.1 h
      cases h
      have hd := (digitValue?_eq_some hr).1 hd
      cases cs with
      | nil =>
        cases hm
        rw [Nat.zero_mul, Nat.zero_add]
        exact .digit hd
      | cons c' cs => exact .append (ih (by simp) hm) hd
  · intro h
    rw [numeral?, if_neg (by simpa using h.ne_nil)]
    induction h with
    | digit hd => simp [numeralFrom, (digitValue?_eq_some hr).2 hd]
    | append front hd ih => simp [numeralFrom_append, ih, numeralFrom, (digitValue?_eq_some hr).2 hd]

theorem isDigit_digitChar (hr : radix ≤ 16) (h : d < radix) : IsDigit radix d.digitChar d := by
  have hall : ∀ d : Fin 16, (Nat.digitChar d).toLower = Nat.digitChar d := by decide
  exact ⟨h, hall ⟨d, h.trans_le hr⟩⟩

/-- The digits of a number write it. -/
theorem writes_toDigits (hone : 1 < radix) (hr : radix ≤ 16) (n : Nat) : Writes radix (Nat.toDigits radix n) n := by
  induction n using Nat.strong_induction_on with
  | _ n ih =>
    rw [Nat.toDigits_eq_if hone]
    split
    · next h => exact .digit (isDigit_digitChar hr h)
    · next h =>
      have hfront := ih (n / radix) (Nat.div_lt_self (by omega) hone)
      have happ := Writes.append hfront (isDigit_digitChar hr (Nat.mod_lt n (by omega)))
      rwa [Nat.mul_comm, Nat.div_add_mod] at happ

theorem Writes.unique (hr : radix ≤ 16) (hn : Writes radix cs n) (hm : Writes radix cs m) : n = m := by
  rw [← numeral?_eq_some hr] at hn hm
  exact Option.some.inj (hn.symm.trans hm)

theorem Writes.digits (h : Writes radix cs n) : ∀ c ∈ cs, ∃ d, IsDigit radix c d := by
  induction h with
  | digit hd => simpa using ⟨_, hd⟩
  | append front hd ih => simpa [or_imp, forall_and] using ⟨ih, _, hd⟩

/-- What can be decided for each digit of either case. -/
theorem Writes.forall_digits {p : Char → Prop} (h : Writes radix cs n) (hr : radix ≤ 16)
    (hall : ∀ k : Fin 128, ∀ d : Fin 16, d.val < radix → (Char.ofNat k).toLower = Nat.digitChar d → p (Char.ofNat k)) :
    ∀ c ∈ cs, p c := by
  intro c hc
  obtain ⟨d, hd⟩ := h.digits c hc
  have hchar := forall_ascii (p := fun c => ∀ d : Fin 16, d.val < radix → c.toLower = Nat.digitChar d → p c) hall
    (hd.ascii hr)
  exact hchar ⟨d, hd.1.trans_le hr⟩ hd.1 hd.2

/-- No digit is a plus. -/
theorem Writes.not_plus (hr : radix ≤ 16) : ¬Writes radix ('+' :: cs) n := by
  intro h
  obtain ⟨d, hd⟩ := h.digits '+' (by simp)
  exact not_digit hr (by simp [digitValue?]) hd

theorem signedNumeral?_eq_some (hr : radix ≤ 16) : signedNumeral? radix limit cs = some n ↔
    n < limit ∧ (Writes radix cs n ∨ ∃ ds, cs = '+' :: ds ∧ Writes radix ds n) := by
  unfold signedNumeral?
  rw [Option.filter_eq_some_iff, decide_eq_true_iff, and_comm, numeral?_eq_some hr]
  refine and_congr_right fun _ => ?_
  split
  · next ds => simp [Writes.not_plus hr]
  · next hplus =>
    refine (or_iff_left ?_).symm
    rintro ⟨ds, rfl, -⟩
    exact hplus ds rfl

/-! ## Canonical numerals -/

/-- One way to write a number: in digits of lower case, without zeros in front. -/
structure Canonical (radix n : Nat) (cs : List Char) : Prop where
  writes : Writes radix cs n
  lower : ∀ c ∈ cs, c.toLower = c
  front : cs.head? = some '0' → cs = ['0']

theorem canonical_toDigits (hone : 1 < radix) (hr : radix ≤ 16) (n : Nat) :
    Canonical radix n (Nat.toDigits radix n) where
  writes := writes_toDigits hone hr n
  lower := forall_mem_toDigits hone (fun _ hd => (isDigit_digitChar hr hd).2) n
  front h := by
    rcases Nat.eq_zero_or_pos n with rfl | hpos
    · exact Nat.toDigits_of_lt_base (by omega)
    · exact absurd h (head?_toDigits hone hr hpos)

/-- By induction from the last digit on: the digits in front of it are those of the quotient, which is not zero. -/
theorem canonical_iff (hone : 1 < radix) (hr : radix ≤ 16) : Canonical radix n cs ↔ cs = Nat.toDigits radix n := by
  refine ⟨fun h => ?_, fun h => h ▸ canonical_toDigits hone hr n⟩
  induction cs using List.reverseRecOn generalizing n with
  | nil => exact absurd rfl h.writes.ne_nil
  | append_singleton cs c ih =>
    obtain ⟨hwrites, hlower, hfront⟩ := h
    have hc : ∀ d, IsDigit radix c d → c = d.digitChar := fun d hd => (hlower c (by simp)).symm.trans hd.2
    rcases writes_append.1 hwrites with ⟨rfl, hd⟩ | ⟨m, d, hm, hd, rfl⟩
    · rw [hc n hd, Nat.toDigits_of_lt_base hd.1, List.nil_append]
    · -- A zero in front of the last digit would be one in front of them all.
      have hhead : cs.head? ≠ some '0' := by
        intro hzero
        have hall := hfront (by rw [List.head?_append_of_ne_nil _ hm.ne_nil, hzero])
        exact hm.ne_nil (by simpa using congrArg List.length hall)
      have hcs := ih ⟨hm, fun c hc => hlower c (by simp [hc]), fun hzero => absurd hzero hhead⟩
      have hpos : 0 < m := by
        rw [Nat.pos_iff_ne_zero]
        rintro rfl
        exact hhead (by rw [hcs, Nat.toDigits_of_lt_base (by omega)]; rfl)
      rw [hc d hd, ← Nat.toDigits_of_lt_base hd.1, hcs, Nat.toDigits_append_toDigits hone hpos hd.1, Nat.mul_comm]

end Cognate.Text
