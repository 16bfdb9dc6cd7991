import Cognate.Number.Rounding
import Cognate.Number.WideInt
import Mathlib.Algebra.Order.Ring.Nat
import Mathlib.Tactic.Ring

/-!
# Numbers of limbs

What each operation on limbs does to the number that the words stand for. Words without zeros on top are determined by
their number (`trim_congr`).
-/

namespace Cognate

/-- Bytes behind others are the higher ones. -/
theorem ofBytes_append (as bs : List UInt8) : ofBytes (as ++ bs) = ofBytes as + 256 ^ as.length * ofBytes bs := by
  induction as with
  | nil => simp [ofBytes]
  | cons a as ih =>
    rw [List.cons_append, ofBytes, ofBytes, ih, List.length_cons, Nat.pow_succ]
    ring

namespace Limbs

variable {ks ls : Limbs}

theorem limbBase_pow (k : Nat) : limbBase ^ k = 2 ^ (64 * k) := (Nat.pow_mul 2 64 k).symm

/-- A power of two as whole words and what is left. -/
theorem two_pow_eq (bits : Nat) : 2 ^ bits = limbBase ^ (bits / 64) * 2 ^ (bits % 64) := by
  rw [limbBase_pow, ← Nat.pow_add, Nat.div_add_mod]

/-! ## Parts of a list of words -/

theorem toNat_append (ks ls : Limbs) : (ks ++ ls).toNat = ks.toNat + limbBase ^ ks.length * ls.toNat := by
  induction ks with
  | nil => simp
  | cons k ks ih =>
    simp only [List.cons_append, toNat_cons, ih, List.length_cons, Nat.pow_succ]
    ring

theorem toNat_lt (ls : Limbs) : ls.toNat < limbBase ^ ls.length := by
  induction ls with
  | nil => simp
  | cons l ls ih =>
    have hl : l.toNat < limbBase := l.toNat_lt
    rw [toNat_cons, List.length_cons, Nat.pow_succ]
    calc l.toNat + limbBase * toNat ls < limbBase * (toNat ls + 1) := by rw [Nat.mul_add]; omega
      _ ≤ limbBase * limbBase ^ ls.length := Nat.mul_le_mul_left _ ih
      _ = limbBase ^ ls.length * limbBase := Nat.mul_comm _ _

theorem toNat_lt_of_length_le {k : Nat} (h : ls.length ≤ k) : ls.toNat < limbBase ^ k :=
  (toNat_lt ls).trans_le (Nat.pow_le_pow_right limbBase_pos h)

@[simp] theorem toNat_replicate_zero (k : Nat) : toNat (List.replicate k 0) = 0 := by
  induction k with
  | zero => rfl
  | succ k ih => simp [List.replicate_succ, ih]

/-- Words with all bits set: one more would need another word. -/
theorem toNat_replicate_max (k : Nat) :
    toNat (List.replicate k (UInt64.ofNat (limbBase - 1))) + 1 = limbBase ^ k := by
  have hmax : (UInt64.ofNat (limbBase - 1)).toNat = limbBase - 1 := rfl
  have hpos := limbBase_pos
  induction k with
  | zero => rfl
  | succ k ih =>
    rw [List.replicate_succ, toNat_cons, hmax, Nat.pow_succ, ← ih, Nat.mul_comm _ limbBase, Nat.mul_add]
    omega

/-- The low words and the others. -/
theorem toNat_take_drop (k : Nat) (ls : Limbs) :
    toNat (ls.take k) = ls.toNat % limbBase ^ k ∧ toNat (ls.drop k) = ls.toNat / limbBase ^ k := by
  by_cases hk : k ≤ ls.length
  · have hlength : (ls.take k).length = k := List.length_take_of_le hk
    have hlt := toNat_lt (ls.take k)
    have hsplit := toNat_append (ls.take k) (ls.drop k)
    rw [List.take_append_drop, hlength] at hsplit
    rw [hlength] at hlt
    rw [hsplit, Nat.add_mul_mod_self_left, Nat.mod_eq_of_lt hlt, Nat.add_mul_div_left _ _ (by omega),
      Nat.div_eq_of_lt hlt, Nat.zero_add]
    exact ⟨rfl, rfl⟩
  · have hlt : ls.toNat < limbBase ^ k := toNat_lt_of_length_le (by omega)
    rw [List.take_of_length_le (by omega), List.drop_of_length_le (by omega), Nat.mod_eq_of_lt hlt,
      Nat.div_eq_of_lt hlt]
    exact ⟨rfl, rfl⟩

theorem toNat_take (k : Nat) (ls : Limbs) : toNat (ls.take k) = ls.toNat % limbBase ^ k := (toNat_take_drop k ls).1

theorem toNat_drop (k : Nat) (ls : Limbs) : toNat (ls.drop k) = ls.toNat / limbBase ^ k := (toNat_take_drop k ls).2

/-- The word of that index. -/
theorem toNat_getD (k : Nat) (ls : Limbs) : (ls.getD k 0).toNat = ls.toNat / limbBase ^ k % limbBase := by
  rw [← toNat_drop]
  cases hd : ls.drop k with
  | nil =>
    have hlength := List.drop_eq_nil_iff.1 hd
    simp [List.getD_eq_getElem?_getD, List.getElem?_eq_none hlength]
  | cons l rest =>
    have hget : ls[k]? = some l := by
      rw [← Nat.add_zero k, ← List.getElem?_drop, hd]
      rfl
    rw [List.getD_eq_getElem?_getD, hget, toNat_cons, Nat.add_mul_mod_self_left]
    exact (Nat.mod_eq_of_lt l.toNat_lt).symm

/-! ## Zeros on top -/

theorem toNat_cons_eq_zero {l : UInt64} : toNat (l :: ls) = 0 ↔ l = 0 ∧ ls.toNat = 0 := by
  rw [toNat_cons, Nat.add_eq_zero_iff, Nat.mul_eq_zero, ← UInt64.toNat_inj, UInt64.toNat_zero]
  simp [limbBase]

theorem trim_eq_nil : ls.trim = [] ↔ ls.toNat = 0 := by
  refine ⟨fun h => by rw [← toNat_trim, h, toNat_nil], fun h => ?_⟩
  induction ls with
  | nil => rfl
  | cons l ls ih =>
    obtain ⟨rfl, hls⟩ := toNat_cons_eq_zero.1 h
    rw [trim, ih hls]
    rfl

/-- Words of the same number are the same without the zeros on top. -/
theorem trim_congr (h : ks.toNat = ls.toNat) : ks.trim = ls.trim := by
  induction ks generalizing ls with
  | nil => exact (trim_eq_nil.2 h.symm).symm
  | cons k ks ih =>
    cases ls with
    | nil => exact trim_eq_nil.2 h
    | cons l ls =>
      simp only [toNat_cons] at h
      have hk : k.toNat < limbBase := k.toNat_lt
      have hl : l.toNat < limbBase := l.toNat_lt
      have hlow := congrArg (· % limbBase) h
      have hhigh := congrArg (· / limbBase) h
      simp only [Nat.add_mul_mod_self_left, Nat.mod_eq_of_lt hk, Nat.mod_eq_of_lt hl] at hlow
      rw [Nat.add_mul_div_left _ _ (by omega), Nat.add_mul_div_left _ _ (by omega), Nat.div_eq_of_lt hk,
        Nat.div_eq_of_lt hl, Nat.zero_add, Nat.zero_add] at hhigh
      rw [trim, trim, ih hhigh, UInt64.toNat_inj.1 hlow]

/-- No zeros stand on top. -/
def Trimmed (ls : Limbs) : Prop := ls.trim = ls

theorem trimmed_trim (ls : Limbs) : Trimmed ls.trim := trim_congr (toNat_trim ls)

theorem Trimmed.eq (hk : Trimmed ks) (hl : Trimmed ls) (h : ks.toNat = ls.toNat) : ks = ls := by
  rw [← hk, ← hl, trim_congr h]

/-- Without zeros on top, no more words stand than the number needs. -/
theorem Trimmed.length_le (hls : Trimmed ls) {k : Nat} (h : ls.toNat < limbBase ^ k) : ls.length ≤ k := by
  have heq : trim (ls.take k) = ls := by
    rw [← hls]
    refine trim_congr ?_
    rw [toNat_take, Nat.mod_eq_of_lt, hls]
    rwa [hls]
  have hlength : ∀ ks : Limbs, ks.trim.length ≤ ks.length := by
    intro ks
    induction ks with
    | nil => exact le_rfl
    | cons k ks ih =>
      rw [trim]
      split
      · split <;> simp
      · next hks =>
        rw [hks] at ih
        simpa using ih
  calc ls.length = (trim (ls.take k)).length := by rw [heq]
    _ ≤ (ls.take k).length := hlength _
    _ ≤ k := List.length_take_le _ _

theorem isZero_iff : ls.isZero = true ↔ ls.toNat = 0 := by
  induction ls with
  | nil => simp [isZero]
  | cons l ls ih =>
    rw [toNat_cons_eq_zero, ← ih]
    simp [isZero]

/-! ## Low bits -/

theorem toNat_lowBits (bits : Nat) (ls : Limbs) : (ls.lowBits bits).toNat = ls.toNat % 2 ^ bits := by
  have habove : toNat (((ls.drop (bits / 64)).take 1).map fun l => UInt64.ofNat (l.toNat % Nat.pow 2 (bits % 64))) =
      ls.toNat / limbBase ^ (bits / 64) % 2 ^ (bits % 64) := by
    rw [← toNat_drop]
    cases ls.drop (bits / 64) with
    | nil => simp
    | cons l rest =>
      have hdvd : 2 ^ (bits % 64) ∣ limbBase := pow_dvd_pow 2 (by omega)
      have hlt : l.toNat % 2 ^ (bits % 64) < 2 ^ 64 := (Nat.mod_le _ _).trans_lt l.toNat_lt
      simp only [List.take_succ_cons, List.take_zero, List.map_cons, List.map_nil, toNat_cons, toNat_nil,
        UInt64.toNat_ofNat', Nat.pow_eq, Nat.mul_zero, Nat.add_zero, Nat.mod_eq_of_lt hlt]
      rw [Nat.add_mod, Nat.mul_mod, Nat.mod_eq_zero_of_dvd hdvd]
      simp
  rw [lowBits, toNat_trim, toNat_append, toNat_take, habove, two_pow_eq bits, Nat.mod_mul]
  -- Where the words end in front of the last one, nothing is left above them.
  by_cases hlength : bits / 64 ≤ ls.length
  · rw [List.length_take_of_le hlength]
  · have hlt : ls.toNat < limbBase ^ (bits / 64) := toNat_lt_of_length_le (by omega)
    rw [Nat.div_eq_of_lt hlt, Nat.zero_mod, Nat.mul_zero, Nat.mul_zero]

theorem trimmed_lowBits (bits : Nat) (ls : Limbs) : Trimmed (ls.lowBits bits) := trimmed_trim _

/-! ## Bytes -/

theorem toByteList_cons (l : UInt64) (ls : Limbs) :
    toByteList (l :: ls) = toBytes 8 l.toNat ++ toByteList ls := by
  simp [toByteList]

theorem length_toByteList (ls : Limbs) : ls.toByteList.length = 8 * ls.length := by
  induction ls with
  | nil => rfl
  | cons l ls ih =>
    rw [toByteList_cons, List.length_append, length_toBytes, ih, List.length_cons]
    omega

theorem ofBytes_toBytes_word (l : UInt64) : ofBytes (toBytes 8 l.toNat) = l.toNat := by
  rw [ofBytes_toBytes]
  exact Nat.mod_eq_of_lt l.toNat_lt

/-- The bytes of some words stand for the number of the words. -/
theorem ofBytes_toByteList (ls : Limbs) : ofBytes ls.toByteList = ls.toNat := by
  induction ls with
  | nil => rfl
  | cons l ls ih =>
    rw [toByteList_cons, ofBytes_append, length_toBytes, ofBytes_toBytes_word, ih, toNat_cons]
    rfl

/-- The words of some bytes stand for the number of the bytes, eight of them being one digit. -/
theorem toNat_ofByteList (bs : List UInt8) : (ofByteList bs).toNat = ofBytes bs := by
  induction bs using ofByteList.induct with
  | case1 => rw [ofByteList, toNat_nil, ofBytes]
  | case2 b bs ih =>
    have hlt : ofBytes ((b :: bs).take 8) < 2 ^ 64 :=
      (ofBytes_lt _).trans_le (Nat.pow_le_pow_right (by omega) (List.length_take_le _ _))
    have hsplit := ofBytes_append ((b :: bs).take 8) (bs.drop 7)
    rw [← List.drop_succ_cons, List.take_append_drop, List.drop_succ_cons] at hsplit
    rw [ofByteList, toNat_cons, ih, UInt64.toNat_ofNat', Nat.mod_eq_of_lt hlt, hsplit]
    -- Fewer than eight bytes are all there are.
    by_cases hlength : 8 ≤ (b :: bs).length
    · rw [List.length_take_of_le hlength]
      rfl
    · rw [List.drop_of_length_le (by rw [List.length_cons] at hlength; omega)]
      rfl

/-- The words of the bytes of some words. -/
theorem ofByteList_toByteList (ls : Limbs) : ofByteList ls.toByteList = ls := by
  induction ls with
  | nil => rw [toByteList, List.flatMap_nil, ofByteList]
  | cons l ls ih =>
    have htake : (toBytes 8 l.toNat ++ toByteList ls).take 8 = toBytes 8 l.toNat :=
      List.take_left' (length_toBytes _ _)
    have hdrop : (toBytes 8 l.toNat ++ toByteList ls).drop 8 = toByteList ls :=
      List.drop_left' (length_toBytes _ _)
    rw [toByteList_cons]
    cases hbytes : toBytes 8 l.toNat ++ toByteList ls with
    | nil =>
      have hlength := congrArg List.length hbytes
      rw [List.length_append, length_toBytes] at hlength
      simp at hlength
    | cons b bs =>
      rw [hbytes] at htake hdrop
      rw [ofByteList, htake, ofBytes_toBytes_word, UInt64.ofNat_toNat]
      rw [List.drop_succ_cons] at hdrop
      rw [hdrop, ih]

end Limbs
end Cognate
