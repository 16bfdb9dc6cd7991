import Cognate.Proofs.Number.Shifts

/-!
# Limbs, word by word

Limbs are shifted and rounded on words of 64 bits: a shift by as many bits as a word has stops, and so do a difference
below zero and an index behind the last word. `Machine` does it step by step, in place where that is how it is done, and
never stops (`Machine.shiftRightEven_eq`); what comes out is the nearest number without zeros on top
(`shiftRightEven_nearest`).
-/

namespace Cognate.Limbs

variable {ls : Limbs}

namespace Machine

/-! ## Steps -/

/-- A difference that is not negative. -/
def sub? (n m : Nat) : Option Nat := if m ≤ n then some (n - m) else none

/-- A difference of words that is not negative. -/
def subWord? (k l : UInt64) : Option UInt64 := if l ≤ k then some (k - l) else none

/-- A word shifted to the right, by fewer bits than it has. -/
def shr? (l : UInt64) (bits : Nat) : Option UInt64 := if bits < 64 then some (l >>> UInt64.ofNat bits) else none

/-- A word shifted to the left, by fewer bits than it has; what goes out on top is lost. -/
def shl? (l : UInt64) (bits : Nat) : Option UInt64 := if bits < 64 then some (l <<< UInt64.ofNat bits) else none

/-- The word of that index loses its low bits, and takes those that its neighbour above is going to lose. -/
def shiftWord (bits : Nat) (words : Limbs) (i : Nat) : Option Limbs := do
  let low ← shr? (← words[i]?) bits
  let high ← shl? (words.getD (i + 1) 0) (← sub? 64 bits)
  return words.set i (low ||| high)

/-- Every word in turn, in place; whole words do not change for a shift by no bits. -/
def shiftWords (bits : Nat) (words : Limbs) : Option Limbs :=
  if bits = 0 then some words else (List.range words.length).foldlM (shiftWord bits) words

/-- The bit of that index, unset behind the last word. -/
def bit (index : Nat) (ls : Limbs) : Option Bool :=
  match ls[index / 64]? with
  | none => some false
  | some l => (shr? l (index % 64)).map fun l => l &&& 1 == 1

/-- Some bit below that index is set: in a whole word, or under a mask in the next one. -/
def anyBelow (index : Nat) (ls : Limbs) : Option Bool :=
  if (ls.take (index / 64)).any (· != 0) then some true
  else if index % 64 = 0 then some false
  else
    match ls[index / 64]? with
    | none => some false
    | some l => do
      let mask ← subWord? (← shl? 1 (index % 64)) 1
      return l &&& mask != 0

/-- Adds a word; a sum that goes around carries one into the next word, or becomes a new word on top. -/
def add (carry : UInt64) : Limbs → Limbs
  | [] => if carry = 0 then [] else [carry]
  | l :: ls => if limbBase ≤ l.toNat + carry.toNat then (l + carry) :: add 1 ls else (l + carry) :: ls

/-- `shiftRightEven`, step by step. -/
def shiftRightEven (shift : Nat) (ls : Limbs) : Option Limbs :=
  if shift = 0 then some ls.trim
  else do
    let floor := trim (← shiftWords (shift % 64) (ls.drop (shift / 64)))
    let below ← sub? shift 1
    let half ← bit below ls
    let sticky ← anyBelow below ls
    let odd := floor.head?.any fun l => l &&& 1 == 1
    return if half && (sticky || odd) then add 1 floor else floor

end Machine

/-! ## Shifts of words -/

theorem Machine.shr?_eq {bits : Nat} (h : bits < 64) (l : UInt64) :
    ∃ k, Machine.shr? l bits = some k ∧ k.toNat = l.toNat / 2 ^ bits := by
  refine ⟨_, if_pos h, ?_⟩
  rw [UInt64.toNat_shiftRight, UInt64.toNat_ofNat', Nat.mod_eq_of_lt (h.trans (by decide)), Nat.mod_eq_of_lt h,
    Nat.shiftRight_eq_div_pow]

theorem Machine.shl?_eq {bits : Nat} (h : bits < 64) (l : UInt64) :
    ∃ k, Machine.shl? l bits = some k ∧ k.toNat = l.toNat % 2 ^ (64 - bits) * 2 ^ bits := by
  refine ⟨_, if_pos h, ?_⟩
  rw [UInt64.toNat_shiftLeft, UInt64.toNat_ofNat', Nat.mod_eq_of_lt (h.trans (by decide)), Nat.mod_eq_of_lt h,
    Nat.shiftLeft_eq, ← Nat.mul_mod_mul_right, ← Nat.pow_add, Nat.sub_add_cancel h.le]

/-- A word and its neighbour above, shifted to the right, as a quotient of their number. -/
theorem Machine.shiftPair {bits : Nat} (hpos : bits ≠ 0) (h : bits < 64) (l next : UInt64) :
    ∃ low high, Machine.shr? l bits = some low ∧ Machine.shl? next (64 - bits) = some high ∧
      low ||| high = UInt64.ofNat ((next.toNat % 2 ^ bits * limbBase + l.toNat) / 2 ^ bits) := by
  obtain ⟨low, hlow, hlow'⟩ := Machine.shr?_eq h l
  obtain ⟨high, hhigh, hhigh'⟩ := Machine.shl?_eq (show 64 - bits < 64 by omega) next
  refine ⟨low, high, hlow, hhigh, UInt64.toNat_inj.1 ?_⟩
  have hpow : 2 ^ (64 - bits) * 2 ^ bits = limbBase := by
    rw [← Nat.pow_add, Nat.sub_add_cancel h.le]
    rfl
  have hl : l.toNat / 2 ^ bits < 2 ^ (64 - bits) := by
    rw [Nat.div_lt_iff_lt_mul (Nat.two_pow_pos bits), hpow]
    exact l.toNat_lt
  have hquotient : (next.toNat % 2 ^ bits * limbBase + l.toNat) / 2 ^ bits =
      next.toNat % 2 ^ bits * 2 ^ (64 - bits) + l.toNat / 2 ^ bits := by
    rw [← hpow, ← Nat.mul_assoc, Nat.add_comm, Nat.add_mul_div_right _ _ (Nat.two_pow_pos bits), Nat.add_comm]
  have hfits : next.toNat % 2 ^ bits * 2 ^ (64 - bits) + l.toNat / 2 ^ bits < 2 ^ 64 := by
    have hnext := Nat.mul_le_mul_right (2 ^ (64 - bits)) (Nat.mod_lt next.toNat (Nat.two_pow_pos bits))
    rw [Nat.succ_mul, Nat.mul_comm (2 ^ bits), hpow] at hnext
    have hbase : limbBase = 2 ^ 64 := rfl
    omega
  rw [Nat.sub_sub_self h.le] at hhigh'
  rw [UInt64.toNat_or, hlow', hhigh', UInt64.toNat_ofNat', hquotient, Nat.mod_eq_of_lt hfits, Nat.or_comm,
    ← Nat.shiftLeft_eq, Nat.shiftLeft_add_eq_or_of_lt hl]

/-- The remainder of some words by a power of two is that of the lowest one. -/
theorem toNat_mod_two_pow {bits : Nat} (h : bits < 64) (ls : Limbs) :
    ls.toNat % 2 ^ bits = (ls.headD 0).toNat % 2 ^ bits := by
  cases ls with
  | nil => rfl
  | cons l ls =>
    have hdvd : 2 ^ bits ∣ limbBase := pow_dvd_pow 2 h.le
    rw [toNat_cons, Nat.add_mod, Nat.mod_eq_zero_of_dvd (hdvd.mul_right _), Nat.add_zero, Nat.mod_mod, List.headD_cons]

/-- What the loop over the words in place does behind the words that it is done with. -/
theorem Machine.foldlM_shiftWord {bits : Nat} (hpos : bits ≠ 0) (h : bits < 64) (ks ls : Limbs) :
    (List.range' ks.length ls.length).foldlM (Machine.shiftWord bits) (ks ++ ls) =
      some (ks ++ (divMod (UInt64.ofNat (Nat.pow 2 bits)) ls).1) := by
  have hword := toNat_powWord h
  induction ls generalizing ks with
  | nil => rfl
  | cons l ls ih =>
    obtain ⟨low, high, hlow, hhigh, hor⟩ := Machine.shiftPair hpos h l (ls.headD 0)
    have hword' : (ks ++ l :: ls)[ks.length]? = some l := by simp
    have hnext : (ks ++ l :: ls).getD (ks.length + 1) 0 = ls.headD 0 := by
      cases ls <;> simp [List.getD_eq_getElem?_getD]
    have hbits : Machine.sub? 64 bits = some (64 - bits) := if_pos h.le
    have hstep : Machine.shiftWord bits (ks ++ l :: ls) ks.length = some (ks ++ [low ||| high] ++ ls) := by
      simp only [Machine.shiftWord, hword', hnext, hbits, hlow, hhigh, Option.bind_eq_bind, Option.bind_some]
      simp
    have hrest := ih (ks ++ [low ||| high])
    rw [List.length_append, List.length_singleton] at hrest
    rw [List.length_cons, List.range'_succ, List.foldlM_cons, hstep, Option.bind_eq_bind, Option.bind_some, hrest,
      List.append_assoc, List.singleton_append]
    have hremainder := (divMod_spec (UInt64.ofNat (Nat.pow 2 bits)) ls (hword ▸ Nat.two_pow_pos bits)).2
    rw [hword, toNat_mod_two_pow h] at hremainder
    simp only [divMod, hor, hremainder, hword]

/-- Shifting words in place divides their number by a power of two. -/
theorem Machine.shiftWords_eq {bits : Nat} (h : bits < 64) (ls : Limbs) :
    ∃ words, Machine.shiftWords bits ls = some words ∧ words.toNat = ls.toNat / 2 ^ bits := by
  have hword := toNat_powWord h
  rw [Machine.shiftWords]
  split
  · next hzero => exact ⟨ls, rfl, by rw [hzero, Nat.pow_zero, Nat.div_one]⟩
  · next hpos =>
    rw [List.range_eq_range']
    refine ⟨_, Machine.foldlM_shiftWord hpos h [] ls, ?_⟩
    rw [List.nil_append, (divMod_spec _ ls (hword ▸ Nat.two_pow_pos bits)).1, hword]

/-! ## Bits -/

theorem and_one_eq (l : UInt64) : (l &&& 1 == 1) = l.toNat.testBit 0 := by
  rw [Nat.testBit_zero, Bool.eq_iff_iff, beq_iff_eq, decide_eq_true_iff, ← UInt64.toNat_inj, UInt64.toNat_and,
    UInt64.toNat_one, Nat.and_one_is_mod]

theorem Machine.bit_eq (index : Nat) (ls : Limbs) : Machine.bit index ls = some (ls.bit index) := by
  have hlt : index % 64 < 64 := Nat.mod_lt _ (by omega)
  rw [Machine.bit, Limbs.bit, List.getD_eq_getElem?_getD]
  cases ls[index / 64]? with
  | none => simp
  | some l =>
    obtain ⟨k, hk, hk'⟩ := Machine.shr?_eq hlt l
    simp only [hk, Option.map_some, and_one_eq, hk', Nat.testBit_div_two_pow, Nat.zero_add, Option.getD_some]

theorem Machine.anyBelow_eq (index : Nat) (ls : Limbs) : Machine.anyBelow index ls = some (ls.anyBelow index) := by
  have hlt : index % 64 < 64 := Nat.mod_lt _ (by omega)
  rw [Machine.anyBelow, Limbs.anyBelow]
  cases (ls.take (index / 64)).any (· != 0) with
  | true => rfl
  | false =>
    rw [if_neg Bool.false_ne_true, Bool.false_or, List.getD_eq_getElem?_getD]
    by_cases hzero : index % 64 = 0
    · rw [if_pos hzero, hzero, Nat.pow_eq, Nat.pow_zero, Nat.mod_one]
      rfl
    · rw [if_neg hzero]
      cases ls[index / 64]? with
      | none => simp
      | some l =>
        obtain ⟨power, hpower, hpower'⟩ := Machine.shl?_eq hlt 1
        have hone : 1 < 2 ^ (64 - index % 64) := Nat.one_lt_two_pow (by omega)
        rw [UInt64.toNat_one, Nat.mod_eq_of_lt hone, Nat.one_mul] at hpower'
        have hle : (1 : UInt64) ≤ power := by
          rw [UInt64.le_iff_toNat_le, hpower']
          exact Nat.two_pow_pos _
        have hmask : (l &&& (power - 1)).toNat = l.toNat % 2 ^ (index % 64) := by
          rw [UInt64.toNat_and, UInt64.toNat_sub_of_le _ _ hle, hpower', UInt64.toNat_one,
            Nat.and_two_pow_sub_one_eq_mod]
        simp only [hpower, Machine.subWord?, hle, if_true, Option.bind_eq_bind, Option.bind_some, Option.getD_some,
          Option.pure_def, Option.some.injEq, Nat.pow_eq, ← hmask]
        rw [Bool.eq_iff_iff, bne_iff_ne, bne_iff_ne, ne_eq, ne_eq, ← UInt64.toNat_inj, UInt64.toNat_zero]

/-! ## Rounding -/

theorem Machine.add_one_eq (ls : Limbs) : Machine.add 1 ls = ls.succ := by
  induction ls with
  | nil => rfl
  | cons l ls ih =>
    have hl : l.toNat < limbBase := l.toNat_lt
    have hsum : (l + 1).toNat = (l.toNat + 1) % limbBase := UInt64.toNat_add l 1
    have hcarry : limbBase ≤ l.toNat + 1 ↔ l + 1 = 0 := by
      rw [← UInt64.toNat_inj, hsum, UInt64.toNat_zero]
      constructor
      · intro hle
        rw [show l.toNat + 1 = limbBase by omega, Nat.mod_self]
      · intro hzero
        by_contra hlt
        rw [Nat.mod_eq_of_lt (Nat.lt_of_not_le hlt)] at hzero
        omega
    rw [Machine.add, succ, UInt64.toNat_one, ih]
    simp only [hcarry]
    split
    · next hzero => rw [hzero]
    · rfl

/-- Words without zeros on top, seen from their last one. -/
theorem Trimmed.getLast?_ne (h : Trimmed ls) : ls.getLast? ≠ some 0 := by
  intro hzero
  obtain ⟨ks, rfl⟩ := List.getLast?_eq_some_iff.1 hzero
  have hnumber : toNat (ks ++ [0]) = toNat ks := by simp [toNat_append]
  have hlength : (ks ++ [0]).length ≤ ks.length := h.length_le (hnumber ▸ toNat_lt ks)
  simp at hlength

/-- No zero comes to stand on top of the number one above: a carry that leaves the words is a word of its own. -/
theorem getLast?_succ_ne (h : ls.getLast? ≠ some 0) : ls.succ.getLast? ≠ some 0 := by
  induction ls with
  | nil => decide
  | cons l ls ih =>
    rw [succ]
    cases ls with
    | nil =>
      split
      · decide
      · next hl => simpa using hl
    | cons l' ls =>
      rw [List.getLast?_cons_cons] at h
      split
      · have hrest := ih h
        obtain ⟨k, ks, hsucc⟩ : ∃ k ks, succ (l' :: ls) = k :: ks := by
          rw [succ]
          split <;> exact ⟨_, _, rfl⟩
        rwa [hsucc, List.getLast?_cons_cons, ← hsucc]
      · rwa [List.getLast?_cons_cons]

theorem trimmed_shiftDown (shift : Nat) (ls : Limbs) : Trimmed (ls.shiftDown shift) := trimmed_trim _

theorem getLast?_shiftRightEven_ne (shift : Nat) (ls : Limbs) : (ls.shiftRightEven shift).getLast? ≠ some 0 := by
  have hfloor := (trimmed_shiftDown shift ls).getLast?_ne
  unfold shiftRightEven
  dsimp only
  split
  · exact (trimmed_trim ls).getLast?_ne
  · split
    · exact getLast?_succ_ne hfloor
    · exact hfloor

/-- No step of shifting and rounding stops. -/
theorem Machine.shiftRightEven_eq (shift : Nat) (ls : Limbs) :
    Machine.shiftRightEven shift ls = some (ls.shiftRightEven shift) := by
  rw [Machine.shiftRightEven, Limbs.shiftRightEven]
  split
  · rfl
  · next hshift =>
    have hbits : shift % 64 < 64 := Nat.mod_lt _ (by omega)
    obtain ⟨words, hwords, hnumber⟩ := Machine.shiftWords_eq hbits (ls.drop (shift / 64))
    have hfloor : trim words = ls.shiftDown shift := by
      refine (trimmed_trim words).eq (trimmed_shiftDown shift ls) ?_
      rw [toNat_trim, hnumber, toNat_shiftDown, toNat_drop, Nat.div_div_eq_div_mul, ← two_pow_eq]
    have hodd : (ls.shiftDown shift).head?.any (fun l => l &&& 1 == 1) = (ls.shiftDown shift).bit 0 := by
      rw [Limbs.bit]
      cases ls.shiftDown shift with
      | nil => rfl
      | cons l rest => exact and_one_eq l
    have hbelow : Machine.sub? shift 1 = some (shift - 1) := if_pos (by omega)
    simp only [hwords, hfloor, hbelow, Machine.bit_eq, Machine.anyBelow_eq, hodd, Machine.add_one_eq,
      Option.bind_eq_bind, Option.bind_some, Option.pure_def]

/-- Shifting to the right gives, without a step that stops, the words of the nearest number to the quotient by a power
of two, the even one at a half; no zeros stand on top of them. -/
theorem shiftRightEven_nearest (shift : Nat) (ls : Limbs) :
    ∃ rounded, Machine.shiftRightEven shift ls = some rounded ∧ rounded = ls.shiftRightEven shift ∧
      rounded.getLast? ≠ some 0 ∧ NearestEven (ls.toNat / 2 ^ shift) rounded.toNat := by
  refine ⟨_, Machine.shiftRightEven_eq shift ls, rfl, getLast?_shiftRightEven_ne shift ls, ?_⟩
  have hnearest := nearestEven_roundHalfEven ls.toNat (Nat.two_pow_pos shift)
  rw [toNat_shiftRightEven]
  exact_mod_cast hnearest

end Cognate.Limbs
