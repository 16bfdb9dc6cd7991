import Cognate.Proofs.Token.Within
import Mathlib.Computability.Language

/-!
# Languages and longest matches

The characters that a rule of the token table may match form a language, put together from classes of characters and
fixed texts. A matcher is `Greedy` for a language if it finds the longest word of it that a text starts with. The rules
for products say when the longest match of a product is made of the longest matches of its factors: no word of the first
one goes on with a character that the second one starts with (`GrowsBy`, `BeginsIn`).
-/

namespace Cognate

open Computability

variable {L M : Language Char} {p q r : Char → Bool} {f g : List Char → Option Nat} {c : Char} {w cs rest : List Char}
  {n : Nat}

/-! ## Languages -/

/-- One character of a class. -/
def oneOf (p : Char → Bool) : Language Char := {w | ∃ c, p c = true ∧ w = [c]}

/-- A fixed text. -/
def fixed (text : String) : Language Char := {text.toList}

/-- A nonempty word of characters of a class. -/
def someOf (p : Char → Bool) : Language Char := oneOf p * (oneOf p)∗

/-- A word, or nothing. -/
def maybe (L : Language Char) : Language Char := 1 + L

theorem mem_fixed {text : String} : w ∈ fixed text ↔ w = text.toList := Iff.rfl

theorem mem_maybe : w ∈ maybe L ↔ w = [] ∨ w ∈ L := Language.mem_add 1 L w

theorem mem_oneOf_mul : w ∈ oneOf p * L ↔ ∃ c v, w = c :: v ∧ p c = true ∧ v ∈ L := by
  rw [Language.mem_mul]
  constructor
  · rintro ⟨_, ⟨c, hc, rfl⟩, v, hv, rfl⟩
    exact ⟨c, v, rfl, hc, hv⟩
  · rintro ⟨c, v, rfl, hc, hv⟩
    exact ⟨[c], ⟨c, hc, rfl⟩, v, hv, rfl⟩

theorem cons_mem_oneOf_mul : c :: w ∈ oneOf p * L ↔ p c = true ∧ w ∈ L := by
  rw [mem_oneOf_mul]
  constructor
  · rintro ⟨d, v, he, hd, hv⟩
    obtain ⟨rfl, rfl⟩ := List.cons.inj he
    exact ⟨hd, hv⟩
  · rintro ⟨hc, hw⟩
    exact ⟨c, w, rfl, hc, hw⟩

theorem nil_not_mem_oneOf_mul : [] ∉ oneOf p * L := by
  rw [mem_oneOf_mul]
  rintro ⟨c, v, he, -⟩
  cases he

theorem mem_run : w ∈ (oneOf p)∗ ↔ w.all p = true := by
  induction w with
  | nil => simp [Language.nil_mem_kstar]
  | cons c w ih =>
    rw [← Language.one_add_self_mul_kstar_eq_kstar, Language.mem_add, cons_mem_oneOf_mul, ih, List.all_cons,
      Bool.and_eq_true, Language.mem_one]
    simp

theorem mem_someOf : w ∈ someOf p ↔ w ≠ [] ∧ w.all p = true := by
  rw [someOf, mem_oneOf_mul]
  constructor
  · rintro ⟨c, v, rfl, hc, hv⟩
    simpa [hc] using mem_run.1 hv
  · rintro ⟨hne, hall⟩
    obtain ⟨c, v, rfl⟩ := List.exists_cons_of_ne_nil hne
    rw [List.all_cons, Bool.and_eq_true] at hall
    exact ⟨c, v, rfl, hall.1, mem_run.2 hall.2⟩

/-! ## Starting and going on -/

/-- A word that is not empty starts with a character of the class. -/
def BeginsIn (L : Language Char) (p : Char → Bool) : Prop := ∀ w ∈ L, ∀ c ∈ w.head?, p c = true

/-- A word that goes on behind a word of the language goes on with a character of the class. -/
def GrowsBy (L : Language Char) (p : Char → Bool) : Prop :=
  ∀ u v, u ∈ L → u ++ v ∈ L → ∀ c ∈ v.head?, p c = true

theorem BeginsIn.cons : BeginsIn (oneOf p * L) p := by
  intro w hw c hc
  obtain ⟨d, v, rfl, hd, -⟩ := mem_oneOf_mul.1 hw
  cases hc
  exact hd

theorem BeginsIn.one : BeginsIn (oneOf p) p := by
  rintro _ ⟨d, hd, rfl⟩ c hc
  cases hc
  exact hd

theorem BeginsIn.run : BeginsIn (oneOf p)∗ p := by
  intro w hw c hc
  have hall := mem_run.1 hw
  obtain ⟨v, rfl⟩ := List.head?_eq_some_iff.1 hc
  simp only [List.all_cons, Bool.and_eq_true] at hall
  exact hall.1

theorem BeginsIn.maybe (h : BeginsIn L p) : BeginsIn (maybe L) p := by
  intro w hw c hc
  rcases mem_maybe.1 hw with rfl | hw
  · cases hc
  · exact h w hw c hc

/-- A product starts like its first factor, or like its second one where the first word may be empty. -/
theorem BeginsIn.mul (hL : BeginsIn L p) (hM : BeginsIn M p) : BeginsIn (L * M) p := by
  intro w hw c hc
  obtain ⟨u, hu, v, hv, rfl⟩ := Language.mem_mul.1 hw
  cases u with
  | nil => exact hM v hv c hc
  | cons d u => exact hL _ hu c hc

theorem BeginsIn.weaken (h : BeginsIn L p) (hpq : ∀ c, p c = true → q c = true) : BeginsIn L q :=
  fun w hw c hc => hpq c (h w hw c hc)

theorem GrowsBy.weaken (h : GrowsBy L p) (hpq : ∀ c, p c = true → q c = true) : GrowsBy L q :=
  fun u v hu huv c hc => hpq c (h u v hu huv c hc)

theorem GrowsBy.run : GrowsBy (oneOf p)∗ p := by
  intro u v _ huv c hc
  rw [mem_run, List.all_append, Bool.and_eq_true] at huv
  exact BeginsIn.run v (mem_run.2 huv.2) c hc

theorem GrowsBy.one : GrowsBy (oneOf p) q := by
  rintro _ v ⟨c, -, rfl⟩ ⟨d, -, he⟩ e hv
  obtain ⟨-, rfl⟩ := List.cons.inj he
  cases hv

theorem GrowsBy.cons (h : GrowsBy L q) : GrowsBy (oneOf p * L) q := by
  intro u v hu huv c hc
  obtain ⟨d, u, rfl, -, hu⟩ := mem_oneOf_mul.1 hu
  rw [List.cons_append, cons_mem_oneOf_mul] at huv
  exact h u v hu huv.2 c hc

theorem GrowsBy.someOf : GrowsBy (someOf p) p := .cons .run

theorem GrowsBy.maybe (h : GrowsBy L p) (hstart : BeginsIn L p) : GrowsBy (maybe L) p := by
  intro u v hu huv c hc
  rcases mem_maybe.1 hu with rfl | hu
  · exact hstart.maybe _ huv c hc
  · rcases mem_maybe.1 huv with he | huv
    · rw [(List.append_eq_nil_iff.1 he).2] at hc
      cases hc
    · exact h u v hu huv c hc

/-- In a product whose factors can be told apart by where the second one starts, only that one goes on. -/
theorem GrowsBy.mul (hL : GrowsBy L p) (hM : GrowsBy M r) (hstart : BeginsIn M q) (hpq : ∀ c, q c = true → p c = false)
    (hne : [] ∉ M) : GrowsBy (L * M) r := by
  -- Of two splits of one word, neither has the longer first part.
  have hsplit : ∀ {u v x y : List Char}, u ∈ L → u ++ x ∈ L → y ∈ M → (x ++ v).head? = y.head? → x = [] := by
    intro u v x y hu hux hy hhead
    cases x with
    | nil => rfl
    | cons c x =>
      have hc := hpq c (hstart y hy c hhead.symm)
      rw [hL u _ hu hux c rfl] at hc
      cases hc
  intro u v hu huv c hc
  obtain ⟨u₁, hu₁, w₁, hw₁, rfl⟩ := Language.mem_mul.1 hu
  obtain ⟨u₂, hu₂, w₂, hw₂, he⟩ := Language.mem_mul.1 huv
  obtain ⟨a, w₁, rfl⟩ := List.exists_cons_of_ne_nil fun h : w₁ = [] => hne (h ▸ hw₁)
  obtain ⟨b, w₂, rfl⟩ := List.exists_cons_of_ne_nil fun h : w₂ = [] => hne (h ▸ hw₂)
  rw [List.append_assoc] at he
  rcases List.append_eq_append_iff.1 he with ⟨x, rfl, hx⟩ | ⟨x, rfl, hx⟩
  · obtain rfl := hsplit (v := a :: w₁ ++ v) hu₂ hu₁ hw₂ (by rw [hx])
    rw [List.nil_append] at hx
    exact hM _ v hw₁ (hx ▸ hw₂) c hc
  · obtain rfl := hsplit (v := b :: w₂) hu₁ hu₂ hw₁ (by rw [← hx]; rfl)
    rw [List.nil_append] at hx
    exact hM _ v hw₁ (hx ▸ hw₂) c hc

/-! ## Longest matches -/

/-- The matcher finds the longest word of the language that a text starts with. -/
structure Greedy (L : Language Char) (f : List Char → Option Nat) : Prop where
  matched : ∀ {cs n}, f cs = some n → n ≤ cs.length ∧ cs.take n ∈ L
  longest : ∀ {cs w}, w ∈ L → w <+: cs → ∃ n, f cs = some n ∧ w.length ≤ n

/-- The matcher that takes one character and goes on behind it. -/
def afterOne (p : Char → Bool) (f : List Char → Option Nat) : List Char → Option Nat
  | [] => none
  | c :: cs => if p c then (f cs).map (· + 1) else none

namespace Greedy

theorem of_eq (h : Greedy L f) (he : ∀ cs, g cs = f cs) : Greedy L g := by
  obtain rfl : g = f := funext he
  exact h

theorem run : Greedy (oneOf p)∗ fun cs => some (run p cs) := by
  constructor
  · intro cs n h
    cases h
    refine ⟨run_le p cs, mem_run.2 ?_⟩
    rw [take_run]
    exact List.all_takeWhile
  · rintro cs w hw ⟨rest, rfl⟩
    refine ⟨_, rfl, ?_⟩
    have hall : ∀ c ∈ w, p c = true := List.all_eq_true.1 (mem_run.1 hw)
    rw [Cognate.run, List.takeWhile_append_of_pos hall, List.length_append]
    exact Nat.le_add_right _ _

/-- A character, and what is matched behind it. -/
theorem cons (h : Greedy L f) (hnil : g [] = none)
    (hcons : ∀ c cs, g (c :: cs) = if p c then (f cs).map (· + 1) else none) : Greedy (oneOf p * L) g := by
  constructor
  · intro cs n hn
    cases cs with
    | nil => cases hnil.symm.trans hn
    | cons c cs =>
      rw [hcons, Option.ite_none_right_eq_some] at hn
      obtain ⟨hc, hn⟩ := hn
      obtain ⟨m, hm, rfl⟩ := Option.map_eq_some_iff.1 hn
      obtain ⟨hle, hmem⟩ := h.matched hm
      exact ⟨Nat.succ_le_succ hle, cons_mem_oneOf_mul.2 ⟨hc, hmem⟩⟩
  · intro cs w hw hstart
    obtain ⟨c, v, rfl, hc, hv⟩ := mem_oneOf_mul.1 hw
    obtain ⟨rest, rfl⟩ := hstart
    obtain ⟨n, hn, hle⟩ := h.longest hv (List.prefix_append v rest)
    refine ⟨n + 1, ?_, Nat.succ_le_succ hle⟩
    rw [List.cons_append, hcons, if_pos hc, hn]
    rfl

theorem afterOne (h : Greedy L f) : Greedy (oneOf p * L) (afterOne p f) := h.cons rfl fun _ _ => rfl

theorem someRun : Greedy (someOf p) (someRun p) := by
  refine run.cons rfl fun c cs => ?_
  by_cases hc : p c = true
  · simp [Cognate.someRun, Cognate.run, hc]
  · simp [Cognate.someRun, Cognate.run, hc]

theorem maybe (h : Greedy L f) : Greedy (maybe L) fun cs => some ((f cs).getD 0) := by
  constructor
  · intro cs n hn
    cases hn
    cases hf : f cs with
    | none => exact ⟨Nat.zero_le _, mem_maybe.2 (.inl rfl)⟩
    | some m =>
      obtain ⟨hle, hmem⟩ := h.matched hf
      exact ⟨hle, mem_maybe.2 (.inr hmem)⟩
  · intro cs w hw hstart
    refine ⟨_, rfl, ?_⟩
    rcases mem_maybe.1 hw with rfl | hw
    · exact Nat.zero_le _
    · obtain ⟨n, hn, hle⟩ := h.longest hw hstart
      rw [hn]
      exact hle

/-- The longest match of a product. A shorter word of the first factor has a character behind it that the second factor
does not start with. -/
theorem mul (hL : Greedy L f) (hM : Greedy M g) (hgrows : GrowsBy L p) (hstart : BeginsIn M q)
    (hpq : ∀ c, q c = true → p c = false) :
    Greedy (L * M) fun cs => (f cs).bind fun n => (g (cs.drop n)).map (n + ·) := by
  constructor
  · intro cs n hn
    obtain ⟨k, hk, hn⟩ := Option.bind_eq_some_iff.1 hn
    obtain ⟨m, hm, rfl⟩ := Option.map_eq_some_iff.1 hn
    obtain ⟨hkle, hkmem⟩ := hL.matched hk
    obtain ⟨hmle, hmmem⟩ := hM.matched hm
    rw [List.length_drop] at hmle
    refine ⟨by omega, ?_⟩
    rw [List.take_add]
    exact Language.append_mem_mul hkmem hmmem
  · intro cs w hw hstands
    obtain ⟨u, hu, v, hv, rfl⟩ := Language.mem_mul.1 hw
    obtain ⟨k, hk, huk⟩ := hL.longest hu ((List.prefix_append u v).trans hstands)
    obtain ⟨hkle, hkmem⟩ := hL.matched hk
    obtain ⟨rest, rfl⟩ := hstands
    rw [List.append_assoc] at hk hkle hkmem
    have htake : (u ++ (v ++ rest)).take k = u ++ (v ++ rest).take (k - u.length) := by
      rw [List.take_append, List.take_of_length_le huk]
    rw [htake] at hkmem
    -- Either nothing stands between the two words of the first factor, or the second word is empty.
    have hcases : k = u.length ∨ v = [] := by
      by_contra hne
      rw [not_or] at hne
      obtain ⟨c, v, rfl⟩ := List.exists_cons_of_ne_nil hne.2
      obtain ⟨j, hj⟩ : ∃ j, k - u.length = j + 1 := ⟨k - u.length - 1, by omega⟩
      rw [hj] at hkmem
      have hp := hgrows u _ hu hkmem c (by simp)
      rw [hpq c (hstart _ hv c (by simp))] at hp
      cases hp
    rcases hcases with rfl | rfl
    · obtain ⟨m, hm, hle⟩ := hM.longest hv (List.prefix_append v rest)
      refine ⟨u.length + m, ?_, by simpa using hle⟩
      rw [List.append_assoc, hk, Option.bind_some, List.drop_left, hm]
      rfl
    · obtain ⟨m, hm, -⟩ := hM.longest hv (List.nil_prefix : [] <+: (u ++ rest).drop k)
      refine ⟨k + m, ?_, by simpa using Nat.le_add_right_of_le huk⟩
      rw [List.nil_append] at hk
      rw [List.append_nil, hk, Option.bind_some, hm]
      rfl

/-- A run of one class, and what does not start with it. -/
theorem someRun_mul (hM : Greedy M g) (hstart : BeginsIn M q) (hpq : ∀ c, q c = true → p c = false) :
    Greedy (someOf p * M) fun cs => (Cognate.someRun p cs).bind fun n => (g (cs.drop n)).map (n + ·) :=
  someRun.mul hM .someOf hstart hpq

end Greedy

/-! ## Words and numbers -/

theorem greedy_word : Greedy (oneOf isWordStart * (oneOf isWordRest)∗) word :=
  Greedy.run.cons rfl fun c cs => by simp [word, Nat.add_comm]

/-- Digits and the letters of a suffix. -/
def digitsAndSuffix (digit : Char → Bool) : Language Char := someOf digit * (oneOf isIntegerSuffix)∗

theorem greedy_integerBody {digit : Char → Bool} (h : ∀ c, isIntegerSuffix c = true → digit c = false) :
    Greedy (digitsAndSuffix digit) (integerBody digit) := by
  refine (Greedy.someRun_mul .run .run h).of_eq fun cs => ?_
  rw [integerBody, Option.map_eq_bind]
  rfl

theorem isIntegerSuffix_cases (h : isIntegerSuffix c = true) : c = 'u' ∨ c = 'U' ∨ c = 'l' ∨ c = 'L' := by
  simpa [isIntegerSuffix, or_assoc] using h

theorem greedy_decimalLiteral : Greedy (digitsAndSuffix isDecimalDigit) decimalLiteral := by
  refine greedy_integerBody fun c hc => ?_
  rcases isIntegerSuffix_cases hc with rfl | rfl | rfl | rfl <;> rfl

theorem greedy_octalLiteral : Greedy (oneOf (· == '0') * digitsAndSuffix isOctalDigit) octalLiteral := by
  have hbody : Greedy (digitsAndSuffix isOctalDigit) (integerBody isOctalDigit) := by
    refine greedy_integerBody fun c hc => ?_
    rcases isIntegerSuffix_cases hc with rfl | rfl | rfl | rfl <;> rfl
  refine hbody.cons rfl fun c cs => ?_
  by_cases hc : c = '0' <;> simp [octalLiteral, hc]

/-- The language of hexadecimal and binary literals: a zero, a letter, and digits. -/
def markedDigits (letter digit : Char → Bool) : Language Char :=
  oneOf (· == '0') * (oneOf letter * digitsAndSuffix digit)

theorem greedy_markedDigits {letter digit : Char → Bool} {f : List Char → Option Nat}
    (h : ∀ c, isIntegerSuffix c = true → digit c = false) (hnil : f [] = none) (hone : ∀ c, f [c] = none)
    (hcons : ∀ c d cs, f (c :: d :: cs) =
      if c == '0' then if letter d then (integerBody digit cs).map (· + 2) else none else none) :
    Greedy (markedDigits letter digit) f := by
  have hmark : Greedy (oneOf letter * digitsAndSuffix digit) (afterOne letter (integerBody digit)) :=
    (greedy_integerBody h).afterOne
  refine hmark.cons hnil fun c cs => ?_
  cases cs with
  | nil => simp [hone, afterOne]
  | cons d cs =>
    rw [hcons, afterOne]
    by_cases hd : letter d = true
    · simp only [hd, if_true, Option.map_map]
      rfl
    · simp [hd]

theorem greedy_hexLiteral : Greedy (markedDigits (fun c => c == 'x' || c == 'X') isHexDigit) hexLiteral := by
  refine greedy_markedDigits (fun c hc => ?_) rfl (fun c => ?_) fun c d cs => ?_
  · rcases isIntegerSuffix_cases hc with rfl | rfl | rfl | rfl <;> rfl
  · by_cases hc : c = '0' <;> simp [hexLiteral, hc]
  · by_cases hc : c = '0' <;> simp [hexLiteral, hc]

theorem greedy_binaryLiteral : Greedy (markedDigits (fun c => c == 'b' || c == 'B') isBinaryDigit) binaryLiteral := by
  refine greedy_markedDigits (fun c hc => ?_) rfl (fun c => ?_) fun c d cs => ?_
  · rcases isIntegerSuffix_cases hc with rfl | rfl | rfl | rfl <;> rfl
  · by_cases hc : c = '0' <;> simp [binaryLiteral, hc]
  · by_cases hc : c = '0' <;> simp [binaryLiteral, hc]

/-! ### Floating literals -/

def isSign (c : Char) : Bool := c == '+' || c == '-'

def isExponentMark (c : Char) : Bool := c == 'e' || c == 'E'

/-- The letter e, a sign or nothing, and digits. -/
def exponentPart : Language Char := oneOf isExponentMark * (maybe (oneOf isSign) * someOf isDecimalDigit)

/-- An exponent or nothing, and a suffix letter or nothing. -/
def floatEnd : Language Char := maybe exponentPart * maybe (oneOf isFloatSuffix)

theorem isDecimalDigit_of_sign (h : isSign c = true) : isDecimalDigit c = false := by
  simp only [isSign, Bool.or_eq_true, beq_iff_eq] at h
  rcases h with rfl | rfl <;> rfl

theorem isSign_of_digit (h : isDecimalDigit c = true) : isSign c = false := by
  by_contra hs
  rw [isDecimalDigit_of_sign (by simpa using hs)] at h
  cases h

theorem greedy_oneOf : Greedy (oneOf p) fun cs => if cs.head?.any p then some 1 else none := by
  constructor
  · intro cs n hn
    cases cs with
    | nil => cases hn
    | cons c cs =>
      rw [Option.ite_none_right_eq_some] at hn
      obtain ⟨hc, hn⟩ := hn
      cases hn
      exact ⟨by simp, c, by simpa using hc, rfl⟩
  · rintro cs _ ⟨c, hc, rfl⟩ ⟨rest, rfl⟩
    exact ⟨1, by simp [hc], le_refl _⟩

theorem greedy_sign : Greedy (maybe (oneOf isSign)) fun cs => some (signLength cs) := by
  refine greedy_oneOf.maybe.of_eq fun cs => ?_
  cases cs with
  | nil => rfl
  | cons c cs => by_cases hc : c = '+' ∨ c = '-' <;> simp [signLength, isSign, hc]

theorem greedy_floatSuffix : Greedy (maybe (oneOf isFloatSuffix)) fun cs => some (floatSuffix cs) := by
  refine greedy_oneOf.maybe.of_eq fun cs => ?_
  cases cs with
  | nil => rfl
  | cons c cs => by_cases hc : isFloatSuffix c = true <;> simp [floatSuffix, hc]

theorem greedy_exponent : Greedy exponentPart exponent := by
  have hdigits := greedy_sign.mul (Greedy.someRun (p := isDecimalDigit)) (.maybe .one .one) .cons
    fun c => isSign_of_digit
  refine hdigits.cons rfl fun c cs => ?_
  simp only [exponent, isExponentMark, Option.bind_some, Option.map_map]
  congr 2
  funext n
  simp only [Function.comp_apply]
  omega

theorem GrowsBy.exponentPart : GrowsBy exponentPart isDecimalDigit :=
  .cons (.mul (.maybe .one .one) .someOf .cons (fun _ => isSign_of_digit) nil_not_mem_oneOf_mul)

theorem isExponentMark_cases (h : isExponentMark c = true) : c = 'e' ∨ c = 'E' := by
  simpa [isExponentMark] using h

theorem isFloatSuffix_cases (h : isFloatSuffix c = true) : c = 'f' ∨ c = 'F' ∨ c = 'l' ∨ c = 'L' := by
  simpa [isFloatSuffix, or_assoc] using h

/-- What a floating literal ends with starts with a letter. -/
theorem BeginsIn.floatEnd : BeginsIn floatEnd fun c => isExponentMark c || isFloatSuffix c :=
  .mul (.maybe (.weaken .cons fun _ h => by simp [h])) (.maybe (.weaken .one fun _ h => by simp [h]))

theorem isDecimalDigit_of_letter (h : (isExponentMark c || isFloatSuffix c) = true) : isDecimalDigit c = false := by
  rcases Bool.or_eq_true_iff.1 h with h | h
  · rcases isExponentMark_cases h with rfl | rfl <;> rfl
  · rcases isFloatSuffix_cases h with rfl | rfl | rfl | rfl <;> rfl

/-- How far an exponent and a suffix reach. -/
def floatEndLength (cs : List Char) : Nat :=
  (exponent cs).getD 0 + floatSuffix (cs.drop ((exponent cs).getD 0))

theorem floatTail_eq (cs : List Char) (n : Nat) : floatTail cs n = n + floatEndLength (cs.drop n) := by
  simp only [floatTail, floatEndLength, List.drop_drop, Nat.add_assoc]

theorem greedy_floatEnd : Greedy floatEnd fun cs => some (floatEndLength cs) := by
  -- No suffix starts like an exponent, or goes on like one.
  have hgrows : GrowsBy (maybe exponentPart) fun c => isExponentMark c || isDecimalDigit c :=
    .maybe (.weaken .exponentPart fun _ h => by simp [h]) (.weaken .cons fun _ h => by simp [h])
  refine (greedy_exponent.maybe.mul greedy_floatSuffix hgrows (.maybe .one) fun c hc => ?_).of_eq fun cs => ?_
  · rcases isFloatSuffix_cases hc with rfl | rfl | rfl | rfl <;> rfl
  · simp [floatEndLength]

/-- Digits, a point, digits or nothing, and the end. -/
def pointNumber : Language Char :=
  someOf isDecimalDigit * (oneOf (· == '.') * ((oneOf isDecimalDigit)∗ * floatEnd))

theorem greedy_pointLiteral : Greedy pointNumber pointLiteral := by
  have hend := (Greedy.run (p := isDecimalDigit)).mul greedy_floatEnd .run .floatEnd fun _ => isDecimalDigit_of_letter
  refine (Greedy.someRun_mul (hend.afterOne (p := (· == '.'))) .cons fun c hc => ?_).of_eq fun cs => ?_
  · rw [beq_iff_eq.1 hc]
    rfl
  · rw [pointLiteral]
    refine Option.bind_congr fun n hn => ?_
    cases hrest : cs.drop n with
    | nil => rfl
    | cons c rest =>
      by_cases hc : c = '.'
      · have hdrop : rest.drop (run isDecimalDigit rest) = cs.drop (n + 1 + run isDecimalDigit rest) := by
          rw [Nat.add_assoc, ← List.drop_drop, hrest, Nat.add_comm 1, List.drop_succ_cons]
        simp only [hc, afterOne, floatTail_eq, hdrop, beq_self_eq_true, if_true, Option.map_some, Option.bind_some,
          Option.some.injEq]
        omega
      · simp [afterOne, hc]

/-- A point, digits, and the end. -/
def fractionNumber : Language Char := oneOf (· == '.') * (someOf isDecimalDigit * floatEnd)

theorem greedy_fractionLiteral : Greedy fractionNumber fractionLiteral := by
  refine (Greedy.someRun_mul greedy_floatEnd .floatEnd fun _ => isDecimalDigit_of_letter).cons rfl fun c cs => ?_
  by_cases hc : c = '.'
  · simp only [hc, fractionLiteral, floatTail_eq, beq_self_eq_true, if_true, Option.map_some, List.drop_succ_cons]
    cases someRun isDecimalDigit cs with
    | none => rfl
    | some n =>
      simp only [Option.map_some, Option.bind_some, Option.some.injEq]
      omega
  · simp [fractionLiteral, hc]

/-- Digits and an exponent, and maybe a suffix letter. -/
def exponentNumber : Language Char := someOf isDecimalDigit * (exponentPart * maybe (oneOf isFloatSuffix))

theorem greedy_exponentLiteral : Greedy exponentNumber exponentLiteral := by
  have hend : Greedy (exponentPart * maybe (oneOf isFloatSuffix)) _ :=
    greedy_exponent.mul greedy_floatSuffix .exponentPart (.maybe .one) fun c hc =>
      isDecimalDigit_of_letter (by simp [hc])
  have hstart : BeginsIn (exponentPart * maybe (oneOf isFloatSuffix)) fun c => isExponentMark c || isFloatSuffix c :=
    .mul (.weaken .cons fun _ h => by simp [h]) (.maybe (.weaken .one fun _ h => by simp [h]))
  refine (Greedy.someRun_mul hend hstart fun _ => isDecimalDigit_of_letter).of_eq fun cs => ?_
  rw [exponentLiteral]
  refine Option.bind_congr fun n hn => ?_
  cases hexponent : exponent (cs.drop n) with
  | none => rfl
  | some m =>
    simp only [Option.map_some, Option.bind_some, List.drop_drop, Option.some.injEq]
    omega

/-! ## Blanks, lines and comments -/

theorem greedy_fixed (text : String) : Greedy (fixed text) (fixedText text.toList) := by
  constructor
  · intro cs n hn
    simp only [fixedText, Option.ite_none_right_eq_some, Option.some.injEq] at hn
    obtain ⟨hstart, rfl⟩ := hn
    have hstands := List.isPrefixOf_iff_prefix.1 hstart
    exact ⟨hstands.length_le, (List.prefix_iff_eq_take.1 hstands).symm⟩
  · rintro cs _ rfl hstands
    exact ⟨text.toList.length, by simp [fixedText, List.isPrefixOf_iff_prefix.2 hstands], le_refl _⟩

theorem fixedText_eq_none {text cs : List Char} (h : ∀ rest, cs = text ++ rest → False) : fixedText text cs = none := by
  rw [fixedText, if_neg]
  rw [List.isPrefixOf_iff_prefix]
  rintro ⟨rest, rfl⟩
  exact h rest rfl

theorem GrowsBy.fixed (text : String) : GrowsBy (fixed text) p := by
  rintro u v rfl huv c hc
  rw [List.append_right_eq_self.1 huv] at hc
  cases hc

/-- A mark, and everything up to the end of the line. -/
def toLineEnd (mark : String) : Language Char := fixed mark * (oneOf (· != '\n'))∗

theorem greedy_toLineEnd (mark : String) : Greedy (toLineEnd mark) fun cs =>
    (fixedText mark.toList cs).map fun n => n + restOfLine (cs.drop n) := by
  refine ((greedy_fixed mark).mul .run (.fixed (p := fun _ => false) mark) .run fun _ _ => rfl).of_eq fun cs => ?_
  rw [Option.map_eq_bind]
  rfl

theorem greedy_lineComment : Greedy (toLineEnd "//") lineComment := by
  refine (greedy_toLineEnd "//").of_eq fun cs => ?_
  unfold lineComment
  split
  · rfl
  · next h =>
    rw [show "//".toList = ['/', '/'] from rfl, fixedText_eq_none h]
    rfl

theorem greedy_directive : Greedy (toLineEnd "#") directive := by
  refine (greedy_toLineEnd "#").of_eq fun cs => ?_
  unfold directive
  split
  · rfl
  · next h =>
    rw [show "#".toList = ['#'] from rfl, fixedText_eq_none h]
    rfl

/-- Behind a run of stars: other characters and stars again, as often as one likes, and a slash. -/
def commentAgain : Language Char :=
  (oneOf (fun c => c != '/' && c != '*') * ((oneOf (· != '*'))∗ * someOf (· == '*')))∗ * fixed "/"

/-- What stands in a comment, up to and including its end. -/
def commentInside : Language Char := (oneOf (· != '*'))∗ * (someOf (· == '*') * commentAgain)

def commentText : Language Char := fixed "/*" * commentInside

/-- What stands in a comment behind a star. -/
def commentStars : Language Char := (oneOf (· == '*'))∗ * commentAgain

theorem commentAgain_eq : commentAgain = fixed "/" + oneOf (fun c => c != '/' && c != '*') * commentInside := by
  have h := congrArg (· * fixed "/") (Language.one_add_self_mul_kstar_eq_kstar
    (oneOf (fun c => c != '/' && c != '*') * ((oneOf (· != '*'))∗ * someOf (· == '*'))))
  simp only [add_mul, one_mul, mul_assoc] at h
  exact h.symm

theorem commentStars_eq : commentStars = commentAgain + oneOf (· == '*') * commentStars := by
  have h := congrArg (· * commentAgain) (Language.one_add_self_mul_kstar_eq_kstar (oneOf (· == '*')))
  simp only [add_mul, one_mul, mul_assoc] at h
  exact h.symm

theorem commentInside_eq : commentInside = oneOf (· == '*') * commentStars + oneOf (· != '*') * commentInside := by
  have h := congrArg (· * (someOf (· == '*') * commentAgain))
    (Language.one_add_self_mul_kstar_eq_kstar (oneOf (· != '*')))
  simp only [add_mul, one_mul, mul_assoc] at h
  rw [commentStars, ← mul_assoc]
  exact h.symm

theorem cons_mem_commentInside :
    c :: w ∈ commentInside ↔ c = '*' ∧ w ∈ commentStars ∨ c ≠ '*' ∧ w ∈ commentInside := by
  conv_lhs => rw [commentInside_eq, Language.mem_add, cons_mem_oneOf_mul, cons_mem_oneOf_mul]
  simp

theorem cons_mem_commentStars : c :: w ∈ commentStars ↔
    c = '*' ∧ w ∈ commentStars ∨ c = '/' ∧ w = [] ∨ c ≠ '/' ∧ c ≠ '*' ∧ w ∈ commentInside := by
  conv_lhs => rw [commentStars_eq, commentAgain_eq, Language.mem_add, Language.mem_add, cons_mem_oneOf_mul,
    cons_mem_oneOf_mul, mem_fixed, show "/".toList = ['/'] from rfl]
  simp only [List.cons.injEq, beq_iff_eq, bne_iff_ne, Bool.and_eq_true, and_assoc]
  tauto

theorem nil_not_mem_commentInside : [] ∉ commentInside := by
  rw [commentInside_eq, Language.mem_add]
  exact fun h => h.elim nil_not_mem_oneOf_mul nil_not_mem_oneOf_mul

theorem nil_not_mem_commentStars : [] ∉ commentStars := by
  rw [commentStars_eq, commentAgain_eq, Language.mem_add, Language.mem_add, mem_fixed]
  rintro ((h | h) | h)
  · cases h
  · exact nil_not_mem_oneOf_mul h
  · exact nil_not_mem_oneOf_mul h

/-- Inside a comment, and behind a star in it, by induction on the text. -/
theorem commentBody_mem (cs : List Char) :
    (∀ n, commentBody cs = some n → n ≤ cs.length ∧ cs.take n ∈ commentInside) ∧
      ∀ n, commentBody ('*' :: cs) = some n → ∃ m, n = m + 1 ∧ m ≤ cs.length ∧ cs.take m ∈ commentStars := by
  induction cs with
  | nil => constructor <;> intro n hn <;> cases hn
  | cons c cs ih =>
    have hinside : ∀ n, commentBody (c :: cs) = some n →
        ∃ m, n = m + 1 ∧ m ≤ cs.length ∧ c :: cs.take m ∈ commentInside := by
      intro n hn
      by_cases hc : c = '*'
      · subst hc
        obtain ⟨m, hm, hle, hmem⟩ := ih.2 n hn
        exact ⟨m, hm, hle, cons_mem_commentInside.2 (.inl ⟨rfl, hmem⟩)⟩
      · rw [commentBody_cons fun h => hc h.1] at hn
        obtain ⟨m, hm, rfl⟩ := Option.map_eq_some_iff.1 hn
        obtain ⟨hle, hmem⟩ := ih.1 m hm
        exact ⟨m, rfl, hle, cons_mem_commentInside.2 (.inr ⟨hc, hmem⟩)⟩
    constructor
    · intro n hn
      obtain ⟨m, rfl, hle, hmem⟩ := hinside n hn
      exact ⟨Nat.succ_le_succ hle, hmem⟩
    · intro n hn
      by_cases hc : c = '/'
      · subst hc
        cases hn
        exact ⟨1, rfl, by simp, cons_mem_commentStars.2 (.inr (.inl ⟨rfl, by simp⟩))⟩
      · rw [commentBody_cons fun h => hc (by simpa using h.2)] at hn
        obtain ⟨k, hk, rfl⟩ := Option.map_eq_some_iff.1 hn
        obtain ⟨m, rfl, hle, hmem⟩ := hinside k hk
        refine ⟨m + 1, rfl, Nat.succ_le_succ hle, cons_mem_commentStars.2 ?_⟩
        rcases cons_mem_commentInside.1 hmem with ⟨rfl, hm⟩ | ⟨hstar, hm⟩
        · exact .inl ⟨rfl, hm⟩
        · exact .inr (.inr ⟨hc, hstar, hm⟩)

/-- A comment has one end. -/
theorem commentBody_of_stands (cs : List Char) :
    (∀ w ∈ commentInside, w <+: cs → commentBody cs = some w.length) ∧
      ∀ w ∈ commentStars, w <+: cs → commentBody ('*' :: cs) = some (w.length + 1) := by
  induction cs with
  | nil =>
    constructor
    · intro w hw hstands
      rw [List.prefix_nil.1 hstands] at hw
      exact absurd hw nil_not_mem_commentInside
    · intro w hw hstands
      rw [List.prefix_nil.1 hstands] at hw
      exact absurd hw nil_not_mem_commentStars
  | cons c cs ih =>
    have hinside : ∀ w ∈ commentInside, w <+: c :: cs → commentBody (c :: cs) = some w.length := by
      intro w hw hstands
      cases w with
      | nil => exact absurd hw nil_not_mem_commentInside
      | cons d w =>
        obtain ⟨rfl, hstart⟩ := List.cons_prefix_cons.1 hstands
        rcases cons_mem_commentInside.1 hw with ⟨rfl, hmem⟩ | ⟨hd, hmem⟩
        · exact ih.2 w hmem hstart
        · rw [commentBody_cons fun h => hd h.1, ih.1 w hmem hstart]
          rfl
    refine ⟨hinside, fun w hw hstands => ?_⟩
    cases w with
    | nil => exact absurd hw nil_not_mem_commentStars
    | cons d w =>
      obtain ⟨rfl, hstart⟩ := List.cons_prefix_cons.1 hstands
      by_cases hd : d = '/'
      · subst hd
        rcases cons_mem_commentStars.1 hw with ⟨h, -⟩ | ⟨-, rfl⟩ | ⟨h, -⟩
        · cases h
        · rfl
        · exact absurd rfl h
      · have hmem : d :: w ∈ commentInside := by
          rw [cons_mem_commentInside]
          rcases cons_mem_commentStars.1 hw with h | ⟨h, -⟩ | ⟨-, h⟩
          · exact .inl h
          · exact absurd h hd
          · exact .inr h
        rw [commentBody_cons fun h => hd (by simpa using h.2), hinside _ hmem hstands]
        rfl

theorem greedy_commentBody : Greedy commentInside commentBody :=
  ⟨fun {cs n} hn => (commentBody_mem cs).1 n hn,
    fun {cs w} hw hstands => ⟨w.length, (commentBody_of_stands cs).1 w hw hstands, le_refl _⟩⟩

theorem greedy_blockComment : Greedy commentText blockComment := by
  refine ((greedy_fixed "/*").mul greedy_commentBody (.fixed (p := fun _ => false) _) (q := fun _ => true)
    (fun _ _ _ _ => rfl) fun _ _ => rfl).of_eq fun cs => ?_
  unfold blockComment
  split
  · next cs =>
    change _ = (commentBody cs).map (2 + ·)
    simp only [Nat.add_comm]
  · next h =>
    rw [show "/*".toList = ['/', '*'] from rfl, fixedText_eq_none h]
    rfl

/-! ## Quotes -/

section Quote

variable {quote : Char}

/-- What may stand between quotes: a character that is neither the quote nor a backslash, or a backslash and a character
that does not end the line. -/
def unit (quote : Char) : Language Char :=
  oneOf (fun c => c != quote && c != '\\') + oneOf (· == '\\') * oneOf (· != '\n')

def quoted (quote : Char) : Language Char := oneOf (· == quote) * ((unit quote)∗ * oneOf (· == quote))

theorem cons_mem_units : c :: w ∈ (unit quote)∗ ↔ c ≠ quote ∧ c ≠ '\\' ∧ w ∈ (unit quote)∗ ∨
    c = '\\' ∧ ∃ d v, w = d :: v ∧ d ≠ '\n' ∧ v ∈ (unit quote)∗ := by
  conv_lhs => rw [← Language.one_add_self_mul_kstar_eq_kstar, Language.mem_add, unit, add_mul, Language.mem_add,
    mul_assoc, cons_mem_oneOf_mul, cons_mem_oneOf_mul, ← unit, mem_oneOf_mul, Language.mem_one]
  simp [and_assoc]

theorem nil_mem_units : [] ∈ (unit quote)∗ := Language.nil_mem_kstar _

theorem quoteUnits_mem (cs : List Char) :
    quoteUnits quote cs ≤ cs.length ∧ cs.take (quoteUnits quote cs) ∈ (unit quote)∗ := by
  fun_induction quoteUnits quote cs with
  | case1 c cs hc => exact ⟨Nat.zero_le _, nil_mem_units⟩
  | case2 c cs hc ih =>
    refine ⟨by simp only [List.length_cons]; omega, ?_⟩
    rw [Nat.add_comm]
    exact cons_mem_units.2 (.inr ⟨rfl, c, _, rfl, by simpa using hc, ih.2⟩)
  | case3 c cs hopen hc => exact ⟨Nat.zero_le _, nil_mem_units⟩
  | case4 c cs hopen hc ih =>
    refine ⟨by simp only [List.length_cons]; omega, ?_⟩
    rw [Nat.add_comm]
    simp only [Bool.or_eq_true, beq_iff_eq, not_or] at hc
    exact cons_mem_units.2 (.inl ⟨hc.1, hc.2, ih.2⟩)
  | case5 => exact ⟨le_refl _, nil_mem_units⟩

theorem length_le_quoteUnits (hw : w ∈ (unit quote)∗) (hstands : w <+: cs) : w.length ≤ quoteUnits quote cs := by
  fun_induction quoteUnits quote cs generalizing w with
  | case1 c cs hc =>
    cases w with
    | nil => exact le_refl _
    | cons d w =>
      obtain ⟨rfl, hstart⟩ := List.cons_prefix_cons.1 hstands
      rcases cons_mem_units.1 hw with ⟨-, h, -⟩ | ⟨-, e, v, rfl, he, -⟩
      · exact absurd rfl h
      · exact absurd ((List.cons_prefix_cons.1 hstart).1.trans (by simpa using hc)) he
  | case2 c cs hc ih =>
    cases w with
    | nil => exact Nat.zero_le _
    | cons d w =>
      obtain ⟨rfl, hstart⟩ := List.cons_prefix_cons.1 hstands
      rcases cons_mem_units.1 hw with ⟨-, h, -⟩ | ⟨-, e, v, rfl, he, hv⟩
      · exact absurd rfl h
      · have hle := ih hv (List.cons_prefix_cons.1 hstart).2
        simp only [List.length_cons]
        omega
  | case3 c cs hopen hc =>
    cases w with
    | nil => exact le_refl _
    | cons d w =>
      obtain ⟨rfl, rest, hrest⟩ := List.cons_prefix_cons.1 hstands
      rcases cons_mem_units.1 hw with ⟨h, h', -⟩ | ⟨hd, e, v, rfl, he, -⟩
      · simp [h, h'] at hc
      · exact (hopen e _ hd hrest.symm).elim
  | case4 c cs hopen hc ih =>
    cases w with
    | nil => exact Nat.zero_le _
    | cons d w =>
      obtain ⟨rfl, hstart⟩ := List.cons_prefix_cons.1 hstands
      rcases cons_mem_units.1 hw with ⟨-, -, hmem⟩ | ⟨rfl, -⟩
      · have hle := ih hmem hstart
        simp only [List.length_cons]
        omega
      · simp at hc
  | case5 => simpa using hstands.length_le

theorem greedy_units : Greedy (unit quote)∗ fun cs => some (quoteUnits quote cs) := by
  refine ⟨fun {cs n} hn => ?_, fun {cs w} hw hstands => ⟨_, rfl, length_le_quoteUnits hw hstands⟩⟩
  cases hn
  exact quoteUnits_mem cs

/-- No sequence of units goes on with the quote. -/
theorem GrowsBy.units (hquote : quote ≠ '\\') : GrowsBy (unit quote)∗ (· != quote) := by
  intro u v hu huv c hc
  induction hn : u.length using Nat.strong_induction_on generalizing u with
  | _ n ih =>
    subst hn
    cases u with
    | nil =>
      obtain ⟨v, rfl⟩ := List.head?_eq_some_iff.1 hc
      rcases cons_mem_units.1 huv with ⟨h, -⟩ | ⟨rfl, -⟩
      · simpa using h
      · simpa using hquote.symm
    | cons d u =>
      rcases cons_mem_units.1 huv with ⟨-, hd, huv⟩ | ⟨rfl, e, w, he, -, huv⟩
      · rcases cons_mem_units.1 hu with ⟨-, -, hu⟩ | ⟨rfl, -⟩
        · exact ih _ (by simp) u hu huv rfl
        · exact absurd rfl hd
      · rcases cons_mem_units.1 hu with ⟨-, h, -⟩ | ⟨-, e', u, rfl, -, hu⟩
        · exact absurd rfl h
        · obtain ⟨-, rfl⟩ := List.cons.inj he
          exact ih _ (by simp only [List.length_cons]; omega) u hu huv rfl

theorem greedy_quoteLiteral (hquote : quote ≠ '\\') : Greedy (quoted quote) (quoteLiteral quote) := by
  have hrest := greedy_units.mul (greedy_oneOf (p := (· == quote))) (.units hquote) .one
    fun c hc => by simpa using hc
  refine hrest.cons rfl fun c cs => ?_
  simp only [quoteLiteral, Option.bind_some]
  by_cases hc : (c == quote) = true
  · simp only [hc, if_true]
    cases hdrop : cs.drop (quoteUnits quote cs) with
    | nil => rfl
    | cons d rest => by_cases hd : d = quote <;> simp [hd]
  · simp [hc]

end Quote

end Cognate
