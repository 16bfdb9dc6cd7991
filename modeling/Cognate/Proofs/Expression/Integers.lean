import Cognate.Proofs.Expression.Literals
import Cognate.Proofs.Token.Numerals
import Cognate.Proofs.Token.Places

/-!
# Integer literals

The spellings of a number as an integer literal (`Spelled`): digits of a radix behind its mark, leading zeros and a
suffix allowed. In front of a character that no token goes on with, a spelling is one token, and it has the value of the
number if 127 bits hold it (`integers_read`).
-/

namespace Cognate

open Computability Text

variable {p q : Pattern} {t : Token} {k : LiteralClass} {c : Char} {radix n : Nat}
  {w v cs rest mark digits suffix : List Char}

/-! ## Tokens that nothing goes on with -/

/-- Some token starts with the word and this character behind it. -/
def Continues (w : List Char) (c : Char) : Prop := ∃ p : Pattern, ∃ v ∈ p.language, w ++ [c] <+: v

/-- The longest match, as a longer one would go on with the character behind. -/
theorem Pattern.wins_of_not_continues (hw : w ∈ p.language) (htie : ∀ q : Pattern, w ∈ q.language → q = p ∨ p.Beats q)
    (hend : ∀ c ∈ rest.head?, ¬Continues w c) : p.Wins (w ++ rest) w where
  matched := hw
  stands := List.prefix_append w rest
  longest := by
    intro q v hv hstands
    by_contra hlong
    obtain ⟨u, rfl⟩ := List.prefix_of_prefix_length_le (List.prefix_append w rest) hstands (Nat.le_of_not_le hlong)
    rw [List.prefix_append_right_inj] at hstands
    cases u with
    | nil => simp at hlong
    | cons c u =>
      obtain ⟨rest', rfl⟩ := hstands
      exact hend c rfl ⟨q, _, hv, u, by simp⟩
  tie := htie

/-- A word that starts no comment is read as its token. -/
theorem scanAt_of_not_continues (hw : w ∈ p.language) (ht : p.token w = some t)
    (htie : ∀ q : Pattern, w ∈ q.language → q = p ∨ p.Beats q) (hhead : w.head? ≠ some '/')
    (hend : ∀ c ∈ rest.head?, ¬Continues w c) (pos : Nat) :
    scanAt pos (w ++ rest) = .ok ⟨t, ⟨pos, pos + byteLength w⟩⟩ :: scanAt (pos + byteLength w) rest := by
  have hwins := Pattern.wins_of_not_continues hw htie hend
  cases w with
  | nil => exact absurd hw Pattern.nil_not_mem_language
  | cons c w =>
    have hclosed : ¬Reference.OpenComment (c :: w ++ rest) := by
      rintro ⟨⟨cs, he⟩, -⟩
      exact hhead (congrArg some (List.cons.inj he).1.symm)
    exact scanAt_token ((Reference.head_first (by simp)).unique (.token hclosed hwins ht))

/-! ## Spellings -/

/-- The mark of a radix in front of digits. -/
inductive Marks : LiteralClass → Nat → List Char → Prop
  | hex {x : Char} (h : x = 'x' ∨ x = 'X') : Marks .hex 16 ['0', x]
  | binary {b : Char} (h : b = 'b' ∨ b = 'B') : Marks .binary 2 ['0', b]
  | octal : Marks .octal 8 ['0']
  | decimal : Marks .decimal 10 []

/-- A number as an integer literal: digits behind a mark, and a suffix. In decimal, no zero stands in front of other
digits. -/
inductive Spelled (k : LiteralClass) : List Char → Nat → Prop
  | intro {radix n : Nat} {mark digits suffix : List Char} (marks : Marks k radix mark) (writes : Writes radix digits n)
    (ends : suffix ⊆ ['u', 'U', 'l', 'L'])
    (leads : k = .decimal → ∀ digits', digits = '0' :: digits' → digits' = []) :
    Spelled k (mark ++ (digits ++ suffix)) n

/-- The pattern of a class of integer literals. -/
def integerPattern : LiteralClass → Pattern
  | .hex => .hex
  | .binary => .binary
  | .octal => .octal
  | _ => .decimal

theorem Marks.radix_le (h : Marks k radix mark) : radix ≤ 16 := by
  cases h <;> decide

theorem isIntegerSuffix_iff : isIntegerSuffix c = true ↔ c ∈ ['u', 'U', 'l', 'L'] := by
  simp [isIntegerSuffix, or_assoc]

theorem body_mem {digit : Char → Bool} (h : Writes radix digits n) (hr : radix ≤ 16)
    (hall : ∀ k : Fin 128, ∀ d : Fin 16, d.val < radix → (Char.ofNat k).toLower = Nat.digitChar d →
      digit (Char.ofNat k) = true)
    (hends : suffix ⊆ ['u', 'U', 'l', 'L']) : digits ++ suffix ∈ digitsAndSuffix digit := by
  have hdigits : digits ∈ someOf digit := mem_someOf.2 ⟨h.ne_nil, List.all_eq_true.2 (h.forall_digits hr hall)⟩
  have hsuffix : suffix.all isIntegerSuffix = true := List.all_eq_true.2 fun c hc => isIntegerSuffix_iff.2 (hends hc)
  exact Language.append_mem_mul hdigits (mem_run.2 hsuffix)

/-- Digits of a radix up to ten. -/
theorem isDecimalDigit_of_writes (h : Writes radix digits n) (hr : radix ≤ 10) :
    ∀ c ∈ digits, isDecimalDigit c = true := by
  have hall : ∀ k : Fin 128, ∀ d : Fin 16, d.val < 10 → (Char.ofNat k).toLower = Nat.digitChar d →
      isDecimalDigit (Char.ofNat k) = true := by decide +kernel
  exact h.forall_digits (hr.trans (by decide)) fun k d hd => hall k d (hd.trans_le hr)

theorem Spelled.mem_language (h : Spelled k w n) : w ∈ (integerPattern k).language := by
  cases h with
  | @intro radix n mark digits suffix marks writes ends leads =>
    cases marks with
    | hex hx =>
      have hbody : digits ++ suffix ∈ digitsAndSuffix isHexDigit := body_mem writes (by decide) (by decide +kernel) ends
      exact cons_mem_oneOf_mul.2 ⟨rfl, cons_mem_oneOf_mul.2 ⟨by simpa using hx, hbody⟩⟩
    | binary hb =>
      have hbody : digits ++ suffix ∈ digitsAndSuffix isBinaryDigit :=
        body_mem writes (by decide) (by decide +kernel) ends
      exact cons_mem_oneOf_mul.2 ⟨rfl, cons_mem_oneOf_mul.2 ⟨by simpa using hb, hbody⟩⟩
    | octal =>
      have hbody : digits ++ suffix ∈ digitsAndSuffix isOctalDigit :=
        body_mem writes (by decide) (by decide +kernel) ends
      exact cons_mem_oneOf_mul.2 ⟨rfl, hbody⟩
    | decimal =>
      have hbody : digits ++ suffix ∈ digitsAndSuffix isDecimalDigit :=
        body_mem writes (by decide) (by decide +kernel) ends
      exact hbody

/-- No decimal spelling is an octal one. -/
theorem Spelled.not_octal (h : Spelled .decimal w n) : w ∉ Pattern.octal.language := by
  intro hw
  cases h with
  | @intro radix n mark digits suffix marks writes ends leads =>
    cases marks
    obtain ⟨c, v, he, hc, hv⟩ := mem_oneOf_mul.1 hw
    obtain rfl := beq_iff_eq.1 hc
    obtain ⟨u, hu, s, -, rfl⟩ := Language.mem_mul.1 hv
    obtain ⟨d, u, rfl, hd, -⟩ := mem_oneOf_mul.1 hu
    obtain ⟨c, digits', rfl⟩ := List.exists_cons_of_ne_nil writes.ne_nil
    obtain ⟨rfl, hbehind⟩ := List.cons.inj he
    obtain rfl := leads rfl digits' rfl
    -- The second octal digit would stand in the suffix.
    have hmem : d ∈ suffix := by
      change suffix = d :: (u ++ s) at hbehind
      simp [hbehind]
    have hne : ∀ c ∈ ['u', 'U', 'l', 'L'], isOctalDigit c = false := by simp [isOctalDigit]
    rw [hne d (ends hmem)] at hd
    cases hd

/-- Octal literals win against decimal ones, and no other spelling is matched twice. -/
theorem Spelled.tie (h : Spelled k w n) (q : Pattern) (hq : w ∈ q.language) :
    q = integerPattern k ∨ (integerPattern k).Beats q := by
  have hmem := h.mem_language
  by_cases hk : k = .decimal
  · subst hk
    have hfamily : q.family = .decimal :=
      Option.some.inj ((Pattern.familyOf_mem hq).symm.trans (Pattern.familyOf_mem hmem))
    cases q with
    | decimal => exact .inl rfl
    | octal => exact absurd hq h.not_octal
    | _ => cases hfamily
  · refine Pattern.eq_or_beats hmem hq (by cases k <;> simp [integerPattern]) ?_
    cases h with
    | intro marks => cases marks <;> first | exact absurd rfl hk | simp [integerPattern]

theorem Spelled.token (h : Spelled k w n) : (integerPattern k).token w = some (.literal k (String.ofList w)) := by
  cases h with
  | intro marks => cases marks <;> rfl

/-- A spelling starts with a digit. -/
theorem Spelled.head (h : Spelled k w n) : ∃ c v, w = c :: v ∧ isDecimalDigit c = true := by
  cases h with
  | @intro radix n mark digits suffix marks writes ends leads =>
    cases marks with
    | hex | binary | octal => exact ⟨'0', _, rfl, rfl⟩
    | decimal =>
      obtain ⟨c, digits', rfl⟩ := List.exists_cons_of_ne_nil writes.ne_nil
      exact ⟨c, _, rfl, isDecimalDigit_of_writes writes le_rfl c List.mem_cons_self⟩

/-! ## What goes on with a spelling -/

theorem isWordRest_of_digitsAndSuffix {digit : Char → Bool} (hdigit : ∀ c, digit c = true → isWordRest c = true)
    (hv : v ∈ digitsAndSuffix digit) : ∀ c ∈ v, isWordRest c = true := by
  obtain ⟨u, hu, s, hs, rfl⟩ := Language.mem_mul.1 hv
  have hdigits := List.all_eq_true.1 (mem_someOf.1 hu).2
  have hsuffix := List.all_eq_true.1 (mem_run.1 hs)
  refine List.forall_mem_append.2 ⟨fun c hc => hdigit c (hdigits c hc), fun c hc => ?_⟩
  rcases isIntegerSuffix_cases (hsuffix c hc) with rfl | rfl | rfl | rfl <;> rfl

theorem isWordRest_of_markedDigits {letter digit : Char → Bool} (hletter : ∀ c, letter c = true → isWordRest c = true)
    (hdigit : ∀ c, digit c = true → isWordRest c = true) (hv : v ∈ markedDigits letter digit) :
    ∀ c ∈ v, isWordRest c = true := by
  obtain ⟨z, v, rfl, hz, hv⟩ := mem_oneOf_mul.1 hv
  obtain ⟨x, body, rfl, hx, hbody⟩ := mem_oneOf_mul.1 hv
  obtain rfl := beq_iff_eq.1 hz
  exact List.forall_mem_cons.2 ⟨rfl, List.forall_mem_cons.2 ⟨hletter x hx, isWordRest_of_digitsAndSuffix hdigit hbody⟩⟩

theorem isWordRest_of_isHexDigit (h : isHexDigit c = true) : isWordRest c = true := by
  have hle : ∀ {d e : Char}, d ≤ e → c ≤ d → c ≤ e := fun hde hcd => Char.le_trans hcd hde
  simp only [isHexDigit, isWordRest, isWordStart, Bool.or_eq_true, Bool.and_eq_true, decide_eq_true_eq] at h ⊢
  rcases h with (h | h) | h
  · exact .inr h
  · exact .inl (.inl (.inl ⟨h.1, hle (by decide) h.2⟩))
  · exact .inl (.inl (.inr ⟨h.1, hle (by decide) h.2⟩))

/-- Integer literals are words but for their first character. -/
theorem isWordRest_of_integer (hq : q.family = (integerPattern k).family) (hv : v ∈ q.language) :
    ∀ c ∈ v, isWordRest c = true := by
  have hdecimal : ∀ c, isDecimalDigit c = true → isWordRest c = true := fun c hc => by simp [isWordRest, hc]
  have hinteger : q = .hex ∨ q = .binary ∨ q = .octal ∨ q = .decimal := by
    cases k <;> cases q <;> cases hq <;> simp
  rcases hinteger with rfl | rfl | rfl | rfl
  · refine isWordRest_of_markedDigits (fun c hc => ?_) (fun _ => isWordRest_of_isHexDigit) hv
    rcases Bool.or_eq_true_iff.1 hc with h | h <;> rw [beq_iff_eq.1 h] <;> rfl
  · refine isWordRest_of_markedDigits (fun c hc => ?_) (fun c hc => ?_) hv
    all_goals rcases Bool.or_eq_true_iff.1 hc with h | h <;> rw [beq_iff_eq.1 h] <;> rfl
  · exact isWordRest_of_digitsAndSuffix hdecimal (Pattern.decimal_of_octal hv)
  · exact isWordRest_of_digitsAndSuffix hdecimal hv

theorem numberFamily_mark (hc : isWordRest c = false) (hpoint : c ≠ '.') :
    Pattern.numberFamily (some c) = .decimal := by
  have hne : ∀ d, isWordRest d = true → c ≠ d := by
    rintro d hd rfl
    rw [hc] at hd
    cases hd
  simp [Pattern.numberFamily, isExponentMark, hpoint, hne 'x' rfl, hne 'X' rfl, hne 'b' rfl, hne 'B' rfl, hne 'e' rfl,
    hne 'E' rfl]

theorem familyOf_decimal (hdigits : digits ∈ someOf isDecimalDigit) (ends : suffix ⊆ ['u', 'U', 'l', 'L'])
    (hc : isWordRest c = false) (hpoint : c ≠ '.') (cs : List Char) :
    Pattern.familyOf (digits ++ suffix ++ c :: cs) = some .decimal := by
  rw [List.append_assoc]
  cases suffix with
  | nil =>
    have hdigit : isDecimalDigit c = false := (Bool.or_eq_false_iff.1 hc).2
    exact (Pattern.familyOf_digits hdigits (by simpa using hdigit)).trans (congrArg some (numberFamily_mark hc hpoint))
  | cons d suffix =>
    have hall : ∀ d ∈ ['u', 'U', 'l', 'L'], isDecimalDigit d = false ∧ Pattern.numberFamily (some d) = .decimal := by
      simp [isDecimalDigit, Pattern.numberFamily, isExponentMark]
    obtain ⟨hdigit, hfamily⟩ := hall d (ends List.mem_cons_self)
    exact (Pattern.familyOf_digits hdigits (by simpa using hdigit)).trans (congrArg some hfamily)

/-- The first characters tell that a number is an integer of the same class. -/
theorem Spelled.familyOf (h : Spelled k w n) (hc : isWordRest c = false) (hpoint : c ≠ '.') (cs : List Char) :
    Pattern.familyOf (w ++ c :: cs) = some (integerPattern k).family := by
  cases h with
  | @intro radix n mark digits suffix marks writes ends leads =>
    cases marks with
    | hex hx => rcases hx with rfl | rfl <;> rfl
    | binary hb => rcases hb with rfl | rfl <;> rfl
    | octal =>
      have hall := isDecimalDigit_of_writes writes (by decide)
      have hdigits : '0' :: digits ∈ someOf isDecimalDigit :=
        mem_someOf.2 ⟨by simp, List.all_eq_true.2 (List.forall_mem_cons.2 ⟨rfl, hall⟩)⟩
      exact familyOf_decimal hdigits ends hc hpoint cs
    | decimal =>
      have hall := isDecimalDigit_of_writes writes le_rfl
      exact familyOf_decimal (mem_someOf.2 ⟨writes.ne_nil, List.all_eq_true.2 hall⟩) ends hc hpoint cs

/-- Nothing but word characters and points goes on with a spelling. -/
theorem Spelled.not_continues (h : Spelled k w n) (hc : isWordRest c = false) (hpoint : c ≠ '.') : ¬Continues w c := by
  rintro ⟨q, v, hv, cs, rfl⟩
  have hfamily := h.familyOf hc hpoint cs
  rw [← List.append_cons] at hv
  rw [Pattern.familyOf_mem hv] at hfamily
  have hall := isWordRest_of_integer (Option.some.inj hfamily) hv c (by simp)
  rw [hc] at hall
  cases hall

/-! ## Values -/

theorem Spelled.integerValue? (h : Spelled k w n) :
    Grammar.integerValue? k (String.ofList w) = if n < 2 ^ 127 then some (n : Int) else none := by
  cases h with
  | @intro radix n mark digits suffix marks writes ends leads =>
    have hmark : Grammar.radixMark k = (radix, mark.length) := by cases marks <;> rfl
    exact integerValue?_of_writes hmark marks.radix_le writes fun c hc => isIntegerSuffix_iff.2 (ends hc)

namespace Grammar

/-- A spelling of a number, in front of a character that no token goes on with, is one literal. As an operand it comes
to the number if 127 bits hold it, and is refused as no literal otherwise. -/
theorem integers_read (h : Spelled k w n) (hend : ∀ c ∈ rest.head?, ¬Continues w c) :
    (∀ pos, scanAt pos (w ++ rest) = .ok ⟨.literal k (String.ofList w), ⟨pos, pos + byteLength w⟩⟩ ::
      scanAt (pos + byteLength w) rest) ∧
    ∀ (rules : Rules) (s s' : State), s.Passes [.literal k (String.ofList w)] s' →
      (n < 2 ^ 127 → primary rules s = .ok (some n) s') ∧
      (2 ^ 127 ≤ n → primary rules s = .error ⟨.badInteger (String.ofList w), s.current.span⟩ s' ∧
        (Cause.badInteger (String.ofList w)).kind = .lexical) := by
  refine ⟨?_, fun rules s s' hs => ?_⟩
  · obtain ⟨c, v, rfl, hc⟩ := h.head
    refine scanAt_of_not_continues h.mem_language h.token h.tie ?_ hend
    rintro he
    cases he
    cases hc
  have hvalue : literalOutcome s.unit.target k (String.ofList w) =
      (if n < 2 ^ 127 then some (n : Int) else none).elim (.error (.badInteger (String.ofList w))) .ok := by
    rw [← h.integerValue?]
    cases h with
    | intro marks => cases marks <;> rfl
  rw [primary_literal hs, hvalue]
  constructor
  · intro hn
    rw [if_pos hn]
    rfl
  · intro hn
    rw [if_neg (Nat.not_lt.2 hn)]
    exact ⟨rfl, rfl⟩

/-- The literal `0x1Ful` in front of a semicolon. -/
theorem integers_read_hex : Spelled .hex "0x1Ful".toList 31 ∧ ¬Continues "0x1Ful".toList ';' ∧
    scanAt 0 ("0x1Ful".toList ++ [';']) = .ok ⟨.literal .hex "0x1Ful", ⟨0, 6⟩⟩ :: scanAt 6 [';'] ∧
    let s : State := ⟨⟨.literal .hex "0x1Ful", ⟨0, 6⟩⟩, [.ok ⟨.punct .semi, ⟨6, 7⟩⟩], 7, .empty "unit" .lp64⟩
    primary (Rules.upTo 0) s = .ok (some 31) { s with current := ⟨.punct .semi, ⟨6, 7⟩⟩, ahead := [] } := by
  have hdigits : Writes 16 ['1', 'F'] 31 := .append (d := 15) (.digit (d := 1) (by decide)) (by decide)
  have hsuffix : ['u', 'l'] ⊆ ['u', 'U', 'l', 'L'] := by simp
  have hspelled : Spelled .hex "0x1Ful".toList 31 := .intro (.hex (.inl rfl)) hdigits hsuffix nofun
  have hcontinues : ¬Continues "0x1Ful".toList ';' := hspelled.not_continues rfl (by decide)
  have hend : ∀ c ∈ [';'].head?, ¬Continues "0x1Ful".toList c := by simpa using hcontinues
  obtain ⟨hscan, hread⟩ := integers_read hspelled hend
  exact ⟨hspelled, hcontinues, hscan 0, (hread _ _ _ (.cons (by decide) rfl (.nil _))).1 (by decide)⟩

end Grammar
end Cognate
