import Cognate.Proofs.Expression.Trees
import Cognate.Proofs.Readings.Trees
import Cognate.Proofs.Text.Radix
import Cognate.Proofs.Token.Reference

/-!
# Character literals

What stands between the quotes of a character literal: one character, or an escape (`Denotes`). The texts that are read
are these and two more forms (`Tolerated`): text behind an escape of one letter does not count, and hexadecimal digits
may have a plus in front. Everything else is refused where it stands (`characters_read`).
-/

namespace Cognate

open Computability

variable {cs : List Char} {pos : Nat} {items : List (Except Fault Lexed)} {l : Lexed} {source text : String}

/-! ## Tokens of a text -/

/-- A token of a text is a word of a pattern, the end apart. -/
theorem Reference.Items.token_mem (h : Reference.Items pos cs items) (hl : .ok l ∈ items) :
    l.token = .finish ∨ ∃ (p : Pattern) (w : List Char), w ∈ p.language ∧ p.token w = some l.token := by
  induction h with
  | finish pos =>
    obtain rfl : l = finishAt pos := by simpa using hl
    exact .inl rfl
  | skipped _ _ ih => exact ih hl
  | token hhead _ ih =>
    rcases List.mem_cons.1 hl with he | hl
    · cases he
      cases hhead with
      | @token _ w p _ _ hwins ht => exact .inr ⟨p, w, hwins.matched, ht⟩
    · exact ih hl
  | stray _ _ ih => exact ih (by simpa using hl)

/-- The text of a character literal stands between single quotes. -/
theorem quoted_of_scan (hl : .ok l ∈ scan source) (ht : l.token = .literal .char text) :
    ∃ inner, text.toList = '\'' :: (inner ++ ['\'']) := by
  have hitems := Reference.items_iff.2 (rfl : scan source ++ [.ok (finishAt source.utf8ByteSize)] = _)
  rcases hitems.token_mem (List.mem_append_left _ hl) with he | ⟨p, w, hw, he⟩
  · cases ht.symm.trans he
  · rw [ht] at he
    cases p <;>
      simp only [Pattern.token, reduceCtorEq, Option.some.injEq, Token.literal.injEq, false_and, true_and] at he
    obtain ⟨c, v, rfl, hc, hv⟩ := mem_oneOf_mul.1 hw
    obtain ⟨inner, -, _, ⟨d, hd, rfl⟩, rfl⟩ := Language.mem_mul.1 hv
    rw [beq_iff_eq] at hc hd
    exact ⟨inner, by rw [← he, String.toList_ofList, hc, hd]⟩

namespace Grammar

open Text

variable {rules : Rules} {s s' : State} {k : LiteralClass} {c : Char} {code : Nat} {inner rest : List Char}

/-! ## Literals as operands -/

/-- A literal that is read as an operand comes to its value, or is refused where it stands. -/
theorem primary_literal (hs : s.Passes [.literal k text] s') : primary rules s =
    match literalOutcome s.unit.target k text with
    | .ok n => .ok (some n) s'
    | .error cause => .error ⟨cause, s.current.span⟩ s' := by
  have hvalue : ∀ (x : Option Int) (cause : Cause), literalValue x cause s.current.span s' =
      match x.elim (.error cause) Except.ok with
      | .ok n => .ok (some n) s'
      | .error cause => .error ⟨cause, s.current.span⟩ s' := by
    intro x cause
    cases x <;> rfl
  refine (bind_of_ok hs.advance).trans ?_
  simp only [hs.token]
  cases k with
  | char =>
    refine (hvalue _ _).trans ?_
    rw [hs.unit]
    rfl
  | float | string => rfl
  | hex | binary | octal | decimal => exact hvalue _ _

/-! ## Escapes -/

/-- The letters that stand for a character behind a backslash, each with its code. -/
def escapes : List (Char × Nat) :=
  [('n', 0x0A), ('t', 0x09), ('r', 0x0D), ('a', 0x07), ('b', 0x08), ('f', 0x0C), ('v', 0x0B), ('\\', 0x5C),
    ('\'', 0x27), ('"', 0x22), ('?', 0x3F)]

/-- The code that the text between the quotes denotes: a character stands for itself, and a backslash goes with one
letter or with digits, `x` in front of hexadecimal ones. -/
inductive Denotes : List Char → Nat → Prop
  | plain {c : Char} (h : c ≠ '\\') : Denotes [c] c.toNat
  | letter {c : Char} {code : Nat} (h : (c, code) ∈ escapes) : Denotes ['\\', c] code
  | hex {digits : List Char} {code : Nat} (h : Writes 16 digits code) (hbound : code < 2 ^ 32) :
    Denotes ('\\' :: 'x' :: digits) code
  | octal {digits : List Char} {code : Nat} (h : Writes 8 digits code) (hbound : code < 2 ^ 32) :
    Denotes ('\\' :: digits) code

/-- Texts that denote nothing and are read nevertheless: more text behind an escape of one letter, and a plus in front
of hexadecimal digits. -/
inductive Tolerated : List Char → Nat → Prop
  | behindLetter {c : Char} {code : Nat} {rest : List Char} (h : (c, code) ∈ escapes) (hrest : rest ≠ []) :
    Tolerated ('\\' :: c :: rest) code
  | plus {digits : List Char} {code : Nat} (h : Writes 16 digits code) (hbound : code < 2 ^ 32) :
    Tolerated ('\\' :: 'x' :: '+' :: digits) code

theorem simpleEscape?_eq_some : simpleEscape? c = some code ↔ (c, code) ∈ escapes := by
  constructor
  · intro h
    unfold simpleEscape? at h
    split at h <;> cases h <;> decide
  · have hall : ∀ e ∈ escapes, simpleEscape? e.1 = some e.2 := by decide
    exact hall _

/-- Octal digits are no escapes of one letter. -/
theorem octal_head (h : Writes 8 inner code) :
    ∃ c rest, inner = c :: rest ∧ isOctalDigit c = true ∧ simpleEscape? c = none ∧ c ≠ 'x' := by
  obtain ⟨c, rest, rfl⟩ := List.exists_cons_of_ne_nil h.ne_nil
  have hall := h.forall_digits (p := fun c => isOctalDigit c = true ∧ simpleEscape? c = none ∧ c ≠ 'x') (by decide)
    (by decide +kernel)
  exact ⟨c, rest, rfl, hall c List.mem_cons_self⟩

theorem escapedCode?_letter (h : simpleEscape? c = some code) : escapedCode? (c :: rest) = some code := by
  unfold escapedCode?
  split
  · next he =>
    rw [(List.cons.inj he).1] at h
    cases h
  · next he => rw [← (List.cons.inj he).1, h]
  · next he => cases he

theorem escapedCode?_digits (hx : c ≠ 'x') (h : simpleEscape? c = none) :
    escapedCode? (c :: rest) = if isOctalDigit c then signedNumeral? 8 (Nat.pow 2 32) (c :: rest) else none := by
  unfold escapedCode?
  split
  · next he => exact absurd (List.cons.inj he).1 hx
  · next he =>
    obtain ⟨rfl, rfl⟩ := List.cons.inj he
    rw [h]
  · next he => cases he

/-! ## What is read -/

theorem characterCode?_of_denotes (h : Denotes inner code) : characterCode? inner = some code := by
  cases h with
  | @plain c h =>
    unfold characterCode?
    split
    · next he => exact absurd (List.cons.inj he).1 h
    · next he => rw [(List.cons.inj he).1]
    · next _ hne => exact absurd rfl (hne c)
  | letter h => exact escapedCode?_letter (simpleEscape?_eq_some.2 h)
  | hex h hbound => exact (signedNumeral?_eq_some le_rfl).2 ⟨hbound, .inl h⟩
  | octal h hbound =>
    obtain ⟨c, rest, rfl, hoctal, hletter, hx⟩ := octal_head h
    refine (escapedCode?_digits hx hletter).trans ?_
    rw [if_pos hoctal]
    exact (signedNumeral?_eq_some (by decide)).2 ⟨hbound, .inl h⟩

theorem characterCode?_of_tolerated (h : Tolerated inner code) : characterCode? inner = some code := by
  cases h with
  | behindLetter h hrest => exact escapedCode?_letter (simpleEscape?_eq_some.2 h)
  | plus h hbound => exact (signedNumeral?_eq_some le_rfl).2 ⟨hbound, .inr ⟨_, rfl, h⟩⟩

/-- By the character behind the backslash. -/
theorem read_of_escapedCode? {escape : List Char} (h : escapedCode? escape = some code) :
    Denotes ('\\' :: escape) code ∨ Tolerated ('\\' :: escape) code := by
  cases escape with
  | nil => cases h
  | cons c rest =>
    by_cases hx : c = 'x'
    · subst hx
      obtain ⟨hbound, hdigits | ⟨digits, rfl, hdigits⟩⟩ := (signedNumeral?_eq_some le_rfl).1 h
      · exact .inl (.hex hdigits hbound)
      · exact .inr (.plus hdigits hbound)
    cases hletter : simpleEscape? c with
    | some code' =>
      obtain rfl : code' = code := Option.some.inj ((escapedCode?_letter hletter).symm.trans h)
      have hmem := simpleEscape?_eq_some.1 hletter
      by_cases hrest : rest = []
      · subst hrest
        exact .inl (.letter hmem)
      · exact .inr (.behindLetter hmem hrest)
    | none =>
      rw [escapedCode?_digits hx hletter] at h
      by_cases hoctal : isOctalDigit c = true
      · rw [if_pos hoctal] at h
        obtain ⟨hbound, hdigits | ⟨digits, he, -⟩⟩ := (signedNumeral?_eq_some (by decide)).1 h
        · exact .inl (.octal hdigits hbound)
        · rw [(List.cons.inj he).1] at hoctal
          cases hoctal
      · rw [if_neg hoctal] at h
        cases h

theorem characterCode?_eq_some : characterCode? inner = some code ↔ Denotes inner code ∨ Tolerated inner code := by
  constructor
  · intro h
    unfold characterCode? at h
    split at h
    · exact read_of_escapedCode? h
    · next c hc =>
      cases h
      exact .inl (.plain hc)
    · cases h
  · rintro (h | h)
    · exact characterCode?_of_denotes h
    · exact characterCode?_of_tolerated h

/-- What is tolerated denotes nothing. -/
theorem Tolerated.not_denotes {code' : Nat} (h : Tolerated inner code) : ¬Denotes inner code' := by
  intro h'
  cases h with
  | behindLetter h hrest =>
    cases h' with
    | letter _ => exact hrest rfl
    | hex _ _ => simp [escapes] at h
    | octal h' _ =>
      obtain ⟨_, _, he, -, hletter, -⟩ := octal_head h'
      cases he
      cases hletter.symm.trans (simpleEscape?_eq_some.2 h)
  | plus h _ =>
    cases h' with
    | hex h' _ => exact h'.not_plus le_rfl
    | octal h' _ =>
      obtain ⟨_, _, he, -, -, hx⟩ := octal_head h'
      exact hx (List.cons.inj he).1.symm

/-! ## Values -/

/-- The value of a code: where `char` is signed, codes of one byte with the high bit set are negative. -/
def charValue (signed : Bool) (code : Nat) : Int :=
  if signed = true ∧ 128 ≤ code ∧ code ≤ 255 then code - 256 else code

theorem characterValue?_eq (signed : Bool) (h : text.toList = '\'' :: (inner ++ ['\''])) :
    characterValue? signed text = (characterCode? inner).map (charValue signed) := by
  rw [characterValue?, h, withoutQuotes, List.drop_one, List.tail_cons, List.dropLast_concat]
  cases characterCode? inner with
  | none => rfl
  | some code =>
    refine congrArg some (if_congr ?_ rfl rfl)
    simp [and_assoc]
    omega

/-- A character literal of a text is read if what stands between its quotes denotes a code, or is tolerated, and comes
to the value of that code. Every other one is refused as no literal. -/
theorem characters_read (hl : .ok l ∈ scan source) (ht : l.token = .literal .char text) :
    ∃ inner, text.toList = '\'' :: (inner ++ ['\'']) ∧
      (∀ code code', Tolerated inner code → ¬Denotes inner code') ∧
      ∀ (rules : Rules) (s s' : State), s.Passes [.literal .char text] s' →
        (∀ code, Denotes inner code ∨ Tolerated inner code →
          primary rules s = .ok (some (charValue s.unit.target.charIsSigned code)) s') ∧
        ((∀ code, ¬(Denotes inner code ∨ Tolerated inner code)) →
          primary rules s = .error ⟨.badCharacter text, s.current.span⟩ s' ∧
            (Cause.badCharacter text).kind = .lexical) := by
  obtain ⟨inner, hinner⟩ := quoted_of_scan hl ht
  refine ⟨inner, hinner, fun _ _ h => h.not_denotes, fun rules s s' hs => ⟨fun code hcode => ?_, fun hno => ⟨?_, rfl⟩⟩⟩
  · rw [primary_literal hs, literalOutcome, characterValue?_eq _ hinner, characterCode?_eq_some.2 hcode]
    rfl
  · have hnone : characterCode? inner = none :=
      Option.eq_none_iff_forall_ne_some.2 fun code h => hno code (characterCode?_eq_some.1 h)
    rw [primary_literal hs, literalOutcome, characterValue?_eq _ hinner, hnone]
    rfl

/-- The literal `'\x41'`, an `A`, in front of nothing else. -/
theorem characters_read_hex : let s : State := ⟨⟨.literal .char "'\\x41'", ⟨0, 6⟩⟩, [], 6, .empty "unit" .lp64⟩
    .ok s.current ∈ scan "'\\x41'" ∧ s.Passes [.literal .char "'\\x41'"] { s with current := finishAt 6 } ∧
      primary (Rules.upTo 0) s = .ok (some 65) { s with current := finishAt 6 } := by
  intro s
  have hl : .ok s.current ∈ scan "'\\x41'" := by
    rw [show scan "'\\x41'" = [.ok s.current] by with_unfolding_all rfl]
    exact List.mem_singleton_self _
  have hs : s.Passes [.literal .char "'\\x41'"] { s with current := finishAt 6 } := .cons (by decide) rfl (.nil _)
  obtain ⟨inner, hinner, -, hread⟩ := characters_read hl rfl
  obtain rfl : inner = ['\\', 'x', '4', '1'] := by
    simpa using (List.append_left_inj ['\'']).1 (List.cons.inj hinner).2.symm
  have hdigits : Writes 16 ['4', '1'] 65 := .append (d := 1) (.digit (d := 4) (by decide)) (by decide)
  exact ⟨hl, hs, (hread _ s _ hs).1 65 (.inl (.hex hdigits (by decide)))⟩

/-- The literal `'\na'` is read as a line feed, though its text denotes nothing. -/
theorem exists_character_not_denoted : ∃ (source text : String) (l : Lexed) (inner : List Char) (s s' : State)
    (n : Int), scan source = [.ok l] ∧ l.token = .literal .char text ∧ text.toList = '\'' :: (inner ++ ['\'']) ∧
      (∀ code, ¬Denotes inner code) ∧ State.ofSource source (.empty "unit" .lp64) = .ok s ∧
      s.Passes [.literal .char text] s' ∧ primary (Rules.upTo 0) s = .ok (some n) s' := by
  let s : State := ⟨⟨.literal .char "'\\na'", ⟨0, 5⟩⟩, [], 5, .empty "unit" .lp64⟩
  have hscan : scan "'\\na'" = [.ok s.current] := by with_unfolding_all rfl
  have htolerated : Tolerated ['\\', 'n', 'a'] 10 := .behindLetter (by decide) (by simp)
  refine ⟨"'\\na'", "'\\na'", s.current, ['\\', 'n', 'a'], s, { s with current := finishAt 5 }, 10, hscan, rfl,
    by decide, fun code => htolerated.not_denotes, ?_, .cons (by decide) rfl (.nil _), by with_unfolding_all rfl⟩
  rw [State.ofSource, hscan]
  rfl

end Grammar
end Cognate
