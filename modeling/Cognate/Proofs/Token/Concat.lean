import Cognate.Proofs.Token.Places
import Cognate.Proofs.Token.Within

/-!
# Texts one behind the other

A text whose items are all tokens, a line break, and another text: the items are those of the first text, and then those
of the second, further on by the bytes in front of it (`scanAt_newline`). What is left open at the end of a text is a
stray, so that no lexeme of the first text goes on behind the line break.
-/

namespace Cognate

variable {c : Char} {cs ds : List Char}

/-! ## Lexemes in front of a line break -/

theorem Rule.longest_congr {rules : List Rule} (h : ∀ r ∈ rules, r.munch cs = r.munch ds) :
    longest cs rules = longest ds rules := by
  induction rules with
  | nil => rfl
  | cons r rules ih =>
    rw [longest, longest, h r (by simp), ih fun s hs => h s (by simp [hs])]

namespace Lexeme

theorem unclosed_cons (h : ¬(c = '/' ∧ cs.head? = some '*')) :
    unclosed (c :: cs) =
      if (c == '\'' || c == '"') && (quoteLiteral c (c :: cs)).isNone then some (1 + quoteUnits c cs) else none := by
  unfold unclosed
  split
  · next heq =>
    obtain ⟨rfl, rfl⟩ := List.cons.inj heq
    exact absurd ⟨rfl, rfl⟩ h
  · next heq =>
    obtain ⟨rfl, rfl⟩ := List.cons.inj heq
    rfl
  · next heq => cases heq

theorem unclosed_newline (hclosed : unclosed (c :: cs) = none) (ds : List Char) :
    unclosed (c :: cs ++ '\n' :: ds) = none := by
  by_cases hopen : c = '/' ∧ cs.head? = some '*'
  · obtain ⟨rfl, hstar⟩ := hopen
    obtain ⟨cs, rfl⟩ := List.head?_eq_some_iff.1 hstar
    have hsame := (within_blockComment hclosed).newline ds
    simp only [unclosed, List.cons_append] at hclosed hsame ⊢
    rw [hsame]
    split_ifs at hclosed ⊢ with hnone
    rfl
  · have hopen' : ¬(c = '/' ∧ (cs ++ '\n' :: ds).head? = some '*') := by
      cases cs with
      | nil => simp
      | cons d cs => simpa using hopen
    rw [List.cons_append, unclosed_cons hopen']
    by_cases hq : c = '\'' ∨ c = '"'
    · have hsame := (within_quoteLiteral hq hclosed).newline ds
      rw [unclosed_cons hopen] at hclosed
      rw [List.cons_append] at hsame
      rw [hsame]
      split_ifs at hclosed ⊢
      rfl
    · rw [not_or] at hq
      simp [hq]

/-- A lexeme that is no stray and no run of blanks stays as it is, and within its text. -/
theorem first_newline (hspace : isSpace c = false) (hclosed : unclosed (c :: cs) = none) (ds : List Char) :
    first (c :: cs ++ '\n' :: ds) = first (c :: cs) := by
  have hlongest : Rule.longest (c :: cs ++ '\n' :: ds) Rule.table = Rule.longest (c :: cs) Rule.table :=
    Rule.longest_congr fun r hr => (within_munch hr hspace hclosed).newline ds
  rw [first, first, hclosed, unclosed_newline hclosed, hlongest]
  cases hbest : Rule.longest (c :: cs) Rule.table with
  | none => rfl
  | some best =>
    obtain ⟨n, r⟩ := best
    obtain ⟨hr, hmunch⟩ := Rule.longest_some hbest
    have hle := ((within_munch hr hspace hclosed).length hmunch).2
    simp only [take_newline hle]

theorem length_first (hspace : isSpace c = false) (hclosed : unclosed (c :: cs) = none) :
    0 < (first (c :: cs)).length ∧ (first (c :: cs)).length ≤ (c :: cs).length := by
  rw [first, hclosed]
  cases hbest : Rule.longest (c :: cs) Rule.table with
  | none => simp [length]
  | some best =>
    obtain ⟨n, r⟩ := best
    obtain ⟨hr, hmunch⟩ := Rule.longest_some hbest
    have hlength := (within_munch hr hspace hclosed).length hmunch
    simp only
    split <;> exact hlength

/-- What is no stray is closed. -/
theorem unclosed_of_first (h : ∀ n, first cs ≠ stray n) : unclosed cs = none := by
  cases hopen : unclosed cs with
  | none => rfl
  | some n => exact absurd (by simp [first, hopen]) (h n)

end Lexeme

/-! ## Items of two texts -/

/-- A blank leaves no item. -/
theorem scanAt_space (hc : isSpace c = true) (pos : Nat) (cs : List Char) :
    scanAt pos (c :: cs) = scanAt (pos + c.utf8Size) cs := by
  rw [scanAt_dropWhile, scanAt_dropWhile (pos + c.utf8Size)]
  simp [hc, byteLength_cons, Nat.add_assoc]

/-- By induction on the length of the first text: a blank is left out, and any other lexeme is the same in front of the
line break. -/
theorem scanAt_newline (pos : Nat) (cs ds : List Char) (h : ∀ item ∈ scanAt pos cs, ∃ l, item = .ok l) :
    scanAt pos (cs ++ '\n' :: ds) = scanAt pos cs ++ scanAt (pos + byteLength cs + 1) ds := by
  induction hn : cs.length using Nat.strong_induction_on generalizing pos cs with
  | _ n ih =>
    subst hn
    cases cs with
    | nil =>
      rw [List.nil_append, scanAt_space rfl, scanAt.eq_def pos []]
      rfl
    | cons c cs =>
      by_cases hspace : isSpace c = true
      · rw [scanAt_space hspace] at h ⊢
        rw [List.cons_append, scanAt_space hspace, ih _ (by simp) _ _ h rfl, byteLength_cons, Nat.add_assoc pos]
      · rw [Bool.not_eq_true] at hspace
        have hstray : ∀ n, Lexeme.first (c :: cs) ≠ .stray n := by
          intro n hn
          rw [scanAt_cons, hn] at h
          obtain ⟨l, hl⟩ := h _ (List.mem_cons_self ..)
          cases hl
        have hclosed := Lexeme.unclosed_of_first hstray
        have hlength := Lexeme.length_first hspace hclosed
        have hfirst := Lexeme.first_newline hspace hclosed ds
        have htake : ∀ {n}, n ≤ (c :: cs).length → (c :: (cs ++ '\n' :: ds)).take n = (c :: cs).take n :=
          fun hle => take_newline hle ds
        -- What stands behind the first lexeme, in either text.
        have hbehind : ∀ n, 0 < n → n ≤ (c :: cs).length →
            (∀ item ∈ scanAt (pos + byteLength ((c :: cs).take n)) (cs.drop (n - 1)), ∃ l, item = .ok l) →
            scanAt (pos + byteLength ((c :: cs).take n)) ((cs ++ '\n' :: ds).drop (n - 1)) =
              scanAt (pos + byteLength ((c :: cs).take n)) (cs.drop (n - 1)) ++
                scanAt (pos + byteLength (c :: cs) + 1) ds := by
          intro n hpos hle hok
          have hle' : n - 1 ≤ cs.length := by
            simp only [List.length_cons] at hle
            omega
          have hsplit : byteLength ((c :: cs).take n) + byteLength (cs.drop (n - 1)) = byteLength (c :: cs) := by
            obtain ⟨m, rfl⟩ := Nat.exists_eq_succ_of_ne_zero hpos.ne'
            rw [← byteLength_append]
            simp
          rw [drop_newline hle', ih _ (by simp only [List.length_drop, List.length_cons]; omega) _ _ hok rfl,
            ← hsplit, Nat.add_assoc pos]
        rw [List.cons_append] at hfirst ⊢
        rw [scanAt_cons, hfirst, scanAt_cons]
        rw [scanAt_cons] at h
        cases hlexeme : Lexeme.first (c :: cs) with
        | skipped n =>
          rw [hlexeme] at hlength h
          change 0 < n ∧ n ≤ _ at hlength
          simp only [htake hlength.2]
          exact hbehind n hlength.1 hlength.2 h
        | token n t =>
          rw [hlexeme] at hlength h
          change 0 < n ∧ n ≤ _ at hlength
          simp only [htake hlength.2]
          exact congrArg (List.cons _) (hbehind n hlength.1 hlength.2 fun item hitem => h item (by simp [hitem]))
        | stray n => exact absurd hlexeme (hstray n)

end Cognate
