import Cognate.Grammar.Literal
import Cognate.Proofs.Text.Radix
import Cognate.Proofs.Token.Lexes
import Mathlib.Data.List.TakeWhile

/-!
# Numbers and keywords in a text

A number is written in decimal without leading zeros, is read as one literal, and has the value that was written. The
spelling of a keyword is read as that keyword.
-/

namespace Cognate

/-! ## Numbers -/

/-- A number is one literal. -/
theorem Lexes.number (n : Nat) : Lexes (toString n).toList [.literal .decimal (toString n)] := by
  have htext : (toString n).toList = Nat.toDigits 10 n := by simp
  have hall := isDecimalDigit_of_mem_toDigits n
  rw [← htext] at hall
  have hzero : ∀ c cs, (toString n).toList = c :: cs → c = '0' → cs = [] := by
    rintro c cs h rfl
    rw [htext] at h
    by_cases hn : n = 0
    · subst hn
      exact (List.cons.inj h).2.symm
    · exact absurd (by rw [h]; rfl) (head?_toDigits (by decide) (by decide) (Nat.pos_of_ne_zero hn))
  cases hcs : (toString n).toList with
  | nil => exact absurd (htext.symm.trans hcs) Nat.toDigits_ne_nil
  | cons c cs =>
    rw [hcs] at hall
    have hofList : toString n = String.ofList (c :: cs) := by rw [← hcs, String.ofList_toList]
    rw [hofList]
    refine Lexes.of_first fun rest hrest => ?_
    refine Lexeme.first_number (List.all_eq_true.2 hall) (hzero c cs hcs) fun d hd => ?_
    have hlast := List.getLast?_eq_some_getLast (List.cons_ne_nil c cs)
    have hglues := hrest _ hlast d hd
    have hdigit := hall _ (List.getLast_mem (List.cons_ne_nil c cs))
    have hword : isWordRest ((c :: cs).getLast (List.cons_ne_nil c cs)) = true := by simp [isWordRest, hdigit]
    refine ⟨glues_of_word hword hglues, ?_⟩
    rintro rfl
    simp [glues, hdigit] at hglues

/-- What stands in front of the digits and the suffix behind them do not count. -/
theorem integerValue?_of_writes {k : LiteralClass} {radix n : Nat} {mark digits suffix : List Char}
    (hmark : Grammar.radixMark k = (radix, mark.length)) (hr : radix ≤ 16) (h : Text.Writes radix digits n)
    (hsuffix : ∀ c ∈ suffix, isIntegerSuffix c = true) :
    Grammar.integerValue? k (String.ofList (mark ++ (digits ++ suffix))) =
      if n < 2 ^ 127 then some (n : Int) else none := by
  have hdigits : ∀ c ∈ digits, ¬isIntegerSuffix c = true := by
    have hall : ∀ k : Fin 128, ∀ d : Fin 16, (Char.ofNat k).toLower = Nat.digitChar d →
        ¬isIntegerSuffix (Char.ofNat k) = true := by decide +kernel
    exact h.forall_digits hr fun k d _ => hall k d
  have hdrop : ((digits ++ suffix).reverse.dropWhile isIntegerSuffix).reverse = digits := by
    rw [List.reverse_append, List.dropWhile_append_of_pos (by simpa using hsuffix),
      List.dropWhile_eq_self_iff.2 fun hpos => hdigits _ (List.mem_reverse.1 (List.getElem_mem hpos)),
      List.reverse_reverse]
  simp only [Grammar.integerValue?, hmark, String.toList_ofList, List.drop_left, hdrop, (Text.numeral?_eq_some hr).2 h]
  rw [if_neg (by simpa using h.ne_nil), Option.filter_some]
  simp only [decide_eq_true_eq, show Grammar.literalLimit = 2 ^ 127 from rfl]
  split <;> rfl

/-- The literal has the value of the number. -/
theorem integerValue?_toString {n : Nat} (h : n < Grammar.literalLimit) :
    Grammar.integerValue? .decimal (toString n) = some (n : Int) := by
  have htext : toString n = String.ofList ([] ++ (Nat.toDigits 10 n ++ [])) := by simp [String.ext_iff]
  rw [htext, integerValue?_of_writes rfl (by decide) (Text.writes_toDigits (by decide) (by decide) n) (by simp)]
  exact if_pos h

/-! ## Keywords -/

/-- Every spelling of a keyword is a word. -/
theorem Keyword.spelling_word : ∀ x ∈ spellings,
    ∃ c cs, x.1.toList = c :: cs ∧ isWordStart c = true ∧ cs.all isWordRest = true := by
  have hall : ∀ x ∈ spellings, x.1.toList.head?.all isWordStart && x.1.toList.tail.all isWordRest &&
      !x.1.toList.isEmpty := by decide
  intro x hx
  have h := hall x hx
  cases hcs : x.1.toList with
  | nil => simp [hcs] at h
  | cons c cs => exact ⟨c, cs, rfl, by simpa [hcs] using h⟩

theorem mem_of_lookup {α β : Type} [BEq α] [LawfulBEq α] {a : α} {b : β} {l : List (α × β)} (h : l.lookup a = some b) :
    (a, b) ∈ l := by
  induction l with
  | nil => cases h
  | cons x l ih =>
    rw [List.lookup_cons] at h
    split at h
    · next he =>
      rw [beq_iff_eq.1 he, ← Option.some.inj h]
      exact List.mem_cons_self
    · exact List.mem_cons_of_mem x (ih h)

theorem Lexes.keyword {text : String} {k : Keyword} (h : Keyword.ofSpelling? text = some k) :
    Lexes text.toList [.keyword k] := by
  obtain ⟨c, cs, htext, hc, hcs⟩ := Keyword.spelling_word _ (mem_of_lookup h)
  have hw := Lexes.word hc hcs
  rwa [← htext, Rule.wordToken, String.ofList_toList, h] at hw

end Cognate
