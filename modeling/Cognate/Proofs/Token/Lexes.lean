import Cognate.Proofs.Token.Names

/-!
# Texts of tokens

A piece of text that is read as certain tokens wherever it stands, as long as what follows does not run into it: words,
numbers, marks, blanks, and what is put together from them. The longest match decides, so each kind of piece needs the
rules that might match more.
-/

namespace Cognate

variable {c d : Char} {cs ds rest : List Char} {n : Nat} {ts ts' : List Token}

/-! ## The rules that may match -/

namespace Rule

/-- The rule for words. -/
def wordRule : Rule := ⟨word, fun cs => some (wordToken cs)⟩

/-- The rules that skip what they match. -/
def skipRules : List Rule := [skip (someRun isSpace), skip lineComment, skip blockComment, skip directive]

/-- The rules for numbers. -/
def numberRules : List Rule :=
  [literal .hex hexLiteral, literal .binary binaryLiteral, literal .octal octalLiteral, literal .decimal decimalLiteral,
   literal .float pointLiteral, literal .float fractionLiteral, literal .float exponentLiteral]

/-- The rules for quoted literals. -/
def quoteRules : List Rule := [literal .char (quoteLiteral '\''), literal .string (quoteLiteral '"')]

theorem table_eq : table = skipRules ++ wordRule :: numberRules ++ quoteRules ++ Punct.all.map mark := rfl

variable {r : Rule}

theorem mem_table : r ∈ table ↔
    r ∈ skipRules ∨ r = wordRule ∨ r ∈ numberRules ∨ r ∈ quoteRules ∨ ∃ p ∈ Punct.all, mark p = r := by
  rw [table_eq]
  simp only [List.mem_append, List.mem_cons, List.mem_map]
  tauto

/-- The rule that matches more than every other one wins. -/
theorem longest_eq {rules : List Rule} (hmem : r ∈ rules) (hr : r.munch cs = some n)
    (hother : ∀ s ∈ rules, s = r ∨ ∀ m, s.munch cs = some m → m < n) : longest cs rules = some (n, r) := by
  induction rules with
  | nil => cases hmem
  | cons s rules ih =>
    have hrest := fun s' hs' => hother s' (List.mem_cons_of_mem s hs')
    simp only [longest]
    rcases hother s (by simp) with rfl | hlt
    · rw [hr]
      cases hbest : longest cs rules with
      | none => rfl
      | some best =>
        obtain ⟨m, q⟩ := best
        obtain ⟨hq, hmunch⟩ := longest_some hbest
        have hle : m ≤ n := by
          rcases hrest q hq with rfl | hlt
          · rw [hr] at hmunch
            cases hmunch
            exact le_refl _
          · exact (hlt m hmunch).le
        simp [hle]
    · by_cases he : r = s
      · subst he
        exact absurd (hlt n hr) (lt_irrefl n)
      · rw [ih ((List.mem_cons.1 hmem).resolve_left he) hrest]
        cases hm : s.munch cs with
        | none => rfl
        | some m =>
          have hlt := hlt m hm
          simp only
          rw [if_neg (by omega)]

end Rule

theorem someRun_eq_none {p : Char → Bool} (h : p c = false) : someRun p (c :: cs) = none := by
  simp [someRun, run, h]

theorem fractionLiteral_eq_none (h : c ≠ '.') : fractionLiteral (c :: cs) = none := by
  simp [fractionLiteral, h]

namespace Rule

variable {r : Rule}

theorem munch_skipRules (hr : r ∈ skipRules) (hspace : isSpace c = false) (hslash : c ≠ '/') (hhash : c ≠ '#') :
    r.munch (c :: cs) = none := by
  simp only [skipRules, List.mem_cons, List.not_mem_nil, or_false] at hr
  rcases hr with rfl | rfl | rfl | rfl
  · exact someRun_eq_none hspace
  · simp [skip, lineComment, hslash]
  · simp [skip, blockComment, hslash]
  · simp [skip, directive, hhash]

theorem munch_wordRule (h : isWordStart c = false) : wordRule.munch (c :: cs) = none := by
  simp [wordRule, word, h]

theorem munch_numberRules (hr : r ∈ numberRules) (hdigit : isDecimalDigit c = false)
    (hfraction : fractionLiteral (c :: cs) = none) : r.munch (c :: cs) = none := by
  have hzero : c ≠ '0' := fun h => by simp [h, isDecimalDigit] at hdigit
  simp only [numberRules, List.mem_cons, List.not_mem_nil, or_false] at hr
  rcases hr with rfl | rfl | rfl | rfl | rfl | rfl | rfl
  · simp [literal, hexLiteral, hzero]
  · simp [literal, binaryLiteral, hzero]
  · simp [literal, octalLiteral, hzero]
  · simp [literal, decimalLiteral, integerBody, someRun_eq_none hdigit]
  · simp [literal, pointLiteral, someRun_eq_none hdigit]
  · exact hfraction
  · simp [literal, exponentLiteral, someRun_eq_none hdigit]

theorem munch_quoteRules (hr : r ∈ quoteRules) (hquote : c ≠ '\'') (hdouble : c ≠ '"') : r.munch (c :: cs) = none := by
  simp only [quoteRules, List.mem_cons, List.not_mem_nil, or_false] at hr
  rcases hr with rfl | rfl
  · simp [literal, quoteLiteral, hquote]
  · simp [literal, quoteLiteral, hdouble]

theorem munch_mark {p : Punct} (h : p.spelling.toList.head? ≠ some c) : (mark p).munch (c :: cs) = none := by
  have hne : p.spelling.toList ≠ [] := by cases p <;> decide
  cases hp : p.spelling.toList with
  | nil => exact absurd hp hne
  | cons d ds =>
    rw [hp] at h
    have hdc : d ≠ c := by simpa using h
    simp [mark, fixedText, hp, List.isPrefixOf, hdc]

end Rule

/-- No mark starts like a word or a number. -/
theorem Punct.head_spelling (p : Punct) : ∀ c ∈ p.spelling.toList.head?, isWordRest c = false ∧ isSpace c = false := by
  have hall : p.spelling.toList.head?.all (fun c => !isWordRest c && !isSpace c) = true := by cases p <;> decide
  intro c hc
  rw [Option.mem_def.1 hc] at hall
  simpa using hall

/-- A mark that a text starts with starts like the text. -/
theorem Punct.head_of_isPrefixOf {p : Punct} (h : p.spelling.toList.isPrefixOf (c :: cs) = true) :
    p.spelling.toList.head? = some c := by
  cases hp : p.spelling.toList with
  | nil => exact absurd hp (by cases p <;> decide)
  | cons d ds =>
    rw [hp, List.isPrefixOf_cons_cons, Bool.and_eq_true, beq_iff_eq] at h
    exact congrArg some h.1

/-! ## Runs and what follows them -/

theorem run_append {p : Char → Bool} (hall : cs.all p = true) (hrest : ∀ d ∈ rest.head?, p d = false) :
    run p (cs ++ rest) = cs.length := by
  have htake : rest.takeWhile p = [] := by
    cases rest with
    | nil => rfl
    | cons d rest => simp [hrest d (by simp)]
  have hmem : ∀ c ∈ cs, p c = true := by simpa using hall
  simp [run, List.takeWhile_append_of_pos hmem, htake]

theorem drop_run (p : Char → Bool) (cs : List Char) : cs.drop (run p cs) = cs.dropWhile p := by
  have h := List.takeWhile_append_dropWhile (p := p) (l := cs)
  exact (congrArg (List.drop (run p cs)) h).symm.trans (List.drop_left' rfl)

/-- Two characters that may belong to one token when they stand side by side. -/
def glues (c d : Char) : Bool :=
  (isWordRest c && isWordRest d) || (isDecimalDigit c && d == '.') || (c == '&' && d == '&')

/-- The second text does not run into the first. -/
def Apart (cs ds : List Char) : Prop := ∀ c ∈ cs.getLast?, ∀ d ∈ ds.head?, glues c d = false

/-- Starts a token whatever stands in front of it. -/
def free (c : Char) : Bool := !(isWordRest c || c == '.' || c == '&')

theorem Apart.nil_left (ds : List Char) : Apart [] ds := by simp [Apart]

theorem Apart.nil_right (cs : List Char) : Apart cs [] := by simp [Apart]

theorem Apart.of_free (h : free d = true) : Apart cs (d :: ds) := by
  intro c _ e he
  obtain rfl : d = e := by simpa using he
  simp only [free, Bool.not_eq_true', Bool.or_eq_false_iff] at h
  simp [glues, h]

theorem Apart.of_last (h : ∀ c ∈ cs.getLast?, isWordRest c = false ∧ c ≠ '&') : Apart cs ds := by
  intro c hc d _
  obtain ⟨hrest, hamp⟩ := h c hc
  have hdigit : isDecimalDigit c = false := by
    simp only [isWordRest, Bool.or_eq_false_iff] at hrest
    exact hrest.2
  simp [glues, hrest, hdigit, hamp]

theorem Apart.of_ampersand (hcs : cs.getLast? = some '&') (hds : ds.head? ≠ some '&') : Apart cs ds := by
  rintro c hc d hd
  obtain rfl : '&' = c := Option.some.inj (hcs.symm.trans hc)
  have hne : d ≠ '&' := by
    rintro rfl
    exact hds hd
  simpa [glues, isWordRest, isWordStart, isDecimalDigit] using hne

/-- Only the last character of the first text and the first one of the second matter. -/
theorem Apart.append_left (hds : ds ≠ []) : Apart (cs ++ ds) rest ↔ Apart ds rest := by
  rw [Apart, Apart, List.getLast?_append_of_ne_nil _ hds]

theorem Apart.append_right (hds : ds ≠ []) : Apart cs (ds ++ rest) ↔ Apart cs ds := by
  cases ds with
  | nil => exact absurd rfl hds
  | cons d ds => simp [Apart]

theorem glues_of_word (hc : isWordRest c = true) (h : glues c d = false) : isWordRest d = false := by
  by_contra hd
  simp [glues, hc, hd] at h

/-! ## The lexeme of a piece -/

namespace Lexeme

/-- Where one rule matches more than all others, its match is the lexeme. -/
theorem first_eq {r : Rule} {t : Token} (hclosed : unclosed cs = none) (hmem : r ∈ Rule.table)
    (hr : r.munch cs = some n) (hother : ∀ s ∈ Rule.table, s = r ∨ ∀ m, s.munch cs = some m → m < n)
    (ht : r.token (cs.take n) = some t) : first cs = token n t := by
  simp [first, hclosed, Rule.longest_eq hmem hr hother, ht]

theorem unclosed_eq_none (hslash : c ≠ '/') (hquote : c ≠ '\'') (hdouble : c ≠ '"') : unclosed (c :: cs) = none := by
  unfold unclosed
  split
  · next h => exact absurd (List.cons.inj h).1 hslash
  · next q rest _ h =>
    obtain ⟨rfl, rfl⟩ := List.cons.inj h
    simp [hquote, hdouble]
  · next h => cases h

/-- A character that starts words starts nothing else. -/
theorem ne_of_isWordStart (h : isWordStart c = true) (hd : isWordStart d = false) : c ≠ d := by
  rintro rfl
  rw [h] at hd
  cases hd

theorem isSpace_of_isWordRest (h : isWordRest c = true) : isSpace c = false := by
  by_contra hspace
  simp only [Bool.not_eq_false, isSpace, Bool.or_eq_true, beq_iff_eq] at hspace
  rcases hspace with (((rfl | rfl) | rfl) | rfl) | rfl <;> simp [isWordRest, isWordStart, isDecimalDigit] at h

theorem isDecimalDigit_of_isWordStart (h : isWordStart c = true) : isDecimalDigit c = false := by
  by_contra hdigit
  simp only [isDecimalDigit, Bool.not_eq_false, Bool.and_eq_true, decide_eq_true_eq, Char.le_def,
    UInt32.le_iff_toNat_le] at hdigit
  simp only [isWordStart, Bool.or_eq_true, Bool.and_eq_true, decide_eq_true_eq, Char.le_def, UInt32.le_iff_toNat_le,
    beq_iff_eq] at h
  have hnine : '9'.val.toNat < 'A'.val.toNat := by decide
  have hupper : 'A'.val.toNat ≤ 'a'.val.toNat := by decide
  rcases h with (h | h) | rfl
  · omega
  · omega
  · revert hdigit
    decide

theorem munch_mark_of_word (hc : isWordRest c = true) (p : Punct) : (Rule.mark p).munch (c :: cs) = none := by
  refine Rule.munch_mark fun h => ?_
  have := (p.head_spelling c h).1
  rw [hc] at this
  cases this

/-- A word that nothing continues. -/
theorem first_word (hc : isWordStart c = true) (hcs : cs.all isWordRest = true)
    (hrest : ∀ d ∈ rest.head?, isWordRest d = false) :
    first (c :: cs ++ rest) = token (cs.length + 1) (Rule.wordToken (c :: cs)) := by
  have hword : isWordRest c = true := by simp [isWordRest, hc]
  have hne : ∀ d, isWordStart d = false → c ≠ d := fun d hd => ne_of_isWordStart hc hd
  refine first_eq (r := Rule.wordRule) ?_ (Rule.mem_table.2 (by simp)) ?_ ?_ ?_
  · exact unclosed_eq_none (hne _ (by decide)) (hne _ (by decide)) (hne _ (by decide))
  · simp [Rule.wordRule, word, hc, run_append hcs hrest, Nat.add_comm]
  -- No other rule matches anything that starts like a word.
  · intro s hs
    rw [Rule.mem_table] at hs
    rcases hs with hs | rfl | hs | hs | ⟨p, -, rfl⟩
    · have hspace := isSpace_of_isWordRest hword
      exact .inr (by simp [Rule.munch_skipRules hs hspace (hne _ (by decide)) (hne _ (by decide))])
    · exact .inl rfl
    · have hdigit := isDecimalDigit_of_isWordStart hc
      exact .inr (by simp [Rule.munch_numberRules hs hdigit (fractionLiteral_eq_none (hne _ (by decide)))])
    · exact .inr (by simp [Rule.munch_quoteRules hs (hne _ (by decide)) (hne _ (by decide))])
    · exact .inr (by simp [munch_mark_of_word hword p])
  · simp [Rule.wordRule]

/-! ### Numbers -/

section Number

/-- Nothing that follows a number continues it. -/
def StopsNumber (rest : List Char) : Prop := ∀ d ∈ rest.head?, isWordRest d = false ∧ d ≠ '.'

theorem StopsNumber.ne (hrest : StopsNumber rest) (hd : d ∈ rest.head?) {e : Char} (he : isWordRest e = true) :
    d ≠ e := by
  rintro rfl
  have := (hrest d hd).1
  rw [he] at this
  cases this

variable (hcs : (c :: cs).all isDecimalDigit = true) (hzero : c = '0' → cs = []) (hrest : StopsNumber rest)

include hcs hrest in
theorem someRun_number : someRun isDecimalDigit (c :: cs ++ rest) = some (cs.length + 1) := by
  rw [someRun, run_append hcs]
  · rfl
  · intro d hd
    have := (hrest d hd).1
    simp only [isWordRest, Bool.or_eq_false_iff] at this
    exact this.2

include hzero hrest in
theorem hexLiteral_number : hexLiteral (c :: cs ++ rest) = none := by
  by_cases h : c = '0'
  · rw [h, hzero h]
    cases rest with
    | nil => rfl
    | cons d rest =>
      have hx : d ≠ 'x' := hrest.ne (by simp) (by decide)
      have hX : d ≠ 'X' := hrest.ne (by simp) (by decide)
      simp [hexLiteral, hx, hX]
  · simp [hexLiteral, h]

include hzero hrest in
theorem binaryLiteral_number : binaryLiteral (c :: cs ++ rest) = none := by
  by_cases h : c = '0'
  · rw [h, hzero h]
    cases rest with
    | nil => rfl
    | cons d rest =>
      have hb : d ≠ 'b' := hrest.ne (by simp) (by decide)
      have hB : d ≠ 'B' := hrest.ne (by simp) (by decide)
      simp [binaryLiteral, hb, hB]
  · simp [binaryLiteral, h]

include hzero hrest in
theorem octalLiteral_number : octalLiteral (c :: cs ++ rest) = none := by
  by_cases h : c = '0'
  · rw [h, hzero h]
    cases rest with
    | nil => rfl
    | cons d rest =>
      have hd : isOctalDigit d = false := by
        by_contra hd
        simp only [Bool.not_eq_false, isOctalDigit, Bool.and_eq_true, decide_eq_true_eq] at hd
        have hword := (hrest d (by simp)).1
        simp only [isWordRest, Bool.or_eq_false_iff, isDecimalDigit, Bool.and_eq_false_iff,
          decide_eq_false_iff_not] at hword
        rcases hword.2 with h' | h'
        · exact h' hd.1
        · exact h' (Char.le_trans hd.2 (by decide))
      simp [octalLiteral, integerBody, someRun_eq_none hd]
  · simp [octalLiteral, h]

include hcs hrest in
theorem decimalLiteral_number : decimalLiteral (c :: cs ++ rest) = some (cs.length + 1) := by
  have hsuffix : run isIntegerSuffix rest = 0 := by
    cases rest with
    | nil => rfl
    | cons d rest =>
      have hne := fun e he => hrest.ne (d := d) (e := e) (by simp) he
      simp [run, isIntegerSuffix, hne 'u' (by decide), hne 'U' (by decide), hne 'l' (by decide), hne 'L' (by decide)]
  rw [decimalLiteral, integerBody, someRun_number hcs hrest]
  simp [hsuffix]

include hcs hrest in
theorem pointLiteral_number : pointLiteral (c :: cs ++ rest) = none := by
  rw [pointLiteral, someRun_number hcs hrest]
  cases rest with
  | nil => simp
  | cons d rest => simp [(hrest d (by simp)).2]

include hcs hrest in
theorem exponentLiteral_number : exponentLiteral (c :: cs ++ rest) = none := by
  have hexponent : exponent rest = none := by
    cases rest with
    | nil => rfl
    | cons d rest =>
      have he : d ≠ 'e' := hrest.ne (by simp) (by decide)
      have hE : d ≠ 'E' := hrest.ne (by simp) (by decide)
      simp [exponent, he, hE]
  rw [exponentLiteral, someRun_number hcs hrest]
  simp [hexponent]

include hcs hzero hrest in
/-- A number without a sign, a point or leading zeros. -/
theorem first_number :
    first (c :: cs ++ rest) = token (cs.length + 1) (.literal .decimal (String.ofList (c :: cs))) := by
  have hc : isDecimalDigit c = true := by
    simp only [List.all_cons, Bool.and_eq_true] at hcs
    exact hcs.1
  have hword : isWordRest c = true := by simp [isWordRest, hc]
  have hstart : isWordStart c = false := by
    by_contra h
    simp only [Bool.not_eq_false] at h
    rw [isDecimalDigit_of_isWordStart h] at hc
    cases hc
  have hne : ∀ d, isDecimalDigit d = false → c ≠ d := by
    rintro d hd rfl
    rw [hc] at hd
    cases hd
  have hnumbers : ∀ s ∈ Rule.numberRules,
      s = Rule.literal .decimal decimalLiteral ∨ s.munch (c :: cs ++ rest) = none := by
    intro s hs
    simp only [Rule.numberRules, List.mem_cons, List.not_mem_nil, or_false] at hs
    rcases hs with rfl | rfl | rfl | rfl | rfl | rfl | rfl
    · exact .inr (hexLiteral_number hzero hrest)
    · exact .inr (binaryLiteral_number hzero hrest)
    · exact .inr (octalLiteral_number hzero hrest)
    · exact .inl rfl
    · exact .inr (pointLiteral_number hcs hrest)
    · exact .inr (fractionLiteral_eq_none (hne _ (by decide)))
    · exact .inr (exponentLiteral_number hcs hrest)
  refine first_eq (r := Rule.literal .decimal decimalLiteral) ?_
    (Rule.mem_table.2 (by simp [Rule.numberRules])) ?_ ?_ ?_
  · exact unclosed_eq_none (hne _ (by decide)) (hne _ (by decide)) (hne _ (by decide))
  · exact decimalLiteral_number hcs hrest
  · intro s hs
    rw [Rule.mem_table] at hs
    rcases hs with hs | rfl | hs | hs | ⟨p, -, rfl⟩
    · have hspace := isSpace_of_isWordRest hword
      exact .inr (by simp [Rule.munch_skipRules hs hspace (hne _ (by decide)) (hne _ (by decide))])
    · exact .inr (by simp [Rule.munch_wordRule hstart])
    · refine (hnumbers s hs).imp_right fun h m hm => ?_
      rw [h] at hm
      cases hm
    · exact .inr (by simp [Rule.munch_quoteRules hs (hne _ (by decide)) (hne _ (by decide))])
    · exact .inr (by simp [munch_mark_of_word hword p])
  · simp [Rule.literal]

end Number

/-! ### Marks and blanks -/

/-- Starts marks and, but for a point, no other token. -/
def startsMark (c : Char) : Bool :=
  !(isWordRest c || isSpace c || c == '/' || c == '#' || c == '\'' || c == '"')

/-- A mark, where none of the longer ones stands. -/
theorem first_mark {p : Punct} (hp : p.spelling.toList = c :: cs) (hc : startsMark c = true)
    (hfraction : fractionLiteral (c :: (cs ++ rest)) = none)
    (hlong : ∀ q, q ≠ p → q.spelling.toList.isPrefixOf (c :: cs ++ rest) = true →
      q.spelling.toList.length < cs.length + 1) :
    first (c :: cs ++ rest) = token (cs.length + 1) (.punct p) := by
  simp only [startsMark, Bool.not_eq_true', Bool.or_eq_false_iff, beq_eq_false_iff_ne, isWordRest] at hc
  obtain ⟨⟨⟨⟨⟨⟨hstart, hdigit⟩, hspace⟩, hslash⟩, hhash⟩, hquote⟩, hdouble⟩ := hc
  have hall : p ∈ Punct.all := by cases p <;> decide
  have hmunch : (Rule.mark p).munch (c :: cs ++ rest) = some (cs.length + 1) := by
    simp [Rule.mark, fixedText, hp, List.isPrefixOf_iff_prefix]
  refine first_eq (r := Rule.mark p) (unclosed_eq_none hslash hquote hdouble)
    (Rule.mem_table.2 (.inr (.inr (.inr (.inr ⟨p, hall, rfl⟩))))) hmunch ?_ rfl
  intro s hs
  rw [Rule.mem_table] at hs
  rcases hs with hs | rfl | hs | hs | ⟨q, -, rfl⟩
  · exact .inr (by simp [Rule.munch_skipRules hs hspace hslash hhash])
  · exact .inr (by simp [Rule.munch_wordRule hstart])
  · exact .inr (by simp [Rule.munch_numberRules hs hdigit hfraction])
  · exact .inr (by simp [Rule.munch_quoteRules hs hquote hdouble])
  · by_cases hq : q = p
    · exact .inl (by rw [hq])
    · refine .inr fun m hm => ?_
      simp only [Rule.mark, fixedText] at hm
      split_ifs at hm with hpre
      cases hm
      exact hlong q hq hpre

/-- A run of blanks is skipped. -/
theorem first_space (hc : isSpace c = true) : first (c :: cs) = skipped (run isSpace (c :: cs)) := by
  have hblank : isWordRest c = false ∧ c ≠ '/' ∧ c ≠ '#' ∧ c ≠ '.' ∧ c ≠ '\'' ∧ c ≠ '"' := by
    simp only [isSpace, Bool.or_eq_true, beq_iff_eq] at hc
    rcases hc with (((rfl | rfl) | rfl) | rfl) | rfl <;> decide
  obtain ⟨hword, hslash, hhash, hdot, hquote, hdouble⟩ := hblank
  simp only [isWordRest, Bool.or_eq_false_iff] at hword
  have hmunch : (Rule.skip (someRun isSpace)).munch (c :: cs) = some (run isSpace (c :: cs)) := by
    simp [Rule.skip, someRun, run, hc]
  have hlongest : Rule.longest (c :: cs) Rule.table = some (run isSpace (c :: cs), Rule.skip (someRun isSpace)) := by
    refine Rule.longest_eq (Rule.mem_table.2 (by simp [Rule.skipRules])) hmunch fun s hs => ?_
    rw [Rule.mem_table] at hs
    rcases hs with hs | rfl | hs | hs | ⟨p, -, rfl⟩
    · simp only [Rule.skipRules, List.mem_cons, List.not_mem_nil, or_false] at hs
      rcases hs with rfl | rfl | rfl | rfl
      · exact .inl rfl
      · exact .inr (by simp [Rule.skip, lineComment, hslash])
      · exact .inr (by simp [Rule.skip, blockComment, hslash])
      · exact .inr (by simp [Rule.skip, directive, hhash])
    · exact .inr (by simp [Rule.munch_wordRule hword.1])
    · exact .inr (by simp [Rule.munch_numberRules hs hword.2 (fractionLiteral_eq_none hdot)])
    · exact .inr (by simp [Rule.munch_quoteRules hs hquote hdouble])
    · refine .inr fun m hm => ?_
      rw [Rule.munch_mark] at hm
      · cases hm
      · intro h
        have := (p.head_spelling c h).2
        rw [hc] at this
        cases this
  simp [first, unclosed_eq_none hslash hquote hdouble, hlongest, Rule.skip]

end Lexeme

/-! ## Scanning -/

theorem scanAt_token {pos : Nat} {t : Token} (h : Lexeme.first (c :: cs ++ rest) = .token (cs.length + 1) t) :
    scanAt pos (c :: cs ++ rest) =
      .ok ⟨t, ⟨pos, pos + byteLength (c :: cs)⟩⟩ :: scanAt (pos + byteLength (c :: cs)) rest := by
  rw [List.cons_append] at h ⊢
  rw [scanAt]
  simp [h, Lexeme.length]

/-- Blanks at the front of a text do not matter. -/
theorem scanAt_dropWhile (pos : Nat) (cs : List Char) :
    scanAt pos cs = scanAt (pos + byteLength (cs.takeWhile isSpace)) (cs.dropWhile isSpace) := by
  cases cs with
  | nil => rfl
  | cons c cs =>
    cases hc : isSpace c with
    | false => simp [hc, byteLength]
    | true =>
      have hrun : (c :: cs).take (run isSpace (c :: cs)) = (c :: cs).takeWhile isSpace := take_run isSpace (c :: cs)
      have hdrop : cs.drop (run isSpace (c :: cs) - 1) = (c :: cs).dropWhile isSpace := by
        rw [List.dropWhile_cons_of_pos hc, ← drop_run]
        simp [run, hc]
      rw [scanAt]
      simp only [Lexeme.first_space hc, Lexeme.length, hrun, hdrop]

/-! ## Pieces -/

/-- In front of whatever does not run into it, the text is read as these tokens. -/
def Lexes (cs : List Char) (ts : List Token) : Prop :=
  ∀ pos rest, Apart cs rest → ∃ ls : List Lexed, ls.map Lexed.token = ts ∧
    scanAt pos (cs ++ rest) = ls.map .ok ++ scanAt (pos + byteLength cs) rest

namespace Lexes

theorem nil : Lexes [] [] := fun pos rest _ => ⟨[], rfl, by simp [byteLength]⟩

theorem eq_nil (h : Lexes [] ts) : ts = [] := by
  obtain ⟨ls, rfl, hls⟩ := h 0 [] (.nil_left [])
  rw [List.nil_append, scanAt, scanAt, List.append_nil] at hls
  simpa using hls.symm

theorem append (hcs : Lexes cs ts) (hds : Lexes ds ts') (h : Apart cs ds) : Lexes (cs ++ ds) (ts ++ ts') := by
  intro pos rest hrest
  -- Behind an empty second text, what follows stands next to the first one.
  by_cases hne : ds = []
  · subst hne
    rw [hds.eq_nil]
    simpa using hcs pos rest (by simpa using hrest)
  · obtain ⟨ls, rfl, hls⟩ := hcs pos (ds ++ rest) ((Apart.append_right hne).2 h)
    obtain ⟨ls', rfl, hls'⟩ := hds (pos + byteLength cs) rest ((Apart.append_left hne).1 hrest)
    refine ⟨ls ++ ls', by simp, ?_⟩
    rw [List.append_assoc, hls, hls', byteLength_append]
    simp [Nat.add_assoc]

/-- One token. -/
theorem of_first {t : Token}
    (h : ∀ rest, Apart (c :: cs) rest → Lexeme.first (c :: cs ++ rest) = .token (cs.length + 1) t) :
    Lexes (c :: cs) [t] :=
  fun _ rest hrest => ⟨[⟨t, _⟩], rfl, scanAt_token (h rest hrest)⟩

theorem word (hc : isWordStart c = true) (hcs : cs.all isWordRest = true) :
    Lexes (c :: cs) [Rule.wordToken (c :: cs)] := by
  refine of_first fun rest hrest => Lexeme.first_word hc hcs fun d hd => ?_
  have hall : ∀ e ∈ c :: cs, isWordRest e = true := by
    intro e he
    rcases List.mem_cons.1 he with rfl | he
    · simp [isWordRest, hc]
    · exact List.all_eq_true.1 hcs e he
  have hlast := List.getLast?_eq_some_getLast (List.cons_ne_nil c cs)
  exact glues_of_word (hall _ (List.getLast_mem _)) (hrest _ hlast d hd)

theorem name {text : String} (h : IsName text) : Lexes text.toList [.name text] := by
  obtain ⟨c, cs, htext, hc, hcs⟩ := h.word
  have hw := word hc hcs
  rwa [← htext, Rule.wordToken, String.ofList_toList, h.free] at hw

/-- A mark that no longer one begins with. -/
theorem mark {p : Punct} (hp : p.spelling.toList = c :: cs) (hc : Lexeme.startsMark c = true)
    (hfraction : ∀ rest, fractionLiteral (c :: (cs ++ rest)) = none)
    (hlong : ∀ q, q ≠ p → q.spelling.toList.head? = some c → q.spelling.toList.length < cs.length + 1) :
    Lexes (c :: cs) [.punct p] := by
  refine of_first fun rest _ => Lexeme.first_mark hp hc (hfraction rest) fun q hq hpre => ?_
  exact hlong q hq (Punct.head_of_isPrefixOf hpre)

theorem star : Lexes ['*'] [.punct .star] :=
  mark rfl rfl (fun _ => rfl) fun q => by cases q <;> decide

theorem caret : Lexes ['^'] [.punct .caret] :=
  mark rfl rfl (fun _ => rfl) fun q => by cases q <;> decide

theorem lparen : Lexes ['('] [.punct .lparen] :=
  mark rfl rfl (fun _ => rfl) fun q => by cases q <;> decide

theorem rparen : Lexes [')'] [.punct .rparen] :=
  mark rfl rfl (fun _ => rfl) fun q => by cases q <;> decide

theorem lbracket : Lexes ['['] [.punct .lbracket] :=
  mark rfl rfl (fun _ => rfl) fun q => by cases q <;> decide

theorem rbracket : Lexes [']'] [.punct .rbracket] :=
  mark rfl rfl (fun _ => rfl) fun q => by cases q <;> decide

theorem comma : Lexes [','] [.punct .comma] :=
  mark rfl rfl (fun _ => rfl) fun q => by cases q <;> decide

theorem andAnd : Lexes ['&', '&'] [.punct .andAnd] :=
  mark rfl rfl (fun _ => rfl) fun q => by cases q <;> decide

theorem ellipsis : Lexes ['.', '.', '.'] [.punct .ellipsis] :=
  mark rfl rfl (fun _ => rfl) fun q => by cases q <;> decide

/-- One mark goes with an ampersand in front. -/
theorem amp : Lexes ['&'] [.punct .amp] := by
  refine of_first fun rest hrest => Lexeme.first_mark rfl rfl rfl fun q hq hpre => ?_
  have hone : q ≠ .amp → q.spelling.toList.head? = some '&' → q = .andAnd := by cases q <;> decide
  obtain rfl := hone hq (Punct.head_of_isPrefixOf hpre)
  cases rest with
  | nil => cases hpre
  | cons d rest =>
    have hd : d ≠ '&' := by
      rintro rfl
      have := hrest '&' rfl '&' rfl
      cases this
    simp [Punct.spelling, List.isPrefixOf, hd.symm] at hpre

theorem blank : Lexes [' '] [] := by
  intro pos rest _
  refine ⟨[], rfl, ?_⟩
  rw [List.singleton_append, scanAt_dropWhile, scanAt_dropWhile (pos + byteLength [' ']) rest]
  have hspace : isSpace ' ' = true := rfl
  simp [hspace, Nat.add_assoc, byteLength]

end Lexes

end Cognate
