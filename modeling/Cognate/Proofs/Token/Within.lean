import Cognate.Proofs.Token.Lexes

/-!
# Matches in front of a line break

No rule but the one for blanks matches across a line break unless it does so without one, if what a text starts with is
closed (`within_munch`): one lemma for each kind of lexeme.
-/

namespace Cognate

variable {c d : Char} {cs ds rest : List Char} {n : Nat} {p : Char → Bool}

/-! ## Runs in front of a line break -/

theorem run_le (p : Char → Bool) (cs : List Char) : run p cs ≤ cs.length := by
  exact (List.takeWhile_prefix p).length_le

theorem run_newline (hp : p '\n' = false) (cs ds : List Char) : run p (cs ++ '\n' :: ds) = run p cs := by
  induction cs with
  | nil => simp [run, hp]
  | cons c cs ih =>
    simp only [run, List.cons_append, List.takeWhile_cons] at ih ⊢
    split
    · simpa using ih
    · rfl

theorem drop_newline (h : n ≤ cs.length) (ds : List Char) :
    (cs ++ '\n' :: ds).drop n = cs.drop n ++ '\n' :: ds := List.drop_append_of_le_length h

theorem take_newline (h : n ≤ cs.length) (ds : List Char) : (cs ++ '\n' :: ds).take n = cs.take n :=
  List.take_append_of_le_length h

theorem someRun_length (h : someRun p cs = some n) : 0 < n ∧ n ≤ cs.length := by
  have hle := run_le p cs
  unfold someRun at h
  split at h
  · cases h
  · next hne =>
    cases h
    exact ⟨Nat.pos_of_ne_zero hne, hle⟩

theorem someRun_newline (hp : p '\n' = false) (cs ds : List Char) : someRun p (cs ++ '\n' :: ds) = someRun p cs := by
  rw [someRun, someRun, run_newline hp]

/-! ## Matches in front of a line break -/

/-- A match is no empty one and stays within the text, and the same is matched when a line break follows. -/
structure Within (munch : List Char → Option Nat) (cs : List Char) : Prop where
  length : ∀ {n}, munch cs = some n → 0 < n ∧ n ≤ cs.length
  newline : ∀ ds, munch (cs ++ '\n' :: ds) = munch cs

theorem within_lineComment (cs : List Char) : Within lineComment cs := by
  rcases cs with _ | ⟨c, _ | ⟨d, cs⟩⟩
  · constructor <;> simp [lineComment]
  · constructor <;> simp [lineComment]
  · by_cases h : c = '/' ∧ d = '/'
    · obtain ⟨rfl, rfl⟩ := h
      have hle := run_le (· != '\n') cs
      constructor
      · simp only [lineComment, restOfLine, Option.some.injEq, List.length_cons]
        omega
      · simp [lineComment, restOfLine, run_newline]
    · have hnone : ∀ ds, lineComment (c :: d :: ds) = none := by
        intro ds
        unfold lineComment
        split
        · simp_all
        · rfl
      constructor <;> simp [hnone]

theorem within_directive (cs : List Char) : Within directive cs := by
  rcases cs with _ | ⟨c, cs⟩
  · constructor <;> simp [directive]
  · by_cases h : c = '#'
    · subst h
      have hle := run_le (· != '\n') cs
      constructor
      · simp only [directive, restOfLine, Option.some.injEq, List.length_cons]
        omega
      · simp [directive, restOfLine, run_newline]
    · constructor <;> simp [directive, h]

theorem within_word (cs : List Char) : Within word cs := by
  rcases cs with _ | ⟨c, cs⟩
  · constructor <;> simp [word, isWordStart]
  · have hle := run_le isWordRest cs
    have hline : isWordRest '\n' = false := rfl
    constructor
    · intro n h
      simp only [word, Option.ite_none_right_eq_some, Option.some.injEq] at h
      simp only [List.length_cons]
      omega
    · simp [word, run_newline hline]

theorem within_fixedText {text : List Char} (hne : text ≠ []) (htext : '\n' ∉ text) (cs : List Char) :
    Within (fixedText text) cs := by
  constructor
  · intro n h
    simp only [fixedText, Option.ite_none_right_eq_some, Option.some.injEq] at h
    obtain ⟨hstart, rfl⟩ := h
    exact ⟨List.length_pos_of_ne_nil hne, (List.isPrefixOf_iff_prefix.1 hstart).length_le⟩
  · intro ds
    have hsame : text.isPrefixOf (cs ++ '\n' :: ds) = text.isPrefixOf cs := by
      clear hne
      induction text generalizing cs with
      | nil => simp
      | cons c text ih =>
        rw [List.mem_cons, not_or] at htext
        cases cs with
        | nil => simp [List.isPrefixOf, Ne.symm htext.1]
        | cons d cs => simp [List.isPrefixOf, ih htext.2]
    rw [fixedText, hsame, fixedText]

/-! ### Comments -/

theorem commentBody_cons (h : ¬(c = '*' ∧ cs.head? = some '/')) :
    commentBody (c :: cs) = (commentBody cs).map (· + 1) := by
  rw [commentBody.eq_def]
  split
  · simp_all
  · next heq =>
    obtain ⟨rfl, rfl⟩ := List.cons.inj heq
    rfl
  · next heq => cases heq

/-- What follows the end of a comment does not matter. -/
theorem commentBody_append (h : commentBody cs = some n) (ds : List Char) :
    commentBody (cs ++ ds) = some n ∧ n ≤ cs.length := by
  induction cs generalizing n with
  | nil => cases h
  | cons c cs ih =>
    by_cases hend : c = '*' ∧ cs.head? = some '/'
    · obtain ⟨rfl, hslash⟩ := hend
      obtain ⟨cs, rfl⟩ := List.head?_eq_some_iff.1 hslash
      cases h
      simp [commentBody]
    · rw [commentBody_cons hend] at h
      obtain ⟨m, hm, rfl⟩ := Option.map_eq_some_iff.1 h
      obtain ⟨hsame, hle⟩ := ih hm
      have hne : cs ≠ [] := by
        rintro rfl
        cases hm
      refine ⟨?_, by simpa using hle⟩
      rw [List.cons_append, commentBody_cons (by rwa [List.head?_append_of_ne_nil _ hne]), hsame]
      rfl

theorem within_blockComment (h : Lexeme.unclosed cs = none) : Within blockComment cs := by
  have hnone : ∀ {c d : Char} {es}, ¬(c = '/' ∧ d = '*') → blockComment (c :: d :: es) = none := by
    intro c d es hcd
    unfold blockComment
    split
    · simp_all
    · rfl
  rcases cs with _ | ⟨c, _ | ⟨d, cs⟩⟩
  · constructor <;> simp [blockComment]
  · constructor <;> simp [blockComment]
  · by_cases hopen : c = '/' ∧ d = '*'
    · obtain ⟨rfl, rfl⟩ := hopen
      cases hbody : commentBody cs with
      | none => simp [Lexeme.unclosed, blockComment, hbody] at h
      | some n =>
        constructor
        · have hle := (commentBody_append hbody []).2
          simp only [blockComment, hbody, Option.map_some, Option.some.injEq, List.length_cons]
          omega
        · simp [blockComment, hbody, (commentBody_append hbody _).1]
    · constructor <;> simp [hnone hopen]

/-! ### Numbers -/

theorem integerBody_length (h : integerBody p cs = some n) : 0 < n ∧ n ≤ cs.length := by
  obtain ⟨m, hm, rfl⟩ := Option.map_eq_some_iff.1 h
  have hle := run_le isIntegerSuffix (cs.drop m)
  have := someRun_length hm
  simp only [List.length_drop] at hle
  omega

theorem integerBody_newline (hp : p '\n' = false) (cs ds : List Char) :
    integerBody p (cs ++ '\n' :: ds) = integerBody p cs := by
  rw [integerBody, someRun_newline hp, integerBody]
  refine Option.map_congr fun m hm => ?_
  rw [drop_newline (someRun_length hm).2, run_newline rfl]

theorem within_hexLiteral (cs : List Char) : Within hexLiteral cs := by
  rcases cs with _ | ⟨c, _ | ⟨x, cs⟩⟩
  · constructor <;> simp [hexLiteral]
  · by_cases h : c = '0' <;> constructor <;> simp [hexLiteral, h]
  · by_cases h : c = '0'
    · subst h
      constructor
      · intro n hn
        simp only [hexLiteral, Option.ite_none_right_eq_some] at hn
        obtain ⟨m, hm, rfl⟩ := Option.map_eq_some_iff.1 hn.2
        have := integerBody_length hm
        simp only [List.length_cons]
        omega
      · simp [hexLiteral, integerBody_newline (p := isHexDigit) rfl]
    · constructor <;> simp [hexLiteral, h]

theorem within_binaryLiteral (cs : List Char) : Within binaryLiteral cs := by
  rcases cs with _ | ⟨c, _ | ⟨x, cs⟩⟩
  · constructor <;> simp [binaryLiteral]
  · by_cases h : c = '0' <;> constructor <;> simp [binaryLiteral, h]
  · by_cases h : c = '0'
    · subst h
      constructor
      · intro n hn
        simp only [binaryLiteral, Option.ite_none_right_eq_some] at hn
        obtain ⟨m, hm, rfl⟩ := Option.map_eq_some_iff.1 hn.2
        have := integerBody_length hm
        simp only [List.length_cons]
        omega
      · simp [binaryLiteral, integerBody_newline (p := isBinaryDigit) rfl]
    · constructor <;> simp [binaryLiteral, h]

theorem within_octalLiteral (cs : List Char) : Within octalLiteral cs := by
  rcases cs with _ | ⟨c, cs⟩
  · constructor <;> simp [octalLiteral]
  · by_cases h : c = '0'
    · subst h
      constructor
      · intro n hn
        obtain ⟨m, hm, rfl⟩ := Option.map_eq_some_iff.1 hn
        have := integerBody_length hm
        simp only [List.length_cons]
        omega
      · simp [octalLiteral, integerBody_newline (p := isOctalDigit) rfl]
    · constructor <;> simp [octalLiteral, h]

theorem within_decimalLiteral (cs : List Char) : Within decimalLiteral cs :=
  ⟨integerBody_length, integerBody_newline rfl cs⟩

theorem signLength_le (cs : List Char) : signLength cs ≤ cs.length := by
  cases cs with
  | nil => exact le_refl _
  | cons c cs =>
    simp only [signLength, List.length_cons]
    split <;> omega

theorem signLength_newline (cs ds : List Char) : signLength (cs ++ '\n' :: ds) = signLength cs := by
  cases cs <;> rfl

theorem exponent_le (h : exponent cs = some n) : n ≤ cs.length := by
  cases cs with
  | nil => cases h
  | cons c cs =>
    simp only [exponent, Option.ite_none_right_eq_some] at h
    obtain ⟨m, hm, rfl⟩ := Option.map_eq_some_iff.1 h.2
    have hle := (someRun_length hm).2
    have hsign := signLength_le cs
    simp only [List.length_drop] at hle
    simp only [List.length_cons]
    omega

theorem exponent_newline (cs ds : List Char) : exponent (cs ++ '\n' :: ds) = exponent cs := by
  cases cs with
  | nil => rfl
  | cons c cs =>
    rw [List.cons_append, exponent, signLength_newline, drop_newline (signLength_le cs), someRun_newline rfl, exponent]

theorem floatSuffix_newline (cs ds : List Char) : floatSuffix (cs ++ '\n' :: ds) = floatSuffix cs := by
  cases cs <;> rfl

theorem floatSuffix_le (cs : List Char) : floatSuffix cs ≤ cs.length := by
  cases cs with
  | nil => exact le_refl _
  | cons c cs =>
    simp only [floatSuffix, List.length_cons]
    split <;> omega

/-- What stands behind the exponent, if there is one, is still in the text. -/
theorem exponent_getD_le (h : n ≤ cs.length) : n + (exponent (cs.drop n)).getD 0 ≤ cs.length := by
  cases he : exponent (cs.drop n) with
  | none => simpa using h
  | some m =>
    have hle := exponent_le he
    simp only [List.length_drop] at hle
    simp only [Option.getD_some]
    omega

theorem floatTail_length (h : n ≤ cs.length) : n ≤ floatTail cs n ∧ floatTail cs n ≤ cs.length := by
  have hle := exponent_getD_le h
  have hsuffix := floatSuffix_le (cs.drop (n + (exponent (cs.drop n)).getD 0))
  simp only [List.length_drop] at hsuffix
  simp only [floatTail]
  omega

theorem floatTail_newline (h : n ≤ cs.length) (ds : List Char) : floatTail (cs ++ '\n' :: ds) n = floatTail cs n := by
  simp only [floatTail]
  rw [drop_newline h, exponent_newline, drop_newline (exponent_getD_le h), floatSuffix_newline]

theorem within_pointLiteral (cs : List Char) : Within pointLiteral cs := by
  have hpoint : ∀ {m rest}, m ≤ cs.length → cs.drop m = '.' :: rest →
      m + 1 + run isDecimalDigit rest ≤ cs.length := by
    intro m rest hm hrest
    have hlen := congrArg List.length hrest
    have hle := run_le isDecimalDigit rest
    simp only [List.length_drop, List.length_cons] at hlen
    omega
  constructor
  · intro n h
    obtain ⟨m, hm, h⟩ := Option.bind_eq_some_iff.1 h
    split at h
    · next rest hrest =>
      cases h
      have hlength := floatTail_length (hpoint (someRun_length hm).2 hrest)
      omega
    · cases h
  · intro ds
    rw [pointLiteral, someRun_newline rfl, pointLiteral]
    cases hm : someRun isDecimalDigit cs with
    | none => rfl
    | some m =>
      have hle := (someRun_length hm).2
      simp only [Option.bind_some]
      rw [drop_newline hle]
      cases hrest : cs.drop m with
      | nil => rfl
      | cons c rest =>
        by_cases hc : c = '.'
        · subst hc
          simp only [List.cons_append]
          rw [run_newline rfl, floatTail_newline (hpoint hle hrest)]
        · simp [hc]

theorem within_fractionLiteral (cs : List Char) : Within fractionLiteral cs := by
  rcases cs with _ | ⟨c, cs⟩
  · constructor <;> simp [fractionLiteral]
  · by_cases h : c = '.'
    · subst h
      have hle : ∀ {m}, someRun isDecimalDigit cs = some m → m + 1 ≤ ('.' :: cs).length := by
        intro m hm
        have := someRun_length hm
        simp only [List.length_cons]
        omega
      constructor
      · intro n hn
        obtain ⟨m, hm, rfl⟩ := Option.map_eq_some_iff.1 hn
        have hlength := floatTail_length (hle hm)
        omega
      · intro ds
        rw [List.cons_append, fractionLiteral, someRun_newline rfl, fractionLiteral]
        refine Option.map_congr fun m hm => ?_
        exact floatTail_newline (hle hm) ds
    · constructor <;> simp [fractionLiteral, h]

theorem within_exponentLiteral (cs : List Char) : Within exponentLiteral cs := by
  have hboth : ∀ {m e}, someRun isDecimalDigit cs = some m → exponent (cs.drop m) = some e →
      m + e ≤ cs.length := by
    intro m e hm he
    have hle := (someRun_length hm).2
    have hle' := exponent_le he
    simp only [List.length_drop] at hle'
    omega
  constructor
  · intro n h
    obtain ⟨m, hm, h⟩ := Option.bind_eq_some_iff.1 h
    obtain ⟨e, he, rfl⟩ := Option.map_eq_some_iff.1 h
    have hpos := (someRun_length hm).1
    have hle := hboth hm he
    have hsuffix := floatSuffix_le (cs.drop (m + e))
    simp only [List.length_drop] at hsuffix
    omega
  · intro ds
    rw [exponentLiteral, someRun_newline rfl, exponentLiteral]
    refine Option.bind_congr fun m hm => ?_
    rw [drop_newline (someRun_length hm).2, exponent_newline]
    refine Option.map_congr fun e he => ?_
    rw [drop_newline (hboth hm he), floatSuffix_newline]

/-! ### Quotes -/

/-- What follows the closing quote does not matter. -/
theorem quoteUnits_append {q : Char} (hq : q ≠ '\\') (h : cs.drop (quoteUnits q cs) = q :: rest) (ds : List Char) :
    quoteUnits q (cs ++ ds) = quoteUnits q cs := by
  fun_induction quoteUnits q cs with
  | case1 c cs hc => simp [quoteUnits, hc]
  | case2 c cs hc ih =>
    rw [List.cons_append, List.cons_append, quoteUnits, if_neg hc, ih]
    rwa [Nat.add_comm, List.drop_succ_cons, List.drop_succ_cons] at h
  | case3 c cs hopen hc =>
    obtain ⟨rfl, rfl⟩ : c = q ∧ cs = rest := by simpa using h
    rw [List.cons_append, quoteUnits]
    · simp
    · exact fun _ _ h => absurd h hq
  | case4 c cs hopen hc ih =>
    rw [List.cons_append, quoteUnits, if_neg hc, ih]
    · rwa [Nat.add_comm, List.drop_succ_cons] at h
    · rintro _ _ rfl
      simp at hc
  | case5 => simp at h

theorem within_quoteLiteral {q : Char} (hq : q = '\'' ∨ q = '"') (h : Lexeme.unclosed cs = none) :
    Within (quoteLiteral q) cs := by
  have hbackslash : q ≠ '\\' := by rcases hq with rfl | rfl <;> decide
  have hslash : q ≠ '/' := by rcases hq with rfl | rfl <;> decide
  have hline : q ≠ '\n' := by rcases hq with rfl | rfl <;> decide
  rcases cs with _ | ⟨c, cs⟩
  · constructor <;> simp [quoteLiteral, Ne.symm hline]
  · by_cases hc : c = q
    · subst hc
      have hclosed : quoteLiteral c (c :: cs) ≠ none := by
        intro hnone
        unfold Lexeme.unclosed at h
        split at h
        · next heq => exact hslash (List.cons.inj heq).1
        · next c' rest _ heq =>
          obtain ⟨rfl, rfl⟩ := List.cons.inj heq
          simp [hq, hnone] at h
        · next heq => cases heq
      obtain ⟨rest, hrest⟩ : ∃ rest, cs.drop (quoteUnits c cs) = c :: rest := by
        simp only [quoteLiteral, beq_self_eq_true, if_true] at hclosed
        split at hclosed
        · next d rest hd =>
          split_ifs at hclosed with hdc
          · exact ⟨rest, by rw [hd, beq_iff_eq.1 hdc]⟩
          · exact absurd rfl hclosed
        · exact absurd rfl hclosed
      have hlt : quoteUnits c cs < cs.length := by
        have hlen := congrArg List.length hrest
        simp only [List.length_drop, List.length_cons] at hlen
        omega
      constructor
      · simp only [quoteLiteral, hrest, beq_self_eq_true, if_true, Option.some.injEq, List.length_cons]
        omega
      · intro ds
        rw [List.cons_append]
        simp only [quoteLiteral, quoteUnits_append hbackslash hrest, drop_newline hlt.le, hrest, List.cons_append]
    · constructor <;> simp [quoteLiteral, hc]

/-! ## Rules in front of a line break -/

/-- What a text starts with that does not start with a blank and is closed. -/
theorem within_munch {r : Rule} (hr : r ∈ Rule.table) (hspace : isSpace c = false)
    (hclosed : Lexeme.unclosed (c :: cs) = none) : Within r.munch (c :: cs) := by
  rw [Rule.mem_table] at hr
  rcases hr with hr | rfl | hr | hr | ⟨p, -, rfl⟩
  · simp only [Rule.skipRules, List.mem_cons, List.not_mem_nil, or_false] at hr
    rcases hr with rfl | rfl | rfl | rfl
    · constructor <;> simp [Rule.skip, someRun_eq_none hspace]
    · exact within_lineComment _
    · exact within_blockComment hclosed
    · exact within_directive _
  · exact within_word _
  · simp only [Rule.numberRules, List.mem_cons, List.not_mem_nil, or_false] at hr
    rcases hr with rfl | rfl | rfl | rfl | rfl | rfl | rfl
    · exact within_hexLiteral _
    · exact within_binaryLiteral _
    · exact within_octalLiteral _
    · exact within_decimalLiteral _
    · exact within_pointLiteral _
    · exact within_fractionLiteral _
    · exact within_exponentLiteral _
  · simp only [Rule.quoteRules, List.mem_cons, List.not_mem_nil, or_false] at hr
    rcases hr with rfl | rfl
    · exact within_quoteLiteral (.inl rfl) hclosed
    · exact within_quoteLiteral (.inr rfl) hclosed
  · exact within_fixedText (by cases p <;> decide) (by cases p <;> decide) _

end Cognate
