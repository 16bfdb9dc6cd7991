import Cognate.Proofs.Token.Concat
import Cognate.Proofs.Token.Languages

/-!
# The token table as a reference

What a text is read as, said by the languages of the token table alone: at each place the longest word of any pattern
(`Wins`), or one of the three strays (`Head`), and from there on in the same way (`Items`). The reference says of every
text what it holds, and says one thing (`items_iff`); taking items one by one gives just these (`calls_eq_reference`).
-/

namespace Cognate

open Computability

/-! ## Patterns -/

/-- The patterns of the token table. -/
inductive Pattern where
  | spaces | lineComment | blockComment | directive
  | keyword (k : Keyword) | identifier
  | hex | binary | octal | decimal | point | fraction | exponent
  | character | string
  | mark (p : Punct)
deriving DecidableEq

namespace Pattern

/-- The words a pattern matches. -/
def language : Pattern → Language Char
  | spaces => someOf isSpace
  | lineComment => toLineEnd "//"
  | blockComment => commentText
  | directive => toLineEnd "#"
  | keyword k => {w | (String.ofList w, k) ∈ Keyword.spellings}
  | identifier => oneOf isWordStart * (oneOf isWordRest)∗
  | hex => markedDigits (fun c => c == 'x' || c == 'X') isHexDigit
  | binary => markedDigits (fun c => c == 'b' || c == 'B') isBinaryDigit
  | octal => oneOf (· == '0') * digitsAndSuffix isOctalDigit
  | decimal => digitsAndSuffix isDecimalDigit
  | point => pointNumber
  | fraction => fractionNumber
  | exponent => exponentNumber
  | character => quoted '\''
  | string => quoted '"'
  | mark p => fixed p.spelling

/-- What a match stands for; blanks, comments and directives are skipped. -/
def token (w : List Char) : Pattern → Option Token
  | spaces | lineComment | blockComment | directive => none
  | keyword k => some (.keyword k)
  | identifier => some (.name (String.ofList w))
  | hex => some (.literal .hex (String.ofList w))
  | binary => some (.literal .binary (String.ofList w))
  | octal => some (.literal .octal (String.ofList w))
  | decimal => some (.literal .decimal (String.ofList w))
  | point | fraction | exponent => some (.literal .float (String.ofList w))
  | character => some (.literal .char (String.ofList w))
  | string => some (.literal .string (String.ofList w))
  | mark p => some (.punct p)

/-- Wins where both match equally much. -/
def Beats : Pattern → Pattern → Prop
  | keyword _, identifier => True
  | octal, decimal => True
  | _, _ => False

/-- Matches at the head of a text, nothing matches more, and it wins against whatever matches as much. -/
structure Wins (p : Pattern) (cs w : List Char) : Prop where
  matched : w ∈ p.language
  stands : w <+: cs
  longest : ∀ (q : Pattern) v, v ∈ q.language → v <+: cs → v.length ≤ w.length
  tie : ∀ q : Pattern, w ∈ q.language → q = p ∨ p.Beats q

end Pattern

/-! ## The reference -/

namespace Reference

/-- A comment begins that is never closed. -/
def OpenComment (cs : List Char) : Prop := "/*".toList <+: cs ∧ ∀ w ∈ commentText, ¬w <+: cs

/-- No pattern matches at the head of the text. -/
def Unmatched (cs : List Char) : Prop := ∀ (p : Pattern), ∀ w ∈ p.language, ¬w <+: cs

def IsQuote (c : Char) : Prop := c = '\'' ∨ c = '"'

/-- What the head of a text is read as. -/
inductive Head : List Char → Lexeme → Prop where
  | openComment {cs : List Char} (h : OpenComment cs) : Head cs (.stray cs.length)
  | skipped {cs w : List Char} {p : Pattern} (hclosed : ¬OpenComment cs) (h : p.Wins cs w) (ht : p.token w = none) :
    Head cs (.skipped w.length)
  | token {cs w : List Char} {p : Pattern} {t : Token} (hclosed : ¬OpenComment cs) (h : p.Wins cs w)
    (ht : p.token w = some t) : Head cs (.token w.length t)
  | openQuote {quote : Char} {rest w : List Char} (h : Unmatched (quote :: rest)) (hquote : IsQuote quote)
    (hw : w ∈ (unit quote)∗) (hstands : w <+: rest) (hlongest : ∀ v ∈ (unit quote)∗, v <+: rest → v.length ≤ w.length) :
    Head (quote :: rest) (.stray (1 + w.length))
  | lone {c : Char} {rest : List Char} (h : Unmatched (c :: rest)) (hquote : ¬IsQuote c) : Head (c :: rest) (.stray 1)

/-- The items of a text that stands at byte `pos`, up to and including its end. -/
inductive Items : Nat → List Char → List (Except Fault Lexed) → Prop where
  | finish (pos : Nat) : Items pos [] [.ok (finishAt pos)]
  | skipped {pos n : Nat} {cs : List Char} {items : List (Except Fault Lexed)} (h : Head cs (.skipped n))
    (hrest : Items (pos + byteLength (cs.take n)) (cs.drop n) items) : Items pos cs items
  | token {pos n : Nat} {cs : List Char} {items : List (Except Fault Lexed)} {t : Token} (h : Head cs (.token n t))
    (hrest : Items (pos + byteLength (cs.take n)) (cs.drop n) items) :
    Items pos cs (.ok ⟨t, ⟨pos, pos + byteLength (cs.take n)⟩⟩ :: items)
  | stray {pos n : Nat} {cs : List Char} {items : List (Except Fault Lexed)} (h : Head cs (.stray n))
    (hrest : Items (pos + byteLength (cs.take n)) (cs.drop n) items) :
    Items pos cs (.error ⟨.strayText (String.ofList (cs.take n)), ⟨pos, pos + byteLength (cs.take n)⟩⟩ :: items)

end Reference

/-! ## What a word can be -/

variable {p q : Pattern} {l l' : Lexeme} {c quote : Char} {v w cs rest : List Char} {k : Keyword} {n : Nat}

namespace Pattern

/-- Keywords are words and octal digits are digits; no other two patterns have a word in common. -/
def family : Pattern → Pattern
  | keyword _ => identifier
  | octal => decimal
  | p => p

/-- The kind of number, by what stands behind the digits. -/
def numberFamily : Option Char → Pattern
  | none => decimal
  | some c =>
    if c == 'x' || c == 'X' then hex
    else if c == 'b' || c == 'B' then binary
    else if c == '.' then point
    else if isExponentMark c then exponent
    else decimal

/-- The kind of word, by its first characters. -/
def familyOf : List Char → Option Pattern
  | [] => none
  | c :: cs =>
    if isSpace c then some spaces
    else if isWordStart c then some identifier
    else if isDecimalDigit c then some (numberFamily (cs.dropWhile isDecimalDigit).head?)
    else if c == '\'' then some character
    else if c == '"' then some string
    else if c == '#' then some directive
    else if c == '.' && cs.head?.any isDecimalDigit then some fraction
    else if c == '/' && cs.head? == some '/' then some lineComment
    else if c == '/' && cs.head? == some '*' then some blockComment
    else (Punct.all.find? fun p => p.spelling.toList == c :: cs).map mark

theorem familyOf_word (h : isWordStart c = true) (cs : List Char) : familyOf (c :: cs) = some identifier := by
  have hspace : isSpace c = false := Lexeme.isSpace_of_isWordRest (by simp [isWordRest, h])
  simp [familyOf, hspace, h]

theorem familyOf_digit (h : isDecimalDigit c = true) (cs : List Char) :
    familyOf (c :: cs) = some (numberFamily (cs.dropWhile isDecimalDigit).head?) := by
  have hspace : isSpace c = false := Lexeme.isSpace_of_isWordRest (by simp [isWordRest, h])
  have hstart : isWordStart c = false := by
    by_contra hstart
    rw [Lexeme.isDecimalDigit_of_isWordStart (by simpa using hstart)] at h
    cases h
  simp [familyOf, hspace, hstart, h]

/-- Digits and something else behind them. -/
theorem familyOf_digits (hw : w ∈ someOf isDecimalDigit) (hv : ∀ c ∈ v.head?, isDecimalDigit c = false) :
    familyOf (w ++ v) = some (numberFamily v.head?) := by
  obtain ⟨hne, hall⟩ := mem_someOf.1 hw
  obtain ⟨c, w, rfl⟩ := List.exists_cons_of_ne_nil hne
  rw [List.all_cons, Bool.and_eq_true] at hall
  have hdrop : v.dropWhile isDecimalDigit = v := by
    cases v with
    | nil => rfl
    | cons d v => rw [List.dropWhile_cons_of_neg (by simp [hv d rfl])]
  rw [List.cons_append, familyOf_digit hall.1, List.dropWhile_append_of_pos (List.all_eq_true.1 hall.2), hdrop]

theorem familyOf_digitsAndSuffix (hw : w ∈ digitsAndSuffix isDecimalDigit) : familyOf w = some decimal := by
  obtain ⟨u, hu, v, hv, rfl⟩ := Language.mem_mul.1 hw
  have hsuffix : ∀ c ∈ v.head?, isIntegerSuffix c = true := BeginsIn.run v hv
  rw [familyOf_digits hu]
  · cases v with
    | nil => rfl
    | cons c v => rcases isIntegerSuffix_cases (hsuffix c rfl) with rfl | rfl | rfl | rfl <;> rfl
  · intro c hc
    rcases isIntegerSuffix_cases (hsuffix c hc) with rfl | rfl | rfl | rfl <;> rfl

theorem isDecimalDigit_of_isOctalDigit (h : isOctalDigit c = true) : isDecimalDigit c = true := by
  simp only [isOctalDigit, isDecimalDigit, Bool.and_eq_true, decide_eq_true_eq] at h ⊢
  exact ⟨h.1, Char.le_trans h.2 (by decide)⟩

theorem someOf_mono {a b : Char → Bool} (h : ∀ c, a c = true → b c = true) (hw : w ∈ someOf a) : w ∈ someOf b := by
  obtain ⟨hne, hall⟩ := mem_someOf.1 hw
  exact mem_someOf.2 ⟨hne, List.all_eq_true.2 fun c hc => h c (List.all_eq_true.1 hall c hc)⟩

/-- Octal literals are decimal ones, too. -/
theorem decimal_of_octal (hw : w ∈ octal.language) : w ∈ decimal.language := by
  obtain ⟨c, v, rfl, hc, hv⟩ := mem_oneOf_mul.1 hw
  obtain ⟨u, hu, s, hs, rfl⟩ := Language.mem_mul.1 hv
  obtain rfl := beq_iff_eq.1 hc
  have hu := mem_someOf.1 (someOf_mono (fun _ => isDecimalDigit_of_isOctalDigit) hu)
  exact Language.append_mem_mul (a := '0' :: u) (mem_someOf.2 ⟨by simp, by simpa [isDecimalDigit] using hu.2⟩) hs

theorem familyOf_keyword (h : w ∈ (keyword k).language) : familyOf w = some identifier := by
  have hall : ∀ s ∈ Keyword.spellings, familyOf s.1.toList = some identifier := by decide +kernel
  simpa using hall _ h

theorem familyOf_markedDigits {letter digit : Char → Bool} {a b : Char} (hletter : ∀ c, letter c = true → c = a ∨ c = b)
    (ha : isDecimalDigit a = false) (hb : isDecimalDigit b = false) (hfamily : numberFamily (some a) = p)
    (hfamily' : numberFamily (some b) = p) (hw : w ∈ markedDigits letter digit) : familyOf w = some p := by
  obtain ⟨z, v, rfl, hz, hv⟩ := mem_oneOf_mul.1 hw
  obtain ⟨c, v, rfl, hc, -⟩ := mem_oneOf_mul.1 hv
  obtain rfl := beq_iff_eq.1 hz
  have hdigit : isDecimalDigit c = false := by rcases hletter c hc with rfl | rfl <;> assumption
  rw [familyOf_digit rfl, List.dropWhile_cons_of_neg (by simp [hdigit]), List.head?_cons]
  rcases hletter c hc with rfl | rfl
  · rw [hfamily]
  · rw [hfamily']

theorem familyOf_quoted (hquote : Reference.IsQuote quote) (hw : w ∈ quoted quote) :
    familyOf w = some (if quote = '\'' then character else string) := by
  obtain ⟨c, v, rfl, hc, -⟩ := mem_oneOf_mul.1 hw
  obtain rfl := beq_iff_eq.1 hc
  rcases hquote with rfl | rfl <;> rfl

theorem familyOf_mark (p : Punct) : familyOf p.spelling.toList = some (mark p) := by
  cases p <;> decide

/-- The first characters of a word tell what it can be. -/
theorem familyOf_mem (h : w ∈ p.language) : familyOf w = some p.family := by
  cases p with
  | spaces =>
    obtain ⟨c, v, rfl, hc, -⟩ := mem_oneOf_mul.1 h
    simp [familyOf, hc, family]
  | lineComment =>
    obtain ⟨_, rfl, v, -, rfl⟩ := Language.mem_mul.1 h
    rfl
  | blockComment =>
    obtain ⟨_, rfl, v, -, rfl⟩ := Language.mem_mul.1 h
    rfl
  | directive =>
    obtain ⟨_, rfl, v, -, rfl⟩ := Language.mem_mul.1 h
    rfl
  | keyword k => exact familyOf_keyword h
  | identifier =>
    obtain ⟨c, v, rfl, hc, -⟩ := mem_oneOf_mul.1 h
    exact familyOf_word hc v
  | hex => exact familyOf_markedDigits (fun c hc => by simpa using hc) rfl rfl rfl rfl h
  | binary => exact familyOf_markedDigits (fun c hc => by simpa using hc) rfl rfl rfl rfl h
  | octal => exact familyOf_digitsAndSuffix (decimal_of_octal h)
  | decimal => exact familyOf_digitsAndSuffix h
  | point =>
    obtain ⟨u, hu, v, hv, rfl⟩ := Language.mem_mul.1 h
    obtain ⟨c, v, rfl, hc, -⟩ := mem_oneOf_mul.1 hv
    obtain rfl := beq_iff_eq.1 hc
    rw [familyOf_digits hu fun c hc => by cases hc; rfl]
    rfl
  | fraction =>
    obtain ⟨c, v, rfl, hc, hv⟩ := mem_oneOf_mul.1 h
    obtain ⟨u, hu, s, -, rfl⟩ := Language.mem_mul.1 hv
    obtain ⟨d, u, rfl, hd, -⟩ := mem_oneOf_mul.1 hu
    obtain rfl := beq_iff_eq.1 hc
    simp [familyOf, isSpace, isWordStart, isDecimalDigit, family] at hd ⊢
    exact hd
  | exponent =>
    obtain ⟨u, hu, v, hv, rfl⟩ := Language.mem_mul.1 h
    obtain ⟨e, he, s, -, rfl⟩ := Language.mem_mul.1 hv
    obtain ⟨c, e, rfl, hc, -⟩ := mem_oneOf_mul.1 he
    rw [familyOf_digits hu fun d hd => by cases hd; exact isDecimalDigit_of_letter (by simp [hc])]
    rcases isExponentMark_cases hc with rfl | rfl <;> rfl
  | character => exact familyOf_quoted (.inl rfl) h
  | string => exact familyOf_quoted (.inr rfl) h
  | mark p => exact familyOf_mark p ▸ congrArg familyOf h

theorem nil_not_mem_language : [] ∉ p.language := by
  intro h
  cases familyOf_mem h

theorem length_pos (h : w ∈ p.language) : 0 < w.length :=
  List.length_pos_of_ne_nil fun hw => nil_not_mem_language (hw ▸ h)

/-- A keyword has its spellings for itself. -/
theorem ofSpelling_of_keyword (h : w ∈ (keyword k).language) : Keyword.ofSpelling? (String.ofList w) = some k := by
  have hall : ∀ s ∈ Keyword.spellings, Keyword.ofSpelling? s.1 = some s.2 := by decide +kernel
  exact hall _ h

theorem identifier_of_keyword (h : w ∈ (keyword k).language) : w ∈ identifier.language := by
  have hall : ∀ s ∈ Keyword.spellings, word s.1.toList = some s.1.toList.length := by decide +kernel
  have hword := hall _ h
  rw [String.toList_ofList] at hword
  exact w.take_length ▸ (greedy_word.matched hword).2

theorem mem_of_ofSpelling (h : Keyword.ofSpelling? (String.ofList w) = some k) : w ∈ (keyword k).language := by
  obtain ⟨front, back, he, -⟩ := List.lookup_eq_some_iff.1 h
  change (String.ofList w, k) ∈ Keyword.spellings
  rw [he]
  simp

/-- Two patterns that match the same word are the same, or words, or integers. -/
theorem eq_or_beats (hp : w ∈ p.language) (hq : w ∈ q.language) (hkeyword : p ≠ identifier) (hoctal : p ≠ decimal) :
    q = p ∨ p.Beats q := by
  have hfamily : p.family = q.family := Option.some.inj ((familyOf_mem hp).symm.trans (familyOf_mem hq))
  cases p with
  | keyword k =>
    cases q with
    | keyword k' =>
      have hsame := (ofSpelling_of_keyword hq).symm.trans (ofSpelling_of_keyword hp)
      exact .inl (congrArg keyword (Option.some.inj hsame))
    | identifier => exact .inr trivial
    | _ => cases hfamily
  | octal =>
    cases q with
    | octal => exact .inl rfl
    | decimal => exact .inr trivial
    | _ => cases hfamily
  | identifier => exact absurd rfl hkeyword
  | decimal => exact absurd rfl hoctal
  | mark m =>
    cases q with
    | mark m' => exact .inl hfamily.symm
    | _ => cases hfamily
  | _ => cases q <;> first | exact .inl rfl | cases hfamily

/-! ## The rules of the table -/

/-- The rule for a pattern; keywords have the rule for words. -/
def rule : Pattern → Rule
  | spaces => .skip (someRun isSpace)
  | lineComment => .skip Cognate.lineComment
  | blockComment => .skip Cognate.blockComment
  | directive => .skip Cognate.directive
  | keyword _ | identifier => Rule.wordRule
  | hex => .literal .hex hexLiteral
  | binary => .literal .binary binaryLiteral
  | octal => .literal .octal octalLiteral
  | decimal => .literal .decimal decimalLiteral
  | point => .literal .float pointLiteral
  | fraction => .literal .float fractionLiteral
  | exponent => .literal .float exponentLiteral
  | character => .literal .char (quoteLiteral '\'')
  | string => .literal .string (quoteLiteral '"')
  | mark p => .mark p

/-- The patterns that have a rule of their own, in the order of the table. -/
def table : List Pattern :=
  [spaces, lineComment, blockComment, directive, identifier, hex, binary, octal, decimal, point, fraction, exponent,
   character, string] ++ Punct.all.map mark

theorem map_rule_table : table.map rule = Rule.table := rfl

theorem mem_table (p : Pattern) (h : ∀ k, p ≠ keyword k) : p ∈ table := by
  cases p with
  | keyword k => exact absurd rfl (h k)
  | mark m => exact List.mem_append_right _ (List.mem_map_of_mem (by cases m <;> decide))
  | _ => decide

theorem keyword_not_mem_table (k : Keyword) : keyword k ∉ table := by
  simp [table]

/-- Each rule finds the longest word of its pattern. -/
theorem greedy_rule (h : ∀ k, p ≠ keyword k) : Greedy p.language p.rule.munch := by
  cases p with
  | spaces => exact Greedy.someRun
  | lineComment => exact greedy_lineComment
  | blockComment => exact greedy_blockComment
  | directive => exact greedy_directive
  | keyword k => exact absurd rfl (h k)
  | identifier => exact greedy_word
  | hex => exact greedy_hexLiteral
  | binary => exact greedy_binaryLiteral
  | octal => exact greedy_octalLiteral
  | decimal => exact greedy_decimalLiteral
  | point => exact greedy_pointLiteral
  | fraction => exact greedy_fractionLiteral
  | exponent => exact greedy_exponentLiteral
  | character => exact greedy_quoteLiteral (by decide)
  | string => exact greedy_quoteLiteral (by decide)
  | mark p => exact greedy_fixed p.spelling

/-- A pattern of the table matches whatever a pattern matches. -/
theorem exists_mem_table (h : w ∈ p.language) : ∃ q ∈ table, w ∈ q.language := by
  by_cases hp : ∃ k, p = keyword k
  · obtain ⟨k, rfl⟩ := hp
    exact ⟨identifier, by decide, identifier_of_keyword h⟩
  · exact ⟨p, mem_table p fun k hk => hp ⟨k, hk⟩, h⟩

theorem munch_of_mem (hp : p ∈ table) (hw : w ∈ p.language) (hstands : w <+: cs) :
    ∃ n, p.rule.munch cs = some n ∧ w.length ≤ n := by
  refine (greedy_rule ?_).longest hw hstands
  rintro k rfl
  exact keyword_not_mem_table k hp

theorem mem_of_munch (hp : p ∈ table) (h : p.rule.munch cs = some n) : n ≤ cs.length ∧ cs.take n ∈ p.language := by
  refine (greedy_rule ?_).matched h
  rintro k rfl
  exact keyword_not_mem_table k hp

end Pattern

theorem Rule.longest_eq_none {rules : List Rule} : longest cs rules = none ↔ ∀ r ∈ rules, r.munch cs = none := by
  induction rules with
  | nil => simp [longest]
  | cons r rules ih =>
    rw [longest]
    cases hr : r.munch cs with
    | none => simp [hr, ih]
    | some n =>
      cases longest cs rules with
      | none => simp [hr]
      | some best =>
        simp only [List.forall_mem_cons, hr, reduceCtorEq, false_and, iff_false]
        split_ifs <;> simp

namespace Pattern

/-- The pattern's rule matches `n` characters, none of the list matches more, and none in front of it as much. -/
structure Chosen (cs : List Char) (ps : List Pattern) (n : Nat) (p : Pattern) : Prop where
  mem : p ∈ ps
  munch : p.rule.munch cs = some n
  most : ∀ q ∈ ps, ∀ m, q.rule.munch cs = some m → m < n ∨ m = n ∧ ps.idxOf p ≤ ps.idxOf q

theorem Chosen.head {ps : List Pattern} (hp : p.rule.munch cs = some n)
    (hall : ∀ q ∈ ps, ∀ m, q.rule.munch cs = some m → m ≤ n) : Chosen cs (p :: ps) n p where
  mem := List.mem_cons_self
  munch := hp
  most := by
    intro q hq m hm
    have hle : m ≤ n := by
      rcases List.mem_cons.1 hq with rfl | hq
      · exact (Option.some.inj (hm.symm.trans hp)).le
      · exact hall q hq m hm
    rcases hle.lt_or_eq with hlt | he
    · exact .inl hlt
    · exact .inr ⟨he, by simp⟩

theorem Chosen.behind {ps : List Pattern} (h : Chosen cs ps n p) (hq : ∀ m, q.rule.munch cs = some m → m < n) :
    Chosen cs (q :: ps) n p where
  mem := List.mem_cons_of_mem q h.mem
  munch := h.munch
  most := by
    have hpq : q ≠ p := by
      rintro rfl
      exact absurd (hq n h.munch) (lt_irrefl n)
    intro r hr m hm
    by_cases hrq : q = r
    · subst hrq
      exact .inl (hq m hm)
    · refine (h.most r ((List.mem_cons.1 hr).resolve_left (Ne.symm hrq)) m hm).imp_right fun ⟨he, hle⟩ => ⟨he, ?_⟩
      rw [List.idxOf_cons_ne _ hpq, List.idxOf_cons_ne _ hrq]
      exact Nat.succ_le_succ hle

end Pattern

/-- The longest match is the chosen one. -/
theorem Rule.longest_map {ps : List Pattern} {r : Rule} (h : longest cs (ps.map Pattern.rule) = some (n, r)) :
    ∃ p : Pattern, p.Chosen cs ps n ∧ p.rule = r := by
  induction ps generalizing n r with
  | nil => cases h
  | cons q ps ih =>
    rw [List.map_cons, longest] at h
    split at h
    · next m k s hm hbest =>
      obtain ⟨p, hp, hrule⟩ := ih hbest
      split_ifs at h with hle
      · cases h
        refine ⟨q, .head hm fun a ha j hj => ?_, rfl⟩
        have := hp.most a ha j hj
        omega
      · cases h
        refine ⟨p, hp.behind fun j hj => ?_, hrule⟩
        obtain rfl := Option.some.inj (hj.symm.trans hm)
        exact Nat.lt_of_not_le hle
    · next m hm hnone =>
      cases h
      refine ⟨q, .head hm fun a ha j hj => ?_, rfl⟩
      cases (longest_eq_none.1 hnone _ (List.mem_map_of_mem ha)).symm.trans hj
    · next hm =>
      obtain ⟨p, hp, hrule⟩ := ih h
      exact ⟨p, hp.behind (fun j hj => by cases hm.symm.trans hj), hrule⟩

/-! ## The head of a text -/

namespace Pattern

/-- What wins is settled: the word is the longest one, and no two patterns beat each other. -/
theorem Wins.unique (h : p.Wins cs w) (h' : q.Wins cs v) : p = q ∧ w = v := by
  have hlength : w.length = v.length :=
    le_antisymm (h'.longest p w h.matched h.stands) (h.longest q v h'.matched h'.stands)
  obtain rfl : w = v := by
    rw [List.prefix_iff_eq_take.1 h.stands, List.prefix_iff_eq_take.1 h'.stands, hlength]
  refine ⟨?_, rfl⟩
  rcases h.tie q h'.matched with rfl | hbeats
  · rfl
  · rcases h'.tie p h.matched with rfl | hbeats'
    · rfl
    · cases p <;> cases q <;> simp [Beats] at hbeats hbeats'

namespace Chosen

theorem matched (h : p.Chosen cs table n) : n ≤ cs.length ∧ cs.take n ∈ p.language := mem_of_munch h.mem h.munch

/-- No pattern matches more than what is chosen from the table. -/
theorem longest (h : p.Chosen cs table n) (q : Pattern) (v : List Char) (hv : v ∈ q.language) (hstands : v <+: cs) :
    v.length ≤ (cs.take n).length := by
  obtain ⟨q', hq', hv'⟩ := exists_mem_table hv
  obtain ⟨m, hm, hle⟩ := munch_of_mem hq' hv' hstands
  rw [List.length_take_of_le h.matched.1]
  rcases h.most q' hq' m hm with hlt | ⟨rfl, -⟩ <;> omega

theorem wins (h : p.Chosen cs table n) (htie : ∀ q : Pattern, cs.take n ∈ q.language → q = p ∨ p.Beats q) :
    p.Wins cs (cs.take n) :=
  ⟨h.matched.2, List.take_prefix n cs, h.longest, htie⟩

/-- A word that is spelled like a keyword is one. -/
theorem wins_word (h : identifier.Chosen cs table n) :
    ∃ p : Pattern, p.Wins cs (cs.take n) ∧ p.token (cs.take n) = some (Rule.wordToken (cs.take n)) := by
  rw [Rule.wordToken]
  cases hk : Keyword.ofSpelling? (String.ofList (cs.take n)) with
  | some k =>
    have hmatched : cs.take n ∈ (keyword k).language := mem_of_ofSpelling hk
    refine ⟨keyword k, ⟨hmatched, List.take_prefix n cs, h.longest, fun q hq => ?_⟩, rfl⟩
    exact eq_or_beats hmatched hq (by simp) (by simp)
  | none =>
    refine ⟨identifier, h.wins fun q hq => ?_, rfl⟩
    cases q with
    | identifier => exact .inl rfl
    | keyword k => cases (ofSpelling_of_keyword hq).symm.trans hk
    | _ => cases (familyOf_mem h.matched.2).symm.trans (familyOf_mem hq)

/-- An octal literal of the same length would have been chosen before a decimal one. -/
theorem wins_decimal (h : decimal.Chosen cs table n) : decimal.Wins cs (cs.take n) := by
  refine h.wins fun q hq => ?_
  cases q with
  | decimal => exact .inl rfl
  | octal =>
    obtain ⟨m, hm, hle⟩ := munch_of_mem (p := octal) (by decide) hq (List.take_prefix n cs)
    rw [List.length_take_of_le h.matched.1] at hle
    rcases h.most octal (by decide) m hm with hlt | ⟨-, hidx⟩
    · omega
    · exact absurd hidx (by decide)
  | _ => cases (familyOf_mem h.matched.2).symm.trans (familyOf_mem hq)

end Chosen

/-- The rule that matches most tells what wins, and what the match stands for. -/
theorem wins_of_longest {r : Rule} (h : Rule.longest cs Rule.table = some (n, r)) :
    n ≤ cs.length ∧ ∃ p : Pattern, p.Wins cs (cs.take n) ∧ p.token (cs.take n) = r.token (cs.take n) := by
  rw [← map_rule_table] at h
  obtain ⟨p, hp, rfl⟩ := Rule.longest_map h
  refine ⟨hp.matched.1, ?_⟩
  by_cases hword : p = identifier
  · subst hword
    exact hp.wins_word
  by_cases hdecimal : p = decimal
  · subst hdecimal
    exact ⟨decimal, hp.wins_decimal, rfl⟩
  refine ⟨p, hp.wins fun q hq => eq_or_beats hp.matched.2 hq hword hdecimal, ?_⟩
  cases p with
  | keyword k => exact absurd hp.mem (keyword_not_mem_table k)
  | identifier => exact absurd rfl hword
  | _ => rfl

end Pattern

namespace Reference

theorem openComment_iff : OpenComment ('/' :: '*' :: cs) ↔ blockComment ('/' :: '*' :: cs) = none := by
  constructor
  · intro h
    by_contra hne
    obtain ⟨n, hn⟩ := Option.ne_none_iff_exists'.1 hne
    exact h.2 _ (greedy_blockComment.matched hn).2 (List.take_prefix _ _)
  · intro h
    refine ⟨⟨cs, rfl⟩, fun w hw hstands => ?_⟩
    obtain ⟨n, hn, -⟩ := greedy_blockComment.longest hw hstands
    rw [h] at hn
    cases hn

/-- Whoever matches a text that starts with a quote matches a quoted literal. -/
theorem quoted_of_mem (hquote : IsQuote quote) (hw : w ∈ p.language) (hstands : w <+: quote :: rest) :
    w ∈ quoted quote := by
  obtain ⟨v, rfl⟩ : ∃ v, w = quote :: v := by
    cases w with
    | nil => exact absurd hw Pattern.nil_not_mem_language
    | cons c v =>
      obtain ⟨rfl, -⟩ := List.cons_prefix_cons.1 hstands
      exact ⟨v, rfl⟩
  have hfamily := Pattern.familyOf_mem hw
  rcases hquote with rfl | rfl <;> cases p <;> first | exact hw | cases hfamily

theorem unmatched_quote (hquote : IsQuote quote) :
    Unmatched (quote :: rest) ↔ quoteLiteral quote (quote :: rest) = none := by
  have hbackslash : quote ≠ '\\' := by rcases hquote with rfl | rfl <;> decide
  have hgreedy := greedy_quoteLiteral hbackslash
  constructor
  · intro h
    by_contra hne
    obtain ⟨n, hn⟩ := Option.ne_none_iff_exists'.1 hne
    have hmem := (hgreedy.matched hn).2
    rcases hquote with rfl | rfl
    · exact h .character _ hmem (List.take_prefix _ _)
    · exact h .string _ hmem (List.take_prefix _ _)
  · intro h p w hw hstands
    obtain ⟨n, hn, -⟩ := hgreedy.longest (quoted_of_mem hquote hw hstands) hstands
    rw [h] at hn
    cases hn

/-- A stray that is no single character begins as the reference says. -/
theorem head_of_unclosed (h : Lexeme.unclosed cs = some n) : Head cs (.stray n) := by
  unfold Lexeme.unclosed at h
  split at h
  · next rest =>
    rw [Option.ite_none_right_eq_some, Option.isNone_iff_eq_none] at h
    obtain ⟨hnone, hn⟩ := h
    cases hn
    exact .openComment (openComment_iff.2 hnone)
  · next quote rest _ =>
    simp only [Option.ite_none_right_eq_some, Bool.and_eq_true, Bool.or_eq_true, beq_iff_eq,
      Option.isNone_iff_eq_none] at h
    obtain ⟨⟨hquote, hnone⟩, hn⟩ := h
    cases hn
    obtain ⟨hle, hmem⟩ : _ ∧ rest.take (quoteUnits quote rest) ∈ (unit quote)∗ := quoteUnits_mem rest
    have hhead := Head.openQuote ((unmatched_quote hquote).2 hnone) hquote hmem (List.take_prefix _ _)
      fun v hv hstands => by
        rw [List.length_take_of_le hle]
        exact length_le_quoteUnits hv hstands
    rwa [List.length_take_of_le hle] at hhead
  · cases h

theorem not_openComment (h : Lexeme.unclosed cs = none) : ¬OpenComment cs := by
  rintro ⟨⟨rest, rfl⟩, hopen⟩
  have hnone : blockComment ('/' :: '*' :: rest) = none := openComment_iff.1 ⟨⟨rest, rfl⟩, hopen⟩
  change Lexeme.unclosed ('/' :: '*' :: rest) = none at h
  simp [Lexeme.unclosed, hnone] at h

/-- What the lexer reads at the head of a text is what the reference says. -/
theorem head_first (hne : cs ≠ []) : Head cs (Lexeme.first cs) := by
  unfold Lexeme.first
  cases hopen : Lexeme.unclosed cs with
  | some n => exact head_of_unclosed hopen
  | none =>
    have hclosed := not_openComment hopen
    cases hbest : Rule.longest cs Rule.table with
    | none =>
      have hnone := Rule.longest_eq_none.1 hbest
      have hunmatched : Unmatched cs := by
        intro p w hw hstands
        obtain ⟨q, hq, hw'⟩ := Pattern.exists_mem_table hw
        obtain ⟨n, hn, -⟩ := Pattern.munch_of_mem hq hw' hstands
        rw [hnone _ (Pattern.map_rule_table ▸ List.mem_map_of_mem hq)] at hn
        cases hn
      obtain ⟨c, rest, rfl⟩ := List.exists_cons_of_ne_nil hne
      refine .lone hunmatched fun hquote => ?_
      -- A quote that starts nothing is an open one.
      have hnone' := (unmatched_quote hquote).1 hunmatched
      have hslash : ¬(c = '/' ∧ rest.head? = some '*') := by rcases hquote with rfl | rfl <;> simp
      rw [Lexeme.unclosed_cons hslash, hnone'] at hopen
      rcases hquote with rfl | rfl <;> simp at hopen
    | some best =>
      obtain ⟨n, r⟩ := best
      obtain ⟨hle, p, hwins, htoken⟩ := Pattern.wins_of_longest hbest
      have hlength : (cs.take n).length = n := List.length_take_of_le hle
      simp only
      cases ht : r.token (cs.take n) with
      | none => exact hlength ▸ .skipped hclosed hwins (htoken.trans ht)
      | some t => exact hlength ▸ .token hclosed hwins (htoken.trans ht)

theorem Head.pos (h : Head cs l) : cs ≠ [] ∧ 0 < l.length ∧ l.length ≤ cs.length := by
  cases h with
  | openComment h =>
    obtain ⟨⟨rest, rfl⟩, -⟩ := h
    simp [Lexeme.length]
  | skipped _ h =>
    have hpos := Pattern.length_pos h.matched
    have hle := h.stands.length_le
    exact ⟨List.ne_nil_of_length_pos (hpos.trans_le hle), hpos, hle⟩
  | token _ h =>
    have hpos := Pattern.length_pos h.matched
    have hle := h.stands.length_le
    exact ⟨List.ne_nil_of_length_pos (hpos.trans_le hle), hpos, hle⟩
  | openQuote _ _ _ hstands =>
    have hle := hstands.length_le
    simp only [Lexeme.length, List.length_cons]
    exact ⟨by simp, by omega, by omega⟩
  | lone => simp [Lexeme.length]

theorem Unmatched.not_wins (h : Unmatched cs) : ¬p.Wins cs w := fun hwins => h p w hwins.matched hwins.stands

/-- A comment that is never closed begins with a slash, which is a token. -/
theorem Unmatched.not_openComment (h : Unmatched cs) : ¬OpenComment cs :=
  fun hopen => h (.mark .slash) _ rfl (List.IsPrefix.trans ⟨['*'], rfl⟩ hopen.1)

/-- The reference says one thing. -/
theorem Head.unique (h : Head cs l) (h' : Head cs l') : l = l' := by
  cases h with
  | openComment h =>
    cases h' with
    | openComment => rfl
    | skipped hclosed => exact absurd h hclosed
    | token hclosed => exact absurd h hclosed
    | openQuote hnone => exact absurd h hnone.not_openComment
    | lone hnone => exact absurd h hnone.not_openComment
  | skipped hclosed h ht =>
    cases h' with
    | openComment hopen => exact absurd hopen hclosed
    | skipped _ h' ht' => rw [(h.unique h').2]
    | token _ h' ht' =>
      obtain ⟨rfl, rfl⟩ := h.unique h'
      cases ht.symm.trans ht'
    | openQuote hnone => exact absurd h hnone.not_wins
    | lone hnone => exact absurd h hnone.not_wins
  | token hclosed h ht =>
    cases h' with
    | openComment hopen => exact absurd hopen hclosed
    | skipped _ h' ht' =>
      obtain ⟨rfl, rfl⟩ := h.unique h'
      cases ht.symm.trans ht'
    | token _ h' ht' =>
      obtain ⟨rfl, rfl⟩ := h.unique h'
      cases ht.symm.trans ht'
      rfl
    | openQuote hnone => exact absurd h hnone.not_wins
    | lone hnone => exact absurd h hnone.not_wins
  | openQuote hnone hquote hw hstands hlongest =>
    cases h' with
    | openComment hopen => exact absurd hopen hnone.not_openComment
    | skipped _ h' => exact absurd h' hnone.not_wins
    | token _ h' => exact absurd h' hnone.not_wins
    | openQuote _ _ hw' hstands' hlongest' =>
      rw [le_antisymm (hlongest' _ hw hstands) (hlongest _ hw' hstands')]
    | lone _ hquote' => exact absurd hquote hquote'
  | lone hnone hquote =>
    cases h' with
    | openComment hopen => exact absurd hopen hnone.not_openComment
    | skipped _ h' => exact absurd h' hnone.not_wins
    | token _ h' => exact absurd h' hnone.not_wins
    | openQuote _ hquote' => exact absurd hquote' hquote
    | lone => rfl

/-! ## A whole text -/

/-- Every text has its items, and they are those the lexer finds. -/
theorem items_scanAt (pos : Nat) (cs : List Char) :
    Items pos cs (scanAt pos cs ++ [.ok (finishAt (pos + byteLength cs))]) := by
  induction hn : cs.length using Nat.strong_induction_on generalizing pos cs with
  | _ n ih =>
    subst hn
    cases cs with
    | nil =>
      rw [scanAt]
      exact .finish pos
    | cons c rest =>
      have hhead := head_first (List.cons_ne_nil c rest)
      obtain ⟨-, hpos, hle⟩ := hhead.pos
      -- Behind the first lexeme the text is shorter, and ends where the whole text ends.
      have hbehind : ∀ m, 0 < m → m ≤ (c :: rest).length →
          Items (pos + byteLength ((c :: rest).take m)) ((c :: rest).drop m)
            (scanAt (pos + byteLength ((c :: rest).take m)) (rest.drop (m - 1)) ++
              [.ok (finishAt (pos + byteLength (c :: rest)))]) := by
        intro m hm hm'
        obtain ⟨j, rfl⟩ := Nat.exists_eq_succ_of_ne_zero hm.ne'
        have hbytes : pos + byteLength (c :: rest) =
            pos + byteLength ((c :: rest).take (j + 1)) + byteLength (rest.drop j) := by
          rw [Nat.add_assoc, ← List.drop_succ_cons (a := c), ← byteLength_append, List.take_append_drop]
        rw [hbytes]
        exact ih _ (by simp only [List.drop_succ_cons, List.length_drop, List.length_cons]; omega) _ _ rfl
      rw [scanAt_cons]
      cases hfirst : Lexeme.first (c :: rest) with
      | skipped m =>
        rw [hfirst] at hhead hpos hle
        exact .skipped hhead (hbehind m hpos hle)
      | token m t =>
        rw [hfirst] at hhead hpos hle
        exact .token hhead (hbehind m hpos hle)
      | stray m =>
        rw [hfirst] at hhead hpos hle
        exact .stray hhead (hbehind m hpos hle)

theorem Items.unique {pos : Nat} {items items' : List (Except Fault Lexed)} (h : Items pos cs items)
    (h' : Items pos cs items') : items = items' := by
  induction h generalizing items' with
  | finish pos =>
    cases h' with
    | finish => rfl
    | skipped h => exact absurd rfl h.pos.1
    | token h => exact absurd rfl h.pos.1
    | stray h => exact absurd rfl h.pos.1
  | skipped h _ ih =>
    cases h' with
    | finish => exact absurd rfl h.pos.1
    | skipped h' hrest =>
      obtain rfl := Lexeme.skipped.inj (h.unique h')
      exact ih hrest
    | token h' => cases h.unique h'
    | stray h' => cases h.unique h'
  | token h _ ih =>
    cases h' with
    | finish => exact absurd rfl h.pos.1
    | skipped h' => cases h.unique h'
    | token h' hrest =>
      obtain ⟨rfl, rfl⟩ := Lexeme.token.inj (h.unique h')
      rw [ih hrest]
    | stray h' => cases h.unique h'
  | stray h _ ih =>
    cases h' with
    | finish => exact absurd rfl h.pos.1
    | skipped h' => cases h.unique h'
    | token h' => cases h.unique h'
    | stray h' hrest =>
      obtain rfl := Lexeme.stray.inj (h.unique h')
      rw [ih hrest]

theorem items_iff {source : String} {items : List (Except Fault Lexed)} :
    Items 0 source.toList items ↔ items = scan source ++ [.ok (finishAt source.utf8ByteSize)] := by
  have hitems := items_scanAt 0 source.toList
  rw [Nat.zero_add, byteLength_eq, String.ofList_toList] at hitems
  exact ⟨fun h => h.unique hitems, fun h => h ▸ hitems⟩

end Reference

/-! ## Taking items one by one -/

/-- What the first so many calls of `next` answer. -/
def TokenStream.answers (s : TokenStream) : Nat → List (Except Fault Lexed)
  | 0 => []
  | n + 1 => s.next.1 :: s.next.2.answers n

/-- The items ahead, one by one, and behind them the end, over and over. -/
theorem TokenStream.answers_eq (ahead : List (Except Fault Lexed)) (stop n : Nat) :
    (TokenStream.mk none ahead stop).answers n =
      (ahead ++ [Except.ok (finishAt stop)]).take n ++
        List.replicate (n - (ahead.length + 1)) (.ok (finishAt stop)) := by
  induction n generalizing ahead with
  | zero => simp [answers]
  | succ n ih =>
    cases ahead with
    | nil =>
      rw [answers]
      simp only [next, ih]
      cases n with
      | zero => rfl
      | succ n => simp [List.replicate_succ]
    | cons item ahead =>
      rw [answers]
      simp only [next, ih, List.cons_append, List.take_succ_cons, List.length_cons, Nat.add_sub_add_right]

theorem tokens_eq_mapM (source : String) :
    tokens source = (scan source ++ [Except.ok (finishAt source.utf8ByteSize)]).mapM id := by
  rw [tokens]
  induction scan source with
  | nil => rfl
  | cons item items ih =>
    rw [List.foldr_cons, ih, List.cons_append, List.mapM_cons]
    cases item with
    | error f => rfl
    | ok t => cases (items ++ [Except.ok (finishAt source.utf8ByteSize)]).mapM id <;> rfl

/-- Reading a text gives the items of the reference, and nothing else does: the calls of `next` answer them one by one,
across all strays up to the end, and then the end again; the list of all tokens stops at the first stray. -/
theorem calls_eq_reference (source : String) :
    ∃ items : List (Except Fault Lexed), (∀ items', Reference.Items 0 source.toList items' ↔ items' = items) ∧
      (∃ front, items = front ++ [.ok (finishAt source.utf8ByteSize)] ∧
        ∀ l : Lexed, .ok l ∈ front → l.token ≠ .finish) ∧
      (∀ n, (TokenStream.ofSource source).answers n =
        items.take n ++ List.replicate (n - items.length) (.ok (finishAt source.utf8ByteSize))) ∧
      tokens source = items.mapM id := by
  refine ⟨_, fun _ => Reference.items_iff, ⟨scan source, rfl, fun _ => scanAt_ne_finish⟩, fun n => ?_,
    tokens_eq_mapM source⟩
  rw [List.length_append, List.length_singleton]
  exact TokenStream.answers_eq _ _ n

end Cognate
