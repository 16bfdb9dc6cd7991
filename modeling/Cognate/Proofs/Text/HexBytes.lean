import Cognate.Proofs.Text.Radix
import Cognate.Text.HexBytes
import Mathlib.Data.List.Forall2

/-!
# Bytes as they are typed

A text is cut into words at blanks (`Cut`), and each word loses the radix marks in front of it (`Unmarked`). What is
left of all words is read two characters at a time: two digits of a byte, or a plus and one digit (`Typed`). Where no
plus stands, the digits are the hexadecimal text of the bytes (`typed_iff_text`).
-/

namespace Cognate.Text

variable {a b c : Char} {cs ds mark mid rest w word : List Char} {ws parts : List (List Char)} {bytes : List UInt8}
  {byte : UInt8} {n : Nat} {text : String}

/-! ## Words -/

/-- A text and its words: the longest runs of characters that are not blank. -/
inductive Cut : List Char → List (List Char) → Prop
  | nil : Cut [] []
  | blank {c : Char} {cs : List Char} {ws : List (List Char)} (h : isBlank c = true) (rest : Cut cs ws) :
    Cut (c :: cs) ws
  | word {w cs : List Char} {ws : List (List Char)} (hne : w ≠ []) (h : ∀ c ∈ w, isBlank c = false)
    (ends : ∀ c ∈ cs.head?, isBlank c = true) (rest : Cut cs ws) : Cut (w ++ cs) (w :: ws)

theorem wordsFrom_append (h : ∀ c ∈ w, isBlank c = false) :
    wordsFrom word (w ++ cs) = wordsFrom (w.reverse ++ word) cs := by
  induction w generalizing word with
  | nil => rfl
  | cons c w ih =>
    rw [List.forall_mem_cons] at h
    rw [List.cons_append, wordsFrom, if_neg (by simp [h.1]), ih h.2]
    simp

theorem words_blank (h : isBlank c = true) : words (c :: cs) = words cs := by
  rw [words, wordsFrom, if_pos h]
  rfl

/-- A word in front of a blank, or at the end. -/
theorem words_word (hne : w ≠ []) (h : ∀ c ∈ w, isBlank c = false) (ends : ∀ c ∈ cs.head?, isBlank c = true) :
    words (w ++ cs) = w :: words cs := by
  have hword : w.reverse.isEmpty = false := by simpa using hne
  rw [words, wordsFrom_append h, List.append_nil]
  cases cs with
  | nil => simp [wordsFrom, words, hword]
  | cons c cs =>
    have hc : isBlank c = true := ends c rfl
    rw [words_blank hc, wordsFrom, if_pos hc, if_neg (by simpa using hne), List.reverse_reverse]
    rfl

theorem words_of_cut (h : Cut cs ws) : words cs = ws := by
  induction h with
  | nil => rfl
  | blank h rest ih => rw [words_blank h, ih]
  | word hne h ends rest ih => rw [words_word hne h ends, ih]

/-- By induction on the text behind the word that is being read. -/
theorem cut_wordsFrom (h : ∀ c ∈ word, isBlank c = false) : Cut (word.reverse ++ cs) (wordsFrom word cs) := by
  have hrev : ∀ c ∈ word.reverse, isBlank c = false := fun c hc => h c (List.mem_reverse.1 hc)
  induction cs generalizing word with
  | nil =>
    by_cases hword : word = []
    · subst hword
      exact .nil
    · rw [wordsFrom, if_neg (by simpa using hword)]
      exact .word (by simpa using hword) hrev (by simp) .nil
  | cons c cs ih =>
    by_cases hc : isBlank c = true
    · have hrest : Cut (c :: cs) (wordsFrom [] cs) := .blank hc (@ih [] (by simp) (by simp))
      rw [wordsFrom, if_pos hc]
      by_cases hword : word = []
      · subst hword
        exact hrest
      · rw [if_neg (by simpa using hword)]
        exact .word (by simpa using hword) hrev (by simpa using hc) hrest
    · have hall : ∀ d ∈ c :: word, isBlank d = false := List.forall_mem_cons.2 ⟨by simpa using hc, h⟩
      rw [wordsFrom, if_neg hc]
      simpa using ih hall (fun d hd => hall d (List.mem_reverse.1 hd))

theorem cut_iff : Cut cs ws ↔ words cs = ws := by
  constructor
  · exact words_of_cut
  · rintro rfl
    exact @cut_wordsFrom _ [] (by simp)

/-! ## Radix marks -/

/-- Repeats of a mark are taken off the front of a text, as many as there are. -/
def Stripped (mark cs rest : List Char) : Prop := ¬mark <+: rest ∧ ∃ n, cs = (List.replicate n mark).flatten ++ rest

/-- A word without the marks in front of it. -/
def Unmarked (word rest : List Char) : Prop := ∃ mid, Stripped ['0', 'x'] word mid ∧ Stripped ['0', 'X'] mid rest

theorem Stripped.append (h : Stripped mark cs rest) : Stripped mark (mark ++ cs) rest := by
  obtain ⟨hrest, n, rfl⟩ := h
  exact ⟨hrest, n + 1, by simp [List.replicate_succ]⟩

theorem stripped_dropMarks (a b : Char) (cs : List Char) : Stripped [a, b] cs (dropMarks a b cs) := by
  fun_induction dropMarks a b cs with
  | case1 c d rest h ih =>
    obtain ⟨rfl, rfl⟩ := h
    exact ih.append
  | case2 c d rest h =>
    refine ⟨fun hpre => h ?_, 0, rfl⟩
    simp at hpre
    exact ⟨hpre.1.symm, hpre.2.symm⟩
  | case3 cs h =>
    refine ⟨?_, 0, rfl⟩
    rintro ⟨rest, rfl⟩
    exact h a b rest rfl

theorem dropMarks_eq (h : Stripped [a, b] cs rest) : dropMarks a b cs = rest := by
  obtain ⟨hrest, n, rfl⟩ := h
  induction n with
  | zero =>
    unfold dropMarks
    split
    · next c d cs he =>
      change rest = _ at he
      have hne : ¬(c = a ∧ d = b) := by
        rintro ⟨rfl, rfl⟩
        exact hrest ⟨cs, he.symm⟩
      rw [if_neg hne, ← he]
    · rfl
  | succ n ih => simpa [List.replicate_succ, dropMarks] using ih

theorem unmarked_iff : Unmarked word rest ↔ dropMarks '0' 'X' (dropMarks '0' 'x' word) = rest := by
  constructor
  · rintro ⟨mid, hlower, hupper⟩
    rw [dropMarks_eq hlower, dropMarks_eq hupper]
  · rintro rfl
    exact ⟨_, stripped_dropMarks _ _ _, stripped_dropMarks _ _ _⟩

/-- What is left of a text: its words without the marks in front of them, put together. -/
def Leaves (cs ds : List Char) : Prop :=
  ∃ ws parts, Cut cs ws ∧ List.Forall₂ Unmarked ws parts ∧ ds = parts.flatten

theorem leaves_iff : Leaves text.toList ds ↔ ds = hexDigits text := by
  have hparts : ∀ {ws parts}, List.Forall₂ Unmarked ws parts ↔
      parts = ws.map fun word => dropMarks '0' 'X' (dropMarks '0' 'x' word) := by
    intro ws parts
    rw [eq_comm, ← List.forall₂_eq_eq_eq, List.forall₂_map_left_iff,
      show Unmarked = _ from funext₂ fun _ _ => propext unmarked_iff]
  rw [hexDigits, List.flatMap_def]
  constructor
  · rintro ⟨ws, parts, hcut, hmarks, rfl⟩
    rw [cut_iff.1 hcut, hparts.1 hmarks]
  · rintro rfl
    exact ⟨_, _, cut_iff.2 rfl, hparts.2 rfl, rfl⟩

/-! ## Bytes -/

/-- The hexadecimal text of a byte. -/
def byteText (byte : UInt8) : List Char := [(byte.toNat / 16).digitChar, (byte.toNat % 16).digitChar]

/-- The bytes that characters are read as: two digits make a byte, and so do a plus and one digit. -/
inductive Typed : List Char → List UInt8 → Prop
  | nil : Typed [] []
  | pair {a b : Char} {byte : UInt8} {ds : List Char} {bytes : List UInt8} (high : IsDigit 16 a (byte.toNat / 16))
    (low : IsDigit 16 b (byte.toNat % 16)) (rest : Typed ds bytes) : Typed (a :: b :: ds) (byte :: bytes)
  | plus {b : Char} {byte : UInt8} {ds : List Char} {bytes : List UInt8} (low : IsDigit 16 b byte.toNat)
    (rest : Typed ds bytes) : Typed ('+' :: b :: ds) (byte :: bytes)

theorem Typed.even (h : Typed ds bytes) : ds.length % 2 = 0 := by
  induction h with
  | nil => rfl
  | pair _ _ _ ih | plus _ _ ih =>
    simp only [List.length_cons]
    omega

theorem Typed.chars (h : Typed ds bytes) : ∀ c ∈ ds, c = '+' ∨ ∃ d, IsDigit 16 c d := by
  induction h with
  | nil => simp
  | pair high low _ ih => simpa using ⟨.inr ⟨_, high⟩, .inr ⟨_, low⟩, ih⟩
  | plus low _ ih => simpa using ⟨.inr ⟨_, low⟩, ih⟩

/-- A pair of characters as a byte. -/
theorem pair_eq_some : signedNumeral? 16 256 [a, b] = some n ↔
    n < 256 ∧ (IsDigit 16 a (n / 16) ∧ IsDigit 16 b (n % 16) ∨ a = '+' ∧ IsDigit 16 b n) := by
  rw [signedNumeral?_eq_some le_rfl, writes_two]
  refine and_congr_right fun _ => or_congr ?_ ?_
  · constructor
    · rintro ⟨x, y, hx, hy, rfl⟩
      have hy' := hy.1
      rw [show (x * 16 + y) / 16 = x by omega, show (x * 16 + y) % 16 = y by omega]
      exact ⟨hx, hy⟩
    · rintro ⟨hhigh, hlow⟩
      exact ⟨_, _, hhigh, hlow, by omega⟩
  · constructor
    · rintro ⟨ds, he, hds⟩
      obtain ⟨rfl, rfl⟩ := List.cons.inj he
      exact ⟨rfl, writes_one.1 hds⟩
    · rintro ⟨rfl, hb⟩
      exact ⟨_, rfl, writes_one.2 hb⟩

theorem pairBytes_of_typed (h : Typed ds bytes) : pairBytes ds = .ok bytes := by
  induction h with
  | nil => rfl
  | @pair a b byte _ _ high low _ ih =>
    rw [pairBytes, pair_eq_some.2 ⟨byte.toNat_lt, .inl ⟨high, low⟩⟩, ih]
    simp [Except.map]
  | @plus b byte _ _ low _ ih =>
    rw [pairBytes, pair_eq_some.2 ⟨byte.toNat_lt, .inr ⟨rfl, low⟩⟩, ih]
    simp [Except.map]

theorem typed_of_pairBytes (heven : ds.length % 2 = 0) (h : pairBytes ds = .ok bytes) : Typed ds bytes := by
  fun_induction pairBytes ds generalizing bytes with
  | case1 a b rest n hn ih =>
    obtain ⟨bytes, hrest, rfl⟩ : ∃ bs, pairBytes rest = .ok bs ∧ bytes = UInt8.ofNat n :: bs := by
      cases hrest : pairBytes rest with
      | error fault =>
        rw [hrest] at h
        cases h
      | ok bs =>
        rw [hrest] at h
        cases h
        exact ⟨bs, rfl, rfl⟩
    obtain ⟨hlt, hpair⟩ := pair_eq_some.1 hn
    simp only [List.length_cons] at heven
    have hrest := ih (by omega) hrest
    have hbyte : (UInt8.ofNat n).toNat = n := UInt8.toNat_ofNat_of_lt hlt
    rcases hpair with ⟨high, low⟩ | ⟨rfl, low⟩
    · exact .pair (hbyte.symm ▸ high) (hbyte.symm ▸ low) hrest
    · exact .plus (hbyte.symm ▸ low) hrest
  | case2 a b rest hnone => cases h
  | case3 ds hds =>
    cases h
    match ds, hds with
    | [], _ => exact .nil
    | [_], _ => simp at heven
    | a :: b :: rest, hds => exact absurd rfl (hds a b rest)

theorem not_plus_of_digits (h : ∀ c ∈ ds, ∃ d, IsDigit 16 c d) : '+' ∉ ds := by
  intro hmem
  obtain ⟨d, hd⟩ := h _ hmem
  exact not_digit le_rfl rfl hd

theorem digits_of_text (h : ds.map Char.toLower = bytes.flatMap byteText) : ∀ c ∈ ds, ∃ d, IsDigit 16 c d := by
  intro c hc
  have hmem : c.toLower ∈ bytes.flatMap byteText := h ▸ List.mem_map_of_mem hc
  obtain ⟨byte, -, hbyte⟩ := List.mem_flatMap.1 hmem
  have hlt : byte.toNat < 256 := byte.toNat_lt
  rcases List.mem_pair.1 hbyte with he | he
  · exact ⟨_, by omega, he⟩
  · exact ⟨_, by omega, he⟩

/-- Digits in pairs are the hexadecimal text of bytes. -/
theorem typed_iff_text (hplus : '+' ∉ ds) : Typed ds bytes ↔ ds.map Char.toLower = bytes.flatMap byteText := by
  constructor
  · intro h
    induction h with
    | nil => rfl
    | pair high low _ ih =>
      simp only [List.mem_cons, not_or] at hplus
      simp [byteText, high.2, low.2, ih hplus.2.2]
    | plus _ _ _ => simp at hplus
  · intro h
    induction bytes generalizing ds with
    | nil =>
      obtain rfl : ds = [] := by simpa using h
      exact .nil
    | cons byte bytes ih =>
      obtain ⟨a, ds, rfl, ha, hds⟩ := List.map_eq_cons_iff.1 h
      obtain ⟨b, ds, rfl, hb, hds⟩ := List.map_eq_cons_iff.1 hds
      simp only [List.mem_cons, not_or] at hplus
      have hlt : byte.toNat < 256 := byte.toNat_lt
      exact .pair ⟨by omega, ha⟩ ⟨by omega, hb⟩ (ih hplus.2.2 hds)

/-- All hexadecimal digits in even number are bytes. -/
theorem exists_typed (heven : ds.length % 2 = 0) (h : ∀ c ∈ ds, ∃ d, IsDigit 16 c d) : ∃ bytes, Typed ds bytes := by
  induction ds using List.twoStepInduction with
  | nil => exact ⟨[], .nil⟩
  | singleton a => simp at heven
  | cons_cons a b ds ih _ =>
    simp only [List.forall_mem_cons] at h
    simp only [List.length_cons] at heven
    obtain ⟨⟨x, hx⟩, ⟨y, hy⟩, hds⟩ := h
    obtain ⟨bytes, hbytes⟩ := ih (by omega) hds
    have hx' := hx.1
    have hy' := hy.1
    have hbyte : (UInt8.ofNat (x * 16 + y)).toNat = x * 16 + y := UInt8.toNat_ofNat_of_lt (by change _ < 256; omega)
    refine ⟨.ofNat (x * 16 + y) :: bytes, .pair ?_ ?_ hbytes⟩
    · rwa [hbyte, show (x * 16 + y) / 16 = x by omega]
    · rwa [hbyte, show (x * 16 + y) % 16 = y by omega]

theorem hexBytes_eq_ok_iff : hexBytes text = .ok bytes ↔ Typed (hexDigits text) bytes := by
  unfold hexBytes
  constructor
  · intro h
    dsimp only at h
    split_ifs at h with hascii heven
    exact typed_of_pairBytes (by simpa using heven) h
  · intro h
    have hascii : ((hexDigits text).all fun c => decide (c.toNat < 128)) = true := by
      simp only [List.all_eq_true, decide_eq_true_eq]
      intro c hc
      rcases h.chars c hc with rfl | ⟨d, hd⟩
      · decide
      · exact hd.ascii le_rfl
    simp [hascii, h.even, pairBytes_of_typed h]

/-! ## What is read -/

/-- A word that holds digits alone, with a mark in front or without it. -/
def Marked (word digits : List Char) : Prop := word = digits ∨ word = '0' :: 'x' :: digits

theorem unmarked_of_marked (h : Marked word ds) (hds : ∀ c ∈ ds, ∃ d, IsDigit 16 c d) : Unmarked word ds := by
  have hmark : ∀ x : Char, (∀ d, ¬IsDigit 16 x d) → ¬['0', x] <+: ds := by
    rintro x hx ⟨rest, rfl⟩
    obtain ⟨d, hd⟩ := hds x (by simp)
    exact hx d hd
  have hlower : ¬['0', 'x'] <+: ds := hmark 'x' fun _ => not_digit le_rfl rfl
  have hupper : ¬['0', 'X'] <+: ds := hmark 'X' fun _ => not_digit le_rfl rfl
  rcases h with rfl | rfl
  · exact ⟨word, ⟨hlower, 0, rfl⟩, hupper, 0, rfl⟩
  · exact ⟨ds, ⟨hlower, 1, rfl⟩, hupper, 0, rfl⟩

theorem forall_unmarked (h : List.Forall₂ Marked ws parts) (hds : ∀ c ∈ parts.flatten, ∃ d, IsDigit 16 c d) :
    List.Forall₂ Unmarked ws parts := by
  induction h with
  | nil => exact .nil
  | cons hword _ ih =>
    rw [List.flatten_cons, List.forall_mem_append] at hds
    exact .cons (unmarked_of_marked hword hds.1) (ih hds.2)

/-- The bytes that a text gives. The text leaves certain characters, and these are read in pairs. Where no plus stands
among them, the text gives bytes exactly if they are hexadecimal digits in even number; they are then the hexadecimal
text of the bytes. Characters that are neither digits nor plus signs are refused. The hexadecimal text of any bytes, cut
into words that may be marked, gives these bytes. -/
theorem hexBytes_reads (text : String) : ∃ digits, (∀ ds, Leaves text.toList ds ↔ ds = digits) ∧
    (∀ bytes, hexBytes text = .ok bytes ↔ Typed digits bytes) ∧
    ('+' ∉ digits →
      ((∃ bytes, hexBytes text = .ok bytes) ↔ (∀ c ∈ digits, ∃ d, IsDigit 16 c d) ∧ digits.length % 2 = 0) ∧
      ∀ bytes, hexBytes text = .ok bytes ↔ digits.map Char.toLower = bytes.flatMap byteText) ∧
    (∀ c ∈ digits, c ≠ '+' → (∀ d, ¬IsDigit 16 c d) → ∃ fault, hexBytes text = .error fault) ∧
    ∀ ws parts bytes, Cut text.toList ws → List.Forall₂ Marked ws parts →
      parts.flatten.map Char.toLower = bytes.flatMap byteText → hexBytes text = .ok bytes := by
  refine ⟨hexDigits text, fun ds => leaves_iff, fun bytes => hexBytes_eq_ok_iff, fun hplus => ⟨⟨?_, ?_⟩, ?_⟩, ?_, ?_⟩
  · rintro ⟨bytes, h⟩
    have htyped := hexBytes_eq_ok_iff.1 h
    exact ⟨fun c hc => (htyped.chars c hc).resolve_left fun he => hplus (he ▸ hc), htyped.even⟩
  · rintro ⟨hdigits, heven⟩
    obtain ⟨bytes, h⟩ := exists_typed heven hdigits
    exact ⟨bytes, hexBytes_eq_ok_iff.2 h⟩
  · exact fun bytes => hexBytes_eq_ok_iff.trans (typed_iff_text hplus)
  · intro c hc hplus hdigit
    cases h : hexBytes text with
    | error fault => exact ⟨fault, rfl⟩
    | ok bytes =>
      obtain ⟨d, hd⟩ := ((hexBytes_eq_ok_iff.1 h).chars c hc).resolve_left hplus
      exact absurd hd (hdigit d)
  · intro ws parts bytes hcut hmarked htext
    have hdigits := digits_of_text htext
    rw [hexBytes_eq_ok_iff, ← leaves_iff.1 ⟨ws, parts, hcut, forall_unmarked hmarked hdigits, rfl⟩]
    exact (typed_iff_text (not_plus_of_digits hdigits)).2 htext

example : hexBytes "0x2a 0x0XFf" = .ok [0x2A, 0xFF] := by decide +kernel

/-- The text `+1` leaves a character that is no digit, and gives a byte. -/
theorem exists_hexBytes_not_digit : ∃ (text : String) (ds : List Char) (bytes : List UInt8),
    Leaves text.toList ds ∧ (∃ c ∈ ds, ∀ d, ¬IsDigit 16 c d) ∧ hexBytes text = .ok bytes := by
  have hplus : ∀ d, ¬IsDigit 16 '+' d := fun _ => not_digit le_rfl rfl
  exact ⟨"+1", ['+', '1'], [1], leaves_iff.2 (by decide +kernel), ⟨'+', by simp, hplus⟩, by decide +kernel⟩

end Cognate.Text
