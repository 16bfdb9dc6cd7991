import Cognate.Proofs.Token.Reference

/-!
# Items tile their text

No byte of a text is lost, and none belongs to two items: the items stand one behind the other, each covers the
characters it carries, and what is between them is made of complete blanks, comments and directives (`Tiles`). A text
therefore has at most as many items as bytes, and all places it names are ends of its characters (`Span.Within`).
-/

namespace Cognate

variable {source text : String} {s t : Span} {pos : Nat} {cs w : List Char} {p : Pattern}
  {items : List (Except Fault Lexed)}

theorem byteLength_pos (h : cs ≠ []) : 0 < byteLength cs := by
  obtain ⟨c, cs, rfl⟩ := List.exists_cons_of_ne_nil h
  rw [byteLength_cons]
  exact Nat.add_pos_left c.utf8Size_pos _

/-! ## Places of a text -/

/-- The bytes from one character boundary of the text to the same or a later one. -/
structure Span.Within (source : String) (s : Span) : Prop where
  ordered : s.start ≤ s.stop
  inside : s.stop ≤ source.utf8ByteSize
  starts : (String.Pos.Raw.mk s.start).IsValid source
  stops : (String.Pos.Raw.mk s.stop).IsValid source

/-- The text stands there. -/
def Span.Covers (source : String) (s : Span) (text : String) : Prop :=
  ∃ front back : String, source = front ++ text ++ back ∧
    s = ⟨front.utf8ByteSize, front.utf8ByteSize + text.utf8ByteSize⟩

theorem Span.Covers.within (h : s.Covers source text) : s.Within source := by
  obtain ⟨front, back, rfl, rfl⟩ := h
  refine ⟨Nat.le_add_right _ _, ?_, ?_, ?_⟩
  · simp only [String.utf8ByteSize_append]
    omega
  · exact String.Pos.Raw.isValid_iff_exists_append.2 ⟨front, text ++ back, String.append_assoc .., rfl⟩
  · refine String.Pos.Raw.isValid_iff_exists_append.2 ⟨front ++ text, back, rfl, ?_⟩
    rw [String.rawEndPos, String.utf8ByteSize_append]

theorem Span.within_end (source : String) : (⟨source.utf8ByteSize, source.utf8ByteSize⟩ : Span).Within source := by
  have hcovers : (⟨source.utf8ByteSize, source.utf8ByteSize⟩ : Span).Covers source "" := ⟨source, "", by simp, by simp⟩
  exact hcovers.within

/-- A span that covers two places of the text starts and ends where one of them does. -/
theorem Span.Within.merge (hs : s.Within source) (ht : t.Within source) : (s.merge t).Within source where
  ordered := (Nat.min_le_left ..).trans (hs.ordered.trans (Nat.le_max_left ..))
  inside := Nat.max_le.2 ⟨hs.inside, ht.inside⟩
  starts := by
    rcases Nat.le_total s.start t.start with h | h
    · simpa only [Span.merge, Nat.min_eq_left h] using hs.starts
    · simpa only [Span.merge, Nat.min_eq_right h] using ht.starts
  stops := by
    rcases Nat.le_total s.stop t.stop with h | h
    · simpa only [Span.merge, Nat.max_eq_right h] using ht.stops
    · simpa only [Span.merge, Nat.max_eq_left h] using hs.stops

/-- The bytes an item covers. -/
def itemSpan : Except Fault Lexed → Span
  | .ok l => l.span
  | .error f => f.span

/-! ## Tiles -/

/-- The text is what the item stands for: a name or a literal holds it. -/
def Carries (text : String) : Except Fault Lexed → Prop
  | .ok l =>
    match l.token with
    | .keyword k => (text, k) ∈ Keyword.spellings
    | .name word => word = text
    | .literal _ digits => digits = text
    | .punct p => p.spelling = text
    | .finish => False
  | .error f => f.cause = .strayText text

/-- What is matched is left out. -/
def Pattern.IsSkipped (p : Pattern) : Prop :=
  p = .spaces ∨ p = .lineComment ∨ p = .blockComment ∨ p = .directive

/-- A sequence of complete matches of what is skipped, in front of the rest. -/
inductive Gap : List Char → List Char → Prop where
  | nil (rest : List Char) : Gap [] rest
  | cons {p : Pattern} {w gap rest : List Char} (hskipped : p.IsSkipped) (h : p.Wins (w ++ (gap ++ rest)) w)
    (hgap : Gap gap rest) : Gap (w ++ gap) rest

/-- The items of a text that stands at byte `pos`: gaps and the characters of the items by turns, and the end. -/
inductive Tiles : Nat → List Char → List (Except Fault Lexed) → Prop where
  | finish {pos : Nat} {gap : List Char} (h : Gap gap []) : Tiles pos gap [.ok (finishAt (pos + byteLength gap))]
  | item {pos : Nat} {gap text rest : List Char} {item : Except Fault Lexed} {items : List (Except Fault Lexed)}
    (hgap : Gap gap (text ++ rest)) (hne : text ≠ []) (hcarries : Carries (String.ofList text) item)
    (hspan : itemSpan item = ⟨pos + byteLength gap, pos + byteLength gap + byteLength text⟩)
    (hrest : Tiles (pos + byteLength gap + byteLength text) rest items) :
    Tiles pos (gap ++ (text ++ rest)) (item :: items)

theorem Pattern.isSkipped_of_token (h : p.token w = none) : p.IsSkipped := by
  cases p <;> simp [Pattern.token, Pattern.IsSkipped] at h ⊢

theorem Pattern.carries {t : Token} (hmatched : w ∈ p.language) (ht : p.token w = some t) (s : Span) :
    Carries (String.ofList w) (.ok ⟨t, s⟩) := by
  cases p <;> simp only [Pattern.token, reduceCtorEq, Option.some.injEq] at ht <;> subst ht
  case keyword => exact hmatched
  case mark p =>
    have hw : w = p.spelling.toList := hmatched
    rw [hw, String.ofList_toList]
    rfl
  all_goals rfl

namespace Tiles

/-- What is skipped in front joins the first gap. -/
theorem skipped (hskipped : p.IsSkipped) (h : p.Wins (w ++ cs) w) (hrest : Tiles (pos + byteLength w) cs items) :
    Tiles pos (w ++ cs) items := by
  cases hrest with
  | finish hgap =>
    rw [Nat.add_assoc, ← byteLength_append]
    exact .finish (.cons hskipped (by simpa using h) hgap)
  | item hgap hne hcarries hspan hrest =>
    rw [← List.append_assoc]
    rw [Nat.add_assoc pos, ← byteLength_append] at hspan hrest
    exact .item (.cons hskipped h hgap) hne hcarries hspan hrest

/-- The items of the reference tile their text. -/
theorem of_items (h : Reference.Items pos cs items) : Tiles pos cs items := by
  induction h with
  | finish pos => exact .finish (.nil [])
  | skipped h _ ih =>
    cases h with
    | skipped _ hwins ht =>
      obtain ⟨rest, rfl⟩ := hwins.stands
      rw [List.take_left, List.drop_left] at ih
      exact ih.skipped (Pattern.isSkipped_of_token ht) hwins
  | token h _ ih =>
    cases h with
    | @token _ w _ _ _ hwins ht =>
      obtain ⟨rest, rfl⟩ := hwins.stands
      rw [List.take_left, List.drop_left] at ih
      rw [List.take_left]
      have hne : w ≠ [] := fun h => Pattern.nil_not_mem_language (h ▸ hwins.matched)
      exact .item (.nil (w ++ rest)) hne (Pattern.carries hwins.matched ht _) rfl ih
  | @stray pos n cs items h _ ih =>
    obtain ⟨hne, hpos, -⟩ := h.pos
    have htext : cs.take n ≠ [] := fun hnil => (List.take_eq_nil_iff.1 hnil).elim (Nat.pos_iff_ne_zero.1 hpos) hne
    have hcarries : Carries (String.ofList (cs.take n))
      (.error ⟨.strayText (String.ofList (cs.take n)), ⟨pos, pos + byteLength (cs.take n)⟩⟩) := rfl
    have htile := Tiles.item (.nil (cs.take n ++ cs.drop n)) htext hcarries rfl ih
    rwa [List.nil_append, List.take_append_drop] at htile

/-- The end stands at the end, and every other item covers what it carries, behind the items in front of it. -/
theorem items_covered {before : List Char} (h : Tiles pos cs items) (hsource : source.toList = before ++ cs)
    (hpos : pos = byteLength before) :
    ∃ front, items = front ++ [.ok (finishAt source.utf8ByteSize)] ∧
      (∀ item ∈ front, pos ≤ (itemSpan item).start ∧ (itemSpan item).start < (itemSpan item).stop ∧
        ∃ text, Carries text item ∧ (itemSpan item).Covers source text) ∧
      front.Pairwise (fun a b => (itemSpan a).stop ≤ (itemSpan b).start) ∧ front.length ≤ byteLength cs := by
  induction h generalizing before with
  | @finish pos gap hgap =>
    refine ⟨[], ?_, by simp, by simp, Nat.zero_le _⟩
    rw [hpos, ← byteLength_append, ← hsource, byteLength_eq, String.ofList_toList]
    rfl
  | @item pos gap text rest item items hgap hne hcarries hspan hrest ih =>
    have hsource' : source.toList = (before ++ gap ++ text) ++ rest := by simp [hsource]
    obtain ⟨front, rfl, hcovers, hpairwise, hlength⟩ := ih hsource' (by rw [hpos, byteLength_append, byteLength_append])
    have htext : 0 < byteLength text := byteLength_pos hne
    refine ⟨item :: front, rfl, ?_, ?_, ?_⟩
    · refine List.forall_mem_cons.2 ⟨⟨?_, ?_, _, hcarries, String.ofList (before ++ gap), String.ofList rest, ?_, ?_⟩,
        fun other hother => ?_⟩
      · rw [hspan]
        exact Nat.le_add_right ..
      · rw [hspan]
        exact Nat.lt_add_of_pos_right htext
      · rw [← String.ofList_append, ← String.ofList_append, ← hsource', String.ofList_toList]
      · rw [hspan, ← byteLength_eq, ← byteLength_eq, byteLength_append, hpos]
      · obtain ⟨hstart, hrest⟩ := hcovers other hother
        exact ⟨by omega, hrest⟩
    · refine List.pairwise_cons.2 ⟨fun other hother => ?_, hpairwise⟩
      rw [hspan]
      exact (hcovers other hother).1
    · simp only [List.length_cons, byteLength_append]
      omega

end Tiles

theorem scan_tiles (source : String) :
    Tiles 0 source.toList (scan source ++ [Except.ok (finishAt source.utf8ByteSize)]) :=
  .of_items (Reference.items_iff.2 rfl)

/-- The items of a text cover what they carry, in order and apart, and the text has as many bytes at least. -/
theorem scan_covered (source : String) :
    (∀ item ∈ scan source, (itemSpan item).start < (itemSpan item).stop ∧
      ∃ text, Carries text item ∧ (itemSpan item).Covers source text) ∧
      (scan source).Pairwise (fun a b => (itemSpan a).stop ≤ (itemSpan b).start) ∧
      (scan source).length ≤ source.utf8ByteSize := by
  obtain ⟨front, hitems, hcovers, hpairwise, hlength⟩ := (scan_tiles source).items_covered (List.nil_append _).symm rfl
  obtain ⟨rfl, -⟩ := List.append_inj' hitems rfl
  rw [byteLength_eq, String.ofList_toList] at hlength
  exact ⟨fun item hitem => (hcovers item hitem).2, hpairwise, hlength⟩

/-- Taking the items of a text one by one tiles it: each covers the bytes of what it carries, they stand in order and
apart, between them are complete blanks, comments and directives only, and behind at most as many items as the text has
bytes every call answers the end. -/
theorem calls_tile (source : String) :
    ∃ front : List (Except Fault Lexed),
      Tiles 0 source.toList (front ++ [Except.ok (finishAt source.utf8ByteSize)]) ∧
      (∀ item ∈ front, (itemSpan item).start < (itemSpan item).stop ∧ (itemSpan item).Within source ∧
        ∃ text, Carries text item ∧ (itemSpan item).Covers source text) ∧
      front.Pairwise (fun a b =>
        (itemSpan a).start < (itemSpan b).start ∧ (itemSpan a).stop ≤ (itemSpan b).start) ∧
      front.length ≤ source.utf8ByteSize ∧
      ∀ n, (TokenStream.ofSource source).answers n =
        (front ++ [Except.ok (finishAt source.utf8ByteSize)]).take n ++
          List.replicate (n - (front.length + 1)) (.ok (finishAt source.utf8ByteSize)) := by
  obtain ⟨hcovers, hpairwise, hlength⟩ := scan_covered source
  refine ⟨scan source, scan_tiles source, fun item hitem => ?_, ?_, hlength, TokenStream.answers_eq _ _⟩
  · obtain ⟨hlt, text, hcarries, hcovers⟩ := hcovers item hitem
    exact ⟨hlt, hcovers.within, text, hcarries, hcovers⟩
  · refine hpairwise.imp_of_mem fun ha _ hab => ⟨?_, hab⟩
    exact (hcovers _ ha).1.trans_le hab

end Cognate
