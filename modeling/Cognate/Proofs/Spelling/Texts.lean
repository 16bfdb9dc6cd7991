import Cognate.Proofs.Spelling.Types
import Cognate.Unit.Spelling

/-!
# Spellings as tokens

What the parts of a spelling are read as: words with blanks between them, lists with commas, a name in front of a
declarator, and the first types of a unit.
-/

namespace Cognate

open Grammar

/-- A type that no declarator makes. -/
def Shape.isFirst : Shape → Bool
  | builtin _ | complex _ | record _ | enum _ | typedef _ _ | auto | atomic _ => true
  | _ => false

/-! ## Words and lists -/

namespace Lexes

variable {cs ds : List Char} {ts ts' : List Token}

/-- A blank keeps two texts apart. -/
theorem spaced (hcs : Lexes cs ts) (hds : Lexes ds ts') : Lexes (cs ++ ' ' :: ds) (ts ++ ts') := by
  refine hcs.append ?_ (.of_free rfl)
  exact blank.append hds (.of_last (by simp; decide))

theorem words {texts : List String} (h : ∀ text ∈ texts, (Keyword.ofSpelling? text).isSome = true) :
    Lexes (" ".intercalate texts).toList (wordTokens texts) := by
  induction texts with
  | nil => exact nil
  | cons text texts ih =>
    obtain ⟨k, hk⟩ := Option.isSome_iff_exists.1 (h text (by simp))
    have htokens : wordTokens (text :: texts) = [.keyword k] ++ wordTokens texts := by
      simp [wordTokens, keywordsOf, hk]
    have htexts := ih fun text' htext' => h text' (by simp [htext'])
    rw [htokens]
    cases texts with
    | nil => exact keyword hk
    | cons text' texts =>
      rw [String.intercalate_cons_cons]
      simpa using (keyword hk).spaced htexts

/-- Texts with a comma and a blank between them. -/
theorem listed {xs : List (List Char × List Token)} (h : ∀ x ∈ xs, Lexes x.1 x.2) :
    Lexes ([',', ' '].intercalate (xs.map Prod.fst)) ([.punct .comma].intercalate (xs.map Prod.snd)) := by
  induction xs with
  | nil => exact nil
  | cons x xs ih =>
    have hxs := ih fun y hy => h y (by simp [hy])
    cases xs with
    | nil => simpa using h x (by simp)
    | cons y xs =>
      rw [List.map_cons, List.map_cons, List.map_cons, List.map_cons, List.intercalate_cons_cons,
        List.intercalate_cons_cons, List.append_assoc, List.append_assoc]
      refine (h x (by simp)).append ?_ (.of_free rfl)
      exact (comma.append blank (.of_free rfl)).append hxs (.of_last (by simp; decide))

end Lexes

theorem lexes_qualifiers (q : Qualifiers) : Lexes q.spelling.toList (qualifierTokens q) := by
  rcases q with ⟨_ | _, _ | _, _ | _⟩ <;> exact Lexes.words (by decide)

namespace DeclUnit

variable {u : DeclUnit} {t c : Ty} {s : Shape} {name d text : String} {ts ts' : List Token}

theorem lexes_nameBefore (hname : Lexes name.toList ts) (hd : Lexes d.toList ts') :
    Lexes (nameBefore name d).toList (ts ++ ts') := by
  unfold nameBefore
  split
  · next hnil =>
    rw [hnil] at hd
    rw [hd.eq_nil, List.append_nil]
    exact hname
  · next cs hcs =>
    rw [String.toList_append]
    exact hname.append hd (by rw [hcs]; exact .of_free rfl)
  · simpa using hname.spaced hd

/-- The text is read as a type without a name. -/
def Names (u : DeclUnit) (text : String) (t : Ty) : Prop := ∃ ts, Lexes text.toList ts ∧ ReadsType u ts t

/-- The first types of spellings: names in front of declarators. -/
structure SpelledFirst (u : DeclUnit) (fuel : Nat) (t : Ty) (name : String) (ts : List Token) : Prop where
  spelling : ∀ d, u.spellWithin (fuel + 1) t d = nameBefore name d
  lexes : Lexes name.toList ts
  reads : ReadsFirst u ts t

variable {fuel : Nat}

theorem spelledFirst_builtin (hu : u.Written) {b : Builtin} (hs : u.shape? t = some (.builtin b)) :
    SpelledFirst u fuel t b.spelling (wordTokens (builtinTexts b)) := by
  have hnames : u.target.names b = true := hu.writes hs
  refine ⟨fun d => by simp only [spellWithin, hs], ?_, readsFirst_builtin hu.wellFormed hs hnames⟩
  rw [builtin_spelling]
  exact Lexes.words (keywordsOf_builtin hnames).1

theorem spelledFirst_complex (hu : u.Written) (hs : u.shape? t = some (.complex c)) (hfuel : t.index < fuel + 1) :
    ∃ name ts, SpelledFirst u fuel t name ts := by
  obtain ⟨b, hb, hcomplex⟩ : u.Writes t (.complex c) := hu.writes hs
  have hlt := hu.wellFormed.child_lt hs (c := c) (by simp [Shape.children])
  obtain ⟨fuel, rfl⟩ : ∃ m, fuel = m + 1 := ⟨fuel - 1, by omega⟩
  have hnames : u.target.names b = true := hu.writes hb
  refine ⟨" ".intercalate ("_Complex" :: builtinTexts b), wordTokens ("_Complex" :: builtinTexts b), fun d => ?_, ?_,
    readsFirst_complex hu.wellFormed hs hb hcomplex⟩
  · have hspelling : "_Complex " ++ nameBefore b.spelling "" = " ".intercalate ("_Complex" :: builtinTexts b) := by
      cases b <;> decide
    simp only [spellWithin, hs, hb, hspelling]
  · refine Lexes.words ?_
    intro text htext
    rcases List.mem_cons.1 htext with rfl | htext
    · rfl
    · exact (keywordsOf_builtin hnames).1 text htext

theorem lexes_tag {tag : Tag} (htag : tag ≠ .classTag) : Lexes tag.spelling.toList [.keyword (tagKeyword tag)] := by
  cases tag with
  | classTag => exact absurd rfl htag
  | _ => exact Lexes.keyword rfl

/-- A tag and its name. -/
theorem lexes_tagSpelling {tag : Tag} (htag : tag ≠ .classTag) (hname : IsName name) :
    Lexes (tagSpelling tag (some name)).toList [.keyword (tagKeyword tag), .name name] := by
  simpa [tagSpelling] using (lexes_tag htag).spaced (Lexes.name hname)

theorem spelledFirst_record (hu : u.Written) {id : RecordId} (hs : u.shape? t = some (.record id))
    (hplain : ∀ decl, u.record? id = some decl → decl.name.isSome = true) :
    ∃ name ts, SpelledFirst u fuel t name ts := by
  obtain ⟨decl, hdecl, htag, hname⟩ : u.Writes t (.record id) := hu.writes hs
  obtain ⟨name, hn⟩ := Option.isSome_iff_exists.1 (hplain decl hdecl)
  obtain ⟨hword, ht⟩ := hname name hn
  have hclass : decl.tag ≠ .classTag := by rcases htag with h | h <;> simp [h]
  have htagOf : tagOf u t = decl.tag := by
    have hcanonical := hu.wellFormed.canonicalShape?_flat hs rfl
    simp [tagOf, recordOf?, hcanonical, Shape.map, hdecl]
  refine ⟨tagSpelling decl.tag (some name), _, fun d => ?_, lexes_tagSpelling hclass hword,
    readsFirst_tagged hclass ht htagOf⟩
  simp only [spellWithin, hs, hdecl, hn]

theorem spelledFirst_enum (hu : u.Written) {id : EnumId} (hs : u.shape? t = some (.enum id))
    (hplain : ∀ decl, u.enum? id = some decl → decl.name.isSome = true) : ∃ name ts, SpelledFirst u fuel t name ts := by
  obtain ⟨decl, hdecl, hname⟩ : u.Writes t (.enum id) := hu.writes hs
  obtain ⟨name, hn⟩ := Option.isSome_iff_exists.1 (hplain decl hdecl)
  obtain ⟨hword, ht⟩ := hname name hn
  have htagOf : tagOf u t = .enum := by
    have hcanonical := hu.wellFormed.canonicalShape?_flat hs rfl
    simp [tagOf, recordOf?, hcanonical, Shape.map]
  refine ⟨tagSpelling .enum (some name), _, fun d => ?_, lexes_tagSpelling (by simp) hword,
    readsFirst_tagged (by simp) ht htagOf⟩
  simp only [spellWithin, hs, hdecl, hn]

theorem spelledFirst_typedef (hu : u.Written) (ht : u.Usable t) (hs : u.shape? t = some (.typedef name c)) :
    SpelledFirst u fuel t name [.name name] := by
  have hname : IsName name := hu.writes hs
  exact ⟨fun d => by simp only [spellWithin, hs], Lexes.name hname, readsFirst_typedef (ht.2 name c hs)⟩

theorem spelledFirst_auto (hu : u.Written) (hs : u.shape? t = some .auto) :
    SpelledFirst u fuel t "__auto_type" [.keyword .autoType] :=
  ⟨fun d => by simp only [spellWithin, hs], Lexes.keyword rfl, readsFirst_auto hu.wellFormed hs⟩

theorem spelledFirst_atomic (hu : u.Written) (hs : u.shape? t = some (.atomic c))
    (hc : u.Names (u.spellWithin fuel c "") c) : ∃ name ts, SpelledFirst u fuel t name ts := by
  obtain ⟨ts, hlexes, hreads⟩ := hc
  refine ⟨_, _, fun d => by simp only [spellWithin, hs]; rfl, ?_, readsFirst_atomic hu.wellFormed hreads hs⟩
  have hkeyword : Lexes "_Atomic".toList [.keyword .atomic] := Lexes.keyword rfl
  have hinside := (Lexes.lparen.append hlexes (.of_last (by simp; decide))).append Lexes.rparen (.of_free rfl)
  have h := hkeyword.append hinside (.of_free rfl)
  simpa using h

end DeclUnit
end Cognate
