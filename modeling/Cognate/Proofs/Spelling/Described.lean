import Cognate.Proofs.Grammar.Texts
import Cognate.Proofs.Spelling.Texts

/-!
# Descriptions are read back

The spelling of a type is read as that type. The induction follows the spelling, from a type into the one it is made
of; it carries the declarator around that type, as a text and as an outline that is read. An array or function is only
ever met where no pointer stands in front of its declarator, as `spellWithin` puts the others in parentheses.
-/

namespace Cognate

open Grammar

/-- An lvalue or rvalue reference. -/
def Shape.isReference : Shape → Bool
  | lvalueRef _ | rvalueRef _ => true
  | _ => false

/-- A name for another type. -/
def Shape.isTypedef : Shape → Bool
  | typedef _ _ => true
  | _ => false

namespace DeclUnit

variable {u : DeclUnit} {t c x y z : Ty} {s : Shape} {d op inner : String} {ts : List Token} {fuel : Nat}

/-! ## What spellings consist of -/

/-- The types that the spelling of a type mentions: a typedef is mentioned by its name alone. -/
inductive Spelled (u : DeclUnit) : Ty → Ty → Prop
  | self (t : Ty) : Spelled u t t
  | child {t c x : Ty} {s : Shape} : u.shape? t = some s → s.isTypedef = false → c ∈ s.children → Spelled u c x →
      Spelled u t x

/-- The spelling of a shape says what it is, and in a way that declarations allow. -/
def Plain (u : DeclUnit) : Shape → Prop
  | .record id => ∀ decl, u.record? id = some decl → decl.name.isSome = true
  | .enum id => ∀ decl, u.enum? id = some decl → decl.name.isSome = true
  | .vector _ _ _ | .memberPointer _ _ => False
  | .lvalueRef pointee | .rvalueRef pointee => ∀ s, u.shape? pointee = some s → s.isReference = false
  | .prototype _ params variadic traits =>
    traits = {} ∧ ∀ p, params = [p] → variadic = false → u.shape? p ≠ some (.builtin .void)
  | .noPrototype _ traits => traits = {}
  | _ => True

/-- Everything that the spelling of a type mentions is plain. -/
def Spellable (u : DeclUnit) (t : Ty) : Prop := ∀ x s, u.Spelled t x → u.shape? x = some s → u.Plain s

theorem Spellable.plain (h : u.Spellable t) (hs : u.shape? t = some s) : u.Plain s := h t s (.self t) hs

theorem Spellable.child (h : u.Spellable t) (hs : u.shape? t = some s) (htypedef : s.isTypedef = false)
    (hc : c ∈ s.children) : u.Spellable c := fun x s' hx => h x s' (.child hs htypedef hc hx)

theorem Spellable.of_shape (hs : u.shape? t = some s) (hp : u.Plain s)
    (hc : ∀ c ∈ s.children, s.isTypedef = false → u.Spellable c) : u.Spellable t := by
  intro x s' hx hs'
  cases hx with
  | self =>
    obtain rfl := Option.some.inj (hs.symm.trans hs')
    exact hp
  | child hs'' htypedef hmem hx =>
    obtain rfl := Option.some.inj (hs.symm.trans hs'')
    exact hc _ hmem htypedef x s' hx hs'

/-! ## Declarators around a type -/

/-- A declarator around `t` as a text, and an outline that is read from it and makes `z` of `t`. -/
structure Around (u : DeclUnit) (o : Outline) (d : String) (t z : Ty) : Prop where
  readable : o.Readable u
  lexes : Lexes d.toList o.tokens
  derives : Derives u t o.steps z
  /-- Suffixes are not added behind pointers. -/
  pointers : ∀ s, u.shape? t = some s → s.isArray = true ∨ s.isFunction = true → o.pointers = []
  /-- No ampersand is put in front of another one. -/
  ampersand : ∀ s, u.shape? t = some s → s.isArray = true ∨ s.isFunction = true ∨ s.isReference = true →
    d.toList.head? ≠ some '&'

theorem Around.empty (u : DeclUnit) (t : Ty) : u.Around {} "" t t where
  readable := ⟨by simp, by simp, by simp⟩
  lexes := Lexes.nil
  derives := .nil
  pointers := fun _ _ _ => rfl
  ampersand := by simp

/-- In front of a pointer's target: in parentheses where a suffix would bind tighter. -/
def pointed (u : DeclUnit) (pointee : Ty) (inner : String) : String :=
  if u.isArray pointee || u.isFunction pointee then "(" ++ inner ++ ")" else inner

theorem isArray_of_shape (hu : u.WellFormed) (hs : u.shape? t = some s) (h : s.isArray = true) :
    u.isArray t = true := by
  have hsugar : s.isSugar = false := by cases s <;> first | rfl | cases h
  rw [isArray, hu.canonicalShape?_flat hs hsugar]
  cases s <;> first | rfl | cases h

theorem isFunction_of_shape (hu : u.WellFormed) (hs : u.shape? t = some s) (h : s.isFunction = true) :
    u.isFunction t = true := by
  have hsugar : s.isSugar = false := by cases s <;> first | rfl | cases h
  rw [isFunction, hu.canonicalShape?_flat hs hsugar]
  cases s <;> first | rfl | cases h

/-- One more pointer in front of a declarator. -/
theorem Around.pointed (hu : u.WellFormed) {o : Outline} (ho : o.Readable u) {p : Derivation} (hp : p.isPointer = true)
    (hlexes : Lexes inner.toList (pointerTokens p ++ o.tokens)) (hderives : Derives u c (p :: o.steps) z)
    (hreference : ∀ s, u.shape? c = some s → s.isReference = true → inner.toList.head? ≠ some '&') :
    ∃ o', u.Around o' (u.pointed c inner) c z := by
  have hreadable : ({ o with pointers := p :: o.pointers } : Outline).Readable u :=
    ⟨by simpa [hp] using ho.pointers, ho.inner, ho.suffixes⟩
  have htokens : ({ o with pointers := p :: o.pointers } : Outline).tokens = pointerTokens p ++ o.tokens := by
    simp [Outline.tokens, Outline.innerTokens]
  have hsteps : ({ o with pointers := p :: o.pointers } : Outline).steps = p :: o.steps := rfl
  unfold DeclUnit.pointed
  split
  -- In parentheses, what was there becomes the inner declarator, and suffixes may follow.
  · obtain ⟨t, ts, hts, ht⟩ := pointerTokens_cons hp
    refine ⟨{ inner := some (pointerTokens p ++ o.tokens, p :: o.steps) }, ?_, ?_, ?_, fun _ _ _ => rfl, ?_⟩
    · refine ⟨by simp, fun ts' ds hinner => ?_, by simp⟩
      cases hinner
      refine ⟨?_, t, _, by rw [hts]; rfl, ht⟩
      rw [← htokens, ← hsteps]
      exact hreadable.reads
    · have h := (Lexes.lparen.append hlexes (.of_last (by simp; decide))).append Lexes.rparen (.of_free rfl)
      simpa [Outline.tokens, Outline.innerTokens] using h
    · simpa [Outline.steps] using hderives
    · simp
  -- Without them the target is no array and no function, and no suffix follows.
  · next hsuffix =>
    simp only [Bool.or_eq_true, not_or, Bool.not_eq_true] at hsuffix
    refine ⟨{ o with pointers := p :: o.pointers }, hreadable, by rwa [htokens], by rwa [hsteps], fun s hs h => ?_,
      fun s hs h => ?_⟩
    · rcases h with h | h
      · exact absurd (isArray_of_shape hu hs h) (by simp [hsuffix.1])
      · exact absurd (isFunction_of_shape hu hs h) (by simp [hsuffix.2])
    · rcases h with h | h | h
      · exact absurd (isArray_of_shape hu hs h) (by simp [hsuffix.1])
      · exact absurd (isFunction_of_shape hu hs h) (by simp [hsuffix.2])
      · exact hreference s hs h

/-- One more suffix behind a declarator. -/
theorem Around.suffixed {o : Outline} (ho : u.Around o d t z) (hs : u.shape? t = some s)
    (hsuffix : s.isArray = true ∨ s.isFunction = true) {p : Derivation} {mark : Char} {cs : List Char}
    (hreads : ReadsSuffix u ts p) (hmark : free mark = true) (hlexes : Lexes (mark :: cs) ts)
    (htext : inner.toList = d.toList ++ mark :: cs)
    (hderives : Derives u c (p :: o.steps) z) : ∃ o', u.Around o' inner c z := by
  have hpointers := ho.pointers s hs hsuffix
  have hhead : inner.toList.head? ≠ some '&' := by
    rw [htext]
    cases hd : d.toList with
    | nil =>
      rintro ⟨⟩
      cases hmark
    | cons a as =>
      have h := ho.ampersand s hs (hsuffix.imp_right .inl)
      rw [hd] at h
      exact h
  refine ⟨{ o with suffixes := o.suffixes ++ [(ts, p)] }, ⟨ho.readable.pointers, ho.readable.inner, ?_⟩, ?_, ?_,
    fun _ _ _ => hpointers, fun _ _ _ => hhead⟩
  · intro x hx
    rcases List.mem_append.1 hx with hx | hx
    · exact ho.readable.suffixes x hx
    · obtain rfl := List.mem_singleton.1 hx
      exact hreads
  · rw [htext]
    have h := ho.lexes.append hlexes (.of_free hmark)
    simpa [Outline.tokens, Outline.innerTokens] using h
  · simpa [Outline.steps, hpointers] using hderives

/-! ## Derived types -/

section

variable (hu : u.Written) {o : Outline} (hc : ∀ {o d}, u.Around o d c z → u.Names (u.spellWithin fuel c d) z)
include hu hc

/-- A type whose spelling puts a mark in front of the declarator. -/
theorem names_pointed {p : Derivation}
    (hspell : u.spellWithin (fuel + 1) x d = u.spellWithin fuel c (u.pointed c inner))
    (hp : p.isPointer = true) (ho : o.Readable u) (hlexes : Lexes inner.toList (pointerTokens p ++ o.tokens))
    (hderives : Derives u c (p :: o.steps) z)
    (hreference : ∀ s, u.shape? c = some s → s.isReference = true → inner.toList.head? ≠ some '&') :
    u.Names (u.spellWithin (fuel + 1) x d) z := by
  obtain ⟨o', ho'⟩ := Around.pointed hu.wellFormed ho hp hlexes hderives hreference
  rw [hspell]
  exact hc ho'

/-- A pointer `x`, and `t` with the qualifiers that are written behind its mark. -/
theorem names_pointer {q : Qualifiers} (hs : u.shape? x = some (.pointer c)) (hq : u.qualify x q = (t, u))
    (ho : o.Readable u) (hlexes : Lexes d.toList (qualifierTokens q ++ o.tokens)) (hderives : Derives u t o.steps z) :
    u.Names (u.spellWithin (fuel + 1) x d) z := by
  have hspell : u.spellWithin (fuel + 1) x d = u.spellWithin fuel c (u.pointed c ("*" ++ d)) := by
    simp only [spellWithin, hs]
    rfl
  refine names_pointed hu hc (p := .pointer q) hspell rfl ho ?_ ?_ (by simp)
  · simpa [pointerTokens] using Lexes.star.append hlexes (.of_last (by simp; decide))
  · exact .cons (fun _ _ => reads_qualified hu.wellFormed hs hq) hderives

theorem names_blockPointer {q : Qualifiers} (hs : u.shape? x = some (.blockPointer c)) (hq : u.qualify x q = (t, u))
    (ho : o.Readable u) (hlexes : Lexes d.toList (qualifierTokens q ++ o.tokens)) (hderives : Derives u t o.steps z) :
    u.Names (u.spellWithin (fuel + 1) x d) z := by
  have hspell : u.spellWithin (fuel + 1) x d = u.spellWithin fuel c (u.pointed c ("^" ++ d)) := by
    simp only [spellWithin, hs]
    rfl
  refine names_pointed hu hc (p := .blockPointer q) hspell rfl ho ?_ ?_ (by simp)
  · simpa [pointerTokens] using Lexes.caret.append hlexes (.of_last (by simp; decide))
  · exact .cons (fun _ _ => reads_qualified hu.wellFormed hs hq) hderives

theorem names_lvalueRef (hs : u.shape? t = some (.lvalueRef c)) (hp : u.Plain (.lvalueRef c)) (ho : u.Around o d t z) :
    u.Names (u.spellWithin (fuel + 1) t d) z := by
  have hspell : u.spellWithin (fuel + 1) t d = u.spellWithin fuel c (u.pointed c ("&" ++ d)) := by
    simp only [spellWithin, hs]
    rfl
  -- What stands behind this ampersand is no other one, as `t` is a reference.
  have hapart : Apart ['&'] d.toList := .of_ampersand rfl (ho.ampersand _ hs (.inr (.inr rfl)))
  refine names_pointed hu hc (p := .lvalueRef) hspell rfl ho.readable ?_ ?_ fun s hs' h => ?_
  · simpa [pointerTokens] using Lexes.amp.append ho.lexes hapart
  · exact .cons (fun _ _ => reads_intern hu.wellFormed hs) ho.derives
  · rw [hp s hs'] at h
    cases h

theorem names_rvalueRef (hs : u.shape? t = some (.rvalueRef c)) (hp : u.Plain (.rvalueRef c)) (ho : u.Around o d t z) :
    u.Names (u.spellWithin (fuel + 1) t d) z := by
  have hspell : u.spellWithin (fuel + 1) t d = u.spellWithin fuel c (u.pointed c ("&&" ++ d)) := by
    simp only [spellWithin, hs]
    rfl
  have hapart : Apart ['&', '&'] d.toList := .of_ampersand rfl (ho.ampersand _ hs (.inr (.inr rfl)))
  refine names_pointed hu hc (p := .rvalueRef) hspell rfl ho.readable ?_ ?_ fun s hs' h => ?_
  · simpa [pointerTokens] using Lexes.andAnd.append ho.lexes hapart
  · exact .cons (fun _ _ => reads_intern hu.wellFormed hs) ho.derives
  · rw [hp s hs'] at h
    cases h

theorem names_array (bound : ArrayBound) (hs : u.shape? t = some (bound.shape c)) (ho : u.Around o d t z) :
    u.Names (u.spellWithin (fuel + 1) t d) z := by
  have hsuffix : (bound.shape c).isArray = true := by cases bound <;> rfl
  have hwrites := hu.writes hs
  have hfunction : u.isFunction c = false := by
    cases bound with
    | constant size => exact hwrites.1
    | incomplete => exact hwrites
    | «variable» => exact hwrites
  have hsize : ∀ size, bound = .constant size → size < wordLimit := by
    rintro size rfl
    exact hwrites.2
  have hreads : ReadsSuffix u (boundTokens bound) (.array bound) := readsSuffix_array hsize
  have hderives := derives_array hu.wellFormed hfunction hs ho.derives
  have hspell : ∃ inner cs, u.spellWithin (fuel + 1) t d = u.spellWithin fuel c inner ∧
      inner.toList = d.toList ++ '[' :: cs ∧ Lexes ('[' :: cs) (boundTokens bound) := by
    cases bound with
    | constant size =>
      refine ⟨d ++ "[" ++ toString size ++ "]", (toString size).toList ++ [']'], ?_, by simp, ?_⟩
      · simp only [spellWithin, hs, ArrayBound.shape]
        rfl
      · have hbound := (Lexes.number size).append Lexes.rbracket (.of_free rfl)
        exact Lexes.lbracket.append hbound (.of_last (by simp; decide))
    | incomplete =>
      refine ⟨_, [']'], by simp only [spellWithin, hs, ArrayBound.shape]; rfl, by simp, ?_⟩
      exact Lexes.lbracket.append Lexes.rbracket (.of_free rfl)
    | «variable» =>
      refine ⟨_, ['*', ']'], by simp only [spellWithin, hs, ArrayBound.shape]; rfl, by simp, ?_⟩
      exact Lexes.lbracket.append (Lexes.star.append Lexes.rbracket (.of_free rfl)) (.of_free rfl)
  obtain ⟨inner, cs, hspell, hinner, hlexes⟩ := hspell
  obtain ⟨o', ho'⟩ := ho.suffixed hs (.inl hsuffix) hreads rfl hlexes hinner hderives
  rw [hspell]
  exact hc ho'

theorem names_noPrototype {traits : FunctionTraits} (hs : u.shape? t = some (.noPrototype c traits))
    (hp : u.Plain (.noPrototype c traits)) (ho : u.Around o d t z) : u.Names (u.spellWithin (fuel + 1) t d) z := by
  obtain rfl : traits = {} := hp
  have hspell : u.spellWithin (fuel + 1) t d = u.spellWithin fuel c (d ++ "()") := by simp only [spellWithin, hs]
  have hlexes : Lexes ['(', ')'] [.punct .lparen, .punct .rparen] := Lexes.lparen.append Lexes.rparen (.of_free rfl)
  have htext : (d ++ "()").toList = d.toList ++ ['(', ')'] := by simp
  have hderives := derives_noPrototype hu.wellFormed (hu.writes hs) hs ho.derives
  obtain ⟨o', ho'⟩ := ho.suffixed hs (.inr rfl) readsSuffix_noPrototype rfl hlexes htext hderives
  rw [hspell]
  exact hc ho'

end

/-- What stands between the parentheses of a prototype. -/
def insideText (u : DeclUnit) (fuel : Nat) (params : List Ty) (variadic : Bool) : String :=
  let listed := params.map (u.spellWithin fuel · "") ++ if variadic then ["..."] else []
  if listed.isEmpty then "void" else ", ".intercalate listed

/-- The tokens of all parameters, each of which is read as a type. -/
theorem exists_items {params : List Ty} (h : ∀ p ∈ params, u.Names (u.spellWithin fuel p "") p) :
    ∃ xs : List (List Token × Ty), xs.map Prod.snd = params ∧
      ∀ x ∈ xs, Lexes (u.spellWithin fuel x.2 "").toList x.1 ∧ ReadsType u x.1 x.2 := by
  induction params with
  | nil => exact ⟨[], rfl, by simp⟩
  | cons p params ih =>
    obtain ⟨ts, hts⟩ := h p (by simp)
    obtain ⟨xs, hxs, hall⟩ := ih fun p' hp' => h p' (by simp [hp'])
    refine ⟨(ts, p) :: xs, by rw [List.map_cons, hxs], fun x hx => ?_⟩
    rcases List.mem_cons.1 hx with rfl | hx
    · exact hts
    · exact hall x hx

theorem readsSuffix_inside {params : List Ty} {variadic : Bool} (h : ∀ p ∈ params, u.Names (u.spellWithin fuel p "") p)
    (hobject : ∀ p ∈ params, u.IsObject p)
    (hvoid : ∀ p, params = [p] → variadic = false → u.shape? p ≠ some (.builtin .void)) :
    ∃ ts, Lexes (u.insideText fuel params variadic).toList ts ∧
      ReadsSuffix u (.punct .lparen :: (ts ++ [.punct .rparen])) (.function params variadic) := by
  obtain ⟨xs, rfl, hall⟩ := exists_items h
  by_cases hpieces : (Parameters.mk xs variadic).pieces = []
  · obtain ⟨rfl, rfl⟩ := Parameters.pieces_eq_nil.1 hpieces
    exact ⟨[.keyword .void], Lexes.keyword rfl, readsSuffix_void⟩
  · have hreadable : (Parameters.mk xs variadic).Readable u :=
      ⟨fun x hx => ⟨(hall x hx).2, hobject x.2 (List.mem_map_of_mem hx)⟩, hpieces⟩
    refine ⟨(Parameters.mk xs variadic).tokens, ?_, readsSuffix_function hreadable ?_⟩
    · let pairs : List (List Char × List Token) :=
        xs.map (fun x => ((u.spellWithin fuel x.2 "").toList, x.1)) ++
          if variadic then [(['.', '.', '.'], [.punct .ellipsis])] else []
      have hpairs : ∀ x ∈ pairs, Lexes x.1 x.2 := by
        intro x hx
        rcases List.mem_append.1 hx with hx | hx
        · obtain ⟨y, hy, rfl⟩ := List.mem_map.1 hx
          exact (hall y hy).1
        · cases variadic with
          | false => cases hx
          | true =>
            obtain rfl := List.mem_singleton.1 hx
            exact Lexes.ellipsis
      have hsnd : pairs.map Prod.snd = (Parameters.mk xs variadic).pieces := by
        cases variadic <;> simp [pairs, Parameters.pieces]
      have hfst : (u.insideText fuel (xs.map Prod.snd) variadic).toList =
          [',', ' '].intercalate (pairs.map Prod.fst) := by
        have hlisted : (((xs.map Prod.snd).map (u.spellWithin fuel · "") ++ if variadic then ["..."] else []).isEmpty) =
            false := by
          rw [Parameters.pieces_eq_nil] at hpieces
          cases xs <;> cases variadic <;> simp_all
        simp only [insideText, hlisted]
        cases variadic <;> simp [pairs, Function.comp_def]
      rw [hfst, Parameters.tokens, ← hsnd]
      exact Lexes.listed hpairs
    · rintro x hx
      cases hx
      exact hvoid x.2 rfl rfl

theorem names_prototype (hu : u.Written) {o : Outline} {params : List Ty} {variadic : Bool} {traits : FunctionTraits}
    (hc : ∀ {o d}, u.Around o d c z → u.Names (u.spellWithin fuel c d) z)
    (hparams : ∀ p ∈ params, u.Names (u.spellWithin fuel p "") p)
    (hs : u.shape? t = some (.prototype c params variadic traits)) (hp : u.Plain (.prototype c params variadic traits))
    (ho : u.Around o d t z) : u.Names (u.spellWithin (fuel + 1) t d) z := by
  obtain ⟨rfl, hvoid⟩ := hp
  have hspell : u.spellWithin (fuel + 1) t d =
      u.spellWithin fuel c (d ++ "(" ++ u.insideText fuel params variadic ++ ")") := by
    simp only [spellWithin, hs]
    rfl
  obtain ⟨hresult, hobject⟩ : u.Writes t (.prototype c params variadic {}) := hu.writes hs
  obtain ⟨ts, hinside, hreads⟩ := readsSuffix_inside hparams hobject hvoid
  have hlexes : Lexes ('(' :: ((u.insideText fuel params variadic).toList ++ [')']))
      (.punct .lparen :: (ts ++ [.punct .rparen])) :=
    Lexes.lparen.append (hinside.append Lexes.rparen (.of_free rfl)) (.of_last (by simp; decide))
  have htext : (d ++ "(" ++ u.insideText fuel params variadic ++ ")").toList =
      d.toList ++ '(' :: ((u.insideText fuel params variadic).toList ++ [')']) := by simp
  have hderives := derives_function hu.wellFormed hresult hs ho.derives
  obtain ⟨o', ho'⟩ := ho.suffixed hs (.inr rfl) hreads rfl hlexes htext hderives
  rw [hspell]
  exact hc ho'

/-! ## Qualified and first types -/

/-- A first type with qualifiers in front of it. -/
theorem names_first {name : String} (hx : u.SpelledFirst fuel x name ts) {q : Qualifiers} (hq : u.qualify x q = (t, u))
    {o : Outline} (ho : u.Around o d t z) {text : String}
    (htext : Lexes text.toList (qualifierTokens q ++ (ts ++ o.tokens))) :
    u.Names text z :=
  ⟨_, htext, hx.reads.readsType hq ho.readable ho.derives⟩

theorem lexes_behind {o : Outline} {q : Qualifiers} (h : Lexes d.toList o.tokens) :
    Lexes (if d.isEmpty then q.spelling else q.spelling ++ " " ++ d).toList (qualifierTokens q ++ o.tokens) := by
  split
  · next hd =>
    rw [String.isEmpty_iff.1 hd] at h
    rw [h.eq_nil, List.append_nil]
    exact lexes_qualifiers q
  · simpa using (lexes_qualifiers q).spaced h

theorem exists_spelledFirst (hu : u.Written) (hx : u.Usable x) (hs : u.shape? x = some s) (hfirst : s.isFirst = true)
    (hp : u.Plain s) (hfuel : x.index < fuel + 1) (hatomic : ∀ c, s = .atomic c → u.Names (u.spellWithin fuel c "") c) :
    ∃ name ts, u.SpelledFirst fuel x name ts := by
  cases s with
  | builtin b => exact ⟨_, _, spelledFirst_builtin hu hs⟩
  | complex c => exact spelledFirst_complex hu hs hfuel
  | record id => exact spelledFirst_record hu hs hp
  | enum id => exact spelledFirst_enum hu hs hp
  | typedef name c => exact ⟨_, _, spelledFirst_typedef hu hx hs⟩
  | auto => exact ⟨_, _, spelledFirst_auto hu hs⟩
  | atomic c => exact spelledFirst_atomic hu hs (hatomic c rfl)
  | _ => cases hfirst

/-- Qualifiers stand behind the mark of a pointer, and in front of everything else. -/
theorem names_qualified (hu : u.Written) {o : Outline} {q : Qualifiers} (hp : u.Spellable t) (ho : u.Around o d t z)
    (hs : u.shape? t = some (.qualified x q)) (hfuel : t.index < fuel + 2)
    (hc : ∀ c s, u.shape? x = some s → c ∈ s.children → s.isTypedef = false → ∀ {o d z}, u.Around o d c z →
      u.Names (u.spellWithin fuel c d) z) : u.Names (u.spellWithin (fuel + 2) t d) z := by
  obtain ⟨hq, s, hx, htakes⟩ : u.Writes t (.qualified x q) := hu.writes hs
  have hqualify := qualify_qualified hu.wellFormed hq hx htakes hs
  have hplain := (hp.child hs rfl (by simp [Shape.children])).plain hx
  have hlt := hu.wellFormed.child_lt hs (c := x) (by simp [Shape.children])
  have husable := hu.usable hs x (by simp [Shape.children])
  cases hpointer : s.isPointerLike with
  -- The qualifiers and the mark are read as one pointer, so the spelling is followed two levels at once.
  | true =>
    have hspell : u.spellWithin (fuel + 2) t d =
        u.spellWithin (fuel + 1) x (if d.isEmpty then q.spelling else q.spelling ++ " " ++ d) := by
      rw [spellWithin]
      simp only [hs, hx, Option.any_some, hpointer, if_true]
    rw [hspell]
    have hbehind := lexes_behind (q := q) ho.lexes
    cases s with
    | pointer c =>
      exact names_pointer hu (hc c _ hx (by simp [Shape.children]) rfl) hx hqualify ho.readable hbehind ho.derives
    | blockPointer c =>
      exact names_blockPointer hu (hc c _ hx (by simp [Shape.children]) rfl) hx hqualify ho.readable hbehind ho.derives
    | memberPointer c owner => exact absurd hplain id
    | lvalueRef c | rvalueRef c | objcPointer c => cases htakes
    | _ => cases hpointer
  | false =>
    have hspell : u.spellWithin (fuel + 2) t d = q.spelling ++ " " ++ u.spellWithin (fuel + 1) x d := by
      rw [spellWithin]
      simp only [hs, hx, Option.any_some, hpointer, Bool.false_eq_true, if_false]
    have hfirst : s.isFirst = true := by
      cases s <;> simp_all [Shape.takesQualifiers, Shape.isPointerLike, Shape.isFirst]
    have hless : x.index < fuel + 1 := by omega
    obtain ⟨name, ts, hname⟩ := exists_spelledFirst hu husable hx hfirst hplain hless fun c he => by
      subst he
      exact hc c _ hx (by simp [Shape.children]) rfl (.empty u c)
    rw [hspell]
    refine names_first hname hqualify ho ?_
    rw [hname.spelling]
    simpa using (lexes_qualifiers q).spaced (lexes_nameBefore hname.lexes ho.lexes)

/-- The spelling of a type is read as it, and with a declarator around it as what the declarator makes of it. -/
theorem names_spelling (hu : u.Written) {o : Outline} (hfuel : t.index < fuel) (ht : u.Usable t) (hp : u.Spellable t)
    (ho : u.Around o d t z) : u.Names (u.spellWithin fuel t d) z := by
  induction fuel using Nat.strong_induction_on generalizing t z d o with
  | _ fuel ih =>
    obtain ⟨fuel, rfl⟩ : ∃ m, fuel = m + 1 := ⟨fuel - 1, by omega⟩
    obtain ⟨s, hs⟩ := exists_shape ht.1
    have hplain := hp.plain hs
    have hchild : ∀ c ∈ s.children, s.isTypedef = false → ∀ {o d z}, u.Around o d c z →
        u.Names (u.spellWithin fuel c d) z := by
      intro c hc htypedef o d z ho
      have hlt := hu.wellFormed.child_lt hs hc
      exact ih fuel (by omega) (by omega) (hu.usable hs c hc) (hp.child hs htypedef hc) ho
    by_cases hfirst : s.isFirst = true
    · obtain ⟨name, ts, hname⟩ := exists_spelledFirst hu ht hs hfirst hplain hfuel fun c he => by
        subst he
        exact hchild c (by simp [Shape.children]) rfl (.empty u c)
      refine names_first hname (qualify_empty u t) ho ?_
      suffices h : Lexes (u.spellWithin (fuel + 1) t d).toList (ts ++ o.tokens) from h
      rw [hname.spelling]
      exact lexes_nameBefore hname.lexes ho.lexes
    · cases s with
      | pointer c =>
        exact names_pointer hu (hchild c (by simp [Shape.children]) rfl) hs (qualify_empty u t) ho.readable
          ho.lexes ho.derives
      | blockPointer c =>
        exact names_blockPointer hu (hchild c (by simp [Shape.children]) rfl) hs (qualify_empty u t) ho.readable
          ho.lexes ho.derives
      | lvalueRef c => exact names_lvalueRef hu (hchild c (by simp [Shape.children]) rfl) hs hplain ho
      | rvalueRef c => exact names_rvalueRef hu (hchild c (by simp [Shape.children]) rfl) hs hplain ho
      | constantArray c size =>
        exact names_array hu (hchild c (by simp [Shape.children]) rfl) (.constant size) hs ho
      | incompleteArray c => exact names_array hu (hchild c (by simp [Shape.children]) rfl) .incomplete hs ho
      | variableArray c => exact names_array hu (hchild c (by simp [Shape.children]) rfl) .variable hs ho
      | prototype c params variadic traits =>
        refine names_prototype hu (hchild c (by simp [Shape.children]) rfl) (fun p hp => ?_) hs hplain ho
        exact hchild p (by simp [Shape.children, hp]) rfl (.empty u p)
      | noPrototype c traits => exact names_noPrototype hu (hchild c (by simp [Shape.children]) rfl) hs hplain ho
      | qualified x q =>
        have hlt := hu.wellFormed.child_lt hs (c := x) (by simp [Shape.children])
        obtain ⟨fuel, rfl⟩ : ∃ m, fuel = m + 1 := ⟨fuel - 1, by omega⟩
        refine names_qualified hu hp ho hs hfuel ?_
        intro c s' hs' hc htypedef o' d' z' ho'
        have hlt' := hu.wellFormed.child_lt hs' hc
        have hx := hp.child hs rfl (c := x) (by simp [Shape.children])
        exact ih fuel (by omega) (by omega) (hu.usable hs' c hc) (hx.child hs' htypedef hc) ho'
      | memberPointer c owner => exact absurd hplain id
      | vector c count kind => exact absurd hplain id
      | builtin b | complex c | record id | enum id | typedef name c | auto | atomic c => exact absurd rfl hfirst
      | deducedTemplate | objcObject | objcInterface | objcPointer c | pipe c => exact absurd (hu.writes hs) id

end DeclUnit

/-! ## Whole texts -/

namespace Grammar

variable {u : DeclUnit} {ts rest : List Token} {x : Ty}

/-- The rules go deeper than the tokens ahead. -/
theorem reads_rulesHere :
    Reads u rulesHere [] ts fun rules => ∃ depth, rules = Rules.upTo depth ∧ ts.length < depth := by
  intro stop ls more hls hmore
  obtain rfl := List.map_eq_nil_iff.1 hls
  refine ⟨_, rfl, _, rfl, ?_⟩
  have hlength := State.at_length stop u ([] ++ more)
  rw [List.nil_append] at hlength
  rw [State.allowance, ← hmore, List.length_map, List.nil_append]
  omega

theorem reads_wholeTypeName (h : ReadsType u ts x) : Reads u wholeTypeName ts [] (· = x) := by
  have hts : Reads u rulesHere [] (ts ++ []) fun rules => ∃ depth, rules = Rules.upTo depth ∧ ts.length < depth := by
    rw [List.append_nil]
    exact reads_rulesHere
  refine hts.look fun rules ⟨depth, hrules, hdepth⟩ => ?_
  subst hrules
  refine (h.typeName depth hdepth [] rfl).bind_end fun t ht => reads_current.bind_end fun next hnext => ?_
  rw [if_pos (by rw [hnext]; rfl)]
  exact .pure ht

theorem read_of_reads {α : Type} {p : Parse α} {Q : α → Prop} {text : String} (hlexes : Lexes text.toList ts)
    (hp : Reads u p ts [] Q) : ∃ a, read p text u = (.ok a, u) ∧ Q a := by
  obtain ⟨ls, hls, hscan⟩ := hlexes 0 [] (.nil_right _)
  obtain ⟨a, ha, hq⟩ := hp text.utf8ByteSize ls [] hls rfl
  refine ⟨a, ?_, hq⟩
  rw [scanAt, List.append_nil, List.append_nil] at hscan
  rw [List.append_nil] at ha
  have hsource : State.ofSource text u = .ok (State.at text.utf8ByteSize u ls) := by
    rw [State.ofSource, scan, hscan, takeItem_at text.utf8ByteSize u ls]
    cases ls <;> rfl
  rw [read, hsource]
  dsimp only [EStateM.run]
  rw [ha]
  rfl

end Grammar

namespace DeclUnit

variable {u : DeclUnit} {t : Ty} {text : String}

theorem Names.typeName (h : u.Names text t) : u.typeName text = (.ok t, u) := by
  obtain ⟨ts, hlexes, hreads⟩ := h
  obtain ⟨x, hread, rfl⟩ := read_of_reads hlexes (reads_wholeTypeName hreads)
  exact hread

theorem Written.names_describe (hu : u.Written) (ht : u.Usable t) (hp : u.Spellable t) : u.Names (u.describe t) t :=
  names_spelling hu (Nat.lt_succ_self _) ht hp (.empty u t)

/-- The description of a declared type names it, and adds nothing to the unit. -/
theorem typeName_describe (hu : u.FromTexts) {v : ValueDecl} (hv : v ∈ u.values) (hp : u.Spellable v.type) :
    u.typeName (u.describe v.type) = (.ok v.type, u) :=
  (hu.written.names_describe (hu.written.values v hv) hp).typeName

/-- An array of pointers to functions, whose result is spelled first and whose parameters stand last. -/
theorem typeName_describe_table :
    let u := ((empty "unit" .lp64).declare "int (*table[3])(const char *, ...);").2
    u.FromTexts ∧ ⟨"table", ⟨10⟩⟩ ∈ u.values ∧ u.Spellable ⟨10⟩ ∧
      u.typeName "int (*[3])(const char *, ...)" = (.ok ⟨10⟩, u) := by
  intro u
  have hu : u.FromTexts := .declare _ (.empty "unit" .lp64)
  have hmem : ⟨"table", ⟨10⟩⟩ ∈ u.values := by decide +kernel
  have hdescribe : u.describe ⟨10⟩ = "int (*[3])(const char *, ...)" := by decide +kernel
  obtain ⟨h0, h1, h2, h4, h6, h8, h10⟩ : u.shape? ⟨0⟩ = some (.builtin .int) ∧ u.shape? ⟨1⟩ = some (.builtin .charS) ∧
      u.shape? ⟨2⟩ = some (.qualified ⟨1⟩ { isConst := true }) ∧ u.shape? ⟨4⟩ = some (.pointer ⟨2⟩) ∧
      u.shape? ⟨6⟩ = some (.prototype ⟨0⟩ [⟨4⟩] true {}) ∧ u.shape? ⟨8⟩ = some (.pointer ⟨6⟩) ∧
      u.shape? ⟨10⟩ = some (.constantArray ⟨8⟩ 3) := by decide +kernel
  -- Only these shapes matter from here on.
  clear_value u
  have hint : u.Spellable ⟨0⟩ := .of_shape h0 trivial (by simp [Shape.children])
  have hchar : u.Spellable ⟨1⟩ := .of_shape h1 trivial (by simp [Shape.children])
  have hconst : u.Spellable ⟨2⟩ := .of_shape h2 trivial (by simp [Shape.children, hchar])
  have hparam : u.Spellable ⟨4⟩ := .of_shape h4 trivial (by simp [Shape.children, hconst])
  have hfunction : u.Spellable ⟨6⟩ := .of_shape h6 ⟨rfl, by simp⟩ (by simp [Shape.children, hint, hparam])
  have hpointer : u.Spellable ⟨8⟩ := .of_shape h8 trivial (by simp [Shape.children, hfunction])
  have harray : u.Spellable ⟨10⟩ := .of_shape h10 trivial (by simp [Shape.children, hpointer])
  have htypeName := typeName_describe hu hmem harray
  dsimp only at htypeName
  rw [hdescribe] at htypeName
  exact ⟨hu, hmem, harray, htypeName⟩

end DeclUnit
end Cognate
