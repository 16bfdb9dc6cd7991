import Cognate.Grammar.TypeWords
import Cognate.Proofs.Unit.Runs
import Cognate.Token.Rule

/-!
# Written types

What holds of every type that declarations write, beyond the graph of nodes: names are words, a typedef or tag stands
for what its name is bound to, and a shape is one that some declaration asks for. `Written` collects it, `Grows` is what
is carried along while a unit is built, and `Written.of_grows` says what is left to show of a longer unit.
-/

namespace Cognate

/-- A word that is read as a name. -/
structure IsName (text : String) : Prop where
  word : ∃ c cs, text.toList = c :: cs ∧ isWordStart c = true ∧ cs.all isWordRest = true
  free : Keyword.ofSpelling? text = none

/-- The builtin types that words name on a target. -/
def Target.names (target : Target) (b : Builtin) : Bool :=
  match b with
  | .charS | .charU => b == target.plainChar
  | .wcharS | .wcharU => b == target.wcharKind
  | .nullPtr => false
  | _ => true

/-- The shapes that qualifiers are written for: a first type, or a pointer. -/
def Shape.takesQualifiers : Shape → Bool
  | builtin _ | complex _ | pointer _ | blockPointer _ | memberPointer _ _ | record _ | enum _ | typedef _ _ | auto
  | atomic _ => true
  | _ => false

/-- A struct, union or enum. -/
def Shape.isTagged : Shape → Bool
  | record _ | enum _ => true
  | _ => false

namespace DeclUnit

variable {u v w : DeclUnit} {s : Shape} {t c : Ty} {name : String}

/-! ## Growing units -/

/-- The longer unit has all nodes and names of the first, and its records and enums but for their bodies. -/
structure Grows (u v : DeclUnit) : Prop where
  nodes : u.Extends v
  target : v.target = u.target
  typedefs : ∀ {name t}, u.typedef? name = some t → v.typedef? name = some t
  tags : ∀ {name t}, u.tag? name = some t → v.tag? name = some t
  records : ∀ {id d}, u.record? id = some d → ∃ d', v.record? id = some d' ∧ d'.tag = d.tag ∧ d'.name = d.name
  enums : ∀ {id d}, u.enum? id = some d → ∃ d', v.enum? id = some d' ∧ d'.name = d.name

namespace Grows

theorem refl (u : DeclUnit) : u.Grows u :=
  ⟨.refl u, rfl, id, id, fun h => ⟨_, h, rfl, rfl⟩, fun h => ⟨_, h, rfl⟩⟩

theorem trans (h : u.Grows v) (h' : v.Grows w) : u.Grows w := by
  refine ⟨h.nodes.trans h'.nodes, h'.target.trans h.target, fun ht => h'.typedefs (h.typedefs ht),
    fun ht => h'.tags (h.tags ht), fun hd => ?_, fun hd => ?_⟩
  · obtain ⟨d', hd', htag, hname⟩ := h.records hd
    obtain ⟨d'', hd'', htag', hname'⟩ := h'.records hd'
    exact ⟨d'', hd'', htag'.trans htag, hname'.trans hname⟩
  · obtain ⟨d', hd', hname⟩ := h.enums hd
    obtain ⟨d'', hd'', hname'⟩ := h'.enums hd'
    exact ⟨d'', hd'', hname'.trans hname⟩

end Grows

theorem intern_grows (hu : u.WellFormed) (hs : ∀ c ∈ s.children, u.contains c = true) : u.Grows (u.intern s).2 := by
  obtain ⟨-, hext, -⟩ := intern_spec hu hs
  rw [intern_frame] at hext ⊢
  exact ⟨hext, rfl, id, id, fun h => ⟨_, h, rfl, rfl⟩, fun h => ⟨_, h, rfl⟩⟩

/-! ## Written units -/

/-- A type that can be named: what is named by a typedef is what the name is bound to. -/
def Usable (u : DeclUnit) (t : Ty) : Prop :=
  u.contains t = true ∧ ∀ name aliased, u.shape? t = some (.typedef name aliased) → u.typedef? name = some t

/-- No array and no function. -/
def IsObject (u : DeclUnit) (t : Ty) : Prop := u.isArray t = false ∧ u.isFunction t = false

/-- An integer or floating type behind all sugar. -/
def IsScalar (u : DeclUnit) (t : Ty) : Prop :=
  ∃ b, u.builtinKind? t = some b ∧ (b.isInteger = true ∨ b.isFloating = true)

/-- The type `t` of this shape is one that a declaration writes. -/
def Writes (u : DeclUnit) (t : Ty) : Shape → Prop
  | .builtin b => u.target.names b = true
  | .complex element => ∃ b, u.shape? element = some (.builtin b) ∧ Grammar.hasComplex b = true
  | .vector element count _ => u.IsScalar element ∧ ∃ n, count = Nat.pow 2 n
  | .constantArray element size => u.isFunction element = false ∧ size < wordLimit
  | .incompleteArray element | .variableArray element => u.isFunction element = false
  | .prototype result params _ _ => u.IsObject result ∧ ∀ p ∈ params, u.IsObject p
  | .noPrototype result _ => u.IsObject result
  | .record id => ∃ d, u.record? id = some d ∧ (d.tag = .struct ∨ d.tag = .union) ∧
      ∀ name, d.name = some name → IsName name ∧ u.tag? name = some t
  | .enum id => ∃ d, u.enum? id = some d ∧ ∀ name, d.name = some name → IsName name ∧ u.tag? name = some t
  | .typedef name _ => IsName name
  | .qualified inner q => q.isEmpty = false ∧ ∃ s, u.shape? inner = some s ∧ s.takesQualifiers = true
  | .deducedTemplate | .objcObject | .objcInterface | .objcPointer _ | .pipe _ => False
  | _ => True

/-- All types of the unit are written ones. -/
structure Written (u : DeclUnit) : Prop where
  wellFormed : u.WellFormed
  writes : ∀ {t s}, u.shape? t = some s → u.Writes t s
  usable : ∀ {t s}, u.shape? t = some s → ∀ c ∈ s.children, u.Usable c
  typedefs : ∀ {name t}, u.typedef? name = some t → ∃ aliased, u.shape? t = some (.typedef name aliased)
  tags : ∀ {name t}, u.tag? name = some t → ∃ s, u.shape? t = some s ∧ s.isTagged = true
  values : ∀ d ∈ u.values, u.Usable d.type

theorem Usable.of_shape (hs : u.shape? t = some s) (h : ∀ name aliased, s ≠ .typedef name aliased) : u.Usable t := by
  refine ⟨contains_of_shape? hs, fun name aliased ht => ?_⟩
  rw [hs] at ht
  exact absurd (Option.some.inj ht) (h name aliased)

theorem Written.usable_typedef (hu : u.Written) (h : u.typedef? name = some t) : u.Usable t := by
  obtain ⟨aliased, ht⟩ := hu.typedefs h
  refine ⟨contains_of_shape? ht, fun name' aliased' ht' => ?_⟩
  rw [ht] at ht'
  cases ht'
  exact h

theorem Written.usable_tag (hu : u.Written) (h : u.tag? name = some t) : u.Usable t := by
  obtain ⟨s, hs, htagged⟩ := hu.tags h
  exact .of_shape hs fun _ _ he => by simp [he, Shape.isTagged] at htagged

/-! ## What growing keeps -/

theorem WellFormed.canonicalShape?_canonical (hu : u.WellFormed) (ht : u.contains t = true) :
    u.canonicalShape? (u.canonical t) = u.canonicalShape? t := by
  rw [canonicalShape?_eq (hu.contains_canonical ht), canonicalShape?_eq ht, hu.canonical_canonical]

theorem WellFormed.canonicalShape?_flat (hu : u.WellFormed) (hs : u.shape? t = some s) (hsugar : s.isSugar = false) :
    u.canonicalShape? t = some (s.map u.canonical) := by
  rw [canonicalShape?_eq (contains_of_shape? hs), hu.flat hs hsugar]

theorem WellFormed.canonicalShape?_sugar (hu : u.WellFormed) (hs : u.shape? t = some s) (hsugar : s.isSugar = true)
    {c : Ty} (hc : c ∈ s.children) : u.canonicalShape? t = u.canonicalShape? c := by
  rw [canonicalShape?_eq (contains_of_shape? hs), canonicalShape?_eq (hu.contains_child hs hc), hu.sugar hs hsugar hc]

theorem WellFormed.canonicalShape?_extends (hu : u.WellFormed) (h : u.Extends v) (ht : u.contains t = true) :
    v.canonicalShape? t = u.canonicalShape? t := by
  obtain ⟨s, hs⟩ := exists_shape (hu.contains_canonical ht)
  rw [canonicalShape?_eq (h.contains ht), canonicalShape?_eq ht, h.canonical ht, hs, h.shape? hs]

theorem WellFormed.isFunction_extends (hu : u.WellFormed) (h : u.Extends v) (ht : u.contains t = true) :
    v.isFunction t = u.isFunction t := by
  rw [isFunction, isFunction, hu.canonicalShape?_extends h ht]

theorem WellFormed.isObject_extends (hu : u.WellFormed) (h : u.Extends v) (ht : u.contains t = true)
    (ho : u.IsObject t) : v.IsObject t := by
  refine ⟨?_, by rw [hu.isFunction_extends h ht, ho.2]⟩
  rw [isArray, hu.canonicalShape?_extends h ht]
  exact ho.1

theorem WellFormed.isScalar_extends (hu : u.WellFormed) (h : u.Extends v) (ht : u.contains t = true)
    (hs : u.IsScalar t) : v.IsScalar t := by
  obtain ⟨b, hb, hkind⟩ := hs
  refine ⟨b, ?_, hkind⟩
  rw [builtinKind?, hu.canonicalShape?_extends h ht]
  exact hb

theorem Grows.usable (h : u.Grows v) (ht : u.Usable t) : v.Usable t := by
  refine ⟨h.nodes.contains ht.1, fun name aliased hs => ?_⟩
  obtain ⟨s, hs'⟩ := exists_shape ht.1
  rw [h.nodes.shape? hs'] at hs
  cases hs
  exact h.typedefs (ht.2 name aliased hs')

/-- A shape that is written stays so, with its children. -/
theorem Grows.writes (h : u.Grows v) (hu : u.WellFormed) (hc : ∀ c ∈ s.children, u.contains c = true)
    (hs : u.Writes t s) : v.Writes t s := by
  have hobject : ∀ c ∈ s.children, u.IsObject c → v.IsObject c := fun c hm => hu.isObject_extends h.nodes (hc c hm)
  have hfunction : ∀ c ∈ s.children, v.isFunction c = u.isFunction c :=
    fun c hm => hu.isFunction_extends h.nodes (hc c hm)
  cases s with
  | builtin b => exact (congrArg (Target.names · b) h.target).trans hs
  | complex element =>
    obtain ⟨b, hb, hcomplex⟩ := hs
    exact ⟨b, h.nodes.shape? hb, hcomplex⟩
  | vector element count kind =>
    exact ⟨hu.isScalar_extends h.nodes (hc element (by simp [Shape.children])) hs.1, hs.2⟩
  | constantArray element size => exact ⟨(hfunction element (by simp [Shape.children])).trans hs.1, hs.2⟩
  | incompleteArray element => exact (hfunction element (by simp [Shape.children])).trans hs
  | variableArray element => exact (hfunction element (by simp [Shape.children])).trans hs
  | prototype result params variadic traits =>
    refine ⟨hobject result (by simp [Shape.children]) hs.1, fun p hp => ?_⟩
    exact hobject p (by simp [Shape.children, hp]) (hs.2 p hp)
  | noPrototype result traits => exact hobject result (by simp [Shape.children]) hs
  | record id =>
    obtain ⟨d, hd, htag, hname⟩ := hs
    obtain ⟨d', hd', htag', hname'⟩ := h.records hd
    refine ⟨d', hd', htag' ▸ htag, fun name hn => ?_⟩
    obtain ⟨hword, ht⟩ := hname name (hname' ▸ hn)
    exact ⟨hword, h.tags ht⟩
  | enum id =>
    obtain ⟨d, hd, hname⟩ := hs
    obtain ⟨d', hd', hname'⟩ := h.enums hd
    refine ⟨d', hd', fun name hn => ?_⟩
    obtain ⟨hword, ht⟩ := hname name (hname' ▸ hn)
    exact ⟨hword, h.tags ht⟩
  | qualified inner q =>
    obtain ⟨hq, s', hs', htakes⟩ := hs
    exact ⟨hq, s', h.nodes.shape? hs', htakes⟩
  | _ => exact hs

/-- A longer unit is written if what is new in it is. -/
theorem Written.of_grows (hu : u.Written) (h : u.Grows v) (hv : v.WellFormed)
    (hnodes : ∀ t s, v.shape? t = some s → u.shape? t = some s ∨ (v.Writes t s ∧ ∀ c ∈ s.children, v.Usable c))
    (htypedefs : ∀ name t, v.typedef? name = some t →
      u.typedef? name = some t ∨ ∃ aliased, v.shape? t = some (.typedef name aliased))
    (htags : ∀ name t, v.tag? name = some t →
      u.tag? name = some t ∨ ∃ s, v.shape? t = some s ∧ s.isTagged = true)
    (hvalues : ∀ d ∈ v.values, d ∈ u.values ∨ v.Usable d.type) : v.Written := by
  refine ⟨hv, fun {t s} hs => ?_, fun {t s} hs c hc => ?_, fun {name t} ht => ?_, fun {name t} ht => ?_,
    fun d hd => ?_⟩
  · rcases hnodes t s hs with ho | ⟨hw, -⟩
    · exact h.writes hu.wellFormed (fun c hc => hu.wellFormed.contains_child ho hc) (hu.writes ho)
    · exact hw
  · rcases hnodes t s hs with ho | ⟨-, hn⟩
    · exact h.usable (hu.usable ho c hc)
    · exact hn c hc
  · rcases htypedefs name t ht with ho | hn
    · obtain ⟨aliased, ha⟩ := hu.typedefs ho
      exact ⟨aliased, h.nodes.shape? ha⟩
    · exact hn
  · rcases htags name t ht with ho | hn
    · obtain ⟨s, hs, htagged⟩ := hu.tags ho
      exact ⟨s, h.nodes.shape? hs, htagged⟩
    · exact hn
  · rcases hvalues d hd with ho | hn
    · exact h.usable (hu.values d ho)
    · exact hn

theorem empty_written (name : String) (target : Target) : (empty name target).Written := by
  refine ⟨empty_wellFormed name target, ?_, ?_, ?_, ?_, ?_⟩ <;>
    simp [empty, shape?, node?, typedef?, meaning?, tag?]

end DeclUnit
end Cognate
