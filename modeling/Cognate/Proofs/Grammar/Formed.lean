import Cognate.Proofs.Readings.Texts

/-!
# Well-formed types from texts

The rules of C for derived types hold of every node that texts lead to, of the canonical ones as of those that are
written, and whether or not a text was accepted: elements of arrays are no functions, functions have neither arrays nor
functions as results or parameters, complex and vector types are made of numbers. What a unit refers to is in it.
-/

namespace Cognate.DeclUnit

variable {u : DeclUnit} {s : Shape} {t : Ty}

/-- What a type of the shape may be made of. Element types, results and parameters are judged without their sugar. -/
def Permits (u : DeclUnit) : Shape → Prop
  | .constantArray element _ | .incompleteArray element | .variableArray element => u.isFunction element = false
  | .prototype result params _ _ => u.IsObject result ∧ ∀ p ∈ params, u.IsObject p
  | .noPrototype result _ => u.IsObject result
  | .complex element => ∃ b ∈ [Builtin.float, .double, .longDouble], u.shape? element = some (.builtin b)
  | .vector element count _ => u.IsScalar element ∧ ∃ n, count = Nat.pow 2 n
  | _ => True

/-- The nodes of a unit are well formed, and all that it refers to is there. -/
structure Formed (u : DeclUnit) : Prop where
  permits : ∀ {t s}, u.shape? t = some s → u.Permits s
  child : ∀ {t s}, u.shape? t = some s → ∀ c ∈ s.children, u.contains c = true
  declared : ∀ {t s}, u.shape? t = some s → u.Declared s
  member : ∀ {id d body}, u.record? id = some d → d.body = some body → ∀ m ∈ body.members, u.contains m.type = true
  base : ∀ {id d body}, u.enum? id = some d → d.body = some body → u.contains body.base = true
  value : ∀ d ∈ u.values, u.contains d.type = true
  typedef : ∀ {name t}, u.typedef? name = some t → u.contains t = true
  tag : ∀ {name t}, u.tag? name = some t → u.contains t = true

theorem mem_of_hasComplex {b : Builtin} (h : Grammar.hasComplex b = true) :
    b ∈ [Builtin.float, .double, .longDouble] := by
  cases b <;> first | decide | cases h

/-- What declarations write may be written. -/
theorem Writes.permits (h : u.Writes t s) : u.Permits s := by
  cases s with
  | complex element =>
    obtain ⟨b, hb, hcomplex⟩ := h
    exact ⟨b, mem_of_hasComplex hcomplex, hb⟩
  | constantArray element size => exact h.1
  | vector | incompleteArray | variableArray | prototype | noPrototype => exact h
  | _ => trivial

/-- Texts, accepted or not, lead to units of well-formed types only. -/
theorem FromTexts.formed (h : u.FromTexts) : u.Formed := by
  have hw := h.written
  have hc := h.closed
  refine ⟨fun hs => (hw.writes hs).permits, fun hs c hm => (hw.usable hs c hm).1, hc.declared, hc.member,
    fun hd hb => ?_, fun d hd => (hw.values d hd).1, fun ht => (hw.usable_typedef ht).1,
    fun ht => (hw.usable_tag ht).1⟩
  obtain ⟨b, hkind⟩ := hc.base hd hb
  exact contains_of_builtinKind? hkind

/-- Parameters that are an array behind a typedef and a function, elements behind a typedef, and a declarator that is
refused for its result. -/
theorem formed_refused_result :
    let u := ((empty "unit" .lp64).declare
      "typedef double real; typedef real row[4]; typedef real v4 __attribute__((vector_size(32)));").2
    let refused := u.declare "row *find(row, int(v4)), bad(void);"
    refused.1 = .error ⟨.badResult "row", ⟨25, 35⟩⟩ ∧
      (refused.2.shape? ⟨17⟩ = some (.prototype ⟨15⟩ [⟨8⟩, ⟨13⟩] false {}) ∧
        refused.2.IsObject ⟨15⟩ ∧ ∀ p ∈ [(⟨8⟩ : Ty), ⟨13⟩], refused.2.IsObject p) ∧
      refused.2.shape? ⟨6⟩ = some (.vector ⟨1⟩ 4 .generic) ∧ refused.2.IsScalar ⟨1⟩ := by
  intro u refused
  have h : refused.2.Formed := FromTexts.formed (.declare _ (.declare _ (.empty "unit" .lp64)))
  obtain ⟨hfault, hprototype, hvector⟩ : refused.1 = .error ⟨.badResult "row", ⟨25, 35⟩⟩ ∧
      refused.2.shape? ⟨17⟩ = some (.prototype ⟨15⟩ [⟨8⟩, ⟨13⟩] false {}) ∧
      refused.2.shape? ⟨6⟩ = some (.vector ⟨1⟩ 4 .generic) := by decide +kernel
  exact ⟨hfault, ⟨hprototype, h.permits hprototype⟩, hvector, (h.permits hvector).1⟩

end Cognate.DeclUnit
