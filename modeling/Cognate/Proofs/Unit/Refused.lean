import Cognate.Proofs.Readings.Texts
import Cognate.Proofs.Unit.Extents

/-!
# Refused operations

An operation that is refused leaves all tables and names of a unit as they are. A typedef that is refused leaves its
node; nodes that are added behind the others change nothing about the types in front of them (`Appends.measure`,
`Appends.describe`).
-/

namespace Cognate.DeclUnit

variable {u v : DeclUnit} {s : Shape} {t : Ty} {op : Operation} {fault : TypeFault}

/-! ## Added nodes -/

/-- The unit with nodes behind its own. -/
structure Appends (u v : DeclUnit) : Prop where
  nodes : u.Extends v
  rest : v = { u with nodes := v.nodes }

theorem Appends.refl (u : DeclUnit) : u.Appends u := ⟨.refl u, rfl⟩

theorem intern_appends (u : DeclUnit) (s : Shape) : u.Appends (u.intern s).2 := ⟨intern_extends u s, intern_frame u s⟩

namespace Appends

variable (h : u.Appends v)
include h

theorem records_eq : v.records = u.records := by rw [h.rest]

theorem enums_eq : v.enums = u.enums := by rw [h.rest]

theorem values_eq : v.values = u.values := by rw [h.rest]

theorem target_eq : v.target = u.target := by rw [h.rest]

theorem record?_eq (id : RecordId) : v.record? id = u.record? id := by rw [record?, h.records_eq, record?]

theorem enum?_eq (id : EnumId) : v.enum? id = u.enum? id := by rw [enum?, h.enums_eq, enum?]

theorem meaning?_eq (name : String) : v.meaning? name = u.meaning? name := by
  rw [h.rest]
  rfl

theorem tag?_eq (name : String) : v.tag? name = u.tag? name := by
  rw [h.rest]
  rfl

theorem typedef?_eq (name : String) : v.typedef? name = u.typedef? name := by
  rw [typedef?, h.meaning?_eq, typedef?]

theorem constant?_eq (name : String) : v.constant? name = u.constant? name := by
  rw [constant?, h.meaning?_eq, constant?]

theorem value?_eq (name : String) : v.value? name = u.value? name := by
  rw [value?, h.meaning?_eq, h.values_eq, value?]

theorem shape?_eq (ht : u.contains t = true) : v.shape? t = u.shape? t := by
  obtain ⟨s, hs⟩ := exists_shape ht
  rw [hs, h.nodes.shape? hs]

end Appends

/-- One level is measured the same. -/
theorem Appends.measureOf (h : u.Appends v) (hc : u.Closed) (hs : u.Declared s)
    {f g : Ty → Except Overflow (Option Extent)} (hfg : ∀ c ∈ s.children, g c = f c) :
    v.measureOf g s = u.measureOf f s := by
  rw [measureOf_congr hfg]
  cases s with
  | record id => rw [DeclUnit.measureOf, DeclUnit.measureOf, h.record?_eq]
  | enum id =>
    -- The integer type is no child of the shape, but it is a type of a closed unit.
    obtain ⟨d, hd⟩ := hs
    rw [DeclUnit.measureOf, DeclUnit.measureOf, h.enum?_eq, hd, h.target_eq]
    cases hb : d.body with
    | none => simp [hb]
    | some body =>
      obtain ⟨b, hkind⟩ := hc.base hd hb
      simp [hb, hkind, h.nodes.builtinKind? hkind]
  | _ => simp only [DeclUnit.measureOf, h.target_eq]

/-- Types are measured the same. By induction on the position of a type. -/
theorem Appends.measure (h : u.Appends v) (hw : u.WellFormed) (hc : u.Closed) (hv : v.WellFormed)
    (ht : u.contains t = true) : v.measure t = u.measure t := by
  induction hi : t.index using Nat.strong_induction_on generalizing t with
  | _ i ih =>
    subst hi
    rw [hv.measure_eq, hw.measure_eq, hw.canonicalShape?_extends h.nodes ht]
    cases hs : u.canonicalShape? t with
    | none => rfl
    | some s =>
      have hshape : u.shape? (u.canonical t) = some s := by rw [← canonicalShape?_eq ht, hs]
      refine h.measureOf hc (hc.declared hshape) fun c hm => ?_
      exact ih c.index (hw.child_canonicalShape_lt hs hm) (hw.contains_child hshape hm) rfl

/-- Spellings are the same. By induction on the depth; the children of a type are in front of it. -/
theorem Appends.spellWithin (h : u.Appends v) (hw : u.WellFormed) (ht : u.contains t = true) (fuel : Nat)
    (declarator : String) : v.spellWithin fuel t declarator = u.spellWithin fuel t declarator := by
  induction fuel generalizing t declarator with
  | zero => rfl
  | succ fuel ih =>
    obtain ⟨s, hs⟩ := exists_shape ht
    have hspell : ∀ c ∈ s.children, v.spellWithin fuel c = u.spellWithin fuel c :=
      fun c hm => funext fun d => ih (hw.contains_child hs hm) d
    have harray : ∀ c ∈ s.children, v.isArray c = u.isArray c := fun c hm => by
      rw [isArray, isArray, hw.canonicalShape?_extends h.nodes (hw.contains_child hs hm)]
    have hfunction : ∀ c ∈ s.children, v.isFunction c = u.isFunction c :=
      fun c hm => hw.isFunction_extends h.nodes (hw.contains_child hs hm)
    have hshape : ∀ c ∈ s.children, v.shape? c = u.shape? c := fun c hm => h.shape?_eq (hw.contains_child hs hm)
    rw [DeclUnit.spellWithin, DeclUnit.spellWithin, h.nodes.shape? hs, hs]
    cases s with
    | prototype result params variadic traits =>
      have hparams : params.map (v.spellWithin fuel · "") = params.map (u.spellWithin fuel · "") :=
        List.map_congr_left fun c hm => by rw [hspell c (by simp [Shape.children, hm])]
      simp only [hparams, hspell result (by simp [Shape.children])]
    | record id => simp only [h.record?_eq]
    | enum id => simp only [h.enum?_eq]
    | builtin | typedef | auto | deducedTemplate | objcObject | objcInterface => rfl
    | _ =>
      simp only [Shape.children, List.mem_cons, List.not_mem_nil, or_false, forall_eq_or_imp, forall_eq]
        at hspell harray hfunction hshape
      simp only [hspell, harray, hfunction, hshape]

theorem Appends.describe (h : u.Appends v) (hw : u.WellFormed) (ht : u.contains t = true) :
    v.describe t = u.describe t := h.spellWithin hw ht _ _

/-! ## Refusals -/

/-- The fault of a definition that is refused. -/
def faultOf? {α : Type} (r : Except TypeFault α × DeclUnit) : Option TypeFault :=
  match r.1 with
  | .ok _ => none
  | .error fault => some fault

/-- Why an operation is refused, if it is. -/
def refusal? (u : DeclUnit) : Operation → Option TypeFault
  | .completeRecord t fields => faultOf? (u.completeRecord t fields)
  | .completeEnum t base constants => faultOf? (u.completeEnum t base constants)
  | .nameType name t => faultOf? (u.defineTypedef name t)
  | .defineTag name t => faultOf? (u.defineTag name t)
  | .defineConstant name value t => faultOf? (u.defineConstant name value t)
  | .declareValue name t => faultOf? (u.declareValue name t)
  | .intern _ | .qualify _ _ | .declareRecord _ _ | .declareEnum _ => none

theorem faultOf?_eq_some {α : Type} {r : Except TypeFault α × DeclUnit} :
    faultOf? r = some fault ↔ r.1 = .error fault := by
  unfold faultOf?
  cases r.1 <;> simp

/-- A typedef that is refused leaves its node and no name. -/
theorem defineTypedef_of_error {name : String} (h : (u.defineTypedef name t).1 = .error fault) :
    (u.defineTypedef name t).2 = (u.intern (.typedef name t)).2 := by
  unfold defineTypedef bindTypedef at h ⊢
  dsimp only at h ⊢
  split at h
  · cases h
  · next existing hm =>
    split at h
    · cases h
    · next hne => rw [if_neg hne]
  · rfl

/-- A refused operation adds nodes at most, and none but a typedef's. -/
theorem apply_of_refusal? (h : u.refusal? op = some fault) :
    u.Appends (u.apply op) ∧ ((∀ name aliased, op ≠ .nameType name aliased) → u.apply op = u) := by
  have hsame : u.apply op = u → u.Appends (u.apply op) ∧ ((∀ name aliased, op ≠ .nameType name aliased) →
      u.apply op = u) := fun he => ⟨he.symm ▸ .refl u, fun _ => he⟩
  cases op with
  | intern | qualify | declareRecord | declareEnum => cases h
  | nameType name t =>
    refine ⟨?_, fun hne => absurd rfl (hne name t)⟩
    simp only [apply, defineTypedef_of_error (faultOf?_eq_some.1 h)]
    exact intern_appends u _
  | completeRecord t fields => exact hsame (u.completeRecord_allOrNothing t fields fault (faultOf?_eq_some.1 h))
  | completeEnum t base constants =>
    exact hsame (u.completeEnum_allOrNothing t base constants fault (faultOf?_eq_some.1 h))
  | defineTag name t => exact hsame (u.defineTag_allOrNothing name t fault (faultOf?_eq_some.1 h))
  | defineConstant name value t =>
    exact hsame (u.defineConstant_allOrNothing name value t fault (faultOf?_eq_some.1 h))
  | declareValue name t => exact hsame (u.declareValue_allOrNothing name t fault (faultOf?_eq_some.1 h))

/-- A refused operation leaves records, enums, values and what names are bound to as they are, and all types that were
there with their shapes, canonical types, layouts and spellings. -/
theorem Built.refused (hu : u.Built) (hop : u.admits op = true) (h : u.refusal? op = some fault) :
    let v := u.apply op
    v.records = u.records ∧ v.enums = u.enums ∧ v.values = u.values ∧
      (∀ name, v.typedef? name = u.typedef? name ∧ v.tag? name = u.tag? name ∧
        v.constant? name = u.constant? name ∧ v.value? name = u.value? name) ∧
      u.nodes.toList <+: v.nodes.toList ∧
      (∀ t, u.contains t = true → v.shape? t = u.shape? t ∧ v.canonical t = u.canonical t ∧
        v.measure t = u.measure t ∧ v.describe t = u.describe t) ∧
      ((∀ name aliased, op ≠ .nameType name aliased) → v = u) := by
  intro v
  obtain ⟨happ, hsame⟩ := apply_of_refusal? h
  have hw := hu.wellFormed
  have hv := (apply_spec hw hop).1
  refine ⟨happ.records_eq, happ.enums_eq, happ.values_eq, fun name => ?_, happ.nodes, fun t ht => ?_, hsame⟩
  · exact ⟨happ.typedef?_eq name, happ.tag?_eq name, happ.constant?_eq name, happ.value?_eq name⟩
  · exact ⟨happ.shape?_eq ht, happ.nodes.canonical ht, happ.measure hw hu.closed hv ht, happ.describe hw ht⟩

/-- A record whose last member does not fit, and a typedef of a name that is taken: its node is added. -/
theorem refused_late_member :
    let u := (empty "unit" .lp64).applyAll [.intern (.builtin .int), .nameType "cell" ⟨0⟩,
      .declareRecord .struct (some "pair"), .intern (.constantArray ⟨1⟩ (Nat.pow 2 58))]
    let complete := Operation.completeRecord ⟨2⟩ [("key", ⟨1⟩), ("left", ⟨4⟩), ("right", ⟨4⟩)]
    let name := Operation.nameType "cell" ⟨4⟩
    (u.refusal? complete = some (.layoutOverflow "struct pair") ∧ u.apply complete = u) ∧
      (u.refusal? name = some (.redefinition "cell") ∧ (u.apply name).size = u.size + 1 ∧
        (u.apply name).typedef? "cell" = u.typedef? "cell" ∧ (u.apply name).describe ⟨4⟩ = u.describe ⟨4⟩) := by
  intro u complete name
  have hu : u.Built := .inl ⟨"unit", .lp64, _, by decide +kernel, rfl⟩
  have hcomplete : u.refusal? complete = some (.layoutOverflow "struct pair") := by decide +kernel
  have hname : u.refusal? name = some (.redefinition "cell") := by decide +kernel
  obtain ⟨-, -, -, -, -, -, hsame⟩ := Built.refused hu (by decide +kernel) hcomplete
  obtain ⟨-, -, -, hnames, -, htypes, -⟩ := Built.refused hu (by decide +kernel) hname
  refine ⟨⟨hcomplete, hsame fun _ _ => by simp [complete]⟩, hname, by decide +kernel, (hnames "cell").1, ?_⟩
  exact (htypes ⟨4⟩ (by decide +kernel)).2.2.2

end Cognate.DeclUnit
