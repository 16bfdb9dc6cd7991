import Cognate.Proofs.Unit.Nodes
import Cognate.Unit.Record
import Cognate.Unit.Scope

/-!
# Runs of operations

The operations that build a unit, and the units that runs of them reach from an empty one. An operation may be refused;
the unit is then as the operation leaves it. Every operation on handles in range keeps a unit well-formed, and its nodes
as they are (`apply_spec`).
-/

namespace Cognate

/-- What can be done to a unit. Typedef nodes and derived types are interned as shapes. -/
inductive Operation where
  | intern (shape : Shape)
  | qualify (type : Ty) (qualifiers : Qualifiers)
  | declareRecord (tag : Tag) (name : Option String)
  | declareEnum (name : Option String)
  | completeRecord (type : Ty) (fields : List (String × Ty))
  | completeEnum (type base : Ty) (constants : List (String × Int))
  | nameType (name : String) (aliased : Ty)
  | defineTag (name : String) (type : Ty)
  | defineConstant (name : String) (value : Int) (type : Ty)
  | declareValue (name : String) (type : Ty)
deriving DecidableEq, Repr

namespace DeclUnit

/-- The unit that an operation leaves. -/
def apply (u : DeclUnit) : Operation → DeclUnit
  | .intern s => (u.intern s).2
  | .qualify t q => (u.qualify t q).2
  | .declareRecord tag name => (u.declareRecord tag name).2
  | .declareEnum name => (u.declareEnum name).2
  | .completeRecord t fields => (u.completeRecord t fields).2
  | .completeEnum t base constants => (u.completeEnum t base constants).2
  | .nameType name t => (u.defineTypedef name t).2
  | .defineTag name t => (u.defineTag name t).2
  | .defineConstant name value t => (u.defineConstant name value t).2
  | .declareValue name t => (u.declareValue name t).2

def applyAll (u : DeclUnit) (ops : List Operation) : DeclUnit := ops.foldl apply u

/-! ## Handles in range -/

/-- All handles that a shape is made of belong to the unit. -/
def inRange (u : DeclUnit) (s : Shape) : Bool :=
  s.children.all u.contains &&
    match s with
    | .record id => id.index < u.records.size
    | .enum id => id.index < u.enums.size
    | _ => true

/-- All handles that an operation is given belong to the unit. -/
def admits (u : DeclUnit) : Operation → Bool
  | .intern s => u.inRange s
  | .qualify t _ | .nameType _ t | .defineTag _ t | .defineConstant _ _ t | .declareValue _ t => u.contains t
  | .declareRecord _ _ | .declareEnum _ => true
  | .completeRecord t fields => u.contains t && fields.all fun f => u.contains f.2
  | .completeEnum t base _ => u.contains t && u.contains base

def admitsAll (u : DeclUnit) : List Operation → Bool
  | [] => true
  | op :: ops => u.admits op && (u.apply op).admitsAll ops

/-- Some run of operations on handles in range leads from an empty unit to this one. -/
def Reachable (u : DeclUnit) : Prop :=
  ∃ name target ops, (empty name target).admitsAll ops = true ∧ u = (empty name target).applyAll ops

variable {u v : DeclUnit} {op : Operation}

theorem inRange_children {s : Shape} (h : u.inRange s = true) : ∀ c ∈ s.children, u.contains c = true := by
  simp only [inRange, Bool.and_eq_true, List.all_eq_true] at h
  exact h.1

/-! ## Definitions -/

/-- A definition that is refused leaves the unit as it was. -/
def AllOrNothing {α : Type} (u : DeclUnit) (r : Except TypeFault α × DeclUnit) : Prop :=
  ∀ fault, r.1 = .error fault → r.2 = u

/-- What holds of the unit, and of the unit that an accepted definition leaves, holds of what is left in either case. -/
theorem AllOrNothing.cases {r : Except TypeFault Unit × DeclUnit} (h : u.AllOrNothing r) {P : DeclUnit → Prop}
    (hu : P u) (hv : ∀ v, r = (.ok (), v) → P v) : P r.2 := by
  obtain ⟨outcome, v⟩ := r
  cases outcome with
  | ok => exact hv v rfl
  | error fault =>
    obtain rfl : v = u := h fault rfl
    exact hu

theorem recordOf?_eq_some {id : RecordId} {d : RecordDecl} (h : u.recordOf? t = some (id, d)) :
    u.canonicalShape? t = some (.record id) ∧ u.record? id = some d := by
  unfold recordOf? at h
  split at h
  · next id' hs =>
    obtain ⟨d', hd, he⟩ := Option.map_eq_some_iff.1 h
    cases he
    exact ⟨hs, hd⟩
  · cases h

theorem enumOf?_eq_some {id : EnumId} {d : EnumDecl} (h : u.enumOf? t = some (id, d)) :
    u.canonicalShape? t = some (.enum id) ∧ u.enum? id = some d := by
  unfold enumOf? at h
  split at h
  · next id' hs =>
    obtain ⟨d', hd, he⟩ := Option.map_eq_some_iff.1 h
    cases he
    exact ⟨hs, hd⟩
  · cases h

/-- Records with one of them replaced. -/
theorem record?_set {id id' : RecordId} {d d' : RecordDecl} (h : u.record? id = some d) :
    { u with records := u.records.set! id.index d' }.record? id' = if id' = id then some d' else u.record? id' := by
  have hlt := (Array.getElem?_eq_some_iff.1 h).1
  by_cases he : id' = id
  · simp [record?, he, hlt]
  · have hne : id.index ≠ id'.index := fun hi => he (by cases id; cases id'; exact congrArg _ hi.symm)
    simp [record?, he, hne]

/-- Enums with one of them replaced. -/
theorem enum?_set {id id' : EnumId} {d d' : EnumDecl} (h : u.enum? id = some d) :
    { u with enums := u.enums.set! id.index d' }.enum? id' = if id' = id then some d' else u.enum? id' := by
  have hlt := (Array.getElem?_eq_some_iff.1 h).1
  by_cases he : id' = id
  · simp [enum?, he, hlt]
  · have hne : id.index ≠ id'.index := fun hi => he (by cases id; cases id'; exact congrArg _ hi.symm)
    simp [enum?, he, hne]

/-- The first member has a layout and a place, and the others are placed in what is then the record. -/
theorem placeMembers_cons_eq_ok {isUnion : Bool} {stop align : Nat} {name : String} {type : Ty}
    {fields : List (String × Ty)} {ms : List Member} {whole : Extent}
    (h : u.placeMembers isUnion stop align ((name, type) :: fields) = .ok (ms, whole)) :
    ∃ e offset next ms', u.memberExtent isUnion fields.isEmpty type = .ok (some e) ∧
      (if isUnion then some 0 else alignUp stop e.align) = some offset ∧ word? (offset + e.width) = some next ∧
      u.placeMembers isUnion (max stop next) (max align e.align) fields = .ok (ms', whole) ∧
      ms = ⟨if name.isEmpty then none else some name, type, offset⟩ :: ms' := by
  unfold placeMembers at h
  split at h
  · cases h
  · cases h
  next e he =>
  split at h
  · cases h
  next offset hoffset =>
  split at h
  · cases h
  next next hnext =>
  split at h
  · cases h
  next ms' whole' hrest =>
  cases h
  exact ⟨e, offset, next, ms', he, hoffset, hnext, hrest, rfl⟩

/-- A record without a body gets one of its placed members, and nothing else changes. -/
theorem completeRecord_eq_ok {fields : List (String × Ty)} (h : u.completeRecord t fields = (.ok (), v)) :
    ∃ id d members extent, u.recordOf? t = some (id, d) ∧ d.body = none ∧
      u.placeMembers (d.tag == .union) 0 recordAlign fields = .ok (members, extent) ∧
      v = { u with records := u.records.set! id.index { d with body := some ⟨members, extent⟩ } } := by
  unfold completeRecord at h
  split at h
  · cases h
  next id d hd =>
  split at h
  · cases h
  next hbody =>
  split at h
  · cases h
  · cases h
  · cases h
  next members extent hplaced =>
  cases h
  exact ⟨id, d, members, extent, hd, by simpa using hbody, hplaced, rfl⟩

/-- The body holds each constant in the width of the integer type. -/
theorem completeEnum_stores {base : Ty} {constants : List (String × Int)}
    (h : u.completeEnum t base constants = (.ok (), v)) :
    ∃ id d b e, u.enumOf? t = some (id, d) ∧ d.body = none ∧ u.builtinKind? base = some b ∧ b.isInteger = true ∧
      u.extent base = some e ∧
      v = { u with enums := u.enums.set! id.index { d with body := some ⟨base, constants.map fun c =>
        ⟨c.1, WideInt.ofInt (enumeratorBits e) c.2⟩⟩ } } := by
  unfold completeEnum at h
  split at h
  · cases h
  next id d hd =>
  split at h
  · cases h
  next hbody =>
  split at h
  · cases h
  · next e b he hb =>
    cases h
    obtain ⟨hb, hinteger⟩ := Option.filter_eq_some_iff.1 hb
    exact ⟨id, d, b, e, hd, by simpa using hbody, hb, hinteger, extent_eq_some.2 he, rfl⟩
  · cases h

/-- An enum without a body gets one over an integer type, and nothing else changes. -/
theorem completeEnum_eq_ok {base : Ty} {constants : List (String × Int)}
    (h : u.completeEnum t base constants = (.ok (), v)) :
    ∃ id d b enumerators, u.enumOf? t = some (id, d) ∧ d.body = none ∧ u.builtinKind? base = some b ∧
      v = { u with enums := u.enums.set! id.index { d with body := some ⟨base, enumerators⟩ } } := by
  obtain ⟨id, d, b, e, hd, hbody, hb, -, -, rfl⟩ := completeEnum_stores h
  exact ⟨id, d, b, _, hd, hbody, hb, rfl⟩

/-- A tag that is free is bound. -/
theorem defineTag_eq_ok {name : String} {t : Ty} (h : u.defineTag name t = (.ok (), v)) :
    u.tag? name = none ∧ v = { u with tags := (name, t) :: u.tags } := by
  unfold defineTag at h
  split at h <;> cases h
  next hfree => exact ⟨hfree, rfl⟩

/-- A name that is free is bound. -/
theorem defineName_eq_ok {name : String} {m : Meaning} (h : u.defineName name m = (.ok (), v)) :
    u.meaning? name = none ∧ v = u.bind name m := by
  unfold defineName at h
  split at h <;> cases h
  next hfree => exact ⟨hfree, rfl⟩

theorem defineName_of_free {name : String} {m : Meaning} (h : u.meaning? name = none) :
    u.defineName name m = (.ok (), u.bind name m) := by
  rw [defineName, h]

/-- A name that is free is bound to a constant. -/
theorem defineConstant_eq_ok {name : String} {value : Int} {t : Ty} (h : u.defineConstant name value t = (.ok (), v)) :
    u.meaning? name = none ∧ v = u.bind name (.constant value t) := defineName_eq_ok h

/-- A value is new under a name that is free, so that binding the name is not refused once the value is added. -/
theorem declareValue_of_free {name : String} (h : u.meaning? name = none) (t : Ty) : u.declareValue name t =
    (.ok (), { u with values := u.values.push ⟨name, t⟩ }.bind name (.value u.values.size)) := by
  rw [declareValue, h]
  exact defineName_of_free h

/-- A name that is free is bound to a new value. The value of a name stays, or its array is completed. -/
theorem declareValue_eq_ok {name : String} {t : Ty} (h : u.declareValue name t = (.ok (), v)) :
    (u.meaning? name = none ∧ v = { u with values := u.values.push ⟨name, t⟩ }.bind name (.value u.values.size)) ∨
      ∃ i d, u.meaning? name = some (.value i) ∧ u.values[i]? = some d ∧
        (v = u ∨ u.completesArray d.type t = true ∧ v = { u with values := u.values.set! i { d with type := t } }) := by
  cases hm : u.meaning? name with
  | none =>
    rw [declareValue_of_free hm] at h
    cases h
    exact .inl ⟨rfl, rfl⟩
  | some m =>
    unfold declareValue at h
    rw [hm] at h
    split at h
    · next hfree => cases hfree
    · next i hposition =>
      cases hposition
      split at h
      · cases h
      · next d hd =>
        split_ifs at h with hsame harray
        · cases h
          exact .inr ⟨i, d, rfl, hd, .inl rfl⟩
        · cases h
          exact .inr ⟨i, d, rfl, hd, .inr ⟨harray, rfl⟩⟩
        · cases h
    · cases h

/-! ### Refusals -/

theorem completeRecord_allOrNothing (u : DeclUnit) (t : Ty) (fields : List (String × Ty)) :
    u.AllOrNothing (u.completeRecord t fields) := by
  intro fault h
  unfold completeRecord at h ⊢
  split
  · rfl
  · split
    · rfl
    · split <;> first | rfl | simp_all

theorem completeEnum_allOrNothing (u : DeclUnit) (t base : Ty) (constants : List (String × Int)) :
    u.AllOrNothing (u.completeEnum t base constants) := by
  intro fault h
  unfold completeEnum at h ⊢
  split
  · rfl
  · split
    · rfl
    · split <;> first | rfl | simp_all

theorem defineName_allOrNothing (u : DeclUnit) (name : String) (m : Meaning) :
    u.AllOrNothing (u.defineName name m) := by
  intro fault h
  unfold defineName at h ⊢
  split
  · simp_all
  · rfl

theorem defineTag_allOrNothing (u : DeclUnit) (name : String) (t : Ty) : u.AllOrNothing (u.defineTag name t) := by
  intro fault h
  unfold defineTag at h ⊢
  split
  · simp_all
  · rfl

theorem defineConstant_allOrNothing (u : DeclUnit) (name : String) (value : Int) (t : Ty) :
    u.AllOrNothing (u.defineConstant name value t) := u.defineName_allOrNothing name _

theorem declareValue_allOrNothing (u : DeclUnit) (name : String) (t : Ty) :
    u.AllOrNothing (u.declareValue name t) := by
  intro fault h
  cases hm : u.meaning? name with
  | none =>
    rw [declareValue_of_free hm] at h
    cases h
  | some m =>
    unfold declareValue at h ⊢
    rw [hm] at h ⊢
    cases m with
    | value position =>
      dsimp only at h ⊢
      split
      · rfl
      · split_ifs <;> first | rfl | simp_all
    | typedef | constant => rfl

/-- The node of a typedef is added, and its name is bound to it if it is free. -/
theorem defineTypedef_cases (u : DeclUnit) (name : String) (t : Ty) :
    ((u.intern (.typedef name t)).2.meaning? name = none ∧ (u.defineTypedef name t).2 =
        (u.intern (.typedef name t)).2.bind name (.typedef (u.intern (.typedef name t)).1)) ∨
      (u.defineTypedef name t).2 = (u.intern (.typedef name t)).2 := by
  unfold defineTypedef bindTypedef
  dsimp only
  split
  · next hfree => exact .inl ⟨hfree, rfl⟩
  · split <;> exact .inr rfl
  · exact .inr rfl

/-- Qualifying a type leaves what interning a qualified type leaves, or nothing. -/
theorem qualify_or_intern (u : DeclUnit) (t : Ty) (q : Qualifiers) :
    (u.qualify t q).2 = u ∨ ∃ inner p, (u.qualify t q).2 = (u.intern (.qualified inner p)).2 := by
  unfold qualify
  split
  · exact .inl rfl
  · split
    · exact .inr ⟨_, _, rfl⟩
    · exact .inr ⟨_, _, rfl⟩

/-- A type that is not qualified yet becomes a qualified one. -/
theorem qualify_of_unqualified {t : Ty} {s : Shape} {q : Qualifiers} (hs : u.shape? t = some s)
    (hne : ∀ inner p, s ≠ .qualified inner p) (hq : q.isEmpty = false) : u.qualify t q = u.intern (.qualified t q) := by
  rw [qualify, if_neg (by simp [hq]), hs]
  split
  · next inner p he => exact absurd (Option.some.inj he) (hne inner p)
  · rfl

theorem completeRecord_nodes {t : Ty} {fields : List (String × Ty)} (h : u.completeRecord t fields = (.ok (), v)) :
    v.nodes = u.nodes := by
  obtain ⟨id, d, members, extent, -, -, -, rfl⟩ := completeRecord_eq_ok h
  rfl

theorem completeEnum_nodes {t base : Ty} {constants : List (String × Int)}
    (h : u.completeEnum t base constants = (.ok (), v)) : v.nodes = u.nodes := by
  obtain ⟨id, d, b, enumerators, -, -, -, rfl⟩ := completeEnum_eq_ok h
  rfl

theorem defineTypedef_nodes (u : DeclUnit) (name : String) (t : Ty) :
    (u.defineTypedef name t).2.nodes = (u.intern (.typedef name t)).2.nodes := by
  rcases defineTypedef_cases u name t with ⟨-, he⟩ | he
  · rw [he, bind]
  · rw [he]

theorem defineTag_nodes {name : String} {t : Ty} (h : u.defineTag name t = (.ok (), v)) : v.nodes = u.nodes := by
  obtain ⟨-, rfl⟩ := defineTag_eq_ok h
  rfl

theorem defineConstant_nodes {name : String} {value : Int} {t : Ty} (h : u.defineConstant name value t = (.ok (), v)) :
    v.nodes = u.nodes := by
  obtain ⟨-, rfl⟩ := defineConstant_eq_ok h
  rfl

theorem declareValue_nodes {name : String} {t : Ty} (h : u.declareValue name t = (.ok (), v)) : v.nodes = u.nodes := by
  obtain ⟨-, rfl⟩ | ⟨i, d, -, -, rfl | ⟨-, rfl⟩⟩ := declareValue_eq_ok h <;> rfl

/-! ## Steps and runs -/

/-- Qualifying a type interns one shape over its children, if anything. -/
theorem qualify_cases (hu : u.WellFormed) {t : Ty} (ht : u.contains t = true) (q : Qualifiers) :
    u.qualify t q = (t, u) ∨
      ∃ inner p, u.contains inner = true ∧ u.qualify t q = u.intern (.qualified inner p) := by
  unfold qualify
  split
  · exact .inl rfl
  · split
    · next inner p hs => exact .inr ⟨inner, p.merge q, hu.contains_child hs (by simp [Shape.children]), rfl⟩
    · exact .inr ⟨t, q, ht, rfl⟩

/-- Each operation keeps a unit well-formed and all its nodes as they are. -/
theorem apply_spec (hu : u.WellFormed) (h : u.admits op = true) : (u.apply op).WellFormed ∧ u.Extends (u.apply op) := by
  have hsame : ∀ {v : DeclUnit}, v.nodes = u.nodes → v.WellFormed ∧ u.Extends v :=
    fun he => ⟨hu.of_nodes_eq he, .of_nodes_eq he⟩
  have hintern : ∀ {v : DeclUnit} {s : Shape}, v.nodes = u.nodes → (∀ c ∈ s.children, u.contains c = true) →
      (v.intern s).2.WellFormed ∧ u.Extends (v.intern s).2 := by
    intro v s he hs
    have hext : u.Extends v := .of_nodes_eq he
    obtain ⟨hw, hx, -⟩ := intern_spec (hu.of_nodes_eq he) fun c hc => hext.contains (hs c hc)
    exact ⟨hw, hext.trans hx⟩
  cases op with
  | intern s => exact hintern rfl (inRange_children h)
  | qualify t q =>
    simp only [apply]
    rcases qualify_cases hu h q with he | ⟨inner, p, hi, he⟩
    · rw [he]
      exact hsame rfl
    · rw [he]
      exact hintern rfl (by simpa [Shape.children] using hi)
  | declareRecord tag name => exact hintern rfl (by simp [Shape.children])
  | declareEnum name => exact hintern rfl (by simp [Shape.children])
  | completeRecord t fields =>
    exact (u.completeRecord_allOrNothing t fields).cases (hsame rfl) fun v hv => hsame (completeRecord_nodes hv)
  | completeEnum t base constants =>
    exact (u.completeEnum_allOrNothing t base constants).cases (hsame rfl) fun v hv => hsame (completeEnum_nodes hv)
  | nameType name t =>
    have ht : u.contains t = true := h
    obtain ⟨hw, hx⟩ := hintern (v := u) (s := .typedef name t) rfl (by simpa [Shape.children] using ht)
    have he := defineTypedef_nodes u name t
    exact ⟨hw.of_nodes_eq he, hx.trans (.of_nodes_eq he)⟩
  | defineTag name t =>
    exact (u.defineTag_allOrNothing name t).cases (hsame rfl) fun v hv => hsame (defineTag_nodes hv)
  | defineConstant name value t =>
    exact (u.defineConstant_allOrNothing name value t).cases (hsame rfl) fun v hv => hsame (defineConstant_nodes hv)
  | declareValue name t =>
    exact (u.declareValue_allOrNothing name t).cases (hsame rfl) fun v hv => hsame (declareValue_nodes hv)

theorem applyAll_spec {ops : List Operation} (hu : u.WellFormed) (h : u.admitsAll ops = true) :
    (u.applyAll ops).WellFormed ∧ u.Extends (u.applyAll ops) := by
  induction ops generalizing u with
  | nil => exact ⟨hu, .refl u⟩
  | cons op ops ih =>
    simp only [admitsAll, Bool.and_eq_true] at h
    obtain ⟨hw, hx⟩ := apply_spec hu h.1
    obtain ⟨hw', hx'⟩ := ih hw h.2
    exact ⟨hw', hx.trans hx'⟩

theorem Reachable.wellFormed (h : u.Reachable) : u.WellFormed := by
  obtain ⟨name, target, ops, hops, rfl⟩ := h
  exact (applyAll_spec (empty_wellFormed name target) hops).1

end DeclUnit
end Cognate
