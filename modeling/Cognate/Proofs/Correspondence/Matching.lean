import Cognate.Correspondence
import Cognate.Proofs.Unit.Runs
import Mathlib.Logic.Relation

/-!
# Matchings of two units

When two types of two units ought to correspond, said without a walk: a one-to-one relation of canonical types holds
between them that pairs types alike in themselves and is closed under the types these are made of.
-/

namespace Cognate.Correspondence

/-- The types that must correspond for their owner to correspond, in order. Owners of member pointers do not count. -/
def compared (u : DeclUnit) : Shape → List Ty
  | .complex t | .pointer t | .blockPointer t | .lvalueRef t | .rvalueRef t | .memberPointer t _ | .constantArray t _
  | .incompleteArray t | .variableArray t | .vector t _ _ | .noPrototype t _ | .atomic t => [t]
  | .prototype result params _ _ => result :: params
  | .record id => (((u.record? id).bind RecordDecl.body).map fun body => body.members.map Member.type).getD []
  | .enum id => (((u.enum? id).bind EnumDecl.body).map fun body => [body.base]).getD []
  | _ => []

/-- Measuring comes to an end on both sides, with the same width and alignment, or with none on both. -/
def SameExtent (s t : Site) : Prop := ∃ e, s.unit.measure s.type = .ok e ∧ t.unit.measure t.type = .ok e

/-- Two types are alike but for the types that they are made of. Extents of arrays and names do not count. -/
inductive Alike (s t : Site) : Shape → Shape → Prop where
  | builtin {b} : SameExtent s t → Alike s t (.builtin b) (.builtin b)
  | complex {x y} : SameExtent s t → Alike s t (.complex x) (.complex y)
  | pointer {x y} : SameExtent s t → Alike s t (.pointer x) (.pointer y)
  | blockPointer {x y} : SameExtent s t → Alike s t (.blockPointer x) (.blockPointer y)
  | lvalueRef {x y} : SameExtent s t → Alike s t (.lvalueRef x) (.lvalueRef y)
  | rvalueRef {x y} : SameExtent s t → Alike s t (.rvalueRef x) (.rvalueRef y)
  | memberPointer {x y o o'} : SameExtent s t → Alike s t (.memberPointer x o) (.memberPointer y o')
  | atomic {x y} : SameExtent s t → Alike s t (.atomic x) (.atomic y)
  | constantArray {x y n n'} : Alike s t (.constantArray x n) (.constantArray y n')
  | incompleteArray {x y} : Alike s t (.incompleteArray x) (.incompleteArray y)
  | variableArray {x y} : Alike s t (.variableArray x) (.variableArray y)
  | vector {x y count kind} : Alike s t (.vector x count kind) (.vector y count kind)
  | prototype {x y params params' variadic traits} : params.length = params'.length →
      Alike s t (.prototype x params variadic traits) (.prototype y params' variadic traits)
  | noPrototype {x y traits} : Alike s t (.noPrototype x traits) (.noPrototype y traits)
  | record {id id' x y xs ys} : s.unit.record? id = some x → t.unit.record? id' = some y → x.tag = y.tag →
      x.body = some xs → y.body = some ys → SameExtent s t → xs.members.length = ys.members.length →
      Alike s t (.record id) (.record id')
  | enum {id id' x y xs ys} : s.unit.enum? id = some x → t.unit.enum? id' = some y →
      x.body = some xs → y.body = some ys → SameExtent s t →
      xs.enumerators.map Enumerator.value = ys.enumerators.map Enumerator.value →
      Alike s t (.enum id) (.enum id')

/-- A one-to-one relation of canonical types of two units: related types are of one class and alike, and what they are
made of is related. -/
structure Matching (a b : DeclUnit) (R : Ty → Ty → Prop) : Prop where
  canonical : ∀ {x y}, R x y → a.canonical x = x ∧ b.canonical y = y
  functional : ∀ {x y y'}, R x y → R x y' → y = y'
  injective : ∀ {x x' y}, R x y → R x' y → x = x'
  alike : ∀ {x y}, R x y → ∃ p q, a.shape? x = some p ∧ b.shape? y = some q ∧ p.cls = q.cls ∧
    Alike ⟨a, x⟩ ⟨b, y⟩ p q ∧
    List.Forall₂ (fun c d => R (a.canonical c) (b.canonical d)) (compared a p) (compared b q)

/-- A one-to-one relation that pairs types as a matching does, canonical or not. -/
structure Pairing (a b : DeclUnit) (R : Ty → Ty → Prop) : Prop where
  functional : ∀ {x y y'}, R x y → R x y' → y = y'
  injective : ∀ {x x' y}, R x y → R x' y → x = x'
  alike : ∀ {x y}, R x y → ∃ p q, a.shape? x = some p ∧ b.shape? y = some q ∧ p.cls = q.cls ∧
    Alike ⟨a, x⟩ ⟨b, y⟩ p q ∧
    List.Forall₂ (fun c d => R (a.canonical c) (b.canonical d)) (compared a p) (compared b q)

theorem Matching.pairing {a b : DeclUnit} {R : Ty → Ty → Prop} (h : Matching a b R) : Pairing a b R :=
  ⟨h.functional, h.injective, h.alike⟩

/-- A one-to-one relation that pairs types as a matching does, or types that have a rule but cannot be measured. -/
structure Tracking (a b : DeclUnit) (R : Ty → Ty → Prop) : Prop where
  functional : ∀ {x y y'}, R x y → R x y' → y = y'
  injective : ∀ {x x' y}, R x y → R x' y → x = x'
  shapes : ∀ {x y}, R x y → ∃ p q, a.shape? x = some p ∧ b.shape? y = some q ∧ p.cls = q.cls ∧
    p.cls.isIncomparable = false ∧
    (edges ⟨a, x⟩ ⟨b, y⟩ p q = .error .overflow ∨ Alike ⟨a, x⟩ ⟨b, y⟩ p q ∧
      List.Forall₂ (fun c d => R (a.canonical c) (b.canonical d)) (compared a p) (compared b q))

/-- A comparison of two related types stops. -/
def Halts (a b : DeclUnit) (R : Ty → Ty → Prop) : Prop :=
  ∃ x y p q, R x y ∧ a.shape? x = some p ∧ b.shape? y = some q ∧ edges ⟨a, x⟩ ⟨b, y⟩ p q = .error .overflow

/-- One step of a comparison, on one side. -/
def Step (u : DeclUnit) (x z : Ty) : Prop := ∃ p, u.shape? x = some p ∧ ∃ c ∈ compared u p, z = u.canonical c

/-- No comparison that starts at the type reaches a type without a rule. -/
def Comparable (u : DeclUnit) (x : Ty) : Prop :=
  ∀ z p, Relation.ReflTransGen (Step u) (u.canonical x) z → u.shape? z = some p → p.cls.isIncomparable = false

variable {a b u : DeclUnit} {s t : Site} {p q : Shape}

/-! ## Alike types -/

theorem Alike.cls_eq (h : Alike s t p q) : p.cls = q.cls := by
  cases h <;> rfl

/-- Alike types have rules. -/
theorem Alike.isIncomparable (h : Alike s t p q) : p.cls.isIncomparable = false := by
  cases h <;> rfl

theorem Alike.length_eq (h : Alike s t p q) : (compared s.unit p).length = (compared t.unit q).length := by
  cases h <;> simp_all [compared]

theorem sameExtent_iff : s.sameExtent t = .ok true ↔ SameExtent s t := by
  unfold Site.sameExtent SameExtent
  cases s.unit.measure s.type with
  | error => simp [bind, Except.bind]
  | ok e =>
    cases t.unit.measure t.type with
    | error => simp [bind, Except.bind]
    | ok e' =>
      simp only [bind, Except.bind, pure, Except.pure, Except.ok.injEq, beq_iff_eq, exists_eq_left']
      exact eq_comm

/-- The layouts that come of measuring are the same. -/
theorem SameExtent.extent_eq (h : SameExtent s t) : s.unit.extent s.type = t.unit.extent t.type := by
  obtain ⟨e, hs, ht⟩ := h
  rw [DeclUnit.extent, DeclUnit.extent, hs, ht]

theorem edgesIf_eq_some {test : Bool} {es es' : Edges} : edgesIf test es = some es' ↔ test = true ∧ es = es' := by
  cases test <;> simp [edgesIf]

theorem edgesIfSame_eq_some {test : Bool} {es es' : Edges} :
    edgesIfSame s t test es = .ok (some es') ↔ SameExtent s t ∧ test = true ∧ es = es' := by
  rw [← sameExtent_iff, edgesIfSame]
  cases s.sameExtent t with
  | error => simp [bind, Except.bind]
  | ok same => simp [bind, Except.bind, pure, Except.pure, edgesIf_eq_some, and_assoc]

theorem recordEdges_eq_some {x y : RecordDecl} {es : Edges} :
    recordEdges s t x y = .ok (some es) ↔ ∃ xs ys, x.body = some xs ∧ y.body = some ys ∧ x.tag = y.tag ∧
      SameExtent s t ∧ xs.members.length = ys.members.length ∧ memberEdges xs ys = es := by
  unfold recordEdges
  split
  · next htag => simp [htag]
  · next htag =>
    split
    · simp_all [edgesIfSame_eq_some]
    · next h =>
      simp only [Except.ok.injEq, reduceCtorEq, false_iff]
      rintro ⟨xs, ys, hx, hy, -⟩
      exact h xs ys hx hy

theorem enumEdges_eq_some {x y : EnumDecl} {es : Edges} :
    enumEdges s t x y = .ok (some es) ↔ ∃ xs ys, x.body = some xs ∧ y.body = some ys ∧ SameExtent s t ∧
      xs.enumerators.map Enumerator.value = ys.enumerators.map Enumerator.value ∧ [(xs.base, ys.base)] = es := by
  unfold enumEdges
  split
  · simp_all [edgesIfSame_eq_some]
  · next h =>
    simp only [Except.ok.injEq, reduceCtorEq, false_iff]
    rintro ⟨xs, ys, hx, hy, -⟩
    exact h xs ys hx hy

theorem alike_of_edges {es : Edges} (h : edges s t p q = .ok (some es)) :
    Alike s t p q ∧ es = (compared s.unit p).zip (compared t.unit q) := by
  unfold edges at h
  split at h
  case h_1 =>
    simp only [edgesIfSame_eq_some, beq_iff_eq] at h
    obtain ⟨hext, rfl, rfl⟩ := h
    exact ⟨.builtin hext, rfl⟩
  case h_2 | h_3 | h_4 | h_5 | h_6 | h_7 | h_8 =>
    obtain ⟨hext, -, rfl⟩ := edgesIfSame_eq_some.1 h
    exact ⟨by constructor; exact hext, rfl⟩
  case h_9 | h_10 | h_11 =>
    cases h
    exact ⟨by constructor, rfl⟩
  case h_12 =>
    simp only [Except.ok.injEq, edgesIf_eq_some, Bool.and_eq_true, beq_iff_eq] at h
    obtain ⟨⟨rfl, rfl⟩, rfl⟩ := h
    exact ⟨.vector, rfl⟩
  case h_13 =>
    simp only [Except.ok.injEq, edgesIf_eq_some, Bool.and_eq_true, beq_iff_eq] at h
    obtain ⟨⟨⟨rfl, rfl⟩, hlen⟩, rfl⟩ := h
    exact ⟨.prototype hlen, rfl⟩
  case h_14 =>
    simp only [Except.ok.injEq, edgesIf_eq_some, beq_iff_eq] at h
    obtain ⟨rfl, rfl⟩ := h
    exact ⟨.noPrototype, rfl⟩
  case h_15 =>
    split at h
    · next x y hx hy =>
      obtain ⟨xs, ys, hxs, hys, htag, hext, hlen, rfl⟩ := recordEdges_eq_some.1 h
      exact ⟨.record hx hy htag hxs hys hext hlen, by simp [compared, hx, hy, hxs, hys, memberEdges]⟩
    · cases h
  case h_16 =>
    split at h
    · next x y hx hy =>
      obtain ⟨xs, ys, hxs, hys, hext, hvalues, rfl⟩ := enumEdges_eq_some.1 h
      exact ⟨.enum hx hy hxs hys hext hvalues, by simp [compared, hx, hy, hxs, hys]⟩
    · cases h
  case h_17 => cases h

theorem edges_of_alike (h : Alike s t p q) :
    edges s t p q = .ok (some ((compared s.unit p).zip (compared t.unit q))) := by
  cases h with
  | record hx hy htag hxs hys hext hlen =>
    simp only [edges, hx, hy]
    exact recordEdges_eq_some.2 ⟨_, _, hxs, hys, htag, hext, hlen, by simp [compared, hx, hy, hxs, hys, memberEdges]⟩
  | enum hx hy hxs hys hext hvalues =>
    simp only [edges, hx, hy]
    exact enumEdges_eq_some.2 ⟨_, _, hxs, hys, hext, hvalues, by simp [compared, hx, hy, hxs, hys]⟩
  | prototype hlen => simp [edges, edgesIf, compared, hlen]
  | constantArray | incompleteArray | variableArray | vector | noPrototype => simp [edges, edgesIf, compared]
  | builtin hext | complex hext | pointer hext | blockPointer hext | lvalueRef hext | rvalueRef hext
  | memberPointer hext | atomic hext => simp [edges, compared, edgesIfSame_eq_some, hext]

/-- A comparison goes on exactly with alike types, and then with what they are made of, side by side. -/
theorem edges_eq_some {es : Edges} :
    edges s t p q = .ok (some es) ↔ Alike s t p q ∧ es = (compared s.unit p).zip (compared t.unit q) := by
  refine ⟨alike_of_edges, ?_⟩
  rintro ⟨h, rfl⟩
  exact edges_of_alike h

theorem sameExtent_eq_error {o : Overflow} :
    s.sameExtent t = .error o ↔ s.unit.measure s.type = .error o ∨ t.unit.measure t.type = .error o := by
  unfold Site.sameExtent
  rcases hs : s.unit.measure s.type with ⟨⟨⟩⟩ | e
  · simp [bind, Except.bind]
  · rcases ht : t.unit.measure t.type with ⟨⟨⟩⟩ | e'
    · simp [bind, Except.bind]
    · simp [bind, Except.bind, pure, Except.pure]

theorem edgesIfSame_eq_error {test : Bool} {es : Edges} {o : Overflow} :
    edgesIfSame s t test es = .error o ↔ s.sameExtent t = .error o := by
  unfold edgesIfSame
  cases s.sameExtent t <;> simp [bind, Except.bind, pure, Except.pure]

/-- A comparison of two types stops only where measuring one of them does, and then also the other way round. -/
theorem stopped_of_edges {o : Overflow} (h : edges s t p q = .error o) :
    s.sameExtent t = .error o ∧ (t.sameExtent s = .error o → edges t s q p = .error o) := by
  unfold edges at h
  split at h
  case h_9 | h_10 | h_11 | h_12 | h_13 | h_14 | h_17 => cases h
  case h_15 =>
    split at h
    · next x y hx hy =>
      unfold recordEdges at h
      split_ifs at h with htag
      split at h
      · next xs ys hxs hys =>
        refine ⟨edgesIfSame_eq_error.1 h, fun h' => ?_⟩
        simp only [edges, hx, hy, recordEdges, hxs, hys, if_neg (not_not.2 (not_not.1 htag).symm)]
        exact edgesIfSame_eq_error.2 h'
      · cases h
    · cases h
  case h_16 =>
    split at h
    · next x y hx hy =>
      unfold enumEdges at h
      split at h
      · next xs ys hxs hys =>
        refine ⟨edgesIfSame_eq_error.1 h, fun h' => ?_⟩
        simp only [edges, hx, hy, enumEdges, hxs, hys]
        exact edgesIfSame_eq_error.2 h'
      · cases h
    · cases h
  all_goals exact ⟨edgesIfSame_eq_error.1 h, edgesIfSame_eq_error.2⟩

theorem Pairing.tracking {R : Ty → Ty → Prop} (h : Pairing a b R) : Tracking a b R := by
  refine ⟨h.functional, h.injective, fun hxy => ?_⟩
  obtain ⟨p, q, hp, hq, hcls, halike, hall⟩ := h.alike hxy
  exact ⟨p, q, hp, hq, hcls, halike.isIncomparable, .inr ⟨halike, hall⟩⟩

theorem Pairing.not_halts {R : Ty → Ty → Prop} (h : Pairing a b R) : ¬Halts a b R := by
  rintro ⟨x, y, p, q, hxy, hp, hq, hstop⟩
  obtain ⟨p', q', hp', hq', -, halike, -⟩ := h.alike hxy
  cases hp.symm.trans hp'
  cases hq.symm.trans hq'
  cases (edges_of_alike halike).symm.trans hstop

/-! ## Types that can be compared -/

theorem Comparable.shape {x : Ty} (h : Comparable u x) (hp : u.shape? (u.canonical x) = some p) :
    p.cls.isIncomparable = false := h _ p .refl hp

theorem Comparable.child {x c : Ty} (h : Comparable u x) (hp : u.shape? (u.canonical x) = some p)
    (hc : c ∈ compared u p) : Comparable u c := by
  intro z q hz hq
  exact h z q (.head ⟨p, hp, c, hc, rfl⟩ hz) hq

theorem comparable_of_nodes (h : u.nodes.all (fun n => !n.shape.cls.isIncomparable) = true) (x : Ty) :
    Comparable u x := by
  intro z p _ hp
  obtain ⟨n, hn, rfl⟩ := DeclUnit.shape?_eq_some.1 hp
  simpa using Array.all_eq_true_iff_forall_mem.1 h n (Array.mem_of_getElem? hn)

end Cognate.Correspondence
