import Cognate.Proofs.Unit.Names

/-!
# Names declared twice

A free name that is declared with one type and then with another one (`declareTwice`). Whether the second declaration is
refused depends on the two types alone (`declareTwice_cases`), and on their order only where one of them completes the
other: `T x[N]` may stand behind `T x[]` but not in front of it (`declareTwice_comm`).
-/

namespace Cognate.DeclUnit

variable {u v w : DeclUnit} {name : String} {t t' : Ty}

/-- Declares a name with a type and then with another one; where the first is refused, that is all. -/
def declareTwice (u : DeclUnit) (name : String) (t t' : Ty) : Except TypeFault Unit × DeclUnit :=
  match u.declareValue name t with
  | (.ok (), v) => v.declareValue name t'
  | (.error fault, v) => (.error fault, v)

/-- What comes of two declarations of a name: the type without sugar is the same and the first one stays, or the second
one completes the first one, or it is refused. -/
inductive Redeclared (u : DeclUnit) (name : String) (t t' : Ty) : Except TypeFault Unit × DeclUnit → Prop
  | same {v : DeclUnit} (hsame : u.canonical t = u.canonical t') (hvalue : v.value? name = some ⟨name, t⟩)
      (hnodes : v.nodes = u.nodes) : Redeclared u name t t' (.ok (), v)
  | completed {v : DeclUnit} (hne : u.canonical t ≠ u.canonical t') (harray : u.completesArray t t' = true)
      (hvalue : v.value? name = some ⟨name, t'⟩) (hnodes : v.nodes = u.nodes) : Redeclared u name t t' (.ok (), v)
  | refused {v : DeclUnit} (hne : u.canonical t ≠ u.canonical t') (harray : u.completesArray t t' ≠ true) :
    Redeclared u name t t' (.error (.conflictingTypes name), v)

theorem canonical_of_nodes_eq (h : v.nodes = u.nodes) (t : Ty) : v.canonical t = u.canonical t := by
  rw [canonical, canonical, node?, node?, h]

/-- Types are compared in the unit that the first declaration leaves, which has the same nodes. -/
theorem declareTwice_cases (hfree : u.meaning? name = none) (t t' : Ty) :
    Redeclared u name t t' (u.declareTwice name t t') := by
  have hsecond : u.declareTwice name t t' =
      ({ u with values := u.values.push ⟨name, t⟩ }.bind name (.value u.values.size)).declareValue name t' := by
    rw [declareTwice, declareValue_of_free hfree]
  set v := { u with values := u.values.push ⟨name, t⟩ }.bind name (.value u.values.size) with hv
  have hnodes : v.nodes = u.nodes := rfl
  have hposition : v.meaning? name = some (.value u.values.size) := by
    rw [hv, meaning?_bind, if_pos rfl]
  have hvalue : v.values[u.values.size]? = some ⟨name, t⟩ := by
    rw [hv]
    exact Array.getElem?_push_size
  have hcompletes : v.completesArray t t' = u.completesArray t t' := rfl
  rw [hsecond, declareValue, hposition]
  dsimp only
  rw [hvalue]
  dsimp only
  rw [canonical_of_nodes_eq hnodes, canonical_of_nodes_eq hnodes, hcompletes]
  split_ifs with hsame harray
  · exact .same hsame (value?_eq_some.2 ⟨_, hposition, hvalue⟩) hnodes
  · refine .completed hsame harray (value?_eq_some.2 ⟨u.values.size, hposition, ?_⟩) hnodes
    rw [Array.set!_eq_setIfInBounds, Array.getElem?_setIfInBounds_self_of_lt (Array.getElem?_eq_some_iff.1 hvalue).1]
  · exact .refused hsame harray

variable {r : Except TypeFault Unit × DeclUnit}

theorem Redeclared.accepted_iff (h : Redeclared u name t t' r) :
    (∃ v, r = (.ok (), v)) ↔ u.canonical t = u.canonical t' ∨ u.completesArray t t' = true := by
  cases h with
  | same hsame _ _ => exact iff_of_true ⟨_, rfl⟩ (.inl hsame)
  | completed _ harray _ _ => exact iff_of_true ⟨_, rfl⟩ (.inr harray)
  | refused hne harray => exact iff_of_false (fun ⟨v, hv⟩ => nomatch hv) (not_or.2 ⟨hne, harray⟩)

/-- The name stands for the first type, or for a second one that completes it. -/
theorem Redeclared.value (h : Redeclared u name t t' r) (hv : r = (.ok (), v)) :
    ∃ x, v.value? name = some ⟨name, x⟩ ∧ v.canonical x = u.canonical x ∧
      (u.canonical t = u.canonical t' ∧ x = t ∨ u.completesArray t t' = true ∧ x = t') := by
  cases h with
  | same hsame hvalue hnodes =>
    cases hv
    exact ⟨t, hvalue, canonical_of_nodes_eq hnodes t, .inl ⟨hsame, rfl⟩⟩
  | completed _ harray hvalue hnodes =>
    cases hv
    exact ⟨t', hvalue, canonical_of_nodes_eq hnodes t', .inr ⟨harray, rfl⟩⟩
  | refused _ _ => cases hv

/-- An array `T[]` is not the same as an array `T[N]`. -/
theorem canonical_ne_of_completesArray (h : u.completesArray t t' = true) : u.canonical t ≠ u.canonical t' := by
  obtain ⟨element, size, ht, ht'⟩ := completesArray_eq_true.1 h
  intro he
  rw [canonicalShape?_eq (contains_of_canonicalShape? ht), he, ← canonicalShape?_eq (contains_of_canonicalShape? ht'),
    ht'] at ht
  cases ht

/-- If neither type completes the other one, a free name may be declared with both in one order exactly if it may be in
the other, and whenever both orders are accepted, it then stands for the same type but for sugar. If the second type
completes the first one, the name stands for the second one, and the other order is refused. -/
theorem declareTwice_comm (hfree : u.meaning? name = none) (t t' : Ty) :
    (u.completesArray t t' ≠ true → u.completesArray t' t ≠ true →
      ((∃ v, u.declareTwice name t t' = (.ok (), v)) ↔ ∃ w, u.declareTwice name t' t = (.ok (), w))) ∧
    (∀ v w, u.declareTwice name t t' = (.ok (), v) → u.declareTwice name t' t = (.ok (), w) →
      ∃ d d', v.value? name = some d ∧ w.value? name = some d' ∧ v.canonical d.type = w.canonical d'.type) ∧
    (u.completesArray t t' = true → (∃ v, u.declareTwice name t t' = (.ok (), v) ∧ v.value? name = some ⟨name, t'⟩) ∧
      (u.declareTwice name t' t).1 = .error (.conflictingTypes name)) := by
  have hforward := declareTwice_cases hfree t t'
  have hbackward := declareTwice_cases hfree t' t
  have hnotboth : u.completesArray t t' = true → u.completesArray t' t ≠ true := not_completesArray_again
  refine ⟨fun hne hne' => ?_, fun v w hv hw => ?_, fun harray => ⟨?_, ?_⟩⟩
  · rw [hforward.accepted_iff, hbackward.accepted_iff, or_iff_left hne, or_iff_left hne', eq_comm]
  · obtain ⟨x, hx, hcanonical, hkind⟩ := hforward.value hv
    obtain ⟨y, hy, hcanonical', hkind'⟩ := hbackward.value hw
    refine ⟨_, _, hx, hy, hcanonical.trans (Eq.trans ?_ hcanonical'.symm)⟩
    rcases hkind with ⟨hsame, rfl⟩ | ⟨harray, rfl⟩
    · rcases hkind' with ⟨-, rfl⟩ | ⟨-, rfl⟩
      · exact hsame
      · rfl
    · rcases hkind' with ⟨-, rfl⟩ | ⟨harray', -⟩
      · rfl
      · exact absurd harray' (hnotboth harray)
  · obtain ⟨v, hv⟩ := hforward.accepted_iff.2 (.inr harray)
    obtain ⟨x, hx, -, ⟨hsame, -⟩ | ⟨-, rfl⟩⟩ := hforward.value hv
    · exact absurd hsame (canonical_ne_of_completesArray harray)
    · exact ⟨v, hv, hx⟩
  · generalize u.declareTwice name t' t = r at hbackward
    cases hbackward with
    | same hsame _ _ => exact absurd hsame.symm (canonical_ne_of_completesArray harray)
    | completed _ harray' _ _ => exact absurd harray' (hnotboth harray)
    | refused _ _ => rfl

/-- A name for an `int` and then for a typedef of it, in either order; and for `int[]` and then for `int[3]`. -/
theorem declareTwice_comm_typedef :
    let u := (empty "unit" .lp64).applyAll [.intern (.builtin .int), .nameType "T" ⟨0⟩,
      .intern (.incompleteArray ⟨0⟩), .intern (.constantArray ⟨1⟩ 3)]
    u.Reachable ∧ u.meaning? "x" = none ∧ (∃ w, u.declareTwice "x" ⟨1⟩ ⟨0⟩ = (.ok (), w)) ∧
      (∃ v, u.declareTwice "x" ⟨2⟩ ⟨4⟩ = (.ok (), v) ∧ v.value? "x" = some ⟨"x", ⟨4⟩⟩) := by
  intro u
  have hfree : u.meaning? "x" = none := by decide +kernel
  obtain ⟨hiff, -, -⟩ := declareTwice_comm hfree ⟨0⟩ ⟨1⟩
  obtain ⟨-, -, hcompletes⟩ := declareTwice_comm hfree ⟨2⟩ ⟨4⟩
  refine ⟨⟨"unit", .lp64, _, by decide +kernel, rfl⟩, hfree, ?_, (hcompletes (by decide +kernel)).1⟩
  have hsame : u.canonical ⟨0⟩ = u.canonical ⟨1⟩ := by decide +kernel
  exact (hiff (by decide +kernel) (by decide +kernel)).1 ((declareTwice_cases hfree _ _).accepted_iff.2 (.inl hsame))

/-- `int x[]` and then `int x[3]` is accepted; the other way round it is not. -/
theorem exists_declareTwice_one_order :
    ∃ (u : DeclUnit) (name : String) (t t' : Ty), u.Reachable ∧ u.meaning? name = none ∧ u.contains t = true ∧
      u.contains t' = true ∧ (∃ v, u.declareTwice name t t' = (.ok (), v)) ∧
      ¬∃ w, u.declareTwice name t' t = (.ok (), w) := by
  let u := (empty "unit" .lp64).applyAll [.intern (.builtin .int), .intern (.incompleteArray ⟨0⟩),
    .intern (.constantArray ⟨0⟩ 3)]
  have hfree : u.meaning? "x" = none := by decide +kernel
  have hcompletes : u.completesArray ⟨1⟩ ⟨2⟩ = true := by decide +kernel
  have hother : ¬(u.canonical ⟨2⟩ = u.canonical ⟨1⟩ ∨ u.completesArray ⟨2⟩ ⟨1⟩ = true) := by decide +kernel
  exact ⟨u, "x", ⟨1⟩, ⟨2⟩, ⟨"unit", .lp64, _, by decide +kernel, rfl⟩, hfree, by decide +kernel, by decide +kernel,
    (declareTwice_cases hfree _ _).accepted_iff.2 (.inr hcompletes),
    mt (declareTwice_cases hfree _ _).accepted_iff.1 hother⟩

end Cognate.DeclUnit
