import Cognate.Proofs.Correspondence.Walk
import Mathlib.Data.List.Zip

/-!
# Correspondence is symmetric and transitive

A walk with the units exchanged makes the same steps, with the same pairs the other way round (`walk_swap`), so that
only its allowance differs, which does not matter (`walk_congr`). Two walks that answer yes leave two pairings; one
after the other they are a pairing again (`Pairing.comp`), and that decides for the outer two types. Nothing is asked of
the units. A type corresponds to itself only if it can be compared.
-/

namespace Cognate.Correspondence

variable {a b c : DeclUnit} {s t r : Site} {p q o : Shape} {x y z : Ty} {n : Nat} {es : Edges}

/-! ## The other way round -/

theorem SameExtent.symm (h : SameExtent s t) : SameExtent t s := by
  obtain ⟨e, hs, ht⟩ := h
  exact ⟨e, ht, hs⟩

theorem SameExtent.trans (h : SameExtent s t) (h' : SameExtent t r) : SameExtent s r := by
  obtain ⟨e, hs, ht⟩ := h
  obtain ⟨e', ht', hr⟩ := h'
  cases ht.symm.trans ht'
  exact ⟨e, hs, hr⟩

theorem Alike.symm (h : Alike s t p q) : Alike t s q p := by
  cases h with
  | prototype hlen => exact .prototype hlen.symm
  | record hx hy htag hxs hys hext hlen => exact .record hy hx htag.symm hys hxs hext.symm hlen.symm
  | enum hx hy hxs hys hext hvalues => exact .enum hy hx hys hxs hext.symm hvalues.symm
  | constantArray | incompleteArray | variableArray | vector | noPrototype => constructor
  | _ hext => constructor; exact hext.symm

theorem edges_error_swap {o : Overflow} (h : edges s t p q = .error o) : edges t s q p = .error o := by
  obtain ⟨hstop, hswap⟩ := stopped_of_edges h
  exact hswap (sameExtent_eq_error.2 (sameExtent_eq_error.1 hstop).symm)

theorem edges_swap (s t : Site) (p q : Shape) :
    edges t s q p = (edges s t p q).map (Option.map (List.map Prod.swap)) := by
  rcases h : edges s t p q with o | _ | es
  · exact edges_error_swap h
  · rcases h' : edges t s q p with o | _ | es
    · rw [edges_error_swap h'] at h
      cases h
    · rfl
    · rw [edges_of_alike (edges_eq_some.1 h').1.symm] at h
      cases h
  · obtain ⟨halike, rfl⟩ := edges_eq_some.1 h
    rw [edges_of_alike halike.symm, ← List.zip_swap]
    rfl

/-- The outcome of a walk, its pairs the other way round. -/
def swapped (outcome : Except Stop (Bool × Edges)) : Except Stop (Bool × Edges) :=
  outcome.map fun r => (r.1, r.2.map Prod.swap)

theorem walkAll_swap {visit visit' : Ty → Ty → Walk Bool} (found : Edges)
    (hvisit : ∀ x y es, visit' y x (es.map Prod.swap) = swapped (visit x y es)) (es : Edges) :
    walkAll visit' (found.map Prod.swap) (es.map Prod.swap) = swapped (walkAll visit found es) := by
  induction found generalizing es with
  | nil => rfl
  | cons e found ih =>
    obtain ⟨x, y⟩ := e
    rw [List.map_cons, Prod.swap_prod_mk, walkAll_cons, walkAll_cons, hvisit]
    cases visit x y es with
    | error c => rfl
    | ok r =>
      rcases r with ⟨_ | _, mid⟩
      · rfl
      · exact ih mid

/-- By induction on the allowance: types of different classes, at different positions or without a rule end both walks
alike, and what two types are made of is compared in the same order. -/
theorem walk_swap (a b : DeclUnit) (n : Nat) (x y : Ty) (es : Edges) :
    walk b a n y x (es.map Prod.swap) = swapped (walk a b n x y es) := by
  induction n generalizing x y es with
  | zero => rfl
  | succ n ih =>
    cases hp : a.shape? (a.canonical x) with
    | none =>
      rw [walk_foreign (.inl hp), walk_foreign (.inr hp)]
      rfl
    | some p =>
    cases hq : b.shape? (b.canonical y) with
    | none =>
      rw [walk_foreign (.inl hq), walk_foreign (.inr hq)]
      rfl
    | some q =>
    have hleft : (es.map Prod.swap).map (·.1) = es.map (·.2) := by simp
    have hright : (es.map Prod.swap).map (·.2) = es.map (·.1) := by simp
    rw [walk_succ hp hq, walk_succ hq hp, hleft, hright]
    by_cases hcls : p.cls = q.cls
    · rw [if_neg (not_not.2 hcls), if_neg (not_not.2 hcls.symm)]
      by_cases hpos : (es.map (·.1)).idxOf? (a.canonical x) = (es.map (·.2)).idxOf? (b.canonical y)
      · rw [if_neg (not_not.2 hpos), if_neg (not_not.2 hpos.symm), hpos]
        split
        · rfl
        · rw [compareNew_run, compareNew_run, hcls, edges_swap ⟨a, a.canonical x⟩ ⟨b, b.canonical y⟩]
          split
          · rfl
          · rcases edges ⟨a, a.canonical x⟩ ⟨b, b.canonical y⟩ p q with o | _ | found
            · rfl
            · simp [swapped, Except.map]
            · simpa [Except.map] using walkAll_swap found ih (es ++ [(a.canonical x, b.canonical y)])
      · rw [if_pos hpos, if_pos (Ne.symm hpos)]
        rfl
    · rw [if_pos hcls, if_pos (Ne.symm hcls)]
      rfl

/-- Types that are compared the other way round have the same outcome. -/
theorem corresponds_swap (a b : DeclUnit) (x y : Ty) : corresponds b y a x = corresponds a x b y := by
  have hsame : walk a b (allowance b) x y [] = walk a b (allowance a) x y [] :=
    walk_congr .nil (by simp only [allowance, List.length_nil]; omega)
      (by simp only [allowance, List.length_nil]; omega)
  have hswap := walk_swap a b (allowance b) x y []
  rw [hsame, List.map_nil] at hswap
  rw [corresponds_eq, corresponds_eq, hswap]
  cases walk a b (allowance a) x y [] <;> rfl

/-! ## One after the other -/

theorem Alike.trans (h : Alike s t p q) (h' : Alike t r q o) : Alike s r p o := by
  cases h with
  | prototype hlen =>
    cases h' with
    | prototype hlen' => exact .prototype (hlen.trans hlen')
  | record hx hy htag hxs hys hext hlen =>
    cases h' with
    | record hy' hz htag' hys' hzs hext' hlen' =>
      cases hy.symm.trans hy'
      cases hys.symm.trans hys'
      exact .record hx hz (htag.trans htag') hxs hzs (hext.trans hext') (hlen.trans hlen')
  | enum hx hy hxs hys hext hvalues =>
    cases h' with
    | enum hy' hz hys' hzs hext' hvalues' =>
      cases hy.symm.trans hy'
      cases hys.symm.trans hys'
      exact .enum hx hz hxs hzs (hext.trans hext') (hvalues.trans hvalues')
  | constantArray | incompleteArray | variableArray | vector | noPrototype => cases h'; constructor
  | _ hext => cases h'; constructor; exact hext.trans ‹SameExtent t r›

theorem forall₂_comp {α β γ : Type} {R : α → β → Prop} {S : β → γ → Prop} {xs : List α} {ys : List β} {zs : List γ}
    (h : List.Forall₂ R xs ys) (h' : List.Forall₂ S ys zs) : List.Forall₂ (Relation.Comp R S) xs zs := by
  induction h generalizing zs with
  | nil =>
    cases h'
    exact .nil
  | cons hxy _ ih =>
    cases h' with
    | cons hyz h' => exact .cons ⟨_, hxy, hyz⟩ (ih h')

/-- Two pairings with a unit in common, one after the other. -/
theorem Pairing.comp {R S : Ty → Ty → Prop} (hR : Pairing a b R) (hS : Pairing b c S) :
    Pairing a c (Relation.Comp R S) := by
  constructor
  · rintro x z z' ⟨y, hxy, hyz⟩ ⟨y', hxy', hyz'⟩
    obtain rfl := hR.functional hxy hxy'
    exact hS.functional hyz hyz'
  · rintro x x' z ⟨y, hxy, hyz⟩ ⟨y', hxy', hyz'⟩
    obtain rfl := hS.injective hyz hyz'
    exact hR.injective hxy hxy'
  · rintro x z ⟨y, hxy, hyz⟩
    obtain ⟨p, q, hp, hq, hcls, halike, hall⟩ := hR.alike hxy
    obtain ⟨q', o, hq', ho, hcls', halike', hall'⟩ := hS.alike hyz
    obtain rfl : q = q' := Option.some.inj (hq.symm.trans hq')
    refine ⟨p, o, hp, ho, hcls.trans hcls', halike.trans halike', ?_⟩
    refine (forall₂_comp hall hall').imp fun d f hdf => ?_
    obtain ⟨e, hde, hef⟩ := hdf
    exact ⟨_, hde, hef⟩

/-- What a walk that answers yes has found. -/
theorem pairing_of_corresponds (h : corresponds a x b y = .ok true) :
    ∃ R, Pairing a b R ∧ R (a.canonical x) (b.canonical y) := by
  obtain ⟨es, hr⟩ := corresponds_eq_true.1 h
  exact ⟨_, pairing_of_walk hr⟩

/-- Correspondence is symmetric, with what it fails with where types cannot be compared or measured, and transitive, for
any units and handles. -/
theorem corresponds_equivalence :
    (∀ (a b : DeclUnit) (x y : Ty), corresponds a x b y = corresponds b y a x) ∧
      ∀ (a b c : DeclUnit) (x y z : Ty), corresponds a x b y = .ok true → corresponds b y c z = .ok true →
        corresponds a x c z = .ok true := by
  refine ⟨fun a b x y => (corresponds_swap a b x y).symm, fun a b c x y z hxy hyz => ?_⟩
  obtain ⟨R, hR, hx⟩ := pairing_of_corresponds hxy
  obtain ⟨S, hS, hz⟩ := pairing_of_corresponds hyz
  exact corresponds_of_pairing (hR.comp hS) ⟨_, hx, hz⟩

/-- Three units with a list each, its members in the same order and all else in another. -/
theorem corresponds_equivalence_lists :
    let list (name tag : String) := (DeclUnit.empty name .lp64).applyAll
      [.declareRecord .struct (some tag), .intern (.pointer ⟨0⟩), .intern (.builtin .int),
        .completeRecord ⟨0⟩ [("value", ⟨2⟩), ("next", ⟨1⟩)]]
    let numbers := (DeclUnit.empty "c" .lp64).applyAll
      [.intern (.builtin .int), .declareRecord .struct none, .intern (.pointer ⟨1⟩),
        .completeRecord ⟨1⟩ [("number", ⟨0⟩), ("rest", ⟨2⟩)]]
    corresponds (list "a" "list") ⟨0⟩ (list "b" "chain") ⟨0⟩ = .ok true ∧
      corresponds (list "b" "chain") ⟨0⟩ numbers ⟨1⟩ = .ok true ∧
      corresponds (list "a" "list") ⟨0⟩ numbers ⟨1⟩ = .ok true := by
  intro list numbers
  have hxy : corresponds (list "a" "list") ⟨0⟩ (list "b" "chain") ⟨0⟩ = .ok true := by decide +kernel
  have hyz : corresponds (list "b" "chain") ⟨0⟩ numbers ⟨1⟩ = .ok true := by decide +kernel
  exact ⟨hxy, hyz, corresponds_equivalence.2 _ _ _ _ _ _ hxy hyz⟩

end Cognate.Correspondence
