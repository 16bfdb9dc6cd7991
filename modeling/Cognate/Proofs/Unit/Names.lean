import Cognate.Proofs.Unit.Refused
import Cognate.Proofs.Unit.Relabelled
import Mathlib.Data.List.Nodup

/-!
# Names over runs

What one operation does to ordinary names and values is one of five things (`Effect`). From these follows that positions
of values and their names determine one another (`Named`), that a name keeps what it stands for, and that values are
listed in order of their first declaration. Tags and ordinary names are apart: `Built.names_kept`.
-/

namespace Cognate.DeclUnit

variable {u v w : DeclUnit} {name : String} {names : List String} {m : Meaning} {t : Ty} {d : ValueDecl}
  {op : Operation} {ops : List Operation}

/-- The names of all values, in the order of the list of values. -/
def valueNames (u : DeclUnit) : List String := u.values.toList.map ValueDecl.name

theorem getElem?_valueNames (u : DeclUnit) (i : Nat) : u.valueNames[i]? = u.values[i]?.map ValueDecl.name := by
  simp [valueNames]

/-- The name of the value that an operation declares, if it is not refused. -/
def declaredBy (u : DeclUnit) : Operation → List String
  | .declareValue name t => if (u.declareValue name t).1.isOk then [name] else []
  | _ => []

/-- The names of all values that are declared along a run, each as often as it is declared. -/
def declaredNames (u : DeclUnit) : List Operation → List String
  | [] => []
  | op :: ops => u.declaredBy op ++ (u.apply op).declaredNames ops

/-! ## Single operations -/

/-- What is done to ordinary names and values where values of these names are declared. -/
inductive Effect (u v : DeclUnit) : List String → Prop
  | kept (hmeaning : v.meaning? = u.meaning?) (hvalues : v.values = u.values) : Effect u v []
  | bound {name : String} {m : Meaning} (hfree : u.meaning? name = none) (hm : ∀ i, m ≠ .value i)
      (hmeaning : v.meaning? = fun other => if other = name then some m else u.meaning? other)
      (hvalues : v.values = u.values) : Effect u v []
  | declared {name : String} {t : Ty} (hfree : u.meaning? name = none)
      (hmeaning : v.meaning? = fun other => if other = name then some (.value u.values.size) else u.meaning? other)
      (hvalues : v.values = u.values.push ⟨name, t⟩) : Effect u v [name]
  | repeated {name : String} {i : Nat} (hposition : u.meaning? name = some (.value i))
      (hmeaning : v.meaning? = u.meaning?) (hvalues : v.values = u.values) : Effect u v [name]
  | completed {name : String} {i : Nat} {d : ValueDecl} {t : Ty} (hposition : u.meaning? name = some (.value i))
      (hd : u.values[i]? = some d) (harray : u.completesArray d.type t = true) (hmeaning : v.meaning? = u.meaning?)
      (hvalues : v.values = u.values.set! i { d with type := t }) : Effect u v [name]

/-- A typedef is bound where its name is free. -/
theorem defineTypedef_effect (u : DeclUnit) (name : String) (t : Ty) : Effect u (u.defineTypedef name t).2 [] := by
  have happ := intern_appends u (.typedef name t)
  rcases defineTypedef_cases u name t with ⟨hfree, he⟩ | he
  · rw [happ.meaning?_eq] at hfree
    rw [he]
    refine .bound (m := .typedef (u.intern (.typedef name t)).1) hfree (by simp) (funext fun other => ?_) happ.values_eq
    rw [meaning?_bind, happ.meaning?_eq]
  · rw [he]
    exact .kept (funext happ.meaning?_eq) happ.values_eq

theorem declareValue_effect (u : DeclUnit) (name : String) (t : Ty) :
    Effect u (u.declareValue name t).2 (u.declaredBy (.declareValue name t)) := by
  unfold declaredBy
  dsimp only
  rcases hr : u.declareValue name t with ⟨outcome, v⟩
  cases outcome with
  | error fault =>
    obtain rfl : v = u := by simpa [hr] using u.declareValue_allOrNothing name t fault (by rw [hr])
    exact .kept rfl rfl
  | ok =>
    obtain ⟨hfree, rfl⟩ | ⟨i, d, hposition, hd, rfl | ⟨harray, rfl⟩⟩ := declareValue_eq_ok hr
    · exact .declared (t := t) hfree (funext (meaning?_bind _)) rfl
    · exact .repeated hposition rfl rfl
    · exact .completed hposition hd harray rfl rfl

theorem apply_effect (u : DeclUnit) (op : Operation) : Effect u (u.apply op) (u.declaredBy op) := by
  have hintern : ∀ (w : DeclUnit) (s : Shape), w.meaning? = u.meaning? → w.values = u.values →
      Effect u (w.intern s).2 [] := by
    intro w s hmeaning hvalues
    have happ := intern_appends w s
    exact .kept ((funext happ.meaning?_eq).trans hmeaning) (happ.values_eq.trans hvalues)
  cases op with
  | intern s => exact hintern u s rfl rfl
  | qualify t q =>
    rw [apply]
    rcases u.qualify_or_intern t q with he | ⟨inner, p, he⟩
    · exact he.symm ▸ .kept rfl rfl
    · exact he.symm ▸ hintern u _ rfl rfl
  | declareRecord tag name => exact hintern _ _ rfl rfl
  | declareEnum name => exact hintern _ _ rfl rfl
  | completeRecord t fields =>
    refine (u.completeRecord_allOrNothing t fields).cases (P := fun v => Effect u v []) (.kept rfl rfl) fun v hv => ?_
    obtain ⟨id, d, members, extent, -, -, -, rfl⟩ := completeRecord_eq_ok hv
    exact .kept rfl rfl
  | completeEnum t base constants =>
    refine (u.completeEnum_allOrNothing t base constants).cases (P := fun v => Effect u v []) (.kept rfl rfl)
      fun v hv => ?_
    obtain ⟨id, d, b, enumerators, -, -, -, rfl⟩ := completeEnum_eq_ok hv
    exact .kept rfl rfl
  | nameType name t => exact defineTypedef_effect u name t
  | defineTag name t =>
    refine (u.defineTag_allOrNothing name t).cases (P := fun v => Effect u v []) (.kept rfl rfl) fun v hv => ?_
    obtain ⟨-, rfl⟩ := defineTag_eq_ok hv
    exact .kept rfl rfl
  | defineConstant name value t =>
    refine (u.defineConstant_allOrNothing name value t).cases (P := fun v => Effect u v []) (.kept rfl rfl)
      fun v hv => ?_
    obtain ⟨hfree, rfl⟩ := defineConstant_eq_ok hv
    exact .bound (m := .constant value t) hfree (by simp) (funext (meaning?_bind _)) rfl
  | declareValue name t => exact declareValue_effect u name t

/-! ## Positions of values -/

/-- An ordinary name stands for the value at the position where its name is listed. -/
def Named (u : DeclUnit) : Prop := ∀ name i, u.meaning? name = some (.value i) ↔ u.valueNames[i]? = some name

theorem empty_named (name : String) (target : Target) : (empty name target).Named := by
  intro name i
  simp [empty, meaning?, valueNames]

theorem valueNames_of_values (h : v.values = u.values) : v.valueNames = u.valueNames := by
  rw [valueNames, h, valueNames]

theorem valueNames_push (h : v.values = u.values.push ⟨name, t⟩) : v.valueNames = u.valueNames ++ [name] := by
  simp [valueNames, h]

/-- A value keeps its name when its type is completed. -/
theorem valueNames_set {i : Nat} (hd : u.values[i]? = some d) (h : v.values = u.values.set! i { d with type := t }) :
    v.valueNames = u.valueNames := by
  refine List.ext_getElem? fun j => ?_
  rw [getElem?_valueNames, getElem?_valueNames, h, Array.set!_eq_setIfInBounds, Array.getElem?_setIfInBounds]
  split
  · next hij =>
    subst hij
    rw [hd]
    simp [(Array.getElem?_eq_some_iff.1 hd).1]
  · rfl

/-- A name that is free is not listed. -/
theorem Named.not_listed (hu : u.Named) (hfree : u.meaning? name = none) (i : Nat) : u.valueNames[i]? ≠ some name := by
  intro hi
  rw [(hu name i).2 hi] at hfree
  cases hfree

theorem Effect.named (h : Effect u v names) (hu : u.Named) : v.Named := by
  intro other i
  cases h with
  | kept hmeaning hvalues | repeated _ hmeaning hvalues =>
    rw [hmeaning, valueNames_of_values hvalues]
    exact hu other i
  | completed _ hd _ hmeaning hvalues =>
    rw [hmeaning, valueNames_set hd hvalues]
    exact hu other i
  | bound hfree hm hmeaning hvalues =>
    rw [hmeaning, valueNames_of_values hvalues]
    dsimp only
    split
    · next he =>
      subst he
      exact iff_of_false (fun h => hm i (Option.some.inj h)) (hu.not_listed hfree i)
    · exact hu other i
  | @declared name _ hfree hmeaning hvalues =>
    have hsize : u.valueNames.length = u.values.size := by simp [valueNames]
    rw [hmeaning, valueNames_push hvalues]
    dsimp only
    rcases Nat.lt_or_ge i u.valueNames.length with hlt | hge
    · -- In front of the new value nothing has changed.
      rw [List.getElem?_append_left hlt]
      split
      · next he =>
        subst he
        exact iff_of_false (fun h => by cases h; omega) (hu.not_listed hfree i)
      · exact hu other i
    · rw [List.getElem?_append_right hge, List.getElem?_singleton, hsize]
      have hold : u.meaning? other ≠ some (.value i) := fun h => by
        rw [hu other i, List.getElem?_eq_none hge] at h
        cases h
      by_cases he : other = name
      · rw [if_pos he, he]
        split <;> simp <;> omega
      · rw [if_neg he]
        refine iff_of_false hold fun h => ?_
        split at h <;> cases h
        exact he rfl

theorem Named.applyAll (hu : u.Named) (ops : List Operation) : (u.applyAll ops).Named := by
  induction ops generalizing u with
  | nil => exact hu
  | cons op ops ih => exact ih ((apply_effect u op).named hu)

theorem Built.named (hu : u.Built) : u.Named := hu.induct empty_named fun hv => (apply_effect _ _).named hv

/-! ## What names stand for -/

/-- A name keeps what it stands for. -/
theorem Effect.meaning? (h : Effect u v names) (hm : u.meaning? name = some m) : v.meaning? name = some m := by
  cases h with
  | kept hmeaning _ | repeated _ hmeaning _ | completed _ _ _ hmeaning _ => rw [hmeaning, hm]
  | bound hfree _ hmeaning _ | declared hfree hmeaning _ =>
    rw [hmeaning]
    dsimp only
    rw [if_neg, hm]
    rintro rfl
    rw [hfree] at hm
    cases hm

/-- A value stays, or its array is completed. -/
theorem Effect.values (h : Effect u v names) {i : Nat} (hd : u.values[i]? = some d) :
    ∃ t, v.values[i]? = some ⟨d.name, t⟩ ∧ (t = d.type ∨ u.completesArray d.type t = true) := by
  have hlt := (Array.getElem?_eq_some_iff.1 hd).1
  cases h with
  | kept _ hvalues | bound _ _ _ hvalues | repeated _ _ hvalues => exact ⟨d.type, by rw [hvalues, hd], .inl rfl⟩
  | declared _ _ hvalues =>
    refine ⟨d.type, ?_, .inl rfl⟩
    rw [hvalues, Array.getElem?_push_lt hlt, ← Array.getElem?_eq_getElem hlt, hd]
  | @completed _ j d' t _ hd' harray _ hvalues =>
    by_cases hij : j = i
    · subst hij
      rw [hd] at hd'
      cases hd'
      exact ⟨t, by simp [hvalues, hlt], .inr harray⟩
    · exact ⟨d.type, by simp [hvalues, hij, hd], .inl rfl⟩

theorem value?_eq_some :
    u.value? name = some d ↔ ∃ i, u.meaning? name = some (.value i) ∧ u.values[i]? = some d := by
  unfold value?
  split
  · next i h => simp [h]
  · next h => exact ⟨fun h' => absurd h' (by simp), fun ⟨i, hi, _⟩ => absurd hi (h i)⟩

/-- An ordinary name is of one kind. -/
theorem kinds_apart (u : DeclUnit) (name : String) :
    (u.value? name = none ∧ u.typedef? name = none) ∨ (u.value? name = none ∧ u.constant? name = none) ∨
      (u.typedef? name = none ∧ u.constant? name = none) := by
  unfold value? typedef? constant?
  cases u.meaning? name with
  | none => exact .inl ⟨rfl, rfl⟩
  | some m =>
    cases m with
    | value i => exact .inr (.inr ⟨rfl, rfl⟩)
    | typedef t => exact .inr (.inl ⟨rfl, rfl⟩)
    | constant value t => exact .inl ⟨rfl, rfl⟩

theorem Named.nodup (hu : u.Named) : u.valueNames.Nodup := by
  refine List.nodup_iff_getElem?_ne_getElem?.2 fun i j hij hj he => ?_
  have hi := (hu _ i).2 (he.trans (List.getElem?_eq_getElem hj))
  have hj := (hu _ j).2 (List.getElem?_eq_getElem hj)
  rw [hi] at hj
  cases hj
  omega

/-- The value of a name is the one that is listed under it. -/
theorem Named.value?_iff (hu : u.Named) : u.value? name = some d ↔ d ∈ u.values ∧ d.name = name := by
  rw [value?_eq_some]
  constructor
  · rintro ⟨i, hm, hd⟩
    rw [hu, getElem?_valueNames, hd] at hm
    exact ⟨Array.mem_of_getElem? hd, Option.some.inj hm⟩
  · rintro ⟨hd, rfl⟩
    obtain ⟨i, hi⟩ := Array.getElem?_of_mem hd
    refine ⟨i, ?_, hi⟩
    rw [hu, getElem?_valueNames, hi]
    rfl

/-! ## Runs -/

theorem meaning?_applyAll (ops : List Operation) (h : u.meaning? name = some m) :
    (u.applyAll ops).meaning? name = some m := by
  induction ops generalizing u with
  | nil => exact h
  | cons op ops ih => exact ih ((apply_effect u op).meaning? h)

theorem completesArray_eq_true {x y : Ty} : u.completesArray x y = true ↔
    ∃ element size, u.canonicalShape? x = some (.incompleteArray element) ∧
      u.canonicalShape? y = some (.constantArray element size) := by
  unfold completesArray
  split
  · next element element' size hx hy =>
    rw [beq_iff_eq]
    constructor
    · rintro rfl
      exact ⟨element, size, hx, hy⟩
    · rintro ⟨e, n, he, hn⟩
      rw [hx] at he
      rw [hy] at hn
      cases he
      cases hn
      rfl
  · next hne => exact iff_of_false (by simp) fun ⟨element, size, hx, hy⟩ => hne _ _ _ hx hy

theorem Extends.completesArray (h : u.Extends v) {x y : Ty} (hc : u.completesArray x y = true) :
    v.completesArray x y = true := by
  obtain ⟨element, size, hx, hy⟩ := completesArray_eq_true.1 hc
  exact completesArray_eq_true.2 ⟨element, size, h.canonicalShape? hx, h.canonicalShape? hy⟩

/-- A completed array is not completed again. -/
theorem not_completesArray_again {x y z : Ty} (hc : u.completesArray x y = true) : u.completesArray y z ≠ true := by
  intro hc'
  obtain ⟨element, size, -, hy⟩ := completesArray_eq_true.1 hc
  obtain ⟨element', size', hy', -⟩ := completesArray_eq_true.1 hc'
  rw [hy] at hy'
  cases hy'

theorem value?_apply (u : DeclUnit) (op : Operation) (h : u.value? name = some d) :
    ∃ t, (u.apply op).value? name = some { d with type := t } ∧ (t = d.type ∨ u.completesArray d.type t = true) := by
  obtain ⟨i, hm, hd⟩ := value?_eq_some.1 h
  obtain ⟨t, ht, hcompletes⟩ := (apply_effect u op).values hd
  exact ⟨t, value?_eq_some.2 ⟨i, (apply_effect u op).meaning? hm, ht⟩, hcompletes⟩

/-- Along a run a value keeps its type, or its array is completed once. -/
theorem value?_applyAll (ops : List Operation) (h : u.value? name = some d) :
    ∃ t, (u.applyAll ops).value? name = some { d with type := t } ∧
      (t = d.type ∨ (u.applyAll ops).completesArray d.type t = true) := by
  induction ops generalizing u d with
  | nil => exact ⟨d.type, h, .inl rfl⟩
  | cons op ops ih =>
    obtain ⟨t, ht, hstep⟩ := value?_apply u op h
    obtain ⟨t', ht', hrun⟩ := ih ht
    refine ⟨t', ht', ?_⟩
    rcases hstep with rfl | hstep
    · exact hrun
    · -- Once completed, the type is an array `T[N]` wherever it is looked at.
      have hnow := (applyAll_retains u (op :: ops)).nodes.completesArray hstep
      rcases hrun with rfl | hrun
      · exact .inr hnow
      · exact absurd hrun (not_completesArray_again hnow)

/-- A completed array stays as it is. -/
theorem value?_completed (ops : List Operation) {t t' : Ty} (h : u.value? name = some { d with type := t })
    (hc : u.completesArray t' t = true) : (u.applyAll ops).value? name = some { d with type := t } := by
  obtain ⟨x, hx, rfl | hcompletes⟩ := value?_applyAll ops h
  · exact hx
  · exact absurd hcompletes (not_completesArray_again ((applyAll_retains u ops).nodes.completesArray hc))

/-- The values behind those of the first unit are listed as they are declared first. -/
theorem valueNames_applyAll (hu : u.Named) (ops : List Operation) :
    (u.applyAll ops).valueNames = u.valueNames ++ ((u.declaredNames ops).removeAll u.valueNames).eraseDups := by
  induction ops generalizing u with
  | nil => simp [declaredNames, applyAll]
  | cons op ops ih =>
    have heffect := apply_effect u op
    have hrun := ih (heffect.named hu)
    have hlisted : ∀ {name i}, u.meaning? name = some (.value i) → name ∈ u.valueNames :=
      fun h => List.mem_of_getElem? ((hu _ _).1 h)
    rw [declaredNames]
    change ((u.apply op).applyAll ops).valueNames = _
    rw [hrun]
    generalize (u.apply op).declaredNames ops = rest
    generalize u.declaredBy op = names at heffect
    cases heffect with
    | kept _ hvalues | bound _ _ _ hvalues => rw [valueNames_of_values hvalues, List.nil_append]
    | repeated hposition _ hvalues =>
      rw [valueNames_of_values hvalues]
      simp [List.cons_removeAll, hlisted hposition]
    | completed hposition hd _ _ hvalues =>
      rw [valueNames_set hd hvalues]
      simp [List.cons_removeAll, hlisted hposition]
    | @declared name _ hfree _ hvalues =>
      have hnew : name ∉ u.valueNames := fun h => by
        obtain ⟨i, hi⟩ := List.getElem?_of_mem h
        exact hu.not_listed hfree i hi
      -- A later declaration of the new name is not the first any more.
      have hrest : rest.removeAll (u.valueNames ++ [name]) =
          (rest.removeAll u.valueNames).filter fun b => !b == name := by
        simp only [List.removeAll, List.filter_filter]
        exact List.filter_congr fun b _ => by simp [Bool.and_comm, beq_eq_decide]
      rw [valueNames_push hvalues, List.append_assoc, hrest, List.singleton_append, List.singleton_append,
        List.cons_removeAll]
      simp [hnew, List.eraseDups_cons]

theorem eraseDups_of_nodup {l : List String} (h : l.Nodup) : l.eraseDups = l := by
  induction l with
  | nil => rfl
  | cons a l ih =>
    obtain ⟨ha, hl⟩ := List.nodup_cons.1 h
    rw [List.eraseDups_cons, List.filter_eq_self.2, ih hl]
    intro b hb
    simp only [Bool.not_eq_eq_eq_not, Bool.not_true, beq_eq_false_iff_ne]
    rintro rfl
    exact ha hb

/-! ## Tags -/

/-- The definition of a tag changes tags only. -/
theorem apply_definesTag (h : op.definesTag = true) : u.apply op = { u with tags := (u.apply op).tags } := by
  cases op with
  | defineTag name t =>
    refine (u.defineTag_allOrNothing name t).cases (P := fun v => v = { u with tags := v.tags }) rfl fun v hv => ?_
    obtain ⟨-, rfl⟩ := defineTag_eq_ok hv
    rfl
  | _ => cases h

/-- The definition of a tag depends on tags only. -/
theorem defineTag_congr (h : w.tags = u.tags) (name : String) (t : Ty) :
    (w.defineTag name t).2.tags = (u.defineTag name t).2.tags ∧
      faultOf? (w.defineTag name t) = faultOf? (u.defineTag name t) := by
  unfold defineTag tag?
  rw [h]
  split
  · exact ⟨rfl, rfl⟩
  · exact ⟨h, rfl⟩

/-- All other operations neither change tags nor depend on them. -/
theorem apply_tags (h : op.definesTag = false) (tags : List (String × Ty)) :
    { u with tags := tags }.apply op = { u.apply op with tags := tags } :=
  apply_relabelled id (fun _ => tags) u h

theorem tags_apply (h : op.definesTag = false) : (u.apply op).tags = u.tags := by
  have he : u.apply op = { u.apply op with tags := u.tags } := apply_tags h u.tags
  rw [he]

theorem refusal?_tags (h : op.definesTag = false) (tags : List (String × Ty)) :
    { u with tags := tags }.refusal? op = u.refusal? op := by
  have hfault : ∀ {α : Type} (r : Except TypeFault α × DeclUnit),
      faultOf? (relabelledAt id (fun _ => tags) r) = faultOf? r := fun _ => rfl
  change (u.relabelled id fun _ => tags).refusal? op = _
  cases op with
  | defineTag name t => cases h
  | _ => simp only [refusal?, completeRecord_relabelled, completeEnum_relabelled, defineTypedef_relabelled,
      defineConstant_relabelled, declareValue_relabelled, hfault]

/-- Without the definitions of tags, a run on any tags leaves the same but for those. -/
theorem applyAll_untagged (u : DeclUnit) (ops : List Operation) (tags : List (String × Ty)) :
    { u with tags := tags }.applyAll (ops.filter fun op => !op.definesTag) = { u.applyAll ops with tags := tags } := by
  induction ops generalizing u with
  | nil => rfl
  | cons op ops ih =>
    change _ = { (u.apply op).applyAll ops with tags := tags }
    rw [← ih (u.apply op)]
    cases h : op.definesTag with
    | true =>
      -- What the operation has done to the tags is overwritten.
      rw [List.filter_cons_of_neg (by simp [h]), apply_definesTag h]
    | false =>
      rw [List.filter_cons_of_pos (by simp [h]), ← apply_tags h]
      rfl

/-- The definitions of tags alone, on any unit with these tags, leave the same tags. -/
theorem tags_applyAll_tagging (ops : List Operation) (h : w.tags = u.tags) :
    (w.applyAll (ops.filter (·.definesTag))).tags = (u.applyAll ops).tags := by
  induction ops generalizing u w with
  | nil => exact h
  | cons op ops ih =>
    change _ = ((u.apply op).applyAll ops).tags
    cases hop : op.definesTag with
    | false =>
      rw [List.filter_cons_of_neg (by simp [hop])]
      exact ih (h.trans (tags_apply hop).symm)
    | true =>
      rw [List.filter_cons_of_pos hop]
      refine ih ?_
      cases op with
      | defineTag name t => exact (defineTag_congr h name t).1
      | _ => cases hop

theorem tag?_applyAll (ops : List Operation) (h : u.tag? name = some t) : (u.applyAll ops).tag? name = some t := by
  induction ops generalizing u with
  | nil => exact h
  | cons op ops ih =>
    refine ih ?_
    cases op with
    | defineTag other s =>
      refine (u.defineTag_allOrNothing other s).cases (P := fun v => v.tag? name = some t) h fun v hv => ?_
      obtain ⟨hfree, rfl⟩ := defineTag_eq_ok hv
      rw [tag?, List.lookup_cons, beq_false_of_ne]
      · exact h
      · rintro rfl
        rw [hfree] at h
        cases h
    | _ =>
      rw [tag?, tags_apply rfl]
      exact h

/-! ## Names that are settled -/

/-- An ordinary name is of one kind, and the name of a value is listed once, with that value. -/
structure DistinctNames (u : DeclUnit) : Prop where
  kind : ∀ name, (u.value? name = none ∧ u.typedef? name = none) ∨ (u.value? name = none ∧ u.constant? name = none) ∨
    (u.typedef? name = none ∧ u.constant? name = none)
  nodup : u.valueNames.Nodup
  value : ∀ {name d}, u.value? name = some d ↔ d ∈ u.values ∧ d.name = name

/-- Names of the first unit stand for the same in the second. A value may have been declared with a type `T[]`; then it
may have a type `T[N]` in the second unit, and that for good. -/
structure KeepsNames (u v : DeclUnit) : Prop where
  typedef : ∀ {name t}, u.typedef? name = some t → v.typedef? name = some t
  constant : ∀ {name c}, u.constant? name = some c → v.constant? name = some c
  tag : ∀ {name t}, u.tag? name = some t → v.tag? name = some t
  value : ∀ {name d}, u.value? name = some d → v.value? name = some d ∨
    ∃ element size t, v.canonicalShape? d.type = some (.incompleteArray element) ∧
      v.canonicalShape? t = some (.constantArray element size) ∧
      ∀ more, (v.applyAll more).value? name = some { d with type := t }

theorem Named.distinctNames (hu : u.Named) : u.DistinctNames := ⟨kinds_apart u, hu.nodup, hu.value?_iff⟩

theorem applyAll_keepsNames (u : DeclUnit) (ops : List Operation) : u.KeepsNames (u.applyAll ops) := by
  refine ⟨fun h => ?_, fun {name c} h => ?_, tag?_applyAll ops, fun {name d} h => ?_⟩
  · exact typedef?_eq_some.2 (meaning?_applyAll ops (typedef?_eq_some.1 h))
  · exact constant?_eq_some.2 (meaning?_applyAll ops (constant?_eq_some.1 h))
  · obtain ⟨t, ht, rfl | hc⟩ := value?_applyAll ops h
    · exact .inl ht
    · obtain ⟨element, size, hx, hy⟩ := completesArray_eq_true.1 hc
      exact .inr ⟨element, size, t, hx, hy, fun more => value?_completed more ht hc⟩

/-- Along every run, names stay what they are and apart from one another, and values are listed in the order of their
first declarations. What is done to tags neither depends on anything else nor has an effect on it, be it that an
operation is refused. -/
theorem Built.names_kept (hu : u.Built) (ops : List Operation) :
    let v := u.applyAll ops
    v.DistinctNames ∧ u.KeepsNames v ∧
      v.valueNames = (u.valueNames ++ u.declaredNames ops).eraseDups ∧
      (∀ tags, { u with tags := tags }.applyAll (ops.filter fun op => !op.definesTag) = { v with tags := tags }) ∧
      (∀ w : DeclUnit, w.tags = u.tags → (w.applyAll (ops.filter (·.definesTag))).tags = v.tags) ∧
      (∀ op tags, op.definesTag = false → { u with tags := tags }.refusal? op = u.refusal? op) ∧
      (∀ op (w : DeclUnit), op.definesTag = true → w.tags = u.tags → w.refusal? op = u.refusal? op) := by
  intro v
  have hn := hu.named
  refine ⟨(hn.applyAll ops).distinctNames, applyAll_keepsNames u ops, ?_, applyAll_untagged u ops,
    fun w => tags_applyAll_tagging ops, fun op tags h => refusal?_tags h tags, fun op w hop h => ?_⟩
  · rw [List.eraseDups_append, eraseDups_of_nodup hn.nodup]
    exact valueNames_applyAll hn ops
  · cases op with
    | defineTag name t => exact (defineTag_congr h name t).2
    | _ => cases hop

/-- A table is completed under a tag of its own name, and neither completed again nor made a typedef. -/
theorem names_kept_completed :
    let u := (empty "unit" .lp64).applyAll [.intern (.builtin .int), .nameType "cell" ⟨0⟩,
      .intern (.incompleteArray ⟨1⟩), .intern (.constantArray ⟨0⟩ 4), .intern (.constantArray ⟨1⟩ 8),
      .declareValue "table" ⟨3⟩, .declareValue "count" ⟨0⟩]
    let v := u.applyAll [.defineTag "table" ⟨0⟩, .declareValue "cell" ⟨0⟩, .declareValue "last" ⟨1⟩,
      .declareValue "table" ⟨4⟩, .declareValue "table" ⟨6⟩, .nameType "table" ⟨0⟩, .declareValue "count" ⟨1⟩]
    u.Built ∧ u.value? "table" = some ⟨"table", ⟨3⟩⟩ ∧
      (∀ more, (v.applyAll more).value? "table" = some ⟨"table", ⟨4⟩⟩) ∧
      v.valueNames = ["table", "count", "last"] ∧ v.value? "cell" = none := by
  intro u v
  have hu : u.Built := .inl ⟨"unit", .lp64, _, by decide +kernel, rfl⟩
  have htable : u.value? "table" = some ⟨"table", ⟨3⟩⟩ := by decide +kernel
  have hcompleted : v.value? "table" = some ⟨"table", ⟨4⟩⟩ := by decide +kernel
  obtain ⟨hdistinct, hkeeps, horder, -⟩ := Built.names_kept hu [.defineTag "table" ⟨0⟩, .declareValue "cell" ⟨0⟩,
    .declareValue "last" ⟨1⟩, .declareValue "table" ⟨4⟩, .declareValue "table" ⟨6⟩, .nameType "table" ⟨0⟩,
    .declareValue "count" ⟨1⟩]
  refine ⟨hu, htable, ?_, horder.trans (by decide +kernel), ?_⟩
  · rcases hkeeps.value htable with h | ⟨element, size, t, -, -, hmore⟩
    · rw [hcompleted] at h
      cases h
    · have hnow := hmore []
      rw [show (v.applyAll []).value? "table" = some ⟨"table", ⟨4⟩⟩ from hcompleted] at hnow
      cases hnow
      exact hmore
  · rcases hdistinct.kind "cell" with ⟨h, -⟩ | ⟨h, -⟩ | ⟨h, -⟩
    · exact h
    · exact h
    · exact absurd (hkeeps.typedef (show u.typedef? "cell" = some ⟨1⟩ by decide +kernel)) (by simp [h])

end Cognate.DeclUnit
