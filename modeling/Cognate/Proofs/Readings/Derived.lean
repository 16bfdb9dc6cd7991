import Cognate.Proofs.Expression.Reading
import Cognate.Proofs.Readings.Trees

/-!
# Types of declarators

The type that a declarator makes of a type in front of it, by recursion on its levels (`DeclaratorTree.Makes`): the type
is wrapped in what stands in front, then in what stands behind from right to left, and then goes on to the inner
declarator. There is such a type unless a step would make an array of functions, or a function whose result is an array
or a function (`DeclaratorTree.refused`).
-/

namespace Cognate.Grammar

variable {u v : DeclUnit} {s s' : State} {t t' m base : Ty} {d : Derivation} {ds before after : List Derivation}
  {span : Span} {depth : Nat}

/-! ## What is refused -/

/-- What a type is behind all sugar, as far as arrays and functions go. -/
inductive TypeKind where
  | array
  | function
  | other
deriving DecidableEq, Repr

def kindOf (u : DeclUnit) (t : Ty) : TypeKind :=
  if u.isArray t then .array else if u.isFunction t then .function else .other

/-- The kind of the types that a step makes. -/
def Derivation.typeKind : Derivation → TypeKind
  | array _ => .array
  | function _ _ | noPrototype => .function
  | _ => .other

/-- There are no arrays of functions, and no functions whose results are arrays or functions. -/
def Derivation.refuses : Derivation → TypeKind → Bool
  | array _, kind => kind == .function
  | function _ _, kind | noPrototype, kind => kind != .other
  | _, _ => false

/-- Some step from a type of this kind on is refused. -/
def refusesAny : TypeKind → List Derivation → Bool
  | _, [] => false
  | kind, d :: ds => d.refuses kind || refusesAny d.typeKind ds

/-- The kind behind some steps. -/
def kindBehind : TypeKind → List Derivation → TypeKind
  | kind, [] => kind
  | _, d :: ds => kindBehind d.typeKind ds

/-- Some step of a declarator is refused: one around the inner declarator, or one of that. -/
def DeclaratorTree.refused : DeclaratorTree → TypeKind → Bool
  | name before _ behind, kind => refusesAny kind (before ++ behind.reverse)
  | nested before inner behind, kind =>
    refusesAny kind (before ++ behind.reverse) || inner.refused (kindBehind kind (before ++ behind.reverse))

theorem refusesAny_append (kind : TypeKind) (ds es : List Derivation) :
    refusesAny kind (ds ++ es) = (refusesAny kind ds || refusesAny (kindBehind kind ds) es) := by
  induction ds generalizing kind with
  | nil => rfl
  | cons d ds ih => rw [List.cons_append, refusesAny, refusesAny, kindBehind, ih, Bool.or_assoc]

theorem DeclaratorTree.refused_eq (tree : DeclaratorTree) (kind : TypeKind) :
    tree.refused kind = refusesAny kind tree.steps := by
  induction tree generalizing kind with
  | name before found behind => rfl
  | nested before inner behind ih =>
    rw [refused, ih]
    exact (refusesAny_append ..).symm

/-! ## What is made -/

/-- The shape of the type that a step makes, without qualifiers. -/
def Derivation.shape (t : Ty) : Derivation → Shape
  | pointer _ => .pointer t
  | blockPointer _ => .blockPointer t
  | lvalueRef => .lvalueRef t
  | rvalueRef => .rvalueRef t
  | memberPointer owner _ => .memberPointer t owner
  | array (.constant size) => .constantArray t size
  | array .incomplete => .incompleteArray t
  | array .variable => .variableArray t
  | function params variadic => .prototype t params variadic {}
  | noPrototype => .noPrototype t {}

/-- The qualifiers behind a pointer operator. -/
def Derivation.qualifiers : Derivation → Qualifiers
  | pointer q | blockPointer q | memberPointer _ q => q
  | _ => .none

/-- The second type is what a step makes of the first one. -/
def Wraps (v : DeclUnit) (t : Ty) (d : Derivation) (t' : Ty) : Prop :=
  ∃ plain, v.shape? plain = some (d.shape t) ∧
    if d.qualifiers.isEmpty then t' = plain else v.shape? t' = some (.qualified plain d.qualifiers)

/-- The second type is what steps make of the first one, one after the other. -/
def WrapsAll (v : DeclUnit) : Ty → List Derivation → Ty → Prop
  | t, [], t' => t' = t
  | t, d :: ds, t' => ∃ m, Wraps v t d m ∧ WrapsAll v m ds t'

/-- The second type is what a declarator makes of the first one: this is wrapped in what stands in front, from left to
right, then in what stands behind, from right to left; of the result, the inner declarator makes the type. -/
def DeclaratorTree.Makes (v : DeclUnit) : DeclaratorTree → Ty → Ty → Prop
  | name before _ behind, t, t' => ∃ m, WrapsAll v t before m ∧ WrapsAll v m behind.reverse t'
  | nested before inner behind, t, t' =>
    ∃ m n, WrapsAll v t before m ∧ WrapsAll v m behind.reverse n ∧ inner.Makes v n t'

theorem wrapsAll_append : WrapsAll v t (before ++ after) t' ↔ ∃ m, WrapsAll v t before m ∧ WrapsAll v m after t' := by
  induction before generalizing t with
  | nil => simp [WrapsAll]
  | cons d before ih =>
    simp only [List.cons_append, WrapsAll, ih]
    constructor
    · rintro ⟨n, hn, m, hm, hafter⟩
      exact ⟨m, ⟨n, hn, hm⟩, hafter⟩
    · rintro ⟨m, ⟨n, hn, hm⟩, hafter⟩
      exact ⟨n, hn, m, hm, hafter⟩

theorem DeclaratorTree.makes_iff (tree : DeclaratorTree) : tree.Makes v t t' ↔ WrapsAll v t tree.steps t' := by
  induction tree generalizing t with
  | name before found behind => exact wrapsAll_append.symm
  | nested before inner behind ih =>
    rw [steps, wrapsAll_append]
    simp only [wrapsAll_append, Makes, ih]
    constructor
    · rintro ⟨m, n, hm, hn, hinner⟩
      exact ⟨n, ⟨m, hm, hn⟩, hinner⟩
    · rintro ⟨n, ⟨m, hm, hn⟩, hinner⟩
      exact ⟨m, n, hm, hn, hinner⟩

theorem Wraps.extends (h : u.Extends v) (hd : Wraps u t d t') : Wraps v t d t' := by
  obtain ⟨plain, hplain, hqualified⟩ := hd
  refine ⟨plain, h.shape? hplain, ?_⟩
  split_ifs at hqualified ⊢
  · exact hqualified
  · exact h.shape? hqualified

theorem Wraps.contains (h : Wraps v t d t') : v.contains t' = true := by
  obtain ⟨plain, hplain, hqualified⟩ := h
  split_ifs at hqualified
  · exact hqualified ▸ DeclUnit.contains_of_shape? hplain
  · exact DeclUnit.contains_of_shape? hqualified

/-! ## Steps -/

/-- The types that a step names. -/
def Derivation.named : Derivation → List Ty
  | memberPointer owner _ => [owner]
  | function params _ => params
  | _ => []

theorem Derivation.children_shape (d : Derivation) (t : Ty) : ∀ c ∈ (d.shape t).children, c = t ∨ c ∈ d.named := by
  cases d with
  | array bound => cases bound <;> simp [Derivation.shape, Shape.children]
  | _ => simp [Derivation.shape, Shape.children, Derivation.named]

theorem Derivation.Sound.named (hd : d.Sound u) : ∀ c ∈ d.named, u.contains c = true := by
  cases d with
  | memberPointer owner q => simpa [Derivation.named] using hd.1
  | function params variadic => exact fun p hp => (hd p hp).1.1
  | _ => simp [Derivation.named]

theorem Derivation.isSugar_shape (d : Derivation) (t : Ty) : (d.shape t).isSugar = false := by
  cases d with
  | array bound => cases bound <;> rfl
  | _ => rfl

theorem isFunction_eq (u : DeclUnit) (t : Ty) : u.isFunction t = (kindOf u t == .function) := by
  rw [kindOf, DeclUnit.isArray, DeclUnit.isFunction]
  cases u.canonicalShape? t with
  | none => rfl
  | some shape => cases shape <;> rfl

theorem isArray_or_isFunction (u : DeclUnit) (t : Ty) : (u.isArray t || u.isFunction t) = (kindOf u t != .other) := by
  unfold kindOf
  split_ifs <;> simp_all

/-- Behind all sugar, a type that a step makes is of its kind. -/
theorem Wraps.kindOf (hv : v.WellFormed) (h : Wraps v t d t') : kindOf v t' = d.typeKind := by
  obtain ⟨plain, hplain, hqualified⟩ := h
  have hflat := hv.canonicalShape?_flat hplain (d.isSugar_shape t)
  have hsame : v.canonicalShape? t' = v.canonicalShape? plain := by
    split_ifs at hqualified
    · rw [hqualified]
    · exact hv.canonicalShape?_sugar hqualified rfl (by simp [Shape.children])
  rw [Grammar.kindOf, DeclUnit.isArray, DeclUnit.isFunction, hsame, hflat]
  cases d with
  | array bound => cases bound <;> rfl
  | _ => rfl

theorem kindOf_extends (hu : u.WellFormed) (h : u.Extends v) (ht : u.contains t = true) : kindOf v t = kindOf u t := by
  rw [kindOf, kindOf, hu.isFunction_extends h ht, DeclUnit.isArray, DeclUnit.isArray, hu.canonicalShape?_extends h ht]

/-- A step that is not refused interns the type of its shape, and puts its qualifiers on that. -/
theorem derive_eq_qualified (h : d.refuses (kindOf s.unit t) = false) :
    derive span {} t d s = qualified (d.shape t) d.qualifiers s := by
  have hresult : (kindOf s.unit t != .other) = false → checkResult t span s = .ok () s := fun hkind => by
    refine (unit_bind_run _ s).trans ?_
    rw [isArray_or_isFunction, hkind]
    rfl
  cases d with
  | array bound =>
    refine (unit_bind_run _ s).trans ?_
    have hfunction : s.unit.isFunction t = false := (isFunction_eq s.unit t).trans h
    rw [hfunction]
    cases bound <;> rfl
  | function params variadic | noPrototype => exact bind_of_ok (hresult h)
  | _ => rfl

/-- A step of a declarator makes the type of its shape, with its qualifiers. -/
theorem derive_wraps (hu : s.unit.WellFormed) (ht : s.unit.contains t = true)
    (hd : ∀ c ∈ d.named, s.unit.contains c = true) (h : d.refuses (kindOf s.unit t) = false) :
    ∃ t' v, derive span {} t d s = .ok t' (s.withUnit v) ∧ s.unit.Enriches v ∧ Wraps v t d t' := by
  have hc : ∀ c ∈ (d.shape t).children, s.unit.contains c = true := by
    intro c hc
    obtain rfl | hc := d.children_shape t c hc
    · exact ht
    · exact hd c hc
  obtain ⟨hw, -, hshape⟩ := DeclUnit.intern_spec hu hc
  have henriches := DeclUnit.Enriches.intern hu hc
  have hrun : qualified (d.shape t) d.qualifiers s =
      .ok ((s.unit.intern (d.shape t)).2.qualify (s.unit.intern (d.shape t)).1 d.qualifiers).1
        (s.withUnit ((s.unit.intern (d.shape t)).2.qualify (s.unit.intern (d.shape t)).1 d.qualifiers).2) := rfl
  generalize (s.unit.intern (d.shape t)).1 = plain at *
  generalize (s.unit.intern (d.shape t)).2 = w at *
  have hplain := DeclUnit.contains_of_shape? hshape
  have hqualify := DeclUnit.Enriches.qualify hw hplain d.qualifiers
  refine ⟨_, _, (derive_eq_qualified h).trans hrun, henriches.trans hqualify, plain, hqualify.nodes.shape? hshape, ?_⟩
  split_ifs with hq
  · rw [DeclUnit.qualify, if_pos hq]
  · have hne : ∀ inner p, d.shape t ≠ .qualified inner p := fun inner p he => by
      have hsugar := d.isSugar_shape t
      simp [he, Shape.isSugar] at hsugar
    rw [DeclUnit.qualify_of_unqualified hshape hne (Bool.eq_false_iff.2 hq)]
    exact (DeclUnit.intern_spec hw (by simpa [Shape.children] using hplain)).2.2

/-- Why a step is refused, and what the fault says. -/
def Refusal (u : DeclUnit) (t : Ty) (d : Derivation) (cause : Cause) : Prop :=
  d.typeKind = .array ∧ u.isFunction t = true ∧ cause = .arrayOfFunctions ∨
    d.typeKind = .function ∧ (u.isArray t = true ∨ u.isFunction t = true) ∧ cause = .badResult (u.describe t)

theorem derive_refused (h : d.refuses (kindOf s.unit t) = true) :
    ∃ cause, derive span {} t d s = .error ⟨cause, span⟩ s ∧ Refusal s.unit t d cause := by
  have hresult : (kindOf s.unit t != .other) = true →
      checkResult t span s = .error ⟨.badResult (s.unit.describe t), span⟩ s ∧
        (s.unit.isArray t = true ∨ s.unit.isFunction t = true) := fun hkind => by
    have hbad := (isArray_or_isFunction s.unit t).trans hkind
    refine ⟨(unit_bind_run _ s).trans ?_, by simpa using hbad⟩
    rw [hbad]
    rfl
  cases d with
  | array bound =>
    have hfunction : s.unit.isFunction t = true := (isFunction_eq s.unit t).trans h
    refine ⟨_, (unit_bind_run _ s).trans ?_, .inl ⟨rfl, hfunction, rfl⟩⟩
    rw [hfunction]
    rfl
  | function params variadic | noPrototype =>
    obtain ⟨hrun, hkind⟩ := hresult h
    exact ⟨_, bind_of_error hrun, .inr ⟨rfl, hkind, rfl⟩⟩
  | _ => exact absurd h (by simp [Derivation.refuses])

/-! ## Runs -/

theorem deriveAll_cons (d : Derivation) (ds : List Derivation) (t : Ty) :
    deriveAll span {} t (d :: ds) = derive span {} t d >>= fun m => deriveAll span {} m ds := by
  rw [deriveAll, ite_self]

/-- Behind a step that is not refused, the others go on from the type that it makes. -/
theorem deriveAll_step (hu : s.unit.WellFormed) (ht : s.unit.contains t = true)
    (hd : ∀ c ∈ d.named, s.unit.contains c = true) (h : d.refuses (kindOf s.unit t) = false) :
    ∃ m w, (∀ ds, deriveAll span {} t (d :: ds) s = deriveAll span {} m ds (s.withUnit w)) ∧ s.unit.Enriches w ∧
      Wraps w t d m ∧ kindOf w m = d.typeKind := by
  obtain ⟨m, w, hrun, hw, hm⟩ := derive_wraps hu ht hd h
  refine ⟨m, w, fun ds => ?_, hw, hm, hm.kindOf (hw.wellFormed hu)⟩
  rw [deriveAll_cons]
  exact bind_of_ok hrun

/-- If no step is refused, the steps make a type one after the other. By induction on the steps. -/
theorem deriveAll_wraps (hu : s.unit.WellFormed) (ht : s.unit.contains t = true)
    (hds : ∀ d ∈ ds, ∀ c ∈ d.named, s.unit.contains c = true) (h : refusesAny (kindOf s.unit t) ds = false) :
    ∃ t' v, deriveAll span {} t ds s = .ok t' (s.withUnit v) ∧ s.unit.Enriches v ∧ WrapsAll v t ds t' := by
  induction ds generalizing s t with
  | nil => exact ⟨t, s.unit, rfl, .refl _, rfl⟩
  | cons d ds ih =>
    obtain ⟨hd, hds⟩ := List.forall_mem_cons.1 hds
    obtain ⟨hfirst, hrest⟩ := Bool.or_eq_false_iff.1 h
    obtain ⟨m, w, hstep, hw, hm, hkind⟩ := deriveAll_step hu ht hd hfirst
    obtain ⟨t', v, hrun, hv, ht'⟩ := ih (s := s.withUnit w) (hw.wellFormed hu) hm.contains
      (fun x hx c hc => hw.nodes.contains (hds x hx c hc)) (hkind ▸ hrest)
    exact ⟨t', v, (hstep ds).trans hrun, hw.trans hv, m, hm.extends hv.nodes, ht'⟩

/-- If some step is refused, the first of these fails, on the type that the steps before it make. By induction on the
steps. -/
theorem deriveAll_refused (hu : s.unit.WellFormed) (ht : s.unit.contains t = true)
    (hds : ∀ d ∈ ds, ∀ c ∈ d.named, s.unit.contains c = true) (h : refusesAny (kindOf s.unit t) ds = true) :
    ∃ cause v before d after m, deriveAll span {} t ds s = .error ⟨cause, span⟩ (s.withUnit v) ∧ s.unit.Enriches v ∧
      ds = before ++ d :: after ∧ WrapsAll v t before m ∧ Refusal v m d cause := by
  induction ds generalizing s t with
  | nil => cases h
  | cons d ds ih =>
    obtain ⟨hd, hds⟩ := List.forall_mem_cons.1 hds
    by_cases hfirst : d.refuses (kindOf s.unit t) = true
    · obtain ⟨cause, hrun, hcause⟩ := derive_refused hfirst
      refine ⟨cause, s.unit, [], d, ds, t, ?_, .refl _, rfl, rfl, hcause⟩
      rw [deriveAll_cons]
      exact bind_of_error hrun
    · have hrest := (Bool.or_eq_true_iff.1 h).resolve_left hfirst
      obtain ⟨m, w, hstep, hw, hm, hkind⟩ := deriveAll_step hu ht hd (Bool.eq_false_iff.2 hfirst)
      obtain ⟨cause, v, before, x, after, n, hrun, hv, hsteps, hn, hcause⟩ := ih (s := s.withUnit w)
        (hw.wellFormed hu) hm.contains (fun x hx c hc => hw.nodes.contains (hds x hx c hc)) (hkind ▸ hrest)
      exact ⟨cause, v, d :: before, x, after, n, (hstep ds).trans hrun, hw.trans hv, by rw [hsteps]; rfl,
        ⟨m, hm.extends hv.nodes, hn⟩, hcause⟩

/-! ## Declarators -/

/-- In front of a text without strange names. -/
theorem State.Sound.at {stop : Nat} {ls : List Lexed} (hu : u.Written) (hls : ∀ l ∈ ls, Named l) :
    (State.at stop u ls).Sound := by
  cases ls with
  | nil => exact ⟨hu, fun _ h => (nomatch h), fun _ h => (nomatch h)⟩
  | cons l ls =>
    refine ⟨hu, hls l List.mem_cons_self, fun l' hl' => ?_⟩
    obtain ⟨_, hmem, he⟩ := List.mem_map.1 hl'
    cases he
    exact hls _ (List.mem_cons_of_mem _ hmem)

/-- Tokens of a text whose tokens all have one place. -/
theorem State.passes_map {stop : Nat} {place : Span} (ts ts' : List Token) (h : ∀ t ∈ ts, t ≠ .finish) :
    (State.at stop u ((ts ++ ts').map (⟨·, place⟩))).Passes ts (.at stop u (ts'.map (⟨·, place⟩))) := by
  have hpasses : (State.at stop u (ts.map (⟨·, place⟩) ++ ts'.map (⟨·, place⟩))).Passes _ _ :=
    State.passes_at (ts.map (⟨·, place⟩)) (by simpa using h)
  simpa [Function.comp_def] using hpasses

/-- A declarator with a name is read, and makes of a type what its tree says, unless some step is refused: then the
first of these fails, on the type that the steps before it make. -/
theorem declarator_makes {tree : DeclaratorTree} (hs : s.Sound) (hbase : s.unit.contains base = true)
    (h : Stands depth tree s s') :
    ∃ d, declarator (Rules.upTo depth) .named s = .ok d s' ∧ d.name = some tree.declared ∧
      (tree.refused (kindOf s.unit base) = false → ∃ t v, declaredType base d {} s' = .ok t (s'.withUnit v) ∧
        s'.unit.Enriches v ∧ tree.Makes v base t) ∧
      (tree.refused (kindOf s.unit base) = true → ∃ cause v before x after m,
        declaredType base d {} s' = .error ⟨cause, s.current.span.merge s'.current.span⟩ (s'.withUnit v) ∧
        s'.unit.Enriches v ∧ tree.steps = before ++ x :: after ∧ WrapsAll v base before m ∧ Refusal v m x cause) := by
  have hread := declarator_stands h
  obtain ⟨hs', hgrows, hd, -⟩ := (keeps_declarator (Rules.upTo_sound depth) .named).of_ok hs hread
  have hkind := kindOf_extends hs.unit.wellFormed hgrows.nodes hbase
  have hsteps : ∀ x ∈ tree.steps, ∀ c ∈ x.named, s'.unit.contains c = true :=
    fun x hx => (hd.derivations x hx).named
  refine ⟨_, hread, rfl, fun hmade => ?_, fun hrefused => ?_⟩
  · rw [tree.refused_eq, ← hkind] at hmade
    obtain ⟨t, v, hrun, hv, ht⟩ := deriveAll_wraps hs'.unit.wellFormed (hgrows.nodes.contains hbase) hsteps hmade
    exact ⟨t, v, hrun, hv, tree.makes_iff.2 ht⟩
  · rw [tree.refused_eq, ← hkind] at hrefused
    exact deriveAll_refused hs'.unit.wellFormed (hgrows.nodes.contains hbase) hsteps hrefused

/-- The text `(*(*f(void))[3])(void);` behind `int`: a function whose result is a pointer to an array of three pointers
to functions. -/
theorem declarator_makes_function :
    let u := ((DeclUnit.empty "unit" .lp64).intern (.builtin .int)).2
    let text (ts : List Token) := State.at 24 u (ts.map (⟨·, ⟨0, 24⟩⟩))
    let inner : DeclaratorTree := .name [.pointer .none] ("f", ⟨0, 24⟩) [.function [] false]
    let tree : DeclaratorTree := .nested [] (.nested [.pointer .none] inner [.array (.constant 3)]) [.function [] false]
    ∃ d t v, declarator (Rules.upTo 12) .named (text
        [.punct .lparen, .punct .star, .punct .lparen, .punct .star, .name "f", .punct .lparen, .keyword .void,
         .punct .rparen, .punct .rparen, .punct .lbracket, .literal .decimal "3", .punct .rbracket, .punct .rparen,
         .punct .lparen, .keyword .void, .punct .rparen, .punct .semi]) = .ok d (text [.punct .semi]) ∧
      d.name = some ("f", ⟨0, 24⟩) ∧
      declaredType ⟨0⟩ d {} (text [.punct .semi]) = .ok t ((text [.punct .semi]).withUnit v) ∧ tree.Makes v ⟨0⟩ t := by
  intro u text inner tree
  have hint : ∀ t, (DeclUnit.empty "unit" .lp64).Writes t (.builtin .int) := fun _ => rfl
  have hu : u.Written := ((DeclUnit.empty_written "unit" .lp64).intern (by simp [Shape.children]) rfl hint).1
  have hpasses (ts ts' : List Token) (hts : ∀ t ∈ ts, t ≠ .finish) : (text (ts ++ ts')).Passes ts (text ts') :=
    State.passes_map ts ts' hts
  have hvoid (depth : Nat) (ts : List Token) : Suffixed (Rules.upTo depth)
      (text (.punct .lparen :: .keyword .void :: .punct .rparen :: ts)) (.function [] false) (text ts) :=
    .function (hpasses [.punct .lparen] (.keyword .void :: .punct .rparen :: ts) (by decide)) rfl
      (hpasses [.punct .rparen] ts (by decide))
  let star : List (List Token × Derivation) := [([.punct .star], .pointer .none)]
  have hstar : ∀ x ∈ star, Prefixed u x.1 x.2 := by
    intro x hx
    cases List.mem_singleton.1 hx
    exact @Prefixed.pointer u [] (by simp)
  have hbefore (ts : List Token) : (text (.punct .star :: ts)).Passes (star.flatMap Prod.fst) (text ts) :=
    hpasses [.punct .star] ts (by decide)
  let nothing : List (List Token × Derivation) := []
  have hnothing : ∀ x ∈ nothing, Prefixed u x.1 x.2 := fun _ hx => absurd hx List.not_mem_nil
  have hno (s : State) : s.Passes (nothing.flatMap Prod.fst) s := .nil s
  -- What stands behind the outermost declarator, and behind the innermost one.
  let outer : List Token := [.punct .rparen, .punct .lparen, .keyword .void, .punct .rparen, .punct .semi]
  let middle : List Token := .punct .rparen :: .punct .lbracket :: .literal .decimal "3" :: .punct .rbracket :: outer
  have hthree : Suffixed (Rules.upTo 11) (text middle.tail) (.array (.constant 3)) (text outer) :=
    .size (hpasses [.punct .lbracket] _ (by decide)) (n := 3) rfl (by decide) (hpasses [.punct .rbracket] _ (by decide))
  have hinner := Stands.name hstar (hbefore _)
    (hpasses [.name "f"] (.punct .lparen :: .keyword .void :: .punct .rparen :: middle) (by decide)) (by decide)
    (.cons (hvoid 10 _) (.nil (by decide) (by decide)))
  have hmiddle := Stands.nested hstar (hbefore _) (hpasses [.punct .lparen] _ (by decide))
    (.inl rfl) hinner (hpasses [.punct .rparen] middle.tail (by decide)) (.cons hthree (.nil (by decide) (by decide)))
  have hstands := Stands.nested hnothing (hno _) (hpasses [.punct .lparen] _ (by decide)) (.inl rfl) hmiddle
    (hpasses [.punct .rparen] outer.tail (by decide)) (.cons (hvoid 12 _) (.nil (by decide) (by decide)))
  have hs : State.Sound (text (.punct .lparen :: .punct .star :: .punct .lparen :: .punct .star :: .name "f" ::
      .punct .lparen :: .keyword .void :: .punct .rparen :: middle)) := by
    refine .at hu fun l hl text htext => ?_
    obtain rfl : text = "f" := by
      obtain ⟨t, ht, rfl⟩ := List.mem_map.1 hl
      cases htext
      simpa [middle, outer] using ht
    exact ⟨⟨_, _, rfl, rfl, rfl⟩, by decide⟩
  obtain ⟨d, hread, hnamed, hmade, -⟩ := declarator_makes hs (by decide +kernel : u.contains ⟨0⟩ = true) hstands
  obtain ⟨t, v, hrun, -, ht⟩ := hmade (by decide +kernel)
  exact ⟨d, t, v, hread, hnamed, hrun, ht⟩

/-- `f[3](void)` behind `int`: the elements would be functions. -/
example : (outcome ((declarator (Rules.upTo 12) .named >>= fun d => declaredType ⟨0⟩ d {})
    (.at 11 ((DeclUnit.empty "unit" .lp64).intern (.builtin .int)).2 ([.name "f", .punct .lbracket,
      .literal .decimal "3", .punct .rbracket, .punct .lparen, .keyword .void, .punct .rparen, .punct .semi].map
        (⟨·, ⟨0, 11⟩⟩))))).1 = .error ⟨.arrayOfFunctions, ⟨0, 11⟩⟩ := by decide +kernel

end Cognate.Grammar
