import Cognate.Proofs.Grammar.Ranges
import Cognate.Proofs.Grammar.Texts
import Cognate.Proofs.Readings.Parameters
import Cognate.Proofs.Unit.Sugar
import Mathlib.Data.Int.ModEq

/-!
# What casts do to numbers

A cast to an integer type keeps the low bits of a number, read as the type reads them: the result is congruent to the
number and the type represents it. A cast to `_Bool` keeps whether the number is zero (`casts_wrap`). Enums do not count
as integers here: a cast to an enum changes nothing, whatever the enum is stored as.
-/

namespace Cognate

/-! ## Numbers modulo a power of two -/

/-- So many bits hold one number of each class. -/
theorem WideInt.Holds.unique {isSigned : Bool} {bits : Nat} {m n : Int} (hbits : 1 ≤ bits) (hm : Holds isSigned bits m)
    (hn : Holds isSigned bits n) (h : m ≡ n [ZMOD 2 ^ bits]) : m = n := by
  have hpow : (2 : Int) ^ bits = 2 * 2 ^ (bits - 1) := by rw [← pow_succ', Nat.sub_add_cancel hbits]
  have hlt : |n - m| < 2 ^ bits := by
    unfold Holds at hm hn
    rw [abs_lt]
    split_ifs at hm hn <;> omega
  have hzero := Int.eq_zero_of_abs_lt_dvd h.dvd hlt
  omega

namespace DeclUnit

/-- A type that is a shape without children behind all sugar. -/
theorem WellFormed.canonicalShape?_of_strip {u : DeclUnit} {t : Ty} {s : Shape} (hu : u.WellFormed)
    (ht : u.contains t = true) (hs : s.children = []) (h : u.strip t = .node s []) : u.canonicalShape? t = some s := by
  obtain ⟨c, hc⟩ := exists_shape (hu.contains_canonical ht)
  rw [← hu.unfold_canonical ht, hu.unfold_eq hc, TypeTree.node.injEq] at h
  obtain ⟨rfl, hchildren⟩ := h
  have hsame : c = c.head := Shape.eq_of_head_eq (Shape.head_map _ c).symm (by rw [hs, List.map_eq_nil_iff.1 hchildren])
  rw [canonicalShape?_eq ht, hc]
  exact congrArg some hsame

end DeclUnit

namespace Grammar

variable {target : Target} {b : Builtin} {e : Extent} {rules : Rules} {s s' s₁ : State} {t : Ty} {m n : Int}
  {value : Option Int} {depth : Nat}

/-! ## Conversions -/

/-- A conversion to an integer keeps the low bits of a number. -/
theorem convert_wraps (ht : target ∈ Target.presets) (hbool : b ≠ .bool) (hinteger : b.isInteger = true)
    (he : target.extent b = some e) (hwidth : e.width < 128) (n : Int) :
    convert target b n ≡ n [ZMOD 2 ^ e.width] ∧ target.Represents b (convert target b n) := by
  obtain ⟨hpos, hle⟩ := (integer_width ht he hinteger).resolve_left (Nat.not_le.2 hwidth)
  have hpow : (2 : Int) ^ e.width = 2 * 2 ^ (e.width - 1) := by rw [← pow_succ', Nat.sub_add_cancel hpos]
  obtain ⟨hmodulus, hbound⟩ := pow_fits hle
  have hlow := Int.emod_nonneg n hmodulus.ne'
  have hhigh := Int.emod_lt_of_pos n hmodulus
  rw [convert_of_extent hbool he, wrap_of_fits (fits_of_bounds (by omega) hbound),
    if_neg (by simpa [hinteger] using hwidth), wrap_of_fits (fits_of_bounds (by omega) (by omega))]
  constructor
  · split
    · exact (Int.sub_emod_right _ _).trans (Int.emod_emod_of_dvd n dvd_rfl)
    · exact Int.mod_modEq n _
  · refine ⟨e, he, ?_⟩
    unfold WideInt.Holds
    cases b.isSigned with
    | true =>
      rw [Bool.true_and, if_pos rfl]
      split <;> simp only [decide_eq_true_eq] at * <;> omega
    | false => exact ⟨hlow, hhigh⟩

/-- A number of the type stays as it is. -/
theorem convert_of_represents (ht : target ∈ Target.presets) (hbool : b ≠ .bool) (hinteger : b.isInteger = true)
    (he : target.extent b = some e) (hwidth : e.width < 128) (hn : target.Represents b n) : convert target b n = n := by
  obtain ⟨hmod, e', he', hm⟩ := convert_wraps ht hbool hinteger he hwidth n
  obtain ⟨e'', he'', hn⟩ := hn
  cases he'.symm.trans he
  cases he''.symm.trans he
  exact hm.unique ((integer_width ht he hinteger).resolve_left (Nat.not_le.2 hwidth)).1 hn hmod

/-- `_Bool`, the types that change nothing, and the integers of less than 128 bits. -/
theorem convert_cases (target : Target) (b : Builtin) : b = .bool ∨ (∀ n, convert target b n = n) ∨
    b ≠ .bool ∧ b.isInteger = true ∧ ∃ e, target.extent b = some e ∧ e.width < 128 := by
  by_cases hbool : b = .bool
  · exact .inl hbool
  cases he : target.extent b with
  | none => exact .inr (.inl fun n => by cases b <;> simp_all [convert])
  | some e =>
    by_cases hsame : (!b.isInteger || decide (128 ≤ e.width)) = true
    · exact .inr (.inl fun n => by rw [convert_of_extent hbool he, if_pos hsame])
    · simp only [Bool.or_eq_true, Bool.not_eq_true', decide_eq_true_eq, not_or, Bool.not_eq_false, Nat.not_le] at hsame
      exact .inr (.inr ⟨hbool, hsame.1, e, rfl, hsame.2⟩)

/-- A second conversion changes nothing. -/
theorem convert_convert (ht : target ∈ Target.presets) (b : Builtin) (n : Int) :
    convert target b (convert target b n) = convert target b n := by
  rcases convert_cases target b with rfl | hsame | ⟨hbool, hinteger, e, he, hwidth⟩
  · by_cases hn : n = 0 <;> simp [convert, truth, hn]
  · rw [hsame]
  · exact convert_of_represents ht hbool hinteger he hwidth (convert_wraps ht hbool hinteger he hwidth n).2

theorem convertTo_convertTo {u : DeclUnit} (ht : u.target ∈ Target.presets) (t : Ty) (n : Int) :
    convertTo u t (convertTo u t n) = convertTo u t n := by
  unfold convertTo
  cases u.builtinKind? t with
  | some b => exact convert_convert ht b n
  | none => rfl

/-! ## Casts -/

/-- A cast stands here: a type in parentheses, which is read. -/
structure Casts (rules : Rules) (s : State) (t : Ty) (s₁ : State) : Prop where
  opens : atParenthesizedType s = .ok true s
  type : parenthesizedType rules s = .ok t s₁

theorem unary_cast (h : Casts rules s t s₁) (operand : rules.unary s₁ = .ok value s') :
    unary rules s = .ok (value.map (convertTo s'.unit t)) s' := by
  have hstart : here s = .ok s.current.span s := rfl
  refine (bind_of_ok hstart).trans ((bind_of_ok h.opens).trans ?_)
  exact (bind_of_ok h.type).trans ((bind_of_ok operand).trans rfl)

/-- A number after a cast. To an integer type of less than 128 bits, it is congruent to the number, the type has it, and
it is the number itself if the type has that. To `_Bool`, it is zero or one. To an enum, it is the number. A second cast
to the type changes nothing. -/
theorem casts_wrap (hs : s.Sound) (ht : s.unit.target ∈ Target.presets) (h : Casts (Rules.upTo depth) s t s₁)
    (operand : (Rules.upTo depth).unary s₁ = .ok (some n) s') :
    ∃ m, unary (Rules.upTo depth) s = .ok (some m) s' ∧
      (∀ b e, s₁.unit.strip t = .node (.builtin b) [] → b ≠ .bool → b.isInteger = true →
        s.unit.target.extent b = some e → e.width < 128 →
        m ≡ n [ZMOD 2 ^ e.width] ∧ s.unit.target.Represents b m ∧ (s.unit.target.Represents b n → m = n)) ∧
      (s₁.unit.strip t = .node (.builtin .bool) [] → m = if n = 0 then 0 else 1) ∧
      (∀ id, s₁.unit.strip t = .node (.enum id) [] → m = n) ∧
      ∀ s₀, Casts (Rules.upTo (depth + 1)) s₀ t s → unary (Rules.upTo (depth + 1)) s₀ = .ok (some m) s' := by
  have hsound := Rules.upTo_sound depth
  obtain ⟨hs₁, hgrows₁, husable⟩ := (keeps_parenthesizedType hsound).of_ok hs h.type
  obtain ⟨-, hgrows, -⟩ := (hsound.unary _).of_ok hs₁ operand
  have htarget : s'.unit.target = s.unit.target := hgrows.target.trans hgrows₁.target
  have hread := unary_cast h operand
  have hshape : ∀ shape : Shape, shape.children = [] → s₁.unit.strip t = .node shape [] →
      s'.unit.canonicalShape? t = some shape := fun shape hnone hstrip =>
    hgrows.nodes.canonicalShape? (hs₁.unit.wellFormed.canonicalShape?_of_strip husable.1 hnone hstrip)
  have hbuiltin : ∀ b, s₁.unit.strip t = .node (.builtin b) [] →
      convertTo s'.unit t n = convert s.unit.target b n := by
    intro b hstrip
    rw [convertTo, DeclUnit.builtinKind?, hshape _ rfl hstrip, htarget]
  refine ⟨convertTo s'.unit t n, hread, ?_, ?_, ?_, ?_⟩
  · intro b e hstrip hbool hinteger he hwidth
    rw [hbuiltin b hstrip]
    obtain ⟨hmod, hrepresents⟩ := convert_wraps ht hbool hinteger he hwidth n
    exact ⟨hmod, hrepresents, convert_of_represents ht hbool hinteger he hwidth⟩
  · intro hstrip
    rw [hbuiltin _ hstrip]
    by_cases hn : n = 0 <;> simp [convert, truth, hn]
  · intro id hstrip
    rw [convertTo, DeclUnit.builtinKind?, hshape _ rfl hstrip]
  · intro s₀ h₀
    rw [unary_cast h₀ hread, Option.map_some, Option.map_some, convertTo_convertTo (htarget ▸ ht)]

/-- The text `(unsigned char)(unsigned char)300`, from its second cast on and as a whole. -/
theorem casts_wrap_twice :
    let cast : List Token := [.punct .lparen, .keyword .unsigned, .keyword .char, .punct .rparen]
    let u := ((DeclUnit.empty "unit" .lp64).intern (.builtin .uchar)).2
    let number : State := textAt u [.literal .decimal "300"]
    let once : State := textAt u (cast ++ [.literal .decimal "300"])
    let twice : State := textAt (.empty "unit" .lp64) (cast ++ cast ++ [.literal .decimal "300"])
    once.Sound ∧ Casts (Rules.upTo 12) once ⟨0⟩ number ∧ (Rules.upTo 12).unary number = .ok (some 300) (textAt u []) ∧
      unary (Rules.upTo 12) once = .ok (some 44) (textAt u []) ∧
      unary (Rules.upTo 13) twice = .ok (some 44) (textAt u []) := by
  intro cast u number once twice
  have htwice : Casts (Rules.upTo 13) twice ⟨0⟩ once := ⟨rfl, by with_unfolding_all rfl⟩
  have honce : Casts (Rules.upTo 12) once ⟨0⟩ number := ⟨rfl, by with_unfolding_all rfl⟩
  have hnumber : (Rules.upTo 12).unary number = .ok (some 300) (textAt u []) := rfl
  have hsound : once.Sound :=
    ((keeps_parenthesizedType (Rules.upTo_sound 13)).of_ok (textAt_sound (by simp [cast])) htwice.type).1
  have hstrip : number.unit.strip ⟨0⟩ = .node (.builtin .uchar) [] :=
    hsound.unit.wellFormed.strip_flat (s := .builtin .uchar) (by decide +kernel) rfl
  have hextent : once.unit.target.extent .uchar = some ⟨8, 8⟩ := by decide +kernel
  obtain ⟨m, hm, hinteger, -, -, hagain⟩ := casts_wrap hsound (by decide +kernel) honce hnumber
  obtain ⟨hmod, ⟨e, he, hrange⟩, -⟩ := hinteger .uchar ⟨8, 8⟩ hstrip (by decide) rfl hextent (by decide)
  obtain rfl : ⟨8, 8⟩ = e := Option.some.inj (hextent.symm.trans he)
  -- The one number of eight bits without a sign that is congruent to 300.
  have hheld : WideInt.Holds false 8 44 := by norm_num [WideInt.Holds]
  obtain rfl : m = 44 := hrange.unique (by decide) hheld (hmod.trans (by decide))
  exact ⟨hsound, honce, hnumber, hm, hagain twice htwice⟩

/-- The unit of `enum E { A };`. -/
def unitOfEnum : DeclUnit :=
  { DeclUnit.empty "unit" .lp64 with
    nodes := #[⟨.enum ⟨0⟩, ⟨0⟩⟩, ⟨.builtin .int, ⟨1⟩⟩]
    enums := #[⟨some "E", some ⟨⟨1⟩, [⟨"A", ⟨32, []⟩⟩]⟩⟩]
    ordinary := [("A", .constant 0 ⟨0⟩)]
    tags := [("E", ⟨0⟩)] }

theorem unitOfEnum_fromTexts : unitOfEnum.FromTexts := by
  let v := ((DeclUnit.empty "unit" .lp64).declare "enum E \x7b A \x7d;").2
  have hv : v.name = unitOfEnum.name ∧ v.target = unitOfEnum.target ∧ v.nodes = unitOfEnum.nodes ∧
      v.records = unitOfEnum.records ∧ v.enums = unitOfEnum.enums ∧ v.values = unitOfEnum.values ∧
      v.ordinary = unitOfEnum.ordinary ∧ v.tags = unitOfEnum.tags := by decide +kernel
  have heq : v = unitOfEnum := by
    obtain ⟨hname, htarget, hnodes, hrecords, henums, hvalues, hordinary, htags⟩ := hv
    change DeclUnit.mk v.name v.target v.nodes v.records v.enums v.values v.ordinary v.tags = _
    rw [hname, htarget, hnodes, hrecords, henums, hvalues, hordinary, htags]
  exact heq ▸ .declare _ (.empty "unit" .lp64)

/-- The text `(enum E)4294967299` behind `enum E { A };`: the enum is stored as `int`, which does not have that number,
and the cast does not change it. -/
theorem exists_cast_not_represented : ∃ (s s₁ s' : State) (t : Ty) (id : EnumId) (d : EnumDecl) (body : EnumBody)
    (n : Int), s.Sound ∧ Casts (Rules.upTo 12) s t s₁ ∧ s₁.unit.strip t = .node (.enum id) [] ∧
      s₁.unit.enum? id = some d ∧ d.body = some body ∧ s₁.unit.builtinKind? body.base = some .int ∧
      unary (Rules.upTo 12) s = .ok (some n) s' ∧ ¬s.unit.target.Represents .int n := by
  let number : List Token := [.literal .decimal "4294967299"]
  let s : State := textAt unitOfEnum ([.punct .lparen, .keyword .enum, .name "E", .punct .rparen] ++ number)
  have hcast : Casts (Rules.upTo 12) s ⟨0⟩ (textAt unitOfEnum number) := ⟨rfl, by with_unfolding_all rfl⟩
  have hname : IsName "E" := ⟨⟨_, _, rfl, rfl, rfl⟩, by decide⟩
  have hs : s.Sound := .at unitOfEnum_fromTexts.written (by simp [Named, number, hname])
  have hstrip : unitOfEnum.strip ⟨0⟩ = .node (.enum ⟨0⟩) [] :=
    unitOfEnum_fromTexts.written.wellFormed.strip_flat (s := .enum ⟨0⟩) rfl rfl
  have hread : unary (Rules.upTo 12) s = .ok (some 4294967299) (textAt unitOfEnum []) := unary_cast hcast rfl
  refine ⟨s, _, _, ⟨0⟩, ⟨0⟩, _, _, 4294967299, hs, hcast, hstrip, rfl, rfl, rfl, hread, ?_⟩
  rintro ⟨e, he, hrange⟩
  obtain rfl : ⟨32, 32⟩ = e := Option.some.inj he
  norm_num [WideInt.Holds, Builtin.isSigned] at hrange

end Grammar
end Cognate
