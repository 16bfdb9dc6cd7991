import Cognate.Grammar.Tagged
import Cognate.Proofs.Grammar.Words
import Cognate.Proofs.Number.WideInt
import Cognate.Proofs.Unit.Extents

/-!
# Integer types of enums

The numbers that a kind of integer represents, and the first kind that represents all values of an enum
(`find?_enumKinds`). An enum that is completed over a kind that has its values stores them without loss
(`stores_of_completeEnum`).
-/

namespace Cognate

/-! ## Ranges -/

/-- A kind of integer has that number on a target. -/
def Target.Represents (target : Target) (b : Builtin) (n : Int) : Prop :=
  ∃ e, target.extent b = some e ∧ WideInt.Holds b.isSigned e.width n

/-- The first of the kinds an enum is stored as that has all the values. -/
def Target.Prefers (target : Target) (b : Builtin) (values : List Int) : Prop :=
  (∀ n ∈ values, target.Represents b n) ∧
    ∃ before after, [.int, .uint, .long, .ulong, .longLong, .ulongLong] = before ++ b :: after ∧
      ∀ k ∈ before, ∃ n ∈ values, ¬target.Represents k n

namespace Grammar

variable {target : Target} {b : Builtin} {n least greatest : Int} {values : List Int}

/-- The range of a kind is what it represents, as far as numbers of 128 bits go. -/
theorem integerRange?_iff (ht : target ∈ Target.presets) (h : integerRange? target b = some (least, greatest)) :
    least ≤ n ∧ n ≤ greatest ↔ target.Represents b n ∧ Fits n := by
  unfold integerRange? at h
  split at h
  · cases h
  next hinteger =>
  obtain ⟨e, he, h⟩ := Option.map_eq_some_iff.1 h
  have hwidth := integer_width ht he (by simpa using hinteger)
  have hle := (Target.extent_of_presets ht he).1
  have hrepresents : target.Represents b n ↔ WideInt.Holds b.isSigned e.width n := by
    simp [Target.Represents, he]
  rw [hrepresents, WideInt.Holds, Fits, leastInt_eq, greatestInt_eq]
  split at h
  · next hsigned =>
    rw [if_pos hsigned]
    split at h <;> obtain ⟨rfl, rfl⟩ := Prod.mk.inj h
    · obtain hw : e.width = 128 := by omega
      rw [hw, leastInt_eq, greatestInt_eq]
      omega
    · have hpow := pow_fits (k := e.width - 1) (by omega)
      rw [Int.pow_eq]
      omega
  · next hunsigned =>
    rw [if_neg hunsigned]
    split at h <;> obtain ⟨rfl, rfl⟩ := Prod.mk.inj h
    · obtain hw : e.width = 128 := by omega
      rw [hw, greatestInt_eq]
      omega
    · have hpow := pow_fits (k := e.width) (by omega)
      rw [Int.pow_eq]
      omega

/-- The kinds that an enum is stored as have at most 64 bits on every target. -/
theorem extent_of_enumKinds (ht : target ∈ Target.presets) (hb : b ∈ enumKinds) :
    b.isInteger = true ∧ ∃ e, target.extent b = some e ∧ 0 < e.width ∧ e.width ≤ 64 := by
  have hall : ∀ target ∈ Target.presets, ∀ b ∈ enumKinds,
      b.isInteger = true ∧ (target.extent b).any fun e => 0 < e.width && e.width ≤ 64 := by decide
  obtain ⟨hinteger, hextent⟩ := hall target ht b hb
  obtain ⟨e, he, hwidth⟩ := (Option.any_eq_true _ _).1 hextent
  exact ⟨hinteger, e, he, by simpa using hwidth⟩

theorem represents_zero (ht : target ∈ Target.presets) (hb : b ∈ enumKinds) : target.Represents b 0 := by
  obtain ⟨-, e, he, hpos, hle⟩ := extent_of_enumKinds ht hb
  have hhalf := pow_fits (k := e.width - 1) (by omega)
  have hwhole := pow_fits (k := e.width) hle
  refine ⟨e, he, ?_⟩
  unfold WideInt.Holds
  split <;> omega

theorem fits_of_represents (ht : target ∈ Target.presets) (hb : b ∈ enumKinds) (hn : target.Represents b n) :
    Fits n := by
  obtain ⟨-, e, he, hpos, hle⟩ := extent_of_enumKinds ht hb
  have hhalf := pow_fits (k := e.width - 1) (by omega)
  have hwhole := pow_fits (k := e.width) hle
  obtain ⟨e', he', hn⟩ := hn
  cases he.symm.trans he'
  unfold WideInt.Holds at hn
  split at hn <;> exact fits_of_bounds (by omega) (by omega)

theorem exists_integerRange? {e : Extent} (hinteger : b.isInteger = true) (he : target.extent b = some e) :
    ∃ range, integerRange? target b = some range :=
  Option.isSome_iff_exists.1 (by simp [integerRange?, hinteger, he])

theorem holdsAll_iff (ht : target ∈ Target.presets) (hb : b ∈ enumKinds) :
    holdsAll target (0 :: values) b = true ↔ ∀ n ∈ values, target.Represents b n := by
  obtain ⟨hinteger, e, he, -⟩ := extent_of_enumKinds ht hb
  obtain ⟨⟨least, greatest⟩, hrange⟩ := exists_integerRange? hinteger he
  have hin : ∀ n, (decide (least ≤ n) && decide (n ≤ greatest)) = true ↔ target.Represents b n := by
    intro n
    rw [Bool.and_eq_true, decide_eq_true_iff, decide_eq_true_iff, integerRange?_iff ht hrange]
    exact and_iff_left_of_imp (fits_of_represents ht hb)
  rw [holdsAll, hrange, Option.any_some, List.all_eq_true]
  simp only [hin, List.forall_mem_cons, represents_zero ht hb, true_and]

theorem find?_enumKinds (ht : target ∈ Target.presets) :
    enumKinds.find? (holdsAll target (0 :: values)) = some b ↔ target.Prefers b values := by
  have hrest : (∃ before after, enumKinds = before ++ b :: after ∧
      ∀ k ∈ before, (!holdsAll target (0 :: values) k) = true) ↔
      ∃ before after, enumKinds = before ++ b :: after ∧ ∀ k ∈ before, ∃ n ∈ values, ¬target.Represents k n := by
    refine exists₂_congr fun before after => and_congr_right fun hsplit => forall₂_congr fun k hk => ?_
    have hmem : k ∈ enumKinds := by simp [hsplit, hk]
    rw [Bool.not_eq_true', ← Bool.not_eq_true, holdsAll_iff ht hmem]
    simp only [not_forall, exists_prop]
  rw [List.find?_eq_some_iff_append, hrest]
  refine and_congr_left fun ⟨before, after, hsplit, _⟩ => holdsAll_iff ht ?_
  simp [hsplit]

end Grammar

/-! ## Complete enums -/

/-- An enum is complete: each of its constants is stored in the width of the integer type, and read with a sign or
without one, as that type is, it is the value again. -/
structure DeclUnit.Stores (u : DeclUnit) (t base : Ty) (b : Builtin) (constants : List (String × Int)) : Prop where
  kind : u.builtinKind? base = some b
  integer : b.isInteger = true
  represented : ∀ c ∈ constants, u.target.Represents b c.2
  body : ∃ id name enumerators, u.enumOf? t = some (id, ⟨name, some ⟨base, enumerators⟩⟩) ∧
    enumerators.map (fun c => (c.name, c.value.toInt b.isSigned)) = constants ∧
    ∀ c ∈ enumerators, (u.target.extent b).map Extent.width = some c.value.bits

namespace DeclUnit

variable {u v : DeclUnit} {t base : Ty} {b : Builtin} {constants : List (String × Int)}

/-- An enum without a body can be completed over every integer type that the target has. -/
theorem exists_completeEnum {id : EnumId} {d : EnumDecl} {e : Extent}
    (hd : u.enumOf? t = some (id, d)) (hbody : d.body = none) (hb : u.builtinKind? base = some b)
    (hinteger : b.isInteger = true) (he : u.target.extent b = some e) (constants : List (String × Int)) :
    ∃ v, u.completeEnum t base constants = (.ok (), v) := by
  rw [completeEnum, hd]
  dsimp only
  rw [hbody, Option.isSome_none, if_neg Bool.false_ne_true, measure, measureWithin_builtin hb, hb,
    Option.filter_some, if_pos hinteger, he]
  exact ⟨_, rfl⟩

/-- Values that the integer type has are stored without loss. -/
theorem stores_of_completeEnum (ht : u.target ∈ Target.presets)
    (h : u.completeEnum t base constants = (.ok (), v)) :
    ∃ b e, u.builtinKind? base = some b ∧ b.isInteger = true ∧ u.target.extent b = some e ∧
      ((∀ c ∈ constants, u.target.Represents b c.2) → v.Stores t base b constants) := by
  obtain ⟨id, d, b, e, hd, -, hb, hinteger, hextent, rfl⟩ := completeEnum_stores h
  rw [extent_of_builtinKind? hb] at hextent
  refine ⟨b, e, hb, hinteger, hextent, fun hvalues => ⟨hb, hinteger, hvalues, ?_⟩⟩
  have hle := (Grammar.Target.extent_of_presets ht hextent).1
  have hpos : 1 ≤ e.width := by
    have hwidth := Grammar.integer_width ht hextent hinteger
    omega
  have hbits : enumeratorBits e = e.width := Nat.mod_eq_of_lt (by rw [Nat.pow_eq]; omega)
  have hread : ∀ c ∈ constants, (WideInt.ofInt e.width c.2).toInt b.isSigned = c.2 := by
    intro c hc
    obtain ⟨e', he', hholds⟩ := hvalues c hc
    cases hextent.symm.trans he'
    exact WideInt.toInt_ofInt hpos hle hholds
  obtain ⟨hshape, hid⟩ := enumOf?_eq_some hd
  refine ⟨id, d.name, constants.map fun c => ⟨c.1, WideInt.ofInt (enumeratorBits e) c.2⟩, ?_, ?_, ?_⟩
  · have hcomplete := (Extends.of_nodes_eq (completeEnum_nodes h)).canonicalShape? hshape
    rw [enumOf?, hcomplete]
    dsimp only
    rw [enum?_set hid, if_pos rfl]
    rfl
  · rw [List.map_map, hbits]
    refine (List.map_congr_left fun c hc => ?_).trans (List.map_id' _)
    exact Prod.ext rfl (hread c hc)
  · simp only [List.mem_map, forall_exists_index, and_imp, hbits]
    rintro _ c - rfl
    rw [hextent, WideInt.bits_ofInt hpos]
    rfl

end DeclUnit
end Cognate
