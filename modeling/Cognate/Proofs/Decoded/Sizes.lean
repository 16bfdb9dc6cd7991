import Cognate.Proofs.Decoded.Levels
import Cognate.Proofs.Readings.Texts

/-!
# Sizes of values

The size of a type multiplies the sizes of nested arrays, outermost last, while reading divides the bytes by them, level
by level. The two agree on all bytes (`mismatched_iff`), except that an array with elements is never read from no bytes,
whatever the size of its elements.
-/

namespace Cognate

variable {u : DeclUnit} {t : Ty} {n size count : Nat} {bytes : List UInt8} {read : List UInt8 → Decoded}

/-- The mark is about the number of bytes. -/
def Degradation.isSize : Degradation → Bool
  | .size _ _ | .arraySize _ _ => true
  | .unread _ | .unhandled _ | .longDouble | .foreign => false

namespace Decoded

mutual

/-- The marks in a value, from the first element to the last. -/
def marks : Decoded → List Degradation
  | degraded d => [d]
  | array elements => marksAll elements
  | void | scalar _ | pointer _ => []

/-- The marks in values, one after the other. -/
def marksAll : List Decoded → List Degradation
  | [] => []
  | d :: ds => d.marks ++ marksAll ds

end

theorem marksAll_eq (ds : List Decoded) : marksAll ds = ds.flatMap marks := by
  induction ds with
  | nil => rfl
  | cons d ds ih => rw [marksAll, ih, List.flatMap_cons]

/-- Somewhere in the value, bytes are not as many as are read there. -/
def mismatched (d : Decoded) : Bool := d.marks.any Degradation.isSize

@[simp] theorem mismatched_degraded (d : Degradation) : (degraded d).mismatched = d.isSize := by
  simp [mismatched, marks]

@[simp] theorem mismatched_scalar (text : String) : (scalar text).mismatched = false := by simp [mismatched, marks]

@[simp] theorem mismatched_pointer (address : Nat) : (pointer address).mismatched = false := by
  simp [mismatched, marks]

@[simp] theorem mismatched_array (ds : List Decoded) : (array ds).mismatched = ds.any mismatched := by
  rw [mismatched, marks, marksAll_eq, List.any_flatMap]
  rfl

/-! ## One level -/

theorem mismatched_ofPointer (bytes : List UInt8) :
    (ofPointer bytes).mismatched = true ↔ bytes.length ≠ pointerSize := by
  unfold ofPointer
  split <;> simp_all [Degradation.isSize]

theorem mismatched_ofBuiltin {b : Builtin} (h : (HostForm.ofBuiltin b).size? = some n) (bytes : List UInt8) :
    (ofBuiltin b bytes).mismatched = true ↔ bytes.length ≠ n := by
  simp only [ofBuiltin, h]
  by_cases hlength : bytes.length = n
  · rw [if_neg (not_not.2 hlength)]
    split <;> simp [hlength, Degradation.isSize]
  · rw [if_pos hlength]
    simp [hlength, Degradation.isSize]

theorem length_of_mem_pieces (h : size * count ≤ bytes.length) {piece : List UInt8}
    (hp : piece ∈ pieces size count bytes) : piece.length = size := by
  induction count generalizing bytes with
  | zero => cases hp
  | succ count ih =>
    rw [Nat.mul_succ] at h
    rcases List.mem_cons.1 hp with rfl | hp
    · rw [List.length_take, min_eq_left (by omega)]
    · exact ih (by rw [List.length_drop]; omega) hp

/-- Bytes that divide into elements are read element by element. Each element gets some. -/
theorem ofArray_mul (read : List UInt8 → Decoded) (hsize : 0 < size) (hcount : 0 < count)
    (h : bytes.length = size * count) : ofArray read count bytes = array ((pieces size count bytes).map read) := by
  have hle : count ≤ size * count := Nat.le_mul_of_pos_left count hsize
  rw [ofArray, if_neg hcount.ne', h, if_neg (by simp [hle]), Nat.mul_div_cancel _ hcount]

/-- Bytes that do not divide into elements, or are none at all, are not read as an array with elements. -/
theorem ofArray_of_not (read : List UInt8 → Decoded) (hcount : 0 < count)
    (h : ¬∃ size, 0 < size ∧ bytes.length = size * count) :
    ofArray read count bytes = degraded (.arraySize bytes.length count) := by
  rw [ofArray, if_neg hcount.ne', if_pos]
  by_contra hdivides
  simp only [ne_eq, Bool.or_eq_true, decide_eq_true_eq, not_or, not_not, not_lt] at hdivides
  obtain ⟨hmod, hle⟩ := hdivides
  exact h ⟨bytes.length / count, Nat.div_pos hle hcount, (Nat.div_mul_cancel (Nat.dvd_of_mod_eq_zero hmod)).symm⟩

/-- An array whose elements take `size` bytes each. Only what elements make of some bytes matters. -/
theorem mismatched_ofArray (h : ∀ piece, piece ≠ [] → ((read piece).mismatched = true ↔ piece.length ≠ size))
    (count : Nat) (bytes : List UInt8) :
    (ofArray read count bytes).mismatched = true ↔
      bytes.length ≠ size * count ∨ size * count = 0 ∧ count ≠ 0 := by
  rcases Nat.eq_zero_or_pos count with rfl | hcount
  · cases bytes <;> simp [ofArray, Degradation.isSize]
  by_cases hdivides : ∃ part, 0 < part ∧ bytes.length = part * count
  · obtain ⟨part, hpart, hlength⟩ := hdivides
    -- All pieces are equally long, and there is one.
    have hpieces : ∀ piece ∈ pieces part count bytes, (read piece).mismatched = true ↔ part ≠ size := by
      intro piece hpiece
      have hpiece := length_of_mem_pieces hlength.ge hpiece
      rw [h piece (List.ne_nil_of_length_pos (hpiece ▸ hpart)), hpiece]
    have hone : ∃ piece, piece ∈ pieces part count bytes := by
      obtain ⟨count, rfl⟩ := Nat.exists_eq_succ_of_ne_zero hcount.ne'
      exact ⟨_, List.mem_cons_self⟩
    have hany : ((pieces part count bytes).map read).any mismatched = true ↔ part ≠ size := by
      rw [List.any_map, List.any_eq_true]
      constructor
      · rintro ⟨piece, hpiece, hmarked⟩
        exact (hpieces piece hpiece).1 hmarked
      · obtain ⟨piece, hpiece⟩ := hone
        exact fun hne => ⟨piece, hpiece, (hpieces piece hpiece).2 hne⟩
    rw [ofArray_mul read hpart hcount hlength, mismatched_array, hany, hlength, ne_eq,
      ne_eq, Nat.mul_left_inj hcount.ne']
    constructor
    · exact .inl
    · rintro (hne | ⟨hzero, -⟩) rfl
      · exact hne rfl
      · exact absurd hzero (Nat.mul_pos hpart hcount).ne'
  · rw [ofArray_of_not read hcount hdivides, mismatched_degraded]
    refine iff_of_true rfl ?_
    by_contra hnone
    obtain ⟨hlength, hzero⟩ := not_or.1 hnone
    exact hdivides ⟨size, Nat.pos_of_ne_zero fun hsize => hzero ⟨by simp [hsize], hcount.ne'⟩, not_not.1 hlength⟩

end Decoded

namespace DeclUnit

/-! ## Every level -/

/-- The size of a canonical shape, given how the size of an element is found. -/
def hostSizeOf (hostSize? : Ty → Option Nat) : Option Shape → Option Nat
  | some (.builtin b) => (HostForm.ofBuiltin b).size?
  | some (.pointer _) => some Decoded.pointerSize
  | some (.constantArray element count) => (hostSize? element).bind fun n => word? (n * count)
  | _ => none

theorem hostSizeWithin_descends (u : DeclUnit) : u.Descends u.hostSizeWithin hostSizeOf :=
  ⟨fun fuel t => by
    rw [hostSizeWithin]
    cases u.canonicalShape? t with
    | none => rfl
    | some s => cases s <;> rfl,
  fun {g h o} hgh => by
    cases o with
    | none => rfl
    | some s =>
      cases s with
      | constantArray element count => rw [hostSizeOf, hostSizeOf, hgh _ rfl element (by simp [Shape.children])]
      | _ => rfl⟩

/-- The size of a type, from the size of its elements. -/
theorem hostSize?_eq (hu : u.WellFormed) (t : Ty) : u.hostSize? t = hostSizeOf u.hostSize? (u.canonicalShape? t) :=
  u.hostSizeWithin_descends.eq hu (Nat.lt_succ_self _)

theorem hostForm_size_pos {b : Builtin} (h : (HostForm.ofBuiltin b).size? = some n) : 0 < n := by
  have hall : ∀ b ∈ Builtin.all, ∀ n ∈ (HostForm.ofBuiltin b).size?, 0 < n := by decide
  exact hall b (Builtin.mem_all b) n h

/-- By induction on the type: the elements of an array stand in front of it. -/
theorem WellFormed.mismatched_iff (hu : u.WellFormed) (h : u.hostSize? t = some n) (bytes : List UInt8) :
    (Decoded.ofBytes u t bytes).mismatched = true ↔
      bytes.length ≠ n ∨ n = 0 ∧ (u.arraySizes t).head? ≠ some 0 := by
  induction hi : t.index using Nat.strong_induction_on generalizing t n bytes with
  | _ i ih =>
    subst hi
    rw [hostSize?_eq hu] at h
    rw [Decoded.ofBytes_eq hu, arraySizes_eq hu]
    unfold hostSizeOf at h
    split at h
    · next b hs =>
      rw [hs, Decoded.level, Decoded.mismatched_ofBuiltin h]
      simp [(hostForm_size_pos h).ne']
    · next hs =>
      cases h
      rw [hs, Decoded.level, Decoded.mismatched_ofPointer]
      simp [Decoded.pointerSize]
    · next element count hs =>
      obtain ⟨size, hsize, hword⟩ := Option.bind_eq_some_iff.1 h
      obtain ⟨rfl, -⟩ := word?_eq_some.1 hword
      have helement : ∀ piece, piece ≠ [] →
          ((Decoded.ofBytes u element piece).mismatched = true ↔ piece.length ≠ size) := by
        intro piece hpiece
        rw [ih element.index (hu.child_canonicalShape_lt hs (by simp [Shape.children])) hsize piece rfl]
        have hpositive := List.length_pos_of_ne_nil hpiece
        omega
      rw [hs, Decoded.level, Decoded.mismatched_ofArray helement]
      simp [sizesOf]
    · cases h

/-- Bytes are marked for their number exactly if they are not as many as the type takes, or if there are none and the
type is an array with elements, which take none either. -/
theorem mismatched_iff_of_hostSize (hu : u.Built) (h : u.hostSize? t = some n) (bytes : List UInt8) :
    (Decoded.ofBytes u t bytes).mismatched = true ↔
      bytes.length ≠ n ∨ n = 0 ∧ (u.arraySizes t).head? ≠ some 0 := hu.wellFormed.mismatched_iff h bytes

/-- Rows of two numbers each, with a byte too few. -/
theorem mismatched_iff_of_hostSize_rows :
    let u := (empty "unit" .lp64).applyAll [.intern (.builtin .int), .nameType "cell" ⟨0⟩,
      .intern (.constantArray ⟨1⟩ 2), .intern (.constantArray ⟨3⟩ 3)]
    u.Built ∧ u.hostSize? ⟨5⟩ = some 24 ∧ (Decoded.ofBytes u ⟨5⟩ (List.replicate 23 0)).mismatched = true := by
  intro u
  have hu : u.Built := .inl ⟨"unit", .lp64, _, by decide +kernel, rfl⟩
  have hsize : u.hostSize? ⟨5⟩ = some 24 := by decide +kernel
  exact ⟨hu, hsize, (mismatched_iff_of_hostSize hu hsize _).2 (.inl (by decide))⟩

/-- Five arrays without elements take no bytes, but are not read from none. -/
theorem exists_mismatched_of_hostSize : ¬∀ (u : DeclUnit) (t : Ty) (n : Nat) (bytes : List UInt8), u.Built →
    u.hostSize? t = some n → ((Decoded.ofBytes u t bytes).mismatched = true ↔ bytes.length ≠ n) := by
  intro h
  let u := (empty "unit" .lp64).applyAll [.intern (.builtin .int), .intern (.constantArray ⟨0⟩ 0),
    .intern (.constantArray ⟨1⟩ 5)]
  have hu : u.Built := .inl ⟨"unit", .lp64, _, by decide +kernel, rfl⟩
  have hmarked : (Decoded.ofBytes u ⟨2⟩ []).mismatched = true := by decide +kernel
  exact (h u ⟨2⟩ 0 [] hu (by decide +kernel)).1 hmarked rfl

end DeclUnit
end Cognate
