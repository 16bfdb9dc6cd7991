import Cognate.Proofs.Decoded.Sizes
import Mathlib.Algebra.Order.BigOperators.GroupWithZero.List
import Mathlib.Algebra.Order.Ring.Nat

/-!
# Values of nested arrays

The bytes of an array of arrays are divided level by level, by the number of elements there. What comes out is the same
as if they had been divided once, into as many pieces as there are elements in all (`leaves_eq`): each innermost
element is read from its own piece and from no other (`ofBytes_arrays`).
-/

namespace Cognate

variable {u : DeclUnit} {element t : Ty} {size count : Nat} {sizes : List Nat} {bytes : List UInt8}

namespace Decoded

/-! ## Pieces of pieces -/

/-- The bytes from the `i`-th multiple of a size up to the next one. -/
def piece (size : Nat) (bytes : List UInt8) (i : Nat) : List UInt8 := (bytes.drop (i * size)).take size

theorem pieces_eq (size count : Nat) (bytes : List UInt8) :
    pieces size count bytes = (List.range count).map (piece size bytes) := by
  induction count generalizing bytes with
  | zero => rfl
  | succ count ih =>
    have hnext : ∀ i, piece size (bytes.drop size) i = piece size bytes (i + 1) := by
      intro i
      rw [piece, piece, List.drop_drop, Nat.succ_mul, Nat.add_comm]
    rw [pieces, ih, List.range_succ_eq_map, List.map_cons, List.map_map]
    refine congrArg₂ List.cons ?_ (List.map_congr_left fun i _ => hnext i)
    rw [piece, Nat.zero_mul, List.drop_zero]

/-- Pieces that divide some bytes are all of them, one after the other. -/
theorem flatten_pieces (h : bytes.length = size * count) : (pieces size count bytes).flatten = bytes := by
  induction count generalizing bytes with
  | zero => rw [pieces, List.flatten_nil, List.length_eq_zero_iff.1 h]
  | succ count ih =>
    rw [Nat.mul_succ] at h
    rw [pieces, List.flatten_cons, ih (by rw [List.length_drop]; omega), List.take_append_drop]

theorem pieces_take (size count more : Nat) (bytes : List UInt8) :
    pieces size (count + more) bytes =
      pieces size count (bytes.take (size * count)) ++ pieces size more (bytes.drop (size * count)) := by
  induction count generalizing bytes with
  | zero => simp [pieces]
  | succ count ih =>
    have hfirst : (bytes.take (size * (count + 1))).take size = bytes.take size := by
      rw [List.take_take, min_eq_left (Nat.le_mul_of_pos_right size (Nat.succ_pos count))]
    have hrest : (bytes.take (size * (count + 1))).drop size = (bytes.drop size).take (size * count) := by
      rw [List.drop_take, Nat.mul_succ, Nat.add_sub_cancel]
    rw [Nat.succ_add, pieces, ih, pieces, hfirst, hrest, List.cons_append, List.drop_drop, Nat.mul_succ, Nat.add_comm]

/-- Dividing the parts gives the pieces of the whole. By induction on the parts. -/
theorem pieces_pieces (size count parts : Nat) (bytes : List UInt8) :
    (pieces (size * count) parts bytes).flatMap (pieces size count) = pieces size (count * parts) bytes := by
  induction parts generalizing bytes with
  | zero => rfl
  | succ parts ih =>
    rw [pieces, List.flatMap_cons, ih, Nat.mul_succ, Nat.add_comm, pieces_take]

/-! ## Trees of values -/

/-- Arrays within arrays, each of so many elements as its level asks for. -/
def Full : List Nat → Decoded → Prop
  | [], _ => True
  | n :: sizes, array elements => elements.length = n ∧ ∀ d ∈ elements, Full sizes d
  | _ :: _, _ => False

/-- The values behind so many levels of arrays, from the first to the last. -/
def leaves : Nat → Decoded → List Decoded
  | 0, d => [d]
  | depth + 1, array elements => elements.flatMap (leaves depth)
  | _ + 1, _ => []

end Decoded

namespace DeclUnit

/-- The type is made of arrays of these sizes, the outermost first, around the elements. Typedefs and qualifiers may
stand at every level. -/
def Nests (u : DeclUnit) (element : Ty) : List Nat → Ty → Prop
  | [], t => u.canonical t = u.canonical element
  | n :: sizes, t => ∃ part, u.canonicalShape? t = some (.constantArray part n) ∧ u.Nests element sizes part

/-- An array as written nests what its elements nest. -/
theorem Nests.of_shape (hu : u.WellFormed) {part : Ty} (hs : u.shape? t = some (.constantArray part count))
    (h : u.Nests element sizes part) : u.Nests element (count :: sizes) t := by
  refine ⟨u.canonical part, hu.canonicalShape?_flat hs rfl, ?_⟩
  have hpart : u.contains part = true := hu.contains_child hs (by simp [Shape.children])
  cases sizes with
  | nil => exact (hu.canonical_canonical part).trans h
  | cons n sizes =>
    obtain ⟨inner, hinner, hrest⟩ := h
    exact ⟨inner, (hu.canonicalShape?_canonical hpart).trans hinner, hrest⟩

/-- Bytes are read alike through types that stand for the same one. -/
theorem WellFormed.ofBytes_canonical (hu : u.WellFormed) (t : Ty) :
    Decoded.ofBytes u (u.canonical t) = Decoded.ofBytes u t := by
  cases ht : u.contains t with
  | true => rw [Decoded.ofBytes_eq hu, Decoded.ofBytes_eq hu t, hu.canonicalShape?_canonical ht]
  | false => rw [canonical_of_not_contains ht]

/-- By induction on the levels: the pieces of a level are divided further at the next one. -/
theorem Nests.leaves_eq (hu : u.WellFormed) (h : u.Nests element sizes t) (hsizes : ∀ n ∈ sizes, 0 < n)
    (hsize : 0 < size) (hbytes : bytes.length = size * sizes.prod) :
    (Decoded.ofBytes u t bytes).Full sizes ∧ (Decoded.ofBytes u t bytes).leaves sizes.length =
      (Decoded.pieces size sizes.prod bytes).map (Decoded.ofBytes u element) := by
  induction sizes generalizing t bytes with
  | nil =>
    have hwhole : Decoded.pieces size 1 bytes = [bytes] :=
      congrArg (· :: []) (List.take_of_length_le (by simpa using hbytes.le))
    have hread : Decoded.ofBytes u t = Decoded.ofBytes u element := by
      rw [← hu.ofBytes_canonical t, h, hu.ofBytes_canonical]
    refine ⟨trivial, ?_⟩
    rw [List.prod_nil, hwhole, hread]
    rfl
  | cons n sizes ih =>
    obtain ⟨part, hpart, hrest⟩ := h
    obtain ⟨hn, hsizes⟩ := List.forall_mem_cons.1 hsizes
    rw [List.prod_cons, Nat.mul_comm n, ← Nat.mul_assoc] at hbytes
    have hpos : 0 < size * sizes.prod := Nat.mul_pos hsize (List.prod_pos hsizes)
    have hpieces := fun piece hpiece =>
      @ih part piece hrest hsizes (Decoded.length_of_mem_pieces hbytes.ge hpiece)
    rw [Decoded.ofBytes_eq hu, hpart, Decoded.level, Decoded.ofArray_mul _ hpos hn hbytes]
    refine ⟨⟨?_, ?_⟩, ?_⟩
    · rw [List.length_map, Decoded.pieces_eq, List.length_map, List.length_range]
    · exact List.forall_mem_map.2 fun piece hpiece => (hpieces piece hpiece).1
    · rw [List.length_cons, Decoded.leaves, List.flatMap_map,
        List.flatMap_congr fun piece hpiece => (hpieces piece hpiece).2, ← List.map_flatMap, Decoded.pieces_pieces,
        List.prod_cons, Nat.mul_comm n]

/-- Bytes are read as nested arrays innermost element by innermost element, `size` bytes for each of them in turn: all
bytes are used once, no level is left incomplete, and one array of all elements holds the same values. What the bytes of
one element are changes no other one. -/
theorem ofBytes_arrays (hu : u.Built) (h : u.Nests element sizes t) (hsizes : ∀ n ∈ sizes, 0 < n) (hsize : 0 < size)
    (hbytes : bytes.length = size * sizes.prod) :
    let value := Decoded.ofBytes u t bytes
    value.Full sizes ∧
      value.leaves sizes.length =
        (List.range sizes.prod).map (fun i => Decoded.ofBytes u element (Decoded.piece size bytes i)) ∧
      (List.range sizes.prod).flatMap (Decoded.piece size bytes) = bytes ∧
      (∀ flat, u.Nests element [sizes.prod] flat →
        Decoded.ofBytes u flat bytes = .array (value.leaves sizes.length)) ∧
      ∀ (other : List UInt8) (i : Nat), other.length = bytes.length →
        (∀ j, j ≠ i → Decoded.piece size other j = Decoded.piece size bytes j) →
        ∀ j, j ≠ i → ((Decoded.ofBytes u t other).leaves sizes.length)[j]? = (value.leaves sizes.length)[j]? := by
  intro value
  have hw := hu.wellFormed
  have hleaves : ∀ bytes : List UInt8, bytes.length = size * sizes.prod →
      (Decoded.ofBytes u t bytes).leaves sizes.length =
        (List.range sizes.prod).map fun i => Decoded.ofBytes u element (Decoded.piece size bytes i) := by
    intro bytes hbytes
    rw [(h.leaves_eq hw hsizes hsize hbytes).2, Decoded.pieces_eq, List.map_map]
    rfl
  refine ⟨(h.leaves_eq hw hsizes hsize hbytes).1, hleaves bytes hbytes, ?_, fun flat hflat => ?_,
    fun other i hlength hother j hj => ?_⟩
  · rw [List.flatMap_def, ← Decoded.pieces_eq, Decoded.flatten_pieces hbytes]
  · obtain ⟨part, hpart, hcanonical⟩ := hflat
    have hread : Decoded.ofBytes u part = Decoded.ofBytes u element := by
      rw [← hw.ofBytes_canonical part, hcanonical, hw.ofBytes_canonical]
    rw [Decoded.ofBytes_eq hw flat, hpart, Decoded.level, Decoded.ofArray_mul _ hsize (List.prod_pos hsizes) hbytes,
      hread, (h.leaves_eq hw hsizes hsize hbytes).2]
  · rw [hleaves other (hlength.trans hbytes), hleaves bytes hbytes, List.getElem?_map, List.getElem?_map]
    cases hk : (List.range sizes.prod)[j]? with
    | none => rfl
    | some k =>
      obtain ⟨hlt, rfl⟩ := List.getElem?_eq_some_iff.1 hk
      rw [List.getElem_range, Option.map_some, Option.map_some, hother j hj]

/-- Two rows of two extended floats, the rows behind a typedef. The second one lacks its integer bit, and is marked
alone. -/
theorem ofBytes_arrays_rows :
    let u := (empty "unit" .lp64).applyAll [.intern (.builtin .longDouble), .intern (.constantArray ⟨0⟩ 2),
      .nameType "row" ⟨1⟩, .intern (.constantArray ⟨2⟩ 2)]
    let bad : List UInt8 := [1, 0, 0, 0, 0, 0, 0, 0, 0xFF, 0x3F, 0, 0, 0, 0, 0, 0]
    let bytes := List.replicate 16 0 ++ bad ++ List.replicate 32 0
    u.Built ∧ u.Nests ⟨0⟩ [2, 2] ⟨4⟩ ∧ (Decoded.ofBytes u ⟨4⟩ bytes).Full [2, 2] ∧
      ((Decoded.ofBytes u ⟨4⟩ bytes).leaves 2).map Decoded.isDegraded = [false, true, false, false] := by
  intro u bad bytes
  have hu : u.Built := .inl ⟨"unit", .lp64, _, by decide +kernel, rfl⟩
  have hrow : u.Nests ⟨0⟩ [2] ⟨2⟩ := ⟨⟨0⟩, by decide +kernel, rfl⟩
  have hnests : u.Nests ⟨0⟩ [2, 2] ⟨4⟩ :=
    .of_shape hu.wellFormed (by decide +kernel : u.shape? ⟨4⟩ = some (.constantArray ⟨2⟩ 2)) hrow
  have hbytes : bytes.length = 16 * [2, 2].prod := by decide
  obtain ⟨hfull, hleaves, -⟩ := ofBytes_arrays hu hnests (by decide) (by decide) hbytes
  refine ⟨hu, hnests, hfull, ?_⟩
  rw [show 2 = [2, 2].length from rfl, hleaves]
  decide +kernel

end DeclUnit
end Cognate
