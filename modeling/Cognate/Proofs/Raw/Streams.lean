import Cognate.Proofs.Number.WideInt
import Cognate.Raw.Codec

/-!
# Streams of raw values

Values written one behind the other and read back with the same types. The bytes of a value are as many as its type
says, and reading them gives the value (`read_append`); where some of them are missing, nothing is read (`read_short`).
`readAll_writeAll` puts both together for streams and for all places where a stream can be cut.
-/

namespace Cognate

/-- The type takes the value as it is. -/
inductive RawValue.Fits : RawType → RawValue → Prop
  | void : Fits .void .void
  | float (bits : UInt32) : Fits .float (.float bits)
  | double (bits : UInt64) : Fits .double (.double bits)
  | pointer (address : UInt64) : Fits .pointer (.pointer address)
  | int {bits : Nat} {v : WideInt} (hv : v.Proper) (hbits : v.bits = max bits 1) : Fits (.int bits) (.int v)

namespace RawValue

variable {type : RawType} {value : RawValue}

/-- The bytes of a value give it back, floats bit for bit. -/
theorem Fits.encode (h : Fits type value) :
    ∃ bytes, value.encode type = .ok bytes ∧ type.encodedSize? = some bytes.length ∧
      ofEncoding type bytes = some value := by
  cases h with
  | void => exact ⟨[], rfl, rfl, rfl⟩
  | float bits =>
    refine ⟨toBytes 4 bits.toNat, rfl, by rw [length_toBytes]; rfl, ?_⟩
    have hlt : bits.toNat < 256 ^ 4 := bits.toNat_lt
    rw [ofEncoding, ofBytes_toBytes, Nat.pow_eq, Nat.mod_eq_of_lt hlt, UInt32.ofNat_toNat]
  | double bits =>
    refine ⟨toBytes 8 bits.toNat, rfl, by rw [length_toBytes]; rfl, ?_⟩
    rw [ofEncoding, Limbs.ofBytes_toBytes_word, UInt64.ofNat_toNat]
  | pointer address =>
    refine ⟨toBytes 8 address.toNat, rfl, by rw [length_toBytes]; rfl, ?_⟩
    rw [ofEncoding, Limbs.ofBytes_toBytes_word, UInt64.ofNat_toNat]
  | @int bits v hv hbits =>
    refine ⟨v.words.toByteList, by rw [RawValue.encode, if_pos hbits], ?_, ?_⟩
    · rw [RawType.encodedSize?, Limbs.length_toByteList, hv.length_words, hbits]
    · rw [ofEncoding, Limbs.ofByteList_toByteList, hv.ofWords_words hbits]

/-- All bytes of a value are there: it is read, and no more than its bytes. -/
theorem read_append {bytes behind : List UInt8} (hsize : type.encodedSize? = some bytes.length)
    (hvalue : ofEncoding type bytes = some value) : read type (bytes ++ behind) = .ok (value, bytes.length) := by
  have hlength : ¬(bytes ++ behind).length < bytes.length := by
    rw [List.length_append]
    omega
  simp only [read, hsize, if_neg hlength, List.take_left' rfl, hvalue]

/-- Some bytes of a value are missing: nothing is read. -/
theorem read_short {bytes : List UInt8} {needed : Nat} (hsize : type.encodedSize? = some needed)
    (h : bytes.length < needed) : read type bytes = .error (.truncated needed bytes.length) := by
  simp only [read, hsize, if_pos h]

/-- A value is read only where all of its bytes are there. -/
theorem read_eq_ok {bytes : List UInt8} {n : Nat} (h : read type bytes = .ok (value, n)) :
    type.encodedSize? = some n ∧ n ≤ bytes.length ∧ ofEncoding type (bytes.take n) = some value := by
  unfold read at h
  split at h
  · cases h
  · next needed hsize =>
    split at h
    · cases h
    · next hlength =>
      split at h
      · next v hvalue =>
        cases h
        exact ⟨hsize, Nat.not_lt.1 hlength, hvalue⟩
      · cases h

end RawValue

/-! ## Writing and reading one behind the other -/

/-- Writes values one behind the other; the answer of each call. -/
def RawBuffer.writeAll (b : RawBuffer) : List (RawType × RawValue) → List (Except RawFault Nat) × RawBuffer
  | [] => ([], b)
  | (type, value) :: items =>
    let (answer, b) := b.write type value
    let (answers, b) := b.writeAll items
    (answer :: answers, b)

/-- Reads values one behind the other, each where the one before it ends, up to the first fault. -/
def RawValue.readAll : List RawType → List UInt8 → List (RawValue × Nat) × Option RawFault
  | [], _ => ([], none)
  | type :: types, bytes =>
    match RawValue.read type bytes with
    | .error fault => ([], some fault)
    | .ok (value, taken) =>
      let (values, fault) := readAll types (bytes.drop taken)
      ((value, taken) :: values, fault)

/-- Bytes of the encoding; none for types without one. -/
def RawType.size (type : RawType) : Nat := type.encodedSize?.getD 0

/-- Bytes of the encodings of values. -/
def RawType.sizes (items : List (RawType × RawValue)) : Nat := (items.map fun i => i.1.size).sum

namespace RawValue

open RawType

variable {type : RawType} {value : RawValue} {items : List (RawType × RawValue)} {bytes : List UInt8}

/-- The bytes are those of the values, one behind the other. -/
inductive Streamed : List (RawType × RawValue) → List UInt8 → Prop
  | nil : Streamed [] []
  | cons {type : RawType} {value : RawValue} {items : List (RawType × RawValue)} {first more : List UInt8}
      (hsize : type.encodedSize? = some first.length) (hvalue : ofEncoding type first = some value)
      (hmore : Streamed items more) : Streamed ((type, value) :: items) (first ++ more)

theorem sizes_cons (i : RawType × RawValue) (items : List (RawType × RawValue)) :
    sizes (i :: items) = i.1.size + sizes items := by
  simp [sizes]

theorem size_eq {n : Nat} (h : type.encodedSize? = some n) : type.size = n := by
  simp [RawType.size, h]

theorem Streamed.length (h : Streamed items bytes) : bytes.length = sizes items := by
  induction h with
  | nil => rfl
  | cons hsize _ _ ih => rw [List.length_append, ih, sizes_cons, size_eq hsize]

theorem Fits.write (h : Fits type value) {b : RawBuffer} (hroom : type.size ≤ b.room) :
    ∃ bytes, type.encodedSize? = some bytes.length ∧ ofEncoding type bytes = some value ∧
      b.write type value = (.ok bytes.length, ⟨b.written ++ bytes, b.room - bytes.length⟩) := by
  obtain ⟨bytes, hbytes, hsize, hvalue⟩ := h.encode
  have hle : bytes.length ≤ b.room := size_eq hsize ▸ hroom
  refine ⟨bytes, hsize, hvalue, ?_⟩
  simp only [RawBuffer.write, hbytes, RawBuffer.put, if_pos hle, List.take_of_length_le hle]

/-- Values are written one behind the other. -/
theorem writeAll_streamed (hfits : ∀ i ∈ items, Fits i.1 i.2) {b : RawBuffer} (hroom : sizes items ≤ b.room) :
    ∃ bytes, Streamed items bytes ∧
      b.writeAll items = (items.map fun i => .ok i.1.size, ⟨b.written ++ bytes, b.room - bytes.length⟩) := by
  induction items generalizing b with
  | nil => exact ⟨[], .nil, by simp [RawBuffer.writeAll]⟩
  | cons i items ih =>
    rw [sizes_cons] at hroom
    obtain ⟨first, hsize, hvalue, hwrite⟩ := (hfits i (by simp)).write (b := b) (by omega)
    have hfirst := size_eq hsize
    obtain ⟨more, hmore, hrest⟩ := ih (fun j hj => hfits j (by simp [hj]))
      (b := ⟨b.written ++ first, b.room - first.length⟩) (show sizes items ≤ b.room - first.length by omega)
    refine ⟨first ++ more, .cons hsize hvalue hmore, ?_⟩
    simp only [RawBuffer.writeAll, hwrite, hrest, List.map_cons, hfirst, List.append_assoc, List.length_append,
      Nat.sub_sub]

/-- All values are read, and what follows their bytes does not matter. -/
theorem Streamed.readAll (h : Streamed items bytes) (behind : List UInt8) :
    RawValue.readAll (items.map Prod.fst) (bytes ++ behind) = (items.map fun i => (i.2, i.1.size), none) := by
  induction h with
  | nil => rfl
  | cons hsize hvalue _ ih =>
    rw [List.append_assoc]
    simp only [List.map_cons, RawValue.readAll, read_append hsize hvalue, List.drop_left, ih, size_eq hsize]

/-- Where the bytes are cut, the values in front are read, and then one is refused, some bytes of which are missing. By
induction on the values: the cut is within the first one, or behind it. -/
theorem Streamed.readAll_take (h : Streamed items bytes) {k : Nat} (hk : k < bytes.length) :
    ∃ before i after, items = before ++ i :: after ∧ sizes before ≤ k ∧ k < sizes before + i.1.size ∧
      RawValue.readAll (items.map Prod.fst) (bytes.take k) =
        (before.map fun i => (i.2, i.1.size), some (.truncated i.1.size (k - sizes before))) := by
  induction h generalizing k with
  | nil => cases hk
  | @cons type value items first more hsize hvalue _ ih =>
    have hfirst := size_eq hsize
    rw [List.length_append] at hk
    by_cases hcut : k < first.length
    · have hlength : ((first ++ more).take k).length = k := by
        rw [List.length_take, List.length_append]
        omega
      refine ⟨[], (type, value), items, rfl, Nat.zero_le _, by rw [hfirst]; exact (Nat.zero_add _).symm ▸ hcut, ?_⟩
      have hread := read_short hsize (hlength.trans_lt hcut)
      simp only [List.map_cons, RawValue.readAll, hread, hlength, hfirst]
      rfl
    · obtain ⟨before, i, after, rfl, hle, hlt, hrest⟩ := ih (k := k - first.length) (by omega)
      have htake : (first ++ more).take k = first ++ more.take (k - first.length) := by
        rw [List.take_append, List.take_of_length_le (by omega)]
      refine ⟨(type, value) :: before, i, after, rfl, ?_, ?_, ?_⟩
      · simp only [sizes_cons, hfirst]
        omega
      · simp only [sizes_cons, hfirst]
        omega
      · simp only [List.map_cons, RawValue.readAll, htake, read_append hsize hvalue, List.drop_left, hrest, sizes_cons,
          hfirst, Nat.sub_sub]

/-- A stream of values that their types take. Every call of the writer answers the number of bytes it adds, which is the
size of its type; all values are read back from the bytes, whatever follows them; and where the bytes are cut, the
values in front of the cut are read, and then the first one that is not all there is refused. -/
theorem readAll_writeAll (hfits : ∀ i ∈ items, Fits i.1 i.2) {b : RawBuffer} (hroom : sizes items ≤ b.room) :
    (∀ i ∈ items, ∀ c : RawBuffer, i.1.size ≤ c.room → ∃ bytes, i.1.encodedSize? = some bytes.length ∧
        c.write i.1 i.2 = (.ok bytes.length, ⟨c.written ++ bytes, c.room - bytes.length⟩)) ∧
      ∃ bytes, bytes.length = sizes items ∧
        b.writeAll items = (items.map fun i => .ok i.1.size, ⟨b.written ++ bytes, b.room - bytes.length⟩) ∧
        (∀ behind, readAll (items.map Prod.fst) (bytes ++ behind) = (items.map fun i => (i.2, i.1.size), none)) ∧
        ∀ k < bytes.length, ∃ before i after, items = before ++ i :: after ∧
          sizes before ≤ k ∧ k < sizes before + i.1.size ∧
          readAll (items.map Prod.fst) (bytes.take k) =
            (before.map fun i => (i.2, i.1.size), some (.truncated i.1.size (k - sizes before))) := by
  constructor
  · intro i hi c hc
    obtain ⟨bytes, hsize, -, hwrite⟩ := (hfits i hi).write hc
    exact ⟨bytes, hsize, hwrite⟩
  · obtain ⟨bytes, hstreamed, hwrite⟩ := writeAll_streamed hfits hroom
    exact ⟨bytes, hstreamed.length, hwrite, hstreamed.readAll, fun k hk => hstreamed.readAll_take hk⟩

/-- An integer without a width, nothing at all, a value that is no number, and an integer of two words; the cut is
within the second word. -/
theorem readAll_writeAll_mixed :
    let items : List (RawType × RawValue) :=
      [(.int 0, .int (.ofWords 0 [3])), (.void, .void), (.double, .double 0x7FF0000000000001),
        (.int 65, .int (.ofWords 65 [5, 7]))]
    (∀ i ∈ items, Fits i.1 i.2) ∧ sizes items ≤ (RawBuffer.empty 40).room ∧
      ∃ bytes, bytes.length = 32 ∧
        readAll (items.map Prod.fst) (bytes ++ [0xFF]) = (items.map fun i => (i.2, i.1.size), none) ∧
        readAll (items.map Prod.fst) (bytes.take 30) =
          ((items.take 3).map fun i => (i.2, i.1.size), some (.truncated 16 14)) := by
  intro items
  have hfits : ∀ i ∈ items, Fits i.1 i.2 := by
    intro i hi
    simp only [items, List.mem_cons, List.not_mem_nil, or_false] at hi
    rcases hi with rfl | rfl | rfl | rfl
    · exact .int (WideInt.ofWords_proper _ _) rfl
    · exact .void
    · exact .double _
    · exact .int (WideInt.ofWords_proper _ _) rfl
  have hroom : sizes items ≤ (RawBuffer.empty 40).room := by decide
  obtain ⟨-, bytes, hlength, -, hread, hcut⟩ := readAll_writeAll hfits hroom
  refine ⟨hfits, hroom, bytes, hlength, hread [0xFF], ?_⟩
  obtain ⟨before, i, after, hsplit, hle, hlt, htake⟩ := hcut 30 (by rw [hlength]; decide)
  have hbefore : before = items.take before.length := by rw [hsplit, List.take_left]
  have hi : items[before.length]? = some i := by simp [hsplit]
  have hcount : before.length < 4 := by
    have hlengths : 4 = (before ++ i :: after).length := congrArg List.length hsplit
    rw [List.length_append, List.length_cons] at hlengths
    omega
  rw [htake]
  generalize before.length = n at hbefore hi hcount
  subst hbefore
  -- The last value is the only one that ends behind the cut.
  obtain rfl | rfl | rfl | rfl : n = 0 ∨ n = 1 ∨ n = 2 ∨ n = 3 := by omega
  · cases hi
    exact absurd hlt (by decide)
  · cases hi
    exact absurd hlt (by decide)
  · cases hi
    exact absurd hlt (by decide)
  · cases hi
    rfl

end RawValue
end Cognate
