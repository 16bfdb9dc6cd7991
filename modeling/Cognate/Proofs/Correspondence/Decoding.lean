import Cognate.Proofs.Correspondence.Equivalence
import Cognate.Proofs.Decoded.Levels
import Cognate.Proofs.Readings.Texts

/-!
# Corresponding types are read alike

Correspondence does not look at the sizes of arrays, and reading does not look at the target. Where corresponding types
nest arrays of the same sizes, all bytes have the same value through both, marks included.
-/

namespace Cognate.Correspondence

variable {a b : DeclUnit} {s t : Site} {p q : Shape} {x y : Ty}

/-- Alike shapes are read alike if the elements of arrays are, and the arrays have as many. -/
theorem level_of_alike {read read' : Ty → List UInt8 → Decoded} (h : Alike s t p q)
    (harray : ∀ {c d m n}, p = .constantArray c m → q = .constantArray d n → m = n ∧ read c = read' d) :
    Decoded.level read (some p) = Decoded.level read' (some q) := by
  cases h with
  | constantArray =>
    obtain ⟨rfl, hread⟩ := harray rfl rfl
    funext bytes
    rw [Decoded.level, Decoded.level, hread]
  | _ => rfl

/-- By induction on the type of the first unit: the elements of paired arrays are paired. -/
theorem Pairing.ofBytes_eq {R : Ty → Ty → Prop} (hR : Pairing a b R) (ha : a.WellFormed) (hb : b.WellFormed)
    (h : R (a.canonical x) (b.canonical y)) (hsizes : a.arraySizes x = b.arraySizes y) :
    Decoded.ofBytes a x = Decoded.ofBytes b y := by
  induction hi : x.index using Nat.strong_induction_on generalizing x y with
  | _ i ih =>
    subst hi
    obtain ⟨p, q, hp, hq, -, halike, hall⟩ := hR.alike h
    have hx := DeclUnit.canonicalShape?_of_shape? hp
    have hy := DeclUnit.canonicalShape?_of_shape? hq
    rw [DeclUnit.arraySizes_eq ha, DeclUnit.arraySizes_eq hb, hx, hy] at hsizes
    rw [Decoded.ofBytes_eq ha, Decoded.ofBytes_eq hb, hx, hy]
    refine level_of_alike halike fun {c d m n} hc hd => ?_
    subst hc hd
    -- The sizes of this level are the heads of both lists, those of the elements their tails.
    obtain ⟨rfl, hrest⟩ := List.cons_eq_cons.1 hsizes
    obtain ⟨hpaired, -⟩ := List.forall₂_cons.1 hall
    exact ⟨rfl, ih c.index (ha.child_canonicalShape_lt hx (by simp [Shape.children])) hpaired hrest rfl⟩

/-- Corresponding types that nest arrays of the same sizes are read alike from all bytes, whatever the targets. -/
theorem ofBytes_of_corresponds (ha : a.Built) (hb : b.Built) (h : corresponds a x b y = .ok true)
    (hsizes : a.arraySizes x = b.arraySizes y) (bytes : List UInt8) :
    Decoded.ofBytes a x bytes = Decoded.ofBytes b y bytes := by
  obtain ⟨R, hR, hpaired⟩ := pairing_of_corresponds h
  rw [hR.ofBytes_eq ha.wellFormed hb.wellFormed hpaired hsizes]

/-- Rows of numbers behind a typedef and as such, for targets with pointers of different sizes. -/
theorem ofBytes_of_corresponds_rows :
    let rows := (DeclUnit.empty "a" .lp64).applyAll [.intern (.builtin .int), .nameType "cell" ⟨0⟩,
      .intern (.constantArray ⟨1⟩ 2), .nameType "row" ⟨3⟩, .intern (.constantArray ⟨4⟩ 2)]
    let plain := (DeclUnit.empty "b" .ilp32).applyAll [.intern (.builtin .int),
      .intern (.constantArray ⟨0⟩ 2), .intern (.constantArray ⟨1⟩ 2)]
    let bytes : List UInt8 := [1, 0, 0, 0, 2, 0, 0, 0, 255, 255, 255, 255, 0, 1, 0, 0]
    rows.arraySizes ⟨6⟩ = [2, 2] ∧ corresponds rows ⟨6⟩ plain ⟨2⟩ = .ok true ∧
      (Decoded.ofBytes plain ⟨2⟩ bytes).text = "\x7b\x7b1, 2\x7d, \x7b-1, 256\x7d\x7d" ∧
      Decoded.ofBytes rows ⟨6⟩ bytes = Decoded.ofBytes plain ⟨2⟩ bytes := by
  intro rows plain bytes
  have hrows : rows.Built := .inl ⟨"a", .lp64, _, by decide +kernel, rfl⟩
  have hplain : plain.Built := .inl ⟨"b", .ilp32, _, by decide +kernel, rfl⟩
  have hsame : corresponds rows ⟨6⟩ plain ⟨2⟩ = .ok true := by decide +kernel
  exact ⟨by decide +kernel, hsame, by decide +kernel,
    ofBytes_of_corresponds hrows hplain hsame (by decide +kernel) bytes⟩

end Cognate.Correspondence
