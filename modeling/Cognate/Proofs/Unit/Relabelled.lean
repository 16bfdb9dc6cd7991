import Cognate.Proofs.Unit.Runs

/-!
# Labels of a unit

The name of a unit and the tags are labels: types are measured, spelled and built without them. Whatever is done to a
unit is done alike under another name and with other tags (`apply_relabelled`), but for the definition of a tag.
-/

namespace Cognate

/-- The operation binds a tag. -/
def Operation.definesTag : Operation → Bool
  | .defineTag _ _ => true
  | _ => false

namespace DeclUnit

variable (f : String → String) (g : List (String × Ty) → List (String × Ty)) (u : DeclUnit)

/-- The same unit under another name and with other tags. -/
def relabelled : DeclUnit := { u with name := f u.name, tags := g u.tags }

/-- What is answered, and the unit that is left, with other labels. -/
def relabelledAt {α : Type} (r : α × DeclUnit) : α × DeclUnit := (r.1, r.2.relabelled f g)

variable {t : Ty} {s : Shape} {name : String}

/-! ## Layouts and spelling -/

theorem measureWithin_relabelled (n : Nat) : (u.relabelled f g).measureWithin n t = u.measureWithin n t := by
  induction n generalizing t with
  | zero => rfl
  | succ n ih =>
    simp only [measureWithin, ih]
    rfl

theorem measure_relabelled : (u.relabelled f g).measure t = u.measure t := measureWithin_relabelled f g u _

theorem memberExtent_relabelled (isUnion isLast : Bool) :
    (u.relabelled f g).memberExtent isUnion isLast t = u.memberExtent isUnion isLast t := by
  simp only [memberExtent, flexibleExtent, measure_relabelled]
  rfl

theorem placeMembers_relabelled (isUnion : Bool) (stop align : Nat) (fields : List (String × Ty)) :
    (u.relabelled f g).placeMembers isUnion stop align fields = u.placeMembers isUnion stop align fields := by
  induction fields generalizing stop align with
  | nil => rfl
  | cons field fields ih => simp only [placeMembers, memberExtent_relabelled, ih]

theorem spellWithin_relabelled (n : Nat) (t : Ty) (declarator : String) :
    (u.relabelled f g).spellWithin n t declarator = u.spellWithin n t declarator := by
  induction n generalizing t declarator with
  | zero => rfl
  | succ n ih =>
    simp only [spellWithin, ih]
    rfl

theorem describe_relabelled : (u.relabelled f g).describe t = u.describe t := spellWithin_relabelled f g u _ _ _

/-! ## Building -/

theorem internFlat_relabelled : (u.relabelled f g).internFlat s = relabelledAt f g (u.internFlat s) := by
  unfold internFlat
  rw [show (u.relabelled f g).find? s = u.find? s from rfl]
  split <;> rfl

theorem intern_relabelled : (u.relabelled f g).intern s = relabelledAt f g (u.intern s) := by
  unfold intern
  rw [show (u.relabelled f g).find? s = u.find? s from rfl,
    show (u.relabelled f g).canonical = u.canonical from rfl]
  split
  · rfl
  · split
    · rfl
    · rfl
    · dsimp only
      split
      · rfl
      · rw [internFlat_relabelled]
        rfl

theorem qualify_relabelled (q : Qualifiers) :
    (u.relabelled f g).qualify t q = relabelledAt f g (u.qualify t q) := by
  unfold qualify
  rw [show (u.relabelled f g).shape? t = u.shape? t from rfl]
  split
  · rfl
  · split <;> exact intern_relabelled f g u

theorem declareRecord_relabelled (tag : Tag) (name : Option String) :
    (u.relabelled f g).declareRecord tag name = relabelledAt f g (u.declareRecord tag name) :=
  intern_relabelled f g { u with records := u.records.push ⟨tag, name, none⟩ }

theorem declareEnum_relabelled (name : Option String) :
    (u.relabelled f g).declareEnum name = relabelledAt f g (u.declareEnum name) :=
  intern_relabelled f g { u with enums := u.enums.push ⟨name, none⟩ }

theorem completeRecord_relabelled (fields : List (String × Ty)) :
    (u.relabelled f g).completeRecord t fields = relabelledAt f g (u.completeRecord t fields) := by
  unfold completeRecord
  rw [show (u.relabelled f g).recordOf? t = u.recordOf? t from rfl]
  simp only [placeMembers_relabelled, describe_relabelled]
  split
  · rfl
  · split
    · rfl
    · split <;> rfl

theorem completeEnum_relabelled (base : Ty) (constants : List (String × Int)) :
    (u.relabelled f g).completeEnum t base constants = relabelledAt f g (u.completeEnum t base constants) := by
  unfold completeEnum
  rw [show (u.relabelled f g).enumOf? t = u.enumOf? t from rfl,
    show (u.relabelled f g).builtinKind? base = u.builtinKind? base from rfl]
  simp only [measure_relabelled, describe_relabelled]
  split
  · rfl
  · split
    · rfl
    · split <;> rfl

/-- A typedef is defined alike, or refused alike. -/
theorem defineTypedef_relabelled :
    (u.relabelled f g).defineTypedef name t = relabelledAt f g (u.defineTypedef name t) := by
  unfold defineTypedef bindTypedef
  simp only [intern_relabelled, relabelledAt]
  rw [show ∀ v : DeclUnit, (v.relabelled f g).meaning? name = v.meaning? name from fun _ => rfl,
    show ∀ v : DeclUnit, (v.relabelled f g).canonical = v.canonical from fun _ => rfl]
  split
  · rfl
  · split <;> rfl
  · rfl

theorem defineName_relabelled (m : Meaning) :
    (u.relabelled f g).defineName name m = relabelledAt f g (u.defineName name m) := by
  unfold defineName
  rw [show (u.relabelled f g).meaning? name = u.meaning? name from rfl]
  split <;> rfl

theorem defineConstant_relabelled (value : Int) :
    (u.relabelled f g).defineConstant name value t = relabelledAt f g (u.defineConstant name value t) :=
  defineName_relabelled f g u _

theorem declareValue_relabelled :
    (u.relabelled f g).declareValue name t = relabelledAt f g (u.declareValue name t) := by
  unfold declareValue
  rw [show (u.relabelled f g).meaning? name = u.meaning? name from rfl]
  split
  · exact defineName_relabelled f g { u with values := u.values.push ⟨name, t⟩ } _
  · rw [show (u.relabelled f g).values = u.values from rfl,
      show (u.relabelled f g).canonical = u.canonical from rfl,
      show (u.relabelled f g).completesArray = u.completesArray from rfl]
    split
    · rfl
    · split
      · rfl
      · split <;> rfl
  · rfl

/-- Every operation but the definition of a tag does the same with other labels. -/
theorem apply_relabelled {op : Operation} (h : op.definesTag = false) :
    (u.relabelled f g).apply op = (u.apply op).relabelled f g := by
  cases op with
  | defineTag name t => cases h
  | _ => simp only [apply, intern_relabelled, qualify_relabelled, declareRecord_relabelled, declareEnum_relabelled,
      completeRecord_relabelled, completeEnum_relabelled, defineTypedef_relabelled, defineConstant_relabelled,
      declareValue_relabelled, relabelledAt]

end DeclUnit
end Cognate
