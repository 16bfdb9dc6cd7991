import Cognate.Proofs.Unit.Relabelled

/-!
# Units under another name

The name of a unit is only ever shown. Whatever is looked up in a unit is the same under another name, and whatever is
built is built alike (`apply_renamed`).
-/

namespace Cognate.DeclUnit

variable (f : String → String) (u : DeclUnit)

/-- The same unit under another name. -/
def renamed : DeclUnit := { u with name := f u.name }

variable {t : Ty} {s : Shape} {name : String}

/-! ## Looking up -/

@[simp] theorem target_renamed : (u.renamed f).target = u.target := rfl
@[simp] theorem canonicalShape?_renamed : (u.renamed f).canonicalShape? t = u.canonicalShape? t := rfl
@[simp] theorem builtinKind?_renamed : (u.renamed f).builtinKind? t = u.builtinKind? t := rfl
@[simp] theorem typedef?_renamed : (u.renamed f).typedef? name = u.typedef? name := rfl
@[simp] theorem value?_renamed : (u.renamed f).value? name = u.value? name := rfl
@[simp] theorem tag?_renamed : (u.renamed f).tag? name = u.tag? name := rfl

@[simp] theorem measure_renamed : (u.renamed f).measure t = u.measure t := measure_relabelled f id u

@[simp] theorem describe_renamed : (u.renamed f).describe t = u.describe t := describe_relabelled f id u

/-! ## Building -/

/-- What is answered, and the unit that is left, under another name. -/
def renamedAt {α : Type} (r : α × DeclUnit) : α × DeclUnit := (r.1, r.2.renamed f)

@[simp] theorem intern_renamed : (u.renamed f).intern s = renamedAt f (u.intern s) := intern_relabelled f id u

@[simp] theorem qualify_renamed (q : Qualifiers) : (u.renamed f).qualify t q = renamedAt f (u.qualify t q) :=
  qualify_relabelled f id u q

@[simp] theorem declareRecord_renamed (tag : Tag) (name : Option String) :
    (u.renamed f).declareRecord tag name = renamedAt f (u.declareRecord tag name) :=
  declareRecord_relabelled f id u tag name

@[simp] theorem declareEnum_renamed (name : Option String) :
    (u.renamed f).declareEnum name = renamedAt f (u.declareEnum name) := declareEnum_relabelled f id u name

@[simp] theorem completeRecord_renamed (fields : List (String × Ty)) :
    (u.renamed f).completeRecord t fields = renamedAt f (u.completeRecord t fields) :=
  completeRecord_relabelled f id u fields

@[simp] theorem completeEnum_renamed (base : Ty) (constants : List (String × Int)) :
    (u.renamed f).completeEnum t base constants = renamedAt f (u.completeEnum t base constants) :=
  completeEnum_relabelled f id u base constants

/-- A typedef is defined alike, or refused alike. -/
@[simp] theorem defineTypedef_renamed :
    (u.renamed f).defineTypedef name t = renamedAt f (u.defineTypedef name t) := defineTypedef_relabelled f id u

@[simp] theorem defineTag_renamed :
    (u.renamed f).defineTag name t = renamedAt f (u.defineTag name t) := by
  unfold defineTag
  rw [tag?_renamed]
  split <;> rfl

@[simp] theorem defineConstant_renamed (value : Int) :
    (u.renamed f).defineConstant name value t = renamedAt f (u.defineConstant name value t) :=
  defineConstant_relabelled f id u value

@[simp] theorem declareValue_renamed :
    (u.renamed f).declareValue name t = renamedAt f (u.declareValue name t) := declareValue_relabelled f id u

/-- An operation does the same under another name. -/
theorem apply_renamed (op : Operation) : (u.renamed f).apply op = (u.apply op).renamed f := by
  cases h : op.definesTag with
  | false => exact apply_relabelled f id u h
  | true =>
    cases op with
    | defineTag name t =>
      simp only [apply, defineTag_renamed, renamedAt]
    | _ => cases h

theorem applyAll_renamed (ops : List Operation) : (u.renamed f).applyAll ops = (u.applyAll ops).renamed f := by
  induction ops generalizing u with
  | nil => rfl
  | cons op ops ih =>
    change ((u.renamed f).apply op).applyAll ops = _
    rw [apply_renamed, ih]
    rfl

end Cognate.DeclUnit
