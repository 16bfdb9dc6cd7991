import Cognate.Proofs.Unit.Extents

/-!
# Bodies of records

Only completing a record gives a record a body, by placing members in the unit as it is then (`apply_body`). Layouts of
types never change, so what members asked for at that time they ask for ever after: `Placed`.
-/

namespace Cognate.DeclUnit

variable {u v : DeclUnit} {op : Operation} {id : RecordId} {d : RecordDecl} {body : RecordBody}

/-- The members of the body are placed in the unit, and give it its layout. -/
def Places (u : DeclUnit) (tag : Tag) (body : RecordBody) : Prop :=
  ∃ fields, u.placeMembers (tag == .union) 0 recordAlign fields = .ok (body.members, body.extent)

theorem intern_records (u : DeclUnit) (s : Shape) : (u.intern s).2.records = u.records := by
  rw [intern_frame]

theorem qualify_records (u : DeclUnit) (t : Ty) (q : Qualifiers) : (u.qualify t q).2.records = u.records := by
  rcases u.qualify_or_intern t q with he | ⟨inner, p, he⟩
  · rw [he]
  · rw [he, intern_records]

theorem completeRecord_body {t : Ty} {fields : List (String × Ty)} (h : u.completeRecord t fields = (.ok (), v))
    (hd : v.record? id = some d) (hb : d.body = some body) : u.record? id = some d ∨
      u.placeMembers (d.tag == .union) 0 recordAlign fields = .ok (body.members, body.extent) := by
  obtain ⟨id', d', members, extent, hof, -, hplaced, rfl⟩ := completeRecord_eq_ok h
  rw [record?_set (recordOf?_eq_some hof).2] at hd
  split at hd
  · cases hd
    cases hb
    exact .inr hplaced
  · exact .inl hd

/-- A complete record was there before, or the operation completes it and places its members. -/
theorem apply_completes (hd : (u.apply op).record? id = some d) (hb : d.body = some body) : u.record? id = some d ∨
    ∃ t fields, op = .completeRecord t fields ∧
      u.placeMembers (d.tag == .union) 0 recordAlign fields = .ok (body.members, body.extent) := by
  have hsame : ∀ {w : DeclUnit}, w.records = u.records → w.record? id = some d → u.record? id = some d :=
    fun he hd => by
      rw [record?, he] at hd
      exact hd
  have hdefined : ∀ {r : Except TypeFault Unit × DeclUnit}, u.AllOrNothing r →
      (∀ w, r = (.ok (), w) → w.records = u.records) → r.2.record? id = some d → u.record? id = some d :=
    fun hr hv => hsame (hr.cases (P := fun w => w.records = u.records) rfl hv)
  cases op with
  | intern s => exact .inl (hsame (intern_records u s) hd)
  | qualify t q => exact .inl (hsame (qualify_records u t q) hd)
  | declareRecord tag name =>
    have hpush : (u.records.push ⟨tag, name, none⟩)[id.index]? = some d := by
      rw [← hd, record?, DeclUnit.apply, declareRecord, intern_records]
    rw [Array.getElem?_push] at hpush
    split at hpush
    · cases hpush
      cases hb
    · exact .inl hpush
  | declareEnum name => exact .inl (hsame (w := (u.declareEnum name).2) (intern_records _ _) hd)
  | completeRecord t fields =>
    have hbody := (u.completeRecord_allOrNothing t fields).cases (P := fun w => w.record? id = some d →
      u.record? id = some d ∨
        u.placeMembers (d.tag == .union) 0 recordAlign fields = .ok (body.members, body.extent)) .inl
      (fun w hw hd => completeRecord_body hw hd hb) hd
    exact hbody.imp_right fun hplaced => ⟨t, fields, rfl, hplaced⟩
  | completeEnum t base constants =>
    refine .inl (hdefined (u.completeEnum_allOrNothing t base constants) (fun w hw => ?_) hd)
    obtain ⟨id, d, b, enumerators, -, -, -, rfl⟩ := completeEnum_eq_ok hw
    rfl
  | nameType name t => exact .inl (hsame ((defineTypedef_sameGraph u name t).2.1.trans (intern_records u _)) hd)
  | defineTag name t =>
    exact .inl (hdefined (u.defineTag_allOrNothing name t) (fun w hw => (defineTag_sameGraph hw).2.1) hd)
  | defineConstant name value t =>
    exact .inl (hdefined (u.defineConstant_allOrNothing name value t)
      (fun w hw => (defineConstant_sameGraph hw).2.1) hd)
  | declareValue name t =>
    exact .inl (hdefined (u.declareValue_allOrNothing name t) (fun w hw => (declareValue_sameGraph hw).2.1) hd)

theorem apply_body (hd : (u.apply op).record? id = some d) (hb : d.body = some body) :
    u.record? id = some d ∨ u.Places d.tag body :=
  (apply_completes hd hb).imp_right fun ⟨_, fields, _, hplaced⟩ => ⟨fields, hplaced⟩

/-- The members of every complete record were placed in an earlier unit. -/
def Placed (u : DeclUnit) : Prop :=
  ∀ id d body, u.record? id = some d → d.body = some body → ∃ v : DeclUnit, v.Retains u ∧ v.Places d.tag body

theorem empty_placed (name : String) (target : Target) : (empty name target).Placed := by
  intro id d body hd
  simp [record?, empty] at hd

theorem Placed.apply (hu : u.Placed) (op : Operation) : (u.apply op).Placed := by
  intro id d body hd hb
  rcases apply_body hd hb with hold | hnew
  · obtain ⟨v, hv, hplaces⟩ := hu id d body hold hb
    exact ⟨v, hv.trans (apply_retains u op), hplaces⟩
  · exact ⟨u, apply_retains u op, hnew⟩

end Cognate.DeclUnit
