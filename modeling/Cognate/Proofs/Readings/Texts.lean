import Cognate.Proofs.Readings.Declarations
import Cognate.Proofs.Unit.Closed
import Cognate.Proofs.Grammar.Texts

/-!
# Texts side by side

A text is read alike under another name of the unit, and what stands further on is read alike, with places further on
(`readFrom_follows`). What single operations keep of a unit is kept by texts (`FromTexts.induct`), so the units that
texts lead to are closed.
-/

namespace Cognate

namespace Grammar

variable {α : Type} {T : Transport} {g : α → α} {p p' : Parse α} {u : DeclUnit}

/-- An answer or fault, and the unit that is left. -/
def outcome : EStateM.Result Fault State α → Except Fault α × DeclUnit
  | .ok a s => (.ok a, s.unit)
  | .error fault s => (.error fault, s.unit)

/-- The state that an answer is left with. -/
theorem run_of_outcome {s : State} {a : α} (h : (outcome (p s)).1 = .ok a) :
    p s = .ok a (leaves (p s)) := by
  cases hr : p s with
  | ok b s' =>
    rw [hr] at h
    cases h
    rfl
  | error fault s' =>
    rw [hr] at h
    cases h

/-- A reader's outcome on the items of a text of `stop` bytes. -/
def readFrom (p : Parse α) (stop : Nat) (items : List (Except Fault Lexed)) (u : DeclUnit) :
    Except Fault α × DeclUnit :=
  match takeItem stop items with
  | .ok (l, ahead) => outcome (p ⟨l, ahead, stop, u⟩)
  | .error fault => (.error fault, u)

theorem read_eq (p : Parse α) (source : String) (u : DeclUnit) :
    read p source u = readFrom p source.utf8ByteSize (scan source) u := by
  unfold read readFrom State.ofSource
  cases takeItem source.utf8ByteSize (scan source) with
  | error fault => rfl
  | ok r =>
    change (match p.run ⟨r.1, r.2, source.utf8ByteSize, u⟩ with | .ok a s => _ | .error fault s => _) = _
    dsimp only [EStateM.run]
    cases p ⟨r.1, r.2, source.utf8ByteSize, u⟩ <;> rfl

/-- An answer or a fault that is carried over. -/
def carried (g : α → α) (k : Nat) : Except Fault α → Except Fault α
  | .ok a => .ok (g a)
  | .error fault => .error (fault.shift k)

/-- A text that does not go on is read alike. -/
theorem readFrom_follows (hclosed : ¬T.isOpen) (hp : Follows T g p p') (stop : Nat)
    (items : List (Except Fault Lexed)) (u : DeclUnit) :
    readFrom p' (stop + T.places) (items.map (shiftItem T.places)) (T.unit u) =
      (carried g T.places (readFrom p stop items u).1, T.unit (readFrom p stop items u).2) := by
  obtain ⟨hdropped, hmore, hbehind⟩ := T.closed hclosed
  have hstate : ∀ l ahead, T.state ⟨l, ahead, stop, u⟩ =
      ⟨l.shift T.places, ahead.map (shiftItem T.places), stop + T.places, T.unit u⟩ := by
    intro l ahead
    simp only [Transport.state, hdropped, hmore, hbehind, Nat.sub_zero, List.take_length, List.append_nil, Nat.add_zero]
  have hrun : ∀ l ahead,
      outcome (p' ⟨l.shift T.places, ahead.map (shiftItem T.places), stop + T.places, T.unit u⟩) =
        (carried g T.places (outcome (p ⟨l, ahead, stop, u⟩)).1, T.unit (outcome (p ⟨l, ahead, stop, u⟩)).2) := by
    intro l ahead
    have hcarries := (hp ⟨l, ahead, stop, u⟩).carries
    rw [hstate] at hcarries
    cases hr : p ⟨l, ahead, stop, u⟩ with
    | ok a s =>
      rw [hr] at hcarries
      rw [hcarries.resolve_left fun h => hclosed h.1]
      rfl
    | error fault s =>
      rw [hr] at hcarries
      rw [hcarries.resolve_left hclosed]
      rfl
  cases items with
  | nil => exact hrun (finishAt stop) []
  | cons item items =>
    cases item with
    | error fault => rfl
    | ok l => exact hrun l items

/-! ## Whole texts -/

/-- A whole text, further on and under another name. -/
def Transport.whole (places : Nat) (rename : String → String) : Transport where
  places := places
  rename := rename
  dropped := 0
  more := []
  behind := 0
  isOpen := False
  lost _ := True
  closed _ := ⟨rfl, rfl, rfl⟩
  dropped_le := le_rfl
  lost_advance _ _ := trivial
  lost_apply _ _ := trivial
  lost_end h := h.elim
  lost_peek h := h.elim

/-- The same text, with what single steps keep. -/
def Transport.same (P : State → Prop)
    (hadvance : ∀ {s l ahead}, P s → takeItem s.stop s.ahead = .ok (l, ahead) → P { s with current := l, ahead })
    (happly : ∀ {s op}, P s → IsPlain op → P { s with unit := s.unit.apply op }) : Transport where
  places := 0
  rename name := name
  dropped := 0
  more := []
  behind := 0
  isOpen := False
  lost := P
  closed _ := ⟨rfl, rfl, rfl⟩
  dropped_le := le_rfl
  lost_advance := hadvance
  lost_apply := happly
  lost_end h := h.elim
  lost_peek h := h.elim

theorem readFrom_shift (hp : Follows (.whole k id) g p p) (stop : Nat) (items : List (Except Fault Lexed))
    (u : DeclUnit) : readFrom p (stop + k) (items.map (shiftItem k)) u =
      (carried g k (readFrom p stop items u).1, (readFrom p stop items u).2) :=
  readFrom_follows (T := .whole k id) (fun h => h) hp stop items u

/-- Under another name a text is read alike. -/
theorem read_renamed {f : String → String} (hp : Follows (.whole 0 f) (fun a => a) p p) (source : String)
    (u : DeclUnit) : read p source (u.renamed f) = ((read p source u).1, (read p source u).2.renamed f) := by
  have hr := readFrom_follows (T := .whole 0 f) (fun h => h) hp source.utf8ByteSize (scan source) u
  rw [show (Transport.whole 0 f).places = 0 from rfl, map_shiftItem_zero] at hr
  rw [read_eq, read_eq]
  refine hr.trans (Prod.ext ?_ rfl)
  cases (readFrom p source.utf8ByteSize (scan source) u).1 <;> rfl

/-- What every operation keeps of a unit is kept by texts. -/
theorem read_keeps {P : DeclUnit → Prop} (hP : ∀ {u op}, P u → IsPlain op → P (u.apply op))
    (hp : ∀ T : Transport, Follows T g p p) (source : String) (hu : P u) : P (read p source u).2 := by
  have hlost := fun s => (hp (.same (fun s => P s.unit) (fun h _ => h) hP) s).lost
  rw [read_eq, readFrom]
  cases takeItem source.utf8ByteSize (scan source) with
  | error fault => exact hu
  | ok r =>
    have hr : P (leaves (p ⟨r.1, r.2, source.utf8ByteSize, u⟩)).unit := hlost ⟨r.1, r.2, source.utf8ByteSize, u⟩ hu
    dsimp only
    cases hrun : p ⟨r.1, r.2, source.utf8ByteSize, u⟩ with
    | ok a s =>
      rw [hrun] at hr
      exact hr
    | error fault s =>
      rw [hrun] at hr
      exact hr

end Grammar

namespace DeclUnit

open Grammar

variable {u : DeclUnit}

theorem declare_renamed (f : String → String) (u : DeclUnit) (source : String) :
    (u.renamed f).declare source = ((u.declare source).1, (u.declare source).2.renamed f) :=
  read_renamed follows_declarations source u

/-- What holds of an empty unit, and is kept by the operations of readers, holds behind texts. -/
theorem FromTexts.induct {P : DeclUnit → Prop} (h : u.FromTexts)
    (hempty : ∀ name target, P (DeclUnit.empty name target))
    (happly : ∀ {v op}, P v → IsPlain op → P (v.apply op)) : P u := by
  induction h with
  | empty name target => exact hempty name target
  | declare source _ ih => exact read_keeps happly (fun T => follows_declarations) source ih
  | typeName source _ ih => exact read_keeps happly (fun T => follows_wholeTypeName) source ih

theorem FromTexts.closed (h : u.FromTexts) : u.Closed :=
  h.induct empty_closed fun hu hop => hu.apply fun s hs => .of_not_tagged (hop.untagged s hs)

/-- Operations lead to the unit, or texts. -/
def Built (u : DeclUnit) : Prop := u.Reachable ∨ u.FromTexts

theorem Built.wellFormed (h : u.Built) : u.WellFormed := h.elim (fun h => h.wellFormed) fun h => h.written.wellFormed

theorem Built.closed (h : u.Built) : u.Closed := h.elim (fun h => h.closed) fun h => h.closed

/-- What holds of an empty unit, and is kept by every operation, whatever it is given, holds of every unit. -/
theorem Built.induct {P : DeclUnit → Prop} (h : u.Built) (hempty : ∀ name target, P (empty name target))
    (happly : ∀ {v op}, P v → P (v.apply op)) : P u := by
  rcases h with ⟨name, target, ops, -, rfl⟩ | h
  · have hrun : ∀ ops v, P v → P (v.applyAll ops) := by
      intro ops
      induction ops with
      | nil => exact fun v hv => hv
      | cons op ops ih => exact fun v hv => ih _ (happly hv)
    exact hrun ops _ (hempty name target)
  · exact h.induct hempty fun hv _ => happly hv

end DeclUnit
end Cognate
