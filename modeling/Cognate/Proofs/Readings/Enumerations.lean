import Cognate.Proofs.Grammar.Ranges
import Cognate.Proofs.Grammar.Reads
import Cognate.Proofs.Readings.Closing
import Cognate.Proofs.Unit.Names

/-!
# Enumerations

The constants of an enum, as they are read one after another (`Listing`): each has a value of its own, or the one behind
the last. A loop of readings comes to such a list and to nothing else (`enumerators_iff`). The list decides on the rest:
what the names stand for, the integer type, and the bits that are stored of each value (`enumeration_listed`).
-/

namespace Cognate.Grammar

/-! ## Later states -/

/-- The second state is further on: no more tokens are left, and every name still stands for the same. -/
structure State.Precedes (s s' : State) : Prop where
  left : s'.left ≤ s.left
  meaning : ∀ {name m}, s.unit.meaning? name = some m → s'.unit.meaning? name = some m

theorem State.Precedes.trans {s s' s'' : State} (h : s.Precedes s') (h' : s'.Precedes s'') : s.Precedes s'' :=
  ⟨h'.left.trans h.left, fun hm => h'.meaning (h.meaning hm)⟩

/-- The same text, from a state on. -/
def Transport.onward (s : State) : Transport :=
  .same s.Precedes (fun h htake => ⟨(State.left_take htake).1.trans h.left, h.meaning⟩)
    fun h _ => ⟨h.left, fun hm => (DeclUnit.apply_effect _ _).meaning? (h.meaning hm)⟩

variable {α : Type} {p p' : Parse α} {g : α → α} {s s' s₁ s₂ s₃ : State} {a : α}

theorem Follows.precedes (hp : Follows (.onward s) g p p') (h : p s = .ok a s') : s.Precedes s' := by
  have hlost := (hp s).lost ⟨le_rfl, fun hm => hm⟩
  rwa [h] at hlost

/-! ## One constant -/

variable {rules : Rules} {t : Ty} {last last' : Option Int} {text : String} {value : Int} {span : Span} {n : Nat}
  {constants before : List (String × Int)} {e : Enumeration}

/-- The value behind the last one; the first is zero. -/
def following : Option Int → Int
  | none => 0
  | some n => n + 1

/-- A state in which a name stands for a constant of an enum. -/
def State.withConstant (s : State) (text : String) (value : Int) (t : Ty) : State :=
  { s with unit := s.unit.bind text (.constant value t) }

/-- A constant of an enum is read, behind one of the value `last`. Its name is bound at once. -/
inductive Entry (rules : Rules) (t : Ty) (last : Option Int) (s : State) : String → Int → State → Prop
  /-- Without a value of its own. -/
  | next {text : String} {span : Span} {s₁ s₂ : State} (found : name s = .ok (text, span) s₁)
      (bare : accept (.punct .eq) s₁ = .ok false s₂) (fits : Fits (following last))
      (free : s₂.unit.meaning? text = none) :
      Entry rules t last s text (following last) (s₂.withConstant text (following last) t)
  /-- With one. -/
  | own {text : String} {span : Span} {s₁ s₂ s₃ : State} {value : Int} (found : name s = .ok (text, span) s₁)
      (equals : accept (.punct .eq) s₁ = .ok true s₂) (known : rules.constant s₂ = .ok (some value) s₃)
      (free : s₃.unit.meaning? text = none) : Entry rules t last s text value (s₃.withConstant text value t)

/-- The end of a reading of a constant: its name is bound. -/
def bound (t : Ty) (before : List (String × Int)) (text : String) (span : Span) (value : Int) : Parse Enumeration := do
  define span (·.defineConstant text value t)
  return ⟨before ++ [(text, value)], fits? (value + 1)⟩

theorem bound_eq_ok : bound t before text span value s = .ok e s' ↔
    s.unit.meaning? text = none ∧ e = ⟨before ++ [(text, value)], fits? (value + 1)⟩ ∧
      s' = s.withConstant text value t := by
  rw [bound, bind_run, define_run, DeclUnit.defineConstant, DeclUnit.defineName]
  cases s.unit.meaning? text with
  | none =>
    constructor
    · intro h
      cases h
      exact ⟨rfl, rfl, rfl⟩
    · rintro ⟨-, rfl, rfl⟩
      rfl
  | some m => simp

theorem enumerator_iff : enumerator rules t ⟨before, fits? (following last)⟩ s = .ok e s' ↔
    ∃ text value, Entry rules t last s text value s' ∧
      e = ⟨before ++ [(text, value)], fits? (following (some value))⟩ := by
  constructor
  · intro h
    obtain ⟨⟨text, span⟩, s₁, hname, h⟩ := bind_eq_ok h
    obtain ⟨b, s₂, haccept, h⟩ := bind_eq_ok h
    cases b with
    | true =>
      obtain ⟨r, s₃, hconstant, h⟩ := bind_eq_ok h
      cases r with
      | none => cases h
      | some value =>
        obtain ⟨hfree, rfl, rfl⟩ := bound_eq_ok.1 h
        exact ⟨text, value, .own hname haccept hconstant hfree, rfl⟩
    | false =>
      cases hnext : fits? (following last) with
      | none =>
        rw [hnext] at h
        cases h
      | some value =>
        rw [hnext] at h
        obtain ⟨hfits, rfl⟩ := fits?_eq_some.1 hnext
        obtain ⟨hfree, rfl, rfl⟩ := bound_eq_ok.1 h
        exact ⟨text, _, .next hname haccept hfits hfree, rfl⟩
  · rintro ⟨text, value, hentry, rfl⟩
    cases hentry with
    | next hname haccept hfits hfree =>
      refine (bind_of_ok hname).trans ((bind_of_ok haccept).trans ?_)
      rw [fits?_of_fits hfits]
      exact bound_eq_ok.2 ⟨hfree, rfl, rfl⟩
    | own hname haccept hconstant hfree =>
      refine (bind_of_ok hname).trans ((bind_of_ok haccept).trans ((bind_of_ok hconstant).trans ?_))
      exact bound_eq_ok.2 ⟨hfree, rfl, rfl⟩

/-- A name is read where one stands. -/
theorem name_eq_ok {found : String × Span} (h : name s = .ok found s') :
    s.current.token = .name found.1 ∧ ∃ l, advance s = .ok l s' := by
  obtain ⟨r, s₁, hname, h⟩ := bind_eq_ok h
  cases r with
  | none => cases h
  | some found =>
    cases h
    obtain ⟨l, s₁, hl, hname⟩ := bind_eq_ok hname
    cases hl
    cases htoken : s.current.token with
    | name text =>
      rw [htoken] at hname
      obtain ⟨l, s₁, hadvance, hname⟩ := bind_eq_ok hname
      cases hname
      exact ⟨rfl, l, hadvance⟩
    | _ =>
      rw [htoken] at hname
      cases hname

theorem advance_left {l : Lexed} (h : advance s = .ok l s') (hs : s.current.token ≠ .finish) : s'.left < s.left := by
  rw [advance_run] at h
  cases htake : takeItem s.stop s.ahead with
  | error fault =>
    rw [htake] at h
    cases h
  | ok r =>
    rw [htake] at h
    cases h
    exact (State.left_take htake).2 hs

/-- Whatever stands for the value, the name in front of it is free behind it, and bound then. -/
theorem Entry.binds (hr : ∀ T, rules.Follow T rules) (h : Entry rules t last s text value s') :
    ∃ span s₁ s₂, name s = .ok (text, span) s₁ ∧ s₁.Precedes s₂ ∧ s₂.unit.meaning? text = none ∧
      s' = s₂.withConstant text value t := by
  cases h with
  | next hname haccept hfits hfree => exact ⟨_, _, _, hname, (follows_accept _).precedes haccept, hfree, rfl⟩
  | own hname haccept hconstant hfree =>
    -- A constant expression may build types and bind names, but takes none away.
    have hvalue := (hr _).constant.precedes hconstant
    exact ⟨_, _, _, hname, ((follows_accept _).precedes haccept).trans hvalue, hfree, rfl⟩

/-- A constant takes at least one token, and its name stands for it. -/
theorem Entry.precedes (hr : ∀ T, rules.Follow T rules) (h : Entry rules t last s text value s') :
    s.Precedes s' ∧ s'.left < s.left ∧ s'.unit.meaning? text = some (.constant value t) := by
  obtain ⟨span, s₁, s₂, hname, hprecedes, hfree, rfl⟩ := h.binds hr
  obtain ⟨htoken, l, hadvance⟩ := name_eq_ok hname
  have hlt : s₁.left < s.left := advance_left hadvance (by simp [htoken])
  have hbound : s₂.Precedes (s₂.withConstant text value t) := by
    refine ⟨le_rfl, fun {other m} hm => ?_⟩
    have hne : other ≠ text := by
      rintro rfl
      simp [hfree] at hm
    exact (DeclUnit.meaning?_bind _ _).trans ((if_neg hne).trans hm)
  refine ⟨(follows_name.precedes hname).trans (hprecedes.trans hbound), ?_, ?_⟩
  · exact (hprecedes.left.trans_lt hlt : s₂.left < s.left)
  · exact (DeclUnit.meaning?_bind _ _).trans (if_pos rfl)

/-! ## Lists of constants -/

/-- Constants with a comma behind each of them, from one behind the value `last` on. -/
inductive Entries (rules : Rules) (t : Ty) : Option Int → State → List (String × Int) → Option Int → State → Prop
  | nil {last : Option Int} {s : State} : Entries rules t last s [] last s
  | cons {last last' : Option Int} {s s₁ s₂ s' : State} {text : String} {value : Int} {rest : List (String × Int)}
      (first : Entry rules t last s text value s₁) (comma : accept (.punct .comma) s₁ = .ok true s₂)
      (others : Entries rules t (some value) s₂ rest last' s') :
      Entries rules t last s ((text, value) :: rest) last' s'

/-- The constants of an enum up to the brace, with a comma behind the last of them or not. -/
inductive Listing (rules : Rules) (t : Ty) (last : Option Int) (s : State) : List (String × Int) → State → Prop
  | closed {constants : List (String × Int)} {last' : Option Int} {s' : State}
      (all : Entries rules t last s constants last' s') (brace : s'.current.token = .punct .rbrace) :
      Listing rules t last s constants s'
  | bare {constants : List (String × Int)} {last' : Option Int} {s₁ s₂ s' : State} {text : String} {value : Int}
      (front : Entries rules t last s constants last' s₁) (final : Entry rules t last' s₁ text value s₂)
      (stop : accept (.punct .comma) s₂ = .ok false s') : Listing rules t last s (constants ++ [(text, value)]) s'

theorem Entries.precedes (hr : ∀ T, rules.Follow T rules) (h : Entries rules t last s constants last' s') :
    s.Precedes s' ∧ s'.left + constants.length ≤ s.left ∧
      ∀ c ∈ constants, s'.unit.meaning? c.1 = some (.constant c.2 t) := by
  induction h with
  | nil => exact ⟨⟨le_rfl, fun hm => hm⟩, le_rfl, by simp⟩
  | cons first comma others ih =>
    obtain ⟨hfirst, hleft, hmeaning⟩ := first.precedes hr
    obtain ⟨hothers, hlength, hnames⟩ := ih
    have hcomma := (follows_accept _).precedes comma
    refine ⟨hfirst.trans (hcomma.trans hothers), ?_, List.forall_mem_cons.2 ⟨?_, hnames⟩⟩
    · have hle := hcomma.left
      rw [List.length_cons]
      omega
    · exact hothers.meaning (hcomma.meaning hmeaning)

/-- All names of a list stand for its constants behind it. -/
theorem Listing.meaning (hr : ∀ T, rules.Follow T rules) (h : Listing rules t last s constants s') :
    ∀ c ∈ constants, s'.unit.meaning? c.1 = some (.constant c.2 t) := by
  cases h with
  | closed all brace => exact (all.precedes hr).2.2
  | bare front final stop =>
    obtain ⟨-, -, hnames⟩ := front.precedes hr
    obtain ⟨hfinal, -, hlast⟩ := final.precedes hr
    have hstop := (follows_accept _).precedes stop
    intro c hc
    rw [List.mem_append, List.mem_singleton] at hc
    rcases hc with hc | rfl
    · exact hstop.meaning (hfinal.meaning (hnames c hc))
    · exact hstop.meaning hlast

/-! ## The loop over constants -/

/-- One round of reading constants. -/
def enumeratorRound (rules : Rules) (t : Ty) (e : Enumeration) : Parse (Round Enumeration (List (String × Int))) := do
  if ← check (.punct .rbrace) then return .done e.constants
  else
    let e ← enumerator rules t e
    if ← accept (.punct .comma) then return .again e else return .done e.constants

theorem check_of_token {token : Token} (h : s.current.token = token) : check token s = .ok true s := by
  rw [← beq_iff_eq.2 h]
  rfl

/-- At the brace the rounds end. -/
theorem enumeratorRound_brace (h : s.current.token = .punct .rbrace) :
    enumeratorRound rules t e s = .ok (.done e.constants) s := bind_of_ok (check_of_token h)

/-- Elsewhere a constant is read, and a comma if one stands behind it. -/
theorem enumeratorRound_not_brace (h : s.current.token ≠ .punct .rbrace) : enumeratorRound rules t e s =
    (do
      let e ← enumerator rules t e
      if ← accept (.punct .comma) then return Round.again e else return .done e.constants : Parse _) s := by
  have hcheck : check (.punct .rbrace) s = .ok false s := by
    rw [← beq_eq_false_iff_ne.2 h]
    rfl
  exact bind_of_ok hcheck

theorem Entry.not_brace (h : Entry rules t last s text value s') : s.current.token ≠ .punct .rbrace := by
  cases h with
  | next hname | own hname => simp [(name_eq_ok hname).1]

/-- Behind a constant the rounds go on exactly if a comma follows. -/
theorem Entry.round {more : Bool} (h : Entry rules t last s text value s₁)
    (hmore : accept (.punct .comma) s₁ = .ok more s') :
    enumeratorRound rules t ⟨before, fits? (following last)⟩ s =
      .ok (if more then .again ⟨before ++ [(text, value)], fits? (following (some value))⟩
        else .done (before ++ [(text, value)])) s' := by
  rw [enumeratorRound_not_brace h.not_brace]
  refine (bind_of_ok (enumerator_iff.2 ⟨text, value, h, rfl⟩)).trans ((bind_of_ok hmore).trans ?_)
  cases more <;> rfl

/-- A round that comes to something has read a constant, or stands at the brace. -/
theorem enumeratorRound_cases {r : Round Enumeration (List (String × Int))}
    (h : enumeratorRound rules t ⟨before, fits? (following last)⟩ s = .ok r s') :
    (s.current.token = .punct .rbrace ∧ r = .done before ∧ s' = s) ∨
      ∃ text value s₁ more, Entry rules t last s text value s₁ ∧ accept (.punct .comma) s₁ = .ok more s' ∧
        r = if more then .again ⟨before ++ [(text, value)], fits? (following (some value))⟩
          else .done (before ++ [(text, value)]) := by
  by_cases hbrace : s.current.token = .punct .rbrace
  · rw [enumeratorRound_brace hbrace] at h
    cases h
    exact .inl ⟨hbrace, rfl, rfl⟩
  · rw [enumeratorRound_not_brace hbrace] at h
    obtain ⟨e, s₁, hread, h⟩ := bind_eq_ok h
    obtain ⟨more, s₂, hmore, h⟩ := bind_eq_ok h
    obtain ⟨text, value, hentry, rfl⟩ := enumerator_iff.1 hread
    refine .inr ⟨text, value, s₁, more, hentry, ?_⟩
    cases more <;> cases h <;> exact ⟨hmore, rfl⟩

/-- By induction on the rounds: they come to a list of constants, behind those that are there. -/
theorem listing_of_loopFor
    (h : loopFor (enumeratorRound rules t) n ⟨before, fits? (following last)⟩ s = .ok constants s') :
    ∃ rest, constants = before ++ rest ∧ Listing rules t last s rest s' := by
  induction n generalizing before last s with
  | zero => cases h
  | succ n ih =>
    rw [loopFor_run] at h
    cases hround : enumeratorRound rules t ⟨before, fits? (following last)⟩ s with
    | error fault s₁ =>
      rw [hround] at h
      cases h
    | ok r s₁ =>
      rw [hround] at h
      rcases enumeratorRound_cases hround with ⟨hbrace, rfl, rfl⟩ | ⟨text, value, s₂, more, hentry, hmore, rfl⟩
      · cases h
        exact ⟨[], (List.append_nil _).symm, .closed .nil hbrace⟩
      · cases more with
        | false =>
          cases h
          exact ⟨[(text, value)], rfl, .bare .nil hentry hmore⟩
        | true =>
          obtain ⟨rest, rfl, hrest⟩ := ih h
          refine ⟨(text, value) :: rest, by simp, ?_⟩
          cases hrest with
          | closed all brace => exact .closed (.cons hentry hmore all) brace
          | bare front final stop => exact .bare (.cons hentry hmore front) final stop

/-- Constants with commas behind them are read in as many rounds. -/
theorem Entries.loopFor (h : Entries rules t last s constants last' s') (before : List (String × Int)) (n : Nat) :
    loopFor (enumeratorRound rules t) (n + constants.length) ⟨before, fits? (following last)⟩ s =
      loopFor (enumeratorRound rules t) n ⟨before ++ constants, fits? (following last')⟩ s' := by
  induction h generalizing before with
  | nil =>
    rw [List.append_nil]
    rfl
  | @cons last last' s s₁ s₂ s' text value rest first comma others ih =>
    rw [List.length_cons, ← Nat.add_assoc, loopFor_run, first.round comma]
    refine (ih (before ++ [(text, value)])).trans ?_
    rw [List.append_assoc, List.singleton_append]

/-- What is read of an enum behind such constants is what is left of the rounds. -/
theorem Entries.enumerators (hr : ∀ T, rules.Follow T rules) (h : Entries rules t none s constants last s') :
    ∃ n, Grammar.enumerators rules t s =
      Grammar.loopFor (enumeratorRound rules t) (n + 1) ⟨constants, fits? (following last)⟩ s' := by
  have hleft := (h.precedes hr).2.1
  have hallowance := s.left_lt_allowance
  -- Each constant takes a token, so a round is left.
  have hrounds : s.allowance = (s.allowance - 1 - constants.length + 1) + constants.length := by omega
  refine ⟨s.allowance - 1 - constants.length, ?_⟩
  have hloop := h.loopFor [] (s.allowance - 1 - constants.length + 1)
  rw [← hrounds] at hloop
  exact hloop

theorem enumerators_iff (hr : ∀ T, rules.Follow T rules) :
    enumerators rules t s = .ok constants s' ↔ Listing rules t none s constants s' := by
  constructor
  · intro h
    have hloop : loopFor (enumeratorRound rules t) s.allowance ⟨[], fits? (following none)⟩ s = .ok constants s' := h
    obtain ⟨rest, rfl, hrest⟩ := listing_of_loopFor hloop
    exact hrest
  · intro h
    cases h with
    | closed all brace =>
      obtain ⟨n, hn⟩ := all.enumerators hr
      rw [hn, loopFor_run, enumeratorRound_brace brace]
    | bare front final stop =>
      obtain ⟨n, hn⟩ := front.enumerators hr
      rw [hn, loopFor_run, final.round stop]
      rfl

/-- There is no value behind the greatest. -/
theorem enumerators_overflow (hr : ∀ T, rules.Follow T rules)
    (h : Entries rules t none s constants (some greatestInt) s₁) (hname : name s₁ = .ok (text, span) s₂)
    (hbare : accept (.punct .eq) s₂ = .ok false s₃) :
    enumerators rules t s = .error ⟨.enumeratorOverflow text, span⟩ s₃ := by
  obtain ⟨n, hn⟩ := h.enumerators hr
  have hnone : fits? (following (some greatestInt)) = none := by decide
  have hread : enumerator rules t ⟨constants, none⟩ s₁ = .error ⟨.enumeratorOverflow text, span⟩ s₃ :=
    (bind_of_ok hname).trans ((bind_of_ok hbare).trans rfl)
  rw [hn, loopFor_run, hnone, enumeratorRound_not_brace (by simp [(name_eq_ok hname).1]), bind_run, hread]

/-! ## The integer type -/

variable {base : Ty} {given : Option Ty}

/-- The integer type of an enum: a given one that has all values, or the first that has them. -/
def enumBase (given : Option Ty) (values : List Int) (span : Span) : Parse Ty :=
  match given with
  | some base => do
    checkValues base values span
    pure base
  | none => enumType values span

theorem checkValues_eq_ok (h : checkValues base values span s = .ok () s') : s' = s ∧ ∀ {b least greatest},
    s.unit.builtinKind? base = some b → integerRange? s.unit.target b = some (least, greatest) →
      ∀ n ∈ values, least ≤ n ∧ n ≤ greatest := by
  rw [checkValues, unit_bind_run] at h
  cases hb : s.unit.builtinKind? base with
  | none =>
    rw [hb] at h
    cases h
    exact ⟨rfl, by simp⟩
  | some b =>
    rw [hb] at h
    cases hrange : integerRange? s.unit.target b with
    | none =>
      simp only [hrange] at h
      cases h
      refine ⟨rfl, ?_⟩
      rintro _ _ _ ⟨⟩ hrange'
      simp [hrange] at hrange'
    | some range =>
      obtain ⟨least, greatest⟩ := range
      simp only [hrange] at h
      cases hfind : values.find? fun v => v < least || greatest < v with
      | some v =>
        rw [hfind] at h
        cases h
      | none =>
        rw [hfind] at h
        cases h
        refine ⟨rfl, ?_⟩
        rintro _ _ _ ⟨⟩ hrange' n hn
        cases hrange.symm.trans hrange'
        simpa using List.find?_eq_none.1 hfind n hn

theorem enumOf?_intern {u : DeclUnit} {id : EnumId} {d : EnumDecl} (h : u.enumOf? t = some (id, d)) (shape : Shape) :
    (u.intern shape).2.enumOf? t = some (id, d) := by
  obtain ⟨hshape, hid⟩ := DeclUnit.enumOf?_eq_some h
  have hframe : (u.intern shape).2.enum? id = u.enum? id := by
    rw [DeclUnit.intern_frame]
    rfl
  rw [DeclUnit.enumOf?, (DeclUnit.intern_extends u shape).canonicalShape? hshape]
  dsimp only
  rw [hframe, hid]
  rfl

theorem enumType_run (values : List Int) (span : Span) (s : State) : enumType values span s =
    match enumKinds.find? (holdsAll s.unit.target (0 :: values)) with
    | some b => intern (.builtin b) s
    | none => fail .enumeratorsTooWide span s := by
  rw [enumType, unit_bind_run]
  cases enumKinds.find? (holdsAll s.unit.target (0 :: values)) <;> rfl

/-- A type of the kind that is found stands behind the others; nothing happens to an enum meanwhile. -/
theorem enumType_of_find? {b : Builtin} (hs : s.Sound)
    (hfind : enumKinds.find? (holdsAll s.unit.target (0 :: values)) = some b) (span : Span) :
    ∃ base s', enumType values span s = .ok base s' ∧ s'.unit.builtinKind? base = some b ∧
      ∀ {t id d}, s.unit.enumOf? t = some (id, d) → s'.unit.enumOf? t = some (id, d) := by
  have hrun : enumType values span s =
      .ok (s.unit.intern (.builtin b)).1 { s with unit := (s.unit.intern (.builtin b)).2 } := by
    rw [enumType_run, hfind]
    rfl
  obtain ⟨hs', -, -⟩ := (keeps_enumType values span).of_ok hs hrun
  have hshape := hs.unit.shape?_intern (s := .builtin b) (by simp [Shape.children])
  refine ⟨_, _, hrun, ?_, fun hd => enumOf?_intern hd _⟩
  rw [DeclUnit.builtinKind?, hs'.unit.wellFormed.canonicalShape?_flat hshape rfl]
  rfl

/-- The integer type is the given one, or of the preferred kind. -/
def Chosen (target : Target) (given : Option Ty) (base : Ty) (b : Builtin) (values : List Int) : Prop :=
  match given with
  | some type => base = type
  | none => target.Prefers b values

/-- The integer type has all values, if it can be stored at all. -/
theorem enumBase_eq_ok (hs : s.Sound) (ht : s.unit.target ∈ Target.presets)
    (h : enumBase given values span s = .ok base s') : s'.Sound ∧ s.unit.Grows s'.unit ∧ s.Precedes s' ∧
      ∀ {b e}, s'.unit.builtinKind? base = some b → b.isInteger = true → s.unit.target.extent b = some e →
        (∀ n ∈ values, s.unit.target.Represents b n ∧ Fits n) ∧ Chosen s.unit.target given base b values := by
  cases given with
  | some type =>
    obtain ⟨_, s₁, hcheck, h⟩ := bind_eq_ok h
    cases h
    obtain ⟨rfl, hvalues⟩ := checkValues_eq_ok hcheck
    refine ⟨hs, .refl _, ⟨le_rfl, fun hm => hm⟩, fun {b e} hb hinteger he => ⟨fun n hn => ?_, rfl⟩⟩
    obtain ⟨⟨least, greatest⟩, hrange⟩ := exists_integerRange? hinteger he
    exact (integerRange?_iff ht hrange).1 (hvalues hb hrange n hn)
  | none =>
    have hrun : enumType values span s = .ok base s' := h
    obtain ⟨hs', hgrows, -⟩ := (keeps_enumType values span).of_ok hs hrun
    refine ⟨hs', hgrows, (follows_enumType values span).precedes hrun, fun {b e} hb _ _ => ?_⟩
    cases hfind : enumKinds.find? (holdsAll s.unit.target (0 :: values)) with
    | none =>
      rw [enumType_run, hfind] at hrun
      cases hrun
    | some k =>
      obtain ⟨_, _, hrun', hkind, -⟩ := enumType_of_find? hs hfind span
      cases hrun.symm.trans hrun'
      cases hkind.symm.trans hb
      have hprefers := (find?_enumKinds ht).1 hfind
      have hmem := List.mem_of_find?_eq_some hfind
      exact ⟨fun n hn => ⟨hprefers.1 n hn, fits_of_represents ht hmem (hprefers.1 n hn)⟩, hprefers⟩

/-- There is an integer type for the values: the given one, or one of the kinds an enum is stored as. -/
def HasBase (u : DeclUnit) (given : Option Ty) (values : List Int) : Prop :=
  match given with
  | some type => ∃ b e, u.builtinKind? type = some b ∧ b.isInteger = true ∧ u.target.extent b = some e ∧
      ∀ n ∈ values, u.target.Represents b n ∧ Fits n
  | none => ∃ b, u.target.Prefers b values

theorem checkValues_of_represents {b : Builtin} (ht : s.unit.target ∈ Target.presets)
    (hb : s.unit.builtinKind? base = some b) (hvalues : ∀ n ∈ values, s.unit.target.Represents b n ∧ Fits n) :
    checkValues base values span s = .ok () s := by
  rw [checkValues, unit_bind_run, hb]
  cases hrange : integerRange? s.unit.target b with
  | none =>
    simp only [hrange]
    rfl
  | some range =>
    obtain ⟨least, greatest⟩ := range
    have hfind : values.find? (fun v => v < least || greatest < v) = none := by
      refine List.find?_eq_none.2 fun n hn => ?_
      have hin := (integerRange?_iff ht hrange).2 (hvalues n hn)
      simp only [Bool.or_eq_true, decide_eq_true_eq]
      omega
    simp only [hrange, hfind]
    rfl

/-- An integer type that there is is found, and nothing happens to the enum meanwhile. -/
theorem exists_enumBase (hs : s.Sound) (ht : s.unit.target ∈ Target.presets) (h : HasBase s.unit given values)
    (span : Span) : ∃ base s' b e, enumBase given values span s = .ok base s' ∧ s'.unit.builtinKind? base = some b ∧
      b.isInteger = true ∧ s'.unit.target.extent b = some e ∧
      ∀ {id d}, s.unit.enumOf? t = some (id, d) → s'.unit.enumOf? t = some (id, d) := by
  cases given with
  | some type =>
    obtain ⟨b, e, hb, hinteger, he, hvalues⟩ := h
    exact ⟨type, s, b, e, bind_of_ok (checkValues_of_represents ht hb hvalues), hb, hinteger, he, fun hd => hd⟩
  | none =>
    obtain ⟨b, hprefers⟩ := h
    have hfind := (find?_enumKinds ht).2 hprefers
    obtain ⟨hinteger, e, he, -⟩ := extent_of_enumKinds ht (List.mem_of_find?_eq_some hfind)
    obtain ⟨base, s', hrun, hkind, hkept⟩ := enumType_of_find? hs hfind span
    obtain ⟨-, hgrows, -⟩ := (keeps_enumType values span).of_ok hs hrun
    exact ⟨base, s', b, e, hrun, hkind, hinteger, hgrows.target ▸ he, hkept⟩

/-! ## Whole enums -/

variable {keyword : Span} {s₀ : State}

/-- An enum with a body is read up to its opening brace: its type, and the integer type that is given for it, if any. -/
inductive Enters (rules : Rules) (keyword : Span) (s : State) (t : Ty) (given : Option Ty) (s' : State) : Prop
  | mk {before : Attributes} {found : Option (String × Span)} {brace : Lexed} {s₁ s₂ s₃ s₄ : State}
      (early : attributes rules s = .ok before s₁) (named : name? s₁ = .ok found s₂)
      (typed : (do if ← accept (.punct .colon) then some <$> rules.typeName else pure none : Parse (Option Ty)) s₂ =
        .ok given s₃)
      (stands : s₃.current.token = .punct .lbrace)
      (declared : bodyOwner .enum (found.map (·.1)) keyword s₃ = .ok t s₄) (opens : advance s₄ = .ok brace s')

/-- What is read behind the opening brace. -/
def enumerationBody (rules : Rules) (keyword : Span) (t : Ty) (given : Option Ty) : Parse Ty := do
  let constants ← enumerators rules t
  let closing ← expect .rbrace
  let base ← enumBase given (constants.map (·.2)) (keyword.merge closing.span)
  define (keyword.merge closing.span) (·.completeEnum t base constants)
  return t

theorem Enters.enumeration_run (h : Enters rules keyword s t given s₀) :
    enumeration rules keyword s = enumerationBody rules keyword t given s₀ := by
  rcases h with @⟨before, found, brace, s₁, s₂, s₃, s₄, early, named, typed, stands, declared, opens⟩
  have hend : enumerationEnd rules keyword (found.map (·.1)) given s₃ = enumerationBody rules keyword t given s₀ := by
    refine (bind_of_ok (check_of_token stands)).trans ((bind_of_ok declared).trans ((bind_of_ok opens).trans ?_))
    cases given with
    | none => rfl
    | some type => simp only [enumerationBody, enumBase, bind_assoc]
  obtain ⟨colon, s', hcolon, typed⟩ := bind_eq_ok typed
  rw [enumeration_eq, ← hend]
  refine (bind_of_ok early).trans ((bind_of_ok named).trans ((bind_of_ok hcolon).trans ?_))
  cases colon with
  | true => exact bind_of_ok typed
  | false =>
    cases typed
    rfl

/-- What is built in front of the body leaves a sound state. -/
theorem Enters.sound (hr : rules.Sound) (hs : s.Sound) (h : Enters rules keyword s t given s₀) :
    s₀.Sound ∧ s.unit.Grows s₀.unit := by
  rcases h with @⟨before, found, brace, s₁, s₂, s₃, s₄, early, named, typed, stands, declared, opens⟩
  obtain ⟨hs₁, hgrows₁, -⟩ := (keeps_attributes hr).of_ok hs early
  obtain ⟨hs₂, hgrows₂, -, hfound⟩ := Keeps.of_ok looks_name? hs₁ named
  have htyped : Keeps s₂.unit (do if ← accept (.punct .colon) then some <$> rules.typeName else pure none)
      fun _ _ => True :=
    (looks_accept _).bind fun _ _ => .ite (fun _ => (hr.typeName _).map) fun _ => .pure trivial
  obtain ⟨hs₃, hgrows₃, -⟩ := htyped.of_ok hs₂ typed
  obtain ⟨hs₄, hgrows₄, -⟩ := (keeps_bodyOwner keyword (by simp) (isName_of_map hfound)).of_ok hs₃ declared
  obtain ⟨hs₀, hgrows₀, -⟩ := Keeps.of_ok looks_advance hs₄ opens
  exact ⟨hs₀, hgrows₁.trans (hgrows₂.trans (hgrows₃.trans (hgrows₄.trans hgrows₀)))⟩

/-- The constants and the brace behind them are read, and the target stays. -/
theorem Listing.closing_run {closing : Lexed} (hrules : rules.Sound) (hr : ∀ T, rules.Follow T rules) (hs : s.Sound)
    (h : Listing rules t none s constants s₁) (hclosing : expect .rbrace s₁ = .ok closing s₂) :
    enumerators rules t s = .ok constants s₁ ∧ s₂.Sound ∧ s₂.unit.target = s.unit.target := by
  have hread := (enumerators_iff hr).2 h
  obtain ⟨hs₁, hgrows₁, -⟩ := (keeps_enumerators hrules t).of_ok hs hread
  obtain ⟨hs₂, hgrows₂, -⟩ := Keeps.of_ok (looks_expect _) hs₁ hclosing
  exact ⟨hread, hs₂, hgrows₂.target.trans hgrows₁.target⟩

/-- A body that is accepted has a list of constants, all of them bound and stored. -/
theorem enumerationBody_eq_ok {t' : Ty} (hrules : rules.Sound) (hr : ∀ T, rules.Follow T rules) (hs : s.Sound)
    (ht : s.unit.target ∈ Target.presets) (h : enumerationBody rules keyword t given s = .ok t' s') :
    t' = t ∧ ∃ constants s₁ base b, Listing rules t none s constants s₁ ∧
      (∀ c ∈ constants, Fits c.2 ∧ s'.unit.constant? c.1 = some (c.2, t)) ∧
      s'.unit.Stores t base b constants ∧ Chosen s.unit.target given base b (constants.map (·.2)) := by
  obtain ⟨constants, s₁, hconstants, h⟩ := bind_eq_ok h
  obtain ⟨closing, s₂, hclosing, h⟩ := bind_eq_ok h
  obtain ⟨base, s₃, hbase, h⟩ := bind_eq_ok h
  obtain ⟨_, s₄, hcomplete, h⟩ := bind_eq_ok h
  cases h
  have hlisting := (enumerators_iff hr).1 hconstants
  obtain ⟨-, hs₂, htarget₂⟩ := hlisting.closing_run hrules hr hs hclosing
  obtain ⟨hs₃, hgrows₃, hprecedes₃, hchosen⟩ := enumBase_eq_ok hs₂ (htarget₂ ▸ ht) hbase
  have htarget₃ : s₃.unit.target = s.unit.target := hgrows₃.target.trans htarget₂
  rw [define_run] at hcomplete
  rcases hv : s₃.unit.completeEnum t base constants with ⟨fault | _, v⟩
  · rw [hv] at hcomplete
    cases hcomplete
  · rw [hv] at hcomplete
    cases hcomplete
    obtain ⟨b, e, hb, hinteger, hextent, hstores⟩ := DeclUnit.stores_of_completeEnum (htarget₃ ▸ ht) hv
    rw [htarget₂] at hchosen
    obtain ⟨hvalues, hchosen⟩ := hchosen hb hinteger (htarget₃ ▸ hextent)
    rw [List.forall_mem_map] at hvalues
    refine ⟨rfl, constants, s₁, base, b, hlisting, fun c hc => ⟨(hvalues c hc).2, ?_⟩, ?_, hchosen⟩
    · -- What follows the list takes no names away, and to complete the enum binds none.
      have hmeaning := (follows_expect _).precedes hclosing
      have hbound := hprecedes₃.meaning (hmeaning.meaning (hlisting.meaning hr c hc))
      obtain ⟨id, d, _, enumerators, -, -, -, rfl⟩ := DeclUnit.completeEnum_eq_ok hv
      exact DeclUnit.constant?_eq_some.2 hbound
    · exact hstores fun c hc => htarget₃ ▸ (hvalues c hc).1

/-- An enum that is accepted gives every constant its own value, or the one behind the last, the first of these being
zero. Its name stands for exactly that number, of 128 bits, and for the enum, and the number is what is read back of the
constant that is stored. Without a given integer type it is the first that has all values. There is no value behind the
greatest, and no integer type where none has all values: such an enum is refused. One that has a list of constants, an
integer type for them, and no body yet is accepted. -/
theorem enumeration_listed {depth : Nat} (hs : s.Sound) (ht : s.unit.target ∈ Target.presets)
    (h : Enters (Rules.upTo depth) keyword s t given s₀) :
    (∀ t' s', enumeration (Rules.upTo depth) keyword s = .ok t' s' → t' = t ∧ ∃ constants s₁ base b,
      Listing (Rules.upTo depth) t none s₀ constants s₁ ∧
      (∀ c ∈ constants, Fits c.2 ∧ s'.unit.constant? c.1 = some (c.2, t)) ∧
      s'.unit.Stores t base b constants ∧ Chosen s.unit.target given base b (constants.map (·.2))) ∧
    (∀ constants s₁ text span s₂ s₃, Entries (Rules.upTo depth) t none s₀ constants (some greatestInt) s₁ →
      name s₁ = .ok (text, span) s₂ → accept (.punct .eq) s₂ = .ok false s₃ →
        enumeration (Rules.upTo depth) keyword s = .error ⟨.enumeratorOverflow text, span⟩ s₃) ∧
    (∀ constants s₁ closing s₂, given = none → Listing (Rules.upTo depth) t none s₀ constants s₁ →
      expect .rbrace s₁ = .ok closing s₂ →
      (∀ k ∈ [.int, .uint, .long, .ulong, .longLong, .ulongLong], ∃ c ∈ constants, ¬s.unit.target.Represents k c.2) →
        enumeration (Rules.upTo depth) keyword s = .error ⟨.enumeratorsTooWide, keyword.merge closing.span⟩ s₂) ∧
    (∀ constants s₁ closing s₂ id d, Listing (Rules.upTo depth) t none s₀ constants s₁ →
      expect .rbrace s₁ = .ok closing s₂ → s₂.unit.enumOf? t = some (id, d) → d.body = none →
      HasBase s₂.unit given (constants.map (·.2)) → ∃ s', enumeration (Rules.upTo depth) keyword s = .ok t s') := by
  have hr := Rules.upTo_follow_self depth
  have hrules : (Rules.upTo depth).Sound := Rules.upTo_sound depth
  obtain ⟨hs₀, hgrows₀⟩ := h.sound hrules hs
  rw [h.enumeration_run, ← hgrows₀.target]
  rw [← hgrows₀.target] at ht
  refine ⟨fun t' s' hrun => enumerationBody_eq_ok hrules hr hs₀ ht hrun,
    fun constants s₁ text span s₂ s₃ hentries hname hbare => ?_,
    fun constants s₁ closing s₂ hnone hlisting hclosing hwide => ?_,
    fun constants s₁ closing s₂ id d hlisting hclosing hd hbody hbase => ?_⟩
  · have hoverflow := enumerators_overflow hr hentries hname hbare
    rw [enumerationBody, bind_run, hoverflow]
  · subst hnone
    obtain ⟨hconstants, -, htarget⟩ := hlisting.closing_run hrules hr hs₀ hclosing
    refine (bind_of_ok hconstants).trans ((bind_of_ok hclosing).trans ?_)
    have hfind : enumKinds.find? (holdsAll s₂.unit.target (0 :: constants.map (·.2))) = none := by
      refine List.find?_eq_none.2 fun k hk hholds => ?_
      obtain ⟨c, hc, hnot⟩ := hwide k hk
      rw [htarget] at hholds
      exact hnot ((holdsAll_iff ht hk).1 hholds _ (List.mem_map_of_mem hc))
    rw [bind_run, enumBase, enumType_run, hfind]
    rfl
  · obtain ⟨hconstants, hs₂, htarget⟩ := hlisting.closing_run hrules hr hs₀ hclosing
    obtain ⟨base, s₃, b, e, hrun, hb, hinteger, he, hkept⟩ :=
      exists_enumBase hs₂ (htarget ▸ ht) hbase (keyword.merge closing.span)
    obtain ⟨v, hv⟩ := DeclUnit.exists_completeEnum (hkept hd) hbody hb hinteger he constants
    have hcomplete : define (keyword.merge closing.span) (·.completeEnum t base constants) s₃ =
        .ok () { s₃ with unit := v } := by rw [define_run, hv]
    exact ⟨_, (bind_of_ok hconstants).trans
      ((bind_of_ok hclosing).trans ((bind_of_ok hrun).trans (bind_of_ok hcomplete)))⟩

/-- `enum e { A, B = -2, C, D = A + 3000000000, }` where `long` is of 32 bits. -/
theorem enumeration_listed_long_long :
    let rules := Rules.upTo 20
    let tokens : List Token :=
      [.name "e", .punct .lbrace, .name "A", .punct .comma, .name "B", .punct .eq, .punct .minus,
       .literal .decimal "2", .punct .comma, .name "C", .punct .comma, .name "D", .punct .eq, .name "A", .punct .plus,
       .literal .decimal "3000000000", .punct .comma, .punct .rbrace, .punct .semi]
    let s := State.at 60 (.empty "unit" .llp64) (tokens.map (⟨·, ⟨0, 60⟩⟩))
    ∃ s' base, enumeration rules ⟨0, 4⟩ s = .ok ⟨0⟩ s' ∧ s'.unit.constant? "C" = some (-1, ⟨0⟩) ∧
      s'.unit.Stores ⟨0⟩ base .longLong [("A", 0), ("B", -2), ("C", -1), ("D", 3000000000)] := by
  intro rules tokens s
  have hnamed : ∀ t ∈ tokens, Named ⟨t, ⟨0, 60⟩⟩ := by
    simp only [tokens, List.forall_mem_cons, Named, List.not_mem_nil, false_imp_iff, implies_true, and_true,
      reduceCtorEq, Token.name.injEq, forall_eq', true_and]
    refine ⟨?_, ?_, ?_, ?_, ?_, ?_⟩ <;> exact ⟨⟨_, _, rfl, rfl, rfl⟩, by decide⟩
  have hs : s.Sound := by
    refine ⟨DeclUnit.empty_written _ _, hnamed _ (List.mem_cons_self ..), fun l hl => ?_⟩
    obtain ⟨_, hl, he⟩ := List.mem_map.1 hl
    obtain ⟨t, ht, rfl⟩ := List.mem_map.1 hl
    cases he
    exact hnamed t (List.mem_cons_of_mem _ ht)
  let s₃ := leaves (name? s)
  let s₄ := leaves (bodyOwner .enum (some "e") ⟨0, 4⟩ s₃)
  let s₀ := leaves (advance s₄)
  have henters : Enters rules ⟨0, 4⟩ s ⟨0⟩ none s₀ :=
    .mk (run_of_outcome (a := {}) (by decide +kernel)) (run_of_outcome (a := some ("e", ⟨0, 60⟩)) (by decide +kernel))
      (run_of_outcome (by decide +kernel)) (by decide +kernel) (run_of_outcome (by decide +kernel))
      (run_of_outcome (a := ⟨.punct .lbrace, ⟨0, 60⟩⟩) (by decide +kernel))
  have hrun : enumeration rules ⟨0, 4⟩ s = .ok ⟨0⟩ _ := run_of_outcome (by decide +kernel)
  obtain ⟨-, constants, s₁, base, b, hlisting, hbound, hstores, hchosen⟩ :=
    (enumeration_listed hs (by decide) henters).1 _ _ hrun
  have hread := (enumerators_iff (Rules.upTo_follow_self 20)).2 hlisting
  have hconstants : (outcome (enumerators rules ⟨0⟩ s₀)).1 =
      .ok [("A", 0), ("B", -2), ("C", -1), ("D", 3000000000)] := by decide +kernel
  rw [hread] at hconstants
  cases hconstants
  have hkind : enumKinds.find? (holdsAll Target.llp64 [0, 0, -2, -1, 3000000000]) = some .longLong := by decide
  cases ((find?_enumKinds (by decide)).2 hchosen).symm.trans hkind
  exact ⟨_, base, hrun, (hbound ("C", -1) (by simp)).2, hstores⟩

/-- `enum { A = 2^127 - 1, B }`: nothing is behind the greatest value. -/
example : (outcome (enumeration (Rules.upTo 9) ⟨0, 4⟩ (.at 60 (.empty "unit" .lp64) ([.punct .lbrace, .name "A",
    .punct .eq, .literal .decimal "170141183460469231731687303715884105727", .punct .comma, .name "B",
    .punct .rbrace].map (⟨·, ⟨0, 60⟩⟩))))).1 = .error ⟨.enumeratorOverflow "B", ⟨0, 60⟩⟩ := by decide +kernel

/-- `enum { A = -1, B = 18446744073709551615 }`: no kind has both. -/
example : (outcome (enumeration (Rules.upTo 9) ⟨0, 4⟩ (.at 60 (.empty "unit" .lp64) ([.punct .lbrace, .name "A",
    .punct .eq, .punct .minus, .literal .decimal "1", .punct .comma, .name "B", .punct .eq,
    .literal .decimal "18446744073709551615", .punct .rbrace].map (⟨·, ⟨0, 60⟩⟩))))).1 =
      .error ⟨.enumeratorsTooWide, ⟨0, 60⟩⟩ := by decide +kernel

end Cognate.Grammar
