import Cognate.Proofs.Readings.Closing
import Cognate.Proofs.Token.Concat

/-!
# Texts of declarations one behind the other

Declarations, a line break and further declarations are read as one text the way they are read one text after the other
(`declare_newline`). A loop over declarations that has come to the end of the first text goes on with the second one:
what it has read so far is carried over (`closes_declaration`), and the rounds that are left are enough
(`loopFor_fuel`).
-/

namespace Cognate

namespace Grammar

variable {α σ : Type} {s t : State} {u : DeclUnit} {more items : List (Except Fault Lexed)} {k n m stop : Nat}

/-! ## What is left to read -/

/-- The end stands behind everything else. -/
structure State.Proper (s : State) : Prop where
  ahead : ∀ l, .ok l ∈ s.ahead → l.token ≠ .finish
  current : s.current.token = .finish → s.ahead = []

theorem State.Proper.take {l : Lexed} {ahead : List (Except Fault Lexed)} (hs : s.Proper)
    (h : takeItem s.stop s.ahead = .ok (l, ahead)) : State.Proper { s with current := l, ahead } ∧
      State.left { s with current := l, ahead } ≤ s.left ∧
      (s.current.token ≠ .finish → State.left { s with current := l, ahead } < s.left) := by
  refine ⟨?_, State.left_take h⟩
  obtain ⟨hahead, -⟩ := hs
  cases hitems : s.ahead with
  | nil =>
    rw [hitems] at h
    cases h
    exact ⟨by simp, fun _ => rfl⟩
  | cons item items =>
    rw [hitems] at h hahead
    cases item with
    | error fault => cases h
    | ok l =>
      cases h
      exact ⟨fun l' hl' => hahead l' (by simp [hl']), fun h => absurd h (hahead l (by simp))⟩

/-- The same text, of which at most so many tokens are left. -/
def Transport.moving (stop n : Nat) : Transport :=
  .same (fun s => s.Proper ∧ s.stop = stop ∧ s.left ≤ n)
    (fun ⟨hs, hstop, hleft⟩ htake => ⟨(hs.take htake).1, hstop, (hs.take htake).2.1.trans hleft⟩)
    fun ⟨hs, hstop, hleft⟩ _ => ⟨⟨hs.ahead, hs.current⟩, hstop, hleft⟩

/-- Behind a last token fewer are left. -/
def Ending.moving (stop n : Nat) : Ending (.moving stop n) where
  whole := rfl
  after s := s.Proper ∧ s.stop = stop ∧ s.left < n
  advance := by
    rintro s l ahead ⟨hs, hstop, hleft⟩ hend htake
    obtain ⟨hs', -, hlt⟩ := hs.take htake
    refine ⟨hs', hstop, (hlt ?_).trans_le hleft⟩
    intro hfinish
    rw [hfinish] at hend
    cases hend
  never h := h.elim

theorem declaration_moves (hs : s.Proper) (h : declaration s = .ok () t) :
    t.Proper ∧ t.stop = s.stop ∧ t.left < s.left :=
  (closes_declaration (E := .moving s.stop s.left) s).lost ⟨hs, rfl, le_rfl⟩ h

/-! ## Rounds -/

/-- Rounds that bring a measure down: more of them than it says change nothing. -/
theorem loopFor_fuel {round : σ → Parse (Round σ α)} {I : State → Prop} {μ : State → Nat}
    (hround : ∀ {x s y t}, I s → round x s = .ok (.again y) t → I t ∧ μ t < μ s) {x : σ} (hs : I s) (hn : μ s < n)
    (hm : μ s < m) : loopFor round n x s = loopFor round m x s := by
  induction n generalizing m x s with
  | zero => omega
  | succ n ih =>
    obtain ⟨m, rfl⟩ := Nat.exists_eq_succ_of_ne_zero (show m ≠ 0 by omega)
    rw [loopFor_run, loopFor_run]
    cases hr : round x s with
    | error fault t => rfl
    | ok r t =>
      cases r with
      | done a => rfl
      | again y =>
        obtain ⟨ht, hlt⟩ := hround hs hr
        exact ih ht (by omega) (by omega)

/-- One round of reading declarations. -/
def nextDeclaration (_ : Unit) : Parse (Round Unit Unit) := do
  if ← atEnd then return .done ()
  else
    declaration
    return .again ()

theorem nextDeclaration_finish (h : s.current.token = .finish) : nextDeclaration () s = .ok (.done ()) s := by
  have hend : (s.current.token == .finish) = true := beq_iff_eq.2 h
  change (if s.current.token == .finish then (pure (.done ()) : Parse (Round Unit Unit)) else _) s = _
  rw [if_pos hend]
  rfl

theorem nextDeclaration_run (h : s.current.token ≠ .finish) : nextDeclaration () s =
    match declaration s with
    | .ok () t => .ok (.again ()) t
    | .error fault t => .error fault t := by
  have hgo : ¬(s.current.token == .finish) = true := fun hend => h (beq_iff_eq.1 hend)
  change (if s.current.token == .finish then _
    else declaration >>= fun _ => (pure (.again ()) : Parse (Round Unit Unit))) s = _
  rw [if_neg hgo, bind_run]
  cases declaration s <;> rfl

theorem nextDeclaration_again {x y : Unit} (hs : s.Proper) (hr : nextDeclaration x s = .ok (.again y) t) :
    t.Proper ∧ t.left < s.left := by
  by_cases hfinish : s.current.token = .finish
  · rw [nextDeclaration_finish hfinish] at hr
    cases hr
  · rw [nextDeclaration_run hfinish] at hr
    cases hd : declaration s with
    | error fault s' =>
      rw [hd] at hr
      cases hr
    | ok a s' =>
      rw [hd] at hr
      cases hr
      obtain ⟨ht, -, hlt⟩ := declaration_moves hs hd
      exact ⟨ht, hlt⟩

/-- Beyond one round for each token that is left, the allowance of the loop does not matter. -/
theorem declarations_of_left (hs : s.Proper) (hn : s.left < n) :
    declarations s = loopFor nextDeclaration n () s :=
  loopFor_fuel nextDeclaration_again hs s.left_lt_allowance hn

/-- At the end nothing more is read. -/
theorem declarations_finish (hs : s.current.token = .finish) : declarations s = .ok () s := by
  change loopFor nextDeclaration (s.ahead.length + 1 + 1) () s = _
  rw [loopFor_run, nextDeclaration_finish hs]

/-- Elsewhere one declaration is read, and then the others. -/
theorem declarations_run (hs : s.Proper) (h : s.current.token ≠ .finish) : declarations s =
    match declaration s with
    | .ok () t => declarations t
    | .error fault t => .error fault t := by
  rw [declarations_of_left hs (Nat.lt_succ_self _), loopFor_run, nextDeclaration_run h]
  cases hd : declaration s with
  | error fault t => rfl
  | ok a t =>
    obtain ⟨ht, -, hlt⟩ := declaration_moves hs hd
    exact (declarations_of_left ht hlt).symm

/-- Declarations are read up to the end. By induction on what is left. -/
theorem declarations_end (hs : s.Proper) (h : declarations s = .ok () t) :
    t.current.token = .finish ∧ t.ahead = [] := by
  induction hn : s.left using Nat.strong_induction_on generalizing s with
  | _ n ih =>
    subst hn
    by_cases hfinish : s.current.token = .finish
    · rw [declarations_finish hfinish] at h
      cases h
      exact ⟨hfinish, hs.current hfinish⟩
    · rw [declarations_run hs hfinish] at h
      cases hd : declaration s with
      | error fault s' =>
        rw [hd] at h
        cases h
      | ok a s' =>
        rw [hd] at h
        obtain ⟨hs', -, hlt⟩ := declaration_moves hs hd
        exact ih s'.left hlt hs' h rfl

/-! ## Texts that go on -/

theorem endsPart_of_looksBehind {t : Token} (h : looksBehind t = true) : endsPart t = false := by
  cases t with
  | punct p => cases p <;> first | rfl | cases h
  | _ => rfl

/-- A text that goes on behind its end, and is lost there unless a last token is looked at. -/
def Transport.goesOn (more : List (Except Fault Lexed)) (behind : Nat) : Transport where
  places := 0
  rename name := name
  dropped := 0
  more := more
  behind := behind
  isOpen := True
  lost s := s.ahead = [] ∧ endsPart s.current.token = false
  closed h := (h trivial).elim
  dropped_le := Nat.zero_le _
  lost_advance := by
    rintro s l ahead ⟨hahead, -⟩ htake
    rw [hahead] at htake
    cases htake
    exact ⟨rfl, rfl⟩
  lost_apply h _ := h
  lost_end := by
    rintro - s l ahead hahead htake
    rw [List.eq_nil_of_length_eq_zero (Nat.le_zero.1 hahead)] at htake
    cases htake
    exact ⟨rfl, rfl⟩
  lost_peek := by
    rintro - s hahead hlooks
    exact ⟨List.eq_nil_of_length_eq_zero (Nat.le_zero.1 hahead), endsPart_of_looksBehind hlooks⟩

/-- Where the text is lost, no declaration ends. -/
def Ending.goesOn (more : List (Except Fault Lexed)) (behind : Nat) : Ending (.goesOn more behind) where
  whole := rfl
  after _ := False
  advance := by
    rintro s l ahead ⟨-, hlost⟩ hend -
    rw [hlost] at hend
    cases hend
  never _ _ h := h

theorem goesOn_state (more : List (Except Fault Lexed)) (behind : Nat) (s : State) :
    (Transport.goesOn more behind).state s = ⟨s.current, s.ahead ++ more, s.stop + behind, s.unit⟩ := by
  simp only [Transport.state, Transport.goesOn, Nat.sub_zero, List.take_length, map_shiftItem_zero, Lexed.shift_zero,
    Nat.add_zero]
  rfl

theorem State.Proper.of_goesOn (h : ((Transport.goesOn more k).state s).Proper) : s.Proper := by
  rw [goesOn_state] at h
  obtain ⟨hahead, hcurrent⟩ := h
  constructor
  · exact fun l hl => hahead l (List.mem_append_left _ hl)
  · exact fun hfinish => (List.append_eq_nil_iff.1 (hcurrent hfinish)).1

theorem declaration_goesOn (more : List (Except Fault Lexed)) (k : Nat) (h : declaration s = .ok () t) :
    (Transport.goesOn more k).Joins t () (declaration ((Transport.goesOn more k).state s)) ∨
      declaration ((Transport.goesOn more k).state s) = .ok () ((Transport.goesOn more k).state t) := by
  rcases (closes_declaration (E := .goesOn more k) s).carries h with ⟨-, hjoins⟩ | hsecond
  · exact .inl hjoins
  · exact .inr hsecond

theorem readFrom_nil (stop : Nat) (u : DeclUnit) : readFrom declarations stop [] u = (.ok (), u) := by
  change outcome (declarations ⟨finishAt stop, [], stop, u⟩) = _
  rw [declarations_finish (s := ⟨finishAt stop, [], stop, u⟩) rfl]
  rfl

/-- Where the first reading ends with a declaration, the second one goes on with what follows. -/
theorem outcome_of_joins
    (hjoins : (Transport.goesOn more k).Joins t () (declaration ((Transport.goesOn more k).state s)))
    (hs : s.current.token ≠ .finish) (hproper : ((Transport.goesOn more k).state s).Proper) :
    outcome (declarations ((Transport.goesOn more k).state s)) = readFrom declarations (t.stop + k) more t.unit := by
  rw [declarations_run hproper hs, readFrom]
  have hmoved := hjoins.moved
  have hmore : (Transport.goesOn more k).more = more := rfl
  rw [goesOn_state, hmore] at hmoved
  cases htake : takeItem (t.stop + k) more with
  | error fault =>
    rw [htake] at hmoved
    obtain ⟨s', hs', hunit⟩ := hmoved
    rw [hs']
    exact Prod.ext rfl hunit
  | ok r =>
    rw [htake] at hmoved
    dsimp only at hmoved
    rw [hmoved]

/-- Where declarations are read to the end of a text, the reading goes on with what follows. By induction on what is
left to read: each declaration is carried over, up to the one that joins. -/
theorem declarations_goesOn (hs : s.current.token ≠ .finish) (hproper : ((Transport.goesOn more k).state s).Proper)
    (hrun : declarations s = .ok () t) :
    outcome (declarations ((Transport.goesOn more k).state s)) = readFrom declarations (s.stop + k) more t.unit := by
  induction hn : s.left using Nat.strong_induction_on generalizing s with
  | _ n ih =>
    subst hn
    rw [declarations_run hproper.of_goesOn hs] at hrun
    cases hd : declaration s with
    | error fault s' =>
      rw [hd] at hrun
      cases hrun
    | ok a s' =>
      rw [hd] at hrun
      dsimp only at hrun
      obtain ⟨-, hstop, hlt⟩ := declaration_moves hproper.of_goesOn hd
      rcases declaration_goesOn more k hd with hjoins | hsecond
      · rw [declarations_finish hjoins.finish] at hrun
        cases hrun
        rw [outcome_of_joins hjoins hs hproper, hstop]
      · obtain ⟨hproper', -, -⟩ := declaration_moves hproper hsecond
        rw [declarations_run hproper hs, hsecond]
        dsimp only
        by_cases hfinish : s'.current.token = .finish
        · -- At the end of the second text as well, so that nothing follows the first one.
          have hmore : more = [] := by
            rw [goesOn_state] at hproper'
            exact (List.append_eq_nil_iff.1 (hproper'.current hfinish)).2
          rw [declarations_finish hfinish] at hrun
          cases hrun
          rw [declarations_finish (s := (Transport.goesOn more k).state t) hfinish, hmore, readFrom_nil, goesOn_state]
          rfl
        · rw [ih s'.left hlt hfinish hproper' hrun rfl, hstop]

theorem readFrom_goesOn (hitems : ∀ item ∈ items, ∃ l : Lexed, item = .ok l ∧ l.token ≠ .finish)
    (hmore : ∀ l, .ok l ∈ more → l.token ≠ .finish) (hok : (readFrom declarations stop items u).1 = .ok ()) :
    readFrom declarations (stop + k) (items ++ more) u =
      readFrom declarations (stop + k) more (readFrom declarations stop items u).2 := by
  cases items with
  | nil =>
    rw [readFrom_nil]
    rfl
  | cons item items =>
    obtain ⟨l, rfl, hl⟩ := hitems item (by simp)
    change (outcome (declarations ⟨l, items, stop, u⟩)).1 = _ at hok
    change outcome (declarations ⟨l, items ++ more, stop + k, u⟩) =
      readFrom _ _ _ (outcome (declarations ⟨l, items, stop, u⟩)).2
    cases hr : declarations ⟨l, items, stop, u⟩ with
    | error fault t =>
      rw [hr] at hok
      cases hok
    | ok a t =>
      have hproper : State.Proper ⟨l, items ++ more, stop + k, u⟩ := by
        refine ⟨fun l' hl' => ?_, fun hfinish => absurd hfinish hl⟩
        rcases List.mem_append.1 hl' with hl' | hl'
        · obtain ⟨l'', h, hl''⟩ := hitems _ (List.mem_cons_of_mem _ hl')
          cases h
          exact hl''
        · exact hmore l' hl'
      have hstate := goesOn_state more k ⟨l, items, stop, u⟩
      rw [← hstate] at hproper ⊢
      exact declarations_goesOn hl hproper hr

/-! ## What is read to the end -/

/-- A fault that is ahead stays there or ends the reading. -/
theorem ok_of_declarations (hs : s.Proper) (h : declarations s = .ok () t) :
    ∀ item ∈ s.ahead, ∃ l, item = .ok l := by
  intro item hitem
  cases item with
  | ok l => exact ⟨l, rfl⟩
  | error fault =>
    have hadvance : ∀ {s : State} {l ahead}, .error fault ∈ s.ahead → takeItem s.stop s.ahead = .ok (l, ahead) →
        .error fault ∈ ahead := by
      intro s l ahead hmem htake
      cases hitems : s.ahead with
      | nil =>
        rw [hitems] at hmem
        cases hmem
      | cons item items =>
        rw [hitems] at hmem htake
        cases item with
        | error fault' => cases htake
        | ok l' =>
          cases htake
          simpa using hmem
    have hkept := (follows_declarations
      (T := .same (fun s => Except.error fault ∈ s.ahead) hadvance fun h _ => h) s).lost hitem
    rw [h] at hkept
    change _ ∈ t.ahead at hkept
    rw [(declarations_end hs h).2] at hkept
    cases hkept

theorem scan_ne_finish {source : String} {l : Lexed} (h : .ok l ∈ scan source) : l.token ≠ .finish := scanAt_ne_finish h

/-- A text that is read holds tokens only. -/
theorem ok_of_declare {source : String} (h : (u.declare source).1 = .ok ()) :
    ∀ item ∈ scan source, ∃ l, item = .ok l := by
  unfold DeclUnit.declare at h
  rw [read_eq] at h
  cases hitems : scan source with
  | nil => simp
  | cons item items =>
    rw [hitems] at h
    cases item with
    | error fault => cases h
    | ok l =>
      have htoken : ∀ l' : Lexed, .ok l' ∈ (.ok l :: items : List (Except Fault Lexed)) → l'.token ≠ .finish := by
        rw [← hitems]
        exact fun l' => scan_ne_finish
      change (outcome (declarations ⟨l, items, source.utf8ByteSize, u⟩)).1 = _ at h
      cases hr : declarations ⟨l, items, source.utf8ByteSize, u⟩ with
      | error fault t =>
        rw [hr] at h
        cases h
      | ok a t =>
        have hs : State.Proper ⟨l, items, source.utf8ByteSize, u⟩ :=
          ⟨fun l' hl' => htoken l' (List.mem_cons_of_mem _ hl'), fun hl => absurd hl (htoken l (by simp))⟩
        intro item hitem
        rcases List.mem_cons.1 hitem with rfl | hitem
        · exact ⟨l, rfl⟩
        · exact ok_of_declarations hs hr item hitem

end Grammar

namespace DeclUnit

open Grammar

/-- Declarations, a line break and a further text are read as one text the way they are read one after the other: they
leave the same unit, and the further text is refused for the same reason, at a place that lies further on by what
stands in front of it. -/
theorem declare_newline (u : DeclUnit) (first second : String) (h : (u.declare first).1 = .ok ()) :
    u.declare (first ++ "\n" ++ second) =
      (((u.declare first).2.declare second).1.mapError (Fault.shift (first.utf8ByteSize + 1)),
        ((u.declare first).2.declare second).2) := by
  have hitems := ok_of_declare h
  have hscan : scan (first ++ "\n" ++ second) =
      scan first ++ (scan second).map (shiftItem (first.utf8ByteSize + 1)) := by
    have hlist : (first ++ "\n" ++ second).toList = first.toList ++ '\n' :: second.toList := by
      rw [String.toList_append, String.toList_append, List.append_assoc]
      rfl
    unfold scan
    rw [hlist, scanAt_newline 0 first.toList second.toList hitems, byteLength_eq, String.ofList_toList, Nat.zero_add,
      ← scanAt_shift, Nat.zero_add]
  have hsize : (first ++ "\n" ++ second).utf8ByteSize = first.utf8ByteSize + (second.utf8ByteSize + 1) := by
    rw [String.utf8ByteSize_append, String.utf8ByteSize_append]
    change first.utf8ByteSize + 1 + second.utf8ByteSize = _
    omega
  have hfirst : ∀ item ∈ scan first, ∃ l : Lexed, item = .ok l ∧ l.token ≠ .finish := by
    intro item hitem
    obtain ⟨l, rfl⟩ := hitems item hitem
    exact ⟨l, rfl, scan_ne_finish hitem⟩
  have hsecond : ∀ l, .ok l ∈ (scan second).map (shiftItem (first.utf8ByteSize + 1)) → l.token ≠ .finish := by
    intro l hl
    obtain ⟨item, hitem, hshift⟩ := List.mem_map.1 hl
    cases item with
    | error fault => cases hshift
    | ok l' =>
      cases hshift
      exact (scan_ne_finish hitem : l'.token ≠ .finish)
  unfold declare at h ⊢
  simp only [read_eq] at h ⊢
  rw [hscan, hsize, readFrom_goesOn hfirst hsecond h]
  have hplace : first.utf8ByteSize + (second.utf8ByteSize + 1) = second.utf8ByteSize + (first.utf8ByteSize + 1) := by
    omega
  rw [hplace, readFrom_shift follows_declarations]
  refine Prod.ext ?_ rfl
  dsimp only
  cases (readFrom declarations second.utf8ByteSize (scan second) _).1 <;> rfl

/-- A definition in the old style, with a closing brace in a comment of its body, and a comment up to the line break.
The fault stands in the further text, behind a declaration that uses a name from the first one. -/
theorem declare_newline_definition :
    let u := DeclUnit.empty "unit" .lp64
    let first := "typedef int count;\ncount add(a, b) count a, b; \x7b return a /* \x7d */ + b; \x7d // the sum"
    let second := "count total;\nunknown y;"
    (u.declare first).1 = .ok () ∧
      ((u.declare first).2.declare second).1 = .error ⟨.expectedType (.name "unknown"), ⟨13, 20⟩⟩ ∧
      u.declare (first ++ "\n" ++ second) =
        (.error ⟨.expectedType (.name "unknown"), ⟨97, 104⟩⟩, ((u.declare first).2.declare second).2) := by
  intro u first second
  have hfirst : (u.declare first).1 = .ok () := by decide +kernel
  have hsecond : ((u.declare first).2.declare second).1 =
      .error ⟨.expectedType (.name "unknown"), ⟨13, 20⟩⟩ := by decide +kernel
  have hboth := declare_newline u first second hfirst
  rw [hsecond] at hboth
  exact ⟨hfirst, hsecond, hboth⟩

end DeclUnit
end Cognate
