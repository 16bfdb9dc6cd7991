import Cognate.Proofs.Token.Lexes

/-!
# Places in texts

A text that stands further on holds the same items, further on (`scanAt_shift`). None of them is the end of the text.
-/

namespace Cognate

variable {n k : Nat} {cs : List Char}

/-! ## Places further on -/

def Span.shift (k : Nat) (s : Span) : Span := ⟨s.start + k, s.stop + k⟩

def Lexed.shift (k : Nat) (l : Lexed) : Lexed := ⟨l.token, l.span.shift k⟩

def Fault.shift (k : Nat) (f : Fault) : Fault := ⟨f.cause, f.span.shift k⟩

/-- An item of a text that stands further on. -/
def shiftItem (k : Nat) : Except Fault Lexed → Except Fault Lexed
  | .ok l => .ok (l.shift k)
  | .error f => .error (f.shift k)

theorem Span.shift_merge (k : Nat) (s t : Span) : (s.merge t).shift k = (s.shift k).merge (t.shift k) := by
  simp only [merge, shift, mk.injEq]
  omega

@[simp] theorem Lexed.shift_zero (l : Lexed) : l.shift 0 = l := rfl

@[simp] theorem Lexed.shift_token (k : Nat) (l : Lexed) : (l.shift k).token = l.token := rfl

@[simp] theorem shiftItem_zero (item : Except Fault Lexed) : shiftItem 0 item = item := by
  cases item <;> rfl

theorem map_shiftItem_zero (items : List (Except Fault Lexed)) : items.map (shiftItem 0) = items := by
  rw [List.map_congr_left (g := id) fun item _ => shiftItem_zero item, List.map_id]

theorem finishAt_shift (stop k : Nat) : (finishAt stop).shift k = finishAt (stop + k) := rfl

/-- The item at the front of a text, if its first lexeme is one, and the items behind. -/
theorem scanAt_cons (pos : Nat) (c : Char) (rest : List Char) : scanAt pos (c :: rest) =
    match Lexeme.first (c :: rest) with
    | .skipped n => scanAt (pos + byteLength ((c :: rest).take n)) (rest.drop (n - 1))
    | .token n t => .ok ⟨t, ⟨pos, pos + byteLength ((c :: rest).take n)⟩⟩ ::
        scanAt (pos + byteLength ((c :: rest).take n)) (rest.drop (n - 1))
    | .stray n => .error ⟨.strayText (String.ofList ((c :: rest).take n)),
        ⟨pos, pos + byteLength ((c :: rest).take n)⟩⟩ ::
        scanAt (pos + byteLength ((c :: rest).take n)) (rest.drop (n - 1)) := by
  rw [scanAt]
  cases h : Lexeme.first (c :: rest) <;> rfl

/-- Where a text stands does not matter for what it holds. -/
theorem scanAt_shift (pos k : Nat) (cs : List Char) : scanAt (pos + k) cs = (scanAt pos cs).map (shiftItem k) := by
  induction hn : cs.length using Nat.strong_induction_on generalizing pos cs with
  | _ n ih =>
    subst hn
    cases cs with
    | nil => rw [scanAt, scanAt, List.map_nil]
    | cons c rest =>
      have hrest : ∀ stop m, scanAt (stop + k) (rest.drop m) = (scanAt stop (rest.drop m)).map (shiftItem k) :=
        fun stop m => ih _ (by simp only [List.length_drop, List.length_cons]; omega) stop _ rfl
      rw [scanAt_cons, scanAt_cons]
      cases Lexeme.first (c :: rest) with
      | skipped n =>
        simp only [Nat.add_right_comm pos k, hrest]
      | token n t =>
        simp only [Nat.add_right_comm pos k, hrest, List.map_cons]
        rfl
      | stray n =>
        simp only [Nat.add_right_comm pos k, hrest, List.map_cons]
        rfl

/-! ## The end -/

theorem Rule.token_ne_finish {r : Rule} (hr : r ∈ table) (cs : List Char) : r.token cs ≠ some .finish := by
  rw [mem_table] at hr
  rcases hr with hr | rfl | hr | hr | ⟨p, -, rfl⟩
  · simp only [skipRules, List.mem_cons, List.not_mem_nil, or_false] at hr
    rcases hr with rfl | rfl | rfl | rfl <;> simp [skip]
  · simp only [wordRule, wordToken]
    split <;> simp
  · simp only [numberRules, List.mem_cons, List.not_mem_nil, or_false] at hr
    rcases hr with rfl | rfl | rfl | rfl | rfl | rfl | rfl <;> simp [literal]
  · simp only [quoteRules, List.mem_cons, List.not_mem_nil, or_false] at hr
    rcases hr with rfl | rfl <;> simp [literal]
  · simp [mark]

theorem Lexeme.first_ne_finish (cs : List Char) : first cs ≠ token n .finish := by
  unfold first
  split
  · simp
  · split
    · next m r hbest =>
      have hne := Rule.token_ne_finish (Rule.longest_some hbest).1 (cs.take m)
      split
      · next t ht =>
        rintro he
        obtain ⟨-, rfl⟩ := Lexeme.token.inj he
        exact hne ht
      · simp
    · simp

/-- The end of a text is no item of it. -/
theorem scanAt_ne_finish {pos : Nat} {l : Lexed} (h : .ok l ∈ scanAt pos cs) : l.token ≠ .finish := by
  fun_induction scanAt pos cs with
  | case1 => cases h
  | case2 pos c rest lexeme behind text stop n hlexeme ih => exact ih h
  | case3 pos c rest lexeme behind text stop n t hlexeme ih =>
    rcases List.mem_cons.1 h with he | h
    · cases he
      rintro rfl
      exact Lexeme.first_ne_finish _ hlexeme
    · exact ih h
  | case4 pos c rest lexeme behind text stop n hlexeme ih =>
    rcases List.mem_cons.1 h with he | h
    · cases he
    · exact ih h

end Cognate
