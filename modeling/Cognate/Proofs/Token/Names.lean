import Cognate.Proofs.Unit.Written
import Cognate.Token.Stream

/-!
# Names in a text

Every name that the tokens of a text hold is a word and no keyword.
-/

namespace Cognate

variable {cs : List Char} {n : Nat} {text : String}

theorem Rule.longest_some {rules : List Rule} {r : Rule} (h : Rule.longest cs rules = some (n, r)) :
    r ∈ rules ∧ r.munch cs = some n := by
  induction rules generalizing n r with
  | nil => cases h
  | cons first rest ih =>
    simp only [Rule.longest] at h
    split at h
    · next m k s hm hk =>
      split_ifs at h
      · cases h
        exact ⟨by simp, hm⟩
      · cases h
        obtain ⟨hmem, hmunch⟩ := ih hk
        exact ⟨by simp [hmem], hmunch⟩
    · next m hm _ =>
      cases h
      exact ⟨by simp, hm⟩
    · obtain ⟨hmem, hmunch⟩ := ih h
      exact ⟨by simp [hmem], hmunch⟩

/-- Only the rule for words makes names. -/
theorem Rule.name_of_mem {r : Rule} {ds : List Char} (hr : r ∈ Rule.table) (h : r.token ds = some (.name text)) :
    r.munch = word ∧ text = String.ofList ds ∧ Keyword.ofSpelling? text = none := by
  have hliteral : ∀ (c : LiteralClass) munch, (Rule.literal c munch).token ds ≠ some (.name text) := by
    intro c munch he
    simp [Rule.literal] at he
  have hskip : ∀ munch, (Rule.skip munch).token ds ≠ some (.name text) := by
    intro munch he
    simp [Rule.skip] at he
  rcases List.mem_append.1 hr with hr | hr
  · simp only [List.mem_cons, List.not_mem_nil, or_false] at hr
    rcases hr with rfl | rfl | rfl | rfl | rfl | hr
    · exact absurd h (hskip _)
    · exact absurd h (hskip _)
    · exact absurd h (hskip _)
    · exact absurd h (hskip _)
    · simp only [Rule.wordToken, Option.some.injEq] at h
      split at h
      · cases h
      · next hfree =>
        cases h
        exact ⟨rfl, rfl, hfree⟩
    · rcases hr with rfl | rfl | rfl | rfl | rfl | rfl | rfl | rfl | rfl <;> exact absurd h (hliteral _ _)
  · obtain ⟨p, -, rfl⟩ := List.mem_map.1 hr
    simp [Rule.mark] at h

theorem take_run (p : Char → Bool) (cs : List Char) : cs.take (run p cs) = cs.takeWhile p :=
  (List.prefix_iff_eq_take.1 (List.takeWhile_prefix p)).symm

theorem isName_of_first (h : Lexeme.first cs = .token n (.name text)) : IsName text := by
  unfold Lexeme.first at h
  split at h
  · cases h
  · split at h
    · next m r hlongest =>
      obtain ⟨hmem, hmunch⟩ := Rule.longest_some hlongest
      split at h
      · next t ht =>
        cases h
        obtain ⟨hword, rfl, hfree⟩ := Rule.name_of_mem hmem ht
        refine ⟨?_, hfree⟩
        rw [hword] at hmunch
        cases cs with
        | nil => cases hmunch
        | cons c rest =>
          simp only [word] at hmunch
          split_ifs at hmunch with hstart
          cases hmunch
          refine ⟨c, rest.takeWhile isWordRest, ?_, hstart, List.all_takeWhile⟩
          rw [String.toList_ofList, Nat.add_comm, List.take_succ_cons, take_run]
      · cases h
    · cases h

theorem scanAt_names {pos : Nat} {l : Lexed} (h : .ok l ∈ scanAt pos cs) (ht : l.token = .name text) : IsName text := by
  fun_induction scanAt pos cs with
  | case1 => cases h
  | case2 pos c rest lexeme behind text stop n hlexeme ih => exact ih h
  | case3 pos c rest lexeme behind text stop n t hlexeme ih =>
    rcases List.mem_cons.1 h with he | h
    · cases he
      exact isName_of_first (hlexeme.trans (by rw [← ht]))
    · exact ih h
  | case4 pos c rest lexeme behind text stop n hlexeme ih =>
    rcases List.mem_cons.1 h with he | h
    · cases he
    · exact ih h

end Cognate
