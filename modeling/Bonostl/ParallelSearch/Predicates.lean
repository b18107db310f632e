import Bonostl.ParallelSearch.Find

/-!
# `parallel_any_of`, `parallel_all_of` and `parallel_none_of`

A branch that sees the flag reports `false` without having looked; only the branch that set the flag
reports `true`. As calls of the search they carry its match upwards, so `parallel_any_of` returns
what `std::any_of` returns (`anyOf_returned`), and the other two, which negate it, what theirs do.
-/

namespace Bonostl.ParallelSearch

variable {α : Type} {xs : List α} {pred : α → Bool} {depth : ℕ}

variable (xs pred) in
theorem anyOfAlgo_encodes : Encodes (anyOfAlgo xs pred) fun _ o => o.isSome where
  miss _ := rfl
  hit _ := rfl
  join {mid last a d} _ _ := by
    cases d <;> cases a <;> rfl

theorem anyOf_returned {σ : List Choice} {b : Bool}
    (h : parallelAnyOfImpl xs pred depth σ = some b) : b = xs.any pred := by
  rcases returned (anyOfAlgo_encodes xs pred) h with ⟨i, rfl, blk, -, hi⟩ | ⟨rfl, hc⟩
  · obtain ⟨x, hx, hp⟩ := testsAt_iff.mp hi.test
    exact (List.any_eq_true.mpr ⟨x, List.mem_of_getElem? hx, hp⟩).symm
  · refine (List.any_eq_false.mpr fun x hx => ?_).symm
    simp [clear_iff.mp hc x hx]

/-- **The predicates agree with the std ones**, and every schedule can be followed to a result. -/
theorem predicates_agree (xs : List α) (pred : α → Bool) :
    (∀ σ b, parallelAnyOf xs pred σ = some b → b = xs.any pred) ∧
    (∀ σ b, parallelAllOf xs pred σ = some b → b = xs.all pred) ∧
    (∀ σ b, parallelNoneOf xs pred σ = some b → b = !xs.any pred) ∧
    (∀ σ x, (anyOfAlgo xs pred).run σ (false, .enter 0 xs.length 8) = some x →
      ∃ τ b b', parallelAnyOf xs pred (σ ++ τ) = some b ∧
        parallelNoneOf xs pred (σ ++ τ) = some b') ∧
    ∀ σ x, (anyOfAlgo xs fun v => !pred v).run σ (false, .enter 0 xs.length 8) = some x →
      ∃ τ b, parallelAllOf xs pred (σ ++ τ) = some b := by
  refine ⟨fun σ b h => anyOf_returned h, fun σ b h => ?_, fun σ b h => ?_, fun σ x h => ?_,
    fun σ x h => ?_⟩
  · obtain ⟨b', h', rfl⟩ := Option.map_eq_some_iff.mp h
    rw [anyOf_returned h', List.not_any_eq_all_not]
    simp
  · obtain ⟨b', h', rfl⟩ := Option.map_eq_some_iff.mp h
    rw [anyOf_returned h']
  · obtain ⟨-, τ, b, hb⟩ := completes (anyOfAlgo_encodes xs pred) h
    exact ⟨τ, b, !b, hb, congrArg (Option.map fun b => !b) hb⟩
  · obtain ⟨-, τ, b, hb⟩ := completes (anyOfAlgo_encodes xs _) h
    exact ⟨τ, !b, congrArg (Option.map fun b => !b) hb⟩

/-- The second half sets the flag; the first half reports `false` without having looked. -/
theorem predicates_agree_aborted :
    parallelAnyOf (List.replicate 50 7) (fun x => x == 7)
        ([⟨[], true⟩, ⟨[], true⟩] ++ List.replicate 4 ⟨[.async], true⟩ ++
          List.replicate 2 ⟨[.direct], true⟩ ++ [⟨[], true⟩]) = some true ∧
      true = (List.replicate 50 7).any fun x => x == 7 := by
  have h : parallelAnyOf (List.replicate 50 7) (fun x => x == 7)
      ([⟨[], true⟩, ⟨[], true⟩] ++ List.replicate 4 ⟨[.async], true⟩ ++
        List.replicate 2 ⟨[.direct], true⟩ ++ [⟨[], true⟩]) = some true := by decide
  exact ⟨h, (predicates_agree (List.replicate 50 7) fun x => x == 7).1 _ _ h⟩

end Bonostl.ParallelSearch
