import Bonostl.ParallelAccumulate.Returns

/-!
# `parallel_accumulate` is the sequential fold

Block by block the block results fold to the fold of the elements, where `op` takes a block's result
as it would take the block's elements (`fold_blocks`). With one associative `op` it does, and what
is returned is what `std::accumulate` returns (`accumulate_match`).
-/

namespace Bonostl.ParallelAccumulate

open Interleaving Blocks

section
variable {V T : Type} {o : Op V T} {D : Layout} {n : ℕ} {x : ℕ → V} {init : T}

/-- The block results up to a block fold to the fold of the elements before it. -/
theorem fold_blocks (hD : Division n D.numThreads D.first) (ho : ∀ b < D.numThreads, ∀ acc,
      o.merge acc (o.wide (blockTotal o D x b)) = fold o.mixed x acc (D.first b) (D.first (b + 1)))
    {k : ℕ} (hk : k ≤ D.numThreads) :
    fold o.merge (fun b => o.wide (blockTotal o D x b)) init 0 k =
      fold o.mixed x init 0 (D.first k) := by
  induction k with
  | zero => rw [hD.zero, fold_self, fold_self]
  | succ k ih =>
    have hlt := hD.lt k hk
    rw [fold_succ (Nat.zero_le k), ih (Nat.le_of_lt hk), ho k hk,
      ← fold_append (Nat.zero_le _) hlt.le]

/-- A divided range, with one associative `op`. -/
theorem value_long {α : Type} {op : α → α → α} (hop : ∀ a b c, op (op a b) c = op a (op b c))
    {x : ℕ → α} {init : α} (hD : Division n D.numThreads D.first) (hn : D.Long) :
    value (.plain op) D n x init = fold op x init 0 n := by
  rw [value_divided hn.1]
  refine (fold_blocks (o := .plain op) hD (fun b hb acc => ?_) (le_refl _)).trans ?_
  · exact op_reduce hop acc (hD.lt b hb)
  · rw [hD.last]
    rfl
end

/-- **`parallel_accumulate` returns what `std::accumulate` returns**, and the blocks divide the
range. -/
theorem accumulate_match {α : Type} [Inhabited α] (op : α → α → α)
    (hop : ∀ a b c, op (op a b) c = op a (op b c)) (init : α) (hardware n : ℕ) (x : ℕ → α) :
    (∀ h c r, AccumulateRun (.plain op) hardware n x init h c → c.loc .main = .ret r →
      r = fold op x init 0 n) ∧
    (∀ h c, AccumulateRun (.plain op) hardware n x init h c →
      ∃ h' c', AccumulateRun (.plain op) hardware n x init (h' ++ h) c' ∧ Returned c') ∧
    (0 < n →
      (∀ b < numThreads hardware n, blockFirst hardware n b < blockFirst hardware n (b + 1)) ∧
      blockFirst hardware n 0 = 0 ∧ blockFirst hardware n (numThreads hardware n) = n ∧
      ∀ j < n, ∃! b, b < numThreads hardware n ∧
        blockFirst hardware n b ≤ j ∧ j < blockFirst hardware n (b + 1)) := by
  refine ⟨fun h c r hr hl => ?_, fun h c hr => completes hr, fun hn => ?_⟩
  · rw [returned hr hl]
    by_cases hshort : n < 2 * minPerThread
    · exact value_short hshort
    · have hn : (layout hardware n).Long :=
        ⟨hshort, (numThreads_pos hardware (pos_of_long hshort)).ne'⟩
      exact value_long hop (layout_division hn) hn
  · refine ⟨fun b hb => blockFirst_lt hn hb, blockFirst_zero, blockFirst_num hn, fun j hj => ?_⟩
    obtain ⟨b, hb, hin⟩ := exists_block hardware hn hj
    exact ⟨b, ⟨hb, hin⟩, fun b' hb' => block_unique hn hb'.1 hb hb'.2 hin⟩

/-- With an `op` that is not commutative and has no identity. -/
theorem accumulate_match_left :
    ∃ h c, AccumulateRun (.plain fun a _ : ℕ => a) 3 100 id 7 h c ∧ c.loc .main = .ret 7 := by
  obtain ⟨h, c, hr, r, hl⟩ := completes
    (Program.Run.nil : AccumulateRun (.plain fun a _ : ℕ => a) 3 100 id 7 [] initial)
  have hval := (accumulate_match (fun a _ : ℕ => a) (fun _ _ _ => rfl) 7 3 100 id).1 _ c r hr hl
  have hfold : fold (fun a _ : ℕ => a) id 7 0 100 = 7 := by decide
  exact ⟨h ++ [], c, hr, (hval.trans hfold) ▸ hl⟩

end Bonostl.ParallelAccumulate
