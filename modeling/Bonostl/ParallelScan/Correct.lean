import Bonostl.ParallelScan.Returns

/-!
# The parallel scans are the sequential ones

A block that starts with what a std scan of the whole range has carried to it writes what the std
scan writes there (`outputs_of_seeds`). The carries and seeds computed from the block totals are
just that where `op` is associative (`inclusive_seeds`, `exclusive_seeds`): the totals are folded
from the first element of their block, so neither an identity nor commutativity is needed. Hence
`scans_match`, for `out` apart from the input or equal to `first`, whatever `hardware_concurrency()`
is and in whatever order the tasks run.
-/

namespace Bonostl.ParallelScan

open Interleaving Blocks

/-! ## The std scans -/

/-- What `std::inclusive_scan` writes at position `j`. -/
def inclusiveScan {V : Type} (op : V → V → V) (x : ℕ → V) (j : ℕ) : V := reduce op x 0 (j + 1)

/-- What `std::exclusive_scan` writes at position `j`. -/
def exclusiveScan {V T : Type} (op : T → V → T) (init : T) (x : ℕ → V) (j : ℕ) : T :=
  fold op x init 0 j

section
variable {n : ℕ} {M V S T : Type} {A : Scanner V S T} {R : Ranges n M V T} {hardware : ℕ} {m₀ : M}
  {w : ℕ → T}

/-- Blocks that start with what a scan of the whole range has carried to them write what it
writes. -/
theorem outputs_of_seeds (hw : Outputs A R hardware m₀ w)
    (hseeds : ¬ Alone hardware n → ∀ b < numThreads hardware n, blockSeed A R hardware m₀ b =
      stateAt A (R.read m₀) A.init 0 (blockFirst hardware n b)) :
    ∀ j < n, w j = emitAt A (R.read m₀) A.init 0 j := by
  intro j hj
  unfold Outputs at hw
  split at hw
  · exact hw j hj
  · rename_i ha
    obtain ⟨b, hb, h1, h2⟩ := exists_block hardware (Nat.zero_lt_of_lt hj) hj
    rw [hw b hb j h1 h2, hseeds ha b hb]
    unfold emitAt
    rw [stateAt_append (Nat.zero_le _) h1]
end

section
variable {n : ℕ} {M V : Type} [Inhabited V] {op : V → V → V} {R : Ranges n M V V} {hardware : ℕ}
  {m₀ : M} {x : ℕ → V}

theorem inclusive_state (j : ℕ) : stateAt (parallelInclusiveScan op) x none 0 j =
    if j = 0 then none else some (reduce op x 0 j) := by
  induction j with
  | zero => exact stateAt_first
  | succ j ih =>
    rw [stateAt_succ (Nat.zero_le j), ih, if_neg (Nat.succ_ne_zero j)]
    rcases Nat.eq_zero_or_pos j with rfl | hj
    · rw [if_pos rfl, reduce_one]
      rfl
    · rw [if_neg hj.ne', reduce_succ hj]
      rfl

theorem inclusive_emit (j : ℕ) :
    emitAt (parallelInclusiveScan op) x none 0 j = inclusiveScan op x j := by
  unfold emitAt inclusiveScan
  rw [inclusive_state]
  rcases Nat.eq_zero_or_pos j with rfl | hj
  · rw [if_pos rfl, reduce_one]
    rfl
  · rw [if_neg hj.ne', reduce_succ hj]
    rfl

/-- A carry is the reduction of all blocks before it. -/
theorem carries_eq (hop : ∀ a b c, op (op a b) c = op a (op b c)) {b : ℕ}
    (hb : b + 1 < numThreads hardware n) :
    carries op (blockTotal (parallelInclusiveScan op) R hardware m₀) (b + 1) =
      reduce op (R.read m₀) 0 (blockFirst hardware n (b + 1)) := by
  induction b with
  | zero => rfl
  | succ b ih =>
    have hlt := blockFirst_lt (length_pos hb) (show b + 1 < numThreads hardware n by omega)
    have hpos := (Nat.zero_le _).trans_lt
      (blockFirst_lt (length_pos hb) (show b < numThreads hardware n by omega))
    rw [carries, if_neg (by omega), ih (by omega)]
    exact (op_reduce hop _ hlt).trans (fold_append hpos hlt.le).symm

theorem inclusive_seeds (hop : ∀ a b c, op (op a b) c = op a (op b c)) {b : ℕ}
    (hb : b < numThreads hardware n) :
    blockSeed (parallelInclusiveScan op) R hardware m₀ b =
      stateAt (parallelInclusiveScan op) (R.read m₀) none 0 (blockFirst hardware n b) := by
  cases b with
  | zero => exact stateAt_first.symm
  | succ b =>
    have hpos := (Nat.zero_le _).trans_lt
      (blockFirst_lt (length_pos hb) (show b < numThreads hardware n by omega))
    rw [inclusive_state, if_neg hpos.ne', ← carries_eq hop hb]
    rfl
end

section
variable {n : ℕ} {M V T : Type} {op : V → V → V} {opT : T → V → T} {init : T} {R : Ranges n M V T}
  {hardware : ℕ} {m₀ : M}

/-- Where `opT` takes a block total as it would take the block's elements, a seed is what a scan of
the whole range has carried to the block; the total of the last block is not asked for. -/
theorem exclusive_seeds
    (hop : ∀ b, b + 1 < numThreads hardware n → ∀ acc,
      opT acc (blockTotal (parallelExclusiveScan op opT init) R hardware m₀ b) =
        fold opT (R.read m₀) acc (blockFirst hardware n b) (blockFirst hardware n (b + 1)))
    {b : ℕ} (hb : b < numThreads hardware n) :
    blockSeed (parallelExclusiveScan op opT init) R hardware m₀ b =
      fold opT (R.read m₀) init 0 (blockFirst hardware n b) := by
  induction b with
  | zero => exact fold_self.symm
  | succ b ih =>
    have hb' : b < numThreads hardware n := by omega
    have hlt := blockFirst_lt (length_pos hb) hb'
    calc blockSeed (parallelExclusiveScan op opT init) R hardware m₀ (b + 1)
        = opT (blockSeed (parallelExclusiveScan op opT init) R hardware m₀ b)
            (blockTotal (parallelExclusiveScan op opT init) R hardware m₀ b) := rfl
      _ = fold opT (R.read m₀) (fold opT (R.read m₀) init 0 (blockFirst hardware n b))
            (blockFirst hardware n b) (blockFirst hardware n (b + 1)) := by rw [ih hb', hop b hb]
      _ = fold opT (R.read m₀) init 0 (blockFirst hardware n (b + 1)) :=
          (fold_append (Nat.zero_le _) hlt.le).symm
end

/-! ## The parallel scans -/

/-- A scan writes `spec`, nothing else, and returns the end of the output. -/
def Writes {α S : Type} [Inhabited α] (A : Scanner α S α) (hardware n first out : ℕ)
    (hout : out = first ∨ first + n ≤ out ∨ out + n ≤ first) (m₀ : ℕ → α) (spec : ℕ → α) : Prop :=
  (∀ h c it, ScanRun A (oneMemory n first out hout) hardware out m₀ h c → c.loc .main = .ret it →
    it = out + n ∧ (∀ j < n, c.shared.mem (out + j) = spec j) ∧
      ∀ a, a < out ∨ out + n ≤ a → c.shared.mem a = m₀ a) ∧
  ∀ h c, ScanRun A (oneMemory n first out hout) hardware out m₀ h c →
    ∃ h' c', ScanRun A (oneMemory n first out hout) hardware out m₀ (h' ++ h) c' ∧ Returned c'

section
variable {α S : Type} [Inhabited α] {A : Scanner α S α} {hardware n first out : ℕ}
  {hout : out = first ∨ first + n ≤ out ∨ out + n ≤ first} {m₀ : ℕ → α}

theorem writes_of_seeds (hseeds : ∀ b < numThreads hardware n,
    blockSeed A (oneMemory n first out hout) hardware m₀ b =
      stateAt A (fun i => m₀ (first + i)) A.init 0 (blockFirst hardware n b)) :
    Writes A hardware n first out hout m₀ (emitAt A (fun i => m₀ (first + i)) A.init 0) := by
  refine ⟨fun h c it hr hl => ?_, fun h c hr => completes hr⟩
  obtain ⟨hit, houtputs⟩ := returned hr hl
  refine ⟨hit, outputs_of_seeds houtputs fun _ => hseeds, fun a ha => ?_⟩
  refine untouched (p := fun m => m a = m₀ a) (fun m i v hi hm => ?_) rfl hr
  exact (Function.update_of_ne (by omega) _ _).trans hm
end

/-- **The parallel scans write what the sequential ones write.** -/
theorem scans_match {α : Type} [Inhabited α] (op : α → α → α)
    (hop : ∀ a b c, op (op a b) c = op a (op b c)) (init : α) (hardware n first out : ℕ)
    (hout : out = first ∨ first + n ≤ out ∨ out + n ≤ first) (m₀ : ℕ → α) :
    Writes (parallelInclusiveScan op) hardware n first out hout m₀
        (inclusiveScan op fun i => m₀ (first + i)) ∧
      Writes (parallelExclusiveScan op op init) hardware n first out hout m₀
        (exclusiveScan op init fun i => m₀ (first + i)) := by
  constructor
  · have hw : Writes (parallelInclusiveScan op) hardware n first out hout m₀ _ :=
      writes_of_seeds fun b hb => inclusive_seeds hop hb
    have hspec : emitAt (parallelInclusiveScan op) (fun i => m₀ (first + i)) none 0 =
        inclusiveScan op fun i => m₀ (first + i) := funext inclusive_emit
    exact hspec ▸ hw
  · refine writes_of_seeds fun _ hb => exclusive_seeds (fun b hb acc => ?_) hb
    exact op_reduce hop acc (blockFirst_lt (length_pos hb) (Nat.lt_of_succ_lt hb))

/-- In place, with an `op` that is not commutative and has no identity. -/
theorem scans_match_left :
    Writes (parallelInclusiveScan fun a _ : ℕ => a) 3 100 0 0 (.inl rfl) id
      (inclusiveScan (fun a _ => a) fun i => 0 + i) :=
  (scans_match (fun a _ : ℕ => a) (fun _ _ _ => rfl) 7 3 100 0 0 (.inl rfl) id).1

end Bonostl.ParallelScan
