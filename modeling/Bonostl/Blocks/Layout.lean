import Mathlib.Algebra.Order.Ring.Nat
import Mathlib.Tactic.Linarith

/-!
# How a range is divided into blocks

`parallel_inclusive_scan`, `parallel_exclusive_scan` and `parallel_accumulate` divide a range of
`length` elements into `num_threads` blocks of `block_size` elements each; the last block takes what
is left over. There are at least two blocks' worth of elements (`hardware_concurrency` permitting),
never more blocks than one for every 25 elements.

* `blockFirst_lt`: no block is empty;
* `blockFirst_zero`, `blockFirst_num`: the blocks begin and end with the range, each where the one
  before it ends;
* `exists_block`, `block_unique`: an element is in one block.

`Division` is what these say, for any blocks.
-/

namespace Bonostl.Blocks

/-! ## Blocks -/

/-- `num` blocks, not empty, that make up a range of `n` elements; block `b` begins at `first b`. -/
structure Division (n num : ℕ) (first : ℕ → ℕ) : Prop where
  pos : 0 < num
  zero : first 0 = 0
  last : first num = n
  lt : ∀ b < num, first b < first (b + 1)

namespace Division

variable {n num : ℕ} {first : ℕ → ℕ} {i j b b' : ℕ}

theorem mono (h : Division n num first) (hij : i ≤ j) (hj : j ≤ num) : first i ≤ first j := by
  induction j, hij using Nat.le_induction with
  | base => exact le_refl _
  | succ j _ ih => exact (ih (by omega)).trans (h.lt j hj).le

theorem le (h : Division n num first) (hb : b ≤ num) : first b ≤ n :=
  (h.mono hb (le_refl _)).trans_eq h.last

/-- The blocks cover the range. -/
theorem exists_block (h : Division n num first) (hj : j < n) :
    ∃ b < num, first b ≤ j ∧ j < first (b + 1) := by
  have hend : j < first num := by rwa [h.last]
  have hfrom : ∀ k ≤ num, j < first k → ∃ b < k, first b ≤ j ∧ j < first (b + 1) := by
    intro k
    induction k with
    | zero =>
      intro _ hlt
      simp [h.zero] at hlt
    | succ k ih =>
      intro hk hlt
      rcases Nat.lt_or_ge j (first k) with hjk | hjk
      · obtain ⟨b, hb, hin⟩ := ih (by omega) hjk
        exact ⟨b, by omega, hin⟩
      · exact ⟨k, by omega, hjk, hlt⟩
  exact hfrom _ (le_refl _) hend

/-- Two blocks with a common element are the same. -/
theorem unique (h : Division n num first) (hb : b < num) (hb' : b' < num)
    (hj : first b ≤ j ∧ j < first (b + 1)) (hj' : first b' ≤ j ∧ j < first (b' + 1)) : b = b' := by
  have hle : ∀ {k k' : ℕ}, k' < num → j < first (k + 1) → first k' ≤ j → ¬ k < k' := by
    intro k k' hk' hlt hge hlt'
    have hmono : first (k + 1) ≤ first k' := h.mono hlt' hk'.le
    omega
  have h1 := hle hb' hj.2 hj'.1
  have h2 := hle hb hj'.2 hj.1
  omega

end Division

/-! ## The blocks of a range -/

/-- `min_per_thread`. -/
def minPerThread : ℕ := 25

/-- `max_threads`. -/
def maxThreads (length : ℕ) : ℕ := (length + minPerThread - 1) / minPerThread

/-- `hardware` is what `hardware_concurrency()` returns. -/
def numThreads (hardware length : ℕ) : ℕ :=
  min (if hardware ≠ 0 then hardware else 2) (maxThreads length)

/-- `block_size`. -/
def blockSize (hardware length : ℕ) : ℕ := length / numThreads hardware length

/-- Where block `i` begins: `block_first` in round `i` of the loop. The block ends where the next
one begins, the last one at the end of the range. -/
def blockFirst (hardware length : ℕ) : ℕ → ℕ
  | 0 => 0
  | i + 1 =>
    if i + 1 = numThreads hardware length then length
    else blockFirst hardware length i + blockSize hardware length

variable {hardware length i j b b' : ℕ}

@[simp] theorem blockFirst_zero : blockFirst hardware length 0 = 0 := rfl

theorem numThreads_pos (hardware : ℕ) (h : 0 < length) : 0 < numThreads hardware length := by
  have hmax : 0 < maxThreads length := by
    unfold maxThreads minPerThread
    omega
  unfold numThreads
  split <;> omega

/-- An empty range has no blocks. -/
theorem length_pos (hb : b < numThreads hardware length) : 0 < length := by
  rcases Nat.eq_zero_or_pos length with rfl | h
  · simp [numThreads, maxThreads, minPerThread] at hb
  · exact h

theorem numThreads_le (hardware : ℕ) (h : 0 < length) : numThreads hardware length ≤ length := by
  have hmax : maxThreads length ≤ length := by
    unfold maxThreads minPerThread
    omega
  exact (min_le_right _ _).trans hmax

theorem blockSize_pos (hardware : ℕ) (h : 0 < length) : 0 < blockSize hardware length :=
  Nat.div_pos (numThreads_le hardware h) (numThreads_pos hardware h)

theorem blockFirst_eq (hi : i < numThreads hardware length) :
    blockFirst hardware length i = i * blockSize hardware length := by
  induction i with
  | zero => simp
  | succ i ih =>
    rw [blockFirst, if_neg hi.ne, ih (by omega), Nat.succ_mul]

theorem blockFirst_num (h : 0 < length) :
    blockFirst hardware length (numThreads hardware length) = length := by
  obtain ⟨k, hk⟩ := Nat.exists_eq_succ_of_ne_zero (numThreads_pos hardware h).ne'
  rw [hk]
  exact if_pos hk.symm

/-- No block is empty. -/
theorem blockFirst_lt (h : 0 < length) (hb : b < numThreads hardware length) :
    blockFirst hardware length b < blockFirst hardware length (b + 1) := by
  have hpos := blockSize_pos hardware h
  rw [blockFirst]
  split
  · -- the last block: at least as long as the others
    rename_i hlast
    have hmul : numThreads hardware length * blockSize hardware length ≤ length :=
      Nat.mul_div_le _ _
    rw [← hlast, Nat.succ_mul] at hmul
    rw [blockFirst_eq hb]
    omega
  · omega

/-- **The blocks divide the range.** -/
theorem division (hardware : ℕ) (h : 0 < length) :
    Division length (numThreads hardware length) (blockFirst hardware length) :=
  ⟨numThreads_pos hardware h, rfl, blockFirst_num h, fun _ hb => blockFirst_lt h hb⟩

theorem blockFirst_le (h : 0 < length) (hb : b ≤ numThreads hardware length) :
    blockFirst hardware length b ≤ length :=
  (division hardware h).le hb

/-- The blocks cover the range. -/
theorem exists_block (hardware : ℕ) (h : 0 < length) (hj : j < length) :
    ∃ b < numThreads hardware length,
    blockFirst hardware length b ≤ j ∧ j < blockFirst hardware length (b + 1) :=
  (division hardware h).exists_block hj

/-- Two blocks with a common element are the same. -/
theorem block_unique (h : 0 < length) (hb : b < numThreads hardware length)
    (hb' : b' < numThreads hardware length)
    (hj : blockFirst hardware length b ≤ j ∧ j < blockFirst hardware length (b + 1))
    (hj' : blockFirst hardware length b' ≤ j ∧ j < blockFirst hardware length (b' + 1)) :
    b = b' :=
  (division hardware h).unique hb hb' hj hj'

/-- Fifty elements are two blocks, however many threads there are. -/
example : (List.range 3).map (blockFirst 8 50) = [0, 25, 50] := by decide

end Bonostl.Blocks
