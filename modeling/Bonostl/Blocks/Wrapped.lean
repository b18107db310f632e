import Bonostl.Blocks.Layout

/-!
# Blocks from a length of `w` bits

`length` is an `unsigned long`: the number of elements modulo `2 ^ w`, and so is `length +
min_per_thread - 1`. The last block ends where the range ends, whatever `length` is. So the blocks
divide a range of any size, unless `length` is zero or so near to `2 ^ w` that the sum wraps
(`wrapped_division`); in that case no thread is asked for (`numThreadsOf_wraps`). Where the sum of
the true length does not wrap, they are the blocks of `Blocks.Layout` (`exact_blocks`).
-/

namespace Bonostl.Blocks

/-- `std::distance(first, last)` as an `unsigned long`. -/
def lengthOf (w n : ℕ) : ℕ := n % 2 ^ w

/-- `num_threads`, with the sum in `unsigned long`. -/
def numThreadsOf (w hardware length : ℕ) : ℕ :=
  min (if hardware ≠ 0 then hardware else 2) ((length + minPerThread - 1) % 2 ^ w / minPerThread)

/-- Where block `i` of a range of `n` elements begins; the block size is `length / num_threads`. -/
def blockBegin (w hardware n i : ℕ) : ℕ :=
  if i = numThreadsOf w hardware (lengthOf w n) then n
  else i * (lengthOf w n / numThreadsOf w hardware (lengthOf w n))

/-- The sum does not wrap. -/
def Divides (w n : ℕ) : Prop := 0 < lengthOf w n ∧ lengthOf w n + minPerThread - 1 < 2 ^ w

instance (w n : ℕ) : Decidable (Divides w n) := inferInstanceAs (Decidable (_ ∧ _))

variable {w hardware n : ℕ}

theorem lengthOf_lt (w n : ℕ) : lengthOf w n < 2 ^ w := Nat.mod_lt _ (Nat.two_pow_pos w)

theorem lengthOf_le (w n : ℕ) : lengthOf w n ≤ n := Nat.mod_le _ _

theorem numThreadsOf_eq (h : Divides w n) :
    numThreadsOf w hardware (lengthOf w n) = numThreads hardware (lengthOf w n) := by
  unfold numThreadsOf numThreads maxThreads
  rw [Nat.mod_eq_of_lt h.2]

/-- No thread is asked for. -/
theorem numThreadsOf_wraps (h : ¬ Divides w n) : numThreadsOf w hardware (lengthOf w n) = 0 := by
  have hlt := lengthOf_lt w n
  have hmax : (lengthOf w n + minPerThread - 1) % 2 ^ w < minPerThread := by
    unfold Divides minPerThread at *
    rcases Nat.eq_zero_or_pos (lengthOf w n) with h0 | hpos
    · rw [h0]
      exact (Nat.mod_le _ _).trans_lt (by omega)
    · rw [Nat.mod_eq_sub_mod (by omega)]
      exact (Nat.mod_le _ _).trans_lt (by omega)
  rw [numThreadsOf, Nat.div_eq_of_lt hmax]
  exact Nat.min_zero _

theorem blockBegin_eq (h : Divides w n) {i : ℕ} (hi : i < numThreadsOf w hardware (lengthOf w n)) :
    blockBegin w hardware n i = blockFirst hardware (lengthOf w n) i := by
  unfold blockBegin
  rw [if_neg hi.ne]
  rw [numThreadsOf_eq h] at hi ⊢
  exact (blockFirst_eq hi).symm

/-- **A length that fits is exact**, and its blocks are those of an unbounded one. -/
theorem exact_blocks (h : n + minPerThread - 1 < 2 ^ w) :
    lengthOf w n = n ∧ numThreadsOf w hardware (lengthOf w n) = numThreads hardware n ∧
      ∀ i ≤ numThreads hardware n, blockBegin w hardware n i = blockFirst hardware n i := by
  have hlen : lengthOf w n = n := Nat.mod_eq_of_lt (by unfold minPerThread at h; omega)
  have hnum : numThreadsOf w hardware (lengthOf w n) = numThreads hardware n := by
    unfold numThreadsOf numThreads maxThreads
    rw [hlen, Nat.mod_eq_of_lt h]
  refine ⟨hlen, hnum, fun i hi => ?_⟩
  rcases hi.lt_or_eq with hlt | rfl
  · have hpos : 0 < n := length_pos (b := i) (by omega)
    have hd : Divides w n := ⟨by rwa [hlen], by rwa [hlen]⟩
    rw [blockBegin_eq hd (by rwa [hnum]), hlen]
  · rw [blockBegin, if_pos hnum.symm]
    rcases Nat.eq_zero_or_pos n with rfl | hpos
    · have hzero : numThreads hardware 0 = 0 := Nat.min_zero _
      rw [hzero]
      rfl
    · exact (blockFirst_num hpos).symm

/-- **The blocks divide the range**, also one whose length has been truncated. -/
theorem wrapped_division (h : Divides w n) :
    Division n (numThreadsOf w hardware (lengthOf w n)) (blockBegin w hardware n) := by
  have hd := division hardware h.1
  refine ⟨?_, ?_, if_pos rfl, fun b hb => ?_⟩
  · rw [numThreadsOf_eq h]
    exact hd.pos
  · rw [blockBegin_eq h]
    · exact hd.zero
    · rw [numThreadsOf_eq h]
      exact hd.pos
  · rw [blockBegin_eq h hb]
    have hlt := hd.lt b (by rwa [numThreadsOf_eq h] at hb)
    by_cases hlast : b + 1 = numThreadsOf w hardware (lengthOf w n)
    · have hle := hd.le (b := b + 1) (by rw [← numThreadsOf_eq h]; exact hlast.le)
      rw [blockBegin, if_pos hlast]
      exact hlt.trans_le (hle.trans (lengthOf_le w n))
    · rwa [blockBegin_eq h (by omega)]

end Bonostl.Blocks
