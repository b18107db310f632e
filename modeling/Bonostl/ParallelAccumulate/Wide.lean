import Mathlib.Algebra.BigOperators.Ring.Finset
import Bonostl.Blocks.Sum
import Bonostl.ParallelAccumulate.Correct

/-!
# `parallel_accumulate` with an `init` wider than the elements

A range of fewer than 50 elements is added up in the type of `init`; the blocks of a longer one are
reduced in the element type (`accumulate_block`), and only their results are converted. A block
loses what its sum has above `w` bits, and what one block loses may be made up for by what the
others lose: the result is that of `std::accumulate` exactly if what all of them lose together is
worth a multiple of `2 ^ W` (`accumulate_wide_iff`). `accumulate_wide_loses` is a range of 50
one-byte elements.
-/

namespace Bonostl.ParallelAccumulate

open Interleaving Blocks

variable {w W hardware n : ℕ} {x : ℕ → BitVec w} {init : BitVec W}

/-- `std::plus<>` on `w`-bit elements and an `init` of `W` bits. -/
def plusOp (w W : ℕ) : Op (BitVec w) (BitVec W) where
  element := (· + ·)
  mixed := plusWide w W
  wide v := v.setWidth W
  merge := (· + ·)

/-- Every run that returns has returned what `std::accumulate` returns. -/
def AccumulatesWide (hardware n : ℕ) (x : ℕ → BitVec w) (init : BitVec W) : Prop :=
  ∀ h c r, AccumulateRun (plusOp w W) hardware n x init h c → c.loc .main = .ret r →
    r = fold (plusWide w W) x init 0 n

/-- The sum of a block, as a number. -/
def blockSum (hardware n : ℕ) (x : ℕ → BitVec w) (b : ℕ) : ℕ :=
  sumOf x (blockFirst hardware n b) (blockFirst hardware n (b + 1))

/-- What the blocks lose together, in units of `2 ^ w`. -/
def lost (hardware n : ℕ) (x : ℕ → BitVec w) : ℕ :=
  (Finset.range (numThreads hardware n)).sum fun b => blockSum hardware n x b / 2 ^ w

/-- The blocks' sums add up to that of the range. -/
theorem sum_blockSum {k : ℕ} (hk : k ≤ numThreads hardware n) :
    (Finset.range k).sum (blockSum hardware n x) = sumOf x 0 (blockFirst hardware n k) := by
  induction k with
  | zero => simp [sumOf]
  | succ k ih =>
    have hlt := blockFirst_lt (length_pos hk) hk
    rw [Finset.sum_range_succ, ih (Nat.le_of_lt hk)]
    exact Finset.sum_Ico_consecutive _ (Nat.zero_le _) hlt.le

theorem toNat_merge (f : ℕ → BitVec W) (k : ℕ) :
    (fold (· + ·) f init 0 k).toNat =
      (init.toNat + (Finset.range k).sum fun b => (f b).toNat) % 2 ^ W := by
  induction k with
  | zero => simp [Nat.mod_eq_of_lt init.isLt]
  | succ k ih =>
    rw [fold_succ (Nat.zero_le k), BitVec.toNat_add, ih, Finset.sum_range_succ, Nat.mod_add_mod,
      Nat.add_assoc]

/-- A divided range is worth the blocks' sums modulo `2 ^ w`. -/
theorem toNat_value (hwW : w ≤ W) (hlong : ¬ n < 2 * minPerThread) :
    (value (plusOp w W) (layout hardware n) n x init).toNat = (init.toNat +
      (Finset.range (numThreads hardware n)).sum
        fun b => blockSum hardware n x b % 2 ^ w) % 2 ^ W := by
  rw [value_divided hlong]
  refine (toNat_merge _ _).trans ?_
  congr 2
  refine Finset.sum_congr rfl fun b hb => ?_
  have hlt := blockFirst_lt (pos_of_long hlong) (Finset.mem_range.mp hb)
  exact (BitVec.toNat_setWidth_of_le hwW).trans (toNat_reduce hlt)

/-- What the blocks lose is worth nothing modulo `2 ^ W`. -/
theorem lost_iff (hwW : w ≤ W) :
    ((Finset.range (numThreads hardware n)).sum fun b => blockSum hardware n x b % 2 ^ w) ≡
        (Finset.range (numThreads hardware n)).sum (blockSum hardware n x) [MOD 2 ^ W] ↔
      2 ^ (W - w) ∣ lost hardware n x := by
  have hsplit : (Finset.range (numThreads hardware n)).sum (blockSum hardware n x) =
      ((Finset.range (numThreads hardware n)).sum fun b => blockSum hardware n x b % 2 ^ w) +
        2 ^ w * lost hardware n x := by
    unfold lost
    rw [Finset.mul_sum, ← Finset.sum_add_distrib]
    exact Finset.sum_congr rfl fun b _ => (Nat.mod_add_div _ _).symm
  rw [Nat.modEq_iff_dvd' (by omega), hsplit, Nat.add_sub_cancel_left, ← Nat.sub_add_cancel hwW,
    Nat.add_sub_cancel, pow_add, Nat.mul_comm (2 ^ w)]
  exact Nat.mul_dvd_mul_iff_right (Nat.two_pow_pos w)

/-- The value of a divided range is the sequential one exactly if what is lost is worth nothing. -/
theorem value_wide_iff (hwW : w ≤ W) (hlong : ¬ n < 2 * minPerThread) :
    value (plusOp w W) (layout hardware n) n x init = fold (plusWide w W) x init 0 n ↔
      2 ^ (W - w) ∣ lost hardware n x := by
  have hsum := sum_blockSum (x := x) (le_refl (numThreads hardware n))
  rw [blockFirst_num (pos_of_long hlong)] at hsum
  rw [← BitVec.toNat_inj, toNat_value hwW hlong, toNat_fold hwW init (Nat.zero_le n), ← hsum,
    ← lost_iff hwW]
  constructor
  · exact fun heq => Nat.ModEq.add_left_cancel' init.toNat heq
  · exact fun heq => Nat.ModEq.add_left init.toNat heq

/-- **When the two paths agree.** Every run can be continued until it returns. -/
theorem accumulate_wide_iff {w W : ℕ} (hwW : w < W) (hardware n : ℕ) (x : ℕ → BitVec w)
    (init : BitVec W) :
    (AccumulatesWide hardware n x init ↔
      n < 2 * minPerThread ∨ 2 ^ (W - w) ∣ lost hardware n x) ∧
    ∀ h c, AccumulateRun (plusOp w W) hardware n x init h c →
      ∃ h' c', AccumulateRun (plusOp w W) hardware n x init (h' ++ h) c' ∧ Returned c' := by
  refine ⟨?_, fun _ _ hr => completes hr⟩
  by_cases hshort : n < 2 * minPerThread
  · refine iff_of_true (fun h c r hr hl => ?_) (.inl hshort)
    rw [returned hr hl]
    exact value_short hshort
  · rw [or_iff_right hshort, ← value_wide_iff hwW.le hshort]
    constructor
    · intro hall
      obtain ⟨h, c, hr, r, hl⟩ := completes
        (Program.Run.nil : AccumulateRun (plusOp w W) hardware n x init [] initial)
      exact (returned hr hl).symm.trans (hall _ c r hr hl)
    · intro heq h c r hr hl
      exact (returned hr hl).trans heq

/-- One-byte elements in 32 bits. -/
theorem accumulate_wide_bytes :
    AccumulatesWide 2 50 (fun _ => (3 : BitVec 8)) (0 : BitVec 32) ↔
      50 < 2 * minPerThread ∨ 2 ^ (32 - 8) ∣ lost 2 50 fun _ => (3 : BitVec 8) :=
  (accumulate_wide_iff (by decide) 2 50 (fun _ => 3) 0).1

/-- Fifty bytes of value 200: the two blocks are worth 5000 modulo 256 each. -/
theorem accumulate_wide_loses : ∃ h c,
    AccumulateRun (plusOp 8 32) 2 50 (fun _ => 200) 0 h c ∧ c.loc .main = .ret 272 ∧
      fold (plusWide 8 32) (fun _ => (200 : BitVec 8)) 0 0 50 = 10000 := by
  obtain ⟨h, c, hr, r, hl⟩ := completes
    (Program.Run.nil : AccumulateRun (plusOp 8 32) 2 50 (fun _ => 200) 0 [] initial)
  have hvalue : value (plusOp 8 32) (layout 2 50) 50 (fun _ => 200) 0 = 272 := by decide
  exact ⟨h ++ [], c, hr, (returned hr hl).trans hvalue ▸ hl, by decide⟩

end Bonostl.ParallelAccumulate
