import Mathlib.Algebra.BigOperators.Intervals
import Mathlib.Data.Nat.ModEq
import Bonostl.Blocks.Fold

/-!
# Sums of `w`-bit elements in `W` bits

The elements are `w`-bit unsigned, the result is of a wider unsigned type. A fold in the wider type
adds modulo `2 ^ W` (`toNat_fold`), a reduction in the element type modulo `2 ^ w` (`toNat_reduce`).
Adding the reduction of a block instead of its elements makes no difference exactly if what the
reduction has lost, the sum's part above `w` bits, is a multiple of `2 ^ W` (`fits_iff`).
-/

namespace Bonostl.Blocks

variable {w W : ℕ} {x : ℕ → BitVec w} {first last : ℕ}

/-- `std::plus<>` on a value of the wider type and an element. -/
def plusWide (w W : ℕ) (acc : BitVec W) (v : BitVec w) : BitVec W := acc + v.setWidth W

/-- The sum of a part of the sequence, as a number. -/
def sumOf (x : ℕ → BitVec w) (first last : ℕ) : ℕ :=
  (Finset.Ico first last).sum fun i => (x i).toNat

theorem sumOf_succ (h : first ≤ last) :
    sumOf x first (last + 1) = sumOf x first last + (x last).toNat :=
  Finset.sum_Ico_succ_top h _

/-- In the wider type an element is worth what it is. -/
theorem toNat_plusWide (h : w ≤ W) (acc : BitVec W) (v : BitVec w) :
    (plusWide w W acc v).toNat = (acc.toNat + v.toNat) % 2 ^ W := by
  unfold plusWide
  rw [BitVec.toNat_add, BitVec.toNat_setWidth_of_le h]

theorem toNat_fold (h : w ≤ W) (acc : BitVec W) (hle : first ≤ last) :
    (fold (plusWide w W) x acc first last).toNat = (acc.toNat + sumOf x first last) % 2 ^ W := by
  induction last, hle using Nat.le_induction with
  | base => simp [sumOf, Nat.mod_eq_of_lt acc.isLt]
  | succ last hle ih =>
    rw [fold_succ hle, toNat_plusWide h, ih, sumOf_succ hle, Nat.mod_add_mod, Nat.add_assoc]

theorem toNat_reduce (hlt : first < last) :
    (reduce (· + ·) x first last).toNat = sumOf x first last % 2 ^ w := by
  induction last, Nat.succ_le_of_lt hlt using Nat.le_induction with
  | base =>
    rw [reduce_one, sumOf_succ (le_refl first)]
    simp [sumOf, Nat.mod_eq_of_lt (x first).isLt]
  | succ last hle ih =>
    rw [reduce_succ hle, BitVec.toNat_add, ih hle, sumOf_succ (Nat.le_of_lt hle), Nat.mod_add_mod]

/-- What the sum of a block is worth in the element type is what it is worth in the wider type. -/
def Fits (w W sum : ℕ) : Prop := sum % 2 ^ W < 2 ^ w

instance (w W sum : ℕ) : Decidable (Fits w W sum) := inferInstanceAs (Decidable (_ < _))

theorem fits_iff (h : w ≤ W) {sum : ℕ} : Fits w W sum ↔ sum % 2 ^ w ≡ sum [MOD 2 ^ W] := by
  have hdvd : 2 ^ w ∣ 2 ^ W := pow_dvd_pow 2 h
  have hle : 2 ^ w ≤ 2 ^ W := Nat.pow_le_pow_right (by omega) h
  have hlt : sum % 2 ^ w < 2 ^ w := Nat.mod_lt _ (Nat.two_pow_pos w)
  have hmod : sum % 2 ^ W % 2 ^ w = sum % 2 ^ w := Nat.mod_mod_of_dvd _ hdvd
  unfold Fits Nat.ModEq
  rw [Nat.mod_eq_of_lt (hlt.trans_le hle)]
  constructor
  · intro hfit
    rw [← hmod, Nat.mod_eq_of_lt hfit]
  · intro heq
    rwa [heq] at hlt

/-- **Adding a block's reduction** is adding its elements exactly if the block fits. -/
theorem plusWide_reduce_iff (h : w ≤ W) (acc : BitVec W) (hlt : first < last) :
    plusWide w W acc (reduce (· + ·) x first last) = fold (plusWide w W) x acc first last ↔
      Fits w W (sumOf x first last) := by
  rw [← BitVec.toNat_inj, toNat_plusWide h, toNat_reduce hlt, toNat_fold h acc hlt.le, fits_iff h]
  constructor
  · exact fun heq => Nat.ModEq.add_left_cancel' acc.toNat heq
  · exact fun heq => Nat.ModEq.add_left acc.toNat heq

end Bonostl.Blocks
