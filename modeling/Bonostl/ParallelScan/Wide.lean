import Bonostl.Blocks.Sum
import Bonostl.ParallelScan.Correct

/-!
# `parallel_exclusive_scan` with an `init` wider than the elements

`std::exclusive_scan` accumulates in the type of `init`. The seeds are of that type too, but the
block totals they are computed from are reduced in the element type (`value_type`), so a total loses
what is above `w` bits. The documented result comes out exactly if this makes no difference for any
block but the last one, whose total is not used (`exclusive_wide_iff`); a range of fewer than 50
elements is left to the std algorithm. `exclusive_wide_loses` is a range of 50 one-byte elements.
-/

namespace Bonostl.ParallelScan

open Interleaving Blocks

variable {n : ℕ} {M : Type} {w W : ℕ}

/-- `parallel_exclusive_scan` with `std::plus<>`. -/
def plusScan (w W : ℕ) (init : BitVec W) : Scanner (BitVec w) (BitVec W) (BitVec W) :=
  parallelExclusiveScan (· + ·) (plusWide w W) init

/-- Every run that returns has written what `std::exclusive_scan` writes. -/
def ScansWide (R : Ranges n M (BitVec w) (BitVec W)) (hardware out : ℕ) (init : BitVec W) (m₀ : M) :
    Prop :=
  ∀ h c it, ScanRun (plusScan w W init) R hardware out m₀ h c → c.loc .main = .ret it →
    ∀ j < n, R.written c.shared.mem j = exclusiveScan (plusWide w W) init (R.read m₀) j

/-- The sums of the blocks before the last one lose nothing, or the range is not divided. -/
def BlocksFit (hardware n W : ℕ) (x : ℕ → BitVec w) : Prop :=
  Alone hardware n ∨ ∀ b, b + 1 < numThreads hardware n →
    Fits w W (sumOf x (blockFirst hardware n b) (blockFirst hardware n (b + 1)))

variable {R : Ranges n M (BitVec w) (BitVec W)} {hardware out : ℕ} {init : BitVec W} {m₀ : M}

theorem scansWide_of_fit (hwW : w ≤ W) (hfit : BlocksFit hardware n W (R.read m₀)) :
    ScansWide R hardware out init m₀ := by
  intro h c it hr hl j hj
  obtain ⟨-, houtputs⟩ := returned hr hl
  refine outputs_of_seeds houtputs (fun ha b hb => ?_) j hj
  refine exclusive_seeds (fun b hb acc => ?_) hb
  have hlt := blockFirst_lt (length_pos hb) (Nat.lt_of_succ_lt hb)
  exact (plusWide_reduce_iff hwW acc hlt).mpr (hfit.resolve_left ha b hb)

/-- What a run that returns has written at the beginning of a block. -/
theorem written_first {h : List (Rec Thread (Shared M (BitVec w) (BitVec W)) _ Unit ℕ)}
    {c : Config Thread (Shared M (BitVec w) (BitVec W)) _} {it b : ℕ} (ha : ¬ Alone hardware n)
    (hr : ScanRun (plusScan w W init) R hardware out m₀ h c) (hl : c.loc .main = .ret it)
    (hb : b < numThreads hardware n) :
    R.written c.shared.mem (blockFirst hardware n b) =
      blockSeed (plusScan w W init) R hardware m₀ b := by
  obtain ⟨-, houtputs⟩ := returned hr hl
  unfold Outputs at houtputs
  rw [if_neg ha] at houtputs
  rw [houtputs b hb _ (le_refl _) (blockFirst_lt (length_pos hb) hb)]
  exact stateAt_first

theorem fit_of_scansWide (hwW : w ≤ W) (hall : ScansWide R hardware out init m₀) :
    BlocksFit hardware n W (R.read m₀) := by
  by_cases ha : Alone hardware n
  · exact .inl ha
  right
  intro b hb
  have hb' := Nat.lt_of_succ_lt hb
  have hlt := blockFirst_lt (length_pos hb) hb'
  obtain ⟨h, c, hr, it, hl⟩ := completes
    (Program.Run.nil : ScanRun (plusScan w W init) R hardware out m₀ [] (initial m₀))
  -- the seeds of this block and the next one are what a scan in the wider type has carried to them
  have hseed : ∀ b' < numThreads hardware n, blockSeed (plusScan w W init) R hardware m₀ b' =
      fold (plusWide w W) (R.read m₀) init 0 (blockFirst hardware n b') := by
    intro b' hb'
    have hin : blockFirst hardware n b' < n :=
      (blockFirst_lt (length_pos hb') hb').trans_le (blockFirst_le (length_pos hb') hb')
    rw [← written_first ha hr hl hb']
    exact hall _ c it hr hl _ hin
  refine (plusWide_reduce_iff hwW (blockSeed (plusScan w W init) R hardware m₀ b) hlt).mp ?_
  calc plusWide w W (blockSeed (plusScan w W init) R hardware m₀ b) _
      = blockSeed (plusScan w W init) R hardware m₀ (b + 1) := rfl
    _ = fold (plusWide w W) (R.read m₀) init 0 (blockFirst hardware n (b + 1)) := hseed _ hb
    _ = fold (plusWide w W) (R.read m₀) (blockSeed (plusScan w W init) R hardware m₀ b) _ _ := by
      rw [hseed b hb', fold_append (Nat.zero_le _) hlt.le]

/-- **When the wide scan is the documented one.** Every run can be continued until it returns. -/
theorem exclusive_wide_iff {w W n : ℕ} {M : Type} (hwW : w < W)
    (R : Ranges n M (BitVec w) (BitVec W)) (hardware out : ℕ) (init : BitVec W) (m₀ : M) :
    (ScansWide R hardware out init m₀ ↔ BlocksFit hardware n W (R.read m₀)) ∧
    ∀ h c, ScanRun (plusScan w W init) R hardware out m₀ h c →
      ∃ h' c', ScanRun (plusScan w W init) R hardware out m₀ (h' ++ h) c' ∧ Returned c' :=
  ⟨⟨fit_of_scansWide hwW.le, scansWide_of_fit hwW.le⟩, fun _ _ hr => completes hr⟩

/-- One-byte elements in 32 bits. -/
theorem exclusive_wide_bytes :
    ScansWide (buffers 50 (BitVec 8) (BitVec 32)) 2 0 0 (fun _ => 3, fun _ => 0) ↔
      BlocksFit 2 50 32 fun _ => (3 : BitVec 8) :=
  (exclusive_wide_iff (by decide) (buffers 50 (BitVec 8) (BitVec 32)) 2 0 0
    (fun _ => 3, fun _ => 0)).1

/-- Fifty bytes of value 200: the second block starts with 5000 modulo 256. -/
theorem exclusive_wide_loses : ∃ h c,
    ScanRun (plusScan 8 32 0) (buffers 50 (BitVec 8) (BitVec 32)) 2 0
        (fun _ => 200, fun _ => 0) h c ∧
      Returned c ∧ c.shared.mem.2 25 = 136 ∧
      exclusiveScan (plusWide 8 32) 0 (fun _ => (200 : BitVec 8)) 25 = 5000 := by
  obtain ⟨h, c, hr, it, hl⟩ := completes (Program.Run.nil : ScanRun (plusScan 8 32 0)
    (buffers 50 (BitVec 8) (BitVec 32)) 2 0 (fun _ => 200, fun _ => 0) [] (initial _))
  refine ⟨h ++ [], c, hr, ⟨it, hl⟩, ?_, by decide⟩
  have hfirst := written_first (b := 1) (by decide) hr hl (by decide)
  exact hfirst.trans (by decide)

end Bonostl.ParallelScan
