import Bonostl.ParallelPartialSum.Runs

/-!
# `parallel_partial_sum` against `std::partial_sum`

An element of a chunk behind the first one ends as its chunk's own sum plus the sum of what is
before the chunk, in this order: `*chunk_last += addend` and `item += addend` add the earlier
elements on the right. So the result is that of `std::partial_sum` exactly if these two sums
commute, for every element of every chunk but the first (`partial_sum_iff`); it is for a `+` that is
commutative (`partial_sum_of_comm`), and is not for the concatenation of strings
(`partial_sum_concatenation`).

The condition has two more parts for an `unsigned long` that is too short for the length. A range
whose length is a multiple of `2 ^ w` is left as it is; one whose length is less than 25 below a
multiple is divided by zero.
-/

namespace Bonostl.ParallelPartialSum

open Interleaving Blocks

variable {α : Type}

/-- What `std::partial_sum` writes at position `p`. -/
def partialSum (add : α → α → α) (x : ℕ → α) (p : ℕ) : α := reduce add x 0 (p + 1)

/-- A run in which no addition throws. -/
abbrev Runs (add : α → α → α) (w hardware n : ℕ) (x : ℕ → α) (h : List (Step α Empty))
    (c : Config Thread (Shared α Empty) (Pc α Empty)) : Prop :=
  (parallelPartialSum add w hardware n).Run Program.anyStep (initial x) h c

/-- Every run returns, and the range then holds what `std::partial_sum` makes of it. -/
def PartialSums (add : α → α → α) (w hardware n : ℕ) (x : ℕ → α) : Prop :=
  (∀ h c r, Runs add w hardware n x h c → c.loc .main = .ret r →
    r = none ∧ ∀ p < n, c.shared.mem p = partialSum add x p) ∧
  ∀ h c, Runs add w hardware n x h c →
    ∃ h' c', Runs add w hardware n x (h' ++ h) c' ∧ ∃ r, c'.loc .main = .ret r

/-- The sum of what is before a chunk and the chunk's own sums commute. -/
def Commutes (add : α → α → α) (num : ℕ) (first : ℕ → ℕ) (x : ℕ → α) : Prop :=
  ∀ b, 0 < b → b < num → ∀ p, first b ≤ p → p < first (b + 1) →
    add (localSum add first x b p) (reduce add x 0 (first b)) =
      add (reduce add x 0 (first b)) (localSum add first x b p)

section
variable {add : α → α → α} {num n : ℕ} {first : ℕ → ℕ} {x : ℕ → α} {b p : ℕ}

/-- In the right order the two sums make up the sum from the beginning. -/
theorem add_localSum (hadd : ∀ a b c, add (add a b) c = add a (add b c)) (hD : Division n num first)
    (hb : 0 < b) (hbn : b < num) (hp : first b ≤ p) :
    add (reduce add x 0 (first b)) (localSum add first x b p) = partialSum add x p := by
  have hpos : 0 < first b := by
    have hlt := hD.lt 0 (by omega)
    rw [hD.zero] at hlt
    exact hlt.trans_le (hD.mono hb hbn.le)
  calc add (reduce add x 0 (first b)) (localSum add first x b p)
      = fold add x (reduce add x 0 (first b)) (first b) (p + 1) := op_reduce hadd _ (by omega)
    _ = partialSum add x p := (fold_append hpos (by omega)).symm

/-- The end value of a chunk whose last element is right. -/
theorem endValue_right (hD : Division n num first) (hb : b < num)
    (hres : result add first x b (lastOf first b) = partialSum add x (lastOf first b)) :
    endValue add first x b = reduce add x 0 (first (b + 1)) := by
  have hlt := hD.lt b hb
  rw [endValue_eq, hres, partialSum, lastOf, Nat.sub_add_cancel (by omega)]

theorem result_first (hD : Division n num first) (p : ℕ) :
    result add first x 0 p = partialSum add x p := by
  rw [result_zero, localSum, hD.zero]
  rfl

/-- **When the chunks' results are right.** -/
theorem results_iff (hadd : ∀ a b c, add (add a b) c = add a (add b c))
    (hD : Division n num first) :
    (∀ b < num, ∀ p, first b ≤ p → p < first (b + 1) →
      result add first x b p = partialSum add x p) ↔
      Commutes add num first x := by
  constructor
  · intro hall b hb hbn p h1 h2
    have hend : endValue add first x (b - 1) = reduce add x 0 (first b) := by
      have hlast := lastOf_mem (hD.lt (b - 1) (by omega))
      have he := endValue_right hD (show b - 1 < num by omega)
        (hall (b - 1) (by omega) _ hlast.1 hlast.2)
      rwa [Nat.sub_add_cancel hb] at he
    rw [add_localSum hadd hD hb hbn h1, ← hall b hbn p h1 h2, result_of_ne hb.ne', hend]
  · intro hcomm b
    induction b with
    | zero => exact fun _ p _ _ => result_first hD p
    | succ b ih =>
      intro hbn p h1 h2
      have hlast := lastOf_mem (hD.lt b (by omega))
      have hend := endValue_right hD (show b < num by omega) (ih (by omega) _ hlast.1 hlast.2)
      rw [result_of_ne (Nat.succ_ne_zero b), show b.succ - 1 = b from rfl, hend,
        hcomm (b + 1) (Nat.succ_pos b) hbn p h1 h2, add_localSum hadd hD (Nat.succ_pos b) hbn h1]

/-- Where nothing throws, what stands in the range when `main` returns. -/
theorem returned {h : List (Step α Empty)}
    {c : Config Thread (Shared α Empty) (Pc α Empty)} {r : Option (Exn Empty)}
    (hI : Inv add num first x h c) (hl : c.loc .main = .ret r) :
    r = none ∧ ∀ b < num, Holds first c.shared b (result add first x b) := by
  have hmain := hI.main
  rw [hl] at hmain
  have hclean : ∀ b < num, Clean add num first x h c.shared b ∧ (b + 1 = num → r = none) := by
    intro b hb
    have hok := hI.chunk b hb
    by_cases hlast : b + 1 = num
    · rw [owner, if_pos hlast, hl] at hok
      cases r with
      | none =>
        rcases hok with hclean | ⟨-, -, e, -⟩
        · exact ⟨hclean, fun _ => rfl⟩
        · exact e.elim
      | some e =>
        rcases hok with ⟨-, e', -⟩ | ⟨hlt, -⟩
        · exact e'.elim
        · omega
    · have hfin := hI.thread_finished (hmain.2 b (by omega))
      rw [owner_chunk (by omega), hfin] at hok
      rcases hok with hclean | ⟨-, -, e, -⟩
      · exact ⟨hclean, fun he => absurd he hlast⟩
      · exact e.elim
  refine ⟨?_, fun b hb => (hclean b hb).1.values⟩
  rcases Nat.eq_zero_or_pos num with hn | hn
  · exact hmain.1 hn
  · exact (hclean (num - 1) (by omega)).2 (by omega)
end

section
variable {add : α → α → α} {w hardware n : ℕ} {x : ℕ → α} {h : List (Step α Empty)}
  {c : Config Thread (Shared α Empty) (Pc α Empty)}

/-- Where there are chunks, they divide the range. -/
theorem division_of_num (hn : numThreadsOf w hardware (lengthOf w n) ≠ 0) :
    Division n (numThreadsOf w hardware (lengthOf w n)) (blockBegin w hardware n) :=
  wrapped_division (by_contra fun hno => hn (numThreadsOf_wraps hno))

theorem num_of_length (h0 : lengthOf w n = 0) : numThreadsOf w hardware (lengthOf w n) = 0 :=
  numThreadsOf_wraps fun hd => absurd h0 hd.1.ne'

theorem inv_runs (hr : Runs add w hardware n x h c) : Inv add
    (numThreadsOf w hardware (lengthOf w n)) (blockBegin w hardware n) x h c :=
  inv_run division_of_num num_of_length hr

/-- Before a division by zero there is no step. -/
theorem stuck (hl : lengthOf w n ≠ 0) (hn : numThreadsOf w hardware (lengthOf w n) = 0)
    (hr : Runs add w hardware n x h c) : c = initial x := by
  refine hr.induction (I := fun _ c => c = initial x) rfl ?_
  rintro h c t k ev s l - rfl - hs
  exfalso
  cases t with
  | main =>
    have hs : (if lengthOf w n = 0 then some (Event.ret none, (initial x).shared, Pc.ret none)
        else if numThreadsOf w hardware (lengthOf w n) = 0 then none
        else some (.tau, (initial x).shared, .spawn 0)) = some (ev, s, l) := hs
    rw [if_neg hl, if_pos hn] at hs
    cases hs
  | chunk b => cases hs

/-- Every run of a range that is divided, or left as it is, returns. -/
theorem returns (hd : lengthOf w n = 0 ∨ Divides w n) (hr : Runs add w hardware n x h c) :
    ∃ h' c', Runs add w hardware n x (h' ++ h) c' ∧ ∃ r, c'.loc .main = .ret r := by
  obtain ⟨h', c', hr', hend⟩ := completes division_of_num num_of_length hr
  have hI := inv_runs hr'
  refine ⟨h', c', hr', ?_⟩
  rcases ended_cases hI hend with hterm | hret | ⟨-, hl, hn⟩
  · obtain ⟨b, -, r, -, -, hne, -⟩ := hI.terminated hterm
    obtain ⟨e, -⟩ := Option.ne_none_iff_exists'.mp hne
    exact e.elim
  · exact hret
  · rcases hd with h0 | hd
    · exact absurd h0 hl
    · exact absurd hn (wrapped_division hd).pos.ne'

theorem partialSums_of_commutes (hadd : ∀ a b c, add (add a b) c = add a (add b c))
    (hd : Divides w n)
    (hcomm : Commutes add (numThreadsOf w hardware (lengthOf w n)) (blockBegin w hardware n) x) :
    PartialSums add w hardware n x := by
  refine ⟨fun h c r hr hl => ?_, fun h c hr => returns (.inr hd) hr⟩
  obtain ⟨hnone, hholds⟩ := returned (inv_runs hr) hl
  refine ⟨hnone, fun p hp => ?_⟩
  have hD : Division n _ (blockBegin w hardware n) := wrapped_division hd
  obtain ⟨b, hb, h1, h2⟩ := hD.exists_block hp
  rw [hholds b hb p h1 h2]
  exact (results_iff hadd hD).mpr hcomm b hb p h1 h2

theorem commutes_of_partialSums (hadd : ∀ a b c, add (add a b) c = add a (add b c))
    (hd : Divides w n)
    (hall : PartialSums add w hardware n x) :
    Commutes add (numThreadsOf w hardware (lengthOf w n)) (blockBegin w hardware n) x := by
  have hD : Division n _ (blockBegin w hardware n) := wrapped_division hd
  obtain ⟨h, c, hr, r, hl⟩ := hall.2 [] _ .nil
  refine (results_iff hadd hD).mp fun b hb p h1 h2 => ?_
  rw [← (returned (inv_runs hr) hl).2 b hb p h1 h2]
  exact (hall.1 _ c r hr hl).2 p (h2.trans_le (hD.le hb))

/-- **When `parallel_partial_sum` is `std::partial_sum`.** -/
theorem partial_sum_iff {α : Type} (add : α → α → α)
    (hadd : ∀ a b c, add (add a b) c = add a (add b c)) (w hardware n : ℕ) (x : ℕ → α) :
    PartialSums add w hardware n x ↔
      (lengthOf w n = 0 ∧ ∀ p < n, x p = partialSum add x p) ∨
      (Divides w n ∧
        Commutes add (numThreadsOf w hardware (lengthOf w n)) (blockBegin w hardware n) x) := by
  rcases Nat.eq_zero_or_pos (lengthOf w n) with h0 | hpos
  · have hno : ¬ Divides w n := fun hd => absurd h0 hd.1.ne'
    rw [or_iff_left fun hd => hno hd.1, and_iff_right h0]
    constructor
    · intro hall p hp
      obtain ⟨h, c, hr, r, hl⟩ := hall.2 [] _ .nil
      rw [← (hall.1 _ c r hr hl).2 p hp, (inv_runs hr).untouched (num_of_length h0)]
    · intro hx
      refine ⟨fun h c r hr hl => ?_, fun h c hr => returns (.inl h0) hr⟩
      refine ⟨(returned (inv_runs hr) hl).1, fun p hp => ?_⟩
      rw [(inv_runs hr).untouched (num_of_length h0)]
      exact hx p hp
  · rw [or_iff_right fun hd => hpos.ne' hd.1]
    by_cases hd : Divides w n
    · rw [and_iff_right hd]
      exact ⟨commutes_of_partialSums hadd hd, partialSums_of_commutes hadd hd⟩
    · refine iff_of_false (fun hall => ?_) fun hd' => hd hd'.1
      obtain ⟨h, c, hr, r, hl⟩ := hall.2 [] _ .nil
      rw [stuck hpos.ne' (numThreadsOf_wraps hd) hr] at hl
      cases hl

/-- Twenty-six strings of one letter, on two threads. -/
theorem partial_sum_iff_letters :
    PartialSums (fun a b : List ℕ => a ++ b) 64 2 26 (fun i => [i]) ↔
      (lengthOf 64 26 = 0 ∧ ∀ p < 26, [p] = partialSum (fun a b => a ++ b) (fun i => [i]) p) ∨
      (Divides 64 26 ∧ Commutes (fun a b => a ++ b) (numThreadsOf 64 2 (lengthOf 64 26))
        (blockBegin 64 2 26) fun i => [i]) :=
  partial_sum_iff (fun a b : List ℕ => a ++ b) List.append_assoc 64 2 26 fun i => [i]

/-- The first string of the second chunk comes before those of the first one. -/
theorem partial_sum_concatenation :
    ¬ PartialSums (fun a b : List ℕ => a ++ b) 64 2 26 fun i => [i] := by
  intro hall
  have hcomm := commutes_of_partialSums List.append_assoc (by decide) hall
  have h13 := hcomm 1 (by decide) (by decide) 13 (by decide) (by decide)
  exact absurd h13 (by decide)

/-- A `+` that is commutative. -/
theorem partial_sum_of_comm (hadd : ∀ a b c, add (add a b) c = add a (add b c))
    (hcomm : ∀ a b, add a b = add b a) (hd : Divides w n) : PartialSums add w hardware n x :=
  partialSums_of_commutes hadd hd fun _ _ _ _ _ _ => hcomm _ _

end

end Bonostl.ParallelPartialSum
