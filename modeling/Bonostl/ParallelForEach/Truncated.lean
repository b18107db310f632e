import Bonostl.ParallelAccumulate.Truncated
import Bonostl.ParallelForEach.Correct

/-!
# Ranges whose length does not fit into an `unsigned long`

`length` is the number of elements modulo `2 ^ w`, and only the length zero is taken for an empty
range. A call never hands its halves a range whose length is truncated to zero (`halves_length`), so
`parallel_for_each` visits every element and `parallel_count_if` counts every match unless the
number of elements is itself a multiple of `2 ^ w`. `parallel_accumulate` also fails where the
number of threads is computed from a sum that wraps (`truncated_length_iff`).
-/

namespace Bonostl.ParallelForEach

open Blocks ForkJoin

/-- Every call of `parallel_for_each` on `n` elements applies the function to each. -/
def VisitsAll (w n : ℕ) : Prop :=
  ∀ (V : Type) (func : V → V) (values : ℕ → V) (depth : ℕ) (y), ForEachRun w func values n depth y →
    (y.call = .ret () → ∀ i < n, y.mem.applied i = 1) ∧
      ∃ z, (divided (forEach func) w).Reaches y z ∧ z.call = .ret ()

/-- Every call of `parallel_count_if` on `n` elements counts those that match. -/
def CountsAll (w n : ℕ) : Prop :=
  ∀ (V : Type) (pred : V → Bool) (x : ℕ → V) (depth : ℕ) (y), CountRun w pred x n depth y →
    (∀ count, y.call = .ret count → count = (List.range n).countP fun i => pred (x i)) ∧
      ∃ z count, (divided (countIf pred) w).Reaches y z ∧ z.call = .ret count

section
variable {M V S R : Type} {P : Pass M V S R} {w n depth : ℕ}

/-- A range whose length is truncated to zero is left alone. -/
theorem reaches_empty (h : lengthOf w n = 0) (s : S) (m : M) :
    (divided P w).Reaches (start (.enter 0 n s depth) m) ⟨m, 0, .ret (P.init s)⟩ := by
  have hact : (divided P w).act (.enter 0 n s depth) m = (m, .done (P.init s)) := if_pos h
  refine .single ⟨[], 0, ?_, rfl⟩
  simp only [Algo.step, start]
  rw [hact]
  rfl

theorem visitsAll_iff : VisitsAll w n ↔ n = 0 ∨ lengthOf w n ≠ 0 := by
  constructor
  · intro hall
    by_contra hcon
    simp only [not_or, not_not, ne_eq] at hcon
    have hr : ForEachRun w id (fun _ : ℕ => 0) n 0 _ := reaches_empty hcon.2 () _
    have hone := (hall ℕ id _ 0 _ hr).1 rfl 0 (Nat.pos_of_ne_zero hcon.1)
    exact absurd hone Nat.zero_ne_one
  · intro hn V func values depth y hr
    obtain ⟨hpost, -, hret⟩ := for_each_covers (fun h0 => hn.resolve_right fun h => h h0) hr
    refine ⟨fun hy i hi => ?_, hret⟩
    rw [(hpost hy i).2, if_pos hi]

theorem countsAll_iff : CountsAll w n ↔ n = 0 ∨ lengthOf w n ≠ 0 := by
  constructor
  · intro hall
    by_contra hcon
    simp only [not_or, not_not, ne_eq] at hcon
    have hr : CountRun w (fun _ => true) (fun _ : ℕ => 0) n 0 _ := reaches_empty hcon.2 () _
    have hcount := (hall ℕ (fun _ => true) _ 0 _ hr).1 _ rfl
    simp only [countIf, List.countP_true, List.length_range] at hcount
    exact hcon.1 hcount.symm
  · intro hn V pred x depth y hr
    obtain ⟨hpost, -, hret⟩ := count_covers (fun h0 => hn.resolve_right fun h => h h0) hr
    exact ⟨hpost, hret⟩
end

/-- **For which lengths the whole range is dealt with.** -/
theorem truncated_length_iff (w n : ℕ) :
    (VisitsAll w n ↔ n = 0 ∨ n % 2 ^ w ≠ 0) ∧ (CountsAll w n ↔ n = 0 ∨ n % 2 ^ w ≠ 0) ∧
      (ParallelAccumulate.Accumulates w n ↔
        n = 0 ∨ n % 2 ^ w ≠ 0 ∧ (n % 2 ^ w < 50 ∨ n % 2 ^ w + 24 < 2 ^ w)) :=
  ⟨visitsAll_iff, countsAll_iff, ParallelAccumulate.accumulates_iff⟩

/-- `2 ^ 32` elements: none of them is visited. -/
theorem truncated_length_skips : ¬ VisitsAll 32 (2 ^ 32) := by
  intro hall
  have hr : ForEachRun 32 id (fun _ : ℕ => 0) (2 ^ 32) 8 _ := reaches_empty (Nat.mod_self _) () _
  exact absurd ((hall ℕ id _ 8 _ hr).1 rfl 0 (by decide)) Nat.zero_ne_one

end Bonostl.ParallelForEach
