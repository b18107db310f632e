import Mathlib.Data.List.Range
import Mathlib.Order.Basic

/-!
# Folds over a part of a sequence

`fold op x acc first last` is `std::accumulate` over the elements `x first`, ..., `x (last - 1)`;
`reduce` starts from the first of them instead of a value of its own. Where `op` is associative, a
reduced part may be put in front of the rest: `op acc (reduce ..)` is the fold that starts from
`acc` (`op_reduce`).
-/

namespace Bonostl.Blocks

variable {V T : Type}

/-- The elements from `first` to `last`, folded from the left into `acc`. -/
def fold (op : T → V → T) (x : ℕ → V) (acc : T) (first last : ℕ) : T :=
  (List.range' first (last - first)).foldl (fun a i => op a (x i)) acc

/-- The elements from `first` to `last`, starting with the first one itself. -/
def reduce (op : V → V → V) (x : ℕ → V) (first last : ℕ) : V := fold op x (x first) (first + 1) last

section
variable {op : T → V → T} {x : ℕ → V} {acc : T} {first mid last : ℕ}

@[simp] theorem fold_self : fold op x acc first first = acc := by simp [fold]

theorem fold_append (h : first ≤ mid) (h' : mid ≤ last) :
    fold op x acc first last = fold op x (fold op x acc first mid) mid last := by
  unfold fold
  rw [← List.foldl_append]
  congr 1
  have hsplit := List.range'_append_1 (s := first) (m := mid - first) (n := last - mid)
  rw [Nat.add_sub_cancel' h] at hsplit
  rw [hsplit]
  congr 1
  omega

theorem fold_one : fold op x acc first (first + 1) = op acc (x first) := by simp [fold]

/-- One element more. -/
theorem fold_succ (h : first ≤ last) :
    fold op x acc first (last + 1) = op (fold op x acc first last) (x last) := by
  rw [fold_append h (Nat.le_succ last), fold_one]

end

section
variable {op : V → V → V} {x : ℕ → V} {first last : ℕ}

@[simp] theorem reduce_one : reduce op x first (first + 1) = x first := fold_self

theorem reduce_succ (h : first < last) :
    reduce op x first (last + 1) = op (reduce op x first last) (x last) := fold_succ h

/-- **Re-association.** -/
theorem op_reduce (hop : ∀ a b c, op (op a b) c = op a (op b c)) (acc : V) (h : first < last) :
    op acc (reduce op x first last) = fold op x acc first last := by
  induction last, Nat.succ_le_of_lt h using Nat.le_induction with
  | base => rw [reduce_one, fold_one]
  | succ last hlast ih =>
    rw [reduce_succ hlast, ← hop, ih hlast, fold_succ (Nat.le_of_lt hlast)]
end

end Bonostl.Blocks
