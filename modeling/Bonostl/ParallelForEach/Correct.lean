import Mathlib.Algebra.Order.Group.Nat
import Bonostl.ParallelForEach.Coverage

/-!
# `parallel_for_each`, `parallel_transform` and `parallel_count_if` cover the range

Each is a pass that can be covered (`forEachCovers`, `transformCovers`, `countCovers`), so for a
range whose length fits into `w` bits each does what the std algorithm does and submits at most `2 ^
depth - 1` halves (`covers_once`).
-/

namespace Bonostl.ParallelForEach

open Blocks ForkJoin

variable {M V T : Type}

/-- `parallel_for_each` -/
def forEachCovers (func : V → V) (values : ℕ → V) (n : ℕ) : Covers (forEach func) n where
  Todo m i := m.values i = values i ∧ m.applied i = 0
  Done m i := m.values i = func (values i) ∧ m.applied i = 1
  result i := func (values i)
  given _ := ()
  total _ _ := ()
  load h := congrArg func h.1
  store _ _ _ h := ⟨Function.update_self _ _ _, (Function.update_self _ _ _).trans (by rw [h.2])⟩
  store_ne {m i j} _ _ _ _ hne := by
    simp only [forEach, Function.update_of_ne hne.symm]
    exact ⟨id, id⟩
  init _ := rfl
  advance _ _ := rfl
  feed _ := rfl
  join _ _ := rfl

/-- `parallel_transform` -/
def transformCovers {n : ℕ} (ranges : ParallelScan.Ranges n M V T) (func : V → T) (out : ℕ)
    (m₀ : M) :
    Covers (transform ranges func out) n where
  Todo m i := ranges.read m i = ranges.read m₀ i
  Done m i := ranges.written m i = func (ranges.read m₀ i)
  result i := func (ranges.read m₀ i)
  given i := out + i
  total _ i := out + i
  load h := congrArg func h
  store {m i} _ _ hi _ := by
    simp only [transform, Nat.add_sub_cancel_left]
    exact ranges.written_self hi
  store_ne {m i j} _ _ hi hj hne := by
    simp only [transform, Nat.add_sub_cancel_left]
    exact ⟨(ranges.read_write hi hj hne).trans, (ranges.written_write hi hj hne).trans⟩
  init _ := rfl
  advance i k := Nat.add_assoc out i k
  feed {_ i} _ := Nat.add_assoc out i 1
  join _ _ := rfl

/-- The matching elements of a part of a sequence. -/
def matching (pred : V → Bool) (x : ℕ → V) (first last : ℕ) : ℕ :=
  (List.range' first (last - first)).countP fun i => pred (x i)

section
variable {pred : V → Bool} {x : ℕ → V} {first mid last : ℕ}

theorem matching_append (h : first ≤ mid) (h' : mid ≤ last) :
    matching pred x first mid + matching pred x mid last = matching pred x first last := by
  unfold matching
  rw [← List.countP_append]
  have hsplit := List.range'_append_1 (s := first) (m := mid - first) (n := last - mid)
  rw [Nat.add_sub_cancel' h] at hsplit
  rw [hsplit]
  congr 2
  omega

theorem matching_succ (h : first ≤ last) :
    matching pred x first (last + 1) =
      if pred (x last) then matching pred x first last + 1 else matching pred x first last := by
  rw [← matching_append h (Nat.le_succ last)]
  have hone : matching pred x last (last + 1) = if pred (x last) then 1 else 0 := by
    simp [matching]
  rw [hone]
  split <;> rfl
end

/-- `parallel_count_if` -/
def countCovers (pred : V → Bool) (x : ℕ → V) (n : ℕ) : Covers (countIf pred) n where
  Todo m i := m i = x i
  Done _ _ := True
  result i := pred (x i)
  given _ := ()
  total := matching pred x
  load h := congrArg pred h
  store _ _ _ _ := trivial
  store_ne _ _ _ _ _ := ⟨id, id⟩
  init i := by simp [countIf, matching]
  advance _ _ := rfl
  feed h := (matching_succ h).symm
  join := matching_append

/-! ## Runs of the three -/

/-- A run of `parallel_for_each` on a range of `n` elements. -/
abbrev ForEachRun (w : ℕ) (func : V → V) (values : ℕ → V) (n depth : ℕ) :
    State (Place V Unit Unit) Unit Unit (Elements V) → Prop :=
  (divided (forEach func) w).Reaches (start (.enter 0 n () depth) ⟨values, fun _ => 0⟩)

/-- A run of `parallel_transform`, with the output iterator it is given. -/
abbrev TransformRun {n : ℕ} (w : ℕ) (ranges : ParallelScan.Ranges n M V T) (func : V → T) (out : ℕ)
    (m₀ : M) (depth : ℕ) : State (Place T ℕ ℕ) Unit ℕ M → Prop :=
  (divided (transform ranges func out) w).Reaches (start (.enter 0 n out depth) m₀)

/-- A run of `parallel_count_if` -/
abbrev CountRun (w : ℕ) (pred : V → Bool) (x : ℕ → V) (n depth : ℕ) :
    State (Place Bool Unit ℕ) Unit ℕ (ℕ → V) → Prop :=
  (divided (countIf pred) w).Reaches (start (.enter 0 n () depth) x)

section
variable {w n depth : ℕ}

theorem for_each_covers {func : V → V} {values : ℕ → V}
    {y : State (Place V Unit Unit) Unit Unit (Elements V)}
    (hlen : lengthOf w n = 0 → n = 0) (hr : ForEachRun w func values n depth y) :
    (y.call = .ret () → ∀ i, y.mem.values i = (if i < n then func (values i) else values i) ∧
      y.mem.applied i = if i < n then 1 else 0) ∧
      y.submitted ≤ 2 ^ depth - 1 ∧
      ∃ z, (divided (forEach func) w).Reaches y z ∧ z.call = .ret () := by
  have hcov := fun k (hk : n ≤ k) =>
    (forEachCovers func values k).covers hk hlen (fun _ _ => ⟨rfl, rfl⟩) hr
  obtain ⟨-, hsub, z, r, hz, hret⟩ := hcov n (Nat.le_refl n)
  refine ⟨fun hret i => ?_, hsub, z, hz, hret⟩
  have hone := ((hcov (n + i + 1) (by omega)).1 () hret).2 i (by omega)
  split at hone
  · rw [if_pos ‹_›, if_pos ‹_›]
    exact hone
  · rw [if_neg ‹_›, if_neg ‹_›]
    exact hone

theorem transform_covers {ranges : ParallelScan.Ranges n M V T} {func : V → T} {out : ℕ} {m₀ : M}
    {y : State (Place T ℕ ℕ) Unit ℕ M} (hlen : lengthOf w n = 0 → n = 0)
    (hr : TransformRun w ranges func out m₀ depth y) :
    (∀ it, y.call = .ret it → it = out + n ∧
      ∀ i < n, ranges.written y.mem i = func (ranges.read m₀ i)) ∧
      y.submitted ≤ 2 ^ depth - 1 ∧
      ∃ z it, (divided (transform ranges func out) w).Reaches y z ∧ z.call = .ret it := by
  obtain ⟨hpost, hsub, hret⟩ :=
    (transformCovers ranges func out m₀).covers (Nat.le_refl n) hlen (fun _ _ => rfl) hr
  refine ⟨fun it hit => ?_, hsub, hret⟩
  obtain ⟨hit, hall⟩ := hpost it hit
  refine ⟨hit, fun i hi => ?_⟩
  have hone := hall i hi
  rwa [if_pos hi] at hone

theorem count_covers {pred : V → Bool} {x : ℕ → V} {y : State (Place Bool Unit ℕ) Unit ℕ (ℕ → V)}
    (hlen : lengthOf w n = 0 → n = 0) (hr : CountRun w pred x n depth y) :
    (∀ count, y.call = .ret count → count = (List.range n).countP fun i => pred (x i)) ∧
      y.submitted ≤ 2 ^ depth - 1 ∧
      ∃ z count, (divided (countIf pred) w).Reaches y z ∧ z.call = .ret count := by
  obtain ⟨hpost, hsub, hret⟩ :=
    (countCovers pred x n).covers (Nat.le_refl n) hlen (fun _ _ => rfl) hr
  refine ⟨fun count hc => ?_, hsub, hret⟩
  rw [(hpost count hc).1, List.range_eq_range']
  rfl
end

/-- **Every element once**, for a range of any length that fits into an `unsigned long`. -/
theorem covers_once (w n depth : ℕ) (hn : n < 2 ^ w) :
    (∀ (V : Type) (func : V → V) (values : ℕ → V) (y), ForEachRun w func values n depth y →
      (y.call = .ret () → ∀ i, y.mem.values i = (if i < n then func (values i) else values i) ∧
        y.mem.applied i = if i < n then 1 else 0) ∧
      y.submitted ≤ 2 ^ depth - 1 ∧
      ∃ z, (divided (forEach func) w).Reaches y z ∧ z.call = .ret ()) ∧
    (∀ (M V T : Type) (ranges : ParallelScan.Ranges n M V T) (func : V → T) (out : ℕ) (m₀ : M) (y),
      TransformRun w ranges func out m₀ depth y →
      (∀ it, y.call = .ret it → it = out + n ∧
        ∀ i < n, ranges.written y.mem i = func (ranges.read m₀ i)) ∧
      y.submitted ≤ 2 ^ depth - 1 ∧
      ∃ z it, (divided (transform ranges func out) w).Reaches y z ∧ z.call = .ret it) ∧
    ∀ (V : Type) (pred : V → Bool) (x : ℕ → V) (y), CountRun w pred x n depth y →
      (∀ count, y.call = .ret count → count = (List.range n).countP fun i => pred (x i)) ∧
      y.submitted ≤ 2 ^ depth - 1 ∧
      ∃ z count, (divided (countIf pred) w).Reaches y z ∧ z.call = .ret count := by
  have hlen : lengthOf w n = 0 → n = 0 := fun h => by rwa [lengthOf, Nat.mod_eq_of_lt hn] at h
  exact ⟨fun _ _ _ _ hr => for_each_covers hlen hr,
    fun _ _ _ _ _ _ _ _ hr => transform_covers hlen hr,
    fun _ _ _ _ hr => count_covers hlen hr⟩

/-- Sixty elements, each of which is added one to. -/
theorem covers_once_sixty : ∃ y, ForEachRun 32 (fun v : ℕ => v + 1) id 60 8 y ∧
    y.call = .ret () ∧ y.submitted ≤ 255 ∧ y.mem.values 59 = 60 ∧ y.mem.applied 59 = 1 := by
  have hall := (covers_once 32 60 8 (by decide)).1 ℕ (fun v : ℕ => v + 1) id
  obtain ⟨z, hz, hret⟩ := (hall _ .refl).2.2
  obtain ⟨hpost, hsub, -⟩ := hall z hz
  exact ⟨z, hz, hret, hsub, hpost hret 59⟩

end Bonostl.ParallelForEach
