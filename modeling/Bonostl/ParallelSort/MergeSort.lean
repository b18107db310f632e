import Mathlib.Data.List.Range
import Mathlib.Order.RelClasses
import Bonostl.Blocks.Wrapped
import Bonostl.ForkJoin.Basic
import Bonostl.Sorting.Stable

/-!
# `parallel_merge_sort` (`parallel_merge_sort.hpp`)

A call on a range of 512 elements or more submits the first half to the pool, sorts the second half
itself and merges the two when both are sorted. `std::stable_sort` and `std::inplace_merge` are
taken as their specification has them (`Std`); each is one step here, since no other call reads or
writes the range in the meantime. An iterator is a position in a memory.

The contract of a call is its range with the elements it begins with; what it may change is the
range. So the calls of the two halves, which lie apart, run in any order, and the range ends as the
stable sort of what it held (`merge_sort_stable`), also where `length` has been truncated to `w`
bits.
-/

namespace Bonostl.ParallelSort

open Blocks ForkJoin Sorting

variable {α : Type}

/-! ## Ranges -/

/-- The elements of a range. -/
def contents (m : ℕ → α) (first last : ℕ) : List α := (List.range' first (last - first)).map m

/-- A memory with other elements from `first` on. -/
def overwrite (m : ℕ → α) (first : ℕ) (xs : List α) (i : ℕ) : α :=
  if first ≤ i then (xs[i - first]?).getD (m i) else m i

section
variable {m m' : ℕ → α} {first mid last : ℕ} {xs : List α}

theorem contents_append (h : first ≤ mid) (h' : mid ≤ last) :
    contents m first mid ++ contents m mid last = contents m first last := by
  unfold contents
  rw [← List.map_append]
  have hsplit := List.range'_append_1 (s := first) (m := mid - first) (n := last - mid)
  rw [Nat.add_sub_cancel' h] at hsplit
  rw [hsplit]
  congr 2
  omega

theorem contents_congr (h : ∀ i, first ≤ i → i < last → m' i = m i) :
    contents m' first last = contents m first last := by
  refine List.map_congr_left fun i hi => ?_
  rw [List.mem_range'_1] at hi
  exact h i hi.1 (by omega)

theorem contents_overwrite (h : xs.length = last - first) :
    contents (overwrite m first xs) first last = xs := by
  refine List.ext_getElem (by simp [contents, h]) fun i h1 h2 => ?_
  simp [contents, overwrite, h2]

theorem overwrite_outside {i : ℕ} (h : i < first ∨ first + xs.length ≤ i) :
    overwrite m first xs i = m i := by
  unfold overwrite
  split
  · rw [List.getElem?_eq_none (by omega)]
    rfl
  · rfl
end

/-! ## The algorithm -/

/-- The algorithms of the standard library. -/
structure Std (lt : α → α → Prop) [DecidableRel lt] where
  stableSort : List α → List α
  stableSort_spec (xs : List α) : StableSort lt xs (stableSort xs)
  inplaceMerge : List α → List α → List α
  inplaceMerge_spec {xs ys : List α} (hx : Sorted lt xs) (hy : Sorted lt ys) :
    StableSort lt (xs ++ ys) (inplaceMerge xs ys)

/-- `sequential_threshold`. -/
def sequentialThreshold : ℕ := 512

/-- Where a call of `parallel_merge_sort` stands. -/
inductive MergeSort where
  | enter (first last depth : ℕ)
  | stableSort (first last : ℕ)
  | inplaceMerge (first mid last : ℕ)
  deriving DecidableEq

/-- `first`, `mid_point` and `last` of a call that waits. -/
structure Parts where
  first : ℕ
  mid : ℕ
  last : ℕ
  deriving DecidableEq

variable {lt : α → α → Prop} [DecidableRel lt]

/-- `parallel_merge_sort`, with an `unsigned long` of `w` bits. -/
def parallelMergeSort (std : Std lt) (w : ℕ) : Algo MergeSort Parts Unit (ℕ → α) where
  act
    | .enter first last depth, m =>
      let length := lengthOf w (last - first)
      if length < sequentialThreshold ∨ depth = 0 then (m, .go (.stableSort first last))
      else
        let mid := first + length / 2
        (m, .fork ⟨first, mid, last⟩ (.enter first mid (depth - 1)) (.enter mid last (depth - 1)))
    | .stableSort first last, m =>
      (overwrite m first (std.stableSort (contents m first last)), .done ())
    | .inplaceMerge first mid last, m =>
      (overwrite m first (std.inplaceMerge (contents m first mid) (contents m mid last)), .done ())
  join parts _ _ := .inplaceMerge parts.first parts.mid parts.last

/-! ## What a call does to its range -/

/-- A range, and what it holds when the call begins. -/
structure Region (α : Type) where
  first : ℕ
  last : ℕ
  input : List α

/-- What holds at each place of a call. -/
def MergeSort.Own (lt : α → α → Prop) [DecidableRel lt] (γ : Region α) (m : ℕ → α) :
    MergeSort → Prop
  | .enter first last _ | .stableSort first last =>
    first = γ.first ∧ last = γ.last ∧ first ≤ last ∧ contents m first last = γ.input
  | .inplaceMerge first mid last => first = γ.first ∧ last = γ.last ∧ first ≤ mid ∧ mid ≤ last ∧
      ∃ xs ys, γ.input = xs ++ ys ∧ StableSort lt xs (contents m first mid) ∧
        StableSort lt ys (contents m mid last)

/-- Two halves of a range. -/
def Region.Split (γ : Region α) (parts : Parts) (γ₁ γ₂ : Region α) : Prop :=
  parts = ⟨γ.first, γ₁.last, γ.last⟩ ∧ γ₁.first = γ.first ∧ γ₂.first = γ₁.last ∧ γ₂.last = γ.last ∧
    γ₁.first ≤ γ₁.last ∧ γ₂.first ≤ γ₂.last ∧ γ.input = γ₁.input ++ γ₂.input

section
variable {γ γ₁ γ₂ : Region α} {m m' : ℕ → α} {s : MergeSort}

theorem MergeSort.Own.stable (h : s.Own lt γ m) (hm : ∀ i, γ.first ≤ i → i < γ.last → m' i = m i) :
    s.Own lt γ m' := by
  cases s with
  | enter first last depth | stableSort first last =>
    obtain ⟨rfl, rfl, hle, hc⟩ := h
    exact ⟨rfl, rfl, hle, (contents_congr hm).trans hc⟩
  | inplaceMerge first mid last =>
    obtain ⟨rfl, rfl, h1, h2, xs, ys, hin, hx, hy⟩ := h
    refine ⟨rfl, rfl, h1, h2, xs, ys, hin, ?_, ?_⟩
    · rwa [contents_congr fun i hi hi' => hm i hi (hi'.trans_le h2)]
    · rwa [contents_congr fun i hi hi' => hm i (h1.trans hi) hi']

/-- A sort of a range has its length. -/
theorem sorted_length {first last : ℕ} {xs : List α}
    (h : StableSort lt (contents m first last) xs) :
    xs.length = last - first := by
  rw [h.perm.length_eq]
  simp [contents]

/-- A sort of a range, written to it. -/
theorem sorts_range {xs : List α} (hle : γ.first ≤ γ.last) (hlen : xs.length = γ.last - γ.first)
    (h : StableSort lt γ.input xs) :
    StableSort lt γ.input (contents (overwrite m γ.first xs) γ.first γ.last) ∧
      ∀ i, i < γ.first ∨ γ.last ≤ i → overwrite m γ.first xs i = m i := by
  rw [contents_overwrite hlen]
  exact ⟨h, fun i hi => overwrite_outside (by omega)⟩

/-- The contract of a call. -/
def mergeSortContract (std : Std lt) (w : ℕ) : Contract (parallelMergeSort std w) (Region α) where
  Own γ m s := s.Own lt γ m
  Post γ m _ := StableSort lt γ.input (contents m γ.first γ.last)
  Split := Region.Split
  Change γ m m' := ∀ i, i < γ.first ∨ γ.last ≤ i → m' i = m i
  Stable γ m m' := ∀ i, γ.first ≤ i → i < γ.last → m' i = m i
  go {γ m s m' s'} h ha := by
    cases s with
    | enter first last depth =>
      simp only [parallelMergeSort] at ha
      split at ha <;> cases ha
      exact ⟨h, fun _ _ => rfl⟩
    | _ => cases ha
  fork {γ m s m' k a d} h ha := by
    cases s with
    | enter first last depth =>
      obtain ⟨rfl, rfl, hle, hc⟩ := h
      simp only [parallelMergeSort] at ha
      split at ha <;> cases ha
      have hlen := lengthOf_le w (γ.last - γ.first)
      have hmid : γ.first + lengthOf w (γ.last - γ.first) / 2 ≤ γ.last := by omega
      refine ⟨fun _ _ => rfl, ⟨γ.first, _, contents m γ.first _⟩, ⟨_, γ.last, contents m _ γ.last⟩,
        ⟨rfl, rfl, rfl, rfl, Nat.le_add_right _ _, hmid, ?_⟩, ⟨rfl, rfl, Nat.le_add_right _ _, rfl⟩,
        rfl, rfl, hmid, rfl⟩
      rw [contents_append (Nat.le_add_right _ _) hmid, hc]
    | _ => cases ha
  done {γ m s m' r} h ha := by
    cases s with
    | enter first last depth =>
      simp only [parallelMergeSort] at ha
      split at ha <;> cases ha
    | stableSort first last =>
      obtain ⟨rfl, rfl, hle, hc⟩ := h
      cases ha
      have hs := std.stableSort_spec (contents m γ.first γ.last)
      have hlen := sorted_length hs
      rw [hc] at hs hlen ⊢
      exact sorts_range hle hlen hs
    | inplaceMerge first mid last =>
      obtain ⟨rfl, rfl, h1, h2, xs, ys, hin, hx, hy⟩ := h
      cases ha
      have hs := std.inplaceMerge_spec hx.sorted hy.sorted
      have hlen := hs
      rw [contents_append h1 h2] at hlen
      refine sorts_range (h1.trans h2) (sorted_length hlen) ?_
      rw [hin]
      exact hx.append hy hs
  join {γ k γ₁ γ₂ m a d} hs ha hd := by
    obtain ⟨rfl, h1, h2, h3, h4, h5, hin⟩ := hs
    refine ⟨rfl, rfl, h1 ▸ h4, ?_, _, _, hin, ?_, ?_⟩
    · rwa [← h2, ← h3]
    · rwa [h1] at ha
    · rwa [h2, h3] at hd
  change_refl _ _ _ _ := rfl
  change_trans h h' i hi := (h' i hi).trans (h i hi)
  change_split {γ k γ₁ γ₂ m m'} hs h i hi := by
    obtain ⟨-, h1, h2, h3, h4, h5, -⟩ := hs
    rcases h with h | h
    · exact h i (by omega)
    · exact h i (by omega)
  apart {γ k γ₁ γ₂ m m'} hs := by
    obtain ⟨-, h1, h2, h3, h4, h5, -⟩ := hs
    exact ⟨fun h i hi hi' => h i (by omega), fun h i hi hi' => h i (by omega)⟩
  own_stable h hm := h.stable hm
  post_stable {γ m m' r} h hm := by rwa [contents_congr hm]
  split_stable {γ k γ₁ γ₂ m m'} hs hm := by
    obtain ⟨-, h1, h2, h3, h4, h5, -⟩ := hs
    exact ⟨fun i hi hi' => hm i (by omega) (by omega), fun i hi hi' => hm i (by omega) (by omega)⟩

/-! ## The calls return -/

/-- The halves a call submits, and the steps it takes. -/
def mergeSortMeasure (std : Std lt) (w : ℕ) : Measure (mergeSortContract (α := α) std w) where
  tasks
    | .enter _ _ depth => halvesOf depth
    | _ => 0
  cost
    | .enter _ _ depth => stepsOf depth
    | _ => 0
  go {γ m s m' s'} _ ha := by
    cases s with
    | enter first last depth =>
      simp only [parallelMergeSort] at ha
      split at ha <;> cases ha
      exact ⟨Nat.zero_le _, stepsOf_pos depth⟩
    | _ => cases ha
  fork {γ m s m' k a d} _ ha := by
    cases s with
    | enter first last depth =>
      simp only [parallelMergeSort] at ha
      split at ha
      · cases ha
      · rename_i hd
        cases ha
        have hd : depth ≠ 0 := fun h => hd (.inr h)
        exact ⟨(halvesOf_split hd).le, (stepsOf_split hd).le⟩
    | _ => cases ha
  join _ _ _ := ⟨rfl, Nat.zero_le _⟩
end

/-- **The range ends as its stable sort**, for every schedule of the halves. -/
theorem merge_sort_stable [IsStrictWeakOrder α lt] (std : Std lt) (w : ℕ) {first last : ℕ}
    (h : first ≤ last) (depth : ℕ) (m₀ : ℕ → α) {y : State MergeSort Parts Unit (ℕ → α)}
    (hr : (parallelMergeSort std w).Reaches (start (.enter first last depth) m₀) y) :
    (y.call = .ret () →
      contents y.mem first last = std.stableSort (contents m₀ first last) ∧
        StableSort lt (contents m₀ first last) (contents y.mem first last) ∧
        ∀ i, i < first ∨ last ≤ i → y.mem i = m₀ i) ∧
      ∃ z, (parallelMergeSort std w).Reaches y z ∧ z.call = .ret () := by
  have hown : (mergeSortContract std w).Own ⟨first, last, contents m₀ first last⟩ m₀
      (.enter first last depth) := ⟨rfl, rfl, h, rfl⟩
  constructor
  · intro hret
    obtain ⟨hpost, hout⟩ := Contract.returns_post hown hr hret
    exact ⟨hpost.unique (std.stableSort_spec _), hpost, hout⟩
  · obtain ⟨z, r, hz, hret⟩ := (mergeSortMeasure std w).returns hown hr
    exact ⟨z, hz, hret⟩

/-- The algorithms as `List.mergeSort` has them. -/
def listSort (lt : α → α → Prop) [DecidableRel lt] [IsStrictWeakOrder α lt] : Std lt where
  stableSort xs := xs.mergeSort fun a b => !decide (lt b a)
  stableSort_spec := mergeSort_stable
  inplaceMerge xs ys := (xs ++ ys).mergeSort fun a b => !decide (lt b a)
  inplaceMerge_spec _ _ := mergeSort_stable _

/-- A range that is divided once, with the second half sorted first. -/
theorem merge_sort_stable_halves :
    ∃ y z, (parallelMergeSort (listSort fun a b : ℕ => a < b) 32).Reaches
      (start (.enter 0 600 1) fun i => 600 - i) y ∧
      y.call = .halves ⟨0, 300, 600⟩ (.ret ()) (.ret ()) ∧
      (parallelMergeSort (listSort fun a b : ℕ => a < b) 32).Reaches y z ∧ z.call = .ret () ∧
      contents z.mem 0 600 =
        (listSort fun a b : ℕ => a < b).stableSort (contents (fun i => 600 - i) 0 600) := by
  let A := parallelMergeSort (listSort fun a b : ℕ => a < b) 32
  let m : ℕ → ℕ := fun i => 600 - i
  have h1 : A.Reaches (start (.enter 0 600 1) m)
      ⟨m, 1, .halves ⟨0, 300, 600⟩ (.run (.enter 0 300 0)) (.run (.enter 300 600 0))⟩ :=
    .single ⟨[], 1, rfl, rfl⟩
  have h2 := h1.tail ⟨[.direct], 0, rfl, rfl⟩
    (c := ⟨m, 1, .halves ⟨0, 300, 600⟩ (.run (.enter 0 300 0)) (.run (.stableSort 300 600))⟩)
  have h3 := h2.tail ⟨[.direct], 0, rfl, rfl⟩
    (c := ⟨_, 1, .halves ⟨0, 300, 600⟩ (.run (.enter 0 300 0)) (.ret ())⟩)
  have h4 := h3.tail ⟨[.async], 0, rfl, rfl⟩
    (c := ⟨_, 1, .halves ⟨0, 300, 600⟩ (.run (.stableSort 0 300)) (.ret ())⟩)
  have h5 := h4.tail ⟨[.async], 0, rfl, rfl⟩
    (c := ⟨_, 1, .halves ⟨0, 300, 600⟩ (.ret ()) (.ret ())⟩)
  obtain ⟨z, hz, hret⟩ := (merge_sort_stable _ 32 (Nat.zero_le 600) 1 m h5).2
  exact ⟨_, z, h5, rfl, hz, hret,
    ((merge_sort_stable _ 32 (Nat.zero_le 600) 1 m (h5.trans hz)).1 hret).1⟩

end Bonostl.ParallelSort
