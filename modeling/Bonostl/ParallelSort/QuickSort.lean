import Mathlib.Order.Nat
import Bonostl.ForkJoin.Basic
import Bonostl.Sorting.Stable

/-!
# `parallel_quick_sort` (`parallel_quick_sort.hpp`)

`do_sort` takes the first element of a list as the pivot and partitions the rest. The part below the
pivot is submitted to the pool, the part above is sorted by the call itself, and the parts are
spliced together around the pivot. `std::partition` and `std::list::sort` are what their
specification says (`ListStd`); the lists are moved between the calls, so the calls share no memory.

A call with an empty list or at depth 0, and one that finds nothing below the pivot or nothing above
it, returns at once. The result is a sort of the input on each of the five exits
(`quick_sort_sorts`).
-/

namespace Bonostl.ParallelSort

open ForkJoin Sorting

variable {α : Type}

/-- What the lists of the standard library do. -/
structure ListStd (lt : α → α → Prop) where
  /-- the list after `std::partition`, and the point where it is divided -/
  partition : (α → Bool) → List α → List α × ℕ
  partition_perm (p : α → Bool) (xs : List α) : (partition p xs).1.Perm xs
  partition_below (p : α → Bool) (xs : List α) :
    ∀ b ∈ (partition p xs).1.take (partition p xs).2, p b = true
  partition_above (p : α → Bool) (xs : List α) :
    ∀ b ∈ (partition p xs).1.drop (partition p xs).2, p b = false
  sort : List α → List α
  sort_spec (xs : List α) : Sorts lt xs (sort xs)

/-- Where a call of `do_sort` stands, or of `parallel_quick_sort`. -/
inductive QuickSort (α : Type) where
  | parallelQuickSort (input : List α)
  | doSort (chunkData : List α) (depth : ℕ)
  | splice (result : List α)
  deriving DecidableEq

variable {lt : α → α → Prop} [DecidableRel lt]

/-- `do_sort` of a list that is neither empty nor sorted sequentially. -/
def divide (std : ListStd lt) (partitionVal : α) (chunkData : List α) (depth : ℕ) :
    Act (QuickSort α) α (List α) :=
  let (chunkData, dividePoint) := std.partition (fun val => lt val partitionVal) chunkData
  let newLowerChunk := chunkData.take dividePoint
  let chunkData := chunkData.drop dividePoint
  if newLowerChunk.isEmpty then .done (partitionVal :: std.sort chunkData)
  else if chunkData.isEmpty then .done (std.sort newLowerChunk ++ [partitionVal])
  else .fork partitionVal (.doSort newLowerChunk (depth - 1)) (.doSort chunkData (depth - 1))

/-- `sorter::do_sort` and `parallel_quick_sort`. -/
def quickSort (std : ListStd lt) : Algo (QuickSort α) α (List α) Unit where
  act
    | .parallelQuickSort [], m => (m, .done [])
    | .parallelQuickSort input, m => (m, .go (.doSort input 8))
    | .doSort [] _, m => (m, .done [])
    | .doSort (val :: chunkData) depth, m =>
      if depth = 0 then (m, .done (std.sort (val :: chunkData)))
      else (m, divide std val chunkData depth)
    | .splice result, m => (m, .done result)
  join partitionVal newLower newHigher := .splice (newLower ++ partitionVal :: newHigher)

/-! ## The parts of a list -/

/-- The parts of a list below a pivot and above it. -/
structure Divided (lt : α → α → Prop) (input : List α) (pivot : α) (lower higher : List α) :
    Prop where
  perm : (lower ++ pivot :: higher).Perm input
  below : ∀ b ∈ lower, lt b pivot
  above : ∀ b ∈ higher, ¬ lt b pivot

section
variable {std : ListStd lt} {input lower higher lower' higher' result : List α} {pivot : α}
  {depth : ℕ}

omit [DecidableRel lt] in
/-- The parts are sorted, then they are spliced. -/
theorem Divided.sorts [IsStrictWeakOrder α lt] (h : Divided lt input pivot lower higher)
    (hl : Sorts lt lower lower') (hh : Sorts lt higher higher') :
    Sorts lt input (lower' ++ pivot :: higher') where
  perm := (hl.perm.append (hh.perm.cons pivot)).trans h.perm
  sorted := sorted_divide hl.sorted hh.sorted (fun b hb => h.below b (hl.perm.mem_iff.mp hb))
    fun b hb => h.above b (hh.perm.mem_iff.mp hb)

omit [DecidableRel lt] in
theorem sorts_nil : Sorts lt ([] : List α) [] := ⟨.refl [], .nil⟩

/-- What `std::partition` leaves. -/
theorem partition_divided (std : ListStd lt) {pivot : α} {xs ys : List α} {n : ℕ}
    (hp : std.partition (fun val => lt val pivot) xs = (ys, n)) :
    Divided lt (pivot :: xs) pivot (ys.take n) (ys.drop n) := by
  have hperm := std.partition_perm (fun val => lt val pivot) xs
  have hbelow := std.partition_below (fun val => lt val pivot) xs
  have habove := std.partition_above (fun val => lt val pivot) xs
  rw [hp] at hperm hbelow habove
  refine ⟨List.perm_middle.trans (.cons pivot ?_), fun b hb => ?_, fun b hb => ?_⟩
  · rwa [List.take_append_drop]
  · simpa using hbelow b hb
  · simpa using habove b hb

/-- `do_sort` below its first two exits either returns a sort or submits the part below the
pivot. -/
theorem divide_cases [IsStrictWeakOrder α lt] (std : ListStd lt) (pivot : α) (xs : List α)
    (depth : ℕ) :
    (∃ result, divide std pivot xs depth = .done result ∧ Sorts lt (pivot :: xs) result) ∨
      ∃ lower higher, Divided lt (pivot :: xs) pivot lower higher ∧
        divide std pivot xs depth =
          .fork pivot (.doSort lower (depth - 1)) (.doSort higher (depth - 1)) := by
  rcases hp : std.partition (fun val => lt val pivot) xs with ⟨ys, n⟩
  have hd := partition_divided std hp
  simp only [divide, hp]
  split
  · rename_i he
    rw [List.isEmpty_iff.mp he] at hd
    exact .inl ⟨_, rfl, hd.sorts sorts_nil (std.sort_spec _)⟩
  · split
    · rename_i he
      rw [List.isEmpty_iff.mp he] at hd
      exact .inl ⟨_, rfl, hd.sorts (std.sort_spec _) sorts_nil⟩
    · exact .inr ⟨_, _, hd, rfl⟩
end

/-! ## What a call does with its list -/

/-- What holds at each place of a call. -/
def QuickSort.Own (lt : α → α → Prop) (input : List α) : QuickSort α → Prop
  | .parallelQuickSort xs | .doSort xs _ => xs = input
  | .splice result => Sorts lt input result

/-- The halves a call submits, and the steps it takes. -/
def QuickSort.halves : QuickSort α → ℕ
  | .parallelQuickSort _ => halvesOf 8
  | .doSort _ depth => halvesOf depth
  | .splice _ => 0

/-- The steps of its own that a call takes. -/
def QuickSort.steps : QuickSort α → ℕ
  | .parallelQuickSort _ => stepsOf 8 + 1
  | .doSort _ depth => stepsOf depth
  | .splice _ => 0

/-- What a step of a call can do. -/
inductive Acts (lt : α → α → Prop) (input : List α) (s : QuickSort α) :
    Act (QuickSort α) α (List α) → Prop
  | enter (h : s.steps = stepsOf 8 + 1) (h' : s.halves = halvesOf 8) :
      Acts lt input s (.go (.doSort input 8))
  | returns {result : List α} (h : Sorts lt input result) : Acts lt input s (.done result)
  | divides {pivot : α} {lower higher : List α} {depth : ℕ}
      (h : Divided lt input pivot lower higher)
      (hd : depth ≠ 0) (hs : s.steps = stepsOf depth) (hh : s.halves = halvesOf depth) :
      Acts lt input s (.fork pivot (.doSort lower (depth - 1)) (.doSort higher (depth - 1)))

section
variable [IsStrictWeakOrder α lt] {input : List α} {s : QuickSort α}

/-- **The exits of a call.** -/
theorem act_cases (std : ListStd lt) (h : s.Own lt input) (m : Unit) :
    ∃ act, (quickSort std).act s m = (m, act) ∧ Acts lt input s act := by
  cases s with
  | parallelQuickSort xs =>
    obtain rfl := h
    cases xs with
    | nil => exact ⟨_, rfl, .returns sorts_nil⟩
    | cons val xs => exact ⟨_, rfl, .enter rfl rfl⟩
  | doSort xs depth =>
    obtain rfl := h
    cases xs with
    | nil => exact ⟨_, rfl, .returns sorts_nil⟩
    | cons val xs =>
      simp only [quickSort]
      split
      · exact ⟨_, rfl, .returns (std.sort_spec _)⟩
      · rename_i hd
        refine ⟨_, rfl, ?_⟩
        rcases divide_cases std val xs depth with ⟨result, hact, hs⟩ | ⟨lower, higher, hdiv, hact⟩
        · exact hact ▸ .returns hs
        · exact hact ▸ .divides hdiv hd rfl rfl
  | splice result => exact ⟨_, rfl, .returns h⟩

/-- The contract of a call: its result is a sort of its list. -/
def quickSortContract (std : ListStd lt) : Contract (quickSort std) (List α) where
  Own input _ s := s.Own lt input
  Post input _ result := Sorts lt input result
  Split := Divided lt
  Change _ _ _ := True
  Stable _ _ _ := True
  go {input m s m' s'} h ha := by
    obtain ⟨act, hact, hs⟩ := act_cases std h m
    cases hact.symm.trans ha
    cases hs
    exact ⟨rfl, trivial⟩
  fork {input m s m' k a d} h ha := by
    obtain ⟨act, hact, hs⟩ := act_cases std h m
    cases hact.symm.trans ha
    cases hs with
    | divides hdiv => exact ⟨trivial, _, _, hdiv, rfl, rfl⟩
  done {input m s m' r} h ha := by
    obtain ⟨act, hact, hs⟩ := act_cases std h m
    cases hact.symm.trans ha
    cases hs with
    | returns hr => exact ⟨hr, trivial⟩
  join hs ha hd := hs.sorts ha hd
  change_refl _ _ := trivial
  change_trans _ _ := trivial
  change_split _ _ := trivial
  apart _ := ⟨fun _ => trivial, fun _ => trivial⟩
  own_stable h _ := h
  post_stable h _ := h
  split_stable _ _ := ⟨trivial, trivial⟩

/-- The halves and the steps of a call are bounded. -/
def quickSortMeasure (std : ListStd lt) : Measure (quickSortContract std) where
  tasks := QuickSort.halves
  cost := QuickSort.steps
  go {input m s m' s'} h ha := by
    obtain ⟨act, hact, hs⟩ := act_cases std h m
    cases hact.symm.trans ha
    cases hs with
    | enter h h' => exact ⟨Nat.le_of_eq h'.symm, h ▸ Nat.lt_succ_self _⟩
  fork {input m s m' k a d} h ha := by
    obtain ⟨act, hact, hs⟩ := act_cases std h m
    cases hact.symm.trans ha
    cases hs with
    | divides _ hd hs hh =>
      rw [hs, hh]
      exact ⟨Nat.le_of_eq (halvesOf_split hd), Nat.le_of_eq (stepsOf_split hd)⟩
  join _ _ _ := ⟨rfl, Nat.zero_le _⟩

/-- **The result is a sort of the input**, for every depth, every partition of the standard library
and every schedule of the parts below the pivots. -/
theorem quick_sort_sorts (std : ListStd lt) (input : List α) {s : QuickSort α}
    (hs : s = .parallelQuickSort input ∨ ∃ depth, s = .doSort input depth) (m : Unit)
    {y : State (QuickSort α) α (List α) Unit} (hr : (quickSort std).Reaches (start s m) y) :
    (∀ result, y.call = .ret result →
      result.Perm input ∧ result.Pairwise fun a b => ¬ lt b a) ∧
      ∃ z result, (quickSort std).Reaches y z ∧ z.call = .ret result := by
  have hown : (quickSortContract std).Own input m s := by
    rcases hs with rfl | ⟨depth, rfl⟩
    · rfl
    · rfl
  refine ⟨fun result hret => ?_, (quickSortMeasure std).returns hown hr⟩
  have hpost := (Contract.returns_post hown hr hret).1
  exact ⟨hpost.perm, hpost.sorted⟩

/-- A stable partition, and `List.mergeSort`. -/
def listStd (lt : α → α → Prop) [DecidableRel lt] [IsStrictWeakOrder α lt] : ListStd lt where
  partition p xs := (xs.filter p ++ xs.filter fun b => !p b, (xs.filter p).length)
  partition_perm p xs := List.filter_append_perm p xs
  partition_below p xs b hb := by
    rw [List.take_left] at hb
    exact List.of_mem_filter hb
  partition_above p xs b hb := by
    rw [List.drop_left] at hb
    simpa using List.of_mem_filter hb
  sort xs := xs.mergeSort fun a b => !decide (lt b a)
  sort_spec xs := (mergeSort_stable xs).toSorts
end

/-- A list that is divided once, with the upper part sorted first. -/
theorem quick_sort_sorts_three :
    ∃ y result,
      (quickSort (listStd fun a b : ℕ => a < b)).Reaches (start (.doSort [2, 3, 1] 1) ()) y ∧
      y.call = .ret result ∧ result.Perm [2, 3, 1] ∧ result.Pairwise fun a b => ¬ b < a := by
  let std := listStd fun a b : ℕ => a < b
  have h1 : (quickSort std).Reaches (start (.doSort [2, 3, 1] 1) ())
      ⟨(), 1, .halves 2 (.run (.doSort [1] 0)) (.run (.doSort [3] 0))⟩ := .single ⟨[], 1, rfl, rfl⟩
  have h2 := h1.tail ⟨[.direct], 0, rfl, rfl⟩
    (c := ⟨(), 1, .halves 2 (.run (.doSort [1] 0)) (.ret (std.sort [3]))⟩)
  have h3 := h2.tail ⟨[.async], 0, rfl, rfl⟩
    (c := ⟨(), 1, .halves 2 (.ret (std.sort [1])) (.ret (std.sort [3]))⟩)
  have h4 := h3.tail ⟨[], 0, rfl, rfl⟩
    (c := ⟨(), 1, .run (.splice (std.sort [1] ++ 2 :: std.sort [3]))⟩)
  have h5 := h4.tail ⟨[], 0, rfl, rfl⟩ (c := ⟨(), 1, .ret (std.sort [1] ++ 2 :: std.sort [3])⟩)
  exact ⟨_, _, h5, rfl, (quick_sort_sorts std [2, 3, 1] (.inr ⟨1, rfl⟩) () h5).1 _ rfl⟩

end Bonostl.ParallelSort
