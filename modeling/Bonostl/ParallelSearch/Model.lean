import Mathlib.Data.Nat.Basic
import Mathlib.Data.List.Basic

/-!
# `parallel_find` and the parallel predicates: the values they return

`parallel_find_impl` and `parallel_any_of_impl` are one recursion with an early exit: a call on a
short range, or at depth 0, looks at its elements one by one until it sees the flag `done`; any
other call splits its range, hands the second half to the pool and goes on with the first one
itself. `Parallel.Model` says which tasks this submits; here is what the calls return. They differ
in what a call returns that has found nothing (`miss`) or a match (`hit`), in how a call combines
the results of its halves (`join`), and in the test for an empty range.

A call is a tree: a call that waits has its two halves below it, and every call in the tree can take
the next step. A step reads or writes the flag at most once. The accesses are relaxed: a load may
still read the flag as clear after it has been set, so a choice says, beside the call that moves,
whether a load sees the flag (`seen`).

A range is a list, an iterator a position in it. `length` is exact: the number of elements fits into
an `unsigned long`. The comparisons and predicates do not throw, so the `catch` block of
`parallel_find_impl` is left out. `parallel_count_if`, which has no early exit, is in
`ParallelForEach`.
-/

namespace Bonostl.ParallelSearch

/-- What `parallel_find_impl` and `parallel_any_of_impl` do not share. -/
structure Algo (R : Type) where
  /-- whether the element at a position is a match -/
  tests : ℕ → Bool
  /-- whether an empty range is tested for first -/
  testsEmpty : Bool
  miss : ℕ → R
  hit : ℕ → R
  /-- of `mid_point`, the result of the submitted half and that of the call's own half -/
  join : ℕ → R → R → R

/-- A call, at the place where it is. -/
inductive Call (R : Type) where
  | enter (first last depth : ℕ)
  /-- at the head of the loop -/
  | loop (first last : ℕ)
  | compare (first last : ℕ)
  /-- at `done.store(true)` -/
  | found (first : ℕ)
  /-- at the load of `done` before the range is split -/
  | check (first last depth : ℕ)
  | halves (mid last : ℕ) (async direct : Call R)
  | ret (r : R)
  deriving DecidableEq

/-- One of the two halves of a call: the submitted one, or the call's own. -/
inductive Half where
  | async
  | direct
  deriving DecidableEq

/-- The call that takes a step, by the way to it, and whether it sees a flag that is set. -/
structure Choice where
  path : List Half
  seen : Bool
  deriving DecidableEq

/-- `min_per_thread`. -/
def minPerThread : ℕ := 25

variable {R : Type}

/-- A step of one call: `done` is the flag. A call with two halves moves when both have returned. -/
def Algo.act (A : Algo R) (seen done : Bool) : Call R → Option (Bool × Call R)
  | .enter first last depth =>
    some (done,
      if A.testsEmpty ∧ last - first = 0 then .ret (A.miss last)
      else if last - first < 2 * minPerThread ∨ depth = 0 then .loop first last
      else .check first last depth)
  | .loop first last =>
    some (done, if first = last ∨ (done && seen) then .ret (A.miss last) else .compare first last)
  | .compare first last =>
    some (done, if A.tests first then .found first else .loop (first + 1) last)
  | .found first => some (true, .ret (A.hit first))
  | .check first last depth =>
    let mid := first + (last - first) / 2
    some (done,
      if done && seen then .ret (A.miss last)
      else .halves mid last (.enter mid last (depth - 1)) (.enter first mid (depth - 1)))
  | .halves mid _ (.ret async) (.ret direct) => some (done, .ret (A.join mid async direct))
  | .halves _ _ _ _ => none
  | .ret _ => none

/-- A step of the call at the end of a path. -/
def Algo.step (A : Algo R) (seen : Bool) : List Half → Bool → Call R → Option (Bool × Call R)
  | [], done, c => A.act seen done c
  | .async :: p, done, .halves mid last a d =>
    (A.step seen p done a).map fun x => (x.1, .halves mid last x.2 d)
  | .direct :: p, done, .halves mid last a d =>
    (A.step seen p done d).map fun x => (x.1, .halves mid last a x.2)
  | _ :: _, _, _ => none

/-- A run under a schedule; there is none if the schedule asks for a step that cannot be taken. -/
def Algo.run (A : Algo R) : List Choice → Bool × Call R → Option (Bool × Call R)
  | [], x => some x
  | ch :: σ, x => (A.step ch.seen ch.path x.1 x.2).bind (A.run σ)

/-- The result of a call that has returned. -/
def Call.result : Call R → Option R
  | .ret r => some r
  | _ => none

/-- What a call on the whole of a range of `n` elements, with the flag clear, has returned after a
schedule. -/
def Algo.returns (A : Algo R) (n depth : ℕ) (σ : List Choice) : Option R :=
  (A.run σ (false, .enter 0 n depth)).bind fun x => x.2.result

/-! ## The functions -/

variable {α β : Type}

/-- The elements of a range that pass a test, by position. -/
def testsAt (xs : List α) (p : α → Bool) (i : ℕ) : Bool := xs[i]?.any p

/-- `parallel_find_impl` returns an iterator, and its `last` where it has found nothing. -/
def findAlgo (eq : α → β → Bool) (xs : List α) (m : β) : Algo ℕ where
  tests := testsAt xs fun x => eq x m
  testsEmpty := false
  miss last := last
  hit first := first
  join mid async direct := if direct = mid then async else direct

/-- `parallel_find_impl` on the whole range. -/
def parallelFindImpl (eq : α → β → Bool) (xs : List α) (m : β) (depth : ℕ) (σ : List Choice) :
    Option ℕ := (findAlgo eq xs m).returns xs.length depth σ

/-- `parallel_find`. -/
def parallelFind (eq : α → β → Bool) (xs : List α) (m : β) (σ : List Choice) : Option ℕ :=
  parallelFindImpl eq xs m 8 σ

/-- `parallel_any_of_impl` returns whether it has found a match. -/
def anyOfAlgo (xs : List α) (pred : α → Bool) : Algo Bool where
  tests := testsAt xs pred
  testsEmpty := true
  miss _ := false
  hit _ := true
  join _ async direct := async || direct

/-- `parallel_any_of_impl` on the whole range. -/
def parallelAnyOfImpl (xs : List α) (pred : α → Bool) (depth : ℕ) (σ : List Choice) : Option Bool :=
  (anyOfAlgo xs pred).returns xs.length depth σ

/-- `parallel_any_of`. -/
def parallelAnyOf (xs : List α) (pred : α → Bool) (σ : List Choice) : Option Bool :=
  parallelAnyOfImpl xs pred 8 σ

/-- `parallel_all_of`: no element fails the predicate. -/
def parallelAllOf (xs : List α) (pred : α → Bool) (σ : List Choice) : Option Bool :=
  (parallelAnyOf xs (fun value => !pred value) σ).map fun b => !b

/-- `parallel_none_of`. -/
def parallelNoneOf (xs : List α) (pred : α → Bool) (σ : List Choice) : Option Bool :=
  (parallelAnyOf xs pred σ).map fun b => !b

/-- One step after the other: the range is too short to be split. -/
example : parallelFind (fun x m : ℕ => x == m) [5, 7, 7] 7
    (List.replicate 6 ⟨[], true⟩) = some 1 := by decide

end Bonostl.ParallelSearch
