import Bonostl.Blocks.Wrapped
import Bonostl.ForkJoin.Basic
import Bonostl.ParallelScan.Model

/-!
# `parallel_for_each`, `parallel_transform` and `parallel_count_if`

The three divide a range alike. A call on fewer than 50 elements, or at depth 0, hands the range to
the std algorithm; any other submits the first half to the pool, does the second half itself and
waits for the first. The range is divided at `length / 2`, where `length` is the number of its
elements as an `unsigned long` of `w` bits, and nothing is done where `length` is zero. The std
algorithm goes on to `last`, whatever `length` is.

They differ in what the function is applied to and what becomes of its result (`Pass`). An element
is read in one step and its result stored in the next. An iterator of the input is a position in it.

Out of scope: functions that throw (`Parallel.Model` has them).
-/

namespace Bonostl.ParallelForEach

open Blocks ForkJoin

/-- What the three algorithms do not share. `S` is what a call is given beside its range, `R` what
it returns, `V` what the function returns. -/
structure Pass (M V S R : Type) where
  /-- the function, applied to an element -/
  load : M → ℕ → V
  /-- what is done with its result; `R` is what the std algorithm has come to -/
  store : M → ℕ → R → V → M
  feed : R → V → R
  /-- what the std algorithm starts with -/
  init : S → R
  /-- what the second half is given -/
  advance : S → ℕ → S
  join : R → R → R

/-- Where a call stands. -/
inductive Place (V S R : Type) where
  | enter (first last : ℕ) (s : S) (depth : ℕ)
  | load (i last : ℕ) (r : R)
  | store (i last : ℕ) (r : R) (v : V)
  | ret (r : R)
  deriving DecidableEq

variable {M V S R : Type}

/-- A call of `parallel_for_each`, `parallel_transform` or `parallel_count_if`. -/
def divided (P : Pass M V S R) (w : ℕ) : Algo (Place V S R) Unit R M where
  act
    | .enter first last s depth, m =>
      let length := lengthOf w (last - first)
      if length = 0 then (m, .done (P.init s))
      else if length < 2 * minPerThread ∨ depth = 0 then (m, .go (.load first last (P.init s)))
      else
        let midPoint := first + length / 2
        (m, .fork () (.enter first midPoint s (depth - 1))
          (.enter midPoint last (P.advance s (length / 2)) (depth - 1)))
    | .load i last r, m =>
      if i = last then (m, .done r) else (m, .go (.store i last r (P.load m i)))
    | .store i last r v, m => (P.store m i r v, .go (.load (i + 1) last (P.feed r v)))
    | .ret r, m => (m, .done r)
  join _ firstHalf secondHalf := .ret (P.join firstHalf secondHalf)

/-! ## The three algorithms -/

/-- A range, and how often the function has been applied to each of its elements. -/
structure Elements (V : Type) where
  values : ℕ → V
  applied : ℕ → ℕ

/-- `parallel_for_each`: the function may change the element. -/
def forEach (func : V → V) : Pass (Elements V) V Unit Unit where
  load m i := func (m.values i)
  store m i _ v := ⟨Function.update m.values i v, Function.update m.applied i (m.applied i + 1)⟩
  feed _ _ := ()
  init _ := ()
  advance _ _ := ()
  join _ _ := ()

/-- `parallel_transform`: `S` and `R` are the output iterator. The output begins at `out`. -/
def transform {n : ℕ} {T : Type} (ranges : ParallelScan.Ranges n M V T) (func : V → T) (out : ℕ) :
    Pass M T ℕ ℕ where
  load m i := func (ranges.read m i)
  store m _ it v := ranges.write m (it - out) v
  feed it _ := it + 1
  init it := it
  advance it k := it + k
  join _ outEnd := outEnd

/-- `parallel_count_if` -/
def countIf (pred : V → Bool) : Pass (ℕ → V) Bool Unit ℕ where
  load m i := pred (m i)
  store m _ _ _ := m
  feed count v := if v then count + 1 else count
  init _ := 0
  advance _ _ := ()
  join firstHalf secondHalf := firstHalf + secondHalf

end Bonostl.ParallelForEach
