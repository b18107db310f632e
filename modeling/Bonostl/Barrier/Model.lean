import Bonostl.Interleaving.Program
import Mathlib.Data.Fintype.Card

/-!
# `barrier` (`barrier.hpp`)

Both operations run under `mutex_`. The steps are those of the source, one statement each: the lock,
the reads and writes of `expected_`, `count_` and `generation_`, the call of the completion
function, the unlock and the `notify_all` of the last thread to arrive; for the others the predicate
of the wait, the atomic unlock-and-block, and the lock after a wake-up, which may be spurious.

`arrived_` is the list of the threads blocked on it. `generation_` is a `std::size_t` of 64 bits and
wraps; `expected_` and `count_` are signed and count participants, so integers serve. The completion
function does not throw and touches nothing of the barrier: it is the step from `complete`, which
does nothing where there is no function.

Out of scope: a completion function that throws or calls the barrier.
-/

namespace Bonostl.Barrier

open Interleaving

/-- The members of the barrier. -/
structure Shared (ι : Type) where
  mutex : Option ι
  arrived : List ι
  expected : ℤ
  count : ℤ
  generation : ℕ
  completion : Bool

/-- The operations of a barrier. -/
inductive Op where
  | arriveAndWait
  | arriveAndDrop
  deriving DecidableEq

/-- Where a thread stands; `phase` is the local variable of `arrive_and_wait`. -/
inductive Pc where
  | idle
  | lock (o : Op)
  | readPhase
  | countDown (phase : ℕ)
  | dropExpected
  | dropCount
  -- complete_phase
  | complete (o : Op)
  | resetCount (o : Op)
  | nextGeneration (o : Op)
  | unlock (o : Op)
  | notifyAll (o : Op)
  -- arrived_.wait
  | check (phase : ℕ)
  | block (phase : ℕ)
  | wait (phase : ℕ)
  | leave (o : Op)
  | done (o : Op)
  deriving DecidableEq

/-- The scheduler's choice: a call, the next step, or a spurious wake-up. -/
inductive Choice where
  | call (o : Op)
  | run
  | spurious
  deriving DecidableEq

variable {ι : Type} [DecidableEq ι]

/-- What an operation does once it has the mutex. -/
def Op.begin : Op → Pc
  | .arriveAndWait => .readPhase
  | .arriveAndDrop => .dropExpected

/-- One step of a thread. -/
def step (t : ι) (k : Choice) (s : Shared ι) (l : Pc) : Option (Event Op Unit × Shared ι × Pc) :=
  match l, k with
  | .idle, .call o => some (.call o, s, .lock o)
  | .lock o, .run =>
    match s.mutex with
    | some _ => none
    | none => some (.tau, { s with mutex := some t }, o.begin)
  -- arrive_and_wait
  | .readPhase, .run => some (.tau, s, .countDown s.generation)
  | .countDown phase, .run =>
    some (.tau, { s with count := s.count - 1 },
      if s.count - 1 = 0 then .complete .arriveAndWait else .check phase)
  -- arrive_and_drop
  | .dropExpected, .run => some (.tau, { s with expected := s.expected - 1 }, .dropCount)
  | .dropCount, .run =>
    some (.tau, { s with count := s.count - 1 },
      if s.count - 1 = 0 then .complete .arriveAndDrop else .leave .arriveAndDrop)
  -- complete_phase
  | .complete o, .run => some (.tau, s, .resetCount o)
  | .resetCount o, .run => some (.tau, { s with count := s.expected }, .nextGeneration o)
  | .nextGeneration o, .run =>
    some (.tau, { s with generation := (s.generation + 1) % 2 ^ 64 }, .unlock o)
  | .unlock o, .run => some (.tau, { s with mutex := none }, .notifyAll o)
  | .notifyAll o, .run => some (.tau, { s with arrived := [] }, .done o)
  -- condition_variable::wait
  | .check phase, .run =>
    some (.tau, s, if s.generation ≠ phase then .leave .arriveAndWait else .block phase)
  | .block phase, .run =>
    some (.tau, { s with mutex := none, arrived := t :: s.arrived }, .wait phase)
  | .wait phase, .spurious =>
    if t ∈ s.arrived then
      some (.tau, { s with arrived := s.arrived.erase t }, .wait phase)
    else none
  | .wait phase, .run =>
    if t ∈ s.arrived then none
    else
      match s.mutex with
      | some _ => none
      | none => some (.tau, { s with mutex := some t }, .check phase)
  | .leave o, .run => some (.tau, { s with mutex := none }, .done o)
  | .done _, .run => some (.ret (), s, .idle)
  | _, _ => none

/-- The threads that use a barrier. -/
def program : Program ι (Shared ι) Pc Choice Op Unit := ⟨step⟩

/-- A new barrier that expects the threads of `ι`, with a completion function or without. -/
def initial [Fintype ι] (completion : Bool) : Config ι (Shared ι) Pc where
  shared := ⟨none, [], Fintype.card ι, Fintype.card ι, 0, completion⟩
  loc := fun _ => .idle

/-- A step of a run. -/
abbrev Step (ι : Type) := Rec ι (Shared ι) Pc Op Unit

/-! ## What a step can do -/

/-- The moves of a thread. -/
inductive Move (t : ι) (s : Shared ι) : Choice → Event Op Unit → Pc → Shared ι → Pc → Prop
  | call (o) : Move t s (.call o) (.call o) .idle s (.lock o)
  | lock (o) (hm : s.mutex = none) : Move t s .run .tau (.lock o) { s with mutex := some t } o.begin
  | readPhase : Move t s .run .tau .readPhase s (.countDown s.generation)
  | countDown (phase) (hc : s.count - 1 ≠ 0) :
      Move t s .run .tau (.countDown phase) { s with count := s.count - 1 } (.check phase)
  | countLast (phase) (hc : s.count - 1 = 0) : Move t s .run .tau (.countDown phase)
      { s with count := s.count - 1 } (.complete .arriveAndWait)
  | dropExpected : Move t s .run .tau .dropExpected { s with expected := s.expected - 1 } .dropCount
  | dropCount (hc : s.count - 1 ≠ 0) :
      Move t s .run .tau .dropCount { s with count := s.count - 1 } (.leave .arriveAndDrop)
  | dropLast (hc : s.count - 1 = 0) :
      Move t s .run .tau .dropCount { s with count := s.count - 1 } (.complete .arriveAndDrop)
  | complete (o) : Move t s .run .tau (.complete o) s (.resetCount o)
  | resetCount (o) :
      Move t s .run .tau (.resetCount o) { s with count := s.expected } (.nextGeneration o)
  | nextGeneration (o) : Move t s .run .tau (.nextGeneration o)
      { s with generation := (s.generation + 1) % 2 ^ 64 } (.unlock o)
  | unlock (o) : Move t s .run .tau (.unlock o) { s with mutex := none } (.notifyAll o)
  | notifyAll (o) : Move t s .run .tau (.notifyAll o) { s with arrived := [] } (.done o)
  | pass (phase) (hg : s.generation ≠ phase) :
      Move t s .run .tau (.check phase) s (.leave .arriveAndWait)
  | fail (phase) (hg : s.generation = phase) : Move t s .run .tau (.check phase) s (.block phase)
  | block (phase) : Move t s .run .tau (.block phase)
      { s with mutex := none, arrived := t :: s.arrived } (.wait phase)
  | spurious (phase) : Move t s .spurious .tau (.wait phase)
      { s with arrived := s.arrived.erase t } (.wait phase)
  | wake (phase) (hm : s.mutex = none) :
      Move t s .run .tau (.wait phase) { s with mutex := some t } (.check phase)
  | leave (o) : Move t s .run .tau (.leave o) { s with mutex := none } (.done o)
  | ret (o) : Move t s .run (.ret ()) (.done o) s .idle

theorem step_move {t : ι} {k : Choice} {s s' : Shared ι} {l l' : Pc} {ev : Event Op Unit}
    (hs : step t k s l = some (ev, s', l')) : Move t s k ev l s' l' := by
  unfold step at hs
  split at hs
  all_goals (repeat' split at hs)
  all_goals cases hs
  all_goals (constructor <;> first | assumption | simp_all)

end Bonostl.Barrier
