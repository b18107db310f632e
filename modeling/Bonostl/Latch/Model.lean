import Bonostl.Interleaving.Program

/-!
# `latch` (`latch.hpp`)

Every member function runs under `mutex_`. The steps are the lock, the accesses to `count_`, the
`notify_all` of `count_down`, which is called with the mutex held, the unlock, and in `wait` the
predicate, the atomic unlock-and-block and the lock after a wake-up, which may be spurious.
`arrive_and_wait(n)` is `count_down(n)` and then `wait()`: it gives the mutex up in between.

`count_` is a `ptrdiff_t` that does not overflow; `count_down` may be called with any `n`. The two
void results tell what has returned.
-/

namespace Bonostl.Latch

open Interleaving

/-- The members; `zero` are the threads blocked on `zero_`. -/
structure Shared (ι : Type) where
  mutex : Option ι
  zero : List ι
  count : ℤ

/-- The operations of a latch. -/
inductive Op where
  | countDown (n : ℤ)
  | tryWait
  | wait
  | arriveAndWait (n : ℤ)
  deriving DecidableEq

/-- `counted` from `count_down`, `opened` from `wait` and `arrive_and_wait`. -/
inductive Res where
  | counted
  | opened
  | bool (b : Bool)
  deriving DecidableEq

/-- Where a thread stands. `arriving` says that the `count_down` is the one of `arrive_and_wait`. -/
inductive Pc where
  | idle
  | lock (o : Op)
  -- count_down
  | sub (arriving : Bool) (n : ℤ)
  | test (arriving : Bool)
  | notifyAll (arriving : Bool)
  | unlock (arriving : Bool)
  | tryCheck
  -- zero_.wait
  | check
  | block
  | wait
  | leave (r : Res)
  | done (r : Res)
  deriving DecidableEq

/-- The scheduler's choice: a call, the next step, or a spurious wake-up. -/
inductive Choice where
  | call (o : Op)
  | run
  | spurious
  deriving DecidableEq

/-- What an operation does once it has the mutex. -/
def Op.begin : Op → Pc
  | .countDown n => .sub false n
  | .arriveAndWait n => .sub true n
  | .tryWait => .tryCheck
  | .wait => .check

/-- What follows `count_down`. -/
def afterCount (arriving : Bool) : Pc := if arriving then .lock .wait else .done .counted

variable {ι : Type} [DecidableEq ι]

/-- One step of a thread. -/
def step (t : ι) (k : Choice) (s : Shared ι) (l : Pc) : Option (Event Op Res × Shared ι × Pc) :=
  match l, k with
  | .idle, .call o => some (.call o, s, .lock o)
  | .lock o, .run =>
    match s.mutex with
    | some _ => none
    | none => some (.tau, { s with mutex := some t }, o.begin)
  | .sub arriving n, .run => some (.tau, { s with count := s.count - n }, .test arriving)
  | .test arriving, .run =>
    some (.tau, s, if s.count ≤ 0 then .notifyAll arriving else .unlock arriving)
  | .notifyAll arriving, .run => some (.tau, { s with zero := [] }, .unlock arriving)
  | .unlock arriving, .run => some (.tau, { s with mutex := none }, afterCount arriving)
  | .tryCheck, .run => some (.tau, s, .leave (.bool (s.count ≤ 0)))
  -- condition_variable::wait
  | .check, .run => some (.tau, s, if s.count ≤ 0 then .leave .opened else .block)
  | .block, .run => some (.tau, { s with mutex := none, zero := t :: s.zero }, .wait)
  | .wait, .spurious =>
    if t ∈ s.zero then some (.tau, { s with zero := s.zero.erase t }, .wait) else none
  | .wait, .run =>
    if t ∈ s.zero then none
    else
      match s.mutex with
      | some _ => none
      | none => some (.tau, { s with mutex := some t }, .check)
  | .leave r, .run => some (.tau, { s with mutex := none }, .done r)
  | .done r, .run => some (.ret r, s, .idle)
  | _, _ => none

/-- The threads that use a latch. -/
def program : Program ι (Shared ι) Pc Choice Op Res := ⟨step⟩

/-- A latch constructed with `expected`. -/
def initial (expected : ℤ) : Config ι (Shared ι) Pc := ⟨⟨none, [], expected⟩, fun _ => .idle⟩

/-- A step of a run. -/
abbrev Step (ι : Type) := Rec ι (Shared ι) Pc Op Res

/-! ## What a step can do -/

/-- The moves of a thread. -/
inductive Move (t : ι) (s : Shared ι) : Choice → Event Op Res → Pc → Shared ι → Pc → Prop
  | call (o) : Move t s (.call o) (.call o) .idle s (.lock o)
  | lock (o) (hm : s.mutex = none) : Move t s .run .tau (.lock o) { s with mutex := some t } o.begin
  | sub (a n) : Move t s .run .tau (.sub a n) { s with count := s.count - n } (.test a)
  | testOpen (a) (hc : s.count ≤ 0) : Move t s .run .tau (.test a) s (.notifyAll a)
  | testShut (a) (hc : 0 < s.count) : Move t s .run .tau (.test a) s (.unlock a)
  | notifyAll (a) : Move t s .run .tau (.notifyAll a) { s with zero := [] } (.unlock a)
  | unlock (a) : Move t s .run .tau (.unlock a) { s with mutex := none } (afterCount a)
  | tryCheck : Move t s .run .tau .tryCheck s (.leave (.bool (s.count ≤ 0)))
  | pass (hc : s.count ≤ 0) : Move t s .run .tau .check s (.leave .opened)
  | fail (hc : 0 < s.count) : Move t s .run .tau .check s .block
  | block : Move t s .run .tau .block { s with mutex := none, zero := t :: s.zero } .wait
  | spurious (ht : t ∈ s.zero) :
      Move t s .spurious .tau .wait { s with zero := s.zero.erase t } .wait
  | wake (ht : t ∉ s.zero) (hm : s.mutex = none) :
      Move t s .run .tau .wait { s with mutex := some t } .check
  | leave (r) : Move t s .run .tau (.leave r) { s with mutex := none } (.done r)
  | ret (r) : Move t s .run (.ret r) (.done r) s .idle

theorem step_move {t : ι} {k : Choice} {s s' : Shared ι} {l l' : Pc} {ev : Event Op Res}
    (hs : step t k s l = some (ev, s', l')) : Move t s k ev l s' l' := by
  unfold step at hs
  cases l with
  | check =>
    cases k <;> cases hs
    split
    · exact .pass ‹_›
    · exact .fail (Int.not_le.mp ‹_›)
  | test a =>
    cases k <;> cases hs
    split
    · exact .testOpen a ‹_›
    · exact .testShut a (Int.not_le.mp ‹_›)
  | _ =>
    cases k
    all_goals dsimp only at hs
    all_goals (repeat' split at hs)
    all_goals cases hs
    all_goals (constructor <;> assumption)

end Bonostl.Latch
