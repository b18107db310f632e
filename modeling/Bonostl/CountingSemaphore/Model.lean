import Bonostl.Interleaving.Monitor

/-!
# `counting_semaphore` (`semaphore.hpp`)

`acquire` waits on `not_empty_` until `count_` is positive, `try_acquire` gives up where it would
wait, and `release(count)` adds the permits under `mutex_` and calls `notify_one` `count` times
after it has released it. The steps are those a scheduler can separate: the lock, the predicate, the
atomic unlock-and-block of `wait`, the lock after a wake-up, the access to `count_`, the unlock and
each `notify_one`.

`count_` is a `ptrdiff_t` that does not overflow; `release` is called with a count that is not
negative. `binary_semaphore` hands its calls on to one of these and adds nothing.

Out of scope: a `release` with a negative count.
-/

namespace Bonostl.CountingSemaphore

open Interleaving

/-- The members; `blocked` are the threads blocked on `not_empty_`. -/
structure Shared (ι : Type) where
  mutex : Option ι
  blocked : List ι
  count : ℤ

/-- The operations of a semaphore. -/
inductive Op where
  | acquire
  | tryAcquire
  | release (count : ℕ)
  deriving DecidableEq

/-- What an operation returns. -/
inductive Res where
  | unit
  | bool (b : Bool)
  deriving DecidableEq

/-- Where a thread stands. `woken` says that it has been blocked and was woken; `notify` has `left`
calls of `notify_one` to make. -/
inductive Pc where
  | idle
  | lock (o : Op)
  | check (woken : Bool)
  | tryCheck
  | block
  | wait
  | take (woken : Bool) (r : Res)
  | add (count : ℕ)
  | unlock (notifies : ℕ) (r : Res)
  | notify (left : ℕ)
  | done (r : Res)
  deriving DecidableEq

/-- The scheduler's choice: a call, the next step, a spurious wake-up, or the thread that
`notify_one` wakes. -/
inductive Choice (ι : Type) where
  | call (o : Op)
  | run
  | spurious
  | notify (u : ι)
  deriving DecidableEq

variable {ι : Type} [DecidableEq ι]

/-- What an operation does once it has the mutex. -/
def Op.locked : Op → Pc
  | .acquire => .check false
  | .tryAcquire => .tryCheck
  | .release count => .add count

/-- The `for` loop of `release`, with `left` rounds to go. -/
def notifyFrom (r : Res) : ℕ → Pc
  | 0 => .done r
  | left + 1 => .notify (left + 1)

/-- One step of a thread. -/
def step (t : ι) (c : Choice ι) (s : Shared ι) (l : Pc) : Option (Event Op Res × Shared ι × Pc) :=
  match l, c with
  | .idle, .call o => some (.call o, s, .lock o)
  | .lock o, .run =>
    match s.mutex with
    | some _ => none
    | none => some (.tau, { s with mutex := some t }, o.locked)
  | .check woken, .run => some (.tau, s, if 0 < s.count then .take woken .unit else .block)
  -- condition_variable::wait
  | .block, .run => some (.tau, { s with mutex := none, blocked := t :: s.blocked }, .wait)
  | .wait, .spurious =>
    if t ∈ s.blocked then some (.tau, { s with blocked := s.blocked.erase t }, .wait) else none
  | .wait, .run =>
    if t ∈ s.blocked then none
    else
      match s.mutex with
      | some _ => none
      | none => some (.tau, { s with mutex := some t }, .check true)
  | .tryCheck, .run =>
    some (.tau, s, if s.count ≤ 0 then .unlock 0 (.bool false) else .take false (.bool true))
  | .take _ r, .run => some (.tau, { s with count := s.count - 1 }, .unlock 0 r)
  | .add count, .run => some (.tau, { s with count := s.count + count }, .unlock count .unit)
  | .unlock notifies r, .run => some (.tau, { s with mutex := none }, notifyFrom r notifies)
  | .notify left, .notify u =>
    match notifyOne s.blocked u with
    | none => none
    | some ws => some (.tau, { s with blocked := ws }, notifyFrom .unit (left - 1))
  | .done r, .run => some (.ret r, s, .idle)
  | _, _ => none

/-- The threads that use a semaphore. -/
def program : Program ι (Shared ι) Pc (Choice ι) Op Res := ⟨step⟩

/-- A semaphore constructed with `initial`. -/
def initial (initial : ℤ) : Config ι (Shared ι) Pc := ⟨⟨none, [], initial⟩, fun _ => .idle⟩

/-- A step of a run. -/
abbrev Step (ι : Type) := Rec ι (Shared ι) Pc Op Res

/-! ## What a step can do -/

/-- The moves of a thread. -/
inductive Move (t : ι) (s : Shared ι) : Pc → Shared ι → Pc → Prop
  | call (o) : Move t s .idle s (.lock o)
  | lock (o) (hm : s.mutex = none) : Move t s (.lock o) { s with mutex := some t } o.locked
  | pass (woken) (hc : 0 < s.count) : Move t s (.check woken) s (.take woken .unit)
  | fail (woken) (hc : s.count ≤ 0) : Move t s (.check woken) s .block
  | block : Move t s .block { s with mutex := none, blocked := t :: s.blocked } .wait
  | spurious (ht : t ∈ s.blocked) : Move t s .wait { s with blocked := s.blocked.erase t } .wait
  | wake (ht : t ∉ s.blocked) (hm : s.mutex = none) :
      Move t s .wait { s with mutex := some t } (.check true)
  | tryPass (hc : 0 < s.count) : Move t s .tryCheck s (.take false (.bool true))
  | tryFail : Move t s .tryCheck s (.unlock 0 (.bool false))
  | take (woken r) : Move t s (.take woken r) { s with count := s.count - 1 } (.unlock 0 r)
  | add (count) : Move t s (.add count) { s with count := s.count + count } (.unlock count .unit)
  | unlock (notifies r) :
      Move t s (.unlock notifies r) { s with mutex := none } (notifyFrom r notifies)
  | notify (left u ws) (hn : notifyOne s.blocked u = some ws) :
      Move t s (.notify left) { s with blocked := ws } (notifyFrom .unit (left - 1))
  | ret (r) : Move t s (.done r) s .idle

theorem step_move {t : ι} {c : Choice ι} {s s' : Shared ι} {l l' : Pc} {ev : Event Op Res}
    (hs : step t c s l = some (ev, s', l')) : Move t s l s' l' := by
  unfold step at hs
  cases l with
  | check woken =>
    cases c <;> cases hs
    split
    · exact .pass woken ‹_›
    · exact .fail woken (Int.not_lt.mp ‹_›)
  | tryCheck =>
    cases c <;> cases hs
    split
    · exact .tryFail
    · exact .tryPass (Int.not_le.mp ‹_›)
  | _ =>
    cases c
    all_goals dsimp only at hs
    all_goals (repeat' split at hs)
    all_goals cases hs
    all_goals (constructor <;> assumption)

end Bonostl.CountingSemaphore
