import Bonostl.Interleaving.Monitor

/-!
# `blocking_queue` (`blocking_queue.hpp`)

`push` and `wait_and_pop` wait on `not_full_` and `not_empty_`, `try_push` and `try_pop` give up
where these would wait; all four run under `mutex_` and notify the other side after they have
released it. The steps are those a scheduler can separate: the lock, the predicate, the atomic
unlock-and-block of `wait`, the lock after a wake-up, the access to `data_`, the unlock and the
`notify_one`.

`data_` is a list, its front first. `empty`, `size` and `capacity` only read, no other member
function calls them, and they are out of scope.

Out of scope: exceptions of the element's copies and moves.
-/

namespace Bonostl.BlockingQueue

open Interleaving

/-- The two condition variables. -/
inductive Cond where
  | notFull
  | notEmpty
  deriving DecidableEq

/-- The members of the queue; `blocked k` are the threads blocked on `k`. -/
structure Shared (ι V : Type) where
  mutex : Option ι
  blocked : Cond → List ι
  data : List V
  capacity : ℕ

/-- The operations that change the queue. -/
inductive Op (V : Type) where
  | push (value : V)
  | waitAndPop
  | tryPush (value : V)
  | tryPop
  deriving DecidableEq

/-- What an operation returns. -/
inductive Res (V : Type) where
  | unit
  | value (v : V)
  | bool (b : Bool)
  | optional (o : Option V)
  deriving DecidableEq

/-- What has to become true for the operation: the condition variable it waits on, or would. -/
def Op.cond {V : Type} : Op V → Cond
  | .push _ | .tryPush _ => .notFull
  | .waitAndPop | .tryPop => .notEmpty

/-- The condition variable it notifies. -/
def Op.notifies {V : Type} : Op V → Cond
  | .push _ | .tryPush _ => .notEmpty
  | .waitAndPop | .tryPop => .notFull

/-- What `try_push` and `try_pop` return when they cannot go on; the others wait. -/
def Op.refusal {V : Type} : Op V → Option (Res V)
  | .push _ | .waitAndPop => none
  | .tryPush _ => some (.bool false)
  | .tryPop => some (.optional none)

/-- Where a thread stands. `woken` says that it has been blocked and was woken. -/
inductive Pc (V : Type) where
  | idle
  | lock (o : Op V)
  | check (o : Op V) (woken : Bool)
  | block (o : Op V)
  | wait (o : Op V)
  | act (o : Op V) (woken : Bool)
  | unlock (notifies : Option Cond) (r : Res V)
  | notify (k : Cond) (r : Res V)
  | done (r : Res V)
  deriving DecidableEq

/-- The scheduler's choice: a call, the next step, a spurious wake-up, or the thread that
`notify_one` wakes. -/
inductive Choice (ι V : Type) where
  | call (o : Op V)
  | run
  | spurious
  | notify (u : ι)
  deriving DecidableEq

variable {ι V : Type} [DecidableEq ι]

/-- The predicate of the wait, and of the tests in `try_push` and `try_pop`. -/
def Op.ready (s : Shared ι V) : Op V → Bool
  | .push _ | .tryPush _ => s.data.length < s.capacity
  | .waitAndPop | .tryPop => !s.data.isEmpty

/-- The access to `data_`, and what the operation is going to return. -/
def Op.act (s : Shared ι V) : Op V → Option (List V × Res V)
  | .push value => some (s.data ++ [value], .unit)
  | .tryPush value => some (s.data ++ [value], .bool true)
  | .waitAndPop =>
    match s.data with
    | [] => none
    | v :: rest => some (rest, .value v)
  | .tryPop =>
    match s.data with
    | [] => none
    | v :: rest => some (rest, .optional (some v))

/-- The constructor. -/
def construct (capacity : ℕ) : Except String (Shared ι V) :=
  if capacity = 0 then .error "blocking_queue capacity must be non-zero"
  else .ok ⟨none, fun _ => [], [], capacity⟩

/-- One step of a thread. -/
def step (t : ι) (c : Choice ι V) (s : Shared ι V) (l : Pc V) :
    Option (Event (Op V) (Res V) × Shared ι V × Pc V) :=
  match l, c with
  | .idle, .call o => some (.call o, s, .lock o)
  | .lock o, .run =>
    match s.mutex with
    | some _ => none
    | none => some (.tau, { s with mutex := some t }, .check o false)
  | .check o woken, .run =>
    if o.ready s then some (.tau, s, .act o woken)
    else
      match o.refusal with
      | some r => some (.tau, s, .unlock none r)
      | none => some (.tau, s, .block o)
  -- condition_variable::wait
  | .block o, .run =>
    some (.tau, { s with
      mutex := none, blocked := Function.update s.blocked o.cond (t :: s.blocked o.cond) }, .wait o)
  | .wait o, .spurious =>
    if t ∈ s.blocked o.cond then
      some (.tau, { s with
        blocked := Function.update s.blocked o.cond ((s.blocked o.cond).erase t) }, .wait o)
    else none
  | .wait o, .run =>
    if t ∈ s.blocked o.cond then none
    else
      match s.mutex with
      | some _ => none
      | none => some (.tau, { s with mutex := some t }, .check o true)
  | .act o _, .run =>
    match o.act s with
    | none => none
    | some (data, r) => some (.tau, { s with data }, .unlock (some o.notifies) r)
  | .unlock none r, .run => some (.tau, { s with mutex := none }, .done r)
  | .unlock (some k) r, .run => some (.tau, { s with mutex := none }, .notify k r)
  | .notify k r, .notify u =>
    match notifyOne (s.blocked k) u with
    | none => none
    | some ws => some (.tau, { s with blocked := Function.update s.blocked k ws }, .done r)
  | .done r, .run => some (.ret r, s, .idle)
  | _, _ => none

/-- The threads that use a queue. -/
def program : Program ι (Shared ι V) (Pc V) (Choice ι V) (Op V) (Res V) := ⟨step⟩

/-- The threads of a queue that `construct` made. -/
def initial (s : Shared ι V) : Config ι (Shared ι V) (Pc V) where
  shared := s
  loc := fun _ => .idle

/-! ## What a step can do -/

/-- The moves of a thread. -/
inductive Move (t : ι) (s : Shared ι V) :
    Event (Op V) (Res V) → Pc V → Shared ι V → Pc V → Prop
  | call (o) : Move t s (.call o) .idle s (.lock o)
  | lock (o) (hm : s.mutex = none) :
      Move t s .tau (.lock o) { s with mutex := some t } (.check o false)
  | pass (o woken) (hp : o.ready s = true) : Move t s .tau (.check o woken) s (.act o woken)
  | refuse (o woken r) (hp : o.ready s = false) (hr : o.refusal = some r) :
      Move t s .tau (.check o woken) s (.unlock none r)
  | fail (o woken) (hp : o.ready s = false) (hr : o.refusal = none) :
      Move t s .tau (.check o woken) s (.block o)
  | block (o) : Move t s .tau (.block o) { s with
      mutex := none, blocked := Function.update s.blocked o.cond (t :: s.blocked o.cond) } (.wait o)
  | spurious (o) (ht : t ∈ s.blocked o.cond) : Move t s .tau (.wait o) { s with
      blocked := Function.update s.blocked o.cond ((s.blocked o.cond).erase t) } (.wait o)
  | wake (o) (ht : t ∉ s.blocked o.cond) (hm : s.mutex = none) :
      Move t s .tau (.wait o) { s with mutex := some t } (.check o true)
  | act (o woken data r) (ha : o.act s = some (data, r)) :
      Move t s .tau (.act o woken) { s with data } (.unlock (some o.notifies) r)
  | release (r) : Move t s .tau (.unlock none r) { s with mutex := none } (.done r)
  | unlock (k r) : Move t s .tau (.unlock (some k) r) { s with mutex := none } (.notify k r)
  | notify (k r u ws) (hn : notifyOne (s.blocked k) u = some ws) : Move t s .tau (.notify k r)
      { s with blocked := Function.update s.blocked k ws } (.done r)
  | ret (r) : Move t s (.ret r) (.done r) s .idle

theorem step_move {t : ι} {c : Choice ι V} {s s' : Shared ι V} {l l' : Pc V}
    {ev : Event (Op V) (Res V)} (hs : step t c s l = some (ev, s', l')) : Move t s ev l s' l' := by
  unfold step at hs
  split at hs
  all_goals (repeat' split at hs)
  all_goals cases hs
  all_goals (constructor <;> first | assumption | simp_all)

end Bonostl.BlockingQueue
