import Bonostl.Interleaving.Program

/-!
# `thread_pool` (`thread_pool.hpp`, `work_stealing_queue.hpp`)

The pool is generic in the code its tasks run: `Code` says what a piece of user code does next, with
the user's own memory `G` and the futures it can look at. Each thread has a stack of frames. A frame
that waits for a future does so by the loop

    while (f.wait_for(std::chrono::seconds(0)) != std::future_status::ready)
      pool.run_pending_task();

so the task it runs meanwhile comes to lie on top of it. `Pc.phase` says where in
`run_pending_task` the thread is.

`pool_work_queue_` and the queues of the workers are lists, the front first. Their operations are
single steps: those of `work_stealing_queue` run under one mutex, and `threadsafe_queue` is
linearizable (`ThreadsafeQueue.two_lock_queue`). Tasks are numbered as they are submitted; a
`std::packaged_task` stores what its function returns or throws, so no exception leaves
`run_pending_task`.

`random_steal_offset` is the scheduler's choice. The events of the program are the submissions
(`call`) and the executions that ended (`ret`).

Out of scope: threads that cannot be started.
-/

namespace Bonostl.ThreadPool

open Interleaving

/-- The workers, by `my_index`, and all other threads, which have no local queue. -/
inductive Thread (E : Type) where
  | worker (i : ℕ)
  | external (e : E)
  deriving DecidableEq

/-- A submitted task with its function. -/
structure Task (F : Type) where
  id : ℕ
  body : F
  deriving DecidableEq

/-- What user code does next; `F` is code with its local state, `R` what it returns or throws. -/
inductive Act (F R : Type) where
  | go (f : F)
  | submit (body : F) (resume : ℕ → F)
  | wait (n : ℕ) (f : F)
  | runPendingTask (f : F)
  | finish (r : R)
  | destroy (f : F)

/-- User code: a step from the user's memory, with the futures that are ready. -/
structure Code (κ F G R : Type) where
  next : κ → (ℕ → Option R) → G → F → Option (G × Act F R)

/-- The members of the pool, the futures, the number of tasks submitted so far, and the user's
memory. -/
structure Shared (F G R : Type) where
  done : Bool
  poolWorkQueue : List (Task F)
  queues : ℕ → List (Task F)
  results : ℕ → Option R
  exited : ℕ → Bool
  submitted : ℕ
  memory : G

/-- A frame of a thread's stack. The code of a task keeps the task's number and the numbers of the
tasks it has submitted; `destroy j` is the destructor, which has joined `j` workers. -/
inductive Frame (F : Type) where
  | worker
  | code (id : Option ℕ) (children : List ℕ) (f : F)
  | wait (id : Option ℕ) (children : List ℕ) (n : ℕ) (f : F)
  | destroy (j : ℕ)
  deriving DecidableEq

/-- Where a thread is in `run_pending_task`. -/
inductive Phase (F : Type) where
  | popLocal
  | popShared
  | steal (start i : ℕ)
  | call (task : Task F)
  deriving DecidableEq

/-- A thread: where it is in `run_pending_task`, if it is there, and its stack. -/
structure Pc (F : Type) where
  phase : Option (Phase F)
  stack : List (Frame F)
  deriving DecidableEq

/-- The scheduler's choice: the next step, a step of the user's code, or the random offset of
`pop_task_from_other_thread_queue`. -/
inductive Choice (κ : Type) where
  | run
  | code (x : κ)
  | random (offset : ℕ)

variable {E κ F G R : Type}

/-- The thread's `my_index`. -/
def Thread.myIndex : Thread E → ℕ
  | .worker i => i
  | .external _ => 0

/-- `unsigned` arithmetic. -/
def unsigned (n : ℕ) : ℕ := n % 2 ^ 32

/-- `submit` of the task `body`. -/
def Shared.submit (t : Thread E) (s : Shared F G R) (body : F) : Shared F G R :=
  match t with
  | .worker i => { s with
      queues := Function.update s.queues i (⟨s.submitted, body⟩ :: s.queues i)
      submitted := s.submitted + 1 }
  | .external _ => { s with
      poolWorkQueue := s.poolWorkQueue ++ [⟨s.submitted, body⟩], submitted := s.submitted + 1 }

/-- The code on top of the stack does `a`. -/
def act (t : Thread E) (s : Shared F G R) (id : Option ℕ) (children : List ℕ)
    (rest : List (Frame F)) : Act F R → Event ℕ ℕ × Shared F G R × Pc F
  | .go f => (.tau, s, ⟨none, .code id children f :: rest⟩)
  | .submit body resume =>
    (.call s.submitted, s.submit t body,
      ⟨none, .code id (s.submitted :: children) (resume s.submitted) :: rest⟩)
  | .wait n f => (.tau, s, ⟨none, .wait id children n f :: rest⟩)
  | .runPendingTask f => (.tau, s, ⟨some .popLocal, .code id children f :: rest⟩)
  | .finish r =>
    match id with
    | some n => (.ret n, { s with results := Function.update s.results n (some r) }, ⟨none, rest⟩)
    | none => (.tau, s, ⟨none, rest⟩)
  | .destroy f => (.tau, { s with done := true }, ⟨none, .destroy 0 :: .code id children f :: rest⟩)

/-- One step of `run_pending_task`; `k` is the number of workers. -/
def search (k : ℕ) (t : Thread E) (c : Choice κ) (s : Shared F G R) (st : List (Frame F)) :
    Phase F → Option (Shared F G R × Pc F)
  | .popLocal =>
    match t with
    | .worker i =>
      match s.queues i with
      | task :: q =>
        some ({ s with queues := Function.update s.queues i q }, ⟨some (.call task), st⟩)
      | [] => some (s, ⟨some .popShared, st⟩)
    | .external _ => some (s, ⟨some .popShared, st⟩)
  | .popShared =>
    match s.poolWorkQueue, c with
    | task :: q, _ => some ({ s with poolWorkQueue := q }, ⟨some (.call task), st⟩)
    | [], .random offset =>
      some (s, ⟨some (.steal (unsigned (t.myIndex + 1 + offset % k) % k) 0), st⟩)
    | [], _ => none
  | .steal start i =>
    if i + 1 < k then
      match (s.queues (unsigned (start + i) % k)).getLast? with
      | some task =>
        some ({ s with
          queues := Function.update s.queues (unsigned (start + i) % k)
            (s.queues (unsigned (start + i) % k)).dropLast }, ⟨some (.call task), st⟩)
      | none => some (s, ⟨some (.steal start (i + 1)), st⟩)
    else some (s, ⟨none, st⟩)
  | .call task => some (s, ⟨none, .code (some task.id) [] task.body :: st⟩)

/-- One step of a thread. -/
def step (k : ℕ) (code : Code κ F G R) (t : Thread E) (c : Choice κ) (s : Shared F G R)
    (l : Pc F) : Option (Event ℕ ℕ × Shared F G R × Pc F) :=
  match l.phase, l.stack with
  | some p, st => (search k t c s st p).map fun (s', l') => (.tau, s', l')
  -- worker_thread
  | none, .worker :: rest =>
    match t with
    | .worker i =>
      if s.done then some (.tau, { s with exited := Function.update s.exited i true }, ⟨none, rest⟩)
      else some (.tau, s, ⟨some .popLocal, .worker :: rest⟩)
    | .external _ => none
  | none, .code id children f :: rest =>
    match c with
    | .code x =>
      (code.next x s.results s.memory f).map fun (g, a) =>
        act t { s with memory := g } id children rest a
    | _ => none
  | none, .wait id children n f :: rest =>
    if (s.results n).isSome then some (.tau, s, ⟨none, .code id children f :: rest⟩)
    else some (.tau, s, ⟨some .popLocal, .wait id children n f :: rest⟩)
  -- ~join_threads
  | none, .destroy j :: rest =>
    if j < k ∧ s.exited j then some (.tau, s, ⟨none, .destroy (j + 1) :: rest⟩) else none
  | none, [] => none

/-- The workers and the external threads of a pool. -/
def program (k : ℕ) (code : Code κ F G R) :
    Program (Thread E) (Shared F G R) (Pc F) (Choice κ) ℕ ℕ :=
  ⟨step k code⟩

/-- How many workers the constructor starts. -/
def workers (threadCount : ℕ) : ℕ := max threadCount 1

/-- A new pool with `k` workers; the other threads run `user`. -/
def initial (k : ℕ) (user : E → F) (g : G) : Config (Thread E) (Shared F G R) (Pc F) where
  shared := ⟨false, [], fun _ => [], fun _ => none, fun _ => false, 0, g⟩
  loc := fun
    | .worker i => ⟨none, if i < k then [.worker] else []⟩
    | .external e => ⟨none, [.code none [] (user e)]⟩

/-! ## What a step can do -/

/-- Where a queued task is taken from. -/
inductive Source where
  | pool
  | front (i : ℕ)
  | back (i : ℕ)

/-- `task` is taken out of a queue, and leaves `s'`. -/
inductive Dequeue (s : Shared F G R) (task : Task F) : Source → Shared F G R → Prop
  | pool (q) (h : s.poolWorkQueue = task :: q) : Dequeue s task .pool { s with poolWorkQueue := q }
  | front (i q) (h : s.queues i = task :: q) :
      Dequeue s task (.front i) { s with queues := Function.update s.queues i q }
  | back (i q) (h : s.queues i = q ++ [task]) :
      Dequeue s task (.back i) { s with queues := Function.update s.queues i q }

/-- The moves of a thread. -/
inductive Move (k : ℕ) (code : Code κ F G R) (t : Thread E) (s : Shared F G R) :
    Event ℕ ℕ → Pc F → Shared F G R → Pc F → Prop
  | exit (i rest) (ht : t = .worker i) (hd : s.done = true) :
      Move k code t s .tau ⟨none, .worker :: rest⟩
        { s with exited := Function.update s.exited i true } ⟨none, rest⟩
  | loop (rest) (hd : s.done = false) :
      Move k code t s .tau ⟨none, .worker :: rest⟩ s ⟨some .popLocal, .worker :: rest⟩
  | code (x g a id children f rest ev s' l') (hn : code.next x s.results s.memory f = some (g, a))
      (ha : act t { s with memory := g } id children rest a = (ev, s', l')) :
      Move k code t s ev ⟨none, .code id children f :: rest⟩ s' l'
  | ready (id children n f rest) (hr : (s.results n).isSome) :
      Move k code t s .tau ⟨none, .wait id children n f :: rest⟩ s
        ⟨none, .code id children f :: rest⟩
  | help (id children n f rest) (hr : s.results n = none) :
      Move k code t s .tau ⟨none, .wait id children n f :: rest⟩ s
        ⟨some .popLocal, .wait id children n f :: rest⟩
  | join (j rest) (hj : j < k) (he : s.exited j = true) :
      Move k code t s .tau ⟨none, .destroy j :: rest⟩ s ⟨none, .destroy (j + 1) :: rest⟩
  | miss (p p' st) (hp : ∀ task, p ≠ .call task) (hp' : ∀ task, p' ≠ some (.call task)) :
      Move k code t s .tau ⟨some p, st⟩ s ⟨p', st⟩
  | dequeue (p task src s' st) (hp : ∀ task, p ≠ .call task) (hq : Dequeue s task src s') :
      Move k code t s .tau ⟨some p, st⟩ s' ⟨some (.call task), st⟩
  | call (task st) : Move k code t s .tau ⟨some (.call task), st⟩ s
      ⟨none, .code (some task.id) [] task.body :: st⟩

theorem search_move {k : ℕ} {code : Code κ F G R} {t : Thread E} {c : Choice κ}
    {s s' : Shared F G R} {st : List (Frame F)} {p : Phase F} {l' : Pc F}
    (hs : search k t c s st p = some (s', l')) : Move k code t s .tau ⟨some p, st⟩ s' l' := by
  unfold search at hs
  split at hs
  all_goals (repeat' split at hs)
  all_goals cases hs
  · exact .dequeue _ _ _ _ _ (by simp) (.front _ _ ‹_›)
  · exact .miss _ _ _ (by simp) (by simp)
  · exact .miss _ _ _ (by simp) (by simp)
  · exact .dequeue _ _ _ _ _ (by simp) (.pool _ ‹_›)
  · exact .miss _ _ _ (by simp) (by simp)
  · obtain ⟨l, hl⟩ := List.getLast?_eq_some_iff.mp ‹_›
    rw [hl, List.dropLast_concat]
    exact .dequeue _ _ _ _ _ (by simp) (.back _ _ hl)
  · exact .miss _ _ _ (by simp) (by simp)
  · exact .miss _ _ _ (by simp) (by simp)
  · exact .call _ _

theorem step_move {k : ℕ} {code : Code κ F G R} {t : Thread E} {c : Choice κ}
    {s s' : Shared F G R} {l l' : Pc F} {ev : Event ℕ ℕ}
    (hs : step k code t c s l = some (ev, s', l')) : Move k code t s ev l s' l' := by
  obtain ⟨phase, stack⟩ := l
  unfold step at hs
  dsimp only at hs
  split at hs
  · obtain ⟨⟨s₁, l₁⟩, hsearch, heq⟩ := Option.map_eq_some_iff.mp hs
    cases heq
    exact search_move hsearch
  · split at hs
    · split at hs
      · cases hs; exact .exit _ _ rfl ‹_›
      · rename_i hd
        cases hs; exact .loop _ (by simpa using hd)
    · cases hs
  · split at hs
    · obtain ⟨⟨g, a⟩, hn, ha⟩ := Option.map_eq_some_iff.mp hs
      exact .code _ g a _ _ _ _ _ _ _ hn ha
    · cases hs
  · split at hs
    · cases hs; exact .ready _ _ _ _ _ ‹_›
    · rename_i hr
      cases hs; exact .help _ _ _ _ _ (by simpa using hr)
  · split at hs
    · rename_i h
      cases hs; exact .join _ _ h.1 h.2
    · cases hs
  · cases hs

end Bonostl.ThreadPool
