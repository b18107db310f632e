import Bonostl.Interleaving.Program

/-!
# `shared_spinlock` (`shared_spinlock.hpp`)

`state_` is an `unsigned` of 32 bits: `writer_bit` for a writer, otherwise the number of readers.
One atomic access is one step; the tests of a loaded value belong to the step that has loaded it. A
weak compare-exchange may fail spuriously, and `lock_shared` goes on with the value the failed one
has loaded.

A thread's locks are part of its local state: whether it is a writer, and how often it is a reader.
`unlock` and `unlock_shared` are called only by a thread that holds what it gives back.

Out of scope: memory orders (every access is sequentially consistent).
-/

namespace Bonostl.SharedSpinlock

open Interleaving

/-- `writer_bit`. -/
def writerBit : ℕ := 2 ^ 31

/-- The operations of the lock. -/
inductive Op where
  | lock
  | tryLock
  | unlock
  | lockShared
  | tryLockShared
  | unlockShared
  deriving DecidableEq

/-- What an operation returns. -/
inductive Res where
  | unit
  | bool (b : Bool)
  deriving DecidableEq

/-- Where a thread stands. -/
inductive Pc where
  | idle
  | lock
  | tryLock
  | unlock
  | lockShared
  | reloadShared
  | casShared (observed : ℕ)
  | tryLockShared
  | tryCasShared (observed : ℕ)
  | unlockShared
  | done (r : Res)
  deriving DecidableEq

/-- A thread: where it stands and which locks it holds. -/
structure Local where
  pc : Pc
  writer : Bool
  readers : ℕ
  deriving DecidableEq

/-- The scheduler's choice: a call, the next step, or a spurious failure. -/
inductive Choice where
  | call (o : Op)
  | run
  | spurious
  deriving DecidableEq

variable {ι : Type}

/-- `(observed & writer_bit) != 0u`. -/
def hasWriter (observed : ℕ) : Bool := observed.testBit 31

/-- The loop of `lock_shared` with the value it has observed. -/
def sharedFrom (observed : ℕ) : Pc :=
  if hasWriter observed then .reloadShared else .casShared observed

/-- `observed + 1`, as an `unsigned`. -/
def succ (observed : ℕ) : ℕ := (observed + 1) % 2 ^ 32

/-- `fetch_sub(1)`, as an `unsigned`. -/
def pred (state : ℕ) : ℕ := (state + (2 ^ 32 - 1)) % 2 ^ 32

/-- What an operation starts with, if the thread may call it. -/
def Op.start (l : Local) : Op → Option Pc
  | .lock => some .lock
  | .tryLock => some .tryLock
  | .unlock => if l.writer then some .unlock else none
  | .lockShared => some .lockShared
  | .tryLockShared => some .tryLockShared
  | .unlockShared => if 0 < l.readers then some .unlockShared else none

/-- One step of a thread; the shared state is `state_`. -/
def step (_ : ι) (k : Choice) (s : ℕ) (l : Local) : Option (Event Op Res × ℕ × Local) :=
  match l.pc, k with
  | .idle, .call o =>
    match o.start l with
    | some pc => some (.call o, s, { l with pc })
    | none => none
  | .lock, .run =>
    if s = 0 then some (.tau, writerBit, { l with pc := .done .unit, writer := true })
    else some (.tau, s, l)
  | .lock, .spurious => some (.tau, s, l)
  | .tryLock, .run =>
    if s = 0 then some (.tau, writerBit, { l with pc := .done (.bool true), writer := true })
    else some (.tau, s, { l with pc := .done (.bool false) })
  | .unlock, .run => some (.tau, 0, { l with pc := .done .unit, writer := false })
  | .lockShared, .run | .reloadShared, .run => some (.tau, s, { l with pc := sharedFrom s })
  | .casShared observed, .run =>
    if s = observed then
      some (.tau, succ observed, { l with pc := .done .unit, readers := l.readers + 1 })
    else some (.tau, s, { l with pc := sharedFrom s })
  | .casShared _, .spurious => some (.tau, s, { l with pc := sharedFrom s })
  | .tryLockShared, .run =>
    some (.tau, s, { l with pc := if hasWriter s then .done (.bool false) else .tryCasShared s })
  | .tryCasShared observed, .run =>
    if s = observed then
      some (.tau, succ observed, { l with pc := .done (.bool true), readers := l.readers + 1 })
    else some (.tau, s, { l with pc := .done (.bool false) })
  | .unlockShared, .run =>
    some (.tau, pred s, { l with pc := .done .unit, readers := l.readers - 1 })
  | .done r, .run => some (.ret r, s, { l with pc := .idle })
  | _, _ => none

/-- The threads that use the lock. -/
def program : Program ι ℕ Local Choice Op Res := ⟨step⟩

/-- Nobody holds the lock. -/
def initial : Config ι ℕ Local := ⟨0, fun _ => ⟨.idle, false, 0⟩⟩

/-- A step of a run. -/
abbrev Step (ι : Type) := Rec ι ℕ Local Op Res

/-! ## What a step can do -/

/-- The moves of a thread. -/
inductive Move (s : ℕ) : Local → ℕ → Local → Prop
  /-- A step that leaves `state_` and the thread's locks. -/
  | quiet (pc pc' w r) (hu : pc' = .unlock → pc = .unlock ∨ w = true)
      (hs : pc' = .unlockShared → pc = .unlockShared ∨ 0 < r)
      (hc : ∀ observed, pc' = .casShared observed ∨ pc' = .tryCasShared observed →
        hasWriter observed = false) :
      Move s ⟨pc, w, r⟩ s ⟨pc', w, r⟩
  | lock (pc w r v) (hs : s = 0) : Move s ⟨pc, w, r⟩ writerBit ⟨.done v, true, r⟩
  | unlock (w r) : Move s ⟨.unlock, w, r⟩ 0 ⟨.done .unit, false, r⟩
  | lockShared (pc w r v) (hp : pc = .casShared s ∨ pc = .tryCasShared s) :
      Move s ⟨pc, w, r⟩ (succ s) ⟨.done v, w, r + 1⟩
  | unlockShared (w r) : Move s ⟨.unlockShared, w, r⟩ (pred s) ⟨.done .unit, w, r - 1⟩

theorem sharedFrom_cas {s observed : ℕ} (h : sharedFrom s = .casShared observed ∨
    sharedFrom s = .tryCasShared observed) : hasWriter observed = false := by
  unfold sharedFrom at h
  split at h
  · rcases h with h | h <;> cases h
  · rename_i hw
    rcases h with h | h <;> cases h
    exact eq_false_of_ne_true hw

theorem sharedFrom_ne (s : ℕ) : sharedFrom s ≠ .unlock ∧ sharedFrom s ≠ .unlockShared := by
  unfold sharedFrom
  split <;> exact ⟨nofun, nofun⟩

theorem step_move {t : ι} {k : Choice} {s s' : ℕ} {l l' : Local} {ev : Event Op Res}
    (hs : step t k s l = some (ev, s', l')) : Move s l s' l' := by
  obtain ⟨pc, w, r⟩ := l
  have hfrom : ∀ pc, Move s ⟨pc, w, r⟩ s ⟨sharedFrom s, w, r⟩ := fun pc =>
    .quiet pc _ w r (fun h => absurd h (sharedFrom_ne s).1) (fun h => absurd h (sharedFrom_ne s).2)
      fun _ h => sharedFrom_cas h
  unfold step at hs
  cases pc with
  | idle =>
    cases k with
    | call o =>
      dsimp only at hs
      cases o with
      | unlock =>
        simp only [Op.start] at hs
        split at hs <;> cases hs
        rename_i pc hp
        split at hp <;> cases hp
        exact .quiet _ _ w r (fun _ => .inr ‹_›) nofun (by simp)
      | unlockShared =>
        simp only [Op.start] at hs
        split at hs <;> cases hs
        rename_i pc hp
        split at hp <;> cases hp
        exact .quiet _ _ w r nofun (fun _ => .inr ‹_›) (by simp)
      | _ => cases hs; exact .quiet _ _ w r nofun nofun (by simp)
    | _ => cases hs
  | lock =>
    cases k with
    | run =>
      dsimp only at hs
      split at hs <;> cases hs
      · exact .lock _ w r _ ‹_›
      · exact .quiet _ _ w r nofun nofun (by simp)
    | spurious => cases hs; exact .quiet _ _ w r nofun nofun (by simp)
    | _ => cases hs
  | tryLock =>
    cases k with
    | run =>
      dsimp only at hs
      split at hs <;> cases hs
      · exact .lock _ w r _ ‹_›
      · exact .quiet _ _ w r nofun nofun (by simp)
    | _ => cases hs
  | unlock => cases k <;> cases hs; exact .unlock w r
  | lockShared | reloadShared => cases k <;> cases hs; exact hfrom _
  | casShared observed =>
    cases k with
    | run =>
      dsimp only at hs
      split at hs <;> cases hs
      · subst_vars; exact .lockShared _ w r _ (.inl rfl)
      · exact hfrom _
    | spurious => cases hs; exact hfrom _
    | _ => cases hs
  | tryLockShared =>
    cases k with
    | run =>
      cases hs
      refine .quiet _ _ w r ?_ ?_ fun observed h => ?_
      · split <;> exact nofun
      · split <;> exact nofun
      · split at h
        · rcases h with h | h <;> cases h
        · rcases h with h | h <;> cases h
          exact eq_false_of_ne_true ‹_›
    | _ => cases hs
  | tryCasShared observed =>
    cases k with
    | run =>
      dsimp only at hs
      split at hs <;> cases hs
      · subst_vars; exact .lockShared _ w r _ (.inr rfl)
      · exact .quiet _ _ w r nofun nofun (by simp)
    | _ => cases hs
  | unlockShared =>
    cases k with
    | run =>
      obtain ⟨-, rfl, rfl⟩ : _ ∧ _ ∧ _ := by simpa using hs
      exact .unlockShared w r
    | _ => cases hs
  | done v => cases k <;> cases hs; exact .quiet _ _ w r nofun nofun (by simp)

end Bonostl.SharedSpinlock
