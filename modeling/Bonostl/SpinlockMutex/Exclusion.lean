import Bonostl.Interleaving.Points

/-!
# `spinlock_mutex` (`spinlock_mutex.hpp`)

`flag` is an `atomic_flag`. `lock` sets it until it finds that it was clear, and reads it in between
until it is; `try_lock` sets it once. One atomic access is one step. A thread knows whether it holds
the mutex; `unlock` is called only by a thread that does, and one that holds it may try to lock it
again.

The flag is set while some thread holds the mutex, and then by one thread only (`Inv`). So the mutex
is linearizable, `try_lock` fails on a mutex that is held and on no other, and a thread in `lock`
that finds the mutex free has it after at most two steps of its own (`spinlock_excludes`).

Out of scope: memory orders (every access is sequentially consistent).
-/

namespace Bonostl.SpinlockMutex

open Interleaving

/-- The operations of the mutex. -/
inductive Op where
  | lock
  | tryLock
  | unlock
  deriving DecidableEq

/-- What an operation returns. -/
inductive Res where
  | unit
  | bool (b : Bool)
  deriving DecidableEq

/-- Where a thread stands; `spin` is the inner loop of `lock`. -/
inductive Pc where
  | idle
  | lock
  | spin
  | tryLock
  | unlock
  | done (r : Res)
  deriving DecidableEq

/-- A thread: where it stands, and whether it holds the mutex. -/
structure Local where
  pc : Pc
  holds : Bool
  deriving DecidableEq

/-- The scheduler's choice: a call, or the next step. -/
inductive Choice where
  | call (o : Op)
  | run
  deriving DecidableEq

variable {ι : Type}

/-- What an operation starts with, if the thread may call it. -/
def Op.start (l : Local) : Op → Option Pc
  | .lock => some .lock
  | .tryLock => some .tryLock
  | .unlock => if l.holds then some .unlock else none

/-- One step of a thread; the shared state is `flag`. -/
def step (_ : ι) (k : Choice) (flag : Bool) (l : Local) : Option (Event Op Res × Bool × Local) :=
  match l.pc, k with
  | .idle, .call o =>
    match o.start l with
    | some pc => some (.call o, flag, { l with pc })
    | none => none
  | .lock, .run =>
    some (.tau, true, if flag then { l with pc := .spin } else ⟨.done .unit, true⟩)
  | .spin, .run => some (.tau, flag, if flag then l else { l with pc := .lock })
  | .tryLock, .run =>
    some (.tau, true,
      if flag then { l with pc := .done (.bool false) } else ⟨.done (.bool true), true⟩)
  | .unlock, .run => some (.tau, false, ⟨.done .unit, false⟩)
  | .done r, .run => some (.ret r, flag, { l with pc := .idle })
  | _, _ => none

/-- The threads that use the mutex. -/
def program : Program ι Bool Local Choice Op Res := ⟨step⟩

/-- Nobody holds the mutex. -/
def initial : Config ι Bool Local := ⟨false, fun _ => ⟨.idle, false⟩⟩

/-- A step of a run. -/
abbrev Step (ι : Type) := Rec ι Bool Local Op Res

/-! ## What a step can do -/

/-- The moves of a thread: they leave the flag and the thread's hold, or take the mutex, or give it
back. -/
inductive Move (flag : Bool) : Local → Bool → Local → Prop
  | quiet (pc pc' b) (hu : pc' = .unlock → b = true) : Move flag ⟨pc, b⟩ flag ⟨pc', b⟩
  | take (pc b r) (hf : flag = false) : Move flag ⟨pc, b⟩ true ⟨.done r, true⟩
  | giveBack (b) : Move flag ⟨.unlock, b⟩ false ⟨.done .unit, false⟩

theorem step_move {t : ι} {k : Choice} {s s' : Bool} {l l' : Local} {ev : Event Op Res}
    (hs : step t k s l = some (ev, s', l')) : Move s l s' l' := by
  obtain ⟨pc, b⟩ := l
  unfold step at hs
  cases pc with
  | idle =>
    cases k with
    | call o =>
      dsimp only at hs
      split at hs
      all_goals cases hs
      rename_i pc hpc
      refine .quiet _ _ b fun hu => ?_
      cases o with
      | unlock =>
        simp only [Op.start] at hpc
        split at hpc
        all_goals cases hpc
        assumption
      | _ =>
        subst hu
        cases hpc
    | run => cases hs
  | lock =>
    cases k <;> cases hs
    cases s with
    | true => exact .quiet _ _ b (by rintro ⟨⟩)
    | false => exact .take _ b _ rfl
  | spin =>
    cases k <;> cases hs
    cases s <;> exact .quiet _ _ b (by rintro ⟨⟩)
  | tryLock =>
    cases k <;> cases hs
    cases s with
    | true => exact .quiet _ _ b (by rintro ⟨⟩)
    | false => exact .take _ b _ rfl
  | unlock =>
    cases k <;> cases hs
    exact .giveBack b
  | done r =>
    cases k <;> cases hs
    exact .quiet _ _ b (by rintro ⟨⟩)

/-! ## The invariant -/

/-- The invariant: the flag is set while one thread holds the mutex, and clear otherwise. -/
structure Inv (flag : Bool) (f : ι → Local) : Prop where
  held : flag = true ↔ ∃ t, (f t).holds = true
  alone : ∀ t u, (f t).holds = true → (f u).holds = true → t = u
  unlock : ∀ t, (f t).pc = .unlock → (f t).holds = true

variable [DecidableEq ι] {flag flag' : Bool} {f : ι → Local} {t : ι} {k : Choice}
  {ev : Event Op Res}
  {l' : Local}

theorem Inv.move (hI : Inv flag f) (hm : Move flag (f t) flag' l') :
    Inv flag' (Function.update f t l') := by
  have hpc := hI.unlock t
  generalize hft : f t = l at hm hpc
  have hne : ∀ u, u ≠ t → Function.update f t l' u = f u := fun u hu => Function.update_of_ne hu _ _
  cases hm with
  | quiet pc pc' b hu =>
    have hholds : ∀ u, (Function.update f t ⟨pc', b⟩ u).holds = (f u).holds := by
      intro u
      by_cases hut : u = t
      · rw [hut, Function.update_self, hft]
      · rw [hne u hut]
    refine ⟨?_, fun u v hu hv => ?_, fun u hpu => ?_⟩
    · simp only [hholds]
      exact hI.held
    · rw [hholds] at hu hv
      exact hI.alone u v hu hv
    · by_cases hut : u = t
      · rw [hut, Function.update_self] at hpu ⊢
        exact hu hpu
      · rw [hne u hut] at hpu ⊢
        exact hI.unlock u hpu
  | take pc b r hf =>
    have hnone : ∀ u, (f u).holds ≠ true := fun u hu => by
      rw [hI.held.mpr ⟨u, hu⟩] at hf
      cases hf
    have honly : ∀ u, (Function.update f t ⟨.done r, true⟩ u).holds = true → u = t := fun u hu => by
      by_contra hut
      rw [hne u hut] at hu
      exact hnone u hu
    refine ⟨iff_of_true rfl ⟨t, by rw [Function.update_self]⟩,
      fun u v hu hv => (honly u hu).trans (honly v hv).symm, fun u hpu => ?_⟩
    by_cases hut : u = t
    · rw [hut, Function.update_self] at hpu
      cases hpu
    · rw [hne u hut] at hpu
      exact absurd (hI.unlock u hpu) (hnone u)
  | giveBack b =>
    have ht : (f t).holds = true := by
      rw [hft]
      exact hpc rfl
    have hnone : ∀ u, (Function.update f t ⟨.done .unit, false⟩ u).holds ≠ true := fun u hu => by
      by_cases hut : u = t
      · rw [hut, Function.update_self] at hu
        cases hu
      · rw [hne u hut] at hu
        exact hut (hI.alone u t hu ht)
    refine ⟨iff_of_false (by rintro ⟨⟩) fun hex => hex.elim hnone,
      fun u v hu => absurd hu (hnone u), fun u hpu => ?_⟩
    by_cases hut : u = t
    · rw [hut, Function.update_self] at hpu
      cases hpu
    · rw [hne u hut] at hpu
      exact absurd (hI.alone u t (hI.unlock u hpu) ht) hut

/-! ## The sequential mutex -/

/-- A mutex that is held or not. -/
inductive LockSpec : Bool → Op → Res → Bool → Prop
  | lock : LockSpec false .lock .unit true
  | tryLock : LockSpec false .tryLock (.bool true) true
  | tryLockFail : LockSpec true .tryLock (.bool false) true
  | unlock : LockSpec true .unlock .unit false

/-- Where a thread's operation stands: called, or done with a result. -/
def Local.status (l : Local) : Status Op Res :=
  match l.pc with
  | .idle => .idle
  | .lock | .spin => .called .lock
  | .tryLock => .called .tryLock
  | .unlock => .called .unlock
  | .done r => .done r

omit [DecidableEq ι] in
/-- **What one step does to the mutex.** -/
theorem Inv.commits (hI : Inv flag f) (hs : step t k flag (f t) = some (ev, flag', l')) :
    Commits LockSpec id Local.status flag (f t) flag' l' ev := by
  have hunlock := hI.unlock t
  have hheld : (f t).holds = true → flag = true := fun h => hI.held.mpr ⟨t, h⟩
  generalize f t = l at hs hunlock hheld
  obtain ⟨pc, b⟩ := l
  unfold step at hs
  cases pc with
  | idle =>
    cases k with
    | call o =>
      dsimp only at hs
      split at hs
      all_goals cases hs
      rename_i pc hpc
      refine .call o rfl ?_ rfl
      cases o with
      | unlock =>
        simp only [Op.start] at hpc
        split at hpc
        all_goals cases hpc
        rfl
      | _ =>
        cases hpc
        rfl
    | run => cases hs
  | lock =>
    cases k <;> cases hs
    cases flag with
    | true => exact .tau rfl rfl
    | false => exact .commit .lock .unit rfl rfl .lock
  | spin =>
    cases k <;> cases hs
    cases flag <;> exact .tau rfl rfl
  | tryLock =>
    cases k <;> cases hs
    cases flag with
    | true => exact .commit .tryLock (.bool false) rfl rfl .tryLockFail
    | false => exact .commit .tryLock (.bool true) rfl rfl .tryLock
  | unlock =>
    cases k <;> cases hs
    obtain rfl : flag = true := hheld (hunlock rfl)
    exact .commit .unlock .unit rfl rfl .unlock
  | done r =>
    cases k <;> cases hs
    exact .ret r rfl rfl rfl

section
variable {h : List (Step ι)} {c : Config ι Bool Local}

theorem Inv.run (hr : program.Run Program.anyStep initial h c) : Inv c.shared c.loc := by
  refine hr.induction (I := fun _ c => Inv c.shared c.loc) ?_ fun h c t k ev s l _ hI _ hs =>
    hI.move (step_move (t := t) hs)
  exact {
    held := by simp [initial]
    alone := by simp [initial]
    unlock := by simp [initial] }

/-- **The mutex.** Every run is one of the sequential mutex; at most one thread holds it, and the
flag is set exactly while one does; and while nobody holds it, a thread in `lock` takes it with its
next step or with the one after. -/
theorem spinlock_excludes (hr : program.Run Program.anyStep initial h c) :
    (∃ H : Annotated ι Bool Local Op Res, H.map Prod.fst = h ∧
      Linearized LockSpec id H (fun u => (c.loc u).status) ∧
      Legal LockSpec false (order H) c.shared) ∧
    (∀ t u, (c.loc t).holds = true → (c.loc u).holds = true → t = u) ∧
    (c.shared = true ↔ ∃ t, (c.loc t).holds = true) ∧
    ((∀ u, (c.loc u).holds = false) → ∀ t, (c.loc t).status = .called .lock →
      program.step t .run c.shared (c.loc t) = some (.tau, true, ⟨.done .unit, true⟩) ∨
      ∃ l, program.step t .run c.shared (c.loc t) = some (.tau, false, l) ∧
        program.step t .run false l = some (.tau, true, ⟨.done .unit, true⟩)) := by
  have hI := Inv.run hr
  refine ⟨?_, hI.alone, hI.held, fun hnone t ht => ?_⟩
  · exact LinearizedBy.legal (Program.Run.commits (I := fun c => Inv c.shared c.loc)
      (fun h c hr => Inv.run hr) (fun _ => rfl) (fun c t k ev s l hI hs => hI.commits hs) hr) hr
  · have hfree : c.shared = false := eq_false_of_ne_true fun hs => by
      obtain ⟨u, hu⟩ := hI.held.mp hs
      rw [hnone u] at hu
      cases hu
    rw [hfree]
    generalize c.loc t = l at ht
    obtain ⟨pc, b⟩ := l
    cases pc with
    | lock => exact .inl rfl
    | spin => exact .inr ⟨⟨.lock, b⟩, rfl, rfl⟩
    | _ => cases ht
end

/-- Thread `false` spins while thread `true` holds the mutex, and sees it given back. -/
theorem spinlock_excludes_spin : ∃ (h : List (Step Bool)) (c : Config Bool Bool Local),
    program.Run Program.anyStep initial h c ∧ c.loc false = ⟨.spin, false⟩ ∧ c.shared = false ∧
      ∃ l, program.step false .run c.shared (c.loc false) = some (.tau, false, l) ∧
        program.step false .run false l = some (.tau, true, ⟨.done .unit, true⟩) := by
  obtain ⟨h, c, hr, hq⟩ := Program.replay_reaches (program (ι := Bool)) initial
    [(true, .call .lock), (true, .run), (false, .call .lock), (false, .run), (false, .run),
      (true, .run), (true, .call .unlock), (true, .run)]
    (fun _ c => decide (c.loc false = ⟨.spin, false⟩ ∧ c.loc true = ⟨.done .unit, false⟩ ∧
      c.shared = false)) (by decide)
  obtain ⟨hspin, hdone, hfree⟩ := of_decide_eq_true hq
  have hnone : ∀ u, (c.loc u).holds = false := by
    rintro (_ | _)
    · rw [hspin]
    · rw [hdone]
  rcases (spinlock_excludes hr).2.2.2 hnone false (by rw [hspin]; rfl) with hnow | hnext
  · rw [hspin, hfree] at hnow
    cases hnow
  · exact ⟨h, c, hr, hspin, hfree, hnext⟩

end Bonostl.SpinlockMutex
