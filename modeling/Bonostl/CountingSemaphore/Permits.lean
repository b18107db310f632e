import Bonostl.CountingSemaphore.Model
import Bonostl.Interleaving.Totals

/-!
# Nobody is stranded on a `counting_semaphore`

A `release(k)` makes `k` permits at once and owes `k` calls of `notify_one` from then on; a thread
that was woken counts until it has taken a permit or has found none. Both debts together cover the
permits as long as anybody is blocked (`Inv.covered`): threads that barge in only lower the count, a
notification is lost only when nobody is blocked, and a thread blocks only when there is no permit.

`permits_covered` and `somebody_comes` are the results.
-/

namespace Bonostl.CountingSemaphore

open Interleaving

variable {ι : Type}

/-- The `notify_one` calls a thread has still to make. -/
def Pc.owes : Pc → ℕ
  | .unlock notifies _ => notifies
  | .notify left => left
  | _ => 0

/-- The thread is inside the wait, or has been woken from it and has not yet acted on it. -/
def Pc.waits : Pc → Bool
  | .wait | .check true | .take true _ => true
  | _ => false

/-- The thread holds `mutex_`. -/
def Pc.locked : Pc → Bool
  | .check _ | .tryCheck | .block | .take _ _ | .add _ | .unlock _ _ => true
  | _ => false

/-- The `notify_one` calls still to come. -/
noncomputable def pending (f : ι → Pc) : ℕ := total Pc.owes f

/-- The threads blocked or woken. -/
noncomputable def waiters (f : ι → Pc) : ℕ := threadsIn (fun l => l.waits) f

/-- A thread that was woken and has not yet acted on it: it has not taken the mutex again, or holds
it and has neither taken a permit nor found none. -/
def Woken (c : Config ι (Shared ι) Pc) (t : ι) : Prop := (c.loc t).waits ∧ t ∉ c.shared.blocked

/-- How many threads are woken. -/
noncomputable def woken (c : Config ι (Shared ι) Pc) : ℕ := {t | Woken c t}.ncard

/-- The thread is blocked in `acquire`. -/
def Blocked (c : Config ι (Shared ι) Pc) (t : ι) : Prop := c.loc t = .wait ∧ t ∈ c.shared.blocked

/-! ## The invariant -/

/-- The invariant: the mutex and the list of blocked threads fit the places of the threads, and
`covered` counts the wake-ups to come. -/
structure Inv (s : Shared ι) (f : ι → Pc) : Prop where
  count : 0 ≤ s.count
  owner : ∀ t, (f t).locked ↔ s.mutex = some t
  ready : ∀ t w r, f t = .take w r → 0 < s.count
  gone : ∀ t, f t = .block → s.count = 0
  nodup : s.blocked.Nodup
  waiting : ∀ t ∈ s.blocked, f t = .wait
  finite : {t | f t ≠ .idle}.Finite
  covered : s.blocked ≠ [] → s.count + s.blocked.length ≤ pending f + waiters f

@[simp] theorem notifyFrom_owes (r : Res) (n : ℕ) : (notifyFrom r n).owes = n := by
  cases n <;> rfl

@[simp] theorem notifyFrom_waits (r : Res) (n : ℕ) : (notifyFrom r n).waits = false := by
  cases n <;> rfl

@[simp] theorem notifyFrom_locked (r : Res) (n : ℕ) : (notifyFrom r n).locked = false := by
  cases n <;> rfl

@[simp] theorem locked_locked (o : Op) : o.locked.locked = true := by cases o <;> rfl

@[simp] theorem locked_waits (o : Op) : o.locked.waits = false := by cases o <;> rfl

@[simp] theorem locked_owes (o : Op) : o.locked.owes = 0 := by cases o <;> rfl

variable [DecidableEq ι] {s s' : Shared ι} {f : ι → Pc} {t : ι} {l' : Pc}

theorem pending_update (hf : {t | f t ≠ .idle}.Finite) (t : ι) (l : Pc) :
    pending (Function.update f t l) + (f t).owes = pending f + l.owes :=
  total_update (hf.subset fun u hu hidle => hu (by rw [hidle]; rfl)) t l

theorem waiters_update (hf : {t | f t ≠ .idle}.Finite) (t : ι) (l : Pc) :
    waiters (Function.update f t l) + (if (f t).waits then 1 else 0) =
      waiters f + (if l.waits then 1 else 0) :=
  threadsIn_update_of_idle rfl hf t l

omit [DecidableEq ι] in
/-- Only the owner of the mutex is inside the critical section. -/
theorem Inv.unique (hI : Inv s f) {u v : ι} (hu : (f u).locked) (hv : (f v).locked) : u = v :=
  Option.some.inj (((hI.owner u).mp hu).symm.trans ((hI.owner v).mp hv))

theorem Inv.owner_move (hI : Inv s f) (hm : Move t s (f t) s' l') (u : ι) :
    (Function.update f t l' u).locked ↔ s'.mutex = some u := by
  have hu := hI.owner u
  have ht := hI.owner t
  by_cases hut : u = t
  · subst hut
    rw [Function.update_self]
    generalize f u = pc at hm hu
    cases hm with
    | lock o => simp [locked_locked]
    | unlock n r => simp [notifyFrom_locked]
    | notify left =>
      rw [notifyFrom_locked]
      exact hu
    | _ => simp_all [Pc.locked]
  · rw [Function.update_of_ne hut, hu]
    generalize f t = pc at hm ht
    cases hm <;> simp_all [Pc.locked, Ne.symm hut]

/-- A step of another thread finds the count as a thread inside the critical section left it. -/
theorem Inv.count_move (hI : Inv s f) (hm : Move t s (f t) s' l') {u : ι} (hut : u ≠ t)
    (hu : (f u).locked) : s'.count = s.count := by
  have ht : (f t).locked = false := by
    by_contra h
    exact hut (hI.unique hu (by simpa using h))
  generalize f t = pc at hm ht
  cases hm with
  | take | add => cases ht
  | _ => rfl

theorem Inv.ready_move (hI : Inv s f) (hm : Move t s (f t) s' l') (u : ι) (w : Bool) (r : Res)
    (hu : Function.update f t l' u = .take w r) : 0 < s'.count := by
  by_cases hut : u = t
  · subst hut
    rw [Function.update_self] at hu
    subst hu
    generalize hpc : Pc.take w r = pc' at hm
    generalize f u = pc at hm
    cases hm with
    | pass _ hc | tryPass hc => exact hc
    | lock o => cases o <;> cases hpc
    | unlock n v => cases n <;> cases hpc
    | notify left =>
      generalize left - 1 = n at hpc
      cases n <;> cases hpc
    | _ => cases hpc
  · rw [Function.update_of_ne hut] at hu
    rw [hI.count_move hm hut (by rw [hu]; rfl)]
    exact hI.ready u w r hu

theorem Inv.gone_move (hI : Inv s f) (hm : Move t s (f t) s' l') (u : ι)
    (hu : Function.update f t l' u = .block) : s'.count = 0 := by
  by_cases hut : u = t
  · subst hut
    rw [Function.update_self] at hu
    subst hu
    have hpos := hI.count
    generalize hpc : Pc.block = pc' at hm
    generalize f u = pc at hm
    cases hm with
    | fail _ hc => omega
    | lock o => cases o <;> cases hpc
    | unlock n v => cases n <;> cases hpc
    | notify left =>
      generalize left - 1 = n at hpc
      cases n <;> cases hpc
    | _ => cases hpc
  · rw [Function.update_of_ne hut] at hu
    rw [hI.count_move hm hut (by rw [hu]; rfl)]
    exact hI.gone u hu

/-- The threads on the list: those that were, less those woken, and one that blocks. -/
theorem Move.mem_blocked (hm : Move t s (f t) s' l') {u : ι} (hu : u ∈ s'.blocked) :
    u ∈ s.blocked ∨ u = t ∧ l' = .wait := by
  generalize f t = pc at hm
  cases hm with
  | block => exact (List.mem_cons.mp hu).elim (fun h => .inr ⟨h, rfl⟩) .inl
  | spurious => exact .inl (List.mem_of_mem_erase hu)
  | notify left v ws hn => exact .inl (notifyOne_subset hn hu)
  | _ => exact .inl hu

theorem Inv.waiting_move (hI : Inv s f) (hm : Move t s (f t) s' l') (u : ι) (hu : u ∈ s'.blocked) :
    Function.update f t l' u = .wait := by
  rcases hm.mem_blocked hu with hold | ⟨rfl, rfl⟩
  · have ho := hI.waiting u hold
    by_cases hut : u = t
    · -- a blocked thread can only be woken spuriously
      subst hut
      rw [ho] at hm
      cases hm with
      | spurious => exact Function.update_self ..
      | wake ht => exact absurd hold ht
    · rw [Function.update_of_ne hut, ho]
  · exact Function.update_self ..

theorem Inv.nodup_move (hI : Inv s f) (hm : Move t s (f t) s' l') : s'.blocked.Nodup := by
  have hk := hI.nodup
  have hw := hI.waiting t
  generalize hft : f t = pc at hm
  cases hm with
  | block =>
    refine List.nodup_cons.mpr ⟨fun ht => ?_, hk⟩
    have := hw ht
    rw [hft] at this
    cases this
  | spurious => exact hk.erase t
  | notify left u ws hn => exact notifyOne_nodup hn hk
  | _ => exact hk

theorem Inv.finite_move (hI : Inv s f) : {u | Function.update f t l' u ≠ .idle}.Finite := by
  refine (hI.finite.insert t).subset fun u hu => ?_
  by_cases hut : u = t
  · exact .inl hut
  · exact .inr (by simpa [hut] using hu)

omit [DecidableEq ι] in
/-- The blocked threads and the woken ones. -/
theorem waiters_eq {c : Config ι (Shared ι) Pc} (hf : {t | c.loc t ≠ .idle}.Finite)
    (hnd : c.shared.blocked.Nodup) (hw : ∀ t ∈ c.shared.blocked, c.loc t = .wait) :
    woken c + c.shared.blocked.length = waiters c.loc :=
  woken_add_blocked (p := fun l : Pc => l.waits)
    (hf.subset fun u hu hidle => by simp [hidle, Pc.waits] at hu) hnd fun t ht => by
      rw [hw t ht]
      rfl

/-- **The debts stay covered**: a release pays for the permits it makes. -/
theorem Inv.covered_move (hI : Inv s f) (hm : Move t s (f t) s' l') (hne : s'.blocked ≠ []) :
    s'.count + s'.blocked.length ≤
      pending (Function.update f t l') + waiters (Function.update f t l') := by
  by_cases h0 : s'.count = 0
  · -- without a permit the blocked threads cover themselves
    have := waiters_eq (c := ⟨s', Function.update f t l'⟩) hI.finite_move (hI.nodup_move hm)
      (hI.waiting_move hm)
    dsimp only at this
    omega
  have hO := pending_update hI.finite t l'
  have hW := waiters_update hI.finite t l'
  have hcov := hI.covered
  have hgone := hI.gone t
  generalize hft : f t = pc at hm hO hW hgone
  cases hm with
  | block => exact absurd (hgone rfl) h0
  | spurious ht =>
    have := hcov (List.ne_nil_of_mem ht)
    have hlen := List.length_erase_of_mem ht
    simp only [Pc.owes] at hO
    simp only [Pc.waits] at hW
    dsimp only
    omega
  | notify left u ws hn =>
    obtain ⟨hne', hlen⟩ := notifyOne_length hn hne
    have := hcov hne'
    rw [notifyFrom_owes] at hO
    rw [notifyFrom_waits] at hW
    simp only [Pc.owes, Pc.waits, Bool.false_eq_true, if_false] at hO hW
    dsimp only
    omega
  | unlock n r =>
    have := hcov hne
    rw [notifyFrom_owes] at hO
    rw [notifyFrom_waits] at hW
    simp only [Pc.owes, Pc.waits, Bool.false_eq_true, if_false] at hO hW
    dsimp only
    omega
  | lock o =>
    have := hcov hne
    rw [locked_owes] at hO
    rw [locked_waits] at hW
    simp only [Pc.owes, Pc.waits, Bool.false_eq_true, if_false] at hO hW
    dsimp only
    omega
  | take woken r =>
    have := hcov hne
    cases woken <;> simp [Pc.owes, Pc.waits] at hO hW <;> dsimp only <;> omega
  | pass woken hc =>
    have := hcov hne
    cases woken <;> simp [Pc.owes, Pc.waits] at hO hW <;> omega
  | fail woken hc =>
    have := hI.count
    exact absurd (le_antisymm hc this) h0
  | wake | add =>
    have := hcov hne
    simp [Pc.owes, Pc.waits] at hO hW
    dsimp only
    omega
  | call | tryPass | tryFail | ret =>
    have := hcov hne
    simp [Pc.owes, Pc.waits] at hO hW
    omega

theorem Inv.count_nonneg (hI : Inv s f) (hm : Move t s (f t) s' l') : 0 ≤ s'.count := by
  have hready := hI.ready t
  have hcount := hI.count
  generalize f t = pc at hm hready
  cases hm with
  | take woken r =>
    have := hready woken r rfl
    dsimp only
    omega
  | add count =>
    dsimp only
    omega
  | _ => exact hcount

theorem Inv.move (hI : Inv s f) (hm : Move t s (f t) s' l') : Inv s' (Function.update f t l') where
  count := hI.count_nonneg hm
  owner := hI.owner_move hm
  ready := hI.ready_move hm
  gone := hI.gone_move hm
  nodup := hI.nodup_move hm
  waiting := hI.waiting_move hm
  finite := hI.finite_move
  covered := hI.covered_move hm

/-! ## Runs -/

section
variable {n : ℤ} {h : List (Step ι)} {c : Config ι (Shared ι) Pc}

theorem Inv.run (hn : 0 ≤ n) (hr : program.Run Program.anyStep (initial n) h c) :
    Inv c.shared c.loc := by
  refine hr.induction (I := fun _ c => Inv c.shared c.loc) ?_ fun h c t k ev s l _ hI _ hs =>
    hI.move (step_move hs)
  exact {
    count := hn
    owner := by simp [initial, Pc.locked]
    ready := by simp [initial]
    gone := by simp [initial]
    nodup := by simp [initial]
    waiting := by simp [initial]
    finite := by simp [initial]
    covered := by simp [initial] }

/-- **The debts cover the permits** while somebody is blocked. -/
theorem permits_covered (hn : 0 ≤ n) (hr : program.Run Program.anyStep (initial n) h c) {t : ι}
    (ht : Blocked c t) : c.shared.count ≤ pending c.loc + woken c := by
  have hI := Inv.run hn hr
  have hcov := hI.covered (List.ne_nil_of_mem ht.2)
  have := waiters_eq hI.finite hI.nodup hI.waiting
  omega

/-- A thread blocked beside a permit has somebody on the way to it. -/
theorem somebody_comes (hn : 0 ≤ n) (hr : program.Run Program.anyStep (initial n) h c) {t : ι}
    (ht : Blocked c t) (hpos : 0 < c.shared.count) : ∃ u, 0 < (c.loc u).owes ∨ Woken c u := by
  by_contra hno
  push Not at hno
  have hp : pending c.loc = 0 := total_eq_zero fun u => Nat.eq_zero_of_le_zero (hno u).1
  have hw : woken c = 0 := by
    unfold woken
    rw [Set.eq_empty_of_forall_notMem (s := {t | Woken c t}) fun u => (hno u).2]
    exact Set.ncard_empty _
  have := permits_covered hn hr ht
  rw [hp, hw] at this
  omega
end

end Bonostl.CountingSemaphore
