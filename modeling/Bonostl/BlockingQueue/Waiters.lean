import Bonostl.BlockingQueue.Model

/-!
# Nobody is stranded on a `blocking_queue`

For a condition variable `k` call `avail k` what its waiters are waiting for: the stored elements
for `not_empty_`, the free places for `not_full_`. An operation that makes one available owes a
`notify_one` from then on, and a thread that was woken counts until it has used one up or has found
none left. Both debts together cover what is available as long as anybody is blocked
(`Inv.covered`). Threads that barge in only lower `avail`, and a thread blocks only when nothing is
available.

`no_stranded_waiter` is the result, for every run from a constructed queue.
-/

namespace Bonostl.BlockingQueue

open Interleaving

variable {ι V : Type}

/-- What the threads blocked on `k` are waiting for. -/
def avail (s : Shared ι V) : Cond → ℕ
  | .notFull => s.capacity - s.data.length
  | .notEmpty => s.data.length

/-- The thread has not yet made the `notify_one` on `k` it is going to make. -/
def Pc.owes (k : Cond) : Pc V → Bool
  | .unlock n _ => n = some k
  | .notify n _ => n = k
  | _ => false

/-- The thread is inside a wait on `k`, or has been woken from one and has not yet acted on it. -/
def Pc.waits (k : Cond) : Pc V → Bool
  | .wait o | .check o true | .act o true => o.cond = k
  | _ => false

/-- The thread holds `mutex_`. -/
def Pc.locked : Pc V → Bool
  | .check _ _ | .block _ | .act _ _ | .unlock _ _ => true
  | _ => false

/-- The `notify_one` calls on `k` still to come. -/
noncomputable def pending (k : Cond) (f : ι → Pc V) : ℕ := threadsIn (fun l => l.owes k) f

/-- The threads blocked on `k` or woken from it. -/
noncomputable def waiters (k : Cond) (f : ι → Pc V) : ℕ := threadsIn (fun l => l.waits k) f

/-- The threads woken from a wait on `k` that have not yet acted on it: they have not taken the
mutex again, or hold it and have neither used what they were woken for nor found it gone. -/
def Woken (c : Config ι (Shared ι V) (Pc V)) (k : Cond) (t : ι) : Prop :=
  (c.loc t).waits k ∧ t ∉ c.shared.blocked k

/-- How many threads are woken from a wait on `k`. -/
noncomputable def woken (c : Config ι (Shared ι V) (Pc V)) (k : Cond) : ℕ := {t | Woken c k t}.ncard

/-- The thread is blocked on `k`. -/
def Blocked (c : Config ι (Shared ι V) (Pc V)) (k : Cond) (t : ι) : Prop :=
  (∃ o, c.loc t = .wait o ∧ o.cond = k) ∧ t ∈ c.shared.blocked k

/-- The locks and the waiting do not matter to it. -/
@[simp] theorem avail_frame (s : Shared ι V) (m : Option ι) (b : Cond → List ι) (k : Cond) :
    avail ⟨m, b, s.data, s.capacity⟩ k = avail s k := by
  cases k <;> rfl

theorem ready_iff_avail {s : Shared ι V} {o : Op V} : o.ready s = true ↔ 0 < avail s o.cond := by
  cases o <;> simp [Op.ready, Op.cond, avail, List.length_pos_iff]

theorem avail_of_not_ready {s : Shared ι V} {o : Op V} (h : o.ready s = false) :
    avail s o.cond = 0 := by
  have := (ready_iff_avail (s := s) (o := o)).not
  simp only [h, Bool.false_eq_true, not_false_eq_true, true_iff] at this
  omega

/-- An access uses up one of what the operation waits for, and makes one of what it notifies. -/
theorem avail_act {s : Shared ι V} {o : Op V} {data : List V} {r : Res V}
    (hsize : s.data.length ≤ s.capacity) (hr : o.ready s = true) (ha : o.act s = some (data, r)) :
    avail { s with data } o.cond + 1 = avail s o.cond ∧
      avail { s with data } o.notifies = avail s o.notifies + 1 ∧ data.length ≤ s.capacity := by
  cases o with
  | push v | tryPush v =>
    obtain ⟨rfl, rfl⟩ := Prod.mk.inj (Option.some.inj ha)
    simp only [Op.ready, decide_eq_true_eq] at hr
    refine ⟨?_, ?_, ?_⟩ <;>
      simp only [avail, Op.cond, Op.notifies, List.length_append, List.length_singleton] <;> omega
  | waitAndPop | tryPop =>
    cases hd : s.data with
    | nil => simp [Op.act, hd] at ha
    | cons v rest =>
      simp only [Op.act, hd, Option.some.injEq, Prod.mk.injEq] at ha
      obtain ⟨rfl, rfl⟩ := ha
      simp only [hd, List.length_cons] at hsize
      refine ⟨?_, ?_, by omega⟩ <;>
        (simp only [avail, Op.cond, Op.notifies, hd, List.length_cons]; try omega)

theorem cond_or_notifies (o : Op V) (k : Cond) : k = o.cond ∨ k = o.notifies := by
  cases o <;> cases k <;> simp [Op.notifies, Op.cond]

theorem notifies_ne_cond (o : Op V) : o.notifies ≠ o.cond := by
  cases o <;> simp [Op.notifies, Op.cond]

/-! ## The invariant -/

/-- The invariant of a queue of capacity `cap`: the mutex and the lists of the condition variables
fit the places of the threads, and `covered` counts the wake-ups to come. -/
structure Inv (cap : ℕ) (s : Shared ι V) (f : ι → Pc V) : Prop where
  capacity : s.capacity = cap
  size : s.data.length ≤ cap
  owner : ∀ t, (f t).locked ↔ s.mutex = some t
  ready : ∀ t o w, f t = .act o w → o.ready s = true
  gone : ∀ t o, f t = .block o → o.ready s = false
  nodup : ∀ k, (s.blocked k).Nodup
  waiting : ∀ k, ∀ t ∈ s.blocked k, ∃ o, f t = .wait o ∧ o.cond = k
  finite : {t | f t ≠ .idle}.Finite
  covered : ∀ k, s.blocked k ≠ [] → avail s k + (s.blocked k).length ≤ pending k f + waiters k f

variable [DecidableEq ι] {cap : ℕ} {s s' : Shared ι V} {f : ι → Pc V} {t : ι}
  {ev : Event (Op V) (Res V)} {l' : Pc V}

theorem pending_update (hf : {t | f t ≠ .idle}.Finite) (k : Cond) (t : ι) (l : Pc V) :
    pending k (Function.update f t l) + (if (f t).owes k then 1 else 0) =
      pending k f + (if l.owes k then 1 else 0) :=
  threadsIn_update_of_idle rfl hf t l

theorem waiters_update (hf : {t | f t ≠ .idle}.Finite) (k : Cond) (t : ι) (l : Pc V) :
    waiters k (Function.update f t l) + (if (f t).waits k then 1 else 0) =
      waiters k f + (if l.waits k then 1 else 0) :=
  threadsIn_update_of_idle rfl hf t l

omit [DecidableEq ι] in
/-- Only the owner of the mutex is inside the critical section. -/
theorem Inv.unique (hI : Inv cap s f) {u v : ι} (hu : (f u).locked) (hv : (f v).locked) : u = v :=
  Option.some.inj (((hI.owner u).mp hu).symm.trans ((hI.owner v).mp hv))

theorem Inv.owner_move (hI : Inv cap s f) (hm : Move t s ev (f t) s' l') (u : ι) :
    (Function.update f t l' u).locked ↔ s'.mutex = some u := by
  have hu := hI.owner u
  have ht := hI.owner t
  by_cases hut : u = t
  · subst hut
    rw [Function.update_self]
    generalize f u = pc at hm hu
    cases hm <;> simp_all [Pc.locked]
  · rw [Function.update_of_ne hut, hu]
    generalize f t = pc at hm ht
    cases hm <;> simp_all [Pc.locked, Ne.symm hut]

/-- A step of another thread finds the queue as a thread inside the critical section left it. -/
theorem Inv.data_move (hI : Inv cap s f) (hm : Move t s ev (f t) s' l') {u : ι} (hut : u ≠ t)
    (hu : (f u).locked) (o : Op V) : o.ready s' = o.ready s := by
  have ht : (f t).locked = false := by
    by_contra h
    exact hut (hI.unique hu (by simpa using h))
  generalize f t = pc at hm ht
  cases hm with
  | act => simp [Pc.locked] at ht
  | _ => cases o <;> rfl

theorem Inv.ready_move (hI : Inv cap s f) (hm : Move t s ev (f t) s' l') (u : ι) (o : Op V)
    (w : Bool)
    (hu : Function.update f t l' u = .act o w) : o.ready s' = true := by
  by_cases hut : u = t
  · subst hut
    rw [Function.update_self] at hu
    subst hu
    generalize f u = pc at hm
    cases hm with
    | pass _ _ hp => exact hp
  · rw [Function.update_of_ne hut] at hu
    rw [hI.data_move hm hut (by rw [hu]; rfl)]
    exact hI.ready u o w hu

theorem Inv.gone_move (hI : Inv cap s f) (hm : Move t s ev (f t) s' l') (u : ι) (o : Op V)
    (hu : Function.update f t l' u = .block o) : o.ready s' = false := by
  by_cases hut : u = t
  · subst hut
    rw [Function.update_self] at hu
    subst hu
    generalize f u = pc at hm
    cases hm with
    | fail _ _ hp => exact hp
  · rw [Function.update_of_ne hut] at hu
    rw [hI.data_move hm hut (by rw [hu]; rfl)]
    exact hI.gone u o hu

/-- The threads on a list: those that were, less those woken, and one that blocks. -/
theorem Move.mem_blocked (hm : Move t s ev (f t) s' l') {k : Cond} {u : ι} (hu : u ∈ s'.blocked k) :
    u ∈ s.blocked k ∨ ∃ o, u = t ∧ l' = .wait o ∧ o.cond = k := by
  generalize f t = pc at hm
  cases hm with
  | block o =>
    by_cases hk : k = o.cond
    · subst hk
      simp only [Function.update_self, List.mem_cons] at hu
      exact hu.elim (fun h => .inr ⟨o, h, rfl, rfl⟩) .inl
    · exact .inl (by simpa [hk] using hu)
  | spurious o =>
    by_cases hk : k = o.cond
    · subst hk
      exact .inl (List.mem_of_mem_erase (by simpa using hu))
    · exact .inl (by simpa [hk] using hu)
  | notify n r v ws hn =>
    by_cases hk : k = n
    · subst hk
      exact .inl (notifyOne_subset hn (by simpa using hu))
    · exact .inl (by simpa [hk] using hu)
  | _ => exact .inl hu

theorem Inv.waiting_move (hI : Inv cap s f) (hm : Move t s ev (f t) s' l') (k : Cond) (u : ι)
    (hu : u ∈ s'.blocked k) : ∃ o, Function.update f t l' u = .wait o ∧ o.cond = k := by
  rcases hm.mem_blocked hu with hold | ⟨o, rfl, rfl, hk⟩
  · obtain ⟨o, ho, hk⟩ := hI.waiting k u hold
    by_cases hut : u = t
    · -- a blocked thread can only be woken spuriously
      subst hut
      rw [ho] at hm
      cases hm with
      | spurious => exact ⟨o, Function.update_self .., hk⟩
      | wake _ ht => exact absurd (hk ▸ hold) ht
    · exact ⟨o, by rw [Function.update_of_ne hut, ho], hk⟩
  · exact ⟨o, Function.update_self .., hk⟩

theorem Inv.nodup_move (hI : Inv cap s f) (hm : Move t s ev (f t) s' l') (k : Cond) :
    (s'.blocked k).Nodup := by
  have hk := hI.nodup k
  have hw := hI.waiting k t
  generalize hft : f t = pc at hm
  cases hm with
  | block o =>
    by_cases h : k = o.cond
    · subst h
      have hno : t ∉ s.blocked o.cond := fun ht => by
        obtain ⟨_, hwt, -⟩ := hw ht
        rw [hft] at hwt
        cases hwt
      simpa using ⟨hno, hk⟩
    · simpa [h] using hk
  | spurious o =>
    by_cases h : k = o.cond
    · subst h; simpa using hk.erase t
    · simpa [h] using hk
  | notify n r v ws hn =>
    by_cases h : k = n
    · subst h; simpa using notifyOne_nodup hn hk
    · simpa [h] using hk
  | _ => exact hk

omit [DecidableEq ι] in
/-- With nothing available the debts are covered by the blocked threads themselves. -/
theorem covered_of_avail_eq_zero {k : Cond} (hfin : {t | f t ≠ .idle}.Finite)
    (hnd : (s.blocked k).Nodup) (hw : ∀ t ∈ s.blocked k, ∃ o, f t = .wait o ∧ o.cond = k)
    (h0 : avail s k = 0) : avail s k + (s.blocked k).length ≤
      pending k f + waiters k f := by
  have hwk := woken_add_blocked (p := fun l : Pc V => l.waits k) (f := f)
    (hfin.subset fun u hu hidle => by simp [hidle, Pc.waits] at hu) hnd fun t ht => by
      obtain ⟨o, ho, hk⟩ := hw t ht
      simp [ho, Pc.waits, hk]
  unfold waiters
  omega

theorem Inv.finite_move (hI : Inv cap s f) : {u | Function.update f t l' u ≠ .idle}.Finite := by
  refine (hI.finite.insert t).subset fun u hu => ?_
  by_cases hut : u = t
  · exact Or.inl hut
  · exact Or.inr (by simpa [hut] using hu)

/-- **The debts stay covered**: every step pays for what it makes available. -/
theorem Inv.covered_move (hI : Inv cap s f) (hm : Move t s ev (f t) s' l') (k : Cond)
    (hne : s'.blocked k ≠ []) : avail s' k + (s'.blocked k).length ≤
      pending k (Function.update f t l') + waiters k (Function.update f t l') := by
  by_cases h0 : avail s' k = 0
  · exact covered_of_avail_eq_zero hI.finite_move (hI.nodup_move hm k) (hI.waiting_move hm k) h0
  have hO := pending_update hI.finite k t l'
  have hW := waiters_update hI.finite k t l'
  have hcov := hI.covered k
  have hready := hI.ready t
  have hgone := hI.gone t
  generalize hft : f t = pc at hm hO hW hready hgone
  cases hm with
  | call | lock | ret | release | unlock | wake =>
    have := hcov hne
    simp_all [Pc.owes, Pc.waits]
  | pass o w =>
    have := hcov hne
    cases w <;> simp_all [Pc.owes, Pc.waits]
  | refuse o w _ hp | fail o w hp =>
    have := hcov hne
    have hk : o.cond ≠ k := fun hk => h0 (hk ▸ avail_of_not_ready hp)
    cases w <;> simp_all [Pc.owes, Pc.waits]
  | block o =>
    rw [avail_frame] at h0 ⊢
    have hk : k ≠ o.cond := fun hk => h0 (hk ▸ avail_of_not_ready (hgone o rfl))
    simp only [Function.update_of_ne hk] at hne ⊢
    have := hcov hne
    simp [Pc.owes, Pc.waits, Ne.symm hk] at hO hW
    omega
  | spurious o ht =>
    rw [avail_frame]
    simp [Pc.owes] at hO hW
    by_cases hk : k = o.cond
    · subst hk
      have := hcov (List.ne_nil_of_mem ht)
      have hlen := List.length_erase_of_mem ht
      simp only [Function.update_self]
      omega
    · simp only [Function.update_of_ne hk] at hne ⊢
      have := hcov hne
      omega
  | act o w data r ha =>
    have := hcov hne
    obtain ⟨hc, hn, -⟩ := avail_act (hI.capacity ▸ hI.size) (hready o w rfl) ha
    have hnc := notifies_ne_cond o
    rcases cond_or_notifies o k with rfl | rfl
    · cases w <;> simp [Pc.owes, Pc.waits, hnc] at hO hW <;> dsimp only <;> omega
    · cases w <;> simp [Pc.owes, Pc.waits, hnc.symm] at hO hW <;> dsimp only <;> omega
  | notify n r u ws hn =>
    rw [avail_frame]
    by_cases hk : k = n
    · subst hk
      simp only [Function.update_self] at hne ⊢
      obtain ⟨hne', hlen⟩ := notifyOne_length hn hne
      have := hcov hne'
      simp [Pc.owes, Pc.waits] at hO hW
      omega
    · simp only [Function.update_of_ne hk] at hne ⊢
      have := hcov hne
      simp [Pc.owes, Pc.waits, Ne.symm hk] at hO hW
      omega

theorem Inv.size_move (hI : Inv cap s f) (hm : Move t s ev (f t) s' l') :
    s'.capacity = cap ∧ s'.data.length ≤ cap := by
  have hready := hI.ready t
  generalize f t = pc at hm hready
  cases hm with
  | act o w data r ha =>
    obtain ⟨-, -, hlen⟩ := avail_act (hI.capacity ▸ hI.size) (hready o w rfl) ha
    exact ⟨hI.capacity, hI.capacity ▸ hlen⟩
  | _ => exact ⟨hI.capacity, hI.size⟩

theorem Inv.move (hI : Inv cap s f) (hm : Move t s ev (f t) s' l') :
    Inv cap s' (Function.update f t l') where
  capacity := (hI.size_move hm).1
  size := (hI.size_move hm).2
  owner := hI.owner_move hm
  ready := hI.ready_move hm
  gone := hI.gone_move hm
  nodup := hI.nodup_move hm
  waiting := hI.waiting_move hm
  finite := hI.finite_move
  covered := hI.covered_move hm

theorem Inv.run {h : List (Rec ι (Shared ι V) (Pc V) (Op V) (Res V))}
    {c : Config ι (Shared ι V) (Pc V)}
    (hs : construct cap = .ok s) (hr : program.Run Program.anyStep (initial s) h c) :
    Inv cap c.shared c.loc := by
  refine hr.induction (I := fun _ c => Inv cap c.shared c.loc) ?_ ?_
  · unfold construct at hs
    split at hs
    · cases hs
    · cases hs
      exact {
        capacity := rfl
        size := Nat.zero_le _
        owner := by simp [initial, Pc.locked]
        ready := by simp [initial]
        gone := by simp [initial]
        nodup := by simp [initial]
        waiting := by simp [initial]
        finite := by simp [initial]
        covered := by simp [initial] }
  · intro h c t k ev s l _ hI _ hs
    exact hI.move (step_move hs)

/-! ## The result -/

section
variable {h : List (Rec ι (Shared ι V) (Pc V) (Op V) (Res V))} {c : Config ι (Shared ι V) (Pc V)}

omit [DecidableEq ι] in
theorem Inv.avail_le (hI : Inv cap c.shared c.loc) {k : Cond} {t : ι} (ht : Blocked c k t) :
    avail c.shared k ≤ pending k c.loc + woken c k := by
  have hcov := hI.covered k (List.ne_nil_of_mem ht.2)
  have hwk := woken_add_blocked (p := fun l : Pc V => l.waits k) (f := c.loc)
    (hI.finite.subset fun u hu hidle => by simp [hidle, Pc.waits] at hu) (hI.nodup k) fun t ht => by
      obtain ⟨o, ho, hk⟩ := hI.waiting k t ht
      simp [ho, Pc.waits, hk]
  unfold waiters at hcov
  unfold woken Woken
  omega

omit [DecidableEq ι] in
/-- A thread blocked on something available is owed a notification or somebody is on the way. -/
theorem Inv.some_waker (hI : Inv cap c.shared c.loc) {k : Cond} {t : ι} (ht : Blocked c k t)
    (ha : 0 < avail c.shared k) : ∃ u, (c.loc u).owes k ∨ Woken c k u := by
  have hle := hI.avail_le ht
  by_contra hno
  push Not at hno
  have hp : pending k c.loc = 0 := by
    unfold pending threadsIn
    rw [Set.eq_empty_of_forall_notMem (s := {t | (c.loc t).owes k = true}) fun u => (hno u).1]
    exact Set.ncard_empty _
  have hw : woken c k = 0 := by
    unfold woken
    rw [Set.eq_empty_of_forall_notMem (s := {t | Woken c k t}) fun u => (hno u).2]
    exact Set.ncard_empty _
  omega

omit [DecidableEq ι] in
/-- While nobody holds the mutex, the woken threads have not run at all. -/
theorem Inv.woken_waits (hI : Inv cap c.shared c.loc) (hfree : c.shared.mutex = none) {k : Cond}
    {t : ι} (ht : Woken c k t) : ∃ o, c.loc t = .wait o ∧ o.cond = k := by
  have hno : (c.loc t).locked = false := by
    have := hI.owner t
    simp_all
  obtain ⟨hw, -⟩ := ht
  generalize c.loc t = pc at hw hno
  cases pc with
  | wait o => exact ⟨o, rfl, by simpa [Pc.waits] using hw⟩
  | _ => simp_all [Pc.waits, Pc.locked]

/-- **Nobody is stranded.** While a consumer is blocked, the notifications still to come and the
woken consumers are at least as many as the stored elements; for a blocked producer, as the free
places. So whoever is blocked on something available has somebody left to wake it. -/
theorem no_stranded_waiter (hs : construct cap = .ok s)
    (hr : program.Run Program.anyStep (initial s) h c) :
    c.shared.data.length ≤ cap ∧
      (∀ t, Blocked c .notEmpty t →
        c.shared.data.length ≤ pending .notEmpty c.loc + woken c .notEmpty) ∧
      (∀ t, Blocked c .notFull t →
        cap - c.shared.data.length ≤ pending .notFull c.loc + woken c .notFull) ∧
      (∀ t, Blocked c .notEmpty t → c.shared.data ≠ [] →
        ∃ u, (c.loc u).owes .notEmpty ∨ Woken c .notEmpty u) ∧
      (∀ t, Blocked c .notFull t → c.shared.data.length < cap →
        ∃ u, (c.loc u).owes .notFull ∨ Woken c .notFull u) ∧
      (c.shared.mutex = none → ∀ k t, Woken c k t → ∃ o, c.loc t = .wait o ∧ o.cond = k) := by
  have hI := Inv.run hs hr
  have hfull : avail c.shared .notFull = cap - c.shared.data.length := by
    simp only [avail, hI.capacity]
  refine ⟨hI.size, fun t ht => hI.avail_le ht, fun t ht => hfull ▸ hI.avail_le ht, ?_, ?_, ?_⟩
  · intro t ht hd
    exact hI.some_waker ht (List.length_pos_iff.mpr hd)
  · intro t ht hlt
    exact hI.some_waker ht (by omega)
  · intro hfree k t ht
    exact hI.woken_waits hfree ht
end

/-- A consumer is blocked, an element is stored and the producer has not notified yet. -/
theorem no_stranded_waiter_before_notify :
    ∃ (s : Shared Bool ℕ) (h : _) (c : _), construct 1 = .ok s ∧
      program.Run Program.anyStep (initial s) h c ∧ Blocked c .notEmpty false ∧
        c.shared.data = [5] ∧ 1 ≤ pending .notEmpty c.loc + woken c .notEmpty := by
  obtain ⟨h, c, hr, hp⟩ := Program.replay_reaches
    program (initial (⟨none, fun _ => [], [], 1⟩ : Shared Bool ℕ))
    [(false, .call .waitAndPop), (false, .run), (false, .run), (false, .run),
      (true, .call (.push 5)), (true, .run), (true, .run), (true, .run), (true, .run)]
    (fun _ c => c.loc false = .wait .waitAndPop ∧ false ∈ c.shared.blocked .notEmpty ∧
      c.shared.data = [5]) (by decide)
  obtain ⟨hw, hb, hd⟩ := of_decide_eq_true hp
  have ht : Blocked c .notEmpty false := ⟨⟨.waitAndPop, hw, rfl⟩, hb⟩
  have hs : construct 1 = .ok (⟨none, fun _ => [], [], 1⟩ : Shared Bool ℕ) := rfl
  have hle := (no_stranded_waiter hs hr).2.1 false ht
  rw [hd] at hle
  exact ⟨_, h, c, hs, hr, ht, hd, hle⟩

end Bonostl.BlockingQueue
