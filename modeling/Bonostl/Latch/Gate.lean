import Bonostl.Interleaving.Returned
import Bonostl.Interleaving.Termination
import Bonostl.Interleaving.Totals
import Bonostl.Latch.Model

/-!
# A `latch` is a gate that opens once

`count_` is what the latch was made with, less what has been counted down; that is at least what the
operations that have returned count down by, and at most what those called do (`counted_bounds`).
Whoever lowers it to 0 or below holds the mutex until it has called `notify_all`, and nobody blocks
on an open latch, so no waiter is left behind: if somebody is blocked on an open latch, then
somebody else is about to notify (`Inv.told`). As long as nobody counts down by a negative number,
an open latch stays open. Then no wait returns before the latch is open (`latch_gate`), and once it
is open everybody inside gets out (`latch_drains`).
-/

namespace Bonostl.Latch

open Interleaving

variable {ι : Type}

/-- The thread holds `mutex_`. -/
def Pc.locked : Pc → Bool
  | .sub _ _ | .test _ | .notifyAll _ | .unlock _ | .tryCheck | .check | .block | .leave _ => true
  | _ => false

/-- The thread has lowered `count_` and has not got past its `notify_all`. -/
def Pc.telling : Pc → Bool
  | .test _ | .notifyAll _ => true
  | _ => false

/-- What the thread is about to count down by. -/
def Pc.counts : Pc → Option ℤ
  | .lock (.countDown n) | .lock (.arriveAndWait n) | .sub _ n => some n
  | _ => none

/-- What the thread has found of the latch: it is open (true) or not. -/
def Pc.found : Pc → Option Bool
  | .leave .opened | .done .opened => some true
  | .leave (.bool b) | .done (.bool b) => some b
  | _ => none

/-- The thread is blocked in `wait` or `arrive_and_wait`. -/
def Blocked (c : Config ι (Shared ι) Pc) (t : ι) : Prop := c.loc t = .wait ∧ t ∈ c.shared.zero

/-- What has been counted down. -/
def counted : List (Step ι) → ℤ
  | [] => 0
  | r :: h =>
    match r.pre.loc r.tid with
    | .sub _ n => counted h + n
    | _ => counted h

/-- By how much an operation counts down. -/
def Op.amount : Op → ℤ
  | .countDown n | .arriveAndWait n => n
  | _ => 0

/-- By how much the operations called count down. -/
def asked (h : List (Step ι)) : ℤ := ((calls h).map Op.amount).sum

/-- By how much the operation counts down that a thread is in. -/
def inProgress (o : Option Op) : ℤ := (o.map Op.amount).getD 0

/-- By how much the operations count down that have returned. -/
def finished [DecidableEq ι] : List (Step ι) → ℤ
  | [] => 0
  | r :: h =>
    match r.ev with
    | .ret _ => finished h + inProgress (current h r.tid)
    | _ => finished h

/-- By how much the thread has still to count down. -/
def Pc.owed (l : Pc) : ℤ := l.counts.getD 0

/-- The thread is in the operation `o`, which does not count up. -/
structure Pc.Doing (l : Pc) (o : Option Op) : Prop where
  idle : l = .idle → o = none
  nonneg : 0 ≤ inProgress o
  counts : ∀ n, l.counts = some n → inProgress o = n

@[simp] theorem begin_locked (o : Op) : o.begin.locked = true := by cases o <;> rfl

@[simp] theorem begin_telling (o : Op) : o.begin.telling = false := by cases o <;> rfl

@[simp] theorem begin_counts (o : Op) : o.begin.counts = (Pc.lock o).counts := by cases o <;> rfl

@[simp] theorem begin_found (o : Op) : o.begin.found = none := by cases o <;> rfl

@[simp] theorem afterCount_locked (a : Bool) : (afterCount a).locked = false := by cases a <;> rfl

@[simp] theorem afterCount_counts (a : Bool) : (afterCount a).counts = none := by cases a <;> rfl

@[simp] theorem afterCount_found (a : Bool) : (afterCount a).found = none := by cases a <;> rfl

/-! ## The invariant -/

/-- The invariant: the mutex and the list of blocked threads fit the places of the threads, and who
is blocked on an open latch will be told. -/
structure Inv (s : Shared ι) (f : ι → Pc) : Prop where
  owner : ∀ t, (f t).locked ↔ s.mutex = some t
  waiting : ∀ t ∈ s.zero, f t = .wait
  shut : ∀ t, f t = .block → 0 < s.count
  told : s.zero ≠ [] → s.count ≤ 0 → ∃ t, (f t).telling
  finite : {t | f t ≠ .idle}.Finite

variable [DecidableEq ι] {s s' : Shared ι} {f : ι → Pc} {t : ι} {k : Choice} {ev : Event Op Res}
  {l' : Pc}

omit [DecidableEq ι] in
/-- Only the owner of the mutex is inside the critical section. -/
theorem Inv.unique (hI : Inv s f) {u v : ι} (hu : (f u).locked) (hv : (f v).locked) : u = v :=
  Option.some.inj (((hI.owner u).mp hu).symm.trans ((hI.owner v).mp hv))

theorem Inv.owner_move (hI : Inv s f) (hm : Move t s k ev (f t) s' l') (u : ι) :
    (Function.update f t l' u).locked ↔ s'.mutex = some u := by
  have hu := hI.owner u
  have ht := hI.owner t
  by_cases hut : u = t
  · subst hut
    rw [Function.update_self]
    generalize f u = pc at hm hu
    cases hm with
    | lock o => simp
    | unlock a => simp
    | _ => simp_all [Pc.locked]
  · rw [Function.update_of_ne hut, hu]
    generalize f t = pc at hm ht
    cases hm <;> simp_all [Pc.locked, Ne.symm hut]

theorem Inv.waiting_move (hI : Inv s f) (hm : Move t s k ev (f t) s' l') (u : ι)
    (hu : u ∈ s'.zero) :
    Function.update f t l' u = .wait := by
  have hold : u ∈ s.zero → u ≠ t → Function.update f t l' u = .wait := fun h hut => by
    rw [Function.update_of_ne hut]
    exact hI.waiting u h
  have hwait := hI.waiting u
  by_cases hut : u = t
  · subst hut
    rw [Function.update_self]
    generalize f u = pc at hm hwait
    cases hm with
    | block | spurious => rfl
    | notifyAll => cases hu
    | wake ht => exact absurd hu ht
    | _ => cases hwait hu
  · refine hold ?_ hut
    generalize f t = pc at hm
    cases hm with
    | block => exact (List.mem_cons.mp hu).resolve_left hut
    | spurious => exact List.mem_of_mem_erase hu
    | notifyAll => cases hu
    | _ => exact hu

/-- Only `count_down` changes the count. -/
theorem Move.count_eq {l : Pc} (hm : Move t s k ev l s' l') (hl : ∀ a n, l ≠ .sub a n) :
    s'.count = s.count := by
  cases hm with
  | sub a n => exact absurd rfl (hl a n)
  | _ => rfl

theorem Inv.shut_move (hI : Inv s f) (hm : Move t s k ev (f t) s' l') (u : ι)
    (hu : Function.update f t l' u = .block) : 0 < s'.count := by
  by_cases hut : u = t
  · rw [hut, Function.update_self] at hu
    subst hu
    generalize hpc : Pc.block = pc' at hm
    generalize f t = pc at hm
    cases hm with
    | fail hc => exact hc
    | lock o => cases o <;> cases hpc
    | unlock a => cases a <;> cases hpc
    | _ => cases hpc
  · rw [Function.update_of_ne hut] at hu
    rw [hm.count_eq fun a n ha => hut (hI.unique (by rw [hu]; rfl) (by rw [ha]; rfl))]
    exact hI.shut u hu

/-- **No waiter is left behind.** -/
theorem Inv.told_move (hI : Inv s f) (hm : Move t s k ev (f t) s' l') (hz : s'.zero ≠ [])
    (hc : s'.count ≤ 0) : ∃ u, (Function.update f t l' u).telling := by
  -- a step that neither blocks nor touches the count leaves the one that tells in its place
  have hkeep : s.zero ≠ [] → s.count ≤ 0 → ((f t).telling = true → l'.telling = true) →
      ∃ u, (Function.update f t l' u).telling := fun hz hc ht => by
    obtain ⟨u, hu⟩ := hI.told hz hc
    refine ⟨u, ?_⟩
    by_cases hut : u = t
    · rw [hut, Function.update_self]
      exact ht (hut ▸ hu)
    · rwa [Function.update_of_ne hut]
  have hshut := hI.shut t
  generalize hft : f t = l at hm hkeep hshut
  cases hm with
  | sub a n => exact ⟨t, by rw [Function.update_self]; rfl⟩
  | testOpen a => exact ⟨t, by rw [Function.update_self]; rfl⟩
  | testShut a h => omega
  | notifyAll => exact absurd rfl hz
  | block => exact absurd hc (Int.not_le.mpr (hshut rfl))
  | spurious =>
    refine hkeep (fun h => hz ?_) hc (by rintro ⟨⟩)
    rw [h]
    rfl
  | _ => exact hkeep hz hc (by rintro ⟨⟩)

theorem Inv.move (hI : Inv s f) (hm : Move t s k ev (f t) s' l') :
    Inv s' (Function.update f t l') where
  owner := hI.owner_move hm
  waiting := hI.waiting_move hm
  shut := hI.shut_move hm
  told := hI.told_move hm
  finite := by
    refine (hI.finite.insert t).subset fun u hu => ?_
    by_cases hut : u = t
    · exact .inl hut
    · exact .inr (by simpa [hut] using hu)

/-! ## The gate -/

/-- What holds as long as nobody counts down by a negative number: nobody is about to, and whoever
has found the latch open is past an open latch. -/
structure Opens (s : Shared ι) (f : ι → Pc) : Prop where
  counts : ∀ t n, (f t).counts = some n → 0 ≤ n
  passed : ∀ t, (f t).found = some true → s.count ≤ 0

/-- Nobody counts down by a negative number. -/
def CountsDown (_ : List (Step ι)) (_ : Config ι (Shared ι) Pc) (_ : ι) (k : Choice) : Prop :=
  ∀ n, k = .call (.countDown n) ∨ k = .call (.arriveAndWait n) → 0 ≤ n

theorem Opens.count_le (h : Opens s f) (hm : Move t s k ev (f t) s' l') : s'.count ≤ s.count := by
  have hn := h.counts t
  generalize f t = pc at hm hn
  cases hm with
  | sub a n =>
    have := hn n rfl
    dsimp only
    omega
  | _ => exact le_rfl

theorem Opens.move (h : Opens s f) (hm : Move t s k ev (f t) s' l')
    (hk : ∀ n, k = .call (.countDown n) ∨ k = .call (.arriveAndWait n) → 0 ≤ n) :
    Opens s' (Function.update f t l') where
  counts u n hu := by
    by_cases hut : u = t
    · rw [hut, Function.update_self] at hu
      have hn := h.counts t
      generalize f t = pc at hm hn
      cases hm with
      | call o =>
        cases o with
        | countDown m =>
          obtain rfl : m = n := by simpa [Pc.counts] using hu
          exact hk m (.inl rfl)
        | arriveAndWait m =>
          obtain rfl : m = n := by simpa [Pc.counts] using hu
          exact hk m (.inr rfl)
        | _ => cases hu
      | lock o => exact hn n (by rwa [begin_counts] at hu)
      | unlock a =>
        rw [afterCount_counts] at hu
        cases hu
      | _ => cases hu
    · rw [Function.update_of_ne hut] at hu
      exact h.counts u n hu
  passed u hu := by
    have hle := h.count_le hm
    by_cases hut : u = t
    · rw [hut, Function.update_self] at hu
      have hp := h.passed t
      generalize f t = pc at hm hp
      cases hm with
      | pass hc => exact hc
      | tryCheck => simpa [Pc.found] using hu
      | leave r =>
        refine hp ?_
        cases r <;> exact hu
      | lock o =>
        rw [begin_found] at hu
        cases hu
      | unlock a =>
        rw [afterCount_found] at hu
        cases hu
      | _ => cases hu
    · rw [Function.update_of_ne hut] at hu
      exact hle.trans (h.passed u hu)

section
variable {expected : ℤ} {h : List (Step ι)} {c : Config ι (Shared ι) Pc}

theorem Inv.run (hr : program.Run Program.anyStep (initial expected) h c) : Inv c.shared c.loc := by
  refine hr.induction (I := fun _ c => Inv c.shared c.loc) ?_ fun h c t k ev s l _ hI _ hs =>
    hI.move (step_move hs)
  exact {
    owner := by simp [initial, Pc.locked]
    waiting := by simp [initial]
    shut := by simp [initial]
    told := by simp [initial]
    finite := by simp [initial] }

theorem Opens.run (hr : program.Run CountsDown (initial expected) h c) : Opens c.shared c.loc := by
  refine hr.induction (I := fun _ c => Opens c.shared c.loc)
    ⟨?_, ?_⟩ fun h c t k ev s l _ hO hk hs =>
    hO.move (step_move hs) hk
  · simp [initial, Pc.counts]
  · simp [initial, Pc.found]

/-- What has been counted down is gone from the count. -/
theorem count_eq (hr : program.Run Program.anyStep (initial expected) h c) :
    c.shared.count = expected - counted h := by
  refine hr.induction (I := fun h c => c.shared.count = expected - counted h) ?_
    fun h c t k ev s l _ hI _ hs => ?_
  · simp [initial, counted]
  · have hm := step_move hs
    simp only [counted, Config.set_shared]
    generalize c.loc t = pc at hm
    cases hm with
    | sub a n =>
      dsimp only
      omega
    | _ => exact hI

/-! ## What the calls and returns say -/

omit [DecidableEq ι] in
theorem Pc.Doing.bounds {l : Pc} {o : Option Op} (h : l.Doing o) :
    0 ≤ l.owed ∧ l.owed ≤ inProgress o := by
  have hpos := h.nonneg
  unfold Pc.owed
  cases hl : l.counts with
  | none => exact ⟨le_rfl, hpos⟩
  | some n =>
    rw [h.counts n hl] at hpos ⊢
    exact ⟨hpos, le_rfl⟩

/-- A silent step stays inside the operation, and begins no `count_down`. -/
theorem Move.inside {l : Pc} (hm : Move t s k .tau l s' l') :
    l' ≠ .idle ∧ ∀ n, l'.counts = some n → l.counts = some n := by
  generalize hev : (Event.tau : Event Op Res) = ev at hm
  cases hm with
  | call | ret => cases hev
  | lock o => exact ⟨by cases o <;> exact nofun, fun n hn => by rwa [begin_counts] at hn⟩
  | unlock a => exact ⟨by cases a <;> exact nofun, fun n hn => by simp at hn⟩
  | _ => exact ⟨nofun, nofun⟩

omit [DecidableEq ι] in
/-- Outside of an operation a thread has nothing to count down. -/
theorem Pc.Doing.outside : Pc.idle.Doing none where
  idle _ := rfl
  nonneg := le_rfl
  counts n hn := by simp [Pc.counts] at hn

omit [DecidableEq ι] in
/-- An operation that was just called has all of its amount to count down. -/
theorem Pc.Doing.called {o : Op} (ho : 0 ≤ o.amount) : (Pc.lock o).Doing (some o) where
  idle hl := by simp at hl
  nonneg := ho
  counts n hn := by
    cases o with
    | countDown m | arriveAndWait m => simpa [Pc.counts, inProgress, Op.amount] using hn
    | _ => simp [Pc.counts] at hn

omit [DecidableEq ι] in
theorem CountsDown.amount {o : Op} (hk : CountsDown h c t (.call o)) : 0 ≤ o.amount := by
  cases o with
  | countDown n => exact hk n (.inl rfl)
  | arriveAndWait n => exact hk n (.inr rfl)
  | _ => exact le_rfl

theorem doing_run (hr : program.Run CountsDown (initial expected) h c) (t : ι) :
    (c.loc t).Doing (current h t) := by
  refine hr.induction (I := fun h c => ∀ t, (c.loc t).Doing (current h t))
    (fun _ => .outside) (fun h c t k ev s l _ ih hk hs u => ?_) t
  by_cases hut : u = t
  · subst hut
    rw [Config.set_loc_self]
    have hm := step_move hs
    obtain ⟨-, hpos, hcounts⟩ := ih u
    cases ev with
    | tau =>
      obtain ⟨hne, hin⟩ := hm.inside
      rw [show current (⟨u, .tau, c, c.set u s l⟩ :: h) u = current h u by simp [current]]
      exact ⟨fun hl => absurd hl hne, hpos, fun n hn => hcounts n (hin n hn)⟩
    | ret v =>
      rw [show current (⟨u, .ret v, c, c.set u s l⟩ :: h) u = none by simp [current]]
      generalize c.loc u = pc at hm
      cases hm
      exact .outside
    | call o =>
      rw [show current (⟨u, .call o, c, c.set u s l⟩ :: h) u = some o by simp [current]]
      generalize c.loc u = pc at hm
      cases hm
      exact .called hk.amount
  · rw [Config.set_loc_ne c hut, current_ne (Ne.symm hut)]
    exact ih u

/-- A call adds its amount to what is asked and what is owed, and the subtraction takes it from what
is owed. -/
theorem asked_move {r : Step ι} (hm : Move r.tid r.pre.shared k r.ev (r.pre.loc r.tid) s' l') :
    asked (r :: h) - counted (r :: h) - l'.owed =
      asked h - counted h - (r.pre.loc r.tid).owed := by
  obtain ⟨t, ev, p, q⟩ := r
  simp only [asked, calls, List.filterMap_cons, counted] at hm ⊢
  generalize p.loc t = pc at hm ⊢
  cases hm with
  | call o => cases o <;> simp [Pc.owed, Pc.counts, Op.amount] <;> omega
  | lock o => simp [Pc.owed]
  | sub a n =>
    simp [Pc.owed, Pc.counts]
    omega
  | unlock a => cases a <;> simp [Pc.owed, Pc.counts, afterCount]
  | _ => simp [Pc.owed, Pc.counts]

/-- What has been called for is counted down, or will be by the operations in progress. -/
theorem asked_eq (hr : program.Run Program.anyStep (initial expected) h c) {S : Finset ι}
    (hS : ∀ r ∈ h, r.tid ∈ S) : asked h = counted h + ∑ t ∈ S, (c.loc t).owed := by
  refine hr.induction (I := fun h c => (∀ r ∈ h, r.tid ∈ S) →
    asked h = counted h + ∑ t ∈ S, (c.loc t).owed) (fun _ => ?_)
    (fun h c t k ev s l _ ih _ hs hS => ?_) hS
  · simp [asked, calls, counted, initial, Pc.owed, Pc.counts]
  · have ht : t ∈ S := hS _ List.mem_cons_self
    have hbefore := ih fun r hr => hS r (List.mem_cons_of_mem _ hr)
    have howed := sum_change ht (g := fun u => (c.loc u).owed)
      (k := fun u => ((c.set t s l).loc u).owed) fun u hu => by rw [Config.set_loc_ne c hu]
    rw [Config.set_loc_self] at howed
    have hmove := asked_move (h := h) (r := ⟨t, ev, c, c.set t s l⟩) (step_move hs)
    dsimp only at hmove
    omega

/-- What has been called for has returned, or is called for by the operations in progress. -/
theorem finished_eq (hr : program.Run CountsDown (initial expected) h c) {S : Finset ι}
    (hS : ∀ r ∈ h, r.tid ∈ S) :
    asked h = finished h + ∑ t ∈ S, inProgress (current h t) := by
  refine hr.induction (I := fun h _ => (∀ r ∈ h, r.tid ∈ S) →
    asked h = finished h + ∑ t ∈ S, inProgress (current h t)) (fun _ => ?_)
    (fun h c t k ev s l hrun ih _ hs hS => ?_) hS
  · simp [asked, calls, finished, current, inProgress]
  · have ht : t ∈ S := hS _ List.mem_cons_self
    have hbefore := ih fun r hr => hS r (List.mem_cons_of_mem _ hr)
    have hin := sum_change ht (g := fun u => inProgress (current h u))
      (k := fun u => inProgress (current (⟨t, ev, c, c.set t s l⟩ :: h) u)) fun u hu => by
        rw [current_ne (Ne.symm hu)]
    rw [hin]
    cases ev with
    | call o =>
      have hm := step_move hs
      have hidle : current h t = none := (doing_run hrun t).idle (by
        generalize c.loc t = pc at hm
        cases hm
        rfl)
      simp [asked, calls, finished, current, inProgress, hidle] at hbefore ⊢
      omega
    | ret v =>
      simp [asked, calls, finished, current, inProgress] at hbefore ⊢
      omega
    | tau =>
      simp [asked, calls, finished, current] at hbefore ⊢
      omega

theorem tid_mem_users {r : Step ι} (hr : r ∈ h) : r.tid ∈ users h :=
  List.mem_toFinset.mpr (List.mem_map_of_mem hr)

/-- **What is counted down lies between what has returned and what was called.** -/
theorem counted_bounds (hr : program.Run CountsDown (initial expected) h c) :
    finished h ≤ counted h ∧ counted h ≤ asked h := by
  have hasked := asked_eq hr.any fun r => tid_mem_users
  have hfinished := finished_eq hr fun r => tid_mem_users
  have hbounds := fun t => (doing_run hr t).bounds
  have hle : ∑ t ∈ users h, (c.loc t).owed ≤ ∑ t ∈ users h, inProgress (current h t) :=
    Finset.sum_le_sum fun t _ => (hbounds t).2
  have hpos : 0 ≤ ∑ t ∈ users h, (c.loc t).owed := Finset.sum_nonneg fun t _ => (hbounds t).1
  constructor <;> omega

/-- What a thread has found was so at some instant of its call. -/
theorem found_during (hr : program.Run Program.anyStep (initial expected) h c) (t : ι) {b : Bool}
    (hb : (c.loc t).found = some b) : ∃ s ∈ during h t, b = decide (s.count ≤ 0) := by
  refine hr.induction (I := fun h c => ∀ t b, (c.loc t).found = some b →
    ∃ s ∈ during h t, b = decide (s.count ≤ 0)) (fun t b hb => by cases hb)
    (fun h c t k ev s l _ ih _ hs u b hb => ?_) t b hb
  have hm := step_move hs
  by_cases hut : u = t
  · subst hut
    rw [Config.set_loc_self] at hb
    have hold := ih u b
    generalize hpc : c.loc u = pc at hm hold
    cases hm with
    | pass hc =>
      obtain rfl : true = b := Option.some.inj hb
      exact ⟨c.shared, .inl rfl, (decide_eq_true hc).symm⟩
    | tryCheck => exact ⟨c.shared, .inl rfl, (Option.some.inj hb).symm⟩
    | leave r =>
      obtain ⟨s, hs, he⟩ := hold (by cases r <;> exact hb)
      exact ⟨s, mem_during_old (fun _ o => by rintro ⟨⟩) hs, he⟩
    | lock o =>
      rw [begin_found] at hb
      cases hb
    | unlock a =>
      rw [afterCount_found] at hb
      cases hb
    | _ => cases hb
  · rw [Config.set_loc_ne c hut] at hb
    obtain ⟨s, hs, he⟩ := ih u b hb
    exact ⟨s, mem_during_old (fun he => absurd he.symm hut) hs, he⟩

/-- What a call returns of the latch is what it has found. -/
theorem ret_found {h₁ h₂ : List (Step ι)} {r : Step ι} {res : Res} {b : Bool}
    (hr : program.Run Program.anyStep (initial expected) (h₁ ++ r :: h₂) c) (hev : r.ev = .ret res)
    (hres : (Pc.done res).found = some b) : (r.pre.loc r.tid).found = some b := by
  obtain ⟨k, s, l, -, hs, -⟩ := hr.step_at
  have hm := step_move hs
  rw [hev] at hm
  generalize r.pre.loc r.tid = pc at hm
  cases hm
  exact hres

/-! ## Progress -/

/-- Thread `t` can go on with its operation: no call, and no spurious wake-up. -/
def CanGo (c : Config ι (Shared ι) Pc) (t : ι) : Prop := (step t .run c.shared (c.loc t)).isSome

/-- Whoever has the mutex can go on. -/
theorem locked_canGo (ht : (c.loc t).locked) : CanGo c t := by
  unfold CanGo
  generalize c.loc t = pc at ht
  cases pc with
  | idle | lock | wait | done => cases ht
  | _ => rfl

/-- While nobody has the mutex, only a blocked thread cannot go on. -/
theorem canGo_or_blocked (hfree : c.shared.mutex = none) (ht : c.loc t ≠ .idle)
    (hl : (c.loc t).locked = false) : CanGo c t ∨ Blocked c t := by
  generalize hft : c.loc t = pc at ht hl
  cases pc with
  | idle => exact absurd rfl ht
  | lock o => exact .inl (by simp [CanGo, hft, step, hfree])
  | wait =>
    by_cases hb : t ∈ c.shared.zero
    · exact .inr ⟨hft, hb⟩
    · exact .inl (by simp [CanGo, hft, step, hb, hfree])
  | done r => exact .inl (by simp [CanGo, hft, step])
  | _ => cases hl

/-- If nobody can go on, whoever is in an operation is blocked, and the latch is shut. -/
theorem Inv.all_blocked (hI : Inv c.shared c.loc) (hno : ∀ t, ¬ CanGo c t) (ht : c.loc t ≠ .idle) :
    Blocked c t ∧ 0 < c.shared.count := by
  have hunlocked : ∀ u, (c.loc u).locked = false := fun u =>
    eq_false_of_ne_true fun hu => hno u (locked_canGo hu)
  have hfree : c.shared.mutex = none := by
    by_contra hm
    obtain ⟨u, hu⟩ := Option.ne_none_iff_exists'.mp hm
    exact absurd ((hI.owner u).mpr hu) (by simp [hunlocked u])
  have hb := (canGo_or_blocked hfree ht (hunlocked t)).resolve_left (hno t)
  refine ⟨hb, Int.not_le.mp fun hc => ?_⟩
  -- somebody would be about to notify, with the mutex
  obtain ⟨u, hu⟩ := hI.told (List.ne_nil_of_mem hb.2) hc
  have hlocked := hunlocked u
  generalize c.loc u = pc at hu hlocked
  cases pc with
  | test | notifyAll => cases hlocked
  | _ => cases hu

/-! ## The gate and its calls -/

/-- The calls and returns so far show that the latch is open: enough has been counted down by
operations that have returned, or somebody has returned from a wait, or with true from
`try_wait`. -/
def ShownOpen (expected : ℤ) (h : List (Step ι)) : Prop :=
  expected ≤ finished h ∨ ∃ r ∈ h, r.ev = .ret .opened ∨ r.ev = .ret (.bool true)

/-- Who returns from a wait has found the latch open. -/
theorem opened_count {h₁ h₂ : List (Step ι)} {r : Step ι}
    (hr : program.Run CountsDown (initial expected) (h₁ ++ r :: h₂) c)
    (hev : r.ev = .ret .opened ∨ r.ev = .ret (.bool true)) : r.pre.shared.count ≤ 0 := by
  refine (Opens.run hr.before).passed r.tid ?_
  rcases hev with hev | hev
  · exact ret_found hr.any hev rfl
  · exact ret_found hr.any hev rfl

/-- The count never rises. -/
theorem count_falls (h₁ h₂ : List (Step ι))
    (hr : program.Run CountsDown (initial expected) (h₁ ++ h₂) c) :
    ∃ c₂, program.Run CountsDown (initial expected) h₂ c₂ ∧
      c.shared.count ≤ c₂.shared.count := by
  induction h₁ generalizing c with
  | nil => exact ⟨c, hr, le_rfl⟩
  | cons r h₁ ih =>
    cases hr with
    | cons hrun hk hs =>
      obtain ⟨c₂, hr₂, hle⟩ := ih hrun
      exact ⟨c₂, hr₂, ((Opens.run hrun).count_le (step_move hs)).trans hle⟩

/-- A latch that is shown to be open is open. -/
theorem ShownOpen.count_le (hopen : ShownOpen expected h)
    (hr : program.Run CountsDown (initial expected) h c) : c.shared.count ≤ 0 := by
  obtain hle | ⟨r, hmem, hev⟩ := hopen
  · have := (counted_bounds hr).1
    have := count_eq hr.any
    omega
  · obtain ⟨h₁, h₂, rfl⟩ := List.append_of_mem hmem
    have hpre := opened_count hr hev
    obtain ⟨c₂, hr₂, hle⟩ := count_falls (h₁ ++ [r]) h₂ (by simpa using hr)
    rw [hr₂.unique hr.before] at hle
    exact hle.trans hpre

/-- **An open latch stays open**: a `try_wait` called from then on does not return false. -/
theorem ShownOpen.stays {h₁ h₂ g g' : List (Step ι)} {r : Step ι} (hopen : ShownOpen expected h₂)
    (hr : program.Run CountsDown (initial expected) (h₁ ++ h₂) c) (hh : h₁ = g ++ r :: g')
    (hcall : ∃ q ∈ g', q.tid = r.tid ∧ q.ev = .call .tryWait) : r.ev ≠ .ret (.bool false) := by
  subst hh
  intro hev
  rw [List.append_assoc, List.cons_append] at hr
  obtain ⟨s, hs, he⟩ := found_during hr.before.any r.tid (ret_found hr.any hev rfl)
  obtain ⟨q, hq, hqt, hqe⟩ := hcall
  obtain ⟨x, hx, rfl⟩ := during_since hs ⟨q, hq, hqt, _, hqe⟩
  obtain ⟨a, b, rfl⟩ := List.append_of_mem hx
  obtain ⟨cx, hrx, -⟩ := count_falls a (x :: (b ++ h₂)) (by simpa using hr.before)
  have hcx : cx = x.cfg := hrx.cfg_eq
  obtain ⟨c₂, hr₂, hle⟩ := count_falls (x :: b) h₂ hrx
  have h2 := hopen.count_le hr₂
  have hpos : 0 < x.cfg.shared.count := by simpa using he
  rw [hcx] at hle
  omega

/-- In a state in which everybody inside is blocked, all that was called for has been counted
down. -/
theorem asked_of_blocked (hr : program.Run CountsDown (initial expected) h c)
    (hall : ∀ t, c.loc t ≠ .idle → Blocked c t) : asked h = counted h := by
  have howed : ∀ t, (c.loc t).owed = 0 := by
    intro t
    by_cases ht : c.loc t = .idle
    · rw [ht]
      rfl
    · rw [(hall t ht).1]
      rfl
  have hsum := asked_eq hr.any fun r => tid_mem_users
  simpa [howed] using hsum

/-- **The latch is a gate.** What has been counted down lies between what the operations that have
returned count down by and what those called do. Nobody returns from `wait` or `arrive_and_wait`, or
with true from `try_wait`, before as much has been called for as the latch was made with. Once the
latch is shown to be open, a `try_wait` called from then on does not return false; and one that
returns false has seen the latch shut. As long as an operation is in progress somebody can go on, or
all of them are blocked and not enough has been called for. -/
theorem latch_gate (hr : program.Run CountsDown (initial expected) h c) :
    (c.shared.count = expected - counted h ∧ finished h ≤ counted h ∧ counted h ≤ asked h) ∧
    (∀ h₁ r h₂, h = h₁ ++ r :: h₂ → r.ev = .ret .opened ∨ r.ev = .ret (.bool true) →
      expected ≤ asked h₂) ∧
    (∀ h₁ h₂, h = h₁ ++ h₂ → ShownOpen expected h₂ → ∀ g r g', h₁ = g ++ r :: g' →
      (∃ q ∈ g', q.tid = r.tid ∧ q.ev = .call .tryWait) → r.ev ≠ .ret (.bool false)) ∧
    (∀ h₁ r h₂, h = h₁ ++ r :: h₂ → r.ev = .ret (.bool false) →
      ∃ s ∈ during h₂ r.tid, 0 < s.count) ∧
    ((∃ t, CanGo c t) ∨ ∀ t, c.loc t ≠ .idle → Blocked c t ∧ asked h < expected) := by
  have hcount := count_eq hr.any
  refine ⟨⟨hcount, counted_bounds hr⟩, ?_, ?_, ?_, ?_⟩
  · rintro h₁ r h₂ rfl hev
    have := opened_count hr hev
    have := count_eq hr.before.any
    have := (counted_bounds hr.before).2
    omega
  · rintro h₁ h₂ rfl hopen g r g' hh hcall
    exact hopen.stays hr hh hcall
  · rintro h₁ r h₂ rfl hev
    obtain ⟨s, hs, he⟩ := found_during hr.before.any r.tid (ret_found hr.any hev rfl)
    exact ⟨s, hs, by simpa using he⟩
  · by_cases hgo : ∃ t, CanGo c t
    · exact .inl hgo
    · have hall := fun t ht => (Inv.run hr.any).all_blocked (t := t) (fun u hu => hgo ⟨u, hu⟩) ht
      have hasked := asked_of_blocked hr fun t ht => (hall t ht).1
      refine .inr fun t ht => ⟨(hall t ht).1, ?_⟩
      have := (hall t ht).2
      omega
end

/-- The steps of the operations in progress: no calls, no spurious wake-ups. -/
def going : Program ι (Shared ι) Pc Choice Op Res where
  step t k s l := if k = .run then step t k s l else none

/-- How many steps a thread has to its return, once the latch is open. -/
def Pc.work : Pc → ℕ
  | .idle => 0
  | .done _ => 1
  | .leave _ => 2
  | .tryCheck | .check => 3
  | .wait => 4
  | .block => 5
  | .unlock _ => 5
  | .notifyAll _ => 6
  | .test _ => 7
  | .sub _ _ => 8
  | .lock .wait | .lock .tryWait => 4
  | .lock (.countDown _) | .lock (.arriveAndWait _) => 9

theorem work_lt {l : Pc} (hm : Move t s .run ev l s' l') (hc : s.count ≤ 0) : l'.work < l.work := by
  cases hm with
  | lock o => cases o <;> simp [Op.begin, Pc.work]
  | unlock a => cases a <;> simp [afterCount, Pc.work]
  | testShut | fail => omega
  | _ => simp [Pc.work]

/-- The latch is open and stays so. -/
def Open (c : Config ι (Shared ι) Pc) : Prop :=
  Inv c.shared c.loc ∧ Opens c.shared c.loc ∧ c.shared.count ≤ 0

theorem going_move {c : Config ι (Shared ι) Pc}
    (hs : going.step t k c.shared (c.loc t) = some (ev, s', l')) :
    Move t c.shared .run ev (c.loc t) s' l' := by
  by_cases hk : k = .run
  · subst hk
    exact step_move (by simpa [going] using hs)
  · simp [going, hk] at hs

/-- With the latch open every step brings its thread nearer to its return. -/
theorem open_decreases : (going (ι := ι)).Decreases Open fun c => total Pc.work c.loc := by
  rintro c t k ev s l ⟨hI, hO, hc⟩ hs
  have hm := going_move hs
  have hfin : {u | (c.loc u).work ≠ 0}.Finite :=
    hI.finite.subset fun u hu hidle => hu (by rw [hidle]; rfl)
  have htotal := total_update hfin t l
  have hlt := work_lt hm hc
  refine ⟨⟨hI.move hm, hO.move hm fun n hn => ?_, (hO.count_le hm).trans hc⟩, ?_⟩
  · rcases hn with hn | hn <;> cases hn
  · show total Pc.work (Function.update c.loc t l) < total Pc.work c.loc
    omega

/-- **An open latch lets everybody out.** Once enough has been counted down, the operations in
progress take only so many more steps, in whatever order, and can always be continued until all have
returned. -/
theorem latch_drains {expected : ℤ} {h : List (Step ι)} {c : Config ι (Shared ι) Pc}
    (hr : program.Run CountsDown (initial expected) h c) (hopen : expected ≤ counted h)
    {h' : List (Step ι)} {c' : Config ι (Shared ι) Pc} (hr' : going.Run Program.anyStep c h' c') :
    h'.length ≤ total Pc.work c.loc ∧
    ∃ h'' c'', going.Run Program.anyStep c (h'' ++ h') c'' ∧ ∀ t, c''.loc t = .idle := by
  have hcount := count_eq hr.any
  have h₀ : Open c := ⟨Inv.run hr.any, Opens.run hr, by omega⟩
  refine ⟨hr'.length_le open_decreases h₀, hr'.completes open_decreases (fun c hc => ?_) h₀⟩
  by_cases hidle : ∀ t, c.loc t = .idle
  · exact .inl hidle
  right
  obtain ⟨t, ht⟩ := not_forall.mp hidle
  by_contra hno
  have hstuck : ∀ u, ¬ CanGo c u := fun u hu => by
    obtain ⟨⟨ev, s, l⟩, hs⟩ := Option.isSome_iff_exists.mp hu
    exact hno ⟨u, .run, ev, s, l, by simpa [going] using hs⟩
  exact absurd (hc.1.all_blocked hstuck ht).2 (Int.not_lt.mpr hc.2.2)

/-! ## Two threads that meet -/

/-- Thread `false` arrives and waits; thread `true` arrives after it. -/
def meeting (n : ℕ) : List (Bool × Choice) :=
  (false, Choice.call (.arriveAndWait 1)) :: List.replicate 7 (false, Choice.run) ++
    (true, Choice.call (.arriveAndWait 1)) :: List.replicate n (true, Choice.run)

/-- `CountsDown`, as a test. -/
def countsDown (_ : Config Bool (Shared Bool) Pc) (_ : Bool) (k : Choice)
    (_ : Config Bool (Shared Bool) Pc) : Bool :=
  match k with
  | .call (.countDown n) | .call (.arriveAndWait n) => decide (0 ≤ n)
  | _ => true

/-- What `meeting` reaches is reached by a run. -/
theorem meeting_run (sched : List (Bool × Choice))
    {q : List (Step Bool) × Config Bool (Shared Bool) Pc → Bool}
    (he : ((program.replay countsDown (initial 2) sched).any q) = true) :
    ∃ h c, program.Run CountsDown (initial 2) h c ∧ q (h, c) = true := by
  obtain ⟨⟨h, c⟩, hc, hq⟩ := (Option.any_eq_true _ _).mp he
  obtain ⟨hr, -⟩ := Program.replay_run CountsDown (fun h c t k c' _ hk n hn => by
    rcases hn with rfl | rfl <;> exact of_decide_eq_true hk) _ .nil hc
  exact ⟨h, c, by simpa using hr, hq⟩

theorem latch_gate_meeting : ∃ (h : List (Step Bool)) (c : Config Bool (Shared Bool) Pc),
    program.Run CountsDown (initial 2) h c ∧ c.loc false = .wait ∧
    ∃ h₁ r h₂, h = h₁ ++ r :: h₂ ∧ r.tid = true ∧ r.ev = .ret .opened ∧ 2 ≤ asked h₂ := by
  obtain ⟨h, c, hr, hq⟩ := meeting_run (meeting 9)
    (q := fun (h, c) => decide (c.loc false = .wait) &&
      h.any fun r => decide (r.tid = true ∧ r.ev = .ret .opened)) (by decide)
  obtain ⟨hwait, hret⟩ := Bool.and_eq_true_iff.mp hq
  obtain ⟨r, hmem, hr'⟩ := List.any_eq_true.mp hret
  obtain ⟨htid, hev⟩ := of_decide_eq_true hr'
  obtain ⟨h₁, h₂, rfl⟩ := List.append_of_mem hmem
  exact ⟨_, c, hr, of_decide_eq_true hwait, h₁, r, h₂, rfl, htid, hev,
    (latch_gate hr).2.1 h₁ r h₂ rfl (.inl hev)⟩

/-- Thread `true` has counted down and not yet notified. -/
theorem latch_drains_meeting : ∃ (h : List (Step Bool)) (c : Config Bool (Shared Bool) Pc),
    program.Run CountsDown (initial 2) h c ∧ Blocked c false ∧ c.loc true = .test true ∧
    ∃ h'' c'', going.Run Program.anyStep c h'' c'' ∧ ∀ t, c''.loc t = .idle := by
  obtain ⟨h, c, hr, hq⟩ := meeting_run (meeting 2)
    (q := fun (h, c) => decide (c.loc false = .wait ∧ false ∈ c.shared.zero ∧
      c.loc true = .test true ∧ counted h = 2)) (by decide)
  obtain ⟨hwait, hmem, htest, hcounted⟩ := of_decide_eq_true hq
  obtain ⟨-, h'', c'', hr', hidle⟩ := latch_drains hr hcounted.ge .nil
  rw [List.append_nil] at hr'
  exact ⟨h, c, hr, ⟨hwait, hmem⟩, htest, h'', c'', hr', hidle⟩

end Bonostl.Latch
