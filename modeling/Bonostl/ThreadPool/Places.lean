import Bonostl.Interleaving.Places
import Bonostl.ThreadPool.Model

/-!
# Where a task is

A submitted task is in the shared queue, in one local queue, taken by one thread, or executed, and
in one of these places once. The submissions are the calls the history shows (`submissions`), and
number the tasks one after the other. A thread has taken a task from the moment it has dequeued it
until its function has returned or thrown.

Once the destructor has joined the workers, and if it did not race with another thread's member call
(as the class comment asks), nothing is taken any more: the tasks that were never executed are those
still in the queues. `tasks_in_one_place` is the result.
-/

namespace Bonostl.ThreadPool

open Interleaving

variable {E κ F G R : Type}

/-- Where a task is: in the shared queue, in a worker's queue, with a thread, or executed. -/
inductive Place (E : Type) where
  | shared
  | queue (i : ℕ)
  | taken (t : Thread E)
  | executed
  deriving DecidableEq

/-- The task of a frame. -/
def Frame.task : Frame F → Option ℕ
  | .code id _ _ | .wait id _ _ _ => id
  | .worker | .destroy _ => none

/-- The task that `run_pending_task` is about to call. -/
def Phase.task : Phase F → Option ℕ
  | .call task => some task.id
  | _ => none

/-- The tasks a thread has taken and not finished, the last one first. -/
def Pc.taken (l : Pc F) : List ℕ :=
  (l.phase.bind Phase.task).toList ++ l.stack.filterMap Frame.task

/-- The tasks executed, the last one first. -/
def executed (h : List (Rec (Thread E) (Shared F G R) (Pc F) ℕ ℕ)) : List ℕ :=
  h.filterMap fun r =>
    match r.ev with
    | .ret n => some n
    | _ => none

/-- The tasks submitted, the last one first. -/
def submissions (h : List (Rec (Thread E) (Shared F G R) (Pc F) ℕ ℕ)) : List ℕ :=
  h.filterMap fun r =>
    match r.ev with
    | .call n => some n
    | _ => none

/-- How often task `n` is at a place. -/
def located (h : List (Rec (Thread E) (Shared F G R) (Pc F) ℕ ℕ))
    (c : Config (Thread E) (Shared F G R) (Pc F)) (n : ℕ) : Place E → ℕ
  | .shared => (c.shared.poolWorkQueue.map Task.id).count n
  | .queue i => ((c.shared.queues i).map Task.id).count n
  | .taken t => (c.loc t).taken.count n
  | .executed => (executed h).count n

/-- Every task submitted so far is at one place, once. -/
structure Placed (h : List (Rec (Thread E) (Shared F G R) (Pc F) ℕ ℕ))
    (c : Config (Thread E) (Shared F G R) (Pc F)) : Prop where
  old : ∀ n, n < c.shared.submitted → Sole (located h c n)
  new : ∀ n, c.shared.submitted ≤ n → Nowhere (located h c n)

section
variable [DecidableEq E] {h : List (Rec (Thread E) (Shared F G R) (Pc F) ℕ ℕ)}
  {c : Config (Thread E) (Shared F G R) (Pc F)} {t : Thread E} {ev : Event ℕ ℕ}
  {s' : Shared F G R} {l' : Pc F} {k : ℕ} {code : Code κ F G R}

omit [DecidableEq E] in
/-- A task that is taken is taken once, and not executed. -/
theorem Placed.taken_once (hp : Placed h c) {n : ℕ} (hn : n ∈ (c.loc t).taken) :
    (c.loc t).taken.count n = 1 ∧ (executed h).count n = 0 := by
  have hpos : 0 < located h c n (.taken t) := List.count_pos_iff.mpr hn
  have hsole : Sole (located h c n) := by
    refine hp.old n ?_
    by_contra hge
    have := hp.new n (by omega) (.taken t)
    omega
  obtain ⟨h1, h0⟩ := hsole.eq_one hpos
  exact ⟨h1, h0 .executed (by simp)⟩

omit [DecidableEq E] in
theorem Placed.not_executed (hp : Placed h c) {n : ℕ} (hn : n ∈ (c.loc t).taken) :
    n ∉ executed h :=
  List.count_eq_zero.mp (hp.taken_once hn).2

/-- The record of a step of `t` from `c`. -/
def stepRec (c : Config (Thread E) (Shared F G R) (Pc F)) (t : Thread E) (ev : Event ℕ ℕ)
    (s' : Shared F G R) (l' : Pc F) : Rec (Thread E) (Shared F G R) (Pc F) ℕ ℕ :=
  ⟨t, ev, c, c.set t s' l'⟩

/-- The other threads keep what they have taken. -/
theorem located_taken_ne {u : Thread E} (hu : u ≠ t) (n : ℕ) :
    located (stepRec c t ev s' l' :: h) (c.set t s' l') n (.taken u) =
      located h c n (.taken u) := by
  simp [located, Config.set_loc_ne c hu]

theorem executed_quiet (hev : ∀ n, ev ≠ .ret n) :
    executed (stepRec c t ev s' l' :: h) = executed h := by
  unfold executed
  rw [List.filterMap_cons]
  cases ev with
  | ret n => exact absurd rfl (hev n)
  | call | tau => rfl

/-- A step that moves no task. -/
theorem Placed.quiet (hp : Placed h c) (hq : s'.poolWorkQueue = c.shared.poolWorkQueue)
    (hqs : s'.queues = c.shared.queues) (hn : s'.submitted = c.shared.submitted)
    (ht : l'.taken = (c.loc t).taken) (hev : ∀ n, ev ≠ .ret n) :
    Placed (stepRec c t ev s' l' :: h) (c.set t s' l') := by
  have hex : executed (stepRec c t ev s' l' :: h) = executed h := executed_quiet hev
  have hsame : ∀ n p, located (stepRec c t ev s' l' :: h) (c.set t s' l') n p =
      located h c n p := by
    intro n p
    cases p with
    | shared => simp [located, hq]
    | queue i => simp [located, hqs]
    | executed => simp [located, hex]
    | taken u =>
      by_cases hu : u = t
      · subst hu; simp [located, ht]
      · exact located_taken_ne hu n
  refine ⟨fun n hlt => ?_, fun n hle p => ?_⟩
  · exact (hp.old n (by simpa [hn] using hlt)).congr (hsame n)
  · rw [hsame]
    exact hp.new n (by simpa [hn] using hle) p

/-- A step that moves one task from a place to another. -/
theorem Placed.moves (hp : Placed h c) {m : ℕ} {p q : Place E} (hpq : p ≠ q)
    (hn : s'.submitted = c.shared.submitted)
    (hfrom : ∀ n, located h c n p =
      located (stepRec c t ev s' l' :: h) (c.set t s' l') n p + if m = n then 1 else 0)
    (hto : ∀ n, located (stepRec c t ev s' l' :: h) (c.set t s' l') n q =
      located h c n q + if m = n then 1 else 0)
    (hother : ∀ n r, r ≠ p → r ≠ q →
      located (stepRec c t ev s' l' :: h) (c.set t s' l') n r = located h c n r) :
    Placed (stepRec c t ev s' l' :: h) (c.set t s' l') := by
  have hrest : ∀ n, n ≠ m → ∀ r,
      located (stepRec c t ev s' l' :: h) (c.set t s' l') n r = located h c n r := by
    intro n hnm r
    have hmn : m ≠ n := Ne.symm hnm
    by_cases hrp : r = p
    · subst hrp; have := hfrom n; simp [hmn] at this; exact this.symm
    · by_cases hrq : r = q
      · subst hrq; have := hto n; simpa [hmn] using this
      · exact hother n r hrp hrq
  have hm : m < c.shared.submitted := by
    by_contra hge
    have h0 := hp.new m (by omega) p
    have := hfrom m
    simp only [if_true] at this
    omega
  refine ⟨fun n hlt => ?_, fun n hle r => ?_⟩
  · rw [Config.set_shared, hn] at hlt
    by_cases hnm : n = m
    · subst hnm
      exact (hp.old n hlt).move hpq (by simpa using hfrom n) (by simpa using hto n) (hother n)
    · exact (hp.old n hlt).congr (hrest n hnm)
  · rw [Config.set_shared, hn] at hle
    rw [hrest n (by omega) r]
    exact hp.new n hle r

/-- The place a task is dequeued from. -/
def Source.place : Source → Place E
  | .pool => .shared
  | .front i | .back i => .queue i

theorem Placed.dequeue (hp : Placed h c) {p : Phase F} {task : Task F} {src : Source}
    {st : List (Frame F)} (hl : c.loc t = ⟨some p, st⟩) (hpc : ∀ task, p ≠ .call task)
    (hq : Dequeue c.shared task src s') :
    Placed (stepRec c t .tau s' ⟨some (.call task), st⟩ :: h)
      (c.set t s' ⟨some (.call task), st⟩) := by
  have htaken : (c.loc t).taken = st.filterMap Frame.task := by
    rw [hl]
    cases p with
    | call task' => exact absurd rfl (hpc task')
    | _ => rfl
  have hto : ∀ n, located (stepRec c t .tau s' ⟨some (.call task), st⟩ :: h)
      (c.set t s' ⟨some (.call task), st⟩) n (.taken t) =
        located h c n (.taken t) + if task.id = n then 1 else 0 := by
    intro n
    have hcall : (⟨some (.call task), st⟩ : Pc F).taken = task.id :: st.filterMap Frame.task := rfl
    simp only [located, Config.set_loc_self, htaken, hcall, List.count_cons, beq_iff_eq]
  have hothers : ∀ n u, u ≠ t → located (stepRec c t .tau s' ⟨some (.call task), st⟩ :: h)
      (c.set t s' ⟨some (.call task), st⟩) n (.taken u) = located h c n (.taken u) :=
    fun n u hu => located_taken_ne hu n
  cases hq with
  | pool q hq =>
    refine hp.moves (p := .shared) (q := .taken t) (by simp) rfl (fun n => ?_) hto ?_
    · simp [located, hq, List.count_cons]
    · intro n r hrp hrq
      cases r with
      | shared => exact absurd rfl hrp
      | queue i => rfl
      | taken u => exact hothers n u (by rintro rfl; exact hrq rfl)
      | executed => rfl
  | front i q hq | back i q hq =>
    refine hp.moves (p := .queue i) (q := .taken t) (by simp) rfl (fun n => ?_) hto ?_
    · simp [located, hq, List.count_cons]
    · intro n r hrp hrq
      cases r with
      | shared => rfl
      | queue j =>
        have hji : j ≠ i := by rintro rfl; exact hrp rfl
        simp [located, hji]
      | taken u => exact hothers n u (by rintro rfl; exact hrq rfl)
      | executed => rfl

/-- A task's function returns or throws. -/
theorem Placed.finish (hp : Placed h c) {m : ℕ} {children : List ℕ} {f : F} {rest : List (Frame F)}
    (hl : c.loc t = ⟨none, .code (some m) children f :: rest⟩)
    (hq : s'.poolWorkQueue = c.shared.poolWorkQueue) (hqs : s'.queues = c.shared.queues)
    (hn : s'.submitted = c.shared.submitted) :
    Placed (stepRec c t (.ret m) s' ⟨none, rest⟩ :: h) (c.set t s' ⟨none, rest⟩) := by
  have htaken : (c.loc t).taken = m :: (⟨none, rest⟩ : Pc F).taken := by rw [hl]; rfl
  have hex : executed (stepRec c t (.ret m) s' ⟨none, rest⟩ :: h) = m :: executed h := rfl
  refine hp.moves (m := m) (p := .taken t) (q := .executed) (by simp) hn (fun n => ?_)
    (fun n => ?_) ?_
  · simp only [located, Config.set_loc_self, htaken, List.count_cons, beq_iff_eq]
  · simp only [located, hex, List.count_cons, beq_iff_eq]
  · intro n r hrp hrq
    cases r with
    | shared => simp [located, hq]
    | queue i => simp [located, hqs]
    | taken u => exact located_taken_ne (by rintro rfl; exact hrp rfl) n
    | executed => exact absurd rfl hrq

/-- A task is submitted: a worker's goes to its own queue, others to the shared one. -/
theorem Placed.submit (hp : Placed h c) {s : Shared F G R} {body : F}
    (hq : s.poolWorkQueue = c.shared.poolWorkQueue) (hqs : s.queues = c.shared.queues)
    (hn : s.submitted = c.shared.submitted) (ht : l'.taken = (c.loc t).taken) :
    Placed (stepRec c t (.call s.submitted) (s.submit t body) l' :: h)
      (c.set t (s.submit t body) l') := by
  have hsub : (s.submit t body).submitted = c.shared.submitted + 1 := by
    cases t <;> simp [Shared.submit, hn]
  -- the place of the new task is the only one that changes
  have hcount : ∃ q : Place E, ∀ n r,
      located (stepRec c t (.call s.submitted) (s.submit t body) l' :: h)
        (c.set t (s.submit t body) l') n r = located h c n r +
          if r = q ∧ c.shared.submitted = n then 1 else 0 := by
    refine ⟨match t with | .worker i => .queue i | .external _ => .shared, fun n r => ?_⟩
    have hself : ∀ u, located (stepRec c t (.call s.submitted) (s.submit t body) l' :: h)
        (c.set t (s.submit t body) l') n (.taken u) = located h c n (.taken u) := by
      intro u
      by_cases hu : u = t
      · subst hu; simp [located, ht]
      · exact located_taken_ne hu n
    have hex : executed (stepRec c t (.call s.submitted) (s.submit t body) l' :: h) = executed h :=
      rfl
    cases t with
    | worker i =>
      cases r with
      | shared => simp [located, Shared.submit, hq]
      | queue j =>
        by_cases hji : j = i
        · subst hji; simp [located, Shared.submit, hqs, hn, List.count_cons]
        · simp [located, Shared.submit, hqs, hji]
      | taken u => simp [hself u]
      | executed => simp [located, hex]
    | external e =>
      cases r with
      | shared => simp [located, Shared.submit, hq, hn, List.count_append, List.count_singleton]
      | queue j => simp [located, Shared.submit, hqs]
      | taken u => simp [hself u]
      | executed => simp [located, hex]
  obtain ⟨q, hq⟩ := hcount
  refine ⟨fun n hlt => ?_, fun n hle r => ?_⟩
  · rw [Config.set_shared, hsub] at hlt
    by_cases hns : n = c.shared.submitted
    · refine Sole.first (hp.new n hns.ge) (q := q) (by simp [hq, hns]) fun r hr => by simp [hq, hr]
    · exact (hp.old n (by omega)).congr fun r => by simp [hq, Ne.symm hns]
  · rw [Config.set_shared, hsub] at hle
    have hns : c.shared.submitted ≠ n := by omega
    rw [hq]
    simp [hp.new n (by omega) r, hns]

/-- **One step moves at most one task**, and to one place. -/
theorem Placed.advance (hp : Placed h c) (hm : Move k code t c.shared ev (c.loc t) s' l') :
    Placed (stepRec c t ev s' l' :: h) (c.set t s' l') := by
  generalize hl : c.loc t = pc at hm
  cases hm with
  | exit | loop | ready | help | join => exact hp.quiet rfl rfl rfl (by rw [hl]; rfl) (by simp)
  | call task st => exact hp.quiet rfl rfl rfl (by rw [hl]; rfl) (by simp)
  | miss p p' st hpc hpc' =>
    refine hp.quiet rfl rfl rfl ?_ (by simp)
    rw [hl]
    rcases p' with _ | (_ | _ | _ | task')
    all_goals first | exact absurd rfl (hpc' task') | skip
    all_goals cases p with
      | call task => exact absurd rfl (hpc task)
      | _ => rfl
  | dequeue p task src s' st hpc hq => exact hp.dequeue hl hpc hq
  | code x g a id children f rest ev s' l' hn ha =>
    cases a with
    | go | wait | runPendingTask | destroy =>
      cases ha
      exact hp.quiet rfl rfl rfl (by rw [hl]; rfl) (by simp)
    | submit body resume =>
      cases ha
      exact hp.submit rfl rfl rfl (by rw [hl]; rfl)
    | finish r =>
      cases id with
      | none =>
        cases ha
        exact hp.quiet rfl rfl rfl (by rw [hl]; rfl) (by simp)
      | some m =>
        cases ha
        exact hp.finish hl rfl rfl rfl

omit [DecidableEq E] in
theorem placed_initial (user : E → F) (g : G) :
    Placed [] (initial k user g : Config (Thread E) (Shared F G R) (Pc F)) := by
  refine ⟨fun n hn => absurd hn (Nat.not_lt_zero n), fun n _ p => ?_⟩
  cases p with
  | taken t =>
    cases t with
    | worker i =>
      by_cases hi : i < k <;> simp only [located, initial, hi, if_true, if_false] <;> rfl
    | external e => rfl
  | _ => simp [located, initial, executed]

theorem placed_run {user : E → F} {g : G}
    (hr : (program k code).Run Program.anyStep (initial k user g) h c) : Placed h c := by
  refine hr.induction (I := fun h c => Placed h c) (placed_initial user g) ?_
  intro h c t k ev s l _ hp _ hs
  exact hp.advance (step_move hs)

omit [DecidableEq E] in
/-- A submission takes the next number, and nothing else does. -/
theorem Move.submits (hm : Move k code t c.shared ev (c.loc t) s' l') :
    (ev = .call c.shared.submitted ∧ s'.submitted = c.shared.submitted + 1) ∨
      (∀ n, ev ≠ .call n) ∧ s'.submitted = c.shared.submitted := by
  generalize c.loc t = pc at hm
  cases hm with
  | dequeue p task src s' st hpc hq => cases hq <;> exact .inr ⟨nofun, rfl⟩
  | code x g a id children f rest ev s' l' hn ha =>
    cases a with
    | finish r => cases id <;> cases ha <;> exact .inr ⟨nofun, rfl⟩
    | submit body resume => cases ha; cases t <;> exact .inl ⟨rfl, rfl⟩
    | _ => cases ha; exact .inr ⟨nofun, rfl⟩
  | _ => exact .inr ⟨nofun, rfl⟩

/-- The tasks submitted are numbered one after the other. -/
theorem submissions_run {user : E → F} {g : G}
    (hr : (program k code).Run Program.anyStep (initial k user g) h c) :
    submissions h = (List.range c.shared.submitted).reverse := by
  refine hr.induction (I := fun h c => submissions h = (List.range c.shared.submitted).reverse) rfl
    ?_
  intro h c t x ev s l _ ih _ hs
  rw [Config.set_shared]
  rcases (step_move (t := t) hs).submits with ⟨rfl, hn⟩ | ⟨hev, hn⟩
  · rw [hn, List.range_succ, List.reverse_append, ← ih]
    rfl
  · rw [hn, ← ih]
    cases ev with
    | call n => exact absurd rfl (hev n)
    | ret n | tau => rfl

theorem mem_submissions {user : E → F} {g : G}
    (hr : (program k code).Run Program.anyStep (initial k user g) h c) (n : ℕ) :
    n ∈ submissions h ↔ n < c.shared.submitted := by
  rw [submissions_run hr, List.mem_reverse, List.mem_range]
end

/-! ## The destructor -/

/-- The frame is the loop of `worker_thread`. -/
def Frame.isWorker : Frame F → Bool
  | .worker => true
  | _ => false

/-- The loop of `worker_thread` is the first frame of its thread. -/
def Based (st : List (Frame F)) : Prop := ∀ fr ∈ st.dropLast, fr.isWorker = false

theorem Based.push {st : List (Frame F)} (h : Based st) {fr : Frame F} (hf : fr.isWorker = false) :
    Based (fr :: st) := by
  cases st with
  | nil => simp [Based]
  | cons a st =>
    intro x hx
    rcases List.mem_cons.mp (by simpa using hx) with rfl | hx
    · exact hf
    · exact h x hx

theorem Based.tail {st : List (Frame F)} {fr : Frame F} (h : Based (fr :: st)) : Based st := by
  cases st with
  | nil => simp [Based]
  | cons a st => exact fun x hx => h x (by simp [hx])

theorem Based.worker {st : List (Frame F)} (h : Based (.worker :: st)) : st = [] := by
  cases st with
  | nil => rfl
  | cons a st => exact absurd (h .worker (by simp)) (by simp [Frame.isWorker])

/-- What the destructor relies on. -/
structure Staff (k : ℕ) (c : Config (Thread E) (Shared F G R) (Pc F)) : Prop where
  based : ∀ t, Based (c.loc t).stack
  absent : ∀ i, k ≤ i → c.loc (.worker i) = ⟨none, []⟩
  gone : ∀ i, c.shared.exited i = true → c.loc (.worker i) = ⟨none, []⟩
  joined : ∀ t j, .destroy j ∈ (c.loc t).stack → ∀ i, i < j → c.shared.exited i = true

section
variable [DecidableEq E] {h : List (Rec (Thread E) (Shared F G R) (Pc F) ℕ ℕ)}
  {c : Config (Thread E) (Shared F G R) (Pc F)} {t : Thread E} {ev : Event ℕ ℕ}
  {s' : Shared F G R} {l' : Pc F} {k : ℕ} {code : Code κ F G R}

omit [DecidableEq E] in
theorem Move.based (hm : Move k code t c.shared ev (c.loc t) s' l')
    (hb : Based (c.loc t).stack) : Based l'.stack := by
  generalize c.loc t = pc at hm hb
  cases hm with
  | exit => exact hb.tail
  | loop | miss | dequeue | help => exact hb
  | ready | join => exact hb.tail.push rfl
  | call => exact hb.push rfl
  | code x g a id children f rest ev s' l' hn ha =>
    cases a with
    | finish r => cases id <;> cases ha <;> exact hb.tail
    | destroy f' => cases ha; exact (hb.tail.push rfl).push rfl
    | _ => cases ha; exact hb.tail.push rfl

omit [DecidableEq E] in
/-- A worker that returns is a step of `worker_thread`. -/
theorem Move.exited (hm : Move k code t c.shared ev (c.loc t) s' l') :
    s'.exited = c.shared.exited ∨ ∃ i rest, t = .worker i ∧ c.loc t = ⟨none, .worker :: rest⟩ ∧
      l' = ⟨none, rest⟩ ∧ s'.exited = Function.update c.shared.exited i true := by
  generalize hl : c.loc t = pc at hm
  cases hm with
  | exit i rest ht hd => exact .inr ⟨i, rest, ht, rfl, rfl, rfl⟩
  | dequeue p task src s' st hpc hq => cases hq <;> exact .inl rfl
  | code x g a id children f rest ev s' l' hn ha =>
    cases a with
    | finish r => cases id <;> cases ha <;> exact .inl rfl
    | submit body resume => cases ha; cases t <;> exact .inl rfl
    | _ => cases ha; exact .inl rfl
  | _ => exact .inl rfl

omit [DecidableEq E] in
/-- A destructor has joined one more worker, or none yet. -/
theorem Move.destroys (hm : Move k code t c.shared ev (c.loc t) s' l') {j : ℕ}
    (hj : .destroy j ∈ l'.stack) : .destroy j ∈ (c.loc t).stack ∨ j = 0 ∨
      ∃ i, j = i + 1 ∧ .destroy i ∈ (c.loc t).stack ∧ c.shared.exited i = true := by
  generalize hl : c.loc t = pc at hm
  cases hm with
  | exit => exact .inl (by simp [hj])
  | loop | miss | dequeue | help => exact .inl hj
  | ready => exact .inl (by simpa using hj)
  | join i rest hi he =>
    rcases List.mem_cons.mp hj with heq | hj
    · cases heq; exact .inr (.inr ⟨i, rfl, by simp, he⟩)
    · exact .inl (by simp [hj])
  | call => exact .inl (by simpa using hj)
  | code x g a id children f rest ev s' l' hn ha =>
    cases a with
    | finish r => cases id <;> cases ha <;> exact .inl (by simp_all)
    | destroy f' =>
      cases ha
      rcases List.mem_cons.mp hj with heq | hj
      · cases heq; exact .inr (.inl rfl)
      · exact .inl (by simpa using hj)
    | _ => cases ha; exact .inl (by simpa using hj)

theorem Staff.advance (hst : Staff k c) (hm : Move k code t c.shared ev (c.loc t) s' l') :
    Staff k (c.set t s' l') := by
  -- a thread that has returned takes no step
  have hstay : ∀ i, c.loc (.worker i) = ⟨none, []⟩ →
      (c.set t s' l').loc (.worker i) = ⟨none, []⟩ := by
    intro i hi
    by_cases hit : Thread.worker i = t
    · subst hit
      rw [hi] at hm
      cases hm
    · rwa [Config.set_loc_ne c hit]
  have hmono : ∀ i, c.shared.exited i = true → s'.exited i = true := by
    intro i hi
    rcases hm.exited with he | ⟨j, rest, -, -, -, he⟩
    · rwa [he]
    · by_cases hij : i = j <;> simp [he, hij, hi]
  refine ⟨?_, fun i hi => hstay i (hst.absent i hi), ?_, ?_⟩
  · exact Config.forall_set (p := fun _ (l : Pc F) => Based l.stack) (hm.based (hst.based t))
      fun u _ => hst.based u
  · intro i hi
    rcases hm.exited with he | ⟨j, rest, rfl, hl, rfl, he⟩
    · exact hstay i (hst.gone i (by simpa [he] using hi))
    · have hrest : rest = [] := Based.worker (by simpa [hl] using hst.based (.worker j))
      by_cases hij : i = j
      · subst hij; simp [hrest]
      · rw [Config.set_loc_ne c (by simpa using hij)]
        exact hst.gone i (by simpa [he, hij] using hi)
  · intro u j hj i hij
    by_cases hut : u = t
    · subst hut
      rw [Config.set_loc_self] at hj
      rcases hm.destroys hj with hold | rfl | ⟨m, rfl, hold, hm'⟩
      · exact hmono i (hst.joined u j hold i hij)
      · exact absurd hij (Nat.not_lt_zero i)
      · rcases Nat.lt_succ_iff_lt_or_eq.mp hij with hlt | rfl
        · exact hmono i (hst.joined u m hold i hlt)
        · exact hmono i hm'
    · rw [Config.set_loc_ne c hut] at hj
      exact hmono i (hst.joined u j hj i hij)

theorem staff_run {user : E → F} {g : G}
    (hr : (program k code).Run Program.anyStep (initial k user g) h c) : Staff k c := by
  refine hr.induction (I := fun _ c => Staff k c) ⟨?_, ?_, by simp [initial], ?_⟩ ?_
  · rintro (i | e)
    · by_cases hi : i < k <;> simp [initial, hi, Based]
    · simp [initial, Based]
  · intro i hi
    simp [initial, Nat.not_lt.mpr hi]
  · rintro (i | e) j hj
    · by_cases hi : i < k <;> simp [initial, hi] at hj
    · simp [initial] at hj
  · intro h c t x ev s l _ hst _ hs
    exact hst.advance (step_move hs)

/-! ## The result -/

/-- **No task is lost and none runs twice.** In every run the submissions are of different tasks;
each task submitted is at exactly one place, once, and no other task is anywhere; and when the
destructor has joined all workers, and no other thread is inside a member call, the tasks submitted
and not executed are those still in the queues. -/
theorem tasks_in_one_place {threadCount : ℕ} {user : E → F} {g : G}
    (hr : (program (workers threadCount) code).Run Program.anyStep
      (initial (workers threadCount) user g) h c) :
    (submissions h).Nodup ∧ (∀ n ∈ submissions h, Sole (located h c n)) ∧
      (∀ n, n ∉ submissions h → Nowhere (located h c n)) ∧
      ∀ t rest, c.loc t = ⟨none, .destroy (workers threadCount) :: rest⟩ →
        (∀ e, (c.loc (.external e)).taken = []) → ∀ n ∈ submissions h,
          (n ∉ executed h ↔ n ∈ c.shared.poolWorkQueue.map Task.id ∨
            ∃ i, n ∈ (c.shared.queues i).map Task.id) := by
  have hp := placed_run hr
  have hst := staff_run hr
  have hsub := mem_submissions hr
  refine ⟨?_, fun n hn => hp.old n ((hsub n).mp hn),
    fun n hn => hp.new n (Nat.not_lt.mp fun hlt => hn ((hsub n).mpr hlt)),
    fun t rest hl hext n hn => ?_⟩
  · rw [submissions_run hr]
    exact List.nodup_reverse.mpr List.nodup_range
  have hfree : ∀ u, located h c n (.taken u) = 0 := by
    intro u
    have hnil : (c.loc u).taken = [] := by
      cases u with
      | external e => exact hext e
      | worker i =>
        have hi : c.loc (.worker i) = ⟨none, []⟩ := by
          by_cases hi : i < workers threadCount
          · exact hst.gone i (hst.joined t _ (by simp [hl]) i hi)
          · exact hst.absent i (by omega)
        rw [hi]
        rfl
    simp [located, hnil]
  obtain ⟨p, h1, h0⟩ := hp.old n ((hsub n).mp hn)
  have hmem : ∀ l : List ℕ, n ∈ l ↔ l.count n ≠ 0 := fun l => by
    rw [← List.count_pos_iff]; omega
  rw [hmem, hmem, not_not]
  simp only [hmem]
  constructor
  · intro hex
    cases p with
    | shared => exact .inl (by simp only [located] at h1; omega)
    | queue i => exact .inr ⟨i, by simp only [located] at h1; omega⟩
    | taken u => rw [hfree u] at h1; cases h1
    | executed => simp only [located] at h1; omega
  · rintro hq
    have hne : p ≠ .executed := by
      rintro rfl
      rcases hq with hq | ⟨i, hq⟩
      · exact hq (h0 .shared (by simp))
      · exact hq (h0 (.queue i) (by simp))
    exact h0 .executed hne.symm
end

/-- Code `n + 2` submits a task that does nothing and goes on as `n + 1`, code `1` destroys the
pool, code `0` ends. -/
def countdown : Code Unit ℕ Unit Unit where
  next _ _ g
    | 0 => some (g, .finish ())
    | 1 => some (g, .destroy 0)
    | n + 2 => some (g, .submit 0 fun _ => n + 1)

/-- Two tasks are submitted to a pool with one worker, which runs the first one and then sees that
the pool is being destroyed. -/
theorem tasks_in_one_place_destroyed :
    ∃ (h : List (Rec (Thread Unit) (Shared ℕ Unit Unit) (Pc ℕ) ℕ ℕ)) (c : _),
      (program (workers 1) countdown).Run Program.anyStep
        (initial (workers 1) (fun _ => 3) ()) h c ∧
        (executed h = [0] ∧ submissions h = [1, 0]) ∧
        (1 ∈ c.shared.poolWorkQueue.map Task.id ∨ ∃ i, 1 ∈ (c.shared.queues i).map Task.id) := by
  obtain ⟨h, c, hr, hp⟩ := Program.replay_reaches (program (workers 1) countdown)
    (initial (workers 1) (fun _ => 3) ())
    [(.external (), .code ()), (.external (), .code ()), (.worker 0, .run), (.worker 0, .run),
      (.worker 0, .run), (.worker 0, .run), (.worker 0, .code ()), (.external (), .code ()),
      (.worker 0, .run), (.external (), .run)]
    (fun h c => executed h = [0] ∧ submissions h = [1, 0] ∧
      c.loc (.external ()) = ⟨none, [.destroy 1, .code none [1, 0] 0]⟩) (by decide)
  obtain ⟨hex, hsub, hl⟩ := of_decide_eq_true hp
  refine ⟨h, c, hr, ⟨hex, hsub⟩, ?_⟩
  have hnot : 1 ∉ executed h := by simp [hex]
  exact ((tasks_in_one_place hr).2.2.2 (.external ()) _ hl (fun e => by rw [hl]; rfl) 1
    (by simp [hsub])).mp hnot

end Bonostl.ThreadPool
