import Bonostl.ThreadPool.Places

/-!
# Waiting while helping cannot deadlock

In a fork-join program a task waits only for tasks it has submitted itself (`ForkJoin`), by the loop
that calls `run_pending_task`. Look at a state with an unfinished task.

* If a task is queued, some worker can get at it without stealing: the owner of the local queue, or
  any worker if it is in the shared queue (`able_of_queued`).
* Otherwise every unfinished task lies on some stack. Take the one started last. Nothing lies above
  it on its stack, since that would have been started later. If it waits, it waits for a task it
  submitted after it was started; that one is not queued, and was not started later unless it is
  finished, so its future is ready (`able_of_latest`).
-/

namespace Bonostl.ThreadPool

open Interleaving

variable {E κ F G R : Type}

/-! ## Productive steps -/

section
variable {k : ℕ} {code : Code κ F G R} {t : Thread E} {s : Shared F G R} {l l' : Pc F}
  {st : List (Frame F)} {p : Phase F}

end

/-! ## The order in which tasks are started -/

/-- The tasks dequeued, the last one first. -/
def started (h : List (Rec (Thread E) (Shared F G R) (Pc F) ℕ ℕ)) : List ℕ :=
  h.filterMap fun r => (r.cfg.loc r.tid).phase.bind Phase.task

/-- What a frame knows of the tasks it has submitted: none of them was started before its own task,
and a wait is for one of them. -/
def Frame.Forks (submitted : ℕ) (order : List ℕ) : Frame F → Prop
  | .code id children _ =>
    ∀ n ∈ children, n < submitted ∧ ∀ m, id = some m → n ≠ m ∧ ¬ [m, n].Sublist order
  | .wait id children n _ => n ∈ children ∧
    ∀ n ∈ children, n < submitted ∧ ∀ m, id = some m → n ≠ m ∧ ¬ [m, n].Sublist order
  | .worker | .destroy _ => True

/-- **Fork-join programs**: a task waits only for tasks it has submitted itself. -/
def ForkJoin (code : Code κ F G R) (_ : List (Rec (Thread E) (Shared F G R) (Pc F) ℕ ℕ))
    (c : Config (Thread E) (Shared F G R) (Pc F)) (t : Thread E) (x : Choice κ) : Prop :=
  ∀ y id children f rest g n f', x = .code y →
    c.loc t = ⟨none, .code id children f :: rest⟩ →
    code.next y c.shared.results c.shared.memory f = some (g, .wait n f') → n ∈ children

/-- The invariant: tasks are taken in an order in which each waits only for later ones. -/
structure Ordered (k : ℕ) (h : List (Rec (Thread E) (Shared F G R) (Pc F) ℕ ℕ))
    (c : Config (Thread E) (Shared F G R) (Pc F)) : Prop where
  placed : Placed h c
  staff : Staff k c
  nodup : (started h).Nodup
  stacked : ∀ t, ((c.loc t).taken).Sublist (started h)
  begun : ∀ n ∈ started h, (∃ t, n ∈ (c.loc t).taken) ∨ n ∈ executed h
  futures : ∀ n, (c.shared.results n).isSome ↔ n ∈ executed h
  forks : ∀ t, ∀ fr ∈ (c.loc t).stack, fr.Forks c.shared.submitted (started h)
  above : ∀ t, ∀ fr ∈ (c.loc t).stack.dropLast, fr.task ≠ none ∨ c.shared.done = true
  destroying : ∀ t j, .destroy j ∈ (c.loc t).stack → c.shared.done = true
  owners : ∀ i, k ≤ i → c.shared.queues i = []
  present : c.shared.done = false → ∀ i, i < k → .worker ∈ (c.loc (.worker i)).stack

/-- What a step does to the tasks taken: nothing, or it finishes the last one, or it dequeues
one. -/
theorem Move.account {k : ℕ} {code : Code κ F G R} {t : Thread E} {s s' : Shared F G R}
    {ev : Event ℕ ℕ} {l l' : Pc F} (hm : Move k code t s ev l s' l') :
    (l'.taken = l.taken ∧ l'.phase.bind Phase.task = none ∧ s'.results = s.results ∧
      ∀ n, ev ≠ .ret n) ∨
    (∃ m r, l.taken = m :: l'.taken ∧ l'.phase = none ∧ ev = .ret m ∧
      s'.results = Function.update s.results m (some r)) ∨
    ∃ task src, l'.taken = task.id :: l.taken ∧ l'.phase = some (.call task) ∧ ev = .tau ∧
      s'.results = s.results ∧ Dequeue s task src s' := by
  cases hm with
  | exit | loop | ready | help | join | call => exact .inl ⟨rfl, rfl, rfl, by simp⟩
  | miss p p' st hp hp' =>
    have h1 : (some p).bind Phase.task = none := by
      cases p with
      | call task => exact absurd rfl (hp task)
      | _ => rfl
    have h2 : p'.bind Phase.task = none := by
      rcases p' with _ | (_ | _ | _ | task)
      · rfl
      · rfl
      · rfl
      · rfl
      · exact absurd rfl (hp' task)
    exact .inl ⟨by simp [Pc.taken, h1, h2], h2, rfl, by simp⟩
  | dequeue p task src s' st hp hq =>
    have h1 : (some p).bind Phase.task = none := by
      cases p with
      | call task => exact absurd rfl (hp task)
      | _ => rfl
    have h2 : (some (Phase.call task)).bind Phase.task = some task.id := rfl
    refine .inr (.inr ⟨task, src, by simp [Pc.taken, h1, h2], rfl, rfl, ?_, hq⟩)
    cases hq <;> rfl
  | code x g a id children f rest ev s' l' hn ha =>
    cases a with
    | finish r =>
      cases id with
      | none => cases ha; exact .inl ⟨rfl, rfl, rfl, by simp⟩
      | some m => cases ha; exact .inr (.inl ⟨m, r, rfl, rfl, rfl, rfl⟩)
    | submit body resume =>
      cases ha
      refine .inl ⟨rfl, rfl, ?_, by simp⟩
      cases t <;> rfl
    | _ => cases ha; exact .inl ⟨rfl, rfl, rfl, by simp⟩

/-- A frame keeps what it knows when another task is started. -/
theorem Frame.Forks.mono {fr : Frame F} {n n' x : ℕ} {o o' : List ℕ} (h : fr.Forks n o)
    (hn : n ≤ n') (ho : o' = o ∨ (o' = x :: o ∧ fr.task ≠ some x)) : fr.Forks n' o' := by
  have hsub : ∀ id : Option ℕ, (o' = o ∨ (o' = x :: o ∧ id ≠ some x)) → ∀ children : List ℕ,
      (∀ j ∈ children, j < n ∧ ∀ m, id = some m → j ≠ m ∧ ¬ [m, j].Sublist o) →
      ∀ j ∈ children, j < n' ∧ ∀ m, id = some m → j ≠ m ∧ ¬ [m, j].Sublist o' := by
    intro id ho children hall j hj
    obtain ⟨hlt, hm⟩ := hall j hj
    refine ⟨by omega, fun m hid => ⟨(hm m hid).1, ?_⟩⟩
    rcases ho with rfl | ⟨rfl, hne⟩
    · exact (hm m hid).2
    · intro hs
      rcases List.sublist_cons_iff.mp hs with hs | ⟨r, heq, -⟩
      · exact (hm m hid).2 hs
      · exact hne (by rw [hid, (List.cons.inj heq).1])
  cases fr with
  | code id children f => exact hsub id ho children h
  | wait id children j f => exact ⟨h.1, hsub id ho children h.2⟩
  | worker | destroy => trivial

section
variable [DecidableEq E] {h : List (Rec (Thread E) (Shared F G R) (Pc F) ℕ ℕ)}
  {c : Config (Thread E) (Shared F G R) (Pc F)} {t : Thread E} {ev : Event ℕ ℕ}
  {s' : Shared F G R} {l' : Pc F} {k : ℕ} {code : Code κ F G R}

theorem started_cons (c : Config (Thread E) (Shared F G R) (Pc F)) :
    started (stepRec c t ev s' l' :: h) = (l'.phase.bind Phase.task).toList ++ started h := by
  unfold started stepRec
  rw [List.filterMap_cons]
  simp only [Config.set_loc_self]
  cases l'.phase.bind Phase.task <;> rfl

omit [DecidableEq E] in
/-- A task that is in a queue has not been started. -/
theorem Ordered.fresh (ho : Ordered k h c) {task : Task F} {src : Source}
    (hq : Dequeue c.shared task src s') :
    (∀ u, task.id ∉ (c.loc u).taken) ∧ task.id ∉ executed h ∧ task.id ∉ started h := by
  have hpos : 0 < located h c task.id (src.place : Place E) := by
    cases hq with
    | pool q hq => simp [Source.place, located, hq]
    | front i q hq => simp [Source.place, located, hq]
    | back i q hq => simp [Source.place, located, hq]
  have hsole : Sole (located h c task.id) := by
    refine ho.placed.old _ ?_
    by_contra hge
    have := ho.placed.new task.id (by omega) src.place
    omega
  have h0 := (hsole.eq_one hpos).2
  have htaken : ∀ u, task.id ∉ (c.loc u).taken := fun u hu => by
    have h1 := h0 (.taken u) (by cases src <;> simp [Source.place])
    exact absurd (List.count_pos_iff.mpr hu) (by simp only [located] at h1; omega)
  have hex : task.id ∉ executed h := fun hu => by
    have h1 := h0 .executed (by cases src <;> simp [Source.place])
    exact absurd (List.count_pos_iff.mpr hu) (by simp only [located] at h1; omega)
  refine ⟨htaken, hex, fun hs => ?_⟩
  rcases ho.begun _ hs with ⟨u, hu⟩ | hu
  · exact htaken u hu
  · exact hex hu

omit [DecidableEq E] in
/-- A task that was not submitted has not been started. -/
theorem Ordered.not_started (ho : Ordered k h c) {n : ℕ} (hn : c.shared.submitted ≤ n) :
    (∀ u, n ∉ (c.loc u).taken) ∧ n ∉ started h := by
  have h0 := ho.placed.new n hn
  have htaken : ∀ u, n ∉ (c.loc u).taken := by
    intro u hu
    have hcount := h0 (.taken u)
    have hpos := List.count_pos_iff.mpr hu
    simp only [located] at hcount
    omega
  refine ⟨htaken, fun hs => ?_⟩
  rcases ho.begun n hs with ⟨u, hu⟩ | hu
  · exact htaken u hu
  · exact absurd (List.count_pos_iff.mpr hu)
      (by have := h0 .executed; simp only [located] at this; omega)

/-- The tasks on the stacks, in the order in which they were started. -/
theorem Ordered.stacked_step (ho : Ordered k h c)
    (hm : Move k code t c.shared ev (c.loc t) s' l') :
    (started (stepRec c t ev s' l' :: h)).Nodup ∧
      ∀ u, (((c.set t s' l').loc u).taken).Sublist (started (stepRec c t ev s' l' :: h)) := by
  rw [started_cons]
  rcases hm.account with ⟨htk, hph, -, -⟩ | ⟨m, r, htk, hph, -, -⟩ | ⟨task, src, htk, hph, -, -, hq⟩
  · rw [hph]
    refine ⟨ho.nodup, Config.forall_set (p := fun _ (l : Pc F) => (l.taken).Sublist (started h)) ?_
      fun u _ => ho.stacked u⟩
    rw [htk]
    exact ho.stacked t
  · rw [hph]
    refine ⟨ho.nodup, Config.forall_set (p := fun _ (l : Pc F) => (l.taken).Sublist (started h)) ?_
      fun u _ => ho.stacked u⟩
    exact (List.sublist_cons_self m _).trans (htk ▸ ho.stacked t)
  · rw [hph]
    show (task.id :: started h).Nodup ∧ ∀ u, List.Sublist _ (task.id :: started h)
    refine ⟨List.nodup_cons.mpr ⟨(ho.fresh hq).2.2, ho.nodup⟩,
      Config.forall_set (p := fun _ (l : Pc F) => (l.taken).Sublist (task.id :: started h)) ?_
        fun u _ => (ho.stacked u).cons _⟩
    rw [htk]
    exact (ho.stacked t).cons_cons _

theorem Ordered.begun_step (ho : Ordered k h c) (hm : Move k code t c.shared ev (c.loc t) s' l')
    (n : ℕ) (hn : n ∈ started (stepRec c t ev s' l' :: h)) :
    (∃ u, n ∈ ((c.set t s' l').loc u).taken) ∨ n ∈ executed (stepRec c t ev s' l' :: h) := by
  have hother : ∀ u, u ≠ t → n ∈ (c.loc u).taken → ∃ u, n ∈ ((c.set t s' l').loc u).taken :=
    fun u hu hmem => ⟨u, by rwa [Config.set_loc_ne c hu]⟩
  rw [started_cons] at hn
  rcases hm.account with ⟨htk, hph, -, hev⟩ | ⟨m, r, htk, hph, rfl, -⟩ |
    ⟨task, src, htk, hph, rfl, -, hq⟩
  · rw [hph] at hn
    rw [executed_quiet hev]
    refine (ho.begun n hn).imp_left fun ⟨u, hu⟩ => ?_
    by_cases hut : u = t
    · subst hut; exact ⟨u, by rwa [Config.set_loc_self, htk]⟩
    · exact hother u hut hu
  · rw [hph] at hn
    rcases ho.begun n hn with ⟨u, hu⟩ | hex
    · by_cases hut : u = t
      · subst hut
        rw [htk] at hu
        rcases List.mem_cons.mp hu with rfl | hu
        · exact .inr (List.mem_cons_self ..)
        · exact .inl ⟨u, by rwa [Config.set_loc_self]⟩
      · exact .inl (hother u hut hu)
    · exact .inr (List.mem_cons_of_mem _ hex)
  · rw [hph] at hn
    rcases List.mem_cons.mp hn with rfl | hn
    · exact .inl ⟨t, by rw [Config.set_loc_self, htk]; simp⟩
    · refine (ho.begun n hn).imp_left fun ⟨u, hu⟩ => ?_
      by_cases hut : u = t
      · subst hut; exact ⟨u, by rw [Config.set_loc_self, htk]; simp [hu]⟩
      · exact hother u hut hu

/-- The futures that are ready are those of the tasks executed. -/
theorem Move.futures (hm : Move k code t c.shared ev (c.loc t) s' l')
    (hf : ∀ n, (c.shared.results n).isSome ↔ n ∈ executed h) (n : ℕ) :
    (s'.results n).isSome ↔ n ∈ executed (stepRec c t ev s' l' :: h) := by
  rcases hm.account with ⟨-, -, hres, hev⟩ | ⟨m, r, -, -, rfl, hres⟩ |
    ⟨task, src, -, -, rfl, hres, -⟩
  · rw [hres, executed_quiet hev]
    exact hf n
  · show (s'.results n).isSome ↔ n ∈ m :: executed h
    rw [hres]
    by_cases hnm : n = m
    · subst hnm; simp
    · simpa [hnm] using hf n
  · rw [hres]
    exact hf n

omit [DecidableEq E] in
/-- The frames of a stack run tasks the thread has taken. -/
theorem mem_taken {l : Pc F} {fr : Frame F} {m : ℕ} (hf : fr ∈ l.stack) (hm : fr.task = some m) :
    m ∈ l.taken :=
  List.mem_append_right _ (List.mem_filterMap.mpr ⟨fr, hf, hm⟩)

omit [DecidableEq E] in
theorem Move.submitted_le (hm : Move k code t c.shared ev (c.loc t) s' l') :
    c.shared.submitted ≤ s'.submitted := by
  generalize c.loc t = pc at hm
  cases hm with
  | dequeue p task src s' st hp hq => cases hq <;> exact le_rfl
  | code x g a id children f rest ev s' l' hn ha =>
    cases a with
    | submit body resume => cases ha; cases t <;> simp [Shared.submit]
    | finish r => cases id <;> cases ha <;> exact le_rfl
    | _ => cases ha; exact le_rfl
  | _ => exact le_rfl

/-- What a frame that was there before the step knows after it. -/
theorem Ordered.forks_keep (ho : Ordered k h c) (hm : Move k code t c.shared ev (c.loc t) s' l')
    {u : Thread E} {fr : Frame F} (hf : fr ∈ (c.loc u).stack) :
    fr.Forks s'.submitted (started (stepRec c t ev s' l' :: h)) := by
  rw [started_cons]
  rcases hm.account with ⟨-, hph, -, -⟩ | ⟨m, r, -, hph, -, -⟩ | ⟨task, src, -, hph, -, -, hq⟩
  · rw [hph]
    exact (ho.forks u fr hf).mono (x := 0) hm.submitted_le (.inl rfl)
  · rw [hph]
    exact (ho.forks u fr hf).mono (x := 0) hm.submitted_le (.inl rfl)
  · rw [hph]
    exact (ho.forks u fr hf).mono (x := task.id) hm.submitted_le
      (.inr ⟨rfl, fun htask => (ho.fresh hq).1 u (mem_taken hf htask)⟩)

omit [DecidableEq E] in
theorem step_code {x : Choice κ} {s : Shared F G R} {id : Option ℕ} {children : List ℕ} {f : F}
    {rest : List (Frame F)}
    (hs : step k code t x s ⟨none, .code id children f :: rest⟩ = some (ev, s', l')) :
    ∃ y g a, x = .code y ∧ code.next y s.results s.memory f = some (g, a) ∧
      act t { s with memory := g } id children rest a = (ev, s', l') := by
  cases x with
  | code y =>
    obtain ⟨⟨g, a⟩, hn, ha⟩ := Option.map_eq_some_iff.mp hs
    exact ⟨y, g, a, rfl, hn, ha⟩
  | run | random => cases hs

/-- What the mover's frames know after the step. -/
theorem Ordered.forks_self (ho : Ordered k h c) {x : Choice κ}
    (hs : step k code t x c.shared (c.loc t) = some (ev, s', l'))
    (hfj : ForkJoin code h c t x) (fr : Frame F) (hf : fr ∈ l'.stack) :
    fr.Forks s'.submitted (started (stepRec c t ev s' l' :: h)) := by
  have hm := step_move hs
  have hold : ∀ fr ∈ (c.loc t).stack, fr.Forks s'.submitted (started (stepRec c t ev s' l' :: h)) :=
    fun _ hf => ho.forks_keep hm hf
  have hfresh := ho.not_started le_rfl
  have htk : ∀ fr m, fr ∈ (c.loc t).stack → fr.task = some m → m ∈ (c.loc t).taken :=
    fun _ _ hf htask => mem_taken hf htask
  generalize hl : c.loc t = pc at hm hs hold htk
  cases hm with
  | exit => exact hold fr (List.mem_cons_of_mem _ hf)
  | loop | help | miss | dequeue => exact hold fr hf
  | ready id children n f rest hr =>
    rcases List.mem_cons.mp hf with rfl | hf
    · exact (hold (.wait id children n f) (List.mem_cons_self ..)).2
    · exact hold fr (List.mem_cons_of_mem _ hf)
  | join j rest =>
    rcases List.mem_cons.mp hf with rfl | hf
    · trivial
    · exact hold fr (List.mem_cons_of_mem _ hf)
  | call task st =>
    rcases List.mem_cons.mp hf with rfl | hf
    · exact fun n hn => absurd hn (by simp)
    · exact hold fr hf
  | code x' g' a' id children f rest ev s' l' hn' ha' =>
    obtain ⟨y, g, a, rfl, hn, ha⟩ := step_code hs
    have hself := hold (.code id children f) (List.mem_cons_self ..)
    have hrest : ∀ fr ∈ rest, fr.Forks s'.submitted (started (stepRec c t ev s' l' :: h)) :=
      fun fr hf => hold fr (List.mem_cons_of_mem _ hf)
    cases a with
    | go f' | runPendingTask f' =>
      cases ha
      rcases List.mem_cons.mp hf with rfl | hf
      · exact hself
      · exact hrest fr hf
    | wait n f' =>
      cases ha
      rcases List.mem_cons.mp hf with rfl | hf
      · exact ⟨hfj y id children f rest g n f' rfl hl hn, hself⟩
      · exact hrest fr hf
    | finish r => cases id <;> cases ha <;> exact hrest fr hf
    | destroy f' =>
      cases ha
      rcases List.mem_cons.mp hf with rfl | hf
      · trivial
      · rcases List.mem_cons.mp hf with rfl | hf
        · exact hself
        · exact hrest fr hf
    | submit body resume =>
      cases ha
      rcases List.mem_cons.mp hf with rfl | hf
      · -- the new task has not been started
        intro n hmem
        rcases List.mem_cons.mp hmem with rfl | hmem
        · refine ⟨by cases t <;> simp [Shared.submit], fun m hid => ⟨?_, fun hsub => ?_⟩⟩
          · rintro rfl
            exact hfresh.1 t (by rw [hl]; exact htk _ _ (List.mem_cons_self ..) hid)
          · rw [started_cons] at hsub
            exact hfresh.2 (hsub.subset (by simp))
        · exact hself n hmem
      · exact hrest fr hf

omit [DecidableEq E] in
theorem Move.done_mono (hm : Move k code t c.shared ev (c.loc t) s' l')
    (hd : c.shared.done = true) : s'.done = true := by
  generalize c.loc t = pc at hm
  cases hm with
  | dequeue p task src s' st hp hq => cases hq <;> exact hd
  | code x g a id children f rest ev s' l' hn ha =>
    cases a with
    | submit body resume => cases ha; cases t <;> exact hd
    | finish r => cases id <;> cases ha <;> exact hd
    | destroy f' => cases ha; rfl
    | _ => cases ha; exact hd
  | _ => exact hd

omit [DecidableEq E] in
theorem forall_dropLast_cons {p : Frame F → Prop} {fr fr' : Frame F} {st : List (Frame F)}
    (h : ∀ x ∈ (fr :: st).dropLast, p x) (hp : p fr → p fr') :
    ∀ x ∈ (fr' :: st).dropLast, p x := by
  cases st with
  | nil => simp
  | cons a st =>
    intro x hx
    rcases List.mem_cons.mp (by simpa using hx) with rfl | hx
    · exact hp (h fr (by simp))
    · exact h x (by simp [hx])

omit [DecidableEq E] in
theorem forall_dropLast_push {p : Frame F → Prop} {fr : Frame F} {st : List (Frame F)}
    (h : ∀ x ∈ st.dropLast, p x) (hp : p fr) : ∀ x ∈ (fr :: st).dropLast, p x := by
  cases st with
  | nil => simp
  | cons a st =>
    intro x hx
    rcases List.mem_cons.mp (by simpa using hx) with rfl | hx
    · exact hp
    · exact h x hx

omit [DecidableEq E] in
theorem forall_dropLast_tail {p : Frame F → Prop} {fr : Frame F} {st : List (Frame F)}
    (h : ∀ x ∈ (fr :: st).dropLast, p x) : ∀ x ∈ st.dropLast, p x := by
  cases st with
  | nil => simp
  | cons a st => exact fun x hx => h x (by simp [hx])

omit [DecidableEq E] in
/-- Above the first frame of a stack there are tasks only, and destructors. -/
theorem Move.above (hm : Move k code t c.shared ev (c.loc t) s' l')
    (ha : ∀ fr ∈ (c.loc t).stack.dropLast, fr.task ≠ none ∨ s'.done = true) :
    ∀ fr ∈ l'.stack.dropLast, fr.task ≠ none ∨ s'.done = true := by
  generalize c.loc t = pc at hm ha
  cases hm with
  | exit => exact forall_dropLast_tail ha
  | loop | help | miss | dequeue => exact ha
  | ready | join => exact forall_dropLast_cons ha fun h => h
  | call => exact forall_dropLast_push ha (.inl (by simp [Frame.task]))
  | code x g a id children f rest ev s' l' hn hact =>
    cases a with
    | finish r => cases id <;> cases hact <;> exact forall_dropLast_tail ha
    | destroy f' =>
      cases hact
      exact fun fr _ => .inr rfl
    | _ => cases hact; exact forall_dropLast_cons ha fun h => h

omit [DecidableEq E] in
theorem Move.destroying (hm : Move k code t c.shared ev (c.loc t) s' l') {j : ℕ}
    (hj : .destroy j ∈ l'.stack) : s'.done = true ∨ ∃ i, .destroy i ∈ (c.loc t).stack := by
  generalize c.loc t = pc at hm
  cases hm with
  | exit => exact .inr ⟨j, List.mem_cons_of_mem _ hj⟩
  | loop | help | miss | dequeue => exact .inr ⟨j, hj⟩
  | ready | call => exact .inr ⟨j, by simpa using hj⟩
  | join i rest => exact .inr ⟨i, List.mem_cons_self ..⟩
  | code x g a id children f rest ev s' l' hn hact =>
    cases a with
    | finish r => cases id <;> cases hact <;> exact .inr ⟨j, List.mem_cons_of_mem _ hj⟩
    | destroy f' => cases hact; exact .inl rfl
    | _ => cases hact; exact .inr ⟨j, by simpa using hj⟩

omit [DecidableEq E] in
/-- A worker's loop stays on its stack until the pool is destroyed. -/
theorem Move.present (hm : Move k code t c.shared ev (c.loc t) s' l') (hd : s'.done = false)
    (hw : .worker ∈ (c.loc t).stack) : .worker ∈ l'.stack := by
  generalize c.loc t = pc at hm hw
  cases hm with
  | exit i rest ht hdone => exact absurd (hdone.symm.trans hd) (by simp)
  | loop | help | miss | dequeue => exact hw
  | ready | join | call => simpa using hw
  | code x g a id children f rest ev s' l' hn hact =>
    cases a with
    | finish r => cases id <;> cases hact <;> simpa using hw
    | _ => cases hact; simpa using hw

omit [DecidableEq E] in
/-- A local queue is filled by its own worker only. -/
theorem Move.owners (hm : Move k code t c.shared ev (c.loc t) s' l') {i : ℕ} (ht : t ≠ .worker i)
    (hq : c.shared.queues i = []) : s'.queues i = [] := by
  generalize c.loc t = pc at hm
  cases hm with
  | dequeue p task src s' st hp hdq =>
    cases hdq with
    | pool => exact hq
    | front j q hj =>
      have hij : i ≠ j := by rintro rfl; simp [hq] at hj
      simpa [hij] using hq
    | back j q hj =>
      have hij : i ≠ j := by rintro rfl; simp [hq] at hj
      simpa [hij] using hq
  | code x g a id children f rest ev s' l' hn hact =>
    cases a with
    | submit body resume =>
      cases hact
      cases t with
      | external e => exact hq
      | worker j =>
        have hij : i ≠ j := by rintro rfl; exact ht rfl
        simpa [Shared.submit, hij] using hq
    | finish r => cases id <;> cases hact <;> exact hq
    | _ => cases hact; exact hq
  | _ => exact hq

/-- **One step keeps the order.** -/
theorem Ordered.advance (ho : Ordered k h c) {x : Choice κ}
    (hs : step k code t x c.shared (c.loc t) = some (ev, s', l'))
    (hfj : ForkJoin code h c t x) : Ordered k (stepRec c t ev s' l' :: h) (c.set t s' l') := by
  have hm := step_move hs
  refine ⟨ho.placed.advance hm, ho.staff.advance hm, (ho.stacked_step hm).1, (ho.stacked_step hm).2,
    ho.begun_step hm, hm.futures ho.futures, ?_, ?_, ?_, ?_, ?_⟩
  · exact Config.forall_set (p := fun _ (l : Pc F) => ∀ fr ∈ l.stack, fr.Forks s'.submitted
      (started (stepRec c t ev s' l' :: h))) (ho.forks_self hs hfj)
      fun u _ fr hf => ho.forks_keep hm hf
  · have hold : ∀ u, ∀ fr ∈ (c.loc u).stack.dropLast, fr.task ≠ none ∨ s'.done = true :=
      fun u fr hf => (ho.above u fr hf).imp_right hm.done_mono
    exact Config.forall_set (p := fun _ (l : Pc F) => ∀ fr ∈ l.stack.dropLast,
      fr.task ≠ none ∨ s'.done = true) (hm.above (hold t)) fun u _ => hold u
  · refine Config.forall_set (p := fun _ (l : Pc F) => ∀ j, .destroy j ∈ l.stack → s'.done = true)
      (fun j hj => ?_) fun u _ j hj => hm.done_mono (ho.destroying u j hj)
    rcases hm.destroying hj with hd | ⟨i, hi⟩
    · exact hd
    · exact hm.done_mono (ho.destroying t i hi)
  · intro i hi
    refine hm.owners ?_ (ho.owners i hi)
    rintro rfl
    rw [ho.staff.absent i hi] at hm
    cases hm
  · intro hd i hi
    have hd' : c.shared.done = false := by
      cases hdone : c.shared.done with
      | false => rfl
      | true => exact absurd (hm.done_mono hdone) (by simpa using hd)
    have hold := ho.present hd' i hi
    by_cases hit : Thread.worker i = t
    · subst hit; rw [Config.set_loc_self]; exact hm.present hd hold
    · rwa [Config.set_loc_ne c hit]

omit [DecidableEq E] in
/-- The code on top of a stack can run: nothing blocks it but the wait loop. -/
def Runs (code : Code κ F G R) (c : Config (Thread E) (Shared F G R) (Pc F)) : Prop :=
  ∀ t id children f rest, (c.loc t).stack = .code id children f :: rest →
    ∃ x r, code.next x c.shared.results c.shared.memory f = some r

end

end Bonostl.ThreadPool
