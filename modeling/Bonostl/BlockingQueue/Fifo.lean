import Bonostl.BlockingQueue.Waiters
import Bonostl.Interleaving.Points

/-!
# `blocking_queue` is a bounded queue

An operation takes effect with its access to `data_`, a refused one with the test that refuses it
(`Op.act`, `Op.refusal`). In this order the operations are those of a queue that never holds more
than `capacity` elements (`QueueSpec`), and the values popped, in order, followed by those still
stored are the values pushed, in order: `bounded_fifo`.

Nothing else blocks than a full or an empty queue: `blocked_only_when_due` says that whenever
operations are in progress, some thread can go on with its own, unless all of them wait for the same
side, and that side has nothing for them.
-/

namespace Bonostl.BlockingQueue

open Interleaving

variable {ι V : Type}

/-- The sequential bounded queue. `push` and `wait_and_pop` have no effect before they can go on. -/
inductive QueueSpec (capacity : ℕ) : List V → Op V → Res V → List V → Prop
  | push (v : V) (vs : List V) (hv : vs.length < capacity) :
      QueueSpec capacity vs (.push v) .unit (vs ++ [v])
  | waitAndPop (v : V) (vs : List V) : QueueSpec capacity (v :: vs) .waitAndPop (.value v) vs
  | tryPush (v : V) (vs : List V) (hv : vs.length < capacity) :
      QueueSpec capacity vs (.tryPush v) (.bool true) (vs ++ [v])
  | tryPushFull (v : V) (vs : List V) (hv : vs.length = capacity) :
      QueueSpec capacity vs (.tryPush v) (.bool false) vs
  | tryPop (v : V) (vs : List V) : QueueSpec capacity (v :: vs) .tryPop (.optional (some v)) vs
  | tryPopEmpty : QueueSpec capacity [] .tryPop (.optional none) []

/-- How far a thread's operation has come. -/
def Pc.status : Pc V → Status (Op V) (Res V)
  | .idle => .idle
  | .lock o | .check o _ | .block o | .wait o | .act o _ => .called o
  | .unlock _ r | .notify _ r | .done r => .done r

/-- The access to `data_` of an operation that may go on is the effect of the sequential queue. -/
theorem act_spec {s : Shared ι V} {o : Op V} {data : List V} {r : Res V} (hr : o.ready s = true)
    (ha : o.act s = some (data, r)) : QueueSpec s.capacity s.data o r data := by
  cases o with
  | push v =>
    obtain ⟨rfl, rfl⟩ := Prod.mk.inj (Option.some.inj ha)
    exact .push v _ (by simpa [Op.ready] using hr)
  | tryPush v =>
    obtain ⟨rfl, rfl⟩ := Prod.mk.inj (Option.some.inj ha)
    exact .tryPush v _ (by simpa [Op.ready] using hr)
  | waitAndPop =>
    cases hd : s.data with
    | nil => simp [Op.act, hd] at ha
    | cons v rest =>
      simp only [Op.act, hd, Option.some.injEq, Prod.mk.injEq] at ha
      obtain ⟨rfl, rfl⟩ := ha
      exact .waitAndPop v rest
  | tryPop =>
    cases hd : s.data with
    | nil => simp [Op.act, hd] at ha
    | cons v rest =>
      simp only [Op.act, hd, Option.some.injEq, Prod.mk.injEq] at ha
      obtain ⟨rfl, rfl⟩ := ha
      exact .tryPop v rest

/-- A refusal is one of the sequential queue. -/
theorem refusal_spec {s : Shared ι V} {o : Op V} {r : Res V} (hsize : s.data.length ≤ s.capacity)
    (hr : o.ready s = false) (ho : o.refusal = some r) :
    QueueSpec s.capacity s.data o r s.data := by
  cases o with
  | push v => cases ho
  | waitAndPop => cases ho
  | tryPush v =>
    cases ho
    have hfull : ¬ s.data.length < s.capacity := by simpa [Op.ready] using hr
    exact .tryPushFull v _ (by omega)
  | tryPop =>
    cases ho
    have hnil : s.data = [] := by simpa [Op.ready] using hr
    rw [hnil]
    exact .tryPopEmpty

variable [DecidableEq ι] {cap : ℕ} {s s' : Shared ι V} {f : ι → Pc V} {t : ι}
  {ev : Event (Op V) (Res V)} {l' : Pc V}

/-- **One step** takes effect as the sequential queue says, or not at all. -/
theorem Inv.commits (hI : Inv cap s f) (hm : Move t s ev (f t) s' l') :
    Commits (QueueSpec cap) Shared.data Pc.status s (f t) s' l' ev := by
  have hready := hI.ready t
  generalize f t = pc at hm hready
  cases hm with
  | call o => exact .call o rfl rfl rfl
  | lock | pass | fail | block | spurious | wake | release | unlock | notify => exact .tau rfl rfl
  | refuse o w r hp hr =>
    refine .commit o r rfl rfl ?_
    have := refusal_spec (hI.capacity.symm ▸ hI.size) hp hr
    rwa [hI.capacity] at this
  | act o w data r ha =>
    refine .commit o r rfl rfl ?_
    have := act_spec (hready o w rfl) ha
    rwa [hI.capacity] at this
  | ret r => exact .ret r rfl rfl rfl

/-! ## In the order of the pushes -/

/-- The value an effect has put into the queue. -/
def pushedBy (e : Effect ι (Op V) (Res V)) : Option V :=
  match e.op, e.res with
  | .push v, _ => some v
  | .tryPush v, .bool true => some v
  | _, _ => none

/-- The value an effect has taken out. -/
def poppedBy (e : Effect ι (Op V) (Res V)) : Option V :=
  match e.res with
  | .value v => some v
  | .optional o => o
  | _ => none

omit [DecidableEq ι] in
/-- First in, first out, within the capacity. -/
theorem legal_fifo {a b : List V} {es : List (Effect ι (Op V) (Res V))}
    (h : Legal (QueueSpec cap) a es b) :
    a ++ es.filterMap pushedBy = es.filterMap poppedBy ++ b ∧
    (a.length ≤ cap → b.length ≤ cap) := by
  induction h with
  | nil a => simp
  | @cons a b d e es hs _ ih =>
    obtain ⟨t, o, r⟩ := e
    obtain ⟨ihv, ihn⟩ := ih
    cases hs with
    | push v vs hv | tryPush v vs hv =>
      refine ⟨by simpa [List.filterMap_cons, pushedBy, poppedBy] using ihv, fun _ => ihn ?_⟩
      simpa using hv
    | waitAndPop v vs | tryPop v vs =>
      refine ⟨by simpa [List.filterMap_cons, pushedBy, poppedBy] using ihv, fun hle => ihn ?_⟩
      rw [List.length_cons] at hle
      omega
    | tryPushFull v | tryPopEmpty =>
      exact ⟨by simpa [List.filterMap_cons, pushedBy, poppedBy] using ihv, ihn⟩

section
variable {h : List (Rec ι (Shared ι V) (Pc V) (Op V) (Res V))} {c : Config ι (Shared ι V) (Pc V)}

omit [DecidableEq ι] in
theorem construct_data (hs : construct cap = .ok s) : s.data = [] := by
  unfold construct at hs
  split at hs <;> cases hs
  rfl

omit [DecidableEq ι] in
theorem construct_pos (hs : construct cap = .ok s) : 0 < cap := by
  unfold construct at hs
  split at hs <;> cases hs
  omega

/-- **`blocking_queue` is a linearizable bounded queue.** A queue is made with a capacity that is
not 0. In every run, with any number of producers and consumers and with spurious wake-ups, the
accesses to `data_` and the refusals, in their order, are a linearization; the values popped and
then those stored are the values pushed, in the order of the pushes; and there are never more than
`cap` of them stored. -/
theorem bounded_fifo (hs : construct cap = .ok s)
    (hr : program.Run Program.anyStep (initial s) h c) :
    0 < cap ∧ ∃ H : Annotated ι (Shared ι V) (Pc V) (Op V) (Res V), H.map Prod.fst = h ∧
      Linearized (QueueSpec cap) Shared.data H (fun u => (c.loc u).status) ∧
      (order H).filterMap pushedBy = (order H).filterMap poppedBy ++ c.shared.data ∧
      c.shared.data.length ≤ cap := by
  have hL : LinearizedBy (QueueSpec cap) Shared.data (fun _ => Pc.status) h c := by
    refine hr.commits (I := fun c => Inv cap c.shared c.loc) (fun h c hrun => Inv.run hs hrun)
      (fun _ => rfl) fun c t k ev s l hI hstep => ?_
    exact hI.commits (step_move hstep)
  obtain ⟨H, hH, hlin, hlegal⟩ := hL.legal hr
  have hdata : (initial s).shared.data = [] := construct_data hs
  obtain ⟨hfifo, hlen⟩ := legal_fifo hlegal
  rw [hdata, List.nil_append] at hfifo
  exact ⟨construct_pos hs, H, hH, hlin, hfifo, hlen (by rw [hdata]; exact Nat.zero_le _)⟩

/-- A queue of one place: 5 is pushed, a `try_push` of 6 is refused, and 5 is popped. -/
theorem bounded_fifo_refused : ∃ (s : Shared Bool ℕ) (h : _) (c : _), construct 1 = .ok s ∧
    program.Run Program.anyStep (initial s) h c ∧ c.loc true = .done (.bool false) ∧
      c.shared.data = [] ∧ ∃ H : Annotated Bool (Shared Bool ℕ) (Pc ℕ) (Op ℕ) (Res ℕ),
        H.map Prod.fst = h ∧ (order H).filterMap pushedBy = (order H).filterMap poppedBy := by
  obtain ⟨h, c, hr, hp⟩ := Program.replay_reaches
    program (initial (⟨none, fun _ => [], [], 1⟩ : Shared Bool ℕ))
    ((false, Choice.call (.push 5)) :: List.replicate 4 (false, Choice.run) ++
      (true, Choice.call (.tryPush 6)) :: List.replicate 3 (true, Choice.run) ++
      (false, Choice.notify true) :: (false, Choice.run) :: (false, Choice.call .waitAndPop) ::
      List.replicate 3 (false, Choice.run))
    (fun _ c => c.loc true = .done (.bool false) ∧ c.shared.data = []) (by decide)
  obtain ⟨hl, hd⟩ := of_decide_eq_true hp
  have hs : construct 1 = .ok (⟨none, fun _ => [], [], 1⟩ : Shared Bool ℕ) := rfl
  obtain ⟨-, H, hH, -, hfifo, -⟩ := bounded_fifo hs hr
  rw [hd, List.append_nil] at hfifo
  exact ⟨_, h, c, hs, hr, hl, hd, H, hH, hfifo⟩

/-! ## Progress -/

/-- Thread `t` can go on with its operation: no call, and no spurious wake-up. -/
def CanGo (c : Config ι (Shared ι V) (Pc V)) (t : ι) : Prop :=
  ∃ k : Choice ι V, (k = .run ∨ ∃ u, k = .notify u) ∧ (step t k c.shared (c.loc t)).isSome

omit [DecidableEq ι] in
theorem act_isSome {s : Shared ι V} {o : Op V} (hr : o.ready s = true) : (o.act s).isSome := by
  cases o with
  | push | tryPush => rfl
  | waitAndPop | tryPop =>
    cases hd : s.data with
    | nil => simp [Op.ready, hd] at hr
    | cons v rest => simp [Op.act, hd]

/-- Whoever has the mutex can go on. -/
theorem Inv.locked_canGo (hI : Inv cap c.shared c.loc) {t : ι} (ht : (c.loc t).locked) :
    CanGo c t := by
  have hready := hI.ready t
  generalize hft : c.loc t = pc at ht hready
  refine ⟨.run, .inl rfl, ?_⟩
  rw [hft]
  cases pc with
  | check o w =>
    by_cases hp : o.ready c.shared
    · simp [step, hp]
    · cases hr : o.refusal <;> simp [step, hp, hr]
  | block o => rfl
  | act o w =>
    obtain ⟨⟨data, r⟩, ha⟩ := Option.isSome_iff_exists.mp (act_isSome (hready o w rfl))
    simp [step, ha]
  | unlock n r => cases n <;> rfl
  | _ => cases ht

/-- While nobody has the mutex, only a blocked thread cannot go on. -/
theorem canGo_or_blocked (hfree : c.shared.mutex = none) {t : ι} (ht : c.loc t ≠ .idle)
    (hl : (c.loc t).locked = false) : CanGo c t ∨ ∃ k, Blocked c k t := by
  generalize hft : c.loc t = pc at ht hl
  cases pc with
  | idle => exact absurd rfl ht
  | lock o => exact .inl ⟨.run, .inl rfl, by simp [hft, step, hfree]⟩
  | wait o =>
    by_cases hb : t ∈ c.shared.blocked o.cond
    · exact .inr ⟨o.cond, ⟨o, hft, rfl⟩, hb⟩
    · exact .inl ⟨.run, .inl rfl, by simp [hft, step, hb, hfree]⟩
  | notify k r =>
    obtain ⟨u, hu⟩ := notifyOne_isSome (c.shared.blocked k) t
    obtain ⟨ws, hws⟩ := Option.isSome_iff_exists.mp hu
    exact .inl ⟨.notify u, .inr ⟨u, rfl⟩, by simp [hft, step, hws]⟩
  | done r => exact .inl ⟨.run, .inl rfl, by simp [hft, step]⟩
  | _ => cases hl

/-- Only an operation that does not refuse blocks. -/
def Pc.Blocks : Pc V → Prop
  | .block o | .wait o => o.refusal = none
  | _ => True

theorem blocks_run {s : Shared ι V} (hr : program.Run Program.anyStep (initial s) h c) (t : ι) :
    (c.loc t).Blocks := by
  refine hr.induction (I := fun _ c => ∀ t, (c.loc t).Blocks) (fun _ => trivial)
    (fun h c t k ev s l _ ih _ hs => ?_) t
  refine Config.forall_set (p := fun _ (l : Pc V) => l.Blocks) ?_ fun u _ => ih u
  have hm := step_move hs
  have ht := ih t
  generalize c.loc t = pc at hm ht
  cases hm with
  | fail o woken hp hr => exact hr
  | block | spurious => exact ht
  | _ => trivial

omit [DecidableEq ι] in
/-- What blocks on `not_empty_` is `wait_and_pop`. -/
theorem Blocked.pops {t : ι} (hb : Blocked c .notEmpty t) (ht : (c.loc t).Blocks) :
    c.loc t = .wait .waitAndPop := by
  obtain ⟨⟨o, ho, hk⟩, -⟩ := hb
  rw [ho] at ht ⊢
  cases o with
  | waitAndPop => rfl
  | tryPop => cases ht
  | _ => cases hk

omit [DecidableEq ι] in
/-- What blocks on `not_full_` is a `push`. -/
theorem Blocked.pushes {t : ι} (hb : Blocked c .notFull t) (ht : (c.loc t).Blocks) :
    ∃ v, c.loc t = .wait (.push v) := by
  obtain ⟨⟨o, ho, hk⟩, -⟩ := hb
  rw [ho] at ht ⊢
  cases o with
  | push v => exact ⟨v, rfl⟩
  | tryPush v => cases ht
  | _ => cases hk

/-- If nobody can go on, whoever is in an operation is blocked, and has nothing to wait for. -/
theorem Inv.all_blocked (hI : Inv cap c.shared c.loc) (hno : ∀ t, ¬ CanGo c t) {t : ι}
    (ht : c.loc t ≠ .idle) : ∃ k, Blocked c k t ∧ avail c.shared k = 0 := by
  have hunlocked : ∀ u, (c.loc u).locked = false := fun u =>
    eq_false_of_ne_true fun hu => hno u (hI.locked_canGo hu)
  have hfree : c.shared.mutex = none := by
    by_contra hm
    obtain ⟨u, hu⟩ := Option.ne_none_iff_exists'.mp hm
    exact absurd ((hI.owner u).mpr hu) (by simp [hunlocked u])
  obtain ⟨k, hk⟩ := (canGo_or_blocked hfree ht (hunlocked t)).resolve_left (hno t)
  refine ⟨k, hk, Nat.eq_zero_of_not_pos fun hpos => ?_⟩
  -- somebody would be on the way, but nobody can go on
  obtain ⟨u, hu⟩ := hI.some_waker hk hpos
  have hne : c.loc u ≠ .idle := by
    rcases hu with hu | ⟨hu, -⟩
    all_goals
      rintro he
      rw [he] at hu
      cases hu
  obtain ⟨k', hb⟩ := (canGo_or_blocked hfree hne (hunlocked u)).resolve_left (hno u)
  obtain ⟨⟨o, ho, rfl⟩, hmem⟩ := hb
  rcases hu with hu | ⟨hw, hnot⟩
  · rw [ho] at hu
    cases hu
  · rw [ho] at hw
    obtain rfl : o.cond = k := by simpa [Pc.waits] using hw
    exact hnot hmem

/-- **Only a full or an empty queue stops its users.** In every reachable state with an operation in
progress some thread can go on with its own, or else all operations in progress are blocked in
`wait_and_pop` on an empty queue, or all are blocked in `push` on a full one. -/
theorem blocked_only_when_due (hs : construct cap = .ok s)
    (hr : program.Run Program.anyStep (initial s) h c) (hbusy : ∃ t, c.loc t ≠ .idle) :
    (∃ t, CanGo c t) ∨
      (c.shared.data = [] ∧
        ∀ t, c.loc t ≠ .idle → Blocked c .notEmpty t ∧ c.loc t = .wait .waitAndPop) ∨
      (c.shared.data.length = cap ∧
        ∀ t, c.loc t ≠ .idle → Blocked c .notFull t ∧ ∃ v, c.loc t = .wait (.push v)) := by
  by_cases hgo : ∃ t, CanGo c t
  · exact .inl hgo
  right
  have hI := Inv.run hs hr
  have hall := fun t => hI.all_blocked (fun t ht => hgo ⟨t, ht⟩) (t := t)
  have hblocks := blocks_run hr
  have hpos := construct_pos hs
  have hcap := hI.capacity
  have hsize := hI.size
  obtain ⟨t₀, ht₀⟩ := hbusy
  obtain ⟨k₀, -, h₀⟩ := hall t₀ ht₀
  cases k₀ with
  | notEmpty =>
    have hnil : c.shared.data = [] := List.eq_nil_of_length_eq_zero h₀
    refine .inl ⟨hnil, fun t ht => ?_⟩
    obtain ⟨k, hk, hz⟩ := hall t ht
    cases k with
    | notEmpty => exact ⟨hk, hk.pops (hblocks t)⟩
    | notFull =>
      simp only [avail, hnil, List.length_nil] at hz
      omega
  | notFull =>
    have hfull : c.shared.data.length = cap := by
      simp only [avail] at h₀
      omega
    refine .inr ⟨hfull, fun t ht => ?_⟩
    obtain ⟨k, hk, hz⟩ := hall t ht
    cases k with
    | notFull => exact ⟨hk, hk.pushes (hblocks t)⟩
    | notEmpty =>
      simp only [avail] at hz
      omega
end

/-- A consumer alone waits on an empty queue. -/
theorem blocked_only_when_due_empty : ∃ (s : Shared Bool ℕ) (h : _) (c : _), construct 1 = .ok s ∧
    program.Run Program.anyStep (initial s) h c ∧ c.loc false = .wait .waitAndPop ∧
      ((∃ t, CanGo c t) ∨ (c.shared.data = [] ∧
        ∀ t, c.loc t ≠ .idle → Blocked c .notEmpty t ∧ c.loc t = .wait .waitAndPop)) := by
  obtain ⟨h, c, hr, hp⟩ := Program.replay_reaches
    program (initial (⟨none, fun _ => [], [], 1⟩ : Shared Bool ℕ))
    ((false, .call .waitAndPop) :: List.replicate 3 (false, .run))
    (fun _ c => c.loc false = .wait .waitAndPop ∧ c.shared.data = []) (by decide)
  obtain ⟨hl, hd⟩ := of_decide_eq_true hp
  have hs : construct 1 = .ok (⟨none, fun _ => [], [], 1⟩ : Shared Bool ℕ) := rfl
  have hbusy : ∃ t, c.loc t ≠ .idle := ⟨false, by rw [hl]; nofun⟩
  refine ⟨_, h, c, hs, hr, hl, ?_⟩
  rcases blocked_only_when_due hs hr hbusy with hgo | hempty | ⟨hfull, -⟩
  · exact .inl hgo
  · exact .inr hempty
  · rw [hd] at hfull
    cases hfull

end Bonostl.BlockingQueue
