import Bonostl.Barrier.Phases

/-!
# Nobody waits at a barrier without reason

Who completes a phase bumps `generation_` under the mutex and calls `notify_all` after it, and a
thread blocks only where it has found `generation_` as it was at its arrival. So a thread that is
blocked although its phase is over has somebody who is about to notify it (`Lively.told`). And
`count_` stands at 0 only while the phase is being completed, or when all participants have dropped
out (`Lively.due`).

`blocked_only_when_short` puts this together with `phases_aligned`: when nobody can go on, everybody
inside has arrived in the current phase, and some participant that has not is outside.
-/

namespace Bonostl.Barrier

open Interleaving

variable {ι : Type}

namespace Pc

/-- The phase is over, and the thread has still to notify. -/
def telling : Pc → Bool
  | .unlock _ | .notifyAll _ => true
  | _ => false

/-- `count_` has come to 0 and is about to be set again. -/
def resetting : Pc → Bool
  | .complete _ | .resetCount _ => true
  | _ => false

end Pc

/-- The invariant: who is blocked is at the wait, who is about to block has found `generation_`
unchanged, and nobody is left without somebody who will tell it. -/
structure Lively (s : Shared ι) (f : ι → Pc) : Prop where
  waiting : ∀ t ∈ s.arrived, ∃ phase, f t = .wait phase
  current : ∀ t phase, f t = .block phase → s.generation = phase
  told : ∀ t ∈ s.arrived, ∀ phase, f t = .wait phase → s.generation ≠ phase →
    ∃ u, (f u).telling
  due : 0 < s.count ∨ s.expected ≤ 0 ∨ ∃ t, (f t).resetting

variable [DecidableEq ι] {s s' : Shared ι} {f : ι → Pc} {t : ι} {k : Choice} {ev : Event Op Unit}
  {l' : Pc}

/-- A thread that is woken is not on the list any more. -/
theorem step_wake {phase : ℕ} (hs : step t k s (.wait phase) = some (ev, s', l')) :
    l' = .wait phase ∨ t ∉ s.arrived ∧ s'.arrived = s.arrived := by
  unfold step at hs
  cases k with
  | call => cases hs
  | spurious =>
    dsimp only at hs
    split at hs
    all_goals cases hs
    exact .inl rfl
  | run =>
    dsimp only at hs
    split at hs
    · cases hs
    · split at hs
      all_goals cases hs
      exact .inr ⟨‹_›, rfl⟩

/-- Who is on the list after a step was on it before, or has blocked. -/
theorem Move.mem_arrived {l : Pc} (hm : Move t s k ev l s' l') {u : ι} (hu : u ∈ s'.arrived) :
    u ∈ s.arrived ∨ u = t ∧ ∃ phase, l = .block phase ∧ l' = .wait phase := by
  cases hm with
  | block phase => exact (List.mem_cons.mp hu).elim (fun h => .inr ⟨h, phase, rfl, rfl⟩) .inl
  | spurious => exact .inl (List.mem_of_mem_erase hu)
  | notifyAll => cases hu
  | _ => exact .inl hu

theorem Lively.waiting_step (hL : Lively s f) (hs : step t k s (f t) = some (ev, s', l')) :
    ∀ u ∈ s'.arrived, ∃ phase, Function.update f t l' u = .wait phase := by
  intro u hu
  rcases (step_move hs).mem_arrived hu with hold | ⟨rfl, phase, -, rfl⟩
  · obtain ⟨phase, hw⟩ := hL.waiting u hold
    by_cases hut : u = t
    · subst hut
      rw [Function.update_self]
      rw [hw] at hs
      exact ⟨phase, (step_wake hs).resolve_right fun h => h.1 hold⟩
    · rw [Function.update_of_ne hut]
      exact ⟨phase, hw⟩
  · exact ⟨phase, Function.update_self ..⟩

/-- Only the completion of a phase changes the generation, with the mutex held. -/
theorem Move.generation_eq {l : Pc} (hm : Move t s k ev l s' l') :
    s'.generation = s.generation ∨ l.holds = true ∧ l'.telling = true := by
  cases hm with
  | nextGeneration => exact .inr ⟨rfl, rfl⟩
  | _ => exact .inl rfl

theorem Lively.current_step (hL : Lively s f) (hmutex : ∀ u, s.mutex = some u ↔ (f u).holds)
    (hm : Move t s k ev (f t) s' l') (u : ι) (phase : ℕ)
    (hu : Function.update f t l' u = .block phase) : s'.generation = phase := by
  by_cases hut : u = t
  · rw [hut, Function.update_self] at hu
    subst hu
    generalize hpc : Pc.block phase = pc' at hm
    generalize f t = pc at hm
    cases hm with
    | fail phase' hg =>
      cases hpc
      exact hg
    | lock o => cases o <;> cases hpc
    | _ => cases hpc
  · rw [Function.update_of_ne hut] at hu
    rcases hm.generation_eq with he | ⟨hh, -⟩
    · rw [he]
      exact hL.current u phase hu
    · have hu' := (hmutex u).mpr (by rw [hu]; rfl)
      exact absurd (Option.some.inj (hu'.symm.trans ((hmutex t).mpr hh))) hut

/-- **Nobody is left blocked in a phase that is over.** -/
theorem Lively.told_step (hL : Lively s f) (hm : Move t s k ev (f t) s' l') (u : ι)
    (hu : u ∈ s'.arrived) (phase : ℕ) (hw : Function.update f t l' u = .wait phase)
    (hg : s'.generation ≠ phase) : ∃ v, (Function.update f t l' v).telling := by
  have hcurrent := hL.current t
  -- whoever was to notify still is, unless it has just done so
  have hkeep : (∃ v, (f v).telling = true) → ((f t).telling = true → l'.telling = true) →
      ∃ v, (Function.update f t l' v).telling := by
    rintro ⟨v, hv⟩ ht
    refine ⟨v, ?_⟩
    by_cases hvt : v = t
    · rw [hvt, Function.update_self]
      exact ht (hvt ▸ hv)
    · rwa [Function.update_of_ne hvt]
  rcases hm.generation_eq with he | ⟨-, htell⟩
  · rw [he] at hg
    have hmove : (f t).telling = true → l'.telling = true ∨ s'.arrived = [] := by
      intro ht
      generalize f t = pc at hm ht
      cases hm with
      | unlock => exact .inl rfl
      | notifyAll => exact .inr rfl
      | _ => cases ht
    have hmove : (f t).telling = true → l'.telling = true := fun ht =>
      (hmove ht).resolve_right fun hnil => by
        rw [hnil] at hu
        cases hu
    rcases hm.mem_arrived hu with hold | ⟨rfl, phase', hb, rfl⟩
    · by_cases hut : u = t
      · -- a wake-up leaves the thread at its place
        subst hut
        obtain ⟨phase', hw'⟩ := hL.waiting u hold
        rw [Function.update_self] at hw
        have hphase : phase' = phase := by
          have hm' := hm
          rw [hw', hw] at hm'
          cases hm'
          rfl
        exact hkeep (hL.told u hold phase (hphase ▸ hw') hg) hmove
      · rw [Function.update_of_ne hut] at hw
        exact hkeep (hL.told u hold phase hw hg) hmove
    · rw [Function.update_self] at hw
      cases hw
      exact absurd (hcurrent phase hb) hg
  · exact ⟨t, by rwa [Function.update_self]⟩

theorem Lively.due_step (hL : Lively s f) (hm : Move t s k ev (f t) s' l') :
    0 < s'.count ∨ s'.expected ≤ 0 ∨ ∃ u, (Function.update f t l' u).resetting := by
  have hkeep : (∃ v, (f v).resetting = true) → ((f t).resetting = true → l'.resetting = true) →
      ∃ v, (Function.update f t l' v).resetting := by
    rintro ⟨v, hv⟩ ht
    refine ⟨v, ?_⟩
    by_cases hvt : v = t
    · rw [hvt, Function.update_self]
      exact ht (hvt ▸ hv)
    · rwa [Function.update_of_ne hvt]
  have hdue := hL.due
  generalize f t = pc at hm hkeep
  cases hm with
  | countLast | dropLast | complete => exact .inr (.inr ⟨t, by rw [Function.update_self]; rfl⟩)
  | resetCount => exact (lt_or_ge 0 s.expected).imp id .inl
  | dropExpected =>
    rcases hdue with h | h | h
    · exact .inl h
    · exact .inr (.inl (by dsimp only; omega))
    · exact .inr (.inr (hkeep h (by rintro ⟨⟩)))
  | countDown phase hc | dropCount hc =>
    rcases hdue with h | h | h
    · exact .inl (by dsimp only; omega)
    · exact .inr (.inl h)
    · exact .inr (.inr (hkeep h (by rintro ⟨⟩)))
  | _ => exact hdue.imp id (Or.imp id fun h => hkeep h (by rintro ⟨⟩))

theorem Lively.step (hL : Lively s f) (hmutex : ∀ u, s.mutex = some u ↔ (f u).holds)
    (hs : step t k s (f t) = some (ev, s', l')) : Lively s' (Function.update f t l') :=
  ⟨hL.waiting_step hs, hL.current_step hmutex (step_move hs), hL.told_step (step_move hs),
    hL.due_step (step_move hs)⟩

/-! ## Runs -/

/-- Thread `t` can go on with its operation: no call, and no spurious wake-up. -/
def CanGo (c : Config ι (Shared ι) Pc) (t : ι) : Prop :=
  (Barrier.step t .run c.shared (c.loc t)).isSome

/-- The thread is blocked in `arrive_and_wait`. -/
def Blocked (c : Config ι (Shared ι) Pc) (t : ι) : Prop :=
  (∃ phase, c.loc t = .wait phase) ∧ t ∈ c.shared.arrived

section
variable {h : List (Step ι)} {c : Config ι (Shared ι) Pc} {b : Bool}

theorem holds_canGo (ht : (c.loc t).holds) : CanGo c t := by
  unfold CanGo
  generalize c.loc t = pc at ht
  cases pc with
  | idle | lock | notifyAll | wait | done => cases ht
  | _ => rfl

/-- While nobody has the mutex, only a blocked thread cannot go on. -/
theorem canGo_or_blocked (hfree : c.shared.mutex = none) (ht : c.loc t ≠ .idle)
    (hh : (c.loc t).holds = false) : CanGo c t ∨ Blocked c t := by
  generalize hft : c.loc t = pc at ht hh
  cases pc with
  | idle => exact absurd rfl ht
  | lock o => exact .inl (by simp [CanGo, hft, Barrier.step, hfree])
  | wait phase =>
    by_cases hb : t ∈ c.shared.arrived
    · exact .inr ⟨⟨phase, hft⟩, hb⟩
    · exact .inl (by simp [CanGo, hft, Barrier.step, hb, hfree])
  | notifyAll o | done o => exact .inl (by simp [CanGo, hft, Barrier.step])
  | _ => cases hh

variable [Fintype ι]

theorem lively_run (hr : program.Run Disciplined (initial b) h c) : Lively c.shared c.loc := by
  refine hr.induction (I := fun _ c => Lively c.shared c.loc) ?_ fun h c t k ev s l hrun hL _ hs =>
    hL.step (phased_run hrun).aligned.mutex hs
  refine ⟨by simp [initial], by simp [initial], by simp [initial], ?_⟩
  exact (lt_or_ge (0 : ℤ) (Fintype.card ι)).imp id .inl

/-- **Only a missing participant holds the others up.** In every reachable state in which nobody can
go on, each participant that is in an operation is blocked and has arrived in the current phase, and
some participant that has neither arrived in it nor dropped out is in no operation; it has not
called `arrive_and_drop`. -/
theorem blocked_only_when_short (hr : program.Run Disciplined (initial b) h c)
    (hno : ∀ t, ¬ CanGo c t) (ht : c.loc t ≠ .idle) :
    Blocked c t ∧ ArrivedIn h t (phases h) ∧
      ∃ u, c.loc u = .idle ∧ ¬ Dropped h u ∧ ¬ CalledDrop h u ∧ ¬ ArrivedIn h u (phases h) := by
  have hP := phased_run hr
  have hL := lively_run hr
  have hout : ∀ u, (c.loc u).holds = false := fun u =>
    eq_false_of_ne_true fun hu => hno u (holds_canGo hu)
  have hfree : c.shared.mutex = none := by
    by_contra hm
    obtain ⟨u, hu⟩ := Option.ne_none_iff_exists'.mp hm
    exact absurd ((hP.aligned.mutex u).mp hu) (by simp [hout u])
  have hblocked : ∀ u, c.loc u ≠ .idle → Blocked c u := fun u hu =>
    (canGo_or_blocked hfree hu (hout u)).resolve_left (hno u)
  have hholder : holder c.shared c.loc = .idle := by simp [holder, hfree]
  have hgen : c.shared.generation = phases h % 2 ^ 64 := by
    have := hP.aligned.generation
    rwa [hholder] at this
  have hcount : c.shared.count = {u | ¬ Dropped h u ∧ arrivals h u = phases h}.ncard := by
    have := hP.aligned.count
    rwa [hholder] at this
  -- whoever is blocked has arrived in the current phase: nobody is about to tell it of its end
  have harrived : ∀ u, c.loc u ≠ .idle → ¬ Dropped h u ∧ arrivals h u = phases h + 1 := by
    intro u hu
    obtain ⟨⟨phase, hw⟩, hmem⟩ := hblocked u hu
    have hphase : c.shared.generation = phase := by
      by_contra hne
      obtain ⟨v, hv⟩ := hL.told u hmem phase hw hne
      have hidle : c.loc v ≠ .idle := fun he => by
        rw [he] at hv
        cases hv
      obtain ⟨⟨phase', hw'⟩, -⟩ := hblocked v hidle
      rw [hw'] at hv
      cases hv
    have hpl := hP.aligned.place u
    rw [hw] at hpl
    obtain ⟨hD, ha, hpos, he⟩ := hpl
    refine ⟨hD, ha.resolve_left fun ha => ?_⟩
    omega
  obtain ⟨hD, ha⟩ := harrived t ht
  refine ⟨hblocked t ht, (hP.arrived _ _).mpr (by omega), ?_⟩
  have hexp : 0 < c.shared.expected := by
    rw [hP.aligned.expected]
    exact_mod_cast (Set.ncard_pos (Set.toFinite _)).mpr ⟨t, hD⟩
  have hpos : 0 < c.shared.count := by
    rcases hL.due with h | h | ⟨u, hu⟩
    · exact h
    · omega
    · have hhold := hout u
      generalize c.loc u = pc at hu hhold
      cases pc with
      | complete | resetCount => cases hhold
      | _ => cases hu
  rw [hcount] at hpos
  obtain ⟨u, hDu, hau⟩ := (Set.ncard_pos (Set.toFinite _)).mp (by exact_mod_cast hpos)
  have hidle : c.loc u = .idle := by
    by_contra hidle
    have := (harrived u hidle).2
    omega
  refine ⟨u, hidle, hDu, fun hK => ?_, fun harr => ?_⟩
  · rcases dropped_of_called hr u hK with hD' | hl | hl
    · exact hDu hD'
    · rw [hidle] at hl
      cases hl
    · rw [hidle] at hl
      cases hl
  · have := (hP.arrived _ _).mp harr
    omega
end

/-- One of two participants waits, the other has not called. -/
theorem blocked_only_when_short_two :
    ∃ (h : List (Step Bool)) (c : Config Bool (Shared Bool) Pc),
      program.Run Disciplined (initial true) h c ∧ Blocked c false ∧ ArrivedIn h false (phases h) ∧
      ∃ u, c.loc u = .idle ∧ ¬ Dropped h u ∧ ¬ CalledDrop h u ∧ ¬ ArrivedIn h u (phases h) := by
  have he : ((program.exec (fun _ _ k _ => decide (k ≠ .call .arriveAndDrop)) (initial true)
      (turn false .arriveAndWait 5)).any fun c => c.shared.arrived = [false] ∧
        c.loc false = .wait 0 ∧ c.loc true = .idle) = true := by
    decide
  obtain ⟨c, hc, hd⟩ := (Option.any_eq_true _ _).mp he
  obtain ⟨hb, hf, ht⟩ := of_decide_eq_true hd
  obtain ⟨h, hr⟩ := Program.exec_run waitsOnly (fun _ _ _ _ _ _ hk => by simpa [waitsOnly] using hk)
    hc
  have hno : ∀ t, ¬ CanGo c t := by
    rintro (_ | _)
    · simp [CanGo, hf, hb, Barrier.step]
    · simp [CanGo, ht, Barrier.step]
  exact ⟨h, c, waitsOnly_disciplined hr,
    blocked_only_when_short (waitsOnly_disciplined hr) hno (t := false) (by simp [hf])⟩

end Bonostl.Barrier
