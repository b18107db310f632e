import Bonostl.Barrier.Model

/-!
# The phases of a barrier

Each thread of `ι` is a participant: it may call `arrive_and_wait` any number of times, and
`arrive_and_drop` at most once, as its last call (`Disciplined`). The history says which phase it is
(`phases`), who has arrived in a phase (`ArrivedIn`) and who has dropped out of the barrier in which
phase (`DroppedIn`).

`Aligned` ties the three members to this: how often a participant has arrived is determined by the
phase and by its place in the code (`Pc.Ok`), and `count_` and `generation_` are what they should be
up to what the holder of the mutex has not done yet (`CountOk`, `GenerationOk`). A waiter compares
`generation_` with the value it read before it arrived. It can miss no phase, since the next one
cannot be completed without it, so the wrap of `generation_` does no harm (`phases_aligned`),
although the counter itself is not the number of phases for ever (`generation_wraps`).
-/

namespace Bonostl.Barrier

open Interleaving

variable {ι : Type}

/-! ## What the history says -/

namespace Pc

/-- The next step runs the completion function. -/
def completes : Pc → Bool
  | .complete _ => true
  | _ => false

/-- The next step arrives: it decrements `count_`. -/
def arrives : Pc → Bool
  | .countDown _ | .dropCount => true
  | _ => false

/-- The next step drops out: it decrements `expected_`. -/
def drops : Pc → Bool
  | .dropExpected => true
  | _ => false

/-- The thread holds the mutex. -/
def holds : Pc → Bool
  | .idle | .lock _ | .notifyAll _ | .wait _ | .done _ => false
  | _ => true

/-- The thread is in `arrive_and_wait` and has arrived. -/
def waits : Pc → Bool
  | .complete .arriveAndWait | .resetCount .arriveAndWait | .nextGeneration .arriveAndWait
  | .unlock .arriveAndWait | .notifyAll .arriveAndWait | .check _ | .block _ | .wait _
  | .leave .arriveAndWait | .done .arriveAndWait => true
  | _ => false

/-- The thread is in `arrive_and_drop`. -/
def dropping : Pc → Bool
  | .lock .arriveAndDrop | .dropExpected | .dropCount | .complete .arriveAndDrop
  | .resetCount .arriveAndDrop | .nextGeneration .arriveAndDrop | .unlock .arriveAndDrop
  | .notifyAll .arriveAndDrop | .leave .arriveAndDrop | .done .arriveAndDrop => true
  | _ => false

end Pc

/-- The number of completed phases, which is the number of the current one. -/
def phases (h : List (Step ι)) : ℕ := h.countP fun r => (r.pre.loc r.tid).completes

/-- The number of runs of the completion function in phase `g`. -/
def runsIn (g : ℕ) : List (Step ι) → ℕ
  | [] => 0
  | r :: h => runsIn g h +
      if (r.pre.loc r.tid).completes ∧ r.pre.shared.completion ∧ phases h = g then 1 else 0

/-- The number of runs of the completion function. -/
def runs (h : List (Step ι)) : ℕ :=
  h.countP fun r => (r.pre.loc r.tid).completes && r.pre.shared.completion

/-- Participant `t` has arrived in phase `g`. -/
def ArrivedIn : List (Step ι) → ι → ℕ → Prop
  | [], _, _ => False
  | r :: h, t, g => (r.tid = t ∧ (r.pre.loc r.tid).arrives ∧ phases h = g) ∨ ArrivedIn h t g

/-- Participant `t` has dropped out in phase `g`. -/
def DroppedIn : List (Step ι) → ι → ℕ → Prop
  | [], _, _ => False
  | r :: h, t, g => (r.tid = t ∧ (r.pre.loc r.tid).drops ∧ phases h = g) ∨ DroppedIn h t g

/-- Participant `t` has dropped out. -/
def Dropped (h : List (Step ι)) (t : ι) : Prop := ∃ g, DroppedIn h t g

/-- The participants call nothing after `arrive_and_drop`. -/
def Disciplined (h : List (Step ι)) (_ : Config ι (Shared ι) Pc) (t : ι) (k : Choice) : Prop :=
  ∀ o, k = .call o → ∀ r ∈ h, r.tid = t → r.ev ≠ .call .arriveAndDrop

section
variable [DecidableEq ι]

/-- How often participant `t` has arrived. -/
def arrivals (h : List (Step ι)) (t : ι) : ℕ :=
  h.countP fun r => decide (r.tid = t) && (r.pre.loc r.tid).arrives

/-- The phase of `t`'s last arrival. -/
def lastArrival : List (Step ι) → ι → Option ℕ
  | [], _ => none
  | r :: h, t =>
    if r.tid = t ∧ (r.pre.loc r.tid).arrives then some (phases h) else lastArrival h t
end

/-! ## The invariant -/

/-- How often a participant has arrived in phase `p`, and whether it has dropped out. -/
def Pc.Ok (p a : ℕ) (dropped : Prop) : Pc → Prop
  | .idle => dropped ∨ a = p
  | .lock _ | .readPhase | .dropExpected => ¬ dropped ∧ a = p
  | .countDown phase => ¬ dropped ∧ a = p ∧ phase = p % 2 ^ 64
  | .dropCount => dropped ∧ a = p
  | .complete .arriveAndWait => ¬ dropped ∧ a = p + 1
  | .check phase | .block phase | .wait phase =>
    ¬ dropped ∧ (a = p ∨ a = p + 1) ∧ 0 < a ∧ phase = (a - 1) % 2 ^ 64
  | .resetCount .arriveAndWait | .nextGeneration .arriveAndWait | .unlock .arriveAndWait
  | .notifyAll .arriveAndWait | .leave .arriveAndWait | .done .arriveAndWait =>
    ¬ dropped ∧ a = p ∧ 0 < a
  | _ => dropped

/-- `count_`, when `n` participants are still to arrive and the holder of the mutex is at a
place. -/
def CountOk (n : ℕ) (s : Shared ι) : Pc → Prop
  | .dropCount => s.count = n + 1
  | .complete _ => n = 0
  | .resetCount _ => s.expected = n
  | _ => s.count = n

/-- `generation_`, in phase `p`. -/
def GenerationOk (p generation : ℕ) : Pc → Prop
  | .resetCount _ | .nextGeneration _ => ∃ q, p = q + 1 ∧ generation = q % 2 ^ 64
  | _ => generation = p % 2 ^ 64

/-- Where the holder of the mutex is. -/
def holder (s : Shared ι) (f : ι → Pc) : Pc := (s.mutex.map f).getD .idle

/-- **The invariant**: `p` is the phase, `A` the number of arrivals, `D` who has dropped out and `K`
who has called `arrive_and_drop`. -/
structure Aligned (p : ℕ) (A : ι → ℕ) (D K : ι → Prop) (s : Shared ι) (f : ι → Pc) : Prop where
  mutex : ∀ t, s.mutex = some t ↔ (f t).holds
  expected : s.expected = {t | ¬ D t}.ncard
  count : CountOk {t | ¬ D t ∧ A t = p}.ncard s (holder s f)
  generation : GenerationOk p s.generation (holder s f)
  place : ∀ t, (f t).Ok p (A t) (D t)
  called : ∀ t, D t ∨ (f t).dropping → K t

section
variable [DecidableEq ι] {p : ℕ} {A : ι → ℕ} {D K : ι → Prop} {s s' : Shared ι} {f : ι → Pc} {t : ι}
  {l' : Pc}

theorem holder_self (ht : s.mutex = some t) : holder s (Function.update f t l') = l' := by
  simp [holder, ht]

theorem holder_other (ht : s.mutex ≠ some t) :
    holder s (Function.update f t l') = holder s f := by
  unfold holder
  cases hm : s.mutex with
  | none => rfl
  | some u =>
    have hut : u ≠ t := fun e => ht (by rw [hm, e])
    simp [hut]

/-- One participant less. -/
theorem ncard_less [Finite ι] {P Q : ι → Prop} (hP : P t) (hQ : ¬ Q t)
    (hPQ : ∀ u, u ≠ t → (Q u ↔ P u)) : {u | P u}.ncard = {u | Q u}.ncard + 1 := by
  have hset : {u | Q u} = {u | P u} \ {t} := by
    ext u
    by_cases hut : u = t
    · subst hut; simp [hQ]
    · simp [hut, hPQ u hut]
  rw [hset, Set.ncard_sdiff_singleton_add_one (show t ∈ {u | P u} from hP) (Set.toFinite _)]

/-- A participant that has not dropped out arrives. -/
theorem ncard_arrive [Finite ι] (hD : ¬ D t) (hA : A t = p) :
    {u | ¬ D u ∧ A u = p}.ncard = {u | ¬ D u ∧ (A u + if u = t then 1 else 0) = p}.ncard + 1 := by
  refine ncard_less ⟨hD, hA⟩ ?_ fun u hu => by simp [hu]
  simp [hA]

/-- A participant that has dropped out is not counted. -/
theorem ncard_dropped (hD : D t) :
    {u | ¬ D u ∧ (A u + if u = t then 1 else 0) = p}.ncard = {u | ¬ D u ∧ A u = p}.ncard := by
  congr 1
  ext u
  by_cases hu : u = t
  · subst hu; simp [hD]
  · simp [hu]

/-! The four ways a step stands to the mutex: what it leaves of `Aligned.mutex`, and where the
holder of the mutex is before and after it. -/

theorem Aligned.inside (h : Aligned p A D K s f) (s' : Shared ι) (l' : Pc) (ht : (f t).holds = true)
    (hs : s'.mutex = s.mutex) (hl : l'.holds = true) :
    (∀ u, s'.mutex = some u ↔ (Function.update f t l' u).holds) ∧
      holder s' (Function.update f t l') = l' ∧ holder s f = f t := by
  have hm := (h.mutex t).mpr ht
  refine ⟨fun u => ?_, holder_self (hs.trans hm), by simp [holder, hm]⟩
  by_cases hut : u = t
  · subst hut; simp [hs, hm, hl]
  · rw [Function.update_of_ne hut, hs, h.mutex u]

theorem Aligned.taken (h : Aligned p A D K s f) (s' : Shared ι) (l' : Pc) (hm : s.mutex = none)
    (hs : s'.mutex = some t) (hl : l'.holds = true) :
    (∀ u, s'.mutex = some u ↔ (Function.update f t l' u).holds) ∧
      holder s' (Function.update f t l') = l' ∧ holder s f = .idle := by
  refine ⟨fun u => ?_, holder_self hs, by simp [holder, hm]⟩
  by_cases hut : u = t
  · subst hut; simp [hs, hl]
  · rw [Function.update_of_ne hut, ← h.mutex u, hs, hm]
    simp [Ne.symm hut]

theorem Aligned.released (h : Aligned p A D K s f) (s' : Shared ι) (l' : Pc)
    (ht : (f t).holds = true) (hs : s'.mutex = none) (hl : l'.holds = false) :
    (∀ u, s'.mutex = some u ↔ (Function.update f t l' u).holds) ∧
      holder s' (Function.update f t l') = .idle ∧ holder s f = f t := by
  have hm := (h.mutex t).mpr ht
  refine ⟨fun u => ?_, by simp [holder, hs], by simp [holder, hm]⟩
  by_cases hut : u = t
  · subst hut; simp [hs, hl]
  · rw [Function.update_of_ne hut, ← h.mutex u, hs, hm]
    simp [Ne.symm hut]

theorem Aligned.outside (h : Aligned p A D K s f) (s' : Shared ι) (l' : Pc)
    (ht : (f t).holds = false)
    (hs : s'.mutex = s.mutex) (hl : l'.holds = false) :
    (∀ u, s'.mutex = some u ↔ (Function.update f t l' u).holds) ∧
      holder s' (Function.update f t l') = holder s f := by
  have hm : s.mutex ≠ some t := fun e => by simp [(h.mutex t).mp e] at ht
  refine ⟨fun u => ?_, ?_⟩
  · by_cases hut : u = t
    · subst hut; simp [hs, hm, hl]
    · rw [Function.update_of_ne hut, hs, h.mutex u]
  · rw [holder_other (hs ▸ hm)]
    simp [holder, hs]

omit [DecidableEq ι] in
/-- A participant that has not dropped out is at most one arrival ahead of the phase. -/
theorem Pc.Ok.arrived {pc : Pc} {a : ℕ} {d : Prop} (h : pc.Ok p a d) (hd : ¬ d) :
    a = p ∨ a = p + 1 := by
  unfold Pc.Ok at h
  split at h <;> simp_all

omit [DecidableEq ι] in
/-- Neither is one that waits ahead by more, nor behind. -/
theorem Pc.Ok.waits {pc : Pc} {a : ℕ} {d : Prop} (h : pc.Ok p a d) (hw : pc.waits = true) :
    0 < a ∧ (a = p ∨ a = p + 1) := by
  cases pc with
  | check phase | block phase | wait phase => exact ⟨h.2.2.1, h.2.1⟩
  | complete o =>
    cases o with
    | arriveAndWait => exact ⟨by rw [h.2]; exact Nat.succ_pos p, .inr h.2⟩
    | arriveAndDrop => cases hw
  | resetCount o | nextGeneration o | unlock o | notifyAll o | leave o | done o =>
    cases o with
    | arriveAndWait => exact ⟨h.2.2, .inl h.2.1⟩
    | arriveAndDrop => cases hw
  | _ => cases hw

omit [DecidableEq ι] in
/-- Once everybody has arrived, the places fit the next phase. -/
theorem Pc.Ok.next {pc : Pc} {a : ℕ} {d : Prop} (h : pc.Ok p a d) (hh : pc.holds = false)
    (ha : ¬ d → a ≠ p) : pc.Ok (p + 1) a d := by
  cases pc with
  | idle =>
    refine .inl ?_
    by_contra hd
    exact ha hd (h.resolve_left hd)
  | lock o => exact absurd h.2 (ha h.1)
  | wait phase => exact ⟨h.1, .inl (h.2.1.resolve_left (ha h.1)), h.2.2⟩
  | notifyAll o | done o =>
    cases o with
    | arriveAndWait => exact absurd h.2.1 (ha h.1)
    | arriveAndDrop => exact h
  | _ => cases hh

/-- What a step keeps for the other threads, and for its own. -/
theorem place_set {p' : ℕ} {A' : ι → ℕ} {D' : ι → Prop} (ht : l'.Ok p' (A' t) (D' t))
    (hu : ∀ u, u ≠ t → (f u).Ok p' (A' u) (D' u)) :
    ∀ u, (Function.update f t l' u).Ok p' (A' u) (D' u) := by
  intro u
  by_cases hut : u = t
  · subst hut; rwa [Function.update_self]
  · rw [Function.update_of_ne hut]; exact hu u hut

theorem Aligned.called_set (h : Aligned p A D K s f) (K' : ι → Prop) (hK : ∀ u, K u → K' u)
    (hdrop : l'.dropping → K' t) : ∀ u, D u ∨ (Function.update f t l' u).dropping → K' u := by
  rintro u (hD | hd)
  · exact hK u (h.called u (.inl hD))
  · by_cases hut : u = t
    · subst hut
      rw [Function.update_self] at hd
      exact hdrop hd
    · rw [Function.update_of_ne hut] at hd
      exact hK u (h.called u (.inr hd))

/-- A step that neither arrives nor drops nor completes a phase. -/
theorem Aligned.goto {K' : ι → Prop} (h : Aligned p A D K s f)
    (hmutex : ∀ u, s'.mutex = some u ↔ (Function.update f t l' u).holds) {q : Pc}
    (hholder : holder s' (Function.update f t l') = q) (hexp : s'.expected = s.expected)
    (hcount : CountOk {t | ¬ D t ∧ A t = p}.ncard s' q) (hgen : GenerationOk p s'.generation q)
    (hplace : l'.Ok p (A t) (D t)) (hK : ∀ u, K u → K' u) (hdrop : l'.dropping → K' t)
    (hq : (f t).completes = false ∧ (f t).arrives = false ∧ (f t).drops = false) :
    Aligned (p + if (f t).completes then 1 else 0)
      (fun u => A u + if u = t ∧ (f t).arrives then 1 else 0)
      (fun u => D u ∨ u = t ∧ (f t).drops) K' s' (Function.update f t l') := by
  simp only [hq.1, hq.2.1, hq.2.2, Bool.false_eq_true, and_false, if_false, or_false, Nat.add_zero]
  exact ⟨hmutex, hexp.trans h.expected, hholder ▸ hcount, hholder ▸ hgen,
    place_set hplace fun u _ => h.place u, h.called_set _ hK hdrop⟩

/-- A step that arrives. -/
theorem Aligned.arrive {K' : ι → Prop} (h : Aligned p A D K s f)
    (hq : (f t).completes = false ∧ (f t).arrives = true ∧ (f t).drops = false)
    (hmutex : ∀ u, s'.mutex = some u ↔ (Function.update f t l' u).holds) {q : Pc}
    (hholder : holder s' (Function.update f t l') = q) (hexp : s'.expected = s.expected)
    (hcount : CountOk {u | ¬ D u ∧ (A u + if u = t then 1 else 0) = p}.ncard s' q)
    (hgen : GenerationOk p s'.generation q) (hplace : l'.Ok p (A t + 1) (D t))
    (hK : ∀ u, K u → K' u) (hdrop : l'.dropping → K' t) :
    Aligned (p + if (f t).completes then 1 else 0)
      (fun u => A u + if u = t ∧ (f t).arrives then 1 else 0)
      (fun u => D u ∨ u = t ∧ (f t).drops) K' s' (Function.update f t l') := by
  simp only [hq.1, hq.2.1, hq.2.2, Bool.false_eq_true, and_false, and_true, if_false, or_false,
    Nat.add_zero]
  refine ⟨hmutex, hexp.trans h.expected, hholder ▸ hcount, hholder ▸ hgen,
    place_set (by simpa using hplace) fun u hu => by simpa [hu] using h.place u, ?_⟩
  exact h.called_set _ hK hdrop

/-- **A step keeps the invariant.** -/
theorem Aligned.move [Finite ι] (h : Aligned p A D K s f) {k : Choice} {ev : Event Op Unit}
    (hm : Move t s k ev (f t) s' l') (hok : ∀ o, k = .call o → ¬ K t) :
    Aligned (p + if (f t).completes then 1 else 0)
      (fun u => A u + if u = t ∧ (f t).arrives then 1 else 0)
      (fun u => D u ∨ u = t ∧ (f t).drops)
      (fun u => K u ∨ u = t ∧ ev = .call .arriveAndDrop) s' (Function.update f t l') := by
  have hpl := h.place t
  have hcalled : (f t).dropping → K t := fun hd => h.called t (.inr hd)
  have hcnt := h.count
  have hgen := h.generation
  generalize hft : f t = pc at hm
  rw [hft] at hpl hcalled
  rw [← hft]
  cases hm with
  | call o =>
    obtain ⟨h1, h2⟩ := h.outside s (.lock o) (by rw [hft]; rfl) rfl rfl
    have hD : ¬ D t := fun hD => hok o rfl (h.called t (.inl hD))
    refine h.goto h1 h2 rfl hcnt hgen ⟨hD, hpl.resolve_left hD⟩ (fun u => .inl)
      (fun hd => .inr ⟨rfl, ?_⟩) (by rw [hft]; exact ⟨rfl, rfl, rfl⟩)
    cases o with
    | arriveAndWait => cases hd
    | arriveAndDrop => rfl
  | lock o hm =>
    obtain ⟨h1, h2, h3⟩ := h.taken { s with mutex := some t } o.begin hm rfl
      (by cases o <;> rfl)
    rw [h3] at hcnt hgen
    refine h.goto h1 h2 rfl ?_ ?_ ?_ (fun u => .inl) (fun hd => .inl (hcalled ?_))
      (by rw [hft]; exact ⟨rfl, rfl, rfl⟩)
    · cases o <;> exact hcnt
    · cases o <;> exact hgen
    · cases o <;> exact hpl
    · cases o with
      | arriveAndWait => cases hd
      | arriveAndDrop => rfl
  | readPhase =>
    obtain ⟨h1, h2, h3⟩ := h.inside s (.countDown s.generation) (by rw [hft]; rfl) rfl rfl
    rw [h3, hft] at hcnt hgen
    exact h.goto h1 h2 rfl hcnt hgen ⟨hpl.1, hpl.2, hgen⟩ (fun u => .inl) nofun
      (by rw [hft]; exact ⟨rfl, rfl, rfl⟩)
  | resetCount o =>
    obtain ⟨h1, h2, h3⟩ := h.inside { s with count := s.expected } (.nextGeneration o)
      (by rw [hft]; rfl) rfl rfl
    rw [h3, hft] at hcnt hgen
    refine h.goto h1 h2 rfl hcnt hgen ?_ (fun u => .inl) (fun hd => .inl (hcalled ?_))
      (by rw [hft]; exact ⟨rfl, rfl, rfl⟩)
    · cases o <;> exact hpl
    · cases o <;> exact hd
  | nextGeneration o =>
    obtain ⟨h1, h2, h3⟩ := h.inside { s with generation := (s.generation + 1) % 2 ^ 64 }
      (.unlock o) (by rw [hft]; rfl) rfl rfl
    rw [h3, hft] at hcnt hgen
    obtain ⟨q, hq, hg⟩ := hgen
    refine h.goto h1 h2 rfl hcnt ?_ ?_ (fun u => .inl) (fun hd => .inl (hcalled ?_))
      (by rw [hft]; exact ⟨rfl, rfl, rfl⟩)
    · show (s.generation + 1) % 2 ^ 64 = p % 2 ^ 64
      omega
    · cases o <;> exact hpl
    · cases o <;> exact hd
  | unlock o =>
    obtain ⟨h1, h2, h3⟩ := h.released { s with mutex := none } (.notifyAll o)
      (by rw [hft]; rfl) rfl rfl
    rw [h3, hft] at hcnt hgen
    refine h.goto h1 h2 rfl hcnt hgen ?_ (fun u => .inl) (fun hd => .inl (hcalled ?_))
      (by rw [hft]; exact ⟨rfl, rfl, rfl⟩)
    · cases o <;> exact hpl
    · cases o <;> exact hd
  | notifyAll o =>
    obtain ⟨h1, h2⟩ := h.outside { s with arrived := [] } (.done o) (by rw [hft]; rfl)
      rfl rfl
    refine h.goto h1 h2 rfl hcnt hgen ?_ (fun u => .inl) (fun hd => .inl (hcalled ?_))
      (by rw [hft]; exact ⟨rfl, rfl, rfl⟩)
    · cases o <;> exact hpl
    · cases o <;> exact hd
  | pass phase hg =>
    obtain ⟨h1, h2, h3⟩ := h.inside s (.leave .arriveAndWait) (by rw [hft]; rfl) rfl rfl
    rw [h3, hft] at hcnt hgen
    obtain ⟨hD, ha, hpos, rfl⟩ := hpl
    refine h.goto h1 h2 rfl hcnt hgen ⟨hD, ha.resolve_right fun e => hg ?_, hpos⟩
      (fun u => .inl) nofun (by rw [hft]; exact ⟨rfl, rfl, rfl⟩)
    rw [e, Nat.add_sub_cancel]
    exact hgen
  | fail phase hg =>
    obtain ⟨h1, h2, h3⟩ := h.inside s (.block phase) (by rw [hft]; rfl) rfl rfl
    rw [h3, hft] at hcnt hgen
    exact h.goto h1 h2 rfl hcnt hgen hpl (fun u => .inl) nofun
      (by rw [hft]; exact ⟨rfl, rfl, rfl⟩)
  | block phase =>
    obtain ⟨h1, h2, h3⟩ := h.released { s with mutex := none, arrived := t :: s.arrived }
      (.wait phase) (by rw [hft]; rfl) rfl rfl
    rw [h3, hft] at hcnt hgen
    exact h.goto h1 h2 rfl hcnt hgen hpl (fun u => .inl) nofun
      (by rw [hft]; exact ⟨rfl, rfl, rfl⟩)
  | spurious phase =>
    obtain ⟨h1, h2⟩ := h.outside { s with arrived := s.arrived.erase t } (.wait phase)
      (by rw [hft]; rfl) rfl rfl
    exact h.goto h1 h2 rfl hcnt hgen hpl (fun u => .inl) nofun
      (by rw [hft]; exact ⟨rfl, rfl, rfl⟩)
  | wake phase hm =>
    obtain ⟨h1, h2, h3⟩ := h.taken { s with mutex := some t } (.check phase) hm rfl rfl
    rw [h3] at hcnt hgen
    exact h.goto h1 h2 rfl hcnt hgen hpl (fun u => .inl) nofun
      (by rw [hft]; exact ⟨rfl, rfl, rfl⟩)
  | leave o =>
    obtain ⟨h1, h2, h3⟩ := h.released { s with mutex := none } (.done o)
      (by rw [hft]; rfl) rfl rfl
    rw [h3, hft] at hcnt hgen
    refine h.goto h1 h2 rfl hcnt hgen ?_ (fun u => .inl) (fun hd => .inl (hcalled ?_))
      (by rw [hft]; exact ⟨rfl, rfl, rfl⟩)
    · cases o <;> exact hpl
    · cases o <;> exact hd
  | ret o =>
    obtain ⟨h1, h2⟩ := h.outside s .idle (by rw [hft]; rfl) rfl rfl
    refine h.goto h1 h2 rfl hcnt hgen ?_ (fun u => .inl) nofun
      (by rw [hft]; exact ⟨rfl, rfl, rfl⟩)
    cases o with
    | arriveAndWait => exact .inr hpl.2.1
    | arriveAndDrop => exact .inl hpl
  | countDown phase hc =>
    obtain ⟨h1, h2, h3⟩ := h.inside { s with count := s.count - 1 } (.check phase)
      (by rw [hft]; rfl) rfl rfl
    rw [h3, hft] at hcnt hgen
    have hn := ncard_arrive hpl.1 hpl.2.1
    refine h.arrive (by rw [hft]; exact ⟨rfl, rfl, rfl⟩) h1 h2 rfl ?_ hgen ?_ (fun u => .inl) nofun
    · show s.count - 1 = _
      rw [(show s.count = _ from hcnt), hn]
      simp
    · exact ⟨hpl.1, .inr (by rw [hpl.2.1]), Nat.succ_pos _, by rw [hpl.2.1]; exact hpl.2.2⟩
  | countLast phase hc =>
    obtain ⟨h1, h2, h3⟩ := h.inside { s with count := s.count - 1 }
      (.complete .arriveAndWait) (by rw [hft]; rfl) rfl rfl
    rw [h3, hft] at hcnt hgen
    have hn := ncard_arrive hpl.1 hpl.2.1
    refine h.arrive (by rw [hft]; exact ⟨rfl, rfl, rfl⟩) h1 h2 rfl ?_ hgen ?_ (fun u => .inl) nofun
    · show _ = 0
      have hc' : s.count = _ := hcnt
      omega
    · exact ⟨hpl.1, by rw [hpl.2.1]⟩
  | dropCount hc =>
    obtain ⟨h1, h2, h3⟩ := h.inside { s with count := s.count - 1 }
      (.leave .arriveAndDrop) (by rw [hft]; rfl) rfl rfl
    rw [h3, hft] at hcnt hgen
    refine h.arrive (by rw [hft]; exact ⟨rfl, rfl, rfl⟩) h1 h2 rfl ?_ hgen hpl.1 (fun u => .inl)
      fun _ => .inl (hcalled rfl)
    show s.count - 1 = _
    rw [ncard_dropped hpl.1, (show s.count = _ from hcnt)]
    simp
  | dropLast hc =>
    obtain ⟨h1, h2, h3⟩ := h.inside { s with count := s.count - 1 }
      (.complete .arriveAndDrop) (by rw [hft]; rfl) rfl rfl
    rw [h3, hft] at hcnt hgen
    refine h.arrive (by rw [hft]; exact ⟨rfl, rfl, rfl⟩) h1 h2 rfl ?_ hgen hpl.1 (fun u => .inl)
      fun _ => .inl (hcalled rfl)
    show _ = 0
    have hc' : s.count = _ := hcnt
    rw [ncard_dropped hpl.1]
    omega
  | dropExpected =>
    obtain ⟨h1, h2, h3⟩ := h.inside { s with expected := s.expected - 1 }
      .dropCount (by rw [hft]; rfl) rfl rfl
    rw [h3, hft] at hcnt hgen
    rw [hft]
    simp only [Pc.completes, Pc.arrives, Pc.drops, Bool.false_eq_true, and_false, and_true,
      if_false, Nat.add_zero]
    refine ⟨h1, ?_, ?_, by rw [h2]; exact hgen,
      place_set ⟨.inr rfl, hpl.2⟩ fun u hu => ?_, ?_⟩
    · have hn : {u | ¬ D u}.ncard = {u | ¬ (D u ∨ u = t)}.ncard + 1 :=
        ncard_less hpl.1 (by simp) fun u hu => by simp [hu]
      show s.expected - 1 = _
      rw [h.expected, hn]
      simp
    · have hn : {u | ¬ D u ∧ A u = p}.ncard = {u | ¬ (D u ∨ u = t) ∧ A u = p}.ncard + 1 :=
        ncard_less hpl (by simp) fun u hu => by simp [hu]
      rw [h2]
      show s.count = _
      rw [(show s.count = _ from hcnt), hn]
      simp
    · simpa [hu] using h.place u
    · rintro u (hD | hd)
      · rcases hD with hD | rfl
        · exact .inl (h.called u (.inl hD))
        · exact .inl (hcalled rfl)
      · exact h.called_set (fun u => K u ∨ _) (fun _ => .inl) (fun _ => .inl (hcalled rfl)) u
          (.inr hd)
  | complete o =>
    obtain ⟨h1, h2, h3⟩ := h.inside s (.resetCount o) (by rw [hft]; rfl) rfl rfl
    rw [h3, hft] at hcnt hgen
    -- everybody who has not dropped out has arrived
    have hall : ∀ u, ¬ D u → A u ≠ p := by
      intro u hD hA
      have hempty := (Set.ncard_eq_zero (Set.toFinite _)).mp hcnt
      have hu : u ∈ {u | ¬ D u ∧ A u = p} := ⟨hD, hA⟩
      rw [hempty] at hu
      exact hu
    have hnext : ∀ u, ¬ D u → A u = p + 1 := by
      intro u hD
      exact ((h.place u).arrived hD).resolve_left (hall u hD)
    rw [hft]
    simp only [Pc.completes, Pc.arrives, Pc.drops, Bool.false_eq_true, and_false, if_false, if_true,
      or_false, Nat.add_zero]
    refine ⟨h1, h.expected, ?_, by rw [h2]; exact ⟨p, rfl, hgen⟩,
      place_set ?_ fun u hu => ?_, h.called_set _ (fun _ => .inl) fun hd => .inl (hcalled ?_)⟩
    · rw [h2]
      show s.expected = _
      rw [h.expected]
      congr 2
      ext u
      simp only [Set.mem_ofPred_eq]
      exact ⟨fun hD => ⟨hD, hnext u hD⟩, fun hD => hD.1⟩
    · cases o with
      | arriveAndWait => exact ⟨hpl.1, hpl.2, by rw [hpl.2]; exact Nat.succ_pos p⟩
      | arriveAndDrop => exact hpl
    · refine (h.place u).next ?_ (hall u)
      have hm := (h.mutex t).mpr (by rw [hft]; rfl)
      by_contra hh
      have := (h.mutex u).mpr (by simpa using hh)
      rw [hm] at this
      exact hu (Option.some.inj this).symm
    · cases o <;> exact hd
end

/-! ## Runs -/

/-- Participant `t` has called `arrive_and_drop`. -/
def CalledDrop (h : List (Step ι)) (t : ι) : Prop :=
  ∃ r ∈ h, r.tid = t ∧ r.ev = .call .arriveAndDrop

/-- What holds of a run and its history. -/
structure Phased [DecidableEq ι] (b : Bool) (h : List (Step ι)) (c : Config ι (Shared ι) Pc) :
    Prop where
  aligned : Aligned (phases h) (arrivals h) (Dropped h) (CalledDrop h) c.shared c.loc
  completion : c.shared.completion = b
  ahead : ∀ t, arrivals h t ≤ phases h + 1
  arrived : ∀ t g, ArrivedIn h t g ↔ g < arrivals h t
  last : ∀ t g, lastArrival h t = some g ↔ arrivals h t = g + 1
  dropped : ∀ t g, DroppedIn h t g → c.loc t = .dropCount ∧ arrivals h t = g ∨
    c.loc t ≠ .dropCount ∧ arrivals h t = g + 1
  ran : runs h = if b then phases h else 0
  ranIn : ∀ g, runsIn g h = if b ∧ g < phases h then 1 else 0

section
variable [DecidableEq ι] {h : List (Step ι)} {c : Config ι (Shared ι) Pc} {t : ι} {k : Choice}
  {ev : Event Op Unit} {s : Shared ι} {l : Pc} {b : Bool}

omit [DecidableEq ι] in
theorem phases_cons (r : Step ι) (h : List (Step ι)) :
    phases (r :: h) = phases h + if (r.pre.loc r.tid).completes then 1 else 0 := by
  simp [phases, List.countP_cons]

theorem arrivals_cons (r : Step ι) (h : List (Step ι)) (t : ι) :
    arrivals (r :: h) t =
      arrivals h t + if t = r.tid ∧ (r.pre.loc r.tid).arrives then 1 else 0 := by
  simp [arrivals, List.countP_cons, @eq_comm _ t]

omit [DecidableEq ι] in
theorem dropped_cons (r : Step ι) (h : List (Step ι)) (t : ι) :
    Dropped (r :: h) t ↔ Dropped h t ∨ t = r.tid ∧ (r.pre.loc r.tid).drops := by
  constructor
  · rintro ⟨g, ⟨rfl, hd, -⟩ | hd⟩
    · exact .inr ⟨rfl, hd⟩
    · exact .inl ⟨g, hd⟩
  · rintro (⟨g, hd⟩ | ⟨rfl, hd⟩)
    · exact ⟨g, .inr hd⟩
    · exact ⟨phases h, .inl ⟨rfl, hd, rfl⟩⟩

omit [DecidableEq ι] in
theorem calledDrop_cons (r : Step ι) (h : List (Step ι)) (t : ι) :
    CalledDrop (r :: h) t ↔ CalledDrop h t ∨ t = r.tid ∧ r.ev = .call .arriveAndDrop := by
  simp only [CalledDrop, List.mem_cons, exists_eq_or_imp]
  constructor
  · rintro (⟨rfl, he⟩ | he)
    · exact .inr ⟨rfl, he⟩
    · exact .inl he
  · rintro (he | ⟨rfl, he⟩)
    · exact .inr he
    · exact .inl ⟨rfl, he⟩

omit [DecidableEq ι] in
/-- Who arrives has arrived in every phase before, and completes none in the same step. -/
theorem Aligned.arrives {p : ℕ} {A : ι → ℕ} {D K : ι → Prop} {s : Shared ι} {f : ι → Pc}
    (h : Aligned p A D K s f) (ha : (f t).arrives) : A t = p ∧ (f t).completes = false := by
  have hpl := h.place t
  generalize f t = pc at ha hpl
  cases pc with
  | countDown phase => exact ⟨hpl.2.1, rfl⟩
  | dropCount => exact ⟨hpl.2, rfl⟩
  | _ => cases ha

/-- A dropped participant comes to `dropCount` no more. -/
theorem Move.drops_once {p a : ℕ} {d : Prop} {s' : Shared ι} {l' : Pc} (hm : Move t s k ev l s' l')
    (hpl : l.Ok p a d) (hd : d) (hl : l ≠ .dropCount) :
    l' ≠ .dropCount ∧ l.arrives = false ∧ l.drops = false := by
  cases hm with
  | dropExpected => exact absurd hd hpl.1
  | countDown phase hc | countLast phase hc => exact absurd hd hpl.1
  | dropCount hc | dropLast hc => exact absurd rfl hl
  | lock o => cases o <;> exact ⟨nofun, rfl, rfl⟩
  | _ => exact ⟨nofun, rfl, rfl⟩

theorem Phased.step [Finite ι] (hP : Phased b h c) (hok : Disciplined h c t k)
    (hm : Move t c.shared k ev (c.loc t) s l) :
    Phased b (⟨t, ev, c, c.set t s l⟩ :: h) (c.set t s l) := by
  have hal := hP.aligned.move hm fun o ho hK => by
    obtain ⟨r, hr, hrt, hev⟩ := hK
    exact hok o ho r hr hrt hev
  have harr : ∀ u, u = t ∧ (c.loc t).arrives → arrivals h u = phases h := by
    rintro u ⟨rfl, ha⟩
    exact (hP.aligned.arrives ha).1
  refine ⟨?_, ?_, fun u => ?_, fun u g => ?_, fun u g => ?_, fun u g hd => ?_, ?_, fun g => ?_⟩
  · rw [phases_cons, funext (arrivals_cons _ h),
      show Dropped _ = _ from funext fun u => propext (dropped_cons _ h u),
      show CalledDrop _ = _ from funext fun u => propext (calledDrop_cons _ h u)]
    exact hal
  · rw [Config.set_shared, ← hP.completion]
    generalize c.loc t = pc at hm
    cases hm <;> rfl
  · have hu := hP.ahead u
    rw [phases_cons, arrivals_cons]
    dsimp only
    split
    · rw [harr u ‹_›]
      omega
    · omega
  · rw [arrivals_cons, ArrivedIn, hP.arrived u g]
    dsimp only
    by_cases ha : u = t ∧ (c.loc t).arrives
    · rw [if_pos ha, harr u ha]
      simp only [ha.1, ha.2, true_and]
      omega
    · rw [if_neg ha, or_iff_right fun e => ha ⟨e.1.symm, e.2.1⟩, Nat.add_zero]
  · rw [arrivals_cons, lastArrival]
    dsimp only
    by_cases ha : u = t ∧ (c.loc t).arrives
    · rw [if_pos ha, if_pos ⟨ha.1.symm, ha.2⟩, harr u ha]
      simp
    · rw [if_neg ha, if_neg fun e => ha ⟨e.1.symm, e.2⟩, hP.last u g]
      simp
  · rw [arrivals_cons]
    dsimp only
    by_cases hut : u = t
    · subst hut
      rw [Config.set_loc_self]
      have hpl := hP.aligned.place u
      rcases hd with ⟨-, hd, rfl⟩ | hd
      · dsimp only at hd
        generalize c.loc u = pc at hm hd hpl
        cases hm with
        | dropExpected => exact .inl ⟨rfl, by rw [hpl.2]; simp [Pc.arrives]⟩
        | _ => cases hd
      · rcases hP.dropped u g hd with ⟨hpc, hA⟩ | ⟨hpc, hA⟩
        · rw [hpc] at hm ⊢
          refine .inr ⟨?_, by rw [hA]; simp [Pc.arrives]⟩
          cases hm <;> nofun
        · obtain ⟨h1, h2, -⟩ := hm.drops_once hpl ⟨g, hd⟩ hpc
          exact .inr ⟨h1, by rw [hA, h2]; simp⟩
    · rw [Config.set_loc_ne c hut, if_neg fun e => hut e.1, Nat.add_zero]
      exact hP.dropped u g (hd.resolve_left fun e => hut e.1.symm)
  · rw [phases_cons, runs, List.countP_cons, ← runs, hP.ran]
    dsimp only
    rw [hP.completion]
    cases b <;> cases (c.loc t).completes <;> simp
  · rw [phases_cons, runsIn, hP.ranIn g]
    dsimp only
    rw [hP.completion]
    cases b
    · simp
    · cases (c.loc t).completes
      · simp
      · simp only [true_and, if_true]
        split_ifs <;> omega

theorem phased_run [Fintype ι] (hr : program.Run Disciplined (initial b) h c) : Phased b h c := by
  refine hr.induction (I := fun h c => Phased b h c) ?_ fun h c t k ev s l _ ih hok hs =>
    ih.step hok (step_move hs)
  have hno : ∀ t, ¬ Dropped ([] : List (Step ι)) t := fun t ⟨g, hg⟩ => hg
  have hcard : ({t | ¬ Dropped ([] : List (Step ι)) t}.ncard : ℤ) = Fintype.card ι := by
    rw [show {t | ¬ Dropped ([] : List (Step ι)) t} = Set.univ from Set.eq_univ_of_forall hno,
      Set.ncard_univ, Nat.card_eq_fintype_card]
  refine ⟨⟨by simp [initial, Pc.holds], hcard.symm, ?_, rfl, fun t => .inr rfl, ?_⟩, rfl,
    fun t => Nat.zero_le _, fun t g => ?_, fun t g => ?_, nofun, ?_, fun g => ?_⟩
  · show (Fintype.card ι : ℤ) = _
    rw [← hcard]
    simp [arrivals, phases]
  · rintro t (hD | hd)
    · exact absurd hD (hno t)
    · cases hd
  · simp [ArrivedIn, arrivals]
  · simp [lastArrival, arrivals]
  · simp [runs, phases]
  · simp [runsIn, phases]

omit [DecidableEq ι] in
/-- A thread that has called `arrive_and_drop` comes to drop out. -/
theorem Move.drop_due [DecidableEq ι] {s' : Shared ι} {l' : Pc} (hm : Move t s k ev l s' l') :
    (ev = .call .arriveAndDrop → l' = .lock .arriveAndDrop) ∧
      (l = .lock .arriveAndDrop → l' = .dropExpected) ∧ (l = .dropExpected → l.drops = true) := by
  refine ⟨fun he => ?_, fun hl => ?_, fun hl => by rw [hl]; rfl⟩
  · cases hm <;> cases he
    rfl
  · cases hm <;> cases hl
    rfl

/-- Who has called `arrive_and_drop` has dropped out, or is about to. -/
theorem dropped_of_called {ok : List (Step ι) → Config ι (Shared ι) Pc → ι → Choice → Prop}
    {c₀ : Config ι (Shared ι) Pc} (hr : program.Run ok c₀ h c) (t : ι) (hK : CalledDrop h t) :
    Dropped h t ∨ c.loc t = .lock .arriveAndDrop ∨ c.loc t = .dropExpected := by
  induction hr with
  | nil =>
    obtain ⟨r, hr, -⟩ := hK
    cases hr
  | @cons h c u k ev s l _ _ hs ih =>
    obtain ⟨hcall, hlock, hdrop⟩ := (step_move hs).drop_due
    rw [dropped_cons]
    by_cases htu : t = u
    · subst htu
      rw [Config.set_loc_self]
      rcases (calledDrop_cons _ _ _).mp hK with hK | ⟨-, he⟩
      · rcases ih hK with hd | hl | hl
        · exact .inl (.inl hd)
        · exact .inr (.inr (hlock hl))
        · exact .inl (.inr ⟨rfl, hdrop hl⟩)
      · exact .inr (.inl (hcall he))
    · rw [Config.set_loc_ne c htu]
      have hK' := ((calledDrop_cons _ _ _).mp hK).resolve_right fun e => htu e.1
      exact (ih hK').imp_left .inl

/-- **The phases of a barrier are aligned.** Whenever the mutex is free, `expected_` is the number
of participants that have not dropped out, `count_` the number of those that have not arrived in the
current phase, and `generation_` the number of phases modulo 2 ^ 64, in each of which the completion
function, if there is one, has run. Whoever returns from `arrive_and_wait` has arrived in a phase
`g` such that everybody who had not dropped out before `g` has arrived in `g`, and the completion of
`g` has run once. As long as a participant that has arrived in phase `g` has not returned, nobody
has come further than to the next phase. And who has dropped out has called `arrive_and_drop`, and
who has returned from it has dropped out. -/
theorem phases_aligned [Fintype ι] (hr : program.Run Disciplined (initial b) h c) :
    (c.shared.mutex = none →
      c.shared.expected = {t | ¬ Dropped h t}.ncard ∧
      c.shared.count = {t | ¬ Dropped h t ∧ ¬ ArrivedIn h t (phases h)}.ncard ∧
      c.shared.generation = phases h % 2 ^ 64 ∧ runs h = if b then phases h else 0) ∧
    (∀ h₁ r h₂, h = h₁ ++ r :: h₂ → r.pre.loc r.tid = .done .arriveAndWait →
      ∃ g, lastArrival h₂ r.tid = some g ∧
        (∀ u, (∀ d, DroppedIn h₂ u d → g ≤ d) → ArrivedIn h₂ u g) ∧
        runsIn g h₂ = if b then 1 else 0) ∧
    (∀ t, (c.loc t).waits → ∃ g, lastArrival h t = some g ∧
      phases h ≤ g + 1 ∧ ∀ u g', ArrivedIn h u g' → g' ≤ g + 1) ∧
    ∀ t, (Dropped h t → CalledDrop h t) ∧ (CalledDrop h t → c.loc t = .idle → Dropped h t) := by
  have hP := phased_run hr
  refine ⟨fun hm => ?_, fun h₁ r h₂ he hpc => ?_, fun t hw => ?_, fun t =>
    ⟨fun hd => hP.aligned.called t (.inl hd), fun hK hidle => ?_⟩⟩
  · have hholder : holder c.shared c.loc = .idle := by simp [holder, hm]
    have hcount := hP.aligned.count
    have hgen := hP.aligned.generation
    rw [hholder] at hcount hgen
    refine ⟨hP.aligned.expected, ?_, hgen, hP.ran⟩
    rw [(show c.shared.count = _ from hcount)]
    congr 2
    ext u
    simp only [Set.mem_ofPred_eq, hP.arrived]
    refine and_congr_right fun hD => ?_
    have := (hP.aligned.place u).arrived hD
    omega
  · rw [he] at hr
    have hP₂ := phased_run hr.before
    have hpl := hP₂.aligned.place r.tid
    rw [hpc] at hpl
    obtain ⟨-, hA, hpos⟩ := hpl
    refine ⟨phases h₂ - 1, (hP₂.last _ _).mpr (by omega), fun u hu => ?_, ?_⟩
    · rw [hP₂.arrived]
      by_cases hD : Dropped h₂ u
      · obtain ⟨d, hd⟩ := hD
        have hle := hu d hd
        rcases hP₂.dropped u d hd with ⟨hpc', hA'⟩ | ⟨-, hA'⟩
        · have hpl' := hP₂.aligned.place u
          rw [hpc'] at hpl'
          have := hpl'.2
          omega
        · omega
      · have := (hP₂.aligned.place u).arrived hD
        omega
    · rw [hP₂.ranIn]
      have : phases h₂ - 1 < phases h₂ := by omega
      simp [this]
  · have hA := (hP.aligned.place t).waits hw
    refine ⟨arrivals h t - 1, (hP.last t _).mpr (by omega), by omega, fun u g' hg => ?_⟩
    have := (hP.arrived u g').mp hg
    have := hP.ahead u
    omega
  · refine (dropped_of_called hr t hK).resolve_right ?_
    rw [hidle]
    rintro (h | h) <;> cases h
end

/-- A schedule in which thread `t` calls `o` and takes `n` more steps. -/
def turn {ι : Type} (t : ι) (o : Op) (n : ℕ) : List (ι × Choice) :=
  (t, .call o) :: List.replicate n (t, .run)

/-- Nobody drops out. -/
def waitsOnly (_ : List (Step ι)) (_ : Config ι (Shared ι) Pc) (_ : ι) (k : Choice) : Prop :=
  k ≠ .call .arriveAndDrop

theorem waitsOnly_disciplined [DecidableEq ι] {h : List (Step ι)} {c₀ c : Config ι (Shared ι) Pc}
    (hr : program.Run waitsOnly c₀ h c) : program.Run Disciplined c₀ h c := by
  have hI : program.Run Disciplined c₀ h c ∧ ∀ r ∈ h, r.ev ≠ .call .arriveAndDrop := by
    refine hr.induction (I := fun h c => program.Run Disciplined c₀ h c ∧
      ∀ r ∈ h, r.ev ≠ .call .arriveAndDrop) ⟨.nil, by simp⟩ fun h c t k ev s l _ ih hok hs =>
      ⟨ih.1.cons (fun _ _ r hr _ => ih.2 r hr) hs, fun r hr => ?_⟩
    rcases List.mem_cons.mp hr with rfl | hr
    · have hm := step_move hs
      rintro rfl
      generalize c.loc t = pc at hm
      cases hm
      exact hok rfl
    · exact ih.2 r hr
  exact hI.1

/-- `Disciplined`, as a test of a history. -/
def disciplined [DecidableEq ι] : List (Step ι) → Bool
  | [] => true
  | r :: h => disciplined h && match r.ev with
    | .call _ => h.all fun q => decide (q.tid ≠ r.tid) || decide (q.ev ≠ .call .arriveAndDrop)
    | _ => true

theorem disciplined_run [DecidableEq ι] {h : List (Step ι)} {c₀ c : Config ι (Shared ι) Pc}
    (hr : program.Run Program.anyStep c₀ h c) (hd : disciplined h = true) :
    program.Run Disciplined c₀ h c := by
  induction hr with
  | nil => exact .nil
  | @cons h c t k ev s l _ _ hs ih =>
    rw [disciplined, Bool.and_eq_true] at hd
    refine (ih hd.1).cons (fun o hk q hq ht he => ?_) hs
    have hm := step_move hs
    subst hk
    generalize c.loc t = pc at hm
    cases hm
    have hall := List.all_eq_true.mp hd.2 q hq
    simp [ht, he] at hall

/-- Of three participants one waits, one drops out, and the third completes the phase and calls
again while the first has not woken up. -/
theorem phases_aligned_drop :
    ∃ (h : List (Step (Fin 3))) (c : Config (Fin 3) (Shared (Fin 3)) Pc),
      program.Run Disciplined (initial true) h c ∧ c.loc 2 = .wait 1 ∧ Dropped h 1 ∧
      c.shared.expected = {t | ¬ Dropped h t}.ncard ∧
      c.shared.count = {t | ¬ Dropped h t ∧ ¬ ArrivedIn h t (phases h)}.ncard ∧
      ∃ g, lastArrival h 0 = some g ∧ phases h ≤ g + 1 ∧
        ∀ u g', ArrivedIn h u g' → g' ≤ g + 1 := by
  obtain ⟨h, c, hr, hd⟩ := Program.replay_reaches program (initial (ι := Fin 3) true)
    [turn 0 .arriveAndWait 5, turn 1 .arriveAndDrop 5, turn 2 .arriveAndWait 9,
      turn 2 .arriveAndWait 5].flatten
    (fun h c => disciplined h && (h.any fun r => decide (r.tid = 1) &&
      decide (r.ev = .call .arriveAndDrop)) && decide (c.shared.mutex = none) &&
      decide (c.loc 0 = .wait 0) && decide (c.loc 1 = .idle) && decide (c.loc 2 = .wait 1))
      (by decide)
  simp only [Bool.and_eq_true, decide_eq_true_eq, List.any_eq_true] at hd
  obtain ⟨⟨⟨⟨⟨hdis, hcall⟩, hm⟩, h0⟩, h1⟩, h2⟩ := hd
  have hr' := disciplined_run hr hdis
  obtain ⟨hfree, -, hwaits, hdrop⟩ := phases_aligned hr'
  exact ⟨h, c, hr', h2, (hdrop 1).2 hcall h1, (hfree hm).1, (hfree hm).2.1,
    hwaits 0 (by rw [h0]; rfl)⟩

/-- A barrier for one participant, in its `n`-th phase. -/
def alone (n : ℕ) : Config Unit (Shared Unit) Pc :=
  ⟨⟨none, [], 1, 1, n % 2 ^ 64, true⟩, fun _ => .idle⟩

theorem replay_alone (n : ℕ) :
    (program.replay (fun _ _ k _ => decide (k ≠ .call .arriveAndDrop)) (alone n)
      (turn () .arriveAndWait 9)).map (fun x => (runs x.1, x.2)) = some (1, alone (n + 1)) := by
  simp [Program.replay, program, step, alone, turn, Config.set, List.replicate, Op.begin, runs,
    Pc.completes]

/-- One participant can run through any number of phases. -/
theorem alone_run (n : ℕ) :
    ∃ h, program.Run Disciplined (initial (ι := Unit) true) h (alone n) ∧ runs h = n := by
  suffices hs : ∃ h, program.Run waitsOnly (initial (ι := Unit) true) h (alone n) ∧ runs h = n by
    obtain ⟨h, hr, hn⟩ := hs
    exact ⟨h, waitsOnly_disciplined hr, hn⟩
  induction n with
  | zero => exact ⟨[], .nil, rfl⟩
  | succ n ih =>
    obtain ⟨h, hr, hn⟩ := ih
    obtain ⟨⟨h', c⟩, hrep, he⟩ := Option.map_eq_some_iff.mp (replay_alone n)
    obtain ⟨h1, rfl⟩ := Prod.mk.inj he
    obtain ⟨hr', -⟩ := Program.replay_run waitsOnly
      (fun _ _ _ _ _ _ hk => by simpa [waitsOnly] using hk)
      _ hr hrep
    refine ⟨h' ++ h, hr', ?_⟩
    have hadd : runs (h' ++ h) = runs h' + runs h := List.countP_append ..
    rw [hadd, h1, hn, Nat.add_comm]

/-- **`generation_` wraps**: after 2 ^ 64 phases it is 0 again. -/
theorem generation_wraps :
    ¬ ∀ (h : List (Step Unit)) (c : Config Unit (Shared Unit) Pc),
      program.Run Disciplined (initial true) h c → c.shared.mutex = none →
        c.shared.generation = runs h := by
  intro hall
  obtain ⟨h, hr, hn⟩ := alone_run (2 ^ 64)
  have := hall h _ hr rfl
  rw [hn] at this
  simp [alone] at this

end Bonostl.Barrier
