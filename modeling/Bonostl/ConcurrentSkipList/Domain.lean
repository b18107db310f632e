import Bonostl.ConcurrentSkipList.Steps
import Bonostl.EpochDomain.Wrap
import Bonostl.Interleaving.Component

/-!
# The epoch domain of a skip list

The steps a skip list takes at `Pc.domain`, and those that go there, are steps of its `epoch_domain`
(`domainEvent`), and no other step touches it. So a run of the skip list is a run of the domain
(`domain_run`), in which every thread holds one guard from the beginning of its operation to the end
(`Guarded`) and a pass is made under the guard of the `erase` whose `retire` makes it. As long as
fewer than `2 ^ w` guards are entered, this is a run of the kind the domain gives its guarantee for.
-/

namespace Bonostl.ConcurrentSkipList

open Interleaving

variable {ι T : Type}

/-! ## Guards -/

/-- The guard of a thread: which it holds at each place, and how far the domain has come. -/
def Guarded (l : Local T) : Prop :=
  match l.pc with
  | .idle | .done _ => l.domain = ⟨[], .idle⟩
  | .domain (.enter _) =>
    match l.domain.pc with
    | .done (.slot i) => l.domain.guards = [i]
    | .claimSlot _ | .bumpEpoch _ | .announce _ _ | .activate _ | .done .noSlots =>
      l.domain.guards = []
    | _ => False
  | .domain .retire =>
    (∃ i, l.domain.guards = [i]) ∧ (l.domain.pc.reclaims = true ∨ l.domain.pc = .done .unit)
  | .domain (.leave _) =>
    match l.domain.pc with
    | .deactivate i | .disown i => l.domain.guards = [i]
    | .done .unit => l.domain.guards = []
    | _ => False
  | _ => ∃ i, l.domain = ⟨[i], .idle⟩

theorem guarded_domain {w : ℕ} {t : ι} {s s' : EpochDomain.Shared ι ℕ} {d d' : EpochDomain.Local ℕ}
    {v : Visit T} (h : Guarded ⟨d, .domain v⟩) (hm : EpochDomain.Move w t s d s' d')
    (hd : ∀ r, d.pc ≠ .done r) : Guarded (T := T) ⟨d', .domain v⟩ := by
  cases v with
  | enter o =>
    cases hm with
    | claim | claimNext | noSlots | bumpEpoch | announce => exact h
    | activate g i =>
      obtain rfl : g = [] := h
      rfl
    | ret g r => exact absurd rfl (hd r)
    | _ => exact h.elim
  | leave r =>
    cases hm with
    | deactivate g i => exact h
    | disown g i =>
      obtain rfl : g = [i] := h
      exact List.erase_cons_head ..
    | ret g r => exact absurd rfl (hd r)
    | _ => exact h.elim
  | retire =>
    obtain ⟨hg, hr⟩ := h
    have hr := hr.resolve_right (hd .unit)
    cases hm with
    | makeNode | pushLoad | pushRetry | countCollect | seeActive | takeList | delete | keep =>
      exact ⟨hg, .inl rfl⟩
    | push g n next r => exact ⟨hg, .inl (by cases r <;> rfl)⟩
    | countDone | sweepEnd => exact ⟨hg, .inr rfl⟩
    | resetCount | seeInactive | loadEpoch =>
      refine ⟨hg, .inl ?_⟩
      unfold EpochDomain.scanFrom
      split <;> rfl
    | _ => cases hr

theorem guarded_unlockFrom {d : EpochDomain.Local ℕ} {a : Attempt T} {valid : Bool} {n : ℕ}
    (h : ∃ i, d = ⟨[i], .idle⟩) : Guarded ⟨d, unlockFrom a valid n⟩ := by
  induction n with
  | zero => cases valid <;> exact h
  | succ l ih =>
    unfold unlockFrom
    split
    · exact h
    · exact ih

/-- A pass is made in a `retire`, under the guard of its `erase`. -/
theorem Guarded.pass {l : Local T} (h : Guarded l) (hp : l.domain.pc = .resetCount) :
    l.domain.guards ≠ [] := by
  obtain ⟨⟨g, p⟩, pc⟩ := l
  obtain rfl : p = .resetCount := hp
  cases pc with
  | idle | done r => cases h
  | domain v =>
    cases v with
    | enter o | leave r => exact h.elim
    | retire =>
      obtain ⟨⟨i, hi⟩, -⟩ := h
      rw [hi]
      exact List.cons_ne_nil _ _
  | _ => obtain ⟨i, hi⟩ := h; cases hi

section
variable [LT T] [DecidableLT T] {w : ℕ} {t : ι} {s s' : Shared ι T} {l l' : Local T}
  {ev : Event (Op T) Res}

/-- Every step keeps the table. -/
theorem guarded_move (h : Guarded l) (hm : Move w t s ev l s' l') : Guarded l' := by
  cases hm with
  | call g o =>
    cases h
    rfl
  | domain v d s₁ d' hm hd => exact guarded_domain h hm hd
  | domainEnd v g r =>
    cases v with
    | enter o =>
      cases r with
      | slot i =>
        obtain rfl : g = [i] := h
        cases o <;> exact ⟨i, rfl⟩
      | unit => exact h.elim
      | noSlots =>
        obtain rfl : g = [] := h
        rfl
    | retire =>
      obtain ⟨⟨i, rfl⟩, -⟩ := h
      exact ⟨i, rfl⟩
    | leave r' =>
      cases r with
      | unit =>
        obtain rfl : g = [] := h
        rfl
      | _ => exact h.elim
  | leave i g r =>
    obtain ⟨j, hj⟩ := h
    cases hj
    rfl
  | retire g x =>
    obtain ⟨i, hi⟩ := h
    cases hi
    exact ⟨⟨i, rfl⟩, .inl rfl⟩
  | ret d r => exact h
  | found d k | notFound d k => cases k <;> exact h
  | setLast d a i =>
    rcases lockFrom_cases a 0 with ⟨-, -, he⟩ | ⟨-, -, -, he⟩ | ⟨-, he⟩
    all_goals rw [he]; exact h
  | predNext d a i =>
    rcases lockFrom_cases a (i + 1) with ⟨-, -, he⟩ | ⟨-, -, -, he⟩ | ⟨-, he⟩
    all_goals rw [he]; exact h
  | predMarked d a i | succMarked d a i | predNextFail d a i => exact guarded_unlockFrom h
  | setFullyLinked d a => exact guarded_unlockFrom h
  | unlock d a i valid => exact guarded_unlockFrom h
  | spliceMissed d v x i | unlockSpliced d v x i => cases i <;> exact h
  | _ => exact h
end

/-! ## The domain's history -/

/-- What a step from `l` shows of the domain, if it is a step of the domain. -/
def domainEvent (l : Local T) : Option (Event (EpochDomain.Op ℕ) EpochDomain.Res) :=
  match l.pc with
  | .idle => some (.call .enter)
  | .leave _ => l.domain.guards.head?.map fun i => .call (.leave i)
  | .retire x => some (.call (.retire x))
  | .domain _ =>
    match l.domain.pc with
    | .done r => some (.ret r)
    | _ => some .tau
  | _ => none

/-- The domain's part of a configuration. -/
def domainOf (c : Config ι (Shared ι T) (Local T)) :
    Config ι (EpochDomain.Shared ι ℕ) (EpochDomain.Local ℕ) := c.part Shared.domain Local.domain

/-- The steps of the domain in a run. -/
def domainHist (h : List (Step ι T)) : List (EpochDomain.Step ι ℕ) :=
  view Shared.domain Local.domain (fun r => domainEvent (r.pre.loc r.tid)) h

theorem free_domain (s : Shared ι T) (o : Option ℕ) : (s.free o).domain = s.domain := by
  cases o <;> rfl

/-- A visit is a step of the domain. -/
theorem visit_step {w : ℕ} {t : ι} {k : EpochDomain.Choice ℕ} {s s' : Shared ι T}
    {d : EpochDomain.Local ℕ} {l' : Local T} {e ev : Event (Op T) Res}
    {pc : Event (EpochDomain.Op ℕ) EpochDomain.Res → Pc T}
    (hs : visit w t k s d e pc = some (ev, s', l')) :
    ∃ ev', EpochDomain.step w t k s.domain d = some (ev', s'.domain, l'.domain) := by
  unfold visit at hs
  split at hs
  · rename_i e' s₁ d₁ he
    cases hs
    exact ⟨e', by rw [free_domain]; exact he⟩
  · cases hs

section
variable [LT T] [DecidableLT T] {w : ℕ} {t : ι} {s s' : Shared ι T} {l l' : Local T}
  {ev : Event (Op T) Res} {k : Choice T}

omit [LT T] [DecidableLT T] in
/-- What a step inside a visit shows. -/
theorem domain_event {k : EpochDomain.Choice ℕ} {d d' : EpochDomain.Local ℕ} {v : Visit T}
    {s s' : EpochDomain.Shared ι ℕ} {e : Event (EpochDomain.Op ℕ) EpochDomain.Res}
    (hc : ∀ o, k ≠ .call o) (hs : EpochDomain.step w t k s d = some (e, s', d')) :
    domainEvent (T := T) ⟨d, .domain v⟩ = some e := by
  obtain ⟨g, pc⟩ := d
  rcases EpochDomain.step_ev hs with ⟨o, ho⟩ | ⟨r, rfl, hd, -, -⟩ | ⟨rfl, hd⟩
  · exact absurd ho (hc o)
  · obtain rfl : pc = .done r := hd
    rfl
  · cases pc with
    | done r => exact absurd rfl (hd r)
    | _ => rfl

/-- A step of the skip list is one of its domain's, or leaves the domain alone. -/
theorem step_domain (hs : step w t k s l = some (ev, s', l')) :
    (domainEvent l = none ∧ s'.domain = s.domain ∧ l'.domain = l.domain) ∨
    ∃ k' e, domainEvent l = some e ∧
      EpochDomain.step w t k' s.domain l.domain = some (e, s'.domain, l'.domain) := by
  obtain ⟨d, pc⟩ := l
  unfold step at hs
  cases pc with
  | idle =>
    cases k with
    | call o =>
      obtain ⟨g, e', s₁, d₁, rfl, he, rfl, rfl, rfl⟩ := visit_call hs
      cases he
      exact .inr ⟨.call .enter, _, rfl, rfl⟩
    | _ => cases hs
  | domain v =>
    cases k with
    | run =>
      obtain ⟨e, he⟩ := visit_step hs
      exact .inr ⟨.run, e, domain_event (by simp) he, he⟩
    | spurious =>
      obtain ⟨e, he⟩ := visit_step hs
      exact .inr ⟨.spurious, e, domain_event (by simp) he, he⟩
    | _ => cases hs
  | leave r =>
    cases k with
    | run =>
      obtain ⟨gs, p⟩ := d
      cases gs with
      | nil => cases hs
      | cons i g =>
        obtain ⟨g', e', s₁, d₁, hd, he, rfl, rfl, rfl⟩ := visit_call hs
        cases hd
        dsimp only [EpochDomain.step] at he
        rw [if_pos List.mem_cons_self] at he
        cases he
        refine .inr ⟨.call (.leave i), _, rfl, ?_⟩
        dsimp only [EpochDomain.step]
        rw [if_pos List.mem_cons_self]
    | _ => cases hs
  | retire x =>
    cases k with
    | run =>
      obtain ⟨g, e', s₁, d₁, rfl, he, rfl, rfl, rfl⟩ := visit_call hs
      cases he
      exact .inr ⟨.call (.retire x), _, rfl, rfl⟩
    | _ => cases hs
  | find task f =>
    cases k with
    | run =>
      dsimp only at hs
      split at hs
      · cases hs
        exact .inl ⟨rfl, rfl, rfl⟩
      · cases hs
    | _ => cases hs
  | splice v x i pred =>
    cases k with
    | run =>
      dsimp only at hs
      split at hs
      · cases hs
        exact .inl ⟨rfl, rfl, rfl⟩
      · cases hs
    | _ => cases hs
  | lock | lockVictim | lockPred =>
    cases k with
    | run =>
      dsimp only [Shared.lock] at hs
      split at hs
      · rename_i s₁ hl
        cases hs
        split at hl
        · cases hl
          exact .inl ⟨rfl, rfl, rfl⟩
        · cases hl
      · cases hs
    | _ => cases hs
  | deleteNew n =>
    cases k with
    | run =>
      cases hs
      exact .inl ⟨rfl, rfl, rfl⟩
    | _ => cases hs
  | _ =>
    cases k <;> cases hs
    exact .inl ⟨rfl, rfl, rfl⟩
end

/-! ## Runs -/

/-- How many guards a run has entered: how often it has taken an epoch. -/
def entries : List (Step ι T) → ℕ
  | [] => 0
  | r :: h =>
    match (r.pre.loc r.tid).domain.pc with
    | .bumpEpoch _ => entries h + 1
    | _ => entries h

theorem entries_le (r : Step ι T) (h : List (Step ι T)) : entries h ≤ entries (r :: h) := by
  simp only [entries]
  split <;> omega

section
variable [LT T] [DecidableLT T] [DecidableEq ι] {w : ℕ} {h : List (Step ι T)}
  {c : Config ι (Shared ι T) (Local T)}

theorem guarded_run (hr : (program w).Run Program.anyStep initial h c) (t : ι) :
    Guarded (c.loc t) := by
  refine hr.induction (I := fun _ c => ∀ t, Guarded (c.loc t)) ?_
    (fun h c t k ev s l _ hI _ hs => ?_) t
  · intro u
    exact rfl
  exact Config.forall_set (p := fun _ l => Guarded l) (guarded_move (hI t) (step_move hs))
    fun u _ => hI u

/-- The epoch counts the entries. -/
theorem epoch_le (hr : (program w).Run Program.anyStep initial h c) :
    c.shared.domain.globalEpoch ≤ entries h := by
  refine hr.induction (I := fun h c => c.shared.domain.globalEpoch ≤ entries h) le_rfl
    fun h c t k ev s l _ hI _ hs => ?_
  rcases step_domain hs with ⟨-, hd, -⟩ | ⟨k', e, -, hd⟩
  · exact (hd ▸ hI).trans (entries_le _ h)
  · have hm := EpochDomain.step_move hd
    show s.domain.globalEpoch ≤ _
    unfold entries
    dsimp only
    generalize (c.loc t).domain = d at hm
    generalize s.domain = s₁ at hm
    generalize l.domain = d₁ at hm
    cases hm with
    | bumpEpoch g i => exact (Nat.mod_le _ _).trans (Nat.succ_le_succ hI)
    | _ => exact hI

/-- **A run of the skip list is a run of its domain.** -/
theorem domain_run_any (hr : (program w).Run Program.anyStep initial h c) :
    (EpochDomain.program w).Run Program.anyStep EpochDomain.initial (domainHist h)
      (domainOf c) := by
  refine Program.Run.component Shared.domain Local.domain
    (fun r : Step ι T => domainEvent (r.pre.loc r.tid)) (EpochDomain.program w)
    (fun h c t k ev s l _ _ hs => ?_) hr
  rcases step_domain hs with h1 | ⟨k', e, he, hd⟩
  · exact .inl h1
  · exact .inr ⟨k', e, he, hd, trivial⟩

/-- With fewer than `2 ^ w` entries no guard wraps the epoch, and every pass is made under a
guard. -/
theorem domain_run (hr : (program w).Run Program.anyStep initial h c) (hw : entries h < 2 ^ w) :
    (EpochDomain.program w).Run
      (fun _ c t _ => EpochDomain.NoWrap w c t ∧ EpochDomain.UnderGuard (c.loc t))
      EpochDomain.initial (domainHist h) (domainOf c) := by
  have hr' : (program w).Run (fun h c t _ => (∀ i, (c.loc t).domain.pc = .bumpEpoch i →
      c.shared.domain.globalEpoch + 1 < 2 ^ w) ∧ Guarded (c.loc t)) initial h c := by
    induction hr with
    | nil => exact .nil
    | @cons h c t k ev s l hrun _ hs ih =>
      refine (ih ((entries_le _ h).trans_lt hw)).cons ⟨fun i hi => ?_, guarded_run hrun t⟩ hs
      have he := epoch_le hrun
      simp only [entries, hi] at hw
      omega
  refine Program.Run.component Shared.domain Local.domain
    (fun r : Step ι T => domainEvent (r.pre.loc r.tid)) (EpochDomain.program w)
    (fun h c t k ev s l _ hok hs => ?_) hr'
  rcases step_domain hs with h1 | ⟨k', e, he, hd⟩
  · exact .inl h1
  · exact .inr ⟨k', e, he, hd, fun i hi => hok.1 i hi, fun hp => hok.2.pass hp⟩
end

end Bonostl.ConcurrentSkipList
