import Bonostl.EpochDomain.Model

/-!
# What an alive guard keeps from being deleted

`guardsSince h n`: the registry indices whose guard was active when `retire` call `n` was made and
has been active ever since. The domain's promise is that a node is deleted only when this set is
empty: no guard is still alive that had become active before the node's `retire` call.

The code keeps it under one condition on the moment `collect` takes the retired list
(`TakesSafely`): no guard is active then, or some guard has been active ever since the pass began,
for instance the collector's own. `guardsInPass h t` are the guards active since thread `t`'s
present pass began. A pass made without any guard can find the registry empty, keep
`min_announced` at the maximum, and take a node that was retired afterwards under a guard that
appeared behind the scan (`unguarded_collect_deletes`).

The argument has three parts. A guard's announced epoch is at most the epoch of every node
retired after it became active (`Inv.node_since`). A pass has `min_announced` at or below every
guard that was active throughout (`Inv.pass_min`). A guard that is not one of these became active
during the pass, so nodes retired under it carry an epoch no smaller than any guard that was
active throughout (`Inv.pass_node`).
-/

namespace Bonostl.EpochDomain

open Interleaving

variable {ι α : Type} [DecidableEq ι]

/-! ## Reading a thread's place -/

/-- The record `claim_slot` has taken and not yet made active. -/
def Pc.claims : Pc α → Option ℕ
  | .bumpEpoch i | .announce i _ | .activate i => some i
  | _ => none

/-- The record `release_slot` is giving back. -/
def Pc.leaves : Pc α → Option ℕ
  | .deactivate i | .disown i => some i
  | _ => none

/-- The retired nodes only this thread can reach. -/
def Pc.nodes : Pc α → List (RetiredNode α)
  | .pushLoad n k | .pushCas n _ k => n :: (k.map Prod.snd).getD []
  | .sweep _ list => list
  | _ => []

/-- A sweep's `min_announced` and the nodes it has still to look at. -/
def Pc.todo : Pc α → Option (ℕ × List (RetiredNode α))
  | .pushLoad _ k | .pushCas _ _ k => k
  | .sweep m list => some (m, list)
  | _ => none

/-- A scan's next record and `min_announced`. -/
def Pc.scanned : Pc α → Option (ℕ × ℕ)
  | .resetCount => some (0, 0)
  | .loadActive i m | .loadEpoch i m => some (i, m)
  | .takeList m => some (maxThreads, m)
  | _ => none

@[grind →]
theorem Pc.todo_nodes {pc : Pc α} {m : ℕ} {rest : List (RetiredNode α)} {n : RetiredNode α}
    (h : pc.todo = some (m, rest)) (hn : n ∈ rest) : n ∈ pc.nodes := by
  cases pc <;> simp_all [Pc.todo, Pc.nodes]

@[simp] theorem scanFrom_claims (i m : ℕ) : (scanFrom i m : Pc α).claims = none := by
  unfold scanFrom; split <;> rfl

@[simp] theorem scanFrom_leaves (i m : ℕ) : (scanFrom i m : Pc α).leaves = none := by
  unfold scanFrom; split <;> rfl

@[simp] theorem scanFrom_nodes (i m : ℕ) : (scanFrom i m : Pc α).nodes = [] := by
  unfold scanFrom; split <;> rfl

@[simp] theorem scanFrom_todo (i m : ℕ) : (scanFrom i m : Pc α).todo = none := by
  unfold scanFrom; split <;> rfl

/-- A scan is at the record it goes on with, or has seen all of them. -/
theorem scanFrom_scanned (i m : ℕ) : ∃ k ≤ i, (scanFrom i m : Pc α).scanned = some (k, m) := by
  unfold scanFrom
  split
  · exact ⟨i, le_rfl, rfl⟩
  · exact ⟨maxThreads, by omega, rfl⟩

theorem scanFrom_ne_announce {j e : ℕ} (i m : ℕ) : (scanFrom i m : Pc α) ≠ .announce j e := by
  unfold scanFrom
  split <;> rintro ⟨⟩

theorem scanFrom_ne_retire {n : ℕ} {p : α} (i m : ℕ) : (scanFrom i m : Pc α) ≠ .retire n p := by
  unfold scanFrom
  split <;> rintro ⟨⟩

theorem scanFrom_ne_resetCount (i m : ℕ) : (scanFrom i m : Pc α) ≠ .resetCount := by
  unfold scanFrom
  split <;> rintro ⟨⟩

/-! ## The registry -/

/-- Who may touch a registry record: a free record is inactive, a claimed one is not yet active,
and a record is claimed by at most one thread or held as at most one guard. -/
structure Slots (s : Shared ι α) (f : ι → Local α) : Prop where
  free_inactive : ∀ i, s.owner i = none → s.active i = false
  active_lt : ∀ i, s.active i = true → i < maxThreads
  claims : ∀ t i, (f t).pc.claims = some i →
    s.owner i ≠ none ∧ s.active i = false ∧ i < maxThreads
  guards : ∀ t i, i ∈ (f t).guards → s.owner i ≠ none
  nodup : ∀ t, (f t).guards.Nodup
  leaves : ∀ t i, (f t).pc.leaves = some i → i ∈ (f t).guards
  disown : ∀ t i, (f t).pc = .disown i → s.active i = false
  claims_unique : ∀ t u i, (f t).pc.claims = some i → (f u).pc.claims = some i → t = u
  claims_guard : ∀ t u i, (f t).pc.claims = some i → i ∉ (f u).guards
  guard_unique : ∀ t u i, i ∈ (f t).guards → i ∈ (f u).guards → t = u

/-- A step that leaves the registry and the mover's guards alone. -/
theorem Slots.frame {s s' : Shared ι α} {f : ι → Local α} {t : ι} {l : Local α} (h : Slots s f)
    (ho : ∀ i, s'.owner i = s.owner i) (ha : ∀ i, s'.active i = s.active i)
    (hg : l.guards = (f t).guards)
    (hc : l.pc.claims = none ∨ l.pc.claims = (f t).pc.claims)
    (hl : l.pc.leaves = none) : Slots s' (Function.update f t l) := by
  obtain ⟨h1, h2, h3, h4, h5, h6, h7, h8, h9, h10⟩ := h
  have hd : ∀ i, l.pc ≠ .disown i := fun i e => by simp [e, Pc.leaves] at hl
  constructor <;> grind

section
variable {s : Shared ι α} {f : ι → Local α} {t : ι} {g : List ℕ} {i : ℕ}

/-- A guard begins to leave. -/
theorem Slots.leave (h : Slots s f) (hl : f t = ⟨g, .idle⟩) (hi : i ∈ g) :
    Slots s (Function.update f t ⟨g, .deactivate i⟩) := by
  have hg : (f t).guards = g := by rw [hl]
  obtain ⟨h1, h2, h3, h4, h5, h6, h7, h8, h9, h10⟩ := h
  constructor <;> grind [Pc.claims, Pc.leaves]

/-- A free record is claimed. -/
theorem Slots.claim (h : Slots s f) (hl : f t = ⟨g, .claimSlot i⟩) (hi : i < maxThreads)
    (ho : s.owner i = none) : Slots { s with owner := Function.update s.owner i (some t) }
      (Function.update f t ⟨g, .bumpEpoch i⟩) := by
  have hg : (f t).guards = g := by rw [hl]
  obtain ⟨h1, h2, h3, h4, h5, h6, h7, h8, h9, h10⟩ := h
  constructor <;> grind [Pc.claims, Pc.leaves]

/-- A claimed record becomes a guard. -/
theorem Slots.activate (h : Slots s f) (hl : f t = ⟨g, .activate i⟩) :
    Slots { s with active := Function.update s.active i true }
      (Function.update f t ⟨i :: g, .done (.slot i)⟩) := by
  have hg : (f t).guards = g := by rw [hl]
  have hpc : (f t).pc = .activate i := by rw [hl]
  have hc := h.claims t i (by rw [hpc]; rfl)
  obtain ⟨h1, h2, h3, h4, h5, h6, h7, h8, h9, h10⟩ := h
  constructor <;> grind [Pc.claims, Pc.leaves]

/-- A leaving guard is not active any more. -/
theorem Slots.deactivate (h : Slots s f) (hl : f t = ⟨g, .deactivate i⟩) :
    Slots { s with active := Function.update s.active i false }
      (Function.update f t ⟨g, .disown i⟩) := by
  have hg : (f t).guards = g := by rw [hl]
  have hpc : (f t).pc = .deactivate i := by rw [hl]
  obtain ⟨h1, h2, h3, h4, h5, h6, h7, h8, h9, h10⟩ := h
  constructor <;> grind [Pc.claims, Pc.leaves]

/-- A record that is no guard any more is free. -/
theorem Slots.disowned (h : Slots s f) (hl : f t = ⟨g, .disown i⟩) :
    Slots { s with owner := Function.update s.owner i none }
      (Function.update f t ⟨g.erase i, .done .unit⟩) := by
  have hg : (f t).guards = g := by rw [hl]
  have hpc : (f t).pc = .disown i := by rw [hl]
  have hn := h.nodup t
  obtain ⟨h1, h2, h3, h4, h5, h6, h7, h8, h9, h10⟩ := h
  constructor <;>
    grind [Pc.claims, Pc.leaves, List.Nodup.mem_erase_iff, List.Nodup.erase]
end

theorem slots_move {w : ℕ} {s s' : Shared ι α} {f : ι → Local α} {t : ι} {l l' : Local α}
    (h : Slots s f) (hl : f t = l) (hm : Move w t s l s' l') :
    Slots s' (Function.update f t l') := by
  have hg : (f t).guards = l.guards := by rw [hl]
  have hpc : (f t).pc = l.pc := by rw [hl]
  cases hm with
  | leave g i hi => exact h.leave hl hi
  | claim g i hi ho => exact h.claim hl hi ho
  | activate g i => exact h.activate hl
  | deactivate g i => exact h.deactivate hl
  | disown g i => exact h.disowned hl
  | bumpEpoch g i =>
    exact h.frame (fun _ => rfl) (fun _ => rfl) hg.symm (.inr (by rw [hpc]; rfl)) rfl
  | announce g i e =>
    exact h.frame (fun _ => rfl) (fun _ => rfl) hg.symm (.inr (by rw [hpc]; rfl)) rfl
  | push g n next r =>
    exact h.frame (fun _ => rfl) (fun _ => rfl) hg.symm (.inl (by cases r <;> rfl))
      (by cases r <;> rfl)
  | resetCount | seeInactive | loadEpoch =>
    exact h.frame (fun _ => rfl) (fun _ => rfl) hg.symm (.inl (by simp)) (by simp)
  | _ => exact h.frame (fun _ => rfl) (fun _ => rfl) hg.symm (.inl rfl) rfl

/-! ## Guards, nodes and passes -/

/-- A retired node that has not been deleted: on the shared list, or with a thread. -/
@[grind]
def Pending (s : Shared ι α) (f : ι → Local α) (n : RetiredNode α) : Prop :=
  n ∈ s.retiredHead ∨ ∃ t, n ∈ (f t).pc.nodes

/-- The invariant of the domain. `since n j`: the guard at `j` has been active since before
`retire` call `n`; `pass t j`: it has been active since thread `t`'s present pass began. -/
structure Inv (since : ℕ → ℕ → Prop) (pass : ι → ℕ → Prop) (s : Shared ι α)
    (f : ι → Local α) : Prop where
  slots : Slots s f
  announced_le : ∀ i, s.announcedEpoch i ≤ s.globalEpoch
  announce_le : ∀ t i e, (f t).pc = .announce i e → e ≤ s.globalEpoch
  since_active : ∀ n j, since n j → s.active j = true
  pass_active : ∀ t j, pass t j → s.active j = true
  retire_lt : ∀ t n p, (f t).pc = .retire n p → n < s.retires
  node_lt : ∀ n, Pending s f n → n.id < s.retires
  node_since : ∀ n, Pending s f n → ∀ j, since n.id j → s.announcedEpoch j ≤ n.retireEpoch
  pass_min : ∀ t i m, (f t).pc.scanned = some (i, m) → ∀ j, pass t j → j < i →
    m ≤ s.announcedEpoch j
  pass_node : ∀ t i m, (f t).pc.scanned = some (i, m) → ∀ n, Pending s f n →
    ∀ j, since n.id j → pass t j ∨ ∀ g, pass t g → s.announcedEpoch g ≤ n.retireEpoch
  todo_min : ∀ t m rest, (f t).pc.todo = some (m, rest) → ∀ n ∈ rest, ∀ j, since n.id j →
    m ≤ n.retireEpoch
  deleted_lt : ∀ n, s.deleted n ≠ 0 → n < s.retires
  deleted_since : ∀ n, s.deleted n ≠ 0 → ∀ j, ¬ since n j

/-- How a step changes `since`: the guards active now stay, and a `retire` call starts with all
of them. -/
@[grind]
def sinceStep (since : ℕ → ℕ → Prop) (s s' : Shared ι α) (n j : ℕ) : Prop :=
  s'.active j = true ∧ (s.retires = n ∧ s'.retires = n + 1 ∨ since n j)

/-- How a step changes `pass`: the guards active now stay, and a pass starts with all of them. -/
@[grind]
def passStep (pass : ι → ℕ → Prop) (t : ι) (s' : Shared ι α) (l : Local α) (u : ι) (j : ℕ) :
    Prop :=
  s'.active j = true ∧ (u = t ∧ l.pc = .resetCount ∨ pass u j)

omit [DecidableEq ι] in
/-- A guard of a pass that does not begin now was one of it before. -/
theorem of_passStep {pass : ι → ℕ → Prop} {t u : ι} {s' : Shared ι α} {l : Local α} {j : ℕ}
    (hno : u ≠ t ∨ l.pc ≠ .resetCount) (hj : passStep pass t s' l u j) : pass u j := by
  obtain ⟨-, ⟨hu, hl⟩ | hj⟩ := hj
  · exact absurd hu (hno.resolve_right fun hne => hne hl)
  · exact hj

/-- The steps this file allows: an entry does not wrap the epoch, and a list is taken only when
no guard is active or some guard has been active since the pass began. -/
def Allowed (w : ℕ) (pass : ι → ℕ → Prop) (s : Shared ι α) (t : ι) (l : Local α) : Prop :=
  match l.pc with
  | .bumpEpoch _ => s.globalEpoch + 1 < 2 ^ w
  | .takeList _ => (∃ j, pass t j) ∨ ∀ j, s.active j = false
  | _ => True

omit [DecidableEq ι] in
/-- The argument of the module comment, at the moment the list is taken: a node that some guard
still protects has an epoch at or above `min_announced`. -/
theorem Inv.take_min {w : ℕ} {since : ℕ → ℕ → Prop} {pass : ι → ℕ → Prop} {s : Shared ι α}
    {f : ι → Local α} {t : ι} {g : List ℕ} {m : ℕ} (h : Inv since pass s f)
    (hl : f t = ⟨g, .takeList m⟩) (hok : Allowed w pass s t ⟨g, .takeList m⟩) :
    ∀ n ∈ s.retiredHead, ∀ j, since n.id j → m ≤ n.retireEpoch := by
  intro n hn j hj
  have hscan : (f t).pc.scanned = some (maxThreads, m) := by rw [hl]; rfl
  have hmin : ∀ i, pass t i → m ≤ s.announcedEpoch i := fun i hi =>
    h.pass_min t _ _ hscan i hi (h.slots.active_lt i (h.pass_active t i hi))
  rcases hok with ⟨i, hi⟩ | hnone
  · rcases h.pass_node t _ _ hscan n (.inl hn) j hj with hp | hp
    · exact (hmin j hp).trans (h.node_since n (.inl hn) j hj)
    · exact (hmin i hi).trans (hp i hi)
  · have := h.since_active _ _ hj
    rw [hnone j] at this
    exact absurd this Bool.false_ne_true

/-- What a step may do to the shared state: epochs only grow, and an active record keeps the epoch
it has announced. -/
structure Steady (s s' : Shared ι α) : Prop where
  global : s.globalEpoch ≤ s'.globalEpoch
  announced : ∀ i, s'.announcedEpoch i ≤ s'.globalEpoch
  kept : ∀ i, s.active i = true → s'.announcedEpoch i = s.announcedEpoch i
  retires : s.retires ≤ s'.retires

/-- What the invariant asks of the place thread `t` comes to. -/
structure Arrives (since : ℕ → ℕ → Prop) (pass : ι → ℕ → Prop) (s s' : Shared ι α) (t : ι)
    (l l' : Local α) : Prop where
  announce : ∀ i e, l'.pc = .announce i e → e ≤ s'.globalEpoch
  retire : ∀ n p, l'.pc = .retire n p → n < s'.retires
  /-- no node comes up but the one just made -/
  pending : ∀ n, n ∈ s'.retiredHead ∨ n ∈ l'.pc.nodes →
    (n ∈ s.retiredHead ∨ n ∈ l.pc.nodes) ∨ n.id < s.retires ∧ s.globalEpoch ≤ n.retireEpoch
  scans : l'.pc.scanned = none ∨ l'.pc = .resetCount ∨ l.pc.scanned ≠ none
  scan_min : ∀ i m, l'.pc.scanned = some (i, m) → ∀ j, passStep pass t s' l' t j → j < i →
    m ≤ s'.announcedEpoch j
  todo_min : ∀ m rest, l'.pc.todo = some (m, rest) → ∀ n ∈ rest, ∀ j, since n.id j →
    m ≤ n.retireEpoch

section
variable {w : ℕ} {since : ℕ → ℕ → Prop} {pass : ι → ℕ → Prop} {s s' : Shared ι α}
  {f : ι → Local α} {t : ι} {l l' : Local α}

omit [DecidableEq ι] in
/-- A step that changes no epoch and no count of retirements. -/
theorem Inv.steady (h : Inv since pass s f) (hg : s'.globalEpoch = s.globalEpoch)
    (hn : s'.announcedEpoch = s.announcedEpoch) (hr : s'.retires = s.retires) : Steady s s' where
  global := hg.ge
  announced i := by
    rw [hg, hn]
    exact h.announced_le i
  kept i _ := congrFun hn i
  retires := hr.ge

/-- **What keeps the invariant**: a steady shared state, a place for the mover that meets what is
asked of it, and no deletion of a node that a guard still protects. -/
theorem Inv.advance (h : Inv since pass s f) (hslots : Slots s' (Function.update f t l'))
    (hs : Steady s s') (ha : Arrives since pass s s' t (f t) l')
    (hd : ∀ n, s'.deleted n ≠ 0 → s.deleted n ≠ 0 ∨ n < s.retires ∧ ∀ j, ¬ since n j) :
    Inv (sinceStep since s s') (passStep pass t s' l') s' (Function.update f t l') := by
  -- nothing new comes to protect a node that was made before
  have hsince : ∀ n j, n < s.retires → sinceStep since s s' n j → since n j := by
    rintro n j hlt ⟨-, ⟨h1, -⟩ | hj⟩
    · omega
    · exact hj
  have hkept : ∀ n j, since n j → s'.announcedEpoch j = s.announcedEpoch j := fun n j hj =>
    hs.kept j (h.since_active n j hj)
  have hold : ∀ n, Pending s' (Function.update f t l') n →
      Pending s f n ∨ n.id < s.retires ∧ s.globalEpoch ≤ n.retireEpoch := by
    have hmover : ∀ n, n ∈ s'.retiredHead ∨ n ∈ l'.pc.nodes →
        Pending s f n ∨ n.id < s.retires ∧ s.globalEpoch ≤ n.retireEpoch := fun n hn =>
      (ha.pending n hn).imp_left fun ho => ho.imp_right fun hm => ⟨t, hm⟩
    rintro n (hn | ⟨u, hn⟩)
    · exact hmover n (.inl hn)
    · by_cases hut : u = t
      · subst hut
        rw [Function.update_self] at hn
        exact hmover n (.inr hn)
      · rw [Function.update_of_ne hut] at hn
        exact .inl (.inr ⟨u, hn⟩)
  have hid : ∀ n, Pending s' (Function.update f t l') n → n.id < s.retires := fun n hn =>
    (hold n hn).elim (h.node_lt n) And.left
  -- a pass that has started its scan goes on with what it has announced
  have hnode : ∀ u i m, (f u).pc.scanned = some (i, m) → (u ≠ t ∨ l'.pc ≠ .resetCount) →
      ∀ n, Pending s' (Function.update f t l') n → ∀ j, sinceStep since s s' n.id j →
      passStep pass t s' l' u j ∨
        ∀ g, passStep pass t s' l' u g → s'.announcedEpoch g ≤ n.retireEpoch := by
    intro u i m hu hno n hn j hj
    have hann : ∀ g, passStep pass t s' l' u g → s'.announcedEpoch g = s.announcedEpoch g :=
      fun g hg => hs.kept g (h.pass_active u g (of_passStep hno hg))
    rcases hold n hn with hpend | ⟨-, hepoch⟩
    · refine (h.pass_node u i m hu n hpend j (hsince _ j (hid n hn) hj)).imp
        (fun hp => ⟨hj.1, .inr hp⟩) fun hp g hg => ?_
      rw [hann g hg]
      exact hp g (of_passStep hno hg)
    · refine .inr fun g hg => ?_
      rw [hann g hg]
      exact (h.announced_le g).trans hepoch
  constructor
  case slots => exact hslots
  case announced_le => exact hs.announced
  case announce_le =>
    intro u i e hu
    by_cases hut : u = t
    · subst hut
      rw [Function.update_self] at hu
      exact ha.announce i e hu
    · rw [Function.update_of_ne hut] at hu
      exact (h.announce_le u i e hu).trans hs.global
  case since_active => exact fun n j hj => hj.1
  case pass_active => exact fun u j hj => hj.1
  case retire_lt =>
    intro u n p hu
    by_cases hut : u = t
    · subst hut
      rw [Function.update_self] at hu
      exact ha.retire n p hu
    · rw [Function.update_of_ne hut] at hu
      exact (h.retire_lt u n p hu).trans_le hs.retires
  case node_lt => exact fun n hn => (hid n hn).trans_le hs.retires
  case node_since =>
    intro n hn j hj
    have hj' := hsince _ j (hid n hn) hj
    rw [hkept _ j hj']
    rcases hold n hn with hpend | ⟨-, hepoch⟩
    · exact h.node_since n hpend j hj'
    · exact (h.announced_le j).trans hepoch
  case pass_min =>
    intro u i m hu j hj hlt
    by_cases hut : u = t
    · subst hut
      rw [Function.update_self] at hu
      exact ha.scan_min i m hu j hj hlt
    · rw [Function.update_of_ne hut] at hu
      have hp := of_passStep (.inl hut) hj
      rw [hs.kept j (h.pass_active u j hp)]
      exact h.pass_min u i m hu j hp hlt
  case pass_node =>
    intro u i m hu n hn j hj
    by_cases hut : u = t
    · subst hut
      rw [Function.update_self] at hu
      by_cases hreset : l'.pc = .resetCount
      · exact .inl ⟨hj.1, .inl ⟨rfl, hreset⟩⟩
      · rcases ha.scans with hnone | hr | hsome
        · rw [hnone] at hu
          cases hu
        · exact absurd hr hreset
        · obtain ⟨⟨i', m'⟩, hscan⟩ := Option.ne_none_iff_exists'.mp hsome
          exact hnode u i' m' hscan (.inr hreset) n hn j hj
    · rw [Function.update_of_ne hut] at hu
      exact hnode u i m hu (.inl hut) n hn j hj
  case todo_min =>
    intro u m rest hu n hn j hj
    have hj' := hsince _ j (hid n (.inr ⟨u, Pc.todo_nodes hu hn⟩)) hj
    by_cases hut : u = t
    · subst hut
      rw [Function.update_self] at hu
      exact ha.todo_min m rest hu n hn j hj'
    · rw [Function.update_of_ne hut] at hu
      exact h.todo_min u m rest hu n hn j hj'
  case deleted_lt =>
    intro n hn
    exact ((hd n hn).elim (h.deleted_lt n) And.left).trans_le hs.retires
  case deleted_since =>
    intro n hn j hj
    rcases hd n hn with ho | ⟨hlt, hno⟩
    · exact h.deleted_since n ho j (hsince n j (h.deleted_lt n ho) hj)
    · exact hno j (hsince n j hlt hj)

omit [DecidableEq ι] in
/-- Coming to a place without retired nodes. -/
theorem Arrives.rests (hh : s'.retiredHead = s.retiredHead) (hn : l'.pc.nodes = [])
    (he : ∀ i e, l'.pc = .announce i e → e ≤ s'.globalEpoch)
    (hp : ∀ n p, l'.pc = .retire n p → n < s'.retires)
    (hs : l'.pc.scanned = none ∨ l'.pc = .resetCount ∨ l.pc.scanned ≠ none)
    (hmin : ∀ i m, l'.pc.scanned = some (i, m) → ∀ j, passStep pass t s' l' t j → j < i →
      m ≤ s'.announcedEpoch j) : Arrives since pass s s' t l l' where
  announce := he
  retire := hp
  pending n h := by
    rw [hh, hn] at h
    exact .inl (.inl (h.resolve_right List.not_mem_nil))
  scans := hs
  scan_min := hmin
  todo_min m rest hr n hmem := by
    have hnil := Pc.todo_nodes hr hmem
    rw [hn] at hnil
    cases hnil

omit [DecidableEq ι] in
/-- A scan goes on at record `i`. -/
theorem Arrives.scanning {g : List ℕ} {i m : ℕ} (hh : s'.retiredHead = s.retiredHead)
    (hs : l.pc.scanned ≠ none) (hmin : ∀ j, pass t j → j < i → m ≤ s'.announcedEpoch j) :
    Arrives since pass s s' t l ⟨g, scanFrom i m⟩ := by
  refine .rests hh (scanFrom_nodes i m) (fun j e he => (scanFrom_ne_announce i m he).elim)
    (fun n p hp => (scanFrom_ne_retire i m hp).elim) (.inr (.inr hs)) fun i' m' hi j hp hj => ?_
  obtain ⟨k, hk, hks⟩ := scanFrom_scanned (α := α) i m
  cases hks.symm.trans hi
  exact hmin j (of_passStep (.inr (scanFrom_ne_resetCount i _)) hp) (by omega)

omit [DecidableEq ι] in
/-- Coming to a place outside all passes, with nodes the thread had, or the one it has made. -/
theorem Inv.carries (h : Inv since pass s f) (hs : l'.pc.scanned = none)
    (he : ∀ i e, l'.pc ≠ .announce i e) (hp : ∀ n p, l'.pc ≠ .retire n p)
    (hn : ∀ n, n ∈ s'.retiredHead ∨ n ∈ l'.pc.nodes →
      (n ∈ s.retiredHead ∨ n ∈ (f t).pc.nodes) ∨ n.id < s.retires ∧ s.globalEpoch ≤ n.retireEpoch)
    (htodo : ∀ m rest, l'.pc.todo = some (m, rest) →
      ∃ rest', (f t).pc.todo = some (m, rest') ∧ ∀ n ∈ rest, n ∈ rest') :
    Arrives since pass s s' t (f t) l' where
  announce i e hl := absurd hl (he i e)
  retire n p hl := absurd hl (hp n p)
  pending := hn
  scans := .inl hs
  scan_min i m hl := by
    rw [hs] at hl
    cases hl
  todo_min m rest hl n hmem j hj := by
    obtain ⟨rest', hr, hsub⟩ := htodo m rest hl
    exact h.todo_min t m rest' hr n (hsub n hmem) j hj

/-- The moves of a scan: what has been announced by the records behind it bounds `min_announced`. -/
theorem Inv.scan (h : Inv since pass s f) (hl : f t = l) (hm : Move w t s l s' l')
    (hscan : l.pc.scanned ≠ none) (htake : ∀ m, l.pc ≠ .takeList m) :
    Inv (sinceStep since s s') (passStep pass t s' l') s' (Function.update f t l') := by
  have hslots := slots_move h.slots hl hm
  subst hl
  generalize hft : f t = l at hm hscan htake
  have hsome : (f t).pc.scanned ≠ none := by rwa [hft]
  cases hm with
  | resetCount g =>
    exact h.advance hslots (h.steady rfl rfl rfl)
      (.scanning rfl hsome fun j _ hj => absurd hj j.not_lt_zero) fun _ => .inl
  | seeActive g i m ha =>
    refine h.advance hslots (h.steady rfl rfl rfl)
      (.rests rfl rfl nofun nofun (.inr (.inr hsome)) fun i' m' hi j hp hj => ?_) fun _ => .inl
    cases hi
    exact h.pass_min t i m (by rw [hft]; rfl) j (of_passStep (.inr (by simp)) hp) hj
  | seeInactive g i m ha =>
    refine h.advance hslots (h.steady rfl rfl rfl) (.scanning rfl hsome fun j hp hj => ?_)
      fun _ => .inl
    have hne : j ≠ i := by
      rintro rfl
      rw [h.pass_active t j hp] at ha
      cases ha
    exact h.pass_min t i m (by rw [hft]; rfl) j hp (by omega)
  | loadEpoch g i m =>
    refine h.advance hslots (h.steady rfl rfl rfl) (.scanning rfl hsome fun j hp hj => ?_)
      fun _ => .inl
    rcases Nat.lt_succ_iff_lt_or_eq.mp hj with hlt | rfl
    · exact (min_le_left _ _).trans (h.pass_min t i m (by rw [hft]; rfl) j hp hlt)
    · exact min_le_right _ _
  | takeList g m => exact absurd rfl (htake m)
  | _ => exact absurd rfl hscan

/-- The moves of a thread that holds retired nodes: pushing, keeping and deleting them. -/
theorem Inv.nodes (h : Inv since pass s f) (hl : f t = l) (hm : Move w t s l s' l')
    (hnodes : l.pc.nodes ≠ []) :
    Inv (sinceStep since s s') (passStep pass t s' l') s' (Function.update f t l') := by
  have hslots := slots_move h.slots hl hm
  subst hl
  generalize hft : f t = l at hm hnodes
  cases hm with
  | pushLoad g n r | pushRetry g n next r =>
    refine h.advance hslots (h.steady rfl rfl rfl)
      (h.carries rfl nofun nofun (fun n hn => .inl ?_) fun m rest hr => ⟨rest, ?_, fun _ => id⟩)
      fun _ => .inl
    · rwa [hft]
    · rwa [hft]
  | push g n next r =>
    have hrest : ∀ x, x ∈ (afterPush r : Pc α).nodes → x ∈ (f t).pc.nodes := fun x hx => by
      rw [hft]
      cases r with
      | none => cases hx
      | some r => exact List.mem_cons_of_mem n hx
    have hself : n ∈ (f t).pc.nodes := by
      rw [hft]
      exact List.mem_cons_self
    have htodo : (afterPush r : Pc α).todo = (f t).pc.todo := by
      rw [hft]
      cases r <;> rfl
    refine h.advance hslots (h.steady rfl rfl rfl)
      (h.carries (by cases r <;> rfl) (by cases r <;> exact nofun) (by cases r <;> exact nofun)
        (fun x hx => .inl ?_) fun m rest hr => ⟨rest, htodo ▸ hr, fun _ => id⟩) fun _ => .inl
    rcases hx with hx | hx
    · rcases List.mem_cons.mp hx with rfl | hx
      · exact .inr hself
      · exact .inl hx
    · exact .inr (hrest x hx)
  | keep g m n rest hge =>
    refine h.advance hslots (h.steady rfl rfl rfl)
      (h.carries rfl nofun nofun (fun x hx => .inl ?_) fun m' rest' hr => ⟨n :: rest, ?_, ?_⟩)
      fun _ => .inl
    · rwa [hft]
    · cases hr
      rw [hft]
      rfl
    · cases hr
      exact fun x hx => List.mem_cons_of_mem n hx
  | delete g m n rest hlt =>
    have hmem : Pending s f n := .inr ⟨t, by rw [hft]; exact List.mem_cons_self⟩
    refine h.advance hslots (h.steady rfl rfl rfl)
      (h.carries rfl nofun nofun (fun x hx => .inl (hx.imp_right fun hx => ?_))
        fun m' rest' hr => ⟨n :: rest, ?_, ?_⟩) fun n' hd => ?_
    · rw [hft]
      exact List.mem_cons_of_mem n hx
    · cases hr
      rw [hft]
      rfl
    · cases hr
      exact fun x hx => List.mem_cons_of_mem n hx
    · by_cases hn : n' = n.id
      · subst hn
        refine .inr ⟨h.node_lt n hmem, fun j hj => ?_⟩
        have hle := h.todo_min t m (n :: rest) (by rw [hft]; rfl) n List.mem_cons_self j hj
        omega
      · dsimp only at hd
        exact .inl (by rwa [Function.update_of_ne hn] at hd)
  | _ => exact absurd rfl hnodes

/-- **Every allowed move keeps the invariant.** -/
theorem inv_move (h : Inv since pass s f) (hl : f t = l) (hok : Allowed w pass s t l)
    (hm : Move w t s l s' l') :
    Inv (sinceStep since s s') (passStep pass t s' l') s' (Function.update f t l') := by
  by_cases hnodes : l.pc.nodes = []
  swap
  · exact h.nodes hl hm hnodes
  by_cases hscan : l.pc.scanned ≠ none ∧ ∀ m, l.pc ≠ .takeList m
  · exact h.scan hl hm hscan.1 hscan.2
  have hslots := slots_move h.slots hl hm
  subst hl
  generalize hft : f t = l at hm hok hnodes hscan
  cases hm with
  | retire g p =>
    refine h.advance hslots ⟨le_rfl, h.announced_le, fun _ _ => rfl, Nat.le_succ _⟩
      (.rests rfl rfl nofun (fun n q hn => ?_) (.inl rfl) nofun) fun _ => .inl
    cases hn
    exact Nat.lt_succ_self _
  | collect g | countCollect g n =>
    refine h.advance hslots (h.steady rfl rfl rfl)
      (.rests rfl rfl nofun nofun (.inr (.inl rfl)) fun i m hi j _ hj => ?_) fun _ => .inl
    cases hi
    cases hj
  | bumpEpoch g i =>
    have hw : (s.globalEpoch + 1) % 2 ^ w = s.globalEpoch + 1 := Nat.mod_eq_of_lt hok
    rw [hw] at hslots ⊢
    refine h.advance hslots
      ⟨Nat.le_succ _, fun j => (h.announced_le j).trans (Nat.le_succ _), fun _ _ => rfl, le_rfl⟩
      (.rests rfl rfl (fun i' e he => ?_) nofun (.inl rfl) nofun) fun _ => .inl
    cases he
    exact le_rfl
  | announce g i e =>
    have hfree := (h.slots.claims t i (by rw [hft]; rfl)).2.1
    have he := h.announce_le t i e (by rw [hft])
    refine h.advance hslots ⟨le_rfl, fun j => ?_, fun j hj => ?_, le_rfl⟩
      (.rests rfl rfl nofun nofun (.inl rfl) nofun) fun _ => .inl
    · dsimp only
      by_cases hji : j = i
      · subst hji
        rw [Function.update_self]
        exact he
      · rw [Function.update_of_ne hji]
        exact h.announced_le j
    · refine Function.update_of_ne ?_ _ _
      rintro rfl
      rw [hfree] at hj
      cases hj
  | makeNode g id p =>
    refine h.advance hslots (h.steady rfl rfl rfl)
      (h.carries rfl nofun nofun (fun n hn => ?_) nofun) fun _ => .inl
    rcases hn with hn | hn
    · exact .inl (.inl hn)
    · obtain rfl := List.mem_singleton.mp hn
      exact .inr ⟨h.retire_lt t id p (by rw [hft]), le_rfl⟩
  | takeList g m =>
    have hmin := h.take_min hft hok
    refine h.advance hslots (h.steady rfl rfl rfl)
      ⟨nofun, nofun, fun n hn => .inl (.inl (hn.resolve_left List.not_mem_nil)), .inl rfl, nofun,
        fun m' rest hr n hn j hj => ?_⟩ fun _ => .inl
    cases hr
    exact hmin n hn j hj
  | resetCount | seeActive | seeInactive | loadEpoch =>
    exact absurd ⟨Option.some_ne_none _, nofun⟩ hscan
  | pushLoad | push | pushRetry | delete | keep => exact absurd hnodes (List.cons_ne_nil _ _)
  | _ =>
    exact h.advance hslots (h.steady rfl rfl rfl) (.rests rfl rfl nofun nofun (.inl rfl) nofun)
      fun _ => .inl
end

/-! ## Runs -/

/-- A step of a history. -/
abbrev Step (ι α : Type) := Rec ι (Shared ι α) (Local α) (Op α) Res

/-- The registry indices whose guard was active when `retire` call `n` was made and has been
active ever since. -/
def guardsSince : List (Step ι α) → ℕ → ℕ → Prop
  | [] => fun _ _ => False
  | r :: h => sinceStep (guardsSince h) r.pre.shared r.cfg.shared

/-- The registry indices whose guard has been active since thread `t`'s present pass began. -/
def guardsInPass : List (Step ι α) → ι → ℕ → Prop
  | [] => fun _ _ => False
  | r :: h => passStep (guardsInPass h) r.tid r.cfg.shared (r.cfg.loc r.tid)

/-- Entering a guard does not wrap `global_epoch_`. -/
def NoWrap (w : ℕ) (c : Config ι (Shared ι α) (Local α)) (t : ι) : Prop :=
  ∀ i, (c.loc t).pc = .bumpEpoch i → c.shared.globalEpoch + 1 < 2 ^ w

/-- When `collect` takes the retired list, no guard is active, or some guard has been active ever
since the pass began. -/
def TakesSafely (h : List (Step ι α)) (c : Config ι (Shared ι α) (Local α)) (t : ι) : Prop :=
  ∀ m, (c.loc t).pc = .takeList m →
    (∀ j, c.shared.active j = false) ∨ ∃ j, guardsInPass h t j

omit [DecidableEq ι] in
theorem inv_initial : Inv (fun _ _ => False) (fun _ _ => False) (initial (ι := ι) (α := α)).shared
    (initial (ι := ι) (α := α)).loc := by
  have hs : Slots (initial (ι := ι) (α := α)).shared (initial (ι := ι) (α := α)).loc := by
    constructor <;> simp [initial, Pc.claims, Pc.leaves]
  refine ⟨hs, ?_, ?_, ?_, ?_, ?_, ?_, ?_, ?_, ?_, ?_, ?_, ?_⟩ <;>
    simp [initial, Pending, Pc.nodes, Pc.scanned, Pc.todo]

theorem inv_run {w : ℕ} {h : List (Step ι α)} {c : Config ι (Shared ι α) (Local α)}
    (hr : (program w).Run (fun h c t _ => NoWrap w c t ∧ TakesSafely h c t) initial h c) :
    Inv (guardsSince h) (guardsInPass h) c.shared c.loc := by
  refine hr.induction (I := fun h c => Inv (guardsSince h) (guardsInPass h) c.shared c.loc)
    inv_initial fun h c t k ev s l _ ih hok hs => ?_
  have hallowed : Allowed w (guardsInPass h) c.shared t (c.loc t) := by
    unfold Allowed
    split
    · rename_i i hpc; exact hok.1 i hpc
    · rename_i m hpc; exact (hok.2 m hpc).symm
    · trivial
  have := inv_move ih rfl hallowed (step_move hs)
  simp only [guardsSince, guardsInPass, Config.set_loc_self]
  exact this

/-- **The guarantee.** In every run that meets `NoWrap` and `TakesSafely`, a node that has been
deleted has no guard left that had become active before its `retire` call. -/
theorem deleted_unprotected {w : ℕ} {h : List (Step ι α)} {c : Config ι (Shared ι α) (Local α)}
    (hr : (program w).Run (fun h c t _ => NoWrap w c t ∧ TakesSafely h c t) initial h c) (n : ℕ)
    (hn : c.shared.deleted n ≠ 0) (j : ℕ) : ¬ guardsSince h n j :=
  (inv_run hr).deleted_since n hn j

omit [DecidableEq ι] in
/-- A guard that stays active keeps protecting what it protects. -/
theorem guardsSince_append {n j : ℕ} {h : List (Step ι α)} (hn : guardsSince h n j) :
    ∀ {h' : List (Step ι α)}, (∀ r ∈ h', r.cfg.shared.active j = true) → guardsSince (h' ++ h) n j
  | [], _ => hn
  | r :: _, hall => ⟨hall r List.mem_cons_self, Or.inr (guardsSince_append hn fun r' hr' =>
      hall r' (List.mem_cons_of_mem _ hr'))⟩

/-- A configuration of two threads that retire numbers. -/
abbrev TwoThreads := Config Bool (Shared Bool ℕ) (Local ℕ)

/-- The epoch is far from wrapping, and a list is taken with no record active. -/
def quietTake (c : TwoThreads) (t : Bool) (_ : Choice ℕ) (_ : TwoThreads) : Bool :=
  decide (c.shared.globalEpoch < 10) &&
    match (c.loc t).pc with
    | .takeList _ => (List.range maxThreads).all fun j => !c.shared.active j
    | _ => true

theorem quietTake_ok {h : List (Step Bool ℕ)} {c c' : TwoThreads} {t : Bool} {k : Choice ℕ}
    (hr : (program 64).Run (fun h c t _ => NoWrap 64 c t ∧ TakesSafely h c t) initial h c)
    (hq : quietTake c t k c' = true) : NoWrap 64 c t ∧ TakesSafely h c t := by
  simp only [quietTake, Bool.and_eq_true, decide_eq_true_eq] at hq
  refine ⟨fun i _ => by omega, fun m hpc => Or.inl fun j => ?_⟩
  rw [hpc] at hq
  cases ha : c.shared.active j with
  | false => rfl
  | true =>
    have hj := (inv_run hr).slots.active_lt j ha
    have := List.all_eq_true.mp hq.2 j (List.mem_range.mpr hj)
    simp [ha] at this

/-- Thread `true` retires a number under a guard and leaves; thread `false` collects. -/
def retireThenCollect : List (Bool × Choice ℕ) :=
  (true, Choice.call .enter) :: List.replicate 5 (true, Choice.run) ++
    (true, Choice.call (.retire 7)) :: List.replicate 5 (true, Choice.run) ++
    (true, Choice.call (.leave 0)) :: List.replicate 3 (true, Choice.run) ++
    (false, Choice.call .collect) :: List.replicate 131 (false, Choice.run)

theorem deleted_unprotected_after_collect :
    ∃ (h : List (Step Bool ℕ)) (c : TwoThreads),
      (program 64).Run (fun h c t _ => NoWrap 64 c t ∧ TakesSafely h c t) initial h c ∧
        c.shared.deleted 0 = 1 ∧ ∀ j, ¬ guardsSince h 0 j := by
  have he : (((program 64).exec quietTake initial retireThenCollect).any
      fun c => c.shared.deleted 0 == 1) = true := by set_option maxRecDepth 10000 in decide
  obtain ⟨c, hc, hd⟩ := (Option.any_eq_true _ _).mp he
  obtain ⟨h, hr⟩ := Program.exec_run _ (fun h c t k c' hr hq => quietTake_ok hr hq) hc
  have hd : c.shared.deleted 0 = 1 := by simpa using hd
  exact ⟨h, c, hr, hd, deleted_unprotected hr 0 (by rw [hd]; exact Nat.one_ne_zero)⟩

/-- Thread `false` scans the registry without a guard of its own and finds nothing; then thread
`true` enters a guard. -/
def scanThenEnter : List (Bool × Choice ℕ) :=
  (false, Choice.call .collect) :: List.replicate 129 (false, Choice.run) ++
    (true, Choice.call .enter) :: List.replicate 5 (true, Choice.run)

/-- Thread `true` calls `retire` and finishes it; thread `false` takes the list and sweeps it. -/
def pushThenSweep : List (Bool × Choice ℕ) :=
  List.replicate 5 (true, Choice.run) ++ List.replicate 2 (false, Choice.run)

/-- The epoch is far from wrapping and the guard at record 0 stays active. -/
def guarded (c : TwoThreads) (_ : Bool) (_ : Choice ℕ) (c' : TwoThreads) : Bool :=
  decide (c.shared.globalEpoch < 10) && c'.shared.active 0

/-- **The window.** An unguarded `collect` whose scan ran before an entry deletes the node that is
retired under the new guard before the list is taken. -/
theorem unguarded_collect_deletes :
    ¬ ∀ (h : List (Step Bool ℕ)) (c : TwoThreads),
      (program 64).Run (fun _ c t _ => NoWrap 64 c t) initial h c →
      ∀ n, c.shared.deleted n ≠ 0 → ∀ j, ¬ guardsSince h n j := by
  intro hall
  -- up to the `retire` call, and from there on with the guard active
  have he : (((program 64).exec (fun c _ _ _ => decide (c.shared.globalEpoch < 10)) initial
      scanThenEnter).any fun c => (((program 64).step true (.call (.retire 7)) c.shared
        (c.loc true)).any fun r => ((program 64).exec guarded (c.set true r.2.1 r.2.2)
          pushThenSweep).any fun c' => r.2.1.active 0 && c.shared.retires == 0 &&
            r.2.1.retires == 1 && c'.shared.deleted 0 == 1)) = true := by
    set_option maxRecDepth 10000 in decide
  obtain ⟨c, hc, he⟩ := (Option.any_eq_true _ _).mp he
  obtain ⟨⟨ev, s, l⟩, hs, he⟩ := (Option.any_eq_true _ _).mp he
  obtain ⟨c', hc', he⟩ := (Option.any_eq_true _ _).mp he
  simp only [Bool.and_eq_true, beq_iff_eq] at he
  obtain ⟨⟨⟨ha, h0⟩, h1⟩, hd⟩ := he
  have hwrap : ∀ (h : List (Step Bool ℕ)) (c : TwoThreads) (t : Bool) (_ : Choice ℕ),
      c.shared.globalEpoch < 10 → NoWrap 64 c t := fun _ c t _ h i _ => by omega
  obtain ⟨h, hr⟩ := Program.exec_run (fun _ c t _ => NoWrap 64 c t)
    (fun h c t k _ _ hq => hwrap h c t k (of_decide_eq_true hq)) hc
  have hnow : NoWrap 64 c true := fun i hpc => by
    simp [program, step, hpc] at hs
  obtain ⟨h', hr', hg⟩ := Program.exec_run_from (fun _ c t _ => NoWrap 64 c t)
    (fun h c t k _ _ hq => hwrap h c t k (by simp [guarded] at hq; exact hq.1))
    pushThenSweep (hr.cons hnow hs) hc'
  refine hall _ _ hr' 0 (by rw [hd]; exact Nat.one_ne_zero) 0
    (guardsSince_append ?_ fun r hmem => ?_)
  · exact ⟨ha, Or.inl ⟨h0, h1⟩⟩
  · obtain ⟨k, hk⟩ := hg r hmem
    simp [guarded] at hk
    exact hk.2

end Bonostl.EpochDomain
