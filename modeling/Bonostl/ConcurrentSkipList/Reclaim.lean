import Bonostl.ConcurrentSkipList.Domain

/-!
# What a skip list retires

`retired h` are the nodes handed to `retire` in a run, in order, and `reclaimed h` those that the
passes of the domain have deleted. A node is retired by the thread that marked it, once that thread
has found each of its levels without it; so it is retired once, and it is on no level from then on
(`Reclaims`).
-/

namespace Bonostl.ConcurrentSkipList

open Interleaving Chain

variable {ι T : Type}

/-- The nodes handed to `retire`, in the order of the calls. -/
def retired (h : List (Step ι T)) : List ℕ := EpochDomain.pointers (domainHist h)

/-- The node a step from `l` deletes in a pass of the domain. -/
def reclaims (l : Local T) : Option ℕ :=
  match l.pc with
  | .domain _ => deletes l.domain
  | _ => none

/-- The nodes that passes have deleted, newest first. -/
def reclaimed (h : List (Step ι T)) : List ℕ := h.filterMap fun r => reclaims (r.pre.loc r.tid)

theorem reclaimed_cons (r : Step ι T) (h : List (Step ι T)) :
    reclaimed (r :: h) = (reclaims (r.pre.loc r.tid)).toList ++ reclaimed h := by
  unfold reclaimed
  rw [List.filterMap_cons]
  cases reclaims (r.pre.loc r.tid) <;> rfl

/-- The node a step from `pc` retires. -/
def Pc.retires : Pc T → Option ℕ
  | .retire x => some x
  | _ => none

theorem retired_cons (r : Step ι T) (h : List (Step ι T)) :
    retired (r :: h) = retired h ++ (r.pre.loc r.tid).pc.retires.toList := by
  have hev : ∀ e, domainEvent (r.pre.loc r.tid) = some e →
      (∃ x, e = .call (.retire x) ∧ (r.pre.loc r.tid).pc.retires = some x) ∨
        ((∀ x, e ≠ .call (.retire x)) ∧ (r.pre.loc r.tid).pc.retires = none) := by
    generalize r.pre.loc r.tid = l
    obtain ⟨d, pc⟩ := l
    intro e he
    cases pc with
    | retire x => cases he; exact .inl ⟨x, rfl, rfl⟩
    | idle => cases he; exact .inr ⟨nofun, rfl⟩
    | domain v =>
      obtain ⟨g, p⟩ := d
      cases p <;> cases he <;> exact .inr ⟨nofun, rfl⟩
    | leave res =>
      obtain ⟨i, -, rfl⟩ := Option.map_eq_some_iff.mp he
      exact .inr ⟨nofun, rfl⟩
    | _ => cases he
  cases he : domainEvent (r.pre.loc r.tid) with
  | none =>
    have hn : (r.pre.loc r.tid).pc.retires = none := by
      generalize r.pre.loc r.tid = l at he
      obtain ⟨d, pc⟩ := l
      cases pc with
      | retire x => cases he
      | _ => rfl
    rw [hn]
    unfold retired domainHist
    rw [view_none he]
    simp
  | some e =>
    unfold retired domainHist
    rw [view_some he]
    rcases hev e he with ⟨x, rfl, hx⟩ | ⟨hne, hn⟩
    · simp [EpochDomain.pointers, calls, hx]
    · rw [hn]
      cases e with
      | call o =>
        cases o with
        | retire x => exact absurd rfl (hne x)
        | _ => simp [EpochDomain.pointers, calls]
      | _ => simp [EpochDomain.pointers, calls]

section
variable [LT T] [DecidableLT T] {L : ℕ → ℕ → Prop} {s s' : Shared ι T} {f : ι → Local T} {t : ι}
  {l l' : Local T} {w : ℕ} {ev : Event (Op T) Res} {ps : List ℕ}

/-- A thread's victim is the one it has, or the node it marks. -/
theorem Move.victim (hm : Move w t s ev l s' l') : l'.pc.victim = none ∨
    l'.pc.victim = l.pc.victim ∨ ∃ v x, l.pc = .mark v x ∧ l'.pc.victim = some x := by
  cases hm with
  | domainEnd v g r =>
    cases v with
    | enter o => cases r <;> cases o <;> exact .inl rfl
    | retire | leave => exact .inl rfl
  | found d k | notFound d k => cases k <;> exact .inl rfl
  | setLast d a i => exact .inl (lockFrom_tables a 0).2.2
  | predNext d a i => exact .inl (lockFrom_tables a (i + 1)).2.2
  | predMarked d a i | succMarked d a i | predNextFail d a i =>
    exact .inl (unlockFrom_tables a false (i + 1)).2.2
  | setFullyLinked d a => exact .inl (unlockFrom_tables a true (a.top + 1)).2.2
  | unlock d a i valid => exact .inl (unlockFrom_tables a valid i).2.2
  | mark d v x => exact .inr (.inr ⟨v, x, rfl, rfl⟩)
  | unlockVictim d v x => exact .inr (.inl (spliceFrom_tables v x (s.topLevel x + 1)).2.2.1)
  | spliceMissed d v x i | unlockSpliced d v x i =>
    exact .inr (.inl (spliceFrom_tables v x i).2.2.1)
  | _ => first | exact .inl rfl | exact .inr (.inl rfl)

/-- The retired nodes: each was marked, is on no level, and nobody's victim. -/
structure Reclaims (ps : List ℕ) (s : Shared ι T) (f : ι → Local T) : Prop where
  nodup : ps.Nodup
  gone : ∀ x ∈ ps, s.marked x = true ∧ ∀ j ≤ s.topLevel x, x ∉ chainOf s j
  victims : ∀ t x, (f t).pc.victim = some x → x ∉ ps

variable [DecidableEq ι]

theorem Reclaims.move [IsStrictWeakOrder T (· < ·)] (h : Reclaims ps s f) (hI : Inv L s f)
    (hm : Move w t s ev (f t) s' l') :
    Reclaims (ps ++ (f t).pc.retires.toList) s' (Function.update f t l') := by
  obtain ⟨-, hG⟩ := inv_move hI hm
  have hgone : ∀ x, s.marked x = true → (∀ j ≤ s.topLevel x, x ∉ chainOf s j) →
      s'.marked x = true ∧ ∀ j ≤ s'.topLevel x, x ∉ chainOf s' j := by
    intro x hx hg
    refine ⟨hG.marked x hx, fun j hj => ?_⟩
    rw [hG.topLevel x (hI.levels.used_of_full (hI.levels.marked x hx))] at hj
    exact Grows.gone_of hI.levels hG hx hj (hg j hj)
  cases hret : (f t).pc.retires with
  | none =>
    rw [Option.toList_none, List.append_nil]
    refine ⟨h.nodup, fun x hx => hgone x (h.gone x hx).1 (h.gone x hx).2, fun u x hx => ?_⟩
    by_cases hu : u = t
    · subst hu
      rw [Function.update_self] at hx
      rcases hm.victim with hv | hv | ⟨v, y, hpc, hv⟩
      · rw [hv] at hx; cases hx
      · exact h.victims u x (hv ▸ hx)
      · -- what is marked now was not retired before
        obtain rfl := Option.some.inj (hv.symm.trans hx)
        have hk := hI.knows u
        rw [hpc] at hk
        obtain ⟨-, -, hunmarked⟩ := hk
        intro hmem
        rw [(h.gone _ hmem).1] at hunmarked
        cases hunmarked
    · rw [Function.update_of_ne hu] at hx
      exact h.victims u x hx
  | some x =>
    have hpc : (f t).pc = .retire x := by
      generalize (f t).pc = pc at hret
      cases pc with
      | retire y => cases hret; rfl
      | _ => cases hret
    have hk := hI.knows t
    have hvict : (f t).pc.victim = some x := by rw [hpc]; rfl
    rw [hpc] at hk
    have hmem : ∀ y, y ∈ ps ++ [x] ↔ y ∈ ps ∨ y = x := fun y => by simp
    refine ⟨?_, fun y hy => ?_, fun u y hy => ?_⟩
    · rw [Option.toList_some, List.nodup_append]
      refine ⟨h.nodup, List.nodup_singleton x, fun a ha b hb => ?_⟩
      obtain rfl := List.mem_singleton.mp hb
      rintro rfl
      exact h.victims t a hvict ha
    · rcases (hmem y).mp hy with hy | rfl
      · exact hgone y (h.gone y hy).1 (h.gone y hy).2
      · exact hgone y hk.1 hk.2
    · rw [Option.toList_some, hmem]
      by_cases hu : u = t
      · subst hu
        rw [Function.update_self] at hy
        rcases hm.victim with hv | hv | ⟨v, z, hpc', -⟩
        · rw [hv] at hy; cases hy
        · -- the call has left its victim behind
          exfalso
          generalize hft : f u = l at hm hpc
          obtain ⟨d, pc⟩ := l
          obtain rfl : pc = .retire x := hpc
          cases hm
          cases hy
        · rw [hpc] at hpc'
          cases hpc'
      · rw [Function.update_of_ne hu] at hy
        rintro (hmem | rfl)
        · exact h.victims u y hy hmem
        · exact hu (hI.victims u t y hy hvict)

variable {h : List (Step ι T)} {c : Config ι (Shared ι T) (Local T)}

theorem reclaims_run [IsStrictWeakOrder T (· < ·)]
    (hr : (program w).Run Program.anyStep initial h c) : Reclaims (retired h) c.shared c.loc := by
  refine hr.induction (I := fun h c => Reclaims (retired h) c.shared c.loc) ?_
    fun h c t k ev s l hrun hI _ hs => ?_
  · exact ⟨List.nodup_nil, nofun, nofun⟩
  · rw [retired_cons]
    exact hI.move (inv_run hrun) (step_move hs)
end

/-! ## What has been deleted -/

section
variable [LT T] [DecidableLT T] {s s' : Shared ι T} {t : ι} {l l' : Local T} {w : ℕ}
  {ev : Event (Op T) Res}

/-- The step of a pass that deletes a node counts for its `retire` call, and no other step does. -/
theorem Move.deleted (hm : Move w t s ev l s' l') :
    (reclaims l = none ∧ s'.domain.deleted = s.domain.deleted) ∨
    ∃ v m n rest, l.pc = .domain v ∧ l.domain.pc = .sweep m (n :: rest) ∧ reclaims l = some n.ptr ∧
      s'.domain.deleted = Function.update s.domain.deleted n.id (s.domain.deleted n.id + 1) ∧
      l'.pc = .domain v := by
  cases hm with
  | domain v d s₁ d' hm hd =>
    rw [free_domain]
    cases hm with
    | delete g m n rest hlt =>
      exact .inr ⟨v, m, n, rest, rfl, rfl, if_pos hlt, rfl, rfl⟩
    | keep g m n rest hge => exact .inl ⟨if_neg (Nat.not_lt.mpr hge), rfl⟩
    | _ => exact .inl ⟨rfl, rfl⟩
  | domainEnd v g r => exact .inl ⟨rfl, rfl⟩
  | _ => exact .inl ⟨rfl, rfl⟩
end

section
variable [LT T] [DecidableLT T] [DecidableEq ι] [IsStrictWeakOrder T (· < ·)] {w : ℕ}
  {h : List (Step ι T)} {c : Config ι (Shared ι T) (Local T)}

/-- **A node has been deleted as often as its `retire` call's entry.** -/
theorem reclaimed_run (hr : (program w).Run Program.anyStep initial h c) :
    (∀ n x, (retired h)[n]? = some x → (reclaimed h).count x = c.shared.domain.deleted n) ∧
      ∀ x ∈ reclaimed h, x ∈ retired h := by
  induction hr with
  | nil => exact ⟨nofun, nofun⟩
  | @cons h c t k ev s l hrun _ hs ih =>
    obtain ⟨ih1, ih2⟩ := ih
    have hm := step_move hs
    have hR := reclaims_run hrun
    obtain ⟨hplaced, hcarried⟩ := EpochDomain.run_carried (domain_run_any hrun)
    rw [retired_cons, reclaimed_cons]
    dsimp only
    rcases hm.deleted with ⟨hnone, hdel⟩ | ⟨v, m, n, rest, hpc, hsweep, hsome, hdel, -⟩
    · rw [hnone]
      refine ⟨fun n x hx => ?_, fun x hx => List.mem_append_left _ (ih2 x hx)⟩
      show (reclaimed h).count x = s.domain.deleted n
      rw [hdel]
      rcases Nat.lt_or_ge n (retired h).length with hn | hn
      · rw [List.getElem?_append_left hn] at hx
        exact ih1 n x hx
      · -- the node of this step's own `retire` call
        rw [List.getElem?_append_right hn] at hx
        have hmem := List.mem_of_getElem? hx
        have hret : (c.loc t).pc.retires = some x := by simpa using hmem
        have hx' : x ∉ retired h := by
          refine hR.victims t x ?_
          generalize (c.loc t).pc = pc at hret
          cases pc with
          | retire y => exact hret
          | _ => cases hret
        rw [List.count_eq_zero.mpr fun hmem => hx' (ih2 x hmem)]
        have hge : (domainOf c).shared.retires ≤ n := by rw [hcarried.retires]; exact hn
        exact (hplaced.new n hge .deleted).symm
    · have hret : (c.loc t).pc.retires = none := by rw [hpc]; rfl
      have hid : (retired h)[n.id]? = some n.ptr := by
        refine (hcarried.pending n (.inr ⟨t, ?_⟩)).1
        show n ∈ (c.loc t).domain.pc.nodes
        rw [hsweep]
        exact List.mem_cons_self
      rw [hsome, hret, Option.toList_none, List.append_nil, Option.toList_some]
      refine ⟨fun i x hx => ?_, fun x hx => ?_⟩
      · show ([n.ptr] ++ reclaimed h).count x = s.domain.deleted i
        rw [hdel, List.singleton_append]
        by_cases hi : i = n.id
        · subst hi
          obtain rfl := Option.some.inj (hid.symm.trans hx)
          rw [Function.update_self, List.count_cons_self, ih1 n.id n.ptr hid]
        · have hne : n.ptr ≠ x := by
            rintro rfl
            exact hi ((List.getElem?_inj (List.getElem?_eq_some_iff.mp hx).1 hR.nodup).mp
              (hx.trans hid.symm))
          rw [Function.update_of_ne hi, List.count_cons_of_ne hne]
          exact ih1 i x hx
      · rcases List.mem_append.mp hx with hx | hx
        · rw [List.mem_singleton.mp hx]
          exact List.mem_of_getElem? hid
        · exact ih2 x hx
end

/-! ## Guards and deletions -/

section
variable [LT T] [DecidableLT T] [DecidableEq ι] {w : ℕ} {h : List (Step ι T)}
  {c : Config ι (Shared ι T) (Local T)}

/-- The guards that have been active since `retire` call `n` of a run. -/
def guardsSince (h : List (Step ι T)) : ℕ → ℕ → Prop := EpochDomain.guardsSince (domainHist h)

omit [LT T] [DecidableLT T] [DecidableEq ι] in
/-- A guard that stays active keeps protecting. -/
theorem guardsSince_keep {r : Step ι T} {n j : ℕ} (hn : guardsSince h n j)
    (hj : r.cfg.shared.domain.active j = true) : guardsSince (r :: h) n j := by
  unfold guardsSince domainHist at hn ⊢
  cases he : domainEvent (r.pre.loc r.tid) with
  | none =>
    rw [view_none he]
    exact hn
  | some e =>
    rw [view_some he]
    exact ⟨hj, .inr hn⟩

omit [LT T] [DecidableLT T] [DecidableEq ι] in
/-- A guard active at a `retire` call protects its node. -/
theorem guardsSince_new {r : Step ι T} {x j : ℕ} (hpc : (r.pre.loc r.tid).pc = .retire x)
    (hr : r.cfg.shared.domain.retires = r.pre.shared.domain.retires + 1)
    (hj : r.cfg.shared.domain.active j = true) :
    guardsSince (r :: h) r.pre.shared.domain.retires j := by
  have he : domainEvent (r.pre.loc r.tid) = some (.call (.retire x)) := by
    unfold domainEvent
    rw [hpc]
  unfold guardsSince domainHist
  rw [view_some he]
  exact ⟨hj, .inl ⟨rfl, hr⟩⟩

/-- The guard of a thread is active until the thread gives it back. -/
theorem guard_active (hr : (program w).Run Program.anyStep initial h c) (hw : entries h < 2 ^ w)
    {t : ι} {j : ℕ} (hj : j ∈ (c.loc t).domain.guards) (hd : (c.loc t).domain.pc ≠ .disown j) :
    c.shared.domain.active j = true :=
  (EpochDomain.watched_run (domain_run hr hw)).2.active t j hj hd

/-- What a guard protects has not been deleted. -/
theorem not_deleted (hr : (program w).Run Program.anyStep initial h c) (hw : entries h < 2 ^ w)
    {n j : ℕ} (hn : guardsSince h n j) : c.shared.domain.deleted n = 0 := by
  by_contra hd
  exact (EpochDomain.watched_run (domain_run hr hw)).1.deleted_since n hd j hn
end

end Bonostl.ConcurrentSkipList
