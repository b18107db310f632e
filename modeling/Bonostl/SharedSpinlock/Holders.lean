import Bonostl.Interleaving.Returned
import Bonostl.SharedSpinlock.Linear

/-!
# Who holds a `shared_spinlock`

A thread holds the lock from the result of the operation that took it until its `unlock` or
`unlock_shared` takes effect: the operations that have returned to it, and the one that has its
result and is about to return, say how often (`writes`, `reads`). These are the holds the threads
keep track of (`Inv.gains`), so what `state_` says of those it says of the holders.

`reader_writer_exclusion` is the result.
-/

namespace Bonostl.SharedSpinlock

open Interleaving

/-- What an operation that returned `v` adds to the exclusive holds of its thread. -/
def writeGain : Op → Res → ℤ
  | .lock, .unit | .tryLock, .bool true => 1
  | .unlock, _ => -1
  | _, _ => 0

/-- What an operation that returned `v` adds to the shared holds of its thread. -/
def readGain : Op → Res → ℤ
  | .lockShared, .unit | .tryLockShared, .bool true => 1
  | .unlockShared, _ => -1
  | _, _ => 0

/-- The exclusive holds a thread keeps track of. -/
def Local.writes (l : Local) : ℤ := if l.writer then 1 else 0

/-- The shared holds a thread keeps track of. -/
def Local.reads (l : Local) : ℤ := l.readers

variable {ι : Type} [DecidableEq ι]

/-- The exclusive holds of a thread, by its calls and their results. -/
def writes (h : List (Step ι)) (c : Config ι ℕ Local) (t : ι) : ℤ :=
  worth writeGain (settled (c.loc t).status h t)

/-- The shared holds of a thread, by its calls and their results. -/
def reads (h : List (Step ι)) (c : Config ι ℕ Local) (t : ι) : ℤ :=
  worth readGain (settled (c.loc t).status h t)

/-- A step changes a hold of its thread by what the operation that takes effect is worth. -/
abbrev Gains (w : Op → Res → ℤ) (m : Local → ℤ) (l l' : Local) (ev : Event Op Res) : Prop :=
  Commits (fun a o v b => b = a + w o v) id Local.status (m l) l (m l') l' ev

section
variable {s s' : ℕ} {f : ι → Local} {t : ι} {k : Choice} {ev : Event Op Res} {l' : Local}

omit [DecidableEq ι] in
/-- **What one step does to the holds of its thread.** -/
theorem Inv.gains (h : Inv s f) (hs : step t k s (f t) = some (ev, s', l')) :
    Gains writeGain Local.writes (f t) l' ev ∧ Gains readGain Local.reads (f t) l' ev := by
  have hok := h.ok t
  have hnone := fun hs => h.no_writer hs t
  generalize f t = l at hs hok hnone
  obtain ⟨pc, w, r⟩ := l
  have hfree : s = 0 → w = false := by
    rintro rfl
    exact hnone (Nat.two_pow_pos 31).ne
  unfold step at hs
  cases pc with
  | idle =>
    cases k with
    | call o =>
      dsimp only at hs
      split at hs
      all_goals cases hs
      rename_i pc hpc
      have hst : pc.status = .called o := by
        cases o with
        | unlock | unlockShared =>
          simp only [Op.start] at hpc
          split at hpc
          all_goals cases hpc
          rfl
        | _ =>
          cases hpc
          rfl
      exact ⟨.call o rfl hst rfl, .call o rfl hst rfl⟩
    | _ => cases hs
  | lock =>
    cases k with
    | run =>
      dsimp only at hs
      split at hs
      all_goals cases hs
      · obtain rfl := hfree ‹_›
        exact ⟨.commit .lock .unit rfl rfl rfl, .commit .lock .unit rfl rfl (add_zero _).symm⟩
      · exact ⟨.tau rfl rfl, .tau rfl rfl⟩
    | spurious =>
      cases hs
      exact ⟨.tau rfl rfl, .tau rfl rfl⟩
    | _ => cases hs
  | tryLock =>
    cases k with
    | run =>
      dsimp only at hs
      split at hs
      all_goals cases hs
      · obtain rfl := hfree ‹_›
        exact ⟨.commit .tryLock (.bool true) rfl rfl rfl,
          .commit .tryLock (.bool true) rfl rfl (add_zero _).symm⟩
      · exact ⟨.commit .tryLock (.bool false) rfl rfl (add_zero _).symm,
          .commit .tryLock (.bool false) rfl rfl (add_zero _).symm⟩
    | _ => cases hs
  | unlock =>
    cases k with
    | run =>
      cases hs
      obtain rfl : w = true := hok.unlock rfl
      exact ⟨.commit .unlock .unit rfl rfl rfl, .commit .unlock .unit rfl rfl (add_zero _).symm⟩
    | _ => cases hs
  | lockShared | reloadShared =>
    cases k with
    | run =>
      cases hs
      exact ⟨.tau (sharedFrom_status _) rfl, .tau (sharedFrom_status _) rfl⟩
    | _ => cases hs
  | casShared observed =>
    cases k with
    | run =>
      dsimp only at hs
      split at hs
      all_goals cases hs
      · exact ⟨.commit .lockShared .unit rfl rfl (add_zero _).symm,
          .commit .lockShared .unit rfl rfl (Nat.cast_succ r)⟩
      · exact ⟨.tau (sharedFrom_status _) rfl, .tau (sharedFrom_status _) rfl⟩
    | spurious =>
      cases hs
      exact ⟨.tau (sharedFrom_status _) rfl, .tau (sharedFrom_status _) rfl⟩
    | _ => cases hs
  | tryLockShared =>
    cases k with
    | run =>
      cases hs
      by_cases hw : hasWriter s
      · have hst : (if hasWriter s then Pc.done (.bool false) else .tryCasShared s).status =
            .done (.bool false) := by rw [if_pos hw]; rfl
        exact ⟨.commit .tryLockShared (.bool false) rfl hst (add_zero _).symm,
          .commit .tryLockShared (.bool false) rfl hst (add_zero _).symm⟩
      · have hst : (if hasWriter s then Pc.done (.bool false) else .tryCasShared s).status =
            .called .tryLockShared := by rw [if_neg hw]; rfl
        exact ⟨.tau hst rfl, .tau hst rfl⟩
    | _ => cases hs
  | tryCasShared observed =>
    cases k with
    | run =>
      dsimp only at hs
      split at hs
      all_goals cases hs
      · exact ⟨.commit .tryLockShared (.bool true) rfl rfl (add_zero _).symm,
          .commit .tryLockShared (.bool true) rfl rfl (Nat.cast_succ r)⟩
      · exact ⟨.commit .tryLockShared (.bool false) rfl rfl (add_zero _).symm,
          .commit .tryLockShared (.bool false) rfl rfl (add_zero _).symm⟩
    | _ => cases hs
  | unlockShared =>
    cases k with
    | run =>
      obtain ⟨rfl, -, rfl⟩ : _ ∧ _ ∧ _ := by simpa using hs
      have hpos : 0 < r := hok.unlockShared rfl
      refine ⟨.commit .unlockShared .unit rfl rfl (add_zero _).symm,
        .commit .unlockShared .unit rfl rfl ?_⟩
      have hpred : ((r - 1 : ℕ) : ℤ) = r + -1 := by omega
      exact hpred
    | _ => cases hs
  | done v =>
    cases k with
    | run =>
      cases hs
      exact ⟨.ret v rfl rfl rfl, .ret v rfl rfl rfl⟩
    | _ => cases hs
end

section
variable {h : List (Step ι)} {c : Config ι ℕ Local}

/-- **The holds threads keep track of are those their calls have returned to them.** -/
theorem holds_run (hr : program.Run Program.anyStep initial h c)
    (hb : ∀ r ∈ h, readers r.cfg.loc ≤ 2 ^ 31 - 1) :
    Measured writeGain Local.status Local.writes h c ∧
      Measured readGain Local.status Local.reads h c := by
  induction hr with
  | nil => exact ⟨fun _ => ⟨rfl, rfl⟩, fun _ => ⟨rfl, rfl⟩⟩
  | @cons h c t k ev s l hrun _ hs ih =>
    have hb₁ : ∀ r ∈ h, readers r.cfg.loc ≤ 2 ^ 31 - 1 := fun r hr =>
      hb r (List.mem_cons_of_mem _ hr)
    obtain ⟨hwrites, hreads⟩ := ih hb₁
    obtain ⟨hw, hr⟩ := (inv_run hrun hb₁).gains hs
    exact ⟨hwrites.step hw, hreads.step hr⟩

/-- The shared holds of all threads together. -/
theorem readers_eq (hreads : ∀ t, reads h c t = (c.loc t).readers) :
    (readers c.loc : ℤ) = ∑ t ∈ users h, reads h c t := by
  have hsub : Function.support (fun t => (c.loc t).readers) ⊆ users h := by
    intro t ht
    by_contra hno
    obtain ⟨hcur, hret, -⟩ := of_notMem_users hno
    have hzero : reads h c t = 0 := by
      rw [reads, settled, hcur, hret]
      cases (c.loc t).status <;> rfl
    rw [hreads t] at hzero
    exact ht (Int.natCast_eq_zero.mp hzero)
  unfold readers total
  rw [finsum_eq_sum_of_support_subset _ hsub, Nat.cast_sum]
  exact Finset.sum_congr rfl fun t _ => (hreads t).symm

/-- **Exclusion.** In every run with at most `2 ^ 31 - 1` shared holds outstanding: the holds the
threads keep track of are those their calls and results give them; `state_` is `writer_bit` while a
writer holds the lock, and the number of shared holds otherwise; there is at most one writer, and no
reader beside it; and a `try_lock` that finds nobody holding the lock succeeds. -/
theorem reader_writer_exclusion (hr : program.Run Program.anyStep initial h c)
    (hb : ∀ r ∈ h, readers r.cfg.loc ≤ 2 ^ 31 - 1) :
    (∀ t, writes h c t = (if (c.loc t).writer then 1 else 0) ∧ reads h c t = (c.loc t).readers) ∧
    (∀ t, writes h c t = 1 → c.shared = 2 ^ 31) ∧
    ((∀ t, writes h c t = 0) → c.shared = ∑ t ∈ users h, reads h c t) ∧
    (∀ t u, writes h c t = 1 → writes h c u = 1 → t = u) ∧
    (∀ t u, writes h c t = 1 → reads h c u = 0) ∧
    ∀ t, (c.loc t).pc = .tryLock → (∀ u, writes h c u = 0 ∧ reads h c u = 0) →
      program.step t .run c.shared (c.loc t) =
        some (.tau, 2 ^ 31, { c.loc t with pc := .done (.bool true), writer := true }) := by
  have hI := inv_run hr hb
  obtain ⟨hW, hR⟩ := holds_run hr hb
  have hwrites : ∀ t, writes h c t = if (c.loc t).writer then 1 else 0 := fun t => (hW t).2.symm
  have hreads : ∀ t, reads h c t = (c.loc t).readers := fun t => (hR t).2.symm
  have hwriter : ∀ t, writes h c t = 1 → (c.loc t).writer = true := by
    intro t ht
    by_contra hno
    rw [hwrites t, if_neg hno] at ht
    cases ht
  have hfree : ∀ t, writes h c t = 0 → (c.loc t).writer = false := by
    intro t ht
    by_contra hno
    rw [hwrites t, if_pos (by simpa using hno)] at ht
    cases ht
  refine ⟨fun t => ⟨hwrites t, hreads t⟩, fun t ht => (hI.writer t (hwriter t ht)).1,
    fun hall => ?_, fun t u ht hu => hI.alone t u (hwriter t ht) (hwriter u hu), fun t u ht => ?_,
    fun t ht hnone => ?_⟩
  · rw [← readers_eq hreads, hI.free fun t => hfree t (hall t)]
  · rw [hreads u, eq_zero_of_total hI.finite (hI.writer t (hwriter t ht)).2 u]
    rfl
  · have hs : c.shared = 0 := by
      rw [hI.free fun u => hfree u (hnone u).1]
      refine total_eq_zero fun u => ?_
      have := (hnone u).2
      rw [hreads u] at this
      omega
    have hstep : ∀ l : Local, l.pc = .tryLock → step t .run 0 l =
        some (.tau, 2 ^ 31, { l with pc := .done (.bool true), writer := true }) := by
      rintro ⟨pc, w, r⟩ hpc
      obtain rfl : pc = .tryLock := hpc
      rfl
    rw [hs]
    exact hstep _ ht
end

/-- Two readers, and a writer that tries to come in: `state_` is 2. -/
theorem reader_writer_exclusion_two_readers : ∃ h c,
    (program (ι := Bool)).Run Program.anyStep initial h c ∧ reads h c true = 1 ∧
    reads h c false = 1 ∧
      returned h true = [(.tryLock, .bool false), (.lockShared, .unit)] ∧
      (c.shared : ℤ) = ∑ t ∈ users h, reads h c t := by
  obtain ⟨h, c, hr, hq⟩ := Program.replay_reaches (program (ι := Bool)) initial
    [(true, .call .lockShared), (false, .call .tryLockShared), (true, .run), (false, .run),
      (true, .run), (false, .run), (false, .run), (false, .call .lockShared), (false, .run),
      (false, .run), (true, .run), (true, .call .tryLock), (true, .run), (true, .run)]
    (fun h c => decide (reads h c true = 1 ∧ reads h c false = 1 ∧ writes h c true = 0 ∧
      writes h c false = 0 ∧ returned h true = [(.tryLock, .bool false), (.lockShared, .unit)] ∧
      ∀ r ∈ h, (r.cfg.loc true).readers + (r.cfg.loc false).readers ≤ 2 ^ 31 - 1))
    (by decide)
  obtain ⟨h1, h2, h3, h4, h5, hb⟩ := of_decide_eq_true hq
  have hE := reader_writer_exclusion hr fun r hr => by
    rw [readers_two]
    exact hb r hr
  refine ⟨h, c, hr, h1, h2, h5, hE.2.2.1 fun t => ?_⟩
  cases t with
  | true => exact h3
  | false => exact h4

end Bonostl.SharedSpinlock
