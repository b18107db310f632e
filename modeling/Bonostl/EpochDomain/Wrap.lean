import Bonostl.EpochDomain.Conservation

/-!
# The epoch counter wraps

A `collect` made under a guard of the collector's own is one of those `TakesSafely` allows: the
collector's guard has been active since before its pass began (`Watched`). So a domain whose passes
are all made under a guard keeps its promise as long as no guard entry wraps `global_epoch_`
(`guarded_collects_safe`).

After a wrap, a guard announced before it has a larger epoch than everything that comes later. It no
longer holds `min_announced` down, and a node retired under it at epoch 0 is deleted by the next
pass made at epoch 1 (`wrapped_epoch_deletes`): `2 ^ 32 - 2` guards, one that stays, and three more.
-/

namespace Bonostl.EpochDomain

open Interleaving

variable {ι α : Type} [DecidableEq ι]

/-- The guards of a thread are active, except for the one it is giving back, and those of a thread
that scans have been active since its pass began. -/
structure Watched (pass : ι → ℕ → Prop) (s : Shared ι α) (f : ι → Local α) : Prop where
  active : ∀ t j, j ∈ (f t).guards → (f t).pc ≠ .disown j → s.active j = true
  pass : ∀ t, (f t).pc.scanned ≠ none → ∀ j ∈ (f t).guards, pass t j
  held : ∀ t, (f t).pc.scanned ≠ none → (f t).pc ≠ .resetCount → (f t).guards ≠ []

/-- A pass begins under a guard. -/
def UnderGuard (l : Local α) : Prop := l.pc = .resetCount → l.guards ≠ []

section
variable {w : ℕ} {pass : ι → ℕ → Prop} {s s' : Shared ι α} {f : ι → Local α} {t : ι} {l' : Local α}

/-- A step that leaves the active flags and the mover's guards alone. -/
theorem Watched.quiet (h : Watched pass s f) (ha : ∀ i, s'.active i = s.active i)
    (hg : l'.guards = (f t).guards) (hd : ∀ i, (f t).pc ≠ .disown i)
    (hs : l'.pc.scanned ≠ none → l'.pc = .resetCount ∨ (f t).pc.scanned ≠ none)
    (hh : l'.pc.scanned ≠ none → l'.pc ≠ .resetCount → l'.guards ≠ []) :
    Watched (passStep pass t s' l') s' (Function.update f t l') := by
  obtain ⟨h1, h2, h3⟩ := h
  constructor
  · grind
  · intro u hu j hj
    by_cases hut : u = t
    · subst hut
      simp only [Function.update_self] at hu hj
      have hj' : j ∈ (f u).guards := by rwa [hg] at hj
      refine ⟨(ha j).trans (h1 u j hj' (hd j)), ?_⟩
      rcases hs hu with hr | hsc
      · exact .inl ⟨rfl, hr⟩
      · exact .inr (h2 u hsc j hj')
    · simp only [Function.update_of_ne hut] at hu hj
      refine ⟨(ha j).trans (h1 u j hj ?_), .inr (h2 u hu j hj)⟩
      intro e
      simp [e, Pc.scanned] at hu
  · grind

theorem Watched.move (hS : Slots s f) (h : Watched pass s f) (hm : Move w t s (f t) s' l')
    (hok : UnderGuard (f t)) : Watched (passStep pass t s' l') s' (Function.update f t l') := by
  generalize hft : f t = l at hm hok
  have hh := h.held t
  rw [hft] at hh
  cases hm with
  | activate g i =>
    obtain ⟨h1, h2, h3⟩ := h
    constructor <;> grind [Pc.scanned]
  | deactivate g i =>
    have hmem := hS.leaves t i (by rw [hft]; rfl)
    have huniq := hS.guard_unique t
    obtain ⟨h1, h2, h3⟩ := h
    constructor <;> grind [Pc.scanned]
  | disown g i =>
    have hnd := hS.nodup t
    obtain ⟨h1, h2, h3⟩ := h
    constructor <;> grind [Pc.scanned, List.Nodup.mem_erase_iff]
  | resetCount g =>
    refine h.quiet (fun _ => rfl) (by rw [hft]) (by simp [hft]) (fun _ => .inr ?_) fun _ _ => ?_
    · rw [hft]; exact Option.some_ne_none _
    · exact hok rfl
  | seeInactive | loadEpoch =>
    refine h.quiet (fun _ => rfl) (by rw [hft]) (by simp [hft]) (fun _ => .inr ?_) fun _ _ => ?_
    · rw [hft]; exact Option.some_ne_none _
    · exact hh (Option.some_ne_none _) (by rintro ⟨⟩)
  | push g n next r =>
    exact h.quiet (fun _ => rfl) (by rw [hft]) (by simp [hft])
      (by cases r <;> simp [afterPush, Pc.scanned]) (by cases r <;> simp [afterPush, Pc.scanned])
  | _ =>
    exact h.quiet (fun _ => rfl) (by rw [hft]) (by simp [hft]) (by simp [hft, Pc.scanned])
      (by simp_all [Pc.scanned])

omit [DecidableEq ι] in
/-- The steps of a thread whose passes are made under a guard are those `Inv` is kept by. -/
theorem Watched.allowed (h : Watched pass s f) (hw : ∀ i, (f t).pc = .bumpEpoch i →
    s.globalEpoch + 1 < 2 ^ w) : Allowed w pass s t (f t) := by
  unfold Allowed
  split
  · rename_i i hpc
    exact hw i hpc
  · rename_i m hpc
    have hs : (f t).pc.scanned ≠ none := by rw [hpc]; exact Option.some_ne_none _
    obtain ⟨j, g, hg⟩ := List.exists_cons_of_ne_nil (h.held t hs (by rw [hpc]; nofun))
    exact .inl ⟨j, h.pass t hs j (by rw [hg]; exact List.mem_cons_self)⟩
  · trivial
end

section
variable {w : ℕ} {h : List (Step ι α)} {c : Config ι (Shared ι α) (Local α)}

theorem watched_run
    (hr : (program w).Run (fun _ c t _ => NoWrap w c t ∧ UnderGuard (c.loc t)) initial h c) :
    Inv (guardsSince h) (guardsInPass h) c.shared c.loc ∧
      Watched (guardsInPass h) c.shared c.loc := by
  refine hr.induction (I := fun h c => Inv (guardsSince h) (guardsInPass h) c.shared c.loc ∧
    Watched (guardsInPass h) c.shared c.loc) ⟨inv_initial, ?_⟩ fun h c t k ev s l _ ih hok hs => ?_
  · constructor <;> simp [initial, Pc.scanned]
  · have hI := inv_move ih.1 rfl (ih.2.allowed (hok.1 ·)) (step_move hs)
    have hW := ih.2.move ih.1.slots (step_move hs) hok.2
    simp only [guardsSince, guardsInPass, Config.set_loc_self]
    exact ⟨hI, hW⟩

/-- **Until the wrap.** In every run whose passes are all made under a guard and whose guard entries
do not wrap the epoch, nothing that has been deleted has a guard left that had become active before
its `retire` call. -/
theorem guarded_collects_safe
    (hr : (program w).Run (fun _ c t _ => NoWrap w c t ∧ UnderGuard (c.loc t)) initial h c) (n : ℕ)
    (hn : c.shared.deleted n ≠ 0) (j : ℕ) : ¬ guardsSince h n j :=
  (watched_run hr).1.deleted_since n hn j
end

/-- The epoch is far from wrapping, and passes are begun under a guard. -/
def earlyGuarded (c : TwoThreads) (t : Bool) (_ : Choice ℕ) (_ : TwoThreads) : Bool :=
  decide (c.shared.globalEpoch < 10) &&
    (decide ((c.loc t).pc ≠ .resetCount) || !(c.loc t).guards.isEmpty)

/-- Thread `true` retires a number under a guard, and collects under the next one. -/
def retireThenPass : List (Bool × Choice ℕ) :=
  (true, Choice.call .enter) :: List.replicate 5 (true, Choice.run) ++
    (true, Choice.call (.retire 7)) :: List.replicate 5 (true, Choice.run) ++
    (true, Choice.call (.leave 0)) :: List.replicate 3 (true, Choice.run) ++
    (true, Choice.call .enter) :: List.replicate 5 (true, Choice.run) ++
    (true, Choice.call .collect) :: List.replicate 132 (true, Choice.run)

theorem guarded_collects_safe_after_pass :
    ∃ (h : List (Step Bool ℕ)) (c : TwoThreads),
      (program 64).Run (fun _ c t _ => NoWrap 64 c t ∧ UnderGuard (c.loc t)) initial h c ∧
        c.shared.deleted 0 = 1 ∧ ∀ j, ¬ guardsSince h 0 j := by
  have he : (((program 64).exec earlyGuarded initial retireThenPass).any
      fun c => c.shared.deleted 0 == 1) = true := by set_option maxRecDepth 10000 in decide
  obtain ⟨c, hc, hd⟩ := (Option.any_eq_true _ _).mp he
  obtain ⟨h, hr⟩ := Program.exec_run (fun _ c t _ => NoWrap 64 c t ∧ UnderGuard (c.loc t))
    (fun h c t k c' _ hq => by
      simp only [earlyGuarded, Bool.and_eq_true, Bool.or_eq_true, decide_eq_true_eq] at hq
      exact ⟨fun i _ => by omega, fun hpc => by simpa [hpc] using hq.2⟩) hc
  have hd : c.shared.deleted 0 = 1 := by simpa using hd
  exact ⟨h, c, hr, hd, guarded_collects_safe hr 0 (by rw [hd]; exact Nat.one_ne_zero)⟩

/-- Thread `false` enters the guard that stays, at record 0 and the last epoch; thread `true` enters
another one, at record 1 and epoch 0. -/
def enterAroundWrap : List (Bool × Choice ℕ) :=
  (false, Choice.call .enter) :: List.replicate 5 (false, Choice.run) ++
    (true, Choice.call .enter) :: List.replicate 6 (true, Choice.run)

/-- Thread `true` finishes its `retire`, leaves, enters again at epoch 1 and collects. -/
def passAfterWrap : List (Bool × Choice ℕ) :=
  List.replicate 5 (true, Choice.run) ++
    (true, Choice.call (.leave 1)) :: List.replicate 3 (true, Choice.run) ++
    (true, Choice.call .enter) :: List.replicate 6 (true, Choice.run) ++
    (true, Choice.call .collect) :: List.replicate 133 (true, Choice.run)

/-- Passes are begun under a guard, and the guard at record 0 stays active. -/
def watchedPass (c : TwoThreads) (t : Bool) (_ : Choice ℕ) (c' : TwoThreads) : Bool :=
  c'.shared.active 0 && (decide ((c.loc t).pc ≠ .resetCount) || !(c.loc t).guards.isEmpty)

/-- **After the wrap.** With 32-bit epochs, a pass made under a guard deletes a node while a guard
is alive that was active before the node's `retire` call. -/
theorem wrapped_epoch_deletes :
    ¬ ∀ (h : List (Step Bool ℕ)) (c : TwoThreads),
      (program 32).Run (fun _ c t _ => UnderGuard (c.loc t)) initial h c →
      ∀ n, c.shared.deleted n ≠ 0 → ∀ j, ¬ guardsSince h n j := by
  intro hall
  obtain ⟨h₀, hr₀⟩ := visited_run 32 (2 ^ 32 - 2) (fun _ c t _ => UnderGuard (c.loc t))
    fun _ _ _ _ hne he => absurd he hne
  -- up to the `retire` call, and from there on with the guard at record 0 active
  have he : (((program 32).exec noPass (visited 32 (2 ^ 32 - 2)) enterAroundWrap).any fun c =>
      (((program 32).step true (.call (.retire 7)) c.shared (c.loc true)).any fun r =>
        ((program 32).exec watchedPass (c.set true r.2.1 r.2.2) passAfterWrap).any fun c' =>
          decide ((c.loc true).pc ≠ .resetCount) && r.2.1.active 0 && c.shared.retires == 0 &&
            r.2.1.retires == 1 && c'.shared.deleted 0 == 1)) = true := by
    set_option maxRecDepth 10000 in decide
  obtain ⟨c, hc, he⟩ := (Option.any_eq_true _ _).mp he
  obtain ⟨⟨ev, s, l⟩, hs, he⟩ := (Option.any_eq_true _ _).mp he
  obtain ⟨c', hc', he⟩ := (Option.any_eq_true _ _).mp he
  simp only [Bool.and_eq_true, beq_iff_eq, decide_eq_true_eq] at he
  obtain ⟨⟨⟨⟨hpc, ha⟩, h0⟩, h1⟩, hd⟩ := he
  obtain ⟨h, hr, -⟩ := Program.exec_run_from (fun _ c t _ => UnderGuard (c.loc t))
    (fun h c t k _ _ hq he => absurd he (of_decide_eq_true hq)) enterAroundWrap hr₀ hc
  obtain ⟨h', hr', hg⟩ := Program.exec_run_from (fun _ c t _ => UnderGuard (c.loc t))
    (fun h c t k _ _ hq hpc => by simp [watchedPass, hpc] at hq; simpa using hq.2)
    passAfterWrap (hr.cons (fun he => absurd he hpc) hs) hc'
  refine hall _ _ hr' 0 (by rw [hd]; exact Nat.one_ne_zero) 0
    (guardsSince_append ?_ fun r hmem => ?_)
  · exact ⟨ha, .inl ⟨h0, h1⟩⟩
  · obtain ⟨k, hk⟩ := hg r hmem
    exact (Bool.and_eq_true_iff.mp hk).1

end Bonostl.EpochDomain
