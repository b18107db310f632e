import Bonostl.Interleaving.Totals
import Bonostl.SharedSpinlock.Model

/-!
# Readers and writers of a `shared_spinlock` exclude each other

`state_` says who holds the lock (`Inv`). A compare-exchange that succeeds has compared with the
present value, so what `lock_shared` has observed is the present number of readers, however old the
observation is; and a value with `writer_bit` is never compared with. `unlock` stores 0 blindly,
which is right because a writer is alone. The number of readers has to stay below `writer_bit`.

`inv_run` is the result.
-/

namespace Bonostl.SharedSpinlock

open Interleaving

variable {ι : Type}

/-- The shared holds outstanding. -/
noncomputable def readers (f : ι → Local) : ℕ := total Local.readers f

/-- What a thread is about to give back, it holds, and it compares with values without `writer_bit`
only. -/
structure Local.Ok (l : Local) : Prop where
  unlock : l.pc = .unlock → l.writer = true
  unlockShared : l.pc = .unlockShared → 0 < l.readers
  observed : ∀ observed, l.pc = .casShared observed ∨ l.pc = .tryCasShared observed →
    hasWriter observed = false

/-- What `state_` says about the holders. -/
structure Inv (s : ℕ) (f : ι → Local) : Prop where
  ok : ∀ t, (f t).Ok
  finite : {t | (f t).readers ≠ 0}.Finite
  alone : ∀ t u, (f t).writer = true → (f u).writer = true → t = u
  writer : ∀ t, (f t).writer = true → s = writerBit ∧ readers f = 0
  free : (∀ t, (f t).writer = false) → s = readers f

theorem hasWriter_writerBit : hasWriter writerBit = true := Nat.testBit_two_pow_self ..

theorem succ_eq {n : ℕ} (h : n < writerBit) : succ n = n + 1 := by
  unfold succ
  unfold writerBit at h
  omega

theorem pred_eq {n : ℕ} (h : n < writerBit) : pred (n + 1) = n := by
  unfold pred
  unfold writerBit at h
  omega

section
variable [DecidableEq ι] {s s' : ℕ} {f : ι → Local} {t : ι} {l' : Local}

theorem Inv.readers_update (h : Inv s f) (t : ι) (l' : Local) :
    readers (Function.update f t l') + (f t).readers = readers f + l'.readers :=
  total_update h.finite t l'

omit [DecidableEq ι] in
/-- Without a writer there is none who could object. -/
theorem Inv.no_writer (h : Inv s f) (hs : s ≠ writerBit) (u : ι) : (f u).writer = false := by
  by_contra hw
  exact hs (h.writer u (by simpa using hw)).1

/-- The parts of the invariant that need no argument about `state_`. -/
theorem Inv.assemble (h : Inv s f) (hok : l'.Ok)
    (halone : l'.writer = true → ∀ u, u ≠ t → (f u).writer = false)
    (hwriter : ∀ u, (Function.update f t l' u).writer = true →
      s' = writerBit ∧ readers (Function.update f t l') = 0)
    (hfree : (∀ u, (Function.update f t l' u).writer = false) →
      s' = readers (Function.update f t l')) :
    Inv s' (Function.update f t l') := by
  refine ⟨fun u => ?_, ?_, fun u v hu hv => ?_, hwriter, hfree⟩
  · by_cases hut : u = t
    · subst hut
      rw [Function.update_self]
      exact hok
    · rw [Function.update_of_ne hut]
      exact h.ok u
  · refine (h.finite.insert t).subset fun u hu => ?_
    by_cases hut : u = t
    · exact .inl hut
    · exact .inr (by simpa [hut] using hu)
  · by_cases hut : u = t
    · subst hut
      rw [Function.update_self] at hu
      by_contra hne
      rw [Function.update_of_ne (Ne.symm hne), halone hu v (Ne.symm hne)] at hv
      cases hv
    · by_cases hvt : v = t
      · subst hvt
        rw [Function.update_self] at hv
        rw [Function.update_of_ne hut, halone hv u hut] at hu
        cases hu
      · rw [Function.update_of_ne hut] at hu
        rw [Function.update_of_ne hvt] at hv
        exact h.alone u v hu hv

/-- **Every step keeps the invariant**, as long as the readers fit below `writer_bit`. -/
theorem Inv.move (h : Inv s f) (hm : Move s (f t) s' l')
    (hb : readers (Function.update f t l') ≤ 2 ^ 31 - 1) : Inv s' (Function.update f t l') := by
  have hsum := h.readers_update t l'
  have hok := h.ok t
  generalize hft : f t = l at hm hok hsum
  cases hm with
  | quiet pc pc' w r hu hs hc =>
    have hw : ∀ u, (Function.update f t ⟨pc', w, r⟩ u).writer = (f u).writer := by
      intro u
      by_cases hut : u = t
      · subst hut
        rw [Function.update_self, hft]
      · rw [Function.update_of_ne hut]
    have hr : readers (Function.update f t ⟨pc', w, r⟩) = readers f := by
      dsimp only at hsum
      omega
    refine h.assemble ⟨fun hp => ?_, fun hp => ?_, hc⟩ (fun hwt u hut => ?_) (fun u hwu => ?_)
      fun hall => ?_
    · exact (hu hp).elim hok.unlock id
    · exact (hs hp).elim hok.unlockShared id
    · by_contra hwu
      exact hut (h.alone u t (by simpa using hwu) (by rw [hft]; exact hwt))
    · rw [hw] at hwu
      rw [hr]
      exact h.writer u hwu
    · rw [hr]
      exact h.free fun u => (hw u).symm.trans (hall u)
  | lock pc w r v hs =>
    have hnone := h.no_writer (by rw [hs]; exact (Nat.two_pow_pos 31).ne)
    have hzero : readers f = 0 := by rw [← h.free hnone, hs]
    have hr : r = 0 := by
      have := eq_zero_of_total h.finite hzero t
      rwa [hft] at this
    have hr' : readers (Function.update f t ⟨.done v, true, r⟩) = 0 := by
      dsimp only at hsum
      omega
    refine h.assemble ⟨nofun, nofun, by simp⟩ (fun _ u _ => hnone u) (fun _ _ => ⟨rfl, hr'⟩)
      fun hall => ?_
    have := hall t
    rw [Function.update_self] at this
    cases this
  | unlock w r =>
    have hwt : (f t).writer = true := by rw [hft]; exact hok.unlock rfl
    have hzero := (h.writer t hwt).2
    have hr' : readers (Function.update f t ⟨.done .unit, false, r⟩) = 0 := by
      dsimp only at hsum
      omega
    refine h.assemble ⟨nofun, nofun, by simp⟩ nofun (fun u hu => ?_) fun _ => hr'.symm
    by_cases hut : u = t
    · subst hut
      rw [Function.update_self] at hu
      cases hu
    · rw [Function.update_of_ne hut] at hu
      exact absurd (h.alone u t hu hwt) hut
  | lockShared pc w r v hp =>
    have hobs := hok.observed s hp
    have hs : s ≠ writerBit := by
      rintro rfl
      rw [hasWriter_writerBit] at hobs
      cases hobs
    have hnone := h.no_writer hs
    have hfree := h.free hnone
    have hr' : readers (Function.update f t ⟨.done v, w, r + 1⟩) = s + 1 := by
      dsimp only at hsum
      omega
    refine h.assemble ⟨nofun, nofun, by simp⟩ (fun _ u _ => hnone u) (fun u hu => ?_) fun _ => ?_
    · by_cases hut : u = t
      · subst hut
        rw [Function.update_self] at hu
        have := hnone u
        rw [hft] at this
        exact absurd (this.symm.trans hu) Bool.false_ne_true
      · rw [Function.update_of_ne hut, hnone u] at hu
        cases hu
    · rw [hr', succ_eq]
      unfold writerBit
      omega
  | unlockShared w r =>
    have hpos := hok.unlockShared rfl
    have hle : (f t).readers ≤ readers f := le_total h.finite t
    rw [hft] at hle
    have hnone : ∀ u, (f u).writer = false := by
      intro u
      by_contra hw
      have := (h.writer u (by simpa using hw)).2
      dsimp only at hpos hle
      omega
    have hfree := h.free hnone
    have hr' : readers (Function.update f t ⟨.done .unit, w, r - 1⟩) + 1 = s := by
      dsimp only at hsum hpos hle
      omega
    refine h.assemble ⟨nofun, nofun, by simp⟩ (fun _ u _ => hnone u) (fun u hu => ?_) fun _ => ?_
    · by_cases hut : u = t
      · subst hut
        rw [Function.update_self] at hu
        have := hnone u
        rw [hft] at this
        exact absurd (this.symm.trans hu) Bool.false_ne_true
      · rw [Function.update_of_ne hut, hnone u] at hu
        cases hu
    · rw [← hr', pred_eq]
      unfold writerBit
      omega
end

/-! ## Runs -/

section
variable [DecidableEq ι] {h : List (Step ι)} {c : Config ι ℕ Local}

omit [DecidableEq ι] in
theorem inv_initial : Inv (initial (ι := ι)).shared (initial (ι := ι)).loc := by
  refine ⟨fun t => ⟨nofun, nofun, ?_⟩, ?_, nofun, nofun, fun _ => ?_⟩
  · rintro observed (h | h) <;> cases h
  · simp [initial]
  · exact (total_eq_zero fun _ => rfl).symm

theorem inv_run (hr : program.Run Program.anyStep initial h c)
    (hb : ∀ r ∈ h, readers r.cfg.loc ≤ 2 ^ 31 - 1) : Inv c.shared c.loc := by
  induction hr with
  | nil => exact inv_initial
  | @cons h c t k ev s l _ _ hs ih =>
    exact (ih fun r hr => hb r (List.mem_cons_of_mem _ hr)).move (step_move (t := t) hs)
      (hb _ List.mem_cons_self)
end

/-- How many shared holds two threads have. -/
theorem readers_two (f : Bool → Local) : readers f = (f true).readers + (f false).readers := by
  unfold readers total
  rw [finsum_eq_sum_of_fintype, Fintype.sum_bool]

end Bonostl.SharedSpinlock
