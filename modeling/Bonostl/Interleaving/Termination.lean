import Bonostl.Interleaving.Program
import Mathlib.Order.WellFounded

/-!
# Programs that finish

If every step lowers a cost, no run is longer than the cost it began with (`Run.length_le`); if also
some thread can step until a goal is reached, every run can be continued to the goal
(`Run.completes`). Where the steps of one thread lower a cost up to a goal, the thread passes the
goal if it goes on (`passes`).
-/

namespace Interleaving

variable {ι σ Λ κ Op Res : Type} [DecidableEq ι] {P : Program ι σ Λ κ Op Res} {c₀ c : Config ι σ Λ}
  {h : List (Rec ι σ Λ Op Res)} {I : Config ι σ Λ → Prop} {cost : Config ι σ Λ → ℕ}

/-- Every step keeps `I` and lowers `cost`. -/
def Program.Decreases (P : Program ι σ Λ κ Op Res) (I : Config ι σ Λ → Prop)
    (cost : Config ι σ Λ → ℕ) : Prop :=
  ∀ c t k ev s l, I c → P.step t k c.shared (c.loc t) = some (ev, s, l) →
    I (c.set t s l) ∧ cost (c.set t s l) < cost c

theorem Program.Run.decreases (hd : P.Decreases I cost) (h₀ : I c₀)
    (hr : P.Run Program.anyStep c₀ h c) : I c ∧ h.length + cost c ≤ cost c₀ := by
  induction hr with
  | nil => exact ⟨h₀, by simp⟩
  | @cons h c t k ev s l _ _ hs ih =>
    obtain ⟨hI, hle⟩ := ih
    obtain ⟨hI', hlt⟩ := hd c t k ev s l hI hs
    refine ⟨hI', ?_⟩
    rw [List.length_cons]
    omega

theorem Program.Run.length_le (hd : P.Decreases I cost) (h₀ : I c₀)
    (hr : P.Run Program.anyStep c₀ h c) : h.length ≤ cost c₀ :=
  (Nat.le_add_right _ _).trans (hr.decreases hd h₀).2

/-- **A run can be continued to the goal.** -/
theorem Program.Run.completes {goal : Config ι σ Λ → Prop} (hd : P.Decreases I cost)
    (hgo : ∀ c, I c → goal c ∨ ∃ t k ev s l, P.step t k c.shared (c.loc t) = some (ev, s, l))
    (h₀ : I c₀) (hr : P.Run Program.anyStep c₀ h c) :
    ∃ h' c', P.Run Program.anyStep c₀ (h' ++ h) c' ∧ goal c' := by
  induction hn : cost c using Nat.strong_induction_on generalizing h c with
  | _ n ih =>
    have hI := (hr.decreases hd h₀).1
    rcases hgo c hI with hgoal | ⟨t, k, ev, s, l, hs⟩
    · exact ⟨[], c, hr, hgoal⟩
    · have hlt := (hd c t k ev s l hI hs).2
      obtain ⟨h', c', hr', hgoal⟩ := ih _ (hn ▸ hlt) (hr.cons trivial hs) rfl
      exact ⟨h' ++ [_], c', by simpa using hr', hgoal⟩

/-- **A thread that goes on passes the goal.** -/
theorem Program.passes {C : Type} [Preorder C] [WellFoundedLT C] {t : ι}
    (goal : Config ι σ Λ → Prop) (value : Config ι σ Λ → C)
    (hd : ∀ c k ev s l, I c → ¬ goal c → P.step t k c.shared (c.loc t) = some (ev, s, l) →
      I (c.set t s l) ∧ value (c.set t s l) < value c)
    {f : ℕ → Config ι σ Λ} (h₀ : I (f 0))
    (hf : ∀ i, ∃ k ev s l, P.step t k (f i).shared ((f i).loc t) = some (ev, s, l) ∧
      f (i + 1) = (f i).set t s l) : ∃ i, goal (f i) := by
  have hfrom : ∀ x i, value (f i) = x → I (f i) → ∃ j, goal (f j) := by
    intro x
    induction x using WellFoundedLT.induction with
    | ind x ih =>
      intro i hx hI
      by_cases hg : goal (f i)
      · exact ⟨i, hg⟩
      · obtain ⟨k, ev, s, l, hs, he⟩ := hf i
        obtain ⟨hI', hlt⟩ := hd _ k ev s l hI hg hs
        rw [← he] at hI' hlt
        exact ih _ (hx ▸ hlt) (i + 1) rfl hI'
  exact hfrom _ 0 rfl h₀

end Interleaving
