import Bonostl.Interleaving.Program

/-!
# A part of the state that follows a program of its own

Where the threads of a program `P` use a component, a part `gσ` of the shared state and a part `gΛ`
of each local state belong to it. `view e` says which steps of `P` are steps of the component and
what they show of it (`e`), and gives the component's history. If every step of `P` is a step of the
component's program `Q` or leaves its part alone, a run of `P` is a run of `Q` to the component
(`Run.component`).
-/

namespace Interleaving

variable {ι σ Λ κ Op Res σ' Λ' κ' Op' Res' : Type} [DecidableEq ι]

/-- The part of a configuration that belongs to a component. -/
def Config.part (gσ : σ → σ') (gΛ : Λ → Λ') (c : Config ι σ Λ) : Config ι σ' Λ' :=
  ⟨gσ c.shared, fun t => gΛ (c.loc t)⟩

theorem Config.part_set (gσ : σ → σ') (gΛ : Λ → Λ') (c : Config ι σ Λ) (t : ι) (s : σ) (l : Λ) :
    (c.set t s l).part gσ gΛ = (c.part gσ gΛ).set t (gσ s) (gΛ l) := by
  unfold Config.part Config.set
  congr 1
  funext u
  by_cases hu : u = t
  · subst hu
    simp
  · simp [hu]

omit [DecidableEq ι] in
/-- The history of a component. -/
def view (gσ : σ → σ') (gΛ : Λ → Λ') (e : Rec ι σ Λ Op Res → Option (Event Op' Res'))
    (h : List (Rec ι σ Λ Op Res)) : List (Rec ι σ' Λ' Op' Res') :=
  h.filterMap fun r => (e r).map fun ev => ⟨r.tid, ev, r.pre.part gσ gΛ, r.cfg.part gσ gΛ⟩

section
variable {gσ : σ → σ'} {gΛ : Λ → Λ'} {e : Rec ι σ Λ Op Res → Option (Event Op' Res')}
  {r : Rec ι σ Λ Op Res} {h : List (Rec ι σ Λ Op Res)}

omit [DecidableEq ι] in
theorem view_none (hr : e r = none) : view gσ gΛ e (r :: h) = view gσ gΛ e h := by
  simp [view, hr]

omit [DecidableEq ι] in
theorem view_some {ev : Event Op' Res'} (hr : e r = some ev) : view gσ gΛ e (r :: h) =
    ⟨r.tid, ev, r.pre.part gσ gΛ, r.cfg.part gσ gΛ⟩ :: view gσ gΛ e h := by
  simp [view, hr]

variable {P : Program ι σ Λ κ Op Res} {Q : Program ι σ' Λ' κ' Op' Res'}
  {ok : List (Rec ι σ Λ Op Res) → Config ι σ Λ → ι → κ → Prop}
  {ok' : List (Rec ι σ' Λ' Op' Res') → Config ι σ' Λ' → ι → κ' → Prop} {c₀ c : Config ι σ Λ}

variable (gσ gΛ e Q) in
/-- **A run of the whole is a run of the component.** -/
theorem Program.Run.component
    (hstep : ∀ h c t k ev s l, P.Run ok c₀ h c → ok h c t k →
      P.step t k c.shared (c.loc t) = some (ev, s, l) →
      (e ⟨t, ev, c, c.set t s l⟩ = none ∧ gσ s = gσ c.shared ∧ gΛ l = gΛ (c.loc t)) ∨
      ∃ k' ev', e ⟨t, ev, c, c.set t s l⟩ = some ev' ∧
        Q.step t k' (gσ c.shared) (gΛ (c.loc t)) = some (ev', gσ s, gΛ l) ∧
        ok' (view gσ gΛ e h) (c.part gσ gΛ) t k')
    (hr : P.Run ok c₀ h c) : Q.Run ok' (c₀.part gσ gΛ) (view gσ gΛ e h) (c.part gσ gΛ) := by
  induction hr with
  | nil => exact .nil
  | @cons h c t k ev s l hrun hok hs ih =>
    rcases hstep h c t k ev s l hrun hok hs with ⟨he, hσ, hΛ⟩ | ⟨k', ev', he, hq, hok'⟩
    · have hsame : (c.set t s l).part gσ gΛ = c.part gσ gΛ := by
        rw [Config.part_set, hσ, hΛ]
        simp [Config.part, Config.set]
      rw [view_none he, hsame]
      exact ih
    · rw [view_some he, Config.part_set]
      exact ih.cons hok' hq
end

end Interleaving
