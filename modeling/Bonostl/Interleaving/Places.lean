import Mathlib.Logic.Basic
import Mathlib.Tactic.Common

/-!
# Things that are in one place

`m p` counts how often a thing is at the place `p`. `Sole m` says that it is at exactly one place,
once. A step that takes the thing from one place to another keeps this (`Sole.move`), and a thing
that was nowhere gets it with its first place (`Sole.first`).
-/

namespace Interleaving

variable {P : Type} {m m' : P → ℕ} {p q : P}

/-- The thing is at one place, once. -/
def Sole (m : P → ℕ) : Prop := ∃ p, m p = 1 ∧ ∀ q, q ≠ p → m q = 0

/-- The thing is at no place. -/
def Nowhere (m : P → ℕ) : Prop := ∀ p, m p = 0

theorem Sole.eq_one (h : Sole m) (hp : 0 < m p) : m p = 1 ∧ ∀ q, q ≠ p → m q = 0 := by
  obtain ⟨r, hr, hother⟩ := h
  by_cases hpr : p = r
  · subst hpr; exact ⟨hr, hother⟩
  · exact absurd (hother p hpr) (by omega)

theorem Sole.congr (h : Sole m) (he : ∀ r, m' r = m r) : Sole m' := by
  obtain ⟨p, hp, hother⟩ := h
  exact ⟨p, (he p).trans hp, fun q hq => (he q).trans (hother q hq)⟩

/-- The thing goes from `p` to `q`. -/
theorem Sole.move (h : Sole m) (hpq : p ≠ q) (hp : m p = m' p + 1) (hq : m' q = m q + 1)
    (hother : ∀ r, r ≠ p → r ≠ q → m' r = m r) : Sole m' := by
  obtain ⟨h1, h0⟩ := h.eq_one (p := p) (by omega)
  have hq0 := h0 q hpq.symm
  refine ⟨q, by omega, fun r hrq => ?_⟩
  by_cases hrp : r = p
  · subst hrp; omega
  · rw [hother r hrp hrq]
    exact h0 r hrp

/-- The thing comes to its first place. -/
theorem Sole.first (h : Nowhere m) (hq : m' q = m q + 1) (hother : ∀ r, r ≠ q → m' r = m r) :
    Sole m' := by
  refine ⟨q, by rw [hq, h q], fun r hr => ?_⟩
  rw [hother r hr]
  exact h r

end Interleaving
