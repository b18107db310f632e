import Bonostl.Interleaving.Program
import Mathlib.Algebra.BigOperators.Finprod

/-!
# Adding up over the threads

`total w f` adds up a weight `w` of the threads' local states: how many locks they hold, how many
calls they have still to make. A step changes it by what it changes for the thread that moves
(`total_update`), since all but finitely many threads weigh nothing.
-/

namespace Interleaving

variable {ι Λ : Type} {w : Λ → ℕ} {f : ι → Λ}

/-- The weights of all threads together. -/
noncomputable def total (w : Λ → ℕ) (f : ι → Λ) : ℕ := finsum fun t => w (f t)

theorem total_update [DecidableEq ι] (hf : {t | w (f t) ≠ 0}.Finite) (t : ι) (l : Λ) :
    total w (Function.update f t l) + w (f t) = total w f + w l := by
  have hsplit : ∀ g : ι → Λ, {u | w (g u) ≠ 0}.Finite →
      w (g t) + finsum (fun u => finsum fun _ : u ≠ t => w (g u)) = total w g := fun g hg =>
    add_finsum_cond_ne t hg
  have hup : {u | w (Function.update f t l u) ≠ 0}.Finite := by
    refine (hf.insert t).subset fun u hu => ?_
    by_cases hut : u = t
    · exact .inl hut
    · exact .inr (by simpa [hut] using hu)
  have hsame : finsum (fun u => finsum fun _ : u ≠ t => w (Function.update f t l u)) =
      finsum fun u => finsum fun _ : u ≠ t => w (f u) := by
    refine finsum_congr fun u => finsum_congr fun hu => ?_
    rw [Function.update_of_ne hu]
  have h1 := hsplit _ hup
  have h2 := hsplit f hf
  rw [Function.update_self, hsame] at h1
  omega

theorem total_eq_zero (h : ∀ t, w (f t) = 0) : total w f = 0 := by
  unfold total
  rw [finsum_congr h]
  exact finsum_zero

theorem le_total (hf : {t | w (f t) ≠ 0}.Finite) (t : ι) : w (f t) ≤ total w f := by
  classical
  have h := add_finsum_cond_ne t hf
  unfold total
  exact (Nat.le_add_right _ _).trans h.le

theorem eq_zero_of_total (hf : {t | w (f t) ≠ 0}.Finite) (h : total w f = 0) (t : ι) :
    w (f t) = 0 := Nat.eq_zero_of_le_zero (h ▸ le_total hf t)

/-- A sum over some of the threads, when only what stands for `t` changes. -/
theorem sum_change {S : Finset ι} {g k : ι → ℤ} {t : ι} (ht : t ∈ S)
    (h : ∀ u, u ≠ t → k u = g u) : ∑ u ∈ S, k u = ∑ u ∈ S, g u + (k t - g t) := by
  classical
  have hrest : ∑ u ∈ S.erase t, k u = ∑ u ∈ S.erase t, g u :=
    Finset.sum_congr rfl fun u hu => h u (Finset.ne_of_mem_erase hu)
  rw [← Finset.add_sum_erase S k ht, ← Finset.add_sum_erase S g ht, hrest]
  omega

end Interleaving
