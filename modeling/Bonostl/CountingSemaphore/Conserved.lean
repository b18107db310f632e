import Bonostl.CountingSemaphore.Linear
import Bonostl.Interleaving.Returned

/-!
# The permits of a `counting_semaphore`

What an operation takes or releases is read off its call and its result: an `acquire` that has
returned and a `try_acquire` that has returned `true` took one permit, `release(count)` made
`count`. The account follows from the semaphore being linearizable, since the effects of a thread
are the operations that have returned to it and the one about to return.

`permits_conserved` is the result.
-/

namespace Bonostl.CountingSemaphore

open Interleaving

/-- The permits an operation has taken that returned `v`. -/
def grants : Op → Res → ℤ
  | .acquire, .unit | .tryAcquire, .bool true => 1
  | _, _ => 0

/-- The permits an operation has made that returned. -/
def releases : Op → Res → ℤ
  | .release count, _ => count
  | _, _ => 0

theorem SemaphoreSpec.add {count count' : ℤ} {o : Op} {v : Res}
    (h : SemaphoreSpec count o v count') :
    count' = count + (releases o v - grants o v) := by
  cases h <;> simp [releases, grants] <;> omega

variable {ι : Type} [DecidableEq ι] {n : ℤ} {h : List (Step ι)} {c : Config ι (Shared ι) Pc}

/-- The account of the permits: operations count from their result on. -/
theorem permits_accounted (hn : 0 ≤ n) (hr : program.Run Program.anyStep (initial n) h c) :
    c.shared.count + ∑ t ∈ users h, worth grants (settled (c.loc t).status h t) =
      n + ∑ t ∈ users h, worth releases (settled (c.loc t).status h t) := by
  obtain ⟨H, rfl, hL, hlegal⟩ := semaphore_linearizable hn hr
  have hsum := hL.account (φ := fun count : ℤ => count) (w := fun o v => releases o v - grants o v)
    (fun _ _ _ _ hspec => hspec.add) hlegal
  simp only [worth_sub, Finset.sum_sub_distrib] at hsum
  omega

/-- Outside all operations, what is settled has returned. -/
theorem settled_idle {t : ι} (ht : c.loc t = .idle) :
    settled (c.loc t).status h t = returned h t := by
  rw [ht]
  rfl

/-- **Permits are conserved and nobody is stranded.** In every reachable state `count_` is not
negative, and with the permits of all completed acquisitions (those that have returned, and those
that have their permit and are about to return) it is what the semaphore was made with and the
permits released. Once no thread is inside an operation that is what has returned to the threads.
While some thread is blocked in `acquire`, the pending notifications and the woken threads are at
least `count_`. -/
theorem permits_conserved (hn : 0 ≤ n) (hr : program.Run Program.anyStep (initial n) h c) :
    0 ≤ c.shared.count ∧
    c.shared.count + ∑ t ∈ users h, worth grants (settled (c.loc t).status h t) =
      n + ∑ t ∈ users h, worth releases (settled (c.loc t).status h t) ∧
    ((∀ t, c.loc t = .idle) → c.shared.count + ∑ t ∈ users h, worth grants (returned h t) =
      n + ∑ t ∈ users h, worth releases (returned h t)) ∧
    (∀ t, Blocked c t → c.shared.count ≤ pending c.loc + woken c) ∧
    ∀ t, Blocked c t → 0 < c.shared.count → ∃ u, 0 < (c.loc u).owes ∨ Woken c u := by
  have hsum := permits_accounted hn hr
  refine ⟨(Inv.run hn hr).count, hsum, fun hidle => ?_, fun _ => permits_covered hn hr,
    fun _ => somebody_comes hn hr⟩
  simpa only [settled_idle (hidle _)] using hsum

/-- A semaphore without permits, a thread blocked in `acquire`, and a `release(2)` that has not
notified anybody yet. -/
theorem permits_conserved_bulk : ∃ h c,
    (program (ι := Bool)).Run Program.anyStep (initial 0) h c ∧ Blocked c false ∧
    c.shared.count = 2 ∧
      (2 : ℤ) ≤ pending c.loc + woken c := by
  obtain ⟨h, c, hr, hq⟩ := Program.replay_reaches (program (ι := Bool)) (initial 0)
    ((false, Choice.call .acquire) :: List.replicate 3 (false, Choice.run) ++
      (true, Choice.call (.release 2)) :: List.replicate 3 (true, Choice.run))
    (fun _ c => decide (c.loc false = .wait ∧ false ∈ c.shared.blocked ∧ c.shared.count = 2))
    (by decide)
  obtain ⟨h1, h2, h3⟩ := of_decide_eq_true hq
  have hle := (permits_conserved le_rfl hr).2.2.2.1 false ⟨h1, h2⟩
  rw [h3] at hle
  exact ⟨h, c, hr, ⟨h1, h2⟩, h3, hle⟩

end Bonostl.CountingSemaphore
