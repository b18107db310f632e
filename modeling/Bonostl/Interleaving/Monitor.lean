import Bonostl.Interleaving.Program
import Mathlib.Data.Finset.Card

/-!
# Condition variables

A condition variable is the list of the threads blocked on it. `wait` puts its thread on the list
in the step that releases the mutex; a thread that is no longer on the list has been woken and may
take the mutex again. `notifyOne` takes one blocked thread off the list, which one being the
scheduler's choice, and does nothing when the list is empty; a spurious wake-up takes the thread
itself off.

Since a step changes the local state of its own thread only, a blocked thread and a woken one stand
at the same place of their code. `woken_add_blocked` counts the woken ones: those that stand at the
wait, less those on the list.
-/

namespace Interleaving

variable {ι Λ : Type} [DecidableEq ι]

/-- `notify_one` on a condition variable that the threads `ws` are blocked on. -/
def notifyOne (ws : List ι) (u : ι) : Option (List ι) :=
  if ws = [] then some [] else if u ∈ ws then some (ws.erase u) else none

theorem notifyOne_cases {ws ws' : List ι} {u : ι} (h : notifyOne ws u = some ws') :
    (ws = [] ∧ ws' = []) ∨ (u ∈ ws ∧ ws' = ws.erase u) := by
  unfold notifyOne at h
  split at h
  · exact Or.inl ⟨‹_›, (Option.some.inj h).symm⟩
  · split at h
    · exact Or.inr ⟨‹_›, (Option.some.inj h).symm⟩
    · cases h

/-- There is always somebody to notify, or nobody has to be. -/
theorem notifyOne_isSome (ws : List ι) (t : ι) : ∃ u, (notifyOne ws u).isSome := by
  cases ws with
  | nil => exact ⟨t, rfl⟩
  | cons u ws => exact ⟨u, by simp [notifyOne]⟩

theorem notifyOne_nodup {ws ws' : List ι} {u : ι} (h : notifyOne ws u = some ws')
    (hnd : ws.Nodup) : ws'.Nodup := by
  obtain ⟨-, rfl⟩ | ⟨-, rfl⟩ := notifyOne_cases h
  · exact List.nodup_nil
  · exact hnd.erase u

theorem notifyOne_subset {ws ws' : List ι} {u t : ι} (h : notifyOne ws u = some ws')
    (ht : t ∈ ws') : t ∈ ws := by
  obtain ⟨-, rfl⟩ | ⟨-, rfl⟩ := notifyOne_cases h
  · simp at ht
  · exact List.mem_of_mem_erase ht

/-- One waiter fewer, if somebody is still blocked. -/
theorem notifyOne_length {ws ws' : List ι} {u : ι} (h : notifyOne ws u = some ws')
    (hne : ws' ≠ []) : ws ≠ [] ∧ ws'.length + 1 = ws.length := by
  obtain ⟨-, rfl⟩ | ⟨hu, rfl⟩ := notifyOne_cases h
  · exact absurd rfl hne
  · have hpos := List.length_pos_of_mem hu
    refine ⟨List.ne_nil_of_mem hu, ?_⟩
    rw [List.length_erase_of_mem hu]
    omega

omit [DecidableEq ι] in
/-- The woken threads are those at the wait that are not on the list. -/
theorem woken_add_blocked {p : Λ → Prop} {f : ι → Λ} {ws : List ι} (hf : {t | p (f t)}.Finite)
    (hnd : ws.Nodup) (hws : ∀ t ∈ ws, p (f t)) :
    {t | p (f t) ∧ t ∉ ws}.ncard + ws.length = threadsIn p f := by
  classical
  have hlen : {t | t ∈ ws}.ncard = ws.length := by
    rw [← List.toFinset_card_of_nodup hnd, ← Set.ncard_coe_finset]
    congr 1
    ext t
    simp
  have hdiff : {t | p (f t) ∧ t ∉ ws} = {t | p (f t)} \ {t | t ∈ ws} := rfl
  rw [hdiff, ← hlen]
  exact Set.ncard_sdiff_add_ncard_of_subset hws hf

end Interleaving
