import Mathlib.Logic.Relation
import Mathlib.Order.Defs.Unbundled

/-!
# Threads that wait for each other's mutexes

`WaitsFor t u`: thread `t` wants a mutex that `u` holds. Where every thread wants a mutex beyond all
that it holds, in a strict order of the mutexes, no threads wait for each other in a cycle.
-/

namespace Interleaving

variable {ι α : Type} {holder : α → Option ι} {wants : ι → Option α}

/-- Thread `t` waits for a mutex that thread `u` holds. -/
def WaitsFor (holder : α → Option ι) (wants : ι → Option α) (t u : ι) : Prop :=
  ∃ a, wants t = some a ∧ holder a = some u

/-- Along a chain of waiting threads, the mutexes they want rise. -/
theorem wants_rise {r : α → α → Prop} [IsTrans α r]
    (h : ∀ t a b, holder a = some t → wants t = some b → r a b) {t u : ι}
    (htu : Relation.TransGen (WaitsFor holder wants) t u) {b : α} (hb : wants u = some b) :
    ∃ a, wants t = some a ∧ r a b := by
  induction htu generalizing b with
  | single hw =>
    obtain ⟨a, ha, hu⟩ := hw
    exact ⟨a, ha, h _ a b hu hb⟩
  | tail _ hw ih =>
    obtain ⟨a', ha', hv⟩ := hw
    obtain ⟨a, ha, hlt⟩ := ih ha'
    exact ⟨a, ha, IsTrans.trans _ _ _ hlt (h _ a' b hv hb)⟩

/-- **No cycle of waiting threads.** -/
theorem waits_acyclic {r : α → α → Prop} [IsStrictOrder α r]
    (h : ∀ t a b, holder a = some t → wants t = some b → r a b) (t : ι) :
    ¬ Relation.TransGen (WaitsFor holder wants) t t := by
  intro hcycle
  obtain ⟨u, ⟨b, hb, -⟩, -⟩ := Relation.TransGen.head'_iff.mp hcycle
  obtain ⟨a, ha, hlt⟩ := wants_rise h hcycle hb
  rw [hb] at ha
  rw [Option.some.inj ha] at hlt
  exact irrefl_of r a hlt

end Interleaving
