import Bonostl.Interleaving.Program
import Mathlib.Order.WellFounded

/-!
# The calls of one thread

In a run in which one thread takes every step, its calls follow one another. `completed` lists those
that have returned, with their results, newest first, and `running` is the one that has not. A
sequential specification is a function of the operation and the state: `after` says where a list of
operations leads, `answers` what they return. `Run.returns` is the rule that calls return.
-/

namespace Interleaving

variable {ι σ Λ Op Res A : Type}

/-- The call that has not returned. -/
def running : List (Rec ι σ Λ Op Res) → Option Op
  | [] => none
  | r :: h =>
    match r.ev with
    | .call o => some o
    | .ret _ => none
    | .tau => running h

/-- The calls that have returned. -/
def completed : List (Rec ι σ Λ Op Res) → List (Op × Res)
  | [] => []
  | r :: h =>
    match r.ev, running h with
    | .ret res, some o => (o, res) :: completed h
    | _, _ => completed h

/-- The state a specification reaches from `a`, operations newest first. -/
def after (apply : Op → A → A × Res) (a : A) : List Op → A
  | [] => a
  | o :: os => (apply o (after apply a os)).1

/-- What a specification returns. -/
def answers (apply : Op → A → A × Res) (a : A) : List Op → List Res
  | [] => []
  | o :: os => (apply o (after apply a os)).2 :: answers apply a os

section
variable {r : Rec ι σ Λ Op Res} {h : List (Rec ι σ Λ Op Res)}

theorem running_call {o : Op} (hr : r.ev = .call o) : running (r :: h) = some o := by
  simp [running, hr]

theorem running_ret {res : Res} (hr : r.ev = .ret res) : running (r :: h) = none := by
  simp [running, hr]

theorem running_tau (hr : r.ev = .tau) : running (r :: h) = running h := by
  simp [running, hr]

theorem completed_ret {o : Op} {res : Res} (hr : r.ev = .ret res) (ho : running h = some o) :
    completed (r :: h) = (o, res) :: completed h := by
  simp [completed, hr, ho]

theorem completed_of_ne (hr : ∀ res, r.ev ≠ .ret res) : completed (r :: h) = completed h := by
  simp only [completed]
  split
  · exact absurd ‹_› (hr _)
  · rfl
end

/-- **Calls return.** A thread that can always take a step of its call, with a cost that becomes
smaller, comes to the end of it. -/
theorem Program.Run.returns [DecidableEq ι] {κ C : Type} [Preorder C] [WellFoundedLT C]
    {P : Program ι σ Λ κ Op Res} {ok : List (Rec ι σ Λ Op Res) → Config ι σ Λ → ι → κ → Prop}
    {c₀ c : Config ι σ Λ} {h : List (Rec ι σ Λ Op Res)} {t : ι}
    (idle : Λ → Prop) (I : List (Rec ι σ Λ Op Res) → Config ι σ Λ → Prop) (cost : σ → Λ → C)
    (hgo : ∀ h c, I h c → ¬ idle (c.loc t) → ∃ k ev s l, ok h c t k ∧
      P.step t k c.shared (c.loc t) = some (ev, s, l) ∧ (∀ o, ev ≠ .call o) ∧
      (idle l ∨ I (⟨t, ev, c, c.set t s l⟩ :: h) (c.set t s l) ∧
        cost s l < cost c.shared (c.loc t)))
    (hI : I h c) (hr : P.Run ok c₀ h c) :
    ∃ h' c', P.Run ok c₀ (h' ++ h) c' ∧ idle (c'.loc t) ∧ ∀ r ∈ h', ∀ o, r.ev ≠ .call o := by
  induction hx : cost c.shared (c.loc t) using WellFoundedLT.induction generalizing h c with
  | ind x ih =>
    by_cases hidle : idle (c.loc t)
    · exact ⟨[], c, hr, hidle, nofun⟩
    obtain ⟨k, ev, s, l, hok, hs, hev, hl | ⟨hI', hlt⟩⟩ := hgo h c hI hidle
    · refine ⟨[_], _, hr.cons hok hs, by rwa [Config.set_loc_self], fun r hmem o => ?_⟩
      obtain rfl := List.mem_singleton.mp hmem
      exact hev o
    have hlt' : cost (c.set t s l).shared ((c.set t s l).loc t) < x := by
      rw [← hx, Config.set_loc_self]
      exact hlt
    obtain ⟨h', c', hr', hidle', hno⟩ := ih _ hlt' hI' (hr.cons hok hs) rfl
    refine ⟨h' ++ [_], c', by simpa using hr', hidle', fun r hmem o => ?_⟩
    rcases List.mem_append.mp hmem with hmem | hmem
    · exact hno r hmem o
    · obtain rfl := List.mem_singleton.mp hmem
      exact hev o

end Interleaving
