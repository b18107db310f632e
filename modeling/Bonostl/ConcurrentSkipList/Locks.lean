import Bonostl.ConcurrentSkipList.Steps
import Bonostl.Interleaving.Locks
import Bonostl.Sorting.Stable

/-!
# The mutexes of a skip list

`insert` locks the predecessors of its levels from the bottom up. `find` has filled `preds` from the
top down without a step back, so the predecessor of a level is the one of the level below or
strictly before it: a predecessor that spans several levels takes neighbouring entries of the array,
and the test of `insert` and `unlock_preds` against the entry below finds all repetitions. `erase`
holds one mutex at a time and waits with none.

`skip_list_locks`: who waits while holding mutexes waits for a node before all of them, so no
threads wait for each other in a cycle; nobody locks what it holds; what is unlocked is what was
locked.
-/

namespace Bonostl.ConcurrentSkipList

open Interleaving

variable {ι T : Type}

/-- The mutex a thread is about to unlock. -/
def Pc.unlocks : Pc T → Option ℕ
  | .unlock a i _ => some (a.preds i)
  | .unlockVictim _ x _ => some x
  | .unlockPred _ _ _ pred _ => some pred
  | _ => none

/-- In the part of `insert` from the first `lock` to the last `unlock` of an attempt, with the
levels whose predecessors are locked. -/
def Pc.locked : Pc T → Option (Attempt T × ℕ)
  | .lock a i => some (a, i)
  | .predMarked a i | .succMarked a i | .predNext a i | .unlock a i _ => some (a, i + 1)
  | .link a _ | .setFullyLinked a => some (a, a.top + 1)
  | _ => none

theorem holds_of_unlocks {pc : Pc T} {m : ℕ} (hm : pc.unlocks = some m) : pc.Holds m := by
  cases pc with
  | unlock a i valid => exact ⟨i, le_rfl, Option.some.inj hm⟩
  | unlockVictim v x isMarked => exact (Option.some.inj hm).symm
  | unlockPred v x i pred spliced => exact (Option.some.inj hm).symm
  | _ => cases hm

theorem holds_iff_locked {pc : Pc T} {a : Attempt T} {n m : ℕ} (hp : pc.locked = some (a, n)) :
    pc.Holds m ↔ ∃ j < n, a.preds j = m := by
  cases pc with
  | lock b i => cases hp; exact Iff.rfl
  | predMarked b i | succMarked b i | predNext b i | unlock b i valid =>
    cases hp
    simp only [Pc.Holds, Nat.lt_succ_iff]
  | link b i => cases hp; simp only [Pc.Holds, Nat.lt_succ_iff]
  | setFullyLinked b => cases hp; simp only [Pc.Holds, Nat.lt_succ_iff]
  | _ => cases hp

section
variable [LT T] [DecidableLT T] {L : ℕ → ℕ → Prop} {s : Shared ι T} {f : ι → Local T} {t : ι}

/-- A thread waits for a node before all those it has locked. -/
theorem Inv.wants_below [IsStrictOrder T (· < ·)] (h : Inv L s f) {m x : ℕ}
    (hm : s.mutex m = some t) (hx : (f t).pc.wants = some x) : below (s.data x) (s.data m) := by
  have hk := h.knows t
  have hh := (h.mutex m t).mp hm
  generalize (f t).pc = pc at hk hh hx
  cases pc with
  | lock a i =>
    obtain ⟨hr, hi, -, -, hne⟩ := hk
    obtain ⟨j, hj, rfl⟩ := hh
    obtain rfl := Option.some.inj hx
    exact hr.found.below_of_ne (hi.trans (hr.top_le h.levels)) (hne.resolve_left (by omega)) hj
  | lockVictim v y => cases hh
  | lockPred v y i pred => cases hh
  | _ => cases hx
end

variable [DecidableEq ι] [LT T] [DecidableLT T] [IsStrictWeakOrder T (· < ·)] {w : ℕ}
  {h : List (Step ι T)} {c : Config ι (Shared ι T) (Local T)}

/-- **No deadlock.** In every state of every run: a thread that waits for a mutex waits for a node
strictly before every node whose mutex it holds, and so not for one that it holds itself; a thread
that is about to unlock a mutex holds it; an attempt of `insert` that has come to level `n` holds
the mutexes of the predecessors below level `n` and no other, and one that is over holds none; and
no threads wait for each other in a cycle. -/
theorem skip_list_locks (hr : (program w).Run Program.anyStep initial h c) :
    (∀ t m x, c.shared.mutex m = some t → (c.loc t).pc.wants = some x →
      below (c.shared.data x) (c.shared.data m) ∧ x ≠ m) ∧
    (∀ t m, (c.loc t).pc.unlocks = some m → c.shared.mutex m = some t) ∧
    (∀ t a n, (c.loc t).pc.locked = some (a, n) →
      ∀ m, c.shared.mutex m = some t ↔ ∃ j < n, a.preds j = m) ∧
    (∀ t m, c.shared.mutex m = some t → (∀ k g, (c.loc t).pc ≠ .find k g) ∧
      (∀ r, (c.loc t).pc ≠ .leave r) ∧ (c.loc t).pc ≠ .idle) ∧
    ∀ t, ¬ Relation.TransGen (WaitsFor c.shared.mutex fun u => (c.loc u).pc.wants) t t := by
  have hI := inv_run hr
  have hbelow : ∀ t m x, c.shared.mutex m = some t → (c.loc t).pc.wants = some x →
      below (c.shared.data x) (c.shared.data m) := fun t m x hm hx => hI.wants_below hm hx
  refine ⟨fun t m x hm hx => ⟨hbelow t m x hm hx, ?_⟩, fun t m hm => ?_, fun t a n hp m => ?_,
    fun t m hm => ?_, ?_⟩
  · rintro rfl
    exact below_irrefl _ (hbelow t x x hm hx)
  · exact (hI.mutex m t).mpr (holds_of_unlocks hm)
  · exact (hI.mutex m t).trans (holds_iff_locked hp)
  · have hh := (hI.mutex m t).mp hm
    refine ⟨fun k g he => ?_, fun r he => ?_, fun he => ?_⟩
    all_goals rw [he] at hh; exact hh
  · have : IsStrictOrder ℕ fun m x => below (c.shared.data x) (c.shared.data m) :=
      { irrefl := fun m => below_irrefl _
        trans := fun a b d hab hbd => IsTrans.trans (r := below) _ _ _ hbd hab }
    exact waits_acyclic (r := fun m x => below (c.shared.data x) (c.shared.data m)) hbelow

/-- Thread `true` calls `insert v`, tosses `flips` and takes `n` more steps. -/
def insertSteps (v : ℕ) (flips : List Bool) (n : ℕ) : List (Bool × Choice ℕ) :=
  (true, Choice.call (.insert v)) :: List.replicate 5 (true, Choice.run) ++
    (true, Choice.coins flips) :: List.replicate n (true, Choice.run)

/-- A node of level 0 with the element 3, then an `insert` of 5 at levels 0 and 1: it has locked the
node of 3 and waits for the head. -/
theorem skip_list_locks_two_levels : ∃ h c,
    (program (ι := Bool) (T := ℕ) 64).Run Program.anyStep initial h c ∧
      c.shared.mutex 2 = some true ∧ (c.loc true).pc.wants = some head ∧
      below (c.shared.data head) (c.shared.data 2) ∧
      ¬ Relation.TransGen (WaitsFor c.shared.mutex fun u => (c.loc u).pc.wants) true true := by
  obtain ⟨h, c, hr, hq⟩ := Program.replay_reaches (program (ι := Bool) (T := ℕ) 64) initial
    (insertSteps 3 [] 46 ++ insertSteps 5 [true] 40)
    (fun _ c => decide (c.shared.mutex 2 = some true ∧ (c.loc true).pc.wants = some head))
    (by set_option maxRecDepth 10000 in decide)
  obtain ⟨hm, hx⟩ := of_decide_eq_true hq
  obtain ⟨h1, -, -, -, h5⟩ := skip_list_locks hr
  exact ⟨h, c, hr, hm, hx, (h1 true 2 head hm hx).1, h5 true⟩

end Bonostl.ConcurrentSkipList
