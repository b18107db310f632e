import Mathlib.Algebra.Order.BigOperators.Group.Finset
import Bonostl.ParallelScan.Invariant

/-!
# A scan returns

Every step brings the thread that takes it nearer to its end (`Task.left`, `mainLeft`, `totalLeft`,
`scanLeft`), and while `main` has not returned some thread can step: where `main` waits for a future
that is not ready, the task it waits for can. So every run can be continued until `main` has
returned (`completes`), and then the output is `Outputs` (`returned`).
-/

namespace Bonostl.ParallelScan

open Interleaving Blocks

variable {n : ℕ} {M V S T : Type} {A : Scanner V S T} {R : Ranges n M V T} {hardware out : ℕ}
  {m₀ : M}

/-- The steps of a std scan that are left. -/
def Task.left (last : ℕ) : Task S T → ℕ
  | .read i _ => 2 * (last - i) + 1
  | .write i _ _ => 2 * (last - i)

/-- A bound for the steps of `main` that are left. -/
def mainLeft (n hardware : ℕ) : Pc V S T → ℕ
  | .enter => 2 * n + 2 * numThreads hardware n + 3
  | .alone t => t.left n
  | .collect i => (numThreads hardware n - i) + numThreads hardware n + 2
  | .join i => numThreads hardware n - i + 1
  | _ => 0

/-- The steps of a task of the first phase that are left. -/
def totalLeft (first last : ℕ) : Pc V S T → ℕ
  | .idle => last - first + 1
  | .fold i _ => last - i + 1
  | _ => 0

/-- The steps of a task of the third phase that are left. -/
def scanLeft (first last : ℕ) : Pc V S T → ℕ
  | .idle => 2 * (last - first) + 2
  | .scan t => t.left last
  | _ => 0

/-- What the tasks of a block have left to do. -/
def blockLeft (n hardware : ℕ) (f : Thread → Pc V S T) (b : ℕ) : ℕ :=
  totalLeft (blockFirst hardware n b) (blockFirst hardware n (b + 1)) (f (.total b)) +
    scanLeft (blockFirst hardware n b) (blockFirst hardware n (b + 1)) (f (.scan b))

/-- The steps that are left. -/
def cost (n hardware : ℕ) (c : Config Thread (Shared M V S) (Pc V S T)) : ℕ :=
  mainLeft n hardware (c.loc .main) +
    (Finset.range (numThreads hardware n)).sum (blockLeft n hardware c.loc)

theorem Task.left_step {x : ℕ → V} {s₀ : S} {first last : ℕ} {m m' : M} {t t' : Task S T}
    (h : TaskOk A R x s₀ first last m t) (hs : t.step A R last m = some (m', t')) :
    t'.left last < t.left last := by
  cases t with
  | read i s =>
    simp only [Task.step] at hs
    split at hs
    · cases hs
    · cases hs
      exact Nat.lt_succ_self _
  | write i v s =>
    cases hs
    have := h.2.1
    simp only [Task.left]
    omega

theorem Task.left_pos {x : ℕ → V} {s₀ : S} {first last : ℕ} {m : M} {t : Task S T}
    (h : TaskOk A R x s₀ first last m t) : 0 < t.left last := by
  cases t with
  | read i s => exact Nat.succ_pos _
  | write i v s =>
    have := h.2.1
    simp only [Task.left]
    omega

section
variable {c : Config Thread (Shared M V S) (Pc V S T)} {s' : Shared M V S} {l' : Pc V S T} {b : ℕ}

theorem cost_main (h : mainLeft n hardware l' < mainLeft n hardware (c.loc .main)) :
    cost n hardware (c.set .main s' l') < cost n hardware c := by
  have hsame : blockLeft n hardware (c.set .main s' l').loc = blockLeft n hardware c.loc := by
    funext b
    unfold blockLeft
    rw [Config.set_loc_ne c (by simp), Config.set_loc_ne c (by simp)]
  unfold cost
  rw [hsame, Config.set_loc_self]
  omega

/-- A task of block `b` steps. -/
theorem cost_block {t : Thread} (ht : t ≠ .main)
    (hother : ∀ b' ≠ b, t ≠ .total b' ∧ t ≠ .scan b') (hb : b < numThreads hardware n)
    (h : blockLeft n hardware (c.set t s' l').loc b < blockLeft n hardware c.loc b) :
    cost n hardware (c.set t s' l') < cost n hardware c := by
  have hmain : (c.set t s' l').loc .main = c.loc .main := Config.set_loc_ne c ht.symm _ _
  unfold cost
  rw [hmain]
  refine Nat.add_lt_add_left (Finset.sum_lt_sum (fun b' _ => ?_) ⟨b, by simpa using hb, h⟩) _
  by_cases hbb : b' = b
  · subst hbb
    exact h.le
  · obtain ⟨h1, h2⟩ := hother b' hbb
    unfold blockLeft
    rw [Config.set_loc_ne c h1.symm, Config.set_loc_ne c h2.symm]

theorem cost_total (hb : b < numThreads hardware n)
    (h : totalLeft (blockFirst hardware n b) (blockFirst hardware n (b + 1)) l' <
      totalLeft (blockFirst hardware n b) (blockFirst hardware n (b + 1)) (c.loc (.total b))) :
    cost n hardware (c.set (.total b) s' l') < cost n hardware c := by
  refine cost_block (by simp) (fun b' hne => ⟨by simpa using hne.symm, by simp⟩) hb ?_
  unfold blockLeft
  rw [Config.set_loc_self, Config.set_loc_ne c (by simp)]
  exact Nat.add_lt_add_right h _

theorem cost_scan (hb : b < numThreads hardware n)
    (h : scanLeft (blockFirst hardware n b) (blockFirst hardware n (b + 1)) l' <
      scanLeft (blockFirst hardware n b) (blockFirst hardware n (b + 1)) (c.loc (.scan b))) :
    cost n hardware (c.set (.scan b) s' l') < cost n hardware c := by
  refine cost_block (by simp) (fun b' hne => ⟨by simp, by simpa using hne.symm⟩) hb ?_
  unfold blockLeft
  rw [Config.set_loc_self, Config.set_loc_ne c (by simp)]
  exact Nat.add_lt_add_left h _

variable [Inhabited V]

theorem cost_move {t : Thread} (h : Inv A R hardware out m₀ c)
    (hm : Move A R hardware out c.shared t (c.loc t) s' l') :
    cost n hardware (c.set t s' l') < cost n hardware c := by
  have hmain := h.main
  generalize hl : c.loc t = l at hm
  cases hm with
  | empty hn | submit hn ha =>
    refine cost_main ?_
    rw [hl]
    simp only [mainLeft]
    omega
  | alone hn ha =>
    refine cost_main ?_
    rw [hl]
    simp only [mainLeft, Task.left]
    omega
  | aloneStep t m t' ht =>
    rw [hl] at hmain
    refine cost_main ?_
    rw [hl]
    exact Task.left_step hmain.2.2.2 ht
  | aloneEnd t ht =>
    rw [hl] at hmain
    refine cost_main ?_
    rw [hl]
    exact Task.left_pos hmain.2.2.2
  | collect i hi =>
    rw [hl] at hmain
    have := hmain.2.2.2.2.1
    refine cost_main ?_
    rw [hl]
    simp only [mainLeft]
    omega
  | seeds | ret =>
    refine cost_main ?_
    rw [hl]
    simp only [mainLeft]
    omega
  | join i hi =>
    rw [hl] at hmain
    have := hmain.2.2.2.1
    refine cost_main ?_
    rw [hl]
    simp only [mainLeft]
    omega
  | totalBegin b hsub hb =>
    have := blockFirst_lt (length_pos hb) hb
    refine cost_total hb ?_
    rw [hl]
    simp only [totalLeft]
    omega
  | totalStep b i total hi =>
    have hb := h.total b
    rw [hl] at hb
    obtain ⟨-, -, hlt, h1, h2, -⟩ := hb
    refine cost_total hlt ?_
    rw [hl]
    simp only [totalLeft]
    omega
  | totalEnd b total =>
    have hb := h.total b
    rw [hl] at hb
    refine cost_total hb.2.2.1 ?_
    rw [hl]
    simp [totalLeft]
  | scanBegin b seeds hseeds hb =>
    refine cost_scan hb ?_
    rw [hl]
    simp only [scanLeft, Task.left]
    omega
  | scanStep b t m t' ht =>
    have hb := h.scan b
    rw [hl] at hb
    refine cost_scan hb.2.1 ?_
    rw [hl]
    exact Task.left_step hb.2.2.2 ht
  | scanEnd b t ht =>
    have hb := h.scan b
    rw [hl] at hb
    refine cost_scan hb.2.1 ?_
    rw [hl]
    exact Task.left_pos hb.2.2.2

theorem decreases : (program A R hardware out).Decreases (Inv A R hardware out m₀)
    (cost n hardware) :=
  fun _ _ _ _ _ _ h hs => ⟨inv_move h (step_move hs), cost_move h (step_move hs)⟩

/-- `main` has returned. -/
def Returned (c : Config Thread (Shared M V S) (Pc V S T)) : Prop := ∃ it, c.loc .main = .ret it

/-- Somebody can step. -/
def CanStep (A : Scanner V S T) (R : Ranges n M V T) (hardware out : ℕ)
    (c : Config Thread (Shared M V S) (Pc V S T)) : Prop :=
  ∃ t ev s l, step A R hardware out c.shared t (c.loc t) = some (ev, s, l)

theorem canStep_total (h : Inv A R hardware out m₀ c) (hsub : c.shared.submitted = true)
    (hb : b < numThreads hardware n) (hnone : c.shared.totals b = none) :
    CanStep A R hardware out c := by
  have htotal := h.total b
  refine ⟨.total b, ?_⟩
  cases hl : c.loc (.total b) <;> rw [hl] at htotal
  case idle => simp [step, hsub, hb]
  case fold i total =>
    by_cases hi : i = blockFirst hardware n (b + 1) <;> simp [step, hi]
  case finished => exact absurd (hnone.symm.trans htotal) (by simp)
  all_goals exact htotal.elim

theorem canStep_scan (h : Inv A R hardware out m₀ c) (hseeds : c.shared.seeds.isSome)
    (hb : b < numThreads hardware n) (hl : c.loc (.scan b) ≠ .finished) :
    CanStep A R hardware out c := by
  have hscan := h.scan b
  refine ⟨.scan b, ?_⟩
  cases hpc : c.loc (.scan b) <;> rw [hpc] at hscan
  case idle =>
    obtain ⟨seeds, hs⟩ := Option.isSome_iff_exists.mp hseeds
    simp [step, hs, hb]
  case scan t =>
    cases ht : t.step A R (blockFirst hardware n (b + 1)) c.shared.mem <;> simp [step, ht]
  case finished => exact absurd hpc hl
  all_goals exact hscan.elim

/-- **No wait is in vain**: while `main` has not returned some thread can step. -/
theorem progress (h : Inv A R hardware out m₀ c) : Returned c ∨ CanStep A R hardware out c := by
  have hmain := h.main
  cases hl : c.loc .main <;> rw [hl] at hmain
  case enter =>
    refine .inr ⟨.main, ?_⟩
    by_cases hn : n = 0
    · simp [step, hl, hn]
    · by_cases ha : Alone hardware n <;> simp [step, hl, hn, ha]
  case alone t =>
    refine .inr ⟨.main, ?_⟩
    cases ht : t.step A R n c.shared.mem <;> simp [step, hl, ht]
  case collect i =>
    obtain ⟨-, -, hsub, -, hle, -⟩ := hmain
    right
    by_cases hi : i = numThreads hardware n
    · exact ⟨.main, by simp [step, hl, hi]⟩
    · cases ht : c.shared.totals i with
      | none => exact canStep_total h hsub (by omega) ht
      | some v => exact ⟨.main, by simp [step, hl, hi, ht]⟩
  case join i =>
    obtain ⟨-, ⟨seeds, hseeds, -⟩, -, hle, -⟩ := hmain
    right
    by_cases hi : i = numThreads hardware n
    · exact ⟨.main, by simp [step, hl, hi]⟩
    · cases hs : c.shared.scanned i with
      | true => exact ⟨.main, by simp [step, hl, hi, hs]⟩
      | false =>
        refine canStep_scan h (by simp [hseeds]) (show i < numThreads hardware n by omega)
          fun hf => ?_
        have hscan := h.scan i
        rw [hf] at hscan
        exact absurd hs (by simp [hscan.1])
  case ret it => exact .inl ⟨it, hl⟩
  all_goals exact hmain.elim

/-! ## Runs -/

/-- A run of a scan of the range in memory `m₀`. -/
abbrev ScanRun (A : Scanner V S T) (R : Ranges n M V T) (hardware out : ℕ) (m₀ : M)
    (h : List (Rec Thread (Shared M V S) (Pc V S T) Unit ℕ))
    (c : Config Thread (Shared M V S) (Pc V S T)) : Prop :=
  (program A R hardware out).Run Program.anyStep (initial m₀) h c

variable {h : List (Rec Thread (Shared M V S) (Pc V S T) Unit ℕ)} {it : ℕ}

theorem inv_run (hr : ScanRun A R hardware out m₀ h c) : Inv A R hardware out m₀ c :=
  (hr.decreases decreases (inv_initial A R hardware out m₀)).1

/-- **What `main` returns**, and what then stands in the output. -/
theorem returned (hr : ScanRun A R hardware out m₀ h c) (hl : c.loc .main = .ret it) :
    it = out + n ∧ Outputs A R hardware m₀ (R.written c.shared.mem) := by
  have hmain := (inv_run hr).main
  rw [hl] at hmain
  exact ⟨hmain.1, hmain.2.1⟩

/-- **Every run can be continued until `main` has returned.** -/
theorem completes (hr : ScanRun A R hardware out m₀ h c) :
    ∃ h' c', ScanRun A R hardware out m₀ (h' ++ h) c' ∧ Returned c' := by
  refine hr.completes decreases (fun c hI => ?_) (inv_initial A R hardware out m₀)
  rcases progress hI with hret | ⟨t, ev, s, l, hs⟩
  · exact .inl hret
  · exact .inr ⟨t, (), ev, s, l, hs⟩

/-- What every write to the output leaves alone is left alone. -/
theorem untouched {p : M → Prop} (hp : ∀ m i v, i < n → p m → p (R.write m i v)) (h₀ : p m₀)
    (hr : ScanRun A R hardware out m₀ h c) : p c.shared.mem := by
  induction hr with
  | nil => exact h₀
  | @cons h c t k ev s l hrun _ hs ih =>
    have hI := inv_run hrun
    have hm := step_move hs
    have hmain := hI.main
    show p s.mem
    generalize hl : c.loc t = l₀ at hm
    cases hm with
    | aloneStep t m t' ht =>
      rw [hl] at hmain
      rcases Task.step_mem hmain.2.2.2 ht with rfl | ⟨i, v, -, hi, rfl⟩
      · exact ih
      · exact hp _ i v hi ih
    | scanStep b t m t' ht =>
      have hb := hI.scan b
      rw [hl] at hb
      rcases Task.step_mem hb.2.2.2 ht with rfl | ⟨i, v, -, hi, rfl⟩
      · exact ih
      · exact hp _ i v (hi.trans_le (blockFirst_le (length_pos hb.2.1) hb.2.1)) ih
    | _ => exact ih
end

end Bonostl.ParallelScan
