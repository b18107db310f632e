import Mathlib.Algebra.Order.BigOperators.Group.Finset
import Bonostl.ParallelAccumulate.Model

/-!
# What `parallel_accumulate` returns

Each block has its own entry of `results`, which its thread writes before it ends and `main` reads
after it has joined all of them (`Inv`). So where the blocks divide the range, the value returned is
`value`, in whatever order the threads finish (`returns_value`), and every run can be continued
until it is returned, unless there is no thread (`returns`). `returned` and `completes` say so of a
length that is not truncated.
-/

namespace Bonostl.ParallelAccumulate

open Interleaving Blocks

variable {V T : Type}

section
variable (o : Op V T) (D : Layout) (n : ℕ) (x : ℕ → V) (init : T)

/-- The result of a block. -/
def blockTotal (b : ℕ) : V :=
  reduce o.element x (D.first b) (D.first (b + 1))

/-- What is returned. -/
def value : T :=
  if D.length = 0 then init
  else if D.length < 2 * minPerThread then fold o.mixed x init 0 n
  else fold o.merge (fun b => o.wide (blockTotal o D x b)) init 0 D.numThreads

/-- What `main` knows at each place. -/
def MainOk (s : Shared T) : Pc V T → Prop
  | .enter => True
  | .short i acc => D.Short ∧ i ≤ n ∧ acc = fold o.mixed x init 0 i
  | .spawn i => D.Long ∧ i + 1 ≤ D.numThreads ∧ ∀ b < i, s.started b = true
  | .fold i total => D.Long ∧
      (∀ b, b + 1 < D.numThreads → s.started b = true) ∧
      D.first (D.numThreads - 1) < i ∧ i ≤ n ∧
      total = reduce o.element x (D.first (D.numThreads - 1)) i
  | .join i => D.Long ∧
      (∀ b, b + 1 < D.numThreads → s.started b = true) ∧
      s.results (D.numThreads - 1) =
        o.wide (blockTotal o D x (D.numThreads - 1)) ∧
      i + 1 ≤ D.numThreads ∧ ∀ b < i, s.finished b = true
  | .merge i acc => D.Long ∧
      (∀ b, b + 1 < D.numThreads → s.finished b = true) ∧
      (∀ b < D.numThreads, s.results b = o.wide (blockTotal o D x b)) ∧
      i ≤ D.numThreads ∧
      acc = fold o.merge (fun b => o.wide (blockTotal o D x b)) init 0 i
  | .ret r => ¬ D.NoThread ∧ r = value o D n x init
  | .divideByZero => D.NoThread
  | _ => False

/-- What the thread of block `b` knows at each place. -/
def BlockOk (s : Shared T) (b : ℕ) : Pc V T → Prop
  | .idle => s.finished b = false
  | .fold i total => s.finished b = false ∧ b + 1 < D.numThreads ∧
      D.first b < i ∧ i ≤ D.first (b + 1) ∧
      total = reduce o.element x (D.first b) i
  | .finished => s.finished b = true ∧ b + 1 < D.numThreads ∧
      s.results b = o.wide (blockTotal o D x b)
  | _ => False

/-- The invariant. -/
structure Inv (c : Config Thread (Shared T) (Pc V T)) : Prop where
  main : MainOk o D n x init c.shared (c.loc .main)
  block (b : ℕ) : BlockOk o D x c.shared b (c.loc (.block b))
  started (b : ℕ) (hb : c.shared.started b = true) : D.Long ∧ b + 1 < D.numThreads
end

section
variable {o : Op V T} {D : Layout} {n : ℕ} {x : ℕ → V} {init : T}
  {c : Config Thread (Shared T) (Pc V T)} {s' : Shared T} {l' : Pc V T} {b : ℕ}

theorem pos_of_long (hn : ¬ n < 2 * minPerThread) : 0 < n := by
  unfold minPerThread at hn
  omega

theorem value_short {hardware : ℕ} (hn : n < 2 * minPerThread) :
    value o (layout hardware n) n x init = fold o.mixed x init 0 n := by
  unfold value
  rcases Nat.eq_zero_or_pos n with rfl | hpos
  · exact (if_pos rfl).trans fold_self.symm
  · exact (if_neg hpos.ne').trans (if_pos hn)

theorem value_divided (hn : ¬ D.length < 2 * minPerThread) :
    value o D n x init = fold o.merge (fun b => o.wide (blockTotal o D x b)) init 0 D.numThreads :=
  (if_neg (pos_of_long hn).ne').trans (if_neg hn)

theorem Inv.main_move (h : Inv o D n x init c) (hmain : MainOk o D n x init s' l')
    (hblock : ∀ b l, BlockOk o D x c.shared b l → BlockOk o D x s' b l)
    (hstarted : ∀ b, s'.started b = true → D.Long ∧ b + 1 < D.numThreads) :
    Inv o D n x init (c.set .main s' l') where
  main := by simpa using hmain
  block b := by
    rw [Config.set_loc_ne c (by simp)]
    exact hblock b _ (h.block b)
  started := hstarted

theorem Inv.block_move (h : Inv o D n x init c)
    (hmain : MainOk o D n x init s' (c.loc .main)) (hself : BlockOk o D x s' b l')
    (hblock : ∀ b' ≠ b, ∀ l, BlockOk o D x c.shared b' l → BlockOk o D x s' b' l)
    (hstarted : s'.started = c.shared.started) :
    Inv o D n x init (c.set (.block b) s' l') where
  main := by
    rw [Config.set_loc_ne c (by simp)]
    exact hmain
  block b' := by
    by_cases hb : b' = b
    · subst hb
      simpa using hself
    · rw [Config.set_loc_ne c (by simpa using hb)]
      exact hblock b' hb _ (h.block b')
  started b hb := h.started b (hstarted ▸ hb)

theorem BlockOk.congr {s : Shared T} (h : BlockOk o D x s b l')
    (hf : s'.finished b = s.finished b)
    (hr : b + 1 < D.numThreads → s'.results b = s.results b) :
    BlockOk o D x s' b l' := by
  cases l' with
  | idle => exact hf.trans h
  | fold i total => exact ⟨hf.trans h.1, h.2⟩
  | finished => exact ⟨hf.trans h.1, h.2.1, (hr h.2.1).trans h.2.2⟩
  | _ => exact h.elim

/-- A thread that has ended has left its result. -/
theorem BlockOk.result {s : Shared T} (h : BlockOk o D x s b l')
    (hf : s.finished b = true) : s.results b = o.wide (blockTotal o D x b) := by
  cases l' with
  | finished => exact h.2.2
  | idle => exact absurd hf (by simp [show s.finished b = false from h])
  | fold i total => exact absurd hf (by simp [h.1])
  | _ => exact h.elim

theorem inv_initial [Inhabited T] (o : Op V T) (D : Layout) (n : ℕ) (x : ℕ → V) (init : T) :
    Inv o D n x init initial where
  main := trivial
  block _ := rfl
  started b hb := by simp [initial] at hb

theorem inv_move {t : Thread} (hD : D.Long → Division n D.numThreads D.first)
    (h : Inv o D n x init c)
    (hm : Move o D n x init c.shared t (c.loc t) s' l') :
    Inv o D n x init (c.set t s' l') := by
  have hmain := h.main
  generalize hl : c.loc t = l at hm
  cases hm with
  | empty hn =>
    refine h.main_move ?_ (fun _ _ => id) h.started
    exact ⟨fun hz => (pos_of_long hz.1).ne' hn, (if_pos hn).symm⟩
  | short hn => exact h.main_move ⟨hn, Nat.zero_le n, fold_self.symm⟩ (fun _ _ => id) h.started
  | divide hn =>
    exact h.main_move ⟨hn, Nat.pos_of_ne_zero hn.2, fun b hb => by omega⟩ (fun _ _ => id) h.started
  | divideByZero hn => exact h.main_move hn (fun _ _ => id) h.started
  | shortStep i acc hi =>
    rw [hl] at hmain
    obtain ⟨hn, hle, rfl⟩ := hmain
    refine h.main_move ⟨hn, by omega, ?_⟩ (fun _ _ => id) h.started
    rw [fold_succ (Nat.zero_le i)]
  | shortEnd acc =>
    rw [hl] at hmain
    obtain ⟨hn, -, rfl⟩ := hmain
    refine h.main_move ?_ (fun _ _ => id) h.started
    exact ⟨fun hz => hz.1 hn.2, ((if_neg hn.1).trans (if_pos hn.2)).symm⟩
  | spawn i hi =>
    rw [hl] at hmain
    obtain ⟨hn, hle, hall⟩ := hmain
    refine h.main_move ⟨hn, by omega, fun b hb => ?_⟩ (fun b l hb => hb.congr rfl fun _ => rfl)
      fun b hb => ?_
    · by_cases hbi : b = i
      · subst hbi
        exact Function.update_self _ _ _
      · exact (Function.update_of_ne hbi _ _).trans (hall b (by omega))
    · by_cases hbi : b = i
      · exact ⟨hn, by omega⟩
      · exact h.started b ((Function.update_of_ne hbi _ _).symm.trans hb)
  | own =>
    rw [hl] at hmain
    obtain ⟨hn, hle, hall⟩ := hmain
    have hlt := (hD hn).lt (D.numThreads - 1) (by omega)
    rw [Nat.sub_add_cancel (show 1 ≤ D.numThreads by omega), (hD hn).last] at hlt
    exact h.main_move ⟨hn, fun b hb => hall b (by omega), Nat.lt_succ_self _, hlt, reduce_one.symm⟩
      (fun _ _ => id) h.started
  | ownStep i total hi =>
    rw [hl] at hmain
    obtain ⟨hn, hall, h1, h2, rfl⟩ := hmain
    refine h.main_move ⟨hn, hall, by omega, by omega, ?_⟩ (fun _ _ => id) h.started
    rw [reduce_succ h1]
  | ownEnd total =>
    rw [hl] at hmain
    obtain ⟨hn, hall, h1, h2, rfl⟩ := hmain
    have hpos := (hD hn).pos
    refine h.main_move ⟨hn, hall, ?_, by omega, fun b hb => by omega⟩ (fun b l hb => ?_) h.started
    · refine (Function.update_self _ _ _).trans ?_
      unfold blockTotal
      rw [Nat.sub_add_cancel hpos, (hD hn).last]
    · exact hb.congr rfl fun hlt => Function.update_of_ne (by omega) _ _
  | join i hi hf =>
    rw [hl] at hmain
    obtain ⟨hn, hall, hown, hle, hdone⟩ := hmain
    refine h.main_move ⟨hn, hall, hown, by omega, fun b hb => ?_⟩ (fun _ _ => id) h.started
    rcases Nat.lt_succ_iff_lt_or_eq.mp hb with hb | rfl
    · exact hdone b hb
    · exact hf
  | joined =>
    rw [hl] at hmain
    obtain ⟨hn, hall, hown, hle, hdone⟩ := hmain
    refine h.main_move ⟨hn, fun b hb => hdone b (by omega), fun b hb => ?_, Nat.zero_le _,
      fold_self.symm⟩ (fun _ _ => id) h.started
    rcases Nat.lt_or_ge (b + 1) (D.numThreads) with hlt | hge
    · exact (h.block b).result (hdone b (by omega))
    · obtain rfl : b = D.numThreads - 1 := by omega
      exact hown
  | merge i acc hi =>
    rw [hl] at hmain
    obtain ⟨hn, hdone, hresults, hle, rfl⟩ := hmain
    refine h.main_move ⟨hn, hdone, hresults, by omega, ?_⟩ (fun _ _ => id) h.started
    rw [fold_succ (Nat.zero_le i), hresults i (by omega)]
  | ret acc =>
    rw [hl] at hmain
    obtain ⟨hn, -, -, -, rfl⟩ := hmain
    refine h.main_move ?_ (fun _ _ => id) h.started
    exact ⟨fun hz => hn.2 hz.2, (value_divided hn.1).symm⟩
  | blockBegin b hb =>
    have hf := h.block b
    rw [hl] at hf
    obtain ⟨hn, hlt⟩ := h.started b hb
    refine h.block_move h.main ⟨hf, hlt, Nat.lt_succ_self _, ?_, reduce_one.symm⟩
      (fun _ _ _ => id) rfl
    exact (hD hn).lt b (Nat.lt_of_succ_lt hlt)
  | blockStep b i total hi =>
    have hb := h.block b
    rw [hl] at hb
    obtain ⟨hf, hlt, h1, h2, rfl⟩ := hb
    refine h.block_move h.main ⟨hf, hlt, by omega, by omega, ?_⟩ (fun _ _ _ => id) rfl
    rw [reduce_succ h1]
  | blockEnd b total =>
    have hb := h.block b
    rw [hl] at hb
    obtain ⟨hf, hlt, h1, h2, rfl⟩ := hb
    refine h.block_move ?_ ⟨Function.update_self _ _ _, hlt, Function.update_self _ _ _⟩
      (fun b' hne l hb' => hb'.congr (Function.update_of_ne hne _ _) fun _ =>
        Function.update_of_ne hne _ _) rfl
    generalize c.loc .main = lm at hmain
    cases lm with
    | join i =>
      obtain ⟨hn, hall, hown, hle, hdone⟩ := hmain
      refine ⟨hn, hall, (Function.update_of_ne (by omega) _ _).trans hown, hle, fun b' hb' => ?_⟩
      by_cases hbb : b' = b
      · subst hbb
        exact Function.update_self _ _ _
      · exact (Function.update_of_ne hbb _ _).trans (hdone b' hb')
    | merge i acc => exact absurd (hmain.2.1 b hlt) (by simp [hf])
    | _ => exact hmain

/-! ## Every run returns -/

/-- A bound for the steps of `main` that are left. -/
def mainLeft (D : Layout) (n : ℕ) : Pc V T → ℕ
  | .enter => n + 3 * D.numThreads + 4
  | .short i _ => n - i + 1
  | .spawn i => (D.numThreads - i) + n + 2 * D.numThreads + 3
  | .fold i _ => (n - i) + 2 * D.numThreads + 3
  | .join i => (D.numThreads - i) + D.numThreads + 2
  | .merge i _ => D.numThreads - i + 1
  | _ => 0

/-- The steps of the thread of block `b` that are left. -/
def blockLeft (D : Layout) (f : Thread → Pc V T) (b : ℕ) : ℕ :=
  match f (.block b) with
  | .idle => D.first (b + 1) - D.first b + 1
  | .fold i _ => D.first (b + 1) - i + 1
  | _ => 0

/-- The steps that are left. -/
def cost (D : Layout) (n : ℕ) (c : Config Thread (Shared T) (Pc V T)) : ℕ :=
  mainLeft D n (c.loc .main) +
    (Finset.range (D.numThreads)).sum (blockLeft D c.loc)

theorem cost_main (h : mainLeft D n l' < mainLeft D n (c.loc .main)) :
    cost D n (c.set .main s' l') < cost D n c := by
  have hsame : blockLeft D (c.set .main s' l').loc = blockLeft D c.loc := by
    funext b
    unfold blockLeft
    rw [Config.set_loc_ne c (by simp)]
  unfold cost
  rw [hsame, Config.set_loc_self]
  omega

theorem cost_block (hb : b + 1 < D.numThreads)
    (h : blockLeft D (c.set (.block b) s' l').loc b < blockLeft D c.loc b) :
    cost D n (c.set (.block b) s' l') < cost D n c := by
  have hmain : (c.set (.block b) s' l').loc .main = c.loc .main := Config.set_loc_ne c (by simp) _ _
  unfold cost
  rw [hmain]
  refine Nat.add_lt_add_left (Finset.sum_lt_sum (fun b' _ => ?_)
    ⟨b, Finset.mem_range.mpr (Nat.lt_of_succ_lt hb), h⟩) _
  by_cases hbb : b' = b
  · subst hbb
    exact h.le
  · unfold blockLeft
    rw [Config.set_loc_ne c (by simpa using hbb)]

theorem cost_move {t : Thread} (hD : D.Long → Division n D.numThreads D.first)
    (h : Inv o D n x init c)
    (hm : Move o D n x init c.shared t (c.loc t) s' l') :
    cost D n (c.set t s' l') < cost D n c := by
  have hmain := h.main
  generalize hl : c.loc t = l at hm
  cases hm with
  | empty | short | divide | divideByZero | ownEnd | joined | shortEnd | ret =>
    refine cost_main ?_
    rw [hl]
    simp only [mainLeft]
    omega
  | shortStep i acc hi =>
    rw [hl] at hmain
    have := hmain.2.1
    refine cost_main ?_
    rw [hl]
    simp only [mainLeft]
    omega
  | spawn i hi =>
    rw [hl] at hmain
    have := hmain.2.1
    refine cost_main ?_
    rw [hl]
    simp only [mainLeft]
    omega
  | own =>
    rw [hl] at hmain
    have := hmain.2.1
    refine cost_main ?_
    rw [hl]
    simp only [mainLeft]
    omega
  | ownStep i total hi =>
    rw [hl] at hmain
    have := hmain.2.2.2.1
    refine cost_main ?_
    rw [hl]
    simp only [mainLeft]
    omega
  | join i hi hf =>
    rw [hl] at hmain
    have := hmain.2.2.2.1
    refine cost_main ?_
    rw [hl]
    simp only [mainLeft]
    omega
  | merge i acc hi =>
    rw [hl] at hmain
    have := hmain.2.2.2.1
    refine cost_main ?_
    rw [hl]
    simp only [mainLeft]
    omega
  | blockBegin b hb =>
    obtain ⟨hn, hlt⟩ := h.started b hb
    have := (hD hn).lt b (Nat.lt_of_succ_lt hlt)
    refine cost_block hlt ?_
    simp only [blockLeft, Config.set_loc_self, hl]
    omega
  | blockStep b i total hi =>
    have hb := h.block b
    rw [hl] at hb
    obtain ⟨-, hlt, h1, h2, -⟩ := hb
    refine cost_block hlt ?_
    simp only [blockLeft, Config.set_loc_self, hl]
    omega
  | blockEnd b total =>
    have hb := h.block b
    rw [hl] at hb
    refine cost_block hb.2.1 ?_
    simp only [blockLeft, Config.set_loc_self, hl]
    omega

theorem decreases (hD : D.Long → Division n D.numThreads D.first) :
    (program o D n x init).Decreases (Inv o D n x init) (cost D n) :=
  fun _ _ _ _ _ _ h hs => ⟨inv_move hD h (step_move hs), cost_move hD h (step_move hs)⟩

/-- The value has been returned. -/
def Returned (c : Config Thread (Shared T) (Pc V T)) : Prop := ∃ r, c.loc .main = .ret r

/-- **No join is in vain.** -/
theorem progress (h : Inv o D n x init c) : (Returned c ∨ c.loc .main = .divideByZero) ∨
    ∃ t ev s l, step o D n x init c.shared t (c.loc t) = some (ev, s, l) := by
  have hmain := h.main
  cases hl : c.loc .main <;> rw [hl] at hmain
  case enter =>
    refine .inr ⟨.main, ?_⟩
    by_cases hn : D.length = 0
    · simp [step, hl, hn]
    · by_cases hs : D.length < 2 * minPerThread
      · simp [step, hl, hn, hs]
      · by_cases hz : D.numThreads = 0 <;> simp [step, hl, hn, hs, hz]
  case short i acc =>
    refine .inr ⟨.main, ?_⟩
    by_cases hi : i = n <;> simp [step, hl, hi]
  case spawn i =>
    refine .inr ⟨.main, ?_⟩
    by_cases hi : i = D.numThreads - 1 <;> simp [step, hl, hi]
  case fold i total =>
    refine .inr ⟨.main, ?_⟩
    by_cases hi : i = n <;> simp [step, hl, hi]
  case merge i acc =>
    refine .inr ⟨.main, ?_⟩
    by_cases hi : i = D.numThreads <;> simp [step, hl, hi]
  case join i =>
    right
    by_cases hi : i = D.numThreads - 1
    · exact ⟨.main, by simp [step, hl, hi]⟩
    · obtain ⟨-, hall, -, hle, -⟩ := hmain
      have hstarted := hall i (by omega)
      cases hf : c.shared.finished i with
      | true => exact ⟨.main, by simp [step, hl, hi, hf]⟩
      | false =>
        -- the thread that is waited for has been started and has not ended
        have hb := h.block i
        refine ⟨.block i, ?_⟩
        cases hlb : c.loc (.block i) <;> rw [hlb] at hb
        case idle => simp [step, hstarted]
        case fold k total =>
          by_cases hk : k = D.first (i + 1) <;> simp [step, hk]
        case finished => exact absurd hf (by simp [hb.1])
        all_goals exact hb.elim
  case ret r => exact .inl (.inl ⟨r, hl⟩)
  case divideByZero => exact .inl (.inr rfl)
  all_goals exact hmain.elim

/-! ## Runs -/

variable [Inhabited T]

/-- A run on `n` elements that are divided as `D` says. -/
abbrev DividedRun (o : Op V T) (D : Layout) (n : ℕ) (x : ℕ → V) (init : T)
    (h : List (Rec Thread (Shared T) (Pc V T) Unit T)) (c : Config Thread (Shared T) (Pc V T)) :
    Prop := (program o D n x init).Run Program.anyStep initial h c

variable {h : List (Rec Thread (Shared T) (Pc V T) Unit T)} {r : T}

theorem inv_run (hD : D.Long → Division n D.numThreads D.first) (hr : DividedRun o D n x init h c) :
    Inv o D n x init c :=
  (hr.decreases (decreases hD) (inv_initial o D n x init)).1

/-- **What is returned.** -/
theorem returns_value (hD : D.Long → Division n D.numThreads D.first)
    (hr : DividedRun o D n x init h c) (hl : c.loc .main = .ret r) :
    ¬ D.NoThread ∧ r = value o D n x init := by
  have hmain := (inv_run hD hr).main
  rw [hl] at hmain
  exact hmain

/-- **Every run can be continued until the value has been returned**, if there is a thread. -/
theorem returns (hD : D.Long → Division n D.numThreads D.first) (hz : ¬ D.NoThread)
    (hr : DividedRun o D n x init h c) :
    ∃ h' c', DividedRun o D n x init (h' ++ h) c' ∧ Returned c' := by
  refine hr.completes (decreases hD) (fun c hI => ?_) (inv_initial o D n x init)
  rcases progress hI with (hret | hdiv) | ⟨t, ev, s, l, hs⟩
  · exact .inl hret
  · have hmain := hI.main
    rw [hdiv] at hmain
    exact absurd hmain hz
  · exact .inr ⟨t, (), ev, s, l, hs⟩

/-- A run of `parallel_accumulate` on `n` elements. -/
abbrev AccumulateRun (o : Op V T) (hardware n : ℕ) (x : ℕ → V) (init : T)
    (h : List (Rec Thread (Shared T) (Pc V T) Unit T)) (c : Config Thread (Shared T) (Pc V T)) :
    Prop := DividedRun o (layout hardware n) n x init h c

variable {hardware : ℕ}

theorem layout_division (hn : (layout hardware n).Long) :
    Division n (layout hardware n).numThreads (layout hardware n).first :=
  division hardware (pos_of_long hn.1)

theorem returned (hr : AccumulateRun o hardware n x init h c) (hl : c.loc .main = .ret r) :
    r = value o (layout hardware n) n x init :=
  (returns_value layout_division hr hl).2

/-- **Every run can be continued until the value has been returned.** -/
theorem completes (hr : AccumulateRun o hardware n x init h c) :
    ∃ h' c', AccumulateRun o hardware n x init (h' ++ h) c' ∧ Returned c' :=
  returns layout_division (fun hz => (numThreads_pos hardware (pos_of_long hz.1)).ne' hz.2) hr
end

end Bonostl.ParallelAccumulate
