import Bonostl.ParallelScan.Model

/-!
# What a scan writes, whatever the order of its tasks

`stateAt` and `emitAt` say what a std scan carries and writes at each position of a range it goes
through on its own. `Inv` says, place by place, what has been done: up to the end of the second
phase the memory is as it was (so the totals are those of the input); in the third phase a block's
elements are as they were from where its task reads, and its results stand up to where it writes
(`TaskOk`), and a task of another block touches neither (`Ranges`). `outputs` is what stands in the
output when `main` returns (`returned`), and `completes` says that it does.
-/

namespace Bonostl.ParallelScan

open Interleaving Blocks

variable {n : ℕ} {M V S T : Type}

/-! ## A scan on its own -/

section
variable (A : Scanner V S T) (x : ℕ → V) (s₀ : S) (first : ℕ)

/-- What a scan of a range from `first` carries to position `i`. -/
def stateAt (i : ℕ) : S := fold (fun s v => (A.feed s v).2) x s₀ first i

/-- What it writes there. -/
def emitAt (i : ℕ) : T := (A.feed (stateAt A x s₀ first i) (x i)).1
end

section
variable {A : Scanner V S T} {x : ℕ → V} {s₀ : S} {first mid i : ℕ}

@[simp] theorem stateAt_first : stateAt A x s₀ first first = s₀ := fold_self

theorem stateAt_succ (h : first ≤ i) :
    stateAt A x s₀ first (i + 1) = (A.feed (stateAt A x s₀ first i) (x i)).2 := fold_succ h

/-- A scan goes on from what it has carried. -/
theorem stateAt_append (h : first ≤ mid) (h' : mid ≤ i) :
    stateAt A x (stateAt A x s₀ first mid) mid i = stateAt A x s₀ first i := (fold_append h h').symm
end

/-- A scan of the range from `first` to `last`, in a memory that held `x`. -/
def TaskOk (A : Scanner V S T) (R : Ranges n M V T) (x : ℕ → V) (s₀ : S) (first last : ℕ) (m : M) :
    Task S T → Prop
  | .read i s => first ≤ i ∧ i ≤ last ∧ s = stateAt A x s₀ first i ∧
      (∀ j, i ≤ j → j < last → R.read m j = x j) ∧
      ∀ j, first ≤ j → j < i → R.written m j = emitAt A x s₀ first j
  | .write i v s => first ≤ i ∧ i < last ∧ v = emitAt A x s₀ first i ∧
      s = stateAt A x s₀ first (i + 1) ∧ (∀ j, i < j → j < last → R.read m j = x j) ∧
      ∀ j, first ≤ j → j < i → R.written m j = emitAt A x s₀ first j

section
variable {A : Scanner V S T} {R : Ranges n M V T} {x : ℕ → V} {s₀ : S} {first last : ℕ} {m m' : M}
  {t t' : Task S T}

/-- **A step of a scan.** -/
theorem TaskOk.step (hlast : last ≤ n) (h : TaskOk A R x s₀ first last m t)
    (hs : t.step A R last m = some (m', t')) : TaskOk A R x s₀ first last m' t' := by
  cases t with
  | read i s =>
    obtain ⟨h1, h2, rfl, hread, hwritten⟩ := h
    simp only [Task.step] at hs
    split at hs
    · cases hs
    · rename_i hi
      cases hs
      have hlt : i < last := lt_of_le_of_ne h2 hi
      refine ⟨h1, hlt, ?_, ?_, fun j hj => hread j hj.le, hwritten⟩
      · rw [hread i (le_refl i) hlt]
        rfl
      · rw [hread i (le_refl i) hlt, stateAt_succ h1]
  | write i v s =>
    obtain ⟨h1, h2, rfl, rfl, hread, hwritten⟩ := h
    cases hs
    have hi : i < n := h2.trans_le hlast
    refine ⟨by omega, h2, rfl, fun j hj hj' => ?_, fun j hj hj' => ?_⟩
    · rw [R.read_write hi (hj'.trans_le hlast) (by omega)]
      exact hread j hj hj'
    · rcases Nat.lt_succ_iff_lt_or_eq.mp hj' with hlt | rfl
      · rw [R.written_write hi (hlt.trans hi) (by omega)]
        exact hwritten j hj hlt
      · rw [R.written_self hi]

/-- When a scan has come to the end its results stand. -/
theorem TaskOk.finished (h : TaskOk A R x s₀ first last m t) (hs : t.step A R last m = none) :
    ∀ j, first ≤ j → j < last → R.written m j = emitAt A x s₀ first j := by
  cases t with
  | read i s =>
    obtain ⟨-, -, -, -, hwritten⟩ := h
    simp only [Task.step] at hs
    split at hs
    · rename_i hi
      exact hi ▸ hwritten
    · cases hs
  | write i v s => cases hs

/-- What a step of a scan changes: nothing, or the position of its own it is at. -/
theorem Task.step_mem (h : TaskOk A R x s₀ first last m t)
    (hs : t.step A R last m = some (m', t')) :
    m' = m ∨ ∃ i v, first ≤ i ∧ i < last ∧ m' = R.write m i v := by
  cases t with
  | read i s =>
    simp only [Task.step] at hs
    split at hs
    · cases hs
    · cases hs
      exact .inl rfl
  | write i v s =>
    cases hs
    exact .inr ⟨i, v, h.1, h.2.1, rfl⟩

/-- Another range's positions may change. -/
theorem TaskOk.congr (h : TaskOk A R x s₀ first last m t)
    (hr : ∀ j, first ≤ j → j < last → R.read m' j = R.read m j)
    (hw : ∀ j, first ≤ j → j < last → R.written m' j = R.written m j) :
    TaskOk A R x s₀ first last m' t := by
  cases t with
  | read i s =>
    obtain ⟨h1, h2, h3, hread, hwritten⟩ := h
    refine ⟨h1, h2, h3, fun j hj hj' => ?_, fun j hj hj' => ?_⟩
    · rw [hr j (h1.trans hj) hj', hread j hj hj']
    · rw [hw j hj (hj'.trans_le h2), hwritten j hj hj']
  | write i v s =>
    obtain ⟨h1, h2, h3, h4, hread, hwritten⟩ := h
    refine ⟨h1, h2, h3, h4, fun j hj hj' => ?_, fun j hj hj' => ?_⟩
    · rw [hr j (h1.trans hj.le) hj', hread j hj hj']
    · rw [hw j hj (hj'.trans h2), hwritten j hj hj']
end

/-! ## The moves -/

section
variable [Inhabited V]

/-- The moves of the threads. -/
inductive Move (A : Scanner V S T) (R : Ranges n M V T) (hardware out : ℕ) (s : Shared M V S) :
    Thread → Pc V S T → Shared M V S → Pc V S T → Prop
  | empty (hn : n = 0) : Move A R hardware out s .main .enter s (.ret out)
  | alone (hn : n ≠ 0) (ha : Alone hardware n) :
      Move A R hardware out s .main .enter s (.alone (.read 0 A.init))
  | submit (hn : n ≠ 0) (ha : ¬ Alone hardware n) :
      Move A R hardware out s .main .enter { s with submitted := true } (.collect 0)
  | aloneStep (t m t') (ht : t.step A R n s.mem = some (m, t')) :
      Move A R hardware out s .main (.alone t) { s with mem := m } (.alone t')
  | aloneEnd (t) (ht : t.step A R n s.mem = none) :
      Move A R hardware out s .main (.alone t) s (.ret (out + n))
  | collect (i) (hi : i ≠ numThreads hardware n) (ht : (s.totals i).isSome) :
      Move A R hardware out s .main (.collect i) s (.collect (i + 1))
  | seeds : Move A R hardware out s .main (.collect (numThreads hardware n))
      { s with seeds := some (A.seed fun j => (s.totals j).getD default) } (.join 0)
  | join (i) (hi : i ≠ numThreads hardware n) (hs : s.scanned i = true) :
      Move A R hardware out s .main (.join i) s (.join (i + 1))
  | ret : Move A R hardware out s .main (.join (numThreads hardware n)) s (.ret (out + n))
  | totalBegin (b) (hsub : s.submitted = true) (hb : b < numThreads hardware n) :
      Move A R hardware out s (.total b) .idle s
        (.fold (blockFirst hardware n b + 1) (R.read s.mem (blockFirst hardware n b)))
  | totalStep (b i total) (hi : i ≠ blockFirst hardware n (b + 1)) :
      Move A R hardware out s (.total b) (.fold i total) s
        (.fold (i + 1) (A.op total (R.read s.mem i)))
  | totalEnd (b total) :
      Move A R hardware out s (.total b) (.fold (blockFirst hardware n (b + 1)) total)
        { s with totals := Function.update s.totals b (some total) } .finished
  | scanBegin (b seeds) (hseeds : s.seeds = some seeds) (hb : b < numThreads hardware n) :
      Move A R hardware out s (.scan b) .idle s (.scan (.read (blockFirst hardware n b) (seeds b)))
  | scanStep (b t m t') (ht : t.step A R (blockFirst hardware n (b + 1)) s.mem = some (m, t')) :
      Move A R hardware out s (.scan b) (.scan t) { s with mem := m } (.scan t')
  | scanEnd (b t) (ht : t.step A R (blockFirst hardware n (b + 1)) s.mem = none) :
      Move A R hardware out s (.scan b) (.scan t)
        { s with scanned := Function.update s.scanned b true } .finished

variable {A : Scanner V S T} {R : Ranges n M V T} {hardware out : ℕ} {s s' : Shared M V S}
  {t : Thread} {l l' : Pc V S T}

theorem step_move {ev : Event Unit ℕ} (hs : step A R hardware out s t l = some (ev, s', l')) :
    Move A R hardware out s t l s' l' := by
  cases t with
  | main =>
    cases l <;> simp only [step] at hs
    case enter =>
      split at hs
      · cases hs
        exact .empty ‹_›
      · split at hs
        · cases hs
          exact .alone ‹_› ‹_›
        · cases hs
          exact .submit ‹_› ‹_›
    case alone t =>
      split at hs
      · cases hs
        exact .aloneEnd t ‹_›
      · cases hs
        exact .aloneStep t _ _ ‹_›
    case collect i =>
      split at hs
      · rename_i hi
        cases hs
        exact hi ▸ .seeds
      · split at hs
        · cases hs
          exact .collect i ‹_› ‹_›
        · cases hs
    case join i =>
      split at hs
      · rename_i hi
        cases hs
        exact hi ▸ .ret
      · split at hs
        · cases hs
          exact .join i ‹_› ‹_›
        · cases hs
    all_goals cases hs
  | total b =>
    cases l <;> simp only [step] at hs
    case idle =>
      split at hs
      · rename_i h
        cases hs
        exact .totalBegin b h.1 h.2
      · cases hs
    case fold i total =>
      split at hs
      · rename_i hi
        cases hs
        exact hi ▸ .totalEnd b total
      · cases hs
        exact .totalStep b i total ‹_›
    all_goals cases hs
  | scan b =>
    cases l <;> simp only [step] at hs
    case idle =>
      split at hs
      · cases hs
      · split at hs
        · cases hs
          exact .scanBegin b _ ‹_› ‹_›
        · cases hs
    case scan t =>
      split at hs
      · cases hs
        exact .scanEnd b t ‹_›
      · cases hs
        exact .scanStep b t _ _ ‹_›
    all_goals cases hs
end

/-! ## The invariant -/

section
variable (A : Scanner V S T) (R : Ranges n M V T) (hardware out : ℕ) (m₀ : M)

/-- The total of block `b` in the input. -/
def blockTotal (b : ℕ) : V :=
  reduce A.op (R.read m₀) (blockFirst hardware n b) (blockFirst hardware n (b + 1))

/-- What block `b` starts with, from the totals of the input. -/
def blockSeed (b : ℕ) : S := A.seed (blockTotal A R hardware m₀) b

/-- What stands in the output in the end. -/
def Outputs (w : ℕ → T) : Prop :=
  if Alone hardware n then ∀ j < n, w j = emitAt A (R.read m₀) A.init 0 j
  else ∀ b < numThreads hardware n, ∀ j, blockFirst hardware n b ≤ j →
    j < blockFirst hardware n (b + 1) →
      w j = emitAt A (R.read m₀) (blockSeed A R hardware m₀ b) (blockFirst hardware n b) j

/-- The seeds are those of the input's totals. -/
def Seeded (s : Shared M V S) : Prop :=
  ∃ seeds, s.seeds = some seeds ∧ ∀ b < numThreads hardware n, seeds b = blockSeed A R hardware m₀ b

/-- What `main` knows at each place. -/
def MainOk (s : Shared M V S) : Pc V S T → Prop
  | .enter => s.mem = m₀ ∧ s.submitted = false ∧ s.seeds = none
  | .alone t => Alone hardware n ∧ s.submitted = false ∧ s.seeds = none ∧
      TaskOk A R (R.read m₀) A.init 0 n s.mem t
  | .collect i => (n ≠ 0 ∧ ¬ Alone hardware n) ∧ s.mem = m₀ ∧ s.submitted = true ∧ s.seeds = none ∧
      i ≤ numThreads hardware n ∧ ∀ b < i, (s.totals b).isSome
  | .join i => (n ≠ 0 ∧ ¬ Alone hardware n) ∧ Seeded A R hardware m₀ s ∧
      (∀ b < numThreads hardware n, (s.totals b).isSome) ∧
      i ≤ numThreads hardware n ∧ ∀ b < i, s.scanned b = true
  | .ret it => it = out + n ∧ Outputs A R hardware m₀ (R.written s.mem) ∧
      ((s.submitted = false ∧ s.seeds = none) ∨
        ∀ b < numThreads hardware n, (s.totals b).isSome ∧ s.scanned b = true)
  | _ => False

/-- What the task `total b` knows at each place. -/
def TotalOk (s : Shared M V S) (b : ℕ) : Pc V S T → Prop
  | .idle => s.totals b = none
  | .fold i total => s.totals b = none ∧ s.submitted = true ∧ b < numThreads hardware n ∧
      blockFirst hardware n b < i ∧ i ≤ blockFirst hardware n (b + 1) ∧
      total = reduce A.op (R.read m₀) (blockFirst hardware n b) i
  | .finished => s.totals b = some (blockTotal A R hardware m₀ b)
  | _ => False

/-- What the task `scan b` knows at each place. -/
def ScanOk (s : Shared M V S) (b : ℕ) : Pc V S T → Prop
  | .idle => s.scanned b = false ∧ (s.seeds.isSome → b < numThreads hardware n →
      ∀ j, blockFirst hardware n b ≤ j → j < blockFirst hardware n (b + 1) →
        R.read s.mem j = R.read m₀ j)
  | .scan t => s.scanned b = false ∧ b < numThreads hardware n ∧ s.seeds.isSome ∧
      TaskOk A R (R.read m₀) (blockSeed A R hardware m₀ b) (blockFirst hardware n b)
        (blockFirst hardware n (b + 1)) s.mem t
  | .finished => s.scanned b = true ∧ b < numThreads hardware n ∧ s.seeds.isSome ∧
      ∀ j, blockFirst hardware n b ≤ j → j < blockFirst hardware n (b + 1) → R.written s.mem j =
        emitAt A (R.read m₀) (blockSeed A R hardware m₀ b) (blockFirst hardware n b) j
  | _ => False

/-- The invariant. -/
structure Inv (c : Config Thread (Shared M V S) (Pc V S T)) : Prop where
  main : MainOk A R hardware out m₀ c.shared (c.loc .main)
  total (b : ℕ) : TotalOk A R hardware m₀ c.shared b (c.loc (.total b))
  scan (b : ℕ) : ScanOk A R hardware m₀ c.shared b (c.loc (.scan b))
end

section
variable {A : Scanner V S T} {R : Ranges n M V T} {hardware out : ℕ} {m₀ : M}
  {c : Config Thread (Shared M V S) (Pc V S T)} {s' : Shared M V S} {l' : Pc V S T} {b : ℕ}

/-! ### Who moves -/

theorem Inv.main_move (h : Inv A R hardware out m₀ c) (hmain : MainOk A R hardware out m₀ s' l')
    (htotal : ∀ b l, TotalOk A R hardware m₀ c.shared b l → TotalOk A R hardware m₀ s' b l)
    (hscan : ∀ b l, ScanOk A R hardware m₀ c.shared b l → ScanOk A R hardware m₀ s' b l) :
    Inv A R hardware out m₀ (c.set .main s' l') where
  main := by simpa using hmain
  total b := by
    rw [Config.set_loc_ne c (by simp)]
    exact htotal b _ (h.total b)
  scan b := by
    rw [Config.set_loc_ne c (by simp)]
    exact hscan b _ (h.scan b)

theorem Inv.total_move (h : Inv A R hardware out m₀ c)
    (hmain : ∀ l, MainOk A R hardware out m₀ c.shared l → MainOk A R hardware out m₀ s' l)
    (hself : TotalOk A R hardware m₀ s' b l')
    (htotal : ∀ b' ≠ b, ∀ l,
      TotalOk A R hardware m₀ c.shared b' l → TotalOk A R hardware m₀ s' b' l)
    (hscan : ∀ b l, ScanOk A R hardware m₀ c.shared b l → ScanOk A R hardware m₀ s' b l) :
    Inv A R hardware out m₀ (c.set (.total b) s' l') where
  main := by
    rw [Config.set_loc_ne c (by simp)]
    exact hmain _ h.main
  total b' := by
    by_cases hb : b' = b
    · subst hb
      simpa using hself
    · rw [Config.set_loc_ne c (by simpa using hb)]
      exact htotal b' hb _ (h.total b')
  scan b' := by
    rw [Config.set_loc_ne c (by simp)]
    exact hscan b' _ (h.scan b')

theorem Inv.scan_move (h : Inv A R hardware out m₀ c)
    (hmain : MainOk A R hardware out m₀ s' (c.loc .main)) (hself : ScanOk A R hardware m₀ s' b l')
    (htotal : ∀ b l, TotalOk A R hardware m₀ c.shared b l → TotalOk A R hardware m₀ s' b l)
    (hscan : ∀ b' ≠ b, ∀ l, ScanOk A R hardware m₀ c.shared b' l → ScanOk A R hardware m₀ s' b' l) :
    Inv A R hardware out m₀ (c.set (.scan b) s' l') where
  main := by
    rw [Config.set_loc_ne c (by simp)]
    exact hmain
  total b' := by
    rw [Config.set_loc_ne c (by simp)]
    exact htotal b' _ (h.total b')
  scan b' := by
    by_cases hb : b' = b
    · subst hb
      simpa using hself
    · rw [Config.set_loc_ne c (by simpa using hb)]
      exact hscan b' hb _ (h.scan b')

/-! ### What a place says of the others -/

/-- While a total is missing the memory is as it was. -/
theorem Inv.mem_eq (h : Inv A R hardware out m₀ c) (hsub : c.shared.submitted = true)
    (hb : b < numThreads hardware n) (hnone : c.shared.totals b = none) : c.shared.mem = m₀ := by
  have hmain := h.main
  cases hl : c.loc .main <;> rw [hl] at hmain
  case enter => exact hmain.1
  case alone t => exact absurd hsub (by simp [hmain.2.1])
  case collect i => exact hmain.2.1
  case join i => exact absurd (hmain.2.2.1 b hb) (by simp [hnone])
  case ret it =>
    rcases hmain.2.2 with ⟨hf, -⟩ | hall
    · exact absurd hsub (by simp [hf])
    · exact absurd (hall b hb).1 (by simp [hnone])
  all_goals exact hmain.elim

/-- While a block is being written `main` waits for it. -/
theorem Inv.joining (h : Inv A R hardware out m₀ c) (hseeds : c.shared.seeds.isSome)
    (hb : b < numThreads hardware n) (hs : c.shared.scanned b = false) :
    ∃ i, c.loc .main = .join i := by
  have hmain := h.main
  cases hl : c.loc .main <;> rw [hl] at hmain
  case enter => exact absurd hseeds (by simp [hmain.2.2])
  case alone t => exact absurd hseeds (by simp [hmain.2.2.1])
  case collect i => exact absurd hseeds (by simp [hmain.2.2.2.1])
  case join i => exact ⟨i, rfl⟩
  case ret it =>
    rcases hmain.2.2 with ⟨-, hf⟩ | hall
    · exact absurd hseeds (by simp [hf])
    · exact absurd (hall b hb).2 (by simp [hs])
  all_goals exact hmain.elim

/-- The seeds and the input's blocks, once there are seeds. -/
theorem Inv.seeded (h : Inv A R hardware out m₀ c) (hseeds : c.shared.seeds.isSome)
    (hb : b < numThreads hardware n) (hs : c.shared.scanned b = false) :
    (n ≠ 0 ∧ ¬ Alone hardware n) ∧ Seeded A R hardware m₀ c.shared := by
  obtain ⟨i, hi⟩ := h.joining hseeds hb hs
  have hmain := h.main
  rw [hi] at hmain
  exact ⟨hmain.1, hmain.2.1⟩

/-- A finished scan, and only that, is ready. -/
theorem ScanOk.written (h : ScanOk A R hardware m₀ s' b l') (hb : s'.scanned b = true) :
    ∀ j, blockFirst hardware n b ≤ j → j < blockFirst hardware n (b + 1) → R.written s'.mem j =
      emitAt A (R.read m₀) (blockSeed A R hardware m₀ b) (blockFirst hardware n b) j := by
  cases l' with
  | finished => exact h.2.2.2
  | idle => exact absurd hb (by simp [h.1])
  | scan t => exact absurd hb (by simp [h.1])
  | _ => exact h.elim

/-- Before there are seeds no block is being written. -/
theorem ScanOk.unseeded {s : Shared M V S} (h : ScanOk A R hardware m₀ s b l') (hs : s.seeds = none)
    (hs' : s'.scanned b = s.scanned b) (hread : s'.seeds.isSome → s'.mem = m₀) :
    ScanOk A R hardware m₀ s' b l' := by
  cases l' with
  | idle =>
    refine ⟨hs'.trans h.1, fun hseeds _ j _ _ => ?_⟩
    rw [hread hseeds]
  | scan t => exact absurd h.2.2.1 (by simp [hs])
  | finished => exact absurd h.2.2.1 (by simp [hs])
  | _ => exact h.elim

/-- Writing in another block. -/
theorem ScanOk.write {s : Shared M V S} (h : ScanOk A R hardware m₀ s b l')
    (hn : 0 < n) {b' i : ℕ} {v : T} (hb' : b' < numThreads hardware n) (hne : b ≠ b')
    (hi : blockFirst hardware n b' ≤ i ∧ i < blockFirst hardware n (b' + 1))
    (hm : s'.mem = R.write s.mem i v) (hseeds : s'.seeds = s.seeds)
    (hscanned : s'.scanned b = s.scanned b) : ScanOk A R hardware m₀ s' b l' := by
  have hin : i < n := hi.2.trans_le (blockFirst_le hn hb')
  have hfar : ∀ j, b < numThreads hardware n → blockFirst hardware n b ≤ j →
      j < blockFirst hardware n (b + 1) → j < n ∧ i ≠ j := by
    intro j hb h1 h2
    refine ⟨h2.trans_le (blockFirst_le hn hb), ?_⟩
    rintro rfl
    exact hne (block_unique hn hb hb' ⟨h1, h2⟩ hi)
  have hread : ∀ j, b < numThreads hardware n → blockFirst hardware n b ≤ j →
      j < blockFirst hardware n (b + 1) → R.read s'.mem j = R.read s.mem j := by
    intro j hb h1 h2
    obtain ⟨hj, hij⟩ := hfar j hb h1 h2
    rw [hm, R.read_write hin hj hij]
  have hwritten : ∀ j, b < numThreads hardware n → blockFirst hardware n b ≤ j →
      j < blockFirst hardware n (b + 1) → R.written s'.mem j = R.written s.mem j := by
    intro j hb h1 h2
    obtain ⟨hj, hij⟩ := hfar j hb h1 h2
    rw [hm, R.written_write hin hj hij]
  cases l' with
  | idle =>
    refine ⟨hscanned.trans h.1, fun hs hb j h1 h2 => ?_⟩
    rw [hread j hb h1 h2]
    exact h.2 (hseeds ▸ hs) hb j h1 h2
  | scan t =>
    obtain ⟨h1, hb, h2, htask⟩ := h
    exact ⟨hscanned.trans h1, hb, hseeds ▸ h2, htask.congr (fun j => hread j hb)
      fun j => hwritten j hb⟩
  | finished =>
    obtain ⟨h1, hb, h2, hw⟩ := h
    refine ⟨hscanned.trans h1, hb, hseeds ▸ h2, fun j h1 h2 => ?_⟩
    rw [hwritten j hb h1 h2]
    exact hw j h1 h2
  | _ => exact h.elim

/-- The shared members that a task's condition reads. -/
theorem ScanOk.congr {s : Shared M V S} (h : ScanOk A R hardware m₀ s b l') (hm : s'.mem = s.mem)
    (hseeds : s'.seeds = s.seeds) (hscanned : s'.scanned b = s.scanned b) :
    ScanOk A R hardware m₀ s' b l' := by
  cases l' with
  | idle =>
    simp only [ScanOk, hm, hseeds, hscanned] at h ⊢
    exact h
  | scan t =>
    simp only [ScanOk, hm, hseeds, hscanned] at h ⊢
    exact h
  | finished =>
    simp only [ScanOk, hm, hseeds, hscanned] at h ⊢
    exact h
  | _ => exact h.elim

theorem TotalOk.congr {s : Shared M V S} (h : TotalOk A R hardware m₀ s b l')
    (ht : s'.totals b = s.totals b) (hsub : s.submitted = true → s'.submitted = true) :
    TotalOk A R hardware m₀ s' b l' := by
  cases l' with
  | idle => exact ht.trans h
  | fold i total => exact ⟨ht.trans h.1, hsub h.2.1, h.2.2⟩
  | finished => exact ht.trans h
  | _ => exact h.elim

/-! ### The steps -/

/-- The blocks' results are the output. -/
theorem outputs_of_scanned {s : Shared M V S} (ha : ¬ Alone hardware n)
    (hw : ∀ b < numThreads hardware n, ∀ j, blockFirst hardware n b ≤ j →
      j < blockFirst hardware n (b + 1) → R.written s.mem j =
        emitAt A (R.read m₀) (blockSeed A R hardware m₀ b) (blockFirst hardware n b) j) :
    Outputs A R hardware m₀ (R.written s.mem) := by
  unfold Outputs
  rw [if_neg ha]
  exact hw

variable [Inhabited V]

omit [Inhabited V] in
theorem inv_initial (A : Scanner V S T) (R : Ranges n M V T) (hardware out : ℕ) (m₀ : M) :
    Inv A R hardware out m₀ (initial m₀) where
  main := ⟨rfl, rfl, rfl⟩
  total _ := rfl
  scan _ := ⟨rfl, by simp [initial]⟩

/-- What the futures hold when all are ready. -/
theorem Inv.seeds (h : Inv A R hardware out m₀ c)
    (hall : ∀ b < numThreads hardware n, (c.shared.totals b).isSome) {b : ℕ}
    (hb : b < numThreads hardware n) :
    A.seed (fun j => (c.shared.totals j).getD default) b = blockSeed A R hardware m₀ b := by
  refine A.seed_congr fun i hi => ?_
  have hsome := hall i (hi.trans hb)
  have htotal := h.total i
  cases hl : c.loc (.total i) <;> rw [hl] at htotal
  case idle => exact absurd hsome (by simp [show c.shared.totals i = none from htotal])
  case fold j total => exact absurd hsome (by simp [htotal.1])
  case finished => simp [show c.shared.totals i = some _ from htotal]
  all_goals exact htotal.elim

theorem inv_move {t : Thread} (h : Inv A R hardware out m₀ c)
    (hm : Move A R hardware out c.shared t (c.loc t) s' l') :
    Inv A R hardware out m₀ (c.set t s' l') := by
  have hmain := h.main
  generalize hl : c.loc t = l at hm
  cases hm with
  | empty hn =>
    rw [hl] at hmain
    obtain ⟨hmem, hsub, hseeds⟩ := hmain
    refine h.main_move ⟨by omega, ?_, .inl ⟨hsub, hseeds⟩⟩ (fun _ _ => id) fun _ _ => id
    unfold Outputs
    split
    · intro j hj
      omega
    · rename_i ha
      exact absurd (.inl (by simp [hn, minPerThread])) ha
  | alone hn ha =>
    rw [hl] at hmain
    obtain ⟨hmem, hsub, hseeds⟩ := hmain
    refine h.main_move ⟨ha, hsub, hseeds, le_refl 0, Nat.zero_le n, stateAt_first.symm, ?_, ?_⟩
      (fun _ _ => id) fun _ _ => id
    · intro j _ _
      rw [hmem]
    · intro j _ hj
      omega
  | submit hn ha =>
    rw [hl] at hmain
    obtain ⟨hmem, hsub, hseeds⟩ := hmain
    refine h.main_move ⟨⟨hn, ha⟩, hmem, rfl, hseeds, Nat.zero_le _, fun b hb => by omega⟩
      (fun b l hb => hb.congr rfl fun _ => rfl) fun b l hb => hb.congr rfl rfl rfl
  | aloneStep t m t' ht =>
    rw [hl] at hmain
    obtain ⟨ha, hsub, hseeds, htask⟩ := hmain
    refine h.main_move ⟨ha, hsub, hseeds, htask.step (le_refl n) ht⟩
      (fun b l hb => hb.congr rfl id) fun b l hb => hb.unseeded hseeds rfl ?_
    intro hs
    exact absurd hs (by simp [hseeds])
  | aloneEnd t ht =>
    rw [hl] at hmain
    obtain ⟨ha, hsub, hseeds, htask⟩ := hmain
    refine h.main_move ⟨rfl, ?_, .inl ⟨hsub, hseeds⟩⟩ (fun _ _ => id) fun _ _ => id
    unfold Outputs
    rw [if_pos ha]
    exact fun j hj => htask.finished ht j (Nat.zero_le j) hj
  | collect i hi ht =>
    rw [hl] at hmain
    obtain ⟨hpar, hmem, hsub, hseeds, hle, hall⟩ := hmain
    refine h.main_move ⟨hpar, hmem, hsub, hseeds, by omega, fun b hb => ?_⟩
      (fun _ _ => id) fun _ _ => id
    rcases Nat.lt_succ_iff_lt_or_eq.mp hb with hb | rfl
    · exact hall b hb
    · exact ht
  | seeds =>
    rw [hl] at hmain
    obtain ⟨hpar, hmem, hsub, hseeds, -, hall⟩ := hmain
    refine h.main_move ⟨hpar, ⟨_, rfl, fun b hb => h.seeds hall hb⟩, hall, Nat.zero_le _,
      fun b hb => by omega⟩ (fun b l hb => hb.congr rfl id) fun b l hb =>
        hb.unseeded hseeds rfl fun _ => hmem
  | join i hi hs =>
    rw [hl] at hmain
    obtain ⟨hpar, hseeded, htotals, hle, hall⟩ := hmain
    refine h.main_move ⟨hpar, hseeded, htotals, by omega, fun b hb => ?_⟩ (fun _ _ => id)
      fun _ _ => id
    rcases Nat.lt_succ_iff_lt_or_eq.mp hb with hb | rfl
    · exact hall b hb
    · exact hs
  | ret =>
    rw [hl] at hmain
    obtain ⟨hpar, hseeded, htotals, -, hall⟩ := hmain
    refine h.main_move ⟨rfl, ?_, .inr fun b hb => ⟨htotals b hb, hall b hb⟩⟩
      (fun _ _ => id) fun _ _ => id
    exact outputs_of_scanned hpar.2 fun b hb => (h.scan b).written (hall b hb)
  | totalBegin b hsub hb =>
    have hnone := h.total b
    rw [hl] at hnone
    have hmem := h.mem_eq hsub hb hnone
    have hn := length_pos hb
    refine h.total_move (fun _ => id) ⟨hnone, hsub, hb, by omega, blockFirst_lt hn hb, ?_⟩
      (fun _ _ _ => id) fun _ _ => id
    rw [reduce_one, hmem]
  | totalStep b i total hi =>
    have hb := h.total b
    rw [hl] at hb
    obtain ⟨hnone, hsub, hlt, h1, h2, rfl⟩ := hb
    have hmem := h.mem_eq hsub hlt hnone
    refine h.total_move (fun _ => id) ⟨hnone, hsub, hlt, by omega, by omega, ?_⟩
      (fun _ _ _ => id) fun _ _ => id
    rw [reduce_succ h1, hmem]
  | totalEnd b total =>
    have hb := h.total b
    rw [hl] at hb
    obtain ⟨hnone, hsub, hlt, h1, h2, rfl⟩ := hb
    have hsome : ∀ b', (c.shared.totals b').isSome →
        (Function.update c.shared.totals b (some (reduce A.op (R.read m₀) (blockFirst hardware n b)
          (blockFirst hardware n (b + 1)))) b').isSome := by
      intro b' hb'
      by_cases hbb : b' = b
      · subst hbb
        simp
      · rwa [Function.update_of_ne hbb]
    refine h.total_move (fun l hl => ?_) (Function.update_self _ _ _)
      (fun b' hne l hb' => hb'.congr (Function.update_of_ne hne _ _) id)
      fun b' l hb' => hb'.congr rfl rfl rfl
    cases l with
    | enter => exact hl
    | alone t => exact hl
    | collect i =>
      obtain ⟨h3, h4, h5, h6, h7, h8⟩ := hl
      exact ⟨h3, h4, h5, h6, h7, fun b' hb' => hsome b' (h8 b' hb')⟩
    | join i =>
      obtain ⟨h3, h4, h5, h6⟩ := hl
      exact ⟨h3, h4, fun b' hb' => hsome b' (h5 b' hb'), h6⟩
    | ret it =>
      obtain ⟨h3, h4, h5⟩ := hl
      exact ⟨h3, h4, h5.imp id fun h6 b' hb' => ⟨hsome b' (h6 b' hb').1, (h6 b' hb').2⟩⟩
    | _ => exact hl.elim
  | scanBegin b seeds hseeds hb =>
    have hscan := h.scan b
    rw [hl] at hscan
    obtain ⟨hs, hread⟩ := hscan
    have hsome : c.shared.seeds.isSome := by simp [hseeds]
    obtain ⟨hpar, seeds', hseeds', hblock⟩ := h.seeded hsome hb hs
    obtain rfl : seeds = seeds' := by simpa [hseeds] using hseeds'
    have hn := Nat.pos_of_ne_zero hpar.1
    refine h.scan_move h.main ⟨hs, hb, hsome, le_refl _, (blockFirst_lt hn hb).le, ?_, ?_, ?_⟩
      (fun _ _ => id) fun _ _ _ => id
    · rw [stateAt_first, hblock b hb]
    · exact hread hsome hb
    · intro j h1 h2
      omega
  | scanStep b t m t' ht =>
    have hscan := h.scan b
    rw [hl] at hscan
    obtain ⟨hs, hb, hsome, htask⟩ := hscan
    obtain ⟨i, hi⟩ := h.joining hsome hb hs
    rw [hi] at hmain
    have hn := Nat.pos_of_ne_zero hmain.1.1
    refine h.scan_move (by rw [hi]; exact hmain)
      ⟨hs, hb, hsome, htask.step (blockFirst_le hn hb) ht⟩ (fun b' l hb' => hb'.congr rfl id) ?_
    intro b' hne l hb'
    rcases Task.step_mem htask ht with rfl | ⟨k, v, h1, h2, rfl⟩
    · exact hb'.congr rfl rfl rfl
    · exact hb'.write hn hb hne ⟨h1, h2⟩ rfl rfl rfl
  | scanEnd b t ht =>
    have hscan := h.scan b
    rw [hl] at hscan
    obtain ⟨hs, hb, hsome, htask⟩ := hscan
    obtain ⟨i, hi⟩ := h.joining hsome hb hs
    rw [hi] at hmain
    refine h.scan_move ?_ ⟨Function.update_self _ _ _, hb, hsome, htask.finished ht⟩
      (fun b' l hb' => hb'.congr rfl id)
      fun b' hne l hb' => hb'.congr rfl rfl (Function.update_of_ne hne _ _)
    rw [hi]
    obtain ⟨h3, h4, h5, h6, h7⟩ := hmain
    refine ⟨h3, h4, h5, h6, fun b' hb' => ?_⟩
    by_cases hbb : b' = b
    · subst hbb
      exact Function.update_self _ _ _
    · exact (Function.update_of_ne hbb _ _).trans (h7 b' hb')
end

end Bonostl.ParallelScan
