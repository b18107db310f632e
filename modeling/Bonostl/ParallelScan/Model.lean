import Bonostl.Blocks.Fold
import Bonostl.Blocks.Layout
import Bonostl.Interleaving.Termination

/-!
# `parallel_inclusive_scan` and `parallel_exclusive_scan`

Both run in three phases: the tasks `total b` reduce the blocks, `main` waits for their futures and
computes from the totals what each block starts with, and the tasks `scan b` write the blocks. A
range of fewer than 50 elements, or where only one thread would run, is handed to the std algorithm
by `main`. The two differ in what a block starts with and in what an element does to it (`Scanner`).
The std algorithms go through their range once, and read an element before they write its result.

Tasks are threads of their own, so every order in which the pool may run them is a run. A task that
has been submitted may begin at any time; the futures are waited for one after the other.

`Ranges` is the memory of the two ranges, by position: it need not be said where they lie as long as
writing one position of the output changes no other position of either. `oneMemory` is a memory of
one element type with `out` apart from the input or equal to `first`, `buffers` one with an output
of another type.

`length` is exact: the number of elements, and 24 more (`length + min_per_thread - 1`), fit into an
`unsigned long` (`Blocks.Wrapped` has the blocks of any length, and `exact_blocks` says that they
are these where it fits). `op` does not throw.
-/

namespace Bonostl.ParallelScan

open Interleaving Blocks

/-- The input and the output range, of `n` elements each. -/
structure Ranges (n : ℕ) (M V T : Type) where
  read : M → ℕ → V
  write : M → ℕ → T → M
  /-- what the output holds -/
  written : M → ℕ → T
  read_write {m : M} {i j : ℕ} {v : T} (hi : i < n) (hj : j < n) (h : i ≠ j) :
    read (write m i v) j = read m j
  written_self {m : M} {i : ℕ} {v : T} (hi : i < n) : written (write m i v) i = v
  written_write {m : M} {i j : ℕ} {v : T} (hi : i < n) (hj : j < n) (h : i ≠ j) :
    written (write m i v) j = written m j

/-- One memory, with `out` apart from the input or equal to `first`. -/
def oneMemory {α : Type} (n first out : ℕ) (h : out = first ∨ first + n ≤ out ∨ out + n ≤ first) :
    Ranges n (ℕ → α) α α where
  read m i := m (first + i)
  write m i v := Function.update m (out + i) v
  written m i := m (out + i)
  read_write hi hj hne := Function.update_of_ne (by omega) _ _
  written_self _ := Function.update_self _ _ _
  written_write _ _ hne := Function.update_of_ne (by omega) _ _

/-- Two arrays. -/
def buffers (n : ℕ) (V T : Type) : Ranges n ((ℕ → V) × (ℕ → T)) V T where
  read m i := m.1 i
  write m i v := (m.1, Function.update m.2 i v)
  written m i := m.2 i
  read_write _ _ _ := rfl
  written_self _ := Function.update_self _ _ _
  written_write _ _ hne := Function.update_of_ne hne.symm _ _

/-- What the two algorithms do not share: `S` is what is carried from element to element. -/
structure Scanner (V S T : Type) where
  /-- on elements: reduces a block -/
  op : V → V → V
  /-- what an element makes of the value carried, and what is written for it -/
  feed : S → V → T × S
  /-- what the std algorithm starts with -/
  init : S
  /-- what the blocks start with, from the block totals -/
  seed : (ℕ → V) → ℕ → S
  seed_congr {totals totals' : ℕ → V} {b : ℕ} (h : ∀ i < b, totals i = totals' i) :
    seed totals b = seed totals' b

/-- A std scan of a range: about to look at an element, or to write its result. -/
inductive Task (S T : Type) where
  | read (i : ℕ) (s : S)
  | write (i : ℕ) (v : T) (s : S)
  deriving DecidableEq

/-- `main`, and the tasks of a block in the first and in the third phase. -/
inductive Thread where
  | main
  | total (b : ℕ)
  | scan (b : ℕ)
  deriving DecidableEq

/-- The memory, and what `main` and the tasks hand to each other. -/
structure Shared (M V S : Type) where
  mem : M
  /-- whether the tasks of the first phase have been submitted -/
  submitted : Bool
  /-- `total_futures`, those that are ready -/
  totals : ℕ → Option V
  /-- set when the tasks of the third phase are submitted -/
  seeds : Option (ℕ → S)
  /-- which of `scan_futures` are ready -/
  scanned : ℕ → Bool

/-- Where a thread stands. -/
inductive Pc (V S T : Type) where
  /-- `main` -/
  | enter
  | alone (t : Task S T)
  | collect (i : ℕ)
  | join (i : ℕ)
  | ret (it : ℕ)
  /-- tasks -/
  | idle
  | fold (i : ℕ) (total : V)
  | scan (t : Task S T)
  | finished
  deriving DecidableEq

variable {n : ℕ} {M V S T : Type}

/-- Whether the range is handed to the std algorithm. -/
def Alone (hardware n : ℕ) : Prop := n < 2 * minPerThread ∨ numThreads hardware n < 2

instance (hardware n : ℕ) : Decidable (Alone hardware n) := inferInstanceAs (Decidable (_ ∨ _))

/-- A step of a std scan up to `last`; `none` when it has come there. -/
def Task.step (A : Scanner V S T) (R : Ranges n M V T) (last : ℕ) (m : M) :
    Task S T → Option (M × Task S T)
  | .read i s =>
    if i = last then none
    else
      let (v, s') := A.feed s (R.read m i)
      some (m, .write i v s')
  | .write i v s => some (R.write m i v, .read (i + 1) s)

section
variable [Inhabited V]

/-- A step of a thread; `out` is the address of the output. -/
def step (A : Scanner V S T) (R : Ranges n M V T) (hardware out : ℕ) (s : Shared M V S) :
    Thread → Pc V S T → Option (Event Unit ℕ × Shared M V S × Pc V S T)
  | .main, .enter =>
    if n = 0 then some (.ret out, s, .ret out)
    else if Alone hardware n then some (.tau, s, .alone (.read 0 A.init))
    else some (.tau, { s with submitted := true }, .collect 0)
  | .main, .alone t =>
    match t.step A R n s.mem with
    | none => some (.ret (out + n), s, .ret (out + n))
    | some (m, t') => some (.tau, { s with mem := m }, .alone t')
  | .main, .collect i =>
    if i = numThreads hardware n then
      some (.tau, { s with seeds := some (A.seed fun j => (s.totals j).getD default) }, .join 0)
    else if (s.totals i).isSome then some (.tau, s, .collect (i + 1))
    else none
  | .main, .join i =>
    if i = numThreads hardware n then some (.ret (out + n), s, .ret (out + n))
    else if s.scanned i then some (.tau, s, .join (i + 1))
    else none
  | .total b, .idle =>
    if s.submitted ∧ b < numThreads hardware n then
      let first := blockFirst hardware n b
      some (.tau, s, .fold (first + 1) (R.read s.mem first))
    else none
  | .total b, .fold i total =>
    if i = blockFirst hardware n (b + 1) then
      some (.tau, { s with totals := Function.update s.totals b (some total) }, .finished)
    else some (.tau, s, .fold (i + 1) (A.op total (R.read s.mem i)))
  | .scan b, .idle =>
    match s.seeds with
    | none => none
    | some seeds =>
      if b < numThreads hardware n then
        some (.tau, s, .scan (.read (blockFirst hardware n b) (seeds b)))
      else none
  | .scan b, .scan t =>
    match t.step A R (blockFirst hardware n (b + 1)) s.mem with
    | none => some (.tau, { s with scanned := Function.update s.scanned b true }, .finished)
    | some (m, t') => some (.tau, { s with mem := m }, .scan t')
  | _, _ => none

/-- `main` and the tasks. -/
def program (A : Scanner V S T) (R : Ranges n M V T) (hardware out : ℕ) :
    Program Thread (Shared M V S) (Pc V S T) Unit Unit ℕ :=
  ⟨fun t _ s l => step A R hardware out s t l⟩
end

/-- Where the threads begin. -/
def initialPc : Thread → Pc V S T
  | .main => .enter
  | _ => .idle

/-- The memory `m`, and no task submitted. -/
def initial (m : M) : Config Thread (Shared M V S) (Pc V S T) :=
  ⟨⟨m, false, fun _ => none, none, fun _ => false⟩, initialPc⟩

/-! ## The algorithms -/

/-- `carries`: the entry of the first block is the vector's own. -/
def carries [Inhabited V] (op : V → V → V) (totals : ℕ → V) : ℕ → V
  | 0 => default
  | i + 1 => if i + 1 = 1 then totals 0 else op (carries op totals i) (totals i)

/-- `seeds`, in the type of `init`. -/
def seeds (op : T → V → T) (init : T) (totals : ℕ → V) : ℕ → T
  | 0 => init
  | i + 1 => op (seeds op init totals i) (totals i)

/-- Without a value to start from, the first element is the first result. -/
def inclusiveFeed (op : V → V → V) : Option V → V → V × Option V
  | none, v => (v, some v)
  | some a, v => (op a v, some (op a v))

/-- `parallel_inclusive_scan`: a block starts with its carry, the first one without a value. -/
def parallelInclusiveScan [Inhabited V] (op : V → V → V) : Scanner V (Option V) V where
  op := op
  feed := inclusiveFeed op
  init := none
  seed totals b := if b = 0 then none else some (carries op totals b)
  seed_congr {totals totals' b} h := by
    split
    · rfl
    · congr 1
      induction b with
      | zero => rfl
      | succ i ih =>
        unfold carries
        split
        · exact h 0 (Nat.succ_pos i)
        · rename_i hi
          rw [ih (fun j hj => h j (by omega)) (by omega), h i (Nat.lt_succ_self i)]

/-- `op` on elements reduces the blocks; `opT` is `op` on a value of the type of `init` and an
element. -/
def parallelExclusiveScan (op : V → V → V) (opT : T → V → T) (init : T) : Scanner V T T where
  op := op
  feed acc v := (acc, opT acc v)
  init := init
  seed totals b := seeds opT init totals b
  seed_congr {totals totals' b} h := by
    induction b with
    | zero => rfl
    | succ i ih =>
      unfold seeds
      rw [ih (fun j hj => h j (by omega)), h i (Nat.lt_succ_self i)]

end Bonostl.ParallelScan
