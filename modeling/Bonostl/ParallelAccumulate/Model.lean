import Bonostl.Blocks.Fold
import Bonostl.Blocks.Layout
import Bonostl.Interleaving.Termination

/-!
# `parallel_accumulate`

A range of 50 elements or more is divided into blocks. `main` starts a thread for every block but
the last, which it reduces itself (`accumulate_block`), joins the threads and folds the block
results, starting from `init`. A shorter range is folded by `main`.

`op` is one function object, applied to operands of different types: two elements (in a block), a
value of the type of `init` and an element (in a short range), or two values of that type (block
results, which have been converted to it). `Op` has one function for each.

What is computed from the number of elements is a `Layout`; `layout` is the one of a length that,
with 24 more (`length + min_per_thread - 1`), fits into an `unsigned long` (`Blocks.exact_blocks`).
`Truncated` has the other lengths. `op` does not throw, and neither does the start of a thread.
-/

namespace Bonostl.ParallelAccumulate

open Interleaving Blocks

variable {V T : Type}

/-- `op` by the types it is applied to, and the conversion of a block's result. -/
structure Op (V T : Type) where
  element : V → V → V
  mixed : T → V → T
  wide : V → T
  merge : T → T → T

/-- An `op` on one type. -/
def Op.plain (op : V → V → V) : Op V V := ⟨op, op, id, op⟩

/-- `length`, `num_threads`, and where each block begins. -/
structure Layout where
  length : ℕ
  numThreads : ℕ
  first : ℕ → ℕ

/-- The blocks of a range of `n` elements. -/
def layout (hardware n : ℕ) : Layout := ⟨n, numThreads hardware n, blockFirst hardware n⟩

/-- `main`, and the thread of a block. -/
inductive Thread where
  | main
  | block (b : ℕ)
  deriving DecidableEq

/-- `results`, and which threads have been started and have finished. -/
structure Shared (T : Type) where
  results : ℕ → T
  started : ℕ → Bool
  finished : ℕ → Bool

/-- Where a thread stands. -/
inductive Pc (V T : Type) where
  /-- `main` -/
  | enter
  | short (i : ℕ) (acc : T)
  | spawn (i : ℕ)
  | join (i : ℕ)
  | merge (i : ℕ) (acc : T)
  | ret (r : T)
  /-- `length / num_threads` where `num_threads` is zero -/
  | divideByZero
  /-- `accumulate_block`, run by a thread or by `main` -/
  | fold (i : ℕ) (total : V)
  | idle
  | finished
  deriving DecidableEq

/-- A step of a thread. -/
def step (o : Op V T) (D : Layout) (n : ℕ) (x : ℕ → V) (init : T) (s : Shared T) :
    Thread → Pc V T → Option (Event Unit T × Shared T × Pc V T)
  | .main, .enter =>
    if D.length = 0 then some (.ret init, s, .ret init)
    else if D.length < 2 * minPerThread then some (.tau, s, .short 0 init)
    else if D.numThreads = 0 then some (.tau, s, .divideByZero)
    else some (.tau, s, .spawn 0)
  | .main, .short i acc =>
    if i = n then some (.ret acc, s, .ret acc)
    else some (.tau, s, .short (i + 1) (o.mixed acc (x i)))
  | .main, .spawn i =>
    if i = D.numThreads - 1 then
      let first := D.first i
      some (.tau, s, .fold (first + 1) (x first))
    else some (.tau, { s with started := Function.update s.started i true }, .spawn (i + 1))
  | .main, .fold i total =>
    if i = n then
      some (.tau, { s with
        results := Function.update s.results (D.numThreads - 1) (o.wide total) }, .join 0)
    else some (.tau, s, .fold (i + 1) (o.element total (x i)))
  | .main, .join i =>
    if i = D.numThreads - 1 then some (.tau, s, .merge 0 init)
    else if s.finished i then some (.tau, s, .join (i + 1))
    else none
  | .main, .merge i acc =>
    if i = D.numThreads then some (.ret acc, s, .ret acc)
    else some (.tau, s, .merge (i + 1) (o.merge acc (s.results i)))
  | .block b, .idle =>
    if s.started b then
      let first := D.first b
      some (.tau, s, .fold (first + 1) (x first))
    else none
  | .block b, .fold i total =>
    if i = D.first (b + 1) then
      some (.tau, { s with
        results := Function.update s.results b (o.wide total),
        finished := Function.update s.finished b true }, .finished)
    else some (.tau, s, .fold (i + 1) (o.element total (x i)))
  | _, _ => none

/-- `main` and the threads of the blocks. -/
def program (o : Op V T) (D : Layout) (n : ℕ) (x : ℕ → V) (init : T) :
    Program Thread (Shared T) (Pc V T) Unit Unit T :=
  ⟨fun t _ s l => step o D n x init s t l⟩

/-- Where the threads begin. -/
def initialPc : Thread → Pc V T
  | .main => .enter
  | .block _ => .idle

/-- `results` begins with default values. -/
def initial [Inhabited T] : Config Thread (Shared T) (Pc V T) :=
  ⟨⟨fun _ => default, fun _ => false, fun _ => false⟩, initialPc⟩

/-! ## What a step can do -/

namespace Layout

variable (D : Layout)

/-- The range is folded by `main`. -/
def Short : Prop := D.length ≠ 0 ∧ D.length < 2 * minPerThread

/-- The range is divided into blocks. -/
def Long : Prop := ¬ D.length < 2 * minPerThread ∧ D.numThreads ≠ 0

/-- The range is to be divided among no threads. -/
def NoThread : Prop := ¬ D.length < 2 * minPerThread ∧ D.numThreads = 0

end Layout

/-- The moves of the threads. -/
inductive Move (o : Op V T) (D : Layout) (n : ℕ) (x : ℕ → V) (init : T) (s : Shared T) :
    Thread → Pc V T → Shared T → Pc V T → Prop
  | empty (hn : D.length = 0) : Move o D n x init s .main .enter s (.ret init)
  | short (hn : D.Short) : Move o D n x init s .main .enter s (.short 0 init)
  | divide (hn : D.Long) : Move o D n x init s .main .enter s (.spawn 0)
  | divideByZero (hn : D.NoThread) : Move o D n x init s .main .enter s .divideByZero
  | shortStep (i acc) (hi : i ≠ n) :
      Move o D n x init s .main (.short i acc) s (.short (i + 1) (o.mixed acc (x i)))
  | shortEnd (acc) : Move o D n x init s .main (.short n acc) s (.ret acc)
  | spawn (i) (hi : i ≠ D.numThreads - 1) : Move o D n x init s .main (.spawn i)
      { s with started := Function.update s.started i true } (.spawn (i + 1))
  | own : Move o D n x init s .main (.spawn (D.numThreads - 1)) s
      (.fold (D.first (D.numThreads - 1) + 1)
        (x (D.first (D.numThreads - 1))))
  | ownStep (i total) (hi : i ≠ n) :
      Move o D n x init s .main (.fold i total) s (.fold (i + 1) (o.element total (x i)))
  | ownEnd (total) : Move o D n x init s .main (.fold n total) { s with
      results := Function.update s.results (D.numThreads - 1) (o.wide total) } (.join 0)
  | join (i) (hi : i ≠ D.numThreads - 1) (hf : s.finished i = true) :
      Move o D n x init s .main (.join i) s (.join (i + 1))
  | joined : Move o D n x init s .main (.join (D.numThreads - 1)) s (.merge 0 init)
  | merge (i acc) (hi : i ≠ D.numThreads) :
      Move o D n x init s .main (.merge i acc) s (.merge (i + 1) (o.merge acc (s.results i)))
  | ret (acc) :
      Move o D n x init s .main (.merge (D.numThreads) acc) s (.ret acc)
  | blockBegin (b) (hb : s.started b = true) : Move o D n x init s (.block b) .idle s
      (.fold (D.first b + 1) (x (D.first b)))
  | blockStep (b i total) (hi : i ≠ D.first (b + 1)) :
      Move o D n x init s (.block b) (.fold i total) s (.fold (i + 1) (o.element total (x i)))
  | blockEnd (b total) :
      Move o D n x init s (.block b) (.fold (D.first (b + 1)) total) { s with
        results := Function.update s.results b (o.wide total),
        finished := Function.update s.finished b true } .finished

theorem step_move {o : Op V T} {D : Layout} {n : ℕ} {x : ℕ → V} {init : T} {s s' : Shared T}
    {t : Thread}
    {l l' : Pc V T} {ev : Event Unit T}
    (hs : step o D n x init s t l = some (ev, s', l')) :
    Move o D n x init s t l s' l' := by
  cases t with
  | main =>
    cases l <;> simp only [step] at hs
    case enter =>
      split at hs
      · cases hs
        exact .empty ‹_›
      · split at hs
        · cases hs
          exact .short ⟨‹_›, ‹_›⟩
        · split at hs
          · cases hs
            exact .divideByZero ⟨‹_›, ‹_›⟩
          · cases hs
            exact .divide ⟨‹_›, ‹_›⟩
    case short i acc =>
      split at hs
      · rename_i hi
        cases hs
        exact hi ▸ .shortEnd acc
      · cases hs
        exact .shortStep i acc ‹_›
    case spawn i =>
      split at hs
      · rename_i hi
        cases hs
        exact hi ▸ .own
      · cases hs
        exact .spawn i ‹_›
    case join i =>
      split at hs
      · rename_i hi
        cases hs
        exact hi ▸ .joined
      · split at hs
        · cases hs
          exact .join i ‹_› ‹_›
        · cases hs
    case merge i acc =>
      split at hs
      · rename_i hi
        cases hs
        exact hi ▸ .ret acc
      · cases hs
        exact .merge i acc ‹_›
    case fold i total =>
      split at hs
      · rename_i hi
        cases hs
        exact hi ▸ .ownEnd total
      · cases hs
        exact .ownStep i total ‹_›
    all_goals cases hs
  | block b =>
    cases l <;> simp only [step] at hs
    case idle =>
      split at hs
      · cases hs
        exact .blockBegin b ‹_›
      · cases hs
    case fold i total =>
      split at hs
      · rename_i hi
        cases hs
        exact hi ▸ .blockEnd b total
      · cases hs
        exact .blockStep b i total ‹_›
    all_goals cases hs

end Bonostl.ParallelAccumulate
