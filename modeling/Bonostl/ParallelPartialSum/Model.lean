import Bonostl.Blocks.Fold
import Bonostl.Blocks.Wrapped
import Bonostl.Interleaving.Termination

/-!
# `parallel_partial_sum` (`parallel_partial_sum.hpp`)

The range is divided into chunks. `main` starts a thread for every chunk but the last, which it
processes itself, and joins the threads. `process_chunk` sums its chunk in place
(`std::partial_sum`), waits for the end value of the chunk before it, adds it to its own last
element, hands that on as its own end value, and adds it to the other elements
(`std::ranges::for_each`). The first chunk waits for nothing, the last one hands on nothing.

`a += b` is `a = a + b`. Any addition may throw (`Choice.throw`). A `promise` that is satisfied
throws `promise_already_satisfied` when it is set again; an exception that leaves a thread's
function is `std::terminate`, after which there are no more steps. Nothing else throws: neither the
copies of values nor the start of a thread.
-/

namespace Bonostl.ParallelPartialSum

open Interleaving Blocks

/-- An exception: what an addition has thrown, or `promise_already_satisfied`. -/
inductive Exn (ε : Type) where
  | thrown (e : ε)
  | promiseAlreadySatisfied
  deriving DecidableEq

/-- `main`, and the thread of a chunk. -/
inductive Thread where
  | main
  | chunk (b : ℕ)
  deriving DecidableEq

/-- The range, the promises, which threads have been started and have finished, and whether
`std::terminate` has been called. -/
structure Shared (α ε : Type) where
  mem : ℕ → α
  started : ℕ → Bool
  /-- what the promises have been set to -/
  endValues : ℕ → Option (Except (Exn ε) α)
  finished : ℕ → Bool
  terminated : Bool

/-- Where `process_chunk::operator()` stands. -/
inductive Chunk (α ε : Type) where
  | sum (i : ℕ) (acc : α)
  | get
  | last (addend : α)
  | setValue (addend : Option α)
  | others (i : ℕ) (addend : α)
  | handler (e : Exn ε)
  /-- it has returned, or been left by an exception -/
  | done (r : Option (Exn ε))
  deriving DecidableEq

/-- Where a thread stands. -/
inductive Pc (α ε : Type) where
  /-- `main` -/
  | enter
  | spawn (i : ℕ)
  | join (i : ℕ) (r : Option (Exn ε))
  | ret (r : Option (Exn ε))
  /-- `process_chunk`, run by a thread or by `main` -/
  | run (p : Chunk α ε)
  | idle
  | finished
  deriving DecidableEq

/-- Whether an addition throws. -/
inductive Choice (ε : Type) where
  | run
  | throw (e : ε)

variable {α ε : Type}

/-- An addition. -/
def Choice.plus (k : Choice ε) (add : α → α → α) (a b : α) : Except (Exn ε) α :=
  match k with
  | .run => .ok (add a b)
  | .throw e => .error (.thrown e)

/-- After `std::partial_sum`. -/
def afterSum (num b : ℕ) : Chunk α ε :=
  if b ≠ 0 then .get else if b + 1 < num then .setValue none else .done none

/-- After the patch of the last element. -/
def afterLast (num : ℕ) (first : ℕ → ℕ) (b : ℕ) (addend : α) : Chunk α ε :=
  if b + 1 < num then .setValue (some addend) else .others (first b) addend

/-- A step of `process_chunk` on chunk `b` of `num`. -/
def chunkStep (add : α → α → α) (num : ℕ) (first : ℕ → ℕ) (b : ℕ) (k : Choice ε) (s : Shared α ε) :
    Chunk α ε → Option (Shared α ε × Chunk α ε)
  | .sum i acc =>
    if i = first (b + 1) then some (s, afterSum num b)
    else match k.plus add acc (s.mem i) with
      | .ok v => some ({ s with mem := Function.update s.mem i v }, .sum (i + 1) v)
      | .error e => some (s, .handler e)
  | .get =>
    match s.endValues (b - 1) with
    | none => none
    | some (.ok addend) => some (s, .last addend)
    | some (.error e) => some (s, .handler e)
  | .last addend =>
    match k.plus add (s.mem (first (b + 1) - 1)) addend with
    | .ok v =>
      some ({ s with mem := Function.update s.mem (first (b + 1) - 1) v },
        afterLast num first b addend)
    | .error e => some (s, .handler e)
  | .setValue addend =>
    match s.endValues b with
    | some _ => some (s, .handler .promiseAlreadySatisfied)
    | none => some ({ s with
        endValues := Function.update s.endValues b (some (.ok (s.mem (first (b + 1) - 1)))) },
        match addend with
        | some a => .others (first b) a
        | none => .done none)
  | .others i addend =>
    if i = first (b + 1) - 1 then some (s, .done none)
    else match k.plus add (s.mem i) addend with
      | .ok v => some ({ s with mem := Function.update s.mem i v }, .others (i + 1) addend)
      | .error e => some (s, .handler e)
  | .handler e =>
    if b + 1 < num then
      match s.endValues b with
      | none => some ({ s with endValues := Function.update s.endValues b (some (.error e)) },
          .done none)
      | some _ => some (s, .done (some .promiseAlreadySatisfied))
    else some (s, .done (some e))
  | .done _ => none

/-- The first element of a chunk is its first sum. -/
def begin (first : ℕ → ℕ) (b : ℕ) (s : Shared α ε) : Chunk α ε :=
  .sum (first b + 1) (s.mem (first b))

/-- A step of a thread while the program runs. A division by zero is undefined. -/
def running (add : α → α → α) (length num : ℕ) (first : ℕ → ℕ) (k : Choice ε) (s : Shared α ε) :
    Thread → Pc α ε → Option (Event Unit (Option (Exn ε)) × Shared α ε × Pc α ε)
  | .main, .enter =>
    if length = 0 then some (.ret none, s, .ret none)
    else if num = 0 then none
    else some (.tau, s, .spawn 0)
  | .main, .spawn i =>
    if i = num - 1 then some (.tau, s, .run (begin first i s))
    else some (.tau, { s with started := Function.update s.started i true }, .spawn (i + 1))
  | .main, .run (.done r) => some (.tau, s, .join 0 r)
  | .main, .run p => (chunkStep add num first (num - 1) k s p).map fun (s, p) => (.tau, s, .run p)
  | .main, .join i r =>
    if i = num - 1 then some (.ret r, s, .ret r)
    else if s.finished i then some (.tau, s, .join (i + 1) r)
    else none
  | .chunk b, .idle => if s.started b then some (.tau, s, .run (begin first b s)) else none
  | .chunk b, .run (.done none) =>
    some (.tau, { s with finished := Function.update s.finished b true }, .finished)
  | .chunk _, .run (.done (some e)) =>
    some (.tau, { s with terminated := true }, .run (.done (some e)))
  | .chunk b, .run p => (chunkStep add num first b k s p).map fun (s, p) => (.tau, s, .run p)
  | _, _ => none

/-- A step of a thread; there is none after `std::terminate`. -/
def step (add : α → α → α) (length num : ℕ) (first : ℕ → ℕ) (t : Thread) (k : Choice ε)
    (s : Shared α ε) (l : Pc α ε) : Option (Event Unit (Option (Exn ε)) × Shared α ε × Pc α ε) :=
  if s.terminated then none else running add length num first k s t l

/-- `main` and the threads of the chunks, by the length, the number of chunks and their first
positions. -/
def program (add : α → α → α) (length num : ℕ) (first : ℕ → ℕ) :
    Program Thread (Shared α ε) (Pc α ε) (Choice ε) Unit (Option (Exn ε)) :=
  ⟨step add length num first⟩

/-- Where the threads begin. -/
def initialPc : Thread → Pc α ε
  | .main => .enter
  | .chunk _ => .idle

/-- The range `x`, and no thread started. -/
def initial (x : ℕ → α) : Config Thread (Shared α ε) (Pc α ε) :=
  ⟨⟨x, fun _ => false, fun _ => none, fun _ => false, false⟩, initialPc⟩

/-- `parallel_partial_sum` on `n` elements, with an `unsigned long` of `w` bits; `hardware` is what
`hardware_concurrency()` returns. -/
def parallelPartialSum (add : α → α → α) (w hardware n : ℕ) :
    Program Thread (Shared α ε) (Pc α ε) (Choice ε) Unit (Option (Exn ε)) :=
  program add (lengthOf w n) (numThreadsOf w hardware (lengthOf w n)) (blockBegin w hardware n)

/-! ## What a step can do -/

variable (add : α → α → α) (length num : ℕ) (first : ℕ → ℕ)

/-- The moves of `process_chunk`. -/
inductive ChunkMove (b : ℕ) (s : Shared α ε) : Chunk α ε → Shared α ε → Chunk α ε → Prop
  | sumEnd (acc) : ChunkMove b s (.sum (first (b + 1)) acc) s (afterSum num b)
  | sum (i acc) (hi : i ≠ first (b + 1)) : ChunkMove b s (.sum i acc)
      { s with mem := Function.update s.mem i (add acc (s.mem i)) }
        (.sum (i + 1) (add acc (s.mem i)))
  | sumThrow (i acc e) (hi : i ≠ first (b + 1)) :
      ChunkMove b s (.sum i acc) s (.handler (.thrown e))
  | got (addend) (h : s.endValues (b - 1) = some (.ok addend)) : ChunkMove b s .get s (.last addend)
  | gotError (e) (h : s.endValues (b - 1) = some (.error e)) : ChunkMove b s .get s (.handler e)
  | last (addend) : ChunkMove b s (.last addend)
      { s with
        mem := Function.update s.mem (first (b + 1) - 1) (add (s.mem (first (b + 1) - 1)) addend) }
      (afterLast num first b addend)
  | lastThrow (addend e) : ChunkMove b s (.last addend) s (.handler (.thrown e))
  | setFirst (h : s.endValues b = none) : ChunkMove b s (.setValue none)
      { s with
        endValues := Function.update s.endValues b (some (.ok (s.mem (first (b + 1) - 1)))) }
      (.done none)
  | setValue (addend) (h : s.endValues b = none) : ChunkMove b s (.setValue (some addend))
      { s with
        endValues := Function.update s.endValues b (some (.ok (s.mem (first (b + 1) - 1)))) }
      (.others (first b) addend)
  | setTwice (addend v) (h : s.endValues b = some v) :
      ChunkMove b s (.setValue addend) s (.handler .promiseAlreadySatisfied)
  | others (i addend) (hi : i ≠ first (b + 1) - 1) : ChunkMove b s (.others i addend)
      { s with mem := Function.update s.mem i (add (s.mem i) addend) } (.others (i + 1) addend)
  | othersThrow (i addend e) (hi : i ≠ first (b + 1) - 1) :
      ChunkMove b s (.others i addend) s (.handler (.thrown e))
  | othersEnd (addend) : ChunkMove b s (.others (first (b + 1) - 1) addend) s (.done none)
  | setException (e) (hb : b + 1 < num) (h : s.endValues b = none) : ChunkMove b s (.handler e)
      { s with endValues := Function.update s.endValues b (some (.error e)) } (.done none)
  | setAgain (e v) (hb : b + 1 < num) (h : s.endValues b = some v) :
      ChunkMove b s (.handler e) s (.done (some .promiseAlreadySatisfied))
  | rethrow (e) (hb : ¬ b + 1 < num) : ChunkMove b s (.handler e) s (.done (some e))

/-- The moves of the threads. -/
inductive Move (s : Shared α ε) : Thread → Pc α ε → Shared α ε → Pc α ε → Prop
  | empty (hl : length = 0) : Move s .main .enter s (.ret none)
  | divide (hl : length ≠ 0) (hn : num ≠ 0) : Move s .main .enter s (.spawn 0)
  | spawn (i) (hi : i ≠ num - 1) : Move s .main (.spawn i)
      { s with started := Function.update s.started i true } (.spawn (i + 1))
  | own : Move s .main (.spawn (num - 1)) s (.run (begin first (num - 1) s))
  | ownStep (p s' p') (hp : ChunkMove add num first (num - 1) s p s' p') :
      Move s .main (.run p) s' (.run p')
  | ownEnd (r) : Move s .main (.run (.done r)) s (.join 0 r)
  | join (i r) (hi : i ≠ num - 1) (hf : s.finished i = true) :
      Move s .main (.join i r) s (.join (i + 1) r)
  | joined (r) : Move s .main (.join (num - 1) r) s (.ret r)
  | chunkBegin (b) (hb : s.started b = true) : Move s (.chunk b) .idle s (.run (begin first b s))
  | chunkStep (b p s' p') (hp : ChunkMove add num first b s p s' p') :
      Move s (.chunk b) (.run p) s' (.run p')
  | chunkEnd (b) : Move s (.chunk b) (.run (.done none))
      { s with finished := Function.update s.finished b true } .finished
  | terminate (b e) : Move s (.chunk b) (.run (.done (some e))) { s with terminated := true }
      (.run (.done (some e)))

variable {add length num first} {b : ℕ} {k : Choice ε} {s s' : Shared α ε} {p p' : Chunk α ε}

theorem chunkStep_move (hs : chunkStep add num first b k s p = some (s', p')) :
    ChunkMove add num first b s p s' p' := by
  cases p with
  | sum i acc =>
    simp only [chunkStep] at hs
    split at hs
    · rename_i hi
      cases hs
      exact hi ▸ .sumEnd acc
    · cases k <;> cases hs
      · exact .sum i acc ‹_›
      · exact .sumThrow i acc _ ‹_›
  | get =>
    simp only [chunkStep] at hs
    split at hs <;> cases hs
    · exact .got _ ‹_›
    · exact .gotError _ ‹_›
  | last addend =>
    cases k <;> cases hs
    · exact .last addend
    · exact .lastThrow addend _
  | setValue addend =>
    simp only [chunkStep] at hs
    split at hs
    · cases hs
      exact .setTwice addend _ ‹_›
    · cases addend <;> cases hs
      · exact .setFirst ‹_›
      · exact .setValue _ ‹_›
  | others i addend =>
    simp only [chunkStep] at hs
    split at hs
    · rename_i hi
      cases hs
      exact hi ▸ .othersEnd addend
    · cases k <;> cases hs
      · exact .others i addend ‹_›
      · exact .othersThrow i addend _ ‹_›
  | handler e =>
    simp only [chunkStep] at hs
    split at hs
    · split at hs <;> cases hs
      · exact .setException e ‹_› ‹_›
      · exact .setAgain e _ ‹_› ‹_›
    · cases hs
      exact .rethrow e ‹_›
  | done r => cases hs

theorem step_move {t : Thread} {l l' : Pc α ε} {ev : Event Unit (Option (Exn ε))}
    (hs : step add length num first t k s l = some (ev, s', l')) :
    s.terminated = false ∧ Move add length num first s t l s' l' := by
  unfold step at hs
  split at hs
  · cases hs
  rename_i ht
  refine ⟨by simpa using ht, ?_⟩
  have hmap : ∀ {b p}, ((chunkStep add num first b k s p).map fun (s, p) =>
      ((.tau, s, .run p) : Event Unit (Option (Exn ε)) × Shared α ε × Pc α ε)) = some (ev, s', l') →
      ∃ p', l' = .run p' ∧ ChunkMove add num first b s p s' p' := by
    intro b p he
    obtain ⟨⟨s₁, p₁⟩, hc, heq⟩ := Option.map_eq_some_iff.mp he
    cases heq
    exact ⟨p₁, rfl, chunkStep_move hc⟩
  unfold running at hs
  split at hs
  · split at hs
    · cases hs
      exact .empty ‹_›
    · split at hs <;> cases hs
      exact .divide ‹_› ‹_›
  · split at hs
    · rename_i hi
      cases hs
      exact hi ▸ .own
    · cases hs
      exact .spawn _ ‹_›
  · cases hs
    exact .ownEnd _
  · obtain ⟨p', rfl, hp⟩ := hmap hs
    exact .ownStep _ _ _ hp
  · split at hs
    · rename_i hi
      cases hs
      exact hi ▸ .joined _
    · split at hs <;> cases hs
      exact .join _ _ ‹_› ‹_›
  · split at hs <;> cases hs
    exact .chunkBegin _ ‹_›
  · cases hs
    exact .chunkEnd _
  · cases hs
    exact .terminate _ _
  · obtain ⟨p', rfl, hp⟩ := hmap hs
    exact .chunkStep _ _ _ _ hp
  · cases hs

end Bonostl.ParallelPartialSum
