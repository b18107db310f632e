import Bonostl.Interleaving.Program
import Mathlib.Data.BitVec

/-!
# `lockfree_queue` (`lockfree_queue.hpp`)

One atomic access of the source is one step. Nodes live at addresses: `alive` says which addresses
hold a node, `used` which ever did, and `new node` takes any address that holds none
(`Choice.alloc`). `data`, `next` and `count` keep what was last written at an address, so that a
step on a deleted node goes on with what it finds there.

* `counted_node_ptr` is `Counted`. The only null one the source ever stores is
  `counted_node_ptr{0, nullptr}`, in a node's `next`: there it is `none`.
* `external_count` is an `int` that only grows by one at a time: `ℤ`. The two fields of
  `node_counter` are the bit-fields of the source, with their wrap-around: `BitVec 30`, `BitVec 2`.
* A `T*` made by `push` is `Object`: its address, and the value it was built with, which nobody
  writes to before `pop` moves it out. `objects` says which addresses hold one.
* `release_ref` and `free_external_counter` are the same loop with another `Update`; `Return` is
  where their caller goes on.
* `compare_exchange_weak` in `set_new_tail` may fail although the values are equal
  (`Choice.spurious`).

Out of scope: memory orders (every access is sequentially consistent), allocations that fail, and
exceptions of the element's moves.
-/

namespace Bonostl.LockfreeQueue

open Interleaving

/-- `counted_node_ptr`. -/
structure Counted where
  externalCount : ℤ
  ptr : ℕ
  deriving DecidableEq

/-- `node_counter`. -/
structure NodeCounter where
  internalCount : BitVec 30
  externalCounters : BitVec 2
  deriving DecidableEq

/-- What a `T*` points to. -/
structure Object (T : Type) where
  addr : ℕ
  value : T
  deriving DecidableEq

/-- The queue's two ends, the memory of its nodes and that of the pushed values. -/
structure Shared (T : Type) where
  head : Counted
  tail : Counted
  data : ℕ → Option (Object T)
  count : ℕ → NodeCounter
  next : ℕ → Option Counted
  alive : ℕ → Bool
  used : ℕ → Bool
  objects : ℕ → Bool

/-- The operations of the queue. -/
inductive Op (T : Type) where
  | push (newValue : T)
  | pop
  deriving DecidableEq

/-- What an operation returns. -/
inductive Res (T : Type) where
  | unit
  | popped (result : Option T)
  deriving DecidableEq

/-- Where `push` goes on after `set_new_tail`: it is over (`break`), or it tries again. -/
inductive After (T : Type) where
  | finish
  | again (newData : Object T) (newNext : Counted)
  deriving DecidableEq

/-- Where the caller of `release_ref` or `free_external_counter` goes on: the loop of
`set_new_tail`, the loop of `pop`, or the end of `pop`. -/
inductive Return (T : Type) where
  | setTail (a : After T) (oldTail newTail : Counted)
  | pop (oldHead : Counted)
  | value (res : Option (Object T))
  deriving DecidableEq

/-- What a node's counter is changed by: `release_ref`, or `free_external_counter` with its
`count_increase`. -/
inductive Update where
  | release
  | free (countIncrease : ℤ)
  deriving DecidableEq

/-- How far the change of a counter has come. -/
inductive Counting where
  | load
  | cas (oldCounter : NodeCounter)
  | delete
  deriving DecidableEq

/-- Where a thread stands. -/
inductive Pc (T : Type) where
  | idle
  | newValue (v : T)
  | newNode (newData : Object T)
  | loadTail (newData : Object T) (newNext : Counted)
  | countTail (newData : Object T) (newNext oldTail : Counted)
  | data (newData : Object T) (newNext oldTail : Counted)
  | next (newNext oldTail : Counted)
  | deleteNext (newNext oldTail oldNext : Counted)
  | help (newData : Object T) (newNext oldTail : Counted)
  | helpNew (newData : Object T) (oldNext oldTail : Counted)
  | setTail (a : After T) (currentTailPtr : ℕ) (oldTail newTail : Counted)
  | loadHead
  | countHead (oldHead : Counted)
  | popTail (oldHead : Counted)
  | popNext (oldHead : Counted)
  | popCas (oldHead next : Counted)
  | popData (oldHead : Counted)
  | counter (ptr : ℕ) (u : Update) (c : Counting) (r : Return T)
  | popMove (res : Option (Object T))
  | done (r : Res T)
  deriving DecidableEq

/-- The scheduler's choice: a call, the next step, the address `new` returns, or a spurious failure
of a weak compare-exchange. -/
inductive Choice (T : Type) where
  | call (o : Op T)
  | run
  | alloc (a : ℕ)
  | spurious
  deriving DecidableEq

variable {ι T : Type}

/-- One reference more. -/
def Counted.increase (c : Counted) : Counted := { c with externalCount := c.externalCount + 1 }

@[simp, grind =] theorem Counted.increase_ptr (c : Counted) : c.increase.ptr = c.ptr := rfl

@[simp, grind =] theorem Counted.increase_externalCount (c : Counted) :
    c.increase.externalCount = c.externalCount + 1 := rfl

/-- The new counter of `release_ref`, or that of `free_external_counter`. -/
def Update.apply : Update → NodeCounter → NodeCounter
  | .release, c => { c with internalCount := c.internalCount - 1 }
  | .free countIncrease, c =>
    ⟨c.internalCount + BitVec.ofInt 30 countIncrease, c.externalCounters - 1⟩

/-- `node()`. -/
def NodeCounter.start : NodeCounter := ⟨0, 2⟩

/-- The counter of a node nobody refers to. -/
def NodeCounter.zero : NodeCounter := ⟨0, 0⟩

/-- The memory after `new node` at address `a`. -/
def Shared.new (s : Shared T) (a : ℕ) : Shared T :=
  { s with
    data := Function.update s.data a none
    count := Function.update s.count a .start
    next := Function.update s.next a none
    alive := Function.update s.alive a true
    used := Function.update s.used a true }

/-- The memory after `delete` of a node. -/
def Shared.delete (s : Shared T) (a : ℕ) : Shared T :=
  { s with alive := Function.update s.alive a false }

/-- Where `push` goes on. -/
def After.resume (oldTail : Counted) : After T → Pc T
  | .finish => .done .unit
  | .again d newNext => .countTail d newNext oldTail

/-- Where the caller goes on. -/
def Return.resume (ptr : ℕ) : Return T → Pc T
  | .setTail a oldTail newTail => .setTail a ptr oldTail newTail
  | .pop oldHead => .countHead oldHead
  | .value res => .popMove res

/-- `set_new_tail` after its compare-exchange failed and loaded `oldTail`. -/
def retry (a : After T) (currentTailPtr : ℕ) (oldTail newTail : Counted) : Pc T :=
  if oldTail.ptr = currentTailPtr then
    .counter oldTail.ptr (.free (oldTail.externalCount - 2)) .load (.setTail a oldTail newTail)
  else a.resume oldTail

/-- One step of a thread. -/
def step (k : Choice T) (s : Shared T) (l : Pc T) :
    Option (Event (Op T) (Res T) × Shared T × Pc T) :=
  match l, k with
  -- push
  | .idle, .call (.push v) => some (.call (.push v), s, .newValue v)
  | .newValue v, .alloc a =>
    if s.objects a then none
    else some (.tau, { s with objects := Function.update s.objects a true }, .newNode ⟨a, v⟩)
  | .newNode d, .alloc a => if s.alive a then none else some (.tau, s.new a, .loadTail d ⟨1, a⟩)
  | .loadTail d new, .run => some (.tau, s, .countTail d new s.tail)
  | .countTail d new old, .run =>
    if s.tail = old then some (.tau, { s with tail := old.increase }, .data d new old.increase)
    else some (.tau, s, .countTail d new s.tail)
  | .data d new old, .run =>
    match s.data old.ptr with
    | none =>
      some (.tau, { s with data := Function.update s.data old.ptr (some d) }, .next new old)
    | some _ => some (.tau, s, .help d new old)
  | .next new old, .run =>
    match s.next old.ptr with
    | none => some (.tau, { s with next := Function.update s.next old.ptr (some new) },
        .setTail .finish old.ptr old new)
    | some x => some (.tau, s, .deleteNext new old x)
  | .deleteNext new old x, .run =>
    some (.tau, s.delete new.ptr, .setTail .finish old.ptr old x)
  | .help d new old, .run =>
    match s.next old.ptr with
    | none => some (.tau, { s with next := Function.update s.next old.ptr (some new) },
        .helpNew d new old)
    | some x => some (.tau, s, .setTail (.again d new) old.ptr old x)
  | .helpNew d x old, .alloc a =>
    if s.alive a then none
    else some (.tau, s.new a, .setTail (.again d ⟨x.externalCount, a⟩) old.ptr old x)
  -- set_new_tail
  | .setTail a cur old new, .run =>
    if s.tail = old then some (.tau, { s with tail := new }, a.resume old)
    else some (.tau, s, retry a cur s.tail new)
  | .setTail a cur _ new, .spurious => some (.tau, s, retry a cur s.tail new)
  -- pop
  | .idle, .call .pop => some (.call .pop, s, .loadHead)
  | .loadHead, .run => some (.tau, s, .countHead s.head)
  | .countHead old, .run =>
    if s.head = old then some (.tau, { s with head := old.increase }, .popTail old.increase)
    else some (.tau, s, .countHead s.head)
  | .popTail old, .run =>
    if old.ptr = s.tail.ptr then some (.tau, s, .done (.popped none))
    else some (.tau, s, .popNext old)
  | .popNext old, .run =>
    -- `next` is not null here: `Shape.popNext`
    match s.next old.ptr with
    | none => none
    | some x => some (.tau, s, .popCas old x)
  | .popCas old x, .run =>
    if s.head = old then some (.tau, { s with head := x }, .popData old)
    else some (.tau, s, .counter old.ptr .release .load (.pop s.head))
  | .popData old, .run =>
    some (.tau, { s with data := Function.update s.data old.ptr none },
      .counter old.ptr (.free (old.externalCount - 2)) .load (.value (s.data old.ptr)))
  | .popMove (some d), .run =>
    some (.tau, { s with objects := Function.update s.objects d.addr false },
      .done (.popped (some d.value)))
  -- release_ref, free_external_counter
  | .counter n u .load r, .run => some (.tau, s, .counter n u (.cas (s.count n)) r)
  | .counter n u (.cas old) r, .run =>
    if s.count n = old then
      some (.tau, { s with count := Function.update s.count n (u.apply old) },
        if u.apply old = .zero then .counter n u .delete r else r.resume n)
    else some (.tau, s, .counter n u (.cas (s.count n)) r)
  | .counter n _ .delete r, .run => some (.tau, s.delete n, r.resume n)
  | .done r, .run => some (.ret r, s, .idle)
  | _, _ => none

/-- The threads that use a queue. -/
def program : Program ι (Shared T) (Pc T) (Choice T) (Op T) (Res T) := ⟨fun _ => step⟩

/-- A new queue: one node, which `head` and `tail` both point to. -/
def initial : Config ι (Shared T) (Pc T) where
  shared := ⟨⟨1, 0⟩, ⟨1, 0⟩, fun _ => none, fun _ => .start, fun _ => none, fun a => a == 0,
    fun a => a == 0, fun _ => false⟩
  loc := fun _ => .idle

/-- `~lockfree_queue`, for at most `fuel` nodes: the rest of the memory, or `none` when nodes are
left or a node is deleted that is not allocated. -/
def destroy : ℕ → Option Counted → Shared T → Option (Shared T)
  | _, none, s => some s
  | 0, some _, _ => none
  | fuel + 1, some c, s =>
    if s.alive c.ptr then destroy fuel (s.next c.ptr) (s.delete c.ptr) else none

/-- A step of a run. -/
abbrev Step (ι T : Type) := Rec ι (Shared T) (Pc T) (Op T) (Res T)

/-- A schedule in which thread `t` makes the choices `ks` and then takes `n` more steps. -/
def turn (t : ι) (ks : List (Choice T)) (n : ℕ) : List (ι × Choice T) :=
  ks.map (t, ·) ++ List.replicate n (t, .run)

/-! ## What a step can do -/

/-- The moves of a thread. `retry` stands for both ways the weak compare-exchange fails. -/
inductive Move (s : Shared T) :
    Choice T → Event (Op T) (Res T) → Pc T → Shared T → Pc T → Prop
  | push (v) : Move s (.call (.push v)) (.call (.push v)) .idle s (.newValue v)
  | newValue (v a) (ha : s.objects a = false) : Move s (.alloc a) .tau (.newValue v)
      { s with objects := Function.update s.objects a true } (.newNode ⟨a, v⟩)
  | newNode (d a) (ha : s.alive a = false) :
      Move s (.alloc a) .tau (.newNode d) (s.new a) (.loadTail d ⟨1, a⟩)
  | loadTail (d new) : Move s .run .tau (.loadTail d new) s (.countTail d new s.tail)
  | countTail (d new old) (ht : s.tail = old) : Move s .run .tau (.countTail d new old)
      { s with tail := old.increase } (.data d new old.increase)
  | countTailFail (d new old) :
      Move s .run .tau (.countTail d new old) s (.countTail d new s.tail)
  | data (d new old) (hd : s.data old.ptr = none) : Move s .run .tau (.data d new old)
      { s with data := Function.update s.data old.ptr (some d) } (.next new old)
  | dataFail (d new old) (hd : s.data old.ptr ≠ none) :
      Move s .run .tau (.data d new old) s (.help d new old)
  | next (new old) (hn : s.next old.ptr = none) : Move s .run .tau (.next new old)
      { s with next := Function.update s.next old.ptr (some new) }
        (.setTail .finish old.ptr old new)
  | nextFail (new old x) (hn : s.next old.ptr = some x) :
      Move s .run .tau (.next new old) s (.deleteNext new old x)
  | deleteNext (new old x) : Move s .run .tau (.deleteNext new old x) (s.delete new.ptr)
      (.setTail .finish old.ptr old x)
  | help (d new old) (hn : s.next old.ptr = none) : Move s .run .tau (.help d new old)
      { s with next := Function.update s.next old.ptr (some new) } (.helpNew d new old)
  | helpFail (d new old x) (hn : s.next old.ptr = some x) :
      Move s .run .tau (.help d new old) s (.setTail (.again d new) old.ptr old x)
  | helpNew (d x old a) (ha : s.alive a = false) : Move s (.alloc a) .tau (.helpNew d x old)
      (s.new a) (.setTail (.again d ⟨x.externalCount, a⟩) old.ptr old x)
  | setTail (a cur old new) (ht : s.tail = old) :
      Move s .run .tau (.setTail a cur old new) { s with tail := new } (a.resume old)
  | retry (a cur old new k) (hk : k = .spurious ∨ s.tail ≠ old) :
      Move s k .tau (.setTail a cur old new) s (retry a cur s.tail new)
  | pop : Move s (.call .pop) (.call .pop) .idle s .loadHead
  | loadHead : Move s .run .tau .loadHead s (.countHead s.head)
  | countHead (old) (hh : s.head = old) :
      Move s .run .tau (.countHead old) { s with head := old.increase } (.popTail old.increase)
  | countHeadFail (old) : Move s .run .tau (.countHead old) s (.countHead s.head)
  | popEmpty (old) (ht : old.ptr = s.tail.ptr) :
      Move s .run .tau (.popTail old) s (.done (.popped none))
  | popTail (old) (ht : old.ptr ≠ s.tail.ptr) : Move s .run .tau (.popTail old) s (.popNext old)
  | popNext (old x) (hn : s.next old.ptr = some x) :
      Move s .run .tau (.popNext old) s (.popCas old x)
  | popCas (old x) (hh : s.head = old) :
      Move s .run .tau (.popCas old x) { s with head := x } (.popData old)
  | popCasFail (old x) (hh : s.head ≠ old) :
      Move s .run .tau (.popCas old x) s (.counter old.ptr .release .load (.pop s.head))
  | popData (old) : Move s .run .tau (.popData old)
      { s with data := Function.update s.data old.ptr none }
      (.counter old.ptr (.free (old.externalCount - 2)) .load (.value (s.data old.ptr)))
  | popMove (d) : Move s .run .tau (.popMove (some d))
      { s with objects := Function.update s.objects d.addr false } (.done (.popped (some d.value)))
  | load (n u r) : Move s .run .tau (.counter n u .load r) s (.counter n u (.cas (s.count n)) r)
  | cas (n u old r) (hc : s.count n = old) (hz : u.apply old ≠ .zero) :
      Move s .run .tau (.counter n u (.cas old) r)
        { s with count := Function.update s.count n (u.apply old) } (r.resume n)
  | casZero (n u old r) (hc : s.count n = old) (hz : u.apply old = .zero) :
      Move s .run .tau (.counter n u (.cas old) r)
        { s with count := Function.update s.count n (u.apply old) } (.counter n u .delete r)
  | casFail (n u old r) :
      Move s .run .tau (.counter n u (.cas old) r) s (.counter n u (.cas (s.count n)) r)
  | delete (n u r) : Move s .run .tau (.counter n u .delete r) (s.delete n) (r.resume n)
  | ret (r) : Move s .run (.ret r) (.done r) s .idle

theorem step_move {k : Choice T} {s s' : Shared T} {l l' : Pc T} {ev : Event (Op T) (Res T)}
    (hs : step k s l = some (ev, s', l')) : Move s k ev l s' l' := by
  unfold step at hs
  split at hs
  all_goals (repeat' split at hs)
  all_goals cases hs
  all_goals first
    | (constructor <;> assumption)
    | (constructor; simp_all)

end Bonostl.LockfreeQueue
