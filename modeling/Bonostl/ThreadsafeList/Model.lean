import Bonostl.Interleaving.Program

/-!
# `threadsafe_list` (`threadsafe_list.hpp`)

A singly linked list with a mutex in every node. `for_each`, `find_first_if` and `remove_if` go
through it hand over hand: they lock the next node before they release the one they stand on. The
steps are those of the source: every lock and unlock, the reads and the two moves of `unique_ptr`s
in `push_front` and in `remove_if`, the call of the function or predicate, the deletion of a removed
node.

Nodes are addresses, `head` is 0; an address that holds no node may be returned by `new` again. A
`unique_ptr` that was moved from is null, so between the two moves of a pair the list is cut.
Functions and predicates read the element only; `for_each` is observed through the elements it
visits, in order, and `remove_if` through those it takes out. The destructor is a `remove_if`.

Out of scope: allocations that fail, and functions and predicates that throw.
-/

namespace Bonostl.ThreadsafeList

open Interleaving

/-- The address of `head`. -/
def head : ℕ := 0

/-- The nodes; `alive` says which addresses hold one. -/
structure Shared (ι T : Type) where
  mutex : ℕ → Option ι
  next : ℕ → Option ℕ
  data : ℕ → Option T
  alive : ℕ → Bool

/-- The operations of the list. -/
inductive Op (T : Type) where
  | pushFront (value : T)
  | forEach
  | findFirstIf (p : T → Bool)
  | removeIf (p : T → Bool)

/-- What an operation returns. -/
inductive Res (T : Type) where
  | unit
  | visited (xs : List T)
  | found (o : Option T)
  | removed (xs : List T)

/-- A traversal and what it has done so far. -/
inductive Task (T : Type) where
  | forEach (visited : List T)
  | findFirstIf (p : T → Bool)
  | removeIf (p : T → Bool) (removed : List T)

/-- Where a thread stands. -/
inductive Pc (T : Type) where
  | idle
  -- push_front
  | new (value : T)
  | lockPush (n : ℕ) (value : T)
  | moveNext (n : ℕ) (value : T)
  | setHead (n : ℕ)
  -- the traversals
  | lockHead (k : Task T)
  | loadNext (k : Task T) (current : ℕ)
  | lockNext (k : Task T) (current next : ℕ)
  -- for_each, find_first_if
  | unlockPrev (k : Task T) (current next : ℕ)
  | visit (k : Task T) (next : ℕ)
  -- remove_if
  | test (p : T → Bool) (removed : List T) (current next : ℕ)
  | take (p : T → Bool) (removed : List T) (current next : ℕ)
  | splice (p : T → Bool) (removed : List T) (current next : ℕ)
  | unlockNext (p : T → Bool) (removed : List T) (current next : ℕ)
  | delete (p : T → Bool) (removed : List T) (current next : ℕ)
  | keep (p : T → Bool) (removed : List T) (current next : ℕ)
  -- the destructor of the last lock
  | unlock (a : ℕ) (r : Res T)
  | done (r : Res T)

/-- The scheduler's choice: a call, the next step, or the address `new` returns. -/
inductive Choice (T : Type) where
  | call (o : Op T)
  | run
  | alloc (a : ℕ)

variable {ι T : Type}

/-- How an operation begins. -/
def Op.begin : Op T → Pc T
  | .pushFront value => .new value
  | .forEach => .lockHead (.forEach [])
  | .findFirstIf p => .lockHead (.findFirstIf p)
  | .removeIf p => .lockHead (.removeIf p [])

/-- What a traversal returns at the end of the list. -/
def Task.result : Task T → Res T
  | .forEach visited => .visited visited
  | .findFirstIf _ => .found none
  | .removeIf _ removed => .removed removed

/-- What a traversal does when it has locked `next` and `current`. -/
def Task.locked (current next : ℕ) : Task T → Pc T
  | .removeIf p removed => .test p removed current next
  | k => .unlockPrev k current next

/-- `func(*next->data)` and `p(*next->data)`, and where the loop goes on. -/
def Task.visit (next : ℕ) (x : T) : Task T → Option (Pc T)
  | .forEach visited => some (.loadNext (.forEach (visited ++ [x])) next)
  | .findFirstIf p =>
    if p x then some (.unlock next (.found (some x))) else some (.loadNext (.findFirstIf p) next)
  | .removeIf _ _ => none

/-- An empty list. -/
def initial : Config ι (Shared ι T) (Pc T) where
  shared := ⟨fun _ => none, fun _ => none, fun _ => none, fun a => a == head⟩
  loc := fun _ => .idle

/-- A step of a run. -/
abbrev Step (ι T : Type) := Rec ι (Shared ι T) (Pc T) (Op T) (Res T)

/-- `m.lock()` on the mutex of node `a`. -/
def Shared.lock (s : Shared ι T) (a : ℕ) (t : ι) : Option (Shared ι T) :=
  match s.mutex a with
  | some _ => none
  | none => some { s with mutex := Function.update s.mutex a (some t) }

/-- `m.unlock()`. -/
def Shared.unlock (s : Shared ι T) (a : ℕ) : Shared ι T :=
  { s with mutex := Function.update s.mutex a none }

/-- `b->next = std::move(a->next)`. -/
def Shared.move (s : Shared ι T) (a b : ℕ) : Shared ι T :=
  { s with next := Function.update (Function.update s.next b (s.next a)) a none }

/-- One step of a thread. -/
def step (t : ι) (c : Choice T) (s : Shared ι T) (l : Pc T) :
    Option (Event (Op T) (Res T) × Shared ι T × Pc T) :=
  match l, c with
  | .idle, .call o => some (.call o, s, o.begin)
  | .new value, .alloc a =>
    if s.alive a then none
    else some (.tau, { s with
      mutex := Function.update s.mutex a none
      next := Function.update s.next a none
      data := Function.update s.data a (some value)
      alive := Function.update s.alive a true }, .lockPush a value)
  | .lockPush n value, .run => (s.lock head t).map fun s' => (.tau, s', .moveNext n value)
  | .moveNext n _, .run => some (.tau, s.move head n, .setHead n)
  | .setHead n, .run =>
    some (.tau, { s with next := Function.update s.next head (some n) }, .unlock head .unit)
  | .lockHead k, .run => (s.lock head t).map fun s' => (.tau, s', .loadNext k head)
  | .loadNext k current, .run =>
    match s.next current with
    | some next => some (.tau, s, .lockNext k current next)
    | none => some (.tau, s, .unlock current k.result)
  | .lockNext k current next, .run =>
    (s.lock next t).map fun s' => (.tau, s', k.locked current next)
  | .unlockPrev k current next, .run => some (.tau, s.unlock current, .visit k next)
  | .visit k next, .run =>
    match (s.data next).bind (k.visit next) with
    | none => none
    | some l' => some (.tau, s, l')
  | .test p removed current next, .run =>
    match s.data next with
    | none => none
    | some x =>
      some (.tau, s, if p x then .take p removed current next else .keep p removed current next)
  -- old_next is a local variable: what is moved to it is `next`
  | .take p removed current next, .run =>
    some (.tau, { s with next := Function.update s.next current none },
      .splice p removed current next)
  | .splice p removed current next, .run =>
    some (.tau, s.move next current,
      .unlockNext p (removed ++ (s.data next).toList) current next)
  | .unlockNext p removed current next, .run =>
    some (.tau, s.unlock next, .delete p removed current next)
  | .delete p removed current next, .run =>
    some (.tau, { s with alive := Function.update s.alive next false },
      .loadNext (.removeIf p removed) current)
  | .keep p removed current next, .run =>
    some (.tau, s.unlock current, .loadNext (.removeIf p removed) next)
  | .unlock a r, .run => some (.tau, s.unlock a, .done r)
  | .done r, .run => some (.ret r, s, .idle)
  | _, _ => none

/-- The threads that use a list. -/
def program : Program ι (Shared ι T) (Pc T) (Choice T) (Op T) (Res T) := ⟨step⟩

/-! ## What a step can do -/

/-- The moves of a thread. -/
inductive Move (t : ι) (s : Shared ι T) :
    Event (Op T) (Res T) → Pc T → Shared ι T → Pc T → Prop
  | call (o) : Move t s (.call o) .idle s o.begin
  | new (value a) (ha : s.alive a = false) : Move t s .tau (.new value) { s with
      mutex := Function.update s.mutex a none
      next := Function.update s.next a none
      data := Function.update s.data a (some value)
      alive := Function.update s.alive a true } (.lockPush a value)
  | lockPush (n value) (hm : s.mutex head = none) : Move t s .tau (.lockPush n value)
      { s with mutex := Function.update s.mutex head (some t) } (.moveNext n value)
  | moveNext (n value) : Move t s .tau (.moveNext n value) (s.move head n) (.setHead n)
  | setHead (n) : Move t s .tau (.setHead n)
      { s with next := Function.update s.next head (some n) } (.unlock head .unit)
  | lockHead (k) (hm : s.mutex head = none) : Move t s .tau (.lockHead k)
      { s with mutex := Function.update s.mutex head (some t) } (.loadNext k head)
  | loadNext (k current next) (hn : s.next current = some next) :
      Move t s .tau (.loadNext k current) s (.lockNext k current next)
  | loadEnd (k current) (hn : s.next current = none) :
      Move t s .tau (.loadNext k current) s (.unlock current k.result)
  | lockNext (k current next) (hm : s.mutex next = none) : Move t s .tau (.lockNext k current next)
      { s with mutex := Function.update s.mutex next (some t) } (k.locked current next)
  | unlockPrev (k current next) :
      Move t s .tau (.unlockPrev k current next) (s.unlock current) (.visit k next)
  | visit (k next x l') (hd : s.data next = some x) (hv : k.visit next x = some l') :
      Move t s .tau (.visit k next) s l'
  | testTrue (p removed current next x) (hd : s.data next = some x) (hp : p x = true) :
      Move t s .tau (.test p removed current next) s (.take p removed current next)
  | testFalse (p removed current next x) (hd : s.data next = some x) (hp : p x = false) :
      Move t s .tau (.test p removed current next) s (.keep p removed current next)
  | take (p removed current next) : Move t s .tau (.take p removed current next)
      { s with next := Function.update s.next current none } (.splice p removed current next)
  | splice (p removed current next) : Move t s .tau (.splice p removed current next)
      (s.move next current) (.unlockNext p (removed ++ (s.data next).toList) current next)
  | unlockNext (p removed current next) : Move t s .tau (.unlockNext p removed current next)
      (s.unlock next) (.delete p removed current next)
  | delete (p removed current next) : Move t s .tau (.delete p removed current next)
      { s with alive := Function.update s.alive next false }
        (.loadNext (.removeIf p removed) current)
  | keep (p removed current next) : Move t s .tau (.keep p removed current next) (s.unlock current)
      (.loadNext (.removeIf p removed) next)
  | unlock (a r) : Move t s .tau (.unlock a r) (s.unlock a) (.done r)
  | ret (r) : Move t s (.ret r) (.done r) s .idle

theorem step_move {t : ι} {c : Choice T} {s s' : Shared ι T} {l l' : Pc T}
    {ev : Event (Op T) (Res T)} (hs : step t c s l = some (ev, s', l')) : Move t s ev l s' l' := by
  unfold step Shared.lock at hs
  split at hs
  all_goals (repeat' split at hs)
  all_goals cases hs
  all_goals first
    | (constructor <;> simp_all; done)
    | exact .testTrue _ _ _ _ _ ‹_› ‹_›
    | exact .testFalse _ _ _ _ _ ‹_› (eq_false_of_ne_true ‹_›)
    | (obtain ⟨x, hd, hv⟩ := Option.bind_eq_some_iff.mp ‹_›; exact .visit _ _ x _ hd hv)

end Bonostl.ThreadsafeList
