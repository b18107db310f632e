import Bonostl.Interleaving.Monitor

/-!
# `threadsafe_queue` (`threadsafe_queue.hpp`)

Nodes have addresses in `ℕ`; `data`, `next` and `alive` are the memory, and `head` is null while
`pop_head` has moved it out. Every step accesses one shared location once: a lock, an unlock, a
`notify_one`, the read or the write of one pointer or one field. `head.get() == get_tail()` reads
`head` first.

`waitAndPop`, `tryPop` and `empty` share the code of that comparison, so one set of places serves
them; `Query` says whose it is and `woken` whether its thread has been blocked and was woken. A pop
by reference (`Form.ref`) reads the value before `pop_head`, one by value after it has released
`head_mutex_`. A value that was moved out of is never read again, so moves are copies.

A step that would dereference a null pointer, a freed node or an empty optional leads to `Pc.fault`.

Out of scope: allocations that fail, and exceptions of the element's moves.
-/

namespace Bonostl.ThreadsafeQueue

open Interleaving

/-- The members of the queue with their memory; `blocked` are the threads blocked on
`data_cond_`. -/
structure Shared (ι T : Type) where
  headMutex : Option ι
  head : Option ℕ
  tailMutex : Option ι
  tail : ℕ
  blocked : List ι
  data : ℕ → Option T
  next : ℕ → Option ℕ
  alive : ℕ → Bool

/-- Whether the popped value is returned or stored through a reference. -/
inductive Form where
  | value
  | ref
  deriving DecidableEq

/-- The operations that compare `head` with `tail`. -/
inductive Query where
  | waitAndPop (form : Form)
  | tryPop (form : Form)
  | empty
  deriving DecidableEq

/-- The operations of the queue. -/
inductive Op (T : Type) where
  | push (value : T)
  | query (q : Query)
  deriving DecidableEq

/-- What an operation returns, with what it has stored through its reference. -/
inductive Res (T : Type) where
  | unit
  | value (v : T)
  | stored (v : T)
  | optional (o : Option T)
  | found (b : Bool) (stored : Option T)
  | bool (b : Bool)
  deriving DecidableEq

/-- Where a thread stands. -/
inductive Pc (T : Type) where
  | idle
  -- push
  | newTail (v : T)
  | lockTail (v : T) (n : ℕ)
  | tailData (v : T) (n : ℕ)
  | writeData (v : T) (n p : ℕ)
  | tailNext (v : T) (n : ℕ)
  | writeNext (v : T) (n p : ℕ)
  | moveTail (v : T) (n : ℕ)
  | unlockTail (v : T)
  | notify
  -- head.get() == get_tail()
  | lockHead (q : Query)
  | getHead (q : Query) (woken : Bool)
  | lockGet (q : Query) (woken : Bool) (h : Option ℕ)
  | getTail (q : Query) (woken : Bool) (h : Option ℕ)
  | unlockGet (q : Query) (woken : Bool) (h : Option ℕ) (p : ℕ)
  -- condition_variable::wait
  | block (form : Form)
  | wait (form : Form)
  -- *head->data
  | refHead (q : Query) (woken : Bool)
  | refData (q : Query) (woken : Bool) (p : ℕ)
  -- pop_head; `v` is the value already stored through a reference
  | readHead (q : Query) (woken : Bool) (v : Option T)
  | nullHead (q : Query) (woken : Bool) (v : Option T) (old : ℕ)
  | readNext (q : Query) (v : Option T) (old : ℕ)
  | nullNext (q : Query) (v : Option T) (old nx : ℕ)
  | setHead (q : Query) (v : Option T) (old nx : ℕ)
  | unlockHead (q : Query) (v : Option T) (old : ℕ)
  | takeData (q : Query) (old : ℕ)
  | free (old : ℕ) (r : Res T)
  | release (r : Res T)
  | done (r : Res T)
  | fault
  deriving DecidableEq

/-- The scheduler's choice: a call, the next step, the address `new` returns, the thread
`notify_one` wakes, or a spurious wake-up. -/
inductive Choice (ι T : Type) where
  | call (o : Op T)
  | run
  | alloc (n : ℕ)
  | notify (u : ι)
  | spurious
  deriving DecidableEq

variable {ι T : Type} [DecidableEq ι]

/-- What the operation returns once it has popped `v`. -/
def Query.popped (v : T) : Query → Res T
  | .waitAndPop .value => .value v
  | .waitAndPop .ref => .stored v
  | .tryPop .value => .optional (some v)
  | .tryPop .ref => .found true (some v)
  | .empty => .bool false

/-- Where `head.get() == get_tail()` leads. -/
def Query.compared (woken : Bool) (eq : Bool) : Query → Pc T
  | .waitAndPop f =>
    if eq then .block f
    else
      match f with
      | .value => .readHead (.waitAndPop f) woken none
      | .ref => .refHead (.waitAndPop f) woken
  | .tryPop .value =>
    if eq then .release (.optional none) else .readHead (.tryPop .value) woken none
  | .tryPop .ref => if eq then .release (.found false none) else .refHead (.tryPop .ref) woken
  | .empty => .release (.bool eq)

/-- The next step of the thread dereferences what it must not. -/
def Pc.faults (s : Shared ι T) : Pc T → Bool
  | .writeData _ _ p | .writeNext _ _ p => !s.alive p
  | .refHead _ _ | .readHead _ _ _ => s.head.isNone
  | .refData _ _ p => !s.alive p || (s.data p).isNone
  | .readNext _ _ old => !s.alive old || (s.next old).isNone
  | .nullNext _ _ old _ => !s.alive old
  | .takeData _ old => !s.alive old || (s.data old).isNone
  -- the destructor of a node frees all nodes behind it
  | .free old _ => !s.alive old || (s.next old).isSome
  | _ => false

/-- One step of a thread that dereferences nothing it must not. -/
def access (t : ι) (c : Choice ι T) (s : Shared ι T) (l : Pc T) :
    Option (Event (Op T) (Res T) × Shared ι T × Pc T) :=
  match l, c with
  | .idle, .call (.push v) => some (.call (.push v), s, .newTail v)
  | .idle, .call (.query q) => some (.call (.query q), s, .lockHead q)
  -- push
  | .newTail v, .alloc n =>
    if s.alive n then none
    else some (.tau, { s with
      data := Function.update s.data n none
      next := Function.update s.next n none
      alive := Function.update s.alive n true }, .lockTail v n)
  | .lockTail v n, .run =>
    match s.tailMutex with
    | some _ => none
    | none => some (.tau, { s with tailMutex := some t }, .tailData v n)
  | .tailData v n, .run => some (.tau, s, .writeData v n s.tail)
  | .writeData v n p, .run =>
    some (.tau, { s with data := Function.update s.data p (some v) }, .tailNext v n)
  | .tailNext v n, .run => some (.tau, s, .writeNext v n s.tail)
  | .writeNext v n p, .run =>
    some (.tau, { s with next := Function.update s.next p (some n) }, .moveTail v n)
  | .moveTail v n, .run => some (.tau, { s with tail := n }, .unlockTail v)
  | .unlockTail _, .run => some (.tau, { s with tailMutex := none }, .notify)
  | .notify, .notify u =>
    match notifyOne s.blocked u with
    | none => none
    | some ws => some (.tau, { s with blocked := ws }, .done .unit)
  -- head.get() == get_tail()
  | .lockHead q, .run =>
    match s.headMutex with
    | some _ => none
    | none => some (.tau, { s with headMutex := some t }, .getHead q false)
  | .getHead q w, .run => some (.tau, s, .lockGet q w s.head)
  | .lockGet q w h, .run =>
    match s.tailMutex with
    | some _ => none
    | none => some (.tau, { s with tailMutex := some t }, .getTail q w h)
  | .getTail q w h, .run => some (.tau, s, .unlockGet q w h s.tail)
  | .unlockGet q w h p, .run =>
    some (.tau, { s with tailMutex := none }, q.compared w (h = some p))
  -- condition_variable::wait
  | .block f, .run =>
    some (.tau, { s with headMutex := none, blocked := t :: s.blocked }, .wait f)
  | .wait f, .spurious =>
    if t ∈ s.blocked then some (.tau, { s with blocked := s.blocked.erase t }, .wait f) else none
  | .wait f, .run =>
    if t ∈ s.blocked then none
    else
      match s.headMutex with
      | some _ => none
      | none => some (.tau, { s with headMutex := some t }, .getHead (.waitAndPop f) true)
  -- *head->data, pop_head
  | .refHead q w, .run => s.head.map fun p => (.tau, s, .refData q w p)
  | .refData q w p, .run => some (.tau, s, .readHead q w (s.data p))
  | .readHead q w v, .run => s.head.map fun old => (.tau, s, .nullHead q w v old)
  | .nullHead q _ v old, .run => some (.tau, { s with head := none }, .readNext q v old)
  | .readNext q v old, .run => (s.next old).map fun nx => (.tau, s, .nullNext q v old nx)
  | .nullNext q v old nx, .run =>
    some (.tau, { s with next := Function.update s.next old none }, .setHead q v old nx)
  | .setHead q v old nx, .run => some (.tau, { s with head := some nx }, .unlockHead q v old)
  | .unlockHead q none old, .run => some (.tau, { s with headMutex := none }, .takeData q old)
  | .unlockHead q (some v) old, .run =>
    some (.tau, { s with headMutex := none }, .free old (q.popped v))
  | .takeData q old, .run => (s.data old).map fun v => (.tau, s, .free old (q.popped v))
  | .free old r, .run =>
    some (.tau, { s with alive := Function.update s.alive old false }, .done r)
  | .release r, .run => some (.tau, { s with headMutex := none }, .done r)
  | .done r, .run => some (.ret r, s, .idle)
  | _, _ => none

/-- One step of a thread. -/
def step (t : ι) (c : Choice ι T) (s : Shared ι T) (l : Pc T) :
    Option (Event (Op T) (Res T) × Shared ι T × Pc T) :=
  if l.faults s then some (.tau, s, .fault) else access t c s l

/-- The threads that use a queue. -/
def program : Program ι (Shared ι T) (Pc T) (Choice ι T) (Op T) (Res T) := ⟨step⟩

/-- A new queue: one dummy node. -/
def initial : Config ι (Shared ι T) (Pc T) where
  shared := ⟨none, some 0, none, 0, [], fun _ => none, fun _ => none, fun n => n == 0⟩
  loc := fun _ => .idle

/-! ## What a step can do -/

/-- The moves of a thread. -/
inductive Move (t : ι) (c : Choice ι T) (s : Shared ι T) :
    Event (Op T) (Res T) → Pc T → Shared ι T → Pc T → Prop
  | push (v) : Move t c s (.call (.push v)) .idle s (.newTail v)
  | query (q) : Move t c s (.call (.query q)) .idle s (.lockHead q)
  | newTail (v n) (hc : c = .alloc n) (hn : s.alive n = false) :
      Move t c s .tau (.newTail v) { s with
        data := Function.update s.data n none
        next := Function.update s.next n none
        alive := Function.update s.alive n true } (.lockTail v n)
  | lockTail (v n) (hm : s.tailMutex = none) :
      Move t c s .tau (.lockTail v n) { s with tailMutex := some t } (.tailData v n)
  | tailData (v n) : Move t c s .tau (.tailData v n) s (.writeData v n s.tail)
  | writeData (v n p) : Move t c s .tau (.writeData v n p)
      { s with data := Function.update s.data p (some v) } (.tailNext v n)
  | tailNext (v n) : Move t c s .tau (.tailNext v n) s (.writeNext v n s.tail)
  | writeNext (v n p) : Move t c s .tau (.writeNext v n p)
      { s with next := Function.update s.next p (some n) } (.moveTail v n)
  | moveTail (v n) : Move t c s .tau (.moveTail v n) { s with tail := n } (.unlockTail v)
  | unlockTail (v) : Move t c s .tau (.unlockTail v) { s with tailMutex := none } .notify
  | notify (u ws) (hn : notifyOne s.blocked u = some ws) :
      Move t c s .tau .notify { s with blocked := ws } (.done .unit)
  | lockHead (q) (hm : s.headMutex = none) :
      Move t c s .tau (.lockHead q) { s with headMutex := some t } (.getHead q false)
  | getHead (q w) : Move t c s .tau (.getHead q w) s (.lockGet q w s.head)
  | lockGet (q w h) (hm : s.tailMutex = none) :
      Move t c s .tau (.lockGet q w h) { s with tailMutex := some t } (.getTail q w h)
  | getTail (q w h) : Move t c s .tau (.getTail q w h) s (.unlockGet q w h s.tail)
  | unlockGet (q w h p) : Move t c s .tau (.unlockGet q w h p) { s with tailMutex := none }
      (q.compared w (h = some p))
  | block (f) : Move t c s .tau (.block f)
      { s with headMutex := none, blocked := t :: s.blocked } (.wait f)
  | spurious (f) (ht : t ∈ s.blocked) :
      Move t c s .tau (.wait f) { s with blocked := s.blocked.erase t } (.wait f)
  | wake (f) (ht : t ∉ s.blocked) (hm : s.headMutex = none) : Move t c s .tau (.wait f)
      { s with headMutex := some t } (.getHead (.waitAndPop f) true)
  | refHead (q w p) (hp : s.head = some p) : Move t c s .tau (.refHead q w) s (.refData q w p)
  | refData (q w p) : Move t c s .tau (.refData q w p) s (.readHead q w (s.data p))
  | readHead (q w v old) (hp : s.head = some old) :
      Move t c s .tau (.readHead q w v) s (.nullHead q w v old)
  | nullHead (q w v old) :
      Move t c s .tau (.nullHead q w v old) { s with head := none } (.readNext q v old)
  | readNext (q v old nx) (hn : s.next old = some nx) :
      Move t c s .tau (.readNext q v old) s (.nullNext q v old nx)
  | nullNext (q v old nx) : Move t c s .tau (.nullNext q v old nx)
      { s with next := Function.update s.next old none } (.setHead q v old nx)
  | setHead (q v old nx) :
      Move t c s .tau (.setHead q v old nx) { s with head := some nx } (.unlockHead q v old)
  | unlockHead (q old) : Move t c s .tau (.unlockHead q none old)
      { s with headMutex := none } (.takeData q old)
  | unlockRef (q v old) : Move t c s .tau (.unlockHead q (some v) old)
      { s with headMutex := none } (.free old (q.popped v))
  | takeData (q old v) (hd : s.data old = some v) :
      Move t c s .tau (.takeData q old) s (.free old (q.popped v))
  | free (old r) : Move t c s .tau (.free old r)
      { s with alive := Function.update s.alive old false } (.done r)
  | release (r) : Move t c s .tau (.release r) { s with headMutex := none } (.done r)
  | ret (r) : Move t c s (.ret r) (.done r) s .idle

theorem access_move {t : ι} {c : Choice ι T} {s s' : Shared ι T} {l l' : Pc T}
    {ev : Event (Op T) (Res T)} (hs : access t c s l = some (ev, s', l')) :
    Move t c s ev l s' l' := by
  unfold access at hs
  split at hs
  all_goals (repeat' split at hs)
  all_goals first
    | (obtain ⟨_, h, heq⟩ := Option.map_eq_some_iff.mp hs; cases heq; constructor; exact h)
    | (cases hs <;> constructor <;> first | rfl | assumption | simp_all)

theorem step_move {t : ι} {c : Choice ι T} {s s' : Shared ι T} {l l' : Pc T}
    {ev : Event (Op T) (Res T)} (hs : step t c s l = some (ev, s', l')) :
    l.faults s = true ∨ (l.faults s = false ∧ Move t c s ev l s' l') := by
  unfold step at hs
  split at hs
  · exact Or.inl ‹_›
  · rename_i hf
    exact Or.inr ⟨by simpa using hf, access_move hs⟩

end Bonostl.ThreadsafeQueue
