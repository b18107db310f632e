import Bonostl.HarrisMichael.Find
import Bonostl.Interleaving.Program

/-!
# `lockfree_list` (`lockfree_list.hpp`)

The list's nodes are the `HarrisMichael.Memory` with an optional element as data, empty in the head
sentinel. `head_` is never written after construction: the sentinel is the node at address
`head`, and its loads are not steps of their own. `insert` compares with the element inside its new
node, which nothing changes, so its place carries the element (`value`).

The two `hp_owner`s of an operation claim slots one compare-exchange at a time, or throw, and give
them back in the reverse order (`Local.slots`, newest first). `nodes_to_reclaim` and
`reclaim_nodes_count` are shared by the whole process: `Choice.elsewhere` is the count, and
possibly the sweep, of a `reclaim_later` that another container calls on a node of its own.

Out of scope: memory orders (every access is sequentially consistent), allocations that fail, and
exceptions of the element's copies and comparisons.
-/

namespace Bonostl.LockfreeList

open Interleaving HazardPtr HarrisMichael

/-- The list's memory: `std::optional<T> data`, empty in the head sentinel. -/
abbrev Shared (ι T : Type) := Memory ι (Option T)

/-- The address of the head sentinel. -/
def head : ℕ := 0

/-- The operations of the list. -/
inductive Op (T : Type) where
  | insert (value : T)
  | erase (value : T)
  | contains (value : T)
  deriving DecidableEq

/-- How a call ends; `noHazardPointers` is the `runtime_error` of `hp_owner`. -/
inductive Res where
  | bool (b : Bool)
  | noHazardPointers
  deriving DecidableEq

/-- The operation a search belongs to. -/
inductive Task (T : Type) where
  | insert (newNode : ℕ) (value : T)
  | erase (value : T)
  | contains (value : T)
  deriving DecidableEq

/-- Where a thread stands. -/
inductive Pc (T : Type) where
  | idle
  | claim (o : Op T) (i : ℕ)
  | new (value : T)
  | find (k : Task T) (f : Find)
  | setNext (newNode : ℕ) (value : T) (pred : ℕ) (curr : Option ℕ)
  | link (newNode : ℕ) (value : T) (pred : ℕ) (curr : Option ℕ)
  | deleteNew (newNode : ℕ)
  | loadNext (value : T) (pred curr : ℕ)
  | mark (value : T) (pred curr : ℕ) (next : Option ℕ)
  | unlink (pred curr : ℕ) (next : Option ℕ)
  | reclaim (res : Res) (r : Reclaim)
  | elsewhere (r : Reclaim)
  | destroy (res : Res)
  | disown (res : Res)
  | done (res : Res)
  deriving DecidableEq

/-- A thread: the slots of the `hp_owner`s it has constructed, newest first, and where it stands. -/
structure Local (T : Type) where
  slots : List ℕ
  pc : Pc T
  deriving DecidableEq

/-- The scheduler's choice: a call, a `reclaim_later` of another container, the next step, the
address `new` returns, or a spurious failure of a weak compare-exchange. -/
inductive Choice (T : Type) where
  | call (o : Op T)
  | elsewhere
  | run
  | alloc (a : ℕ)
  | spurious
  deriving DecidableEq

variable {ι T : Type}

/-- A search with the thread's two slots, `hp_pred` and `hp_curr` in the order of construction. -/
def search (k : Task T) (slots : List ℕ) : Pc T :=
  .find k ⟨slots.getD 1 0, slots.getD 0 0, .start⟩

/-- What an operation does once it has its slots. -/
def begin (slots : List ℕ) : Op T → Pc T
  | .insert v => .new v
  | .erase v => search (.erase v) slots
  | .contains v => search (.contains v) slots

/-- What an operation does with the result of its search. -/
def Task.resume (found : Bool) (pred : ℕ) (curr : Option ℕ) : Task T → Pc T
  | .insert n v => if found then .deleteNew n else .setNext n v pred curr
  | .erase v =>
    match found, curr with
    | true, some c => .loadNext v pred c
    | _, _ => .destroy (.bool false)
  | .contains _ => .destroy (.bool found)

/-- The element an operation searches for. -/
def Task.value : Task T → T
  | .insert _ v | .erase v | .contains v => v

section
variable [LT T] [DecidableLT T]

/-- `*curr->data < key`; the sentinel stands before every element. -/
def precedes (key : T) : Option T → Bool
  | some x => decide (x < key)
  | none => true

/-- `!(key < *curr->data) && !(*curr->data < key)`. -/
def equals (key : T) : Option T → Bool
  | some x => decide (¬ key < x ∧ ¬ x < key)
  | none => false

/-- `find(key, …)`. -/
def find (key : T) : Query (Option T) := ⟨head, precedes key, equals key, fun _ => true⟩

/-- One step of a thread. -/
def step (t : ι) (k : Choice T) (s : Shared ι T) (l : Local T) :
    Option (Event (Op T) Res × Shared ι T × Local T) :=
  match l.pc, k with
  | .idle, .elsewhere => some (.tau, s, { l with pc := .elsewhere .count })
  | .idle, .call o => some (.call o, s, { l with pc := .claim o 0 })
  -- hp_owner
  | .claim o i, .run =>
    if i < maxHazardPointers then
      match tryClaim s.hazard t i with
      | some h => some (.tau, { s with hazard := h },
          { slots := i :: l.slots
            pc := if l.slots = [] then .claim o 0 else begin (i :: l.slots) o })
      | none => some (.tau, s, { l with pc := .claim o (i + 1) })
    else some (.tau, s, { l with pc := .destroy .noHazardPointers })
  | .destroy r, .run =>
    match l.slots with
    | [] => some (.tau, s, { l with pc := .done r })
    | i :: _ => some (.tau, { s with hazard := store s.hazard i none }, { l with pc := .disown r })
  | .disown r, .run =>
    match l.slots with
    | [] => none
    | i :: rest => some (.tau, { s with hazard := release s.hazard i }, ⟨rest, .destroy r⟩)
  -- find
  | .find k f, .run =>
    match f.step (find k.value) false s with
    | some (s', f') => some (.tau, s', { l with pc := .find k f' })
    | none =>
      match f.place with
      | .result found pred curr => some (.tau, s, { l with pc := k.resume found pred curr })
      | _ => none
  | .find k f, .spurious =>
    match f.step (find k.value) true s with
    | some (s', f') => some (.tau, s', { l with pc := .find k f' })
    | none => none
  -- insert
  | .new v, .alloc a =>
    if s.alive a then none
    else some (.tau, s.alloc a (some v), { l with pc := search (.insert a v) l.slots })
  | .setNext n v pred curr, .run =>
    some (.tau, s.setNext n curr, { l with pc := .link n v pred curr })
  | .link n v pred curr, .run =>
    match s.cas pred curr (some n) with
    | some s' => some (.tau, s', { l with pc := .destroy (.bool true) })
    | none => some (.tau, s, { l with pc := search (.insert n v) l.slots })
  | .deleteNew n, .run => some (.tau, s.free (some n), { l with pc := .destroy (.bool false) })
  -- erase
  | .loadNext v pred curr, .run =>
    some (.tau, s, { l with pc := .mark v pred curr (s.next curr) })
  | .mark v pred curr next, .run =>
    match s.casMark curr next with
    | some s' => some (.tau, s', { l with pc := .unlink pred curr next })
    | none => some (.tau, s, { l with pc := search (.erase v) l.slots })
  | .unlink pred curr next, .run =>
    match s.cas pred (some curr) next with
    | some s' => some (.tau, s', { l with pc := .reclaim (.bool true) (.make curr) })
    | none => some (.tau, s, { l with pc := .destroy (.bool true) })
  -- reclaim_later
  | .reclaim res r, .run =>
    match r.step false s.hazard with
    | some (h, r', freed) =>
      some (.tau, Memory.free { s with hazard := h } freed, { l with pc := .reclaim res r' })
    | none => some (.tau, s, { l with pc := .destroy res })
  | .reclaim res r, .spurious =>
    match r.step true s.hazard with
    | some (h, r', freed) =>
      some (.tau, Memory.free { s with hazard := h } freed, { l with pc := .reclaim res r' })
    | none => none
  | .elsewhere r, .run =>
    match r.step false s.hazard with
    | some (h, r', freed) =>
      some (.tau, Memory.free { s with hazard := h } freed, { l with pc := .elsewhere r' })
    | none => some (.tau, s, { l with pc := .idle })
  | .elsewhere r, .spurious =>
    match r.step true s.hazard with
    | some (h, r', freed) =>
      some (.tau, Memory.free { s with hazard := h } freed, { l with pc := .elsewhere r' })
    | none => none
  | .done r, .run => some (.ret r, s, { l with pc := .idle })
  | _, _ => none

/-- The threads that use a list. -/
def program : Program ι (Shared ι T) (Local T) (Choice T) (Op T) Res := ⟨step⟩

/-- A new list: the head sentinel and nothing else. The other containers of the process have
counted `n` retirements before. -/
def initial (n : ℕ) : Config ι (Shared ι T) (Local T) where
  shared := ⟨fun _ => none, fun _ => false, fun _ => none, fun a => a == head, fun a => a == head,
    { HazardPtr.initial ι with reclaimNodesCount := n }⟩
  loc := fun _ => ⟨[], .idle⟩

/-- A step of a run. -/
abbrev Step (ι T : Type) := Rec ι (Shared ι T) (Local T) (Op T) Res

/-- A schedule in which thread `t` begins with choice `k` and then takes `n` more steps. -/
def turn (t : ι) (k : Choice T) (n : ℕ) : List (ι × Choice T) :=
  (t, k) :: List.replicate n (t, .run)

/-! ## What a step can do -/

/-- The moves of a thread. -/
inductive Move (t : ι) (s : Shared ι T) :
    Choice T → Event (Op T) Res → Local T → Shared ι T → Local T → Prop
  | elsewhere (i) : Move t s .elsewhere .tau ⟨i, .idle⟩ s ⟨i, .elsewhere .count⟩
  | call (i o) : Move t s (.call o) (.call o) ⟨i, .idle⟩ s ⟨i, .claim o 0⟩
  | claim (o i slots) (hi : i < maxHazardPointers) (hid : s.hazard.id i = none) :
      Move t s .run .tau ⟨slots, .claim o i⟩
        { s with hazard := { s.hazard with id := Function.update s.hazard.id i (some t) } }
        ⟨i :: slots, if slots = [] then .claim o 0 else begin (i :: slots) o⟩
  | claimNext (o i slots) : Move t s .run .tau ⟨slots, .claim o i⟩ s ⟨slots, .claim o (i + 1)⟩
  | claimNone (o i slots) :
      Move t s .run .tau ⟨slots, .claim o i⟩ s ⟨slots, .destroy .noHazardPointers⟩
  | destroyed (r) : Move t s .run .tau ⟨[], .destroy r⟩ s ⟨[], .done r⟩
  | destroy (r i slots) : Move t s .run .tau ⟨i :: slots, .destroy r⟩
      { s with hazard := store s.hazard i none } ⟨i :: slots, .disown r⟩
  | disown (r i slots) : Move t s .run .tau ⟨i :: slots, .disown r⟩
      { s with hazard := release s.hazard i } ⟨slots, .destroy r⟩
  | find (i k f s' f') (ch) (hm : Find.Move (find k.value) s f s' f') :
      Move t s ch .tau ⟨i, .find k f⟩ s' ⟨i, .find k f'⟩
  | resume (i k p c found pred curr) :
      Move t s .run .tau ⟨i, .find k ⟨p, c, .result found pred curr⟩⟩ s
        ⟨i, k.resume found pred curr⟩
  | new (i v a) (ha : s.alive a = false) :
      Move t s (.alloc a) .tau ⟨i, .new v⟩ (s.alloc a (some v)) ⟨i, search (.insert a v) i⟩
  | setNext (i n v pred curr) : Move t s .run .tau ⟨i, .setNext n v pred curr⟩ (s.setNext n curr)
      ⟨i, .link n v pred curr⟩
  | link (i n v pred curr) (hn : s.next pred = curr) (hm : s.marked pred = false) :
      Move t s .run .tau ⟨i, .link n v pred curr⟩
        { s with next := Function.update s.next pred (some n) } ⟨i, .destroy (.bool true)⟩
  | linkFail (i n v pred curr) :
      Move t s .run .tau ⟨i, .link n v pred curr⟩ s ⟨i, search (.insert n v) i⟩
  | deleteNew (i n) :
      Move t s .run .tau ⟨i, .deleteNew n⟩ (s.free (some n)) ⟨i, .destroy (.bool false)⟩
  | loadNext (i v pred curr) :
      Move t s .run .tau ⟨i, .loadNext v pred curr⟩ s ⟨i, .mark v pred curr (s.next curr)⟩
  | mark (i v pred curr next) (hn : s.next curr = next) (hm : s.marked curr = false) :
      Move t s .run .tau ⟨i, .mark v pred curr next⟩
        { s with marked := Function.update s.marked curr true } ⟨i, .unlink pred curr next⟩
  | markFail (i v pred curr next) :
      Move t s .run .tau ⟨i, .mark v pred curr next⟩ s ⟨i, search (.erase v) i⟩
  | unlink (i pred curr next) (hn : s.next pred = some curr) (hm : s.marked pred = false) :
      Move t s .run .tau ⟨i, .unlink pred curr next⟩
        { s with next := Function.update s.next pred next } ⟨i, .reclaim (.bool true) (.make curr)⟩
  | unlinkFail (i pred curr next) :
      Move t s .run .tau ⟨i, .unlink pred curr next⟩ s ⟨i, .destroy (.bool true)⟩
  | reclaim (i res r sp h r' freed ch) (hs : r.step sp s.hazard = some (h, r', freed)) :
      Move t s ch .tau ⟨i, .reclaim res r⟩ (Memory.free { s with hazard := h } freed)
        ⟨i, .reclaim res r'⟩
  | reclaimed (i res) : Move t s .run .tau ⟨i, .reclaim res .finished⟩ s ⟨i, .destroy res⟩
  | sweep (i r sp h r' freed ch) (hs : r.step sp s.hazard = some (h, r', freed)) :
      Move t s ch .tau ⟨i, .elsewhere r⟩ (Memory.free { s with hazard := h } freed)
        ⟨i, .elsewhere r'⟩
  | swept (i) : Move t s .run .tau ⟨i, .elsewhere .finished⟩ s ⟨i, .idle⟩
  | ret (i r) : Move t s .run (.ret r) ⟨i, .done r⟩ s ⟨i, .idle⟩

theorem Move.resume_of {t : ι} {s : Shared ι T} {i : List ℕ} {k : Task T} {f : Find} {found : Bool}
    {pred : ℕ} {curr : Option ℕ} (hf : f.place = .result found pred curr) :
    Move t s .run .tau ⟨i, .find k f⟩ s ⟨i, k.resume found pred curr⟩ := by
  obtain ⟨p, c, place⟩ := f
  cases hf
  exact .resume i k p c found pred curr

theorem step_move {t : ι} {k : Choice T} {s s' : Shared ι T} {l l' : Local T}
    {ev : Event (Op T) Res} (hs : step t k s l = some (ev, s', l')) : Move t s k ev l s' l' := by
  obtain ⟨i, pc⟩ := l
  unfold step at hs
  split at hs <;> (try dsimp only at *) <;> (try subst_vars)
  all_goals (try unfold tryClaim at hs)
  all_goals (try unfold Memory.cas at hs)
  all_goals (try unfold Memory.casMark at hs)
  all_goals (repeat' split at hs)
  all_goals cases hs
  all_goals first
    | (constructor <;> assumption)
    | (constructor <;> simp_all)
    | exact Move.resume_of ‹_›
    | grind [Move, Find.step_move, Reclaim.step_none]

end

end Bonostl.LockfreeList
