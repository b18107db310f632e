import Bonostl.HazardPtr.Model
import Bonostl.Interleaving.Program

/-!
# `lockfree_stack` (`lockfree_stack.hpp`)

One atomic access of the source is one step; the accesses to a node that only its own thread can
reach are taken together with the atomic access beside them. Nodes live at addresses: `alive` says
which addresses hold a node, and `new` takes any address that holds none (`Choice.alloc`), so an
address may be used again after its node was deleted. `data` and `next` keep what was last written
at an address, so that a step on a deleted node goes on with what it finds there.

`get_hazard_pointer_for_current_thread` is the thread's own `hp_owner`: it claims a slot at the
thread's first `pop` (`Local.slot`), or throws when all are taken, and gives it back when the thread
ends (`Op.exit`). Moving out of `data` leaves the optional engaged, so `pop` does not change it.

Out of scope: memory orders (every access is sequentially consistent), allocations that fail, and
exceptions of the element's copies and moves.
-/

namespace Bonostl.LockfreeStack

open Interleaving HazardPtr

/-- The stack's `head`, the memory of its nodes, and the hazard registry. -/
structure Shared (ι V : Type) where
  head : Option ℕ
  alive : ℕ → Bool
  data : ℕ → Option V
  next : ℕ → Option ℕ
  hazard : HazardPtr.Shared ι

/-- The operations, with the end of a thread that owns a slot and a sweep that is started from
elsewhere (`reclaim_nodes_count` and `nodes_to_reclaim` are shared by the whole process). -/
inductive Op (V : Type) where
  | push (value : V)
  | pop
  | deleteNodesWithNoHazards
  | exit
  deriving DecidableEq

/-- How a call ends; `noHazardPointers` is the `runtime_error` of `hp_owner`. -/
inductive Res (V : Type) where
  | unit
  | popped (result : Option V)
  | noHazardPointers
  deriving DecidableEq

/-- Where a thread stands. `hp` is the slot `pop` holds a reference to. -/
inductive Pc (V : Type) where
  | idle
  | pushNew (value : V)
  | pushLoad (newNode : ℕ)
  | pushCas (newNode : ℕ)
  | claim (i : ℕ)
  | popLoad (hp : ℕ)
  | popStore (hp : ℕ) (oldHead : Option ℕ)
  | popReload (hp : ℕ) (temp : Option ℕ)
  | popNext (hp : ℕ) (oldHead : ℕ)
  | popCas (hp : ℕ) (oldHead : ℕ) (next : Option ℕ)
  | popClear (hp : ℕ) (oldHead : Option ℕ)
  | popData (oldHead : ℕ)
  | popScan (oldHead : ℕ) (result : Option V) (i : ℕ)
  | popDelete (oldHead : ℕ) (result : Option V)
  | deleteNodes
  | reclaim (res : Res V) (r : Reclaim)
  | exitPointer (hp : ℕ)
  | exitId (hp : ℕ)
  | done (r : Res V)
  deriving DecidableEq

/-- A thread: the slot its `hp_owner` holds and where it stands. -/
structure Local (V : Type) where
  slot : Option ℕ
  pc : Pc V
  deriving DecidableEq

/-- The scheduler's choice: a call, the next step, the address `new` returns, or a spurious failure
of a weak compare-exchange. -/
inductive Choice (V : Type) where
  | call (o : Op V)
  | run
  | alloc (a : ℕ)
  | spurious
  deriving DecidableEq

variable {ι V : Type}

/-- `outstanding_hazard_pointers_for` at slot `i`: the next slot, or the end of the scan. -/
def scanFrom (oldHead : ℕ) (result : Option V) (i : ℕ) : Pc V :=
  if i < maxHazardPointers then .popScan oldHead result i else .popDelete oldHead result

/-- The memory after `delete` of a node, if one was deleted. -/
def free (s : Shared ι V) : Option ℕ → Shared ι V
  | none => s
  | some a => { s with alive := Function.update s.alive a false }

/-- One step of a thread. -/
def step (t : ι) (k : Choice V) (s : Shared ι V) (l : Local V) :
    Option (Event (Op V) (Res V) × Shared ι V × Local V) :=
  match l.pc, k with
  | .idle, .call (.push v) => some (.call (.push v), s, { l with pc := .pushNew v })
  | .idle, .call .pop =>
    match l.slot with
    | none => some (.call .pop, s, { l with pc := .claim 0 })
    | some i => some (.call .pop, s, { l with pc := .popLoad i })
  | .idle, .call .deleteNodesWithNoHazards =>
    some (.call .deleteNodesWithNoHazards, s, { l with pc := .deleteNodes })
  | .idle, .call .exit =>
    match l.slot with
    | none => none
    | some i => some (.call .exit, s, { l with pc := .exitPointer i })
  -- push
  | .pushNew v, .alloc a =>
    if s.alive a then none
    else some (.tau, { s with alive := Function.update s.alive a true,
                              data := Function.update s.data a (some v),
                              next := Function.update s.next a none },
      { l with pc := .pushLoad a })
  | .pushLoad n, .run =>
    some (.tau, { s with next := Function.update s.next n s.head }, { l with pc := .pushCas n })
  | .pushCas n, .run =>
    if s.head = s.next n then some (.tau, { s with head := some n }, { l with pc := .done .unit })
    else
      some (.tau, { s with next := Function.update s.next n s.head }, { l with pc := .pushCas n })
  | .pushCas n, .spurious =>
    some (.tau, { s with next := Function.update s.next n s.head }, { l with pc := .pushCas n })
  -- hp_owner
  | .claim i, .run =>
    if i < maxHazardPointers then
      match tryClaim s.hazard t i with
      | some h => some (.tau, { s with hazard := h }, ⟨some i, .popLoad i⟩)
      | none => some (.tau, s, { l with pc := .claim (i + 1) })
    else some (.tau, s, { l with pc := .done .noHazardPointers })
  | .exitPointer i, .run =>
    some (.tau, { s with hazard := store s.hazard i none }, { l with pc := .exitId i })
  | .exitId i, .run =>
    some (.tau, { s with hazard := release s.hazard i }, ⟨none, .done .unit⟩)
  -- pop
  | .popLoad hp, .run => some (.tau, s, { l with pc := .popStore hp s.head })
  | .popStore hp old, .run =>
    some (.tau, { s with hazard := store s.hazard hp old }, { l with pc := .popReload hp old })
  | .popReload hp temp, .run =>
    if s.head = temp then
      match s.head with
      | none => some (.tau, s, { l with pc := .popClear hp none })
      | some a => some (.tau, s, { l with pc := .popNext hp a })
    else some (.tau, s, { l with pc := .popStore hp s.head })
  | .popNext hp a, .run => some (.tau, s, { l with pc := .popCas hp a (s.next a) })
  | .popCas hp a next, .run =>
    if s.head = some a then
      some (.tau, { s with head := next }, { l with pc := .popClear hp (some a) })
    else some (.tau, s, { l with pc := .popStore hp s.head })
  | .popClear hp none, .run =>
    some (.tau, { s with hazard := store s.hazard hp none }, { l with pc := .done (.popped none) })
  | .popClear hp (some a), .run =>
    some (.tau, { s with hazard := store s.hazard hp none }, { l with pc := .popData a })
  | .popData a, .run => some (.tau, s, { l with pc := scanFrom a (s.data a) 0 })
  | .popScan a r i, .run =>
    if s.hazard.pointer i = some a then
      some (.tau, s, { l with pc := .reclaim (.popped r) (.make a) })
    else some (.tau, s, { l with pc := scanFrom a r (i + 1) })
  | .popDelete a r, .run => some (.tau, free s (some a), { l with pc := .done (.popped r) })
  -- reclaim_later, delete_nodes_with_no_hazards
  | .deleteNodes, .run => some (.tau, s, { l with pc := .reclaim .unit .takeList })
  | .reclaim r rc, .run =>
    match rc.step false s.hazard with
    | some (h, rc', freed) =>
      some (.tau, free { s with hazard := h } freed, { l with pc := .reclaim r rc' })
    | none => some (.tau, s, { l with pc := .done r })
  | .reclaim r rc, .spurious =>
    match rc.step true s.hazard with
    | some (h, rc', freed) =>
      some (.tau, free { s with hazard := h } freed, { l with pc := .reclaim r rc' })
    | none => none
  | .done r, .run => some (.ret r, s, { l with pc := .idle })
  | _, _ => none

/-- The threads that use a stack. -/
def program : Program ι (Shared ι V) (Local V) (Choice V) (Op V) (Res V) := ⟨step⟩

/-- An empty stack, no slot claimed, no memory in use. -/
def initial : Config ι (Shared ι V) (Local V) where
  shared := ⟨none, fun _ => false, fun _ => none, fun _ => none, HazardPtr.initial ι⟩
  loc := fun _ => ⟨none, .idle⟩

/-! ## What a step can do -/

/-- The moves of a thread. `pushRetry` stands for both ways the weak compare-exchange fails. -/
inductive Move (t : ι) (s : Shared ι V) :
    Event (Op V) (Res V) → Local V → Shared ι V → Local V → Prop
  | push (i v) : Move t s (.call (.push v)) ⟨i, .idle⟩ s ⟨i, .pushNew v⟩
  | popFirst : Move t s (.call .pop) ⟨none, .idle⟩ s ⟨none, .claim 0⟩
  | pop (i) : Move t s (.call .pop) ⟨some i, .idle⟩ s ⟨some i, .popLoad i⟩
  | deleteNodes (i) : Move t s (.call .deleteNodesWithNoHazards) ⟨i, .idle⟩ s ⟨i, .deleteNodes⟩
  | exit (i) : Move t s (.call .exit) ⟨some i, .idle⟩ s ⟨some i, .exitPointer i⟩
  | new (i v a) (ha : s.alive a = false) : Move t s .tau ⟨i, .pushNew v⟩
      { s with alive := Function.update s.alive a true,
               data := Function.update s.data a (some v),
               next := Function.update s.next a none } ⟨i, .pushLoad a⟩
  | pushLoad (i n) : Move t s .tau ⟨i, .pushLoad n⟩
      { s with next := Function.update s.next n s.head } ⟨i, .pushCas n⟩
  | pushCas (i n) (hn : s.head = s.next n) :
      Move t s .tau ⟨i, .pushCas n⟩ { s with head := some n } ⟨i, .done .unit⟩
  | pushRetry (i n) : Move t s .tau ⟨i, .pushCas n⟩
      { s with next := Function.update s.next n s.head } ⟨i, .pushCas n⟩
  | claim (o i) (hi : i < maxHazardPointers) (hid : s.hazard.id i = none) :
      Move t s .tau ⟨o, .claim i⟩
        { s with hazard := { s.hazard with id := Function.update s.hazard.id i (some t) } }
        ⟨some i, .popLoad i⟩
  | claimNext (o i) : Move t s .tau ⟨o, .claim i⟩ s ⟨o, .claim (i + 1)⟩
  | claimNone (o i) : Move t s .tau ⟨o, .claim i⟩ s ⟨o, .done .noHazardPointers⟩
  | exitPointer (o i) : Move t s .tau ⟨o, .exitPointer i⟩
      { s with hazard := store s.hazard i none } ⟨o, .exitId i⟩
  | exitId (o i) : Move t s .tau ⟨o, .exitId i⟩
      { s with hazard := release s.hazard i } ⟨none, .done .unit⟩
  | popLoad (i hp) : Move t s .tau ⟨i, .popLoad hp⟩ s ⟨i, .popStore hp s.head⟩
  | popStore (i hp old) : Move t s .tau ⟨i, .popStore hp old⟩
      { s with hazard := store s.hazard hp old } ⟨i, .popReload hp old⟩
  | popEmpty (i hp) (hh : s.head = none) :
      Move t s .tau ⟨i, .popReload hp none⟩ s ⟨i, .popClear hp none⟩
  | popValid (i hp a) (hh : s.head = some a) :
      Move t s .tau ⟨i, .popReload hp (some a)⟩ s ⟨i, .popNext hp a⟩
  | popAgain (i hp temp) : Move t s .tau ⟨i, .popReload hp temp⟩ s ⟨i, .popStore hp s.head⟩
  | popNext (i hp a) : Move t s .tau ⟨i, .popNext hp a⟩ s ⟨i, .popCas hp a (s.next a)⟩
  | popCas (i hp a next) (hh : s.head = some a) : Move t s .tau ⟨i, .popCas hp a next⟩
      { s with head := next } ⟨i, .popClear hp (some a)⟩
  | popRetry (i hp a next) : Move t s .tau ⟨i, .popCas hp a next⟩ s ⟨i, .popStore hp s.head⟩
  | popNone (i hp) : Move t s .tau ⟨i, .popClear hp none⟩
      { s with hazard := store s.hazard hp none } ⟨i, .done (.popped none)⟩
  | popSome (i hp a) : Move t s .tau ⟨i, .popClear hp (some a)⟩
      { s with hazard := store s.hazard hp none } ⟨i, .popData a⟩
  | popData (i a) : Move t s .tau ⟨i, .popData a⟩ s ⟨i, scanFrom a (s.data a) 0⟩
  | popLater (i a r j) : Move t s .tau ⟨i, .popScan a r j⟩ s ⟨i, .reclaim (.popped r) (.make a)⟩
  | popScan (i a r j) (hj : s.hazard.pointer j ≠ some a) :
      Move t s .tau ⟨i, .popScan a r j⟩ s ⟨i, scanFrom a r (j + 1)⟩
  | popDelete (i a r) :
      Move t s .tau ⟨i, .popDelete a r⟩ (free s (some a)) ⟨i, .done (.popped r)⟩
  | takeList (i) : Move t s .tau ⟨i, .deleteNodes⟩ s ⟨i, .reclaim .unit .takeList⟩
  | reclaim (i r rc sp h rc' freed) (hs : rc.step sp s.hazard = some (h, rc', freed)) :
      Move t s .tau ⟨i, .reclaim r rc⟩ (free { s with hazard := h } freed) ⟨i, .reclaim r rc'⟩
  | reclaimed (i r rc) (hs : rc.step false s.hazard = none) :
      Move t s .tau ⟨i, .reclaim r rc⟩ s ⟨i, .done r⟩
  | ret (i r) : Move t s (.ret r) ⟨i, .done r⟩ s ⟨i, .idle⟩

theorem step_move {t : ι} {k : Choice V} {s s' : Shared ι V} {l l' : Local V}
    {ev : Event (Op V) (Res V)} (hs : step t k s l = some (ev, s', l')) : Move t s ev l s' l' := by
  obtain ⟨i, pc⟩ := l
  unfold step at hs
  split at hs <;> (try dsimp only at *) <;> (try subst_vars)
  all_goals (try unfold tryClaim at hs)
  all_goals (repeat' split at hs)
  all_goals cases hs
  all_goals first
    | (constructor <;> assumption)
    | (constructor <;> simp_all)
    | grind [Move]

end Bonostl.LockfreeStack
