import Bonostl.EpochDomain.Model

/-!
# `concurrent_skip_list` (`concurrent_skip_list.hpp`)

One atomic access, one `lock` or one `unlock` of the source is one step. `data`, `top_level` and
`kind` of a node are never written after its construction, so reading them is not a step of its
own: `find` is one load of a link after the other, with everything it compares in between decided
in the step of the load. A node is named by its number in the order of construction (`nodes` counts
them), so the name of a deleted node is not given to another one; `alive` says which nodes have not
been deleted.

`head_` and `tail_` are never written after construction: they are the nodes `head` and `tail`.
A link that is the null pointer is not followed: a step that would do so does not exist, and
`Levels.ends` says that none is ever due.

Every operation begins with the constructor of a `guard` and ends with its destructor, and `erase`
calls `retire`. While one of the three runs, the thread stands at `Pc.domain` and takes the steps of
`EpochDomain`, which may delete nodes (`deletes`).

Out of scope: memory orders (every access is sequentially consistent), allocations that fail,
exceptions of the element's copies and comparisons, and a function given to `for_each` that throws
or calls the list.
-/

namespace Bonostl.ConcurrentSkipList

open Interleaving

/-- `max_level`. -/
def maxLevel : ℕ := 32

/-- What a node is made with: `sentinel::head` and `sentinel::tail` have no data, a node of
`sentinel::none` has an element. -/
inductive Data (T : Type) where
  | head
  | tail
  | value (x : T)
  deriving DecidableEq

/-- The node `head_`. -/
def head : ℕ := 0

/-- The node `tail_`. -/
def tail : ℕ := 1

/-- The nodes, field by field (`next` by level and node), and `domain_`. -/
structure Shared (ι T : Type) where
  data : ℕ → Data T
  topLevel : ℕ → ℕ
  next : ℕ → ℕ → Option ℕ
  mutex : ℕ → Option ι
  marked : ℕ → Bool
  fullyLinked : ℕ → Bool
  alive : ℕ → Bool
  nodes : ℕ
  domain : EpochDomain.Shared ι ℕ

/-- The operations of the list. -/
inductive Op (T : Type) where
  | insert (value : T)
  | erase (value : T)
  | contains (value : T)
  deriving DecidableEq

/-- How a call ends; `noSlots` is the `runtime_error` of `claim_slot`. -/
inductive Res where
  | bool (b : Bool)
  | noSlots
  deriving DecidableEq

/-- The operation a search belongs to. -/
inductive Task (T : Type) where
  | insert (newNode : ℕ) (value : T) (top : ℕ)
  | erase (value : T)
  | contains (value : T)

/-- The local variables of `find`. -/
structure Find where
  level : ℕ
  pred : ℕ
  preds : ℕ → ℕ
  succs : ℕ → ℕ

/-- The local variables of `insert` after a search that has found nothing. -/
structure Attempt (T : Type) where
  newNode : ℕ
  value : T
  top : ℕ
  preds : ℕ → ℕ
  succs : ℕ → ℕ

/-- What a thread does with `domain_`, and what it was called for. -/
inductive Visit (T : Type) where
  | enter (o : Op T)
  | retire
  | leave (res : Res)

/-- Where a thread stands. The places after `find` are those of `insert`, then those of `erase`,
then those of `contains`. -/
inductive Pc (T : Type) where
  | idle
  | domain (v : Visit T)
  | newNode (value : T)
  | find (k : Task T) (f : Find)
  | foundMarked (newNode : ℕ) (value : T) (top : ℕ) (found : ℕ)
  | foundLinked (newNode : ℕ) (value : T) (found : ℕ)
  | deleteNew (newNode : ℕ)
  | setNext (a : Attempt T) (l : ℕ)
  | lock (a : Attempt T) (l : ℕ)
  | predMarked (a : Attempt T) (l : ℕ)
  | succMarked (a : Attempt T) (l : ℕ)
  | predNext (a : Attempt T) (l : ℕ)
  | link (a : Attempt T) (l : ℕ)
  | setFullyLinked (a : Attempt T)
  | unlock (a : Attempt T) (l : ℕ) (valid : Bool)
  | victimLinked (value : T) (victim : ℕ)
  | victimMarked (value : T) (victim : ℕ)
  | lockVictim (value : T) (victim : ℕ)
  | recheck (value : T) (victim : ℕ)
  | mark (value : T) (victim : ℕ)
  | unlockVictim (value : T) (victim : ℕ) (isMarked : Bool)
  | splice (value : T) (victim l pred : ℕ)
  | lockPred (value : T) (victim l pred : ℕ)
  | splicePredMarked (value : T) (victim l pred : ℕ)
  | splicePredNext (value : T) (victim l pred : ℕ)
  | victimNext (value : T) (victim l pred : ℕ)
  | storeNext (value : T) (victim l pred : ℕ) (next : Option ℕ)
  | unlockPred (value : T) (victim l pred : ℕ) (spliced : Bool)
  | retire (victim : ℕ)
  | containsLinked (value : T) (found : ℕ)
  | containsMarked (value : T) (found : ℕ)
  | leave (res : Res)
  | done (res : Res)

/-- A thread: its part of `domain_`, with its guard, and where it stands. -/
structure Local (T : Type) where
  domain : EpochDomain.Local ℕ
  pc : Pc T

/-- The scheduler's choice: a call, the next step, the coins `random_level` tosses, or a spurious
failure of a weak compare-exchange. -/
inductive Choice (T : Type) where
  | call (o : Op T)
  | run
  | coins (flips : List Bool)
  | spurious

variable {ι T : Type}

/-- `random_level`: the coins that show `1` before the first `0`, at most `max_level`. -/
def randomLevel (flips : List Bool) : ℕ := min maxLevel (flips.takeWhile id).length

/-- `new node(std::move(value), top)`. -/
def Shared.alloc (s : Shared ι T) (value : T) (top : ℕ) : Shared ι T :=
  { s with data := Function.update s.data s.nodes (.value value),
           topLevel := Function.update s.topLevel s.nodes top,
           next := fun l => Function.update (s.next l) s.nodes none,
           mutex := Function.update s.mutex s.nodes none,
           marked := Function.update s.marked s.nodes false,
           fullyLinked := Function.update s.fullyLinked s.nodes false,
           alive := Function.update s.alive s.nodes true,
           nodes := s.nodes + 1 }

/-- `delete` of a node, if one is deleted. -/
def Shared.free (s : Shared ι T) : Option ℕ → Shared ι T
  | none => s
  | some a => { s with alive := Function.update s.alive a false }

/-- `a->next[l].store(p)`. -/
def Shared.setNext (s : Shared ι T) (l a : ℕ) (p : Option ℕ) : Shared ι T :=
  { s with next := Function.update s.next l (Function.update (s.next l) a p) }

/-- `a->mutex.lock()`; blocks while the mutex is held. -/
def Shared.lock (s : Shared ι T) (t : ι) (a : ℕ) : Option (Shared ι T) :=
  match s.mutex a with
  | none => some { s with mutex := Function.update s.mutex a (some t) }
  | some _ => none

/-- `a->mutex.unlock()`. -/
def Shared.unlock (s : Shared ι T) (a : ℕ) : Shared ι T :=
  { s with mutex := Function.update s.mutex a none }

/-- The start of `find`. The two arrays are not initialised; `find` fills them from the top. -/
def search (k : Task T) : Pc T := .find k ⟨maxLevel, head, fun _ => head, fun _ => head⟩

/-- The element an operation searches for. -/
def Task.value : Task T → T
  | .insert _ v _ | .erase v | .contains v => v

/-- What an operation does under its guard. -/
def begin : Op T → Pc T
  | .insert v => .newNode v
  | .erase v => search (.erase v)
  | .contains v => search (.contains v)

/-- What follows a visit to `domain_`. An operation that gets no guard throws. -/
def Visit.resume : Visit T → EpochDomain.Res → Pc T
  | .enter _, .noSlots => .done .noSlots
  | .enter o, _ => begin o
  | .retire, _ => .leave (.bool true)
  | .leave r, _ => .done r

/-- What an operation does with the result of its search. -/
def Task.resume (f : Find) (found : Option ℕ) : Task T → Pc T
  | .insert n v top =>
    match found with
    | some x => .foundMarked n v top x
    | none => .setNext ⟨n, v, top, f.preds, f.succs⟩ 0
  | .erase v =>
    match found with
    | some x => .victimLinked v x
    | none => .leave (.bool false)
  | .contains v =>
    match found with
    | some x => .containsLinked v x
    | none => .leave (.bool false)

/-- The locking loop of `insert` at level `l`, with `valid` still true. A predecessor that is the
one of the level below is already locked. -/
def lockFrom (a : Attempt T) (l : ℕ) : Pc T :=
  if l ≤ a.top then
    if l = 0 ∨ a.preds l ≠ a.preds (l - 1) then .lock a l else .predMarked a l
  else .link a 0

/-- `unlock_preds` with the levels below `n` left, and what follows it: the return, or the next
attempt with the same node. -/
def unlockFrom (a : Attempt T) (valid : Bool) : ℕ → Pc T
  | 0 => if valid then .leave (.bool true) else search (.insert a.newNode a.value a.top)
  | l + 1 => if l = 0 ∨ a.preds l ≠ a.preds (l - 1) then .unlock a l valid else unlockFrom a valid l

/-- The splicing loop of `erase` with the levels below `n` left. -/
def spliceFrom (value : T) (victim : ℕ) : ℕ → Pc T
  | 0 => .retire victim
  | l + 1 => .splice value victim l head

/-- The node a step of `domain_` deletes. -/
def deletes (d : EpochDomain.Local ℕ) : Option ℕ :=
  match d.pc with
  | .sweep m (n :: _) => if n.retireEpoch < m then some n.ptr else none
  | _ => none

/-- A step of `domain_`, after which the thread stands at `pc` of what the domain shows. -/
def visit (w : ℕ) (t : ι) (k : EpochDomain.Choice ℕ) (s : Shared ι T) (d : EpochDomain.Local ℕ)
    (ev : Event (Op T) Res) (pc : Event (EpochDomain.Op ℕ) EpochDomain.Res → Pc T) :
    Option (Event (Op T) Res × Shared ι T × Local T) :=
  match EpochDomain.step w t k s.domain d with
  | some (e, s', d') => some (ev, Shared.free { s with domain := s' } (deletes d), ⟨d', pc e⟩)
  | none => none

/-- Where a visit goes on: it has come to its end, or not. -/
def Visit.after (v : Visit T) : Event (EpochDomain.Op ℕ) EpochDomain.Res → Pc T
  | .ret r => v.resume r
  | _ => .domain v

section
variable [LT T] [DecidableLT T]

/-- `!curr->is_tail() && *curr->data < key`; nothing links to the head, which stands before every
element. -/
def precedes (key : T) : Data T → Bool
  | .head => true
  | .tail => false
  | .value x => decide (x < key)

/-- `!candidate->is_tail() && !(key < *candidate->data) && !(*candidate->data < key)`. -/
def equals (key : T) : Data T → Bool
  | .value x => decide (¬ key < x ∧ ¬ x < key)
  | _ => false

/-- The step of `find` that has loaded `curr` from `pred->next[level]`: go on along the level, or
record the level and go one down, or return the candidate. -/
def Find.load (k : Task T) (s : Shared ι T) (f : Find) (curr : ℕ) : Pc T :=
  if precedes k.value (s.data curr) then .find k { f with pred := curr }
  else
    let f' := { f with preds := Function.update f.preds f.level f.pred,
                       succs := Function.update f.succs f.level curr }
    match f.level with
    | 0 => k.resume f' (if equals k.value (s.data curr) then some curr else none)
    | l + 1 => .find k { f' with level := l }

/-- One step of a thread. -/
def step (w : ℕ) (t : ι) (k : Choice T) (s : Shared ι T) (l : Local T) :
    Option (Event (Op T) Res × Shared ι T × Local T) :=
  match l.pc, k with
  | .idle, .call o => visit w t (.call .enter) s l.domain (.call o) fun _ => .domain (.enter o)
  | .domain v, .run => visit w t .run s l.domain .tau v.after
  | .domain v, .spurious => visit w t .spurious s l.domain .tau v.after
  | .leave r, .run =>
    match l.domain.guards with
    | [] => none
    | i :: _ => visit w t (.call (.leave i)) s l.domain .tau fun _ => .domain (.leave r)
  | .done r, .run => some (.ret r, s, { l with pc := .idle })
  | .find k f, .run =>
    match s.next f.level f.pred with
    | some curr => some (.tau, s, { l with pc := f.load k s curr })
    | none => none
  -- insert
  | .newNode v, .coins flips =>
    some (.tau, s.alloc v (randomLevel flips),
      { l with pc := search (.insert s.nodes v (randomLevel flips)) })
  | .foundMarked n v top x, .run =>
    some (.tau, s,
      { l with pc := if s.marked x then search (.insert n v top) else .foundLinked n v x })
  | .foundLinked n v x, .run =>
    some (.tau, s, { l with pc := if s.fullyLinked x then .deleteNew n else .foundLinked n v x })
  | .deleteNew n, .run => some (.tau, s.free (some n), { l with pc := .leave (.bool false) })
  | .setNext a i, .run =>
    some (.tau, s.setNext i a.newNode (some (a.succs i)),
      { l with pc := if i < a.top then .setNext a (i + 1) else lockFrom a 0 })
  | .lock a i, .run =>
    match s.lock t (a.preds i) with
    | some s' => some (.tau, s', { l with pc := .predMarked a i })
    | none => none
  | .predMarked a i, .run =>
    some (.tau, s,
      { l with pc := if s.marked (a.preds i) then unlockFrom a false (i + 1) else .succMarked a i })
  | .succMarked a i, .run =>
    some (.tau, s,
      { l with pc := if s.marked (a.succs i) then unlockFrom a false (i + 1) else .predNext a i })
  | .predNext a i, .run =>
    some (.tau, s,
      { l with
        pc :=
          if s.next i (a.preds i) = some (a.succs i) then lockFrom a (i + 1)
          else unlockFrom a false (i + 1) })
  | .link a i, .run =>
    some (.tau, s.setNext i (a.preds i) (some a.newNode),
      { l with pc := if i < a.top then .link a (i + 1) else .setFullyLinked a })
  | .setFullyLinked a, .run =>
    some (.tau, { s with fullyLinked := Function.update s.fullyLinked a.newNode true },
      { l with pc := unlockFrom a true (a.top + 1) })
  | .unlock a i valid, .run =>
    some (.tau, s.unlock (a.preds i), { l with pc := unlockFrom a valid i })
  -- erase; the outer loop is over once `is_marked` is set
  | .victimLinked v x, .run =>
    some (.tau, s,
      { l with pc := if s.fullyLinked x then .victimMarked v x else search (.erase v) })
  | .victimMarked v x, .run =>
    some (.tau, s, { l with pc := if s.marked x then .leave (.bool false) else .lockVictim v x })
  | .lockVictim v x, .run =>
    match s.lock t x with
    | some s' => some (.tau, s', { l with pc := .recheck v x })
    | none => none
  | .recheck v x, .run =>
    some (.tau, s, { l with pc := if s.marked x then .unlockVictim v x false else .mark v x })
  | .mark v x, .run =>
    some (.tau, { s with marked := Function.update s.marked x true },
      { l with pc := .unlockVictim v x true })
  | .unlockVictim v x isMarked, .run =>
    some (.tau, s.unlock x,
      { l with pc := if isMarked then spliceFrom v x (s.topLevel x + 1) else .leave (.bool false) })
  | .splice v x i pred, .run =>
    match s.next i pred with
    | some curr => some (.tau, s,
        { l with
          pc :=
            if curr = x then .lockPred v x i pred
            else if precedes v (s.data curr) then .splice v x i curr
            else spliceFrom v x i })
    | none => none
  | .lockPred v x i pred, .run =>
    match s.lock t pred with
    | some s' => some (.tau, s', { l with pc := .splicePredMarked v x i pred })
    | none => none
  | .splicePredMarked v x i pred, .run =>
    some (.tau, s,
      { l with
        pc := if s.marked pred then .unlockPred v x i pred false else .splicePredNext v x i pred })
  | .splicePredNext v x i pred, .run =>
    some (.tau, s,
      { l with
        pc :=
          if s.next i pred = some x then .victimNext v x i pred
          else .unlockPred v x i pred false })
  | .victimNext v x i pred, .run =>
    some (.tau, s, { l with pc := .storeNext v x i pred (s.next i x) })
  | .storeNext v x i pred next, .run =>
    some (.tau, s.setNext i pred next, { l with pc := .unlockPred v x i pred true })
  | .unlockPred v x i pred spliced, .run =>
    some (.tau, s.unlock pred,
      { l with pc := if spliced then spliceFrom v x i else .splice v x i head })
  | .retire x, .run => visit w t (.call (.retire x)) s l.domain .tau fun _ => .domain .retire
  -- contains
  | .containsLinked v x, .run =>
    some (.tau, s,
      { l with pc := if s.fullyLinked x then .containsMarked v x else .leave (.bool false) })
  | .containsMarked _ x, .run =>
    some (.tau, s, { l with pc := .leave (.bool !(s.marked x)) })
  | _, _ => none

/-- `concurrent_skip_list<T>` whose domain has `w`-bit epochs. -/
def program (w : ℕ) : Program ι (Shared ι T) (Local T) (Choice T) (Op T) Res := ⟨step w⟩

end

/-- A new list: the two sentinels, linked at every level. -/
def initial : Config ι (Shared ι T) (Local T) where
  shared :=
    { data := fun a => if a = tail then .tail else .head
      topLevel := fun _ => maxLevel
      next := fun l a => if a = head ∧ l ≤ maxLevel then some tail else none
      mutex := fun _ => none
      marked := fun _ => false
      fullyLinked := fun _ => false
      alive := fun a => a == head || a == tail
      nodes := 2
      domain := EpochDomain.initial (ι := ι).shared }
  loc := fun _ => ⟨⟨[], .idle⟩, .idle⟩

/-! ## What a step can do -/

section
variable [LT T] [DecidableLT T]

/-- The moves of a thread. -/
inductive Move (w : ℕ) (t : ι) (s : Shared ι T) :
    Event (Op T) Res → Local T → Shared ι T → Local T → Prop
  | call (g o) : Move w t s (.call o) ⟨⟨g, .idle⟩, .idle⟩ s ⟨⟨g, .claimSlot 0⟩, .domain (.enter o)⟩
  | domain (v d s' d') (hm : EpochDomain.Move w t s.domain d s' d') (hd : ∀ r, d.pc ≠ .done r) :
      Move w t s .tau ⟨d, .domain v⟩ (Shared.free { s with domain := s' } (deletes d))
        ⟨d', .domain v⟩
  | domainEnd (v g r) : Move w t s .tau ⟨⟨g, .done r⟩, .domain v⟩ s ⟨⟨g, .idle⟩, v.resume r⟩
  | leave (i g r) :
      Move w t s .tau ⟨⟨i :: g, .idle⟩, .leave r⟩ s ⟨⟨i :: g, .deactivate i⟩, .domain (.leave r)⟩
  | retire (g x) : Move w t s .tau ⟨⟨g, .idle⟩, .retire x⟩
      { s with domain := { s.domain with retires := s.domain.retires + 1 } }
      ⟨⟨g, .retire s.domain.retires x⟩, .domain .retire⟩
  | ret (d r) : Move w t s (.ret r) ⟨d, .done r⟩ s ⟨d, .idle⟩
  | walk (d k l pred preds succs curr) (hn : s.next l pred = some curr)
      (hp : precedes k.value (s.data curr) = true) :
      Move w t s .tau ⟨d, .find k ⟨l, pred, preds, succs⟩⟩ s ⟨d, .find k ⟨l, curr, preds, succs⟩⟩
  | descend (d k l pred preds succs curr) (hn : s.next (l + 1) pred = some curr)
      (hp : precedes k.value (s.data curr) = false) :
      Move w t s .tau ⟨d, .find k ⟨l + 1, pred, preds, succs⟩⟩ s
        ⟨d, .find k ⟨l, pred, Function.update preds (l + 1) pred,
          Function.update succs (l + 1) curr⟩⟩
  | found (d k pred preds succs curr) (hn : s.next 0 pred = some curr)
      (hp : precedes k.value (s.data curr) = false) (he : equals k.value (s.data curr) = true) :
      Move w t s .tau ⟨d, .find k ⟨0, pred, preds, succs⟩⟩ s
        ⟨d, k.resume ⟨0, pred, Function.update preds 0 pred, Function.update succs 0 curr⟩
          (some curr)⟩
  | notFound (d k pred preds succs curr) (hn : s.next 0 pred = some curr)
      (hp : precedes k.value (s.data curr) = false) (he : equals k.value (s.data curr) = false) :
      Move w t s .tau ⟨d, .find k ⟨0, pred, preds, succs⟩⟩ s
        ⟨d, k.resume ⟨0, pred, Function.update preds 0 pred, Function.update succs 0 curr⟩ none⟩
  | newNode (d v top) (ht : top ≤ maxLevel) :
      Move w t s .tau ⟨d, .newNode v⟩ (s.alloc v top) ⟨d, search (.insert s.nodes v top)⟩
  | foundMarked (d n v top x) (hm : s.marked x = true) :
      Move w t s .tau ⟨d, .foundMarked n v top x⟩ s ⟨d, search (.insert n v top)⟩
  | foundUnmarked (d n v top x) (hm : s.marked x = false) :
      Move w t s .tau ⟨d, .foundMarked n v top x⟩ s ⟨d, .foundLinked n v x⟩
  | foundLinked (d n v x) (hf : s.fullyLinked x = true) :
      Move w t s .tau ⟨d, .foundLinked n v x⟩ s ⟨d, .deleteNew n⟩
  | foundWaits (d n v x) (hf : s.fullyLinked x = false) :
      Move w t s .tau ⟨d, .foundLinked n v x⟩ s ⟨d, .foundLinked n v x⟩
  | deleteNew (d n) : Move w t s .tau ⟨d, .deleteNew n⟩ (s.free (some n)) ⟨d, .leave (.bool false)⟩
  | setNext (d a i) (hi : i < a.top) : Move w t s .tau ⟨d, .setNext a i⟩
      (s.setNext i a.newNode (some (a.succs i))) ⟨d, .setNext a (i + 1)⟩
  | setLast (d a i) (hi : a.top ≤ i) : Move w t s .tau ⟨d, .setNext a i⟩
      (s.setNext i a.newNode (some (a.succs i))) ⟨d, lockFrom a 0⟩
  | lock (d a i) (hm : s.mutex (a.preds i) = none) : Move w t s .tau ⟨d, .lock a i⟩
      { s with mutex := Function.update s.mutex (a.preds i) (some t) } ⟨d, .predMarked a i⟩
  | predMarked (d a i) (hm : s.marked (a.preds i) = true) :
      Move w t s .tau ⟨d, .predMarked a i⟩ s ⟨d, unlockFrom a false (i + 1)⟩
  | predUnmarked (d a i) (hm : s.marked (a.preds i) = false) :
      Move w t s .tau ⟨d, .predMarked a i⟩ s ⟨d, .succMarked a i⟩
  | succMarked (d a i) (hm : s.marked (a.succs i) = true) :
      Move w t s .tau ⟨d, .succMarked a i⟩ s ⟨d, unlockFrom a false (i + 1)⟩
  | succUnmarked (d a i) (hm : s.marked (a.succs i) = false) :
      Move w t s .tau ⟨d, .succMarked a i⟩ s ⟨d, .predNext a i⟩
  | predNext (d a i) (hn : s.next i (a.preds i) = some (a.succs i)) :
      Move w t s .tau ⟨d, .predNext a i⟩ s ⟨d, lockFrom a (i + 1)⟩
  | predNextFail (d a i) : Move w t s .tau ⟨d, .predNext a i⟩ s ⟨d, unlockFrom a false (i + 1)⟩
  | link (d a i) (hi : i < a.top) : Move w t s .tau ⟨d, .link a i⟩
      (s.setNext i (a.preds i) (some a.newNode)) ⟨d, .link a (i + 1)⟩
  | linkLast (d a i) (hi : a.top ≤ i) : Move w t s .tau ⟨d, .link a i⟩
      (s.setNext i (a.preds i) (some a.newNode)) ⟨d, .setFullyLinked a⟩
  | setFullyLinked (d a) : Move w t s .tau ⟨d, .setFullyLinked a⟩
      { s with fullyLinked := Function.update s.fullyLinked a.newNode true }
      ⟨d, unlockFrom a true (a.top + 1)⟩
  | unlock (d a i valid) :
      Move w t s .tau ⟨d, .unlock a i valid⟩ (s.unlock (a.preds i)) ⟨d, unlockFrom a valid i⟩
  | victimLinked (d v x) (hf : s.fullyLinked x = true) :
      Move w t s .tau ⟨d, .victimLinked v x⟩ s ⟨d, .victimMarked v x⟩
  | victimUnlinked (d v x) : Move w t s .tau ⟨d, .victimLinked v x⟩ s ⟨d, search (.erase v)⟩
  | victimMarked (d v x) (hm : s.marked x = true) :
      Move w t s .tau ⟨d, .victimMarked v x⟩ s ⟨d, .leave (.bool false)⟩
  | victimUnmarked (d v x) : Move w t s .tau ⟨d, .victimMarked v x⟩ s ⟨d, .lockVictim v x⟩
  | lockVictim (d v x) (hm : s.mutex x = none) : Move w t s .tau ⟨d, .lockVictim v x⟩
      { s with mutex := Function.update s.mutex x (some t) } ⟨d, .recheck v x⟩
  | recheckMarked (d v x) (hm : s.marked x = true) :
      Move w t s .tau ⟨d, .recheck v x⟩ s ⟨d, .unlockVictim v x false⟩
  | recheckUnmarked (d v x) (hm : s.marked x = false) :
      Move w t s .tau ⟨d, .recheck v x⟩ s ⟨d, .mark v x⟩
  | mark (d v x) : Move w t s .tau ⟨d, .mark v x⟩
      { s with marked := Function.update s.marked x true } ⟨d, .unlockVictim v x true⟩
  | unlockVictim (d v x) : Move w t s .tau ⟨d, .unlockVictim v x true⟩ (s.unlock x)
      ⟨d, spliceFrom v x (s.topLevel x + 1)⟩
  | unlockMarked (d v x) : Move w t s .tau ⟨d, .unlockVictim v x false⟩ (s.unlock x)
      ⟨d, .leave (.bool false)⟩
  | spliceFound (d v x i pred) (hn : s.next i pred = some x) :
      Move w t s .tau ⟨d, .splice v x i pred⟩ s ⟨d, .lockPred v x i pred⟩
  | spliceWalk (d v x i pred curr) (hn : s.next i pred = some curr) (hx : curr ≠ x)
      (hp : precedes v (s.data curr) = true) :
      Move w t s .tau ⟨d, .splice v x i pred⟩ s ⟨d, .splice v x i curr⟩
  | spliceMissed (d v x i pred curr) (hn : s.next i pred = some curr) (hx : curr ≠ x)
      (hp : precedes v (s.data curr) = false) :
      Move w t s .tau ⟨d, .splice v x i pred⟩ s ⟨d, spliceFrom v x i⟩
  | lockPred (d v x i pred) (hm : s.mutex pred = none) : Move w t s .tau ⟨d, .lockPred v x i pred⟩
      { s with mutex := Function.update s.mutex pred (some t) } ⟨d, .splicePredMarked v x i pred⟩
  | splicePredMarked (d v x i pred) (hm : s.marked pred = true) :
      Move w t s .tau ⟨d, .splicePredMarked v x i pred⟩ s ⟨d, .unlockPred v x i pred false⟩
  | splicePredUnmarked (d v x i pred) (hm : s.marked pred = false) :
      Move w t s .tau ⟨d, .splicePredMarked v x i pred⟩ s ⟨d, .splicePredNext v x i pred⟩
  | splicePredNext (d v x i pred) (hn : s.next i pred = some x) :
      Move w t s .tau ⟨d, .splicePredNext v x i pred⟩ s ⟨d, .victimNext v x i pred⟩
  | splicePredNextFail (d v x i pred) :
      Move w t s .tau ⟨d, .splicePredNext v x i pred⟩ s ⟨d, .unlockPred v x i pred false⟩
  | victimNext (d v x i pred) : Move w t s .tau ⟨d, .victimNext v x i pred⟩ s
      ⟨d, .storeNext v x i pred (s.next i x)⟩
  | storeNext (d v x i pred next) : Move w t s .tau ⟨d, .storeNext v x i pred next⟩
      (s.setNext i pred next) ⟨d, .unlockPred v x i pred true⟩
  | unlockSpliced (d v x i pred) : Move w t s .tau ⟨d, .unlockPred v x i pred true⟩ (s.unlock pred)
      ⟨d, spliceFrom v x i⟩
  | unlockRetry (d v x i pred) : Move w t s .tau ⟨d, .unlockPred v x i pred false⟩ (s.unlock pred)
      ⟨d, .splice v x i head⟩
  | containsLinked (d v x) (hf : s.fullyLinked x = true) :
      Move w t s .tau ⟨d, .containsLinked v x⟩ s ⟨d, .containsMarked v x⟩
  | containsUnlinked (d v x) (hf : s.fullyLinked x = false) :
      Move w t s .tau ⟨d, .containsLinked v x⟩ s ⟨d, .leave (.bool false)⟩
  | containsMarked (d v x) :
      Move w t s .tau ⟨d, .containsMarked v x⟩ s ⟨d, .leave (.bool !(s.marked x))⟩

variable {w : ℕ} {t : ι} {s s' : Shared ι T} {l l' : Local T} {ev : Event (Op T) Res}

/-- A step inside a visit to the domain, or the last one. -/
theorem visit_move {k : EpochDomain.Choice ℕ} {d : EpochDomain.Local ℕ} {v : Visit T}
    (hc : ∀ o, k ≠ .call o) (hs : visit w t k s d .tau v.after = some (ev, s', l')) :
    Move w t s ev ⟨d, .domain v⟩ s' l' := by
  unfold visit at hs
  split at hs
  · rename_i e s₁ d₁ he
    cases hs
    rcases EpochDomain.step_ev he with ⟨o, rfl⟩ | ⟨r, rfl, hd, rfl, rfl⟩ | ⟨rfl, hd⟩
    · exact absurd rfl (hc o)
    · obtain ⟨g, pc⟩ := d
      obtain rfl : pc = .done r := hd
      exact .domainEnd v g r
    · exact .domain v d _ _ (EpochDomain.step_move he) hd
  · cases hs

theorem find_move {d : EpochDomain.Local ℕ} {k : Task T} {f : Find} {curr : ℕ}
    (hn : s.next f.level f.pred = some curr) :
    Move w t s .tau ⟨d, .find k f⟩ s ⟨d, f.load k s curr⟩ := by
  obtain ⟨level, pred, preds, succs⟩ := f
  unfold Find.load
  split
  · exact .walk d k level pred preds succs curr hn ‹_›
  · rename_i hp
    have hp : precedes k.value (s.data curr) = false := eq_false_of_ne_true hp
    cases level with
    | succ l => exact .descend d k l pred preds succs curr hn hp
    | zero =>
      cases he : equals k.value (s.data curr) with
      | true => simpa [he] using Move.found d k pred preds succs curr hn hp he
      | false => simpa [he] using Move.notFound d k pred preds succs curr hn hp he

omit [LT T] [DecidableLT T] in
/-- A visit to the domain begins. -/
theorem visit_call {o : EpochDomain.Op ℕ} {d : EpochDomain.Local ℕ} {e : Event (Op T) Res}
    {pc : Pc T}
    (hs : visit w t (.call o) s d e (fun _ => pc) = some (ev, s', l')) :
    ∃ g e' s₁ d₁, d = ⟨g, .idle⟩ ∧
      EpochDomain.step w t (.call o) s.domain ⟨g, .idle⟩ = some (e', s₁, d₁) ∧
      ev = e ∧ s' = { s with domain := s₁ } ∧ l' = ⟨d₁, pc⟩ := by
  unfold visit at hs
  split at hs
  · rename_i e' s₁ d₁ he
    obtain ⟨g, p⟩ := d
    obtain rfl : p = .idle := EpochDomain.step_call he
    cases hs
    exact ⟨g, e', s₁, d₁, rfl, he, rfl, rfl, rfl⟩
  · cases hs

theorem lock_move {a : ℕ} {l₁ : Local T}
    (hm : s.mutex a = none →
      Move w t s .tau l { s with mutex := Function.update s.mutex a (some t) } l₁)
    (hs : (match s.lock t a with
      | some s' => some (.tau, s', l₁)
      | none => none) = some (ev, s', l')) : Move w t s ev l s' l' := by
  unfold Shared.lock at hs
  cases hn : s.mutex a with
  | none =>
    rw [hn] at hs
    cases hs
    exact hm hn
  | some u => rw [hn] at hs; cases hs

theorem step_move {k : Choice T} (hs : step w t k s l = some (ev, s', l')) :
    Move w t s ev l s' l' := by
  obtain ⟨d, pc⟩ := l
  unfold step at hs
  cases pc with
  | idle =>
    cases k with
    | call o =>
      obtain ⟨g, e', s₁, d₁, rfl, he, rfl, rfl, rfl⟩ := visit_call hs
      cases he
      exact .call g o
    | _ => cases hs
  | domain v =>
    cases k with
    | run | spurious => exact visit_move (by simp) hs
    | _ => cases hs
  | leave r =>
    cases k with
    | run =>
      obtain ⟨gs, p⟩ := d
      cases gs with
      | nil => cases hs
      | cons i g =>
        obtain ⟨g', e', s₁, d₁, hd, he, rfl, rfl, rfl⟩ := visit_call hs
        cases hd
        dsimp only [EpochDomain.step] at he
        rw [if_pos List.mem_cons_self] at he
        cases he
        exact .leave i g r
    | _ => cases hs
  | retire x =>
    cases k with
    | run =>
      obtain ⟨g, e', s₁, d₁, rfl, he, rfl, rfl, rfl⟩ := visit_call hs
      cases he
      exact .retire g x
    | _ => cases hs
  | find task f =>
    cases k with
    | run =>
      dsimp only at hs
      split at hs
      · cases hs; exact find_move ‹_›
      · cases hs
    | _ => cases hs
  | splice v x i pred =>
    cases k with
    | run =>
      dsimp only at hs
      split at hs
      · cases hs
        rename_i curr hn
        split
        · subst_vars; exact .spliceFound d v curr i pred hn
        · split
          · exact .spliceWalk d v x i pred curr hn ‹_› ‹_›
          · exact .spliceMissed d v x i pred curr hn ‹_› (eq_false_of_ne_true ‹_›)
      · cases hs
    | _ => cases hs
  | lock a i =>
    cases k with
    | run => exact lock_move (.lock d a i) hs
    | _ => cases hs
  | lockVictim v x =>
    cases k with
    | run => exact lock_move (.lockVictim d v x) hs
    | _ => cases hs
  | lockPred v x i pred =>
    cases k with
    | run => exact lock_move (.lockPred d v x i pred) hs
    | _ => cases hs
  | newNode v =>
    cases k with
    | coins flips => cases hs; exact .newNode d v _ (min_le_left _ _)
    | _ => cases hs
  | unlockVictim v x m =>
    cases k with
    | run => cases m <;> cases hs <;> constructor
    | _ => cases hs
  | unlockPred v x i pred m =>
    cases k with
    | run => cases m <;> cases hs <;> constructor
    | _ => cases hs
  | foundMarked | foundLinked | predMarked | succMarked | predNext | setNext | link | victimLinked |
      victimMarked | recheck | splicePredMarked | splicePredNext | containsLinked =>
    -- a load whose value is tested, or the end of a loop
    cases k <;> cases hs
    split
    · constructor
      assumption
    · constructor <;> first | exact eq_false_of_ne_true ‹_› | exact Nat.not_lt.mp ‹_›
  | done | deleteNew | setFullyLinked | unlock | mark | victimNext | storeNext | containsMarked =>
    cases k <;> cases hs
    constructor

end

end Bonostl.ConcurrentSkipList
