import Bonostl.HarrisMichael.Find
import Bonostl.Interleaving.Program
import Bonostl.LockfreeHashMap.SplitOrder

/-!
# `lockfree_hash_map` (`lockfree_hash_map.hpp`)

The map's nodes are the `HarrisMichael.Memory` with a split key and an optional key as data; a
sentinel has no key. `value` is the one field of a node that is written later, and only by atomic
stores: it is kept beside the memory, empty for sentinels. `head_` is the node at address `head`.
The map is generic in the key, the value and the hash function.

`find_bucket` calls itself on the parent bucket. A thread inside it has the stack of the buckets
that wait for the sentinel of the first one's parent (`bs`), and below it the operation `o` that
asked for the sentinel. `find_from` is `HarrisMichael.Find`; `Search` says which call of it is
running.

Each operation and each `find_bucket` has two `hp_owner`s, `hp_pred` and then `hp_curr`. They claim
slots one compare-exchange at a time, or throw; `Local.slots` are the slots of all of them, newest
first, and `destroy m` gives the newest `m` back. An exception unwinds all of them.
`Choice.elsewhere` is a `reclaim_later` that another container calls on a node of its own.

The operands of the comparison after `put` has linked its node are evaluated from left to right.

Out of scope: memory orders (every access is sequentially consistent), allocations that fail, and
exceptions of the copies, the comparisons and the hash function.
-/

namespace Bonostl.LockfreeHashMap

open Interleaving HazardPtr HarrisMichael

/-- The constant fields of a node. -/
structure Data (K : Type) where
  splitKey : Word
  key : Option K
  deriving DecidableEq

/-- The memory of the nodes, the values of the data nodes, and `bucket_count_` and `size_`. -/
structure Shared (ι K V : Type) where
  mem : Memory ι (Data K)
  values : ℕ → Option V
  bucketCount : Word
  size : Word

/-- The address of `head_`, the sentinel of bucket 0. -/
def head : ℕ := 0

/-- The operations of the map. -/
inductive Op (K V : Type) where
  | put (key : K) (value : V)
  | get (key : K)
  | erase (key : K)
  | contains (key : K)
  deriving DecidableEq

/-- How a call ends; `noHazardPointers` is the `runtime_error` of `hp_owner`. -/
inductive Res (V : Type) where
  | bool (b : Bool)
  | value (v : Option V)
  | noHazardPointers
  deriving DecidableEq

/-- Who constructs its two `hp_owner`s. -/
inductive Owner (K V : Type) where
  | op (o : Op K V)
  | bucket (o : Op K V) (b : Word) (bs : List Word)
  | put (key : K) (value : V) (sentinel newNode : ℕ)
  deriving DecidableEq

/-- What an operation does at the node it looks for. -/
inductive Job (K V : Type) where
  | put (key : K) (value : V) (newNode : ℕ)
  | get (key : K)
  | erase (key : K)
  | contains (key : K)
  deriving DecidableEq

/-- A call of `find_from`: by `find_sentinel`, by `find_bucket` from the parent's sentinel, or from
the sentinel of the operation's own bucket. -/
inductive Search (K V : Type) where
  | sentinel (o : Op K V) (b : Word) (bs : List Word)
  | anchor (o : Op K V) (b : Word) (bs : List Word) (parentSentinel new : ℕ)
  | data (sentinel : ℕ) (j : Job K V)
  deriving DecidableEq

/-- The node that is to be linked in: a sentinel, or the node of a `put`. -/
inductive Link (K V : Type) where
  | sentinel (o : Op K V) (b : Word) (bs : List Word) (new : ℕ)
  | put (key : K) (value : V) (sentinel newNode : ℕ)
  deriving DecidableEq

/-- Where a thread goes on when its `hp_owner`s are destroyed: `find_bucket` of `b` has returned the
sentinel `n`, or the operation is over. -/
inductive After (K V : Type) where
  | bucket (o : Op K V) (b : Word) (bs : List Word) (n : ℕ)
  | result (r : Res V)
  deriving DecidableEq

/-- Where a thread stands. -/
inductive Pc (K V : Type) where
  | idle
  | claim (w : Owner K V) (second : Bool) (i : ℕ)
  | bucketOf (o : Op K V)
  | find (w : Search K V) (f : Find)
  | newSentinel (o : Op K V) (b : Word) (bs : List Word) (parentSentinel : ℕ)
  | newNode (key : K) (value : V) (sentinel : ℕ)
  | setNext (w : Link K V) (pred : ℕ) (curr : Option ℕ)
  | link (w : Link K V) (pred : ℕ) (curr : Option ℕ)
  | deleteSentinel (o : Op K V) (b : Word) (bs : List Word) (new : ℕ)
  | storeValue (key : K) (value : V) (newNode curr : ℕ)
  | deleteNode (newNode : ℕ)
  | fetchAdd
  | compareCount (size : Word)
  | growCount
  | growSize (count : Word)
  | growCas (count : Word)
  | loadValue (key : K) (curr : ℕ)
  | loadNext (key : K) (pred curr : ℕ)
  | mark (key : K) (pred curr : ℕ) (next : Option ℕ)
  | unlink (pred curr : ℕ) (next : Option ℕ)
  | reclaim (r : Reclaim)
  | fetchSub
  | elsewhere (r : Reclaim)
  | destroy (m : ℕ) (a : After K V)
  | disown (m : ℕ) (a : After K V)
  | done (r : Res V)
  deriving DecidableEq

/-- A thread: the slots of its `hp_owner`s, the newest first, and where it stands. -/
structure Local (K V : Type) where
  slots : List ℕ
  pc : Pc K V
  deriving DecidableEq

/-- The scheduler's choice: a call, a `reclaim_later` of another container, the next step, the
address `new` returns, or a spurious failure of a weak compare-exchange. -/
inductive Choice (K V : Type) where
  | call (o : Op K V)
  | elsewhere
  | run
  | alloc (a : ℕ)
  | spurious
  deriving DecidableEq

variable {ι K V : Type}

/-- A search with the newest two slots, `hp_pred` and `hp_curr` in the order of construction. -/
def search (w : Search K V) (slots : List ℕ) : Pc K V :=
  .find w ⟨slots.getD 1 0, slots.getD 0 0, .start⟩

/-- `find_bucket`, up to its `hp_owner`s. -/
def findBucket (o : Op K V) (b : Word) (bs : List Word) : Pc K V :=
  if b = 0 then .destroy 0 (.bucket o 0 bs head) else .claim (.bucket o b bs) false 0

/-- The start of an operation. -/
def begin : Op K V → Pc K V
  | .put key value => .bucketOf (.put key value)
  | o => .claim (.op o) false 0

/-- What follows the construction of the two `hp_owner`s. -/
def Owner.resume (slots : List ℕ) : Owner K V → Pc K V
  | .op o => .bucketOf o
  | .bucket o b bs => search (.sentinel o b bs) slots
  | .put key value sentinel newNode => search (.data sentinel (.put key value newNode)) slots

/-- What an operation does with the sentinel of its bucket. -/
def Op.resume (slots : List ℕ) (sentinel : ℕ) : Op K V → Pc K V
  | .put key value => .newNode key value sentinel
  | .get key => search (.data sentinel (.get key)) slots
  | .erase key => search (.data sentinel (.erase key)) slots
  | .contains key => search (.data sentinel (.contains key)) slots

/-- Where a thread goes on after the destruction. -/
def After.resume (slots : List ℕ) : After K V → Pc K V
  | .bucket o _ [] n => o.resume slots n
  | .bucket o _ (b :: bs) n => .newSentinel o b bs n
  | .result r => .done r

/-- What an operation does with the result of its search. -/
def Job.resume (sentinel : ℕ) (found : Bool) (pred : ℕ) (curr : Option ℕ) : Job K V → Pc K V
  | .put key value n =>
    match found, curr with
    | true, some c => .storeValue key value n c
    | _, _ => .setNext (.put key value sentinel n) pred curr
  | .get key =>
    match found, curr with
    | true, some c => .loadValue key c
    | _, _ => .destroy 2 (.result (.value none))
  | .erase key =>
    match found, curr with
    | true, some c => .loadNext key pred c
    | _, _ => .destroy 2 (.result (.bool false))
  | .contains _ => .destroy 2 (.result (.bool found))

/-- `curr_out != nullptr && curr_out->split_key == split_key && !curr_out->key.has_value()`. -/
def isSentinel (s : Shared ι K V) (splitKey : Word) : Option ℕ → Bool
  | some c => (s.mem.data c).splitKey == splitKey && (s.mem.data c).key.isNone
  | none => false

/-- What the caller of `find_from` does with its result. -/
def Search.resume (s : Shared ι K V) (found : Bool) (pred : ℕ) (curr : Option ℕ) :
    Search K V → Pc K V
  | .sentinel o b bs =>
    match curr with
    | some c =>
      if isSentinel s (bucketSplitKey b) (some c) then .destroy 2 (.bucket o b bs c)
      else findBucket o (parent b) (b :: bs)
    | none => findBucket o (parent b) (b :: bs)
  | .anchor o b bs _ new => .setNext (.sentinel o b bs new) pred curr
  | .data start j => j.resume start found pred curr

/-- The node to be linked in. -/
def Link.node : Link K V → ℕ
  | .sentinel _ _ _ new | .put _ _ _ new => new

/-- What follows the compare-exchange that links a node in. -/
def Link.linked : Link K V → Pc K V
  | .sentinel o b bs new => .destroy 2 (.bucket o b bs new)
  | .put _ _ _ _ => .fetchAdd

/-- What follows the compare-exchange when it has failed. -/
def Link.failed (slots : List ℕ) : Link K V → Pc K V
  | .sentinel o b bs new => .deleteSentinel o b bs new
  | .put key value start n => search (.data start (.put key value n)) slots

/-- The key it looks for. -/
def Job.key : Job K V → K
  | .put key _ _ | .get key | .erase key | .contains key => key

/-- `new node(split_key)` at address `a`. -/
def Shared.newSentinel (s : Shared ι K V) (a : ℕ) (splitKey : Word) : Shared ι K V :=
  { s with
    mem := s.mem.alloc a ⟨splitKey, none⟩
    values := Function.update s.values a none }

/-- `new node(split_key, key, value)` at address `a`. -/
def Shared.newNode (s : Shared ι K V) (a : ℕ) (splitKey : Word) (key : K) (value : V) :
    Shared ι K V :=
  { s with
    mem := s.mem.alloc a ⟨splitKey, some key⟩
    values := Function.update s.values a (some value) }

section
variable [LT K] [DecidableLT K]

/-- `find_from` goes on past this node. -/
def precedes (splitKey : Word) (key : K) (d : Data K) : Bool :=
  !(decide (splitKey < d.splitKey) || (d.splitKey == splitKey &&
    match d.key with
    | none => true
    | some k => !decide (k < key)))

/-- `curr` is a data node equal to `(split_key, key)`. -/
def equals (splitKey : Word) (key : K) (d : Data K) : Bool :=
  d.splitKey == splitKey &&
    match d.key with
    | none => false
    | some k => !decide (key < k) && !decide (k < key)

/-- `find_from(start, split_key, key, …)`; only data nodes are handed to `reclaim_later`. -/
def findFrom (start : ℕ) (splitKey : Word) (key : K) : Query (Data K) :=
  ⟨start, precedes splitKey key, equals splitKey key, fun d => d.key.isSome⟩

variable [Inhabited K] (hash : K → Word)

/-- What a search looks for. A sentinel is looked for with a default-constructed key. -/
def Search.query : Search K V → Query (Data K)
  | .sentinel _ b _ => findFrom head (bucketSplitKey b) default
  | .anchor _ b _ parentSentinel _ => findFrom parentSentinel (bucketSplitKey b) default
  | .data start j => findFrom start (dataSplitKey (hash j.key)) j.key

/-- The key an operation hashes. -/
def Op.key : Op K V → K
  | .put key _ | .get key | .erase key | .contains key => key

/-- One step of a thread. -/
def step (t : ι) (k : Choice K V) (s : Shared ι K V) (l : Local K V) :
    Option (Event (Op K V) (Res V) × Shared ι K V × Local K V) :=
  match l.pc, k with
  | .idle, .elsewhere => some (.tau, s, { l with pc := .elsewhere .count })
  | .idle, .call o => some (.call o, s, { l with pc := begin o })
  -- hp_owner
  | .claim w second i, .run =>
    if i < maxHazardPointers then
      match tryClaim s.mem.hazard t i with
      | some h => some (.tau, { s with mem := { s.mem with hazard := h } },
          ⟨i :: l.slots, if second then w.resume (i :: l.slots) else .claim w true 0⟩)
      | none => some (.tau, s, { l with pc := .claim w second (i + 1) })
    else some (.tau, s, { l with pc := .destroy l.slots.length (.result .noHazardPointers) })
  | .destroy 0 a, .run => some (.tau, s, { l with pc := a.resume l.slots })
  | .destroy (m + 1) a, .run =>
    match l.slots with
    | [] => none
    | i :: _ => some (.tau, { s with mem := { s.mem with hazard := store s.mem.hazard i none } },
        { l with pc := .disown m a })
  | .disown m a, .run =>
    match l.slots with
    | [] => none
    | i :: rest => some (.tau, { s with mem := { s.mem with hazard := release s.mem.hazard i } },
        ⟨rest, .destroy m a⟩)
  -- bucket_of
  | .bucketOf o, .run =>
    some (.tau, s, { l with pc := findBucket o (bucketOf s.bucketCount (hash o.key)) [] })
  -- find_from
  | .find w f, .run =>
    match f.step (w.query hash) false s.mem with
    | some (m, f') => some (.tau, { s with mem := m }, { l with pc := .find w f' })
    | none =>
      match f.place with
      | .result found pred curr => some (.tau, s, { l with pc := w.resume s found pred curr })
      | _ => none
  | .find w f, .spurious =>
    match f.step (w.query hash) true s.mem with
    | some (m, f') => some (.tau, { s with mem := m }, { l with pc := .find w f' })
    | none => none
  -- new node
  | .newSentinel o b bs parentSentinel, .alloc a =>
    if s.mem.alive a then none
    else some (.tau, s.newSentinel a (bucketSplitKey b),
      { l with pc := search (.anchor o b bs parentSentinel a) l.slots })
  | .newNode key value sentinel, .alloc a =>
    if s.mem.alive a then none
    else some (.tau, s.newNode a (dataSplitKey (hash key)) key value,
      { l with pc := .claim (.put key value sentinel a) false 0 })
  -- find_bucket, put
  | .setNext w pred curr, .run =>
    some (.tau, { s with mem := s.mem.setNext w.node curr }, { l with pc := .link w pred curr })
  | .link w pred curr, .run =>
    match s.mem.cas pred curr (some w.node) with
    | some m => some (.tau, { s with mem := m }, { l with pc := w.linked })
    | none => some (.tau, s, { l with pc := w.failed l.slots })
  | .deleteSentinel o b bs new, .run =>
    some (.tau, { s with mem := s.mem.free (some new) },
      { l with pc := search (.sentinel o b bs) l.slots })
  | .storeValue _ _ n curr, .run =>
    some (.tau, { s with values := Function.update s.values curr (s.values n) },
      { l with pc := .deleteNode n })
  | .deleteNode n, .run =>
    some (.tau, { s with mem := s.mem.free (some n) },
      { l with pc := .destroy 2 (.result (.bool false)) })
  | .fetchAdd, .run =>
    some (.tau, { s with size := s.size + 1 }, { l with pc := .compareCount (s.size + 1) })
  | .compareCount n, .run =>
    if s.bucketCount < n then some (.tau, s, { l with pc := .growCount })
    else some (.tau, s, { l with pc := .destroy 2 (.result (.bool true)) })
  -- grow
  | .growCount, .run => some (.tau, s, { l with pc := .growSize s.bucketCount })
  | .growSize count, .run =>
    if s.size ≤ count then some (.tau, s, { l with pc := .destroy 2 (.result (.bool true)) })
    else some (.tau, s, { l with pc := .growCas count })
  | .growCas count, .run =>
    if s.bucketCount = count then
      some (.tau, { s with bucketCount := count * 2 },
        { l with pc := .destroy 2 (.result (.bool true)) })
    else some (.tau, s, { l with pc := .destroy 2 (.result (.bool true)) })
  -- get
  | .loadValue _ curr, .run =>
    some (.tau, s, { l with pc := .destroy 2 (.result (.value (s.values curr))) })
  -- erase
  | .loadNext key pred curr, .run =>
    some (.tau, s, { l with pc := .mark key pred curr (s.mem.next curr) })
  | .mark key pred curr next, .run =>
    match s.mem.casMark curr next with
    | some m => some (.tau, { s with mem := m }, { l with pc := .unlink pred curr next })
    | none => some (.tau, s, { l with pc := .bucketOf (.erase key) })
  | .unlink pred curr next, .run =>
    match s.mem.cas pred (some curr) next with
    | some m => some (.tau, { s with mem := m }, { l with pc := .reclaim (.make curr) })
    | none => some (.tau, s, { l with pc := .fetchSub })
  | .fetchSub, .run =>
    some (.tau, { s with size := s.size - 1 }, { l with pc := .destroy 2 (.result (.bool true)) })
  -- reclaim_later
  | .reclaim r, .run =>
    match r.step false s.mem.hazard with
    | some (h, r', freed) =>
      some (.tau, { s with mem := Memory.free { s.mem with hazard := h } freed },
        { l with pc := .reclaim r' })
    | none => some (.tau, s, { l with pc := .fetchSub })
  | .reclaim r, .spurious =>
    match r.step true s.mem.hazard with
    | some (h, r', freed) =>
      some (.tau, { s with mem := Memory.free { s.mem with hazard := h } freed },
        { l with pc := .reclaim r' })
    | none => none
  | .elsewhere r, .run =>
    match r.step false s.mem.hazard with
    | some (h, r', freed) =>
      some (.tau, { s with mem := Memory.free { s.mem with hazard := h } freed },
        { l with pc := .elsewhere r' })
    | none => some (.tau, s, { l with pc := .idle })
  | .elsewhere r, .spurious =>
    match r.step true s.mem.hazard with
    | some (h, r', freed) =>
      some (.tau, { s with mem := Memory.free { s.mem with hazard := h } freed },
        { l with pc := .elsewhere r' })
    | none => none
  | .done r, .run => some (.ret r, s, { l with pc := .idle })
  | _, _ => none

/-- The threads that use a map. -/
def program : Program ι (Shared ι K V) (Local K V) (Choice K V) (Op K V) (Res V) := ⟨step hash⟩
end

/-- A new map with `count` buckets: the sentinel of bucket 0 and nothing else. The other containers
of the process have counted `n` retirements before. -/
def initial (count : Word) (n : ℕ) : Config ι (Shared ι K V) (Local K V) where
  shared := ⟨⟨fun _ => none, fun _ => false, fun _ => ⟨bucketSplitKey 0, none⟩, fun a => a == head,
    fun a => a == head, { HazardPtr.initial ι with reclaimNodesCount := n }⟩, fun _ => none,
    count, 0⟩
  loc := fun _ => ⟨[], .idle⟩

/-- A step of a run. -/
abbrev Step (ι K V : Type) := Rec ι (Shared ι K V) (Local K V) (Op K V) (Res V)

/-- A schedule in which thread `t` makes the choices `ks` and then takes `n` more steps. -/
def turn (t : ι) (ks : List (Choice K V)) (n : ℕ) : List (ι × Choice K V) :=
  ks.map (t, ·) ++ List.replicate n (t, .run)

/-! ## What a step can do -/

/-- Another value of the hazard registry. -/
def Shared.setHazard (s : Shared ι K V) (h : HazardPtr.Shared ι) : Shared ι K V :=
  { s with mem := { s.mem with hazard := h } }

section
variable [LT K] [DecidableLT K] [Inhabited K] (hash : K → Word)

/-- The moves of a thread. -/
inductive Move (t : ι) (s : Shared ι K V) :
    Choice K V → Event (Op K V) (Res V) → Local K V → Shared ι K V → Local K V → Prop
  | elsewhere (i) : Move t s .elsewhere .tau ⟨i, .idle⟩ s ⟨i, .elsewhere .count⟩
  | call (i o) : Move t s (.call o) (.call o) ⟨i, .idle⟩ s ⟨i, begin o⟩
  | claim (w second i slots) (hi : i < maxHazardPointers) (hid : s.mem.hazard.id i = none) :
      Move t s .run .tau ⟨slots, .claim w second i⟩
        (s.setHazard { s.mem.hazard with id := Function.update s.mem.hazard.id i (some t) })
        ⟨i :: slots, if second then w.resume (i :: slots) else .claim w true 0⟩
  | claimNext (w second i slots) :
      Move t s .run .tau ⟨slots, .claim w second i⟩ s ⟨slots, .claim w second (i + 1)⟩
  | claimNone (w second i slots) : Move t s .run .tau ⟨slots, .claim w second i⟩ s
      ⟨slots, .destroy slots.length (.result .noHazardPointers)⟩
  | destroyed (slots a) : Move t s .run .tau ⟨slots, .destroy 0 a⟩ s ⟨slots, a.resume slots⟩
  | destroy (i slots m a) : Move t s .run .tau ⟨i :: slots, .destroy (m + 1) a⟩
      (s.setHazard (store s.mem.hazard i none)) ⟨i :: slots, .disown m a⟩
  | disown (i slots m a) : Move t s .run .tau ⟨i :: slots, .disown m a⟩
      (s.setHazard (release s.mem.hazard i)) ⟨slots, .destroy m a⟩
  | bucketOf (i o) : Move t s .run .tau ⟨i, .bucketOf o⟩ s
      ⟨i, findBucket o (bucketOf s.bucketCount (hash o.key)) []⟩
  | find (i w f m f') (ch) (hm : Find.Move (w.query hash) s.mem f m f') :
      Move t s ch .tau ⟨i, .find w f⟩ { s with mem := m } ⟨i, .find w f'⟩
  | resume (i w p c found pred curr) :
      Move t s .run .tau ⟨i, .find w ⟨p, c, .result found pred curr⟩⟩ s
        ⟨i, w.resume s found pred curr⟩
  | newSentinel (i o b bs p a) (ha : s.mem.alive a = false) :
      Move t s (.alloc a) .tau ⟨i, .newSentinel o b bs p⟩ (s.newSentinel a (bucketSplitKey b))
        ⟨i, search (.anchor o b bs p a) i⟩
  | newNode (i key value n a) (ha : s.mem.alive a = false) :
      Move t s (.alloc a) .tau ⟨i, .newNode key value n⟩
        (s.newNode a (dataSplitKey (hash key)) key value) ⟨i, .claim (.put key value n a) false 0⟩
  | setNext (i w pred curr) : Move t s .run .tau ⟨i, .setNext w pred curr⟩
      { s with mem := s.mem.setNext w.node curr } ⟨i, .link w pred curr⟩
  | link (i w pred curr) (hn : s.mem.next pred = curr) (hm : s.mem.marked pred = false) :
      Move t s .run .tau ⟨i, .link w pred curr⟩
        { s with mem := { s.mem with next := Function.update s.mem.next pred (some w.node) } }
        ⟨i, w.linked⟩
  | linkFail (i w pred curr) : Move t s .run .tau ⟨i, .link w pred curr⟩ s ⟨i, w.failed i⟩
  | deleteSentinel (i o b bs n) : Move t s .run .tau ⟨i, .deleteSentinel o b bs n⟩
      { s with mem := s.mem.free (some n) } ⟨i, search (.sentinel o b bs) i⟩
  | storeValue (i key value n curr) : Move t s .run .tau ⟨i, .storeValue key value n curr⟩
      { s with values := Function.update s.values curr (s.values n) } ⟨i, .deleteNode n⟩
  | deleteNode (i n) : Move t s .run .tau ⟨i, .deleteNode n⟩ { s with mem := s.mem.free (some n) }
      ⟨i, .destroy 2 (.result (.bool false))⟩
  | fetchAdd (i) : Move t s .run .tau ⟨i, .fetchAdd⟩ { s with size := s.size + 1 }
      ⟨i, .compareCount (s.size + 1)⟩
  | grow (i n) (hn : s.bucketCount < n) : Move t s .run .tau ⟨i, .compareCount n⟩ s ⟨i, .growCount⟩
  | growNot (i n) (hn : ¬ s.bucketCount < n) : Move t s .run .tau ⟨i, .compareCount n⟩ s
      ⟨i, .destroy 2 (.result (.bool true))⟩
  | growCount (i) : Move t s .run .tau ⟨i, .growCount⟩ s ⟨i, .growSize s.bucketCount⟩
  | growSize (i count) (hn : ¬ s.size ≤ count) :
      Move t s .run .tau ⟨i, .growSize count⟩ s ⟨i, .growCas count⟩
  | growEnough (i count) (hn : s.size ≤ count) : Move t s .run .tau ⟨i, .growSize count⟩ s
      ⟨i, .destroy 2 (.result (.bool true))⟩
  | growCas (i count) (hc : s.bucketCount = count) : Move t s .run .tau ⟨i, .growCas count⟩
      { s with bucketCount := count * 2 } ⟨i, .destroy 2 (.result (.bool true))⟩
  | growCasFail (i count) : Move t s .run .tau ⟨i, .growCas count⟩ s
      ⟨i, .destroy 2 (.result (.bool true))⟩
  | loadValue (i key curr) : Move t s .run .tau ⟨i, .loadValue key curr⟩ s
      ⟨i, .destroy 2 (.result (.value (s.values curr)))⟩
  | loadNext (i key pred curr) : Move t s .run .tau ⟨i, .loadNext key pred curr⟩ s
      ⟨i, .mark key pred curr (s.mem.next curr)⟩
  | mark (i key pred curr next) (hn : s.mem.next curr = next) (hm : s.mem.marked curr = false) :
      Move t s .run .tau ⟨i, .mark key pred curr next⟩
        { s with mem := { s.mem with marked := Function.update s.mem.marked curr true } }
        ⟨i, .unlink pred curr next⟩
  | markFail (i key pred curr next) : Move t s .run .tau ⟨i, .mark key pred curr next⟩ s
      ⟨i, .bucketOf (.erase key)⟩
  | unlink (i pred curr next) (hn : s.mem.next pred = some curr) (hm : s.mem.marked pred = false) :
      Move t s .run .tau ⟨i, .unlink pred curr next⟩
        { s with mem := { s.mem with next := Function.update s.mem.next pred next } }
        ⟨i, .reclaim (.make curr)⟩
  | unlinkFail (i pred curr next) :
      Move t s .run .tau ⟨i, .unlink pred curr next⟩ s ⟨i, .fetchSub⟩
  | fetchSub (i) : Move t s .run .tau ⟨i, .fetchSub⟩ { s with size := s.size - 1 }
      ⟨i, .destroy 2 (.result (.bool true))⟩
  | reclaim (i r sp h r' freed ch) (hs : r.step sp s.mem.hazard = some (h, r', freed)) :
      Move t s ch .tau ⟨i, .reclaim r⟩
        { s with mem := Memory.free { s.mem with hazard := h } freed } ⟨i, .reclaim r'⟩
  | reclaimed (i) : Move t s .run .tau ⟨i, .reclaim .finished⟩ s ⟨i, .fetchSub⟩
  | sweep (i r sp h r' freed ch) (hs : r.step sp s.mem.hazard = some (h, r', freed)) :
      Move t s ch .tau ⟨i, .elsewhere r⟩
        { s with mem := Memory.free { s.mem with hazard := h } freed } ⟨i, .elsewhere r'⟩
  | swept (i) : Move t s .run .tau ⟨i, .elsewhere .finished⟩ s ⟨i, .idle⟩
  | ret (i r) : Move t s .run (.ret r) ⟨i, .done r⟩ s ⟨i, .idle⟩

theorem Move.resume_of {t : ι} {s : Shared ι K V} {i : List ℕ} {w : Search K V} {f : Find}
    {found : Bool} {pred : ℕ} {curr : Option ℕ} (hf : f.place = .result found pred curr) :
    Move hash t s .run .tau ⟨i, .find w f⟩ s ⟨i, w.resume s found pred curr⟩ := by
  obtain ⟨p, c, place⟩ := f
  cases hf
  exact .resume i w p c found pred curr

theorem Move.claim_of {t : ι} {s : Shared ι K V} {w : Owner K V} {second : Bool} {i : ℕ}
    {slots : List ℕ} {h : HazardPtr.Shared ι} (hi : i < maxHazardPointers)
    (hc : tryClaim s.mem.hazard t i = some h) :
    Move hash t s .run .tau ⟨slots, .claim w second i⟩ (s.setHazard h)
      ⟨i :: slots, if second then w.resume (i :: slots) else .claim w true 0⟩ := by
  unfold tryClaim at hc
  split at hc
  · cases hc
    exact .claim w second i slots hi ‹_›
  · cases hc

theorem step_move {t : ι} {k : Choice K V} {s s' : Shared ι K V} {l l' : Local K V}
    {ev : Event (Op K V) (Res V)} (hs : step hash t k s l = some (ev, s', l')) :
    Move hash t s k ev l s' l' := by
  obtain ⟨i, pc⟩ := l
  unfold step at hs
  split at hs <;> (try dsimp only at *) <;> (try subst_vars)
  case h_3 w second j =>
    split at hs
    · split at hs
      · cases hs; exact .claim_of hash ‹_› ‹_›
      · cases hs; exact .claimNext w second j i
    · cases hs; exact .claimNone w second j i
  all_goals (try unfold Memory.cas at hs)
  all_goals (try unfold Memory.casMark at hs)
  all_goals (repeat' split at hs)
  all_goals cases hs
  all_goals first
    | (constructor <;> assumption)
    | (constructor <;> simp_all)
    | exact Move.resume_of hash ‹_›
    | grind [Move, Find.step_move, Reclaim.step_none, Shared.setHazard]
end

end Bonostl.LockfreeHashMap
