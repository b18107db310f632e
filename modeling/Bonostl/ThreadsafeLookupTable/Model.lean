import Bonostl.Interleaving.Program

/-!
# `threadsafe_lookup_table` (`threadsafe_lookup_table.hpp`)

A bucket is a list of entries under a mutex of its own. Every operation on a bucket locks it, goes
through the list and unlocks it; here the access between lock and unlock is one step, which no other
thread can separate. `value_for`, `add_or_update_mapping` and `remove_mapping` are one such access;
`get_map` is a loop of them.

The `<` of `std::map` agrees with `==` on keys, so that a `std::map` is a partial function. The
order of its iteration is left out: nothing here iterates over one.

Out of scope: a table without buckets, where `get_bucket` divides by zero, and exceptions of the
copies, the comparisons and the hash function.
-/

namespace Bonostl.ThreadsafeLookupTable

open Interleaving

/-- A `std::map`, by what it maps each key to. -/
abbrev Map (K V : Type) := K → Option V

/-- The members: the mutex and the entries of every bucket. -/
structure Shared (ι K V : Type) where
  mutex : ℕ → Option ι
  data : ℕ → List (K × V)

/-- The operations of the table. -/
inductive Op (K V : Type) where
  | valueFor (key : K)
  | addOrUpdateMapping (key : K) (value : V)
  | removeMapping (key : K)
  | getMap
  deriving DecidableEq

/-- What an operation returns. -/
inductive Res (K V : Type) where
  | optional (o : Option V)
  | unit
  | map (m : Map K V)

/-- The operations of a bucket. -/
inductive Access (K V : Type) where
  | valueFor (key : K)
  | addOrUpdateMapping (key : K) (value : V)
  | removeMapping (key : K)
  | snapshot

/-- Where a thread stands. In `get_map`, `result` is the map collected so far; in the other
operations there is none. -/
inductive Pc (K V : Type) where
  | idle
  | next (i : ℕ) (result : Map K V)
  | lock (i : ℕ) (a : Access K V) (result : Option (Map K V))
  | access (i : ℕ) (a : Access K V) (result : Option (Map K V))
  | unlock (i : ℕ) (r : Res K V) (result : Option (Map K V))
  | done (r : Res K V)

/-- The scheduler's choice: a call, or the next step. -/
inductive Choice (K V : Type) where
  | call (o : Op K V)
  | run

variable {ι K V : Type}

/-- `merge`: the keys that are there stay as they are. -/
def merge (result m : Map K V) : Map K V := fun key => (result key).or (m key)

/-- `get_bucket` and the access to the bucket; `get_map` begins its loop. -/
def Op.begin (hash : K → ℕ) (numBuckets : ℕ) : Op K V → Pc K V
  | .valueFor key => .lock (hash key % numBuckets) (.valueFor key) none
  | .addOrUpdateMapping key value =>
    .lock (hash key % numBuckets) (.addOrUpdateMapping key value) none
  | .removeMapping key => .lock (hash key % numBuckets) (.removeMapping key) none
  | .getMap => .next 0 fun _ => none

/-- A new table. -/
def initial : Config ι (Shared ι K V) (Pc K V) where
  shared := ⟨fun _ => none, fun _ => []⟩
  loc := fun _ => .idle

/-- A step of a run. -/
abbrev Step (ι K V : Type) := Rec ι (Shared ι K V) (Pc K V) (Op K V) (Res K V)

variable [BEq K]

/-- Keys that are `==` have the same hash. -/
def Agrees (hash : K → ℕ) : Prop := ∀ key key' : K, (key == key') = true → hash key = hash key'

/-- The value of the entry `find_entry_for` finds. -/
def findEntryFor (data : List (K × V)) (key : K) : Option V :=
  (data.find? fun item => item.1 == key).map Prod.snd

/-- `found_entry->second = value`, where there is an entry. -/
def update (key : K) (value : V) : List (K × V) → List (K × V)
  | [] => []
  | item :: rest => if item.1 == key then (item.1, value) :: rest else item :: update key value rest

/-- What an operation does to the entries of its bucket, and what it returns. The range constructor
of `std::map` takes the first entry of each key. -/
def Access.act (data : List (K × V)) : Access K V → List (K × V) × Res K V
  | .valueFor key => (data, .optional (findEntryFor data key))
  | .addOrUpdateMapping key value =>
    match findEntryFor data key with
    | none => (data ++ [(key, value)], .unit)
    | some _ => (update key value data, .unit)
  | .removeMapping key => (data.eraseP fun item => item.1 == key, .unit)
  | .snapshot => (data, .map (findEntryFor data))

variable (hash : K → ℕ) (numBuckets : ℕ)

/-- One step of a thread. -/
def step (t : ι) (k : Choice K V) (s : Shared ι K V) (l : Pc K V) :
    Option (Event (Op K V) (Res K V) × Shared ι K V × Pc K V) :=
  match l, k with
  | .idle, .call o => some (.call o, s, o.begin hash numBuckets)
  | .next i result, .run =>
    if i < numBuckets then some (.tau, s, .lock i .snapshot (some result))
    else some (.tau, s, .done (.map result))
  | .lock i a result, .run =>
    match s.mutex i with
    | some _ => none
    | none =>
      some (.tau, { s with mutex := Function.update s.mutex i (some t) }, .access i a result)
  | .access i a result, .run =>
    some (.tau, { s with data := Function.update s.data i (a.act (s.data i)).1 },
      .unlock i (a.act (s.data i)).2 result)
  | .unlock i r none, .run =>
    some (.tau, { s with mutex := Function.update s.mutex i none }, .done r)
  | .unlock i (.map m) (some result), .run =>
    some (.tau, { s with mutex := Function.update s.mutex i none }, .next (i + 1) (merge result m))
  | .done r, .run => some (.ret r, s, .idle)
  | _, _ => none

/-- The threads that use a table. -/
def program : Program ι (Shared ι K V) (Pc K V) (Choice K V) (Op K V) (Res K V) :=
  ⟨step hash numBuckets⟩

/-! ## What a step can do -/

/-- The moves of a thread. -/
inductive Move (t : ι) (s : Shared ι K V) :
    Event (Op K V) (Res K V) → Pc K V → Shared ι K V → Pc K V → Prop
  | call (o) : Move t s (.call o) .idle s (o.begin hash numBuckets)
  | next (i result) (hi : i < numBuckets) :
      Move t s .tau (.next i result) s (.lock i .snapshot (some result))
  | last (i result) (hi : ¬ i < numBuckets) :
      Move t s .tau (.next i result) s (.done (.map result))
  | lock (i a result) (hm : s.mutex i = none) : Move t s .tau (.lock i a result)
      { s with mutex := Function.update s.mutex i (some t) } (.access i a result)
  | access (i a result) : Move t s .tau (.access i a result)
      { s with data := Function.update s.data i (a.act (s.data i)).1 }
      (.unlock i (a.act (s.data i)).2 result)
  | unlock (i r) : Move t s .tau (.unlock i r none)
      { s with mutex := Function.update s.mutex i none } (.done r)
  | merge (i m result) : Move t s .tau (.unlock i (.map m) (some result))
      { s with mutex := Function.update s.mutex i none } (.next (i + 1) (merge result m))
  | ret (r) : Move t s (.ret r) (.done r) s .idle

variable {hash numBuckets}

theorem step_move {t : ι} {k : Choice K V} {s s' : Shared ι K V} {l l' : Pc K V}
    {ev : Event (Op K V) (Res K V)} (hs : step hash numBuckets t k s l = some (ev, s', l')) :
    Move hash numBuckets t s ev l s' l' := by
  unfold step at hs
  split at hs
  all_goals (repeat' split at hs)
  all_goals cases hs
  all_goals (constructor <;> assumption)

end Bonostl.ThreadsafeLookupTable
