import Mathlib.Algebra.Group.Nat.Defs
import Mathlib.Data.List.Nodup
import Mathlib.Logic.Function.Basic

/-!
# Hazard pointers (`hazard_ptr.hpp`)

The registry `hazard_pointers`, the shared list `nodes_to_reclaim` and the counter
`reclaim_nodes_count`, with one atomic access of the source as one step. The containers of this
library embed these steps in their own programs: `hp_owner` through `tryClaim`, `store` and
`release`, and `reclaim_later` as the sub-program `Reclaim`, whose places carry everything
`add_to_reclaim_list` and `delete_nodes_with_no_hazards` hold in local variables.

Addresses of container nodes are numbers. A `data_to_reclaim` record has an identity of its own,
which the compare-exchange of `add_to_reclaim_list` compares; its `next` pointer is the rest of the
list, and only the thread that adds a record writes it.

Out of scope: memory orders (every access is sequentially consistent), allocations that fail, and
destructors of the data that throw or retire nodes themselves.
-/

namespace Bonostl.HazardPtr

/-- `max_hazard_pointers`. -/
def maxHazardPointers : ℕ := 100

/-- `data_to_reclaim`: its identity and the node it will delete. -/
structure DataToReclaim where
  id : ℕ
  data : ℕ
  deriving DecidableEq

/-- The registry as two functions of the slot, the list at `nodes_to_reclaim` (newest first),
`reclaim_nodes_count`, and the number of records made so far, which names the next one. -/
structure Shared (ι : Type) where
  id : ℕ → Option ι
  pointer : ℕ → Option ℕ
  nodesToReclaim : List DataToReclaim
  reclaimNodesCount : ℕ
  records : ℕ

/-- No slot claimed, nothing to reclaim. -/
def initial (ι : Type) : Shared ι := ⟨fun _ => none, fun _ => none, [], 0, 0⟩

variable {ι : Type}

/-! ## `hp_owner` -/

/-- The compare-exchange of `hp_owner`'s constructor on slot `i`. -/
def tryClaim (s : Shared ι) (t : ι) (i : ℕ) : Option (Shared ι) :=
  if s.id i = none then some { s with id := Function.update s.id i (some t) } else none

/-- A store to the pointer of slot `i`. -/
def store (s : Shared ι) (i : ℕ) (p : Option ℕ) : Shared ι :=
  { s with pointer := Function.update s.pointer i p }

/-- The store to the id of slot `i` at the end of `hp_owner`'s destructor. -/
def release (s : Shared ι) (i : ℕ) : Shared ι :=
  { s with id := Function.update s.id i none }

@[simp, grind =] theorem store_pointer (s : Shared ι) (i : ℕ) (p : Option ℕ) (j : ℕ) :
    (store s i p).pointer j = if j = i then p else s.pointer j := Function.update_apply ..

@[simp, grind =] theorem store_id (s : Shared ι) (i : ℕ) (p : Option ℕ) (j : ℕ) :
    (store s i p).id j = s.id j := rfl

@[simp, grind =] theorem release_pointer (s : Shared ι) (i j : ℕ) :
    (release s i).pointer j = s.pointer j := rfl

@[simp, grind =] theorem release_id (s : Shared ι) (i j : ℕ) :
    (release s i).id j = if j = i then none else s.id j := Function.update_apply ..

/-! ## `reclaim_later` -/

/-- Where a thread stands in `reclaim_later`. A record that is added back by
`delete_nodes_with_no_hazards` carries the rest of that thread's private list. -/
inductive Reclaim where
  | make (data : ℕ)
  | addLoad (n : DataToReclaim) (k : Option (List DataToReclaim))
  | addCas (n : DataToReclaim) (next : Option ℕ) (k : Option (List DataToReclaim))
  | count
  | resetCount
  | takeList
  | scan (current : DataToReclaim) (rest : List DataToReclaim) (i : ℕ)
  | delete (current : DataToReclaim) (rest : List DataToReclaim)
  | finished
  deriving DecidableEq

/-- `outstanding_hazard_pointers_for` at slot `i`: the next slot to look at, or the end. -/
def scanFrom (current : DataToReclaim) (rest : List DataToReclaim) (i : ℕ) : Reclaim :=
  if i < maxHazardPointers then .scan current rest i else .delete current rest

/-- The `while` loop of `delete_nodes_with_no_hazards`. -/
def sweep : List DataToReclaim → Reclaim
  | [] => .finished
  | current :: rest => scanFrom current rest 0

/-- What follows `add_to_reclaim_list`: `reclaim_later`'s count, or the rest of the sweep. -/
def afterAdd : Option (List DataToReclaim) → Reclaim
  | none => .count
  | some rest => sweep rest

/-- The first record of the list, as `nodes_to_reclaim` holds it. -/
def headId (s : Shared ι) : Option ℕ := s.nodesToReclaim.head?.map DataToReclaim.id

/-- One step of `reclaim_later`, with the address it deletes, if any. `spurious` is a spurious
failure of the weak compare-exchange. -/
def Reclaim.step (spurious : Bool) (s : Shared ι) : Reclaim → Option (Shared ι × Reclaim × Option ℕ)
  | .make data => some ({ s with records := s.records + 1 }, .addLoad ⟨s.records, data⟩ none, none)
  | .addLoad n k => some (s, .addCas n (headId s) k, none)
  | .addCas n next k =>
    if spurious = false ∧ headId s = next then
      some ({ s with nodesToReclaim := n :: s.nodesToReclaim }, afterAdd k, none)
    else some (s, .addCas n (headId s) k, none)
  | .count =>
    let n := (s.reclaimNodesCount + 1) % 2 ^ 32
    some ({ s with reclaimNodesCount := n },
      if maxHazardPointers * 2 ≤ n then .resetCount else .finished, none)
  | .resetCount => some ({ s with reclaimNodesCount := 0 }, .takeList, none)
  | .takeList => some ({ s with nodesToReclaim := [] }, sweep s.nodesToReclaim, none)
  | .scan current rest i =>
    if s.pointer i = some current.data then some (s, .addLoad current (some rest), none)
    else some (s, scanFrom current rest (i + 1), none)
  | .delete current rest => some (s, sweep rest, some current.data)
  | .finished => none

/-- `reclaim_later` writes to no slot. -/
theorem Reclaim.step_slots {sp : Bool} {s s' : Shared ι} {r r' : Reclaim} {freed : Option ℕ}
    (h : r.step sp s = some (s', r', freed)) :
    (∀ i, s'.id i = s.id i) ∧ ∀ i, s'.pointer i = s.pointer i := by
  unfold Reclaim.step at h
  split at h <;> (repeat' split at h) <;> cases h <;> exact ⟨fun _ => rfl, fun _ => rfl⟩

/-- Only a call of `reclaim_later` makes a record. -/
theorem Reclaim.step_make {sp : Bool} {s s' : Shared ι} {r r' : Reclaim} {freed : Option ℕ}
    (h : r.step sp s = some (s', r', freed)) (a : ℕ) : r' ≠ .make a := by
  have hscan : ∀ n l i, scanFrom n l i ≠ .make a := by intro n l i; unfold scanFrom; split <;> nofun
  have hsweep : ∀ l, sweep l ≠ .make a := by
    intro l
    cases l with
    | nil => nofun
    | cons n l => exact hscan n l 0
  have hadd : ∀ k, afterAdd k ≠ .make a := by
    intro k
    cases k with
    | none => nofun
    | some l => exact hsweep l
  unfold Reclaim.step at h
  split at h <;> (repeat' split at h) <;> cases h <;>
    first | exact hadd _ | exact hsweep _ | exact hscan _ _ _ | (split <;> simp) | simp

theorem Reclaim.step_none {sp : Bool} {s : Shared ι} {r : Reclaim} (h : r.step sp s = none) :
    r = .finished := by
  cases r with
  | addCas | scan => dsimp only [Reclaim.step] at h; split at h <;> cases h
  | finished => rfl
  | _ => cases h

end Bonostl.HazardPtr
