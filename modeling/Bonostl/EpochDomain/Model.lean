import Bonostl.Interleaving.Program

/-!
# `epoch_domain`: epoch-based reclamation (`epoch_reclaim.hpp`)

One atomic access of the source is one step. `unsigned long` has `w` bits, so `global_epoch_` is
a number below `2 ^ w` and its `fetch_add` is taken modulo `2 ^ w`; `retire_count_` is taken
modulo `2 ^ 32`.

The retired list is a list of `RetiredNode`s, newest first: a node's `next` pointer is the rest
of the list, and only the thread that pushes a node writes it. The weak compare-exchange of
`push_retired` compares the list's first node with the one loaded before, and may also fail
spuriously. A node's `id` is its identity, the number of the `retire` call that made it.

`guard` objects belong to the thread that constructed them (`Local.guards`, by registry index)
and may be destroyed in any order.

Out of scope: memory orders (every access is sequentially consistent), and deleters that throw or
call the domain.
-/

namespace Bonostl.EpochDomain

open Interleaving

/-- `max_threads`. -/
def maxThreads : ℕ := 128

/-- `reclaim_threshold`. -/
def reclaimThreshold : ℕ := 128

/-- `retired_node`; `id` is its identity. -/
structure RetiredNode (α : Type) where
  id : ℕ
  ptr : α
  retireEpoch : ℕ
  deriving DecidableEq

/-- The members of `epoch_domain`: `registry_` as three functions of the index, `global_epoch_`,
the list at `retired_head_`, `retire_count_`. `retires` counts the calls of `retire` and names
their nodes; `deleted` counts how often each node was deleted, with the pointer it carries. -/
structure Shared (ι α : Type) where
  owner : ℕ → Option ι
  announcedEpoch : ℕ → ℕ
  active : ℕ → Bool
  globalEpoch : ℕ
  retiredHead : List (RetiredNode α)
  retireCount : ℕ
  retires : ℕ
  deleted : ℕ → ℕ

/-- The public interface: the constructor and the destructor of `guard`, `retire`, `collect`. -/
inductive Op (α : Type) where
  | enter
  | leave (slot : ℕ)
  | retire (p : α)
  | collect
  deriving DecidableEq

/-- How a call ends: a guard's registry index, nothing, or `runtime_error` from `claim_slot`. -/
inductive Res where
  | slot (i : ℕ)
  | unit
  | noSlots
  deriving DecidableEq

/-- Where a thread stands. `sweep` and the pushes it makes carry `min_announced` and the rest of
the private list of the collect they belong to. -/
inductive Pc (α : Type) where
  | idle
  | claimSlot (i : ℕ)
  | bumpEpoch (i : ℕ)
  | announce (i : ℕ) (e : ℕ)
  | activate (i : ℕ)
  | deactivate (i : ℕ)
  | disown (i : ℕ)
  | retire (id : ℕ) (p : α)
  | pushLoad (n : RetiredNode α) (k : Option (ℕ × List (RetiredNode α)))
  | pushCas (n : RetiredNode α) (next : Option ℕ) (k : Option (ℕ × List (RetiredNode α)))
  | countRetire
  | resetCount
  | loadActive (i : ℕ) (minAnnounced : ℕ)
  | loadEpoch (i : ℕ) (minAnnounced : ℕ)
  | takeList (minAnnounced : ℕ)
  | sweep (minAnnounced : ℕ) (list : List (RetiredNode α))
  | done (r : Res)
  deriving DecidableEq

/-- A thread: the guards it holds and where it stands. -/
structure Local (α : Type) where
  guards : List ℕ
  pc : Pc α
  deriving DecidableEq

/-- The scheduler's choice: a call, the next step, or a spurious failure of the weak
compare-exchange. -/
inductive Choice (α : Type) where
  | call (o : Op α)
  | run
  | spurious
  deriving DecidableEq

variable {ι α : Type}

/-- The `for` loop of `collect` at record `i`: the next record, or the end of the scan. -/
def scanFrom (i m : ℕ) : Pc α := if i < maxThreads then .loadActive i m else .takeList m

/-- What follows `push_retired`: the rest of the sweep, or `retire`'s count. -/
def afterPush : Option (ℕ × List (RetiredNode α)) → Pc α
  | none => .countRetire
  | some (m, rest) => .sweep m rest

/-- The first node of the retired list, as `retired_head_` holds it. -/
def headId (s : Shared ι α) : Option ℕ := s.retiredHead.head?.map RetiredNode.id

/-- One step of a thread. -/
def step (w : ℕ) (t : ι) (k : Choice α) (s : Shared ι α) (l : Local α) :
    Option (Event (Op α) Res × Shared ι α × Local α) :=
  match l.pc, k with
  | .idle, .call .enter => some (.call .enter, s, { l with pc := .claimSlot 0 })
  | .idle, .call (.leave i) =>
    if i ∈ l.guards then some (.call (.leave i), s, { l with pc := .deactivate i }) else none
  | .idle, .call (.retire p) =>
    some (.call (.retire p), { s with retires := s.retires + 1 },
      { l with pc := .retire s.retires p })
  | .idle, .call .collect => some (.call .collect, s, { l with pc := .resetCount })
  -- claim_slot
  | .claimSlot i, .run =>
    if i < maxThreads then
      if s.owner i = none then
        some (.tau, { s with owner := Function.update s.owner i (some t) },
          { l with pc := .bumpEpoch i })
      else some (.tau, s, { l with pc := .claimSlot (i + 1) })
    else some (.tau, s, { l with pc := .done .noSlots })
  | .bumpEpoch i, .run =>
    let e := (s.globalEpoch + 1) % 2 ^ w
    some (.tau, { s with globalEpoch := e }, { l with pc := .announce i e })
  | .announce i e, .run =>
    some (.tau, { s with announcedEpoch := Function.update s.announcedEpoch i e },
      { l with pc := .activate i })
  | .activate i, .run =>
    some (.tau, { s with active := Function.update s.active i true },
      { guards := i :: l.guards, pc := .done (.slot i) })
  -- release_slot
  | .deactivate i, .run =>
    some (.tau, { s with active := Function.update s.active i false }, { l with pc := .disown i })
  | .disown i, .run =>
    some (.tau, { s with owner := Function.update s.owner i none },
      { guards := l.guards.erase i, pc := .done .unit })
  -- retire
  | .retire id p, .run => some (.tau, s, { l with pc := .pushLoad ⟨id, p, s.globalEpoch⟩ none })
  | .countRetire, .run =>
    let n := (s.retireCount + 1) % 2 ^ 32
    some (.tau, { s with retireCount := n },
      { l with pc := if reclaimThreshold ≤ n then .resetCount else .done .unit })
  -- push_retired
  | .pushLoad n r, .run => some (.tau, s, { l with pc := .pushCas n (headId s) r })
  | .pushCas n next r, .run =>
    if headId s = next then
      some (.tau, { s with retiredHead := n :: s.retiredHead }, { l with pc := afterPush r })
    else some (.tau, s, { l with pc := .pushCas n (headId s) r })
  | .pushCas n _ r, .spurious => some (.tau, s, { l with pc := .pushCas n (headId s) r })
  -- collect
  | .resetCount, .run =>
    some (.tau, { s with retireCount := 0 }, { l with pc := scanFrom 0 (2 ^ w - 1) })
  | .loadActive i m, .run =>
    some (.tau, s, { l with pc := if s.active i then .loadEpoch i m else scanFrom (i + 1) m })
  | .loadEpoch i m, .run =>
    some (.tau, s, { l with pc := scanFrom (i + 1) (min m (s.announcedEpoch i)) })
  | .takeList m, .run =>
    some (.tau, { s with retiredHead := [] }, { l with pc := .sweep m s.retiredHead })
  | .sweep _ [], .run => some (.tau, s, { l with pc := .done .unit })
  | .sweep m (n :: rest), .run =>
    if n.retireEpoch < m then
      some (.tau, { s with deleted := Function.update s.deleted n.id (s.deleted n.id + 1) },
        { l with pc := .sweep m rest })
    else some (.tau, s, { l with pc := .pushLoad n (some (m, rest)) })
  | .done r, .run => some (.ret r, s, { l with pc := .idle })
  | _, _ => none

/-- `epoch_domain` with `w`-bit epochs. -/
def program (w : ℕ) : Program ι (Shared ι α) (Local α) (Choice α) (Op α) Res := ⟨step w⟩

/-- A fresh domain: nothing claimed, nothing retired. -/
def initial : Config ι (Shared ι α) (Local α) where
  shared := ⟨fun _ => none, fun _ => 0, fun _ => false, 0, [], 0, 0, fun _ => 0⟩
  loc := fun _ => ⟨[], .idle⟩

/-! ## What a step can do -/

/-- The moves of a thread. A retried push stands for both ways the weak compare-exchange fails, and
the count's new value is left open: nothing below depends on them. -/
inductive Move (w : ℕ) (t : ι) (s : Shared ι α) : Local α → Shared ι α → Local α → Prop
  | enter (g) : Move w t s ⟨g, .idle⟩ s ⟨g, .claimSlot 0⟩
  | leave (g i) (hi : i ∈ g) : Move w t s ⟨g, .idle⟩ s ⟨g, .deactivate i⟩
  | retire (g p) : Move w t s ⟨g, .idle⟩ { s with retires := s.retires + 1 }
      ⟨g, .retire s.retires p⟩
  | collect (g) : Move w t s ⟨g, .idle⟩ s ⟨g, .resetCount⟩
  | claim (g i) (hi : i < maxThreads) (ho : s.owner i = none) :
      Move w t s ⟨g, .claimSlot i⟩ { s with owner := Function.update s.owner i (some t) }
        ⟨g, .bumpEpoch i⟩
  | claimNext (g i) : Move w t s ⟨g, .claimSlot i⟩ s ⟨g, .claimSlot (i + 1)⟩
  | noSlots (g i) : Move w t s ⟨g, .claimSlot i⟩ s ⟨g, .done .noSlots⟩
  | bumpEpoch (g i) : Move w t s ⟨g, .bumpEpoch i⟩
      { s with globalEpoch := (s.globalEpoch + 1) % 2 ^ w }
      ⟨g, .announce i ((s.globalEpoch + 1) % 2 ^ w)⟩
  | announce (g i e) : Move w t s ⟨g, .announce i e⟩
      { s with announcedEpoch := Function.update s.announcedEpoch i e } ⟨g, .activate i⟩
  | activate (g i) : Move w t s ⟨g, .activate i⟩
      { s with active := Function.update s.active i true }
      ⟨i :: g, .done (.slot i)⟩
  | deactivate (g i) : Move w t s ⟨g, .deactivate i⟩
      { s with active := Function.update s.active i false } ⟨g, .disown i⟩
  | disown (g i) : Move w t s ⟨g, .disown i⟩ { s with owner := Function.update s.owner i none }
      ⟨g.erase i, .done .unit⟩
  | makeNode (g id p) : Move w t s ⟨g, .retire id p⟩ s ⟨g, .pushLoad ⟨id, p, s.globalEpoch⟩ none⟩
  | pushLoad (g n r) : Move w t s ⟨g, .pushLoad n r⟩ s ⟨g, .pushCas n (headId s) r⟩
  | push (g n next r) : Move w t s ⟨g, .pushCas n next r⟩
      { s with retiredHead := n :: s.retiredHead }
      ⟨g, afterPush r⟩
  | pushRetry (g n next r) : Move w t s ⟨g, .pushCas n next r⟩ s ⟨g, .pushCas n (headId s) r⟩
  | countCollect (g) (n : ℕ) : Move w t s ⟨g, .countRetire⟩ { s with retireCount := n }
      ⟨g, .resetCount⟩
  | countDone (g) (n : ℕ) : Move w t s ⟨g, .countRetire⟩ { s with retireCount := n }
      ⟨g, .done .unit⟩
  | resetCount (g) : Move w t s ⟨g, .resetCount⟩ { s with retireCount := 0 }
      ⟨g, scanFrom 0 (2 ^ w - 1)⟩
  | seeActive (g i m) (ha : s.active i = true) : Move w t s ⟨g, .loadActive i m⟩ s
      ⟨g, .loadEpoch i m⟩
  | seeInactive (g i m) (ha : s.active i = false) :
      Move w t s ⟨g, .loadActive i m⟩ s ⟨g, scanFrom (i + 1) m⟩
  | loadEpoch (g i m) : Move w t s ⟨g, .loadEpoch i m⟩ s
      ⟨g, scanFrom (i + 1) (min m (s.announcedEpoch i))⟩
  | takeList (g m) : Move w t s ⟨g, .takeList m⟩ { s with retiredHead := [] }
      ⟨g, .sweep m s.retiredHead⟩
  | sweepEnd (g m) : Move w t s ⟨g, .sweep m []⟩ s ⟨g, .done .unit⟩
  | delete (g m n rest) (hlt : n.retireEpoch < m) : Move w t s ⟨g, .sweep m (n :: rest)⟩
      { s with deleted := Function.update s.deleted n.id (s.deleted n.id + 1) } ⟨g, .sweep m rest⟩
  | keep (g m n rest) (hge : m ≤ n.retireEpoch) :
      Move w t s ⟨g, .sweep m (n :: rest)⟩ s ⟨g, .pushLoad n (some (m, rest))⟩
  | ret (g r) : Move w t s ⟨g, .done r⟩ s ⟨g, .idle⟩

theorem step_move {w : ℕ} {t : ι} {k : Choice α} {s s' : Shared ι α} {l l' : Local α}
    {ev : Event (Op α) Res} (hs : step w t k s l = some (ev, s', l')) : Move w t s l s' l' := by
  obtain ⟨g, pc⟩ := l
  unfold step at hs
  split at hs <;> (try dsimp only at *) <;> (try subst_vars)
  all_goals (repeat' split at hs)
  all_goals cases hs
  all_goals first
    | exact .claim _ _ ‹_› ‹_›
    | (constructor <;> first | assumption | (rename_i h; exact Nat.not_lt.mp h) |
        (rename_i h; exact eq_false_of_ne_true h))

/-- What a step shows: a call is the scheduler's choice, and a return changes nothing else. -/
theorem step_ev {w : ℕ} {t : ι} {k : Choice α} {s s' : Shared ι α} {l l' : Local α}
    {ev : Event (Op α) Res} (hs : step w t k s l = some (ev, s', l')) :
    (∃ o, k = .call o) ∨
    (∃ r, ev = .ret r ∧ l.pc = .done r ∧ s' = s ∧ l' = { l with pc := .idle }) ∨
      (ev = .tau ∧ ∀ r, l.pc ≠ .done r) := by
  obtain ⟨g, pc⟩ := l
  cases k with
  | call o => exact .inl ⟨o, rfl⟩
  | run | spurious =>
    right
    cases pc with
    | done r =>
      cases hs
      all_goals exact .inl ⟨r, rfl, rfl, rfl, rfl⟩
    | _ =>
      refine .inr ⟨?_, by simp⟩
      unfold step at hs
      dsimp only at hs
      repeat' split at hs
      all_goals cases hs
      all_goals first | rfl | contradiction

/-- Only an idle thread calls. -/
theorem step_call {w : ℕ} {t : ι} {o : Op α} {s s' : Shared ι α} {l l' : Local α}
    {ev : Event (Op α) Res} (hs : step w t (.call o) s l = some (ev, s', l')) : l.pc = .idle := by
  unfold step at hs
  split at hs
  all_goals first | assumption | contradiction

end Bonostl.EpochDomain
