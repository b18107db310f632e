import Bonostl.HazardPtr.Model
import Bonostl.Interleaving.Program

/-!
# Retired nodes: where they are, and which of them a sweep may delete

`Where` says where a node's address is in the reclamation: outside, with the thread that is about
to put it on the shared list, on that list, or on the private list of one sweep. `Reclaiming` ties
it to the list and to every thread's place, and so says that a retired node is in exactly one of
these places.

`prot j a` stands for a container's claim that slot `j` has held `a` since before `a` was retired.
`Reclaiming.scan` says that no sweep has passed such a slot: a slot that is looked at either holds
the address, and the record is put back, or does not, and then protects nothing.
`Reclaiming.advance` is the only fact the containers need: what one step of `reclaim_later` does to
all this, and that the address it deletes is protected by no slot.
-/

namespace Bonostl.HazardPtr

open Interleaving

variable {ι : Type} [DecidableEq ι]

/-- Where an address is in the reclamation. -/
inductive Where (ι : Type) where
  | outside
  | pending (t : ι)
  | listed
  | held (t : ι)

/-- The address `reclaim_later` was called with, until its record is on the list. -/
def Reclaim.pending : Reclaim → Option ℕ
  | .make data => some data
  | .addLoad n none | .addCas n _ none => some n.data
  | _ => none

/-- The private list of a sweep. -/
def Reclaim.held : Reclaim → List DataToReclaim
  | .addLoad n (some rest) | .addCas n _ (some rest) => n :: rest
  | .scan current rest _ | .delete current rest => current :: rest
  | _ => []

/-- The address a sweep is looking for in the slots, and how many slots it has passed. -/
def Reclaim.scanning : Reclaim → Option (ℕ × ℕ)
  | .scan current _ i => some (current.data, i)
  | .delete current _ => some (current.data, maxHazardPointers)
  | _ => none

/-- Everything about a thread's place that the invariant reads. -/
def Reclaim.view (r : Reclaim) : List DataToReclaim × Option ℕ × Option (ℕ × ℕ) :=
  (r.held, r.pending, r.scanning)

@[simp] theorem scanFrom_pending (n : DataToReclaim) (l : List DataToReclaim) (i : ℕ) :
    (scanFrom n l i).pending = none := by unfold scanFrom; split <;> rfl

@[simp] theorem scanFrom_held (n : DataToReclaim) (l : List DataToReclaim) (i : ℕ) :
    (scanFrom n l i).held = n :: l := by unfold scanFrom; split <;> rfl

theorem scanFrom_scanning {n : DataToReclaim} {l : List DataToReclaim} {i i' a : ℕ}
    (h : (scanFrom n l i).scanning = some (a, i')) : a = n.data ∧ i' ≤ i := by
  unfold scanFrom at h
  split at h
  · simp only [Reclaim.scanning, Option.some.injEq, Prod.mk.injEq] at h; omega
  · simp only [Reclaim.scanning, Option.some.injEq, Prod.mk.injEq] at h; omega

@[simp] theorem sweep_pending (l : List DataToReclaim) : (sweep l).pending = none := by
  cases l with
  | nil => rfl
  | cons n l => exact scanFrom_pending n l 0

@[simp] theorem sweep_held (l : List DataToReclaim) : (sweep l).held = l := by
  cases l with
  | nil => rfl
  | cons n l => exact scanFrom_held n l 0

theorem afterAdd_pending (k : Option (List DataToReclaim)) : (afterAdd k).pending = none := by
  cases k with
  | none => rfl
  | some l => exact sweep_pending l

theorem sweep_scanning {l : List DataToReclaim} {a i : ℕ} (h : (sweep l).scanning = some (a, i)) :
    i = 0 := by
  cases l with
  | nil => simp [sweep, Reclaim.scanning] at h
  | cons n l => exact Nat.le_zero.mp (scanFrom_scanning h).2

theorem Reclaim.scanning_held {r : Reclaim} {a i : ℕ} (h : r.scanning = some (a, i)) :
    a ∈ r.held.map DataToReclaim.data := by
  cases r with
  | scan n l j => cases h; simp [Reclaim.held]
  | delete n l => cases h; simp [Reclaim.held]
  | _ => cases h

/-- **The state of the reclamation**: every retired address in exactly one place, and no sweep
past a slot that protects the address it looks for. -/
structure Reclaiming (w : ℕ → Where ι) (prot : ℕ → ℕ → Prop) (s : Shared ι)
    (r : ι → Reclaim) : Prop where
  listed : ∀ a, a ∈ s.nodesToReclaim.map DataToReclaim.data ↔ w a = .listed
  listed_nodup : (s.nodesToReclaim.map DataToReclaim.data).Nodup
  held : ∀ t a, a ∈ (r t).held.map DataToReclaim.data ↔ w a = .held t
  held_nodup : ∀ t, ((r t).held.map DataToReclaim.data).Nodup
  pending : ∀ t a, (r t).pending = some a ↔ w a = .pending t
  prot_pointer : ∀ j a, prot j a → s.pointer j = some a
  prot_lt : ∀ j a, prot j a → j < maxHazardPointers
  scan : ∀ t a i, (r t).scanning = some (a, i) → ∀ j, prot j a → i ≤ j

/-- What a step of `reclaim_later` does to the places: it moves addresses only between the three
retired places, except for the one it deletes, which no slot protects. -/
structure ReclaimStep (w w' : ℕ → Where ι) (prot : ℕ → ℕ → Prop) (freed : Option ℕ) (t : ι) :
    Prop where
  freed_held : ∀ a, freed = some a → w a = .held t ∧ w' a = .outside ∧ ∀ j, ¬ prot j a
  outside : ∀ a, freed ≠ some a → (w' a = .outside ↔ w a = .outside)

variable {w : ℕ → Where ι} {prot : ℕ → ℕ → Prop} {s s' : Shared ι} {r : ι → Reclaim} {t : ι}
  {r' : Reclaim} {freed : Option ℕ} {sp : Bool}

/-- A step that moves no address. -/
theorem Reclaiming.frame (h : Reclaiming w prot s r)
    (hlist : s'.nodesToReclaim = s.nodesToReclaim) (hptr : ∀ j, s'.pointer j = s.pointer j)
    (hheld : r'.held = (r t).held) (hpend : r'.pending = (r t).pending)
    (hscan : ∀ a i, r'.scanning = some (a, i) → ∀ j, prot j a → i ≤ j) :
    Reclaiming w prot s' (Function.update r t r') := by
  obtain ⟨h1, h2, h3, h4, h5, h6, h7, h8⟩ := h
  constructor <;> grind

/-- A step that moves addresses: what has to be said of the new places. -/
theorem Reclaiming.moved {w' : ℕ → Where ι} (h : Reclaiming w prot s r)
    (hptr : ∀ j, s'.pointer j = s.pointer j)
    (hlist : ∀ a, a ∈ s'.nodesToReclaim.map DataToReclaim.data ↔ w' a = .listed)
    (hnodup : (s'.nodesToReclaim.map DataToReclaim.data).Nodup)
    (hheld : ∀ a, a ∈ r'.held.map DataToReclaim.data ↔ w' a = .held t)
    (hheldn : (r'.held.map DataToReclaim.data).Nodup)
    (hpend : ∀ a, r'.pending = some a ↔ w' a = .pending t)
    (hother : ∀ u, u ≠ t → ∀ a, (w' a = .held u ↔ w a = .held u) ∧
      (w' a = .pending u ↔ w a = .pending u))
    (hscan : ∀ a i, r'.scanning = some (a, i) → i = 0) :
    Reclaiming w' prot s' (Function.update r t r') := by
  obtain ⟨h1, h2, h3, h4, h5, h6, h7, h8⟩ := h
  constructor <;> grind

omit [DecidableEq ι] in
/-- A step outside `reclaim_later`: slots may be stored to, and may come to protect addresses that
are not retired. -/
theorem Reclaiming.rebase {prot' : ℕ → ℕ → Prop} {r₁ : ι → Reclaim} (h : Reclaiming w prot s r)
    (hlist : s'.nodesToReclaim = s.nodesToReclaim) (hr : ∀ t, (r₁ t).view = (r t).view)
    (hprot : ∀ j a, prot' j a → s'.pointer j = some a ∧ j < maxHazardPointers ∧
      (prot j a ∨ w a = .outside)) : Reclaiming w prot' s' r₁ := by
  have hheld : ∀ t, (r₁ t).held = (r t).held := fun t => congrArg Prod.fst (hr t)
  have hpend : ∀ t, (r₁ t).pending = (r t).pending := fun t => congrArg (·.2.1) (hr t)
  have hscan : ∀ t, (r₁ t).scanning = (r t).scanning := fun t => congrArg (·.2.2) (hr t)
  refine ⟨by rw [hlist]; exact h.listed, by rw [hlist]; exact h.listed_nodup,
    fun t => by rw [hheld]; exact h.held t, fun t => by rw [hheld]; exact h.held_nodup t,
    fun t => by rw [hpend]; exact h.pending t, fun j a hj => (hprot j a hj).1,
    fun j a hj => (hprot j a hj).2.1, ?_⟩
  intro t a i e j hj
  rw [hscan] at e
  rcases (hprot j a hj).2.2 with hp | ho
  · exact h.scan t a i e j hp
  · -- an address that is looked for is on the sweep's private list
    have hheld := (h.held t a).mp (Reclaim.scanning_held e)
    rw [ho] at hheld
    cases hheld

/-- A container calls `reclaim_later` on an address that was not retired before. -/
theorem Reclaiming.retire {a : ℕ} (h : Reclaiming w prot s r) (ha : w a = .outside)
    (hr : r t = .finished) :
    Reclaiming (Function.update w a (.pending t)) prot s (Function.update r t (.make a)) := by
  have hl := h.listed
  have hheld := h.held t
  have hpend := h.pending t
  rw [hr] at hheld hpend
  simp only [Reclaim.held, Reclaim.pending] at hheld hpend
  refine h.moved (fun _ => rfl) ?_ h.listed_nodup ?_ List.nodup_nil ?_ ?_ nofun
  · grind
  · simp only [Reclaim.held]; grind
  · simp only [Reclaim.pending]; grind
  · grind

/-- The compare-exchange of `add_to_reclaim_list` succeeds. -/
theorem Reclaiming.add (h : Reclaiming w prot s r) {n : DataToReclaim} {next : Option ℕ}
    {k : Option (List DataToReclaim)} (hr : r t = .addCas n next k)
    (hlist : s'.nodesToReclaim = n :: s.nodesToReclaim)
    (hptr : ∀ j, s'.pointer j = s.pointer j) :
    ∃ w', Reclaiming w' prot s' (Function.update r t (afterAdd k)) ∧
      ReclaimStep w w' prot none t := by
  have hwas : w n.data = .pending t ∨ w n.data = .held t := by
    cases k with
    | none => exact .inl ((h.pending t n.data).mp (by rw [hr]; rfl))
    | some l => exact .inr ((h.held t n.data).mp (by rw [hr]; simp [Reclaim.held]))
  have hfresh : n.data ∉ s.nodesToReclaim.map DataToReclaim.data := by
    rw [h.listed]; rcases hwas with e | e <;> rw [e] <;> nofun
  have hheld := h.held t
  have hheldn := h.held_nodup t
  have hpend := h.pending t
  rw [hr] at hheld hheldn hpend
  refine ⟨Function.update w n.data .listed, h.moved hptr ?_ ?_ ?_ ?_ ?_ ?_ ?_, nofun, ?_⟩
  · have := h.listed; grind
  · rw [hlist]; exact List.nodup_cons.mpr ⟨hfresh, h.listed_nodup⟩
  · cases k with
    | none => simp only [Reclaim.held] at hheld; simp only [afterAdd, Reclaim.held]; grind
    | some l =>
      simp only [Reclaim.held] at hheld hheldn
      simp only [afterAdd, sweep_held]
      grind
  · cases k with
    | none => exact List.nodup_nil
    | some l =>
      simp only [Reclaim.held, List.map_cons, List.nodup_cons] at hheldn
      simpa [afterAdd] using hheldn.2
  · intro a
    rw [afterAdd_pending]
    cases k with
    | none => simp only [Reclaim.pending] at hpend; grind
    | some l => simp only [Reclaim.pending] at hpend; grind
  · grind
  · intro a i e
    cases k with
    | none => cases e
    | some l => exact sweep_scanning e
  · grind

/-- The exchange of `delete_nodes_with_no_hazards`: the shared list becomes the thread's own. -/
theorem Reclaiming.take (h : Reclaiming w prot s r) (hr : r t = .takeList)
    (hlist : s'.nodesToReclaim = []) (hptr : ∀ j, s'.pointer j = s.pointer j) :
    ∃ w', Reclaiming w' prot s' (Function.update r t (sweep s.nodesToReclaim)) ∧
      ReclaimStep w w' prot none t := by
  classical
  have hheld := h.held t
  have hpend := h.pending t
  have hl := h.listed
  rw [hr] at hheld hpend
  simp only [Reclaim.held, Reclaim.pending] at hheld hpend
  refine ⟨fun a => if w a = .listed then .held t else w a, h.moved hptr ?_ ?_ ?_ ?_ ?_ ?_ ?_,
    nofun, ?_⟩
  · grind
  · rw [hlist]; exact List.nodup_nil
  · rw [sweep_held]; grind
  · rw [sweep_held]; exact h.listed_nodup
  · rw [sweep_pending]; grind
  · grind
  · exact fun a i e => sweep_scanning e
  · grind

/-- The sweep deletes the address it has looked for in every slot. -/
theorem Reclaiming.free (h : Reclaiming w prot s r) {current : DataToReclaim}
    {rest : List DataToReclaim} (hr : r t = .delete current rest) :
    ∃ w', Reclaiming w' prot s (Function.update r t (sweep rest)) ∧
      ReclaimStep w w' prot (some current.data) t := by
  have hheld := h.held t
  have hheldn := h.held_nodup t
  have hpend := h.pending t
  have hl := h.listed
  rw [hr] at hheld hpend hheldn
  simp only [Reclaim.held, Reclaim.pending] at hheld hpend hheldn
  refine ⟨Function.update w current.data .outside, h.moved (fun _ => rfl) ?_ h.listed_nodup
    ?_ ?_ ?_ ?_ ?_, ?_, ?_⟩
  · grind
  · rw [sweep_held]; grind
  · rw [sweep_held]; exact (List.nodup_cons.mp hheldn).2
  · rw [sweep_pending]; grind
  · grind
  · exact fun a i e => sweep_scanning e
  · rintro a ⟨⟩
    refine ⟨by grind, by grind, fun j hj => ?_⟩
    have hle := h.scan t current.data _ (by rw [hr]; rfl) j hj
    exact absurd (h.prot_lt j _ hj) (Nat.not_lt.mpr hle)
  · grind

/-- **One step of `reclaim_later`.** -/
theorem Reclaiming.advance (h : Reclaiming w prot s r)
    (hs : (r t).step sp s = some (s', r', freed)) :
    ∃ w', Reclaiming w' prot s' (Function.update r t r') ∧ ReclaimStep w w' prot freed t := by
  have hkeep : ReclaimStep w w prot none t := ⟨nofun, fun _ _ => Iff.rfl⟩
  cases hr : r t with
  | make data =>
    rw [hr] at hs
    obtain ⟨rfl, rfl, rfl⟩ := hs
    exact ⟨w, h.frame rfl (fun _ => rfl) (by rw [hr]; rfl) (by rw [hr]; rfl) nofun, hkeep⟩
  | addLoad n k =>
    rw [hr] at hs
    obtain ⟨rfl, rfl, rfl⟩ := hs
    exact ⟨w, h.frame rfl (fun _ => rfl) (by rw [hr]; cases k <;> rfl)
      (by rw [hr]; cases k <;> rfl) nofun, hkeep⟩
  | addCas n next k =>
    rw [hr] at hs
    dsimp only [Reclaim.step] at hs
    split at hs
    · obtain ⟨rfl, rfl, rfl⟩ := hs
      exact h.add hr rfl fun _ => rfl
    · obtain ⟨rfl, rfl, rfl⟩ := hs
      exact ⟨w, h.frame rfl (fun _ => rfl) (by rw [hr]; cases k <;> rfl)
        (by rw [hr]; cases k <;> rfl) nofun, hkeep⟩
  | count =>
    rw [hr] at hs
    obtain ⟨rfl, rfl, rfl⟩ := hs
    refine ⟨w, h.frame rfl (fun _ => rfl) (by rw [hr]; split <;> rfl) (by rw [hr]; split <;> rfl)
      (fun a i e => ?_), hkeep⟩
    split at e <;> cases e
  | resetCount =>
    rw [hr] at hs
    obtain ⟨rfl, rfl, rfl⟩ := hs
    exact ⟨w, h.frame rfl (fun _ => rfl) (by rw [hr]; rfl) (by rw [hr]; rfl) nofun, hkeep⟩
  | takeList =>
    rw [hr] at hs
    obtain ⟨rfl, rfl, rfl⟩ := hs
    exact h.take hr rfl fun _ => rfl
  | scan current rest i =>
    rw [hr] at hs
    dsimp only [Reclaim.step] at hs
    split at hs
    · obtain ⟨rfl, rfl, rfl⟩ := hs
      exact ⟨w, h.frame rfl (fun _ => rfl) (by rw [hr]; rfl) (by rw [hr]; rfl) nofun, hkeep⟩
    · rename_i hp
      obtain ⟨rfl, rfl, rfl⟩ := hs
      refine ⟨w, h.frame rfl (fun _ => rfl) (by rw [hr]; exact scanFrom_held ..)
        (by rw [hr]; exact scanFrom_pending ..) (fun a i' e j hj => ?_), hkeep⟩
      -- slot `i` does not hold the address, so a protecting slot lies past it
      obtain ⟨rfl, hi⟩ := scanFrom_scanning e
      have hle := h.scan t current.data i (by rw [hr]; rfl) j hj
      have hne : j ≠ i := fun he => hp (he ▸ h.prot_pointer j _ hj)
      omega
  | delete current rest =>
    rw [hr] at hs
    obtain ⟨rfl, rfl, rfl⟩ := hs
    exact h.free hr
  | finished => rw [hr] at hs; cases hs

/-! ## One thread -/

/-- The addresses that are retired while only one thread reclaims. -/
def retired (s : Shared ι) (r : Reclaim) : List ℕ :=
  r.pending.toList ++ (r.held.map DataToReclaim.data ++ s.nodesToReclaim.map DataToReclaim.data)

section
omit [DecidableEq ι]

theorem retired_sweep (s : Shared ι) (l : List DataToReclaim) :
    retired s (sweep l) =
      l.map DataToReclaim.data ++ s.nodesToReclaim.map DataToReclaim.data := by
  rw [retired, sweep_pending, sweep_held]
  rfl

theorem retired_scanFrom (s : Shared ι) (n : DataToReclaim) (l : List DataToReclaim) (i : ℕ) :
    retired s (scanFrom n l i) =
      (n :: l).map DataToReclaim.data ++ s.nodesToReclaim.map DataToReclaim.data := by
  rw [retired, scanFrom_pending, scanFrom_held]
  rfl

/-- A step of `reclaim_later` moves the retired addresses, and deletes one of them at most. -/
theorem Reclaim.step_retired {r : Reclaim} (h : r.step sp s = some (s', r', freed)) :
    (freed.toList ++ retired s' r').Perm (retired s r) := by
  cases r with
  | make data => obtain ⟨rfl, rfl, rfl⟩ := h; exact .refl _
  | addLoad n k => obtain ⟨rfl, rfl, rfl⟩ := h; cases k <;> exact .refl _
  | addCas n next k =>
    dsimp only [Reclaim.step] at h
    split at h <;> obtain ⟨rfl, rfl, rfl⟩ := h
    · cases k with
      | none => exact .refl _
      | some rest =>
        rw [afterAdd, retired_sweep]
        exact List.perm_middle
    · cases k <;> exact .refl _
  | count => obtain ⟨rfl, rfl, rfl⟩ := h; dsimp only [retired]; split <;> exact .refl _
  | resetCount => obtain ⟨rfl, rfl, rfl⟩ := h; exact .refl _
  | takeList =>
    obtain ⟨rfl, rfl, rfl⟩ := h
    rw [retired_sweep]
    simp [retired, Reclaim.pending, Reclaim.held]
  | scan current rest i =>
    dsimp only [Reclaim.step] at h
    split at h <;> obtain ⟨rfl, rfl, rfl⟩ := h
    · exact .refl _
    · rw [retired_scanFrom]
      exact .refl _
  | delete current rest =>
    obtain ⟨rfl, rfl, rfl⟩ := h
    rw [retired_sweep]
    exact .refl _
  | finished => cases h

/-- More than the number of steps `reclaim_later` still takes. -/
def Reclaim.cost (s : Shared ι) : Reclaim → ℕ
  | .make _ => 110 * (s.nodesToReclaim.length + 1) + 10
  | .addLoad _ none => 110 * (s.nodesToReclaim.length + 1) + 9
  | .addCas _ next none =>
    110 * (s.nodesToReclaim.length + 1) + if headId s = next then 7 else 8
  | .count => 110 * s.nodesToReclaim.length + 5
  | .resetCount => 110 * s.nodesToReclaim.length + 4
  | .takeList => 110 * s.nodesToReclaim.length + 3
  | .scan _ rest i => 110 * rest.length + 5 + (maxHazardPointers - i)
  | .delete _ rest => 110 * rest.length + 4
  | .addLoad _ (some rest) => 110 * rest.length + 4
  | .addCas _ next (some rest) => 110 * rest.length + if headId s = next then 2 else 3
  | .finished => 0

theorem cost_scanFrom_le (s : Shared ι) (n : DataToReclaim) (l : List DataToReclaim) (i : ℕ) :
    (scanFrom n l i).cost s ≤ 110 * l.length + 5 + (maxHazardPointers - i) := by
  unfold scanFrom
  split <;> simp only [Reclaim.cost]
  · exact Nat.le_refl _
  · omega

theorem cost_sweep_le (s : Shared ι) (l : List DataToReclaim) :
    (sweep l).cost s ≤ 110 * l.length := by
  cases l with
  | nil => exact Nat.le_refl _
  | cons n l =>
    refine (cost_scanFrom_le s n l 0).trans ?_
    rw [List.length_cons, maxHazardPointers]
    omega

/-- **`reclaim_later` goes on** while its compare-exchanges do not fail spuriously. -/
theorem Reclaim.progress {r : Reclaim} (hr : r ≠ .finished) (s : Shared ι) :
    ∃ s' r' freed, r.step false s = some (s', r', freed) ∧ r'.cost s' < r.cost s := by
  cases r with
  | finished => exact absurd rfl hr
  | make data => exact ⟨_, _, _, rfl, Nat.lt_succ_self _⟩
  | addLoad n k =>
    refine ⟨_, _, _, rfl, ?_⟩
    cases k <;> simp [Reclaim.cost]
  | addCas n next k =>
    by_cases hn : headId s = next
    · refine ⟨{ s with nodesToReclaim := n :: s.nodesToReclaim }, afterAdd k, none, by
        simp [Reclaim.step, hn], ?_⟩
      cases k with
      | none => simp [afterAdd, Reclaim.cost, hn]
      | some rest =>
        refine Nat.lt_of_le_of_lt (cost_sweep_le _ rest) ?_
        simp [Reclaim.cost, hn]
    · refine ⟨s, .addCas n (headId s) k, none, by simp [Reclaim.step, hn], ?_⟩
      cases k <;> simp [Reclaim.cost, hn]
  | count =>
    refine ⟨_, _, _, rfl, ?_⟩
    split <;> simp only [Reclaim.cost] <;> omega
  | resetCount => exact ⟨_, _, _, rfl, Nat.lt_succ_self _⟩
  | takeList =>
    refine ⟨_, _, _, rfl, Nat.lt_of_le_of_lt (cost_sweep_le _ _) ?_⟩
    simp [Reclaim.cost]
  | scan current rest i =>
    by_cases hp : s.pointer i = some current.data
    · refine ⟨s, .addLoad current (some rest), none, by simp [Reclaim.step, hp], ?_⟩
      simp only [Reclaim.cost]
      omega
    · refine ⟨s, scanFrom current rest (i + 1), none, by simp [Reclaim.step, hp], ?_⟩
      unfold scanFrom
      split <;> simp only [Reclaim.cost] <;> omega
  | delete current rest =>
    refine ⟨_, _, _, rfl, Nat.lt_of_le_of_lt (cost_sweep_le _ _) ?_⟩
    simp [Reclaim.cost]
end

end Bonostl.HazardPtr
