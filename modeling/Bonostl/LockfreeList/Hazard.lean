import Bonostl.Chain.Linked
import Bonostl.HazardPtr.Reclaim
import Bonostl.LockfreeList.Model

/-!
# Hazard pointers of `lockfree_list`

Runs in which a deleted node's address may be used again. A slot *guards* a node from the
successful validation of `find` until the slot is stored to again (`guarded`).

The validation re-reads `pred->next` and compares the pointers without their marks. When `pred`
itself is not marked, it is on the chain, so `curr` is, and no sweep has it: from then on the slot
protects it. When `pred` has been marked and unlinked in the meantime, its frozen link says nothing
about `curr`, which may be retired, swept and deleted before the slot is set
(`deleted_node_validated`). `guarded_alive`: in every run in which each successful validation
finds `pred` unmarked, a guarded node is not deleted, and no step touches a deleted node.
-/

namespace Bonostl.LockfreeList

open Interleaving HazardPtr HarrisMichael Chain

variable {ι T : Type}

/-! ## What a step does to the slots -/

/-- The slot the thread's next step stores to. -/
def Local.storesTo (l : Local T) : Option ℕ :=
  match l.pc with
  | .find _ ⟨p, _, .start⟩ => some p
  | .find _ ⟨_, c, .protect _ _⟩ => some c
  | .destroy _ => l.slots.head?
  | _ => none

/-- The slot and the node of a validation that succeeds between two places. -/
def Pc.validated : Pc T → Pc T → Option (ℕ × ℕ)
  | .find _ ⟨_, c, .validate _ curr⟩, .find _ ⟨_, _, .loadNext _ _⟩ => some (c, curr)
  | _, _ => none

/-- Slot `j` was set to `a` and validated, and has not been stored to since. -/
def guarded : List (Step ι T) → ℕ → ℕ → Prop
  | [], _, _ => False
  | r :: h, j, a => (r.pre.loc r.tid).pc.validated (r.cfg.loc r.tid).pc = some (j, a) ∨
      (guarded h j a ∧ (r.pre.loc r.tid).storesTo ≠ some j)

/-- The node whose fields the thread's next step reads, writes or deletes. -/
def Pc.accesses : Pc T → List ℕ
  | .find k ⟨_, _, place⟩ =>
    match place with
    | .load pred | .validate pred _ | .unlink pred _ _ => [pred]
    | .loadNext _ curr => [curr]
    | .compare _ curr _ =>
      match k with
      | .insert n _ => [curr, n]
      | _ => [curr]
    | .reclaim _ _ (.delete current _) => [current.data]
    | _ => []
  | .setNext n _ _ _ | .deleteNew n => [n]
  | .link _ _ pred _ | .unlink pred _ _ => [pred]
  | .loadNext _ _ curr | .mark _ _ curr _ => [curr]
  | .reclaim _ (.delete current _) | .elsewhere (.delete current _) => [current.data]
  | _ => []

/-- Each validation that succeeds finds `pred` unmarked. -/
def ValidatesUnmarked (_ : List (Step ι T)) (c : Config ι (Shared ι T) (Local T)) (t : ι)
    (_ : Choice T) : Prop :=
  ∀ k p c' pred curr, (c.loc t).pc = .find k ⟨p, c', .validate pred curr⟩ →
    c.shared.next pred = some curr → c.shared.marked pred = false

/-! ## The invariant -/

/-- Where an address is: free, with the thread that made it, on the chain, or retired. -/
inductive Home (ι : Type) where
  | free
  | new (t : ι)
  | linked
  | retired

/-- `x` is the sentinel, which is never deleted, or slot `j` guards it. -/
def Safe (g : ℕ → ℕ → Prop) (j x : ℕ) : Prop := x = head ∨ g j x

/-- What a search relies on at each place, with its slots `p` and `c`. -/
def Holds (g : ℕ → ℕ → Prop) (s : Shared ι T) (p c : ℕ) : Place → Prop
  | .start => True
  | .load pred => pred = head
  | .protect pred _ | .reclaim pred _ _ => Safe g p pred
  | .validate pred curr => Safe g p pred ∧ s.hazard.pointer c = some curr
  | .loadNext pred curr | .compare pred curr _ => Safe g p pred ∧ g c curr
  | .unlink pred curr next =>
    Safe g p pred ∧ g c curr ∧ s.marked curr = true ∧ s.next curr = next
  | .result _ pred curr => Safe g p pred ∧ ∀ x, curr = some x → g c x

namespace Pc

/-- What a thread relies on at each place, with its slots. -/
def Holds (g : ℕ → ℕ → Prop) (s : Shared ι T) (slots : List ℕ) : Pc T → Prop
  | .find _ ⟨p, c, place⟩ =>
    p ∈ slots ∧ c ∈ slots ∧ p ≠ c ∧ LockfreeList.Holds g s p c place
  | .setNext _ _ pred curr | .link _ _ pred curr =>
    (∃ j ∈ slots, Safe g j pred) ∧ ∀ x, curr = some x → ∃ j ∈ slots, g j x
  | .loadNext _ pred curr | .mark _ pred curr _ =>
    (∃ j ∈ slots, Safe g j pred) ∧ ∃ j ∈ slots, g j curr
  | .unlink pred curr next =>
    (∃ j ∈ slots, Safe g j pred) ∧ (∃ j ∈ slots, g j curr) ∧ s.marked curr = true ∧
      s.next curr = next
  | _ => True

/-- The node a thread has made and not linked in. -/
def made : Pc T → Option ℕ
  | .find (.insert n _) _ | .setNext n _ _ _ | .link n _ _ _ | .deleteNew n => some n
  | _ => none

/-- The thread's place in `reclaim_later`. -/
def inReclaim : Pc T → Reclaim
  | .find _ ⟨_, _, .reclaim _ _ r⟩ | .reclaim _ r | .elsewhere r => r
  | _ => .finished

/-- How many slots the thread owns. -/
def Arity (n : ℕ) : Pc T → Prop
  | .idle | .elsewhere _ | .done _ => n = 0
  | .claim _ _ => n ≤ 1
  | .reclaim _ _ | .destroy _ | .disown _ => True
  | _ => n = 2

end Pc

/-- **The invariant**: `home` says where each address is, `w` where the retired ones are, `l` is the
chain and `g` what the slots guard. -/
structure Hazards (home : ℕ → Home ι) (w : ℕ → Where ι) (l : List ℕ) (g : ℕ → ℕ → Prop)
    (s : Shared ι T) (f : ι → Local T) : Prop where
  owns : ∀ t i, i ∈ (f t).slots → s.hazard.id i = some t ∧ i < maxHazardPointers
  nodup : ∀ t, (f t).slots.Nodup
  arity : ∀ t, (f t).pc.Arity (f t).slots.length
  alive : ∀ a, s.alive a = true ↔ home a ≠ .free
  made : ∀ t a, (f t).pc.made = some a ↔ home a = .new t
  linked : ∀ a, a ∈ l ↔ home a = .linked
  retired : ∀ a, home a = .retired ↔ w a ≠ .outside
  chain : Linked s.next (some head) l
  head_unmarked : s.marked head = false
  retired_marked : ∀ a, home a = .retired → s.marked a = true
  guard_home : ∀ j a, g j a → a ≠ head ∧ (home a = .linked ∨ home a = .retired)
  reclaim : Reclaiming w g s.hazard fun t => (f t).pc.inReclaim
  link_next : ∀ t n v pred curr, (f t).pc = .link n v pred curr → s.next n = curr
  holds : ∀ t, (f t).pc.Holds g s (f t).slots

variable {home home' : ℕ → Home ι} {w w' : ℕ → Where ι} {l l₁ : List ℕ} {g g' : ℕ → ℕ → Prop}
  {s s' : Shared ι T} {f : ι → Local T} {t : ι} {l' : Local T}

/-- What the guards of some slots say, and what is frozen in guarded nodes, stays. -/
structure Steady (g g' : ℕ → ℕ → Prop) (s s' : Shared ι T) (slots : List ℕ) : Prop where
  guard : ∀ j ∈ slots, ∀ a, g j a → g' j a
  pointer : ∀ j ∈ slots, s'.hazard.pointer j = s.hazard.pointer j
  frozen : ∀ j ∈ slots, ∀ a, g j a → s.marked a = true → s'.marked a = true ∧ s'.next a = s.next a

theorem Safe.mono {slots : List ℕ} (hS : Steady g g' s s' slots) {j x : ℕ} (hj : j ∈ slots)
    (h : Safe g j x) : Safe g' j x := h.imp id (hS.guard j hj x)

theorem Holds.mono {slots : List ℕ} (hS : Steady g g' s s' slots) {p c : ℕ} (hp : p ∈ slots)
    (hc : c ∈ slots) {place : Place} (h : Holds g s p c place) : Holds g' s' p c place := by
  cases place with
  | start => trivial
  | load pred => exact h
  | protect pred curr | reclaim pred next r => exact Safe.mono hS hp h
  | validate pred curr => exact ⟨h.1.mono hS hp, (hS.pointer c hc).trans h.2⟩
  | loadNext pred curr | compare pred curr next => exact ⟨h.1.mono hS hp, hS.guard c hc _ h.2⟩
  | unlink pred curr next =>
    obtain ⟨h1, h2, h3, h4⟩ := h
    obtain ⟨h5, h6⟩ := hS.frozen c hc curr h2 h3
    exact ⟨h1.mono hS hp, hS.guard c hc _ h2, h5, h6.trans h4⟩
  | result found pred curr => exact ⟨h.1.mono hS hp, fun x hx => hS.guard c hc x (h.2 x hx)⟩

theorem Pc.Holds.mono {slots : List ℕ} (hS : Steady g g' s s' slots) {pc : Pc T}
    (h : pc.Holds g s slots) : pc.Holds g' s' slots := by
  have hsafe : ∀ x, (∃ j ∈ slots, Safe g j x) → ∃ j ∈ slots, Safe g' j x := by
    rintro x ⟨j, hj, hx⟩
    exact ⟨j, hj, hx.mono hS hj⟩
  have hguard : ∀ x, (∃ j ∈ slots, g j x) → ∃ j ∈ slots, g' j x := by
    rintro x ⟨j, hj, hx⟩
    exact ⟨j, hj, hS.guard j hj x hx⟩
  cases pc with
  | find k f =>
    obtain ⟨p, c, place⟩ := f
    obtain ⟨h1, h2, h3, h4⟩ := h
    exact ⟨h1, h2, h3, h4.mono hS h1 h2⟩
  | setNext n v pred curr | link n v pred curr =>
    exact ⟨hsafe _ h.1, fun x hx => hguard x (h.2 x hx)⟩
  | loadNext v pred curr | mark v pred curr next => exact ⟨hsafe _ h.1, hguard _ h.2⟩
  | unlink pred curr next =>
    obtain ⟨h1, ⟨j, hj, h2⟩, h3, h4⟩ := h
    obtain ⟨h5, h6⟩ := hS.frozen j hj curr h2 h3
    exact ⟨hsafe _ h1, ⟨j, hj, hS.guard j hj curr h2⟩, h5, h6.trans h4⟩
  | _ => trivial

/-- Two threads own different slots. -/
theorem Hazards.slot_inj (h : Hazards home w l g s f) {u : ι} {i : ℕ} (ht : i ∈ (f t).slots)
    (hu : i ∈ (f u).slots) : t = u := by
  have h1 := (h.owns t i ht).1
  rw [(h.owns u i hu).1] at h1
  exact (Option.some.inj h1).symm

variable [DecidableEq ι]

theorem holds_set (h : Hazards home w l g s f) (t : ι) (l' : Local T)
    (hS : ∀ u, u ≠ t → Steady g g' s s' (f u).slots) (ht : l'.pc.Holds g' s' l'.slots) :
    ∀ u, (Function.update f t l' u).pc.Holds g' s' (Function.update f t l' u).slots := by
  intro u
  by_cases hut : u = t
  · subst hut; simpa using ht
  · simpa [hut] using (h.holds u).mono (hS u hut)

theorem view_set (hr : l'.pc.inReclaim.view = (f t).pc.inReclaim.view) (u : ι) :
    (Function.update f t l' u).pc.inReclaim.view = (f u).pc.inReclaim.view := by
  by_cases hut : u = t
  · subst hut; simpa using hr
  · simp [hut]

theorem arity_set (h : Hazards home w l g s f) (t : ι) (l' : Local T)
    (ha : l'.pc.Arity l'.slots.length) (u : ι) :
    (Function.update f t l' u).pc.Arity (Function.update f t l' u).slots.length := by
  by_cases hut : u = t
  · subst hut; simpa using ha
  · simpa [hut] using h.arity u

/-- A step that changes nothing shared, owns the same slots and stores to none. -/
theorem Hazards.goto (h : Hazards home w l g s f) {i : List ℕ} {pc pc' : Pc T}
    (hft : f t = ⟨i, pc⟩) (hholds : pc'.Holds g s i)
    (harity : pc'.Arity i.length) (hmade : pc'.made = pc.made := by rfl)
    (hrec : pc'.inReclaim.view = pc.inReclaim.view := by rfl)
    (hlink : ∀ n v pred curr, pc' ≠ .link n v pred curr := by nofun) :
    Hazards home w l g s (Function.update f t ⟨i, pc'⟩) := by
  have hself : ∀ u, u ≠ t → Steady g g s s (f u).slots := fun u _ =>
    ⟨fun _ _ _ h => h, fun _ _ => rfl, fun _ _ _ _ h => ⟨h, rfl⟩⟩
  have hall := holds_set h t ⟨i, pc'⟩ hself hholds
  have harr := arity_set h t ⟨i, pc'⟩ harity
  have hreclaim : Reclaiming w g s.hazard
      fun u => (Function.update f t ⟨i, pc'⟩ u).pc.inReclaim :=
    h.reclaim.rebase rfl (view_set (by rw [hft]; exact hrec)) fun j a hj =>
      ⟨h.reclaim.prot_pointer j a hj, h.reclaim.prot_lt j a hj, .inl hj⟩
  obtain ⟨h1, h2, h3, h4, h5, h6, h7, h8, h9, h10, h11, -, h13, -⟩ := h
  refine ⟨?_, ?_, harr, h4, ?_, h6, h7, h8, h9, h10, h11, hreclaim, ?_, hall⟩ <;> grind

/-- The guards that are left when slot `i` is stored to. -/
def without (g : ℕ → ℕ → Prop) (i : ℕ) : ℕ → ℕ → Prop := fun j a => g j a ∧ j ≠ i

/-- A thread stores to one of its slots. -/
theorem Hazards.store (h : Hazards home w l g s f) {i : List ℕ} {j : ℕ} {p : Option ℕ}
    {pc pc' : Pc T} (hft : f t = ⟨i, pc⟩) (hj : j ∈ i)
    (hholds : pc'.Holds (without g j) { s with hazard := HazardPtr.store s.hazard j p } i)
    (harity : pc'.Arity i.length) (hmade : pc'.made = pc.made := by rfl)
    (hrec : pc'.inReclaim.view = pc.inReclaim.view := by rfl)
    (hlink : ∀ n v pred curr, pc' ≠ .link n v pred curr := by nofun) :
    Hazards home w l (without g j) { s with hazard := HazardPtr.store s.hazard j p }
      (Function.update f t ⟨i, pc'⟩) := by
  have hother : ∀ u, u ≠ t → ∀ k ∈ (f u).slots, k ≠ j := by
    rintro u hut k hk rfl
    exact hut (h.slot_inj hk (by rw [hft]; exact hj))
  have hS : ∀ u, u ≠ t → Steady g (without g j) s
      { s with hazard := HazardPtr.store s.hazard j p } (f u).slots := fun u hut =>
    ⟨fun k hk a ha => ⟨ha, hother u hut k hk⟩, fun k hk => by simp [hother u hut k hk],
      fun _ _ _ _ hm => ⟨hm, rfl⟩⟩
  have hall := holds_set h t ⟨i, pc'⟩ hS hholds
  have harr := arity_set h t ⟨i, pc'⟩ harity
  have hreclaim : Reclaiming w (without g j) (HazardPtr.store s.hazard j p)
      fun u => (Function.update f t ⟨i, pc'⟩ u).pc.inReclaim :=
    h.reclaim.rebase rfl (view_set (by rw [hft]; exact hrec)) fun k a hk =>
      ⟨by simpa [hk.2] using h.reclaim.prot_pointer k a hk.1, h.reclaim.prot_lt k a hk.1,
        .inl hk.1⟩
  have hguard : ∀ k a, without g j k a → g k a := fun _ _ hk => hk.1
  obtain ⟨h1, h2, h3, h4, h5, h6, h7, h8, h9, h10, h11, -, h13, -⟩ := h
  refine ⟨?_, ?_, harr, h4, ?_, h6, h7, h8, h9, h10, ?_, hreclaim, ?_, hall⟩ <;> grind

/-- A thread claims a slot. -/
theorem Hazards.claim (h : Hazards home w l g s f) {i : List ℕ} {j k : ℕ} {o : Op T} {pc' : Pc T}
    (hft : f t = ⟨i, .claim o j⟩) (hj : k < maxHazardPointers) (hid : s.hazard.id k = none)
    (hholds : pc'.Holds g s (k :: i)) (harity : pc'.Arity (k :: i).length)
    (hmade : pc'.made = none) (hrec : pc'.inReclaim.view = Reclaim.finished.view)
    (hlink : ∀ n v pred curr, pc' ≠ .link n v pred curr) :
    Hazards home w l g
      { s with hazard := { s.hazard with id := Function.update s.hazard.id k (some t) } }
      (Function.update f t ⟨k :: i, pc'⟩) := by
  have hself : ∀ u, u ≠ t → Steady g g s
      { s with hazard := { s.hazard with id := Function.update s.hazard.id k (some t) } }
      (f u).slots := fun u _ => ⟨fun _ _ _ h => h, fun _ _ => rfl, fun _ _ _ _ h => ⟨h, rfl⟩⟩
  have hholds' : pc'.Holds g
      { s with hazard := { s.hazard with id := Function.update s.hazard.id k (some t) } }
      (k :: i) :=
    hholds.mono ⟨fun _ _ _ h => h, fun _ _ => rfl, fun _ _ _ _ h => ⟨h, rfl⟩⟩
  have hall := holds_set h t ⟨k :: i, pc'⟩ hself hholds'
  have harr := arity_set h t ⟨k :: i, pc'⟩ harity
  have hreclaim : Reclaiming w g { s.hazard with id := Function.update s.hazard.id k (some t) }
      fun u => (Function.update f t ⟨k :: i, pc'⟩ u).pc.inReclaim :=
    h.reclaim.rebase rfl (view_set (by rw [hft]; exact hrec)) fun j a hj =>
      ⟨h.reclaim.prot_pointer j a hj, h.reclaim.prot_lt j a hj, .inl hj⟩
  have hki : k ∉ i := fun hmem => by
    have := (h.owns t k (by rw [hft]; exact hmem)).1
    rw [hid] at this
    cases this
  have hmade' : (f t).pc.made = none := by rw [hft]; rfl
  have hslots : (f t).slots = i := by rw [hft]
  obtain ⟨h1, h2, h3, h4, h5, h6, h7, h8, h9, h10, h11, -, h13, -⟩ := h
  refine ⟨?_, ?_, harr, h4, ?_, h6, h7, h8, h9, h10, h11, hreclaim, ?_, hall⟩ <;> grind

/-- A thread gives its newest slot back. -/
theorem Hazards.disown (h : Hazards home w l g s f) {i : List ℕ} {j : ℕ} {r : Res}
    (hft : f t = ⟨j :: i, .disown r⟩) :
    Hazards home w l g { s with hazard := release s.hazard j }
      (Function.update f t ⟨i, .destroy r⟩) := by
  have hother : ∀ u, u ≠ t → ∀ k ∈ (f u).slots, k ≠ j := by
    rintro u hut k hk rfl
    exact hut (h.slot_inj hk (by rw [hft]; simp))
  have hself : ∀ u, u ≠ t → Steady g g s { s with hazard := release s.hazard j } (f u).slots :=
    fun u _ => ⟨fun _ _ _ h => h, fun _ _ => rfl, fun _ _ _ _ h => ⟨h, rfl⟩⟩
  have hall := holds_set h t ⟨i, .destroy r⟩ hself trivial
  have harr := arity_set h t ⟨i, .destroy r⟩ trivial
  have hreclaim : Reclaiming w g (release s.hazard j)
      fun u => (Function.update f t ⟨i, .destroy r⟩ u).pc.inReclaim :=
    h.reclaim.rebase rfl (view_set (by rw [hft]; rfl)) fun j a hj =>
      ⟨h.reclaim.prot_pointer j a hj, h.reclaim.prot_lt j a hj, .inl hj⟩
  have hnd := h.nodup t
  have hslots : (f t).slots = j :: i := by rw [hft]
  have hmade' : (f t).pc.made = none := by rw [hft]; rfl
  obtain ⟨h1, h2, h3, h4, h5, h6, h7, h8, h9, h10, h11, -, h13, -⟩ := h
  refine ⟨?_, ?_, harr, h4, ?_, h6, h7, h8, h9, h10, h11, hreclaim, ?_, hall⟩ <;>
    grind [Pc.made]

/-- The guards after slot `i` was validated for `x`. -/
def withGuard (g : ℕ → ℕ → Prop) (i x : ℕ) : ℕ → ℕ → Prop := fun j a => (i, x) = (j, a) ∨ g j a

omit [DecidableEq ι] in
/-- A node a search stands on, unmarked, is on the chain. -/
theorem Hazards.on_chain (h : Hazards home w l g s f) {j x : ℕ} (hx : Safe g j x)
    (hm : s.marked x = false) : x ∈ l := by
  rcases hx with rfl | hx
  · have hc := h.chain
    cases l with
    | nil => cases hc
    | cons b l => rw [Option.some.inj hc.1]; simp
  · obtain ⟨-, hl | hr⟩ := h.guard_home j x hx
    · exact (h.linked x).mpr hl
    · rw [h.retired_marked x hr] at hm
      cases hm

omit [DecidableEq ι] in
/-- What an unmarked node on the chain points to is on the chain, and not the sentinel. -/
theorem Hazards.next_chain (h : Hazards home w l g s f) {x y : ℕ} (hx : x ∈ l)
    (hn : s.next x = some y) : y ∈ l ∧ y ≠ head := by
  obtain ⟨l₁, l₂, rfl, hl₂⟩ := h.chain.split hx
  cases l₂ with
  | nil => rw [hn] at hl₂; cases hl₂
  | cons z l₂ =>
    obtain rfl : y = z := Option.some.inj (hn.symm.trans hl₂.1)
    refine ⟨by simp, ?_⟩
    rintro rfl
    have hnd := h.chain.nodup
    have hc := h.chain
    cases l₁ with
    | nil =>
      obtain rfl := Option.some.inj hc.1
      simp at hnd
    | cons b l₁ =>
      obtain rfl := Option.some.inj hc.1
      simp at hnd

/-- A successful validation that finds `pred` unmarked. -/
theorem Hazards.valid (h : Hazards home w l g s f) {i : List ℕ} {k : Task T} {p c pred curr : ℕ}
    (hft : f t = ⟨i, .find k ⟨p, c, .validate pred curr⟩⟩) (hn : s.next pred = some curr)
    (hm : s.marked pred = false) :
    Hazards home w l (withGuard g c curr) s
      (Function.update f t ⟨i, .find k ⟨p, c, .loadNext pred curr⟩⟩) := by
  have hh := h.holds t
  rw [hft] at hh
  obtain ⟨hp, hc, hpc, hsafe, hptr⟩ := hh
  obtain ⟨hcl, hch⟩ := h.next_chain (h.on_chain hsafe hm) hn
  have hlink := (h.linked curr).mp hcl
  have hout : w curr = .outside := by
    by_contra hne
    rw [(h.retired curr).mpr hne] at hlink
    cases hlink
  have hmono : ∀ slots, Steady g (withGuard g c curr) s s slots := fun _ =>
    ⟨fun _ _ _ h => .inr h, fun _ _ => rfl, fun _ _ _ _ h => ⟨h, rfl⟩⟩
  have hall := holds_set h t ⟨i, .find k ⟨p, c, .loadNext pred curr⟩⟩ (fun u _ => hmono _)
    ⟨hp, hc, hpc, hsafe.mono (hmono i) hp, .inl rfl⟩
  have harr := arity_set h t ⟨i, .find k ⟨p, c, .loadNext pred curr⟩⟩ (by
    have := h.arity t
    rw [hft] at this
    exact this)
  have hreclaim : Reclaiming w (withGuard g c curr) s.hazard
      fun u => (Function.update f t ⟨i, .find k ⟨p, c, .loadNext pred curr⟩⟩ u).pc.inReclaim := by
    refine h.reclaim.rebase rfl (view_set (by rw [hft]; rfl)) fun j a hj => ?_
    rcases hj with hj | hj
    · cases hj
      exact ⟨hptr, (h.owns t c (by rw [hft]; exact hc)).2, .inr hout⟩
    · exact ⟨h.reclaim.prot_pointer j a hj, h.reclaim.prot_lt j a hj, .inl hj⟩
  have hguard : ∀ j a, withGuard g c curr j a → a = curr ∨ g j a := by
    rintro j a (e | hj)
    · cases e; exact .inl rfl
    · exact .inr hj
  have hmade : (Pc.find k ⟨p, c, .loadNext pred curr⟩).made = (f t).pc.made := by
    rw [hft]; cases k <;> rfl
  have hslots : (f t).slots = i := by rw [hft]
  obtain ⟨h1, h2, h3, h4, h5, h6, h7, h8, h9, h10, h11, -, h13, -⟩ := h
  refine ⟨?_, ?_, harr, h4, ?_, h6, h7, h8, h9, h10, ?_, hreclaim, ?_, hall⟩ <;> grind

omit [DecidableEq ι] in
/-- A thread with its two slots may start a search. -/
theorem search_holds (h : Hazards home w l g s f) {i : List ℕ} {pc : Pc T} (hft : f t = ⟨i, pc⟩)
    (hi : i.length = 2) (k : Task T) (s' : Shared ι T) : (search k i).Holds g s' i := by
  obtain ⟨c, p, rfl⟩ := List.length_eq_two.mp hi
  have hnd := h.nodup t
  rw [hft] at hnd
  simp only [List.nodup_cons, List.mem_singleton] at hnd
  exact ⟨by simp, by simp, fun e => hnd.1 e.symm, trivial⟩

/-! ## Writes to links -/

/-- A marked node is unlinked behind an unmarked one and handed to `reclaim_later`. -/
theorem Hazards.unlink (h : Hazards home w l g s f) {i : List ℕ} {pc : Pc T} {j pred curr : ℕ}
    {next : Option ℕ} (pc' : Pc T) (hft : f t = ⟨i, pc⟩) (hpred : Safe g j pred)
    (hcm : s.marked curr = true) (hcn : s.next curr = next) (hn : s.next pred = some curr)
    (hm : s.marked pred = false) (hpc : pc.inReclaim = .finished)
    (hpc' : pc'.inReclaim = .make curr)
    (hholds : pc'.Holds g { s with next := Function.update s.next pred next } i)
    (harity : pc'.Arity i.length) (hmade : pc'.made = pc.made)
    (hlink : ∀ n v pred curr, pc' ≠ .link n v pred curr) :
    ∃ home' w' l₁, Hazards home' w' l₁ g { s with next := Function.update s.next pred next }
      (Function.update f t ⟨i, pc'⟩) := by
  have hpl := h.on_chain hpred hm
  obtain ⟨hcl, hch⟩ := h.next_chain hpl hn
  have hlinked := (h.linked curr).mp hcl
  have hout : w curr = .outside := by
    by_contra hne
    rw [(h.retired curr).mpr hne] at hlinked
    cases hlinked
  have hpm : ∀ a, s.marked a = true → a ≠ pred := by rintro a ha rfl; rw [hm] at ha; cases ha
  have hS : ∀ u, u ≠ t → Steady g g s { s with next := Function.update s.next pred next }
      (f u).slots := fun u _ =>
    ⟨fun _ _ _ h => h, fun _ _ => rfl, fun _ _ a _ ha => ⟨ha, Function.update_of_ne (hpm a ha) _ _⟩⟩
  have hall := holds_set h t ⟨i, pc'⟩ hS hholds
  have harr := arity_set h t ⟨i, pc'⟩ harity
  have hreclaim : Reclaiming (Function.update w curr (.pending t)) g s.hazard
      fun u => (Function.update f t ⟨i, pc'⟩ u).pc.inReclaim := by
    refine (h.reclaim.retire (t := t) hout (by rw [hft]; exact hpc)).rebase rfl (fun u => ?_)
      fun j b hj => ⟨h.reclaim.prot_pointer j b hj, h.reclaim.prot_lt j b hj, .inl hj⟩
    by_cases hut : u = t
    · subst hut; simp [hpc']
    · simp [hut]
  obtain ⟨l₁, l₂, rfl, hl₂⟩ := h.chain.split hpl
  cases l₂ with
  | nil => rw [hn] at hl₂; cases hl₂
  | cons z l₂ =>
    obtain rfl : curr = z := Option.some.inj (hn.symm.trans hl₂.1)
    have hnd := h.chain.nodup
    have hchain : Linked (Function.update s.next pred next) (some head) (l₁ ++ pred :: l₂) := by
      rw [← hcn]; exact h.chain.unlink
    have hnew : ∀ u a, home a = .new u → a ≠ pred := by
      rintro u a ha rfl
      rw [(h.linked a).mp hpl] at ha
      cases ha
    have hlk : ∀ u n v pred curr, (f u).pc = .link n v pred curr → (f u).pc.made = some n :=
      fun u n v pred curr e => by rw [e]; rfl
    refine ⟨Function.update home curr .retired, Function.update w curr (.pending t),
      l₁ ++ pred :: l₂, ?_⟩
    have hmade' : pc'.made = (f t).pc.made := by rw [hft]; exact hmade
    have hslots : (f t).slots = i := by rw [hft]
    obtain ⟨h1, h2, h3, h4, h5, h6, h7, h8, h9, h10, h11, -, h13, -⟩ := h
    refine ⟨?_, ?_, harr, ?_, ?_, ?_, ?_, hchain, h9, ?_, ?_, hreclaim, ?_, hall⟩ <;> grind

/-- A step of `reclaim_later`. -/
theorem Hazards.reclaim_step (h : Hazards home w l g s f) {i : List ℕ} {pc : Pc T}
    {rc rc' : Reclaim} {sp : Bool} {hz : HazardPtr.Shared ι} {freed : Option ℕ} (pc' : Pc T)
    (hft : f t = ⟨i, pc⟩) (hs : rc.step sp s.hazard = some (hz, rc', freed))
    (hpc : pc.inReclaim = rc) (hpc' : pc'.inReclaim = rc')
    (hholds : pc'.Holds g s i)
    (harity : pc'.Arity i.length) (hmade : pc'.made = pc.made)
    (hlink : ∀ n v pred curr, pc' ≠ .link n v pred curr) :
    ∃ home' w', Hazards home' w' l g (Memory.free { s with hazard := hz } freed)
      (Function.update f t ⟨i, pc'⟩) := by
  have hrt : (f t).pc.inReclaim = rc := by rw [hft]; exact hpc
  have hs' : ((fun u => (f u).pc.inReclaim) t).step sp s.hazard = some (hz, rc', freed) := by
    rw [← hs, ← hrt]
  obtain ⟨w', hw', hmoved⟩ := h.reclaim.advance hs'
  obtain ⟨hid, hptr⟩ := Reclaim.step_slots hs
  have hreclaim : Reclaiming w' g hz fun u => (Function.update f t ⟨i, pc'⟩ u).pc.inReclaim := by
    refine hw'.rebase rfl (fun u => ?_) fun j b hj => ⟨hw'.prot_pointer j b hj,
      hw'.prot_lt j b hj, .inl hj⟩
    by_cases hut : u = t
    · subst hut; simp [hpc']
    · simp [hut]
  have hmade' : pc'.made = (f t).pc.made := by rw [hft]; exact hmade
  have hslots : (f t).slots = i := by rw [hft]
  have harr := arity_set h t ⟨i, pc'⟩ harity
  have hout := hmoved.outside
  cases freed with
  | none =>
    have hS : ∀ slots, Steady g g s { s with hazard := hz } slots := fun _ =>
      ⟨fun _ _ _ h => h, fun j _ => hptr j, fun _ _ _ _ h => ⟨h, rfl⟩⟩
    have hall := holds_set h t ⟨i, pc'⟩ (fun u _ => hS _) (hholds.mono (hS i))
    refine ⟨home, w', ?_⟩
    dsimp only [Memory.free]
    obtain ⟨h1, h2, h3, h4, h5, h6, h7, h8, h9, h10, h11, -, h13, -⟩ := h
    refine ⟨?_, ?_, harr, h4, ?_, h6, ?_, h8, h9, h10, h11, hreclaim, ?_, hall⟩ <;> grind
  | some a =>
    have hS : ∀ slots, Steady g g s
        { s with alive := Function.update s.alive a false, hazard := hz } slots := fun _ =>
      ⟨fun _ _ _ h => h, fun j _ => hptr j, fun _ _ _ _ h => ⟨h, rfl⟩⟩
    have hall := holds_set h t ⟨i, pc'⟩ (fun u _ => hS _) (hholds.mono (hS i))
    obtain ⟨hheld, hfree, hnone⟩ := hmoved.freed_held a rfl
    have hhome : home a = .retired := (h.retired a).mpr (by rw [hheld]; nofun)
    refine ⟨Function.update home a .free, w', ?_⟩
    dsimp only [Memory.free]
    obtain ⟨h1, h2, h3, h4, h5, h6, h7, h8, h9, h10, h11, -, h13, -⟩ := h
    refine ⟨?_, ?_, harr, ?_, ?_, ?_, ?_, h8, h9, ?_, ?_, hreclaim, ?_, hall⟩ <;> grind

/-- `new node(value)` at a free address. -/
theorem Hazards.new (h : Hazards home w l g s f) {i : List ℕ} {v : T} {a : ℕ}
    (hft : f t = ⟨i, .new v⟩) (ha : s.alive a = false) :
    Hazards (Function.update home a (.new t)) w l g (s.alloc a (some v))
      (Function.update f t ⟨i, search (.insert a v) i⟩) := by
  have hfree : home a = .free := by
    by_contra hne
    rw [(h.alive a).mpr hne] at ha
    cases ha
  have hga : ∀ j b, g j b → b ≠ a := by
    rintro j b hb rfl
    rcases (h.guard_home j b hb).2 with e | e <;> rw [hfree] at e <;> cases e
  have hal : ∀ b ∈ l, b ≠ a := by
    rintro b hb rfl
    rw [h.linked, hfree] at hb
    cases hb
  have hS : ∀ u, u ≠ t → Steady g g s (s.alloc a (some v)) (f u).slots := fun u _ =>
    ⟨fun _ _ _ h => h, fun _ _ => rfl, fun j _ b hb hm =>
      ⟨(Function.update_of_ne (hga j b hb) _ _).trans hm, Function.update_of_ne (hga j b hb) _ _⟩⟩
  have har := h.arity t
  rw [hft] at har
  have hsearch := search_holds h hft har (.insert a v) (s.alloc a (some v))
  have hall := holds_set h t ⟨i, search (.insert a v) i⟩ hS hsearch
  have harr := arity_set h t ⟨i, search (.insert a v) i⟩ har
  have hreclaim : Reclaiming w g s.hazard
      fun u => (Function.update f t ⟨i, search (.insert a v) i⟩ u).pc.inReclaim :=
    h.reclaim.rebase rfl (view_set (by rw [hft]; rfl)) fun j a hj =>
      ⟨h.reclaim.prot_pointer j a hj, h.reclaim.prot_lt j a hj, .inl hj⟩
  have hchain : Linked (s.alloc a (some v)).next (some head) l :=
    h.chain.congr fun b hb => Function.update_of_ne (hal b hb) _ _
  have hheadl : head ∈ l := h.on_chain (j := 0) (.inl rfl) h.head_unmarked
  have hlk : ∀ u n v pred curr, (f u).pc = .link n v pred curr → (f u).pc.made = some n :=
    fun u n v pred curr e => by rw [e]; rfl
  have hmade : (search (.insert a v) i).made = some a := rfl
  have hmade' : (f t).pc.made = none := by rw [hft]; rfl
  have hslots : (f t).slots = i := by rw [hft]
  have hnl : ∀ n v' pred curr, search (.insert a v) i ≠ .link n v' pred curr := nofun
  obtain ⟨h1, h2, h3, h4, h5, h6, h7, h8, h9, h10, h11, -, h13, -⟩ := h
  refine ⟨?_, ?_, harr, ?_, ?_, ?_, ?_, hchain, ?_, ?_, ?_, hreclaim, ?_, hall⟩
  case refine_1 => exact fun u j hj => h1 u j (by grind)
  all_goals grind

/-- `new_node->next.store(curr)`. -/
theorem Hazards.set_next (h : Hazards home w l g s f) {i : List ℕ} {n pred : ℕ} {v : T}
    {curr : Option ℕ} (hft : f t = ⟨i, .setNext n v pred curr⟩) :
    Hazards home w l g (s.setNext n curr) (Function.update f t ⟨i, .link n v pred curr⟩) := by
  have hhome : home n = .new t := (h.made t n).mp (by rw [hft]; rfl)
  have hgn : ∀ j b, g j b → b ≠ n := by
    rintro j b hb rfl
    rcases (h.guard_home j b hb).2 with e | e <;> rw [hhome] at e <;> cases e
  have hnl : ∀ b ∈ l, b ≠ n := by
    rintro b hb rfl
    rw [h.linked, hhome] at hb
    cases hb
  have hS : ∀ slots, Steady g g s (s.setNext n curr) slots := fun _ =>
    ⟨fun _ _ _ h => h, fun _ _ => rfl, fun j _ b hb hm =>
      ⟨(Function.update_of_ne (hgn j b hb) _ _).trans hm, Function.update_of_ne (hgn j b hb) _ _⟩⟩
  have hh := h.holds t
  have har := h.arity t
  rw [hft] at hh har
  have hall := holds_set h t ⟨i, .link n v pred curr⟩ (fun u _ => hS _) (hh.mono (hS i))
  have harr := arity_set h t ⟨i, .link n v pred curr⟩ har
  have hreclaim : Reclaiming w g s.hazard
      fun u => (Function.update f t ⟨i, .link n v pred curr⟩ u).pc.inReclaim :=
    h.reclaim.rebase rfl (view_set (by rw [hft]; rfl)) fun j a hj =>
      ⟨h.reclaim.prot_pointer j a hj, h.reclaim.prot_lt j a hj, .inl hj⟩
  have hchain : Linked (s.setNext n curr).next (some head) l :=
    h.chain.congr fun b hb => Function.update_of_ne (hnl b hb) _ _
  have hheadl : head ∈ l := h.on_chain (j := 0) (.inl rfl) h.head_unmarked
  have hlk : ∀ u n v pred curr, (f u).pc = .link n v pred curr → (f u).pc.made = some n :=
    fun u n v pred curr e => by rw [e]; rfl
  have hmade : (Pc.link n v pred curr).made = (f t).pc.made := by rw [hft]; rfl
  have hslots : (f t).slots = i := by rw [hft]
  obtain ⟨h1, h2, h3, h4, h5, h6, h7, h8, h9, h10, h11, -, h13, -⟩ := h
  refine ⟨?_, ?_, harr, ?_, ?_, h6, h7, hchain, ?_, ?_, h11, hreclaim, ?_, hall⟩
  case refine_1 => exact fun u j hj => h1 u j (by grind)
  all_goals grind

/-- The compare-exchange of `insert` succeeds. -/
theorem Hazards.link (h : Hazards home w l g s f) {i : List ℕ} {n pred : ℕ} {v : T}
    {curr : Option ℕ} (hft : f t = ⟨i, .link n v pred curr⟩) (hn : s.next pred = curr)
    (hm : s.marked pred = false) :
    ∃ home' l₁, Hazards home' w l₁ g { s with next := Function.update s.next pred (some n) }
      (Function.update f t ⟨i, .destroy (.bool true)⟩) := by
  have hhome : home n = .new t := (h.made t n).mp (by rw [hft]; rfl)
  have hnn := h.link_next t n v pred curr (by rw [hft])
  have hh := h.holds t
  rw [hft] at hh
  obtain ⟨⟨j, -, hsafe⟩, -⟩ := hh
  have hpl := h.on_chain hsafe hm
  have hnl : n ∉ l := fun hb => by
    rw [h.linked, hhome] at hb
    cases hb
  have hpm : ∀ a, s.marked a = true → a ≠ pred := by rintro a ha rfl; rw [hm] at ha; cases ha
  have hS : ∀ u, u ≠ t → Steady g g s { s with next := Function.update s.next pred (some n) }
      (f u).slots := fun u _ =>
    ⟨fun _ _ _ h => h, fun _ _ => rfl, fun _ _ a _ ha => ⟨ha, Function.update_of_ne (hpm a ha) _ _⟩⟩
  have hall := holds_set h t ⟨i, .destroy (.bool true)⟩ hS trivial
  have harr := arity_set h t ⟨i, .destroy (.bool true)⟩ trivial
  have hreclaim : Reclaiming w g s.hazard
      fun u => (Function.update f t ⟨i, .destroy (.bool true)⟩ u).pc.inReclaim :=
    h.reclaim.rebase rfl (view_set (by rw [hft]; rfl)) fun j a hj =>
      ⟨h.reclaim.prot_pointer j a hj, h.reclaim.prot_lt j a hj, .inl hj⟩
  obtain ⟨l₁, l₂, rfl, hl₂⟩ := h.chain.split hpl
  have hchain := h.chain.insert hnl (hnn.trans hn.symm)
  have hnew : ∀ u a, home a = .new u → a ≠ pred := by
    rintro u a ha rfl
    rw [(h.linked a).mp hpl] at ha
    cases ha
  have hlk : ∀ u n v pred curr, (f u).pc = .link n v pred curr → (f u).pc.made = some n :=
    fun u n v pred curr e => by rw [e]; rfl
  have hmade : (Pc.destroy (.bool true) : Pc T).made = none := rfl
  have hslots : (f t).slots = i := by rw [hft]
  have hmem : ∀ x, x ∈ l₁ ++ pred :: n :: l₂ ↔ x = n ∨ x ∈ l₁ ++ pred :: l₂ := by intro x; grind
  refine ⟨Function.update home n .linked, l₁ ++ pred :: n :: l₂, ?_⟩
  obtain ⟨h1, h2, h3, h4, h5, h6, h7, h8, h9, h10, h11, -, h13, -⟩ := h
  refine ⟨?_, ?_, harr, ?_, ?_, ?_, ?_, hchain, h9, ?_, ?_, hreclaim, ?_, hall⟩ <;> grind

/-- `delete new_node`. -/
theorem Hazards.delete_new (h : Hazards home w l g s f) {i : List ℕ} {n : ℕ}
    (hft : f t = ⟨i, .deleteNew n⟩) :
    Hazards (Function.update home n .free) w l g (s.free (some n))
      (Function.update f t ⟨i, .destroy (.bool false)⟩) := by
  have hhome : home n = .new t := (h.made t n).mp (by rw [hft]; rfl)
  have hS : ∀ u, u ≠ t → Steady g g s (s.free (some n)) (f u).slots := fun u _ =>
    ⟨fun _ _ _ h => h, fun _ _ => rfl, fun _ _ _ _ ha => ⟨ha, rfl⟩⟩
  have hall := holds_set h t ⟨i, .destroy (.bool false)⟩ hS trivial
  have harr := arity_set h t ⟨i, .destroy (.bool false)⟩ trivial
  have hreclaim : Reclaiming w g s.hazard
      fun u => (Function.update f t ⟨i, .destroy (.bool false)⟩ u).pc.inReclaim :=
    h.reclaim.rebase rfl (view_set (by rw [hft]; rfl)) fun j a hj =>
      ⟨h.reclaim.prot_pointer j a hj, h.reclaim.prot_lt j a hj, .inl hj⟩
  have hmade : (Pc.destroy (.bool false) : Pc T).made = none := rfl
  have hslots : (f t).slots = i := by rw [hft]
  dsimp only [Memory.free] at hall ⊢
  obtain ⟨h1, h2, h3, h4, h5, h6, h7, h8, h9, h10, h11, -, h13, -⟩ := h
  refine ⟨?_, ?_, harr, ?_, ?_, ?_, ?_, h8, h9, ?_, ?_, hreclaim, ?_, hall⟩ <;> grind

/-- The compare-exchange of `erase` succeeds. -/
theorem Hazards.mark (h : Hazards home w l g s f) {i : List ℕ} {pred curr : ℕ} {v : T}
    {next : Option ℕ} (hft : f t = ⟨i, .mark v pred curr next⟩) (hn : s.next curr = next) :
    Hazards home w l g { s with marked := Function.update s.marked curr true }
      (Function.update f t ⟨i, .unlink pred curr next⟩) := by
  have hh := h.holds t
  have har := h.arity t
  rw [hft] at hh har
  obtain ⟨hsafe, j, hj, hg⟩ := hh
  have hS : ∀ u, u ≠ t → Steady g g s { s with marked := Function.update s.marked curr true }
      (f u).slots := fun u _ =>
    ⟨fun _ _ _ h => h, fun _ _ => rfl, fun _ _ a _ ha => ⟨by grind, rfl⟩⟩
  have hall := holds_set h t ⟨i, .unlink pred curr next⟩ hS
    ⟨hsafe, ⟨j, hj, hg⟩, Function.update_self .., hn⟩
  have harr := arity_set h t ⟨i, .unlink pred curr next⟩ har
  have hreclaim : Reclaiming w g s.hazard
      fun u => (Function.update f t ⟨i, .unlink pred curr next⟩ u).pc.inReclaim :=
    h.reclaim.rebase rfl (view_set (by rw [hft]; rfl)) fun j a hj =>
      ⟨h.reclaim.prot_pointer j a hj, h.reclaim.prot_lt j a hj, .inl hj⟩
  have hmade : (Pc.unlink pred curr next : Pc T).made = none := rfl
  have hmade' : (f t).pc.made = none := by rw [hft]; rfl
  have hslots : (f t).slots = i := by rw [hft]
  have hne := (h.guard_home j curr hg).1
  obtain ⟨h1, h2, h3, h4, h5, h6, h7, h8, h9, h10, h11, -, h13, -⟩ := h
  refine ⟨?_, ?_, harr, h4, ?_, h6, h7, h8, ?_, ?_, h11, hreclaim, ?_, hall⟩ <;> grind

/-! ## Every step -/

/-- The guards after a step from `l` to `pc'`. -/
def nextGuards (g : ℕ → ℕ → Prop) (l : Local T) (pc' : Pc T) (j a : ℕ) : Prop :=
  l.pc.validated pc' = some (j, a) ∨ (g j a ∧ l.storesTo ≠ some j)

/-- After a step: the invariant with the new guards. -/
def Advances (g : ℕ → ℕ → Prop) (f : ι → Local T) (t : ι) (s' : Shared ι T) (l' : Local T) : Prop :=
  ∃ home w l, Hazards home w l (nextGuards g (f t) l'.pc) s' (Function.update f t l')

theorem Advances.same (h : Hazards home w l g s' (Function.update f t l'))
    (hv : (f t).pc.validated l'.pc = none) (hs : (f t).storesTo = none) :
    Advances g f t s' l' := by
  have hg : nextGuards g (f t) l'.pc = g := by
    funext j a; simp [nextGuards, hv, hs]
  exact ⟨home, w, l, by rw [hg]; exact h⟩

theorem Advances.store {i : ℕ} (h : Hazards home w l (without g i) s' (Function.update f t l'))
    (hv : (f t).pc.validated l'.pc = none) (hs : (f t).storesTo = some i) :
    Advances g f t s' l' := by
  have hg : nextGuards g (f t) l'.pc = without g i := by
    funext j a; simp [nextGuards, without, hv, hs, eq_comm]
  exact ⟨home, w, l, by rw [hg]; exact h⟩

theorem Advances.guard {i x : ℕ} (h : Hazards home w l (withGuard g i x) s'
    (Function.update f t l'))
    (hv : (f t).pc.validated l'.pc = some (i, x)) (hs : (f t).storesTo = none) :
    Advances g f t s' l' := by
  have hg : nextGuards g (f t) l'.pc = withGuard g i x := by
    funext j a; simp [nextGuards, withGuard, hv, hs]
  exact ⟨home, w, l, by rw [hg]; exact h⟩

omit [DecidableEq ι] in
theorem loop_holds {p c pred : ℕ} {next : Option ℕ} (hp : Safe g p pred) :
    Holds g s p c (loop pred next) := by
  cases next with
  | none => exact ⟨hp, nofun⟩
  | some b => exact hp

section
variable [LT T] [DecidableLT T]

/-- A step of a search. -/
theorem hazards_find (h : Hazards home w l g s f) {i : List ℕ} {k : Task T} {f₀ f' : Find}
    (hft : f t = ⟨i, .find k f₀⟩) (hmv : Find.Move (find k.value) s f₀ s' f')
    (hok : ∀ p c pred curr, f₀ = ⟨p, c, .validate pred curr⟩ → s.next pred = some curr →
      s.marked pred = false) : Advances g f t s' ⟨i, .find k f'⟩ := by
  have hh := h.holds t
  have har := h.arity t
  rw [hft] at hh har
  have hmade : ∀ f', (Pc.find k f').made = (Pc.find k f₀).made := fun f' => by cases k <;> rfl
  cases hmv with
  | start p c =>
    obtain ⟨hp, hc, hpc, -⟩ := hh
    exact .store (h.store hft hp ⟨hp, hc, hpc, rfl⟩ har (hmade _)) (by rw [hft]; rfl)
      (by rw [hft]; rfl)
  | load p c pred =>
    obtain ⟨hp, hc, hpc, hpred⟩ := hh
    have hrec : (Pc.find k ⟨p, c, loop pred (s.next pred)⟩).inReclaim = .finished := by
      cases s.next pred <;> rfl
    exact .same (h.goto hft ⟨hp, hc, hpc, loop_holds (.inl hpred)⟩ har (hmade _)
      (by rw [hrec]; rfl))
      (by rw [hft]; rfl) (by rw [hft]; rfl)
  | protect p c pred curr =>
    obtain ⟨hp, hc, hpc, hsafe⟩ := hh
    exact .store (h.store hft hc ⟨hp, hc, hpc, hsafe.imp id fun hg => ⟨hg, hpc⟩, by simp⟩ har
      (hmade _)) (by rw [hft]; rfl) (by rw [hft]; rfl)
  | valid p c pred curr hv =>
    exact .guard (h.valid hft hv (hok p c pred curr rfl hv)) (by rw [hft]; rfl) (by rw [hft]; rfl)
  | invalid p c pred curr =>
    obtain ⟨hp, hc, hpc, -⟩ := hh
    exact .same (h.goto hft ⟨hp, hc, hpc, trivial⟩ har (hmade _)) (by rw [hft]; rfl)
      (by rw [hft]; rfl)
  | loadMarked p c pred curr hm =>
    obtain ⟨hp, hc, hpc, hsafe, hg⟩ := hh
    exact .same (h.goto hft ⟨hp, hc, hpc, hsafe, hg, hm, rfl⟩ har (hmade _)) (by rw [hft]; rfl)
      (by rw [hft]; rfl)
  | loadUnmarked p c pred curr hm =>
    obtain ⟨hp, hc, hpc, hsafe, hg⟩ := hh
    exact .same (h.goto hft ⟨hp, hc, hpc, hsafe, hg⟩ har (hmade _)) (by rw [hft]; rfl)
      (by rw [hft]; rfl)
  | unlink p c pred curr next hn hm hr =>
    obtain ⟨hp, hc, hpc, hsafe, -, hcm, hcn⟩ := hh
    obtain ⟨home', w', l₁, h'⟩ := h.unlink
      (.find k ⟨p, c, .reclaim pred next (.make curr)⟩) hft hsafe hcm hcn hn hm rfl rfl
      ⟨hp, hc, hpc, hsafe⟩ har (hmade _) nofun
    exact .same h' (by rw [hft]; rfl) (by rw [hft]; rfl)
  | unlinkOnly p c pred curr next hn hm hr => cases hr
  | unlinkFail p c pred curr next =>
    obtain ⟨hp, hc, hpc, -⟩ := hh
    exact .same (h.goto hft ⟨hp, hc, hpc, trivial⟩ har (hmade _)) (by rw [hft]; rfl)
      (by rw [hft]; rfl)
  | reclaim p c pred next r sp hz r' freed hs =>
    obtain ⟨home', w', h'⟩ := h.reclaim_step
      (.find k ⟨p, c, .reclaim pred next r'⟩) hft hs rfl rfl hh har (hmade _) nofun
    exact .same h' (by rw [hft]; rfl) (by rw [hft]; rfl)
  | reclaimed p c pred next =>
    obtain ⟨hp, hc, hpc, hsafe⟩ := hh
    have hrec : (Pc.find k ⟨p, c, loop pred next⟩).inReclaim = .finished := by cases next <;> rfl
    exact .same (h.goto hft ⟨hp, hc, hpc, loop_holds hsafe⟩ har (hmade _) (by rw [hrec]; rfl))
      (by rw [hft]; rfl) (by rw [hft]; rfl)
  | advance p c pred curr next ha =>
    obtain ⟨hp, hc, hpc, hsafe, hg⟩ := hh
    have hrec : (Pc.find k ⟨c, p, loop curr next⟩).inReclaim = .finished := by cases next <;> rfl
    exact .same (h.goto hft ⟨hc, hp, hpc.symm, loop_holds (.inr hg)⟩ har (hmade _)
      (by rw [hrec]; rfl)) (by rw [hft]; rfl) (by rw [hft]; rfl)
  | stop p c pred curr next ha =>
    obtain ⟨hp, hc, hpc, hsafe, hg⟩ := hh
    exact .same (h.goto hft ⟨hp, hc, hpc, hsafe, fun x hx => by cases hx; exact hg⟩ har (hmade _))
      (by rw [hft]; rfl) (by rw [hft]; rfl)

theorem hazards_move (h : Hazards home w l g s f) {ch : Choice T} {ev : Event (Op T) Res}
    (hmv : Move t s ch ev (f t) s' l')
    (hok : ∀ k p c pred curr, (f t).pc = .find k ⟨p, c, .validate pred curr⟩ →
      s.next pred = some curr → s.marked pred = false) : Advances g f t s' l' := by
  have hh := h.holds t
  have har := h.arity t
  generalize hft : f t = lt at hmv
  rw [hft] at hh har hok
  cases hmv with
  | elsewhere i => exact .same (h.goto hft trivial har) (by rw [hft]; rfl) (by rw [hft]; rfl)
  | call i o =>
    have hi : i.length = 0 := har
    exact .same (h.goto hft trivial (by simp [Pc.Arity, hi])) (by rw [hft]; rfl) (by rw [hft]; rfl)
  | claim o j i hj hid =>
    have hi : i.length ≤ 1 := har
    have hclaim : ∀ pc' : Pc T, pc'.Holds g s (j :: i) → pc'.Arity (j :: i).length →
        pc'.made = none → pc'.inReclaim.view = Reclaim.finished.view →
        (∀ n v pred curr, pc' ≠ .link n v pred curr) → Advances g f t _ ⟨j :: i, pc'⟩ :=
      fun pc' h1 h2 h3 h4 h5 =>
        .same (h.claim hft hj hid h1 h2 h3 h4 h5) (by rw [hft]; rfl) (by rw [hft]; rfl)
    cases i with
    | nil => exact hclaim (.claim o 0) trivial (Nat.le_refl 1) rfl rfl nofun
    | cons p i =>
      obtain rfl : i = [] := List.eq_nil_of_length_eq_zero
        (Nat.le_zero.mp (Nat.le_of_succ_le_succ hi))
      have hpj : p ≠ j := by
        rintro rfl
        have := (h.owns t p (by rw [hft]; simp)).1
        rw [hid] at this
        cases this
      cases o with
      | insert v => exact hclaim (.new v) trivial rfl rfl rfl nofun
      | erase v =>
        exact hclaim (search (.erase v) [j, p]) ⟨by simp, by simp, hpj, trivial⟩ rfl rfl rfl nofun
      | contains v =>
        exact hclaim (search (.contains v) [j, p]) ⟨by simp, by simp, hpj, trivial⟩ rfl rfl rfl
          nofun
  | claimNext o j i =>
    exact .same (h.goto hft trivial har) (by rw [hft]; rfl) (by rw [hft]; rfl)
  | claimNone o j i =>
    exact .same (h.goto hft trivial trivial) (by rw [hft]; rfl) (by rw [hft]; rfl)
  | destroyed r => exact .same (h.goto hft trivial rfl) (by rw [hft]; rfl) (by rw [hft]; rfl)
  | destroy r j i =>
    exact .store (h.store hft (by simp) trivial trivial) (by rw [hft]; rfl) (by rw [hft]; rfl)
  | disown r j i => exact .same (h.disown hft) (by rw [hft]; rfl) (by rw [hft]; rfl)
  | find i k f₀ s' f' ch hm =>
    exact hazards_find h hft hm fun p c pred curr e => hok k p c pred curr (by rw [e])
  | resume i k p c found pred curr =>
    obtain ⟨hp, hc, -, hsafe, hg⟩ := hh
    have hgo : ∀ pc' : Pc T, pc'.Holds g s i → pc'.Arity i.length → pc'.made = (Pc.find k
        ⟨p, c, .result found pred curr⟩).made → pc'.inReclaim.view = Reclaim.finished.view →
        (∀ n v pred curr, pc' ≠ .link n v pred curr) → Advances g f t s ⟨i, pc'⟩ :=
      fun pc' h1 h2 h3 h4 h5 =>
        .same (h.goto hft h1 h2 h3 h4 h5) (by rw [hft]; rfl) (by rw [hft]; rfl)
    cases k with
    | insert n v =>
      cases found with
      | true => exact hgo (.deleteNew n) trivial har rfl rfl nofun
      | false =>
        exact hgo (.setNext n v pred curr) ⟨⟨p, hp, hsafe⟩, fun x hx => ⟨c, hc, hg x hx⟩⟩ har rfl
          rfl nofun
    | erase v =>
      cases found with
      | false => cases curr <;> exact hgo (.destroy (.bool false)) trivial trivial rfl rfl nofun
      | true =>
        cases curr with
        | none => exact hgo (.destroy (.bool false)) trivial trivial rfl rfl nofun
        | some x =>
          exact hgo (.loadNext v pred x) ⟨⟨p, hp, hsafe⟩, c, hc, hg x rfl⟩ har rfl rfl nofun
    | contains v => exact hgo (.destroy (.bool found)) trivial trivial rfl rfl nofun
  | new i v a ha => exact .same (h.new hft ha) (by rw [hft]; rfl) (by rw [hft]; rfl)
  | setNext i n v pred curr =>
    exact .same (h.set_next hft) (by rw [hft]; rfl) (by rw [hft]; rfl)
  | link i n v pred curr hn hm =>
    obtain ⟨home', l₁, h'⟩ := h.link hft hn hm
    exact .same h' (by rw [hft]; rfl) (by rw [hft]; rfl)
  | linkFail i n v pred curr =>
    exact .same (h.goto hft (search_holds h hft har _ _) har) (by rw [hft]; rfl) (by rw [hft]; rfl)
  | deleteNew i n => exact .same (h.delete_new hft) (by rw [hft]; rfl) (by rw [hft]; rfl)
  | loadNext i v pred curr =>
    exact .same (h.goto hft hh har) (by rw [hft]; rfl) (by rw [hft]; rfl)
  | mark i v pred curr next hn hm =>
    exact .same (h.mark hft hn) (by rw [hft]; rfl) (by rw [hft]; rfl)
  | markFail i v pred curr next =>
    exact .same (h.goto hft (search_holds h hft har _ _) har) (by rw [hft]; rfl) (by rw [hft]; rfl)
  | unlink i pred curr next hn hm =>
    obtain ⟨⟨j, hj, hsafe⟩, -, hcm, hcn⟩ := hh
    obtain ⟨home', w', l₁, h'⟩ := h.unlink (.reclaim (.bool true) (.make curr))
      hft hsafe hcm hcn hn hm rfl rfl trivial trivial rfl nofun
    exact .same h' (by rw [hft]; rfl) (by rw [hft]; rfl)
  | unlinkFail i pred curr next =>
    exact .same (h.goto hft trivial trivial) (by rw [hft]; rfl) (by rw [hft]; rfl)
  | reclaim i res r sp hz r' freed ch hs =>
    obtain ⟨home', w', h'⟩ := h.reclaim_step (.reclaim res r') hft hs rfl rfl
      trivial trivial rfl nofun
    exact .same h' (by rw [hft]; rfl) (by rw [hft]; rfl)
  | reclaimed i res =>
    exact .same (h.goto hft trivial trivial) (by rw [hft]; rfl) (by rw [hft]; rfl)
  | sweep i r sp hz r' freed ch hs =>
    obtain ⟨home', w', h'⟩ := h.reclaim_step (.elsewhere r') hft hs rfl rfl
      trivial har rfl nofun
    exact .same h' (by rw [hft]; rfl) (by rw [hft]; rfl)
  | swept i => exact .same (h.goto hft trivial har) (by rw [hft]; rfl) (by rw [hft]; rfl)
  | ret i r => exact .same (h.goto hft trivial har) (by rw [hft]; rfl) (by rw [hft]; rfl)

variable {h : List (Step ι T)} {c : Config ι (Shared ι T) (Local T)} {count : ℕ}

omit [DecidableEq ι] [LT T] [DecidableLT T] in
theorem hazards_initial : Hazards (fun a => if a = head then .linked else .free)
    (fun _ => .outside) [head] (guarded ([] : List (Step ι T)))
    (initial (ι := ι) (T := T) count).shared (initial (ι := ι) (T := T) count).loc := by
  refine ⟨by simp [initial], fun _ => List.nodup_nil, fun _ => rfl, ?_, ?_, ?_, ?_, ⟨rfl, rfl⟩, rfl,
    ?_, nofun, ?_, nofun, fun _ => trivial⟩
  · intro a; simp [initial]
  · intro t a; simp [initial, Pc.made]; split <;> simp
  · intro a; simp
  · intro a; simp; split <;> simp
  · intro a; split <;> simp
  · refine ⟨?_, ?_, ?_, ?_, ?_, nofun, nofun, nofun⟩ <;>
      simp [initial, HazardPtr.initial, Pc.inReclaim, Reclaim.held, Reclaim.pending]

theorem hazards_run (hr : program.Run ValidatesUnmarked (initial count) h c) :
    ∃ home w l, Hazards home w l (guarded h) c.shared c.loc := by
  refine Program.Run.induction (I := fun h c => ∃ home w l,
    Hazards home w l (guarded h) c.shared c.loc)
    ⟨_, _, _, hazards_initial⟩ ?_ hr
  rintro h c t k ev s l - ⟨home, w, l₀, hI⟩ hok hstep
  obtain ⟨home', w', l₁, hI'⟩ := hazards_move hI (step_move hstep) hok
  refine ⟨home', w', l₁, ?_⟩
  have hg : nextGuards (guarded h) (c.loc t) l.pc = guarded (⟨t, ev, c, c.set t s l⟩ :: h) := by
    funext j a
    simp [nextGuards, guarded]
  rw [hg] at hI'
  exact hI'

omit [DecidableEq ι] [LT T] [DecidableLT T] in
theorem Hazards.safe_alive (hI : Hazards home w l g s f) {j x : ℕ} (hx : Safe g j x) :
    s.alive x = true := by
  rw [hI.alive]
  rcases hx with rfl | hx
  · have hl := hI.on_chain (j := 0) (.inl rfl) hI.head_unmarked
    rw [(hI.linked head).mp hl]
    nofun
  · rcases (hI.guard_home j x hx).2 with e | e <;> rw [e] <;> nofun

omit [DecidableEq ι] [LT T] [DecidableLT T] in
theorem Hazards.made_alive (hI : Hazards home w l g s f) {n : ℕ} (hn : (f t).pc.made = some n) :
    s.alive n = true := by
  rw [hI.alive, (hI.made t n).mp hn]
  nofun

omit [DecidableEq ι] [LT T] [DecidableLT T] in
theorem Hazards.delete_alive (hI : Hazards home w l g s f) {n : DataToReclaim}
    {rest : List DataToReclaim} (hn : (f t).pc.inReclaim = .delete n rest) :
    s.alive n.data = true := by
  have hheld : w n.data = .held t := (hI.reclaim.held t n.data).mp (by
    simp [hn, Reclaim.held])
  rw [hI.alive, (hI.retired n.data).mpr (by simp [hheld])]
  simp

omit [DecidableEq ι] [LT T] [DecidableLT T] in
theorem Hazards.access_alive (hI : Hazards home w l g s f) (t : ι) {a : ℕ}
    (ha : a ∈ (f t).pc.accesses) : s.alive a = true := by
  have hh := hI.holds t
  have hmade : ∀ n, (f t).pc.made = some n → s.alive n = true := fun n => hI.made_alive
  have hdel : ∀ n rest, (f t).pc.inReclaim = .delete n rest → s.alive n.data = true :=
    fun n rest => hI.delete_alive
  generalize (f t).pc = pc at *
  cases pc with
  | find k f₀ =>
    obtain ⟨p, c, place⟩ := f₀
    obtain ⟨-, -, -, hp⟩ := hh
    cases place with
    | load pred =>
      obtain rfl := List.mem_singleton.mp ha
      exact hI.safe_alive (j := p) (.inl hp)
    | validate pred curr | unlink pred curr next =>
      obtain rfl := List.mem_singleton.mp ha
      exact hI.safe_alive hp.1
    | loadNext pred curr =>
      obtain rfl := List.mem_singleton.mp ha
      exact hI.safe_alive (.inr hp.2)
    | compare pred curr next =>
      have hcurr := hI.safe_alive (.inr hp.2)
      cases k with
      | insert n v =>
        rcases List.mem_pair.mp ha with rfl | rfl
        · exact hcurr
        · exact hmade _ rfl
      | erase v | contains v =>
        obtain rfl := List.mem_singleton.mp ha
        exact hcurr
    | reclaim pred next r =>
      cases r with
      | delete n rest =>
        obtain rfl := List.mem_singleton.mp ha
        exact hdel n rest rfl
      | _ => cases ha
    | _ => cases ha
  | setNext n v pred curr | deleteNew n =>
    obtain rfl := List.mem_singleton.mp ha
    exact hmade _ rfl
  | link n v pred curr | unlink pred curr next =>
    obtain rfl := List.mem_singleton.mp ha
    obtain ⟨⟨j, -, hs⟩, -⟩ := hh
    exact hI.safe_alive hs
  | loadNext v pred curr | mark v pred curr next =>
    obtain rfl := List.mem_singleton.mp ha
    obtain ⟨-, j, -, hg⟩ := hh
    exact hI.safe_alive (.inr hg)
  | reclaim res r | elsewhere r =>
    cases r with
    | delete n rest =>
      obtain rfl := List.mem_singleton.mp ha
      exact hdel n rest rfl
    | _ => cases ha
  | _ => cases ha

/-- **Hazard protection of `lockfree_list`.** In every run in which each successful validation
finds `pred` unmarked, a node is not deleted while a validated slot holds it, and no step accesses a
deleted node, whatever addresses are used again. -/
theorem guarded_alive (hr : program.Run ValidatesUnmarked (initial count) h c) :
    (∀ j a, guarded h j a → c.shared.alive a = true) ∧
      ∀ t, ∀ a ∈ (c.loc t).pc.accesses, c.shared.alive a = true := by
  obtain ⟨home, w, l, hI⟩ := hazards_run hr
  refine ⟨fun j a hg => hI.safe_alive (.inr hg), fun t a ha => ?_⟩
  exact hI.access_alive t ha

/-- The run of `deleted_node_validated`: a reader stands on node 1 and has read its link to node
2; both nodes are erased; a retirement elsewhere starts a sweep, which puts node 1 back and
deletes node 2; then the reader stores node 2 in its slot and validates it. -/
def sweptUnderReader : List (Bool × Choice ℕ) :=
  [turn false (.call (.insert 1)) 3, turn false (.alloc 1) 11,
    turn false (.call (.insert 2)) 3, turn false (.alloc 2) 15,
    turn true (.call (.contains 3)) 9,
    turn false (.call (.erase 1)) 28, turn false (.call (.erase 2)) 28,
    turn false .elsewhere 104, turn true .run 1].flatten

/-- A validated node may be deleted: the reader's next step reads node 2, which is. -/
theorem deleted_node_validated :
    ¬ ∀ (h : List (Step Bool ℕ)) (c : Config Bool (Shared Bool ℕ) (Local ℕ)),
      program.Run Program.anyStep (initial 197) h c →
        (∀ j a, guarded h j a → c.shared.alive a = true) ∧
          ∀ t, ∀ a ∈ (c.loc t).pc.accesses, c.shared.alive a = true := by
  intro hall
  have he : ((program.exec (fun _ _ _ _ => true) (initial 197) sweptUnderReader).any fun c =>
      (c.loc true).pc = .find (.contains 3) ⟨1, 0, .loadNext 1 2⟩ ∧ c.shared.alive 2 = false) =
        true := by set_option maxRecDepth 10000 in decide
  obtain ⟨c, hc, hd⟩ := (Option.any_eq_true _ _).mp he
  obtain ⟨hpc, hdead⟩ := of_decide_eq_true hd
  obtain ⟨h, hr⟩ := Program.exec_run Program.anyStep (fun _ _ _ _ _ _ _ => trivial) hc
  have halive := (hall h c hr).2 true 2 (by rw [hpc]; simp [Pc.accesses])
  rw [hdead] at halive
  cases halive

/-- The reader of `sweptUnderReader` alone, with node 1 still on the chain. -/
def validatedOnChain : List (Bool × Choice ℕ) :=
  [turn false (.call (.insert 1)) 3, turn false (.alloc 1) 11,
    turn true (.call (.contains 3)) 7].flatten

theorem guarded_alive_on_chain :
    ∃ (h : List (Step Bool ℕ)) (c : Config Bool (Shared Bool ℕ) (Local ℕ)),
      program.Run ValidatesUnmarked (initial 0) h c ∧
        (c.loc true).pc = .find (.contains 3) ⟨0, 1, .loadNext 0 1⟩ ∧ c.shared.alive 1 = true := by
  have he : ((program.exec (fun c t _ _ => match (c.loc t).pc with
      | .find _ ⟨_, _, .validate pred _⟩ => !c.shared.marked pred
      | _ => true) (initial 0) validatedOnChain).any fun c =>
      (c.loc true).pc = .find (.contains 3) ⟨0, 1, .loadNext 0 1⟩) = true := by decide
  obtain ⟨c, hc, hd⟩ := (Option.any_eq_true _ _).mp he
  have hpc := of_decide_eq_true hd
  obtain ⟨h, hr⟩ := Program.exec_run ValidatesUnmarked (fun h c t k c' _ hk => by
    intro k p c'' pred curr e _
    rw [e] at hk
    simpa using hk) hc
  exact ⟨h, c, hr, hpc, (guarded_alive hr).2 true 1 (by rw [hpc]; simp [Pc.accesses])⟩

end

end Bonostl.LockfreeList
