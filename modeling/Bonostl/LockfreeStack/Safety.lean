import Bonostl.Chain.Linked
import Bonostl.HazardPtr.Reclaim
import Bonostl.LockfreeStack.Model

/-!
# Where the stack's nodes are

Every address is in one of five places (`Place`): free, with the thread that is pushing it, on the
stack, with the thread that popped it, or retired. `Inv` ties the places to the memory, to the chain
from `head` and to every thread's place in the program.

A popper that has stored an address in its slot and then found it in `head` has *validated* it
(`Pc.validated`). The address was on the stack at that instant, so no sweep had it, and it stays
allocated while the slot holds it: `protects` is what `HazardPtr.Reclaiming` is used with. The node
a validated pointer points to therefore keeps its `next` (`Inv.next_eq`), although its address may
have been used before.
-/

namespace Bonostl.LockfreeStack

open Interleaving HazardPtr Chain

variable {ι V : Type} [DecidableEq ι]

/-- Where an address is. -/
inductive Place (ι : Type) where
  | free
  | pushing (t : ι)
  | linked
  | popped (t : ι)
  | retired

namespace Pc

/-- The slot a thread's `pop` works with. -/
def hp : Pc V → Option ℕ
  | .popLoad hp | .popStore hp _ | .popReload hp _ | .popNext hp _ | .popCas hp _ _
  | .popClear hp _ | .exitPointer hp | .exitId hp => some hp
  | _ => none

/-- What that slot holds, while `pop` relies on it. -/
def stored : Pc V → Option (ℕ × Option ℕ)
  | .popReload hp p | .popClear hp p => some (hp, p)
  | .popNext hp a | .popCas hp a _ => some (hp, some a)
  | _ => none

/-- A slot and the address it protects. -/
def validated : Pc V → Option (ℕ × ℕ)
  | .popNext hp a | .popCas hp a _ | .popClear hp (some a) => some (hp, a)
  | _ => none

/-- The node a thread is pushing. -/
def pushing : Pc V → Option ℕ
  | .pushLoad n | .pushCas n => some n
  | _ => none

/-- The node a thread has taken off the stack and not yet handed on. -/
def popped : Pc V → Option ℕ
  | .popClear _ (some a) | .popData a | .popScan a _ _ | .popDelete a _ => some a
  | _ => none

/-- The thread's place in `reclaim_later`. -/
def inReclaim : Pc V → Reclaim
  | .reclaim _ r => r
  | _ => .finished

/-- The address a thread looks for in the slots before deleting it itself, and how many slots it
has passed. -/
def scanning : Pc V → Option (ℕ × ℕ)
  | .popScan a _ i => some (a, i)
  | .popDelete a _ => some (a, maxHazardPointers)
  | _ => none

/-- The addresses a thread may still read, write or delete at: from the validation of a pointer, or
from the allocation, to the last access. -/
def uses (pc : Pc V) (a : ℕ) : Prop :=
  pc.pushing = some a ∨ (∃ hp, pc.validated = some (hp, a)) ∨ pc.popped = some a ∨
    pc.inReclaim.pending = some a ∨ a ∈ pc.inReclaim.held.map DataToReclaim.data

end Pc

/-- Slot `j` holds `a` for a thread that has validated it. -/
def protects (f : ι → Local V) (j a : ℕ) : Prop := ∃ t, (f t).pc.validated = some (j, a)

/-- **The invariant.** `l` is the chain from `head`, `place` says where each address is, `w` where
the retired ones are. -/
structure Inv (place : ℕ → Place ι) (w : ℕ → Where ι) (l : List ℕ) (s : Shared ι V)
    (f : ι → Local V) : Prop where
  slot : ∀ t i, (f t).slot = some i → s.hazard.id i = some t ∧ i < maxHazardPointers
  hp : ∀ t i, (f t).pc.hp = some i → (f t).slot = some i
  stored : ∀ t i p, (f t).pc.stored = some (i, p) → s.hazard.pointer i = p
  alive : ∀ a, s.alive a = true ↔ place a ≠ .free
  pushing : ∀ t a, (f t).pc.pushing = some a ↔ place a = .pushing t
  popped : ∀ t a, (f t).pc.popped = some a ↔ place a = .popped t
  linked : ∀ a, a ∈ l ↔ place a = .linked
  retired : ∀ a, place a = .retired ↔ w a ≠ .outside
  chain : Linked s.next s.head l
  data : ∀ a, (place a = .linked ∨ ∃ t, place a = .pushing t) → (s.data a).isSome
  valid : ∀ t j a, (f t).pc.validated = some (j, a) → place a ≠ .free ∧ ∀ u, place a ≠ .pushing u
  next_eq : ∀ t j a p, (f t).pc = .popCas j a p → s.next a = p
  reclaim : Reclaiming w (protects f) s.hazard fun t => (f t).pc.inReclaim
  scan : ∀ t a i, (f t).pc.scanning = some (a, i) → ∀ j, protects f j a → i ≤ j

variable {place : ℕ → Place ι} {w : ℕ → Where ι} {l : List ℕ} {s s' : Shared ι V} {f : ι → Local V}
  {t : ι} {l' : Local V}

omit [DecidableEq ι] in
/-- Two threads hold two slots. -/
theorem Inv.slot_inj (h : Inv place w l s f) {u : ι} {i : ℕ} (ht : (f t).slot = some i)
    (hu : (f u).slot = some i) : t = u := by
  have h1 := (h.slot t i ht).1
  rw [(h.slot u i hu).1] at h1
  exact (Option.some.inj h1).symm

theorem protects_update {j a : ℕ} (h : protects (Function.update f t l') j a) :
    l'.pc.validated = some (j, a) ∨ ∃ u, u ≠ t ∧ (f u).pc.validated = some (j, a) := by
  obtain ⟨u, hu⟩ := h
  by_cases hut : u = t
  · subst hut; left; simpa using hu
  · right; exact ⟨u, hut, by simpa [hut] using hu⟩

theorem Pc.validated_stored {pc : Pc V} {j a : ℕ} (h : pc.validated = some (j, a)) :
    pc.stored = some (j, some a) := by
  cases pc with
  | popClear hp o => cases o <;> cases h; rfl
  | _ => cases h <;> rfl

theorem Pc.stored_hp {pc : Pc V} {j : ℕ} {p : Option ℕ} (h : pc.stored = some (j, p)) :
    pc.hp = some j := by
  cases pc <;> cases h <;> rfl

theorem reclaim_update (hr : l'.pc.inReclaim.view = (f t).pc.inReclaim.view) (u : ι) :
    (Function.update f t l' u).pc.inReclaim.view = (f u).pc.inReclaim.view := by
  by_cases hut : u = t
  · subst hut; simpa using hr
  · simp [hut]

/-- A step that changes nothing shared and takes no new protection. -/
theorem Inv.quiet (h : Inv place w l s f) (hslot : l'.slot = (f t).slot)
    (hhp : ∀ i, l'.pc.hp = some i → l'.slot = some i)
    (hstored : ∀ i p, l'.pc.stored = some (i, p) → s.hazard.pointer i = p)
    (hpush : l'.pc.pushing = (f t).pc.pushing) (hpop : l'.pc.popped = (f t).pc.popped)
    (hrec : l'.pc.inReclaim.view = (f t).pc.inReclaim.view)
    (hvalid : ∀ j a, l'.pc.validated = some (j, a) → (f t).pc.validated = some (j, a))
    (hnext : ∀ j a p, l'.pc = .popCas j a p → s.next a = p)
    (hscan : ∀ a i, l'.pc.scanning = some (a, i) → ∀ j, protects f j a → i ≤ j) :
    Inv place w l s (Function.update f t l') := by
  have hprot : ∀ j a, protects (Function.update f t l') j a → protects f j a := by
    intro j a hj
    rcases protects_update hj with h1 | ⟨u, -, h1⟩
    · exact ⟨t, hvalid j a h1⟩
    · exact ⟨u, h1⟩
  have hreclaim : Reclaiming w (protects (Function.update f t l')) s.hazard
      fun u => (Function.update f t l' u).pc.inReclaim :=
    h.reclaim.rebase rfl (reclaim_update hrec) fun j a hj =>
      ⟨h.reclaim.prot_pointer j a (hprot j a hj), h.reclaim.prot_lt j a (hprot j a hj),
        .inl (hprot j a hj)⟩
  obtain ⟨h1, h2, h3, h4, h5, h6, h7, h8, h9, h10, h11, h12, -, h14⟩ := h
  refine ⟨?_, ?_, ?_, h4, ?_, ?_, h7, h8, h9, h10, ?_, ?_, hreclaim, ?_⟩ <;> grind

/-! ## Steps on the slots -/

/-- A thread stores to its own slot, which protects nothing afterwards. -/
theorem Inv.store (h : Inv place w l s f) {i : ℕ} {p : Option ℕ} (hi : (f t).pc.hp = some i)
    (hslot : l'.slot = (f t).slot) (hhp : ∀ j, l'.pc.hp = some j → l'.slot = some j)
    (hstored : ∀ j q, l'.pc.stored = some (j, q) → j = i ∧ q = p)
    (hpush : l'.pc.pushing = (f t).pc.pushing) (hpop : l'.pc.popped = (f t).pc.popped)
    (hrec : l'.pc.inReclaim.view = (f t).pc.inReclaim.view) (hvalid : l'.pc.validated = none)
    (hscan : l'.pc.scanning = none) (hcas : ∀ j a q, l'.pc ≠ .popCas j a q) :
    Inv place w l { s with hazard := HazardPtr.store s.hazard i p } (Function.update f t l') := by
  have hprot : ∀ j a, protects (Function.update f t l') j a → protects f j a ∧ j ≠ i := by
    intro j a hj
    rcases protects_update hj with h1 | ⟨u, hut, h1⟩
    · rw [hvalid] at h1; cases h1
    · refine ⟨⟨u, h1⟩, ?_⟩
      rintro rfl
      exact hut (h.slot_inj (h.hp u j (Pc.stored_hp (Pc.validated_stored h1))) (h.hp t j hi))
  have hreclaim : Reclaiming w (protects (Function.update f t l')) (HazardPtr.store s.hazard i p)
      fun u => (Function.update f t l' u).pc.inReclaim :=
    h.reclaim.rebase rfl (reclaim_update hrec) fun j a hj =>
      ⟨by
        simpa [HazardPtr.store, (hprot j a hj).2] using
          h.reclaim.prot_pointer j a (hprot j a hj).1,
        h.reclaim.prot_lt j a (hprot j a hj).1, .inl (hprot j a hj).1⟩
  have hinj : ∀ u, u ≠ t → (f u).pc.hp ≠ some i := fun u hut hu =>
    hut (h.slot_inj (h.hp u i hu) (h.hp t i hi))
  have hother : ∀ u j q, u ≠ t → (f u).pc.stored = some (j, q) → j ≠ i := by
    rintro u j q hut hj rfl
    exact hinj u hut (Pc.stored_hp hj)
  obtain ⟨h1, h2, h3, h4, h5, h6, h7, h8, h9, h10, h11, h12, -, h14⟩ := h
  refine ⟨?_, ?_, ?_, h4, ?_, ?_, h7, h8, h9, h10, ?_, ?_, hreclaim, ?_⟩ <;> grind

/-- A thread claims a free slot. -/
theorem Inv.claim (h : Inv place w l s f) {i : ℕ} {o : Option ℕ} (hft : f t = ⟨o, .claim i⟩)
    (hi : i < maxHazardPointers) (hid : s.hazard.id i = none) :
    Inv place w l
      { s with hazard := { s.hazard with id := Function.update s.hazard.id i (some t) } }
      (Function.update f t ⟨some i, .popLoad i⟩) := by
  have hprot : ∀ j a, protects (Function.update f t ⟨some i, .popLoad i⟩) j a → protects f j a := by
    intro j a hj
    rcases protects_update hj with h1 | ⟨u, -, h1⟩
    · cases h1
    · exact ⟨u, h1⟩
  have hreclaim : Reclaiming w (protects (Function.update f t ⟨some i, .popLoad i⟩))
      { s.hazard with id := Function.update s.hazard.id i (some t) }
      fun u => (Function.update f t ⟨some i, .popLoad i⟩ u).pc.inReclaim :=
    h.reclaim.rebase rfl (reclaim_update (by rw [hft]; rfl)) fun j a hj =>
      ⟨h.reclaim.prot_pointer j a (hprot j a hj), h.reclaim.prot_lt j a (hprot j a hj),
        .inl (hprot j a hj)⟩
  obtain ⟨h1, h2, h3, h4, h5, h6, h7, h8, h9, h10, h11, h12, -, h14⟩ := h
  refine ⟨?_, ?_, ?_, h4, ?_, ?_, h7, h8, h9, h10, ?_, ?_, hreclaim, ?_⟩ <;>
    grind [Pc.hp, Pc.stored, Pc.pushing, Pc.popped, Pc.validated, Pc.scanning]

/-- A thread gives its slot back. -/
theorem Inv.exit (h : Inv place w l s f) {i : ℕ} {o : Option ℕ} (hft : f t = ⟨o, .exitId i⟩) :
    Inv place w l { s with hazard := release s.hazard i }
      (Function.update f t ⟨none, .done .unit⟩) := by
  have hprot : ∀ j a, protects (Function.update f t ⟨none, .done .unit⟩) j a → protects f j a := by
    intro j a hj
    rcases protects_update hj with h1 | ⟨u, -, h1⟩
    · cases h1
    · exact ⟨u, h1⟩
  have hreclaim : Reclaiming w (protects (Function.update f t ⟨none, .done .unit⟩))
      (release s.hazard i) fun u => (Function.update f t ⟨none, .done .unit⟩ u).pc.inReclaim :=
    h.reclaim.rebase rfl (reclaim_update (by rw [hft]; rfl)) fun j a hj =>
      ⟨h.reclaim.prot_pointer j a (hprot j a hj), h.reclaim.prot_lt j a (hprot j a hj),
        .inl (hprot j a hj)⟩
  have hinj : ∀ u, u ≠ t → (f u).slot ≠ some i := fun u hut hu =>
    hut (h.slot_inj hu (h.hp t i (by rw [hft]; rfl)))
  obtain ⟨h1, h2, h3, h4, h5, h6, h7, h8, h9, h10, h11, h12, -, h14⟩ := h
  refine ⟨?_, ?_, ?_, h4, ?_, ?_, h7, h8, h9, h10, ?_, ?_, hreclaim, ?_⟩ <;>
    grind [Pc.hp, Pc.stored, Pc.pushing, Pc.popped, Pc.validated, Pc.scanning]

/-! ## Steps on the nodes -/

omit [DecidableEq ι] in
theorem Inv.cas_place (h : Inv place w l s f) (u : ι) (j a : ℕ) (p : Option ℕ)
    (hu : (f u).pc = .popCas j a p) : place a ≠ .free ∧ ∀ v, place a ≠ .pushing v :=
  h.valid u j a (by rw [hu]; rfl)

/-- A step that only takes protections away and leaves the slots and `reclaim_later` alone. -/
theorem Inv.reclaim_of (h : Inv place w l s f) (t : ι) (l' : Local V)
    (hrec : l'.pc.inReclaim.view = (f t).pc.inReclaim.view)
    (hvalid : ∀ j a, l'.pc.validated = some (j, a) → protects f j a) :
    (Reclaiming w (protects (Function.update f t l')) s.hazard
      fun u => (Function.update f t l' u).pc.inReclaim) ∧
    ∀ j a, protects (Function.update f t l') j a → protects f j a := by
  have hprot : ∀ j a, protects (Function.update f t l') j a → protects f j a := by
    intro j a hj
    rcases protects_update hj with h1 | ⟨u, -, h1⟩
    · exact hvalid j a h1
    · exact ⟨u, h1⟩
  exact ⟨h.reclaim.rebase rfl (reclaim_update hrec) fun j a hj =>
    ⟨h.reclaim.prot_pointer j a (hprot j a hj), h.reclaim.prot_lt j a (hprot j a hj),
      .inl (hprot j a hj)⟩, hprot⟩

/-- `new node(value)` at a free address. -/
theorem Inv.new (h : Inv place w l s f) {o : Option ℕ} {v : V} {a : ℕ}
    (hft : f t = ⟨o, .pushNew v⟩) (ha : s.alive a = false) :
    Inv (Function.update place a (.pushing t)) w l
      { s with alive := Function.update s.alive a true,
               data := Function.update s.data a (some v),
               next := Function.update s.next a none }
      (Function.update f t ⟨o, .pushLoad a⟩) := by
  have hfree : place a = .free := by
    have := h.alive a
    rw [ha] at this
    by_contra hne
    exact absurd (this.mpr hne) (by simp)
  have hal : a ∉ l := fun hm => by rw [h.linked, hfree] at hm; cases hm
  obtain ⟨hreclaim, hprot⟩ := h.reclaim_of t ⟨o, .pushLoad a⟩ (by rw [hft]; rfl) nofun
  have hcas := h.cas_place
  have hchain := h.chain.congr (m := Function.update s.next a none)
    fun b hb => Function.update_of_ne (by rintro rfl; exact hal hb) _ _
  obtain ⟨h1, h2, h3, h4, h5, h6, h7, h8, h9, h10, h11, h12, -, h14⟩ := h
  refine ⟨?_, ?_, ?_, ?_, ?_, ?_, ?_, ?_, hchain, ?_, ?_, ?_, hreclaim, ?_⟩ <;>
    grind [Pc.hp, Pc.stored, Pc.pushing, Pc.popped, Pc.validated, Pc.scanning]

/-- A pusher sets its own node's `next`. -/
theorem Inv.push_next (h : Inv place w l s f) {o : Option ℕ} {n : ℕ}
    (hft : (f t).pc = .pushLoad n ∨ (f t).pc = .pushCas n) (ho : (f t).slot = o) :
    Inv place w l { s with next := Function.update s.next n s.head }
      (Function.update f t ⟨o, .pushCas n⟩) := by
  have hpl : place n = .pushing t := by
    rw [← h.pushing]
    rcases hft with e | e <;> rw [e] <;> rfl
  have hnl : n ∉ l := fun hm => by rw [h.linked, hpl] at hm; cases hm
  obtain ⟨hreclaim, hprot⟩ := h.reclaim_of t ⟨o, .pushCas n⟩
    (by
      rcases hft with e | e
      · rw [e]; rfl
      · rw [e]) nofun
  have hcas := h.cas_place
  have hchain := h.chain.congr (m := Function.update s.next n s.head)
    fun b hb => Function.update_of_ne (by rintro rfl; exact hnl hb) _ _
  obtain ⟨h1, h2, h3, h4, h5, h6, h7, h8, h9, h10, h11, h12, -, h14⟩ := h
  refine ⟨?_, ?_, ?_, h4, ?_, ?_, h7, h8, hchain, h10, ?_, ?_, hreclaim, ?_⟩ <;>
    grind [Pc.hp, Pc.stored, Pc.pushing, Pc.popped, Pc.validated, Pc.scanning]

/-- The compare-exchange of `push` succeeds. -/
theorem Inv.push_cas (h : Inv place w l s f) {o : Option ℕ} {n : ℕ}
    (hft : f t = ⟨o, .pushCas n⟩) (hn : s.head = s.next n) :
    Inv (Function.update place n .linked) w (n :: l) { s with head := some n }
      (Function.update f t ⟨o, .done .unit⟩) := by
  have hpl : place n = .pushing t := by rw [← h.pushing, hft]; rfl
  obtain ⟨hreclaim, hprot⟩ := h.reclaim_of t ⟨o, .done .unit⟩ (by rw [hft]; rfl) nofun
  have hchain : Linked s.next (some n) (n :: l) := ⟨rfl, hn ▸ h.chain⟩
  obtain ⟨h1, h2, h3, h4, h5, h6, h7, h8, h9, h10, h11, h12, -, h14⟩ := h
  refine ⟨?_, ?_, ?_, ?_, ?_, ?_, ?_, ?_, hchain, ?_, ?_, ?_, hreclaim, ?_⟩ <;>
    grind [Pc.hp, Pc.stored, Pc.pushing, Pc.popped, Pc.validated, Pc.scanning]

/-- The recheck of `pop` finds `head` unchanged: the slot protects a node on the stack. -/
theorem Inv.pop_valid (h : Inv place w l s f) {o : Option ℕ} {i a : ℕ}
    (hft : f t = ⟨o, .popReload i (some a)⟩) (hh : s.head = some a) :
    Inv place w l s (Function.update f t ⟨o, .popNext i a⟩) := by
  have hal : a ∈ l := by
    have := h.chain
    rw [hh] at this
    cases l with
    | nil => cases this
    | cons b l => rw [Option.some.inj this.1]; simp
  have hlink := (h.linked a).mp hal
  have hout : w a = .outside := by
    by_contra hne
    rw [(h.retired a).mpr hne] at hlink
    cases hlink
  have hp : s.hazard.pointer i = some a := h.stored t i _ (by rw [hft]; rfl)
  have hlt := (h.slot t i (h.hp t i (by rw [hft]; rfl))).2
  have hreclaim : Reclaiming w (protects (Function.update f t ⟨o, .popNext i a⟩)) s.hazard
      fun u => (Function.update f t ⟨o, .popNext i a⟩ u).pc.inReclaim := by
    refine h.reclaim.rebase rfl (reclaim_update (by rw [hft]; rfl)) fun j b hj => ?_
    rcases protects_update hj with h1 | ⟨u, -, h1⟩
    · cases h1
      exact ⟨hp, hlt, .inr hout⟩
    · exact ⟨h.reclaim.prot_pointer j b ⟨u, h1⟩, h.reclaim.prot_lt j b ⟨u, h1⟩, .inl ⟨u, h1⟩⟩
  have hscan : ∀ u b k, (f u).pc.scanning = some (b, k) → b ≠ a := by
    rintro u b k e rfl
    have hpop : (f u).pc.popped = some b := by
      generalize (f u).pc = pc at e
      cases pc <;> cases e <;> rfl
    rw [(h.popped u b).mp hpop] at hlink
    cases hlink
  obtain ⟨h1, h2, h3, h4, h5, h6, h7, h8, h9, h10, h11, h12, -, h14⟩ := h
  refine ⟨?_, ?_, ?_, h4, ?_, ?_, h7, h8, h9, h10, ?_, ?_, hreclaim, ?_⟩
  case refine_8 =>
    intro u b k e j hj
    by_cases hut : u = t
    · subst hut; rw [Function.update_self] at e; cases e
    · rw [Function.update_of_ne hut] at e
      rcases protects_update hj with h' | ⟨v, -, h'⟩
      · cases h'; exact absurd rfl (hscan u _ k e)
      · exact h14 u b k e j ⟨v, h'⟩
  all_goals grind [Pc.hp, Pc.stored, Pc.pushing, Pc.popped, Pc.validated, Pc.scanning]

/-- The compare-exchange of `pop` succeeds: the node it takes is the first of the chain, and what
it installs is the rest. -/
theorem Inv.pop_cas (h : Inv place w l s f) {o : Option ℕ} {i a : ℕ} {next : Option ℕ}
    (hft : f t = ⟨o, .popCas i a next⟩) (hh : s.head = some a) :
    ∃ l₁, l = a :: l₁ ∧ Inv (Function.update place a (.popped t)) w l₁ { s with head := next }
      (Function.update f t ⟨o, .popClear i (some a)⟩) := by
  have hnext : s.next a = next := h.next_eq t i a next (by rw [hft])
  obtain ⟨l₁, rfl, hchain⟩ : ∃ l₁, l = a :: l₁ ∧ Linked s.next next l₁ := by
    have hc := h.chain
    rw [hh] at hc
    cases l with
    | nil => cases hc
    | cons b l =>
      obtain rfl := Option.some.inj hc.1
      exact ⟨l, rfl, hnext ▸ hc.2⟩
  have hnodup := h.chain.nodup
  have hlink := (h.linked a).mp (by simp)
  obtain ⟨hreclaim, hprot⟩ := h.reclaim_of t ⟨o, .popClear i (some a)⟩
    (by rw [hft]; rfl) (fun j b e => by cases e; exact ⟨t, by rw [hft]; rfl⟩)
  refine ⟨l₁, rfl, ?_⟩
  obtain ⟨h1, h2, h3, h4, h5, h6, h7, h8, h9, h10, h11, h12, -, h14⟩ := h
  refine ⟨?_, ?_, ?_, ?_, ?_, ?_, ?_, ?_, hchain, ?_, ?_, ?_, hreclaim, ?_⟩ <;>
    grind [Pc.hp, Pc.stored, Pc.pushing, Pc.popped, Pc.validated, Pc.scanning]

/-- A popper hands its node to `reclaim_later`. -/
theorem Inv.pop_later (h : Inv place w l s f) {o : Option ℕ} {r : Option V} {a i : ℕ}
    (hft : f t = ⟨o, .popScan a r i⟩) :
    Inv (Function.update place a .retired) (Function.update w a (.pending t)) l s
      (Function.update f t ⟨o, .reclaim (.popped r) (.make a)⟩) := by
  have hpl : place a = .popped t := by rw [← h.popped, hft]; rfl
  have hout : w a = .outside := by
    by_contra hne
    rw [(h.retired a).mpr hne] at hpl
    cases hpl
  have hprot : ∀ j b, protects (Function.update f t ⟨o, .reclaim (.popped r) (.make a)⟩) j b →
      protects f j b := by
    intro j b hj
    rcases protects_update hj with h1 | ⟨u, -, h1⟩
    · cases h1
    · exact ⟨u, h1⟩
  have hreclaim : Reclaiming (Function.update w a (.pending t))
      (protects (Function.update f t ⟨o, .reclaim (.popped r) (.make a)⟩)) s.hazard
      fun u => (Function.update f t ⟨o, .reclaim (.popped r) (.make a)⟩ u).pc.inReclaim := by
    refine (h.reclaim.retire (t := t) hout (by rw [hft]; rfl)).rebase rfl (fun u => ?_)
      fun j b hj => ⟨h.reclaim.prot_pointer j b (hprot j b hj),
        h.reclaim.prot_lt j b (hprot j b hj), .inl (hprot j b hj)⟩
    by_cases hut : u = t
    · subst hut; simp [Pc.inReclaim]
    · simp [hut]
  obtain ⟨h1, h2, h3, h4, h5, h6, h7, h8, h9, h10, h11, h12, -, h14⟩ := h
  refine ⟨?_, ?_, ?_, ?_, ?_, ?_, ?_, ?_, h9, ?_, ?_, ?_, hreclaim, ?_⟩ <;>
    grind [Pc.hp, Pc.stored, Pc.pushing, Pc.popped, Pc.validated, Pc.scanning]

/-- A popper deletes its own node after finding it in no slot. -/
theorem Inv.pop_delete (h : Inv place w l s f) {o : Option ℕ} {r : Option V} {a : ℕ}
    (hft : f t = ⟨o, .popDelete a r⟩) :
    Inv (Function.update place a .free) w l (free s (some a))
      (Function.update f t ⟨o, .done (.popped r)⟩) := by
  have hpl : place a = .popped t := by rw [← h.popped, hft]; rfl
  have hnone : ∀ j, ¬ protects f j a := fun j hj => by
    have hle := h.scan t a _ (by rw [hft]; rfl) j hj
    exact absurd (h.reclaim.prot_lt j a hj) (Nat.not_lt.mpr hle)
  have hnv : ∀ u j b, (f u).pc.validated = some (j, b) → b ≠ a := by
    rintro u j b e rfl
    exact hnone j ⟨u, e⟩
  obtain ⟨hreclaim, hprot⟩ := h.reclaim_of t ⟨o, .done (.popped r)⟩
    (by rw [hft]; rfl) nofun
  dsimp only [free]
  obtain ⟨h1, h2, h3, h4, h5, h6, h7, h8, h9, h10, h11, h12, -, h14⟩ := h
  refine ⟨?_, ?_, ?_, ?_, ?_, ?_, ?_, ?_, h9, ?_, ?_, ?_, hreclaim, ?_⟩ <;>
    grind [Pc.hp, Pc.stored, Pc.pushing, Pc.popped, Pc.validated, Pc.scanning]

/-- A step of `reclaim_later`. -/
theorem Inv.reclaim_step (h : Inv place w l s f) {o : Option ℕ} {r : Res V} {rc rc' : Reclaim}
    {sp : Bool} {hz : HazardPtr.Shared ι} {freed : Option ℕ} (hft : f t = ⟨o, .reclaim r rc⟩)
    (hs : rc.step sp s.hazard = some (hz, rc', freed)) :
    ∃ place' w', Inv place' w' l (free { s with hazard := hz } freed)
      (Function.update f t ⟨o, .reclaim r rc'⟩) := by
  have hrt : (f t).pc.inReclaim = rc := by rw [hft]; rfl
  have hs' : ((fun u => (f u).pc.inReclaim) t).step sp s.hazard = some (hz, rc', freed) := by
    rw [← hs, ← hrt]
  obtain ⟨w', hw', hmoved⟩ := h.reclaim.advance hs'
  have hprot : ∀ j b, protects (Function.update f t ⟨o, .reclaim r rc'⟩) j b →
      protects f j b := by
    intro j b hj
    rcases protects_update hj with h1 | ⟨u, -, h1⟩
    · cases h1
    · exact ⟨u, h1⟩
  have hreclaim : Reclaiming w' (protects (Function.update f t ⟨o, .reclaim r rc'⟩)) hz
      fun u => (Function.update f t ⟨o, .reclaim r rc'⟩ u).pc.inReclaim := by
    refine hw'.rebase rfl (fun u => ?_) fun j b hj => ⟨hw'.prot_pointer j b (hprot j b hj),
      hw'.prot_lt j b (hprot j b hj), .inl (hprot j b hj)⟩
    by_cases hut : u = t
    · subst hut; simp [Pc.inReclaim]
    · simp [hut]
  have hid := Reclaim.step_slots hs
  cases freed with
  | none =>
    have hout := hmoved.outside
    refine ⟨place, w', ?_⟩
    dsimp only [free]
    obtain ⟨h1, h2, h3, h4, h5, h6, h7, h8, h9, h10, h11, h12, -, h14⟩ := h
    refine ⟨?_, ?_, ?_, ?_, ?_, ?_, ?_, ?_, h9, ?_, ?_, ?_, hreclaim, ?_⟩ <;>
      grind [Pc.hp, Pc.stored, Pc.pushing, Pc.popped, Pc.validated, Pc.scanning]
  | some a =>
    obtain ⟨hheld, hfree, hnone⟩ := hmoved.freed_held a rfl
    have hpl : place a = .retired := (h.retired a).mpr (by rw [hheld]; nofun)
    have hout := hmoved.outside
    have hnv : ∀ u j b, (f u).pc.validated = some (j, b) → b ≠ a := by
      rintro u j b e rfl
      exact hnone j ⟨u, e⟩
    refine ⟨Function.update place a .free, w', ?_⟩
    dsimp only [free]
    obtain ⟨h1, h2, h3, h4, h5, h6, h7, h8, h9, h10, h11, h12, -, h14⟩ := h
    refine ⟨?_, ?_, ?_, ?_, ?_, ?_, ?_, ?_, h9, ?_, ?_, ?_, hreclaim, ?_⟩ <;>
      grind [Pc.hp, Pc.stored, Pc.pushing, Pc.popped, Pc.validated, Pc.scanning]

/-! ## Every step -/

/-- `Inv.quiet` for a thread that stands at `pc` and goes to `pc'`. -/
theorem Inv.goto (h : Inv place w l s f) {o : Option ℕ} {pc pc' : Pc V} (hft : f t = ⟨o, pc⟩)
    (hhp : ∀ i, pc'.hp = some i → o = some i := by nofun)
    (hstored : ∀ i p, pc'.stored = some (i, p) → s.hazard.pointer i = p := by nofun)
    (hpush : pc'.pushing = pc.pushing := by rfl) (hpop : pc'.popped = pc.popped := by rfl)
    (hrec : pc'.inReclaim.view = pc.inReclaim.view := by rfl)
    (hvalid : ∀ j a, pc'.validated = some (j, a) → pc.validated = some (j, a) := by nofun)
    (hnext : ∀ j a p, pc' = .popCas j a p → s.next a = p := by nofun)
    (hscan : ∀ a i, pc'.scanning = some (a, i) → ∀ j, protects f j a → i ≤ j := by nofun) :
    ∃ place' w' l₁, Inv place' w' l₁ s (Function.update f t ⟨o, pc'⟩) :=
  ⟨_, _, _, h.quiet (by rw [hft]) hhp hstored (by rw [hft]; exact hpush) (by rw [hft]; exact hpop)
    (by rw [hft]; exact hrec) (by rw [hft]; exact hvalid) hnext hscan⟩

/-- `Inv.store` for a thread that stands at `pc` and goes to `pc'`. -/
theorem Inv.store_goto (h : Inv place w l s f) {o p : Option ℕ} {i : ℕ} {pc pc' : Pc V}
    (hft : f t = ⟨o, pc⟩) (hi : pc.hp = some i)
    (hhp : ∀ j, pc'.hp = some j → o = some j := by nofun)
    (hstored : ∀ j q, pc'.stored = some (j, q) → j = i ∧ q = p := by nofun)
    (hpush : pc'.pushing = pc.pushing := by rfl) (hpop : pc'.popped = pc.popped := by rfl)
    (hrec : pc'.inReclaim.view = pc.inReclaim.view := by rfl)
    (hvalid : pc'.validated = none := by rfl)
    (hscan : pc'.scanning = none := by rfl) (hcas : ∀ j a q, pc' ≠ .popCas j a q := by nofun) :
    ∃ place' w' l₁, Inv place' w' l₁ { s with hazard := HazardPtr.store s.hazard i p }
      (Function.update f t ⟨o, pc'⟩) :=
  ⟨_, _, _, h.store (by rw [hft]; exact hi) (by rw [hft]) hhp hstored (by rw [hft]; exact hpush)
    (by rw [hft]; exact hpop) (by rw [hft]; exact hrec) hvalid hscan hcas⟩

section
variable (a : ℕ) (r : Option V) (i : ℕ)

@[simp] theorem scanFrom_hp : (scanFrom a r i).hp = none := by unfold scanFrom; split <;> rfl

@[simp] theorem scanFrom_stored : (scanFrom a r i).stored = none := by
  unfold scanFrom; split <;> rfl

@[simp] theorem scanFrom_pushing : (scanFrom a r i).pushing = none := by
  unfold scanFrom; split <;> rfl

@[simp] theorem scanFrom_popped : (scanFrom a r i).popped = some a := by
  unfold scanFrom; split <;> rfl

@[simp] theorem scanFrom_reclaim : (scanFrom a r i).inReclaim = .finished := by
  unfold scanFrom; split <;> rfl

@[simp] theorem scanFrom_validated : (scanFrom a r i).validated = none := by
  unfold scanFrom; split <;> rfl

theorem scanFrom_ne_cas (j b : ℕ) (p : Option ℕ) : scanFrom a r i ≠ .popCas j b p := by
  unfold scanFrom; split <;> nofun

theorem scanFrom_scanning {b k : ℕ} (h : (scanFrom a r i).scanning = some (b, k)) :
    b = a ∧ k ≤ i := by
  unfold scanFrom at h
  split at h
  · cases h; omega
  · cases h; omega
end

/-- The scan of the slots goes on at slot `i`. -/
theorem Inv.scan_goto (h : Inv place w l s f) {o : Option ℕ} {pc : Pc V} {a i : ℕ} {r : Option V}
    (hft : f t = ⟨o, pc⟩) (hpush : pc.pushing = none) (hpop : pc.popped = some a)
    (hrec : pc.inReclaim = .finished) (hscan : ∀ j, protects f j a → i ≤ j) :
    ∃ place' w' l₁, Inv place' w' l₁ s (Function.update f t ⟨o, scanFrom a r i⟩) := by
  refine h.goto hft (by simp) (by simp) (by simp [hpush]) (by simp [hpop]) (by simp [hrec])
    (by simp) (fun j b p e => absurd e (scanFrom_ne_cas a r i j b p)) fun b k e j hj => ?_
  obtain ⟨rfl, hk⟩ := scanFrom_scanning a r i e
  exact hk.trans (hscan j hj)

omit [DecidableEq ι] in
theorem inv_initial : Inv (fun _ => .free) (fun _ => .outside) [] (initial (ι := ι) (V := V)).shared
    (initial (ι := ι) (V := V)).loc := by
  refine ⟨nofun, nofun, nofun, by simp [initial], ?_, ?_, by simp, by simp, rfl, by simp, nofun,
    nofun, ?_, nofun⟩
  · simp [initial, Pc.pushing]
  · simp [initial, Pc.popped]
  · refine ⟨?_, ?_, ?_, ?_, ?_, ?_, ?_, nofun⟩ <;>
      simp [initial, HazardPtr.initial, Pc.inReclaim, Reclaim.held, Reclaim.pending, protects,
        Pc.validated]

theorem inv_move (h : Inv place w l s f) {ev : Event (Op V) (Res V)}
    (hm : Move t s ev (f t) s' l') :
    ∃ place' w' l₁, Inv place' w' l₁ s' (Function.update f t l') := by
  generalize hft : f t = lt at hm
  cases hm with
  | push i v => exact h.goto hft
  | popFirst => exact h.goto hft
  | pop i => exact h.goto hft (fun j e => e)
  | exit i => exact h.goto hft (fun j e => e)
  | deleteNodes i => exact h.goto hft
  | takeList i => exact h.goto hft
  | new i v a ha => exact ⟨_, _, _, h.new hft ha⟩
  | pushLoad i n => exact ⟨_, _, _, h.push_next (.inl (by rw [hft])) (by rw [hft])⟩
  | pushCas i n hn => exact ⟨_, _, _, h.push_cas hft hn⟩
  | pushRetry i n => exact ⟨_, _, _, h.push_next (.inr (by rw [hft])) (by rw [hft])⟩
  | claim o i hi hid => exact ⟨_, _, _, h.claim hft hi hid⟩
  | claimNext o i => exact h.goto hft
  | claimNone o i => exact h.goto hft
  | exitPointer o i =>
    have hp := h.hp t i (by rw [hft]; rfl)
    rw [hft] at hp
    exact h.store_goto hft rfl (fun j e => hp.trans e)
  | exitId o i => exact ⟨_, _, _, h.exit hft⟩
  | popLoad i hp =>
    have hp := h.hp t hp (by rw [hft]; rfl)
    rw [hft] at hp
    exact h.goto hft (fun j e => hp.trans e)
  | popStore i hp old =>
    have hp := h.hp t hp (by rw [hft]; rfl)
    rw [hft] at hp
    exact h.store_goto hft rfl (fun j e => hp.trans e) (fun j q e => by cases e; exact ⟨rfl, rfl⟩)
  | popEmpty i hp hh =>
    have hslot := h.hp t hp (by rw [hft]; rfl)
    have hst := h.stored t hp none (by rw [hft]; rfl)
    rw [hft] at hslot
    exact h.goto hft (fun j e => hslot.trans e) (fun j p e => by cases e; exact hst)
  | popValid i hp a hh => exact ⟨_, _, _, h.pop_valid hft hh⟩
  | popAgain i hp temp =>
    have hp := h.hp t hp (by rw [hft]; rfl)
    rw [hft] at hp
    exact h.goto hft (fun j e => hp.trans e)
  | popNext i hp a =>
    have hslot := h.hp t hp (by rw [hft]; rfl)
    have hst := h.stored t hp (some a) (by rw [hft]; rfl)
    rw [hft] at hslot
    exact h.goto hft (fun j e => hslot.trans e) (fun j p e => by cases e; exact hst) rfl rfl rfl
      (fun j b e => e) (fun j b p e => by cases e; rfl)
  | popCas i hp a next hh =>
    obtain ⟨l₁, -, hinv⟩ := h.pop_cas hft hh
    exact ⟨_, _, l₁, hinv⟩
  | popRetry i hp a next =>
    have hp := h.hp t hp (by rw [hft]; rfl)
    rw [hft] at hp
    exact h.goto hft (fun j e => hp.trans e)
  | popNone i hp => exact h.store_goto hft rfl
  | popSome i hp a => exact h.store_goto hft rfl
  | popData i a => exact h.scan_goto hft rfl rfl rfl fun j _ => Nat.zero_le j
  | popLater i a r j => exact ⟨_, _, _, h.pop_later hft⟩
  | popScan i a r j hj =>
    refine h.scan_goto hft rfl rfl rfl fun k hk => ?_
    have hle := h.scan t a j (by rw [hft]; rfl) k hk
    have hne : k ≠ j := fun e => hj (e ▸ h.reclaim.prot_pointer k a hk)
    omega
  | popDelete i a r => exact ⟨_, _, _, h.pop_delete hft⟩
  | reclaim i r rc sp hz rc' freed hs =>
    obtain ⟨place', w', hinv⟩ := h.reclaim_step hft hs
    exact ⟨place', w', l, hinv⟩
  | reclaimed i r rc hs =>
    have hrc : rc = .finished := Reclaim.step_none hs
    exact h.goto hft nofun nofun rfl rfl (by rw [hrc]; rfl)
  | ret i r => exact h.goto hft

end Bonostl.LockfreeStack
