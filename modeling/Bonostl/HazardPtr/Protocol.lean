import Bonostl.HazardPtr.Reclaim
import Bonostl.Interleaving.Linearizable
import Bonostl.Interleaving.Places

/-!
# The hazard-pointer protocol on its own

Threads that construct and destroy `hp_owner`s, store to the slots they own, hand objects to
`reclaim_later` and call `delete_nodes_with_no_hazards`, in any order: what every container of this
library does with `hazard_ptr.hpp`, without the containers. An object is its address; no object is
handed to `reclaim_later` twice.

`protocol_safe`: an object that was handed over is in one place, once; a slot that has held it since
before that keeps it from being deleted (`heldSince`); and no slot has two owners.
-/

namespace Bonostl.HazardPtr

open Interleaving

/-- The registry and the list of `hazard_ptr.hpp`; `deleted` counts how often each object was
deleted. -/
structure World (ι : Type) where
  registry : Shared ι
  deleted : ℕ → ℕ

/-- The constructor and the destructor of `hp_owner`, a store through `get_pointer`,
`reclaim_later`, and `delete_nodes_with_no_hazards` on its own. -/
inductive Op where
  | claim
  | release (slot : ℕ)
  | store (slot : ℕ) (p : Option ℕ)
  | reclaimLater (data : ℕ)
  | deleteNodes
  deriving DecidableEq

/-- How a call ends; `noHazardPointers` is the `runtime_error` of `hp_owner`. -/
inductive Res where
  | slot (i : ℕ)
  | unit
  | noHazardPointers
  deriving DecidableEq

/-- Where a thread stands. -/
inductive Pc where
  | idle
  | claim (i : ℕ)
  | clear (slot : ℕ)
  | disown (slot : ℕ)
  | store (slot : ℕ) (p : Option ℕ)
  | reclaim (r : Reclaim)
  | done (r : Res)
  deriving DecidableEq

/-- A thread: the slots of its `hp_owner`s and where it stands. -/
structure Local where
  owners : List ℕ
  pc : Pc
  deriving DecidableEq

/-- The scheduler's choice: a call, the next step, or a spurious failure of a weak compare-exchange.
-/
inductive Choice where
  | call (o : Op)
  | run
  | spurious
  deriving DecidableEq

variable {ι : Type}

/-- The world after `delete` of an object, if one was deleted. -/
def World.free (s : World ι) : Option ℕ → World ι
  | none => s
  | some a => { s with deleted := Function.update s.deleted a (s.deleted a + 1) }

/-- A step of `reclaim_later`. -/
def World.reclaim (s : World ι) (l : Local) (spurious : Bool) (r : Reclaim) :
    Option (Event Op Res × World ι × Local) :=
  match r.step spurious s.registry with
  | some (g, r', freed) =>
    some (.tau, World.free { s with registry := g } freed, { l with pc := .reclaim r' })
  | none => some (.tau, s, { l with pc := .done .unit })

/-- One step of a thread. -/
def step (t : ι) (k : Choice) (s : World ι) (l : Local) : Option (Event Op Res × World ι × Local) :=
  match l.pc, k with
  | .idle, .call .claim => some (.call .claim, s, { l with pc := .claim 0 })
  | .idle, .call (.release i) =>
    if i ∈ l.owners then some (.call (.release i), s, { l with pc := .clear i }) else none
  | .idle, .call (.store i p) =>
    if i ∈ l.owners then some (.call (.store i p), s, { l with pc := .store i p }) else none
  | .idle, .call (.reclaimLater a) =>
    some (.call (.reclaimLater a), s, { l with pc := .reclaim (.make a) })
  | .idle, .call .deleteNodes => some (.call .deleteNodes, s, { l with pc := .reclaim .takeList })
  -- hp_owner
  | .claim i, .run =>
    if i < maxHazardPointers then
      match tryClaim s.registry t i with
      | some g => some (.tau, { s with registry := g }, ⟨i :: l.owners, .done (.slot i)⟩)
      | none => some (.tau, s, { l with pc := .claim (i + 1) })
    else some (.tau, s, { l with pc := .done .noHazardPointers })
  | .clear i, .run =>
    some (.tau, { s with registry := store s.registry i none }, { l with pc := .disown i })
  | .disown i, .run =>
    some (.tau, { s with registry := release s.registry i }, ⟨l.owners.erase i, .done .unit⟩)
  | .store i p, .run =>
    some (.tau, { s with registry := store s.registry i p }, { l with pc := .done .unit })
  | .reclaim r, .run => s.reclaim l false r
  | .reclaim r, .spurious => s.reclaim l true r
  | .done r, .run => some (.ret r, s, { l with pc := .idle })
  | _, _ => none

/-- The threads that use the registry. -/
def program : Program ι (World ι) Local Choice Op Res := ⟨step⟩

/-- Nothing claimed, nothing handed over. -/
def start : Config ι (World ι) Local where
  shared := ⟨initial ι, fun _ => 0⟩
  loc := fun _ => ⟨[], .idle⟩

/-- A step of a run. -/
abbrev Step (ι : Type) := Rec ι (World ι) Local Op Res

/-! ## What a step can do -/

/-- The moves of a thread. -/
inductive Move (t : ι) (s : World ι) : Event Op Res → Local → World ι → Local → Prop
  | claim (g) : Move t s (.call .claim) ⟨g, .idle⟩ s ⟨g, .claim 0⟩
  | release (g i) (hi : i ∈ g) : Move t s (.call (.release i)) ⟨g, .idle⟩ s ⟨g, .clear i⟩
  | store (g i p) (hi : i ∈ g) : Move t s (.call (.store i p)) ⟨g, .idle⟩ s ⟨g, .store i p⟩
  | reclaimLater (g a) :
      Move t s (.call (.reclaimLater a)) ⟨g, .idle⟩ s ⟨g, .reclaim (.make a)⟩
  | deleteNodes (g) : Move t s (.call .deleteNodes) ⟨g, .idle⟩ s ⟨g, .reclaim .takeList⟩
  | claimed (g i) (hi : i < maxHazardPointers) (hid : s.registry.id i = none) :
      Move t s .tau ⟨g, .claim i⟩
        { s with registry := { s.registry with id := Function.update s.registry.id i (some t) } }
        ⟨i :: g, .done (.slot i)⟩
  | claimNext (g i) : Move t s .tau ⟨g, .claim i⟩ s ⟨g, .claim (i + 1)⟩
  | claimNone (g i) : Move t s .tau ⟨g, .claim i⟩ s ⟨g, .done .noHazardPointers⟩
  | clear (g i) : Move t s .tau ⟨g, .clear i⟩
      { s with registry := HazardPtr.store s.registry i none }
      ⟨g, .disown i⟩
  | disown (g i) : Move t s .tau ⟨g, .disown i⟩
      { s with registry := HazardPtr.release s.registry i }
      ⟨g.erase i, .done .unit⟩
  | stored (g i p) : Move t s .tau ⟨g, .store i p⟩
      { s with registry := HazardPtr.store s.registry i p } ⟨g, .done .unit⟩
  | reclaim (g r sp h r' freed) (hs : r.step sp s.registry = some (h, r', freed)) :
      Move t s .tau ⟨g, .reclaim r⟩ (World.free { s with registry := h } freed) ⟨g, .reclaim r'⟩
  | reclaimed (g) : Move t s .tau ⟨g, .reclaim .finished⟩ s ⟨g, .done .unit⟩
  | ret (g r) : Move t s (.ret r) ⟨g, .done r⟩ s ⟨g, .idle⟩

theorem reclaim_move {t : ι} {s s' : World ι} {g : List ℕ} {l' : Local} {ev : Event Op Res}
    {sp : Bool} {r : Reclaim} (hs : s.reclaim ⟨g, .reclaim r⟩ sp r = some (ev, s', l')) :
    Move t s ev ⟨g, .reclaim r⟩ s' l' := by
  unfold World.reclaim at hs
  split at hs
  · cases hs
    exact .reclaim g r sp _ _ _ ‹_›
  · cases hs
    obtain rfl := Reclaim.step_none ‹_›
    exact .reclaimed g

theorem step_move {t : ι} {k : Choice} {s s' : World ι} {l l' : Local} {ev : Event Op Res}
    (hs : step t k s l = some (ev, s', l')) : Move t s ev l s' l' := by
  obtain ⟨g, pc⟩ := l
  unfold step at hs
  split at hs <;> (try dsimp only at *) <;> (try subst_vars)
  all_goals first
    | exact reclaim_move hs
    | skip
  all_goals (try unfold tryClaim at hs)
  all_goals (repeat' split at hs)
  all_goals cases hs
  all_goals first
    | (constructor <;> assumption)
    | (rename_i hc; split at hc <;> cases hc; constructor <;> assumption)

/-- A call is the scheduler's choice. -/
theorem step_choice {t : ι} {k : Choice} {s s' : World ι} {l l' : Local} {o : Op}
    (hs : step t k s l = some (.call o, s', l')) : k = .call o := by
  unfold step World.reclaim at hs
  split at hs
  all_goals (repeat' split at hs)
  all_goals cases hs
  all_goals rfl

/-! ## Who owns a slot -/

/-- The slot `hp_owner`'s destructor is giving back, or a store goes to. -/
def Pc.uses : Pc → Option ℕ
  | .clear i | .disown i | .store i _ => some i
  | _ => none

/-- An owned slot has one owner, and only its owner stores to it. -/
structure Owned (s : Shared ι) (f : ι → Local) : Prop where
  owned : ∀ t i, i ∈ (f t).owners → s.id i ≠ none ∧ i < maxHazardPointers
  nodup : ∀ t, (f t).owners.Nodup
  unique : ∀ t u i, i ∈ (f t).owners → i ∈ (f u).owners → t = u
  uses : ∀ t i, (f t).pc.uses = some i → i ∈ (f t).owners
  pointer : ∀ i, s.pointer i ≠ none → i < maxHazardPointers

section
variable [DecidableEq ι] {s s' : World ι} {f : ι → Local} {t : ι} {l' : Local} {ev : Event Op Res}

omit [DecidableEq ι] in
@[simp] theorem World.free_registry (s : World ι) (a : Option ℕ) :
    (s.free a).registry = s.registry := by
  cases a <;> rfl

omit [DecidableEq ι] in
theorem World.free_deleted (s : World ι) (freed : Option ℕ) (a : ℕ) :
    (s.free freed).deleted a = s.deleted a + if freed = some a then 1 else 0 := by
  cases freed with
  | none => rfl
  | some b => by_cases hab : a = b <;> simp [World.free, hab, eq_comm]

theorem Owned.move (h : Owned s.registry f) (hm : Move t s ev (f t) s' l') :
    Owned s'.registry (Function.update f t l') := by
  generalize hft : f t = l at hm
  have huse := h.uses t
  rw [hft] at huse
  cases hm with
  | claimed g i hi hid =>
    obtain ⟨h1, h2, h3, h4, h5⟩ := h
    constructor <;> grind [Pc.uses]
  | clear g i =>
    have hi := huse i rfl
    obtain ⟨h1, h2, h3, h4, h5⟩ := h
    constructor <;> grind [Pc.uses]
  | stored g i p =>
    have hi := huse i rfl
    obtain ⟨h1, h2, h3, h4, h5⟩ := h
    constructor <;> grind [Pc.uses]
  | disown g i =>
    have hnd := h.nodup t
    obtain ⟨h1, h2, h3, h4, h5⟩ := h
    constructor <;> grind [Pc.uses, List.Nodup.mem_erase_iff, List.Nodup.erase]
  | reclaim g r sp z r' freed hs =>
    obtain ⟨hid, hptr⟩ := Reclaim.step_slots hs
    obtain ⟨h1, h2, h3, h4, h5⟩ := h
    rw [World.free_registry]
    constructor <;> grind [Pc.uses]
  | _ =>
    obtain ⟨h1, h2, h3, h4, h5⟩ := h
    constructor <;> grind [Pc.uses]
end

/-! ## Where an object is -/

/-- Slot `j` held `a` when `a` was handed to `reclaim_later`, and has held it ever since. -/
def heldSince : List (Step ι) → ℕ → ℕ → Prop
  | [], _, _ => False
  | r :: h, j, a => r.cfg.shared.registry.pointer j = some a ∧
      (r.ev = .call (.reclaimLater a) ∧ r.pre.shared.registry.pointer j = some a ∨ heldSince h j a)

/-- An object is handed to `reclaim_later` only once. -/
def HandedOnce (h : List (Step ι)) (k : Choice) : Prop :=
  ∀ a, k = .call (.reclaimLater a) → .reclaimLater a ∉ calls h

/-- The thread's place in `reclaim_later`. -/
def Pc.inReclaim : Pc → Reclaim
  | .reclaim r => r
  | _ => .finished

/-- The places of an object that was handed over: with the thread that is about to push it, on the
shared list, on the private list of one scan, deleted. -/
inductive Place (ι : Type) where
  | pushing (t : ι)
  | listed
  | scanned (t : ι)
  | deleted
  deriving DecidableEq

/-- How often object `a` is at a place. -/
def located (c : Config ι (World ι) Local) (a : ℕ) : Place ι → ℕ
  | .pushing t => (c.loc t).pc.inReclaim.pending.toList.count a
  | .listed => (c.shared.registry.nodesToReclaim.map DataToReclaim.data).count a
  | .scanned t => ((c.loc t).pc.inReclaim.held.map DataToReclaim.data).count a
  | .deleted => c.shared.deleted a

/-- The invariant: `w` says where each object is in the reclamation, and an object that has left it
was deleted once. -/
structure Kept [DecidableEq ι] (handed : ℕ → Prop) (prot : ℕ → ℕ → Prop) (w : ℕ → Where ι)
    (s : World ι) (f : ι → Local) : Prop where
  owned : Owned s.registry f
  reclaiming : Reclaiming w prot s.registry fun t => (f t).pc.inReclaim
  new : ∀ a, ¬ handed a → w a = .outside ∧ s.deleted a = 0
  inside : ∀ a, w a ≠ .outside → s.deleted a = 0
  outside : ∀ a, handed a → w a = .outside → s.deleted a = 1
  prot_inside : ∀ j a, prot j a → w a ≠ .outside

section
variable [DecidableEq ι] {handed : ℕ → Prop} {prot : ℕ → ℕ → Prop} {w : ℕ → Where ι}
  {s s' : World ι} {f : ι → Local} {t : ι} {l' : Local} {ev : Event Op Res}

/-- What a step hands over. -/
def handedStep (handed : ℕ → Prop) (ev : Event Op Res) (a : ℕ) : Prop :=
  ev = .call (.reclaimLater a) ∨ handed a

/-- What a step protects, from what was protected before it. -/
def protStep (prot : ℕ → ℕ → Prop) (s s' : World ι) (ev : Event Op Res) (j a : ℕ) : Prop :=
  s'.registry.pointer j = some a ∧
    (ev = .call (.reclaimLater a) ∧ s.registry.pointer j = some a ∨ prot j a)

theorem inReclaim_update : (fun u => (Function.update f t l' u).pc.inReclaim) =
    Function.update (fun u => (f u).pc.inReclaim) t l'.pc.inReclaim := by
  funext u
  by_cases hu : u = t <;> simp [hu]

/-- A step outside `reclaim_later`. -/
theorem Kept.quiet (h : Kept handed prot w s f) (hm : Move t s ev (f t) s' l')
    (hev : ∀ a, ev ≠ .call (.reclaimLater a)) (hd : s'.deleted = s.deleted)
    (hl : s'.registry.nodesToReclaim = s.registry.nodesToReclaim)
    (hr : l'.pc.inReclaim.view = (f t).pc.inReclaim.view) :
    Kept (handedStep handed ev) (protStep prot s s' ev) w s' (Function.update f t l') := by
  have hview : ∀ u, (Function.update f t l' u).pc.inReclaim.view = (f u).pc.inReclaim.view := by
    intro u
    by_cases hu : u = t
    · subst hu; simpa using hr
    · simp [hu]
  have hO := h.owned.move hm
  have hprot : ∀ j a, protStep prot s s' ev j a → prot j a := fun j a hj =>
    hj.2.resolve_left fun e => hev a e.1
  have hR : Reclaiming w (protStep prot s s' ev) s'.registry _ :=
    h.reclaiming.rebase hl hview fun j a hj =>
    ⟨hj.1, hO.pointer j (by rw [hj.1]; exact Option.some_ne_none _), .inl (hprot j a hj)⟩
  refine ⟨hO, hR, fun a ha => ?_, fun a ha => ?_, fun a ha => ?_, fun j a hj => ?_⟩
  · rw [hd]
    exact h.new a fun hh => ha (.inr hh)
  · rw [hd]
    exact h.inside a ha
  · rw [hd]
    exact h.outside a (ha.resolve_left (hev a))
  · exact h.prot_inside j a (hprot j a hj)

/-- `reclaim_later` is called on a new object. -/
theorem Kept.handOver (h : Kept handed prot w s f) {g : List ℕ} {a : ℕ} (hft : f t = ⟨g, .idle⟩)
    (ha : ¬ handed a) :
    Kept (handedStep handed (.call (.reclaimLater a))) (protStep prot s s (.call (.reclaimLater a)))
      (Function.update w a (.pending t)) s (Function.update f t ⟨g, .reclaim (.make a)⟩) := by
  have hout := (h.new a ha).1
  have hprot : ∀ j b, protStep prot s s (.call (.reclaimLater a)) j b → prot j b ∨ b = a := by
    rintro j b ⟨-, ⟨e, -⟩ | hp⟩
    · cases e; exact .inr rfl
    · exact .inl hp
  have hO := h.owned.move (t := t) (by rw [hft]; exact Move.reclaimLater g a)
  have hR : Reclaiming w (protStep prot s s (.call (.reclaimLater a))) s.registry _ :=
    h.reclaiming.rebase rfl (fun _ => rfl) fun j b hj =>
      ⟨hj.1, hO.pointer j (by rw [hj.1]; exact Option.some_ne_none _),
        (hprot j b hj).imp id fun e : b = a => e ▸ hout⟩
  have hR' := hR.retire (t := t) hout (by rw [hft]; rfl)
  refine ⟨hO, by rw [inReclaim_update]; exact hR', fun b hb => ?_, fun b hb => ?_,
    fun b hb hw => ?_, fun j b hj => ?_⟩
  · have hba : b ≠ a := fun e => hb (.inl (by rw [e]))
    rw [Function.update_of_ne hba]
    exact h.new b fun hh => hb (.inr hh)
  · by_cases hba : b = a
    · subst hba; exact (h.new b ha).2
    · rw [Function.update_of_ne hba] at hb
      exact h.inside b hb
  · have hba : b ≠ a := fun e => by rw [e, Function.update_self] at hw; cases hw
    rw [Function.update_of_ne hba] at hw
    refine h.outside b (hb.resolve_left fun e => ?_) hw
    cases e
    exact hba rfl
  · by_cases hba : b = a
    · subst hba; rw [Function.update_self]; nofun
    · rw [Function.update_of_ne hba]
      exact h.prot_inside j b ((hprot j b hj).resolve_right hba)

/-- A step of `reclaim_later`. -/
theorem Kept.reclaim (h : Kept handed prot w s f) {g : List ℕ} {r r' : Reclaim} {sp : Bool}
    {z : Shared ι} {freed : Option ℕ} (hft : f t = ⟨g, .reclaim r⟩)
    (hs : r.step sp s.registry = some (z, r', freed)) :
    ∃ w', Kept (handedStep handed .tau)
      (protStep prot s (World.free { s with registry := z } freed) .tau) w'
      (World.free { s with registry := z } freed) (Function.update f t ⟨g, .reclaim r'⟩) := by
  have hO := h.owned.move (t := t) (by rw [hft]; exact Move.reclaim g r sp z r' freed hs)
  obtain ⟨w', hR, hstep⟩ := h.reclaiming.advance (t := t) (by rw [hft]; exact hs)
  have hprot : ∀ j a, protStep prot s (World.free { s with registry := z } freed) .tau j a →
      prot j a := fun j a hj => hj.2.resolve_left nofun
  refine ⟨w', hO, ?_, fun a ha => ?_, fun a ha => ?_, fun a ha hw => ?_, fun j a hj => ?_⟩
  · rw [inReclaim_update, World.free_registry]
    refine hR.rebase rfl (fun _ => rfl) fun j a hj => ?_
    have hp := hprot j a hj
    exact ⟨hR.prot_pointer j a hp, hR.prot_lt j a hp, .inl hp⟩
  · obtain ⟨hw, hd⟩ := h.new a fun hh => ha (.inr hh)
    have hne : freed ≠ some a := fun e => by rw [(hstep.freed_held a e).1] at hw; cases hw
    rw [World.free_deleted, if_neg hne]
    exact ⟨(hstep.outside a hne).mpr hw, hd⟩
  · have hne : freed ≠ some a := fun e => ha (hstep.freed_held a e).2.1
    rw [World.free_deleted, if_neg hne]
    exact h.inside a fun hw => ha ((hstep.outside a hne).mpr hw)
  · have hh : handed a := ha.resolve_left nofun
    rw [World.free_deleted]
    by_cases he : freed = some a
    · have hd := h.inside a (by rw [(hstep.freed_held a he).1]; nofun)
      simp [he, hd]
    · simpa [he] using h.outside a hh ((hstep.outside a he).mp hw)
  · have hp := hprot j a hj
    have hne : freed ≠ some a := fun e => (hstep.freed_held a e).2.2 j hp
    exact fun hw => h.prot_inside j a hp ((hstep.outside a hne).mp hw)

/-- **Every step keeps the invariant.** -/
theorem Kept.move (h : Kept handed prot w s f) (hm : Move t s ev (f t) s' l')
    (hnew : ∀ a, ev = .call (.reclaimLater a) → ¬ handed a) :
    ∃ w', Kept (handedStep handed ev) (protStep prot s s' ev) w' s' (Function.update f t l') := by
  have hm' := hm
  generalize hft : f t = l at hm
  cases hm with
  | reclaimLater g a => exact ⟨_, h.handOver hft (hnew a rfl)⟩
  | reclaim g r sp z r' freed hs => exact h.reclaim hft hs
  | claimed | claimNext | claimNone | clear | disown | stored | ret | claim | release | store
    | deleteNodes | reclaimed => exact ⟨w, h.quiet hm' nofun rfl rfl (by rw [hft]; rfl)⟩
end

/-! ## Runs -/

section
variable [DecidableEq ι] {h : List (Step ι)} {c : Config ι (World ι) Local}

theorem kept_run (hr : program.Run (fun h _ _ k => HandedOnce h k) start h c) :
    ∃ w, Kept (fun a => .reclaimLater a ∈ calls h) (heldSince h) w c.shared c.loc := by
  refine hr.induction (I := fun h c => ∃ w,
    Kept (fun a => .reclaimLater a ∈ calls h) (heldSince h) w c.shared c.loc)
    ⟨fun _ => .outside, ?_⟩ fun h c t k ev s l _ ih hok hs => ?_
  · constructor
    · constructor <;> simp [start, initial, Pc.uses]
    · constructor <;> simp [start, initial, Pc.inReclaim, Reclaim.held, Reclaim.pending,
        Reclaim.scanning, heldSince]
    · simp [start]
    · simp
    · simp [calls]
    · simp [heldSince]
  · obtain ⟨w, ih⟩ := ih
    obtain ⟨w', hw'⟩ := ih.move (step_move hs) fun a e => hok a (step_choice (e ▸ hs))
    have hcalls : (fun a => Op.reclaimLater a ∈ calls (⟨t, ev, c, c.set t s l⟩ :: h)) =
        handedStep (fun a => .reclaimLater a ∈ calls h) ev := by
      funext a
      cases ev <;> simp [calls, handedStep, eq_comm]
    rw [hcalls]
    exact ⟨w', hw'⟩

/-- An object that was handed over is in one place, once. -/
theorem Kept.sole {handed : ℕ → Prop} {prot : ℕ → ℕ → Prop} {w : ℕ → Where ι} {a : ℕ}
    (hK : Kept handed prot w c.shared c.loc) (ha : handed a) : Sole (located c a) := by
  have hR := hK.reclaiming
  have hlist := hR.listed a
  have hheld := fun t => hR.held t a
  have hpend := fun t => hR.pending t a
  have hzero : w a ≠ .outside → c.shared.deleted a = 0 := hK.inside a
  have hpush : ∀ t, w a ≠ .pending t → located c a (.pushing t) = 0 := by
    intro t hne
    simp only [located]
    rw [List.count_eq_zero, Option.mem_toList]
    exact fun e => hne ((hpend t).mp e)
  have hnl : w a ≠ .listed → located c a .listed = 0 := fun hne =>
    List.count_eq_zero.mpr fun e => hne (hlist.mp e)
  have hnh : ∀ t, w a ≠ .held t → located c a (.scanned t) = 0 := fun t hne =>
    List.count_eq_zero.mpr fun e => hne ((hheld t).mp e)
  cases hw : w a with
  | outside =>
    refine ⟨.deleted, hK.outside a ha hw, fun q hq => ?_⟩
    cases q with
    | deleted => exact absurd rfl hq
    | pushing t => exact hpush t (by rw [hw]; nofun)
    | listed => exact hnl (by rw [hw]; nofun)
    | scanned t => exact hnh t (by rw [hw]; nofun)
  | pending t =>
    refine ⟨.pushing t, ?_, fun q hq => ?_⟩
    · simp [located, (hpend t).mpr hw]
    · cases q with
      | deleted => exact hzero (by rw [hw]; nofun)
      | pushing u => exact hpush u fun e => hq (by rw [hw] at e; cases e; rfl)
      | listed => exact hnl (by rw [hw]; nofun)
      | scanned u => exact hnh u (by rw [hw]; nofun)
  | listed =>
    refine ⟨.listed, List.count_eq_one_of_mem hR.listed_nodup (hlist.mpr hw), fun q hq => ?_⟩
    cases q with
    | deleted => exact hzero (by rw [hw]; nofun)
    | pushing u => exact hpush u (by rw [hw]; nofun)
    | listed => exact absurd rfl hq
    | scanned u => exact hnh u (by rw [hw]; nofun)
  | held t =>
    refine ⟨.scanned t, List.count_eq_one_of_mem (hR.held_nodup t) ((hheld t).mpr hw),
      fun q hq => ?_⟩
    cases q with
    | deleted => exact hzero (by rw [hw]; nofun)
    | pushing u => exact hpush u (by rw [hw]; nofun)
    | listed => exact hnl (by rw [hw]; nofun)
    | scanned u => exact hnh u fun e => hq (by rw [hw] at e; cases e; rfl)

/-- **The protocol.** In every run in which no object is handed over twice: each object handed over
is in one place, once; one that a slot has held since before that has not been deleted; and no slot
has two owners. -/
theorem protocol_safe (hr : program.Run (fun h _ _ k => HandedOnce h k) start h c) :
    (∀ a, .reclaimLater a ∈ calls h → Sole (located c a)) ∧
    (∀ j a, heldSince h j a → c.shared.deleted a = 0) ∧
    (∀ t, (c.loc t).owners.Nodup) ∧
    ∀ t u i, i ∈ (c.loc t).owners → i ∈ (c.loc u).owners → t = u := by
  obtain ⟨w, hK⟩ := kept_run hr
  exact ⟨fun a ha => hK.sole ha, fun j a hj => hK.inside a (hK.prot_inside j a hj), hK.owned.nodup,
    hK.owned.unique⟩
end

/-- Thread `true` takes a slot and stores the object 7 in it; thread `false` hands 7 and 8 over and
scans. -/
def scanSchedule : List (Bool × Choice) :=
  (true, Choice.call .claim) :: List.replicate 2 (true, Choice.run) ++
    (true, Choice.call (.store 0 (some 7))) :: List.replicate 2 (true, Choice.run) ++
    (false, Choice.call (.reclaimLater 7)) :: List.replicate 6 (false, Choice.run) ++
    (false, Choice.call (.reclaimLater 8)) :: List.replicate 6 (false, Choice.run) ++
    (false, Choice.call .deleteNodes) :: List.replicate 106 (false, Choice.run)

/-- An object that is handed over is nowhere yet. -/
def handsNew (c : Config Bool (World Bool) Local) (_ : Bool) (k : Choice)
    (_ : Config Bool (World Bool) Local) : Bool :=
  match k with
  | .call (.reclaimLater a) => [.pushing true, .pushing false, .listed, .scanned true,
      .scanned false, .deleted].all fun p => located c a p == 0
  | _ => true

theorem handsNew_once {h : List (Step Bool)} {c c' : Config Bool (World Bool) Local} {t : Bool}
    {k : Choice} (hr : program.Run (fun h _ _ k => HandedOnce h k) start h c)
    (hq : handsNew c t k c' = true) : HandedOnce h k := by
  rintro a rfl hmem
  obtain ⟨w, hK⟩ := kept_run hr
  obtain ⟨p, hp, -⟩ := hK.sole hmem
  simp [handsNew] at hq
  cases p with
  | pushing t => cases t <;> omega
  | scanned t => cases t <;> omega
  | _ => omega

theorem protocol_safe_scan :
    ∃ h c, program.Run (fun h _ _ k => HandedOnce h k) (start (ι := Bool)) h c ∧
      c.shared.deleted 8 = 1 ∧ c.shared.deleted 7 = 0 ∧ Sole (located c 7) := by
  have he : ((program.replay handsNew (start (ι := Bool)) scanSchedule).any fun (h, c) =>
      decide (Op.reclaimLater 7 ∈ calls h ∧ c.shared.deleted 8 = 1 ∧ c.shared.deleted 7 = 0)) =
        true := by set_option maxRecDepth 10000 in decide
  obtain ⟨⟨h, c⟩, hc, hd⟩ := (Option.any_eq_true _ _).mp he
  obtain ⟨h7, hd8, hd7⟩ := of_decide_eq_true hd
  obtain ⟨hr, -⟩ := Program.replay_run (fun h _ _ k => HandedOnce h k)
    (fun _ _ _ _ _ hr hq => handsNew_once hr hq) scanSchedule .nil hc
  rw [List.append_nil] at hr
  exact ⟨h, c, hr, hd8, hd7, (protocol_safe hr).1 7 h7⟩

end Bonostl.HazardPtr
