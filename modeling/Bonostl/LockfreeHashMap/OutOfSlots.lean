import Bonostl.LockfreeHashMap.Returns

/-!
# `lockfree_hash_map` when no hazard slot is left

`hazard_pointers` has 100 slots for the whole process. Here a thread has two parts: the operation of
the map it is in (`Party.call`), and the slots that it holds for other containers (`Party.kept`).
Between its calls it takes such slots, writes to them and gives them back at will, so during a call
of one thread any number of slots is taken and given back by the others.

A call throws where it constructs an `hp_owner`. `Pc.canThrow` are the places from which it can
still come there: every retry is one of them, and no step that leads to one of them has changed the
map (`Inv.harmless`). So a call that has thrown has left the map and `size()` as it would be without
the call, but for new sentinels, and has given back all its slots (`throw_leaves_map`). The map may
start from any state of its list, with any counters and any slots taken.
-/

namespace Bonostl.LockfreeHashMap

open Interleaving HazardPtr HarrisMichael Chain

variable {ι K V : Type}

/-! ## The process -/

/-- A thread of the process. -/
structure Party (K V : Type) where
  call : Local K V
  kept : List ℕ
  deriving DecidableEq

/-- What a thread does next: a step in the map, or something with a slot of another container. -/
inductive Act (K V : Type) where
  | map (k : Choice K V)
  | claim (i : ℕ)
  | store (i : ℕ) (p : Option ℕ)
  | release (i : ℕ)

/-- A step with a slot of another container. -/
def Act.outside [DecidableEq ι] (t : ι) (h : HazardPtr.Shared ι) (kept : List ℕ) :
    Act K V → Option (HazardPtr.Shared ι × List ℕ)
  | .map _ => none
  | .claim i =>
    if i < maxHazardPointers then (tryClaim h t i).map fun h' => (h', i :: kept) else none
  | .store i p => if i ∈ kept then some (HazardPtr.store h i p, kept) else none
  | .release i => if i ∈ kept then some (HazardPtr.release h i, kept.erase i) else none

section
variable [LT K] [DecidableLT K] [Inhabited K] [DecidableEq ι] (hash : K → Word)

/-- One step of a thread of the process. -/
def Party.step (t : ι) (a : Act K V) (s : Shared ι K V) (l : Party K V) :
    Option (Event (Op K V) (Res V) × Shared ι K V × Party K V) :=
  match a with
  | .map k =>
    (LockfreeHashMap.step hash t k s l.call).map fun (ev, s', l') => (ev, s', { l with call := l' })
  | a =>
    match l.call.pc with
    | .idle => (a.outside t s.mem.hazard l.kept).map fun (h, kept) =>
        (.tau, s.setHazard h, { l with kept := kept })
    | _ => none

/-- The threads of the process. -/
def process : Program ι (Shared ι K V) (Party K V) (Act K V) (Op K V) (Res V) := ⟨Party.step hash⟩
end

/-- A step of the process. -/
abbrev ProcessStep (ι K V : Type) := Rec ι (Shared ι K V) (Party K V) (Op K V) (Res V)

/-- `new` returns an address that has not held a node. -/
def FreshNodes (_ : List (ProcessStep ι K V)) (c : Config ι (Shared ι K V) (Party K V)) (_ : ι)
    (a : Act K V) : Prop :=
  ∀ n, a = .map (.alloc n) → c.shared.mem.used n = false

/-! ## The state of a map -/

/-- The nodes of the list that are not marked. -/
def Live (s : Shared ι K V) (a : ℕ) : Prop :=
  a ∈ nodes s.mem.next (some head) ∧ s.mem.marked a = false

/-- The abstract map: the keys and values of these nodes. -/
def stored (s : Shared ι K V) : Set (K × V) :=
  {e | ∃ a, Live s a ∧ (s.mem.data a).key = some e.1 ∧ s.values a = some e.2}

/-- The same abstract map and `size()`. -/
def SameMap (s s' : Shared ι K V) : Prop := stored s' = stored s ∧ s'.size = s.size

/-- The same map, with new sentinels at most. -/
def Harmless (s s' : Shared ι K V) : Prop :=
  SameMap s s' ∧ ∀ a, Live s' a → Live s a ∨ (s'.mem.data a).key = none

/-- **The invariant of the list**, where `linked` are the nodes that were linked in. -/
structure ListInvariant [LT K] (hash : K → Word) (linked : ℕ → Prop) (s : Shared ι K V) : Prop where
  chain : ∃ l, MarkedChain below LockfreeHashMap.head linked l s.mem.next s.mem.marked s.mem.data
  head : Sentinel linked s head (bucketSplitKey 0)
  used : ∀ a, linked a → s.mem.used a = true
  proper : ∀ a, linked a → Proper hash (s.mem.data a)
  sentinels : ∀ a, linked a → (s.mem.data a).key = none → s.mem.marked a = false
  marked : ∀ a, s.mem.marked a = true → linked a

/-- The slots of the registry are those the threads hold, each once. -/
def Owned (id : ℕ → Option ι) (f : ι → List ℕ) : Prop :=
  ∀ t, (f t).Nodup ∧ ∀ i, id i = some t ↔ i ∈ f t

/-- A process in which no call of the map is running. -/
structure Between [LT K] (hash : K → Word) (c : Config ι (Shared ι K V) (Party K V)) : Prop where
  list : ∃ linked, ListInvariant hash linked c.shared
  idle : ∀ t, (c.loc t).call = ⟨[], .idle⟩
  slots : Owned c.shared.mem.hazard.id fun t => (c.loc t).kept

theorem SameMap.refl (s : Shared ι K V) : SameMap s s := ⟨rfl, rfl⟩

theorem SameMap.trans {s s' s'' : Shared ι K V} (h : SameMap s s') (h' : SameMap s' s'') :
    SameMap s s'' :=
  ⟨h'.1.trans h.1, h'.2.trans h.2⟩

theorem Harmless.refl (s : Shared ι K V) : Harmless s s := ⟨.refl s, fun _ => .inl⟩

section
variable [LT K] [DecidableLT K] [Inhabited K] {hash : K → Word} {linked linked' : ℕ → Prop}
  {s s' : Shared ι K V} {f f' : ι → Local K V} {D D' : ι → Set (Memory ι (Data K))}

theorem Inv.list (h : Inv hash linked s f D) : ListInvariant hash linked s :=
  ⟨h.chain, h.head, h.used, h.proper, h.sentinels, h.marked⟩

/-- No thread is in a call, so none knows anything or has a node of its own. -/
theorem ListInvariant.inv (h : ListInvariant hash linked s) (hf : ∀ t, f t = ⟨[], .idle⟩) :
    Inv hash linked s f D := by
  refine ⟨h.chain, h.head, h.used, h.proper, h.sentinels, h.marked, ?_, ?_, ?_⟩
  · intro t n d hn
    rw [hf t] at hn
    cases hn
  · intro t u n d e hn
    rw [hf t] at hn
    cases hn
  · intro t
    rw [hf t]
    trivial

omit [DecidableLT K] [Inhabited K] in
theorem ListInvariant.live_iff (h : ListInvariant hash linked s) (a : ℕ) :
    Live s a ↔ linked a ∧ s.mem.marked a = false := by
  obtain ⟨l, hc⟩ := h.chain
  rw [Live, nodes_eq hc.chain]
  exact ⟨fun ⟨hl, hm⟩ => ⟨hc.mem a hl, hm⟩, fun ⟨hl, hm⟩ => ⟨hc.unmarked a hl hm, hm⟩⟩

/-- What a step must do to the nodes of the list to be harmless. -/
structure Spares (linked : ℕ → Prop) (new : Option ℕ) (s s' : Shared ι K V) : Prop where
  marked : ∀ a, linked a → s'.mem.marked a = s.mem.marked a
  data : ∀ a, linked a → s'.mem.data a = s.mem.data a
  values : ∀ a, linked a → s'.values a = s.values a
  size : s'.size = s.size
  sentinel : ∀ n, new = some n → (s'.mem.data n).key = none

omit [LT K] [DecidableLT K] [Inhabited K] in
/-- `new` takes an address outside the list. -/
theorem Spares.alloc {a : ℕ} {d : Data K} {x : Option V} (ha : ¬ linked a) :
    Spares linked none s { s with
      mem := s.mem.alloc a d
      values := Function.update s.values a x } := by
  have hne : ∀ b, linked b → b ≠ a := by rintro b hb rfl; exact ha hb
  refine ⟨fun b hb => ?_, fun b hb => ?_, fun b hb => ?_, rfl, nofun⟩
  · exact Function.update_of_ne (hne b hb) _ _
  · exact Function.update_of_ne (hne b hb) _ _
  · exact Function.update_of_ne (hne b hb) _ _

omit [DecidableLT K] [Inhabited K] in
theorem Spares.harmless {new : Option ℕ} (h : Spares linked new s s')
    (hs : ListInvariant hash linked s)
    (hs' : ListInvariant hash (fun x => new = some x ∨ linked x) s') : Harmless s s' := by
  have hlive : ∀ a, Live s a → Live s' a := by
    intro a ha
    obtain ⟨hl, hm⟩ := (hs.live_iff a).mp ha
    exact (hs'.live_iff a).mpr ⟨.inr hl, (h.marked a hl).trans hm⟩
  have hback : ∀ a, Live s' a → (Live s a ∧ linked a) ∨ (s'.mem.data a).key = none := by
    intro a ha
    obtain ⟨hnew | hl, hm⟩ := (hs'.live_iff a).mp ha
    · exact .inr (h.sentinel a hnew)
    · exact .inl ⟨(hs.live_iff a).mpr ⟨hl, (h.marked a hl).symm.trans hm⟩, hl⟩
  refine ⟨⟨Set.ext fun e => ⟨?_, ?_⟩, h.size⟩, fun a ha => (hback a ha).imp And.left id⟩
  · rintro ⟨a, ha, hk, hv⟩
    rcases hback a ha with ⟨ha', hl⟩ | hnone
    · exact ⟨a, ha', by rwa [h.data a hl] at hk, by rwa [h.values a hl] at hv⟩
    · rw [hnone] at hk
      cases hk
  · rintro ⟨a, ha, hk, hv⟩
    have hl := ((hs.live_iff a).mp ha).1
    exact ⟨a, hlive a ha, by rwa [h.data a hl], by rwa [h.values a hl]⟩
end

/-! ## Where a call can throw -/

/-- The call can still throw. -/
def Pc.canThrow : Pc K V → Bool
  | .claim _ _ _ | .bucketOf _ | .find _ _ | .newSentinel _ _ _ _ | .newNode _ _ _ | .setNext _ _ _
  | .link _ _ _ | .deleteSentinel _ _ _ _ | .loadNext _ _ _ | .mark _ _ _ _
  | .destroy _ (.bucket _ _ _ _) | .disown _ (.bucket _ _ _ _) => true
  | .destroy _ (.result r) | .disown _ (.result r) | .done r => r.threw
  | _ => false

section
variable [LT K] [DecidableLT K] [Inhabited K] {hash : K → Word} {linked : ℕ → Prop}
  {s s' : Shared ι K V} {t : ι} {k : Choice K V} {ev : Event (Op K V) (Res V)} {l' : Local K V}

theorem Move.called {l : Local K V} {o : Op K V} (hm : Move hash t s k (.call o) l s' l') :
    l.pc = .idle := by
  cases hm
  rfl

theorem Move.returned {l : Local K V} {r : Res V} (hm : Move hash t s k (.ret r) l s' l') :
    l.pc = .done r ∧ s' = s ∧ l' = ⟨l.slots, .idle⟩ := by
  cases hm
  exact ⟨rfl, rfl, rfl⟩

/-- Where a call has come so far that it cannot throw, it never throws. -/
theorem Move.canThrow {l : Local K V} (hm : Move hash t s k ev l s' l') (hev : ∀ o, ev ≠ .call o)
    (hl : l'.pc.canThrow = true) : l.pc.canThrow = true := by
  cases hm with
  | call i o => exact absurd rfl (hev o)
  | destroyed slots a =>
    cases a with
    | result r => exact hl
    | bucket => rfl
  | destroy i slots m a => cases a <;> exact hl
  | disown i slots m a => cases a <;> exact hl
  | claimNone | claim | claimNext | bucketOf | find | resume | newSentinel | newNode
      | setNext | link
  | linkFail | deleteSentinel | loadNext | markFail => rfl
  | _ => cases hl

variable [IsTrans K (· < ·)] {f : ι → Local K V} {D : ι → Set (Memory ι (Data K))}

/-- **No step that leads to where the call can still throw changes the map.** -/
theorem Inv.spares (h : Inv hash linked s f D) (hm : Move hash t s k ev (f t) s' l')
    (hok : ∀ a, k = .alloc a → s.mem.used a = false) (hl : l'.pc.canThrow = true) :
    Spares linked ((f t).pc.links l'.pc) s s' := by
  have hkn := h.knows t
  have hmine := h.mine t
  generalize f t = lt at hm hkn hmine
  cases hm with
  | find i w f₀ m f' ch hf =>
    obtain ⟨hw, hk⟩ := hkn
    obtain ⟨l, hc⟩ := h.chain
    obtain ⟨hs1, hs2, hs3⟩ := h.start hw
    obtain ⟨-, -, hkept, -⟩ :=
      hf.knows hc hk hs1 hs2 hs3 h.advance (Set.subset_univ _) (Set.mem_univ _)
    exact ⟨fun a _ => hkept.marked a, fun a _ => hkept.data a, fun _ _ => rfl, rfl, nofun⟩
  | newSentinel i o b bs p a ha => exact .alloc (h.unused (hok a rfl))
  | newNode i key value n a ha => exact .alloc (h.unused (hok a rfl))
  | setNext i w pred curr =>
    have hp := hmine w.node (w.data hash) rfl
    refine ⟨fun b hb => ?_, fun _ _ => rfl, fun _ _ => rfl, rfl, nofun⟩
    exact Function.update_of_ne (by rintro rfl; exact hp.unlinked hb) _ _
  | link i w pred curr hn hmk =>
    have hp := hmine w.node (w.data hash) rfl
    cases w with
    | put key value n a => cases hl
    | sentinel o b bs n =>
      refine ⟨fun _ _ => rfl, fun _ _ => rfl, fun _ _ => rfl, rfl, ?_⟩
      rintro x ⟨⟩
      exact congrArg Data.key hp.data
  | linkFail i w pred curr =>
    refine ⟨fun _ _ => rfl, fun _ _ => rfl, fun _ _ => rfl, rfl, ?_⟩
    cases w <;> nofun
  | resume i w p c found pred curr =>
    exact ⟨fun _ _ => rfl, fun _ _ => rfl, fun _ _ => rfl, rfl, nofun⟩
  | claim | claimNone | claimNext | call | destroyed | destroy | disown | bucketOf
  | deleteSentinel | loadNext | markFail | loadValue | swept | elsewhere =>
    exact ⟨fun _ _ => rfl, fun _ _ => rfl, fun _ _ => rfl, rfl, nofun⟩
  | _ => cases hl
end

/-! ## Slots -/

section
variable [DecidableEq ι] {t : ι} {id id' : ℕ → Option ι} {xs xs' ys : List ℕ} {f : ι → List ℕ}

/-- What a step of `t` does to the registry and to the slots of `t`. -/
inductive SlotMove (t : ι) (id : ℕ → Option ι) (xs : List ℕ) : (ℕ → Option ι) → List ℕ → Prop
  | claim (i xs') (hi : id i = none) (hp : xs'.Perm (i :: xs)) :
      SlotMove t id xs (Function.update id i (some t)) xs'
  | release (i xs') (hp : xs.Perm (i :: xs')) : SlotMove t id xs (Function.update id i none) xs'
  | same : SlotMove t id xs id xs

omit [DecidableEq ι] in
/-- More slots that the step does not touch. -/
theorem SlotMove.append (h : SlotMove t id xs id' xs') (ys : List ℕ) :
    SlotMove t id (xs ++ ys) id' (xs' ++ ys) := by
  cases h with
  | claim i _ hi hp => exact .claim i _ hi (hp.append_right ys)
  | release i _ hp => exact .release i _ (hp.append_right ys)
  | same => exact .same

theorem Owned.move (h : Owned id f) (hm : SlotMove t id (f t) id' xs') :
    Owned id' (Function.update f t xs') := by
  intro u
  obtain ⟨hnd, hid⟩ := h u
  cases hm with
  | claim i _ hi hp =>
    have hfree : ∀ v, i ∉ f v := fun v hv => by
      have hv' := ((h v).2 i).mpr hv
      rw [hi] at hv'
      cases hv'
    by_cases hut : u = t
    · subst hut
      rw [Function.update_self]
      refine ⟨hp.nodup_iff.mpr (List.nodup_cons.mpr ⟨hfree u, hnd⟩), fun j => ?_⟩
      rw [hp.mem_iff, List.mem_cons, ← hid j]
      by_cases hji : j = i
      · simp [hji]
      · simp [hji]
    · rw [Function.update_of_ne hut]
      refine ⟨hnd, fun j => ?_⟩
      rw [← hid j]
      by_cases hji : j = i
      · subst hji
        simp [hi, Ne.symm hut]
      · simp [hji]
  | release i _ hp =>
    by_cases hut : u = t
    · subst hut
      rw [Function.update_self]
      obtain ⟨hi, hnd'⟩ := List.nodup_cons.mp (hp.nodup_iff.mp hnd)
      refine ⟨hnd', fun j => ?_⟩
      by_cases hji : j = i
      · subst hji
        simp [hi]
      · rw [Function.update_of_ne hji, hid j, hp.mem_iff, List.mem_cons]
        simp [hji]
    · rw [Function.update_of_ne hut]
      refine ⟨hnd, fun j => ?_⟩
      by_cases hji : j = i
      · subst hji
        have ht := ((h t).2 j).mpr (hp.mem_iff.mpr List.mem_cons_self)
        rw [← hid j, ht]
        simp [Ne.symm hut]
      · rw [Function.update_of_ne hji, hid j]
  | same =>
    rw [Function.update_eq_self]
    exact ⟨hnd, hid⟩

end

section
variable {t : ι} {s s' : Shared ι K V} {k : Choice K V} {ev : Event (Op K V) (Res V)}
  {l l' : Local K V}

/-- A step in the map. -/
theorem Move.slots [LT K] [DecidableLT K] [Inhabited K] {hash : K → Word}
    (hm : Move hash t s k ev l s' l') :
    SlotMove t s.mem.hazard.id l.slots s'.mem.hazard.id l'.slots := by
  cases hm with
  | claim w second i slots hi hid => exact .claim i _ hid (.refl _)
  | disown i slots m a => exact .release i _ (.refl _)
  | find i w f m f' ch hf => exact hf.ids ▸ .same
  | deleteSentinel => exact .same
  | reclaim i r sp z r' freed ch hs | sweep i r sp z r' freed ch hs =>
    have hz : z.id = s.mem.hazard.id := funext (Reclaim.step_slots hs).1
    cases freed <;> exact hz ▸ .same
  | _ => exact .same

/-- A step with a slot of another container. -/
theorem Act.outside_slots [DecidableEq ι] {a : Act K V} {h h' : HazardPtr.Shared ι}
    {kept kept' : List ℕ}
    (ha : a.outside t h kept = some (h', kept')) : SlotMove t h.id kept h'.id kept' := by
  cases a with
  | map k => cases ha
  | claim i =>
    simp only [Act.outside, tryClaim] at ha
    split at ha
    · split at ha
      · cases ha
        exact .claim i _ ‹_› (.refl _)
      · cases ha
    · cases ha
  | store i p =>
    simp only [Act.outside] at ha
    split at ha
    · cases ha
      exact .same
    · cases ha
  | release i =>
    simp only [Act.outside] at ha
    split at ha
    · cases ha
      exact .release i _ (List.perm_cons_erase ‹_›)
    · cases ha
end

/-! ## Runs -/

/-- The call that `t` is in: it began with the step `r₀`, and no step of `t` since has changed the
map. -/
structure Since (h : List (ProcessStep ι K V)) (c : Config ι (Shared ι K V) (Party K V)) (t : ι)
    (h₁ : List (ProcessStep ι K V)) (r₀ : ProcessStep ι K V) (h₂ : List (ProcessStep ι K V)) :
    Prop where
  split : h = h₁ ++ r₀ :: h₂
  tid : r₀.tid = t
  call : ∃ o, r₀.ev = .call o
  tau : ∀ x ∈ h₁, x.tid = t → x.ev = .tau
  harmless : ∀ x ∈ h₁ ++ [r₀], x.tid = t → Harmless x.pre.shared x.cfg.shared
  calm : (∀ x ∈ h₁, x.tid ≠ t → SameMap x.pre.shared x.cfg.shared) → SameMap r₀.pre.shared c.shared
  kept : (c.loc t).kept = (r₀.pre.loc t).kept
  owned : ∀ i, r₀.pre.shared.mem.hazard.id i = some t ↔ i ∈ (r₀.pre.loc t).kept

/-- What every run of the process keeps. -/
structure Proceeds [LT K] [DecidableLT K] [Inhabited K] (hash : K → Word)
    (h : List (ProcessStep ι K V)) (c : Config ι (Shared ι K V) (Party K V)) : Prop where
  list : ∃ linked, Inv hash linked c.shared (fun t => (c.loc t).call) fun _ => Set.univ
  holds : ∀ t, (c.loc t).call.pc.Holds (c.loc t).call.slots.length
  owned : Owned c.shared.mem.hazard.id fun t => (c.loc t).call.slots ++ (c.loc t).kept
  since : ∀ t, (c.loc t).call.pc.canThrow = true → ∃ h₁ r₀ h₂, Since h c t h₁ r₀ h₂

/-- Another step in the course of a call. -/
theorem Since.cons {h h₁ h₂ : List (ProcessStep ι K V)} {c c' : Config ι (Shared ι K V) (Party K V)}
    {t u : ι} {r₀ : ProcessStep ι K V} {ev : Event (Op K V) (Res V)} (hS : Since h c u h₁ r₀ h₂)
    (htau : t = u → ev = .tau) (hh : t = u → Harmless c.shared c'.shared)
    (hk : (c'.loc u).kept = (c.loc u).kept) :
    Since (⟨t, ev, c, c'⟩ :: h) c' u (⟨t, ev, c, c'⟩ :: h₁) r₀ h₂ := by
  refine ⟨by rw [hS.split, List.cons_append], hS.tid, hS.call, ?_, ?_, fun hothers => ?_,
    hk.trans hS.kept, hS.owned⟩
  · intro x hx hxu
    rcases List.mem_cons.mp hx with rfl | hx
    · exact htau hxu
    · exact hS.tau x hx hxu
  · intro x hx hxu
    rcases List.mem_cons.mp hx with rfl | hx
    · exact hh hxu
    · exact hS.harmless x hx hxu
  · refine (hS.calm fun x hx => hothers x (List.mem_cons_of_mem _ hx)).trans ?_
    by_cases htu : t = u
    · exact (hh htu).1
    · exact hothers _ List.mem_cons_self htu

section
variable [LT K] [DecidableLT K] [Inhabited K] [DecidableEq ι] {hash : K → Word}
  {h : List (ProcessStep ι K V)} {c c₀ : Config ι (Shared ι K V) (Party K V)} {t : ι} {a : Act K V}
  {ev : Event (Op K V) (Res V)} {s' : Shared ι K V} {l' : Party K V}

/-- A step of the process is one in the map, or between two calls one with another slot. -/
theorem Party.step_cases {s : Shared ι K V} {l : Party K V}
    (hs : Party.step hash t a s l = some (ev, s', l')) :
    (∃ k, a = .map k ∧ Move hash t s k ev l.call s' l'.call ∧ l'.kept = l.kept) ∨
    (ev = .tau ∧ l.call.pc = .idle ∧ l'.call = l.call ∧ ∃ z, s' = s.setHazard z ∧
      a.outside t s.mem.hazard l.kept = some (z, l'.kept)) := by
  have houtside : ∀ {x : Act K V}, (∀ k, x ≠ .map k) → Party.step hash t x s l = some (ev, s', l') →
      ev = .tau ∧ l.call.pc = .idle ∧ l'.call = l.call ∧ ∃ z, s' = s.setHazard z ∧
        x.outside t s.mem.hazard l.kept = some (z, l'.kept) := by
    intro x hx hs
    unfold Party.step at hs
    split at hs
    · exact absurd rfl (hx _)
    · split at hs
      · obtain ⟨⟨z, kept⟩, hz, he⟩ := Option.map_eq_some_iff.mp hs
        cases he
        exact ⟨rfl, ‹_›, rfl, z, rfl, hz⟩
      · cases hs
  cases a with
  | map k =>
    obtain ⟨⟨ev', z, lc⟩, hstep, he⟩ := Option.map_eq_some_iff.mp hs
    cases he
    exact .inl ⟨k, rfl, step_move hash hstep, rfl⟩
  | claim i => exact .inr (houtside nofun hs)
  | store i p => exact .inr (houtside nofun hs)
  | release i => exact .inr (houtside nofun hs)

omit [LT K] [DecidableLT K] [Inhabited K] in
/-- A part of the threads after a step of `t`. -/
theorem part_set {α : Type} (g : Party K V → α) :
    (fun u => g ((c.set t s' l').loc u)) = Function.update (fun u => g (c.loc u)) t (g l') := by
  funext u
  by_cases hut : u = t
  · subst hut
    simp
  · simp [hut]

omit [DecidableEq ι] in
/-- A thread between two calls holds no slot for the map. -/
theorem Proceeds.slots_of_idle (hI : Proceeds hash h c) (hidle : (c.loc t).call.pc = .idle) :
    (c.loc t).call.slots = [] := by
  have hh := hI.holds t
  rw [hidle] at hh
  exact List.length_eq_zero_iff.mp hh

/-- A step in the map. -/
theorem Proceeds.map [IsTrans K (· < ·)] (hI : Proceeds hash h c) {k : Choice K V}
    (hm : Move hash t c.shared k ev (c.loc t).call s' l'.call) (hkept : l'.kept = (c.loc t).kept)
    (hok : ∀ n, k = .alloc n → c.shared.mem.used n = false) :
    Proceeds hash (⟨t, ev, c, c.set t s' l'⟩ :: h) (c.set t s' l') := by
  obtain ⟨linked, hinv⟩ := hI.list
  have hmoved : Moved hash linked c.shared (fun t => (c.loc t).call)
      (fun _ => Set.univ) t s' l'.call :=
    inv_move hinv hm hok (fun _ _ => subset_rfl) (fun _ => subset_rfl) (Set.mem_univ _)
  have hinv' := hmoved.1
  have hharm : l'.call.pc.canThrow = true → Harmless c.shared s' := fun hl =>
    (hinv.spares hm hok hl).harmless hinv.list hinv'.list
  rw [← part_set Party.call] at hinv'
  refine ⟨⟨_, hinv'⟩, ?_, ?_, fun u hu => ?_⟩
  · refine Config.forall_set (p := fun _ (l : Party K V) => l.call.pc.Holds l.call.slots.length) ?_
      fun u _ => hI.holds u
    exact hm.holds (hI.holds t)
  · rw [part_set fun l => l.call.slots ++ l.kept, hkept]
    exact hI.owned.move (hm.slots.append _)
  · by_cases hut : u = t
    · subst hut
      rw [Config.set_loc_self] at hu
      have hown := hI.owned u
      have hslots := hI.slots_of_idle (t := u)
      have hsince := hI.since u
      cases ev with
      | call o =>
        refine ⟨[], ⟨u, .call o, c, c.set u s' l'⟩, h, rfl, rfl, ⟨o, rfl⟩, nofun, ?_,
          fun _ => (hharm hu).1, ?_, ?_⟩
        · intro x hx _
          obtain rfl := List.mem_singleton.mp hx
          exact hharm hu
        · rw [Config.set_loc_self]
          exact hkept
        · have hmem := hown.2
          simp only [hslots hm.called, List.nil_append] at hmem
          exact hmem
      | ret r =>
        rw [hm.returned.2.2] at hu
        cases hu
      | tau =>
        obtain ⟨h₁, r₀, h₂, hS⟩ := hsince (hm.canThrow nofun hu)
        exact ⟨_, r₀, h₂, hS.cons (fun _ => rfl) (fun _ => hharm hu)
          (by rw [Config.set_loc_self]; exact hkept)⟩
    · rw [Config.set_loc_ne c hut] at hu
      obtain ⟨h₁, r₀, h₂, hS⟩ := hI.since u hu
      exact ⟨_, r₀, h₂, hS.cons (fun e => absurd e.symm hut) (fun e => absurd e.symm hut)
        (by rw [Config.set_loc_ne c hut])⟩

/-- A step with a slot of another container. -/
theorem Proceeds.outside (hI : Proceeds hash h c) {z : HazardPtr.Shared ι}
    (hidle : (c.loc t).call.pc = .idle) (hcall : l'.call = (c.loc t).call)
    (ha : a.outside t c.shared.mem.hazard (c.loc t).kept = some (z, l'.kept)) :
    Proceeds hash (⟨t, .tau, c, c.set t (c.shared.setHazard z) l'⟩ :: h)
      (c.set t (c.shared.setHazard z) l') := by
  obtain ⟨linked, hinv⟩ := hI.list
  have hslots := hI.slots_of_idle hidle
  have hlc : (c.loc t).call = ⟨[], .idle⟩ := by rw [← hslots, ← hidle]
  have hmoved : Moved hash linked c.shared (fun t => (c.loc t).call) (fun _ => Set.univ) t
      (c.shared.setHazard z) ⟨[], .idle⟩ :=
    hinv.goto hlc (fun _ _ => subset_rfl) trivial
  have hinv' := hmoved.1
  rw [← hlc, ← hcall, ← part_set Party.call] at hinv'
  refine ⟨⟨_, hinv'⟩, ?_, ?_, fun u hu => ?_⟩
  · refine Config.forall_set (p := fun _ (l : Party K V) => l.call.pc.Holds l.call.slots.length) ?_
      fun u _ => hI.holds u
    rw [hcall]
    exact hI.holds t
  · have hmove := Act.outside_slots ha
    rw [part_set fun l => l.call.slots ++ l.kept, hcall, hslots, List.nil_append]
    refine hI.owned.move ?_
    rw [hslots, List.nil_append]
    exact hmove
  · by_cases hut : u = t
    · subst hut
      rw [Config.set_loc_self, hcall, hidle] at hu
      cases hu
    · rw [Config.set_loc_ne c hut] at hu
      obtain ⟨h₁, r₀, h₂, hS⟩ := hI.since u hu
      exact ⟨_, r₀, h₂, hS.cons (fun e => absurd e.symm hut) (fun e => absurd e.symm hut)
        (by rw [Config.set_loc_ne c hut])⟩

omit [DecidableEq ι] in
theorem Between.proceeds (h₀ : Between hash c₀) : Proceeds hash [] c₀ := by
  obtain ⟨linked, hlist⟩ := h₀.list
  refine ⟨⟨linked, hlist.inv h₀.idle⟩, fun t => ?_, ?_, fun t ht => ?_⟩
  · rw [h₀.idle t]
    rfl
  · simp only [h₀.idle, List.nil_append]
    exact h₀.slots
  · rw [h₀.idle t] at ht
    cases ht

variable [IsTrans K (· < ·)]

/-- Every run of the process. -/
theorem proceeds_run (h₀ : Between hash c₀) (hr : (process hash).Run FreshNodes c₀ h c) :
    Proceeds hash h c := by
  refine Program.Run.induction (I := Proceeds hash) h₀.proceeds ?_ hr
  intro h c t a ev s l _ hI hok hs
  rcases Party.step_cases hs with ⟨k, rfl, hm, hkept⟩ | ⟨rfl, hidle, hcall, z, rfl, ha⟩
  · exact hI.map hm hkept fun n e => hok n (by rw [e])
  · exact hI.outside hidle hcall ha

/-- **A call that finds no slot leaves the map as it was.** Whatever other threads do in the map and
with slots, and from any state of the map: when a call has thrown, none of its steps has changed the
abstract map or `size()`, or added another node than sentinels. So both are as before the call, if
no other thread has changed them. The list keeps its invariant, and the thread has the slots it had
before the call. -/
theorem throw_leaves_map (h₀ : Between hash c₀) {r : ProcessStep ι K V}
    (hr : (process hash).Run FreshNodes c₀ (r :: h) c) (hthrow : r.ev = .ret .noHazardPointers) :
    ∃ h₁ r₀ h₂ o, h = h₁ ++ r₀ :: h₂ ∧ r₀.tid = r.tid ∧ r₀.ev = .call o ∧
      (∀ x ∈ h₁, x.tid = r.tid → x.ev = .tau) ∧
      (∀ x ∈ r :: (h₁ ++ [r₀]), x.tid = r.tid → Harmless x.pre.shared x.cfg.shared) ∧
      ((∀ x ∈ h₁, x.tid ≠ r.tid → SameMap x.pre.shared x.cfg.shared) →
        SameMap r₀.pre.shared c.shared) ∧
      (∃ linked, ListInvariant hash linked c.shared) ∧
      ∀ i, c.shared.mem.hazard.id i = some r.tid ↔ r₀.pre.shared.mem.hazard.id i = some r.tid := by
  cases hr with
  | @cons h c t a ev s l hrun hok hs =>
    obtain rfl : ev = .ret .noHazardPointers := hthrow
    have hI := proceeds_run h₀ hrun
    rcases Party.step_cases hs with ⟨k, rfl, hm, hkept⟩ | ⟨hev, -⟩
    · obtain ⟨hpc, rfl, hl⟩ := hm.returned
      obtain ⟨h₁, r₀, h₂, hS⟩ := hI.since t (by rw [hpc]; rfl)
      obtain ⟨o, ho⟩ := hS.call
      obtain ⟨linked, hlist⟩ := hI.list
      have hslots : (c.loc t).call.slots = [] := by
        have hh := hI.holds t
        rw [hpc] at hh
        exact List.length_eq_zero_iff.mp hh
      refine ⟨h₁, r₀, h₂, o, hS.split, hS.tid, ho, hS.tau, ?_, hS.calm, ⟨linked, hlist.list⟩,
        fun i => ?_⟩
      · intro x hx hxt
        rcases List.mem_cons.mp hx with rfl | hx
        · exact .refl _
        · exact hS.harmless x hx hxt
      · have hmem := (hI.owned t).2 i
        simp only [hslots, List.nil_append] at hmem
        rw [Config.set_shared, hmem, hS.owned i, hS.kept]
    · cases hev
end

/-- A new map in a process in which other containers of the first thread hold all slots but one. -/
def crowded : Config Bool (Shared Bool ℕ ℕ) (Party ℕ ℕ) where
  shared := (initial (ι := Bool) 4 0).shared.setHazard
    { HazardPtr.initial Bool with id := fun i => if i ∈ List.range' 1 99 then some true else none }
  loc := fun t => ⟨⟨[], .idle⟩, if t then List.range' 1 99 else []⟩

theorem between_crowded : Between (fun _ : ℕ => 0) crowded := by
  have hinv : Inv (fun _ : ℕ => (0 : Word)) (Inserted [])
      (initial (ι := Bool) (V := ℕ) 4 0).shared _ _ :=
    inv_initial
  obtain ⟨hchain, hhead, hused, hproper, hsent, hmarked, -⟩ := hinv
  refine ⟨⟨_, hchain, hhead, hused, hproper, hsent, hmarked⟩, fun _ => rfl, fun t => ?_⟩
  cases t with
  | true => exact ⟨List.nodup_range', fun i => by simp [crowded, Shared.setHazard]⟩
  | false => exact ⟨List.nodup_nil, fun i => by simp [crowded, Shared.setHazard]⟩

/-- No step of the map allocates. -/
def noAlloc (_ : Config ι (Shared ι K V) (Party K V)) (_ : ι) (a : Act K V)
    (_ : Config ι (Shared ι K V) (Party K V)) : Bool :=
  match a with
  | .map (.alloc _) => false
  | _ => true

/-- The second thread finds one slot for its `get`, and throws when there is no second one. -/
theorem throw_leaves_map_crowded : ∃ h c, (process fun _ : ℕ => 0).Run FreshNodes crowded h c ∧
    (∃ r ∈ h, r.tid = false ∧ r.ev = .ret .noHazardPointers) ∧
    ∃ r ∈ h, r.ev = .call (.get 5) ∧ SameMap r.pre.shared c.shared ∧
      ∀ i, c.shared.mem.hazard.id i = some false ↔ r.pre.shared.mem.hazard.id i = some false := by
  have hreplay : ((process fun _ : ℕ => 0).replay noAlloc crowded
      ((false, .map (.call (.get 5))) :: List.replicate 106 (false, .map .run))).any
        (fun x => x.1.all (fun r => !r.tid &&
            [.call (.get 5), .tau, .ret .noHazardPointers].contains r.ev) &&
          x.1.head?.any fun r => r.ev == .ret .noHazardPointers) = true := by
    set_option maxRecDepth 10000 in decide
  obtain ⟨⟨h, c⟩, hc, hq⟩ := (Option.any_eq_true _ _).mp hreplay
  have hr := (Program.replay_run FreshNodes (by
    rintro h c t a c' - hcheck n rfl
    cases hcheck) _ .nil hc).1
  rw [List.append_nil] at hr
  obtain ⟨hall, hhead⟩ := Bool.and_eq_true_iff.mp hq
  have hown : ∀ x ∈ h, x.tid = false ∧ x.ev ∈ [.call (.get 5), .tau, .ret .noHazardPointers] := by
    simpa using hall
  cases h with
  | nil => cases hhead
  | cons r h =>
    have hret : r.ev = .ret .noHazardPointers := by simpa using hhead
    obtain ⟨h₁, r₀, h₂, o, rfl, -, hcall, -, -, hcalm, -, hslots⟩ :=
      throw_leaves_map between_crowded hr hret
    have hr₀ := hown r₀ (by simp)
    have htid := (hown r (by simp)).1
    refine ⟨_, c, hr, ⟨r, by simp, htid, hret⟩, r₀, by simp, ?_, hcalm fun x hx hne => ?_,
      fun i => ?_⟩
    · have hev := hr₀.2
      rw [hcall] at hev ⊢
      simpa using hev
    · exact absurd ((hown x (by simp [hx])).1.trans htid.symm) hne
    · rw [← htid]
      exact hslots i

end Bonostl.LockfreeHashMap
