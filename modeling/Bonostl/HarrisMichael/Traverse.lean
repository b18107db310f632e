import Bonostl.Chain.Marked
import Bonostl.HarrisMichael.Find

/-!
# What a search knows

In a list whose memory is never reused, a traversal may stand on nodes that have been marked and
unlinked under it. What it learned from a link of a node that was unmarked at that time stays true
of that instant: `Edge` says that at some instant of the search no live node was between two
given ones, `Seen` that a node was live at some instant. `Place.Knows` collects these facts for
every place of the search, and all of them survive the steps of other threads
(`Place.Knows.mono`), because links of marked nodes do not change.

`Find.Move.knows`: a step of the search keeps the ordered chain, leaves the set of live nodes
alone, and leads from known facts to known facts.
-/

namespace Bonostl.HarrisMichael

open HazardPtr Chain

variable {ι δ : Type}

/-- What the live nodes, on the chain and not marked, carry. -/
def live (head : ℕ) (m : Memory ι δ) : Set δ :=
  {d | ∃ a ∈ nodes m.next (some head), m.marked a = false ∧ m.data a = d}

/-- Nothing in `A` lies strictly between `p` and `q`, where no `q` is the end of the list. -/
def Gap (lt : δ → δ → Prop) (A : Set δ) (p : δ) (q : Option δ) : Prop :=
  ∀ d ∈ A, d = p ∨ lt d p ∨ ∃ b, q = some b ∧ (d = b ∨ lt b d)

section
variable (lt : δ → δ → Prop) (head : ℕ) (linked : ℕ → Prop) (m : Memory ι δ)
  (D : Set (Memory ι δ)) (q : Query δ) (B : δ → Prop)

/-- At some instant there was nothing between `p` and `q`. -/
def Edge (p : δ) (q : Option δ) : Prop := ∃ m ∈ D, Gap lt (live head m) p q

/-- At some instant node `a` was live. -/
def Seen (a : ℕ) (d : δ) : Prop :=
  ∃ m ∈ D, a ∈ nodes m.next (some head) ∧ m.marked a = false ∧ m.data a = d

/-- `pred` was linked in, before the place that is searched for. -/
def Stands (pred : ℕ) : Prop := linked pred ∧ B (m.data pred)

/-- What a search knows at each place. `D` are the instants of its operation, `B` holds of the data
that may stand before what is searched for. -/
def Place.Knows : Place → Prop
  | .start => True
  | .load pred => pred = q.start
  | .protect pred curr | .validate pred curr | .loadNext pred curr =>
    Stands linked m B pred ∧ linked curr ∧ Edge lt head D (m.data pred) (some (m.data curr))
  | .unlink pred curr next =>
    Stands linked m B pred ∧ linked curr ∧ m.marked curr = true ∧ m.next curr = next
  | .reclaim pred next _ =>
    Stands linked m B pred ∧ (∀ b, next = some b → linked b) ∧
      Edge lt head D (m.data pred) (next.map m.data)
  | .compare pred curr next =>
    Stands linked m B pred ∧ linked curr ∧ Edge lt head D (m.data pred) (some (m.data curr)) ∧
      (∀ b, next = some b → linked b) ∧ Edge lt head D (m.data curr) (next.map m.data) ∧
      Seen head D curr (m.data curr)
  | .result found pred curr =>
    Stands linked m B pred ∧ Edge lt head D (m.data pred) (curr.map m.data) ∧
      (curr = none → found = false) ∧
      ∀ c, curr = some c → linked c ∧ q.advance (m.data c) = false ∧
        found = q.equal (m.data c) ∧ Seen head D c (m.data c)
end

/-- What no step undoes for the nodes that were linked in: their data, and the links of the marked
ones. -/
structure Grows (linked : ℕ → Prop) (m m' : Memory ι δ) : Prop where
  data : ∀ a, linked a → m'.data a = m.data a
  frozen : ∀ a, linked a → m.marked a = true → m'.marked a = true ∧ m'.next a = m.next a

/-- What a step of a search leaves alone. -/
structure Kept (linked : ℕ → Prop) (m m' : Memory ι δ) : Prop where
  data : ∀ a, m'.data a = m.data a
  marked : ∀ a, m'.marked a = m.marked a
  used : ∀ a, m'.used a = m.used a
  next : ∀ a, ¬ linked a → m'.next a = m.next a
  frozen : ∀ a, linked a → m.marked a = true → m'.next a = m.next a

variable {lt : δ → δ → Prop} {head : ℕ} {linked linked' : ℕ → Prop} {l : List ℕ}
  {m m' : Memory ι δ} {D D' : Set (Memory ι δ)} {q : Query δ} {B : δ → Prop}

theorem Kept.grows (h : Kept linked m m') : Grows linked m m' :=
  ⟨fun a _ => h.data a, fun a ha hm => ⟨(h.marked a).trans hm, h.frozen a ha hm⟩⟩

theorem Kept.of_eq (hd : m'.data = m.data) (hm : m'.marked = m.marked) (hn : m'.next = m.next)
    (hu : m'.used = m.used) : Kept linked m m' := by
  refine ⟨?_, ?_, ?_, ?_, ?_⟩ <;> simp [*]

theorem Edge.mono {p : δ} {o : Option δ} (h : Edge lt head D p o) (hD : D ⊆ D') :
    Edge lt head D' p o := by
  obtain ⟨m, hm, hg⟩ := h
  exact ⟨m, hD hm, hg⟩

theorem Seen.mono {a : ℕ} {d : δ} (h : Seen head D a d) (hD : D ⊆ D') : Seen head D' a d := by
  obtain ⟨m, hm, hg⟩ := h
  exact ⟨m, hD hm, hg⟩

theorem map_data_eq (hg : Grows linked m m') {o : Option ℕ} (ho : ∀ b, o = some b → linked b) :
    o.map m'.data = o.map m.data := by
  cases o with
  | none => rfl
  | some b => simp [hg.data b (ho b rfl)]

theorem Stands.mono {pred : ℕ} (h : Stands linked m B pred) (hg : Grows linked m m')
    (hl : ∀ a, linked a → linked' a) : Stands linked' m' B pred :=
  ⟨hl pred h.1, by rw [hg.data pred h.1]; exact h.2⟩

/-- **What is known stays known.** -/
theorem Place.Knows.mono {p : Place} (h : p.Knows lt head linked m D q B) (hg : Grows linked m m')
    (hl : ∀ a, linked a → linked' a) (hD : D ⊆ D') : p.Knows lt head linked' m' D' q B := by
  cases p with
  | start => trivial
  | load pred => exact h
  | protect pred curr | validate pred curr | loadNext pred curr =>
    obtain ⟨h1, h2, h3⟩ := h
    refine ⟨h1.mono hg hl, hl _ h2, ?_⟩
    rw [hg.data _ h1.1, hg.data _ h2]
    exact h3.mono hD
  | unlink pred curr next =>
    obtain ⟨h1, h2, h3, h4⟩ := h
    obtain ⟨h5, h6⟩ := hg.frozen curr h2 h3
    exact ⟨h1.mono hg hl, hl _ h2, h5, h6.trans h4⟩
  | reclaim pred next r =>
    obtain ⟨h1, h2, h3⟩ := h
    refine ⟨h1.mono hg hl, fun b hb => hl b (h2 b hb), ?_⟩
    rw [hg.data _ h1.1, map_data_eq hg h2]
    exact h3.mono hD
  | compare pred curr next =>
    obtain ⟨h1, h2, h3, h4, h5, h6⟩ := h
    refine ⟨h1.mono hg hl, hl _ h2, ?_, fun b hb => hl b (h4 b hb), ?_, ?_⟩
    · rw [hg.data _ h1.1, hg.data _ h2]; exact h3.mono hD
    · rw [hg.data _ h2, map_data_eq hg h4]; exact h5.mono hD
    · rw [hg.data _ h2]; exact h6.mono hD
  | result found pred curr =>
    obtain ⟨h1, h2, h3, h4⟩ := h
    refine ⟨h1.mono hg hl, ?_, h3, fun c hc => ?_⟩
    · rw [hg.data _ h1.1, map_data_eq hg fun b hb => (h4 b hb).1]; exact h2.mono hD
    · obtain ⟨h5, h6, h7, h8⟩ := h4 c hc
      rw [hg.data c h5]
      exact ⟨hl c h5, h6, h7, h8.mono hD⟩

section
variable (h : MarkedChain lt head linked l m.next m.marked m.data)
include h

theorem mem_live {d : δ} : d ∈ live head m ↔ ∃ a ∈ l, m.marked a = false ∧ m.data a = d := by
  rw [live, nodes_eq h.chain]; rfl

/-- What a thread learns from the link of an unmarked node. -/
theorem gap_now [IsTrans δ lt] {a : ℕ} (ha : linked a) (hm : m.marked a = false) :
    Gap lt (live head m) (m.data a) ((m.next a).map m.data) := by
  intro d hd
  obtain ⟨x, hx, -, rfl⟩ := (mem_live h).mp hd
  rcases h.gap ha hm hx with rfl | hlt | ⟨b, hb, hxb⟩
  · exact .inl rfl
  · exact .inr (.inl hlt)
  · refine .inr (.inr ⟨m.data b, by rw [hb]; rfl, ?_⟩)
    rcases hxb with rfl | hlt
    · exact .inl rfl
    · exact .inr hlt

theorem seen_now {a : ℕ} (ha : linked a) (hm : m.marked a = false) (hD : m ∈ D) :
    Seen head D a (m.data a) :=
  ⟨m, hD, by rw [nodes_eq h.chain]; exact h.unmarked a ha hm, hm, rfl⟩
end

/-- At the top of the loop. -/
theorem knows_loop {pred : ℕ} {p : Option ℕ} (hs : Stands linked m B pred)
    (hp : ∀ b, p = some b → linked b) (he : Edge lt head D (m.data pred) (p.map m.data)) :
    (loop pred p).Knows lt head linked m D q B := by
  cases p with
  | none => exact ⟨hs, he, fun _ => rfl, nofun⟩
  | some b => exact ⟨hs, hp b rfl, he⟩

/-- Unlinking a marked node leaves an ordered chain with the same live nodes. -/
theorem unlink_live [IsTrans δ lt] (h : MarkedChain lt head linked l m.next m.marked m.data)
    {pred curr : ℕ} (hp : linked pred) (hn : m.next pred = some curr)
    (hpm : m.marked pred = false) (hcm : m.marked curr = true) :
    ∃ l', MarkedChain lt head linked l' (Function.update m.next pred (m.next curr)) m.marked
        m.data ∧
      live head { m with next := Function.update m.next pred (m.next curr) } = live head m := by
  obtain ⟨l', h', hmem⟩ := h.unlink hp hpm hn hcm
  refine ⟨l', h', ?_⟩
  ext d
  rw [mem_live h, mem_live (m := { m with next := Function.update m.next pred (m.next curr) }) h']
  constructor
  · rintro ⟨a, ha, hd⟩
    exact ⟨a, ((hmem a).mp ha).2, hd⟩
  · rintro ⟨a, ha, hm, hd⟩
    refine ⟨a, (hmem a).mpr ⟨?_, ha⟩, hm, hd⟩
    rintro rfl
    rw [hcm] at hm
    cases hm

theorem kept_unlink {pred : ℕ} {p : Option ℕ} (hp : linked pred) (hm : m.marked pred = false) :
    Kept linked m { m with next := Function.update m.next pred p } := by
  refine ⟨fun _ => rfl, fun _ => rfl, fun _ => rfl, fun a ha => ?_, fun a _ ham => ?_⟩
  · exact Function.update_of_ne (by rintro rfl; exact ha hp) _ _
  · exact Function.update_of_ne (by rintro rfl; rw [hm] at ham; cases ham) _ _

theorem live_congr (hn : m'.next = m.next) (hm : m'.marked = m.marked) (hd : m'.data = m.data) :
    live head m' = live head m := by rw [live, live, hn, hm, hd]

/-- Writes to nodes that were never linked in do not show. -/
theorem live_frame (h : MarkedChain lt head linked l m.next m.marked m.data) (hh : linked head)
    (hn : ∀ a, linked a → m'.next a = m.next a) (hm : ∀ a, linked a → m'.marked a = m.marked a)
    (hd : ∀ a, linked a → m'.data a = m.data a) : live head m' = live head m := by
  ext d
  rw [mem_live h, mem_live (h.frame hh hn hm hd)]
  constructor
  · rintro ⟨a, ha, ham, had⟩
    have hl := h.mem a ha
    exact ⟨a, ha, (hm a hl).symm.trans ham, (hd a hl).symm.trans had⟩
  · rintro ⟨a, ha, ham, had⟩
    have hl := h.mem a ha
    exact ⟨a, ha, (hm a hl).trans ham, (hd a hl).trans had⟩

/-- `delete` and the hazard registry are outside the chain. -/
theorem free_eq (m : Memory ι δ) (o : Option ℕ) :
    (m.free o).next = m.next ∧ (m.free o).marked = m.marked ∧ (m.free o).data = m.data ∧
      (m.free o).used = m.used := by
  cases o <;> exact ⟨rfl, rfl, rfl, rfl⟩

/-- **One step of a search**: the chain stays ordered, the live nodes stay what they are, and what
is known at the new place follows from what was known at the old one. -/
theorem Find.Move.knows [IsTrans δ lt] {f f' : Find} (hmv : Find.Move q m f m' f')
    (h : MarkedChain lt head linked l m.next m.marked m.data)
    (hk : f.place.Knows lt head linked m D q B)
    (hs : linked q.start) (hsm : m.marked q.start = false) (hsB : B (m.data q.start))
    (hB : ∀ a, linked a → q.advance (m.data a) = true → B (m.data a)) (hD : D ⊆ D')
    (hm' : m' ∈ D') :
    (∃ l', MarkedChain lt head linked l' m'.next m'.marked m'.data) ∧
      live head m' = live head m ∧ Kept linked m m' ∧
      f'.place.Knows lt head linked m' D' q B := by
  have hself : Grows linked m m := ⟨fun _ _ => rfl, fun _ _ h => ⟨h, rfl⟩⟩
  have hkept : Kept linked m m := .of_eq rfl rfl rfl rfl
  have hnext : ∀ a, linked a → ∀ b, m.next a = some b → linked b := fun a ha b hb =>
    (h.link a b ha hb).1
  cases hmv with
  | start => exact ⟨⟨l, h⟩, rfl, .of_eq rfl rfl rfl rfl, rfl⟩
  | load p c pred =>
    obtain rfl := hk
    exact ⟨⟨l, h⟩, rfl, hkept, knows_loop ⟨hs, hsB⟩ (hnext _ hs) ⟨m, hm', gap_now h hs hsm⟩⟩
  | protect p c pred curr =>
    have hstore : Kept linked m { m with hazard := store m.hazard c (some curr) } :=
      .of_eq rfl rfl rfl rfl
    exact ⟨⟨l, h⟩, rfl, hstore, hk.mono hstore.grows (fun _ ha => ha) hD⟩
  | valid p c pred curr hv => exact ⟨⟨l, h⟩, rfl, hkept, hk.mono hself (fun _ ha => ha) hD⟩
  | invalid => exact ⟨⟨l, h⟩, rfl, hkept, trivial⟩
  | loadMarked p c pred curr hm =>
    exact ⟨⟨l, h⟩, rfl, hkept, hk.1, hk.2.1, hm, rfl⟩
  | loadUnmarked p c pred curr hm =>
    obtain ⟨h1, h2, h3⟩ := hk
    exact ⟨⟨l, h⟩, rfl, hkept, h1, h2, h3.mono hD, hnext _ h2, ⟨m, hm', gap_now h h2 hm⟩,
      seen_now h h2 hm hm'⟩
  | unlink p c pred curr next hn hm hr =>
    obtain ⟨h1, h2, h3, rfl⟩ := hk
    obtain ⟨l', h', hlive⟩ := unlink_live h h1.1 hn hm h3
    have hg := gap_now (m := { m with next := Function.update m.next pred (m.next curr) }) h'
      h1.1 hm
    dsimp only at hg
    rw [Function.update_self] at hg
    exact ⟨⟨l', h'⟩, hlive, kept_unlink h1.1 hm, h1, hnext _ h2, ⟨_, hm', hg⟩⟩
  | unlinkOnly p c pred curr next hn hm hr =>
    obtain ⟨h1, h2, h3, rfl⟩ := hk
    obtain ⟨l', h', hlive⟩ := unlink_live h h1.1 hn hm h3
    have hg := gap_now (m := { m with next := Function.update m.next pred (m.next curr) }) h'
      h1.1 hm
    dsimp only at hg
    rw [Function.update_self] at hg
    exact ⟨⟨l', h'⟩, hlive, kept_unlink h1.1 hm, knows_loop h1 (hnext _ h2) ⟨_, hm', hg⟩⟩
  | unlinkFail => exact ⟨⟨l, h⟩, rfl, hkept, trivial⟩
  | reclaim p c pred next r sp hz r' freed hs =>
    obtain ⟨e1, e2, e3, e4⟩ := free_eq { m with hazard := hz } freed
    have hfree : Kept linked m (Memory.free { m with hazard := hz } freed) := .of_eq e3 e2 e1 e4
    refine ⟨⟨l, by rw [e1, e2, e3]; exact h⟩, live_congr e1 e2 e3, hfree, ?_⟩
    exact Place.Knows.mono (p := .reclaim pred next r') hk hfree.grows (fun _ ha => ha) hD
  | reclaimed p c pred next =>
    obtain ⟨h1, h2, h3⟩ := hk
    exact ⟨⟨l, h⟩, rfl, hkept, knows_loop h1 h2 (h3.mono hD)⟩
  | advance p c pred curr next ha =>
    obtain ⟨h1, h2, h3, h4, h5, h6⟩ := hk
    exact ⟨⟨l, h⟩, rfl, hkept, knows_loop ⟨h2, hB _ h2 ha⟩ h4 (h5.mono hD)⟩
  | stop p c pred curr next ha =>
    obtain ⟨h1, h2, h3, h4, h5, h6⟩ := hk
    refine ⟨⟨l, h⟩, rfl, hkept, h1, h3.mono hD, nofun, ?_⟩
    rintro c ⟨⟩
    exact ⟨h2, ha, rfl, h6.mono hD⟩

end Bonostl.HarrisMichael
