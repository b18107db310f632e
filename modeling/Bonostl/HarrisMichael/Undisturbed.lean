import Bonostl.HarrisMichael.Traverse

/-!
# A search that nobody disturbs

While no other thread runs, a search in a list without marked nodes never retries and changes
nothing but its hazard pointers. `Place.Tracks` is what it knows: the link it has read is still
there. `Find.Move.tracks` is its step, `Find.progress` says that it goes on, and how long.
-/

namespace Bonostl.HarrisMichael

open HazardPtr Chain

variable {ι δ : Type}

/-- What a search knows at each place: `l` are the nodes of the list, `B` holds of the data that may
stand before what is searched for. -/
def Place.Tracks (m : Memory ι δ) (l : List ℕ) (q : Query δ) (B : δ → Prop) : Place → Prop
  | .start => True
  | .load pred => pred = q.start
  | .protect pred curr | .validate pred curr | .loadNext pred curr =>
    Stands (· ∈ l) m B pred ∧ m.next pred = some curr
  | .unlink _ _ _ | .reclaim _ _ _ => False
  | .compare pred curr next =>
    Stands (· ∈ l) m B pred ∧ m.next pred = some curr ∧ m.next curr = next
  | .result found pred curr =>
    Stands (· ∈ l) m B pred ∧ m.next pred = curr ∧ (curr = none → found = false) ∧
      ∀ c, curr = some c → q.advance (m.data c) = false ∧ found = q.equal (m.data c)

/-- Only pointers of slots differ. -/
def SlotsOnly (m m' : Memory ι δ) : Prop :=
  ∃ p, m' = { m with hazard := { m.hazard with pointer := p } }

theorem SlotsOnly.refl (m : Memory ι δ) : SlotsOnly m m := ⟨m.hazard.pointer, rfl⟩

theorem SlotsOnly.store (m : Memory ι δ) (i : ℕ) (p : Option ℕ) :
    SlotsOnly m { m with hazard := HazardPtr.store m.hazard i p } :=
  ⟨Function.update m.hazard.pointer i p, rfl⟩

variable {m m' : Memory ι δ} {l : List ℕ} {q : Query δ} {B : δ → Prop} {f f' : Find}

theorem Place.Tracks.congr {p : Place} (h : p.Tracks m l q B) (hn : m'.next = m.next)
    (hd : m'.data = m.data) : p.Tracks m' l q B := by
  cases p <;> simp only [Place.Tracks, Stands, hn, hd] at h ⊢ <;> exact h

/-- At the top of the loop. -/
theorem tracks_loop {pred : ℕ} {p : Option ℕ} (hs : Stands (· ∈ l) m B pred)
    (hp : m.next pred = p) : (loop pred p).Tracks m l q B := by
  cases p with
  | none => exact ⟨hs, hp, fun _ => rfl, nofun⟩
  | some c => exact ⟨hs, hp⟩

/-- The nodes of a list that no other thread changes. -/
structure Still (m : Memory ι δ) (l : List ℕ) : Prop where
  closed : ∀ a ∈ l, ∀ b, m.next a = some b → b ∈ l
  unmarked : ∀ a ∈ l, m.marked a = false

/-- **One step of an undisturbed search.** -/
theorem Find.Move.tracks (hmv : Find.Move q m f m' f') (h : Still m l)
    (hk : f.place.Tracks m l q B) (hs : Stands (· ∈ l) m B q.start)
    (hB : ∀ a ∈ l, q.advance (m.data a) = true → B (m.data a)) :
    SlotsOnly m m' ∧ f'.place.Tracks m' l q B := by
  cases hmv with
  | start p c => exact ⟨.store m p _, rfl⟩
  | load p c pred =>
    obtain rfl := hk
    exact ⟨.refl m, tracks_loop hs rfl⟩
  | protect p c pred curr => exact ⟨.store m c _, Place.Tracks.congr hk rfl rfl⟩
  | valid p c pred curr hv => exact ⟨.refl m, hk⟩
  | invalid p c pred curr => exact ⟨.refl m, trivial⟩
  | loadMarked p c pred curr hm =>
    have hu := h.unmarked curr (h.closed pred hk.1.1 curr hk.2)
    exact absurd hm (by simp [hu])
  | loadUnmarked p c pred curr hm => exact ⟨.refl m, hk.1, hk.2, rfl⟩
  | unlink => exact hk.elim
  | unlinkOnly => exact hk.elim
  | unlinkFail => exact hk.elim
  | reclaim => exact hk.elim
  | reclaimed => exact hk.elim
  | advance p c pred curr next ha =>
    have hc := h.closed pred hk.1.1 curr hk.2.1
    exact ⟨.refl m, tracks_loop ⟨hc, hB curr hc ha⟩ hk.2.2⟩
  | stop p c pred curr next ha =>
    refine ⟨.refl m, hk.1, hk.2.1, nofun, ?_⟩
    rintro c ⟨⟩
    exact ⟨ha, rfl⟩

/-! ## How long a search takes -/

/-- The number of nodes from `a` on. -/
noncomputable def rest (next : ℕ → Option ℕ) (a : ℕ) : ℕ := (nodes next (some a)).length

theorem rest_next {next : ℕ → Option ℕ} {p : Option ℕ} (h : Linked next p l) {a : ℕ} (ha : a ∈ l) :
    0 < rest next a ∧ ∀ b, next a = some b → rest next a = rest next b + 1 := by
  obtain ⟨l₁, l₂, -, hsuf⟩ := h.split ha
  have hn : nodes next (some a) = a :: l₂ := nodes_eq ⟨rfl, hsuf⟩
  have hra : rest next a = l₂.length + 1 := by rw [rest, hn, List.length_cons]
  refine ⟨by omega, fun b hb => ?_⟩
  rw [hb] at hsuf
  have hrb : rest next b = l₂.length := by rw [rest, nodes_eq hsuf]
  omega

/-- More than the number of steps a search still takes. -/
noncomputable def Place.cost (m : Memory ι δ) (q : Query δ) : Place → ℕ
  | .start => 6 * rest m.next q.start + 5
  | .load pred => 6 * rest m.next pred + 4
  | .protect pred _ => 6 * rest m.next pred + 3
  | .validate pred _ => 6 * rest m.next pred + 2
  | .loadNext pred _ => 6 * rest m.next pred + 1
  | .compare pred _ _ => 6 * rest m.next pred
  | .unlink _ _ _ | .reclaim _ _ _ | .result _ _ _ => 0

theorem cost_loop_le (m : Memory ι δ) (q : Query δ) (pred : ℕ) (p : Option ℕ) :
    (loop pred p).cost m q ≤ 6 * rest m.next pred + 3 := by
  cases p with
  | none => exact Nat.zero_le _
  | some c => exact Nat.le_refl _

/-- **An undisturbed search goes on** until it has a result. -/
theorem Find.progress {p : Option ℕ} (hc : Linked m.next p l) (hu : ∀ a ∈ l, m.marked a = false)
    (hk : f.place.Tracks m l q B) :
    (∃ found pred curr, f.place = .result found pred curr) ∨
      ∃ m' f', f.step q false m = some (m', f') ∧ f'.place.cost m' q < f.place.cost m q := by
  obtain ⟨hp, hcr, place⟩ := f
  cases place with
  | result found pred curr => exact .inl ⟨found, pred, curr, rfl⟩
  | start => exact .inr ⟨_, _, rfl, Nat.lt_succ_self _⟩
  | load pred =>
    have := cost_loop_le m q pred (m.next pred)
    exact .inr ⟨_, _, rfl, by dsimp only [Place.cost] at this ⊢; omega⟩
  | protect pred curr => exact .inr ⟨_, _, rfl, Nat.lt_succ_self _⟩
  | validate pred curr =>
    refine .inr ⟨m, ⟨hp, hcr, .loadNext pred curr⟩, ?_, Nat.lt_succ_self _⟩
    simp [Find.step, show m.next pred = some curr from hk.2]
  | loadNext pred curr =>
    refine .inr ⟨m, ⟨hp, hcr, .compare pred curr (m.next curr)⟩, ?_, Nat.lt_succ_self _⟩
    obtain ⟨l₁, l₂, rfl, hsuf⟩ := hc.split hk.1.1
    have hcl : curr ∈ l₂ := by
      rw [hk.2] at hsuf
      exact List.mem_of_head? hsuf.head_eq.symm
    simp [Find.step, hu curr (by simp [hcl])]
  | unlink => exact hk.elim
  | reclaim => exact hk.elim
  | compare pred curr next =>
    right
    obtain ⟨hpos, hnext⟩ := rest_next hc hk.1.1
    by_cases ha : q.advance (m.data curr) = true
    · have hlt := hnext curr hk.2.1
      have := cost_loop_le m q curr next
      refine ⟨m, ⟨hcr, hp, loop curr next⟩, by simp [Find.step, ha], ?_⟩
      dsimp only [Place.cost] at this ⊢
      omega
    · refine ⟨m, ⟨hp, hcr, .result (q.equal (m.data curr)) pred (some curr)⟩,
        by simp [Find.step, ha], ?_⟩
      dsimp only [Place.cost]
      omega

/-- No step of the search is in vain. -/
theorem Find.step_cost {p : Option ℕ} {sp : Bool} (hc : Linked m.next p l)
    (hu : ∀ a ∈ l, m.marked a = false) (hk : f.place.Tracks m l q B)
    (hs : f.step q sp m = some (m', f')) : f'.place.cost m' q < f.place.cost m q := by
  have hsame : f.step q sp m = f.step q false m := by
    obtain ⟨hp, hcr, place⟩ := f
    cases place with
    | reclaim => exact hk.elim
    | _ => rfl
  rw [hsame] at hs
  rcases Find.progress hc hu hk with ⟨found, pred, curr, hres⟩ | ⟨m₁, f₁, hs₁, hlt⟩
  · rw [Find.step, hres] at hs
    cases hs
  · obtain ⟨rfl, rfl⟩ := Prod.mk.inj (Option.some.inj (hs₁.symm.trans hs))
    exact hlt

/-! ## Nodes that have not been deleted -/

/-- `xs` are different nodes, none of which has been deleted. -/
def Intact (m : Memory ι δ) (xs : List ℕ) : Prop := xs.Nodup ∧ ∀ a ∈ xs, m.alive a = true

variable {xs ys : List ℕ} {a : ℕ}

theorem Intact.of_perm (h : Intact m xs) (hp : ys.Perm xs) : Intact m ys :=
  ⟨hp.symm.nodup h.1, fun a ha => h.2 a (hp.subset ha)⟩

theorem Intact.sublist (h : Intact m xs) (hs : ys.Sublist xs) : Intact m ys :=
  ⟨h.1.sublist hs, fun a ha => h.2 a (hs.subset ha)⟩

theorem Intact.alloc (h : Intact m xs) (ha : m.alive a = false) (d : δ) :
    Intact (m.alloc a d) (a :: xs) := by
  have hn : a ∉ xs := fun hx => absurd (h.2 a hx) (by simp [ha])
  refine ⟨List.nodup_cons.mpr ⟨hn, h.1⟩, fun b hb => ?_⟩
  rw [Memory.alloc_alive]
  split
  · rfl
  · exact h.2 b ((List.mem_cons.mp hb).resolve_left ‹_›)

theorem Intact.free (freed : Option ℕ) (h : Intact m (freed.toList ++ xs)) :
    Intact (m.free freed) xs := by
  cases freed with
  | none => exact h
  | some b =>
    obtain ⟨hb, hx⟩ := List.nodup_cons.mp h.1
    refine ⟨hx, fun a ha => ?_⟩
    have hab : a ≠ b := by rintro rfl; exact hb ha
    exact (Function.update_of_ne hab _ _).trans (h.2 a (List.mem_cons_of_mem b ha))

end Bonostl.HarrisMichael
