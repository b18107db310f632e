import Bonostl.Interleaving.Places
import Bonostl.LockfreeList.Hazard
import Bonostl.LockfreeList.Linear

/-!
# Unlinked nodes, and what is left behind

The chain changes in two ways only (`Change`): a new node comes in, or a marked node goes out. This
needs no more than `Chained`, which both invariants of the list give: the one for runs in which
memory is never reused (`Inv`) and the one for runs in which no deleted node is accessed
(`Hazards`).

A node that was linked in is on the chain, or with the one thread whose compare-exchange has
unlinked it and that is about to call `reclaim_later`, or was handed to `reclaim_later` once
(`unlinked_once`). So the destructor, which deletes the nodes of the chain, and the reclamation
share no node and miss none.

`erase` unlinks its victim if nothing has come in between, and leaves it to later searches if
something has. What is left when every operation has returned may be a chain of marked nodes only:
`for_each` visits none of them, but `empty` looks at the first link alone (`empty_exact`,
`empty_with_marked_left`).
-/

namespace Bonostl.LockfreeList

open Interleaving HazardPtr HarrisMichael Chain

variable {ι T : Type}

/-- The nodes from `head_` on. -/
noncomputable def chainOf (s : Shared ι T) : List ℕ := nodes s.next (some head)

/-- The node a thread has unlinked and is about to hand to `reclaim_later`. -/
def Pc.retiring (pc : Pc T) : Option ℕ :=
  match pc.inReclaim with
  | .make a => some a
  | _ => none

/-- The compare-exchange of an unlink a thread is about to make: `pred`, `curr` and `curr`'s
link. -/
def Pc.unlinking : Pc T → Option (ℕ × ℕ × Option ℕ)
  | .find _ ⟨_, _, .unlink pred curr next⟩ | .unlink pred curr next => some (pred, curr, next)
  | _ => none

/-- What the steps that write to links rely on. -/
structure Chained (s : Shared ι T) (f : ι → Local T) : Prop where
  chain : ∃ l, Linked s.next (some head) l
  new : ∀ t n v, (f t).pc.newNode = some (n, v) → n ∉ chainOf s ∧ s.marked n = false
  link : ∀ t n v pred curr, (f t).pc = .link n v pred curr →
    s.next n = curr ∧ (s.marked pred = false → pred ∈ chainOf s)
  unlink : ∀ t pred curr next, (f t).pc.unlinking = some (pred, curr, next) →
    s.marked curr = true ∧ s.next curr = next ∧ (s.marked pred = false → pred ∈ chainOf s)

/-- What a step from `pc` to `pc'` does to the chain, and to what is about to be retired. -/
inductive Change (s s' : Shared ι T) (pc pc' : Pc T) : Prop
  | none (hmem : ∀ a, a ∈ chainOf s' ↔ a ∈ chainOf s) (hr : pc'.retiring = none)
      (hl : pc.links pc' = none)
  | link (n : ℕ) (hn : s.marked n = false) (hl : pc.links pc' = some n)
      (hmem : ∀ a, a ∈ chainOf s' ↔ a = n ∨ a ∈ chainOf s) (hr : pc.retiring = none)
      (hr' : pc'.retiring = none)
  | unlink (a : ℕ) (ha : a ∈ chainOf s) (hm : s.marked a = true)
      (hmem : ∀ b, b ∈ chainOf s' ↔ b ≠ a ∧ b ∈ chainOf s) (hr : pc.retiring = none)
      (hr' : pc'.retiring = some a) (hl : pc.links pc' = none)

section
variable {s s' : Shared ι T} {f : ι → Local T} {t : ι} {l' : Local T}

theorem chainOf_congr (h : s'.next = s.next) : ∀ a, a ∈ chainOf s' ↔ a ∈ chainOf s := by
  unfold chainOf
  rw [h]
  exact fun _ => Iff.rfl

theorem Chained.head_mem (h : Chained s f) : head ∈ chainOf s := by
  obtain ⟨l, hc⟩ := h.chain
  rw [chainOf, nodes_eq hc]
  cases l with
  | nil => cases hc
  | cons b l => rw [Option.some.inj hc.1]; simp

/-- A step that writes to a node that is not on the chain. -/
theorem Chained.frame (h : Chained s f) {n : ℕ} (hn : n ∉ chainOf s)
    (hs : ∀ a, a ≠ n → s'.next a = s.next a) : ∀ a, a ∈ chainOf s' ↔ a ∈ chainOf s := by
  obtain ⟨l, hc⟩ := h.chain
  rw [chainOf, nodes_eq hc] at hn
  have hc' := hc.congr fun a ha => hs a fun e => hn (e ▸ ha)
  intro a
  rw [chainOf, chainOf, nodes_eq hc', nodes_eq hc]

/-- The step that takes a marked node out. -/
theorem Chained.change_unlink (h : Chained s f) {pred curr : ℕ} {next : Option ℕ} {pc' : Pc T}
    (hu : (f t).pc.unlinking = some (pred, curr, next)) (hn : s.next pred = some curr)
    (hm : s.marked pred = false) (hr : (f t).pc.retiring = none) (hr' : pc'.retiring = some curr)
    (hl : (f t).pc.links pc' = none) :
    Change s { s with next := Function.update s.next pred next } (f t).pc pc' := by
  obtain ⟨hcm, rfl, hpred⟩ := h.unlink t _ _ _ hu
  obtain ⟨l, hc⟩ := h.chain
  have hp := hpred hm
  rw [chainOf, nodes_eq hc] at hp
  obtain ⟨l₁, l₂, rfl, hl₂⟩ := hc.split hp
  rw [hn] at hl₂
  cases l₂ with
  | nil => cases hl₂
  | cons b l₂ =>
    obtain rfl : curr = b := Option.some.inj hl₂.1
    have hnd := hc.nodup
    have hmem : ∀ x, x ∈ l₁ ++ pred :: l₂ ↔ x ≠ curr ∧ x ∈ l₁ ++ pred :: curr :: l₂ := by
      intro x; grind
    refine .unlink curr ?_ hcm (fun x => ?_) hr hr' hl
    · rw [chainOf, nodes_eq hc]; simp
    · rw [chainOf, nodes_eq hc.unlink, chainOf, nodes_eq hc, hmem]

theorem retiring_none {pc : Pc T} (h : ∀ a, pc.inReclaim ≠ .make a) : pc.retiring = none := by
  unfold Pc.retiring
  split
  · exact absurd ‹_› (h _)
  · rfl

theorem chain_free {z : HazardPtr.Shared ι} (freed : Option ℕ) :
    ∀ a, a ∈ chainOf (Memory.free { s with hazard := z } freed) ↔ a ∈ chainOf s :=
  chainOf_congr (free_eq { s with hazard := z } freed).1

theorem retiring_loop {k : Task T} {p c pred : ℕ} (o : Option ℕ) :
    (Pc.find k ⟨p, c, loop pred o⟩).retiring = none := by
  cases o <;> rfl

theorem links_newNode {pc pc' : Pc T} {n : ℕ} (hl : pc.links pc' = some n) :
    ∃ v, pc.newNode = some (n, v) := by
  unfold Pc.links at hl
  split at hl <;> cases hl
  exact ⟨_, rfl⟩

theorem newNode_made {pc : Pc T} {n : ℕ} {v : T} (hn : pc.newNode = some (n, v)) :
    pc.made = some n := by
  unfold Pc.newNode at hn
  split at hn <;> cases hn <;> rfl

variable [LT T] [DecidableLT T]

/-- A step of a search. -/
theorem Find.Move.change (h : Chained s f) {k : Task T} {f₀ f' : Find}
    (hft : (f t).pc = .find k f₀) (hm : Find.Move (find k.value) s f₀ s' f') :
    Change s s' (.find k f₀) (.find k f') := by
  cases hm with
  | unlink p c pred curr next hn hm hr =>
    rw [← hft]
    exact h.change_unlink (by rw [hft]; rfl) hn hm (by rw [hft]; rfl) rfl (by rw [hft]; rfl)
  | unlinkOnly p c pred curr next hn hm hr => cases hr
  | reclaim p c pred next r sp z r' freed hs =>
    exact .none (chain_free freed) (retiring_none (Reclaim.step_make hs)) rfl
  | load p c pred => exact .none (fun _ => Iff.rfl) (retiring_loop _) rfl
  | reclaimed p c pred next => exact .none (fun _ => Iff.rfl) (retiring_loop _) rfl
  | advance p c pred curr next ha => exact .none (fun _ => Iff.rfl) (retiring_loop _) rfl
  | _ => exact .none (fun _ => Iff.rfl) rfl rfl

/-- **What a step can do to the chain.** -/
theorem Move.change (h : Chained s f) {ch : Choice T} {ev : Event (Op T) Res}
    (hmv : Move t s ch ev (f t) s' l') (hch : ∀ a, ch = .alloc a → a ∉ chainOf s) :
    Change s s' (f t).pc l'.pc := by
  generalize hft : f t = lt at hmv
  cases hmv with
  | find i k f₀ s' f' ch hm => exact Find.Move.change h (by rw [hft]) hm
  | resume i k p c found pred curr =>
    refine .none (fun _ => Iff.rfl) ?_ rfl
    cases k with
    | insert n v => cases found <;> rfl
    | erase v => cases found <;> cases curr <;> rfl
    | contains v => rfl
  | claim o i slots hi hid =>
    refine .none (fun _ => Iff.rfl) ?_ rfl
    dsimp only
    split
    · rfl
    · cases o <;> rfl
  | new i v a ha =>
    exact .none (h.frame (hch a rfl) fun b hb => Function.update_of_ne hb _ _) rfl rfl
  | setNext i n v pred curr =>
    have hn := (h.new t n v (by rw [hft]; rfl)).1
    exact .none (h.frame hn fun b hb => Function.update_of_ne hb _ _) rfl rfl
  | link i n v pred curr hn hm =>
    obtain ⟨l, hc⟩ := h.chain
    obtain ⟨hnc, hnm⟩ := h.new t n v (by rw [hft]; rfl)
    obtain ⟨hnn, hpred⟩ := h.link t n v pred curr (by rw [hft])
    have hp := hpred hm
    rw [chainOf, nodes_eq hc] at hp hnc
    obtain ⟨l₁, l₂, rfl, hl₂⟩ := hc.split hp
    have hmem : ∀ x, x ∈ l₁ ++ pred :: n :: l₂ ↔ x = n ∨ x ∈ l₁ ++ pred :: l₂ := by intro x; grind
    refine .link n hnm rfl (fun a => ?_) rfl rfl
    rw [chainOf, nodes_eq (hc.insert hnc (hnn.trans hn.symm)), hmem, chainOf, nodes_eq hc]
  | unlink i pred curr next hn hm =>
    have hu : Change s _ (f t).pc (.reclaim (.bool true) (.make curr)) :=
      h.change_unlink (t := t) (by rw [hft]; rfl) hn hm (by rw [hft]; rfl) rfl (by rw [hft]; rfl)
    rw [hft] at hu
    exact hu
  | reclaim i res r sp hz r' freed ch hs =>
    exact .none (chain_free freed) (retiring_none (Reclaim.step_make hs)) rfl
  | sweep i r sp hz r' freed ch hs =>
    exact .none (chain_free freed) (retiring_none (Reclaim.step_make hs)) rfl
  | _ => exact .none (fun _ => Iff.rfl) rfl rfl

section
variable {linked : ℕ → Prop} {D : ι → Set (Shared ι T)}

theorem Inv.mem_chain (h : Inv linked s f D) {a : ℕ} (ha : a ∈ chainOf s) : linked a := by
  obtain ⟨l, hc⟩ := h.chain
  rw [chainOf, nodes_eq hc.chain] at ha
  exact hc.mem a ha

theorem Inv.unmarked_chain (h : Inv linked s f D) {a : ℕ} (ha : linked a)
    (hm : s.marked a = false) : a ∈ chainOf s := by
  obtain ⟨l, hc⟩ := h.chain
  rw [chainOf, nodes_eq hc.chain]
  exact hc.unmarked a ha hm

theorem Inv.alloc_chain (h : Inv linked s f D) {ch : Choice T}
    (hch : ∀ a, ch = .alloc a → s.used a = false) (a : ℕ) (ha : ch = .alloc a) : a ∉ chainOf s := by
  intro hc
  have hu := h.used a (h.mem_chain hc)
  rw [hch a ha] at hu
  cases hu

theorem Inv.links_new (h : Inv linked s f D) {pc' : Pc T} (n : ℕ)
    (hl : (f t).pc.links pc' = some n) : ¬ linked n := by
  obtain ⟨v, hv⟩ := links_newNode hl
  exact (h.new_linked t n v hv).1

/-- Where memory is never reused. -/
theorem Inv.chained (h : Inv linked s f D) : Chained s f := by
  refine ⟨?_, fun t n v hn => ?_, fun t n v pred curr hpc => ?_, fun t pred curr next hu => ?_⟩
  · obtain ⟨l, hc⟩ := h.chain
    exact ⟨l, hc.chain⟩
  · exact ⟨fun hc => (h.new_linked t n v hn).1 (h.mem_chain hc), (h.new_data t n v hn).2⟩
  · have hk := h.knows t
    rw [hpc] at hk
    exact ⟨h.new_next t n v pred curr hpc, h.unmarked_chain hk.1.1⟩
  · have hk := h.knows t
    unfold Pc.unlinking at hu
    split at hu
    all_goals cases hu
    · rename_i hpc
      rw [hpc] at hk
      exact ⟨hk.2.2.1, hk.2.2.2, h.unmarked_chain hk.1.1⟩
    · rename_i hpc
      rw [hpc] at hk
      exact ⟨hk.2.2.1, hk.2.2.2, h.unmarked_chain hk.1⟩
end

omit [LT T] [DecidableLT T] in
/-- Where no deleted node is accessed. -/
theorem Hazards.chained {home : ℕ → Home ι} {w : ℕ → Where ι} {l : List ℕ} {g : ℕ → ℕ → Prop}
    (h : Hazards home w l g s f)
    (hnew : ∀ t n v, (f t).pc.newNode = some (n, v) → s.marked n = false) : Chained s f := by
  have hmem : ∀ a, a ∈ chainOf s ↔ a ∈ l := fun a => by rw [chainOf, nodes_eq h.chain]
  refine ⟨⟨l, h.chain⟩, fun t n v hn => ⟨fun hc => ?_, hnew t n v hn⟩,
    fun t n v pred curr hpc => ?_,
    fun t pred curr next hu => ?_⟩
  · rw [hmem, h.linked, (h.made t n).mp (newNode_made hn)] at hc
    cases hc
  · have hk := h.holds t
    rw [hpc] at hk
    obtain ⟨⟨j, -, hs⟩, -⟩ := hk
    exact ⟨h.link_next t n v pred curr hpc, fun hm => (hmem pred).mpr (h.on_chain hs hm)⟩
  · have hk := h.holds t
    unfold Pc.unlinking at hu
    split at hu
    all_goals cases hu
    · rename_i hpc
      rw [hpc] at hk
      obtain ⟨-, -, -, hs, -, hm, hn⟩ := hk
      exact ⟨hm, hn, fun hm => (hmem pred).mpr (h.on_chain hs hm)⟩
    · rename_i hpc
      rw [hpc] at hk
      obtain ⟨⟨j, -, hs⟩, -, hm, hn⟩ := hk
      exact ⟨hm, hn, fun hm => (hmem pred).mpr (h.on_chain hs hm)⟩
end

/-! ## Where a node is -/

/-- The situations of a node that was linked in. -/
inductive Situation (ι : Type) where
  | chain
  | unlinked (t : ι)
  | handed
  deriving DecidableEq

/-- The nodes handed to `reclaim_later`, newest first. -/
def handed (h : List (Step ι T)) : List ℕ := h.filterMap fun r => (r.pre.loc r.tid).pc.retiring

open Classical in
/-- How often node `a` is in a situation. -/
noncomputable def situated (h : List (Step ι T)) (c : Config ι (Shared ι T) (Local T)) (a : ℕ) :
    Situation ι → ℕ
  | .chain => if a ∈ chainOf c.shared then 1 else 0
  | .unlinked t => if (c.loc t).pc.retiring = some a then 1 else 0
  | .handed => (handed h).count a

/-- Every node that was linked in is in one situation, once, and no other node is in any. -/
structure Situated (h : List (Step ι T)) (c : Config ι (Shared ι T) (Local T)) : Prop where
  old : ∀ a, Inserted h a → Sole (situated h c a)
  new : ∀ a, ¬ Inserted h a → Nowhere (situated h c a)

section
variable [DecidableEq ι] {h : List (Step ι T)} {c : Config ι (Shared ι T) (Local T)} {t : ι}
  {ev : Event (Op T) Res} {s' : Shared ι T} {l' : Local T} {a : ℕ}

theorem situated_unlinked_ne {u : ι} (hu : u ≠ t) :
    situated (⟨t, ev, c, c.set t s' l'⟩ :: h) (c.set t s' l') a (.unlinked u) =
      situated h c a (.unlinked u) := by
  simp [situated, Config.set_loc_ne c hu]

theorem situated_handed :
    situated (⟨t, ev, c, c.set t s' l'⟩ :: h) (c.set t s' l') a .handed =
      situated h c a .handed + if (c.loc t).pc.retiring = some a then 1 else 0 := by
  simp only [situated, handed, List.filterMap_cons]
  cases (c.loc t).pc.retiring with
  | none => simp
  | some b => simp [List.count_cons]

/-- What is left of the situations when neither the chain nor the mover's node counts. -/
theorem situated_same (hc : a ∈ chainOf s' ↔ a ∈ chainOf c.shared)
    (hr : (c.loc t).pc.retiring ≠ some a) (hr' : l'.pc.retiring ≠ some a) (q : Situation ι) :
    situated (⟨t, ev, c, c.set t s' l'⟩ :: h) (c.set t s' l') a q = situated h c a q := by
  cases q with
  | chain => simp [situated, hc]
  | unlinked u =>
    by_cases hu : u = t
    · subst hu; simp [situated, hr, hr']
    · exact situated_unlinked_ne hu
  | handed => rw [situated_handed, if_neg hr, Nat.add_zero]

theorem Situated.step (hS : Situated h c)
    (hch : Change c.shared s' (c.loc t).pc l'.pc)
    (hnew : ∀ n, (c.loc t).pc.links l'.pc = some n → ¬ Inserted h n) :
    Situated (⟨t, ev, c, c.set t s' l'⟩ :: h) (c.set t s' l') := by
  have hins : ∀ a, Inserted (⟨t, ev, c, c.set t s' l'⟩ :: h) a ↔
      (c.loc t).pc.links l'.pc = some a ∨ Inserted h a := by
    intro a
    rw [← inserted_cons, Config.set_loc_self]
  cases hch with
  | none hmem hr hl =>
    have hsame : ∀ a, (c.loc t).pc.retiring ≠ some a → ∀ q,
        situated (⟨t, ev, c, c.set t s' l'⟩ :: h) (c.set t s' l') a q = situated h c a q :=
      fun a hne => situated_same (hmem a) hne (by rw [hr]; nofun)
    have hold : ∀ a, (c.loc t).pc.retiring = some a → Inserted h a := by
      intro a ha
      by_contra hno
      have := hS.new a hno (.unlinked t)
      simp [situated, ha] at this
    refine ⟨fun a ha => ?_, fun a ha q => ?_⟩
    · have ha' : Inserted h a := ((hins a).mp ha).resolve_left (by rw [hl]; nofun)
      by_cases hra : (c.loc t).pc.retiring = some a
      · refine (hS.old a ha').move (p := .unlinked t) (q := .handed) (by simp) ?_ ?_ ?_
        · simp [situated, hra, hr]
        · rw [situated_handed, if_pos hra]
        · intro q hq hq'
          cases q with
          | chain => simp [situated, hmem a]
          | unlinked u => exact situated_unlinked_ne fun e => hq (by rw [e])
          | handed => exact absurd rfl hq'
      · exact (hS.old a ha').congr (hsame a hra)
    · have ha' : ¬ Inserted h a := fun hi => ha ((hins a).mpr (.inr hi))
      rw [hsame a fun e => ha' (hold a e)]
      exact hS.new a ha' q
  | link n hnm hl hmem hr hr' =>
    have hn := hnew n hl
    have hsame : ∀ a, a ≠ n → ∀ q,
        situated (⟨t, ev, c, c.set t s' l'⟩ :: h) (c.set t s' l') a q = situated h c a q :=
      fun a hne => situated_same (by rw [hmem a]; simp [hne]) (by rw [hr]; nofun)
        (by rw [hr']; nofun)
    have hno := hS.new n hn .chain
    have hnc : n ∉ chainOf c.shared := fun e => by simp [situated, e] at hno
    refine ⟨fun a ha => ?_, fun a ha q => ?_⟩
    · by_cases han : a = n
      · subst han
        refine Sole.first (q := .chain) (hS.new a hn) ?_ fun q hq => ?_
        · simp [situated, hmem a, hnc]
        · cases q with
          | chain => exact absurd rfl hq
          | unlinked u =>
            by_cases hu : u = t
            · subst hu; simp [situated, hr, hr']
            · exact situated_unlinked_ne hu
          | handed => rw [situated_handed, hr]; simp
      · have ha' : Inserted h a := ((hins a).mp ha).resolve_left fun e => by
          rw [hl] at e
          exact han (Option.some.inj e).symm
        exact (hS.old a ha').congr (hsame a han)
    · have han : a ≠ n := fun e => ha ((hins a).mpr (.inl (by rw [hl, e])))
      rw [hsame a han]
      exact hS.new a (fun hi => ha ((hins a).mpr (.inr hi))) q
  | unlink b hb hm hmem hr hr' hl =>
    have hsame : ∀ a, a ≠ b → ∀ q,
        situated (⟨t, ev, c, c.set t s' l'⟩ :: h) (c.set t s' l') a q = situated h c a q :=
      fun a hne => situated_same (by rw [hmem a]; simp [hne]) (by rw [hr]; nofun)
        (by rw [hr']; exact fun e => hne (Option.some.inj e).symm)
    refine ⟨fun a ha => ?_, fun a ha q => ?_⟩
    · have ha' : Inserted h a := ((hins a).mp ha).resolve_left (by rw [hl]; nofun)
      by_cases hab : a = b
      · subst hab
        refine (hS.old a ha').move (p := .chain) (q := .unlinked t) (by simp) ?_ ?_ ?_
        · simp [situated, hb, hmem a]
        · simp [situated, hr, hr']
        · intro q hq hq'
          cases q with
          | chain => exact absurd rfl hq
          | unlinked u => exact situated_unlinked_ne fun e => hq' (by rw [e])
          | handed => rw [situated_handed, hr]; simp
      · exact (hS.old a ha').congr (hsame a hab)
    · have ha' : ¬ Inserted h a := fun hi => ha ((hins a).mpr (.inr hi))
      have hab : a ≠ b := by
        rintro rfl
        have := hS.new a ha' .chain
        simp [situated, hb] at this
      rw [hsame a hab]
      exact hS.new a ha' q
end

/-! ## The destructor, `for_each` and `empty` -/

/-- The nodes `~lockfree_list` deletes from `current` on, if the loop ends within `n` rounds. -/
def destroyed (s : Shared ι T) : ℕ → Option ℕ → Option (List ℕ)
  | _, none => some []
  | 0, some _ => none
  | n + 1, some current => (destroyed s n (s.next current)).map (current :: ·)

/-- The elements `for_each` visits from `curr` on, if the loop ends within `n` rounds. -/
def forEach (s : Shared ι T) : ℕ → Option ℕ → Option (List T)
  | _, none => some []
  | 0, some _ => none
  | n + 1, some curr => (forEach s n (s.next curr)).map
      ((if s.marked curr then [] else (s.data curr).toList) ++ ·)

/-- `empty`. -/
def isEmpty (s : Shared ι T) : Bool := (s.next head).isNone

theorem destroyed_eq {s : Shared ι T} {l : List ℕ} :
    ∀ {p : Option ℕ}, Linked s.next p l → destroyed s l.length p = some l := by
  induction l with
  | nil => rintro p rfl; rfl
  | cons a l ih =>
    rintro p ⟨rfl, hl⟩
    simp [destroyed, ih hl]

theorem forEach_eq {s : Shared ι T} {l : List ℕ} : ∀ {p : Option ℕ}, Linked s.next p l →
    forEach s l.length p =
      some (l.flatMap fun a => if s.marked a then [] else (s.data a).toList) := by
  induction l with
  | nil => rintro p rfl; rfl
  | cons a l ih =>
    rintro p ⟨rfl, hl⟩
    simp [forEach, ih hl]

/-! ## Runs -/

section
variable [LT T] [DecidableLT T] [DecidableEq ι] {h : List (Step ι T)}
  {c : Config ι (Shared ι T) (Local T)} {count : ℕ}

omit [LT T] [DecidableLT T] [DecidableEq ι] in
theorem situated_initial :
    Situated ([] : List (Step ι T)) (initial (ι := ι) (T := T) count) := by
  have hl : Linked (initial (ι := ι) (T := T) count).shared.next (some head) [head] := ⟨rfl, rfl⟩
  have hc : ∀ a, a ∈ chainOf (initial (ι := ι) (T := T) count).shared ↔ a = head := by
    intro a
    rw [chainOf, nodes_eq hl, List.mem_singleton]
  refine ⟨fun a ha => ⟨.chain, ?_, fun q hq => ?_⟩, fun a ha q => ?_⟩
  · obtain rfl : a = head := by simpa [Inserted] using ha
    simp [situated, hc]
  · cases q with
    | chain => exact absurd rfl hq
    | _ => rfl
  · have hne : a ≠ head := fun e => ha (.inl e)
    cases q with
    | chain => simp [situated, hc, hne]
    | _ => rfl

/-- What one step of a run does to the chain. -/
def StepsOnce (h : List (Step ι T)) (r : Step ι T) : Prop :=
  ∀ a, (a ∈ chainOf r.pre.shared → a ∉ chainOf r.cfg.shared → r.pre.shared.marked a = true) ∧
    (a ∈ chainOf r.cfg.shared → a ∉ chainOf r.pre.shared → ¬ Inserted h a)

theorem situated_run [IsTrans T (· < ·)] (hr : program.Run NoReuse (initial count) h c) :
    Situated h c ∧ ∀ h₁ r h₂, h = h₁ ++ r :: h₂ → StepsOnce h₂ r := by
  refine hr.induction (I := fun h c => Situated h c ∧ ∀ h₁ r h₂, h = h₁ ++ r :: h₂ → StepsOnce h₂ r)
    ⟨situated_initial, by simp⟩ fun h c t k ev s l hrun ih hok hs => ?_
  have hI := chain_run hrun
  have hch := Move.change hI.chained (step_move hs) (hI.alloc_chain hok)
  refine ⟨ih.1.step hch (hI.links_new), fun h₁ r h₂ he => ?_⟩
  cases h₁ with
  | cons r₁ h₁ => exact ih.2 h₁ r h₂ (List.cons.inj he).2
  | nil =>
    obtain ⟨rfl, rfl⟩ := List.cons.inj he
    intro a
    dsimp only
    rw [Config.set_shared]
    cases hch with
    | none hmem =>
      exact ⟨fun h1 h2 => absurd ((hmem a).mpr h1) h2, fun h1 h2 => absurd ((hmem a).mp h1) h2⟩
    | link n hn hl hmem =>
      refine ⟨fun h1 h2 => absurd ((hmem a).mpr (.inr h1)) h2, fun h1 h2 => ?_⟩
      rw [((hmem a).mp h1).resolve_right h2]
      exact hI.links_new n hl
    | unlink b hb hm hmem =>
      refine ⟨fun h1 h2 => ?_, fun h1 h2 => absurd ((hmem a).mp h1).2 h2⟩
      by_cases hab : a = b
      · rw [hab]; exact hm
      · exact absurd ((hmem a).mpr ⟨hab, h1⟩) h2

/-- **Every node is unlinked and retired once.** In every run in which memory is never reused: each
node that was linked in is on the chain, or with the one thread that has unlinked it and is about to
call `reclaim_later`, or was handed to `reclaim_later`, and this once; only marked nodes leave the
chain, and none comes back; and when no operation is in progress the destructor deletes, each once,
those that were not handed over, and none that was. -/
theorem unlinked_once [IsTrans T (· < ·)] (hr : program.Run NoReuse (initial count) h c) :
    (∀ a, Inserted h a → Sole (situated h c a)) ∧
    (∀ h₁ r h₂, h = h₁ ++ r :: h₂ → StepsOnce h₂ r) ∧
    ((∀ t, (c.loc t).pc = .idle) → ∃ n l, destroyed c.shared n (some head) = some l ∧ l.Nodup ∧
      ∀ a, Inserted h a → (handed h).count a ≤ 1 ∧ (a ∈ l ↔ a ∉ handed h)) := by
  obtain ⟨hS, hsteps⟩ := situated_run hr
  refine ⟨hS.old, hsteps, fun hidle => ?_⟩
  obtain ⟨l, hc⟩ := (chain_run hr).chain
  refine ⟨l.length, l, destroyed_eq hc.chain, hc.chain.nodup, fun a ha => ?_⟩
  have hmem : a ∈ chainOf c.shared ↔ a ∈ l := by rw [chainOf, nodes_eq hc.chain]
  obtain ⟨q, h1, h0⟩ := hS.old a ha
  cases q with
  | chain =>
    have hz : (handed h).count a = 0 := h0 .handed (by simp)
    have hal : a ∈ l := hmem.mp (by by_contra hno; simp [situated, hno] at h1)
    exact ⟨by omega, by simp [hal, List.count_eq_zero.mp hz]⟩
  | unlinked t => simp [situated, hidle t, Pc.retiring, Pc.inReclaim] at h1
  | handed =>
    have hz := h0 .chain (by simp)
    have hone : (handed h).count a = 1 := h1
    have hal : a ∉ l := fun e => by simp [situated, hmem.mpr e] at hz
    exact ⟨by omega, by simp [hal, List.count_pos_iff.mp (by omega : 0 < (handed h).count a)]⟩

/-- Two threads insert and erase the same element, and both return. -/
theorem unlinked_once_insert_erase :
    ∃ (h : List (Step Bool ℕ)) (c : Config Bool (Shared Bool ℕ) (Local ℕ)),
      program.Run NoReuse (initial 0) h c ∧ c.shared.marked 1 = true ∧
      ∃ n l, destroyed c.shared n (some head) = some l ∧ l.Nodup ∧
        ∀ a, Inserted h a → (handed h).count a ≤ 1 ∧ (a ∈ l ↔ a ∉ handed h) := by
  have he : ((program.exec allocatesFresh (initial 0) [turn false (.call (.insert 5)) 3,
      turn false (.alloc 1) 11,
        turn true (.call (.erase 5)) 24].flatten).any fun c =>
      c.shared.marked 1 ∧ ∀ t, (c.loc t).pc = .idle) = true := by
    decide
  obtain ⟨c, hc, hd⟩ := (Option.any_eq_true _ _).mp he
  obtain ⟨hm, hidle⟩ := of_decide_eq_true hd
  obtain ⟨h, hr⟩ := Program.exec_run NoReuse (fun h c t k c' _ hk a ha => by
    subst ha; simpa [allocatesFresh] using hk) hc
  exact ⟨h, c, hr, hm, (unlinked_once hr).2.2 hidle⟩

/-! ## What is left behind -/

/-- The node `new` returns in a step from one place to another. -/
def Pc.makes : Pc T → Pc T → Option ℕ
  | .new _, .find (.insert n _) _ => some n
  | _, _ => none

/-- Since `a` was made, an `erase` has marked it and lost the compare-exchange that would have
unlinked it. -/
def LostUnlink : List (Step ι T) → ℕ → Prop
  | [], _ => False
  | r :: h, a => (∃ pred next, (r.pre.loc r.tid).pc = .unlink pred a next ∧
      (r.cfg.loc r.tid).pc = .destroy (.bool true)) ∨
    (LostUnlink h a ∧ (r.pre.loc r.tid).pc.makes (r.cfg.loc r.tid).pc ≠ some a)

/-- A marked node on the chain is about to be unlinked by its `erase`, or was left there; what was
left is still marked; and every node but the sentinel has its element. -/
structure LeftBehind (h : List (Step ι T)) (c : Config ι (Shared ι T) (Local T)) : Prop where
  left : ∀ a ∈ chainOf c.shared, c.shared.marked a = true →
    (∃ t pred next, (c.loc t).pc = .unlink pred a next) ∨ LostUnlink h a
  marked : ∀ a, LostUnlink h a → c.shared.marked a = true
  head_data : c.shared.data head = none
  data : ∀ a ∈ chainOf c.shared, a ≠ head → c.shared.data a ≠ none
  new_data : ∀ t n v, (c.loc t).pc.newNode = some (n, v) → c.shared.data n ≠ none

omit [DecidableEq ι] in
/-- Only `erase` marks. -/
theorem Move.marks {t : ι} {s s' : Shared ι T} {l l' : Local T} {ch : Choice T}
    {ev : Event (Op T) Res} (hmv : Move t s ch ev l s' l') {a : ℕ} (ha : s'.marked a = true) :
    s.marked a = true ∨
      ∃ v pred next, l.pc = .mark v pred a next ∧ l'.pc = .unlink pred a next := by
  cases hmv with
  | mark i v pred curr next hn hm =>
    by_cases hac : a = curr
    · subst hac; exact .inr ⟨v, pred, next, rfl, rfl⟩
    · exact .inl (by simpa [hac] using ha)
  | new i v b hb =>
    rw [Memory.alloc_marked] at ha
    split at ha
    · cases ha
    · exact .inl ha
  | setNext i n v pred curr =>
    rw [Memory.setNext_marked] at ha
    split at ha
    · cases ha
    · exact .inl ha
  | find i k f₀ s' f' ch hm =>
    cases hm with
    | reclaim p c pred next r sp z r' freed hs =>
      rw [(free_eq { s with hazard := z } freed).2.1] at ha
      exact .inl ha
    | _ => exact .inl ha
  | reclaim i res r sp hz r' freed ch hs | sweep i r sp hz r' freed ch hs =>
    rw [(free_eq { s with hazard := hz } freed).2.1] at ha
    exact .inl ha
  | _ => exact .inl ha

omit [DecidableEq ι] in
/-- A mark goes only when the node is new. -/
theorem Move.keeps_mark {t : ι} {s s' : Shared ι T} {l l' : Local T} {ch : Choice T}
    {ev : Event (Op T) Res} (hmv : Move t s ch ev l s' l') {a : ℕ} (ha : s.marked a = true)
    (hm : l.pc.makes l'.pc ≠ some a) (hn : ∀ v, l.pc.newNode ≠ some (a, v)) :
    s'.marked a = true := by
  cases hmv with
  | mark i v pred curr next hn hm =>
    by_cases hac : a = curr
    · subst hac; simp
    · simpa [hac] using ha
  | new i v b hb =>
    have hab : a ≠ b := fun e => hm (by rw [e]; rfl)
    rw [Memory.alloc_marked, if_neg hab]
    exact ha
  | setNext i n v pred curr =>
    have han : a ≠ n := fun e => hn v (by rw [e]; rfl)
    rw [Memory.setNext_marked, if_neg han]
    exact ha
  | find i k f₀ s' f' ch hf =>
    cases hf with
    | reclaim p c pred next r sp z r' freed hs =>
      rw [(free_eq { s with hazard := z } freed).2.1]
      exact ha
    | _ => exact ha
  | reclaim i res r sp hz r' freed ch hs | sweep i r sp hz r' freed ch hs =>
    rw [(free_eq { s with hazard := hz } freed).2.1]
    exact ha
  | deleteNew i n =>
    rw [(free_eq s (some n)).2.1]
    exact ha
  | _ => exact ha

omit [DecidableEq ι] in
/-- Only `new` writes an element. -/
theorem Move.data_eq {t : ι} {s s' : Shared ι T} {l l' : Local T} {ch : Choice T}
    {ev : Event (Op T) Res} (hmv : Move t s ch ev l s' l') (a : ℕ) :
    s'.data a = s.data a ∨ ∃ v, ch = .alloc a ∧ s'.data a = some v := by
  cases hmv with
  | new i v b hb =>
    by_cases hab : a = b
    · subst hab; exact .inr ⟨v, rfl, by rw [Memory.alloc_data, if_pos rfl]⟩
    · exact .inl (by rw [Memory.alloc_data, if_neg hab])
  | find i k f₀ s' f' ch hf =>
    cases hf with
    | reclaim p c pred next r sp z r' freed hs =>
      exact .inl (by rw [(free_eq { s with hazard := z } freed).2.2.1])
    | _ => exact .inl rfl
  | reclaim i res r sp hz r' freed ch hs | sweep i r sp hz r' freed ch hs =>
    exact .inl (by rw [(free_eq { s with hazard := hz } freed).2.2.1])
  | deleteNew i n => exact .inl (by rw [(free_eq s (some n)).2.2.1])
  | _ => exact .inl rfl

omit [DecidableEq ι] in
/-- What `erase` does after the mark: it unlinks its victim, or leaves it. -/
theorem Move.unlinks {t : ι} {s s' : Shared ι T} {l l' : Local T} {ch : Choice T}
    {ev : Event (Op T) Res} (hmv : Move t s ch ev l s' l') {pred a : ℕ} {next : Option ℕ}
    (hpc : l.pc = .unlink pred a next) :
    l'.pc.retiring = some a ∨ l'.pc = .destroy (.bool true) := by
  cases hmv with
  | unlink i pred curr next hn hm =>
    cases hpc
    exact .inl rfl
  | unlinkFail i pred curr next => exact .inr rfl
  | _ => cases hpc

omit [DecidableEq ι] in
/-- A node a thread holds as its own was there before, or is fresh. -/
theorem Move.new_fresh {t : ι} {s s' : Shared ι T} {l l' : Local T} {ch : Choice T}
    {ev : Event (Op T) Res} (hmv : Move t s ch ev l s' l') {n : ℕ} {v : T}
    (hn : l'.pc.newNode = some (n, v)) :
    l.pc.newNode = some (n, v) ∨ s'.marked n = false ∧ s'.data n = some v := by
  cases hmv with
  | new i v' b hb =>
    obtain ⟨rfl, rfl⟩ : b = n ∧ v' = v := by simpa [search, Pc.newNode] using hn
    exact .inr ⟨by rw [Memory.alloc_marked, if_pos rfl], by rw [Memory.alloc_data, if_pos rfl]⟩
  | claim o i slots hi hid =>
    dsimp only at hn
    split at hn
    · cases hn
    · cases o <;> cases hn
  | resume i k p c found pred curr =>
    cases k with
    | insert n' v' =>
      cases found
      · exact .inl hn
      · cases hn
    | erase v' => cases found <;> cases curr <;> cases hn
    | contains v' => cases hn
  | find i k f₀ s' f' ch hm => exact .inl (by cases k <;> exact hn)
  | setNext i n v pred curr => exact .inl hn
  | linkFail i n v pred curr => exact .inl hn
  | _ => cases hn

theorem LeftBehind.step {t : ι} {ch : Choice T} {ev : Event (Op T) Res} {s : Shared ι T}
    {l : Local T} (hB : LeftBehind h c) (hC : Chained c.shared c.loc)
    (hmv : Move t c.shared ch ev (c.loc t) s l) (hch : ∀ a, ch = .alloc a → a ∉ chainOf c.shared) :
    LeftBehind (⟨t, ev, c, c.set t s l⟩ :: h) (c.set t s l) := by
  have hchange := Move.change hC hmv hch
  have hdata : ∀ a, c.shared.data a ≠ none → s.data a ≠ none := by
    intro a ha
    rcases hmv.data_eq a with hd | ⟨v, -, hd⟩
    · rwa [hd]
    · rw [hd]; nofun
  refine ⟨fun a ha hm => ?_, fun a hlost => ?_, ?_, fun a ha hne => ?_, fun u n v hn => ?_⟩
  · rcases hmv.marks hm with hm₀ | ⟨v, pred, next, -, hpc⟩
    · have ha₀ : a ∈ chainOf c.shared := by
        cases hchange with
        | none hmem => exact (hmem a).mp ha
        | link n hn hl hmem =>
          refine ((hmem a).mp ha).resolve_left ?_
          rintro rfl
          rw [hm₀] at hn
          cases hn
        | unlink b hb hm hmem => exact ((hmem a).mp ha).2
      rcases hB.left a ha₀ hm₀ with ⟨u, pred, next, hu⟩ | hlost
      · by_cases hut : u = t
        · subst hut
          rcases hmv.unlinks hu with hr' | hd
          · -- the node goes out, so it is not on the chain any more
            cases hchange with
            | none hmem hr => rw [hr] at hr'; cases hr'
            | link n hn hl hmem hr hr₁ => rw [hr₁] at hr'; cases hr'
            | unlink b hb hm hmem hr hr₁ =>
              rw [hr₁] at hr'
              cases hr'
              exact absurd rfl ((hmem a).mp ha).1
          · exact .inr (.inl ⟨pred, next, hu, by simpa using hd⟩)
        · exact .inl ⟨u, pred, next, by rw [Config.set_loc_ne c hut]; exact hu⟩
      · -- a node on the chain is not made anew
        refine .inr (.inr ⟨hlost, fun hmk => ?_⟩)
        rw [Config.set_loc_self] at hmk
        generalize c.loc t = lt at hmv hmk
        cases hmv with
        | new i v b hb => cases hmk; exact hch a rfl ha₀
        | _ => simp [Pc.makes] at hmk
    · exact .inl ⟨t, pred, next, by rw [Config.set_loc_self]; exact hpc⟩
  · have hkeep : c.shared.marked a = true → (c.loc t).pc.makes l.pc ≠ some a → s.marked a = true :=
      fun hm hmk => hmv.keeps_mark hm hmk fun v hn => by
        have := (hC.new t a v hn).2
        rw [hm] at this
        cases this
    rcases hlost with ⟨pred, next, hpc, -⟩ | ⟨hlost, hmk⟩
    · refine hkeep (hC.unlink t pred a next (by rw [hpc]; rfl)).1 ?_
      rw [hpc]
      nofun
    · exact hkeep (hB.marked a hlost) (by simpa using hmk)
  · rcases hmv.data_eq head with hd | ⟨v, hch', -⟩
    · exact hd.trans hB.head_data
    · exact absurd hC.head_mem (hch head hch')
  · cases hchange with
    | none hmem => exact hdata a (hB.data a ((hmem a).mp ha) hne)
    | link n hn hl hmem =>
      rcases (hmem a).mp ha with rfl | ha
      · obtain ⟨v, hv⟩ := links_newNode hl
        exact hdata a (hB.new_data t a v hv)
      · exact hdata a (hB.data a ha hne)
    | unlink b hb hm hmem => exact hdata a (hB.data a ((hmem a).mp ha).2 hne)
  · by_cases hut : u = t
    · subst hut
      rw [Config.set_loc_self] at hn
      rcases hmv.new_fresh hn with hn | ⟨-, hd⟩
      · exact hdata n (hB.new_data u n v hn)
      · rw [Config.set_shared, hd]; nofun
    · rw [Config.set_loc_ne c hut] at hn
      exact hdata n (hB.new_data u n v hn)

omit [DecidableEq ι] in
theorem step_alloc {t : ι} {a : ℕ} {s s' : Shared ι T} {l l' : Local T} {ev : Event (Op T) Res}
    (hs : step t (.alloc a) s l = some (ev, s', l')) : s.alive a = false := by
  unfold step at hs
  split at hs <;> try contradiction
  rename_i v b _ hk
  cases hk
  split at hs
  · cases hs
  · rename_i ha
    simpa using ha

/-- The rule for runs, whatever makes them safe. -/
theorem left_run {ok : List (Step ι T) → Config ι (Shared ι T) (Local T) → ι → Choice T → Prop}
    (hC : ∀ h c, program.Run ok (initial count) h c → Chained c.shared c.loc ∧
      ∀ t a, ok h c t (.alloc a) → c.shared.alive a = false → a ∉ chainOf c.shared)
    (hr : program.Run ok (initial count) h c) : LeftBehind h c := by
  refine hr.induction (I := LeftBehind) ⟨fun a ha hm => ?_, fun a ha => ?_, rfl,
    fun a ha hne => ?_, nofun⟩
    fun h c t k ev s l hrun ih hok hs => ?_
  · cases hm
  · cases ha
  · have hl : Linked (initial (ι := ι) (T := T) count).shared.next (some head) [head] := ⟨rfl, rfl⟩
    rw [chainOf, nodes_eq hl, List.mem_singleton] at ha
    exact absurd ha hne
  · refine ih.step (hC h c hrun).1 (step_move hs) fun a ha => ?_
    subst ha
    exact (hC h c hrun).2 t a hok (step_alloc hs)

/-- Where no deleted node is accessed, a thread's own node is not marked. -/
theorem new_unmarked (hr : program.Run ValidatesUnmarked (initial count) h c) :
    ∀ t n v, (c.loc t).pc.newNode = some (n, v) → c.shared.marked n = false := by
  refine hr.induction (I := fun _ c => ∀ t n v, (c.loc t).pc.newNode = some (n, v) →
    c.shared.marked n = false) nofun fun h c t k ev s l hrun ih hok hs u n v hn => ?_
  have hmv := step_move hs
  by_contra hm
  rw [Config.set_shared, Bool.not_eq_false] at hm
  by_cases hut : u = t
  · subst hut
    rw [Config.set_loc_self] at hn
    rcases hmv.new_fresh hn with hn₀ | ⟨hfresh, -⟩
    · rcases hmv.marks hm with hm₀ | ⟨v', pred, next, -, hpc⟩
      · rw [ih u n v hn₀] at hm₀
        cases hm₀
      · rw [hpc] at hn
        cases hn
    · rw [hfresh] at hm
      cases hm
  · rw [Config.set_loc_ne c hut] at hn
    rcases hmv.marks hm with hm₀ | ⟨v', pred, next, hpc, -⟩
    · rw [ih u n v hn] at hm₀
      cases hm₀
    · obtain ⟨home, w, l₀, hI⟩ := hazards_run hrun
      have hk := hI.holds t
      rw [hpc] at hk
      obtain ⟨-, j, -, hg⟩ := hk
      have hhome := (hI.made u n).mp (newNode_made hn)
      obtain ⟨-, hl | hr⟩ := hI.guard_home j n hg
      · rw [hhome] at hl; cases hl
      · rw [hhome] at hr; cases hr

/-- The two kinds of runs in which the list is never corrupted: memory is not reused, or no deleted
node is accessed. -/
def Sound (count : ℕ) (h : List (Step ι T)) (c : Config ι (Shared ι T) (Local T)) : Prop :=
  program.Run NoReuse (initial count) h c ∨ program.Run ValidatesUnmarked (initial count) h c

theorem sound_run [IsTrans T (· < ·)] (hr : Sound count h c) :
    Chained c.shared c.loc ∧ LeftBehind h c := by
  rcases hr with hr | hr
  · have hC : ∀ (h : List (Step ι T)) c, program.Run NoReuse (initial count) h c →
      Chained c.shared c.loc ∧
        ∀ (t : ι) a, NoReuse h c t (.alloc a) → c.shared.alive a = false →
          a ∉ chainOf c.shared :=
      fun h c hrun => ⟨(chain_run hrun).chained, fun _ a hok _ =>
        (chain_run hrun).alloc_chain hok a rfl⟩
    exact ⟨(hC h c hr).1, left_run hC hr⟩
  · have hC : ∀ (h : List (Step ι T)) c, program.Run ValidatesUnmarked (initial count) h c →
      Chained c.shared c.loc ∧
        ∀ (t : ι) a, ValidatesUnmarked h c t (.alloc a) → c.shared.alive a = false →
          a ∉ chainOf c.shared := by
      intro h c hrun
      obtain ⟨home, w, l, hI⟩ := hazards_run hrun
      refine ⟨hI.chained (new_unmarked hrun), fun t a _ ha hc => ?_⟩
      rw [chainOf, nodes_eq hI.chain, hI.linked] at hc
      have := (hI.alive a).mpr (by rw [hc]; nofun)
      rw [ha] at this
      cases this
    exact ⟨(hC h c hr).1, left_run hC hr⟩

omit [LT T] [DecidableLT T] [DecidableEq ι] in
/-- What `for_each` visits, and the set. -/
theorem forEach_elements {s : Shared ι T} {l : List ℕ} (hc : Linked s.next (some head) (head :: l))
    (hd : s.data head = none) :
    (∃ xs, forEach s l.length (s.next head) = some xs ∧ (elements s = ∅ ↔ xs = [])) ∧
      (elements s = ∅ ↔ ∀ a ∈ l, s.marked a = false → s.data a = none) := by
  have helem : ∀ x, x ∈ elements s ↔ ∃ a ∈ l, s.marked a = false ∧ s.data a = some x := by
    intro x
    simp only [elements, live, nodes_eq hc, Set.mem_ofPred_eq, List.mem_cons]
    constructor
    · rintro ⟨a, rfl | ha, hm, hx⟩
      · rw [hd] at hx; cases hx
      · exact ⟨a, ha, hm, hx⟩
    · rintro ⟨a, ha, hm, hx⟩
      exact ⟨a, .inr ha, hm, hx⟩
  have hempty : elements s = ∅ ↔ ∀ a ∈ l, s.marked a = false → s.data a = none := by
    constructor
    · intro he a ha hm
      cases hx : s.data a with
      | none => rfl
      | some x =>
        have := (helem x).mpr ⟨a, ha, hm, hx⟩
        rw [he] at this
        cases this
    · intro he
      ext x
      rw [helem]
      refine ⟨?_, fun hx => absurd hx (Set.notMem_empty x)⟩
      rintro ⟨a, ha, hm, hx⟩
      rw [he a ha hm] at hx
      cases hx
  refine ⟨⟨_, forEach_eq hc.2, ?_⟩, hempty⟩
  rw [hempty, List.flatMap_eq_nil_iff]
  refine forall₂_congr fun a ha => ?_
  cases s.marked a <;> simp

/-- **When `empty` is exact.** Whenever no operation is in progress, `for_each` visits nothing if
and only if the set is empty; and `empty` answers whether it is, unless nodes are linked behind
`head_` and each of them was left by an `erase` that lost its unlink. -/
theorem empty_exact [IsTrans T (· < ·)] (hr : Sound count h c)
    (hidle : ∀ t, (c.loc t).pc = .idle) :
    ∃ n xs, forEach c.shared n (c.shared.next head) = some xs ∧
      (((isEmpty c.shared = true ↔ elements c.shared = ∅) ∧ (elements c.shared = ∅ ↔ xs = [])) ↔
        ((∃ a ∈ chainOf c.shared, a ≠ head ∧ LostUnlink h a) →
          ∃ a ∈ chainOf c.shared, a ≠ head ∧ ¬ LostUnlink h a)) := by
  obtain ⟨hC, hB⟩ := sound_run hr
  obtain ⟨l, hl⟩ := hC.chain
  cases l with
  | nil => cases hl
  | cons b l =>
    obtain rfl : head = b := Option.some.inj hl.1
    have hnd := List.nodup_cons.mp hl.nodup
    have hmem : ∀ a, a ∈ l ↔ a ∈ chainOf c.shared ∧ a ≠ head := by
      intro a
      rw [chainOf, nodes_eq hl, List.mem_cons]
      refine ⟨fun ha => ⟨.inr ha, fun e => hnd.1 (e ▸ ha)⟩, fun ha => ha.1.resolve_left ha.2⟩
    have hlost : ∀ a ∈ l, LostUnlink h a ↔ c.shared.marked a = true := by
      refine fun a ha => ⟨hB.marked a, fun hm => (hB.left a ((hmem a).mp ha).1 hm).resolve_left ?_⟩
      rintro ⟨t, pred, next, hpc⟩
      rw [hidle t] at hpc
      cases hpc
    have hdata : ∀ a ∈ l, c.shared.data a ≠ none :=
      fun a ha => hB.data a ((hmem a).mp ha).1 ((hmem a).mp ha).2
    obtain ⟨⟨xs, hxs, hvisit⟩, helem⟩ := forEach_elements hl hB.head_data
    have hempty : isEmpty c.shared = true ↔ l = [] := by
      rw [isEmpty, hl.2.head_eq]
      cases l <;> simp
    refine ⟨l.length, xs, hxs, ?_⟩
    have hex : ∀ p : ℕ → Prop, (∃ a ∈ chainOf c.shared, a ≠ head ∧ p a) ↔ ∃ a ∈ l, p a := by
      intro p
      simp only [hmem, and_assoc]
    rw [hex, hex, hempty, helem, and_iff_left (helem.symm.trans hvisit)]
    constructor
    · rintro he ⟨a, ha, hla⟩
      by_contra hno
      have hnil := he.mpr fun b hb hbm => by
        by_contra
        refine hno ⟨b, hb, fun hlb => ?_⟩
        rw [(hlost b hb).mp hlb] at hbm
        cases hbm
      rw [hnil] at ha
      cases ha
    · intro hcond
      refine ⟨fun e => by simp [e], fun he => ?_⟩
      by_contra hne
      have hall : ∀ a ∈ l, LostUnlink h a := by
        intro a ha
        refine (hlost a ha).mpr ?_
        by_contra hm
        exact hdata a ha (he a ha (by simpa using hm))
      obtain ⟨a, ha⟩ := List.exists_mem_of_ne_nil l hne
      obtain ⟨b, hb, hbl⟩ := hcond ⟨a, ha, hall a ha⟩
      exact hbl (hall b hb)
end

/-- 5 is in the list; an `insert(3)` has found its place behind `head_`; an `erase(5)` marks its
victim; 3 is linked in, so that `erase(5)` loses its unlink, and both return. -/
def lostUnlink : List (Bool × Choice ℕ) :=
  [turn false (.call (.insert 5)) 3, turn false (.alloc 1) 11,
    turn true (.call (.insert 3)) 3, turn true (.alloc 2) 8, turn false (.call (.erase 5)) 16,
    turn true .run 6, turn false .run 6].flatten

/-- An `erase` has lost its unlink, but an element stands before its node. -/
theorem empty_exact_left :
    ∃ (h : List (Step Bool ℕ)) (c : Config Bool (Shared Bool ℕ) (Local ℕ)),
      Sound 0 h c ∧ chainOf c.shared = [head, 2, 1] ∧ LostUnlink h 1 ∧ ∃ n xs,
        forEach c.shared n (c.shared.next head) = some xs ∧
        (isEmpty c.shared = true ↔ elements c.shared = ∅) ∧ (elements c.shared = ∅ ↔ xs = []) := by
  have he : ((program.exec allocatesFresh (initial 0) lostUnlink).any fun c =>
      c.shared.next head = some 2 ∧ c.shared.next 2 = some 1 ∧ c.shared.next 1 = none ∧
        c.shared.marked 1 = true ∧ c.shared.marked 2 = false ∧
        ∀ t, (c.loc t).pc = .idle) = true := by
    decide
  obtain ⟨c, hc, hd⟩ := (Option.any_eq_true _ _).mp he
  obtain ⟨h0, h2, h1, hm1, hm2, hidle⟩ := of_decide_eq_true hd
  obtain ⟨h, hr⟩ := Program.exec_run NoReuse (fun h c t k c' _ hk a ha => by
    subst ha; simpa [allocatesFresh] using hk) hc
  have hs : Sound 0 h c := .inl hr
  have hchain : chainOf c.shared = [head, 2, 1] :=
    nodes_eq (show Linked c.shared.next (some head) [head, 2, 1] from ⟨rfl, h0, h2, h1⟩)
  have hB := (sound_run hs).2
  have hlost : LostUnlink h 1 := by
    refine (hB.left 1 (by rw [hchain]; decide) hm1).resolve_left ?_
    rintro ⟨t, pred, next, hpc⟩
    rw [hidle t] at hpc
    cases hpc
  obtain ⟨n, xs, hxs, hiff⟩ := empty_exact hs hidle
  refine ⟨h, c, hs, hchain, hlost, n, xs, hxs,
    hiff.mpr fun _ => ⟨2, by rw [hchain]; decide, by decide, ?_⟩⟩
  -- the node of 3 is not marked, so no `erase` has left it
  intro hl
  have hma := hB.marked 2 hl
  rw [hm2] at hma
  cases hma

/-- The run of `empty_with_marked_left`: after that, `erase(3)` finds and unlinks its node without
coming to the one behind. -/
def leftMarked : List (Bool × Choice ℕ) := lostUnlink ++ turn false (.call (.erase 3)) 24

/-- Both elements are erased and all operations have returned, but `empty` sees the marked node. -/
theorem empty_with_marked_left :
    ¬ ∀ (h : List (Step Bool ℕ)) (c : Config Bool (Shared Bool ℕ) (Local ℕ)),
      Sound 0 h c → (∀ t, (c.loc t).pc = .idle) →
        (isEmpty c.shared = true ↔ elements c.shared = ∅) := by
  intro hall
  have he : ((program.exec allocatesFresh (initial 0) leftMarked).any fun c =>
      c.shared.next head = some 1 ∧ c.shared.next 1 = none ∧ c.shared.marked 1 = true ∧
        ∀ t, (c.loc t).pc = .idle) = true := by
    decide
  obtain ⟨c, hc, hd⟩ := (Option.any_eq_true _ _).mp he
  obtain ⟨hn, hn', hm, hidle⟩ := of_decide_eq_true hd
  obtain ⟨h, hr⟩ := Program.exec_run NoReuse (fun h c t k c' _ hk a ha => by
    subst ha; simpa [allocatesFresh] using hk) hc
  have hl : Linked c.shared.next (some head) [head, 1] := ⟨rfl, hn, hn'⟩
  have hempty : elements c.shared = ∅ := by
    refine (forEach_elements hl (sound_run (.inl hr)).2.head_data).2.mpr fun a ha hma => ?_
    obtain rfl := List.mem_singleton.mp ha
    rw [hm] at hma
    cases hma
  have := (hall h c (.inl hr) hidle).mpr hempty
  rw [isEmpty, hn] at this
  cases this

end Bonostl.LockfreeList
