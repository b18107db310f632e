import Bonostl.HarrisMichael.Traverse
import Bonostl.Interleaving.Linearizable
import Bonostl.LockfreeList.Model

/-!
# `lockfree_list` is a sorted set

Runs in which `new` returns no address twice. `elements` is the abstract set, the elements of the
live nodes; two elements are the same when neither is less than the other. An `insert` takes effect
when its node is linked in, an `erase` when it marks its victim, and every operation that changes
nothing at an instant of its own that the search knows (`HarrisMichael.Edge`, `HarrisMichael.Seen`),
which may lie before the step that returns the result.
-/

namespace Bonostl.LockfreeList

open Interleaving HazardPtr HarrisMichael Chain

variable {ι T : Type} [LT T]

/-- The sentinel stands before every element. -/
def below : Option T → Option T → Prop
  | none, some _ => True
  | some x, some y => x < y
  | _, none => False

instance [IsTrans T (· < ·)] : IsTrans (Option T) below where
  trans a b c hab hbc := by
    cases a <;> cases b <;> cases c <;> simp_all only [below]
    exact IsTrans.trans (r := (· < ·)) _ _ _ hab hbc

/-- Neither is less than the other. -/
def Same (x y : T) : Prop := ¬ x < y ∧ ¬ y < x

/-- The elements of the live nodes. -/
def elements (s : Shared ι T) : Set T := {x | some x ∈ live head s}

/-- The sequential sorted set. An operation that gets no slot throws and changes nothing. -/
inductive SetSpec : Set T → Op T → Res → Set T → Prop
  | insert (A : Set T) (v : T) (h : ∀ x ∈ A, ¬ Same x v) :
      SetSpec A (.insert v) (.bool true) (insert v A)
  | insertPresent (A : Set T) (v : T) (h : ∃ x ∈ A, Same x v) :
      SetSpec A (.insert v) (.bool false) A
  | erase (A : Set T) (v : T) (h : ∃ x ∈ A, Same x v) :
      SetSpec A (.erase v) (.bool true) {x ∈ A | ¬ Same x v}
  | eraseAbsent (A : Set T) (v : T) (h : ∀ x ∈ A, ¬ Same x v) :
      SetSpec A (.erase v) (.bool false) A
  | contains (A : Set T) (v : T) (h : ∃ x ∈ A, Same x v) :
      SetSpec A (.contains v) (.bool true) A
  | containsNot (A : Set T) (v : T) (h : ∀ x ∈ A, ¬ Same x v) :
      SetSpec A (.contains v) (.bool false) A
  | throws (A : Set T) (o : Op T) : SetSpec A o .noHazardPointers A

namespace Pc

omit [LT T] in
/-- How far a thread's operation has come. -/
def status : Pc T → Status (Op T) Res
  | .idle | .elsewhere _ => .idle
  | .claim o _ => .called o
  | .new v | .find (.insert _ v) _ | .setNext _ v _ _ | .link _ v _ _ => .called (.insert v)
  | .find (.erase v) _ | .loadNext v _ _ | .mark v _ _ _ => .called (.erase v)
  | .find (.contains v) _ => .called (.contains v)
  | .deleteNew _ => .done (.bool false)
  | .unlink _ _ _ => .done (.bool true)
  | .reclaim r _ | .destroy r | .disown r | .done r => .done r

omit [LT T] in
/-- The node a thread has made and not linked in, with its element. -/
def newNode : Pc T → Option (ℕ × T)
  | .find (.insert n v) _ | .setNext n v _ _ | .link n v _ _ => some (n, v)
  | _ => none

omit [LT T] in
/-- The node that is linked in by a step from one place to another. -/
def links : Pc T → Pc T → Option ℕ
  | .link n _ _ _, .destroy _ => some n
  | _, _ => none

/-- What a thread knows at each place; `D` are the instants of its operation. -/
def Knows [DecidableLT T] (linked : ℕ → Prop) (s : Shared ι T) (D : Set (Shared ι T)) : Pc T → Prop
  | .find k f => f.place.Knows below head linked s D (LockfreeList.find k.value)
      fun d => below d (some k.value)
  | .setNext _ v pred curr | .link _ v pred curr =>
    Stands linked s (fun d => below d (some v)) pred ∧
      ∀ c, curr = some c → linked c ∧ below (some v) (s.data c)
  | .loadNext v pred curr | .mark v pred curr _ =>
    linked pred ∧ linked curr ∧ ∃ x, s.data curr = some x ∧ Same x v
  | .unlink pred curr next =>
    linked pred ∧ linked curr ∧ s.marked curr = true ∧ s.next curr = next
  | _ => True

end Pc

variable [DecidableLT T]

/-- **The invariant**: `linked` are the nodes ever linked in, `D t` the instants of `t`'s
operation. -/
structure Inv (linked : ℕ → Prop) (s : Shared ι T) (f : ι → Local T)
    (D : ι → Set (Shared ι T)) : Prop where
  chain : ∃ l, MarkedChain below head linked l s.next s.marked s.data
  head_linked : linked head
  head_data : s.data head = none
  used : ∀ a, linked a → s.used a = true
  marked : ∀ a, s.marked a = true → linked a
  new_linked : ∀ t n v, (f t).pc.newNode = some (n, v) → ¬ linked n ∧ s.used n = true
  new_data : ∀ t n v, (f t).pc.newNode = some (n, v) → s.data n = some v ∧ s.marked n = false
  new_inj : ∀ t u n v w, (f t).pc.newNode = some (n, v) → (f u).pc.newNode = some (n, w) → t = u
  new_next : ∀ t n v pred curr, (f t).pc = .link n v pred curr → s.next n = curr
  knows : ∀ t, (f t).pc.Knows linked s (D t)

variable {linked linked' : ℕ → Prop} {s s' : Shared ι T} {f : ι → Local T}
  {D D' : ι → Set (Shared ι T)} {t : ι} {l' : Local T}

theorem Pc.Knows.mono {E E' : Set (Shared ι T)} {pc : Pc T} (h : pc.Knows linked s E)
    (hg : Grows linked s s') (hl : ∀ a, linked a → linked' a) (hE : E ⊆ E') :
    pc.Knows linked' s' E' := by
  cases pc with
  | find k f => exact Place.Knows.mono h hg hl hE
  | setNext n v pred curr | link n v pred curr =>
    refine ⟨h.1.mono hg hl, fun c hc => ?_⟩
    obtain ⟨h1, h2⟩ := h.2 c hc
    exact ⟨hl c h1, by rw [hg.data c h1]; exact h2⟩
  | loadNext v pred curr | mark v pred curr next =>
    obtain ⟨h1, h2, h3⟩ := h
    exact ⟨hl _ h1, hl _ h2, by rw [hg.data _ h2]; exact h3⟩
  | unlink pred curr next =>
    obtain ⟨h1, h2, h3, h4⟩ := h
    obtain ⟨h5, h6⟩ := hg.frozen curr h2 h3
    exact ⟨hl _ h1, hl _ h2, h5, h6.trans h4⟩
  | _ => trivial

variable [DecidableEq ι]

/-- A step that links nothing in and writes to no node that is not linked in. -/
theorem Inv.keep (h : Inv linked s f D) (hk : Kept linked s s')
    (hchain : ∃ l, MarkedChain below head linked l s'.next s'.marked s'.data)
    (hD : ∀ u, u ≠ t → D u ⊆ D' u)
    (hnew : l'.pc.newNode = (f t).pc.newNode ∨ l'.pc.newNode = none)
    (hlink : ∀ n v pred curr, l'.pc = .link n v pred curr → s'.next n = curr)
    (hkn : l'.pc.Knows linked s' (D' t)) : Inv linked s' (Function.update f t l') D' := by
  have hknows : ∀ u, (Function.update f t l' u).pc.Knows linked s' (D' u) := by
    intro u
    by_cases hut : u = t
    · subst hut; simpa using hkn
    · simpa [hut] using (h.knows u).mono hk.grows (fun _ ha => ha) (hD u hut)
  obtain ⟨h1, h2, h2', h3, h3', h4, h5, h6, h7, h8⟩ := h
  obtain ⟨k1, k2, k3, k4, k5⟩ := hk
  have hnn : ∀ u n v pred curr, (f u).pc = .link n v pred curr → (f u).pc.newNode = some (n, v) :=
    fun u n v pred curr e => by rw [e]; rfl
  refine ⟨hchain, h2, ?_, ?_, ?_, ?_, ?_, ?_, ?_, hknows⟩ <;> grind

/-- `new node(value)` at an address that was never used. -/
theorem Inv.new (h : Inv linked s f D) {i : List ℕ} {v : T} {a : ℕ} (ha : s.used a = false)
    (hD : ∀ u, u ≠ t → D u ⊆ D' u) :
    Inv linked (s.alloc a (some v)) (Function.update f t ⟨i, search (.insert a v) i⟩) D' ∧
      Grows linked s (s.alloc a (some v)) := by
  have hal : ¬ linked a := fun hl => by rw [h.used a hl] at ha; cases ha
  have hne : ∀ b, linked b → b ≠ a := by rintro b hb rfl; exact hal hb
  have hg : Grows linked s (s.alloc a (some v)) :=
    ⟨fun b hb => Function.update_of_ne (hne b hb) _ _, fun b hb hm =>
      ⟨(Function.update_of_ne (hne b hb) _ _).trans hm, Function.update_of_ne (hne b hb) _ _⟩⟩
  have hknows : ∀ u, (Function.update f t ⟨i, search (.insert a v) i⟩ u).pc.Knows linked
      (s.alloc a (some v)) (D' u) := by
    intro u
    by_cases hut : u = t
    · subst hut; simp only [Function.update_self]; trivial
    · simpa [hut] using (h.knows u).mono hg (fun _ ha => ha) (hD u hut)
  obtain ⟨l, hc⟩ := h.chain
  have hchain : MarkedChain below head linked l (s.alloc a (some v)).next
      (s.alloc a (some v)).marked (s.alloc a (some v)).data :=
    hc.frame h.head_linked (fun b hb => Function.update_of_ne (hne b hb) _ _)
      (fun b hb => Function.update_of_ne (hne b hb) _ _)
      (fun b hb => Function.update_of_ne (hne b hb) _ _)
  have hnn : ∀ u n v pred curr, (f u).pc = .link n v pred curr → (f u).pc.newNode = some (n, v) :=
    fun u n v pred curr e => by rw [e]; rfl
  obtain ⟨h1, h2, h2', h3, h3', h4, h5, h6, h7, h8⟩ := h
  refine ⟨⟨⟨l, hchain⟩, h2, ?_, ?_, ?_, ?_, ?_, ?_, ?_, hknows⟩, hg⟩ <;> grind [search, Pc.newNode]

/-- `new_node->next.store(curr)`. -/
theorem Inv.set_next (h : Inv linked s f D) {i : List ℕ} {n pred : ℕ} {v : T} {curr : Option ℕ}
    (hft : f t = ⟨i, .setNext n v pred curr⟩) (hD : ∀ u, D u ⊆ D' u) :
    Inv linked (s.setNext n curr) (Function.update f t ⟨i, .link n v pred curr⟩) D' ∧
      Grows linked s (s.setNext n curr) := by
  obtain ⟨hnl, -⟩ := h.new_linked t n v (by rw [hft]; rfl)
  have hne : ∀ b, linked b → b ≠ n := by rintro b hb rfl; exact hnl hb
  have hg : Grows linked s (s.setNext n curr) :=
    ⟨fun b hb => rfl, fun b hb hm =>
      ⟨(Function.update_of_ne (hne b hb) _ _).trans hm, Function.update_of_ne (hne b hb) _ _⟩⟩
  have hknows : ∀ u, (Function.update f t ⟨i, .link n v pred curr⟩ u).pc.Knows linked
      (s.setNext n curr) (D' u) := by
    intro u
    by_cases hut : u = t
    · subst hut
      have hk := (h.knows u).mono hg (fun _ ha => ha) (hD u)
      rw [hft] at hk
      rw [Function.update_self]
      exact hk
    · simpa [hut] using (h.knows u).mono hg (fun _ ha => ha) (hD u)
  obtain ⟨l, hc⟩ := h.chain
  have hchain : MarkedChain below head linked l (s.setNext n curr).next
      (s.setNext n curr).marked (s.setNext n curr).data :=
    hc.frame h.head_linked (fun b hb => Function.update_of_ne (hne b hb) _ _)
      (fun b hb => Function.update_of_ne (hne b hb) _ _) (fun b hb => rfl)
  have hnn : ∀ u n v pred curr, (f u).pc = .link n v pred curr → (f u).pc.newNode = some (n, v) :=
    fun u n v pred curr e => by rw [e]; rfl
  have hft' : (f t).pc.newNode = some (n, v) := by rw [hft]; rfl
  refine ⟨?_, hg⟩
  obtain ⟨h1, h2, h2', h3, h3', h4, h5, h6, h7, h8⟩ := h
  refine ⟨⟨l, hchain⟩, h2, ?_, ?_, ?_, ?_, ?_, ?_, ?_, hknows⟩ <;>
    grind [Pc.newNode]

/-- The compare-exchange of `insert` succeeds. -/
theorem Inv.link (h : Inv linked s f D) {i : List ℕ} {n pred : ℕ} {v : T} {curr : Option ℕ}
    (hft : f t = ⟨i, .link n v pred curr⟩) (hn : s.next pred = curr) (hm : s.marked pred = false)
    (hD : ∀ u, u ≠ t → D u ⊆ D' u) :
    Inv (fun x => x = n ∨ linked x) { s with next := Function.update s.next pred (some n) }
      (Function.update f t ⟨i, .destroy (.bool true)⟩) D' ∧
    ∀ d, d ∈ live head { s with next := Function.update s.next pred (some n) } ↔
      d = some v ∨ d ∈ live head s := by
  have hmine : (f t).pc.newNode = some (n, v) := by rw [hft]; rfl
  obtain ⟨hnl, hnu⟩ := h.new_linked t n v hmine
  obtain ⟨hnd, hnm⟩ := h.new_data t n v hmine
  have hnn := h.new_next t n v pred curr (by rw [hft])
  have hk := h.knows t
  rw [hft] at hk
  obtain ⟨⟨hpl, hpB⟩, hcurr⟩ := hk
  obtain ⟨l, hc⟩ := h.chain
  obtain ⟨l', hc', hmem⟩ := hc.insert hpl hm hnl (hnn.trans hn.symm) (by rw [hnd]; exact hpB)
    fun b hb => by rw [hnd]; exact (hcurr b (hn.symm.trans hb)).2
  refine ⟨?_, ?_⟩
  · have hg : Grows linked s { s with next := Function.update s.next pred (some n) } :=
      (kept_unlink hpl hm).grows
    have hknows : ∀ u, (Function.update f t ⟨i, .destroy (.bool true)⟩ u).pc.Knows
        (fun x => x = n ∨ linked x) { s with next := Function.update s.next pred (some n) }
        (D' u) := by
      intro u
      by_cases hut : u = t
      · subst hut; simp [Pc.Knows]
      · simpa [hut] using (h.knows u).mono hg (fun _ ha => .inr ha) (hD u hut)
    have hlk : ∀ u n v pred curr, (f u).pc = .link n v pred curr →
        (f u).pc.newNode = some (n, v) := fun u n v pred curr e => by rw [e]; rfl
    obtain ⟨h1, h2, h2', h3, h3', h4, h5, h6, h7, h8⟩ := h
    refine ⟨⟨l', hc'⟩, .inr h2, h2', ?_, ?_, ?_, ?_, ?_, ?_, hknows⟩ <;> grind [Pc.newNode]
  · intro d
    rw [mem_live hc, mem_live (m := { s with next := Function.update s.next pred (some n) }) hc']
    constructor
    · rintro ⟨a, ha, ham, rfl⟩
      rcases (hmem a).mp ha with rfl | ha
      · exact .inl hnd
      · exact .inr ⟨a, ha, ham, rfl⟩
    · rintro (rfl | ⟨a, ha, ham, rfl⟩)
      · exact ⟨n, (hmem n).mpr (.inl rfl), hnm, hnd⟩
      · exact ⟨a, (hmem a).mpr (.inr ha), ham, rfl⟩

/-- The compare-exchange of `erase` succeeds. -/
theorem Inv.mark (h : Inv linked s f D) {i : List ℕ} {pred curr : ℕ} {v : T} {next : Option ℕ}
    (hft : f t = ⟨i, .mark v pred curr next⟩) (hn : s.next curr = next)
    (hD : ∀ u, u ≠ t → D u ⊆ D' u) (hh : curr ≠ head) :
    Inv linked { s with marked := Function.update s.marked curr true }
      (Function.update f t ⟨i, .unlink pred curr next⟩) D' ∧
    Grows linked s { s with marked := Function.update s.marked curr true } := by
  have hk := h.knows t
  rw [hft] at hk
  obtain ⟨hpl, hcl, -⟩ := hk
  have hg : Grows linked s { s with marked := Function.update s.marked curr true } := by
    refine ⟨fun _ _ => rfl, fun a ha ham => ⟨?_, rfl⟩⟩
    by_cases hac : a = curr
    · subst hac; simp
    · simpa [hac] using ham
  have hknows : ∀ u, (Function.update f t ⟨i, .unlink pred curr next⟩ u).pc.Knows linked
      { s with marked := Function.update s.marked curr true } (D' u) := by
    intro u
    by_cases hut : u = t
    · subst hut
      simpa [Pc.Knows] using ⟨hpl, hcl, hn⟩
    · simpa [hut] using (h.knows u).mono hg (fun _ ha => ha) (hD u hut)
  obtain ⟨l, hc⟩ := h.chain
  refine ⟨?_, hg⟩
  obtain ⟨h1, h2, h2', h3, h3', h4, h5, h6, h7, h8⟩ := h
  refine ⟨⟨l, hc.mark hh⟩, h2, h2', ?_, ?_, ?_, ?_, ?_, ?_, hknows⟩ <;> grind [Pc.newNode]

theorem precedes_below {key : T} {d : Option T} (h : precedes key d = true) :
    below d (some key) := by
  cases d with
  | none => trivial
  | some x => exact (of_decide_eq_true h : x < key)

/-- What the comparisons of a search say of the node it stopped at. -/
theorem stopped {key : T} {d : Option T} (h : precedes key d = false) :
    ∃ x, d = some x ∧ ¬ x < key ∧ (equals key d = true ↔ ¬ key < x) := by
  cases d with
  | none => cases h
  | some x =>
    have hx : ¬ x < key := of_decide_eq_false h
    exact ⟨x, rfl, hx, by simp [equals, hx]⟩

omit [DecidableEq ι] in
/-- What a search knows at its end is what its operation goes on with. -/
theorem resume_knows {k : Task T} {found : Bool} {pred : ℕ}
    {curr : Option ℕ} {E E' : Set (Shared ι T)}
    (hk : (Place.result found pred curr).Knows below head linked s E (LockfreeList.find k.value)
      fun d => below d (some k.value)) : (k.resume found pred curr).Knows linked s E' := by
  obtain ⟨hs, -, -, hc⟩ := hk
  cases k with
  | insert n v =>
    cases found with
    | true => trivial
    | false =>
      refine ⟨hs, fun c hcc => ?_⟩
      obtain ⟨hl, ha, hf, -⟩ := hc c hcc
      obtain ⟨x, hx, -, heq⟩ := stopped ha
      refine ⟨hl, ?_⟩
      rw [hx]
      by_contra hlt
      exact absurd (hf.trans (heq.mpr hlt)) (by simp)
  | erase v =>
    cases found with
    | false => cases curr <;> trivial
    | true =>
      cases curr with
      | none => trivial
      | some c =>
        obtain ⟨hl, ha, hf, -⟩ := hc c rfl
        obtain ⟨x, hx, hnx, heq⟩ := stopped ha
        exact ⟨hs.1, hl, x, hx, hnx, heq.mp hf.symm⟩
  | contains v => trivial

/-- After a step: the invariant, with the node the step linked in, and what it did not undo. -/
def Moved (linked : ℕ → Prop) (s : Shared ι T) (f : ι → Local T) (D' : ι → Set (Shared ι T)) (t : ι)
    (s' : Shared ι T) (l' : Local T) : Prop :=
  Inv (fun x => (f t).pc.links l'.pc = some x ∨ linked x) s' (Function.update f t l') D' ∧
    Grows linked s s'

theorem Moved.same (hlk : (f t).pc.links l'.pc = none)
    (h : Inv linked s' (Function.update f t l') D') (hg : Grows linked s s') :
    Moved linked s f D' t s' l' := by
  refine ⟨?_, hg⟩
  have hsame : (fun x => (f t).pc.links l'.pc = some x ∨ linked x) = linked := by
    funext x; simp [hlk]
  rw [hsame]
  exact h

/-- A step outside the chain. -/
theorem Inv.goto (h : Inv linked s f D) {i i' : List ℕ} {pc pc' : Pc T} (hft : f t = ⟨i, pc⟩)
    (hD : ∀ u, u ≠ t → D u ⊆ D' u) (hkn : pc'.Knows linked s' (D' t))
    (hn : s'.next = s.next := by rfl) (hm : s'.marked = s.marked := by rfl)
    (hd : s'.data = s.data := by rfl) (hu : s'.used = s.used := by rfl)
    (hnew : pc'.newNode = pc.newNode ∨ pc'.newNode = none := by
      first | exact .inl rfl | exact .inr rfl)
    (hlink : ∀ n v pred curr, pc' ≠ .link n v pred curr := by nofun)
    (hlk : pc.links pc' = none := by rfl) : Moved linked s f D' t s' ⟨i', pc'⟩ := by
  have hk : Kept linked s s' := .of_eq hd hm hn hu
  refine .same (by rw [hft]; exact hlk)
    (h.keep hk ?_ hD ?_ (fun n v pred curr e => ?_) hkn) hk.grows
  · rw [hn, hm, hd]; exact h.chain
  · rw [hft]; exact hnew
  · exact absurd e (hlink n v pred curr)

theorem inv_move [IsTrans T (· < ·)] (h : Inv linked s f D) {ch : Choice T} {ev : Event (Op T) Res}
    (hmv : Move t s ch ev (f t) s' l') (hch : ∀ a, ch = .alloc a → s.used a = false)
    (hD : ∀ u, u ≠ t → D u ⊆ D' u) (hDt : (∀ o, ev ≠ .call o) → D t ⊆ D' t) (hnow : s' ∈ D' t) :
    Moved linked s f D' t s' l' := by
  have hkn := h.knows t
  have hkept : Kept linked s s := .of_eq rfl rfl rfl rfl
  generalize hft : f t = lt at hmv
  rw [hft] at hkn
  cases hmv with
  | elsewhere i => exact h.goto hft hD trivial
  | call i o => exact h.goto hft hD trivial
  | claim o i slots hi hid =>
    refine h.goto hft hD ?_ rfl rfl rfl rfl (.inr ?_) ?_ ?_
    · split
      · trivial
      · cases o <;> trivial
    · split
      · rfl
      · cases o <;> rfl
    · split
      · nofun
      · cases o <;> nofun
    · rfl
  | claimNext o i slots => exact h.goto hft hD trivial
  | claimNone o i slots => exact h.goto hft hD trivial
  | destroyed r => exact h.goto hft hD trivial
  | destroy r i slots => exact h.goto hft hD trivial
  | disown r i slots => exact h.goto hft hD trivial
  | find i k f₀ s' f' ch hm =>
    obtain ⟨l, hc⟩ := h.chain
    obtain ⟨hc', -, hk, hkn'⟩ := hm.knows hc hkn h.head_linked hc.head_unmarked
      (by rw [find, h.head_data]; trivial) (fun a _ hd => precedes_below hd) (hDt nofun) hnow
    refine .same (by rw [hft]; rfl) (h.keep hk hc' hD (.inl ?_) nofun hkn') hk.grows
    rw [hft]
    cases k <;> rfl
  | resume i k p c found pred curr =>
    refine h.goto hft hD ?_ rfl rfl rfl rfl ?_ ?_ rfl
    · exact resume_knows hkn
    · cases k with
      | insert n v => cases found <;> simp [Task.resume, Pc.newNode]
      | erase v => right; cases found <;> cases curr <;> rfl
      | contains v => exact .inr rfl
    · cases k with
      | insert n v => cases found <;> nofun
      | erase v => cases found <;> cases curr <;> nofun
      | contains v => nofun
  | new i v a ha =>
    obtain ⟨hI, hg⟩ := h.new (hch a rfl) hD
    exact .same (by rw [hft]; rfl) hI hg
  | setNext i n v pred curr =>
    have hDD : ∀ u, D u ⊆ D' u := fun u => by
      by_cases hut : u = t
      · subst hut; exact hDt nofun
      · exact hD u hut
    obtain ⟨hI, hg⟩ := h.set_next hft hDD
    exact .same (by rw [hft]; rfl) hI hg
  | link i n v pred curr hn hm =>
    have hlk : (f t).pc.links (.destroy (.bool true)) = some n := by rw [hft]; rfl
    have heq : (fun x => (f t).pc.links (.destroy (.bool true)) = some x ∨ linked x) =
        fun x => x = n ∨ linked x := by
      funext x; simp [hlk, eq_comm]
    refine ⟨?_, (kept_unlink hkn.1.1 hm).grows⟩
    rw [heq]
    exact (h.link hft hn hm hD).1
  | linkFail i n v pred curr => exact h.goto hft hD trivial
  | deleteNew i n => exact h.goto hft hD trivial
  | loadNext i v pred curr => exact h.goto hft hD hkn
  | mark i v pred curr next hn hm =>
    have hne : curr ≠ head := by
      rintro rfl
      obtain ⟨-, -, x, hx, -⟩ := hkn
      rw [h.head_data] at hx
      cases hx
    obtain ⟨hI, hg⟩ := h.mark hft hn hD hne
    exact .same (by rw [hft]; rfl) hI hg
  | markFail i v pred curr next => exact h.goto hft hD trivial
  | unlink i pred curr next hn hm =>
    obtain ⟨h1, h2, h3, rfl⟩ := hkn
    obtain ⟨l, hc⟩ := h.chain
    obtain ⟨l', hc', -⟩ := unlink_live hc h1 hn hm h3
    have hk := kept_unlink (p := s.next curr) h1 hm
    exact .same (by rw [hft]; rfl) (h.keep hk ⟨l', hc'⟩ hD (.inr rfl) nofun trivial) hk.grows
  | unlinkFail i pred curr next => exact h.goto hft hD trivial
  | reclaim i res r sp hz r' freed ch hs =>
    obtain ⟨e1, e2, e3, e4⟩ := free_eq { s with hazard := hz } freed
    exact h.goto hft hD trivial e1 e2 e3 e4
  | reclaimed i res => exact h.goto hft hD trivial
  | sweep i r sp hz r' freed ch hs =>
    obtain ⟨e1, e2, e3, e4⟩ := free_eq { s with hazard := hz } freed
    exact h.goto hft hD trivial e1 e2 e3 e4
  | swept i => exact h.goto hft hD trivial
  | ret i r => exact h.goto hft hD trivial

/-! ## Effects -/

omit [DecidableEq ι] [DecidableLT T] in
/-- Nothing between two elements that enclose `v` is nothing the same as `v`. -/
theorem gap_absent [IsTrans T (· < ·)] {S : Shared ι T} {p : Option T} {b : Option (Option T)}
    {v : T}
    (hgap : Gap below (live head S) p b) (hp : below p (some v))
    (hb : ∀ d, b = some d → below (some v) d) : ∀ x ∈ elements S, ¬ Same x v := by
  intro x hx hsame
  rcases hgap _ hx with hxp | hxp | ⟨d, hd, hxd⟩
  · rw [← hxp] at hp
    exact hsame.1 hp
  · have hlt : below (some x) (some v) := IsTrans.trans _ _ _ hxp hp
    exact hsame.1 hlt
  · have hvd := hb d hd
    rcases hxd with rfl | hxd
    · exact hsame.2 hvd
    · have hlt : below (some v) (some x) := IsTrans.trans _ _ _ hvd hxd
      exact hsame.2 hlt

section
variable {E : Set (Shared ι T)} {k : Task T} {found : Bool} {pred : ℕ} {curr : Option ℕ}
  (hk : (Place.result found pred curr).Knows below head linked s E (LockfreeList.find k.value)
    fun d => below d (some k.value))
include hk

omit [DecidableEq ι] in
/-- A search that reports false: at some instant of it no element was the same. -/
theorem absent [IsTrans T (· < ·)] (hf : found = false) :
    ∃ S ∈ E, ∀ x ∈ elements S, ¬ Same x k.value := by
  obtain ⟨⟨-, hB⟩, ⟨S, hS, hgap⟩, -, hc⟩ := hk
  refine ⟨S, hS, gap_absent hgap hB fun d hd => ?_⟩
  cases curr with
  | none => cases hd
  | some c =>
    obtain ⟨-, ha, hfc, -⟩ := hc c rfl
    obtain ⟨y, hy, -, heq⟩ := stopped ha
    obtain rfl : s.data c = d := Option.some.inj hd
    rw [hy]
    by_contra hlt
    rw [hf] at hfc
    exact absurd (hfc.trans (heq.mpr hlt)) (by simp)

omit [DecidableEq ι] in
/-- A search that reports true: at some instant of it the element was there. -/
theorem present (hf : found = true) : ∃ S ∈ E, ∃ x ∈ elements S, Same x k.value := by
  obtain ⟨-, -, hnone, hc⟩ := hk
  cases curr with
  | none => exact absurd (hf.symm.trans (hnone rfl)) (by simp)
  | some c =>
    obtain ⟨-, ha, hfc, S, hS, hmem, hm, hd⟩ := hc c rfl
    obtain ⟨y, hy, hny, heq⟩ := stopped ha
    exact ⟨S, hS, y, ⟨c, hmem, hm, hd.trans hy⟩, hny, heq.mp (hfc.symm.trans hf)⟩
end

omit [DecidableEq ι] [DecidableLT T] in
theorem Same.trans [IsStrictWeakOrder T (· < ·)] {x y z : T} (hxy : Same x y) (hyz : Same y z) :
    Same x z :=
  IsStrictWeakOrder.incomp_trans x y z hxy hyz

omit [DecidableEq ι] [DecidableLT T] in
theorem Same.symm {x y : T} (h : Same x y) : Same y x := ⟨h.2, h.1⟩

omit [DecidableEq ι] in
/-- Marking takes exactly the searched element out of the set. -/
theorem elements_mark [IsStrictWeakOrder T (· < ·)] (h : Inv linked s f D) {curr : ℕ} {x v : T}
    (hl : linked curr) (hm : s.marked curr = false) (hx : s.data curr = some x) (hv : Same x v) :
    elements { s with marked := Function.update s.marked curr true } =
      {y ∈ elements s | ¬ Same y v} := by
  obtain ⟨l, hc⟩ := h.chain
  have hcl := hc.unmarked curr hl hm
  have hne : curr ≠ head := by rintro rfl; rw [h.head_data] at hx; cases hx
  ext y
  simp only [elements, Set.mem_ofPred_eq]
  rw [mem_live hc, mem_live (m := { s with marked := Function.update s.marked curr true })
    (hc.mark hne)]
  constructor
  · rintro ⟨a, ha, ham, hay⟩
    have hac : a ≠ curr := by rintro rfl; simp at ham
    dsimp only at ham hay
    rw [Function.update_of_ne hac] at ham
    refine ⟨⟨a, ha, ham, hay⟩, fun hsame => ?_⟩
    have hxy := hv.trans ⟨hsame.2, hsame.1⟩
    rcases hc.total ha hcl hac with hlt | hlt
    · rw [hay, hx] at hlt; exact hxy.2 hlt
    · rw [hay, hx] at hlt; exact hxy.1 hlt
  · rintro ⟨⟨a, ha, ham, hay⟩, hns⟩
    refine ⟨a, ha, ?_, hay⟩
    have hac : a ≠ curr := by
      rintro rfl
      rw [hx] at hay
      cases hay
      exact hns hv
    simpa [hac] using ham

section
variable {h : List (Step ι T)} {c : Config ι (Shared ι T) (Local T)}

/-- A search has ended: the operations that change nothing take effect, at the instant their
search knows. -/
theorem linear_resume [IsTrans T (· < ·)]
    (hL : LinearizedBy SetSpec elements (fun _ (l : Local T) => l.pc.status) h c)
    {i : List ℕ} {k : Task T} {f₀ : Find} {found : Bool} {pred : ℕ} {curr : Option ℕ}
    (hft : c.loc t = ⟨i, .find k f₀⟩)
    (hk : (Place.result found pred curr).Knows below head linked c.shared (during h t)
      (LockfreeList.find k.value) fun d => below d (some k.value)) :
    LinearizedBy SetSpec elements (fun _ (l : Local T) => l.pc.status)
      (⟨t, .tau, c, c.set t c.shared ⟨i, k.resume found pred curr⟩⟩ :: h)
      (c.set t c.shared ⟨i, k.resume found pred curr⟩) := by
  cases k with
  | insert n v =>
    cases found with
    | false => exact hL.tau (by rw [hft]; rfl) rfl
    | true =>
      obtain ⟨S, hS, hx⟩ := present hk rfl
      exact hL.read hS (.insertPresent _ v hx) (by rw [hft]; rfl) rfl rfl
  | erase v =>
    cases found with
    | false =>
      obtain ⟨S, hS, hx⟩ := absent hk rfl
      exact hL.read hS (.eraseAbsent _ v hx) (by rw [hft]; rfl) rfl rfl
    | true =>
      cases curr with
      | none => exact absurd (hk.2.2.1 rfl) (by simp)
      | some c => exact hL.tau (by rw [hft]; rfl) rfl
  | contains v =>
    cases found with
    | false =>
      obtain ⟨S, hS, hx⟩ := absent hk rfl
      exact hL.read hS (.containsNot _ v hx) (by rw [hft]; rfl) rfl rfl
    | true =>
      obtain ⟨S, hS, hx⟩ := present hk rfl
      exact hL.read hS (.contains _ v hx) (by rw [hft]; rfl) rfl rfl

omit [DecidableEq ι] [LT T] [DecidableLT T] in
theorem elements_congr [LT T] (h : live head s' = live head s) : elements s' = elements s := by
  rw [elements, elements, h]

theorem linear_move [IsStrictWeakOrder T (· < ·)] (hI : Inv linked c.shared c.loc (during h))
    {ch : Choice T} {ev : Event (Op T) Res} (hmv : Move t c.shared ch ev (c.loc t) s' l')
    (hch : ∀ a, ch = .alloc a → c.shared.used a = false)
    (hL : LinearizedBy SetSpec elements (fun _ (l : Local T) => l.pc.status) h c) :
    LinearizedBy SetSpec elements (fun _ (l : Local T) => l.pc.status)
      (⟨t, ev, c, c.set t s' l'⟩ :: h) (c.set t s' l') := by
  have hkn := hI.knows t
  generalize hft : c.loc t = lt at hmv
  rw [hft] at hkn
  cases hmv with
  | elsewhere i => exact hL.tau (by rw [hft]; rfl) rfl
  | call i o => exact hL.call (by rw [hft]; rfl) rfl rfl
  | claim o i slots hi hid =>
    refine hL.tau ?_ rfl
    rw [hft]
    dsimp only
    split
    · rfl
    · cases o <;> rfl
  | claimNext o i slots => exact hL.tau (by rw [hft]; rfl) rfl
  | claimNone o i slots => exact hL.commit (by rw [hft]; rfl) rfl (.throws _ o)
  | destroyed r => exact hL.tau (by rw [hft]; rfl) rfl
  | destroy r i slots => exact hL.tau (by rw [hft]; rfl) rfl
  | disown r i slots => exact hL.tau (by rw [hft]; rfl) rfl
  | find i k f₀ s' f' ch hm =>
    obtain ⟨l, hc⟩ := hI.chain
    obtain ⟨-, hlive, -, -⟩ := hm.knows hc hkn hI.head_linked hc.head_unmarked
      (by rw [find, hI.head_data]; trivial) (fun a _ hd => precedes_below hd) (Set.subset_univ _)
      (Set.mem_univ _)
    exact hL.tau (by rw [hft]; cases k <;> rfl) (elements_congr hlive)
  | resume i k p c' found pred curr => exact linear_resume hL hft hkn
  | new i v a ha =>
    obtain ⟨l, hc⟩ := hI.chain
    have hne : ∀ b, linked b → b ≠ a := by
      rintro b hb rfl
      have hu := hI.used b hb
      rw [hch b rfl] at hu
      cases hu
    exact hL.tau (by rw [hft]; rfl) (elements_congr (live_frame hc hI.head_linked
      (fun b hb => Function.update_of_ne (hne b hb) _ _)
      (fun b hb => Function.update_of_ne (hne b hb) _ _)
      (fun b hb => Function.update_of_ne (hne b hb) _ _)))
  | setNext i n v pred curr =>
    obtain ⟨l, hc⟩ := hI.chain
    have hne : ∀ b, linked b → b ≠ n := by
      rintro b hb rfl
      exact (hI.new_linked t b v (by rw [hft]; rfl)).1 hb
    exact hL.tau (by rw [hft]; rfl) (elements_congr (live_frame hc hI.head_linked
      (fun b hb => Function.update_of_ne (hne b hb) _ _)
      (fun b hb => Function.update_of_ne (hne b hb) _ _) (fun b hb => rfl)))
  | link i n v pred curr hn hm =>
    obtain ⟨l, hc⟩ := hI.chain
    obtain ⟨⟨hpl, hpB⟩, hcurr⟩ := hkn
    obtain ⟨-, hlive⟩ := hI.link hft hn hm fun u _ => (subset_rfl : during h u ⊆ during h u)
    refine hL.commit (by rw [hft]; rfl) rfl ?_
    have hel : elements { c.shared with next := Function.update c.shared.next pred (some n) } =
        insert v (elements c.shared) := by
      ext x
      simp only [elements, Set.mem_ofPred_eq, Set.mem_insert_iff, hlive, Option.some.injEq]
    rw [hel]
    refine .insert _ v (gap_absent (gap_now hc hpl hm) hpB fun d hd => ?_)
    obtain ⟨b, hb, rfl⟩ := Option.map_eq_some_iff.mp hd
    exact (hcurr b (hn.symm.trans hb)).2
  | linkFail i n v pred curr => exact hL.tau (by rw [hft]; rfl) rfl
  | deleteNew i n => exact hL.tau (by rw [hft]; rfl) rfl
  | loadNext i v pred curr => exact hL.tau (by rw [hft]; rfl) rfl
  | mark i v pred curr next hn hm =>
    obtain ⟨-, hcl, x, hx, hv⟩ := hkn
    obtain ⟨l, hc⟩ := hI.chain
    refine hL.commit (by rw [hft]; rfl) rfl ?_
    rw [elements_mark hI hcl hm hx hv]
    exact .erase _ v ⟨x, (mem_live hc).mpr ⟨curr, hc.unmarked curr hcl hm, hm, hx⟩, hv⟩
  | markFail i v pred curr next => exact hL.tau (by rw [hft]; rfl) rfl
  | unlink i pred curr next hn hm =>
    obtain ⟨h1, h2, h3, rfl⟩ := hkn
    obtain ⟨l, hc⟩ := hI.chain
    obtain ⟨l', -, hlive⟩ := unlink_live hc h1 hn hm h3
    exact hL.tau (by rw [hft]; rfl) (elements_congr hlive)
  | unlinkFail i pred curr next => exact hL.tau (by rw [hft]; rfl) rfl
  | reclaim i res r sp hz r' freed ch hs =>
    obtain ⟨e1, e2, e3, -⟩ := free_eq { c.shared with hazard := hz } freed
    exact hL.tau (by rw [hft]; rfl) (elements_congr (live_congr e1 e2 e3))
  | reclaimed i res => exact hL.tau (by rw [hft]; rfl) rfl
  | sweep i r sp hz r' freed ch hs =>
    obtain ⟨e1, e2, e3, -⟩ := free_eq { c.shared with hazard := hz } freed
    exact hL.tau (by rw [hft]; rfl) (elements_congr (live_congr e1 e2 e3))
  | swept i => exact hL.tau (by rw [hft]; rfl) rfl
  | ret i r => exact hL.ret (by rw [hft]; rfl) rfl rfl
end

/-! ## Runs -/

omit [LT T] [DecidableLT T] [DecidableEq ι] in
/-- The node a step links in. -/
def insertedNode (r : Step ι T) : Option ℕ :=
  (r.pre.loc r.tid).pc.links (r.cfg.loc r.tid).pc

/-- The nodes that some step has linked in, and the sentinel. -/
def Inserted (h : List (Step ι T)) (a : ℕ) : Prop :=
  a = head ∨ ∃ r ∈ h, insertedNode r = some a

/-- Memory is never reused: `new` returns an address that has not held a node. -/
def NoReuse (_ : List (Step ι T))
    (c : Config ι (Shared ι T) (Local T)) (_ : ι) (k : Choice T) : Prop :=
  ∀ a, k = .alloc a → c.shared.used a = false

instance (x y : T) : Decidable (Same x y) := inferInstanceAs (Decidable (¬ x < y ∧ ¬ y < x))

variable {h : List (Step ι T)} {c : Config ι (Shared ι T) (Local T)} {count : ℕ}

omit [DecidableEq ι] in
theorem inv_initial : Inv (Inserted ([] : List (Step ι T)))
    (initial (ι := ι) (T := T) count).shared (initial (ι := ι) (T := T) count).loc
    (during ([] : List (Step ι T))) := by
  have hc : MarkedChain below head (Inserted ([] : List (Step ι T)))
      [head] (initial (ι := ι) (T := T) count).shared.next
      (initial (ι := ι) (T := T) count).shared.marked
      (initial (ι := ι) (T := T) count).shared.data := by
    refine ⟨⟨rfl, rfl⟩, ?_, nofun, ?_, rfl⟩
    · simp [Inserted]
    · simp [Inserted]
  refine ⟨⟨[head], hc⟩, .inl rfl, rfl, ?_, nofun, nofun, nofun, nofun, nofun, fun _ => trivial⟩
  simp [Inserted, initial]

omit [LT T] [DecidableLT T] [DecidableEq ι] in
theorem inserted_cons (t : ι) (ev : Event (Op T) Res) (c c' : Config ι (Shared ι T) (Local T)) :
    (fun x => (c.loc t).pc.links (c'.loc t).pc = some x ∨ Inserted h x) =
      Inserted (⟨t, ev, c, c'⟩ :: h) := by
  funext x
  simp only [Inserted, insertedNode, List.mem_cons, exists_eq_or_imp]
  exact propext (by tauto)

/-- A step of a run keeps `Inv` and what was marked. -/
theorem inv_step [IsTrans T (· < ·)] {t : ι} {k : Choice T} {ev : Event (Op T) Res}
    {s : Shared ι T} {l : Local T} (hI : Inv (Inserted h) c.shared c.loc (during h))
    (hok : NoReuse h c t k) (hstep : step t k c.shared (c.loc t) = some (ev, s, l)) :
    Inv (Inserted (⟨t, ev, c, c.set t s l⟩ :: h)) s (c.set t s l).loc
      (during (⟨t, ev, c, c.set t s l⟩ :: h)) ∧ Grows (Inserted h) c.shared s := by
  have hD : ∀ u, u ≠ t → during h u ⊆ during (⟨t, ev, c, c.set t s l⟩ :: h) u :=
    fun u hu S hS => mem_during_old (fun e => absurd e hu.symm) hS
  obtain ⟨hI', hg⟩ := inv_move hI (step_move hstep) hok hD
    (fun hev S hS => mem_during_old (fun _ => hev) hS)
    (mem_during_now ⟨t, ev, c, c.set t s l⟩ h)
  rw [← inserted_cons, Config.set_loc_self]
  exact ⟨hI', hg⟩

theorem chain_run [IsTrans T (· < ·)] (hr : program.Run NoReuse (initial count) h c) :
    Inv (Inserted h) c.shared c.loc (during h) :=
  hr.induction (I := fun h c => Inv (Inserted h) c.shared c.loc (during h)) inv_initial
    fun _ _ _ _ _ _ _ _ hI hok hstep => (inv_step hI hok hstep).1

/-- Every run has a linearization, and what was marked stays. -/
theorem inv_run [IsStrictWeakOrder T (· < ·)] (hr : program.Run NoReuse (initial count) h c) :
    LinearizedBy SetSpec elements (fun _ (l : Local T) => l.pc.status) h c ∧
      ∀ r ∈ h, ∀ a, r.cfg.shared.marked a = true →
        c.shared.marked a = true ∧ c.shared.next a = r.cfg.shared.next a := by
  refine Program.Run.induction (I := fun h c =>
    LinearizedBy SetSpec elements (fun _ (l : Local T) => l.pc.status) h c ∧
    ∀ r ∈ h, ∀ a, r.cfg.shared.marked a = true →
      c.shared.marked a = true ∧ c.shared.next a = r.cfg.shared.next a)
    ⟨⟨[], rfl, .nil⟩, by simp⟩ ?_ hr
  rintro h c t k ev s l hrun ⟨hL, hfr⟩ hok hstep
  have hI := chain_run hrun
  obtain ⟨-, hg⟩ := inv_step hI hok hstep
  refine ⟨linear_move hI (step_move hstep) hok hL, fun r hr a ha => ?_⟩
  rcases List.mem_cons.mp hr with rfl | hr
  · exact ⟨ha, rfl⟩
  · obtain ⟨h1, h2⟩ := hfr r hr a ha
    obtain ⟨h3, h4⟩ := hg.frozen a (hI.marked a h1) h1
    exact ⟨h3, h4.trans h2⟩

/-- The check of `NoReuse`: an allocation returns a fresh address. -/
def allocatesFresh (c : Config ι (Shared ι T) (Local T)) (_ : ι) (k : Choice T)
    (_ : Config ι (Shared ι T) (Local T)) : Bool :=
  match k with
  | .alloc a => !c.shared.used a
  | _ => true

end Bonostl.LockfreeList
