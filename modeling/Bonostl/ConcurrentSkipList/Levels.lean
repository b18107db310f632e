import Bonostl.Chain.Reach
import Bonostl.ConcurrentSkipList.Model

/-!
# The levels of `concurrent_skip_list`

Each level is an ordered chain with marked nodes; `L l a` says that node `a` was ever linked in at
level `l`. A node is linked in from the bottom and spliced out from the top, so a level's nodes are
on the level below, too (`Levels.chains`), and a node that is marked had been linked in at all its
levels before. `Levels` are these facts about the shared state, and the lemmas below say which
writes of the threads keep them: `alloc`, `set_next`, `link`, `full`, `mark`, `splice`.

`Grows` is what no step undoes. A traversal may stand on a node that has been marked and spliced out
under it: a node that could be reached from there can still be reached as long as it is on the
level.
-/

namespace Bonostl.ConcurrentSkipList

open Interleaving Chain

variable {ι T : Type}

/-! ## The order -/

section
variable [LT T]

/-- The order of the nodes: `head_`, then the elements, then `tail_`. -/
def below : Data T → Data T → Prop
  | .head, .value _ | .head, .tail | .value _, .tail => True
  | .value x, .value y => x < y
  | _, _ => False

theorem not_tail_below (d : Data T) : ¬ below .tail d := by cases d <;> exact id

theorem below_irrefl [IsStrictOrder T (· < ·)] (d : Data T) : ¬ below d d := by
  cases d with
  | value x => exact irrefl_of (· < ·) x
  | _ => exact id

instance [IsTrans T (· < ·)] : IsTrans (Data T) below where
  trans a b c hab hbc := by
    cases a <;> cases b <;> cases c <;> simp_all only [below]
    exact IsTrans.trans (r := (· < ·)) _ _ _ hab hbc

variable [DecidableLT T] {v : T} {d e : Data T}

theorem precedes_iff : precedes v d = true ↔ below d (.value v) := by
  cases d <;> simp [precedes, below]

/-- A search stops at an equal element or at something behind. -/
theorem above_of_stop (hp : precedes v d = false) (he : equals v d = false) :
    below (.value v) d := by
  cases d with
  | head => cases hp
  | tail => trivial
  | value x =>
    have hx : ¬ x < v := by simpa [precedes] using hp
    have hv : ¬ v < x → x < v := by simpa [equals] using he
    by_contra hlt
    exact hx (hv hlt)

theorem equals_value (he : equals v d = true) : ∃ x, d = .value x ∧ ¬ v < x ∧ ¬ x < v := by
  cases d with
  | value x => exact ⟨x, rfl, by simpa [equals] using he⟩
  | _ => cases he

/-- What is before an element is before every equal one. -/
theorem precedes_of_equals [IsStrictWeakOrder T (· < ·)] (he : equals v e = true) (hd : below d e) :
    precedes v d = true := by
  obtain ⟨x, rfl, h1, h2⟩ := equals_value he
  cases d with
  | head => rfl
  | tail => exact absurd hd (not_tail_below _)
  | value y =>
    by_contra hp
    have hyv : ¬ y < v := by simpa [precedes] using hp
    have hyx : y < x := hd
    -- `v` is not below `y` either, so all three are equal
    by_cases hvy : v < y
    · exact h1 (IsTrans.trans _ _ _ hvy hyx)
    · exact (IsStrictWeakOrder.incomp_trans y v x ⟨hyv, hvy⟩ ⟨h1, h2⟩).1 hyx
end

/-! ## The shared state -/

/-- The nodes of level `l`, from `head_` on. -/
noncomputable def chainOf (s : Shared ι T) (l : ℕ) : List ℕ := nodes (s.next l) (some head)

/-- **What holds of the levels.** -/
structure Levels [LT T] (L : ℕ → ℕ → Prop) (s : Shared ι T) : Prop where
  chain : ∀ l ≤ maxLevel, MarkedChain below head (L l) (chainOf s l) (s.next l) s.marked s.data
  sentinels : ∀ l ≤ maxLevel, L l head ∧ L l tail
  data : s.data head = .head ∧ s.data tail = .tail
  proper : ∀ l a, L l a → a = head ∨ a = tail ∨ ∃ x, s.data a = .value x
  used : ∀ l a, L l a → a < s.nodes ∧ l ≤ s.topLevel a
  top : ∀ a < s.nodes, s.topLevel a ≤ maxLevel
  nested : ∀ l a, L (l + 1) a → L l a
  chains : ∀ l < maxLevel, ∀ a ∈ chainOf s (l + 1), a ∈ chainOf s l
  full : ∀ a, s.fullyLinked a = true → (∃ x, s.data a = .value x) ∧ L (s.topLevel a) a
  marked : ∀ a, s.marked a = true → s.fullyLinked a = true
  ends : ∀ l ≤ maxLevel, ∀ a, L l a → a ≠ tail → ∃ b, s.next l a = some b

/-- What no step undoes. -/
structure Grows (L : ℕ → ℕ → Prop) (s : Shared ι T) (L' : ℕ → ℕ → Prop) (s' : Shared ι T) :
    Prop where
  linked : ∀ l a, L l a → L' l a
  nodes : s.nodes ≤ s'.nodes
  data : ∀ a < s.nodes, s'.data a = s.data a
  topLevel : ∀ a < s.nodes, s'.topLevel a = s.topLevel a
  full : ∀ a, s.fullyLinked a = true → s'.fullyLinked a = true
  marked : ∀ a, s.marked a = true → s'.marked a = true
  frozen : ∀ l a, L l a → s.marked a = true → s'.next l a = s.next l a
  gone : ∀ l ≤ maxLevel, ∀ a, L l a → a ∉ chainOf s l → a ∉ chainOf s' l
  reach : ∀ l ≤ maxLevel, ∀ a b, L l a → b ∈ chainOf s' l → Reaches (s.next l) a b →
    Reaches (s'.next l) a b

section
variable [LT T] {L L' : ℕ → ℕ → Prop} {s s' : Shared ι T} {l i a b n p x : ℕ}

namespace Levels

theorem nested_le (h : Levels L s) (hl : l ≤ i) (ha : L i a) : L l a := by
  induction i with
  | zero =>
    obtain rfl : l = 0 := by omega
    exact ha
  | succ i ih =>
    rcases Nat.lt_or_ge i l with hi | hi
    · obtain rfl : l = i + 1 := by omega
      exact ha
    · exact ih hi (h.nested i a ha)

theorem chains_le (h : Levels L s) (hl : l ≤ i) (hi : i ≤ maxLevel) (ha : a ∈ chainOf s i) :
    a ∈ chainOf s l := by
  induction i with
  | zero =>
    obtain rfl : l = 0 := by omega
    exact ha
  | succ i ih =>
    rcases Nat.lt_or_ge i l with hil | hil
    · obtain rfl : l = i + 1 := by omega
      exact ha
    · exact ih hil (by omega) (h.chains i (by omega) a ha)

theorem le_max (h : Levels L s) (ha : L l a) : l ≤ maxLevel :=
  (h.used l a ha).2.trans (h.top a (h.used l a ha).1)

theorem value_ne (h : Levels L s) {v : T} (ha : s.data a = .value v) : a ≠ head ∧ a ≠ tail := by
  constructor
  · rintro rfl
    rw [h.data.1] at ha
    cases ha
  · rintro rfl
    rw [h.data.2] at ha
    cases ha

theorem marked_ne (h : Levels L s) (ha : s.marked a = true) : a ≠ head ∧ a ≠ tail := by
  obtain ⟨⟨v, hv⟩, -⟩ := h.full a (h.marked a ha)
  exact h.value_ne hv

theorem linked_of_full (h : Levels L s) (ha : s.fullyLinked a = true) (hl : l ≤ s.topLevel a) :
    L l a :=
  h.nested_le hl (h.full a ha).2

theorem used_of_full (h : Levels L s) (ha : s.fullyLinked a = true) : a < s.nodes :=
  (h.used _ a (h.full a ha).2).1

theorem mem_of_unmarked (h : Levels L s) (ha : L l a) (hm : s.marked a = false) : a ∈ chainOf s l :=
  (h.chain l (h.le_max ha)).unmarked a ha hm

theorem linked_of_mem (h : Levels L s) (hl : l ≤ maxLevel) (ha : a ∈ chainOf s l) : L l a :=
  (h.chain l hl).mem a ha

/-- The other end of a link. -/
theorem next_linked (h : Levels L s) (ha : L l a) (hn : s.next l a = some b) :
    L l b ∧ below (s.data a) (s.data b) :=
  (h.chain l (h.le_max ha)).link a b ha hn

end Levels

omit [LT T] in
theorem chainOf_eq {c : List ℕ} (h : Linked (s.next l) (some head) c) : chainOf s l = c :=
  nodes_eq h

omit [LT T] in
theorem chainOf_congr (h : s'.next l = s.next l) : chainOf s' l = chainOf s l := by
  unfold chainOf
  rw [h]

/-! ### The writes -/

/-- A step that leaves the nodes that were linked in. -/
theorem Levels.frame (h : Levels L s) (hnodes : s.nodes ≤ s'.nodes)
    (hdata : ∀ a < s.nodes, s'.data a = s.data a)
    (htop : ∀ a < s.nodes, s'.topLevel a = s.topLevel a)
    (hmax : ∀ a < s'.nodes, s'.topLevel a ≤ maxLevel) (hm : s'.marked = s.marked)
    (hf : s'.fullyLinked = s.fullyLinked) (hn : ∀ l a, L l a → s'.next l a = s.next l a) :
    Levels L s' ∧ Grows L s L s' := by
  have hc : ∀ l ≤ maxLevel,
      MarkedChain below head (L l) (chainOf s l) (s'.next l) s'.marked s'.data := fun l hl =>
    (h.chain l hl).frame (h.sentinels l hl).1 (fun a ha => hn l a ha) (fun a _ => by rw [hm])
      fun a ha => hdata a (h.used l a ha).1
  have hchain : ∀ l ≤ maxLevel, chainOf s' l = chainOf s l := fun l hl => chainOf_eq (hc l hl).chain
  have hhead := h.used 0 head (h.sentinels 0 (Nat.zero_le _)).1
  have htail := h.used 0 tail (h.sentinels 0 (Nat.zero_le _)).2
  refine ⟨⟨fun l hl => ?_, h.sentinels, ?_, fun l a ha => ?_, fun l a ha => ?_, hmax, h.nested,
    fun l hl a ha => ?_, fun a ha => ?_, fun a ha => ?_, fun l hl a ha hat => ?_⟩,
    fun _ _ ha => ha, hnodes, hdata, htop, fun a ha => by rw [hf]; exact ha, fun a ha => by
      rw [hm]; exact ha, fun l a ha _ => hn l a ha, fun l hl a _ ha => ?_,
        fun l hl a b ha _ hr => ?_⟩
  · rw [hchain l hl]
    exact hc l hl
  · rw [hdata _ hhead.1, hdata _ htail.1]
    exact h.data
  · rw [hdata a (h.used l a ha).1]
    exact h.proper l a ha
  · obtain ⟨h1, h2⟩ := h.used l a ha
    exact ⟨by omega, by rw [htop a h1]; exact h2⟩
  · rw [hchain l hl.le]
    rw [hchain _ hl] at ha
    exact h.chains l hl a ha
  · rw [hf] at ha
    rw [hdata a (h.used_of_full ha), htop a (h.used_of_full ha)]
    exact h.full a ha
  · rw [hm] at ha
    rw [hf]
    exact h.marked a ha
  · rw [hn l a ha]
    exact h.ends l hl a ha hat
  · rw [hchain l hl]
    exact ha
  · exact hr.congr ha (fun x y hx hxy => (h.next_linked hx hxy).1) (hn l)

/-- `new node`. -/
theorem Levels.alloc (h : Levels L s) {v : T} {top : ℕ} (ht : top ≤ maxLevel) :
    Levels L (s.alloc v top) ∧ Grows L s L (s.alloc v top) := by
  have hlt : ∀ a < s.nodes, a ≠ s.nodes := fun a ha => ha.ne
  have hfull : s.fullyLinked s.nodes = false := by
    by_contra hf
    exact hlt _ (h.used_of_full (by simpa using hf)) rfl
  have hmark : s.marked s.nodes = false := by
    by_contra hm
    have := h.marked s.nodes (by simpa using hm)
    rw [hfull] at this
    cases this
  refine h.frame (Nat.le_succ _) (fun a ha => Function.update_of_ne (hlt a ha) _ _)
    (fun a ha => Function.update_of_ne (hlt a ha) _ _) (fun a ha => ?_)
    (Function.update_eq_self_iff.mpr hmark.symm) (Function.update_eq_self_iff.mpr hfull.symm)
    fun l a ha => Function.update_of_ne (hlt a (h.used l a ha).1) _ _
  show Function.update s.topLevel s.nodes top a ≤ maxLevel
  by_cases hn : a = s.nodes
  · rw [hn, Function.update_self]
    exact ht
  · rw [Function.update_of_ne hn]
    have : a < s.nodes + 1 := ha
    exact h.top a (by omega)

omit [LT T] in
theorem setNext_next (s : Shared ι T) (i a : ℕ) (o : Option ℕ) :
    (s.setNext i a o).next i = Function.update (s.next i) a o := Function.update_self ..

omit [LT T] in
theorem setNext_next_ne (s : Shared ι T) (hl : l ≠ i) (a : ℕ) (o : Option ℕ) :
    (s.setNext i a o).next l = s.next l := Function.update_of_ne hl _ _

/-- A node that is not linked in yet is written to. -/
theorem Levels.set_next (h : Levels L s) (hn : ∀ l, ¬ L l n) (o : Option ℕ) :
    Levels L (s.setNext i n o) ∧ Grows L s L (s.setNext i n o) := by
  refine h.frame le_rfl (fun _ _ => rfl) (fun _ _ => rfl) h.top rfl rfl fun l a ha => ?_
  by_cases hl : l = i
  · subst hl
    rw [setNext_next, Function.update_of_ne]
    rintro rfl
    exact hn l ha
  · rw [setNext_next_ne s hl]

/-- A node is linked in at level `i`, behind `p`. -/
theorem Levels.link (h : Levels L s) {v : T} (hp : L i p) (hpm : s.marked p = false)
    (hpb : s.next i p = some b) (hnb : s.next i n = some b) (hn : ¬ L i n)
    (hbelow : ∀ j, i = j + 1 → L j n) (hu : n < s.nodes) (ht : i ≤ s.topLevel n)
    (hd : s.data n = .value v) (hm : s.marked n = false) (hpn : below (s.data p) (s.data n))
    (hnb' : below (s.data n) (s.data b)) :
    Levels (fun l a => (l = i ∧ a = n) ∨ L l a) (s.setNext i p (some n)) ∧
      Grows L s (fun l a => (l = i ∧ a = n) ∨ L l a) (s.setNext i p (some n)) := by
  have hi := h.le_max hp
  have hnp : n ≠ p := by
    rintro rfl
    exact hn hp
  obtain ⟨c, hc, hmem⟩ := (h.chain i hi).insert hp hpm hn (hnb.trans hpb.symm) hpn
    fun b' hb' => by
      obtain rfl := Option.some.inj (hpb.symm.trans hb')
      exact hnb'
  have hci : chainOf (s.setNext i p (some n)) i = c :=
    chainOf_eq (by rw [setNext_next]; exact hc.chain)
  have hmi : ∀ a, a ∈ chainOf (s.setNext i p (some n)) i ↔ a = n ∨ a ∈ chainOf s i := by
    rw [hci]
    exact hmem
  have hcl : ∀ l, l ≠ i → chainOf (s.setNext i p (some n)) l = chainOf s l := fun l hl =>
    chainOf_congr (setNext_next_ne s hl p _)
  have hL : ∀ l, l ≠ i → (fun a => (l = i ∧ a = n) ∨ L l a) = L l := fun l hl => by
    funext a
    simp [hl]
  refine ⟨⟨fun l hl => ?_, fun l hl => (h.sentinels l hl).imp .inr .inr, h.data, ?_, ?_, h.top, ?_,
    fun l hl a ha => ?_, fun a ha => ?_, h.marked, fun l hl a ha hat => ?_⟩,
    fun _ _ ha => .inr ha, le_rfl, fun _ _ => rfl, fun _ _ => rfl, fun _ ha => ha, fun _ ha => ha,
    fun l a ha hma => ?_, fun l hl a ha hna => ?_, fun l hl a b ha _ hr => ?_⟩
  · by_cases hli : l = i
    · subst hli
      rw [hci, setNext_next]
      have : (fun a => (l = l ∧ a = n) ∨ L l a) = fun a => a = n ∨ L l a := by
        funext a
        simp
      rw [this]
      exact hc
    · rw [hL l hli, hcl l hli, setNext_next_ne s hli]
      exact h.chain l hl
  · rintro l a (⟨rfl, rfl⟩ | ha)
    · exact .inr (.inr ⟨v, hd⟩)
    · exact h.proper l a ha
  · rintro l a (⟨rfl, rfl⟩ | ha)
    · exact ⟨hu, ht⟩
    · exact h.used l a ha
  · rintro l a (⟨hl, rfl⟩ | ha)
    · exact .inr (hbelow l hl.symm)
    · exact .inr (h.nested l a ha)
  · by_cases hli : l + 1 = i
    · -- the node was linked in at the level below, and is not marked
      rw [hcl l (by omega)]
      subst hli
      rcases (hmi a).mp ha with rfl | ha
      · exact h.mem_of_unmarked (hbelow l rfl) hm
      · exact h.chains l hl a ha
    · rw [hcl _ hli] at ha
      by_cases hli' : l = i
      · subst hli'
        exact (hmi a).mpr (.inr (h.chains l hl a ha))
      · rw [hcl l hli']
        exact h.chains l hl a ha
  · exact ⟨(h.full a ha).1, .inr (h.full a ha).2⟩
  · by_cases hli : l = i
    · subst hli
      rw [setNext_next]
      by_cases hap : a = p
      · exact ⟨n, by rw [hap, Function.update_self]⟩
      · rw [Function.update_of_ne hap]
        rcases ha with ⟨-, rfl⟩ | ha
        · exact ⟨b, hnb⟩
        · exact h.ends l hl a ha hat
    · rw [setNext_next_ne s hli]
      rcases ha with ⟨hl', -⟩ | ha
      · exact absurd hl' hli
      · exact h.ends l hl a ha hat
  · by_cases hli : l = i
    · subst hli
      rw [setNext_next, Function.update_of_ne]
      rintro rfl
      rw [hpm] at hma
      cases hma
    · rw [setNext_next_ne s hli]
  · by_cases hli : l = i
    · subst hli
      rw [hmi]
      rintro (rfl | hmem)
      · exact hn ha
      · exact hna hmem
    · rw [hcl l hli]
      exact hna
  · by_cases hli : l = i
    · subst hli
      rw [setNext_next]
      exact hr.insert hnp (hnb.trans hpb.symm)
    · rw [setNext_next_ne s hli]
      exact hr

/-- A marked node is spliced out at level `i`, behind `p`. -/
theorem Levels.splice [IsStrictOrder T (· < ·)] (h : Levels L s) (hp : L i p)
    (hpm : s.marked p = false) (hpx : s.next i p = some x) (hx : s.marked x = true)
    (hgone : i < maxLevel → x ∉ chainOf s (i + 1)) :
    Levels L (s.setNext i p (s.next i x)) ∧ Grows L s L (s.setNext i p (s.next i x)) ∧
      x ∉ chainOf (s.setNext i p (s.next i x)) i := by
  have hi := h.le_max hp
  have hxL := h.next_linked hp hpx
  have hxp : x ≠ p := by
    rintro rfl
    rw [hpm] at hx
    cases hx
  obtain ⟨c, hc, hmem⟩ := (h.chain i hi).unlink hp hpm hpx hx
  have hci : chainOf (s.setNext i p (s.next i x)) i = c :=
    chainOf_eq (by rw [setNext_next]; exact hc.chain)
  have hmi : ∀ a, a ∈ chainOf (s.setNext i p (s.next i x)) i ↔ a ≠ x ∧ a ∈ chainOf s i := by
    rw [hci]
    exact hmem
  have hcl : ∀ l, l ≠ i → chainOf (s.setNext i p (s.next i x)) l = chainOf s l := fun l hl =>
    chainOf_congr (setNext_next_ne s hl p _)
  refine ⟨⟨fun l hl => ?_, h.sentinels, h.data, h.proper, h.used, h.top, h.nested,
    fun l hl a ha => ?_,
    h.full, h.marked, fun l hl a ha hat => ?_⟩, ⟨fun _ _ ha => ha, le_rfl, fun _ _ => rfl,
    fun _ _ => rfl, fun _ ha => ha, fun _ ha => ha, fun l a ha hma => ?_, fun l hl a ha hna => ?_,
    fun l hl a b ha hb hr => ?_⟩, fun hxc => ((hmi x).mp hxc).1 rfl⟩
  · by_cases hli : l = i
    · subst hli
      rw [hci, setNext_next]
      exact hc
    · rw [hcl l hli, setNext_next_ne s hli]
      exact h.chain l hl
  · by_cases hli : l = i
    · subst hli
      rw [hcl _ (by omega)] at ha
      refine (hmi a).mpr ⟨?_, h.chains l hl a ha⟩
      rintro rfl
      exact hgone hl ha
    · rw [hcl l hli]
      by_cases hli' : l + 1 = i
      · subst hli'
        exact h.chains l hl a ((hmi a).mp ha).2
      · rw [hcl _ hli'] at ha
        exact h.chains l hl a ha
  · by_cases hli : l = i
    · subst hli
      rw [setNext_next]
      by_cases hap : a = p
      · rw [hap, Function.update_self]
        exact h.ends l hl x hxL.1 (h.marked_ne hx).2
      · rw [Function.update_of_ne hap]
        exact h.ends l hl a ha hat
    · rw [setNext_next_ne s hli]
      exact h.ends l hl a ha hat
  · by_cases hli : l = i
    · subst hli
      rw [setNext_next, Function.update_of_ne]
      rintro rfl
      rw [hpm] at hma
      cases hma
    · rw [setNext_next_ne s hli]
  · by_cases hli : l = i
    · subst hli
      rw [hmi]
      exact fun hm => hna hm.2
    · rw [hcl l hli]
      exact hna
  · by_cases hli : l = i
    · subst hli
      rw [setNext_next]
      exact hr.unlink hpx hxp ((hmi b).mp hb).1
    · rw [setNext_next_ne s hli]
      exact hr

/-- A node is marked. -/
theorem Levels.mark (h : Levels L s) (hf : s.fullyLinked x = true) :
    Levels L { s with marked := Function.update s.marked x true } ∧
      Grows L s L { s with marked := Function.update s.marked x true } := by
  obtain ⟨⟨v, hv⟩, -⟩ := h.full x hf
  refine ⟨⟨fun l hl => (h.chain l hl).mark (h.value_ne hv).1, h.sentinels, h.data, h.proper, h.used,
    h.top, h.nested, h.chains, h.full, fun a ha => ?_, h.ends⟩, fun _ _ ha => ha, le_rfl,
    fun _ _ => rfl, fun _ _ => rfl, fun _ ha => ha, fun a ha => ?_, fun _ _ _ _ => rfl,
    fun _ _ _ _ ha => ha, fun _ _ _ _ _ _ hr => hr⟩
  · by_cases hax : a = x
    · rw [hax]
      exact hf
    · exact h.marked a ((Function.update_of_ne hax _ _).symm.trans ha)
  · show Function.update s.marked x true a = true
    by_cases hax : a = x
    · rw [hax, Function.update_self]
    · rw [Function.update_of_ne hax]
      exact ha

/-- A node is linked in at all its levels. -/
theorem Levels.full_set (h : Levels L s) {v : T} (hL : L (s.topLevel n) n)
    (hd : s.data n = .value v) :
    Levels L { s with fullyLinked := Function.update s.fullyLinked n true } ∧
      Grows L s L { s with fullyLinked := Function.update s.fullyLinked n true } := by
  have hmono : ∀ a, s.fullyLinked a = true → Function.update s.fullyLinked n true a = true := by
    intro a ha
    by_cases han : a = n
    · rw [han, Function.update_self]
    · rw [Function.update_of_ne han]
      exact ha
  refine ⟨⟨h.chain, h.sentinels, h.data, h.proper, h.used, h.top, h.nested, h.chains,
    fun a ha => ?_,
    fun a ha => hmono a (h.marked a ha), h.ends⟩, fun _ _ ha => ha, le_rfl, fun _ _ => rfl,
    fun _ _ => rfl, hmono, fun _ ha => ha, fun _ _ _ _ => rfl, fun _ _ _ _ ha => ha,
    fun _ _ _ _ _ _ hr => hr⟩
  by_cases han : a = n
  · subst han
    exact ⟨⟨v, hd⟩, hL⟩
  · exact h.full a ((Function.update_of_ne han _ _).symm.trans ha)
end

end Bonostl.ConcurrentSkipList
