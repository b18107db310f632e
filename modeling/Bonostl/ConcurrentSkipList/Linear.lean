import Bonostl.ConcurrentSkipList.Lifetime
import Bonostl.Interleaving.Linearizable

/-!
# `concurrent_skip_list` is a sorted set

`elements` is the abstract set: the elements of the nodes that are fully linked and not marked. An
`insert` takes effect when it sets `fully_linked`, an `erase` when it sets `marked`, and every
operation that changes nothing at an instant of its own, which may lie before the step that decides
its result.

A search may stand on a node that was taken off the list long ago. `Recalls` is what makes this
harmless: the link of a node that was on a level during the operation is one it had at an instant of
the operation at which it was on the level (`Recalls.link`), and an element that was in the set
during the operation, and whose node is marked now, was out of it at an instant of the operation
(`Recalls.marking`). So a search always stands on a node that was on its level (`Pc.Saw`), and a
search that finds nothing knows an instant at which there was nothing to be found
(`Levels.absent_of_gap`).

`skip_list_linearizable` is the result, for any number of threads and any levels; `for_each_exact`
is what it means for `empty` and `for_each`.
-/

namespace Bonostl.ConcurrentSkipList

open Interleaving Chain

variable {ι T : Type}

/-! ## The abstract set -/

section
variable [LT T]

/-- Neither is less than the other. -/
def Equivalent (x y : T) : Prop := ¬ x < y ∧ ¬ y < x

/-- The node is in the list. -/
def Live (s : Shared ι T) (a : ℕ) : Prop := s.fullyLinked a = true ∧ s.marked a = false

/-- The elements of the nodes that are in the list. -/
def elements (s : Shared ι T) : Set T := {x | ∃ a, s.data a = .value x ∧ Live s a}

/-- An element equivalent to `v` is in the list. -/
def Present (v : T) (s : Shared ι T) : Prop := ∃ x ∈ elements s, Equivalent x v

/-- No element equivalent to `v` is in the list. -/
def Absent (v : T) (s : Shared ι T) : Prop := ∀ x ∈ elements s, ¬ Equivalent x v

/-- The sequential sorted set. An operation that gets no slot of the domain throws and changes
nothing. -/
inductive SetSpec : Set T → Op T → Res → Set T → Prop
  | insert (A : Set T) (v : T) (h : ∀ x ∈ A, ¬ Equivalent x v) :
      SetSpec A (.insert v) (.bool true) (insert v A)
  | insertPresent (A : Set T) (v : T) (h : ∃ x ∈ A, Equivalent x v) :
      SetSpec A (.insert v) (.bool false) A
  | erase (A : Set T) (v : T) (h : ∃ x ∈ A, Equivalent x v) :
      SetSpec A (.erase v) (.bool true) {x ∈ A | ¬ Equivalent x v}
  | eraseAbsent (A : Set T) (v : T) (h : ∀ x ∈ A, ¬ Equivalent x v) :
      SetSpec A (.erase v) (.bool false) A
  | contains (A : Set T) (v : T) (h : ∃ x ∈ A, Equivalent x v) :
      SetSpec A (.contains v) (.bool true) A
  | containsNot (A : Set T) (v : T) (h : ∀ x ∈ A, ¬ Equivalent x v) :
      SetSpec A (.contains v) (.bool false) A
  | throws (A : Set T) (o : Op T) : SetSpec A o .noSlots A
end

section
variable [LT T] [DecidableLT T] {L L' L₀ : ℕ → ℕ → Prop} {s s' S : Shared ι T}
  {a b x pred curr l : ℕ}
  {v y : T}

omit [LT T] [DecidableLT T] in
theorem equals_iff [LT T] [DecidableLT T] {d : Data T} :
    equals v d = true ↔ ∃ y, d = .value y ∧ Equivalent y v := by
  constructor
  · intro he
    obtain ⟨y, hy, h1, h2⟩ := equals_value he
    exact ⟨y, hy, h2, h1⟩
  · rintro ⟨y, rfl, h1, h2⟩
    simp [equals, h1, h2]

namespace Levels

omit [DecidableLT T] in
theorem live_mem (h : Levels L s) (ha : Live s a) : a ∈ chainOf s 0 :=
  h.mem_of_unmarked (h.linked_of_full ha.1 (Nat.zero_le _)) ha.2

variable [IsStrictWeakOrder T (· < ·)]

/-- Equal elements are not one before the other. -/
theorem not_below_of_equals {d e : Data T} (hd : equals v d = true) (he : equals v e = true) :
    ¬ below d e := by
  intro hlt
  have hp := precedes_of_equals he hlt
  obtain ⟨y, rfl, h1, -⟩ := equals_iff.mp hd
  exact h1 (of_decide_eq_true hp)

/-- **At most one node for each element.** -/
theorem unique (h : Levels L s) (ha : a ∈ chainOf s 0) (hb : b ∈ chainOf s 0)
    (hva : equals v (s.data a) = true) (hvb : equals v (s.data b) = true) : a = b := by
  by_contra hab
  rcases (h.chain 0 (Nat.zero_le _)).total ha hb hab with hlt | hlt
  · exact not_below_of_equals hva hvb hlt
  · exact not_below_of_equals hvb hva hlt

/-- A node on the list that is not live keeps its element out of the set. -/
theorem absent_of_dead (h : Levels L s) (ha : a ∈ chainOf s 0) (hv : equals v (s.data a) = true)
    (hd : ¬ Live s a) : Absent v s := by
  rintro y ⟨b, hb, hlive⟩ hy
  have hvb : equals v (s.data b) = true := equals_iff.mpr ⟨y, hb, hy⟩
  exact hd (h.unique (h.live_mem hlive) ha hvb hv ▸ hlive)

/-- An element that would be between two neighbours is not in the set. -/
theorem absent_of_gap (h : Levels L s) (hpred : pred ∈ chainOf s 0) (hn : s.next 0 pred = some curr)
    (hp : precedes v (s.data pred) = true) (hs : precedes v (s.data curr) = false)
    (he : equals v (s.data curr) = false) : Absent v s := by
  rintro y ⟨b, hb, hlive⟩ hy
  have hc := h.chain 0 (Nat.zero_le _)
  have hvb : equals v (s.data b) = true := equals_iff.mpr ⟨y, hb, hy⟩
  have hlt : below (s.data pred) (s.data b) := by
    have hmem := h.live_mem hlive
    have hne : pred ≠ b := by
      rintro rfl
      rw [hb] at hp
      exact hy.1 (of_decide_eq_true hp)
    refine (hc.total hpred hmem hne).resolve_right fun hlt => ?_
    have := IsTrans.trans (r := below) _ _ _ hlt (precedes_iff.mp hp)
    rw [hb] at this
    exact hy.1 this
  have hne : pred ≠ b := by
    rintro rfl
    exact below_irrefl _ hlt
  have hreach := (hc.reaches_of_lt below_irrefl hpred (h.live_mem hlive) hlt).step hne hn
  have hcurr := hc.mem _ (hc.chain.next_mem hpred hn)
  rcases (hc.reaches_above hcurr hreach).2 with rfl | hlt'
  · rw [hvb] at he
    cases he
  · have := IsTrans.trans (r := below) _ _ _ (above_of_stop hs he) hlt'
    rw [hb] at this
    exact hy.2 this

end Levels

/-! ## What the operation has seen -/

/-- State `S` came before `s`. -/
structure Earlier (L : ℕ → ℕ → Prop) (S s : Shared ι T) : Prop where
  levels : ∃ L₀, Levels L₀ S ∧ ∀ l a, L₀ l a → L l a
  nodes : S.nodes ≤ s.nodes
  data : ∀ a < S.nodes, s.data a = S.data a
  full : ∀ a, S.fullyLinked a = true → s.fullyLinked a = true

/-- What the states `D` of an operation have to do with the present one. -/
structure Recalls (L : ℕ → ℕ → Prop) (D : Set (Shared ι T)) (s : Shared ι T) : Prop where
  past : ∀ S ∈ D, Earlier L S s
  marking : ∀ S ∈ D, ∀ a, Live S a → s.marked a = true → ∀ v, equals v (s.data a) = true →
    ∃ S' ∈ D, Absent v S'
  link : ∀ S ∈ D, ∀ l ≤ maxLevel, ∀ a b, a ∈ chainOf S l → s.next l a = some b →
    ∃ S' ∈ D, a ∈ chainOf S' l ∧ S'.next l a = some b

omit [DecidableLT T] in
theorem Earlier.now (h : Levels L s) : Earlier L s s :=
  ⟨⟨L, h, fun _ _ => id⟩, le_rfl, fun _ _ => rfl, fun _ => id⟩

omit [DecidableLT T] in
theorem Earlier.step (h : Earlier L S s) (hG : Grows L s L' s') : Earlier L' S s' := by
  obtain ⟨L₀, h₀, hle⟩ := h.levels
  exact ⟨⟨L₀, h₀, fun l a ha => hG.linked l a (hle l a ha)⟩, h.nodes.trans hG.nodes,
    fun a ha => (hG.data a (ha.trans_le h.nodes)).trans (h.data a ha),
    fun a ha => hG.full a (h.full a ha)⟩

omit [DecidableLT T] in
/-- A node that was on a level. -/
theorem Earlier.on_level (h : Earlier L S s) (hl : l ≤ maxLevel) (ha : a ∈ chainOf S l) :
    L l a ∧ s.data a = S.data a := by
  obtain ⟨L₀, h₀, hle⟩ := h.levels
  have hla := h₀.linked_of_mem hl ha
  exact ⟨hle l a hla, h.data a (h₀.used l a hla).1⟩
end

section
variable [LT T] [DecidableLT T] {L L' : ℕ → ℕ → Prop} {s s' : Shared ι T} {D D' : Set (Shared ι T)}
  {t : ι} {l l' : Local T} {w : ℕ} {ev : Event (Op T) Res} {x : ℕ} {v : T}

/-- Only `mark` marks a node, and it does nothing else. -/
theorem Move.marked_now (hm : Move w t s ev l s' l') (hx : s'.marked x = true)
    (hold : s.marked x = false) : s'.next = s.next ∧ s'.fullyLinked = s.fullyLinked := by
  rcases hm.marks hx with h | h
  · rw [hold] at h
    cases h
  · cases hm with
    | mark => exact ⟨rfl, rfl⟩
    | domain v d s₁ d' =>
      have hq := same_free s s₁ (deletes d)
      exact ⟨hq.next, hq.full⟩
    | newNode => cases h
    | setNext | setLast | link | linkLast | storeNext | setFullyLinked =>
      cases hold.symm.trans (show s.marked x = true from hx)
    | _ => exact ⟨rfl, rfl⟩

theorem Recalls.step [IsStrictWeakOrder T (· < ·)] (h : Recalls L D s) (hL : Levels L s)
    (hL' : Levels L' s') (hG : Grows L s L' s') (hm : Move w t s ev l s' l') (hnow : s' ∈ D')
    (hD : ∀ S ∈ D', S = s' ∨ S ∈ D ∧ D ⊆ D') : Recalls L' D' s' := by
  refine ⟨fun S hS => ?_, fun S hS a ha hx v hv => ?_, fun S hS i hi a b ha hb => ?_⟩
  · rcases hD S hS with rfl | ⟨hS, -⟩
    · exact .now hL'
    · exact (h.past S hS).step hG
  · rcases hD S hS with rfl | ⟨hS, hsub⟩
    · rw [ha.2] at hx
      cases hx
    · have hfull := (h.past S hS).full a ha.1
      cases hold : s.marked a with
      | true =>
        rw [hG.data a (hL.used_of_full hfull)] at hv
        obtain ⟨S', hS', habs⟩ := h.marking S hS a ha hold v hv
        exact ⟨S', hsub hS', habs⟩
      | false =>
        -- the step marks the node, which is still on the list
        have hmem := hL.live_mem ⟨hfull, hold⟩
        rw [← chainOf_congr (congrFun (hm.marked_now hx hold).1 0)] at hmem
        refine ⟨s', hnow, hL'.absent_of_dead hmem hv fun hlive => ?_⟩
        rw [hlive.2] at hx
        cases hx
  · rcases hD S hS with rfl | ⟨hS, hsub⟩
    · exact ⟨S, hnow, ha, hb⟩
    · by_cases hmem : a ∈ chainOf s' i
      · exact ⟨s', hnow, hmem, hb⟩
      · -- off the level, a node is marked, and its link is what it was
        have hla := ((h.past S hS).on_level hi ha).1
        have hx : s'.marked a = true := by
          by_contra hx
          exact hmem (hL'.mem_of_unmarked (hG.linked i a hla) (eq_false_of_ne_true hx))
        have hold : s.marked a = true := by
          by_contra hold
          have hold := eq_false_of_ne_true hold
          refine hmem ?_
          rw [chainOf_congr (congrFun (hm.marked_now hx hold).1 i)]
          exact hL.mem_of_unmarked hla hold
        rw [hG.frozen i a hla hold] at hb
        obtain ⟨S', hS', hmem', hb'⟩ := h.link S hS i hi a b ha hb
        exact ⟨S', hsub hS', hmem', hb'⟩

/-- A node that was on the list and is not live now: at some instant its element was not in the
set. -/
theorem Recalls.missed [IsStrictWeakOrder T (· < ·)] (h : Recalls L D s) {S : Shared ι T}
    (hS : S ∈ D)
    (hx : x ∈ chainOf S 0) (hv : equals v (s.data x) = true)
    (hd : s.fullyLinked x = false ∨ s.marked x = true) : ∃ S' ∈ D, Absent v S' := by
  have hpast := h.past S hS
  by_cases hlive : Live S x
  · rcases hd with hd | hd
    · rw [hpast.full x hlive.1] at hd
      cases hd
    · exact h.marking S hS x hlive hd v hv
  · obtain ⟨L₀, h₀, -⟩ := hpast.levels
    rw [(hpast.on_level (Nat.zero_le _) hx).2] at hv
    exact ⟨S, hS, h₀.absent_of_dead hx hv hlive⟩
end

/-! ## What a thread has seen -/

namespace Pc

/-- How far a thread's operation has come. -/
def status : Pc T → Status (Op T) Res
  | .idle => .idle
  | .domain (.enter o) => .called o
  | .domain .retire => .done (.bool true)
  | .domain (.leave r) | .leave r | .done r => .done r
  | .newNode v | .foundMarked _ v _ _ | .foundLinked _ v _ | .find (.insert _ v _) _ =>
    .called (.insert v)
  | .setNext a _ | .lock a _ | .predMarked a _ | .succMarked a _ | .predNext a _ | .link a _
  | .setFullyLinked a => .called (.insert a.value)
  | .unlock a _ valid => if valid then .done (.bool true) else .called (.insert a.value)
  | .deleteNew _ => .done (.bool false)
  | .find (.erase v) _ | .victimLinked v _ | .victimMarked v _ | .lockVictim v _ | .recheck v _
  | .mark v _ => .called (.erase v)
  | .unlockVictim _ _ isMarked => .done (.bool isMarked)
  | .splice _ _ _ _ | .lockPred _ _ _ _ | .splicePredMarked _ _ _ _ | .splicePredNext _ _ _ _
  | .victimNext _ _ _ _ | .storeNext _ _ _ _ _ | .unlockPred _ _ _ _ _ | .retire _ =>
    .done (.bool true)
  | .find (.contains v) _ | .containsLinked v _ | .containsMarked v _ => .called (.contains v)

/-- What a thread has seen in the states `D` of its operation: a search stands on a node that was on
its level, what it has found was on the list, and who waits for a node to be fully linked will have
seen its element in the set. -/
def Saw [LT T] (D : Set (Shared ι T)) (s : Shared ι T) : Pc T → Prop
  | .find _ f => ∃ S ∈ D, f.pred ∈ chainOf S f.level
  | .foundLinked _ v x => s.fullyLinked x = true → ∃ S ∈ D, Present v S
  | .victimLinked _ x | .victimMarked _ x | .lockVictim _ x | .recheck _ x | .containsLinked _ x =>
    ∃ S ∈ D, x ∈ chainOf S 0
  | .containsMarked _ x => s.fullyLinked x = true ∧ ∃ S ∈ D, x ∈ chainOf S 0
  | _ => True

end Pc

section
variable [LT T] {D : Set (Shared ι T)} {s : Shared ι T}

theorem saw_search {L : ℕ → ℕ → Prop} (hL : Levels L s) (hs : s ∈ D) (k : Task T) :
    (search k).Saw D s :=
  ⟨s, hs, (hL.chain maxLevel le_rfl).head_mem⟩

theorem saw_begin {L : ℕ → ℕ → Prop} (hL : Levels L s) (hs : s ∈ D) (o : Op T) :
    (begin o).Saw D s := by
  cases o with
  | insert v => trivial
  | erase v | contains v => exact saw_search hL hs _

theorem saw_lockFrom (a : Attempt T) (l : ℕ) : (lockFrom a l).Saw D s := by
  unfold lockFrom
  split
  · split <;> trivial
  · trivial

theorem saw_unlockFrom {L : ℕ → ℕ → Prop} (hL : Levels L s) (hs : s ∈ D) (a : Attempt T)
    (valid : Bool)
    (n : ℕ) : (unlockFrom a valid n).Saw D s := by
  induction n with
  | zero =>
    cases valid with
    | true => trivial
    | false => exact saw_search hL hs _
  | succ n ih =>
    unfold unlockFrom
    split
    · trivial
    · exact ih

theorem saw_spliceFrom (v : T) (x n : ℕ) : (spliceFrom v x n).Saw D s := by cases n <;> trivial

omit [LT T] in
theorem status_begin (o : Op T) : (begin o).status = .called o := by cases o <;> rfl

omit [LT T] in
theorem status_lockFrom (a : Attempt T) (l : ℕ) :
    (lockFrom a l).status = .called (.insert a.value) := by
  unfold lockFrom
  split
  · split <;> rfl
  · rfl

omit [LT T] in
theorem status_unlockFrom (a : Attempt T) (valid : Bool) (n : ℕ) : (unlockFrom a valid n).status =
    if valid then .done (.bool true) else .called (.insert a.value) := by
  induction n with
  | zero => cases valid <;> rfl
  | succ n ih =>
    unfold unlockFrom
    split
    · rfl
    · exact ih

omit [LT T] in
theorem status_spliceFrom (v : T) (x n : ℕ) : (spliceFrom v x n).status = .done (.bool true) := by
  cases n <;> rfl
end

section
variable [LT T] [DecidableLT T] {L L' : ℕ → ℕ → Prop} {s s' : Shared ι T} {D D' : Set (Shared ι T)}
  {t : ι} {l l' : Local T} {w : ℕ} {ev : Event (Op T) Res} {pc : Pc T}

/-- The element of a live node is in the set. -/
theorem present_of_live {x : ℕ} {v : T} (hv : equals v (s.data x) = true) (hx : Live s x) :
    Present v s := by
  obtain ⟨y, hy, hyv⟩ := equals_iff.mp hv
  exact ⟨y, ⟨x, hy, hx⟩, hyv⟩

/-- What has been seen has been seen. -/
theorem Pc.Saw.mono (h : pc.Saw D s) (hk : pc.Knows L s) (hL : Levels L s) (hG : Grows L s L' s')
    (hm : Move w t s ev l s' l') (hD : D ⊆ D') (hnow : s' ∈ D') : pc.Saw D' s' := by
  cases pc with
  | find k f | victimLinked v x | victimMarked v x | lockVictim v x | recheck v x
  | containsLinked v x =>
    obtain ⟨S, hS, hmem⟩ := h
    exact ⟨S, hD hS, hmem⟩
  | containsMarked v x =>
    obtain ⟨hf, S, hS, hmem⟩ := h
    exact ⟨hG.full x hf, S, hD hS, hmem⟩
  | foundLinked n v x =>
    intro hx
    cases hf : s.fullyLinked x with
    | true =>
      obtain ⟨S, hS, hp⟩ := h hf
      exact ⟨S, hD hS, hp⟩
    | false =>
      -- what has just been linked fully is not marked
      have hold : s.marked x = false := eq_false_of_ne_true fun he => by
        rw [hL.marked x he] at hf
        cases hf
      refine ⟨s', hnow, present_of_live (x := x) ?_ ⟨hx, eq_false_of_ne_true fun he => ?_⟩⟩
      · rw [Grows.data_eq hL hG hk.1]
        exact hk.2
      · rw [(hm.marked_now he hold).2, hf] at hx
        cases hx
  | _ => trivial

/-- A search goes on from a node of its level to another one. -/
theorem Recalls.next_seen (h : Recalls L D s) {S : Shared ι T} {i pred curr : ℕ} (hi : i ≤ maxLevel)
    (hS : S ∈ D) (hp : pred ∈ chainOf S i) (hn : s.next i pred = some curr) :
    ∃ S' ∈ D, pred ∈ chainOf S' i ∧ curr ∈ chainOf S' i ∧ S'.next i pred = some curr := by
  obtain ⟨S', hS', hp', hn'⟩ := h.link S hS i hi pred curr hp hn
  obtain ⟨L₀, h₀, -⟩ := (h.past S' hS').levels
  exact ⟨S', hS', hp', (h₀.chain i hi).chain.next_mem hp' hn', hn'⟩

/-- A search that has found nothing. -/
theorem Recalls.absent [IsStrictWeakOrder T (· < ·)] (h : Recalls L D s) {S : Shared ι T} {v : T}
    {pred curr : ℕ} (hS : S ∈ D) (hpred : pred ∈ chainOf S 0) (hn : s.next 0 pred = some curr)
    (hB : precedes v (s.data pred) = true) (hp : precedes v (s.data curr) = false)
    (he : equals v (s.data curr) = false) : ∃ S' ∈ D, Absent v S' := by
  obtain ⟨S', hS', hp', hc', hn'⟩ := h.next_seen (Nat.zero_le _) hS hpred hn
  have hpast := h.past S' hS'
  obtain ⟨L₀, h₀, -⟩ := hpast.levels
  rw [(hpast.on_level (Nat.zero_le _) hp').2] at hB
  rw [(hpast.on_level (Nat.zero_le _) hc').2] at hp he
  exact ⟨S', hS', h₀.absent_of_gap hp' hn' hB hp he⟩

/-- **A step keeps what its thread has seen true.** -/
theorem saw_move (hl : l.pc.Saw D s) (hk : l.pc.Knows L s) (hR : Recalls L D s) (hL : Levels L s)
    (hL' : Levels L' s') (hG : Grows L s L' s') (hm : Move w t s ev l s' l')
    (hD : (∀ o, ev ≠ .call o) → D ⊆ D') (hnow : s' ∈ D') : l'.pc.Saw D' s' := by
  have hmove := hm
  cases hm with
  | domainEnd v g r =>
    cases v with
    | enter o =>
      cases r with
      | noSlots => trivial
      | _ => exact saw_begin hL' hnow o
    | retire | leave => trivial
  | walk d k i pred preds succs curr hn hp =>
    obtain ⟨S, hS, hpred⟩ := hl
    obtain ⟨S', hS', -, hcurr, -⟩ := hR.next_seen hk.1 hS hpred hn
    exact ⟨S', hD (by simp) hS', hcurr⟩
  | descend d k i pred preds succs curr hn hp =>
    obtain ⟨S, hS, hpred⟩ := hl
    obtain ⟨L₀, h₀, -⟩ := (hR.past S hS).levels
    exact ⟨S, hD (by simp) hS, h₀.chains_le (Nat.le_succ i) hk.1 hpred⟩
  | found d k pred preds succs curr hn hp he =>
    obtain ⟨S, hS, hpred⟩ := hl
    obtain ⟨S', hS', -, hcurr, -⟩ := hR.next_seen (Nat.zero_le _) hS hpred hn
    cases k with
    | insert n v top => trivial
    | erase v | contains v => exact ⟨S', hD (by simp) hS', hcurr⟩
  | notFound d k => cases k <;> trivial
  | newNode | foundMarked | victimUnlinked => exact saw_search hL' hnow _
  | foundUnmarked d n v top x hx =>
    intro hf
    exact ⟨s, hnow, present_of_live hk.2.2 ⟨hf, hx⟩⟩
  | foundWaits d n v x hf => exact hl.mono hk hL hG hmove (hD (by simp)) hnow
  | setLast d a i => exact saw_lockFrom a 0
  | predNext d a i => exact saw_lockFrom a (i + 1)
  | predMarked d a i | succMarked d a i | predNextFail d a i | setFullyLinked d a | unlock d a i =>
    exact saw_unlockFrom hL' hnow _ _ _
  | victimLinked d v x | victimUnmarked d v x | lockVictim d v x =>
    obtain ⟨S, hS, hx⟩ := hl
    exact ⟨S, hD (by simp) hS, hx⟩
  | containsLinked d v x hf =>
    obtain ⟨S, hS, hx⟩ := hl
    exact ⟨hf, S, hD (by simp) hS, hx⟩
  | unlockVictim d v x => exact saw_spliceFrom v x (s.topLevel x + 1)
  | spliceMissed d v x i | unlockSpliced d v x i => exact saw_spliceFrom v x i
  | _ => trivial
end

/-! ## The effects -/

section
variable [LT T] [DecidableLT T] {L : ℕ → ℕ → Prop} {s s' : Shared ι T} {x : ℕ} {v : T}

omit [LT T] [DecidableLT T] in
theorem elements_same (h : Same s s') : elements s' = elements s := by
  simp only [elements, Live, h.data, h.full, h.marked]

omit [DecidableLT T] in
/-- A new node is not in the list yet. -/
theorem elements_alloc (hL : Levels L s) (v : T) (top : ℕ) :
    elements (s.alloc v top) = elements s := by
  ext y
  constructor
  · rintro ⟨a, ha, hf, hx⟩
    have hne : a ≠ s.nodes := by
      rintro rfl
      rw [show (s.alloc v top).fullyLinked s.nodes = false from Function.update_self ..] at hf
      cases hf
    exact ⟨a, (Function.update_of_ne hne _ _).symm.trans ha,
      (Function.update_of_ne hne _ _).symm.trans hf,
      (Function.update_of_ne hne _ _).symm.trans hx⟩
  · rintro ⟨a, ha, hf, hx⟩
    have hne : a ≠ s.nodes := (hL.used_of_full hf).ne
    exact ⟨a, (Function.update_of_ne hne _ _).trans ha, (Function.update_of_ne hne _ _).trans hf,
      (Function.update_of_ne hne _ _).trans hx⟩

omit [LT T] [DecidableLT T] in
/-- Setting `fully_linked` puts the node's element into the set. -/
theorem elements_full (hd : s.data x = .value v) (hx : s.marked x = false) :
    elements { s with fullyLinked := Function.update s.fullyLinked x true } =
      insert v (elements s) := by
  ext y
  rw [Set.mem_insert_iff]
  constructor
  · rintro ⟨a, ha, hf, hm⟩
    by_cases hax : a = x
    · subst hax
      exact .inl (Data.value.inj (ha.symm.trans hd))
    · exact .inr ⟨a, ha, (Function.update_of_ne hax _ _).symm.trans hf, hm⟩
  · rintro (rfl | ⟨a, ha, hf, hm⟩)
    · exact ⟨x, hd, Function.update_self .., hx⟩
    · refine ⟨a, ha, ?_, hm⟩
      by_cases hax : a = x
      · rw [hax]
        exact Function.update_self ..
      · exact (Function.update_of_ne hax _ _).trans hf

/-- Setting `marked` takes it out. -/
theorem elements_mark [IsStrictWeakOrder T (· < ·)] (hL : Levels L s)
    (hv : equals v (s.data x) = true)
    (hx : Live s x) :
    elements { s with marked := Function.update s.marked x true } =
      {y ∈ elements s | ¬ Equivalent y v} := by
  ext y
  constructor
  · rintro ⟨a, ha, hf, hm⟩
    have hax : a ≠ x := by
      rintro rfl
      have hm : Function.update s.marked a true a = false := hm
      rw [Function.update_self] at hm
      cases hm
    have hlive : Live s a := ⟨hf, (Function.update_of_ne hax _ _).symm.trans hm⟩
    refine ⟨⟨a, ha, hlive⟩, fun hy => hax ?_⟩
    exact hL.unique (hL.live_mem hlive) (hL.live_mem hx) (equals_iff.mpr ⟨y, ha, hy⟩) hv
  · rintro ⟨⟨a, ha, hf, hm⟩, hy⟩
    have hax : a ≠ x := by
      rintro rfl
      obtain ⟨z, hz, hzv⟩ := equals_iff.mp hv
      obtain rfl := Data.value.inj (ha.symm.trans hz)
      exact hy hzv
    exact ⟨a, ha, hf, (Function.update_of_ne hax _ _).trans hm⟩

variable [DecidableEq ι] {t : ι} {l' : Local T} {w : ℕ} {ev : Event (Op T) Res}
  {h : List (Step ι T)}
  {c : Config ι (Shared ι T) (Local T)}

/-- The linearization of a run, with the statuses of the threads' places. -/
abbrev Linear (h : List (Step ι T)) (c : Config ι (Shared ι T) (Local T)) : Prop :=
  LinearizedBy SetSpec elements (fun _ l => l.pc.status) h c

/-- **Every step can be linearized.** -/
theorem linear_move [IsStrictWeakOrder T (· < ·)] (hI : Inv L c.shared c.loc)
    (hR : Recalls L (during h t) c.shared) (hs : (c.loc t).pc.Saw (during h t) c.shared)
    (hm : Move w t c.shared ev (c.loc t) s' l') (hlin : Linear h c) :
    Linear (⟨t, ev, c, c.set t s' l'⟩ :: h) (c.set t s' l') := by
  have hL := hI.levels
  have hk := hI.knows t
  have hP := hI.mine t
  generalize hft : c.loc t = l at hm hk hs hP
  cases hm with
  | call g o => exact hlin.call (by rw [hft]; rfl) rfl rfl
  | ret d r => exact hlin.ret (by rw [hft]; rfl) rfl rfl
  | domain v d s₁ d' hm hd => exact hlin.tau (by rw [hft]) (elements_same (same_free _ _ _))
  | domainEnd v g r =>
    cases v with
    | enter o =>
      cases r with
      | noSlots => exact hlin.commit (by rw [hft]; rfl) rfl (.throws _ o)
      | _ => exact hlin.tau (by rw [hft]; exact status_begin o) rfl
    | retire | leave => exact hlin.tau (by rw [hft]; rfl) rfl
  | walk d k | descend d k => exact hlin.tau (by rw [hft]; cases k <;> rfl) rfl
  | found d k => exact hlin.tau (by rw [hft]; cases k <;> rfl) rfl
  | notFound d k pred preds succs curr hn hp he =>
    obtain ⟨S, hS, hpred⟩ := hs
    obtain ⟨S', hS', habs⟩ := hR.absent hS hpred hn hk.2.2.1.2 hp he
    cases k with
    | insert n v top => exact hlin.tau (by rw [hft]; rfl) rfl
    | erase v => exact hlin.read hS' (.eraseAbsent _ v habs) (by rw [hft]; rfl) rfl rfl
    | contains v => exact hlin.read hS' (.containsNot _ v habs) (by rw [hft]; rfl) rfl rfl
  | newNode d v top => exact hlin.tau (by rw [hft]; rfl) (elements_alloc hL v top)
  | foundLinked d n v x hf =>
    obtain ⟨S, hS, hp⟩ := hs hf
    exact hlin.read hS (.insertPresent _ v hp) (by rw [hft]; rfl) rfl rfl
  | foundWaits d n v x hf => exact hlin.tau (by rw [hft]) rfl
  | deleteNew d n => exact hlin.tau (by rw [hft]; rfl) (elements_same (same_free _ _ _))
  | setLast d a i => exact hlin.tau (by rw [hft]; exact status_lockFrom a 0) rfl
  | predNext d a i => exact hlin.tau (by rw [hft]; exact status_lockFrom a (i + 1)) rfl
  | predMarked d a i | succMarked d a i | predNextFail d a i =>
    exact hlin.tau (by rw [hft]; exact status_unlockFrom a false (i + 1)) rfl
  | unlock d a i valid => exact hlin.tau (by rw [hft]; exact status_unlockFrom a valid i) rfl
  | setFullyLinked d a =>
    have hmine := hP a.newNode rfl
    have hmem := hL.mem_of_unmarked ((hmine.linked 0).mpr (Nat.succ_pos _)) hmine.unmarked
    have hv : equals a.value (c.shared.data a.newNode) = true :=
      equals_iff.mpr ⟨a.value, hk.data, irrefl_of (· < ·) _, irrefl_of (· < ·) _⟩
    refine hlin.commit (by rw [hft]; rfl) (status_unlockFrom a true _) ?_
    rw [elements_full hk.data hmine.unmarked]
    refine .insert _ _ (hL.absent_of_dead hmem hv fun hlive => ?_)
    cases hlive.1.symm.trans hmine.unlinked
  | mark d v x =>
    refine hlin.commit (by rw [hft]; rfl) rfl ?_
    rw [elements_mark hL hk.2.1 ⟨hk.1, hk.2.2⟩]
    exact .erase _ v (present_of_live hk.2.1 ⟨hk.1, hk.2.2⟩)
  | victimMarked d v x hx =>
    obtain ⟨S, hS, hmem⟩ := hs
    obtain ⟨S', hS', habs⟩ := hR.missed hS hmem hk.2 (.inr hx)
    exact hlin.read hS' (.eraseAbsent _ v habs) (by rw [hft]; rfl) rfl rfl
  | recheckMarked d v x hx =>
    obtain ⟨S, hS, hmem⟩ := hs
    obtain ⟨S', hS', habs⟩ := hR.missed hS hmem hk.2 (.inr hx)
    exact hlin.read hS' (.eraseAbsent _ v habs) (by rw [hft]; rfl) rfl rfl
  | containsUnlinked d v x hf =>
    obtain ⟨S, hS, hmem⟩ := hs
    obtain ⟨S', hS', habs⟩ := hR.missed hS hmem hk.2 (.inl hf)
    exact hlin.read hS' (.containsNot _ v habs) (by rw [hft]; rfl) rfl rfl
  | containsMarked d v x =>
    obtain ⟨hf, S, hS, hmem⟩ := hs
    cases hx : c.shared.marked x with
    | true =>
      obtain ⟨S', hS', habs⟩ := hR.missed hS hmem hk.2 (.inr hx)
      exact hlin.read hS' (.containsNot _ v habs) (by rw [hft]; rfl) rfl rfl
    | false =>
      exact hlin.commit (by rw [hft]; rfl) rfl (.contains _ v (present_of_live hk.2 ⟨hf, hx⟩))
  | unlockVictim d v x =>
    exact hlin.tau (by rw [hft]; exact status_spliceFrom v x (c.shared.topLevel x + 1)) rfl
  | spliceMissed d v x i | unlockSpliced d v x i =>
    exact hlin.tau (by rw [hft]; exact status_spliceFrom v x i) rfl
  | _ => exact hlin.tau (by rw [hft]; rfl) rfl
end

/-! ## Runs -/

section
variable [LT T] [DecidableLT T] [DecidableEq ι] {w : ℕ} {h : List (Step ι T)}
  {c : Config ι (Shared ι T) (Local T)}

/-- What the threads recall and have seen. -/
structure Hindsight (h : List (Step ι T)) (c : Config ι (Shared ι T) (Local T)) : Prop where
  recalls : ∀ t, Recalls (everLinked h) (during h t) c.shared
  saw : ∀ t, (c.loc t).pc.Saw (during h t) c.shared

variable [IsStrictWeakOrder T (· < ·)]

theorem Hindsight.step {t : ι} {k : Choice T} {ev : Event (Op T) Res} {s : Shared ι T} {l : Local T}
    (hH : Hindsight h c) (hI : Inv (everLinked h) c.shared c.loc)
    (hs : ConcurrentSkipList.step w t k c.shared (c.loc t) = some (ev, s, l)) :
    Hindsight (⟨t, ev, c, c.set t s l⟩ :: h) (c.set t s l) := by
  have hm := step_move hs
  obtain ⟨hI', hG⟩ := inv_move hI hm
  have hnow : ∀ u, s ∈ during (⟨t, ev, c, c.set t s l⟩ :: h) u := fun u =>
    mem_during_now ⟨t, ev, c, c.set t s l⟩ h
  refine ⟨fun u => ?_, fun u => ?_⟩
  · refine (hH.recalls u).step hI.levels hI'.levels hG hm (hnow u) fun S hS => ?_
    rcases hS with rfl | ⟨hr, hS⟩
    · exact .inl rfl
    · exact .inr ⟨hS, fun S' hS' => mem_during_old hr hS'⟩
  · by_cases hut : u = t
    · subst hut
      rw [Config.set_loc_self]
      exact saw_move (hH.saw u) (hI.knows u) (hH.recalls u) hI.levels hI'.levels hG hm
        (fun hev S hS => mem_during_old (fun _ => hev) hS) (hnow u)
    · rw [Config.set_loc_ne c hut]
      exact (hH.saw u).mono (hI.knows u) hI.levels hG hm
        (fun S hS => mem_during_old (fun e => absurd e.symm hut) hS) (hnow u)

/-- Whoever has begun to link a node in is still at it, or the node is fully linked. -/
theorem unfinished_run (hr : (program w).Run Program.anyStep initial h c) {l a : ℕ}
    (ha : everLinked h l a) :
    a = head ∨ a = tail ∨ c.shared.fullyLinked a = true ∨ ∃ t, (c.loc t).pc.made = some a := by
  refine hr.induction (I := fun h c => everLinked h l a → a = head ∨ a = tail ∨
    c.shared.fullyLinked a = true ∨ ∃ t, (c.loc t).pc.made = some a)
    (fun ha => ha.2.imp_right .inl) (fun h c t k ev s l' hrun ih _ hs ha => ?_) ha
  have hI := inv_run hrun
  have hm := step_move hs
  obtain ⟨-, hG⟩ := inv_move hI hm
  have hkeep : ∀ u, (c.loc u).pc.made = some a →
      (∃ i, everLinked h i a) ∨ (c.loc t).pc.links = some (l, a) →
      s.fullyLinked a = true ∨ ∃ v, ((c.set t s l').loc v).pc.made = some a := by
    intro u hu hlinked
    by_cases hut : u = t
    · subst hut
      rcases hm.keeps_made hu with h1 | h1 | ⟨b, h1, rfl⟩
      · exact .inr ⟨u, by rw [Config.set_loc_self]; exact h1⟩
      · -- a node that was linked in is not deleted by its `insert`
        rcases hlinked with ⟨i, hi⟩ | hi
        · have := ((hI.mine u a hu).linked i).mp hi
          rw [h1] at this
          exact absurd this (Nat.not_lt_zero i)
        · rw [h1] at hi
          cases hi
      · left
        generalize c.loc u = l at hm h1
        obtain ⟨d, pc⟩ := l
        obtain rfl : pc = .setFullyLinked b := h1
        cases hm
        exact Function.update_self ..
    · exact .inr ⟨u, by rw [Config.set_loc_ne c hut]; exact hu⟩
  rcases ha with ha | ha
  · have hmade : (c.loc t).pc.made = some a := by
      generalize (c.loc t).pc = pc at ha
      cases pc with
      | link b j => cases ha; rfl
      | _ => cases ha
    exact .inr (.inr (hkeep t hmade (.inr ha)))
  · rcases ih ha with h1 | h1 | h1 | ⟨u, hu⟩
    · exact .inl h1
    · exact .inr (.inl h1)
    · exact .inr (.inr (.inl (hG.full a h1)))
    · exact .inr (.inr (hkeep u hu (.inl ⟨l, ha⟩)))

omit [LT T] [DecidableLT T] [DecidableEq ι] [IsStrictWeakOrder T (· < ·)] in
/-- A chain on which only one node has nothing behind it ends there. -/
theorem getLast?_of_ends {next : ℕ → Option ℕ} {p : Option ℕ} {l : List ℕ} {a : ℕ}
    (hc : Linked next p l)
    (hne : l ≠ []) (hends : ∀ b ∈ l, b ≠ a → ∃ d, next b = some d) : l.getLast? = some a := by
  induction l generalizing p with
  | nil => exact absurd rfl hne
  | cons b l ih =>
    cases l with
    | nil =>
      by_contra hba
      obtain ⟨d, hd⟩ := hends b (List.mem_singleton_self b) fun he => hba (he ▸ rfl)
      have hrest := hc.2
      rw [hd] at hrest
      cases hrest
    | cons d l =>
      rw [List.getLast?_cons_cons]
      exact ih hc.2 (List.cons_ne_nil d l) fun x hx => hends x (List.mem_cons_of_mem b hx)

omit [DecidableLT T] [DecidableEq ι] [IsStrictWeakOrder T (· < ·)] in
/-- Each level ends in the tail. -/
theorem level_last {s : Shared ι T} {L : ℕ → ℕ → Prop} (hL : Levels L s) {l : ℕ}
    (hl : l ≤ maxLevel) :
    (chainOf s l).getLast? = some tail :=
  have hc := hL.chain l hl
  getLast?_of_ends hc.chain (List.ne_nil_of_mem hc.head_mem)
    fun b hb => hL.ends l hl b (hc.mem b hb)

/-- When no operation is in progress, the nodes between the sentinels are those in the list. -/
theorem quiet_mem (hr : (program w).Run Program.anyStep initial h c)
    (hidle : ∀ t, (c.loc t).pc = .idle)
    (a : ℕ) : a ∈ chainOf c.shared 0 ↔ a = head ∨ a = tail ∨ Live c.shared a := by
  have hL := (inv_run hr).levels
  constructor
  · intro ha
    rcases unfinished_run hr (hL.linked_of_mem (Nat.zero_le _) ha) with h1 | h1 | h1 | ⟨t, ht⟩
    · exact .inl h1
    · exact .inr (.inl h1)
    · refine .inr (.inr ⟨h1, eq_false_of_ne_true fun hx => ?_⟩)
      rcases (accounted_run hr).marked a hx with ⟨t, ht⟩ | hret
      · rw [hidle t] at ht
        cases ht
      · exact ((reclaims_run hr).gone a hret).2 0 (Nat.zero_le _) ha
    · rw [hidle t] at ht
      cases ht
  · rintro (rfl | rfl | ha)
    · exact (hL.chain 0 (Nat.zero_le _)).head_mem
    · refine hL.mem_of_unmarked (hL.sentinels 0 (Nat.zero_le _)).2
        (eq_false_of_ne_true fun hx => ?_)
      exact (hL.marked_ne hx).2 rfl
    · exact hL.live_mem ha

end

/-- `is_tail`. -/
def isTail : Data T → Bool
  | .tail => true
  | _ => false

/-- `empty`. -/
def isEmpty (s : Shared ι T) : Bool := s.next 0 head == some tail

/-- What `for_each` passes to its function at a node. -/
def shown (s : Shared ι T) (a : ℕ) : List T :=
  match s.data a with
  | .value x => if s.fullyLinked a && !s.marked a then [x] else []
  | _ => []

/-- The elements `for_each` visits from `curr` on, if the loop ends within `n` rounds. -/
def forEach (s : Shared ι T) : ℕ → Option ℕ → Option (List T)
  | _, none => none
  | 0, some _ => none
  | n + 1, some curr =>
    if isTail (s.data curr) then some [] else (forEach s n (s.next 0 curr)).map (shown s curr ++ ·)

section
variable {s : Shared ι T} {a b : ℕ} {x : T}

theorem mem_shown : x ∈ shown s a ↔ s.data a = .value x ∧ Live s a := by
  unfold shown Live
  cases s.data a with
  | value y =>
    cases s.fullyLinked a <;> cases s.marked a <;> simp [eq_comm]
  | _ => simp

theorem shown_pairwise (r : T → T → Prop) : (shown s a).Pairwise r := by
  unfold shown
  cases s.data a with
  | value y => dsimp only; split <;> simp
  | _ => exact .nil

theorem forEach_eq {l : List ℕ} {p : Option ℕ} {n : ℕ} (h : Linked (s.next 0) p (l ++ [b]))
    (hb : isTail (s.data b) = true) (hl : ∀ a ∈ l, isTail (s.data a) = false) (hn : l.length < n) :
    forEach s n p = some (l.flatMap (shown s)) := by
  induction l generalizing p n with
  | nil =>
    obtain ⟨rfl, -⟩ := h
    cases n with
    | zero => exact absurd hn (Nat.lt_irrefl 0)
    | succ n =>
      unfold forEach
      rw [if_pos hb]
      rfl
  | cons a l ih =>
    obtain ⟨rfl, hrest⟩ := h
    cases n with
    | zero => exact absurd hn (Nat.not_lt_zero _)
    | succ n =>
      unfold forEach
      rw [hl a List.mem_cons_self, if_neg Bool.false_ne_true,
        ih hrest (fun a ha => hl a (List.mem_cons_of_mem _ ha)) (Nat.lt_of_succ_lt_succ hn)]
      rfl
end

section
variable [LT T] [DecidableLT T] [DecidableEq ι] [IsStrictWeakOrder T (· < ·)] {w : ℕ}
  {h : List (Step ι T)} {c : Config ι (Shared ι T) (Local T)}

/-- The nodes of level 0 when no operation is in progress: between the sentinels, those in the
list. -/
theorem quiet_chain (hr : (program w).Run Program.anyStep initial h c)
    (hidle : ∀ t, (c.loc t).pc = .idle) :
    ∃ l, chainOf c.shared 0 = head :: (l ++ [tail]) ∧ ∀ a, a ∈ l ↔ Live c.shared a := by
  have hL := (inv_run hr).levels
  have hchain := (hL.chain 0 (Nat.zero_le _)).chain
  obtain ⟨l', hl'⟩ := List.getLast?_eq_some_iff.mp (level_last hL (Nat.zero_le _))
  obtain ⟨l, hl⟩ : ∃ l, chainOf c.shared 0 = head :: (l ++ [tail]) := by
    rw [hl'] at hchain ⊢
    cases l' with
    | nil => exact absurd hchain.1 (by decide)
    | cons b l =>
      obtain rfl := Option.some.inj hchain.1
      exact ⟨l, rfl⟩
  have hnodup := hchain.nodup
  rw [hl, List.nodup_cons, List.nodup_append] at hnodup
  have hne : ∀ a, Live c.shared a → a ≠ head ∧ a ≠ tail := fun a ha => by
    obtain ⟨x, hx⟩ := (hL.full a ha.1).1
    exact hL.value_ne hx
  refine ⟨l, hl, fun a => ⟨fun ha => ?_, fun ha => ?_⟩⟩
  · have hmem : a ∈ chainOf c.shared 0 := by
      rw [hl]
      exact List.mem_cons_of_mem _ (List.mem_append_left _ ha)
    rcases (quiet_mem hr hidle a).mp hmem with rfl | rfl | hlive
    · exact absurd (List.mem_append_left _ ha) hnodup.1
    · exact absurd rfl (hnodup.2.2.2 _ ha _ (List.mem_singleton_self _))
    · exact hlive
  · have hmem := hL.live_mem ha
    rw [hl] at hmem
    have hmem := (List.mem_cons.mp hmem).resolve_left (hne a ha).1
    exact (List.mem_append.mp hmem).resolve_right fun ht => (hne a ha).2 (List.mem_singleton.mp ht)

/-- **`empty` and `for_each` are exact when nothing runs.** After any run that ends with no
operation in progress, `empty` says whether the set is empty, and `for_each` comes to its end and
has visited exactly the elements of the set, in ascending order. -/
theorem for_each_exact (hr : (program w).Run Program.anyStep initial h c)
    (hidle : ∀ t, (c.loc t).pc = .idle) :
    (isEmpty c.shared = true ↔ elements c.shared = ∅) ∧
    ∃ xs, forEach c.shared c.shared.nodes (c.shared.next 0 head) = some xs ∧ xs.Pairwise (· < ·) ∧
      ∀ x, x ∈ xs ↔ x ∈ elements c.shared := by
  have hL := (inv_run hr).levels
  have hc := hL.chain 0 (Nat.zero_le _)
  have hchain := hc.chain
  have hsorted := hc.sorted
  obtain ⟨l, hl, hlive⟩ := quiet_chain hr hidle
  have hlen : (chainOf c.shared 0).length ≤ c.shared.nodes := by
    have hsub : chainOf c.shared 0 ⊆ List.range c.shared.nodes := fun a ha =>
      List.mem_range.mpr (hL.used 0 a (hc.mem a ha)).1
    have := (List.subperm_of_subset hchain.nodup hsub).length_le
    rwa [List.length_range] at this
  rw [hl] at hchain hsorted hlen
  have hrest : Linked (c.shared.next 0) (c.shared.next 0 head) (l ++ [tail]) := hchain.2
  have hmem : ∀ x, x ∈ l.flatMap (shown c.shared) ↔ x ∈ elements c.shared := by
    intro x
    rw [List.mem_flatMap]
    constructor
    · rintro ⟨a, -, hx⟩
      exact ⟨a, mem_shown.mp hx⟩
    · rintro ⟨a, hx, ha⟩
      exact ⟨a, (hlive a).mpr ha, mem_shown.mpr ⟨hx, ha⟩⟩
  refine ⟨?_, l.flatMap (shown c.shared), forEach_eq hrest ?_ (fun a ha => ?_) ?_, ?_, hmem⟩
  · cases l with
    | nil =>
      have hnext : c.shared.next 0 head = some tail := hrest.1
      refine iff_of_true (by rw [isEmpty, hnext]; rfl)
        (Set.eq_empty_iff_forall_notMem.mpr fun x hx => ?_)
      cases (hmem x).mpr hx
    | cons a l =>
      have hnext : c.shared.next 0 head = some a := hrest.1
      have ha := (hlive a).mp List.mem_cons_self
      obtain ⟨x, hx⟩ := (hL.full a ha.1).1
      refine iff_of_false (fun he => ?_) fun he => ?_
      · rw [isEmpty, hnext, beq_iff_eq] at he
        exact (hL.value_ne hx).2 (Option.some.inj he)
      · exact (Set.eq_empty_iff_forall_notMem.mp he) x ⟨a, hx, ha⟩
  · rw [hL.data.2]
    rfl
  · obtain ⟨x, hx⟩ := (hL.full a ((hlive a).mp ha).1).1
    rw [hx]
    rfl
  · rw [List.length_cons, List.length_append] at hlen
    omega
  · refine List.pairwise_flatMap.mpr ⟨fun a _ => shown_pairwise _, ?_⟩
    refine (List.pairwise_append.mp (List.pairwise_cons.mp hsorted).2).1.imp fun hab x hx y hy => ?_
    rw [(mem_shown.mp hx).1, (mem_shown.mp hy).1] at hab
    exact hab
end

/-- 5 and 3 are inserted; `for_each` visits 3 and then 5. -/
theorem for_each_exact_two : ∃ h c,
    (program (ι := Bool) (T := ℕ) 64).Run Program.anyStep initial h c ∧ elements c.shared ≠ ∅ ∧
      ∃ xs, forEach c.shared c.shared.nodes (c.shared.next 0 head) = some xs ∧ xs.Pairwise (· < ·) ∧
        ∀ x, x ∈ xs ↔ x ∈ elements c.shared := by
  obtain ⟨h, c, hr, hq⟩ := Program.replay_reaches (program (ι := Bool) (T := ℕ) 64) initial
    (insertSteps 5 [] 46 ++ insertSteps 3 [] 46)
    (fun _ c => quiet c && !isEmpty c.shared)
    (by set_option maxRecDepth 10000 in decide)
  obtain ⟨hpc, hne⟩ := Bool.and_eq_true_iff.mp hq
  obtain ⟨h1, h2⟩ := for_each_exact hr (idle_of_quiet hpc)
  refine ⟨h, c, hr, fun he => ?_, h2⟩
  rw [h1.mpr he] at hne
  cases hne

end Bonostl.ConcurrentSkipList
