import Bonostl.ConcurrentSkipList.Levels

/-!
# What the threads of a skip list know

`Pc.Holds` are the mutexes a thread has locked at each place, `Pc.made` the node it has made and not
yet linked in at all levels, `Pc.victim` the node it has marked and is splicing out, and `Pc.Knows`
what it knows of the nodes in its local variables. A node's links are written by the thread that
made it, until they are linked in, and after that under the node's mutex only, while it is not
marked. So what a thread has checked of a predecessor it has locked stays true until it unlocks it
(`Spares`), and everything else it knows is what no step undoes (`Grows`).

`Inv` is kept by every step (`inv_move`).
-/

namespace Bonostl.ConcurrentSkipList

open Interleaving Chain

variable {ι T : Type}

namespace Pc

/-- The mutexes a thread holds. The predecessors of neighbouring levels may be one node. -/
def Holds (pc : Pc T) (m : ℕ) : Prop :=
  match pc with
  | .lock a i => ∃ j < i, a.preds j = m
  | .predMarked a i | .succMarked a i | .predNext a i | .unlock a i _ => ∃ j ≤ i, a.preds j = m
  | .link a _ | .setFullyLinked a => ∃ j ≤ a.top, a.preds j = m
  | .recheck _ x | .mark _ x | .unlockVictim _ x _ => m = x
  | .splicePredMarked _ _ _ pred | .splicePredNext _ _ _ pred | .victimNext _ _ _ pred
  | .storeNext _ _ _ pred _ | .unlockPred _ _ _ pred _ => m = pred
  | _ => False

/-- The mutex a thread is about to lock. -/
def wants : Pc T → Option ℕ
  | .lock a i => some (a.preds i)
  | .lockVictim _ x => some x
  | .lockPred _ _ _ pred => some pred
  | _ => none

/-- The node a thread has made and not yet linked in at all levels. -/
def made : Pc T → Option ℕ
  | .find (.insert n _ _) _ | .foundMarked n _ _ _ | .foundLinked n _ _ | .deleteNew n => some n
  | .setNext a _ | .lock a _ | .predMarked a _ | .succMarked a _ | .predNext a _ | .link a _
  | .setFullyLinked a | .unlock a _ false => some a.newNode
  | _ => none

/-- How many levels it is linked in at. -/
def levels : Pc T → ℕ
  | .link _ i => i
  | .setFullyLinked a => a.top + 1
  | _ => 0

/-- The node a thread has marked and is splicing out. -/
def victim : Pc T → Option ℕ
  | .unlockVictim _ x true | .splice _ x _ _ | .lockPred _ x _ _ | .splicePredMarked _ x _ _
  | .splicePredNext _ x _ _ | .victimNext _ x _ _ | .storeNext _ x _ _ _ | .unlockPred _ x _ _ _
  | .retire x => some x
  | _ => none

end Pc

section
variable [LT T] [DecidableLT T] (L : ℕ → ℕ → Prop) (s : Shared ι T)

/-- What `find` has recorded for the levels from `k` on: it stood before `v`, each time at a node of
the level, and not before the one of the level above. -/
structure Found (v : T) (k : ℕ) (preds succs : ℕ → ℕ) : Prop where
  pred : ∀ j, k ≤ j → j ≤ maxLevel → L j (preds j) ∧ precedes v (s.data (preds j)) = true
  succ : ∀ j, k ≤ j → j ≤ maxLevel → L j (succs j) ∧ precedes v (s.data (succs j)) = false
  order : ∀ j, k ≤ j → j < maxLevel →
    preds (j + 1) = preds j ∨ below (s.data (preds (j + 1))) (s.data (preds j))

/-- An attempt of `insert` after its search. -/
structure Attempt.Ready (a : Attempt T) : Prop where
  found : Found L s a.value 0 a.preds a.succs
  absent : equals a.value (s.data (a.succs 0)) = false
  used : a.newNode < s.nodes
  data : s.data a.newNode = .value a.value
  top : s.topLevel a.newNode = a.top

omit [LT T] [DecidableLT T] in
/-- The links of the new node are set for the levels from `i` to below `k`. -/
def Attempt.Set (a : Attempt T) (i k : ℕ) : Prop :=
  ∀ j, i ≤ j → j < k → s.next j a.newNode = some (a.succs j)

omit [DecidableLT T] in
/-- The levels from `i` to below `k` are valid. -/
def Attempt.Valid (a : Attempt T) (i k : ℕ) : Prop :=
  ∀ j, i ≤ j → j < k → s.marked (a.preds j) = false ∧ s.next j (a.preds j) = some (a.succs j) ∧
    below (.value a.value) (s.data (a.succs j))

/-- The victim of an `erase` that has done with the levels above `i`. -/
structure Victim (v : T) (x i : ℕ) : Prop where
  marked : s.marked x = true
  equal : equals v (s.data x) = true
  level : i ≤ s.topLevel x
  gone : ∀ j, i < j → j ≤ s.topLevel x → x ∉ chainOf s j

/-- Node `x` was linked in with an element equal to `v`. -/
def Matches (v : T) (x : ℕ) : Prop := L 0 x ∧ equals v (s.data x) = true

/-- A node at level `i` before `v`. -/
def Before (v : T) (i pred : ℕ) : Prop := L i pred ∧ precedes v (s.data pred) = true

omit [LT T] [DecidableLT T] in
/-- What an `insert` knows of its own node while it searches. -/
def Task.Ready : Task T → Prop
  | .insert n v top => s.data n = .value v ∧ s.topLevel n = top
  | _ => True

/-- What a thread knows at each place. -/
def Pc.Knows : Pc T → Prop
  | .find k f =>
    f.level ≤ maxLevel ∧ Found L s k.value (f.level + 1) f.preds f.succs ∧
      Before L s k.value f.level f.pred ∧
      (f.level < maxLevel → f.preds (f.level + 1) = f.pred ∨
        below (s.data (f.preds (f.level + 1))) (s.data f.pred)) ∧ k.Ready s
  | .foundMarked n v top x => (Task.insert n v top).Ready s ∧ Matches L s v x
  | .foundLinked _ v x => Matches L s v x
  | .setNext a i => a.Ready L s ∧ i ≤ a.top ∧ a.Set s 0 i
  | .lock a i =>
    a.Ready L s ∧ i ≤ a.top ∧ a.Set s 0 (a.top + 1) ∧ a.Valid s 0 i ∧
      (i = 0 ∨ a.preds i ≠ a.preds (i - 1))
  | .predMarked a i => a.Ready L s ∧ i ≤ a.top ∧ a.Set s 0 (a.top + 1) ∧ a.Valid s 0 i
  | .succMarked a i =>
    a.Ready L s ∧ i ≤ a.top ∧ a.Set s 0 (a.top + 1) ∧ a.Valid s 0 i ∧ s.marked (a.preds i) = false
  | .predNext a i =>
    a.Ready L s ∧ i ≤ a.top ∧ a.Set s 0 (a.top + 1) ∧ a.Valid s 0 i ∧
      s.marked (a.preds i) = false ∧ below (.value a.value) (s.data (a.succs i))
  | .link a i => a.Ready L s ∧ i ≤ a.top ∧ a.Set s i (a.top + 1) ∧ a.Valid s i (a.top + 1)
  | .setFullyLinked a => a.Ready L s
  | .unlock a i _ => a.Ready L s ∧ i ≤ maxLevel ∧ (i = 0 ∨ a.preds i ≠ a.preds (i - 1))
  | .victimLinked v x | .containsLinked v x | .containsMarked v x => Matches L s v x
  | .victimMarked v x | .lockVictim v x | .recheck v x =>
    s.fullyLinked x = true ∧ equals v (s.data x) = true
  | .mark v x => s.fullyLinked x = true ∧ equals v (s.data x) = true ∧ s.marked x = false
  | .unlockVictim v x isMarked =>
    s.fullyLinked x = true ∧ equals v (s.data x) = true ∧ (isMarked = true → s.marked x = true)
  | .splice v x i pred =>
    Victim s v x i ∧ Before L s v i pred ∧ (x ∈ chainOf s i → Reaches (s.next i) pred x)
  | .lockPred v x i pred | .splicePredMarked v x i pred => Victim s v x i ∧ Before L s v i pred
  | .splicePredNext v x i pred => Victim s v x i ∧ Before L s v i pred ∧ s.marked pred = false
  | .victimNext v x i pred =>
    Victim s v x i ∧ Before L s v i pred ∧ s.marked pred = false ∧ s.next i pred = some x
  | .storeNext v x i pred next =>
    Victim s v x i ∧ Before L s v i pred ∧ s.marked pred = false ∧ s.next i pred = some x ∧
      s.next i x = next
  | .unlockPred v x i pred spliced =>
    Victim s v x i ∧ Before L s v i pred ∧ (spliced = true → x ∉ chainOf s i)
  | .retire x => s.marked x = true ∧ ∀ j ≤ s.topLevel x, x ∉ chainOf s j
  | _ => True
end

/-- A node that is not public, or not at all levels: it is linked in below level `k`. -/
structure Private (L : ℕ → ℕ → Prop) (s : Shared ι T) (n k : ℕ) : Prop where
  used : n < s.nodes
  unlinked : s.fullyLinked n = false
  unmarked : s.marked n = false
  linked : ∀ l, L l n ↔ l < k

/-- **The invariant**; `L` are the nodes ever linked in, by level. -/
structure Inv [LT T] [DecidableLT T] (L : ℕ → ℕ → Prop) (s : Shared ι T) (f : ι → Local T) :
    Prop where
  levels : Levels L s
  mutex : ∀ m t, s.mutex m = some t ↔ (f t).pc.Holds m
  mine : ∀ t n, (f t).pc.made = some n → Private L s n (f t).pc.levels
  inj : ∀ t u n, (f t).pc.made = some n → (f u).pc.made = some n → t = u
  victims : ∀ t u x, (f t).pc.victim = some x → (f u).pc.victim = some x → t = u
  knows : ∀ t, (f t).pc.Knows L s

/-- What the steps of others leave of the nodes a thread has locked or made. -/
structure Spares (L : ℕ → ℕ → Prop) (s : Shared ι T) (L' : ℕ → ℕ → Prop) (s' : Shared ι T)
    (pc : Pc T) : Prop where
  held : ∀ m, pc.Holds m → s'.marked m = s.marked m ∧ ∀ l, s'.next l m = s.next l m
  own : ∀ n, pc.made = some n → s'.marked n = s.marked n ∧ s'.fullyLinked n = s.fullyLinked n ∧
    (∀ l, ¬ L l n → s'.next l n = s.next l n) ∧ ∀ l, L' l n ↔ L l n

/-! ## What is known stays known -/

section
variable [LT T] [DecidableLT T] {L L' : ℕ → ℕ → Prop} {s s' : Shared ι T}

section
variable (hL : Levels L s) (hG : Grows L s L' s')
include hL hG

omit [DecidableLT T] in
theorem Grows.data_eq {l a : ℕ} (ha : L l a) : s'.data a = s.data a := hG.data a (hL.used l a ha).1

theorem Found.mono {v : T} {k : ℕ} {preds succs : ℕ → ℕ} (h : Found L s v k preds succs) :
    Found L' s' v k preds succs := by
  refine ⟨fun j hk hj => ?_, fun j hk hj => ?_, fun j hk hj => ?_⟩
  · obtain ⟨h1, h2⟩ := h.pred j hk hj
    exact ⟨hG.linked _ _ h1, by rw [Grows.data_eq hL hG h1]; exact h2⟩
  · obtain ⟨h1, h2⟩ := h.succ j hk hj
    exact ⟨hG.linked _ _ h1, by rw [Grows.data_eq hL hG h1]; exact h2⟩
  · rw [Grows.data_eq hL hG (h.pred j hk hj.le).1,
      Grows.data_eq hL hG (h.pred (j + 1) (by omega) hj).1]
    exact h.order j hk hj

theorem Attempt.Ready.mono {a : Attempt T} (h : a.Ready L s) : a.Ready L' s' :=
  ⟨h.found.mono hL hG, by
    rw [Grows.data_eq hL hG (h.found.succ 0 le_rfl (Nat.zero_le _)).1]; exact h.absent,
    h.used.trans_le hG.nodes, by rw [hG.data _ h.used]; exact h.data,
    by rw [hG.topLevel _ h.used]; exact h.top⟩

omit hG in
theorem Attempt.Ready.top_le {a : Attempt T} (h : a.Ready L s) : a.top ≤ maxLevel := by
  rw [← h.top]
  exact hL.top _ h.used

omit [DecidableLT T] in
/-- A marked node that is not on a level does not come back. -/
theorem Grows.gone_of {x j : ℕ} (hx : s.marked x = true) (hj : j ≤ s.topLevel x)
    (hn : x ∉ chainOf s j) : x ∉ chainOf s' j := by
  have hf := hL.marked x hx
  exact hG.gone j (hj.trans (hL.top x (hL.used_of_full hf))) x (hL.linked_of_full hf hj) hn

theorem Victim.mono {v : T} {x i : ℕ} (h : Victim s v x i) : Victim s' v x i := by
  have hu := hL.used_of_full (hL.marked x h.marked)
  refine ⟨hG.marked x h.marked, by rw [hG.data x hu]; exact h.equal,
    by rw [hG.topLevel x hu]; exact h.level, fun j hj hm => ?_⟩
  rw [hG.topLevel x hu] at hm
  exact Grows.gone_of hL hG h.marked hm (h.gone j hj hm)

theorem Matches.mono {v : T} {x : ℕ} (h : Matches L s v x) : Matches L' s' v x :=
  ⟨hG.linked 0 x h.1, by rw [Grows.data_eq hL hG h.1]; exact h.2⟩

theorem Before.mono {v : T} {i pred : ℕ} (h : Before L s v i pred) : Before L' s' v i pred :=
  ⟨hG.linked i pred h.1, by rw [Grows.data_eq hL hG h.1]; exact h.2⟩

omit hG in
theorem Grows.frozen_victim (hG : Grows L s L' s') {v : T} {x i : ℕ} (h : Victim s v x i) :
    s'.next i x = s.next i x :=
  hG.frozen i x (hL.linked_of_full (hL.marked x h.marked) h.level) h.marked

/-- **What a thread knows is not undone by others.** -/
theorem Pc.Knows.mono {pc : Pc T} (h : pc.Knows L s) (hS : Spares L s L' s' pc)
    (hP : ∀ n, pc.made = some n → Private L s n pc.levels) : pc.Knows L' s' := by
  -- an attempt of `insert`
  have hset : ∀ (a : Attempt T) (i k : ℕ), pc.made = some a.newNode → pc.levels ≤ i → a.Set s i k →
      a.Set s' i k := by
    intro a i k hm hle hs j hj hk
    rw [(hS.own _ hm).2.2.1 j (fun hl => by have := ((hP _ hm).linked j).mp hl; omega)]
    exact hs j hj hk
  have hvalid : ∀ (a : Attempt T) (i k : ℕ), (∀ j, i ≤ j → j < k → pc.Holds (a.preds j)) →
      (∀ j, j < k → j ≤ maxLevel) → a.Ready L s → a.Valid s i k → a.Valid s' i k := by
    intro a i k hh hmax hr hv j hj hk
    obtain ⟨h1, h2, h3⟩ := hv j hj hk
    obtain ⟨h4, h5⟩ := hS.held _ (hh j hj hk)
    have h6 := (hr.found.succ j (Nat.zero_le _) (hmax j hk)).1
    exact ⟨h4.trans h1, (h5 j).trans h2, by rw [Grows.data_eq hL hG h6]; exact h3⟩
  cases pc with
  | find k f =>
    obtain ⟨h1, h2, h3, h4, h5⟩ := h
    refine ⟨h1, h2.mono hL hG, h3.mono hL hG, fun hl => ?_, ?_⟩
    · rw [Grows.data_eq hL hG (h2.pred _ le_rfl hl).1, Grows.data_eq hL hG h3.1]
      exact h4 hl
    · cases k with
      | insert n v top =>
        have hu := (hP n rfl).used
        exact ⟨by rw [hG.data n hu]; exact h5.1, by rw [hG.topLevel n hu]; exact h5.2⟩
      | erase v | contains v => trivial
  | foundMarked n v top x =>
    have hu := (hP n rfl).used
    exact ⟨⟨by rw [hG.data n hu]; exact h.1.1, by rw [hG.topLevel n hu]; exact h.1.2⟩,
      h.2.mono hL hG⟩
  | foundLinked n v x => exact Matches.mono hL hG h
  | victimLinked v x | containsLinked v x | containsMarked v x => exact Matches.mono hL hG h
  | setNext a i =>
    obtain ⟨h1, h2, h3⟩ := h
    exact ⟨h1.mono hL hG, h2, hset a 0 i rfl le_rfl h3⟩
  | lock a i =>
    obtain ⟨h1, h2, h3, h4, h5⟩ := h
    have hm := h1.top_le hL
    exact ⟨h1.mono hL hG, h2, hset a 0 _ rfl le_rfl h3,
      hvalid a 0 i (fun j _ hj => ⟨j, hj, rfl⟩) (fun j hj => by omega) h1 h4, h5⟩
  | predMarked a i =>
    obtain ⟨h1, h2, h3, h4⟩ := h
    have hm := h1.top_le hL
    exact ⟨h1.mono hL hG, h2, hset a 0 _ rfl le_rfl h3,
      hvalid a 0 i (fun j _ hj => ⟨j, hj.le, rfl⟩) (fun j hj => by omega) h1 h4⟩
  | succMarked a i =>
    obtain ⟨h1, h2, h3, h4, h5⟩ := h
    have hm := h1.top_le hL
    exact ⟨h1.mono hL hG, h2, hset a 0 _ rfl le_rfl h3,
      hvalid a 0 i (fun j _ hj => ⟨j, hj.le, rfl⟩) (fun j hj => by omega) h1 h4,
      (hS.held _ ⟨i, le_rfl, rfl⟩).1.trans h5⟩
  | predNext a i =>
    obtain ⟨h1, h2, h3, h4, h5, h6⟩ := h
    have hm := h1.top_le hL
    refine ⟨h1.mono hL hG, h2, hset a 0 _ rfl le_rfl h3,
      hvalid a 0 i (fun j _ hj => ⟨j, hj.le, rfl⟩) (fun j hj => by omega) h1 h4,
      (hS.held _ ⟨i, le_rfl, rfl⟩).1.trans h5, ?_⟩
    rw [Grows.data_eq hL hG (h1.found.succ i (Nat.zero_le _) (by omega)).1]
    exact h6
  | link a i =>
    obtain ⟨h1, h2, h3, h4⟩ := h
    have hm := h1.top_le hL
    exact ⟨h1.mono hL hG, h2, hset a i _ rfl le_rfl h3,
      hvalid a i _ (fun j _ hj => ⟨j, by omega, rfl⟩) (fun j hj => by omega) h1 h4⟩
  | setFullyLinked a => exact Attempt.Ready.mono hL hG h
  | unlock a i valid =>
    exact ⟨h.1.mono hL hG, h.2⟩
  | victimMarked v x | lockVictim v x | recheck v x =>
    exact ⟨hG.full x h.1, by rw [hG.data x (hL.used_of_full h.1)]; exact h.2⟩
  | mark v x =>
    obtain ⟨h1, h2, h3⟩ := h
    exact ⟨hG.full x h1, by rw [hG.data x (hL.used_of_full h1)]; exact h2,
      (hS.held x rfl).1.trans h3⟩
  | unlockVictim v x isMarked =>
    obtain ⟨h1, h2, h3⟩ := h
    exact ⟨hG.full x h1, by rw [hG.data x (hL.used_of_full h1)]; exact h2,
      fun hm => hG.marked x (h3 hm)⟩
  | splice v x i pred =>
    obtain ⟨h1, h2, h3⟩ := h
    have hi := hL.le_max h2.1
    refine ⟨h1.mono hL hG, h2.mono hL hG, fun hx => hG.reach i hi pred x h2.1 hx (h3 ?_)⟩
    by_contra hn
    exact Grows.gone_of hL hG h1.marked h1.level hn hx
  | lockPred v x i pred | splicePredMarked v x i pred => exact ⟨h.1.mono hL hG, h.2.mono hL hG⟩
  | splicePredNext v x i pred =>
    obtain ⟨h1, h2, h3⟩ := h
    exact ⟨h1.mono hL hG, h2.mono hL hG, (hS.held pred rfl).1.trans h3⟩
  | victimNext v x i pred =>
    obtain ⟨h1, h2, h3, h4⟩ := h
    obtain ⟨h5, h6⟩ := hS.held pred rfl
    exact ⟨h1.mono hL hG, h2.mono hL hG, h5.trans h3, (h6 i).trans h4⟩
  | storeNext v x i pred next =>
    obtain ⟨h1, h2, h3, h4, h5⟩ := h
    obtain ⟨h6, h7⟩ := hS.held pred rfl
    exact ⟨h1.mono hL hG, h2.mono hL hG, h6.trans h3, (h7 i).trans h4,
      (Grows.frozen_victim hL hG h1).trans h5⟩
  | unlockPred v x i pred spliced =>
    obtain ⟨h1, h2, h3⟩ := h
    exact ⟨h1.mono hL hG, h2.mono hL hG, fun hs => Grows.gone_of hL hG h1.marked h1.level (h3 hs)⟩
  | retire x =>
    obtain ⟨h1, h2⟩ := h
    refine ⟨hG.marked x h1, fun j hj => ?_⟩
    rw [hG.topLevel x (hL.used_of_full (hL.marked x h1))] at hj
    exact Grows.gone_of hL hG h1 hj (h2 j hj)
  | _ => trivial
end
end

/-! ## The places after a loop -/

section
variable {a : Attempt T} {valid : Bool} {n l m x : ℕ} {v : T}

theorem lockFrom_cases (a : Attempt T) (l : ℕ) :
    (l ≤ a.top ∧ (l = 0 ∨ a.preds l ≠ a.preds (l - 1)) ∧ lockFrom a l = .lock a l) ∨
    (l ≤ a.top ∧ l ≠ 0 ∧ a.preds l = a.preds (l - 1) ∧ lockFrom a l = .predMarked a l) ∨
    (a.top < l ∧ lockFrom a l = .link a 0) := by
  unfold lockFrom
  split
  · split
    · exact .inl ⟨‹_›, ‹_›, rfl⟩
    · rename_i hl hne
      push Not at hne
      exact .inr (.inl ⟨hl, hne.1, hne.2, rfl⟩)
  · rename_i hl
    exact .inr (.inr ⟨by omega, rfl⟩)

/-- A predecessor that is the one of the level below adds no mutex. -/
theorem exists_pred_le (hl : l ≠ 0) (he : a.preds l = a.preds (l - 1)) :
    (∃ j ≤ l, a.preds j = m) ↔ ∃ j < l, a.preds j = m := by
  constructor
  · rintro ⟨j, hj, hm⟩
    by_cases hjl : j = l
    · exact ⟨l - 1, by omega, by rw [← he, ← hjl]; exact hm⟩
    · exact ⟨j, by omega, hm⟩
  · rintro ⟨j, hj, hm⟩
    exact ⟨j, hj.le, hm⟩

theorem holds_lockFrom (hl : l ≤ a.top + 1) : (lockFrom a l).Holds m ↔ ∃ j < l, a.preds j = m := by
  rcases lockFrom_cases a l with ⟨-, -, he⟩ | ⟨-, h0, hp, he⟩ | ⟨ht, he⟩
  · rw [he]; rfl
  · rw [he]
    exact exists_pred_le h0 hp
  · rw [he]
    obtain rfl : l = a.top + 1 := by omega
    simp only [Pc.Holds, Nat.lt_succ_iff]

theorem lockFrom_tables (a : Attempt T) (l : ℕ) : (lockFrom a l).made = some a.newNode ∧
    (lockFrom a l).levels = 0 ∧ (lockFrom a l).victim = none := by
  rcases lockFrom_cases a l with ⟨-, -, he⟩ | ⟨-, -, -, he⟩ | ⟨-, he⟩
  all_goals rw [he]; exact ⟨rfl, rfl, rfl⟩

theorem holds_unlockFrom : (unlockFrom a valid n).Holds m ↔ ∃ j < n, a.preds j = m := by
  induction n with
  | zero =>
    unfold unlockFrom
    split <;> simp [Pc.Holds, search]
  | succ l ih =>
    unfold unlockFrom
    split
    · simp only [Pc.Holds, Nat.lt_succ_iff]
    · rename_i hne
      push Not at hne
      simp only [ih, Nat.lt_succ_iff]
      exact (exists_pred_le hne.1 hne.2).symm

theorem unlockFrom_tables (a : Attempt T) (valid : Bool) (n : ℕ) :
    (unlockFrom a valid n).made = (if valid then none else some a.newNode) ∧
      (unlockFrom a valid n).levels = 0 ∧ (unlockFrom a valid n).victim = none := by
  induction n with
  | zero => cases valid <;> exact ⟨rfl, rfl, rfl⟩
  | succ l ih =>
    unfold unlockFrom
    split
    · cases valid <;> exact ⟨rfl, rfl, rfl⟩
    · exact ih

theorem spliceFrom_tables (v : T) (x n : ℕ) : (spliceFrom v x n).made = none ∧
    (spliceFrom v x n).levels = 0 ∧ (spliceFrom v x n).victim = some x ∧
    ∀ m, ¬ (spliceFrom v x n).Holds m := by
  cases n <;> exact ⟨rfl, rfl, rfl, fun _ => id⟩

variable [LT T] [DecidableLT T] {L : ℕ → ℕ → Prop} {s : Shared ι T}

theorem knows_search (hL : Levels L s) {k : Task T} (hk : k.Ready s) : (search k).Knows L s := by
  refine ⟨le_rfl, ⟨fun j hj hm => ?_, fun j hj hm => ?_, fun j hj hm => ?_⟩,
    ⟨(hL.sentinels _ le_rfl).1, ?_⟩, fun hl => absurd hl (lt_irrefl _), hk⟩
  · exact absurd (hj.trans hm) (Nat.not_succ_le_self _)
  · exact absurd (hj.trans hm) (Nat.not_succ_le_self _)
  · exact absurd (hj.trans hm.le) (Nat.not_succ_le_self _)
  · rw [hL.data.1]
    rfl

theorem knows_lockFrom (hr : a.Ready L s) (hs : a.Set s 0 (a.top + 1)) (hv : a.Valid s 0 l)
    (hl : l ≤ a.top + 1) : (lockFrom a l).Knows L s := by
  rcases lockFrom_cases a l with ⟨ht, hne, he⟩ | ⟨ht, -, -, he⟩ | ⟨ht, he⟩
  · rw [he]; exact ⟨hr, ht, hs, hv, hne⟩
  · rw [he]; exact ⟨hr, ht, hs, hv⟩
  · rw [he]
    obtain rfl : l = a.top + 1 := by omega
    exact ⟨hr, Nat.zero_le _, hs, hv⟩

theorem knows_unlockFrom (hL : Levels L s) (hr : a.Ready L s) (hn : n ≤ maxLevel + 1) :
    (unlockFrom a valid n).Knows L s := by
  induction n with
  | zero =>
    cases valid with
    | true => trivial
    | false => exact knows_search hL ⟨hr.data, hr.top⟩
  | succ l ih =>
    unfold unlockFrom
    split
    · exact ⟨hr, by omega, ‹_›⟩
    · exact ih (by omega)

theorem knows_spliceFrom (hL : Levels L s) (hx : s.marked x = true)
    (he : equals v (s.data x) = true)
    (hn : n ≤ s.topLevel x + 1) (hg : ∀ j, n ≤ j → j ≤ s.topLevel x → x ∉ chainOf s j) :
    (spliceFrom v x n).Knows L s := by
  have hf := hL.marked x hx
  have htop := hL.top x (hL.used_of_full hf)
  cases n with
  | zero => exact ⟨hx, fun j hj => hg j (Nat.zero_le _) hj⟩
  | succ i =>
    have hi : i ≤ maxLevel := by omega
    refine ⟨⟨hx, he, by omega, fun j hj => hg j hj⟩, ⟨(hL.sentinels i hi).1, ?_⟩, fun hmem => ?_⟩
    · rw [hL.data.1]
      rfl
    · exact (hL.chain i hi).reaches_of_mem hmem
end

/-! ## Steps -/

/-- The two states differ at most in the mutexes, the deleted nodes and the domain. -/
structure Same (s s' : Shared ι T) : Prop where
  next : s'.next = s.next
  marked : s'.marked = s.marked
  full : s'.fullyLinked = s.fullyLinked
  data : s'.data = s.data
  topLevel : s'.topLevel = s.topLevel
  nodes : s'.nodes = s.nodes

theorem Same.refl (s : Shared ι T) : Same s s := ⟨rfl, rfl, rfl, rfl, rfl, rfl⟩

theorem same_free (s : Shared ι T) (d : EpochDomain.Shared ι ℕ) (o : Option ℕ) :
    Same s (Shared.free { s with domain := d } o) := by
  cases o <;> exact ⟨rfl, rfl, rfl, rfl, rfl, rfl⟩

section
variable [LT T] [DecidableLT T] {L L' : ℕ → ℕ → Prop} {s s' : Shared ι T} {f : ι → Local T}
  {t u : ι} {l' : Local T} {m n x i : ℕ} {pc : Pc T}

omit [DecidableLT T] in
theorem Same.grows (hL : Levels L s) (h : Same s s') : Levels L s' ∧ Grows L s L s' :=
  hL.frame h.nodes.ge (fun a _ => by rw [h.data]) (fun a _ => by rw [h.topLevel])
    (by rw [h.nodes, h.topLevel]; exact hL.top) h.marked h.full fun l a _ => by rw [h.next]

omit [LT T] [DecidableLT T] in
theorem Same.spares (h : Same s s') : Spares L s L s' pc :=
  ⟨fun m _ => ⟨by rw [h.marked], fun l => by rw [h.next]⟩,
    fun n _ => ⟨by rw [h.marked], by rw [h.full], fun l _ => by rw [h.next], fun _ => Iff.rfl⟩⟩

omit [LT T] [DecidableLT T] in
theorem Private.mono {k : ℕ} (h : Private L s n k) (hn : s.nodes ≤ s'.nodes)
    (hm : s'.marked n = s.marked n) (hf : s'.fullyLinked n = s.fullyLinked n)
    (hl : ∀ l, L' l n ↔ L l n) : Private L' s' n k :=
  ⟨h.used.trans_le hn, hf.trans h.unlinked, hm.trans h.unmarked, fun l => (hl l).trans (h.linked l)⟩

/-- What a thread has locked was linked in. -/
theorem Pc.Knows.held_linked (hL : Levels L s) (h : pc.Knows L s) (hm : pc.Holds m) :
    ∃ l, L l m := by
  have hpred : ∀ (a : Attempt T) (j : ℕ), a.Ready L s → j ≤ maxLevel → a.preds j = m → ∃ l, L l m :=
    fun a j hr hj he => ⟨j, he ▸ (hr.found.pred j (Nat.zero_le _) hj).1⟩
  cases pc with
  | lock a i =>
    obtain ⟨j, hj, he⟩ := hm
    have := h.1.top_le hL
    have := h.2.1
    exact hpred a j h.1 (by omega) he
  | predMarked a i | succMarked a i | predNext a i =>
    obtain ⟨j, hj, he⟩ := hm
    have := h.1.top_le hL
    have := h.2.1
    exact hpred a j h.1 (by omega) he
  | link a i =>
    obtain ⟨j, hj, he⟩ := hm
    exact hpred a j h.1 (hj.trans (h.1.top_le hL)) he
  | setFullyLinked a =>
    obtain ⟨j, hj, he⟩ := hm
    exact hpred a j h (hj.trans (Attempt.Ready.top_le hL h)) he
  | unlock a i valid =>
    obtain ⟨j, hj, he⟩ := hm
    exact hpred a j h.1 (hj.trans h.2.1) he
  | recheck v x => exact ⟨_, hm ▸ (hL.full x h.1).2⟩
  | mark v x => exact ⟨_, hm ▸ (hL.full x h.1).2⟩
  | unlockVictim v x isMarked => exact ⟨_, hm ▸ (hL.full x h.1).2⟩
  | splicePredMarked v x i pred => exact ⟨i, hm ▸ h.2.1⟩
  | splicePredNext v x i pred | victimNext v x i pred | storeNext v x i pred next
  | unlockPred v x i pred spliced => exact ⟨i, hm ▸ h.2.1.1⟩
  | _ => cases hm

/-- A victim is marked. -/
theorem victim_marked (h : pc.Knows L s) (hx : pc.victim = some x) : s.marked x = true := by
  cases pc with
  | unlockVictim v y isMarked =>
    cases isMarked with
    | true => cases hx; exact h.2.2 rfl
    | false => cases hx
  | splice v y i pred => cases hx; exact h.1.marked
  | lockPred v y i pred | splicePredMarked v y i pred => cases hx; exact h.1.marked
  | splicePredNext v y i pred | victimNext v y i pred | storeNext v y i pred next
  | unlockPred v y i pred spliced => cases hx; exact h.1.marked
  | retire y => cases hx; exact h.1
  | _ => cases hx

/-- Two threads hold no common mutex. -/
theorem Inv.exclusive (h : Inv L s f) (ht : (f t).pc.Holds m) (hu : (f u).pc.Holds m) : u = t := by
  have h1 := (h.mutex m t).mpr ht
  have h2 := (h.mutex m u).mpr hu
  rw [h1] at h2
  exact (Option.some.inj h2).symm

variable [DecidableEq ι]

/-- The invariant after a step, from its parts. -/
theorem Inv.assemble (h : Inv L s f) (hL' : Levels L' s') (hG : Grows L s L' s')
    (hmutex : ∀ m u, s'.mutex m = some u ↔ (Function.update f t l' u).pc.Holds m)
    (hmine : ∀ n, l'.pc.made = some n →
      Private L' s' n l'.pc.levels ∧ ∀ u, u ≠ t → (f u).pc.made ≠ some n)
    (hvict : ∀ x, l'.pc.victim = some x → ∀ u, u ≠ t → (f u).pc.victim ≠ some x)
    (hspare : ∀ u, u ≠ t → Spares L s L' s' (f u).pc) (hkn : l'.pc.Knows L' s') :
    Inv L' s' (Function.update f t l') := by
  have hset : ∀ (q : ι → Local T → Prop), q t l' → (∀ u, u ≠ t → q u (f u)) →
      ∀ u, q u (Function.update f t l' u) := by
    intro q h1 h2 u
    by_cases hu : u = t
    · subst hu; rwa [Function.update_self]
    · rw [Function.update_of_ne hu]; exact h2 u hu
  refine ⟨hL', hmutex, hset (fun u l => ∀ n, l.pc.made = some n → Private L' s' n l.pc.levels)
    (fun n hn => (hmine n hn).1) (fun u hu n hn => ?_), ?_, ?_,
    hset (fun u l => l.pc.Knows L' s') hkn fun u hu => ?_⟩
  · obtain ⟨h1, h2, -, h4⟩ := (hspare u hu).own n hn
    exact (h.mine u n hn).mono hG.nodes h1 h2 h4
  · refine hset (fun u l => ∀ v n, l.pc.made = some n →
      (Function.update f t l' v).pc.made = some n → u = v) (fun v n hn hv => ?_)
      fun u hu v n hn hv => ?_
    · by_contra hne
      rw [Function.update_of_ne (Ne.symm hne)] at hv
      exact (hmine n hn).2 v (Ne.symm hne) hv
    · by_cases hvt : v = t
      · subst hvt
        rw [Function.update_self] at hv
        exact absurd hn ((hmine n hv).2 u hu)
      · rw [Function.update_of_ne hvt] at hv
        exact h.inj u v n hn hv
  · refine hset (fun u l => ∀ v x, l.pc.victim = some x →
      (Function.update f t l' v).pc.victim = some x → u = v) (fun v x hx hv => ?_)
      fun u hu v x hx hv => ?_
    · by_contra hne
      rw [Function.update_of_ne (Ne.symm hne)] at hv
      exact hvict x hx v (Ne.symm hne) hv
    · by_cases hvt : v = t
      · subst hvt
        rw [Function.update_self] at hv
        exact absurd hx (hvict x hv u hu)
      · rw [Function.update_of_ne hvt] at hv
        exact h.victims u v x hx hv
  · exact (h.knows u).mono h.levels hG (hspare u hu) (h.mine u)

/-! The mutexes. -/

theorem Inv.mutex_set (h : Inv L s f) (s' : Shared ι T)
    (hnew : ∀ m, s'.mutex m = some t ↔ l'.pc.Holds m)
    (hother : ∀ m u, u ≠ t → (s'.mutex m = some u ↔ s.mutex m = some u)) :
    ∀ m u, s'.mutex m = some u ↔ (Function.update f t l' u).pc.Holds m := by
  intro m u
  by_cases hu : u = t
  · subst hu; rw [Function.update_self]; exact hnew m
  · rw [Function.update_of_ne hu, hother m u hu]; exact h.mutex m u

theorem Inv.mutex_same (h : Inv L s f) (hs : s'.mutex = s.mutex)
    (hl : ∀ m, l'.pc.Holds m ↔ (f t).pc.Holds m) :
    ∀ m u, s'.mutex m = some u ↔ (Function.update f t l' u).pc.Holds m :=
  h.mutex_set s' (fun m => by rw [hs, h.mutex, hl]) fun m u _ => by rw [hs]

theorem Inv.mutex_lock (h : Inv L s f) (hm : s.mutex x = none)
    (hl : ∀ m, l'.pc.Holds m ↔ m = x ∨ (f t).pc.Holds m) :
    ∀ m u, Function.update s.mutex x (some t) m = some u ↔
      (Function.update f t l' u).pc.Holds m := by
  refine h.mutex_set { s with mutex := Function.update s.mutex x (some t) } (fun m => ?_)
    fun m u hu => ?_
  · rw [hl, ← h.mutex]
    by_cases hmx : m = x
    · subst hmx; simp
    · simp [hmx]
  · by_cases hmx : m = x
    · subst hmx; simp [hm, Ne.symm hu]
    · simp [Function.update_of_ne hmx]

theorem Inv.mutex_unlock (h : Inv L s f) (ht : (f t).pc.Holds x)
    (hl : ∀ m, l'.pc.Holds m ↔ m ≠ x ∧ (f t).pc.Holds m) :
    ∀ m u, Function.update s.mutex x none m = some u ↔ (Function.update f t l' u).pc.Holds m := by
  refine h.mutex_set (s.unlock x) (fun m => ?_) fun m u hu => ?_
  · rw [hl, ← h.mutex]
    by_cases hmx : m = x
    · subst hmx; simp [Shared.unlock]
    · simp [Shared.unlock, hmx]
  · by_cases hmx : m = x
    · subst hmx
      simp [Shared.unlock, (h.mutex m t).mpr ht, Ne.symm hu]
    · simp [Shared.unlock, Function.update_of_ne hmx]

/-- A step that writes to no node. -/
theorem Inv.goto (h : Inv L s f) (hq : Same s s')
    (hmutex : ∀ m u, s'.mutex m = some u ↔ (Function.update f t l' u).pc.Holds m)
    (hmade : l'.pc.made = none ∨ l'.pc.made = (f t).pc.made ∧ l'.pc.levels = (f t).pc.levels)
    (hvict : l'.pc.victim = none ∨ l'.pc.victim = (f t).pc.victim) (hkn : l'.pc.Knows L s) :
    Inv L s' (Function.update f t l') := by
  obtain ⟨hL', hG⟩ := hq.grows h.levels
  have hmine : ∀ n, l'.pc.made = some n → Private L s n l'.pc.levels ∧
      ∀ u, u ≠ t → (f u).pc.made ≠ some n := by
    intro n hn
    rcases hmade with hmade | ⟨h1, h2⟩
    · rw [hmade] at hn; cases hn
    · rw [h1] at hn
      rw [h2]
      exact ⟨h.mine t n hn, fun u hu hun => hu (h.inj u t n hun hn)⟩
  refine h.assemble hL' hG hmutex (fun n hn => ⟨?_, (hmine n hn).2⟩) (fun x hx u hu hux => ?_)
    (fun u _ => hq.spares) (hkn.mono h.levels hG hq.spares fun n hn => (hmine n hn).1)
  · obtain ⟨h1, h2, -, h4⟩ := (hq.spares : Spares L s L s' l'.pc).own n hn
    exact (hmine n hn).1.mono hG.nodes h1 h2 h4
  · rcases hvict with hvict | hvict
    · rw [hvict] at hx; cases hx
    · rw [hvict] at hx
      exact hu (h.victims u t x hux hx)

/-! The writes. -/

/-- The nodes linked in after a step from `pc`. -/
def Pc.links : Pc T → Option (ℕ × ℕ)
  | .link a i => some (i, a.newNode)
  | _ => none

/-- `L` after a step from `pc`. -/
def extend (L : ℕ → ℕ → Prop) (pc : Pc T) : ℕ → ℕ → Prop :=
  fun l a => pc.links = some (l, a) ∨ L l a

omit [LT T] [DecidableLT T] [DecidableEq ι] in
theorem extend_none (h : pc.links = none) : extend L pc = L := by
  funext l a
  simp [extend, h]

theorem Inv.new (h : Inv L s f) {v : T} {top : ℕ} (ht : top ≤ maxLevel) {d : EpochDomain.Local ℕ}
    (hft : (f t).pc = .newNode v) : Inv L (s.alloc v top)
      (Function.update f t ⟨d, search (.insert s.nodes v top)⟩) ∧ Grows L s L (s.alloc v top) := by
  obtain ⟨hL', hG⟩ := h.levels.alloc (v := v) ht
  have hno : ∀ l, ¬ L l s.nodes := fun l hl => lt_irrefl _ (h.levels.used l _ hl).1
  have hheld : ∀ u m, (f u).pc.Holds m → m ≠ s.nodes := by
    rintro u m hm rfl
    obtain ⟨l, hl⟩ := (h.knows u).held_linked h.levels hm
    exact hno l hl
  have hown : ∀ u n, (f u).pc.made = some n → n ≠ s.nodes := fun u n hn =>
    ((h.mine u n hn).used).ne
  refine ⟨h.assemble hL' hG ?_ (fun n hn => ?_) nofun (fun u _ => ⟨fun m hm => ?_, fun n hn => ?_⟩)
    (knows_search hL' ⟨Function.update_self .., Function.update_self ..⟩), hG⟩
  · have hfree : s.mutex s.nodes = none := by
      refine Option.eq_none_iff_forall_ne_some.mpr fun u hu => ?_
      exact hheld u _ ((h.mutex _ u).mp hu) rfl
    exact h.mutex_same (Function.update_eq_self_iff.mpr hfree.symm) fun m => by
      rw [hft]; exact Iff.rfl
  · obtain rfl := Option.some.inj hn
    exact ⟨⟨Nat.lt_succ_self _, Function.update_self .., Function.update_self ..,
      fun l => ⟨fun hl => absurd hl (hno l), fun hl => absurd hl (Nat.not_lt_zero l)⟩⟩,
      fun u _ hu => hown u _ hu rfl⟩
  · exact ⟨Function.update_of_ne (hheld u m hm) _ _, fun l => Function.update_of_ne
      (hheld u m hm) _ _⟩
  · have hne := hown u n hn
    exact ⟨Function.update_of_ne hne _ _, Function.update_of_ne hne _ _,
      fun l _ => Function.update_of_ne hne _ _, fun _ => Iff.rfl⟩

omit [LT T] [DecidableLT T] [DecidableEq ι] in
/-- Who has not locked the node that is written to, nor made it. -/
theorem spares_setNext {o : Option ℕ} (hheld : ∀ m, pc.Holds m → m ≠ x)
    (hown : ∀ n, pc.made = some n → n ≠ x ∨ L i x)
    (hl : ∀ n, pc.made = some n → ∀ l, L' l n ↔ L l n) :
    Spares L s L' (s.setNext i x o) pc := by
  have hne : ∀ m, m ≠ x → ∀ l, (s.setNext i x o).next l m = s.next l m := by
    intro m hm l
    by_cases hli : l = i
    · subst hli
      rw [setNext_next, Function.update_of_ne hm]
    · rw [setNext_next_ne s hli]
  refine ⟨fun m hm => ⟨rfl, hne m (hheld m hm)⟩, fun n hn => ⟨rfl, rfl, fun l hln => ?_, hl n hn⟩⟩
  by_cases hnx : n = x
  · by_cases hli : l = i
    · subst hli
      subst hnx
      exact absurd ((hown n hn).resolve_left fun e => e rfl) hln
    · rw [setNext_next_ne s hli]
  · exact hne n hnx l

/-- `insert` sets a link of its own node. -/
theorem Inv.set_next (h : Inv L s f) {a : Attempt T} {pc' : Pc T} {d : EpochDomain.Local ℕ}
    (hft : (f t).pc = .setNext a i) (hm : ∀ m, ¬ pc'.Holds m) (hn : pc'.made = some a.newNode)
    (hl : pc'.levels = 0) (hv : pc'.victim = none)
    (hkn : a.Ready L (s.setNext i a.newNode (some (a.succs i))) →
      a.Set (s.setNext i a.newNode (some (a.succs i))) 0 (i + 1) →
      pc'.Knows L (s.setNext i a.newNode (some (a.succs i)))) :
    Inv L (s.setNext i a.newNode (some (a.succs i))) (Function.update f t ⟨d, pc'⟩) ∧
      Grows L s L (s.setNext i a.newNode (some (a.succs i))) := by
  have hk := h.knows t
  have hmade : (f t).pc.made = some a.newNode := by rw [hft]; rfl
  have hP := h.mine t _ hmade
  have hno : ∀ l, ¬ L l a.newNode := fun l hl => by
    have := (hP.linked l).mp hl
    rw [hft] at this
    exact Nat.not_lt_zero l this
  rw [hft] at hk
  obtain ⟨hr, -, hs⟩ := hk
  obtain ⟨hL', hG⟩ := h.levels.set_next hno (some (a.succs i)) (i := i)
  refine ⟨h.assemble hL' hG (h.mutex_same rfl fun m => ?_) (fun n hn' => ?_) (fun x hx => ?_)
    (fun u hu => spares_setNext (fun m hm => ?_) (fun n hn => .inl ?_) fun _ _ _ => Iff.rfl)
    (hkn (hr.mono h.levels hG) fun j hj hji => ?_), hG⟩
  · rw [hft]
    exact ⟨fun hh => hm m hh, nofun⟩
  · obtain rfl : a.newNode = n := Option.some.inj (hn.symm.trans hn')
    refine ⟨⟨hP.used, hP.unlinked, hP.unmarked, fun l => ?_⟩,
      fun u hu hun => hu (h.inj u t _ hun hmade)⟩
    show L l a.newNode ↔ l < pc'.levels
    rw [hl]
    exact ⟨fun hl => absurd hl (hno l), fun hl => absurd hl (Nat.not_lt_zero l)⟩
  · rw [show (⟨d, pc'⟩ : Local T).pc.victim = none from hv] at hx
    cases hx
  · rintro rfl
    obtain ⟨l, hl⟩ := (h.knows u).held_linked h.levels hm
    exact hno l hl
  · rintro rfl
    exact hu (h.inj u t _ hn hmade)
  · by_cases hji' : j = i
    · subst hji'
      rw [setNext_next, Function.update_self]
    · rw [setNext_next_ne s hji']
      exact hs j hj (by omega)

omit [LT T] [DecidableLT T] [DecidableEq ι] in
theorem extend_link (a : Attempt T) (i : ℕ) :
    extend L (.link a i) = fun l b => (l = i ∧ b = a.newNode) ∨ L l b := by
  funext l b
  simp [extend, Pc.links, eq_comm]

/-- `insert` links its node in at one level. -/
theorem Inv.link (h : Inv L s f) {a : Attempt T} {pc' : Pc T} {d : EpochDomain.Local ℕ}
    (hft : (f t).pc = .link a i) (hh : ∀ m, pc'.Holds m ↔ (Pc.link a i).Holds m)
    (hn : pc'.made = some a.newNode) (hl : pc'.levels = i + 1) (hv : pc'.victim = none)
    (hkn : a.Ready (extend L (.link a i)) (s.setNext i (a.preds i) (some a.newNode)) →
      a.Set (s.setNext i (a.preds i) (some a.newNode)) (i + 1) (a.top + 1) →
      a.Valid (s.setNext i (a.preds i) (some a.newNode)) (i + 1) (a.top + 1) →
      pc'.Knows (extend L (.link a i)) (s.setNext i (a.preds i) (some a.newNode))) :
    Inv (extend L (.link a i)) (s.setNext i (a.preds i) (some a.newNode))
        (Function.update f t ⟨d, pc'⟩) ∧
      Grows L s (extend L (.link a i)) (s.setNext i (a.preds i) (some a.newNode)) := by
  have hk := h.knows t
  have hmade : (f t).pc.made = some a.newNode := by rw [hft]; rfl
  have hP := h.mine t _ hmade
  have hholds : (f t).pc.Holds (a.preds i) := by
    rw [hft] at hk ⊢
    exact ⟨i, hk.2.1, rfl⟩
  rw [hft] at hk hP
  obtain ⟨hr, hi, hs, hval⟩ := hk
  have himax : i ≤ maxLevel := hi.trans (hr.top_le h.levels)
  obtain ⟨hpL, hpp⟩ := hr.found.pred i (Nat.zero_le _) himax
  obtain ⟨hpm, hpb, hvb⟩ := hval i le_rfl (by omega)
  obtain ⟨hL', hG⟩ := h.levels.link hpL hpm hpb (hs i le_rfl (by omega))
    (fun hl => lt_irrefl i ((hP.linked i).mp hl))
    (fun j hj => (hP.linked j).mpr (show j < i by omega)) hP.used (by rw [hr.top]; exact hi) hr.data
    hP.unmarked (by rw [hr.data]; exact precedes_iff.mp hpp) (by rw [hr.data]; exact hvb)
  rw [← extend_link] at hL' hG
  refine ⟨h.assemble hL' hG (h.mutex_same rfl fun m => ?_) (fun n hn' => ?_) (fun x hx => ?_)
    (fun u hu => spares_setNext (fun m hm => ?_) (fun n hn => .inr hpL) fun n hun l => ?_)
    (hkn (hr.mono h.levels hG) (fun j hj hjt => ?_) fun j hj hjt => ?_), hG⟩
  · rw [hft]
    exact hh m
  · obtain rfl : a.newNode = n := Option.some.inj (hn.symm.trans hn')
    refine ⟨⟨hP.used, hP.unlinked, hP.unmarked, fun l => ?_⟩,
      fun u hu hun => hu (h.inj u t _ hun hmade)⟩
    show extend L (.link a i) l a.newNode ↔ l < pc'.levels
    rw [hl, extend_link]
    simp only [and_true, hP.linked l]
    show l = i ∨ l < i ↔ l < i + 1
    omega
  · rw [show (⟨d, pc'⟩ : Local T).pc.victim = none from hv] at hx
    cases hx
  · rintro rfl
    exact hu (h.exclusive hholds hm)
  · rw [extend_link]
    have hne : n ≠ a.newNode := by
      rintro rfl
      exact hu (h.inj u t _ hun hmade)
    simp [hne]
  · rw [setNext_next_ne s (show j ≠ i by omega)]
    exact hs j (by omega) hjt
  · rw [setNext_next_ne s (show j ≠ i by omega)]
    exact hval j (by omega) hjt

/-- `insert` has linked its node in at all levels. -/
theorem Inv.full (h : Inv L s f) {a : Attempt T} {d : EpochDomain.Local ℕ}
    (hft : (f t).pc = .setFullyLinked a) :
    Inv L { s with fullyLinked := Function.update s.fullyLinked a.newNode true }
        (Function.update f t ⟨d, unlockFrom a true (a.top + 1)⟩) ∧
      Grows L s L { s with fullyLinked := Function.update s.fullyLinked a.newNode true } := by
  have hk := h.knows t
  have hmade : (f t).pc.made = some a.newNode := by rw [hft]; rfl
  have hP := h.mine t _ hmade
  rw [hft] at hk hP
  have hr : a.Ready L s := hk
  obtain ⟨h1, h2, h3⟩ := unlockFrom_tables a true (a.top + 1)
  obtain ⟨hL', hG⟩ := h.levels.full_set (n := a.newNode)
    ((hP.linked _).mpr (by rw [hr.top]; exact Nat.lt_succ_self _)) hr.data
  refine ⟨h.assemble hL' hG (h.mutex_same rfl fun m => ?_) (fun n hn => ?_) (fun x hx => ?_)
    (fun u hu => ⟨fun m _ => ⟨rfl, fun _ => rfl⟩, fun n hn => ⟨rfl, Function.update_of_ne ?_ _ _,
      fun _ _ => rfl, fun _ => Iff.rfl⟩⟩)
    (knows_unlockFrom hL' (hr.mono h.levels hG) (Nat.succ_le_succ (hr.top_le h.levels))), hG⟩
  · rw [hft, holds_unlockFrom]
    simp only [Pc.Holds, Nat.lt_succ_iff]
  · rw [h1] at hn
    cases hn
  · rw [h3] at hx
    cases hx
  · rintro rfl
    exact hu (h.inj u t _ hn hmade)

/-- `erase` marks its victim. -/
theorem Inv.mark (h : Inv L s f) {v : T} {d : EpochDomain.Local ℕ} (hft : (f t).pc = .mark v x) :
    Inv L { s with marked := Function.update s.marked x true }
        (Function.update f t ⟨d, .unlockVictim v x true⟩) ∧
      Grows L s L { s with marked := Function.update s.marked x true } := by
  have hk := h.knows t
  have hholds : (f t).pc.Holds x := by rw [hft]; rfl
  rw [hft] at hk
  obtain ⟨hf, he, hm⟩ := hk
  obtain ⟨hL', hG⟩ := h.levels.mark hf
  refine ⟨h.assemble hL' hG (h.mutex_same rfl fun m => by rw [hft]; exact Iff.rfl) nofun
    (fun y hy u hu hun => ?_)
    (fun u hu => ⟨fun m hum => ⟨Function.update_of_ne ?_ _ _, fun _ => rfl⟩,
      fun n hn => ⟨Function.update_of_ne ?_ _ _, rfl, fun _ _ => rfl, fun _ => Iff.rfl⟩⟩)
    ⟨hf, he, fun _ => Function.update_self ..⟩, hG⟩
  · obtain rfl := Option.some.inj hy
    have hmx := victim_marked (h.knows u) hun
    rw [hm] at hmx
    cases hmx
  · rintro rfl
    exact hu (h.exclusive hholds hum)
  · rintro rfl
    rw [(h.mine u _ hn).unlinked] at hf
    cases hf

/-- `erase` splices its victim out at one level. -/
theorem Inv.store [IsStrictOrder T (· < ·)] (h : Inv L s f) {v : T} {pred : ℕ} {next : Option ℕ}
    {d : EpochDomain.Local ℕ} (hft : (f t).pc = .storeNext v x i pred next) :
    Inv L (s.setNext i pred next) (Function.update f t ⟨d, .unlockPred v x i pred true⟩) ∧
      Grows L s L (s.setNext i pred next) := by
  have hk := h.knows t
  have hholds : (f t).pc.Holds pred := by rw [hft]; rfl
  rw [hft] at hk
  obtain ⟨hV, hB, hpm, hpx, rfl⟩ := hk
  obtain ⟨hL', hG, hgone⟩ := h.levels.splice hB.1 hpm hpx hV.marked fun hi hmem => by
    have hl := (h.levels.used _ _ (h.levels.linked_of_mem hi hmem)).2
    exact hV.gone (i + 1) (Nat.lt_succ_self i) hl hmem
  refine ⟨h.assemble hL' hG (h.mutex_same rfl fun m => by rw [hft]; exact Iff.rfl) nofun
    (fun y hy u hu hun => ?_) (fun u hu => spares_setNext (fun m hm => ?_) (fun n hn => .inr hB.1)
      fun _ _ _ => Iff.rfl) ⟨hV.mono h.levels hG, hB.mono h.levels hG, fun _ => hgone⟩, hG⟩
  · refine hu (h.victims u t y hun ?_)
    rw [hft]
    exact hy
  · rintro rfl
    exact hu (h.exclusive hholds hm)

/-! ## What the checks give -/

omit [DecidableEq ι] in
/-- Of two levels with different predecessors, the upper one's is strictly before. -/
theorem Found.below_of_ne [IsStrictOrder T (· < ·)] {v : T} {preds succs : ℕ → ℕ} {j : ℕ}
    (h : Found L s v 0 preds succs) (hi : i ≤ maxLevel) (hne : preds i ≠ preds (i - 1))
    (hj : j < i) :
    below (s.data (preds i)) (s.data (preds j)) := by
  obtain ⟨k, rfl⟩ : ∃ k, i = k + 1 := ⟨i - 1, by omega⟩
  rw [Nat.add_sub_cancel] at hne
  have htop := (h.order k (Nat.zero_le _) hi).resolve_left hne
  -- downwards from the level right below
  have hdown : ∀ d, d ≤ k → below (s.data (preds (k + 1))) (s.data (preds (k - d))) := by
    intro d
    induction d with
    | zero => exact fun _ => htop
    | succ d ih =>
      intro hd
      have := ih (by omega)
      have ho := h.order (k - (d + 1)) (Nat.zero_le _) (by omega)
      rw [show k - (d + 1) + 1 = k - d by omega] at ho
      rcases ho with ho | ho
      · rw [← ho]; exact this
      · exact IsTrans.trans _ _ _ this ho
  have := hdown (k - j) (by omega)
  rwa [show k - (k - j) = j by omega] at this

omit [DecidableEq ι] in
/-- A successor that is not marked is behind the new element: were it an equal one, it would be
between the predecessor and the successor of level 0. -/
theorem above_succ [IsStrictWeakOrder T (· < ·)] (hL : Levels L s) {a : Attempt T}
    (hr : a.Ready L s)
    (hi : i ≤ maxLevel) (hv : a.Valid s 0 i) (hm : s.marked (a.succs i) = false) :
    below (.value a.value) (s.data (a.succs i)) := by
  obtain ⟨hsL, hsp⟩ := hr.found.succ i (Nat.zero_le _) hi
  by_cases hi0 : i = 0
  · subst hi0
    exact above_of_stop hsp hr.absent
  · refine above_of_stop hsp (eq_false_of_ne_true fun he => ?_)
    obtain ⟨hpm, hpn, -⟩ := hv 0 le_rfl (Nat.pos_of_ne_zero hi0)
    obtain ⟨hpL, hpp⟩ := hr.found.pred 0 le_rfl (Nat.zero_le _)
    obtain ⟨-, hsp0⟩ := hr.found.succ 0 le_rfl (Nat.zero_le _)
    have hmem := hL.mem_of_unmarked (hL.nested_le (Nat.zero_le i) hsL) hm
    rcases (hL.chain 0 (Nat.zero_le _)).gap hpL hpm hmem with hx | hx | ⟨b, hb, hx⟩
    · rw [hx, hpp] at hsp
      cases hsp
    · have := precedes_iff.mpr (IsTrans.trans _ _ _ hx (precedes_iff.mp hpp))
      rw [this] at hsp
      cases hsp
    · obtain rfl := Option.some.inj (hpn.symm.trans hb)
      rcases hx with hx | hx
      · have := hr.absent
        rw [← hx, he] at this
        cases this
      · have := precedes_of_equals he hx
        rw [this] at hsp0
        cases hsp0

omit [DecidableEq ι] in
/-- A walk that has come past its victim has not missed it. -/
theorem not_mem_of_missed [IsStrictWeakOrder T (· < ·)] (hL : Levels L s) {v : T} {pred curr : ℕ}
    (hV : Victim s v x i) (hB : Before L s v i pred)
    (hreach : x ∈ chainOf s i → Reaches (s.next i) pred x) (hn : s.next i pred = some curr)
    (hcx : curr ≠ x) (hp : precedes v (s.data curr) = false) : x ∉ chainOf s i := by
  intro hmem
  have hpx : pred ≠ x := by
    rintro rfl
    have hlt := precedes_iff.mp hB.2
    obtain ⟨y, hy, -, h2⟩ := equals_value hV.equal
    rw [hy] at hlt
    exact h2 hlt
  have hc := (hreach hmem).step hpx hn
  have hcL := hL.next_linked hB.1 hn
  rcases ((hL.chain i (hL.le_max hB.1)).reaches_above hcL.1 hc).2 with he | hlt
  · exact hcx he.symm
  · rw [precedes_of_equals hV.equal hlt] at hp
    cases hp
end

end Bonostl.ConcurrentSkipList
