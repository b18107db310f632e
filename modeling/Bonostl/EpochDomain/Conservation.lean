import Bonostl.EpochDomain.Guarantee
import Bonostl.Interleaving.Linearizable
import Bonostl.Interleaving.Places

/-!
# Where a retired node is

A node made by `retire` is with the thread that is about to push it, on the shared list, on the
private list of one `collect`, or deleted, and in one of these places once (`one_place`). The
re-push of a survivor overwrites its `next` pointer, but only after `collect` has loaded it.

A `collect` that runs alone deletes every node it takes except those whose `retire_epoch` is the
largest value of an `unsigned long`: without an active guard `min_announced` keeps that value, and
the comparison is strict (`collect_alone`).
-/

namespace Bonostl.EpochDomain

open Interleaving

variable {ι α : Type}

/-- Where a retired node is: with the thread that pushes it, on the list, with the thread whose pass
has taken the list, or deleted. -/
inductive Place (ι : Type) where
  | pushing (t : ι)
  | listed
  | swept (t : ι)
  | deleted
  deriving DecidableEq

/-- The node `retire` has made and not yet pushed. -/
def Pc.pushing : Pc α → List ℕ
  | .retire id _ => [id]
  | .pushLoad n none | .pushCas n _ none => [n.id]
  | _ => []

/-- The private list of a `collect`, the node it is pushing back included. -/
def Pc.sweeping : Pc α → List ℕ
  | .pushLoad n (some (_, rest)) | .pushCas n _ (some (_, rest)) => n.id :: rest.map RetiredNode.id
  | .sweep _ list => list.map RetiredNode.id
  | _ => []

/-- How often node `n` is at a place. -/
def located (s : Shared ι α) (f : ι → Local α) (n : ℕ) : Place ι → ℕ
  | .pushing t => (f t).pc.pushing.count n
  | .listed => (s.retiredHead.map RetiredNode.id).count n
  | .swept t => (f t).pc.sweeping.count n
  | .deleted => s.deleted n

/-- Every node retired so far is at one place, once. -/
structure Placed (s : Shared ι α) (f : ι → Local α) : Prop where
  old : ∀ n, n < s.retires → Sole (located s f n)
  new : ∀ n, s.retires ≤ n → Nowhere (located s f n)

@[simp] theorem scanFrom_pushing (i m : ℕ) : (scanFrom i m : Pc α).pushing = [] := by
  unfold scanFrom; split <;> rfl

@[simp] theorem scanFrom_sweeping (i m : ℕ) : (scanFrom i m : Pc α).sweeping = [] := by
  unfold scanFrom; split <;> rfl

section
variable [DecidableEq ι] {s s' : Shared ι α} {f : ι → Local α} {t : ι} {l' : Local α}

/-- What the other threads hold does not change, and what the mover holds is said of its place. -/
theorem located_set {n : ℕ} {p : Place ι} (hl : p = .listed →
      (s'.retiredHead.map RetiredNode.id).count n = (s.retiredHead.map RetiredNode.id).count n)
    (hd : p = .deleted → s'.deleted n = s.deleted n)
    (hp : p = .pushing t → l'.pc.pushing.count n = (f t).pc.pushing.count n)
    (hs : p = .swept t → l'.pc.sweeping.count n = (f t).pc.sweeping.count n) :
    located s' (Function.update f t l') n p = located s f n p := by
  cases p with
  | listed => exact hl rfl
  | deleted => exact hd rfl
  | pushing u =>
    by_cases hu : u = t
    · subst hu; simpa [located] using hp rfl
    · simp [located, hu]
  | swept u =>
    by_cases hu : u = t
    · subst hu; simpa [located] using hs rfl
    · simp [located, hu]

/-- A step that moves no node. -/
theorem Placed.quiet (h : Placed s f) (hr : s'.retires = s.retires)
    (hl : s'.retiredHead = s.retiredHead) (hd : ∀ n, s'.deleted n = s.deleted n)
    (hp : l'.pc.pushing = (f t).pc.pushing) (hs : l'.pc.sweeping = (f t).pc.sweeping) :
    Placed s' (Function.update f t l') := by
  have hsame : ∀ n p, located s' (Function.update f t l') n p = located s f n p := fun n p =>
    located_set (fun _ => by rw [hl]) (fun _ => hd n) (fun _ => by rw [hp]) fun _ => by rw [hs]
  refine ⟨fun n hn => (h.old n (hr ▸ hn)).congr (hsame n), fun n hn p => ?_⟩
  rw [hsame]
  exact h.new n (hr ▸ hn) p

/-- A step that takes the nodes satisfying `moved` from one place to another. -/
theorem Placed.moves (h : Placed s f) (moved : ℕ → Prop) {p q : Place ι} (hpq : p ≠ q)
    (hr : s'.retires = s.retires)
    (hfrom : ∀ n, moved n → located s f n p = located s' (Function.update f t l') n p + 1)
    (hto : ∀ n, moved n → located s' (Function.update f t l') n q = located s f n q + 1)
    (hother : ∀ n r, moved n → r ≠ p → r ≠ q →
      located s' (Function.update f t l') n r = located s f n r)
    (hrest : ∀ n r, ¬ moved n → located s' (Function.update f t l') n r = located s f n r) :
    Placed s' (Function.update f t l') := by
  have hold : ∀ n, moved n → n < s.retires := by
    intro n hn
    by_contra hge
    have h0 := h.new n (by omega) p
    have := hfrom n hn
    omega
  refine ⟨fun n hn => ?_, fun n hn r => ?_⟩
  · by_cases hm : moved n
    · exact (h.old n (hr ▸ hn)).move hpq (hfrom n hm) (hto n hm) fun r => hother n r hm
    · exact (h.old n (hr ▸ hn)).congr fun r => hrest n r hm
  · have hm : ¬ moved n := fun hm => by have := hold n hm; omega
    rw [hrest n r hm]
    exact h.new n (hr ▸ hn) r

/-- A `retire` call makes a node that was nowhere. -/
theorem Placed.retire (h : Placed s f) {g : List ℕ} {p : α} (hft : f t = ⟨g, .idle⟩) :
    Placed { s with retires := s.retires + 1 } (Function.update f t ⟨g, .retire s.retires p⟩) := by
  have hother : ∀ n r, (n ≠ s.retires ∨ r ≠ .pushing t) →
      located { s with retires := s.retires + 1 } (Function.update f t ⟨g, .retire s.retires p⟩)
        n r =
        located s f n r := by
    intro n r hne
    refine located_set (fun _ => rfl) (fun _ => rfl) (fun hr => ?_) fun _ => by rw [hft]; rfl
    have hn : n ≠ s.retires := hne.resolve_right fun h => h hr
    rw [hft]
    simp [Pc.pushing, hn.symm]
  refine ⟨fun n hn => ?_, fun n hn r => ?_⟩
  · by_cases hns : n = s.retires
    · subst hns
      refine Sole.first (q := .pushing t) (h.new _ le_rfl) ?_ fun r hr => hother _ r (.inr hr)
      simp [located, hft, Pc.pushing]
    · exact (h.old n (by simp at hn; omega)).congr fun r => hother n r (.inl hns)
  · simp only at hn
    rw [hother n r (.inl (by omega))]
    exact h.new n (by omega) r

/-- `collect` takes the shared list. -/
theorem Placed.take (h : Placed s f) {g : List ℕ} {m : ℕ} (hft : f t = ⟨g, .takeList m⟩) :
    Placed { s with retiredHead := [] } (Function.update f t ⟨g, .sweep m s.retiredHead⟩) := by
  have hsweep : (f t).pc.sweeping = [] := by rw [hft]; rfl
  have hpush : (f t).pc.pushing = [] := by rw [hft]; rfl
  have hone : ∀ n, n ∈ s.retiredHead.map RetiredNode.id →
      (s.retiredHead.map RetiredNode.id).count n = 1 := by
    intro n hn
    have hpos : 0 < located s f n .listed := List.count_pos_iff.mpr hn
    by_cases hlt : n < s.retires
    · exact ((h.old n hlt).eq_one hpos).1
    · have := h.new n (by omega) .listed
      omega
  refine h.moves (fun n => n ∈ s.retiredHead.map RetiredNode.id) (p := .listed)
    (q := .swept t) (by simp) rfl (fun n hn => ?_) (fun n hn => ?_) ?_ ?_
  · simpa [located] using hone n hn
  · simpa [located, hft, Pc.sweeping] using hone n hn
  · intro n r _ hr hr'
    exact located_set (fun e => absurd e hr) (fun _ => rfl) (fun _ => by rw [hpush]; rfl)
      fun e => absurd e hr'
  · intro n r hn
    have h0 : (s.retiredHead.map RetiredNode.id).count n = 0 := List.count_eq_zero.mpr hn
    refine located_set (fun _ => ?_) (fun _ => rfl) (fun _ => by rw [hpush]; rfl) fun _ => ?_
    · simpa using h0.symm
    · rw [hsweep]; exact h0

/-- A push puts one node on the shared list. -/
theorem Placed.push (h : Placed s f) {g : List ℕ} {n : RetiredNode α} {next : Option ℕ}
    {r : Option (ℕ × List (RetiredNode α))} (hft : f t = ⟨g, .pushCas n next r⟩) :
    Placed { s with retiredHead := n :: s.retiredHead } (Function.update f t ⟨g, afterPush r⟩) := by
  have hlist : ∀ i, ((n :: s.retiredHead).map RetiredNode.id).count i =
      (s.retiredHead.map RetiredNode.id).count i + if i = n.id then 1 else 0 := by
    intro i
    by_cases hi : i = n.id <;> simp [hi, eq_comm]
  cases r with
  | none =>
    refine h.moves (fun i => i = n.id) (p := .pushing t) (q := .listed) (by simp) rfl
      (fun i hi => ?_) (fun i hi => ?_) ?_ ?_
    · simp [located, hft, Pc.pushing, afterPush, hi]
    · simp [located, hi]
    · intro i p hi hp hq
      exact located_set (fun e => absurd e hq) (fun _ => rfl) (fun e => absurd e hp)
        fun _ => by rw [hft]; rfl
    · intro i p hi
      refine located_set (fun _ => by simpa [hi] using hlist i) (fun _ => rfl) (fun _ => ?_)
        fun _ => by rw [hft]; rfl
      rw [hft]
      simp [Pc.pushing, afterPush, Ne.symm hi]
  | some mr =>
    obtain ⟨m, rest⟩ := mr
    refine h.moves (fun i => i = n.id) (p := .swept t) (q := .listed) (by simp) rfl
      (fun i hi => ?_) (fun i hi => ?_) ?_ ?_
    · simp [located, hft, Pc.sweeping, afterPush, hi]
    · simp [located, hi]
    · intro i p hi hp hq
      exact located_set (fun e => absurd e hq) (fun _ => rfl) (fun _ => by rw [hft]; rfl)
        fun e => absurd e hp
    · intro i p hi
      refine located_set (fun _ => by simpa [hi] using hlist i) (fun _ => rfl)
        (fun _ => by rw [hft]; rfl) fun _ => ?_
      rw [hft]
      simp [Pc.sweeping, afterPush, Ne.symm hi]

/-- `collect` deletes a node of its private list. -/
theorem Placed.delete (h : Placed s f) {g : List ℕ} {n : RetiredNode α} {m : ℕ}
    {rest : List (RetiredNode α)} (hft : f t = ⟨g, .sweep m (n :: rest)⟩) :
    Placed { s with deleted := Function.update s.deleted n.id (s.deleted n.id + 1) }
      (Function.update f t ⟨g, .sweep m rest⟩) := by
  refine h.moves (fun i => i = n.id) (p := .swept t) (q := .deleted) (by simp) rfl
    (fun i hi => ?_) (fun i hi => ?_) ?_ ?_
  · simp [located, hft, Pc.sweeping, hi]
  · simp [located, hi]
  · intro i p hi hp hq
    exact located_set (fun _ => rfl) (fun e => absurd e hq) (fun _ => by rw [hft]; rfl)
      fun e => absurd e hp
  · intro i p hi
    refine located_set (fun _ => rfl) (fun _ => ?_) (fun _ => by rw [hft]; rfl) fun _ => ?_
    · simp [hi]
    · rw [hft]
      simp [Pc.sweeping, Ne.symm hi]

/-- **Every move keeps every retired node in one place.** -/
theorem Placed.move {w : ℕ} (h : Placed s f) (hm : Move w t s (f t) s' l') :
    Placed s' (Function.update f t l') := by
  generalize hft : f t = l at hm
  cases hm with
  | retire g p => exact h.retire hft
  | takeList g m => exact h.take hft
  | push g n next r => exact h.push hft
  | delete g m n rest hlt => exact h.delete hft
  | resetCount g =>
    exact h.quiet rfl rfl (fun _ => rfl) (by rw [hft]; exact scanFrom_pushing 0 (2 ^ w - 1))
      (by rw [hft]; exact scanFrom_sweeping 0 (2 ^ w - 1))
  | seeInactive | loadEpoch =>
    exact h.quiet rfl rfl (fun _ => rfl) (by rw [hft]; exact scanFrom_pushing _ _)
      (by rw [hft]; exact scanFrom_sweeping _ _)
  | pushLoad g n r | pushRetry g n next r =>
    exact h.quiet rfl rfl (fun _ => rfl) (by rw [hft]; cases r <;> rfl)
      (by rw [hft]; cases r <;> rfl)
  | _ => exact h.quiet rfl rfl (fun _ => rfl) (by rw [hft]; rfl) (by rw [hft]; rfl)
end

theorem placed_initial :
    Placed (initial (ι := ι) (α := α)).shared (initial (ι := ι) (α := α)).loc := by
  refine ⟨fun n hn => absurd hn (Nat.not_lt_zero n), fun n _ p => ?_⟩
  cases p <;> rfl

/-! ## A `collect` on its own -/

/-- In `retire` or in `collect`. -/
def Pc.reclaims : Pc α → Bool
  | .retire _ _ | .pushLoad _ _ | .pushCas _ _ _ | .countRetire | .resetCount | .loadActive _ _ |
    .loadEpoch _ _ | .takeList _ | .sweep _ _ => true
  | _ => false

/-- A step of a run in which only `t` reclaims: no guard is active, no other thread calls `retire`
or `collect`, and `t` does not begin another operation. -/
def Alone (t : ι) (c : Config ι (Shared ι α) (Local α)) (u : ι) (k : Choice α) : Prop :=
  (∀ i, c.shared.active i = false) ∧
    (u ≠ t → k ≠ .call .collect ∧ ∀ p, k ≠ .call (.retire p)) ∧ (u = t → (c.loc t).pc ≠ .idle)

section
variable (w : ℕ) (L : List (RetiredNode α))

/-- `retire_epoch` is the largest value there is, so that a pass without guards keeps the node. -/
def RetiredNode.atMax (n : RetiredNode α) : Bool := decide (2 ^ w - 1 ≤ n.retireEpoch)

/-- How far a `collect` that runs alone and found the list `L` has come: what is on the shared list
when it stands at a place. -/
def Pass (listed : List (RetiredNode α)) : Pc α → Prop
  | .resetCount => listed = L
  | .loadActive _ m | .takeList m => m = 2 ^ w - 1 ∧ listed = L
  | .sweep m rest => m = 2 ^ w - 1 ∧ ∃ swept, L = swept ++ rest ∧
      listed = (swept.filter (RetiredNode.atMax w)).reverse
  | .pushLoad n (some (m, rest)) | .pushCas n _ (some (m, rest)) => m = 2 ^ w - 1 ∧
      n.atMax w = true ∧ ∃ swept, L = swept ++ n :: rest ∧
        listed = (swept.filter (RetiredNode.atMax w)).reverse
  | .done _ | .idle => listed = (L.filter (RetiredNode.atMax w)).reverse
  | _ => False

theorem pass_scanFrom {listed : List (RetiredNode α)} (i : ℕ) (hs : listed = L) :
    Pass w L listed (scanFrom i (2 ^ w - 1)) := by
  unfold scanFrom
  split
  · exact ⟨rfl, hs⟩
  · exact ⟨rfl, hs⟩

/-- A step of the pass. -/
theorem Pass.step {t : ι} {s s' : Shared ι α} {l l' : Local α} (h : Pass w L s.retiredHead l.pc)
    (hidle : l.pc ≠ .idle) (ha : ∀ i, s.active i = false) (hm : Move w t s l s' l') :
    Pass w L s'.retiredHead l'.pc := by
  cases hm with
  | enter | leave | retire | collect => exact absurd rfl hidle
  | resetCount g => exact pass_scanFrom w L 0 h
  | seeActive g i m hi => rw [ha i] at hi; cases hi
  | seeInactive g i m hi =>
    obtain ⟨rfl, hs⟩ := h
    exact pass_scanFrom w L (i + 1) hs
  | takeList g m => exact ⟨h.1, [], h.2.symm, rfl⟩
  | sweepEnd g m =>
    obtain ⟨-, swept, rfl, hs⟩ := h
    rw [List.append_nil]
    exact hs
  | delete g m n rest hlt =>
    obtain ⟨rfl, swept, rfl, hs⟩ := h
    refine ⟨rfl, swept ++ [n], by simp, ?_⟩
    have hn : n.atMax w = false := decide_eq_false (by omega)
    simpa [hn] using hs
  | keep g m n rest hge =>
    obtain ⟨rfl, swept, rfl, hs⟩ := h
    exact ⟨rfl, decide_eq_true hge, swept, rfl, hs⟩
  | pushLoad g n r | pushRetry g n next r =>
    cases r with
    | none => exact h.elim
    | some mr => exact h
  | push g n next r =>
    cases r with
    | none => exact h.elim
    | some mr =>
      obtain ⟨m, rest⟩ := mr
      obtain ⟨rfl, hn, swept, rfl, hs⟩ := h
      refine ⟨rfl, swept ++ [n], by simp, ?_⟩
      simp [hn, hs]
  | ret g r => exact h
  | _ => exact h.elim

/-- A step of a thread that does not reclaim. -/
theorem step_idle {t : ι} {k : Choice α} {s s' : Shared ι α} {l l' : Local α}
    {ev : Event (Op α) Res} (hs : step w t k s l = some (ev, s', l')) (hl : l.pc.reclaims = false)
    (hc : k ≠ .call .collect) (hr : ∀ p, k ≠ .call (.retire p)) :
    s'.retiredHead = s.retiredHead ∧ l'.pc.reclaims = false := by
  obtain ⟨g, pc⟩ := l
  unfold step at hs
  split at hs <;> dsimp only at *
  all_goals (repeat' split at hs)
  all_goals cases hs
  all_goals first
    | exact ⟨rfl, rfl⟩
    | exact absurd rfl hc
    | exact absurd rfl (hr _)
    | (subst_vars; exact absurd hl (by simp [Pc.reclaims]))
end

/-- A `retire` call, or a step that makes no node. -/
theorem step_retires {w : ℕ} {t : ι} {k : Choice α} {s s' : Shared ι α} {l l' : Local α}
    {ev : Event (Op α) Res} (hs : step w t k s l = some (ev, s', l')) :
    (∃ g p, l = ⟨g, .idle⟩ ∧ ev = .call (.retire p) ∧ s' = { s with retires := s.retires + 1 } ∧
      l' = ⟨g, .retire s.retires p⟩) ∨ (s'.retires = s.retires ∧ ∀ p, ev ≠ .call (.retire p)) := by
  obtain ⟨g, pc⟩ := l
  unfold step at hs
  split at hs <;> dsimp only at *
  all_goals (repeat' split at hs)
  all_goals cases hs
  all_goals first
    | exact .inr ⟨rfl, nofun⟩
    | (subst_vars; exact .inl ⟨g, _, rfl, rfl, rfl, rfl⟩)

/-! ## Runs -/

/-- The pointers handed to `retire`, in the order of the calls. -/
def pointers (h : List (Step ι α)) : List α :=
  ((calls h).filterMap fun o => match o with
    | .retire p => some p
    | _ => none).reverse

/-- Every node carries the pointer its `retire` call was made with, and an epoch that fits. -/
structure Carried (w : ℕ) (ps : List α) (s : Shared ι α) (f : ι → Local α) : Prop where
  retires : s.retires = ps.length
  epoch : s.globalEpoch < 2 ^ w
  retire : ∀ t n p, (f t).pc = .retire n p → ps[n]? = some p
  pending : ∀ n, Pending s f n → ps[n.id]? = some n.ptr ∧ n.retireEpoch < 2 ^ w

section
variable [DecidableEq ι] {w : ℕ} {h : List (Step ι α)} {c : Config ι (Shared ι α) (Local α)}

omit [DecidableEq ι] in
/-- Where the nodes after a step come from: they were there before, or `retire` has made one. -/
theorem Move.pending {s s' : Shared ι α} {t : ι} {l l' : Local α} (hm : Move w t s l s' l')
    {n : RetiredNode α} (hn : n ∈ s'.retiredHead ∨ n ∈ l'.pc.nodes) :
    n ∈ s.retiredHead ∨ n ∈ l.pc.nodes ∨
      l.pc = .retire n.id n.ptr ∧ n.retireEpoch = s.globalEpoch := by
  cases hm with
  | makeNode g id p =>
    rcases hn with hn | hn
    · exact .inl hn
    · obtain rfl : n = ⟨id, p, s.globalEpoch⟩ := by simpa [Pc.nodes] using hn
      exact .inr (.inr ⟨rfl, rfl⟩)
  | resetCount | seeInactive | loadEpoch =>
    exact .inl (by simpa using hn)
  | push g n' next r =>
    cases r with
    | none => simp only [Pc.nodes, afterPush, List.mem_cons] at hn ⊢; grind
    | some r => simp only [Pc.nodes, afterPush, List.mem_cons] at hn ⊢; grind
  | keep g m n' rest hge => simp only [Pc.nodes, Option.map_some, Option.getD_some] at hn ⊢; tauto
  | delete g m n' rest hlt => simp only [Pc.nodes, List.mem_cons] at hn ⊢; tauto
  | takeList g m => exact .inl (hn.resolve_left (by simp))
  | _ => exact or_assoc.mp (.inl hn)

/-- A step that calls nothing and makes no node. -/
theorem Carried.step {ps : List α} {s s' : Shared ι α} {f : ι → Local α} {t : ι} {l' : Local α}
    (hC : Carried w ps s f) (hm : Move w t s (f t) s' l') (hr : s'.retires = s.retires) :
    Carried w ps s' (Function.update f t l') := by
  generalize hft : f t = l at hm
  have hepoch : s'.globalEpoch < 2 ^ w := by
    cases hm with
    | bumpEpoch => exact Nat.mod_lt _ (Nat.two_pow_pos w)
    | _ => exact hC.epoch
  refine ⟨hr.trans hC.retires, hepoch, fun u n p hu => ?_, fun n hn => ?_⟩
  · by_cases hut : u = t
    · rw [hut, Function.update_self] at hu
      cases hm with
      | retire => simp at hr
      | resetCount | seeInactive | loadEpoch =>
        dsimp only at hu
        exact (scanFrom_ne_retire _ _ hu).elim
      | push g n' next r => cases r <;> cases hu
      | _ => cases hu
    · exact hC.retire u n p (by rwa [Function.update_of_ne hut] at hu)
  · have hpending : (n ∈ s'.retiredHead ∨ n ∈ l'.pc.nodes) ∨ Pending s f n := by
      rcases hn with hn | ⟨u, hn⟩
      · exact .inl (.inl hn)
      · by_cases hut : u = t
        · rw [hut, Function.update_self] at hn
          exact .inl (.inr hn)
        · rw [Function.update_of_ne hut] at hn
          exact .inr (.inr ⟨u, hn⟩)
    rcases hpending with hn | hn
    · rcases hm.pending hn with hn | hn | ⟨hpc, he⟩
      · exact hC.pending n (.inl hn)
      · exact hC.pending n (.inr ⟨t, hft ▸ hn⟩)
      · exact ⟨hC.retire t _ _ (hft ▸ hpc), he ▸ hC.epoch⟩
    · exact hC.pending n hn

/-- A `retire` call. -/
theorem Carried.call {ps : List α} {s : Shared ι α} {f : ι → Local α} {t : ι} {g : List ℕ} {p : α}
    (hC : Carried w ps s f) (hft : f t = ⟨g, .idle⟩) :
    Carried w (ps ++ [p]) { s with retires := s.retires + 1 }
      (Function.update f t ⟨g, .retire s.retires p⟩) := by
  obtain ⟨h1, h2, h3, h4⟩ := hC
  constructor
  · simp [h1]
  · exact h2
  · grind
  · grind [Pc.nodes]

theorem run_carried (hr : (program w).Run Program.anyStep initial h c) :
    Placed c.shared c.loc ∧ Carried w (pointers h) c.shared c.loc := by
  refine hr.induction (I := fun h c => Placed c.shared c.loc ∧
    Carried w (pointers h) c.shared c.loc)
    ⟨placed_initial, ?_⟩ fun h c t k ev s l _ ih _ hs => ?_
  · constructor <;> simp [initial, pointers, calls, Pending, Pc.nodes]
  · refine ⟨ih.1.move (step_move hs), ?_⟩
    rcases step_retires hs with ⟨g, p, hl, rfl, rfl, rfl⟩ | ⟨hr, hev⟩
    · have hp : pointers (⟨t, .call (.retire p), c, c.set t { c.shared with
          retires := c.shared.retires + 1 } ⟨g, .retire c.shared.retires p⟩⟩ :: h) =
          pointers h ++ [p] := by simp [pointers, calls]
      rw [hp]
      exact ih.2.call hl
    · have hp : pointers (⟨t, ev, c, c.set t s l⟩ :: h) = pointers h := by
        cases ev with
        | call o =>
          cases o with
          | retire p => exact absurd rfl (hev p)
          | _ => rfl
        | _ => rfl
      rw [hp]
      exact ih.2.step (step_move hs) hr

variable {t : ι} {s : Shared ι α} {l : Local α} {ev : Event (Op α) Res} {h' : List (Step ι α)}
  {c' : Config ι (Shared ι α) (Local α)}

/-- What a `collect` that runs alone keeps. -/
theorem pass_run (hother : ∀ u, u ≠ t → (c.loc u).pc.reclaims = false)
    (hs : step w t (.call .collect) c.shared (c.loc t) = some (ev, s, l))
    (hr : (program w).Run (fun _ c u k => Alone t c u k) (c.set t s l) h' c') :
    Pass w c.shared.retiredHead c'.shared.retiredHead (c'.loc t).pc ∧
      ∀ u, u ≠ t → (c'.loc u).pc.reclaims = false := by
  refine hr.induction (I := fun _ c' =>
    Pass w c.shared.retiredHead c'.shared.retiredHead (c'.loc t).pc ∧
    ∀ u, u ≠ t → (c'.loc u).pc.reclaims = false) ?_ fun h₁ c₁ u k ev₁ s₁ l₁ _ ih hok hs₁ => ?_
  · have hpc := step_call hs
    generalize c.loc t = l₀ at hs hpc
    obtain ⟨g, pc⟩ := l₀
    subst hpc
    cases hs
    exact ⟨by simp [Pass], fun u hu => by rw [Config.set_loc_ne c hu]; exact hother u hu⟩
  · obtain ⟨hactive, hcalls, hidle⟩ := hok
    by_cases hu : u = t
    · subst hu
      refine ⟨?_, fun v hv => by rw [Config.set_loc_ne c₁ hv]; exact ih.2 v hv⟩
      rw [Config.set_loc_self]
      exact Pass.step w _ ih.1 (hidle rfl) hactive (step_move hs₁)
    · obtain ⟨hhead, hrec⟩ := step_idle w hs₁ (ih.2 u hu) (hcalls hu).1 (hcalls hu).2
      refine ⟨?_, fun v hv => ?_⟩
      · rw [Config.set_loc_ne c₁ (Ne.symm hu), Config.set_shared, hhead]
        exact ih.1
      · by_cases hvu : v = u
        · subst hvu; rwa [Config.set_loc_self]
        · rw [Config.set_loc_ne c₁ hvu]; exact ih.2 v hv

theorem placed_run {ok : List (Step ι α) → Config ι (Shared ι α) (Local α) → ι → Choice α → Prop}
    (hp : Placed c.shared c.loc) (hr : (program w).Run ok c h' c') : Placed c'.shared c'.loc :=
  hr.induction (I := fun _ c => Placed c.shared c.loc) hp fun _ _ _ _ _ _ _ _ ih _ hs =>
    ih.move (step_move hs)

omit [DecidableEq ι] in
/-- When nobody reclaims and the shared list is empty, every node has been deleted once. -/
theorem Placed.deleted_of_quiet (hp : Placed c.shared c.loc)
    (hq : ∀ u, (c.loc u).pc.reclaims = false) (hl : c.shared.retiredHead = []) {n : ℕ}
    (hn : n < c.shared.retires) : c.shared.deleted n = 1 := by
  have hpc : ∀ pc : Pc α, pc.reclaims = false → pc.pushing = [] ∧ pc.sweeping = [] := by
    intro pc hpc
    cases pc with
    | retire | pushLoad | pushCas | sweep => cases hpc
    | _ => exact ⟨rfl, rfl⟩
  obtain ⟨p, h1, -⟩ := hp.old n hn
  cases p with
  | pushing u => simp [located, (hpc _ (hq u)).1] at h1
  | listed => simp [located, hl] at h1
  | swept u => simp [located, (hpc _ (hq u)).2] at h1
  | deleted => exact h1

/-- **Conservation.** In every run each `retire` call's node is in one place, once, with the call's
pointer; and a `collect` that runs from its call to its return with no guard active and nothing else
reclaiming leaves the list empty and everything deleted exactly when no node on it was retired at
the largest epoch. -/
theorem retired_conserved (hr : (program w).Run Program.anyStep initial h c) :
    (∀ n p, (pointers h)[n]? = some p → Sole (located c.shared c.loc n) ∧
      ∀ x, Pending c.shared c.loc x → x.id = n → x.ptr = p) ∧
    ∀ t ev s l h' c', (∀ u, u ≠ t → (c.loc u).pc.reclaims = false) →
      (program w).step t (.call .collect) c.shared (c.loc t) = some (ev, s, l) →
      (program w).Run (fun _ c u k => Alone t c u k) (c.set t s l) h' c' → (c'.loc t).pc = .idle →
      ((c'.shared.retiredHead = [] ∧ ∀ n, n < c'.shared.retires → c'.shared.deleted n = 1) ↔
        ∀ x ∈ c.shared.retiredHead, x.retireEpoch ≠ 2 ^ w - 1) := by
  obtain ⟨hp, hc⟩ := run_carried hr
  refine ⟨fun n p hn => ⟨hp.old n ?_, fun x hx hxn => ?_⟩, ?_⟩
  · rw [hc.retires]
    exact (List.getElem?_eq_some_iff.mp hn).1
  · have := (hc.pending x hx).1
    rw [hxn, hn] at this
    exact (Option.some.inj this).symm
  · intro t ev s l h' c' hother hs hr' hidle
    obtain ⟨hpass, hquiet⟩ := pass_run hother hs hr'
    rw [hidle] at hpass
    have hall : ∀ u, (c'.loc u).pc.reclaims = false := by
      intro u
      by_cases hu : u = t
      · subst hu; rw [hidle]; rfl
      · exact hquiet u hu
    have hp' : Placed c'.shared c'.loc :=
      placed_run (hp.move (step_move hs)) hr'
    have hmax : ∀ x ∈ c.shared.retiredHead, (x.atMax w = true ↔ x.retireEpoch = 2 ^ w - 1) := by
      intro x hx
      have hlt := (hc.pending x (.inl hx)).2
      rw [RetiredNode.atMax, decide_eq_true_iff]
      omega
    have hempty : c'.shared.retiredHead = [] ↔
        ∀ x ∈ c.shared.retiredHead, x.retireEpoch ≠ 2 ^ w - 1 := by
      rw [show c'.shared.retiredHead = _ from hpass, List.reverse_eq_nil_iff,
        List.filter_eq_nil_iff]
      exact forall₂_congr fun x hx => not_congr (hmax x hx)
    rw [hempty]
    refine ⟨And.left, fun hx => ⟨hx, fun n hn => ?_⟩⟩
    exact hp'.deleted_of_quiet hall (hempty.mpr hx) hn
end

/-! ## Small domains -/

theorem slots_run {ok : List (Step ι α) → Config ι (Shared ι α) (Local α) → ι → Choice α → Prop}
    [DecidableEq ι] {w : ℕ} {h : List (Step ι α)} {c c₀ : Config ι (Shared ι α) (Local α)}
    (h₀ : Slots c₀.shared c₀.loc) (hr : (program w).Run ok c₀ h c) : Slots c.shared c.loc :=
  hr.induction (I := fun _ c => Slots c.shared c.loc) h₀ fun _ _ _ _ _ _ _ _ ih _ hs =>
    slots_move ih rfl (step_move hs)

/-- Nothing is active, and it is the collector's turn. -/
def collectorOnly (c : TwoThreads) (t : Bool) (_ : Choice ℕ) (_ : TwoThreads) : Bool :=
  t && decide ((c.loc true).pc ≠ .idle) && (List.range maxThreads).all fun i => !c.shared.active i

theorem collectorOnly_alone {c c' : TwoThreads} {t : Bool} {k : Choice ℕ}
    (hs : Slots c.shared c.loc) (hq : collectorOnly c t k c' = true) : Alone true c t k := by
  simp only [collectorOnly, Bool.and_eq_true, decide_eq_true_eq] at hq
  obtain ⟨⟨rfl, hidle⟩, hall⟩ := hq
  refine ⟨fun i => ?_, fun hne => absurd rfl hne, fun _ => hidle⟩
  cases ha : c.shared.active i with
  | false => rfl
  | true =>
    have := List.all_eq_true.mp hall i (List.mem_range.mpr (hs.active_lt i ha))
    simp [ha] at this

/-- Thread `true` retires a number. -/
def retireOne : List (Bool × Choice ℕ) := (true, .call (.retire 7)) :: List.replicate 5 (true, .run)

/-- A `collect` of thread `true` after its call: the reset, the scan, the exchange, then `n`
steps. -/
def collectSteps (n : ℕ) : List (Bool × Choice ℕ) := List.replicate (n + 130) (true, .run)

/-- From `c`, thread `true` retires a number and then collects alone, to where `q` holds. -/
def retireCollect (w : ℕ) (c : TwoThreads) (n : ℕ) (q : TwoThreads → TwoThreads → Bool) : Bool :=
  ((program w).exec (fun _ _ _ _ => true) c retireOne).any fun c₁ =>
    ((program w).step true (.call .collect) c₁.shared (c₁.loc true)).any fun r =>
      ((program w).exec collectorOnly (c₁.set true r.2.1 r.2.2) (collectSteps n)).any fun c₂ =>
        decide ((c₂.loc true).pc = .idle) && decide ((c₁.loc false).pc = .idle) && q c₁ c₂

theorem retireCollect_sound {w n : ℕ} {c : TwoThreads} {q : TwoThreads → TwoThreads → Bool}
    {h : List (Step Bool ℕ)} (hr : (program w).Run Program.anyStep initial h c)
    (hq : retireCollect w c n q = true) :
    ∃ h c₁ ev s l h' c₂, (program w).Run Program.anyStep initial h c₁ ∧
      (∀ u, u ≠ true → (c₁.loc u).pc.reclaims = false) ∧
      (program w).step true (.call .collect) c₁.shared (c₁.loc true) = some (ev, s, l) ∧
      (program w).Run (fun _ c u k => Alone true c u k) (c₁.set true s l) h' c₂ ∧
      (c₂.loc true).pc = .idle ∧ q c₁ c₂ = true := by
  obtain ⟨c₁, hc₁, hq⟩ := (Option.any_eq_true _ _).mp hq
  obtain ⟨⟨ev, s, l⟩, hs, hq⟩ := (Option.any_eq_true _ _).mp hq
  obtain ⟨c₂, hc₂, hq⟩ := (Option.any_eq_true _ _).mp hq
  simp only [Bool.and_eq_true, decide_eq_true_eq] at hq
  obtain ⟨⟨hidle, hfalse⟩, hq⟩ := hq
  obtain ⟨h₁, hr₁, -⟩ := Program.exec_run_from Program.anyStep (fun _ _ _ _ _ _ _ => trivial)
    retireOne hr hc₁
  have hslots : Slots (c₁.set true s l).shared (c₁.set true s l).loc :=
    slots_run inv_initial.slots (hr₁.cons trivial hs)
  obtain ⟨h₂, hr₂⟩ := Program.exec_run (fun _ c u k => Alone true c u k)
    (fun h c t k c' hr hq => collectorOnly_alone (slots_run hslots hr) hq) hc₂
  refine ⟨h₁ ++ h, c₁, ev, s, l, h₂, c₂, hr₁, fun u hu => ?_, hs, hr₂, hidle, hq⟩
  rw [eq_false_of_ne_true hu, hfalse]
  rfl

/-- Thread `true` enters a guard and leaves it. -/
def comeAndGo : List (Bool × Choice ℕ) :=
  (true, Choice.call .enter) :: List.replicate 5 (true, Choice.run) ++
    (true, Choice.call (.leave 0)) :: List.replicate 3 (true, Choice.run)

/-- The domain after `n` guards, one after the other. -/
def visited (w n : ℕ) : TwoThreads where
  shared := { (initial (ι := Bool) (α := ℕ)).shared with
    announcedEpoch := fun i => if i = 0 then n % 2 ^ w else 0
    globalEpoch := n % 2 ^ w }
  loc := fun _ => ⟨[], .idle⟩

/-- Nobody begins a pass. -/
def noPass (c : TwoThreads) (t : Bool) (_ : Choice ℕ) (_ : TwoThreads) : Bool :=
  decide ((c.loc t).pc ≠ .resetCount)

theorem exec_comeAndGo (w n : ℕ) :
    (program w).exec noPass (visited w n) comeAndGo = some (visited w (n + 1)) := by
  simp [Program.exec, Program.replay, noPass, comeAndGo, program, step, visited, initial,
    Config.set, maxThreads, List.replicate]
  funext i
  by_cases hi : i = 0 <;> simp [hi]

/-- Any number of guards can have come and gone, without a pass. -/
theorem visited_run (w n : ℕ) (ok : List (Step Bool ℕ) → TwoThreads → Bool → Choice ℕ → Prop)
    (hok : ∀ h c t k, (c.loc t).pc ≠ .resetCount → ok h c t k) :
    ∃ h, (program w).Run ok initial h (visited w n) := by
  induction n with
  | zero =>
    have h0 : visited w 0 = initial := by simp [visited, initial]
    rw [h0]
    exact ⟨[], .nil⟩
  | succ n ih =>
    obtain ⟨h, hr⟩ := ih
    obtain ⟨h', hr', -⟩ := Program.exec_run_from ok
      (fun h c t k _ _ hc => hok h c t k (of_decide_eq_true hc)) comeAndGo hr (exec_comeAndGo w n)
    exact ⟨h' ++ h, hr'⟩

theorem retired_conserved_collected :
    ∃ h c₁ ev s l h' c₂, (program 64).Run Program.anyStep (initial (ι := Bool) (α := ℕ)) h c₁ ∧
      (program 64).step true (.call .collect) c₁.shared (c₁.loc true) = some (ev, s, l) ∧
      (program 64).Run (fun _ c u k => Alone true c u k) (c₁.set true s l) h' c₂ ∧
      c₁.shared.retiredHead.length = 1 ∧ c₂.shared.retiredHead = [] ∧
      ∀ n, n < c₂.shared.retires → c₂.shared.deleted n = 1 := by
  obtain ⟨h, c₁, ev, s, l, h', c₂, hr, hother, hs, hr', hidle, hq⟩ :=
    retireCollect_sound (w := 64) (n := 3) (c := initial) (q := fun c₁ _ =>
      decide (c₁.shared.retiredHead.length = 1) && c₁.shared.retiredHead.all fun x =>
        decide (x.retireEpoch ≠ 2 ^ 64 - 1)) .nil (by set_option maxRecDepth 10000 in decide)
  simp only [Bool.and_eq_true, decide_eq_true_eq, List.all_eq_true] at hq
  obtain ⟨h1, h2⟩ := ((retired_conserved hr).2 true ev s l h' c₂ hother hs hr' hidle).mpr hq.2
  exact ⟨h, c₁, ev, s, l, h', c₂, hr, hs, hr', hq.1, h1, h2⟩

/-- **The last epoch.** On a target with a 32-bit `unsigned long`, a node retired after `2 ^ 32 - 1`
guards survives a `collect` that runs alone. -/
theorem last_epoch_kept :
    ¬ ∀ h c₁ t ev s l h' c₂, (program 32).Run Program.anyStep (initial (ι := Bool) (α := ℕ)) h c₁ →
      (∀ u, u ≠ t → (c₁.loc u).pc.reclaims = false) →
      (program 32).step t (.call .collect) c₁.shared (c₁.loc t) = some (ev, s, l) →
      (program 32).Run (fun _ c u k => Alone t c u k) (c₁.set t s l) h' c₂ →
      (c₂.loc t).pc = .idle → c₂.shared.retiredHead = [] := by
  intro hall
  obtain ⟨h₀, hr₀⟩ := visited_run 32 (2 ^ 32 - 1) Program.anyStep fun _ _ _ _ _ => trivial
  obtain ⟨h, c₁, ev, s, l, h', c₂, hr, hother, hs, hr', hidle, hq⟩ :=
    retireCollect_sound (n := 5) (q := fun _ c₂ => !c₂.shared.retiredHead.isEmpty) hr₀
      (by set_option maxRecDepth 10000 in decide)
  have := hall h c₁ true ev s l h' c₂ hr hother hs hr' hidle
  simp [this] at hq

end Bonostl.EpochDomain
