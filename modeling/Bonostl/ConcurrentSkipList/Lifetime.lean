import Bonostl.ConcurrentSkipList.Locks
import Bonostl.ConcurrentSkipList.Reclaim

/-!
# Which nodes of a skip list are ever freed

A node is deleted by the `insert` that made it and found its element present, by a pass of the
domain, or by the destructor, which walks along level 0. The destructor of `domain_` runs after
that, and `epoch_domain` has none of its own: the nodes on its retired list are freed by nobody. So
a node's deletions and its entries on that list make one (`freed_or_retired`).

A pass runs inside a `retire`, under the guard of its `erase`, and what that `erase` has just
retired is protected by that guard. So a pass always leaves something, and a list from which any
element was ever erased leaks (`freed_exactly_once`).
-/

namespace Bonostl.ConcurrentSkipList

open Interleaving Chain

variable {ι T : Type}

/-- The node a step from `l` deletes. -/
def deletion (l : Local T) : Option ℕ :=
  match l.pc with
  | .deleteNew n => some n
  | .domain _ => deletes l.domain
  | _ => none

/-- The nodes a run deletes, newest first. -/
def deleted (h : List (Step ι T)) : List ℕ := h.filterMap fun r => deletion (r.pre.loc r.tid)

/-- `~concurrent_skip_list` from the node `current` on: the nodes it deletes, if at most `fuel` of
them are left. -/
def destroy (s : Shared ι T) : ℕ → Option ℕ → Option (List ℕ)
  | _, none => some []
  | 0, some _ => none
  | fuel + 1, some current => (destroy s fuel (s.next 0 current)).map (current :: ·)

theorem destroy_eq {s : Shared ι T} {l : List ℕ} {p : Option ℕ} {fuel : ℕ}
    (h : Linked (s.next 0) p l) (hn : l.length ≤ fuel) : destroy s fuel p = some l := by
  induction l generalizing p fuel with
  | nil =>
    obtain rfl : p = none := h
    cases fuel <;> rfl
  | cons a l ih =>
    obtain ⟨rfl, hl⟩ := h
    cases fuel with
    | zero => exact absurd hn (Nat.not_succ_le_zero _)
    | succ fuel =>
      unfold destroy
      rw [ih hl (Nat.le_of_succ_le_succ hn)]
      rfl

/-- The node a failed `insert` deletes. -/
def Pc.drops : Pc T → Option ℕ
  | .deleteNew n => some n
  | _ => none

/-- The nodes that failed `insert`s have deleted, newest first. -/
def dropped (h : List (Step ι T)) : List ℕ := h.filterMap fun r => (r.pre.loc r.tid).pc.drops

theorem dropped_cons (r : Step ι T) (h : List (Step ι T)) :
    dropped (r :: h) = (r.pre.loc r.tid).pc.drops.toList ++ dropped h := by
  unfold dropped
  rw [List.filterMap_cons]
  cases (r.pre.loc r.tid).pc.drops <;> rfl

theorem count_deleted (h : List (Step ι T)) (a : ℕ) :
    (deleted h).count a = (dropped h).count a + (reclaimed h).count a := by
  have hcons : ∀ r : Step ι T, deletion (r.pre.loc r.tid) =
      ((r.pre.loc r.tid).pc.drops <|> reclaims (r.pre.loc r.tid)) ∧
      ((r.pre.loc r.tid).pc.drops = none ∨ reclaims (r.pre.loc r.tid) = none) := by
    intro r
    unfold deletion reclaims
    cases (r.pre.loc r.tid).pc with
    | deleteNew n => exact ⟨rfl, .inr rfl⟩
    | _ => exact ⟨rfl, .inl rfl⟩
  induction h with
  | nil => rfl
  | cons r h ih =>
    obtain ⟨h1, h2⟩ := hcons r
    rw [dropped_cons, reclaimed_cons]
    unfold deleted at ih ⊢
    rw [List.filterMap_cons, h1]
    rcases h2 with h2 | h2
    · rw [h2]
      cases reclaims (r.pre.loc r.tid) with
      | none => simpa using ih
      | some b =>
        by_cases hb : b = a <;> simp [hb, ih]
        omega
    · rw [h2]
      cases (r.pre.loc r.tid).pc.drops with
      | none => simpa using ih
      | some b =>
        by_cases hb : b = a <;> simp [hb, ih]
        omega

/-! ## Where the nodes are -/

section
variable [LT T] [DecidableLT T] {L : ℕ → ℕ → Prop} {s s' : Shared ι T} {f : ι → Local T} {t : ι}
  {l l' : Local T} {w : ℕ} {ev : Event (Op T) Res} {x n : ℕ}

/-- A victim is a thread's own until it is retired. -/
theorem Move.keeps_victim (hm : Move w t s ev l s' l') (hx : l.pc.victim = some x) :
    l'.pc.victim = some x ∨ l.pc = .retire x := by
  cases hm with
  | retire g y => cases hx; exact .inr rfl
  | unlockVictim d v y => cases hx; exact .inl (spliceFrom_tables v x (s.topLevel x + 1)).2.2.1
  | spliceMissed d v y i | unlockSpliced d v y i =>
    cases hx
    exact .inl (spliceFrom_tables v x i).2.2.1
  | _ => first | exact .inl hx | cases hx

/-- A node belongs to the `insert` that made it until it is deleted or linked in. -/
theorem Move.keeps_made (hm : Move w t s ev l s' l') (hn : l.pc.made = some n) :
    l'.pc.made = some n ∨ l.pc = .deleteNew n ∨ ∃ a, l.pc = .setFullyLinked a ∧ a.newNode = n := by
  cases hm with
  | found d k | notFound d k =>
    cases k with
    | insert m v top => cases hn; exact .inl rfl
    | _ => cases hn
  | walk d k | descend d k => cases k <;> exact .inl hn
  | deleteNew d m => cases hn; exact .inr (.inl rfl)
  | setLast d a i => cases hn; exact .inl (lockFrom_tables a 0).1
  | predNext d a i => cases hn; exact .inl (lockFrom_tables a (i + 1)).1
  | predMarked d a i | succMarked d a i | predNextFail d a i =>
    cases hn
    exact .inl (unlockFrom_tables a false (i + 1)).1
  | setFullyLinked d a => cases hn; exact .inr (.inr ⟨a, rfl, rfl⟩)
  | unlock d a i valid =>
    cases valid with
    | true => cases hn
    | false => cases hn; exact .inl (unlockFrom_tables a false i).1
  | _ => first | exact .inl hn | cases hn

/-- Where an `insert`'s own node comes from. -/
theorem Move.made (hm : Move w t s ev l s' l') (hn : l'.pc.made = some n) :
    l.pc.made = some n ∨ n = s.nodes := by
  cases hm with
  | domainEnd v g r =>
    cases v with
    | enter o => cases r <;> cases o <;> cases hn
    | retire | leave => cases hn
  | found d k | notFound d k => cases k <;> exact .inl hn
  | walk d k | descend d k => cases k <;> exact .inl hn
  | newNode d v top ht => cases hn; exact .inr rfl
  | setLast d a i => exact .inl ((lockFrom_tables a 0).1.symm.trans hn)
  | predNext d a i => exact .inl ((lockFrom_tables a (i + 1)).1.symm.trans hn)
  | predMarked d a i | succMarked d a i | predNextFail d a i =>
    exact .inl ((unlockFrom_tables a false (i + 1)).1.symm.trans hn)
  | setFullyLinked d a => cases (unlockFrom_tables a true (a.top + 1)).1.symm.trans hn
  | unlock d a i valid =>
    have := (unlockFrom_tables a valid i).1.symm.trans hn
    cases valid with
    | true => cases this
    | false => exact .inl this
  | unlockVictim d v y => cases (spliceFrom_tables v y (s.topLevel y + 1)).1.symm.trans hn
  | spliceMissed d v y i | unlockSpliced d v y i => cases (spliceFrom_tables v y i).1.symm.trans hn
  | _ => first | exact .inl hn | cases hn

/-- A node is marked by the thread whose victim it becomes. -/
theorem Move.marks (hm : Move w t s ev l s' l') (hx : s'.marked x = true) :
    s.marked x = true ∨ l'.pc.victim = some x := by
  cases hm with
  | domain v d s₁ d' hm hd =>
    left
    rw [(same_free s s₁ (deletes d)).marked] at hx
    exact hx
  | newNode d v top ht =>
    by_cases hxn : x = s.nodes
    · subst hxn
      exact absurd hx (by simp [Shared.alloc])
    · exact .inl ((Function.update_of_ne hxn _ _).symm.trans hx)
  | mark d v y =>
    by_cases hxy : x = y
    · exact .inr (by rw [hxy]; rfl)
    · exact .inl ((Function.update_of_ne hxy _ _).symm.trans hx)
  | _ => exact .inl hx

/-- How many nodes there are. -/
theorem Move.nodes (hm : Move w t s ev l s' l') :
    s'.nodes = s.nodes ∨ s'.nodes = s.nodes + 1 ∧ l'.pc.made = some s.nodes := by
  cases hm with
  | domain v d s₁ d' hm hd => left; cases deletes d <;> rfl
  | newNode d v top ht => exact .inr ⟨rfl, rfl⟩
  | _ => exact .inl rfl

/-- Where the nodes are: with the thread that made them, deleted by it, or linked in; and those that
have been marked are with the thread that did it, or retired. -/
structure Accounted (L : ℕ → ℕ → Prop) (ps ds : List ℕ) (s : Shared ι T) (f : ι → Local T) :
    Prop where
  dropped : ∀ a ∈ ds, a < s.nodes ∧ (∀ l, ¬ L l a) ∧ ∀ t, (f t).pc.made ≠ some a
  nodup : ds.Nodup
  linked : ∀ a < s.nodes, (∃ t, (f t).pc.made = some a) ∨ a ∈ ds ∨ L 0 a
  marked : ∀ a, s.marked a = true → (∃ t, (f t).pc.victim = some a) ∨ a ∈ ps

omit [LT T] [DecidableLT T] in
theorem drops_eq {pc : Pc T} (hd : pc.drops = some n) : pc = .deleteNew n := by
  cases pc with
  | deleteNew m => cases hd; rfl
  | _ => cases hd

variable [DecidableEq ι] {ps ds : List ℕ}

theorem Accounted.move [IsStrictWeakOrder T (· < ·)] (h : Accounted L ps ds s f) (hI : Inv L s f)
    (hm : Move w t s ev (f t) s' l') :
    Accounted (extend L (f t).pc) (ps ++ (f t).pc.retires.toList) ((f t).pc.drops.toList ++ ds) s'
      (Function.update f t l') := by
  obtain ⟨hI', hG⟩ := inv_move hI hm
  -- who makes a node now has had it, or it is new
  have hmade : ∀ u n, (Function.update f t l' u).pc.made = some n →
      (f u).pc.made = some n ∨ n = s.nodes := by
    intro u n hu
    by_cases hut : u = t
    · subst hut
      rw [Function.update_self] at hu
      exact hm.made hu
    · rw [Function.update_of_ne hut] at hu
      exact .inl hu
  have hold : ∀ a ∈ ds, a < s'.nodes ∧ (∀ l, ¬ extend L (f t).pc l a) ∧
      ∀ u, (Function.update f t l' u).pc.made ≠ some a := by
    intro a ha
    obtain ⟨h1, h2, h3⟩ := h.dropped a ha
    refine ⟨h1.trans_le hG.nodes, fun i hi => ?_, fun u hu => ?_⟩
    · rcases hi with hi | hi
      · -- a node that is linked in now is the thread's own
        refine h3 t ?_
        generalize (f t).pc = pc at hi
        cases pc with
        | link b j => cases hi; rfl
        | _ => cases hi
      · exact h2 i hi
    · rcases hmade u a hu with hu | rfl
      · exact h3 u hu
      · exact lt_irrefl _ h1
  refine ⟨fun a ha => ?_, ?_, fun a ha => ?_, fun a ha => ?_⟩
  · rcases List.mem_append.mp ha with ha | ha
    · have hpc := drops_eq (Option.mem_toList.mp ha)
      have hmine : (f t).pc.made = some a := by rw [hpc]; rfl
      have hP := hI.mine t a hmine
      rw [hpc] at hP
      refine ⟨hP.used.trans_le hG.nodes, fun i hi => ?_, fun u hu => ?_⟩
      · rw [hpc, extend_none rfl] at hi
        exact Nat.not_lt_zero i ((hP.linked i).mp hi)
      · by_cases hut : u = t
        · subst hut
          rw [Function.update_self] at hu
          generalize hft : f u = l at hm hpc
          obtain ⟨d, pc⟩ := l
          obtain rfl : pc = .deleteNew a := hpc
          cases hm
          cases hu
        · rw [Function.update_of_ne hut] at hu
          exact hut (hI.inj u t a hu hmine)
    · exact hold a ha
  · cases hd : (f t).pc.drops with
    | none => exact h.nodup
    | some n =>
      rw [Option.toList_some, List.singleton_append, List.nodup_cons]
      refine ⟨fun hn => (h.dropped n hn).2.2 t ?_, h.nodup⟩
      rw [drops_eq hd]
      rfl
  · rcases Nat.lt_or_ge a s.nodes with hlt | hge
    · rcases h.linked a hlt with ⟨u, hu⟩ | hu | hu
      · by_cases hut : u = t
        · subst hut
          rcases hm.keeps_made hu with h1 | h1 | ⟨b, h1, rfl⟩
          · exact .inl ⟨u, by rw [Function.update_self]; exact h1⟩
          · exact .inr (.inl (List.mem_append_left _ (by rw [h1]; exact List.mem_cons_self)))
          · refine .inr (.inr (hG.linked 0 _ (((hI.mine u _ hu).linked 0).mpr ?_)))
            rw [h1]
            exact Nat.succ_pos _
        · exact .inl ⟨u, by rw [Function.update_of_ne hut]; exact hu⟩
      · exact .inr (.inl (List.mem_append_right _ hu))
      · exact .inr (.inr (hG.linked 0 a hu))
    · rcases hm.nodes with hn | ⟨hn, hnew⟩
      · omega
      · obtain rfl : a = s.nodes := by omega
        exact .inl ⟨t, by rw [Function.update_self]; exact hnew⟩
  · rcases hm.marks ha with hx | hx
    · rcases h.marked a hx with ⟨u, hu⟩ | hmem
      · by_cases hut : u = t
        · subst hut
          rcases hm.keeps_victim hu with h1 | h1
          · exact .inl ⟨u, by rw [Function.update_self]; exact h1⟩
          · exact .inr (List.mem_append_right _ (by rw [h1]; exact List.mem_cons_self))
        · exact .inl ⟨u, by rw [Function.update_of_ne hut]; exact hu⟩
      · exact .inr (List.mem_append_left _ hmem)
    · exact .inl ⟨t, by rw [Function.update_self]; exact hx⟩
end

section
variable [LT T] [DecidableLT T] [DecidableEq ι] [IsStrictWeakOrder T (· < ·)] {w : ℕ}
  {h : List (Step ι T)} {c : Config ι (Shared ι T) (Local T)}

theorem accounted_run (hr : (program w).Run Program.anyStep initial h c) :
    Accounted (everLinked h) (retired h) (dropped h) c.shared c.loc := by
  refine hr.induction (I := fun h c => Accounted (everLinked h) (retired h) (dropped h) c.shared
    c.loc) ?_
    fun h c t k ev s l hrun hI _ hs => ?_
  · refine ⟨nofun, List.nodup_nil, fun a ha => .inr (.inr ⟨Nat.zero_le _, ?_⟩), nofun⟩
    have ha : a < 2 := ha
    show a = 0 ∨ a = 1
    omega
  · rw [retired_cons, dropped_cons]
    exact hI.move (inv_run hrun) (step_move hs)

/-- When no operation is in progress, a retired node is on the retired list or has been deleted. -/
theorem retired_count (hr : (program w).Run Program.anyStep initial h c)
    (hidle : ∀ t, (c.loc t).pc = .idle) {n a : ℕ} (hn : (retired h)[n]? = some a) :
    (reclaimed h).count a +
      (c.shared.domain.retiredHead.map EpochDomain.RetiredNode.ptr).count a = 1 := by
  obtain ⟨hplaced, hcarried⟩ := EpochDomain.run_carried (domain_run_any hr)
  have hdomain : ∀ t, (c.loc t).domain = ⟨[], .idle⟩ := by
    intro t
    have hg := guarded_run hr t
    unfold Guarded at hg
    rw [hidle t] at hg
    exact hg
  -- on the list, the node is the one of its call
  have hcount : (c.shared.domain.retiredHead.map EpochDomain.RetiredNode.ptr).count a =
      (c.shared.domain.retiredHead.map EpochDomain.RetiredNode.id).count n := by
    rw [List.count_eq_countP, List.count_eq_countP, List.countP_map, List.countP_map]
    refine List.countP_congr fun x hx => ?_
    have hxn : (retired h)[x.id]? = some x.ptr := (hcarried.pending x (.inl hx)).1
    simp only [Function.comp_apply, beq_iff_eq]
    constructor
    · rintro rfl
      exact (List.getElem?_inj (List.getElem?_eq_some_iff.mp hxn).1 (reclaims_run hr).nodup).mp
        (hxn.trans hn.symm)
    · rintro rfl
      exact Option.some.inj (hxn.symm.trans hn)
  have hlt : n < (domainOf c).shared.retires := by
    rw [hcarried.retires]
    exact (List.getElem?_eq_some_iff.mp hn).1
  rw [(reclaimed_run hr).1 n a hn, hcount]
  obtain ⟨p, h1, h0⟩ := hplaced.old n hlt
  have hlisted : EpochDomain.located (domainOf c).shared (domainOf c).loc n .listed =
      (c.shared.domain.retiredHead.map EpochDomain.RetiredNode.id).count n := rfl
  have hdeleted : EpochDomain.located (domainOf c).shared (domainOf c).loc n .deleted =
      c.shared.domain.deleted n := rfl
  cases p with
  | pushing t =>
    have : EpochDomain.located (domainOf c).shared (domainOf c).loc n (.pushing t) =
        (c.loc t).domain.pc.pushing.count n := rfl
    rw [this, hdomain t] at h1
    cases h1
  | swept t =>
    have : EpochDomain.located (domainOf c).shared (domainOf c).loc n (.swept t) =
        (c.loc t).domain.pc.sweeping.count n := rfl
    rw [this, hdomain t] at h1
    cases h1
  | listed => rw [← hlisted, ← hdeleted, h1, h0 .deleted (by simp)]
  | deleted => rw [← hlisted, ← hdeleted, h1, h0 .listed (by simp)]

/-- **Conservation.** In every run that ends with no operation in progress, the destructor comes to
its end, and each node that was ever made has then been deleted once, or is on the domain's retired
list once. -/
theorem freed_or_retired (hr : (program w).Run Program.anyStep initial h c)
    (hidle : ∀ t, (c.loc t).pc = .idle) :
    ∃ D, destroy c.shared c.shared.nodes (some head) = some D ∧ ∀ a < c.shared.nodes,
      (deleted h ++ D).count a +
        (c.shared.domain.retiredHead.map EpochDomain.RetiredNode.ptr).count a = 1 := by
  have hI := inv_run hr
  have hL := hI.levels
  have hR := reclaims_run hr
  have hA := accounted_run hr
  have hcarried := (EpochDomain.run_carried (domain_run_any hr)).2
  have hchain := (hL.chain 0 (Nat.zero_le _)).chain
  have hlisted : ∀ a, a ∉ retired h →
      (c.shared.domain.retiredHead.map EpochDomain.RetiredNode.ptr).count a = 0 := by
    intro a ha
    refine List.count_eq_zero.mpr fun hmem => ha ?_
    obtain ⟨x, hx, rfl⟩ := List.mem_map.mp hmem
    exact List.mem_of_getElem? (hcarried.pending x (.inl hx)).1
  have hreclaimed : ∀ a, a ∉ retired h → (reclaimed h).count a = 0 := fun a ha =>
    List.count_eq_zero.mpr fun hmem => ha ((reclaimed_run hr).2 a hmem)
  have hfull : ∀ a ∈ retired h, everLinked h 0 a := fun a ha =>
    hL.linked_of_full (hL.marked a (hR.gone a ha).1) (Nat.zero_le _)
  refine ⟨chainOf c.shared 0, destroy_eq hchain ?_, fun a ha => ?_⟩
  · have hsub : chainOf c.shared 0 ⊆ List.range c.shared.nodes := fun a ha =>
      List.mem_range.mpr (hL.used 0 a (hL.linked_of_mem (Nat.zero_le _) ha)).1
    have := (List.subperm_of_subset hchain.nodup hsub).length_le
    rwa [List.length_range] at this
  · rw [List.count_append, count_deleted]
    rcases hA.linked a ha with ⟨t, ht⟩ | hd | hl
    · rw [hidle t] at ht
      cases ht
    · obtain ⟨-, hnl, -⟩ := hA.dropped a hd
      have hret : a ∉ retired h := fun hmem => hnl 0 (hfull a hmem)
      have hc : (chainOf c.shared 0).count a = 0 :=
        List.count_eq_zero.mpr fun hmem => hnl 0 (hL.linked_of_mem (Nat.zero_le _) hmem)
      rw [hA.nodup.count, if_pos hd, hreclaimed a hret, hc, hlisted a hret]
    · have hd : (dropped h).count a = 0 :=
        List.count_eq_zero.mpr fun hmem => (hA.dropped a hmem).2.1 0 hl
      rw [hd]
      cases hm : c.shared.marked a with
      | false =>
        have hret : a ∉ retired h := fun hmem => by
          rw [(hR.gone a hmem).1] at hm
          cases hm
        rw [hreclaimed a hret, hlisted a hret, hchain.nodup.count,
          if_pos (hL.mem_of_unmarked hl hm)]
      | true =>
        have hret : a ∈ retired h := by
          rcases hA.marked a hm with ⟨t, ht⟩ | hmem
          · rw [hidle t] at ht
            cases ht
          · exact hmem
        obtain ⟨n, hn⟩ := List.mem_iff_getElem?.mp hret
        have hc : (chainOf c.shared 0).count a = 0 :=
          List.count_eq_zero.mpr ((hR.gone a hret).2 0 (Nat.zero_le _))
        have := retired_count hr hidle hn
        omega

/-! ## A pass always leaves something -/

omit [LT T] [DecidableLT T] [DecidableEq ι] [IsStrictWeakOrder T (· < ·)] in
theorem unlockFrom_ne_domain {a : Attempt T} {valid : Bool} {n : ℕ} {v : Visit T} :
    unlockFrom a valid n ≠ .domain v := by
  induction n with
  | zero => cases valid <;> (intro h; cases h)
  | succ l ih =>
    unfold unlockFrom
    split
    · simp
    · exact ih

omit [DecidableEq ι] [IsStrictWeakOrder T (· < ·)] in
/-- `retire` calls are made at `Pc.retire` only. -/
theorem Move.retires {s s' : Shared ι T} {t : ι} {l l' : Local T} {ev : Event (Op T) Res}
    (hg : Guarded l) (hm : Move w t s ev l s' l') :
    (s'.domain.retires = s.domain.retires ∧
      (l'.pc = .domain .retire → l.pc = .domain .retire ∧ l'.domain.guards = l.domain.guards)) ∨
    ∃ x, l.pc = .retire x ∧ s'.domain.retires = s.domain.retires + 1 ∧ l'.pc = .domain .retire := by
  cases hm with
  | retire g x => exact .inr ⟨x, rfl, rfl, rfl⟩
  | domain v d s₁ d' hm hd =>
    left
    rw [free_domain]
    cases v with
    | enter o | leave r =>
      refine ⟨?_, nofun⟩
      cases hm with
      | retire g p => exact hg.elim
      | _ => rfl
    | retire =>
      obtain ⟨-, hrec⟩ := hg
      have hrec := hrec.resolve_right (hd .unit)
      cases hm with
      | retire | activate | disown => cases hrec
      | _ => exact ⟨rfl, fun _ => ⟨rfl, rfl⟩⟩
  | domainEnd v g r =>
    refine .inl ⟨rfl, fun he => ?_⟩
    cases v with
    | enter o => cases r <;> cases o <;> cases he
    | retire | leave => cases he
  | found d k | notFound d k => cases k <;> exact .inl ⟨rfl, nofun⟩
  | setLast d a i =>
    refine .inl ⟨rfl, fun he => ?_⟩
    rcases lockFrom_cases a 0 with ⟨-, -, h1⟩ | ⟨-, -, -, h1⟩ | ⟨-, h1⟩
    all_goals cases h1.symm.trans he
  | predNext d a i =>
    refine .inl ⟨rfl, fun he => ?_⟩
    rcases lockFrom_cases a (i + 1) with ⟨-, -, h1⟩ | ⟨-, -, -, h1⟩ | ⟨-, h1⟩
    all_goals cases h1.symm.trans he
  | predMarked | succMarked | predNextFail | setFullyLinked | unlock =>
    exact .inl ⟨rfl, fun he => absurd he unlockFrom_ne_domain⟩
  | unlockVictim d v x => exact .inl ⟨rfl, nofun⟩
  | spliceMissed d v x i | unlockSpliced d v x i => cases i <;> exact .inl ⟨rfl, nofun⟩
  | _ => exact .inl ⟨rfl, nofun⟩

omit [LT T] [DecidableLT T] [DecidableEq ι] [IsStrictWeakOrder T (· < ·)] in
theorem Guarded.not_disown {l : Local T} {j : ℕ} (hg : Guarded l) (hpc : l.pc = .domain .retire) :
    l.domain.pc ≠ .disown j := by
  unfold Guarded at hg
  rw [hpc] at hg
  intro he
  rw [he] at hg
  rcases hg.2 with h1 | h1 <;> cases h1

omit [IsStrictWeakOrder T (· < ·)] in
/-- A thread in a `retire` protects what it has retired. -/
theorem own_protected (hr : (program w).Run Program.anyStep initial h c) (hw : entries h < 2 ^ w)
    {u : ι}
    (hu : (c.loc u).pc = .domain .retire) :
    ∃ n < c.shared.domain.retires, ∃ j ∈ (c.loc u).domain.guards, guardsSince h n j := by
  induction hr with
  | nil => cases hu
  | @cons h c t k ev s l hrun _ hs ih =>
    have hr' : (program w).Run Program.anyStep initial (⟨t, ev, c, c.set t s l⟩ :: h)
        (c.set t s l) :=
      hrun.cons trivial hs
    have hwh := (entries_le _ h).trans_lt hw
    have hactive : ∀ j ∈ ((c.set t s l).loc u).domain.guards, s.domain.active j = true :=
      fun j hj =>
      guard_active hr' hw hj ((guarded_run hr' u).not_disown hu)
    have hret := (step_move hs).retires (guarded_run hrun t)
    have hle : c.shared.domain.retires ≤ s.domain.retires := by
      rcases hret with ⟨h1, -⟩ | ⟨x, -, h1, -⟩
      · exact h1.ge
      · rw [h1]
        exact Nat.le_succ _
    have hkeep : (∃ n < c.shared.domain.retires, ∃ j ∈ (c.loc u).domain.guards, guardsSince h n j) →
        ((c.set t s l).loc u).domain.guards = (c.loc u).domain.guards →
        ∃ n < s.domain.retires, ∃ j ∈ ((c.set t s l).loc u).domain.guards,
          guardsSince (⟨t, ev, c, c.set t s l⟩ :: h) n j := by
      rintro ⟨n, hn, j, hj, hsince⟩ hg
      rw [← hg] at hj
      exact ⟨n, hn.trans_le hle, j, hj, guardsSince_keep hsince (hactive j hj)⟩
    by_cases hut : u = t
    · subst hut
      rw [Config.set_loc_self] at hu hkeep hactive ⊢
      rcases hret with ⟨-, h2⟩ | ⟨x, hpc, hsucc, -⟩
      · obtain ⟨h3, h4⟩ := h2 hu
        exact hkeep (ih hwh h3) h4
      · -- the guard of the call that is made now
        have hg := guarded_run hr' u
        rw [Config.set_loc_self] at hg
        unfold Guarded at hg
        rw [hu] at hg
        obtain ⟨⟨j, hj⟩, -⟩ := hg
        have hmem : j ∈ l.domain.guards := by rw [hj]; exact List.mem_cons_self
        refine ⟨c.shared.domain.retires, ?_, j, hmem, guardsSince_new hpc hsucc (hactive j hmem)⟩
        show c.shared.domain.retires < s.domain.retires
        omega
    · have hsame := Config.set_loc_ne c hut s l
      rw [hsame] at hu
      exact hkeep (ih hwh hu) (by rw [hsame])

omit [IsStrictWeakOrder T (· < ·)] in
/-- **Once a node has been retired, there is always one that has not been deleted.** -/
theorem one_left (hr : (program w).Run Program.anyStep initial h c) (hw : entries h < 2 ^ w)
    (hret : c.shared.domain.retires ≠ 0) :
    ∃ n < c.shared.domain.retires, c.shared.domain.deleted n = 0 := by
  induction hr with
  | nil => exact absurd rfl hret
  | @cons h c t k ev s l hrun _ hs ih =>
    have hr' : (program w).Run Program.anyStep initial (⟨t, ev, c, c.set t s l⟩ :: h)
        (c.set t s l) :=
      hrun.cons trivial hs
    have hwh := (entries_le _ h).trans_lt hw
    have hm := step_move hs
    have hretire : l.pc = .domain .retire →
        ∃ n < s.domain.retires, s.domain.deleted n = 0 := by
      intro hpc
      obtain ⟨n, hn, j, -, hj⟩ := own_protected hr' hw (u := t)
        (by rw [Config.set_loc_self]; exact hpc)
      exact ⟨n, hn, not_deleted hr' hw hj⟩
    rcases hm.deleted with ⟨-, hdel⟩ | ⟨v, m, n, rest, hpc, hsweep, -, -, hpc'⟩
    · rcases hm.retires (guarded_run hrun t) with ⟨h1, -⟩ | ⟨x, -, -, h1⟩
      · obtain ⟨n, hn, h0⟩ := ih hwh (by rw [← h1]; exact hret)
        exact ⟨n, by rw [h1.symm] at hn; exact hn, by
          show s.domain.deleted n = 0
          rw [hdel]
          exact h0⟩
      · exact hretire h1
    · -- only a `retire` sweeps
      have hg := guarded_run hrun t
      unfold Guarded at hg
      rw [hpc, hsweep] at hg
      cases v with
      | enter o | leave r => exact hg.elim
      | retire => exact hretire hpc'

/-- **Which runs free every node.** Of a list that is destroyed with no operation in progress every
node has been deleted exactly once if and only if the domain's retired list is empty then; and up to
`2 ^ w` guards, if and only if no `erase` has retired a node. -/
theorem freed_exactly_once (hr : (program w).Run Program.anyStep initial h c)
    (hidle : ∀ t, (c.loc t).pc = .idle) :
    ∃ D, destroy c.shared c.shared.nodes (some head) = some D ∧
      ((∀ a < c.shared.nodes, (deleted h ++ D).count a = 1) ↔ c.shared.domain.retiredHead = []) ∧
      (entries h < 2 ^ w →
        ((∀ a < c.shared.nodes, (deleted h ++ D).count a = 1) ↔ retired h = [])) := by
  obtain ⟨D, hD, hcount⟩ := freed_or_retired hr hidle
  have hL := (inv_run hr).levels
  have hR := reclaims_run hr
  have hcarried := (EpochDomain.run_carried (domain_run_any hr)).2
  have hused : ∀ a ∈ retired h, a < c.shared.nodes := fun a ha =>
    hL.used_of_full (hL.marked a (hR.gone a ha).1)
  have hiff : (∀ a < c.shared.nodes, (deleted h ++ D).count a = 1) ↔
      c.shared.domain.retiredHead = [] := by
    constructor
    · intro hall
      by_contra hne
      obtain ⟨x, rest, hx⟩ := List.exists_cons_of_ne_nil hne
      have hmem : x ∈ c.shared.domain.retiredHead := by rw [hx]; exact List.mem_cons_self
      have hret : x.ptr ∈ retired h :=
        List.mem_of_getElem? (hcarried.pending x (.inl hmem)).1
      have h1 := hcount x.ptr (hused _ hret)
      have h2 := hall x.ptr (hused _ hret)
      have h3 : 0 < (c.shared.domain.retiredHead.map EpochDomain.RetiredNode.ptr).count x.ptr :=
        List.count_pos_iff.mpr (List.mem_map_of_mem hmem)
      omega
    · intro hnil a ha
      have := hcount a ha
      rw [hnil] at this
      simpa using this
  refine ⟨D, hD, hiff, fun hw => hiff.trans ⟨fun hnil => ?_, fun hnil => ?_⟩⟩
  · -- what is left of the retired nodes is on the list
    by_contra hne
    have hlen : (retired h).length = c.shared.domain.retires := hcarried.retires.symm
    obtain ⟨n, hn, h0⟩ := one_left hr hw fun h0 => hne (List.length_eq_zero_iff.mp (hlen.trans h0))
    obtain ⟨a, hget⟩ : ∃ a, (retired h)[n]? = some a := ⟨_, List.getElem?_eq_getElem (hlen ▸ hn)⟩
    have := retired_count hr hidle hget
    rw [(reclaimed_run hr).1 n a hget, h0, hnil] at this
    cases this
  · by_contra hne
    obtain ⟨x, rest, hx⟩ := List.exists_cons_of_ne_nil hne
    have hmem : x ∈ c.shared.domain.retiredHead := by rw [hx]; exact List.mem_cons_self
    have := List.mem_of_getElem? (hcarried.pending x (.inl hmem)).1
    rw [show EpochDomain.pointers (domainHist h) = retired h from rfl, hnil] at this
    cases this
end

/-- Neither of two threads is in an operation. -/
def quiet (c : Config Bool (Shared Bool ℕ) (Local ℕ)) : Bool :=
  match (c.loc true).pc, (c.loc false).pc with
  | .idle, .idle => true
  | _, _ => false

theorem idle_of_quiet {c : Config Bool (Shared Bool ℕ) (Local ℕ)} (hq : quiet c = true) (t : Bool) :
    (c.loc t).pc = .idle := by
  unfold quiet at hq
  split at hq
  · rename_i h1 h2
    cases t with
    | true => exact h1
    | false => exact h2
  · cases hq

/-- Two `insert`s of 5, the second one in vain: everything is freed. -/
theorem freed_exactly_once_insert : ∃ h c,
    (program (ι := Bool) (T := ℕ) 64).Run Program.anyStep initial h c ∧ c.shared.nodes = 4 ∧
      ∃ D, destroy c.shared 4 (some head) = some D ∧ ∀ a < 4, (deleted h ++ D).count a = 1 := by
  obtain ⟨h, c, hr, hq⟩ := Program.replay_reaches (program (ι := Bool) (T := ℕ) 64) initial
    (insertSteps 5 [] 46 ++ insertSteps 5 [] 41)
    (fun _ c => quiet c && decide (c.shared.nodes = 4) && c.shared.domain.retiredHead.isEmpty)
    (by set_option maxRecDepth 10000 in decide)
  simp only [Bool.and_eq_true, decide_eq_true_eq, List.isEmpty_iff] at hq
  obtain ⟨⟨hpc, hn⟩, hnil⟩ := hq
  obtain ⟨D, hD, hiff, -⟩ := freed_exactly_once hr (idle_of_quiet hpc)
  have hall := hiff.mpr hnil
  rw [hn] at hD hall
  exact ⟨h, c, hr, hn, D, hD, hall⟩

/-- An `insert` of 5 and its `erase`: the node of 5 is never freed. -/
theorem erased_node_leaks :
    ¬ ∀ h c D, (program (ι := Bool) (T := ℕ) 64).Run Program.anyStep initial h c →
      (∀ t, (c.loc t).pc = .idle) → destroy c.shared c.shared.nodes (some head) = some D →
      ∀ a < c.shared.nodes, (deleted h ++ D).count a = 1 := by
  intro hall
  obtain ⟨h, c, hr, hq⟩ := Program.replay_reaches (program (ι := Bool) (T := ℕ) 64) initial
    (insertSteps 5 [] 46 ++ (true, Choice.call (.erase 5)) :: List.replicate 62 (true, Choice.run))
    (fun h c => quiet c && decide (c.shared.nodes = 3 ∧ deleted h = [] ∧
        destroy c.shared 3 (some head) = some [0, 1]))
    (by set_option maxRecDepth 10000 in decide)
  simp only [Bool.and_eq_true, decide_eq_true_eq] at hq
  obtain ⟨hpc, hn, hd, hD⟩ := hq
  have := hall h c [0, 1] hr (idle_of_quiet hpc) (by rw [hn]; exact hD) 2 (by rw [hn]; decide)
  rw [hd] at this
  cases this

end Bonostl.ConcurrentSkipList
