import Bonostl.ConcurrentSkipList.Invariant

/-!
# Every step of a skip list keeps the invariant

`inv_move` goes through the moves: most of them read one field and only their own thread learns
something from it (`Inv.quiet`); the others are the writes of `Inv.new` to `Inv.store`. `inv_run` is
the invariant of every run, with the nodes that the run has linked in (`everLinked`).
-/

namespace Bonostl.ConcurrentSkipList

open Interleaving Chain

variable {ι T : Type} [LT T] [DecidableLT T] {L : ℕ → ℕ → Prop} {s s' : Shared ι T}
  {f : ι → Local T} {t : ι} {l l' : Local T}

/-! ## The searches -/

section
variable {v : T} {i pred curr : ℕ} {preds succs : ℕ → ℕ}

/-- `find` records a level. -/
theorem Found.record (h : Found L s v (i + 1) preds succs) (hi : i ≤ maxLevel)
    (hB : Before L s v i pred)
    (ho : i < maxLevel → preds (i + 1) = pred ∨ below (s.data (preds (i + 1))) (s.data pred))
    (hc : L i curr) (hp : precedes v (s.data curr) = false) :
    Found L s v i (Function.update preds i pred) (Function.update succs i curr) := by
  refine ⟨fun j hij hj => ?_, fun j hij hj => ?_, fun j hij hj => ?_⟩
  · by_cases hji : j = i
    · subst hji
      rw [Function.update_self]
      exact hB
    · rw [Function.update_of_ne hji]
      exact h.pred j (by omega) hj
  · by_cases hji : j = i
    · subst hji
      rw [Function.update_self]
      exact ⟨hc, hp⟩
    · rw [Function.update_of_ne hji]
      exact h.succ j (by omega) hj
  · rw [Function.update_of_ne (show j + 1 ≠ i by omega)]
    by_cases hji : j = i
    · subst hji
      rw [Function.update_self]
      exact ho hj
    · rw [Function.update_of_ne hji]
      exact h.order j (by omega) hj

/-- A load of `find` that stays on its level. -/
theorem knows_walk [IsTrans T (· < ·)] (hL : Levels L s) {k : Task T}
    (h : (Pc.find k ⟨i, pred, preds, succs⟩).Knows L s) (hn : s.next i pred = some curr)
    (hp : precedes k.value (s.data curr) = true) :
    (Pc.find k ⟨i, curr, preds, succs⟩).Knows L s := by
  obtain ⟨h1, h2, h3, h4, h5⟩ := h
  obtain ⟨hcL, hlt⟩ := hL.next_linked h3.1 hn
  refine ⟨h1, h2, ⟨hcL, hp⟩, fun hi => .inr ?_, h5⟩
  rcases h4 hi with he | hb
  · rw [he]
    exact hlt
  · exact IsTrans.trans _ _ _ hb hlt

/-- A load of `find` that goes one level down. -/
theorem knows_descend (hL : Levels L s) {k : Task T}
    (h : (Pc.find k ⟨i + 1, pred, preds, succs⟩).Knows L s) (hn : s.next (i + 1) pred = some curr)
    (hp : precedes k.value (s.data curr) = false) :
    (Pc.find k ⟨i, pred, Function.update preds (i + 1) pred,
      Function.update succs (i + 1) curr⟩).Knows L s := by
  obtain ⟨h1, h2, h3, h4, h5⟩ := h
  have h1 : i + 1 ≤ maxLevel := h1
  refine ⟨Nat.le_of_succ_le h1, h2.record h1 h3 h4 (hL.next_linked h3.1 hn).1 hp,
    ⟨hL.nested i pred h3.1, h3.2⟩, fun _ => .inl ?_, h5⟩
  exact Function.update_self ..

omit [LT T] [DecidableLT T] in
theorem resume_tables (k : Task T) (g : Find) (o : Option ℕ) :
    ((k.resume g o).made = none ∨ (k.resume g o).made = (Pc.find k g).made ∧
      (k.resume g o).levels = (Pc.find k g).levels) ∧
    (k.resume g o).victim = none ∧ ∀ m, ¬ (k.resume g o).Holds m := by
  cases k <;> cases o <;> simp [Task.resume, Pc.made, Pc.levels, Pc.victim, Pc.Holds]

/-- The end of `find` with a candidate. -/
theorem knows_found (hL : Levels L s) {k : Task T} (g : Find)
    (h : (Pc.find k ⟨0, pred, preds, succs⟩).Knows L s) (hn : s.next 0 pred = some curr)
    (he : equals k.value (s.data curr) = true) : (k.resume g (some curr)).Knows L s := by
  obtain ⟨-, -, h3, -, h5⟩ := h
  have hc : Matches L s k.value curr := ⟨(hL.next_linked h3.1 hn).1, he⟩
  cases k with
  | insert n v top => exact ⟨h5, hc⟩
  | erase v | contains v => exact hc

/-- The end of `find` without one. -/
theorem knows_notFound (hL : Levels L s) {k : Task T}
    (h : (Pc.find k ⟨0, pred, preds, succs⟩).Knows L s)
    (hP : ∀ n, (Pc.find k ⟨0, pred, preds, succs⟩).made = some n → n < s.nodes)
    (hn : s.next 0 pred = some curr) (hp : precedes k.value (s.data curr) = false)
    (he : equals k.value (s.data curr) = false) :
    (k.resume ⟨0, pred, Function.update preds 0 pred, Function.update succs 0 curr⟩
      none).Knows L s := by
  obtain ⟨-, h2, h3, h4, h5⟩ := h
  have hc := (hL.next_linked h3.1 hn).1
  cases k with
  | insert n v top =>
    refine ⟨⟨h2.record (Nat.zero_le _) h3 h4 hc hp, ?_, hP n rfl, h5.1, h5.2⟩, Nat.zero_le _,
      fun j _ hj => absurd hj (Nat.not_lt_zero j)⟩
    show equals v (s.data (Function.update succs 0 curr 0)) = false
    rw [Function.update_self]
    exact he
  | erase v | contains v => trivial
end

/-! ## The splicing loop -/

theorem Victim.not_before {v : T} {x i : ℕ} (hV : Victim s v x i) (hB : Before L s v i x) :
    False := by
  have hlt := precedes_iff.mp hB.2
  obtain ⟨y, hy, -, h2⟩ := equals_value hV.equal
  rw [hy] at hlt
  exact h2 hlt

/-- A level is done with. -/
theorem Victim.knows_next (hL : Levels L s) {v : T} {x i : ℕ} (hV : Victim s v x i)
    (hx : x ∉ chainOf s i) : (spliceFrom v x i).Knows L s := by
  refine knows_spliceFrom hL hV.marked hV.equal (hV.level.trans (Nat.le_succ _)) fun j hj hjt => ?_
  rcases hj.lt_or_eq with hj | rfl
  · exact hV.gone j hj hjt
  · exact hx

/-- A level is searched again. -/
theorem Victim.knows_again (hL : Levels L s) {v : T} {x i : ℕ} (hV : Victim s v x i)
    (hi : i ≤ maxLevel) : (Pc.splice v x i head).Knows L s := by
  refine ⟨hV, ⟨(hL.sentinels i hi).1, ?_⟩, fun hmem => (hL.chain i hi).reaches_of_mem hmem⟩
  rw [hL.data.1]
  rfl

variable [DecidableEq ι]

/-- A step that writes to no node and locks nothing. -/
theorem Inv.quiet (h : Inv L s f) (hft : f t = l) (hlink : l.pc.links = none) (hq : Same s s')
    (hmu : s'.mutex = s.mutex) (hl : ∀ m, l'.pc.Holds m ↔ l.pc.Holds m)
    (hmade : l'.pc.made = none ∨ l'.pc.made = l.pc.made ∧ l'.pc.levels = l.pc.levels)
    (hvict : l'.pc.victim = none ∨ l'.pc.victim = l.pc.victim) (hkn : l'.pc.Knows L s) :
    Inv (extend L l.pc) s' (Function.update f t l') ∧ Grows L s (extend L l.pc) s' := by
  subst hft
  rw [extend_none hlink]
  exact ⟨h.goto hq (h.mutex_same hmu hl) hmade hvict hkn, (hq.grows h.levels).2⟩

/-- A step that locks a mutex. -/
theorem Inv.locks (h : Inv L s f) {x : ℕ} (hft : f t = l) (hlink : l.pc.links = none)
    (hm : s.mutex x = none) (hl : ∀ m, l'.pc.Holds m ↔ m = x ∨ l.pc.Holds m)
    (hmade : l'.pc.made = none ∨ l'.pc.made = l.pc.made ∧ l'.pc.levels = l.pc.levels)
    (hvict : l'.pc.victim = none ∨ l'.pc.victim = l.pc.victim) (hkn : l'.pc.Knows L s) :
    Inv (extend L l.pc) { s with mutex := Function.update s.mutex x (some t) }
        (Function.update f t l') ∧
      Grows L s (extend L l.pc) { s with mutex := Function.update s.mutex x (some t) } := by
  subst hft
  rw [extend_none hlink]
  have hq : Same s { s with mutex := Function.update s.mutex x (some t) } :=
    ⟨rfl, rfl, rfl, rfl, rfl, rfl⟩
  exact ⟨h.goto hq (h.mutex_lock hm hl) hmade hvict hkn, (hq.grows h.levels).2⟩

/-- A step that unlocks a mutex. -/
theorem Inv.unlocks (h : Inv L s f) {x : ℕ} (hft : f t = l) (hlink : l.pc.links = none)
    (hx : l.pc.Holds x) (hl : ∀ m, l'.pc.Holds m ↔ m ≠ x ∧ l.pc.Holds m)
    (hmade : l'.pc.made = none ∨ l'.pc.made = l.pc.made ∧ l'.pc.levels = l.pc.levels)
    (hvict : l'.pc.victim = none ∨ l'.pc.victim = l.pc.victim) (hkn : l'.pc.Knows L s) :
    Inv (extend L l.pc) (s.unlock x) (Function.update f t l') ∧
      Grows L s (extend L l.pc) (s.unlock x) := by
  subst hft
  rw [extend_none hlink]
  have hq : Same s (s.unlock x) := ⟨rfl, rfl, rfl, rfl, rfl, rfl⟩
  exact ⟨h.goto hq (h.mutex_unlock hx hl) hmade hvict hkn, (hq.grows h.levels).2⟩

omit [DecidableEq ι] in
/-- What is left after `unlock_preds` has released the predecessor of level `i`. -/
theorem holds_after_unlock [IsStrictOrder T (· < ·)] {a : Attempt T} {i : ℕ} {valid : Bool} {m : ℕ}
    (h : (Pc.unlock a i valid).Knows L s) :
    (unlockFrom a valid i).Holds m ↔ m ≠ a.preds i ∧ (Pc.unlock a i valid).Holds m := by
  obtain ⟨hr, hi, hne⟩ := h
  rw [holds_unlockFrom]
  constructor
  · rintro ⟨j, hj, rfl⟩
    refine ⟨fun he => ?_, j, hj.le, rfl⟩
    have hlt := hr.found.below_of_ne hi (hne.resolve_left (by omega)) hj
    rw [he] at hlt
    exact below_irrefl _ hlt
  · rintro ⟨hm, j, hj, rfl⟩
    refine ⟨j, lt_of_le_of_ne hj ?_, rfl⟩
    rintro rfl
    exact hm rfl

omit [DecidableEq ι] in
theorem knows_begin (hL : Levels L s) (o : Op T) : (begin o).Knows L s := by
  cases o with
  | insert v => trivial
  | erase v | contains v => exact knows_search hL trivial

omit [DecidableEq ι] in
theorem resume_visit (hL : Levels L s) (v : Visit T) (r : EpochDomain.Res) :
    (v.resume r).made = none ∧ (v.resume r).victim = none ∧ (∀ m, ¬ (v.resume r).Holds m) ∧
      (v.resume r).Knows L s := by
  cases v with
  | enter o =>
    cases r with
    | noSlots => exact ⟨rfl, rfl, fun _ => id, trivial⟩
    | _ =>
      refine ⟨?_, ?_, ?_, knows_begin hL o⟩
      all_goals cases o <;> simp [Visit.resume, begin, search, Pc.made, Pc.victim, Pc.Holds]
  | retire => exact ⟨rfl, rfl, fun _ => id, trivial⟩
  | leave res => exact ⟨rfl, rfl, fun _ => id, trivial⟩

/-- **Every step keeps the invariant.** -/
theorem inv_move [IsStrictWeakOrder T (· < ·)] {w : ℕ} {ev : Event (Op T) Res} (h : Inv L s f)
    (hm : Move w t s ev (f t) s' l') : Inv (extend L (f t).pc) s' (Function.update f t l') ∧
      Grows L s (extend L (f t).pc) s' := by
  have hL := h.levels
  have hk := h.knows t
  have hP := h.mine t
  generalize hft : f t = l at hm hk hP ⊢
  have hpc : (f t).pc = l.pc := by rw [hft]
  cases hm with
  | call g o | leave i g r | ret d r =>
    exact h.quiet hft rfl (.refl s) rfl (fun _ => Iff.rfl) (.inl rfl) (.inl rfl) trivial
  | domain v d s₁ d' hm hd =>
    refine h.quiet hft rfl (same_free s s₁ _) ?_ (fun _ => Iff.rfl) (.inl rfl) (.inl rfl) trivial
    cases deletes d <;> rfl
  | retire g x =>
    exact h.quiet hft rfl ⟨rfl, rfl, rfl, rfl, rfl, rfl⟩ rfl (fun _ => Iff.rfl) (.inl rfl)
      (.inl rfl)
      trivial
  | domainEnd v g r =>
    obtain ⟨h1, h2, h3, h4⟩ := resume_visit hL v r
    exact h.quiet hft rfl (.refl s) rfl (fun m => ⟨fun hm => h3 m hm, (by rintro ⟨⟩)⟩) (.inl h1)
      (.inl h2) h4
  | walk d k i pred preds succs curr hn hp =>
    refine h.quiet hft rfl (.refl s) rfl (fun _ => Iff.rfl) (.inr ⟨?_, rfl⟩) (.inl rfl)
      (knows_walk hL hk hn hp)
    cases k <;> rfl
  | descend d k i pred preds succs curr hn hp =>
    refine h.quiet hft rfl (.refl s) rfl (fun _ => Iff.rfl) (.inr ⟨?_, rfl⟩) (.inl rfl)
      (knows_descend hL hk hn hp)
    cases k <;> rfl
  | found d k pred preds succs curr hn hp he =>
    obtain ⟨h1, h2, h3⟩ := resume_tables k
      ⟨0, pred, Function.update preds 0 pred, Function.update succs 0 curr⟩ (some curr)
    refine h.quiet hft rfl (.refl s) rfl (fun m => ⟨fun hm => h3 m hm, (by rintro ⟨⟩)⟩) ?_ (.inl h2)
      (knows_found hL ⟨0, pred, Function.update preds 0 pred, Function.update succs 0 curr⟩
      hk hn he)
    cases k <;> exact h1
  | notFound d k pred preds succs curr hn hp he =>
    obtain ⟨h1, h2, h3⟩ := resume_tables k
      ⟨0, pred, Function.update preds 0 pred, Function.update succs 0 curr⟩ none
    refine h.quiet hft rfl (.refl s) rfl (fun m => ⟨fun hm => h3 m hm, (by rintro ⟨⟩)⟩) ?_ (.inl h2)
      (knows_notFound hL hk (fun n hn => (hP n hn).used) hn hp he)
    cases k <;> exact h1
  | newNode d v top ht =>
    rw [extend_none rfl]
    exact h.new ht hpc
  | foundMarked d n v top x hm =>
    exact h.quiet hft rfl (.refl s) rfl (fun _ => Iff.rfl) (.inr ⟨rfl, rfl⟩) (.inl rfl)
      (knows_search hL hk.1)
  | foundUnmarked d n v top x hm =>
    exact h.quiet hft rfl (.refl s) rfl (fun _ => Iff.rfl) (.inr ⟨rfl, rfl⟩) (.inl rfl) hk.2
  | foundLinked d n v x hf =>
    exact h.quiet hft rfl (.refl s) rfl (fun _ => Iff.rfl) (.inr ⟨rfl, rfl⟩) (.inl rfl) trivial
  | foundWaits d n v x hf =>
    exact h.quiet hft rfl (.refl s) rfl (fun _ => Iff.rfl) (.inr ⟨rfl, rfl⟩) (.inl rfl) hk
  | deleteNew d n =>
    exact h.quiet hft rfl (same_free s s.domain _) rfl (fun _ => Iff.rfl) (.inl rfl)
      (.inl rfl) trivial
  | setNext d a i hi =>
    rw [extend_none rfl]
    exact h.set_next hpc (fun _ => id) rfl rfl rfl fun hr hs => ⟨hr, hi, hs⟩
  | setLast d a i hi =>
    obtain ⟨h1, h2, h3⟩ := lockFrom_tables a 0
    rw [extend_none rfl]
    refine h.set_next hpc (fun m hm => ?_) h1 h2 h3 fun hr hs => ?_
    · obtain ⟨j, hj, -⟩ := (holds_lockFrom (Nat.zero_le _)).mp hm
      exact Nat.not_lt_zero j hj
    · obtain rfl : i = a.top := le_antisymm hk.2.1 hi
      exact knows_lockFrom hr hs (fun j _ hj => absurd hj (Nat.not_lt_zero j)) (Nat.zero_le _)
  | lock d a i hm =>
    obtain ⟨h1, h2, h3, h4, -⟩ := hk
    refine h.locks hft rfl hm (fun m => ⟨?_, ?_⟩) (.inr ⟨rfl, rfl⟩) (.inl rfl) ⟨h1, h2, h3, h4⟩
    · rintro ⟨j, hj, rfl⟩
      rcases hj.lt_or_eq with hj | rfl
      · exact .inr ⟨j, hj, rfl⟩
      · exact .inl rfl
    · rintro (rfl | ⟨j, hj, rfl⟩)
      · exact ⟨i, le_rfl, rfl⟩
      · exact ⟨j, hj.le, rfl⟩
  | predMarked d a i hm | succMarked d a i hm | predNextFail d a i =>
    -- the attempt fails: release what has been locked
    obtain ⟨h1, h2, h3⟩ := unlockFrom_tables a false (i + 1)
    have hi := hk.2.1.trans (hk.1.top_le hL)
    refine h.quiet hft rfl (.refl s) rfl (fun m => ?_) (.inr ⟨h1, h2⟩) (.inl h3)
      (knows_unlockFrom hL hk.1 (Nat.succ_le_succ hi))
    rw [holds_unlockFrom]
    simp only [Pc.Holds, Nat.lt_succ_iff]
  | predUnmarked d a i hm =>
    obtain ⟨h1, h2, h3, h4⟩ := hk
    exact h.quiet hft rfl (.refl s) rfl (fun _ => Iff.rfl) (.inr ⟨rfl, rfl⟩) (.inl rfl)
      ⟨h1, h2, h3, h4, hm⟩
  | succUnmarked d a i hm =>
    obtain ⟨h1, h2, h3, h4, h5⟩ := hk
    exact h.quiet hft rfl (.refl s) rfl (fun _ => Iff.rfl) (.inr ⟨rfl, rfl⟩) (.inl rfl)
      ⟨h1, h2, h3, h4, h5, above_succ hL h1 (h2.trans (h1.top_le hL)) h4 hm⟩
  | predNext d a i hn =>
    obtain ⟨h1, h2, h3, h4, h5, h6⟩ := hk
    obtain ⟨t1, t2, t3⟩ := lockFrom_tables a (i + 1)
    refine h.quiet hft rfl (.refl s) rfl (fun m => ?_) (.inr ⟨t1, t2⟩) (.inl t3)
      (knows_lockFrom h1 h3 (fun j hj hji => ?_) (Nat.succ_le_succ h2))
    · rw [holds_lockFrom (Nat.succ_le_succ h2)]
      simp only [Pc.Holds, Nat.lt_succ_iff]
    · by_cases hjeq : j = i
      · subst hjeq
        exact ⟨h5, hn, h6⟩
      · exact h4 j hj (by omega)
  | link d a i hi =>
    exact h.link hpc (fun _ => Iff.rfl) rfl rfl rfl fun hr hs hv => ⟨hr, hi, hs, hv⟩
  | linkLast d a i hi =>
    obtain rfl : i = a.top := le_antisymm hk.2.1 hi
    exact h.link hpc (fun _ => Iff.rfl) rfl rfl rfl fun hr _ _ => hr
  | setFullyLinked d a =>
    rw [extend_none rfl]
    exact h.full hpc
  | unlock d a i valid =>
    obtain ⟨h1, h2, h3⟩ := unlockFrom_tables a valid i
    refine h.unlocks hft rfl ⟨i, le_rfl, rfl⟩ (fun m => holds_after_unlock hk) ?_ (.inl h3)
      (knows_unlockFrom hL hk.1 (hk.2.1.trans (Nat.le_succ _)))
    cases valid with
    | true => exact .inl h1
    | false => exact .inr ⟨h1, h2⟩
  | victimLinked d v x hf =>
    exact h.quiet hft rfl (.refl s) rfl (fun _ => Iff.rfl) (.inl rfl) (.inl rfl) ⟨hf, hk.2⟩
  | victimUnlinked d v x =>
    exact h.quiet hft rfl (.refl s) rfl (fun _ => Iff.rfl) (.inl rfl) (.inl rfl)
      (knows_search hL trivial)
  | victimMarked d v x hm =>
    exact h.quiet hft rfl (.refl s) rfl (fun _ => Iff.rfl) (.inl rfl) (.inl rfl) trivial
  | victimUnmarked d v x =>
    exact h.quiet hft rfl (.refl s) rfl (fun _ => Iff.rfl) (.inl rfl) (.inl rfl) hk
  | lockVictim d v x hm =>
    exact h.locks hft rfl hm (fun m => by simp [Pc.Holds]) (.inl rfl) (.inl rfl) hk
  | recheckMarked d v x hm =>
    exact h.quiet hft rfl (.refl s) rfl (fun _ => Iff.rfl) (.inl rfl) (.inl rfl)
      ⟨hk.1, hk.2, (by rintro ⟨⟩)⟩
  | recheckUnmarked d v x hm =>
    exact h.quiet hft rfl (.refl s) rfl (fun _ => Iff.rfl) (.inl rfl) (.inl rfl) ⟨hk.1, hk.2, hm⟩
  | mark d v x =>
    rw [extend_none rfl]
    exact h.mark hpc
  | unlockVictim d v x =>
    obtain ⟨h1, -, h3, h4⟩ := spliceFrom_tables v x (s.topLevel x + 1)
    refine h.unlocks hft rfl rfl (fun m => ⟨fun hm => absurd hm (h4 m), fun hm => absurd hm.2 hm.1⟩)
      (.inl h1) (.inr h3) (knows_spliceFrom hL (hk.2.2 rfl) hk.2.1 le_rfl fun j hj hjt => ?_)
    exact absurd (hj.trans hjt) (Nat.not_succ_le_self _)
  | unlockMarked d v x =>
    exact h.unlocks hft rfl rfl (fun m => ⟨(by rintro ⟨⟩), fun hm => hm.1 hm.2⟩) (.inl rfl)
      (.inl rfl) trivial
  | spliceFound d v x i pred hn =>
    exact h.quiet hft rfl (.refl s) rfl (fun _ => Iff.rfl) (.inl rfl) (.inr rfl) ⟨hk.1, hk.2.1⟩
  | spliceWalk d v x i pred curr hn hx hp =>
    obtain ⟨h1, h2, h3⟩ := hk
    refine h.quiet hft rfl (.refl s) rfl (fun _ => Iff.rfl) (.inl rfl) (.inr rfl)
      ⟨h1, ⟨(hL.next_linked h2.1 hn).1, hp⟩, fun hmem => (h3 hmem).step ?_ hn⟩
    rintro rfl
    exact h1.not_before h2
  | spliceMissed d v x i pred curr hn hx hp =>
    obtain ⟨h1, h2, h3⟩ := hk
    obtain ⟨t1, -, t3, t4⟩ := spliceFrom_tables v x i
    have hgone := not_mem_of_missed hL h1 h2 h3 hn hx hp
    exact h.quiet hft rfl (.refl s) rfl (fun m => ⟨fun hm => absurd hm (t4 m), (by rintro ⟨⟩)⟩)
      (.inl t1)
      (.inr t3) (h1.knows_next hL hgone)
  | lockPred d v x i pred hm =>
    exact h.locks hft rfl hm (fun m => by simp [Pc.Holds]) (.inl rfl) (.inr rfl) hk
  | splicePredMarked d v x i pred hm =>
    exact h.quiet hft rfl (.refl s) rfl (fun _ => Iff.rfl) (.inl rfl) (.inr rfl)
      ⟨hk.1, hk.2, (by rintro ⟨⟩)⟩
  | splicePredUnmarked d v x i pred hm =>
    exact h.quiet hft rfl (.refl s) rfl (fun _ => Iff.rfl) (.inl rfl) (.inr rfl) ⟨hk.1, hk.2, hm⟩
  | splicePredNext d v x i pred hn =>
    obtain ⟨h1, h2, h3⟩ := hk
    exact h.quiet hft rfl (.refl s) rfl (fun _ => Iff.rfl) (.inl rfl) (.inr rfl) ⟨h1, h2, h3, hn⟩
  | splicePredNextFail d v x i pred =>
    exact h.quiet hft rfl (.refl s) rfl (fun _ => Iff.rfl) (.inl rfl) (.inr rfl)
      ⟨hk.1, hk.2.1, (by rintro ⟨⟩)⟩
  | victimNext d v x i pred =>
    obtain ⟨h1, h2, h3, h4⟩ := hk
    exact h.quiet hft rfl (.refl s) rfl (fun _ => Iff.rfl) (.inl rfl) (.inr rfl)
      ⟨h1, h2, h3, h4, rfl⟩
  | storeNext d v x i pred next =>
    rw [extend_none rfl]
    exact h.store hpc
  | unlockSpliced d v x i pred =>
    obtain ⟨h1, h2, h3⟩ := hk
    obtain ⟨t1, -, t3, t4⟩ := spliceFrom_tables v x i
    exact h.unlocks hft rfl rfl (fun m => ⟨fun hm => absurd hm (t4 m), fun hm => absurd hm.2 hm.1⟩)
      (.inl t1) (.inr t3) (h1.knows_next hL (h3 rfl))
  | unlockRetry d v x i pred =>
    obtain ⟨h1, h2, -⟩ := hk
    exact h.unlocks hft rfl rfl (fun m => ⟨(by rintro ⟨⟩), fun hm => hm.1 hm.2⟩) (.inl rfl)
      (.inr rfl)
      (h1.knows_again hL (hL.le_max h2.1))
  | containsLinked d v x hf =>
    exact h.quiet hft rfl (.refl s) rfl (fun _ => Iff.rfl) (.inl rfl) (.inl rfl) hk
  | containsUnlinked d v x hf | containsMarked d v x =>
    exact h.quiet hft rfl (.refl s) rfl (fun _ => Iff.rfl) (.inl rfl) (.inl rfl) trivial

/-! ## Runs -/

/-- A step of a run of a skip list. -/
abbrev Step (ι T : Type) := Rec ι (Shared ι T) (Local T) (Op T) Res

omit [LT T] [DecidableLT T] [DecidableEq ι] in
/-- The nodes a run has linked in, by level. -/
def everLinked : List (Step ι T) → ℕ → ℕ → Prop
  | [] => fun l a => l ≤ maxLevel ∧ (a = head ∨ a = tail)
  | r :: h => extend (everLinked h) (r.pre.loc r.tid).pc

omit [DecidableLT T] [DecidableEq ι] in
theorem levels_initial :
    Levels (everLinked ([] : List (Step ι T))) (initial (ι := ι) (T := T)).shared := by
  have hnext : ∀ l ≤ maxLevel, ∀ a, (initial (ι := ι) (T := T)).shared.next l a =
      if a = head then some tail else none := by
    intro l hl a
    simp [initial, hl]
  have hchain : ∀ l ≤ maxLevel, Linked ((initial (ι := ι) (T := T)).shared.next l) (some head)
      [head, tail] := by
    intro l hl
    refine ⟨rfl, ?_, ?_⟩
    · exact hnext l hl head
    · exact hnext l hl tail
  have hmem : ∀ l ≤ maxLevel, ∀ a, a ∈ chainOf (initial (ι := ι) (T := T)).shared l ↔
      a = head ∨ a = tail := by
    intro l hl a
    rw [chainOf_eq (hchain l hl)]
    simp
  refine ⟨fun l hl => ⟨?_, fun a ha => ⟨hl, (hmem l hl a).mp ha⟩, fun a b ha hab => ?_,
    fun a ha _ => (hmem l hl a).mpr ha.2, rfl⟩, fun l hl => ⟨⟨hl, .inl rfl⟩, ⟨hl, .inr rfl⟩⟩,
    ⟨rfl, rfl⟩, fun l a ha => ?_, fun l a ha => ⟨?_, ha.1⟩, fun _ _ => le_rfl,
    fun l a ha => ⟨Nat.le_of_succ_le ha.1, ha.2⟩, fun l hl a ha => ?_, nofun, nofun,
    fun l hl a ha hat => ?_⟩
  · rw [chainOf_eq (hchain l hl)]
    exact hchain l hl
  · rw [hnext l hl] at hab
    split at hab
    · subst_vars
      obtain rfl := Option.some.inj hab
      exact ⟨⟨hl, .inr rfl⟩, trivial⟩
    · cases hab
  · exact ha.2.imp_right .inl
  · rcases ha.2 with rfl | rfl
    · exact Nat.zero_lt_two
    · exact Nat.one_lt_two
  · exact (hmem l hl.le a).mpr ((hmem _ hl a).mp ha)
  · obtain rfl := ha.2.resolve_right hat
    exact ⟨tail, by rw [hnext l hl, if_pos rfl]⟩

omit [DecidableEq ι] in
theorem inv_initial : Inv (everLinked ([] : List (Step ι T))) (initial (ι := ι) (T := T)).shared
    (initial (ι := ι) (T := T)).loc :=
  ⟨levels_initial, fun _ _ => ⟨nofun, nofun⟩, nofun, nofun, nofun, fun _ => trivial⟩

variable {w : ℕ} {h : List (Step ι T)} {c : Config ι (Shared ι T) (Local T)}
  {ok : List (Step ι T) → Config ι (Shared ι T) (Local T) → ι → Choice T → Prop}

/-- **The invariant of every run.** -/
theorem inv_run [IsStrictWeakOrder T (· < ·)] (hr : (program w).Run ok initial h c) :
    Inv (everLinked h) c.shared c.loc :=
  hr.induction (I := fun h c => Inv (everLinked h) c.shared c.loc) inv_initial
    fun _ _ _ _ _ _ _ _ hI _ hs => (inv_move hI (step_move hs)).1

end Bonostl.ConcurrentSkipList
