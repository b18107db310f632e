import Bonostl.LockfreeHashMap.BucketCount
import Bonostl.LockfreeHashMap.OutOfSlots
import Bonostl.LockfreeHashMap.Sentinels

/-!
# The frames of `find_bucket`

`find_bucket` calls itself on the bucket without its highest bit and keeps its own two slots
meanwhile. Each open call (`Stack`) has one bit less than the one that waits for it, so there are no
more of them than the bucket of the operation has bits, and with `Pc.Holds` the slots are bounded
too (`Pc.Framed.slots`).

A bucket of a table of up to `2 ^ 32` buckets has at most 32 bits: an operation holds at most 66 of
the 100 slots. So a thread always finds one while no other thread holds any (`Budget`).
-/

namespace Bonostl.LockfreeHashMap

open Interleaving HazardPtr HarrisMichael

variable {ι K V : Type}

/-! ## Bits -/

/-- A parent has the bits below position `n` without the highest one. -/
theorem cpopNatRec_parent {b : Word} (hb : b ≠ 0) : ∀ n,
    (parent b).cpopNatRec n 0 + (if b.toNat.log2 < n then 1 else 0) = b.cpopNatRec n 0
  | 0 => rfl
  | n + 1 => by
    have ih := cpopNatRec_parent hb n
    rw [BitVec.cpopNatRec_succ, BitVec.cpopNatRec_succ, BitVec.cpopNatRec_eq,
      BitVec.cpopNatRec_eq (0 + _), parent_getLsbD hb]
    by_cases hn : n = b.toNat.log2
    · subst hn
      have hbit : b.getLsbD b.toNat.log2 = true := getLsbD_log2 hb
      simp [hbit] at ih ⊢
      omega
    · by_cases hlt : b.toNat.log2 < n
      · simp [hn, hlt, show b.toNat.log2 < n + 1 by omega] at ih ⊢
        omega
      · simp [hn, hlt, show ¬ b.toNat.log2 < n + 1 by omega] at ih ⊢
        omega

/-- **A parent has one bit less.** -/
theorem cpop_parent {b : Word} (hb : b ≠ 0) : (parent b).cpop.toNat + 1 = b.cpop.toNat := by
  have hpos : b.toNat ≠ 0 := by simpa [BitVec.toNat_eq] using hb
  have hlog : b.toNat.log2 < 64 := (Nat.log2_lt hpos).mpr b.isLt
  have hrec := cpopNatRec_parent hb 64
  rw [if_pos hlog] at hrec
  rw [BitVec.toNat_cpop, BitVec.toNat_cpop]
  exact hrec

theorem cpop_le {b : Word} (hb : b.toNat < 2 ^ 32) : b.cpop.toNat ≤ 32 := by
  have hlow : (b.setWidth 32).setWidth 64 = b := by
    refine BitVec.eq_of_toNat_eq ?_
    rw [BitVec.toNat_setWidth, BitVec.toNat_setWidth, Nat.mod_eq_of_lt hb, Nat.mod_eq_of_lt b.isLt]
  rw [← hlow, BitVec.toNat_cpop_setWidth_eq_of_le (by decide)]
  exact BitVec.toNat_cpop_le _

/-! ## Open calls -/

/-- The open calls of `find_bucket`, the innermost first: each bucket is the parent of the next one,
and `P` holds of the last. -/
def Stack (P : Word → Prop) : Word → List Word → Prop
  | b, [] => P b
  | b, b' :: bs => b = parent b' ∧ b' ≠ 0 ∧ Stack P b' bs

/-- The calls of `find_bucket` that have a slot to claim or to give back. -/
def Pc.frames (pc : Pc K V) : ℕ := (pc.buckets.filter (· ≠ 0)).length

/-- What the place says of the open calls and of the `hp_owner`s to destroy. -/
def Pc.Framed (P : Op K V → Word → Prop) : Pc K V → Prop
  | .claim (.bucket o b bs) _ _ | .find (.sentinel o b bs) _ | .find (.anchor o b bs _ _) _
  | .newSentinel o b bs _ | .setNext (.sentinel o b bs _) _ _ | .link (.sentinel o b bs _) _ _
  | .deleteSentinel o b bs _ => b ≠ 0 ∧ Stack (P o) b bs
  | .destroy k (.bucket o b bs _) => (b = 0 → k = 0) ∧ k ≤ 2 ∧ Stack (P o) b bs
  | .disown k (.bucket o b bs _) => b ≠ 0 ∧ k ≤ 1 ∧ Stack (P o) b bs
  | .destroy k (.result r) => r.threw = false → k ≤ 2
  | .disown k (.result r) => r.threw = false → k ≤ 1
  | _ => True

variable {P : Op K V → Word → Prop} {o : Op K V} {b : Word} {bs : List Word} {pc : Pc K V} {n : ℕ}

theorem Stack.cpop {P : Word → Prop} : ∀ {bs : List Word} {b : Word}, Stack P b bs →
    ∃ B, P B ∧ b.cpop.toNat + bs.length = B.cpop.toNat
  | [], b, h => ⟨b, h, rfl⟩
  | b' :: bs, b, h => by
    obtain ⟨hb, hb', h⟩ := h
    obtain ⟨B, hB, hlen⟩ := h.cpop
    have hbits := cpop_parent hb'
    refine ⟨B, hB, ?_⟩
    rw [hb, List.length_cons]
    omega

/-- A call of bucket 0 has no frame. -/
theorem Stack.frames_le {P : Word → Prop} (h : Stack P b bs) :
    ∃ B, P B ∧ bs.length + (if b = 0 then 0 else 1) ≤ B.cpop.toNat := by
  obtain ⟨B, hB, hlen⟩ := h.cpop
  refine ⟨B, hB, ?_⟩
  by_cases hb : b = 0
  · rw [if_pos hb]
    omega
  · have hbits := cpop_parent hb
    rw [if_neg hb]
    omega

theorem framed_findBucket (h : Stack (P o) b bs) : (findBucket o b bs).Framed P := by
  unfold findBucket
  split
  · rename_i hb
    subst hb
    exact ⟨fun _ => rfl, Nat.zero_le 2, h⟩
  · exact ⟨‹_›, h⟩

theorem op_findBucket (o : Op K V) (b : Word) (bs : List Word) :
    (findBucket o b bs).op? = some o := by
  unfold findBucket
  split <;> rfl

/-- The open calls at a place, with the slots the thread holds. -/
theorem Pc.Framed.stack (h : pc.Framed P) : pc.buckets = [] ∨ ∃ o b bs,
    pc.buckets = b :: bs ∧ pc.op? = some o ∧ Stack (P o) b bs ∧
      ∀ n, pc.Holds n → n ≤ o.held + 2 * (bs.length + (if b = 0 then 0 else 1)) := by
  have hframe : ∀ {o : Op K V} {b : Word} {bs : List Word} {n : ℕ}, b ≠ 0 →
      n ≤ o.held + 2 * bs.length + 2 → n ≤ o.held + 2 * (bs.length + (if b = 0 then 0 else 1)) := by
    intro o b bs n hb hn
    rw [if_neg hb]
    omega
  cases pc with
  | claim w second i =>
    cases w with
    | bucket o b bs =>
      refine .inr ⟨o, b, bs, rfl, rfl, h.2, fun n hn => hframe h.1 ?_⟩
      have hn : n = o.held + 2 * bs.length + second.toNat := hn
      have hsecond := Bool.toNat_le second
      omega
    | _ => exact .inl rfl
  | find w f =>
    cases w with
    | sentinel o b bs | anchor o b bs _ _ =>
      exact .inr ⟨o, b, bs, rfl, rfl, h.2, fun n hn => hframe h.1 (Nat.le_of_eq hn)⟩
    | data => exact .inl rfl
  | newSentinel o b bs _ | deleteSentinel o b bs _ =>
    exact .inr ⟨o, b, bs, rfl, rfl, h.2, fun n hn => hframe h.1 (Nat.le_of_eq hn)⟩
  | setNext w _ _ | link w _ _ =>
    cases w with
    | sentinel o b bs _ =>
      exact .inr ⟨o, b, bs, rfl, rfl, h.2, fun n hn => hframe h.1 (Nat.le_of_eq hn)⟩
    | put => exact .inl rfl
  | destroy k a =>
    cases a with
    | result => exact .inl rfl
    | bucket o b bs _ =>
      obtain ⟨h0, hk, hst⟩ := h
      refine .inr ⟨o, b, bs, rfl, rfl, hst, fun n hn => ?_⟩
      have hn : n = o.held + 2 * bs.length + k := hn
      by_cases hb : b = 0
      · have hk0 := h0 hb
        rw [if_pos hb]
        omega
      · exact hframe hb (by omega)
  | disown k a =>
    cases a with
    | result => exact .inl rfl
    | bucket o b bs _ =>
      obtain ⟨hb, hk, hst⟩ := h
      refine .inr ⟨o, b, bs, rfl, rfl, hst, fun n hn => hframe hb ?_⟩
      have hn : n = o.held + 2 * bs.length + k + 1 := hn
      omega
  | _ => exact .inl rfl

/-- Where no call of `find_bucket` is open, two slots are enough. -/
theorem Pc.Framed.two_slots (h : pc.Framed P) (hb : pc.buckets = []) (hn : pc.Holds n)
    (hthrow : pc.result? ≠ some .noHazardPointers) : n ≤ 2 := by
  have hcalm : ∀ r : Res V, some r ≠ some .noHazardPointers → r.threw = false := by
    rintro (b | v | _) hr
    · rfl
    · rfl
    · exact absurd rfl hr
  cases pc with
  | claim w second i =>
    have hsecond := Bool.toNat_le second
    cases w with
    | bucket => cases hb
    | op o =>
      obtain ⟨-, hn⟩ := hn
      omega
    | put =>
      have hn : n = second.toNat := hn
      omega
  | bucketOf o =>
    have hn : n = o.held := hn
    rw [hn]
    cases o <;> simp [Op.held]
  | destroy k a =>
    cases a with
    | bucket => cases hb
    | result r =>
      have hn : n = k := hn
      exact hn ▸ h (hcalm r hthrow)
  | disown k a =>
    cases a with
    | bucket => cases hb
    | result r =>
      have hn : n = k + 1 := hn
      have hk := h (hcalm r hthrow)
      omega
  | find w =>
    cases w with
    | data => exact Nat.le_of_eq hn
    | _ => cases hb
  | setNext w | link w =>
    cases w with
    | put => exact Nat.le_of_eq hn
    | sentinel => cases hb
  | newSentinel | deleteSentinel => cases hb
  | newNode | done | idle | elsewhere =>
    have hn : n = 0 := hn
    omega
  | _ => exact Nat.le_of_eq hn

theorem frames_le (hbs : pc.buckets = b :: bs) :
    pc.frames ≤ bs.length + (if b = 0 then 0 else 1) := by
  rw [Pc.frames, hbs]
  by_cases hb : b = 0
  · rw [List.filter_cons_of_neg (by simpa using hb), if_pos hb]
    exact List.length_filter_le _ _
  · rw [if_neg hb]
    exact List.length_filter_le _ _

/-- **The frames** are no more than the bits of the bucket that was asked for. -/
theorem Pc.Framed.frames (h : pc.Framed P) :
    pc.frames = 0 ∨ ∃ o B, pc.op? = some o ∧ P o B ∧ pc.frames ≤ B.cpop.toNat := by
  rcases h.stack with hnil | ⟨o, b, bs, hbs, ho, hst, -⟩
  · exact .inl (by rw [Pc.frames, hnil]; rfl)
  · obtain ⟨B, hB, hle⟩ := hst.frames_le
    exact .inr ⟨o, B, ho, hB, (frames_le hbs).trans hle⟩

/-- **The slots**: two for the operation and two for each frame. -/
theorem Pc.Framed.slots (h : pc.Framed P) (hn : pc.Holds n)
    (hthrow : pc.result? ≠ some .noHazardPointers) :
    n ≤ 2 ∨ ∃ o B, pc.op? = some o ∧ P o B ∧ n ≤ o.held + 2 * B.cpop.toNat := by
  rcases h.stack with hnil | ⟨o, b, bs, -, ho, hst, hslots⟩
  · exact .inl (h.two_slots hnil hn hthrow)
  · obtain ⟨B, hB, hle⟩ := hst.frames_le
    have hnle := hslots n hn
    exact .inr ⟨o, B, ho, hB, by omega⟩

/-! ## Steps -/

section
variable [LT K] [DecidableLT K] [Inhabited K] {hash : K → Word} {s s' : Shared ι K V} {t : ι}
  {k : Choice K V} {ev : Event (Op K V) (Res V)} {l l' : Local K V}

/-- **A step opens a call of the parent, or closes one.** -/
theorem Move.framed (hm : Move hash t s k ev l s' l') (h : l.pc.Framed P)
    (hP : ∀ o, l.pc = .bucketOf o → P o (LockfreeHashMap.bucketOf s.bucketCount (hash o.key))) :
    l'.pc.Framed P := by
  cases hm with
  | call i o => cases o <;> trivial
  | claim w second i slots =>
    cases second with
    | false => cases w <;> exact h
    | true => cases w <;> exact h
  | claimNext w => cases w <;> exact h
  | claimNone => exact nofun
  | destroyed slots a =>
    cases a with
    | result => trivial
    | bucket o b bs n =>
      cases bs with
      | nil => cases o <;> trivial
      | cons b' bs =>
        obtain ⟨-, -, -, hb', hst⟩ := h
        exact ⟨hb', hst⟩
  | destroy i slots m a =>
    cases a with
    | result r => exact fun hr => Nat.le_of_succ_le_succ (h hr)
    | bucket o b bs n =>
      obtain ⟨h0, hm, hst⟩ := h
      exact ⟨fun hb => absurd (h0 hb) (Nat.succ_ne_zero m), Nat.le_of_succ_le_succ hm, hst⟩
  | disown i slots m a =>
    cases a with
    | result r => exact fun hr => (h hr).trans (Nat.le_succ 1)
    | bucket o b bs n =>
      obtain ⟨hb, hm, hst⟩ := h
      exact ⟨fun h0 => absurd h0 hb, hm.trans (Nat.le_succ 1), hst⟩
  | bucketOf i o => exact framed_findBucket (hP o rfl)
  | find i w f => cases w <;> exact h
  | resume i w p c found pred curr =>
    cases w with
    | sentinel o b bs =>
      obtain ⟨hb, hst⟩ := h
      have hparent : (findBucket o (parent b) (b :: bs)).Framed P := framed_findBucket
        ⟨rfl, hb, hst⟩
      cases curr with
      | none => exact hparent
      | some c =>
        simp only [Search.resume]
        split
        · exact ⟨fun h0 => absurd h0 hb, le_refl 2, hst⟩
        · exact hparent
    | anchor o b bs p n => exact h
    | data n j =>
      cases j with
      | contains key => exact fun _ => le_refl 2
      | put => cases found <;> cases curr <;> trivial
      | _ => cases found <;> cases curr <;> first | trivial | exact fun _ => le_refl 2
  | newSentinel i o b bs p a ha => exact h
  | setNext i w => cases w <;> exact h
  | link i w =>
    cases w with
    | sentinel o b bs n => exact ⟨fun h0 => absurd h0 h.1, le_refl 2, h.2⟩
    | put => trivial
  | linkFail i w => cases w <;> exact h
  | deleteSentinel => exact h
  | deleteNode | growNot | growEnough | growCas | growCasFail | loadValue | fetchSub =>
    exact fun _ => le_refl 2
  | _ => trivial

/-- A thread keeps the operation it was called with. -/
theorem Move.op (hm : Move hash t s k ev l s' l') (ho : l'.pc.op? = some o) :
    ev = .call o ∨ ev = .tau ∧ l.pc.op? = some o := by
  cases hm with
  | call i o' => cases o' <;> exact .inl (congrArg Event.call (Option.some.inj ho))
  | claim w second =>
    cases second with
    | false => exact .inr ⟨rfl, ho⟩
    | true => cases w <;> exact .inr ⟨rfl, ho⟩
  | destroyed slots a =>
    cases a with
    | result => cases ho
    | bucket o' b bs n =>
      cases bs with
      | nil => cases o' <;> exact .inr ⟨rfl, ho⟩
      | cons b' bs => exact .inr ⟨rfl, ho⟩
  | destroy i slots m a => cases a <;> exact .inr ⟨rfl, ho⟩
  | disown i slots m a => cases a <;> exact .inr ⟨rfl, ho⟩
  | bucketOf i o' => exact .inr ⟨rfl, (op_findBucket _ _ _).symm.trans ho⟩
  | resume i w p c found pred curr =>
    refine .inr ⟨rfl, ?_⟩
    cases w with
    | sentinel o' b bs =>
      cases curr with
      | none => exact (op_findBucket _ _ _).symm.trans ho
      | some c =>
        simp only [Search.resume] at ho
        split at ho
        · exact ho
        · exact (op_findBucket _ _ _).symm.trans ho
    | anchor => exact ho
    | data n j =>
      cases j with
      | contains key => cases ho
      | _ => cases found <;> cases curr <;> first | exact ho | cases ho
  | link i w => cases w <;> first | exact .inr ⟨rfl, ho⟩ | cases ho
  | linkFail i w => cases w <;> exact .inr ⟨rfl, ho⟩
  | claimNext | find | newSentinel | newNode | setNext | deleteSentinel | loadNext | markFail =>
    exact .inr ⟨rfl, ho⟩
  | _ => cases ho

/-- The search for a slot begins at the first one. -/
theorem Move.claims (hm : Move hash t s k ev l s' l') {w : Owner K V} {second : Bool} {i : ℕ}
    (hpc : l'.pc = .claim w second i) : i = 0 ∨ ∃ w second j, l.pc = .claim w second j := by
  have hfind : ∀ {o : Op K V} {b : Word} {bs : List Word}, findBucket o b bs = .claim w second i →
      i = 0 := by
    intro o b bs he
    unfold findBucket at he
    split at he
    · cases he
    · cases he
      rfl
  cases hm with
  | call i o => cases o <;> cases hpc <;> exact .inl rfl
  | claim w' second' j slots => exact .inr ⟨w', second', j, rfl⟩
  | claimNext w' second' j slots => exact .inr ⟨w', second', j, rfl⟩
  | destroyed slots a =>
    cases a with
    | result r => cases hpc
    | bucket o b bs n =>
      cases bs with
      | nil => cases o <;> cases hpc
      | cons b' bs => cases hpc
  | bucketOf => exact .inl (hfind hpc)
  | resume i w' p c found pred curr =>
    cases w' with
    | sentinel o b bs =>
      cases curr with
      | none => exact .inl (hfind hpc)
      | some c =>
        simp only [Search.resume] at hpc
        split at hpc
        · cases hpc
        · exact .inl (hfind hpc)
    | anchor => cases hpc
    | data n j =>
      cases j with
      | contains key => cases hpc
      | _ => cases found <;> cases curr <;> cases hpc
  | newNode => cases hpc; exact .inl rfl
  | link i w' => cases w' <;> cases hpc
  | linkFail i w' => cases w' <;> cases hpc
  | _ => cases hpc

end

/-! ## A thread that holds all slots that are taken -/

/-- The slots that are taken are the thread's, and it looks at them one after the other. -/
structure Sole (s : Shared ι K V) (lc : Local K V) : Prop where
  owned : ∀ j, s.mem.hazard.id j ≠ none → j ∈ lc.slots
  passed : ∀ w second i, lc.pc = .claim w second i → ∀ j < i, s.mem.hazard.id j ≠ none

theorem SlotMove.owned {t : ι} {id id' : ℕ → Option ι} {xs xs' : List ℕ}
    (hm : SlotMove t id xs id' xs') (h : ∀ j, id j ≠ none → j ∈ xs) :
    ∀ j, id' j ≠ none → j ∈ xs' := by
  intro j hj
  cases hm with
  | claim i _ hi hp =>
    by_cases hji : j = i
    · subst hji
      exact hp.symm.subset List.mem_cons_self
    · rw [Function.update_of_ne hji] at hj
      exact hp.symm.subset (List.mem_cons_of_mem i (h j hj))
  | release i _ hp =>
    by_cases hji : j = i
    · subst hji
      rw [Function.update_self] at hj
      exact absurd rfl hj
    · rw [Function.update_of_ne hji] at hj
      exact (List.mem_cons.mp (hp.subset (h j hj))).resolve_left hji
  | same => exact h j hj

section
variable [LT K] [DecidableLT K] [Inhabited K] {hash : K → Word} {s s' : Shared ι K V} {t : ι}
  {k : Choice K V} {ev : Event (Op K V) (Res V)} {l l' : Local K V}

omit [LT K] [DecidableLT K] [Inhabited K] in
/-- It has passed no more slots than it holds. -/
theorem Sole.le (h : Sole s l) {w : Owner K V} {second : Bool} {i : ℕ}
    (hpc : l.pc = .claim w second i) : i ≤ l.slots.length := by
  have hsub : List.range i ⊆ l.slots := fun j hj =>
    h.owned j (h.passed w second i hpc j (List.mem_range.mp hj))
  simpa using (List.nodup_range.subperm hsub).length_le

/-- What a step of the thread does to its slots. -/
theorem Sole.step (h : Sole s l) (hs : LockfreeHashMap.step hash t k s l = some (ev, s', l')) :
    Sole s' l' := by
  have hm := step_move hash hs
  refine ⟨hm.slots.owned h.owned, fun w second i hpc j hj => ?_⟩
  rcases hm.claims hpc with rfl | ⟨w', second', i', hl⟩
  · exact absurd hj (Nat.not_lt_zero j)
  · have hpassed := h.passed w' second' i' hl
    obtain ⟨slots, pc⟩ := l
    cases hl
    rcases step_claim hs with ⟨-, -, -, rfl⟩ | ⟨-, hid, rfl, rfl⟩ | ⟨-, -, rfl⟩
    · cases second' with
      | false =>
        cases hpc
        exact absurd hj (Nat.not_lt_zero j)
      | true => cases w' <;> cases hpc
    · cases hpc
      rcases Nat.lt_succ_iff_lt_or_eq.mp hj with hlt | rfl
      · exact hpassed j hlt
      · exact hid
    · cases hpc

/-- **With a slot left, it does not throw.** -/
theorem Sole.calm (h : Sole s l) (hs : LockfreeHashMap.step hash t k s l = some (ev, s', l'))
    (hlen : l.slots.length < maxHazardPointers) (hr : l.pc.result? ≠ some .noHazardPointers) :
    l'.pc.result? ≠ some .noHazardPointers := by
  intro hr'
  rcases (step_move hash hs).throws hr' with hold | ⟨w, second, i, hpc⟩
  · exact hr hold
  · have hle := h.le hpc
    obtain ⟨slots, pc⟩ := l
    cases hpc
    rcases step_claim hs with ⟨-, -, -, rfl⟩ | ⟨-, -, -, rfl⟩ | ⟨hmax, -, -⟩
    · cases second with
      | false => cases hr'
      | true => cases w <;> cases hr'
    · cases hr'
    · exact absurd (hmax.trans hle) (Nat.not_le.mpr hlen)

/-- What a thread has to spend: its open calls are for buckets that satisfy `P`, and it has not
thrown. -/
structure Budget (P : Op K V → Word → Prop) (s : Shared ι K V) (lc : Local K V) : Prop where
  sole : Sole s lc
  holds : lc.pc.Holds lc.slots.length
  framed : lc.pc.Framed P
  calm : lc.pc.result? ≠ some .noHazardPointers

omit [LT K] [DecidableLT K] [Inhabited K] in
theorem held_le (o : Op K V) : o.held ≤ 2 := by
  cases o <;> simp [Op.held]

omit [LT K] [DecidableLT K] [Inhabited K] in
/-- **66 slots are enough** for buckets of at most 32 bits. -/
theorem Budget.slots_le (h : Budget P s l) (hbits : ∀ o b, P o b → b.cpop.toNat ≤ 32) :
    l.slots.length ≤ 66 := by
  rcases h.framed.slots h.holds h.calm with hle | ⟨o, B, -, hB, hle⟩
  · omega
  · have hheld := held_le o
    have hB32 := hbits o B hB
    omega

/-- **No step of the thread throws.** -/
theorem Budget.step (h : Budget P s l) (hbits : ∀ o b, P o b → b.cpop.toNat ≤ 32)
    (hP : ∀ o, l.pc = .bucketOf o → P o (LockfreeHashMap.bucketOf s.bucketCount (hash o.key)))
    (hs : LockfreeHashMap.step hash t k s l = some (ev, s', l')) : Budget P s' l' := by
  have hm := step_move hash hs
  have hlen := h.slots_le hbits
  exact ⟨h.sole.step hs, hm.holds h.holds, hm.framed h.framed hP,
    h.sole.calm hs (Nat.lt_of_le_of_lt hlen (by decide)) h.calm⟩

/-! ## Runs of one thread -/

omit [LT K] [DecidableLT K] [Inhabited K]

/-- Only `t` runs. -/
def only (t : ι) (_ : List (Step ι K V)) (_ : Config ι (Shared ι K V) (Local K V)) (u : ι)
    (_ : Choice K V) : Prop := u = t

/-- Only `t` runs, on a map of at most `2 ^ 32` buckets. -/
def onlySmall (t : ι) (_ : List (Step ι K V)) (c : Config ι (Shared ι K V) (Local K V)) (u : ι)
    (_ : Choice K V) : Prop :=
  u = t ∧ c.shared.bucketCount ≠ 0 ∧ c.shared.bucketCount.toNat ≤ 2 ^ 32

/-- The bucket that an operation asks for. -/
def Asks (hash : K → Word) (count : Word) (o : Op K V) (b : Word) : Prop :=
  b = bucketOf count (hash o.key)

theorem Asks.cpop_le {hash : K → Word} {count : Word} (h0 : count ≠ 0) (h32 : count.toNat ≤ 2 ^ 32)
    {o : Op K V} {b : Word} (h : Asks hash count o b) : b.cpop.toNat ≤ 32 :=
  h ▸ LockfreeHashMap.cpop_le (bucketOf_lt h0 h32)

variable [LT K] [DecidableLT K] [Inhabited K] [DecidableEq ι] {count n₀ : Word} {m : ℕ}
  {h : List (Step ι K V)} {c : Config ι (Shared ι K V) (Local K V)}

/-- A table that is small now has been small before: doubled, a count becomes larger or 0. -/
theorem small_run (hcount : normalizeBucketCount n₀ = some count)
    (hr : (program hash).Run (only t) (initial count m) h c) (h0 : c.shared.bucketCount ≠ 0)
    (h32 : c.shared.bucketCount.toNat ≤ 2 ^ 32) :
    (program hash).Run (onlySmall t) (initial count m) h c := by
  induction hr with
  | nil => exact .nil
  | @cons h c u k ev s l hrun hok hs ih =>
    have hb := step_bucketCount hs
    have hsmall : c.shared.bucketCount ≠ 0 ∧ c.shared.bucketCount.toNat ≤ 2 ^ 32 := by
      rw [Config.set_shared] at h0 h32
      by_cases hd : (c.loc u).pc.doubles c.shared.bucketCount = true
      · rw [if_pos hd] at hb
        have hne : c.shared.bucketCount ≠ 0 := fun hz => h0 (by rw [hb, hz]; rfl)
        obtain ⟨⟨j, hj, hpow⟩, -⟩ | ⟨hz, -⟩ := bucketCount_run hcount hrun.any
        · rcases Nat.eq_or_lt_of_le hj with rfl | hlt
          · -- 2 ^ 63 is doubled to 0
            refine absurd (BitVec.eq_of_toNat_eq ?_) h0
            rw [hb, BitVec.toNat_mul, hpow]
            rfl
          · have hdouble := toNat_double hpow hlt
            rw [← hb, pow_succ] at hdouble
            exact ⟨hne, by omega⟩
        · exact absurd hz hne
      · rw [if_neg hd] at hb
        exact hb ▸ ⟨h0, h32⟩
    exact (ih hsmall.1 hsmall.2).cons ⟨hok, hsmall⟩ hs

/-- What every run of the one thread keeps. -/
structure Thrifty (hash : K → Word) (t : ι) (h : List (Step ι K V))
    (c : Config ι (Shared ι K V) (Local K V)) : Prop where
  budget : Budget (Asks hash c.shared.bucketCount) c.shared (c.loc t)
  told : ∀ o, (c.loc t).pc.op? = some o → running h = some o
  returns : ∀ r ∈ h, r.ev ≠ .ret .noHazardPointers

omit [LT K] [DecidableLT K] [Inhabited K] [DecidableEq ι] in
theorem thrifty_initial : Thrifty hash t ([] : List (Step ι K V)) (initial count m) :=
  ⟨⟨⟨fun _ hj => absurd rfl hj, nofun⟩, rfl, trivial, nofun⟩, nofun, nofun⟩

/-- A step of a run. -/
theorem Thrifty.step (hI : Thrifty hash t h c) (h0 : c.shared.bucketCount ≠ 0)
    (h32 : c.shared.bucketCount.toNat ≤ 2 ^ 32)
    (hs : LockfreeHashMap.step hash t k c.shared (c.loc t) = some (ev, s', l')) :
    Thrifty hash t (⟨t, ev, c, c.set t s' l'⟩ :: h) (c.set t s' l') := by
  have hm := step_move hash hs
  have hbudget := hI.budget.step (fun o b => Asks.cpop_le h0 h32) (fun o _ => rfl) hs
  refine ⟨?_, fun o ho => ?_, fun r hr => ?_⟩
  · rw [Config.set_loc_self, Config.set_shared]
    refine ⟨hbudget.sole, hbudget.holds, ?_, hbudget.calm⟩
    rcases hm.doubles with he | ⟨i, count, hl, -⟩
    · rw [he]
      exact hbudget.framed
    · -- `grow` is called outside of `find_bucket`
      rw [hl] at hm
      cases hm <;> exact fun _ => le_refl 2
  · rw [Config.set_loc_self] at ho
    rcases hm.op ho with rfl | ⟨rfl, hold⟩
    · exact running_call rfl
    · exact (running_tau rfl).trans (hI.told o hold)
  · rcases List.mem_cons.mp hr with rfl | hr
    · rintro rfl
      exact hI.budget.calm (by rw [hm.returned.1]; rfl)
    · exact hI.returns r hr

omit [LT K] [DecidableLT K] [Inhabited K] [DecidableEq ι] in
/-- **The slots and the frames of an operation.** -/
theorem Thrifty.bounds (hI : Thrifty hash t h c) {o : Op K V} (ho : running h = some o) :
    (c.loc t).slots.length ≤
      2 + 2 * (LockfreeHashMap.bucketOf c.shared.bucketCount (hash o.key)).cpop.toNat ∧
    (c.loc t).pc.frames ≤
      (LockfreeHashMap.bucketOf c.shared.bucketCount (hash o.key)).cpop.toNat := by
  have hasked : ∀ {o' B}, (c.loc t).pc.op? = some o' → Asks hash c.shared.bucketCount o' B →
      B = LockfreeHashMap.bucketOf c.shared.bucketCount (hash o.key) := by
    intro o' B ho' hB
    obtain rfl : o' = o := Option.some.inj ((hI.told o' ho').symm.trans ho)
    exact hB
  constructor
  · rcases hI.budget.framed.slots hI.budget.holds hI.budget.calm with hle | ⟨o', B, ho', hB, hle⟩
    · omega
    · have hheld := held_le o'
      rw [← hasked ho' hB]
      omega
  · rcases hI.budget.framed.frames with hzero | ⟨o', B, ho', hB, hle⟩
    · omega
    · rw [← hasked ho' hB]
      exact hle
end

end Bonostl.LockfreeHashMap
