import Bonostl.Interleaving.Sequential
import Bonostl.LockfreeHashMap.Steps

/-!
# What one thread sees of `lockfree_hash_map`

Runs in which one thread calls the operations of a map. Its calls return what `apply` returns for a
finite map, whatever the hash function and the number of buckets (`results_match`); a call that
finds no free slot throws, and is the only exception. Addresses may be reused, and the thread may
reclaim nodes of other containers between its calls.
-/

namespace Bonostl.LockfreeHashMap

open Interleaving HazardPtr HarrisMichael Chain FiniteMap

variable {ι K V : Type}

/-- The call has thrown. -/
def Res.threw : Res V → Bool
  | .noHazardPointers => true
  | _ => false

/-- The calls that have returned without an exception, newest first. -/
def effective (h : List (Step ι K V)) : List (Op K V × Res V) :=
  (completed h).filter fun x => !x.2.threw

/-- The finite map that these calls make. -/
def contents [LT K] [DecidableLT K] (h : List (Step ι K V)) : List (K × V) :=
  after apply [] ((effective h).map Prod.fst)

/-- Only `t` runs, with fewer than `2 ^ 62` keys in the map. -/
def alone [LT K] [DecidableLT K] (t : ι) (h : List (Step ι K V))
    (_ : Config ι (Shared ι K V) (Local K V)) (u : ι) (_ : Choice K V) : Prop :=
  u = t ∧ (contents h).length < 2 ^ 62

/-- Whenever `t` looks for a slot, one is free. -/
def Enough (t : ι) (h : List (Step ι K V)) : Prop :=
  ∀ r ∈ h, ∀ w second i, (r.pre.loc t).pc = .claim w second i →
    ∃ j < maxHazardPointers, r.pre.shared.mem.hazard.id j = none

/-- The sentinel that a step from one place to another makes, with its bucket. -/
def Pc.creates : Pc K V → Pc K V → Option (ℕ × Word)
  | .newSentinel _ b _ _, .find (.anchor _ _ _ _ a) _ => some (a, b)
  | _, _ => none

/-- The sentinel that a step makes. -/
def createdSentinel (r : Step ι K V) : Option (ℕ × Word) :=
  (r.pre.loc r.tid).pc.creates (r.cfg.loc r.tid).pc

variable [LT K] [DecidableLT K] [Inhabited K] {hash : K → Word} {s s' : Shared ι K V} {l : List ℕ}
  {m : List (K × V)} {o : Option (Op K V)} {lc lc' : Local K V} {t : ι} {k : Choice K V}
  {ev : Event (Op K V) (Res V)}

/-! ## Calls and returns -/

/-- An operation is called. -/
theorem Sequential.call {i : List ℕ} (h : Sequential hash s ⟨i, .idle⟩ l m o) (o' : Op K V) :
    Sequential hash s ⟨i, begin o'⟩ l m (some o') := by
  have hun := (h.used nofun).unmarked
  have hm := h.serves.before rfl
  cases o' <;>
  · refine ⟨h.listed, fun a ha hma => absurd hma (by simp [hun a ha]), h.intact, nofun, trivial,
      ⟨fun _ e => e, nofun, fun _ => hm, nofun⟩, ?_, h.counted, h.bounded, h.power⟩
    intro w second j e x hx
    cases e <;> cases hx

/-- An operation returns. -/
theorem Sequential.ret {i : List ℕ} {r : Res V} (h : Sequential hash s ⟨i, .done r⟩ l m o) :
    ∃ o' m', o = some o' ∧ Outcome o' r m m' ∧ Sequential hash s ⟨i, .idle⟩ l m' none := by
  obtain ⟨o', m', ho, hout, hp⟩ := h.serves.decided r rfl
  have hun := (h.used nofun).unmarked
  exact ⟨o', m', ho, hout, h.listed, fun a ha hma => absurd hma (by simp [hun a ha]),
    h.intact, nofun,
    trivial, ⟨nofun, fun _ => rfl, fun _ => hp, nofun⟩, nofun, h.counted, h.bounded, h.power⟩

/-! ## What else a step does -/

/-- Only `grow` changes the number of buckets. -/
theorem Move.doubles (hm : Move hash t s k ev lc s' lc') :
    s'.bucketCount = s.bucketCount ∨
      ∃ i count, lc = ⟨i, .growCas count⟩ ∧ s'.bucketCount = count * 2 := by
  cases hm with
  | growCas i count hc => exact .inr ⟨i, count, rfl, rfl⟩
  | _ => exact .inl rfl

/-- The number of buckets does not become smaller. -/
theorem Sequential.bucketCount_le (hmlen : m.length < 2 ^ 62) (h : Sequential hash s lc l m o)
    (hm : Move hash t s k ev lc s' lc') : s.bucketCount.toNat ≤ s'.bucketCount.toNat := by
  rcases hm.doubles with he | ⟨i, count, rfl, he⟩
  · rw [he]
  · rw [he]
    exact (h.grow_cas hmlen).2.2

omit [LT K] [DecidableLT K] [Inhabited K] in
theorem newNode_ne_sentinel {key : K} {n a : ℕ} {b : Word} :
    some (n, dataOf hash key) ≠ some (a, sentinelOf K b) := by
  intro e
  have hd := congrArg Data.key (Prod.mk.inj (Option.some.inj e)).2
  cases hd

/-- A sentinel that was made stays the thread's own until it is linked in. -/
theorem Move.keeps_sentinel (hm : Move hash t s k ev lc s' lc') {a : ℕ} {b : Word}
    (hn : lc.pc.newNode? hash = some (a, sentinelOf K b)) :
    lc'.pc.newNode? hash = some (a, sentinelOf K b) ∨ lc.pc.links lc'.pc = some a ∨
      ∃ o b bs n, lc'.pc = .deleteSentinel o b bs n := by
  cases hm with
  | claim w | claimNext w | claimNone w =>
    cases w <;> first | cases hn | exact absurd hn newNode_ne_sentinel
  | find i w f m' f' ch hf =>
    cases w with
    | sentinel => cases hn
    | anchor => exact .inl hn
    | data n j => cases j <;> first | cases hn | exact absurd hn newNode_ne_sentinel
  | resume i w p c found pred curr =>
    cases w with
    | sentinel => cases hn
    | anchor => exact .inl hn
    | data n j => cases j <;> first | cases hn | exact absurd hn newNode_ne_sentinel
  | setNext i w pred curr =>
    cases w with
    | sentinel => exact .inl hn
    | put => exact absurd hn newNode_ne_sentinel
  | link i w pred curr =>
    cases w with
    | sentinel o b' bs n =>
      obtain ⟨rfl, -⟩ := Prod.mk.inj (Option.some.inj hn)
      exact .inr (.inl rfl)
    | put => exact absurd hn newNode_ne_sentinel
  | linkFail i w pred curr =>
    cases w with
    | sentinel o b' bs n => exact .inr (.inr ⟨o, b', bs, n, rfl⟩)
    | put => exact absurd hn newNode_ne_sentinel
  | storeValue => exact absurd hn newNode_ne_sentinel
  | _ => cases hn

omit [LT K] [DecidableLT K] [Inhabited K] in
theorem findBucket_result (o : Op K V) (b : Word) (bs : List Word) :
    (findBucket o b bs).result? = none := by
  unfold findBucket
  split <;> rfl

/-- An exception comes from the construction of an `hp_owner`. -/
theorem Move.throws (hm : Move hash t s k ev lc s' lc')
    (hr : lc'.pc.result? = some .noHazardPointers) :
    lc.pc.result? = some .noHazardPointers ∨ ∃ w second j, lc.pc = .claim w second j := by
  cases hm with
  | claim w second j => exact .inr ⟨w, second, j, rfl⟩
  | claimNone w second j => exact .inr ⟨w, second, j, rfl⟩
  | call i o => cases o <;> cases hr
  | destroyed slots a =>
    cases a with
    | result r => exact .inl hr
    | bucket o b bs n =>
      cases bs with
      | nil => cases o <;> cases hr
      | cons => cases hr
  | destroy i slots n a => cases a <;> exact .inl hr
  | disown i slots n a => cases a <;> exact .inl hr
  | bucketOf i o => rw [findBucket_result] at hr; cases hr
  | resume i w p c found pred curr =>
    exfalso
    cases w with
    | sentinel o b bs =>
      simp only [Search.resume] at hr
      split at hr
      · split at hr
        · cases hr
        · rw [findBucket_result] at hr; cases hr
      · rw [findBucket_result] at hr; cases hr
    | anchor => cases hr
    | data n j => cases j <;> cases found <;> cases curr <;> cases hr
  | link i w pred curr => cases w <;> cases hr
  | linkFail i w pred curr => cases w <;> cases hr
  | _ => cases hr

omit [Inhabited K] in
/-- No operation of a finite map throws. -/
theorem apply_threw (o : Op K V) (m : List (K × V)) : (apply o m).2.threw = false := by
  cases o with
  | put k v => rw [apply]; split <;> rfl
  | _ => rfl

/-! ## Runs -/

/-- What a run of the one thread keeps. -/
structure Alone [DecidableEq ι] (hash : K → Word) (t : ι) (h : List (Step ι K V))
    (c : Config ι (Shared ι K V) (Local K V)) (l : List ℕ) : Prop where
  seq : Sequential hash c.shared (c.loc t) l (contents h) (running h)
  results : (effective h).map Prod.snd = answers apply [] ((effective h).map Prod.fst)
  created : ∀ r ∈ h, ∀ a b, createdSentinel r = some (a, b) →
    (a ∈ l ∧ c.shared.mem.data a = sentinelOf K b) ∨
      (c.loc t).pc.newNode? hash = some (a, sentinelOf K b)
  grown : ∀ r ∈ h, r.pre.shared.bucketCount.toNat ≤ r.cfg.shared.bucketCount.toNat
  calm : Enough t h →
    (c.loc t).pc.result? ≠ some .noHazardPointers ∧ effective h = completed h

variable [DecidableEq ι] {h : List (Step ι K V)} {c : Config ι (Shared ι K V) (Local K V)}
  {count : Word} {n : ℕ}

omit [DecidableEq ι] [Inhabited K] in
theorem contents_of_tau (r : Step ι K V) (hr : ∀ res, r.ev ≠ .ret res) :
    effective (r :: h) = effective h ∧ contents (r :: h) = contents h := by
  have he : effective (r :: h) = effective h := by rw [effective, completed_of_ne hr]; rfl
  exact ⟨he, by rw [contents, he]; rfl⟩

omit [LT K] [DecidableLT K] [Inhabited K] [DecidableEq ι] in
theorem Enough.tail {r : Step ι K V} (he : Enough t (r :: h)) : Enough t h :=
  fun r' hr' => he r' (List.mem_cons_of_mem r hr')

theorem alone_initial {b : Word} (hcount : normalizeBucketCount b = some count)
    (hb : b.toNat ≤ 2 ^ 63) :
    Alone hash t [] (initial (ι := ι) (K := K) (V := V) count n) [head] := by
  obtain ⟨k, r, hk, hr, hpow⟩ := normalizeBucketCount_eq hb
  obtain rfl : count = r := Option.some.inj (hcount.symm.trans hr)
  refine ⟨⟨⟨⟨rfl, rfl⟩, fun a _ => .inl ⟨0, rfl⟩, List.pairwise_singleton _ _, nofun, rfl⟩,
    nofun, ?_,
    nofun, trivial, ⟨nofun, fun _ => rfl, fun _ => .refl _, nofun⟩, nofun, rfl, ?_, k, hk, hpow⟩,
    rfl, nofun, nofun, fun _ => ⟨nofun, rfl⟩⟩
  · refine ⟨List.nodup_singleton head, fun a ha => ?_⟩
    obtain rfl := List.mem_singleton.mp ha
    rfl
  · exact Nat.zero_le _

/-- A sentinel that was made is in the list, or about to be linked in. -/
theorem created_step [IsStrictWeakOrder K (· < ·)] (hI : Alone hash t h c l)
    (hm : Move hash t c.shared k ev (c.loc t) s' lc') {l' : List ℕ}
    (hat : lc'.pc.At hash s' l' o)
    (hsent : ∀ a ∈ l, (c.shared.mem.data a).key = none →
      a ∈ l' ∧ s'.mem.data a = c.shared.mem.data a)
    (hlink : ∀ n, (c.loc t).pc.links lc'.pc = some n → n ∈ l')
    (hdata : ∀ n, (c.loc t).pc.links lc'.pc = some n → s'.mem.data n = c.shared.mem.data n)
    {a : ℕ} {b : Word}
    (ha : (a ∈ l ∧ c.shared.mem.data a = sentinelOf K b) ∨
      (c.loc t).pc.newNode? hash = some (a, sentinelOf K b)) :
    (a ∈ l' ∧ s'.mem.data a = sentinelOf K b) ∨
      lc'.pc.newNode? hash = some (a, sentinelOf K b) := by
  rcases ha with ⟨hal, had⟩ | hnew
  · obtain ⟨hal', had'⟩ := hsent a hal (by rw [had]; rfl)
    exact .inl ⟨hal', had'.trans had⟩
  · rcases hm.keeps_sentinel hnew with hkeep | hl | ⟨o', b', bs, n, hdel⟩
    · exact .inr hkeep
    · exact .inl ⟨hlink a hl, (hdata a hl).trans (hI.seq.mine a _ hnew).data⟩
    · rw [hdel] at hat
      exact hat.elim

omit [DecidableEq ι] in
/-- A step that links a node in leaves the data of the nodes alone. -/
theorem Move.links_data (hm : Move hash t s k ev lc s' lc') {a : ℕ}
    (hl : lc.pc.links lc'.pc = some a) :
    s'.mem.data a = s.mem.data a := by
  cases hm with
  | link i w pred curr => rfl
  | linkFail => rfl
  | _ => cases hl

omit [DecidableEq ι] in
theorem Move.creates (hm : Move hash t s k ev lc s' lc') {a : ℕ} {b : Word}
    (hc : lc.pc.creates lc'.pc = some (a, b)) :
    lc'.pc.newNode? hash = some (a, sentinelOf K b) := by
  cases hm with
  | newSentinel i o b' bs p a' ha =>
    obtain ⟨rfl, rfl⟩ := Prod.mk.inj (Option.some.inj hc)
    rfl
  | _ => cases hc

section
variable [IsStrictWeakOrder K (· < ·)] (hh : Agrees hash) (hI : Alone hash t h c l)
  (hlen : (contents h).length < 2 ^ 62)
include hh hI hlen

theorem alone_tau (hs : step hash t k c.shared (c.loc t) = some (.tau, s', lc')) :
    ∃ l', Alone hash t (⟨t, .tau, c, c.set t s' lc'⟩ :: h) (c.set t s' lc') l' := by
  have hm := step_move hash hs
  obtain ⟨l', hseq, hsent, hlink⟩ := hI.seq.step hh hlen hs
  obtain ⟨heff, hcont⟩ := contents_of_tau (h := h) ⟨t, .tau, c, c.set t s' lc'⟩ nofun
  have hdata := fun a => hm.links_data (a := a)
  refine ⟨l', ⟨?_, by rw [heff]; exact hI.results, fun r hr a b hc => ?_, fun r hr => ?_,
    fun he => ?_⟩⟩
  · rw [hcont, running_tau rfl, Config.set_loc_self]
    exact hseq
  · rw [Config.set_loc_self]
    rcases List.mem_cons.mp hr with rfl | hr
    · refine .inr (hm.creates ?_)
      rwa [createdSentinel, Config.set_loc_self] at hc
    · exact created_step hI hm hseq.place hsent hlink hdata (hI.created r hr a b hc)
  · rcases List.mem_cons.mp hr with rfl | hr
    · exact hI.seq.bucketCount_le hlen hm
    · exact hI.grown r hr
  · obtain ⟨hcalm, heq⟩ := hI.calm he.tail
    refine ⟨fun hr => ?_, by rw [heff, heq]; rfl⟩
    rw [Config.set_loc_self] at hr
    rcases hm.throws hr with hold | ⟨w, second, j, hpc⟩
    · exact hcalm hold
    · -- all slots up to `j` are taken
      obtain ⟨x, hx, hfree⟩ := he _ List.mem_cons_self w second j hpc
      have hlc : c.loc t = ⟨(c.loc t).slots, .claim w second j⟩ := by rw [← hpc]
      rw [hlc] at hs
      rcases step_claim hs with ⟨-, -, -, rfl⟩ | ⟨-, -, -, rfl⟩ | ⟨hj, -, -⟩
      · cases second <;> cases w <;> cases hr
      · cases hr
      · exact hI.seq.passed w second j hpc x (Nat.lt_of_lt_of_le hx hj) hfree

omit [IsStrictWeakOrder K (· < ·)] hh hlen in
theorem alone_call {o' : Op K V}
    (hs : step hash t k c.shared (c.loc t) = some (.call o', s', lc')) :
    Alone hash t (⟨t, .call o', c, c.set t s' lc'⟩ :: h) (c.set t s' lc') l := by
  have hm := step_move hash hs
  obtain ⟨heff, hcont⟩ := contents_of_tau (h := h) ⟨t, .call o', c, c.set t s' lc'⟩ nofun
  have hseq := hI.seq
  have hcreated := hI.created
  generalize hl : c.loc t = lc at hm
  rw [hl] at hseq hcreated
  cases hm with
  | call i o' =>
    refine ⟨?_, by rw [heff]; exact hI.results, fun r hr a b hc => ?_, fun r hr => ?_, fun he => ?_⟩
    · rw [hcont, running_call rfl, Config.set_loc_self]
      exact hseq.call o'
    · rcases List.mem_cons.mp hr with rfl | hr
      · rw [createdSentinel, hl] at hc
        cases hc
      · rcases hcreated r hr a b hc with hin | hnew
        · exact .inl hin
        · cases hnew
    · rcases List.mem_cons.mp hr with rfl | hr
      · exact Nat.le_refl _
      · exact hI.grown r hr
    · refine ⟨fun hr => ?_, by rw [heff, (hI.calm he.tail).2]; rfl⟩
      rw [Config.set_loc_self] at hr
      cases o' <;> cases hr

omit [IsStrictWeakOrder K (· < ·)] hh hlen in
theorem alone_ret {r : Res V} (hs : step hash t k c.shared (c.loc t) = some (.ret r, s', lc')) :
    Alone hash t (⟨t, .ret r, c, c.set t s' lc'⟩ :: h) (c.set t s' lc') l := by
  have hm := step_move hash hs
  have hseq := hI.seq
  have hcreated := hI.created
  have hcalm := hI.calm
  generalize hl : c.loc t = lc at hm
  rw [hl] at hseq hcreated hcalm
  cases hm with
  | ret i r =>
    obtain ⟨o', m', ho, hout, hseq'⟩ := hseq.ret
    have hcomp : completed (⟨t, .ret r, c, c.set t c.shared ⟨i, .idle⟩⟩ :: h) =
        (o', r) :: completed h := completed_ret rfl ho
    refine ⟨?_, ?_, fun x hx a b hc => ?_, fun x hx => ?_, fun he => ⟨?_, ?_⟩⟩
    · rw [running_ret rfl, Config.set_loc_self]
      have hcont : contents (⟨t, .ret r, c, c.set t c.shared ⟨i, .idle⟩⟩ :: h) = m' := by
        rw [contents, effective, hcomp]
        rcases hout with ⟨rfl, rfl⟩ | ha
        · rfl
        · cases hr : r.threw with
          | false =>
            rw [List.filter_cons_of_pos (by simp [hr]), List.map_cons, Interleaving.after]
            exact congrArg Prod.fst ha
          | true =>
            have hno := apply_threw o' (contents h)
            rw [ha, hr] at hno
            cases hno
      rw [hcont]
      exact hseq'
    · rw [effective, hcomp]
      cases hr : r.threw with
      | true => rw [List.filter_cons_of_neg (by simp [hr])]; exact hI.results
      | false =>
        rw [List.filter_cons_of_pos (by simp [hr]), List.map_cons, List.map_cons, answers]
        refine congrArg₂ List.cons ?_ hI.results
        rcases hout with ⟨rfl, -⟩ | ha
        · cases hr
        · exact (congrArg Prod.snd ha).symm
    · rcases List.mem_cons.mp hx with rfl | hx
      · rw [createdSentinel, hl] at hc
        cases hc
      · rcases hcreated x hx a b hc with hin | hnew
        · exact .inl hin
        · cases hnew
    · rcases List.mem_cons.mp hx with rfl | hx
      · exact Nat.le_refl _
      · exact hI.grown x hx
    · rw [Config.set_loc_self]
      nofun
    · obtain ⟨hres, heq⟩ := hcalm he.tail
      have hr : r.threw = false := by
        cases r with
        | noHazardPointers => exact absurd rfl hres
        | _ => rfl
      rw [effective, hcomp, List.filter_cons_of_pos (by simp [hr])]
      exact congrArg _ heq
end

end Bonostl.LockfreeHashMap
