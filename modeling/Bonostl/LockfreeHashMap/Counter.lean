import Bonostl.LockfreeHashMap.Model

/-!
# The element counter of `lockfree_hash_map`

`put` adds to `size_` after it has linked its node, and `erase` subtracts after it has marked one.
So an element can be taken off the counter before it is put on it. As long as every `fetch_sub`
finds more `fetch_add`s than `fetch_sub`s before it, `size_` is their difference, at most the number
of insertions, and `bucket_count` doubles only from less than that (`counter_bounded`). Otherwise
`size_` wraps, and a `put` doubles `bucket_count` for it (`counter_wraps`).
-/

namespace Bonostl.LockfreeHashMap

open Interleaving

variable {ι K V : Type}

namespace Pc

/-- The next step is `size_.fetch_add(1)`. -/
def adds : Pc K V → Bool
  | .fetchAdd => true
  | _ => false

/-- The next step is `size_.fetch_sub(1)`. -/
def subs : Pc K V → Bool
  | .fetchSub => true
  | _ => false

/-- A step from one place to another with which a `put` links its node. -/
def inserts : Pc K V → Pc K V → Bool
  | .link _ _ _, .fetchAdd => true
  | _, _ => false

end Pc

/-- How often `size_` was added to. -/
def additions (h : List (Step ι K V)) : ℕ := h.countP fun r => (r.pre.loc r.tid).pc.adds

/-- How often `size_` was subtracted from. -/
def subtractions (h : List (Step ι K V)) : ℕ := h.countP fun r => (r.pre.loc r.tid).pc.subs

/-- How many nodes `put` has linked. -/
def insertions (h : List (Step ι K V)) : ℕ :=
  h.countP fun r => (r.pre.loc r.tid).pc.inserts (r.cfg.loc r.tid).pc

/-- A `fetch_sub` comes only when there were more `fetch_add`s than `fetch_sub`s. -/
def AddedBefore (h : List (Step ι K V)) (c : Config ι (Shared ι K V) (Local K V)) (t : ι)
    (_ : Choice K V) : Prop :=
  (c.loc t).pc.subs = true → subtractions h < additions h

/-! ## What a step does to the counter -/

/-- Not a place to which only one step leads. -/
structure Pc.Plain (pc : Pc K V) : Prop where
  adds : pc.adds = false
  grows : ∀ count, pc ≠ .growCas count

theorem plain_findBucket (o : Op K V) (b : Word) (bs : List Word) : (findBucket o b bs).Plain := by
  unfold findBucket
  split <;> exact ⟨rfl, nofun⟩

theorem plain_after {slots : List ℕ} (a : After K V) : (a.resume slots).Plain := by
  cases a with
  | bucket o b bs n =>
    cases bs with
    | nil => cases o <;> exact ⟨rfl, nofun⟩
    | cons b bs => exact ⟨rfl, nofun⟩
  | result r => exact ⟨rfl, nofun⟩

theorem plain_owner {slots : List ℕ} (w : Owner K V) : (w.resume slots).Plain := by
  cases w <;> exact ⟨rfl, nofun⟩

theorem plain_job {start pred : ℕ} {found : Bool} {curr : Option ℕ} (j : Job K V) :
    (j.resume start found pred curr).Plain := by
  cases j <;> cases found <;> cases curr <;> exact ⟨rfl, nofun⟩

theorem plain_search {s : Shared ι K V} {found : Bool} {pred : ℕ} {curr : Option ℕ}
    (w : Search K V) : (w.resume s found pred curr).Plain := by
  cases w with
  | sentinel o b bs =>
    unfold Search.resume
    cases curr with
    | none => exact plain_findBucket _ _ _
    | some c =>
      dsimp only
      split
      · exact ⟨rfl, nofun⟩
      · exact plain_findBucket _ _ _
  | anchor o b bs p new => exact ⟨rfl, nofun⟩
  | data start j => exact plain_job j

/-- Where the counter changes, and where an addition and a doubling come from. -/
structure Counts (s : Shared ι K V) (pc : Pc K V) (s' : Shared ι K V) (pc' : Pc K V) : Prop where
  size : s'.size = if pc.adds then s.size + 1 else if pc.subs then s.size - 1 else s.size
  inserts : pc'.adds = pc.inserts pc'
  alone : pc.inserts pc' = true → pc.adds = false
  grows : ∀ count, pc' = .growCas count → pc = .growSize count ∧ ¬ s.size ≤ count
  doubles : s'.bucketCount ≠ s.bucketCount → pc = .growCas s.bucketCount

theorem Counts.of_plain {s s' : Shared ι K V} {pc pc' : Pc K V} (hp : pc'.Plain)
    (hs : s'.size = if pc.adds then s.size + 1 else if pc.subs then s.size - 1 else s.size)
    (hb : s'.bucketCount = s.bucketCount) : Counts s pc s' pc' := by
  have hno : pc.inserts pc' = false := by
    have := hp.adds
    cases pc <;> cases pc' <;> first | rfl | cases this
  refine ⟨hs, hp.adds.trans hno.symm, fun hi => ?_, fun count he => absurd he (hp.grows count),
    fun hne => absurd hb hne⟩
  rw [hno] at hi
  cases hi

section
variable [LT K] [DecidableLT K] [Inhabited K] {hash : K → Word} {t : ι} {s s' : Shared ι K V}
  {k : Choice K V} {ev : Event (Op K V) (Res V)} {l l' : Local K V}

theorem Move.counts (hm : Move hash t s k ev l s' l') : Counts s l.pc s' l'.pc := by
  cases hm with
  | call i o => exact .of_plain (by cases o <;> exact ⟨rfl, nofun⟩) rfl rfl
  | claim w second i slots hi hid =>
    refine .of_plain ?_ rfl rfl
    cases second
    · exact ⟨rfl, nofun⟩
    · exact plain_owner w
  | destroyed slots a => exact .of_plain (plain_after a) rfl rfl
  | bucketOf i o => exact .of_plain (plain_findBucket _ _ _) rfl rfl
  | resume i w p c found pred curr => exact .of_plain (plain_search w) rfl rfl
  | link i w pred curr hn hm =>
    cases w with
    | sentinel o b bs n => exact .of_plain ⟨rfl, nofun⟩ rfl rfl
    | put key value n a => exact ⟨rfl, rfl, fun _ => rfl, nofun, fun hne => absurd rfl hne⟩
  | linkFail i w pred curr => exact .of_plain (by cases w <;> exact ⟨rfl, nofun⟩) rfl rfl
  | growSize i count hn =>
    refine ⟨rfl, rfl, nofun, ?_, fun hne => absurd rfl hne⟩
    rintro count' ⟨⟩
    exact ⟨rfl, hn⟩
  | growCas i count hc => exact ⟨rfl, rfl, nofun, nofun, fun _ => by rw [hc]⟩
  | _ => exact .of_plain ⟨rfl, nofun⟩ rfl rfl
end

/-! ## Runs -/

theorem additions_cons (r : Step ι K V) (h : List (Step ι K V)) :
    additions (r :: h) = additions h + if (r.pre.loc r.tid).pc.adds then 1 else 0 := by
  rw [additions, List.countP_cons]
  rfl

theorem subtractions_cons (r : Step ι K V) (h : List (Step ι K V)) :
    subtractions (r :: h) = subtractions h + if (r.pre.loc r.tid).pc.subs then 1 else 0 := by
  rw [subtractions, List.countP_cons]
  rfl

theorem insertions_cons (r : Step ι K V) (h : List (Step ι K V)) : insertions (r :: h) =
    insertions h + if (r.pre.loc r.tid).pc.inserts (r.cfg.loc r.tid).pc then 1 else 0 := by
  rw [insertions, List.countP_cons]
  rfl

/-- **The invariant**: every insertion is counted or about to be; `size_` is the difference of what
was added and subtracted; and who is about to double the buckets has seen more insertions. -/
structure Counted (h : List (Step ι K V)) (c : Config ι (Shared ι K V) (Local K V)) : Prop where
  added : additions h + threadsIn (fun l => l.pc.adds) c.loc = insertions h
  ordered : subtractions h ≤ additions h
  size : c.shared.size.toNat = (additions h - subtractions h) % 2 ^ 64
  grows : ∀ t count, (c.loc t).pc = .growCas count → count.toNat < insertions h

variable {h : List (Step ι K V)} {c : Config ι (Shared ι K V) (Local K V)} {t : ι}
  {s' : Shared ι K V} {l' : Local K V}

theorem Counted.size_le (hC : Counted h c) : c.shared.size.toNat ≤ insertions h := by
  have h1 := hC.added
  have h2 := hC.size
  have h3 := Nat.mod_le (additions h - subtractions h) (2 ^ 64)
  omega

theorem word_add_one (x : Word) : (x + 1).toNat = (x.toNat + 1) % 2 ^ 64 := by
  rw [BitVec.toNat_add]
  rfl

theorem word_sub_one (x : Word) : (x - 1).toNat = (x.toNat + (2 ^ 64 - 1)) % 2 ^ 64 := by
  rw [BitVec.toNat_sub, Nat.add_comm]
  rfl

variable [DecidableEq ι]

theorem Counted.step (hC : Counted h c) (hf : {t | c.loc t ≠ ⟨[], .idle⟩}.Finite)
    (hok : (c.loc t).pc.subs = true → subtractions h < additions h)
    (hm : Counts c.shared (c.loc t).pc s' l'.pc) (ev : Event (Op K V) (Res V)) :
    Counted (⟨t, ev, c, c.set t s' l'⟩ :: h) (c.set t s' l') := by
  have hcount : threadsIn (fun l => l.pc.adds) (Function.update c.loc t l') +
      (if (c.loc t).pc.adds then 1 else 0) =
        threadsIn (fun l => l.pc.adds) c.loc + (if l'.pc.adds then 1 else 0) :=
    threadsIn_update_of_idle (p := fun l : Local K V => l.pc.adds) rfl hf t l'
  have hadds := additions_cons ⟨t, ev, c, c.set t s' l'⟩ h
  have hsubs := subtractions_cons ⟨t, ev, c, c.set t s' l'⟩ h
  have hins := insertions_cons ⟨t, ev, c, c.set t s' l'⟩ h
  simp only [Config.set_loc_self] at hadds hsubs hins
  have hboth : (c.loc t).pc.adds = true → (c.loc t).pc.subs = false := by
    cases (c.loc t).pc <;> first | (intro _; rfl) | nofun
  obtain ⟨h1, h2, h3, h4⟩ := hC
  rw [hm.inserts] at hcount
  refine ⟨?_, ?_, ?_, fun u count hu => ?_⟩
  · show _ + threadsIn _ (Function.update c.loc t l') = _
    omega
  · rw [hadds, hsubs]
    split_ifs with hs ha ha
    · omega
    · exact hok hs
    · omega
    · omega
  · rw [hadds, hsubs, Config.set_shared, hm.size]
    split_ifs with ha hs hs
    · exact absurd (hboth ha) (by simp [hs])
    · rw [word_add_one, h3]
      omega
    · have := hok hs
      rw [word_sub_one, h3]
      omega
    · exact h3
  · have hmono : insertions h ≤ insertions (⟨t, ev, c, c.set t s' l'⟩ :: h) := by
      rw [hins]
      omega
    refine lt_of_lt_of_le ?_ hmono
    by_cases hut : u = t
    · subst hut
      rw [Config.set_loc_self] at hu
      have hlt := (hm.grows count hu).2
      rw [BitVec.le_def, Nat.not_le] at hlt
      exact lt_of_lt_of_le hlt (Counted.size_le ⟨h1, h2, h3, h4⟩)
    · rw [Config.set_loc_ne c hut] at hu
      exact h4 u count hu

section
variable [LT K] [DecidableLT K] [Inhabited K] {hash : K → Word} {count : Word} {n : ℕ}

theorem counted_run (hr : (program hash).Run AddedBefore (initial count n) h c) : Counted h c := by
  refine hr.induction (I := Counted) ⟨?_, le_rfl, rfl, nofun⟩ fun h c t k ev s l hrun hC hok hs =>
    hC.step hrun.finite_moved hok (step_move hash hs).counts ev
  show 0 + threadsIn (fun l : Local K V => l.pc.adds) (fun _ : ι => ⟨[], .idle⟩) = 0
  simp [threadsIn, Pc.adds]

/-- **The counter does not wrap** while every `fetch_sub` comes after more `fetch_add`s than
`fetch_sub`s: `size_` is at most the number of insertions, and `bucket_count` is doubled only when
it is less than that. The first `fetch_sub` that comes too early wraps. -/
theorem counter_bounded (hr : (program hash).Run AddedBefore (initial count n) h c) :
    c.shared.size.toNat ≤ insertions h ∧
    (∀ h₁ r h₂, h = h₁ ++ r :: h₂ → r.cfg.shared.bucketCount ≠ r.pre.shared.bucketCount →
      r.pre.shared.bucketCount.toNat < insertions h₂) ∧
    ∀ t k ev s l, (program hash).step t k c.shared (c.loc t) = some (ev, s, l) →
      (c.loc t).pc.subs = true → ¬ subtractions h < additions h → s.size.toNat = 2 ^ 64 - 1 := by
  refine ⟨(counted_run hr).size_le, fun h₁ r h₂ he hne => ?_, fun t k ev s l hs hsub hlt => ?_⟩
  · subst he
    obtain ⟨k, s, l, -, hs, hcfg⟩ := hr.step_at
    rw [hcfg, Config.set_shared] at hne
    exact (counted_run hr.before).grows _ _ ((step_move hash hs).counts.doubles hne)
  · obtain ⟨-, h2, h3, -⟩ := counted_run hr
    have hm := (step_move hash hs).counts.size
    have hadds : (c.loc t).pc.adds = false := by
      generalize (c.loc t).pc = pc at hsub
      cases pc <;> first | rfl | cases hsub
    rw [if_neg (by simp [hadds]), if_pos hsub] at hm
    rw [hm, word_sub_one, h3]
    omega
end

/-- Key 2 is put, and then erased by another thread. -/
def putThenErase : List (Bool × Choice ℕ ℕ) :=
  [turn false [.call (.put 2 7)] 2, turn false [.alloc 1] 15,
  turn true [.call (.erase 2)] 26].flatten

theorem counter_bounded_put_erase :
    ∃ (h : List (Step Bool ℕ ℕ)) (c : Config Bool (Shared Bool ℕ ℕ) (Local ℕ ℕ)),
      (program (BitVec.ofNat 64)).Run AddedBefore (initial 2 0) h c ∧ insertions h = 1 ∧
      subtractions h = 1 ∧ c.shared.size.toNat ≤ insertions h ∧
      (∀ h₁ r h₂, h = h₁ ++ r :: h₂ → r.cfg.shared.bucketCount ≠ r.pre.shared.bucketCount →
        r.pre.shared.bucketCount.toNat < insertions h₂) ∧
      ∀ t k ev s l, (program (BitVec.ofNat 64)).step t k c.shared (c.loc t) = some (ev, s, l) →
        (c.loc t).pc.subs = true → ¬ subtractions h < additions h → s.size.toNat = 2 ^ 64 - 1 := by
  have he : (((program (BitVec.ofNat 64)).replay
      (fun c t _ _ => !(c.loc t).pc.subs || decide (c.shared.size.toNat ≠ 0)) (initial 2 0)
      putThenErase).any fun (h, _) => decide (insertions h = 1 ∧ subtractions h = 1)) = true := by
    decide
  obtain ⟨⟨h, c⟩, hc, hp⟩ := (Option.any_eq_true _ _).mp he
  obtain ⟨hr, -⟩ := Program.replay_run AddedBefore (fun h c t k c' hrun hk hsub => by
    -- as long as nothing has wrapped, a counter above 0 has more additions
    have hC := counted_run hrun
    have hsize := hC.size
    rw [hsub] at hk
    have hne : c.shared.size.toNat ≠ 0 := by simpa using hk
    by_contra hlt
    have hz : additions h - subtractions h = 0 := by omega
    rw [hz] at hsize
    exact hne hsize) _ .nil hc
  rw [List.append_nil] at hr
  obtain ⟨h1, h2⟩ := of_decide_eq_true hp
  exact ⟨h, c, hr, h1, h2, counter_bounded hr⟩

/-- Keys 2 and 4 are linked; before their `put`s count them, another thread erases both. Then the
first `put` goes on. -/
def erasedEarly : List (ℕ × Choice ℕ ℕ) :=
  [turn 0 [.call (.put 2 7)] 2, turn 0 [.alloc 1] 8, turn 1 [.call (.put 4 7)] 2,
  turn 1 [.alloc 2] 16,
    turn 2 [.call (.erase 2)] 39, turn 2 [.call (.erase 4)] 35, List.replicate 5 (0, .run)].flatten

/-- **The counter wraps**: after two insertions `size_` is `2 ^ 64 - 1`, and the last step has
doubled a `bucket_count` of 2 for it. -/
theorem counter_wraps :
    ∃ (h : List (Step ℕ ℕ ℕ)) (r : Step ℕ ℕ ℕ) (c : Config ℕ (Shared ℕ ℕ ℕ) (Local ℕ ℕ)),
      (program (BitVec.ofNat 64)).Run Program.anyStep (initial 2 0) (r :: h) c ∧
      ¬ c.shared.size.toNat ≤ insertions (r :: h) ∧ c.shared.size.toNat = 2 ^ 64 - 1 ∧
      r.pre.shared.bucketCount = 2 ∧ r.cfg.shared.bucketCount = 4 ∧
      ¬ r.pre.shared.bucketCount.toNat < insertions h := by
  obtain ⟨h, c, hr, hq⟩ := Program.replay_reaches (program (BitVec.ofNat 64)) (initial 2 0)
    erasedEarly
    (fun h c => match h with
      | [] => false
      | r :: h => decide (¬ c.shared.size.toNat ≤ insertions (r :: h) ∧
          c.shared.size.toNat = 2 ^ 64 - 1 ∧ r.pre.shared.bucketCount = 2 ∧
          r.cfg.shared.bucketCount = 4 ∧ ¬ r.pre.shared.bucketCount.toNat < insertions h))
    (by set_option maxRecDepth 10000 in decide)
  cases h with
  | nil => cases hq
  | cons r h => exact ⟨h, r, c, hr, of_decide_eq_true hq⟩

end Bonostl.LockfreeHashMap
