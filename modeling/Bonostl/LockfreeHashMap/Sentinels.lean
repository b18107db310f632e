import Bonostl.LockfreeHashMap.Invariant

/-!
# The sentinels of `lockfree_hash_map`

`find_bucket` looks for the sentinel of its bucket, creates the sentinel of the parent if need be,
and then searches again, from the parent's sentinel, for the place to link a new one. It does not
look at what this second search has stopped at. Another thread may have linked the sentinel of the
bucket in between; the search then stops at that sentinel, and the new one is linked right before it
(`twin_sentinels`).

`NoTwin` are the steps of the runs in which this does not happen. In them there is one sentinel for
each split key, and all calls of `find_bucket` for a bucket return the same node
(`sentinels_unique`).
-/

namespace Bonostl.LockfreeHashMap

open Interleaving HazardPtr HarrisMichael Chain

variable {ι K V : Type}

/-- The second search of `find_bucket` has not stopped at a sentinel of the bucket. -/
def Missing (c : Config ι (Shared ι K V) (Local K V)) (t : ι) : Prop :=
  ∀ i o b bs n pred curr, c.loc t = ⟨i, .setNext (.sentinel o b bs n) pred curr⟩ →
    isSentinel c.shared (bucketSplitKey b) curr = false

/-- The steps of the runs in which sentinels are unique: `new` returns no address twice, there are
at most `2 ^ 32` buckets, and no thread links a sentinel before one of the same bucket. -/
def NoTwin (_ : List (Step ι K V)) (c : Config ι (Shared ι K V) (Local K V)) (t : ι)
    (k : Choice K V) : Prop :=
  NoReuse c k ∧ c.shared.bucketCount.toNat ≤ 2 ^ 32 ∧ Missing c t

/-- The buckets whose sentinels a thread is looking for. -/
def Pc.buckets : Pc K V → List Word
  | .claim (.bucket _ b bs) _ _ | .find (.sentinel _ b bs) _ | .find (.anchor _ b bs _ _) _
  | .newSentinel _ b bs _ | .setNext (.sentinel _ b bs _) _ _ | .link (.sentinel _ b bs _) _ _
  | .deleteSentinel _ b bs _ | .destroy _ (.bucket _ b bs _) | .disown _ (.bucket _ b bs _) =>
    b :: bs
  | _ => []

/-- The step `r` leaves `find_bucket` of bucket `b` with the sentinel `n`. -/
def Returned (r : Step ι K V) (b : Word) (n : ℕ) : Prop :=
  ∃ i o bs, r.pre.loc r.tid = ⟨i, .destroy 0 (.bucket o b bs n)⟩

section
variable (h : List (Step ι K V)) (c : Config ι (Shared ι K V) (Local K V))

/-- Beside `Inv`: the buckets fit in 32 bits, sentinels are unique, a thread about to link one has
no other before it, and `find_bucket` has returned sentinels. -/
structure Twinless : Prop where
  count : c.shared.bucketCount ≠ 0
  small : ∀ t, ∀ b ∈ (c.loc t).pc.buckets, b.toNat < 2 ^ 32
  unique : ∀ a a', Inserted h a → Inserted h a' → (c.shared.mem.data a).key = none →
    c.shared.mem.data a = c.shared.mem.data a' → a = a'
  missing : ∀ t i o b bs n pred curr, c.loc t = ⟨i, .link (.sentinel o b bs n) pred curr⟩ →
    isSentinel c.shared (bucketSplitKey b) curr = false
  returned : ∀ r ∈ h, ∀ b n, Returned r b n → Sentinel (Inserted h) c.shared n (bucketSplitKey b)
end

section
variable [LT K] [DecidableLT K] [Inhabited K] [DecidableEq ι] {hash : K → Word}
  {h : List (Step ι K V)} {c : Config ι (Shared ι K V) (Local K V)} {t : ι} {k : Choice K V}
  {ev : Event (Op K V) (Res V)} {s s' : Shared ι K V} {l l' : Local K V}

omit [LT K] [DecidableLT K] [Inhabited K] [DecidableEq ι] in
theorem small_findBucket {o : Op K V} {b x : Word} {bs : List Word}
    (hx : x ∈ (findBucket o b bs).buckets) : x = b ∨ x ∈ bs := by
  unfold findBucket at hx
  split at hx
  · rename_i hb
    subst hb
    exact List.mem_cons.mp hx
  · exact List.mem_cons.mp hx

omit [DecidableEq ι] in
/-- A step asks for the buckets it asked for before, the parent of one, or the one of its key. -/
theorem Move.buckets (hm : Move hash t s k ev l s' l') {x : Word} (hx : x ∈ l'.pc.buckets) :
    x ∈ l.pc.buckets ∨ (∃ b ∈ l.pc.buckets, x = parent b) ∨
      ∃ key, x = LockfreeHashMap.bucketOf s.bucketCount (hash key) := by
  cases hm with
  | call i o => cases o <;> simp [begin, Pc.buckets] at hx
  | claim w second i slots hi hid =>
    cases second with
    | false => cases w <;> exact .inl hx
    | true => cases w <;> exact .inl hx
  | claimNext w second i slots => cases w <;> exact .inl hx
  | destroyed slots a =>
    cases a with
    | result r => cases hx
    | bucket o b bs n =>
      cases bs with
      | nil => cases o <;> cases hx
      | cons b' bs => exact .inl (List.mem_cons_of_mem _ hx)
  | destroy i slots m a => cases a <;> exact .inl hx
  | disown i slots m a => cases a <;> exact .inl hx
  | bucketOf i o =>
    rcases small_findBucket hx with rfl | hx
    · exact .inr (.inr ⟨_, rfl⟩)
    · cases hx
  | find i w f m f' ch hm => cases w <;> exact .inl hx
  | resume i w p c found pred curr =>
    cases w with
    | sentinel o b bs =>
      have hparent : x ∈ (findBucket o (parent b) (b :: bs)).buckets →
          x ∈ b :: bs ∨ ∃ b' ∈ b :: bs, x = parent b' := fun hx =>
        (small_findBucket hx).symm.imp id fun he => ⟨b, by simp, he⟩
      have hgoal : x ∈ b :: bs ∨ ∃ b' ∈ b :: bs, x = parent b' := by
        cases curr with
        | none => exact hparent hx
        | some c =>
          simp only [Search.resume] at hx
          split at hx
          · exact .inl hx
          · exact hparent hx
      exact hgoal.imp id .inl
    | anchor o b bs p n => exact .inl hx
    | data n j =>
      cases j with
      | contains key => cases hx
      | _ => cases found <;> cases curr <;> cases hx
  | newSentinel i o b bs p a ha => exact .inl hx
  | setNext i w pred curr => cases w <;> exact .inl hx
  | link i w pred curr hn hm =>
    cases w with
    | sentinel o b bs n => exact .inl hx
    | put key value n a => cases hx
  | linkFail i w pred curr =>
    cases w with
    | sentinel o b bs n => exact .inl hx
    | put key value n a => cases hx
  | deleteSentinel i o b bs n => exact .inl hx
  | _ => cases hx

omit [DecidableEq ι] in
theorem Move.bucketCount (hm : Move hash t s k ev l s' l') :
    s'.bucketCount = s.bucketCount ∨ s'.bucketCount = s.bucketCount * 2 := by
  cases hm with
  | growCas i count hc => exact .inr (by rw [hc])
  | _ => exact .inl rfl

omit [LT K] [DecidableLT K] [Inhabited K] [DecidableEq ι] in
theorem isSentinel_congr {w : Word} {curr : Option ℕ}
    (hd : ∀ a, curr = some a → s'.mem.data a = s.mem.data a) :
    isSentinel s' w curr = isSentinel s w curr := by
  cases curr with
  | none => rfl
  | some a => simp only [isSentinel, hd a rfl]

omit [DecidableEq ι] in
/-- A sentinel is linked in: there is none of its bucket yet. -/
theorem unique_link [IsTrans K (· < ·)] {linked : ℕ → Prop} {f : ι → Local K V}
    {D : ι → Set (Memory ι (Data K))} (hI : Inv hash linked s f D) {i : List ℕ} {o : Op K V}
    {b : Word} {bs : List Word} {n pred : ℕ} {curr : Option ℕ}
    (hft : f t = ⟨i, .link (.sentinel o b bs n) pred curr⟩) (hn : s.mem.next pred = curr)
    (hm : s.mem.marked pred = false) (hb : b.toNat < 2 ^ 32)
    (hmiss : isSentinel s (bucketSplitKey b) curr = false) {a : ℕ} (ha : linked a) :
    s.mem.data a ≠ sentinelOf K b := by
  intro hd
  have hk := hI.knows t
  rw [hft] at hk
  obtain ⟨-, ⟨hpl, hpB⟩, hcurr⟩ := hk
  have hpred : (s.mem.data pred).splitKey < bucketSplitKey b := by
    rcases hpB with hlt | ⟨hge, -⟩
    · exact hlt
    · omega
  have hsk : (s.mem.data a).splitKey = bucketSplitKey b := by rw [hd]; rfl
  -- what is below a node with this split key has no larger one
  have hle : ∀ {d e : Data K}, below d e → d.splitKey ≤ e.splitKey := by
    rintro d e (hlt | ⟨he, -⟩)
    · exact BitVec.le_of_lt hlt
    · rw [he]; exact BitVec.le_refl _
  obtain ⟨l, hc⟩ := hI.chain
  have hal := hc.unmarked a ha (hI.sentinels a ha (by rw [hd]; rfl))
  rcases hc.gap hpl hm hal with rfl | hlt | ⟨x, hx, hax⟩
  · rw [hsk] at hpred
    exact BitVec.lt_irrefl _ hpred
  · have := hle hlt
    rw [hsk] at this
    exact BitVec.not_lt.mpr this hpred
  · obtain ⟨hxl, hbx⟩ := hcurr x (hn.symm.trans hx)
    rw [hn] at hx
    subst hx
    have hxk : (s.mem.data x).splitKey = bucketSplitKey b := by
      refine BitVec.le_antisymm ?_ (hle hbx)
      rcases hax with rfl | hlt
      · rw [hsk]; exact BitVec.le_refl _
      · rw [← hsk]; exact hle hlt
    have hxn : (s.mem.data x).key = none := by
      rcases hI.proper x hxl with ⟨b', hb'⟩ | ⟨key, hkey⟩
      · rw [hb']; rfl
      · rw [hkey] at hxk
        exact absurd hxk.symm (bucketSplitKey_ne_dataSplitKey _ _)
    simp [isSentinel, hxk, hxn] at hmiss

omit [DecidableEq ι] in
/-- A step that links something in is the compare-exchange of `put` or `find_bucket`. -/
theorem Move.linking (hm : Move hash t s k ev l s' l') {x : ℕ} (hx : l.pc.links l'.pc = some x) :
    ∃ i w pred curr, l = ⟨i, .link w pred curr⟩ ∧ x = w.node ∧ s.mem.next pred = curr ∧
      s.mem.marked pred = false := by
  cases hm with
  | link i w pred curr hn hm =>
    refine ⟨i, w, pred, curr, rfl, ?_, hn, hm⟩
    cases w <;> exact (Option.some.inj hx).symm
  | linkFail i w pred curr => cases w <;> cases hx
  | _ => cases hx

omit [DecidableEq ι] in
theorem Move.toLink (hm : Move hash t s k ev l s' l') {i : List ℕ} {w : Link K V} {pred : ℕ}
    {curr : Option ℕ} (hl : l' = ⟨i, .link w pred curr⟩) : l = ⟨i, .setNext w pred curr⟩ ∧
      s' = { s with mem := s.mem.setNext w.node curr } := by
  cases hm with
  | setNext i w pred curr => cases hl; exact ⟨rfl, rfl⟩
  | call i o => cases o <;> cases hl
  | claim w second i slots hi hid => cases second <;> cases w <;> cases hl
  | destroyed slots a =>
    cases a with
    | result r => cases hl
    | bucket o b bs n =>
      cases bs with
      | nil => cases o <;> cases hl
      | cons b' bs => cases hl
  | bucketOf i o =>
    unfold findBucket at hl
    split at hl <;> cases hl
  | resume i w p c found pred curr =>
    cases w with
    | sentinel o b bs =>
      simp only [Search.resume, findBucket] at hl
      split at hl
      · split at hl
        · cases hl
        · split at hl <;> cases hl
      · split at hl <;> cases hl
    | anchor o b bs p n => cases hl
    | data n j =>
      cases j with
      | contains key => cases hl
      | _ => cases found <;> cases curr <;> cases hl
  | link i w pred curr hn hm => cases w <;> cases hl
  | linkFail i w pred curr => cases w <;> cases hl
  | _ => cases hl

theorem Twinless.advance [IsTrans K (· < ·)] (hT : Twinless h c)
    (hI : Inv hash (Inserted h) c.shared c.loc (instants h))
    (hmv : Move hash t c.shared k ev (c.loc t) s' l') (hok : NoTwin h c t k)
    (hg : Grows (Inserted h) c.shared.mem s'.mem) :
    Twinless (⟨t, ev, c, c.set t s' l'⟩ :: h) (c.set t s' l') := by
  obtain ⟨-, hcount, hmissing⟩ := hok
  have hmono : ∀ a, Inserted h a → Inserted (⟨t, ev, c, c.set t s' l'⟩ :: h) a :=
    fun a ha => (inserted_cons a).mpr (.inr ha)
  refine ⟨?_, ?_, ?_, ?_, ?_⟩
  · show s'.bucketCount ≠ 0
    rcases hmv.bucketCount with he | he
    · rw [he]; exact hT.count
    · rw [he]
      intro hz
      have hz' := congrArg BitVec.toNat hz
      have hne : c.shared.bucketCount.toNat ≠ 0 := by simpa [BitVec.toNat_eq] using hT.count
      rw [BitVec.toNat_mul] at hz'
      simp at hz'
      omega
  · refine Config.forall_set (p := fun _ (l : Local K V) => ∀ b ∈ l.pc.buckets, b.toNat < 2 ^ 32)
      (fun b hb => ?_) fun u _ => hT.small u
    rcases hmv.buckets hb with hb | ⟨b', hb', rfl⟩ | ⟨key, rfl⟩
    · exact hT.small t b hb
    · exact (parent_toNat_le b').trans_lt (hT.small t b' hb')
    · exact bucketOf_lt hT.count hcount
  · have hold : ∀ a, Inserted h a → s'.mem.data a = c.shared.mem.data a := hg.data
    -- a sentinel that is linked in now is the only one of its bucket
    have hnew : ∀ x a, (c.loc t).pc.links l'.pc = some x → Inserted h a →
        (s'.mem.data x).key = none → s'.mem.data x ≠ s'.mem.data a := by
      intro x a hx ha hkey heq
      obtain ⟨i, w, pred, curr, hl, rfl, hn, hm⟩ := hmv.linking hx
      have hp := hI.mine t w.node (w.data hash) (by rw [hl]; rfl)
      have hdata : s'.mem.data w.node = w.data hash := by
        rw [hl] at hmv hx
        cases hmv with
        | link => exact hp.data
        | linkFail => cases w <;> cases hx
      rw [hdata] at hkey heq
      rw [hold a ha] at heq
      cases w with
      | put key value n a => cases hkey
      | sentinel o b bs n =>
        refine unique_link hI hl hn hm ?_ (hT.missing t _ _ _ _ _ _ _ hl) ha heq.symm
        exact hT.small t b (by rw [hl]; simp [Pc.buckets])
    intro a a' ha ha' hkey heq
    rw [Config.set_shared] at hkey heq
    rw [inserted_cons] at ha ha'
    rcases ha with ha | ha
    · rcases ha' with ha' | ha'
      · exact Option.some.inj (ha.symm.trans ha')
      · exact absurd heq (hnew a a' ha ha' hkey)
    · rcases ha' with ha' | ha'
      · exact absurd heq.symm (hnew a' a ha' ha (by rw [← heq]; exact hkey))
      · refine hT.unique a a' ha ha' ?_ ?_
        · rw [← hold a ha]; exact hkey
        · rw [← hold a ha, ← hold a' ha']; exact heq
  · intro u i o b bs n pred curr hu
    by_cases hut : u = t
    · subst hut
      rw [Config.set_loc_self] at hu
      obtain ⟨hl, rfl⟩ := hmv.toLink hu
      exact hmissing i o b bs n pred curr hl
    · rw [Config.set_loc_ne c hut] at hu
      have hk := hI.knows u
      rw [hu] at hk
      rw [Config.set_shared, isSentinel_congr fun a ha => hg.data a (hk.2.2 a ha).1]
      exact hT.missing u i o b bs n pred curr hu
  · intro r hr b n hret
    rcases List.mem_cons.mp hr with rfl | hr
    · obtain ⟨i, o, bs, hl⟩ := hret
      have hk := hI.knows t
      rw [hl] at hk
      exact hk.2.mono hg hmono
    · exact (hT.returned r hr b n hret).mono hg hmono

theorem twinless_run [IsTrans K (· < ·)] {count : Word} {m : ℕ} (hcount : count ≠ 0)
    (hr : (program hash).Run NoTwin (initial count m) h c) :
    Inv hash (Inserted h) c.shared c.loc (instants h) ∧ Twinless h c := by
  refine hr.induction (I := fun h c => Inv hash (Inserted h) c.shared c.loc (instants h) ∧
    Twinless h c)
    ⟨inv_initial, hcount, nofun, ?_, nofun, nofun⟩ ?_
  · intro a a' ha ha' _ _
    simp only [Inserted, List.not_mem_nil, false_and, exists_false, or_false] at ha ha'
    rw [ha, ha']
  · rintro h c t k ev s l - ⟨hI, hT⟩ hok hs
    have hmv := step_move hash hs
    obtain ⟨hI', hg⟩ := inv_step hI hmv hok.1
    exact ⟨hI', hT.advance hI hmv hok hg⟩

/-! ## The result -/

/-- **Sentinels are unique**, in the runs in which no thread links a sentinel before one of the same
bucket: in every state the list from `head_` has at most one sentinel for each split key, any two
calls of `find_bucket` for one bucket have returned the same node, and that node is on the list, as
the sentinel of the bucket. -/
theorem sentinels_unique [IsTrans K (· < ·)] {initialBuckets count : Word} {m : ℕ}
    (hcount : normalizeBucketCount initialBuckets = some count)
    (hr : (program hash).Run NoTwin (initial count m) h c) :
    (∀ a ∈ nodes c.shared.mem.next (some head), ∀ a' ∈ nodes c.shared.mem.next (some head),
      (c.shared.mem.data a).key = none → (c.shared.mem.data a').key = none →
      (c.shared.mem.data a).splitKey = (c.shared.mem.data a').splitKey → a = a') ∧
    (∀ r ∈ h, ∀ r' ∈ h, ∀ b n n', Returned r b n → Returned r' b n' → n = n') ∧
    ∀ r ∈ h, ∀ b n, Returned r b n → n ∈ nodes c.shared.mem.next (some head) ∧
      c.shared.mem.data n = ⟨bucketSplitKey b, none⟩ := by
  obtain ⟨hI, hT⟩ := twinless_run (normalizeBucketCount_ne_zero hcount) hr
  obtain ⟨l, hc⟩ := hI.chain
  refine ⟨fun a ha a' ha' hk hk' hs => ?_, fun r hr r' hr' b n n' hn hn' => ?_,
    fun r hr b n hn => ?_⟩
  · rw [nodes_eq hc.chain] at ha ha'
    refine hT.unique a a' (hc.mem a ha) (hc.mem a' ha') hk ?_
    cases hd : c.shared.mem.data a
    cases hd' : c.shared.mem.data a'
    simp_all
  · obtain ⟨hl, hd⟩ := hT.returned r hr b n hn
    obtain ⟨hl', hd'⟩ := hT.returned r' hr' b n' hn'
    exact hT.unique n n' hl hl' (by rw [hd]) (hd.trans hd'.symm)
  · obtain ⟨hl, hd⟩ := hT.returned r hr b n hn
    rw [nodes_eq hc.chain]
    exact ⟨hc.unmarked n hl (hI.sentinels n hl (by rw [hd])), hd⟩
end

/-- `Returned`, as a test. -/
def returns (h : List (Step Bool ℕ ℕ)) (t : Bool) (b : Word) (n : ℕ) : Bool :=
  h.any fun r => r.tid == t &&
    match (r.pre.loc r.tid).pc with
    | .destroy 0 (.bucket _ b' _ n') => b' == b && n' == n
    | _ => false

theorem returned_of_returns {h : List (Step Bool ℕ ℕ)} {t : Bool} {b : Word} {n : ℕ}
    (hr : returns h t b n = true) : ∃ r ∈ h, r.tid = t ∧ Returned r b n := by
  obtain ⟨r, hr, hb⟩ := List.any_eq_true.mp hr
  simp only [Bool.and_eq_true, beq_iff_eq] at hb
  obtain ⟨ht, hb⟩ := hb
  refine ⟨r, hr, ht, ?_⟩
  split at hb
  · rename_i o b' bs n' hpc
    simp only [Bool.and_eq_true, beq_iff_eq] at hb
    obtain ⟨rfl, rfl⟩ := hb
    exact ⟨(r.pre.loc r.tid).slots, o, bs, by rw [← hpc]⟩
  · cases hb

/-- The hash of the concrete runs. -/
def hashNat (key : ℕ) : Word := BitVec.ofNat 64 key

/-- `NoTwin`, as a test. -/
def noTwin (c : Config Bool (Shared Bool ℕ ℕ) (Local ℕ ℕ)) (t : Bool) (k : Choice ℕ ℕ) : Bool :=
  (match k with
    | .alloc a => !c.shared.mem.used a
    | _ => true) &&
  decide (c.shared.bucketCount.toNat ≤ 2 ^ 32) &&
  match (c.loc t).pc with
  | .setNext (.sentinel _ b _ _) _ curr => !isSentinel c.shared (bucketSplitKey b) curr
  | _ => true

theorem noTwin_sound {h : List (Step Bool ℕ ℕ)} {c : Config Bool (Shared Bool ℕ ℕ) (Local ℕ ℕ)}
    {t : Bool} {k : Choice ℕ ℕ} (hk : noTwin c t k = true) : NoTwin h c t k := by
  simp only [noTwin, Bool.and_eq_true, decide_eq_true_eq] at hk
  obtain ⟨⟨hnew, hcount⟩, hmiss⟩ := hk
  refine ⟨?_, hcount, ?_⟩
  · rintro a rfl
    simpa using hnew
  · intro i o b bs n pred curr hl
    simpa [hl] using hmiss

/-- Two lookups of a key in bucket 1 of 2, one after the other; the first one creates the
sentinel. -/
def inTurnSchedule : List (Bool × Choice ℕ ℕ) :=
  [turn false [.call (.contains 1)] 15, turn false [.alloc 1] 19,
    turn true [.call (.contains 1)] 23].flatten

theorem sentinels_unique_in_turn :
    ∃ (h : List (Step Bool ℕ ℕ)) (c : _),
      (program hashNat).Run NoTwin (initial 2 0) h c ∧
      (∃ r ∈ h, r.tid = false ∧ Returned r 1 1) ∧ (∃ r ∈ h, r.tid = true ∧ Returned r 1 1) ∧
      ∀ r ∈ h, ∀ n, Returned r 1 n → n = 1 := by
  have he : (((program hashNat).replay (fun c t k _ => noTwin c t k) (initial 2 0)
      inTurnSchedule).any fun (h, _) => returns h false 1 1 && returns h true 1 1) = true := by
    decide
  obtain ⟨⟨h, c⟩, hc, hp⟩ := (Option.any_eq_true _ _).mp he
  obtain ⟨hr, -⟩ := Program.replay_run NoTwin (fun h c t k c' _ hk => noTwin_sound hk) _ .nil hc
  rw [List.append_nil] at hr
  rw [Bool.and_eq_true] at hp
  obtain ⟨r, hmem, ht, hret⟩ := returned_of_returns hp.1
  refine ⟨h, c, hr, ⟨r, hmem, ht, hret⟩, returned_of_returns hp.2, fun r' hr' n hn => ?_⟩
  have hcount : normalizeBucketCount 2 = some 2 := by decide
  exact (sentinels_unique hcount hr).2.1 r' hr' r hmem 1 n 1 hn hret

/-- Two lookups of a key in bucket 1 of 2. The second thread creates the sentinel (node 2) while the
first one is about to allocate its own (node 1). -/
def twinSchedule : List (Bool × Choice ℕ ℕ) :=
  [turn false [.call (.contains 1)] 15, turn true [.call (.contains 1)] 31, turn true [.alloc 2] 10,
    turn false [.alloc 1] 14].flatten

/-- **Twin sentinels**: both threads have linked a sentinel for bucket 1, and each has returned its
own. -/
theorem twin_sentinels :
    ∃ (h : List (Step Bool ℕ ℕ)) (c : _),
      (program hashNat).Run (fun _ c _ k => NoReuse c k ∧ c.shared.bucketCount.toNat ≤ 2 ^ 32)
        (initial 2 0) h c ∧
      Linked c.shared.mem.next (some head) [head, 1, 2] ∧
      c.shared.mem.data 1 = ⟨bucketSplitKey 1, none⟩ ∧
      c.shared.mem.data 2 = ⟨bucketSplitKey 1, none⟩ ∧
      (∃ r ∈ h, Returned r 1 1) ∧ ∃ r ∈ h, Returned r 1 2 := by
  have he : (((program hashNat).replay (fun c _ k _ => (match k with
      | .alloc a => !c.shared.mem.used a
      | _ => true) && decide (c.shared.bucketCount.toNat ≤ 2 ^ 32)) (initial 2 0)
      twinSchedule).any fun (h, c) => decide (c.shared.mem.next head = some 1 ∧
        c.shared.mem.next 1 = some 2 ∧ c.shared.mem.next 2 = none ∧
        c.shared.mem.data 1 = ⟨bucketSplitKey 1, none⟩ ∧
        c.shared.mem.data 2 = ⟨bucketSplitKey 1, none⟩) &&
        returns h false 1 1 && returns h true 1 2) = true := by
    decide
  obtain ⟨⟨h, c⟩, hc, hp⟩ := (Option.any_eq_true _ _).mp he
  obtain ⟨hr, -⟩ := Program.replay_run
    (fun _ c _ k => NoReuse c k ∧ c.shared.bucketCount.toNat ≤ 2 ^ 32)
    (fun h c t k c' _ hk => by
      simp only [Bool.and_eq_true, decide_eq_true_eq] at hk
      refine ⟨?_, hk.2⟩
      rintro a rfl
      simpa using hk.1) _ .nil hc
  rw [List.append_nil] at hr
  simp only [Bool.and_eq_true, decide_eq_true_eq] at hp
  obtain ⟨⟨⟨h0, h1, h2, hd1, hd2⟩, hret1⟩, hret2⟩ := hp
  obtain ⟨r, hm, -, hr1⟩ := returned_of_returns hret1
  obtain ⟨r', hm', -, hr2⟩ := returned_of_returns hret2
  exact ⟨h, c, hr, ⟨rfl, h0, h1, h2⟩, hd1, hd2, ⟨r, hm, hr1⟩, ⟨r', hm', hr2⟩⟩

end Bonostl.LockfreeHashMap
