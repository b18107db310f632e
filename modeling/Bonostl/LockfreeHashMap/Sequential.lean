import Bonostl.HarrisMichael.Undisturbed
import Bonostl.HazardPtr.Reclaim
import Bonostl.LockfreeHashMap.Contents
import Bonostl.LockfreeHashMap.Counter

/-!
# `lockfree_hash_map` used by one thread

The state of a map while the one thread that uses it is at any place of an operation. No address is
special here: `new` may return one that was deleted before.

`Sequential` is the invariant. The nodes `l` are the list, and none of them is marked except for the
one that `erase` is about to unlink. The list, the node a `put` or a `find_bucket` has made, and the
retired nodes are different nodes (`Intact`). `m` is the finite map before the operation `o`;
`Pc.Serves` says that the list has the entries of `m` until the operation is decided, and from then
on those that `apply` gives, with its result. `Sequential.step` is a step of the thread.
-/

namespace Bonostl.LockfreeHashMap

open Interleaving HazardPtr HarrisMichael Chain FiniteMap

variable {ι K V : Type}

/-! ## What a place says of the operation -/

/-- The operation a job belongs to. -/
def Job.operation : Job K V → Op K V
  | .put key value _ => .put key value
  | .get key => .get key
  | .erase key => .erase key
  | .contains key => .contains key

/-- The operation a search belongs to. -/
def Search.operation : Search K V → Op K V
  | .sentinel o _ _ | .anchor o _ _ _ _ => o
  | .data _ j => j.operation

/-- The operation a link belongs to. -/
def Link.operation : Link K V → Op K V
  | .sentinel o _ _ _ => o
  | .put key value _ _ => .put key value

/-- The operation the `hp_owner`s belong to. -/
def Owner.operation : Owner K V → Op K V
  | .op o | .bucket o _ _ => o
  | .put key value _ _ => .put key value

namespace Pc

/-- The operation, at places that know it. -/
def op? : Pc K V → Option (Op K V)
  | .claim w _ _ => some w.operation
  | .bucketOf o | .newSentinel o _ _ _ | .deleteSentinel o _ _ _
  | .destroy _ (.bucket o _ _ _) | .disown _ (.bucket o _ _ _) => some o
  | .find w _ => some w.operation
  | .newNode key value _ | .storeValue key value _ _ => some (.put key value)
  | .setNext w _ _ | .link w _ _ => some w.operation
  | .loadValue key _ => some (.get key)
  | .loadNext key _ _ | .mark key _ _ _ => some (.erase key)
  | _ => none

/-- The result, once the operation is decided. -/
def result? : Pc K V → Option (Res V)
  | .deleteNode _ => some (.bool false)
  | .fetchAdd | .compareCount _ | .growCount | .growSize _ | .growCas _ => some (.bool true)
  | .reclaim _ | .fetchSub => some (.bool true)
  | .destroy _ (.result r) | .disown _ (.result r) | .done r => some r
  | _ => none

/-- No operation is running. -/
def quiet : Pc K V → Bool
  | .idle | .elsewhere _ => true
  | _ => false

/-- The thread's place in `reclaim_later`. -/
def reclaiming : Pc K V → Reclaim
  | .reclaim r | .elsewhere r => r
  | _ => .finished

/-- The node a thread has made that is not in the list. -/
def owned (hash : K → Word) : Pc K V → List ℕ
  | .deleteNode n => [n]
  | pc => ((pc.newNode? hash).map Prod.fst).toList

/-- A node that is in the list and not yet on the counter. -/
def uncounted : Pc K V → ℕ
  | .fetchAdd => 1
  | _ => 0

/-- A node that is off the list and still on the counter. -/
def overcounted : Pc K V → ℕ
  | .reclaim _ | .fetchSub => 1
  | _ => 0

/-- `size_` and `bucket_count`: only inside `put`, after it has counted its node, may there be one
element more than buckets. -/
def Bounded (s : Shared ι K V) : Pc K V → Prop
  | .compareCount n => n = s.size ∧ s.size.toNat ≤ s.bucketCount.toNat + 1
  | .growCount => s.size.toNat = s.bucketCount.toNat + 1
  | .growSize count | .growCas count =>
    count = s.bucketCount ∧ s.size.toNat = s.bucketCount.toNat + 1
  | _ => s.size.toNat ≤ s.bucketCount.toNat

end Pc

variable [LT K]

/-- What a call with result `r` makes of the finite map `m`; one that throws changes nothing. -/
def Outcome [DecidableLT K] (o : Op K V) (r : Res V) (m m' : List (K × V)) : Prop :=
  (r = .noHazardPointers ∧ m' = m) ∨ apply o m = (m', r)

/-- The entries of the list, before and after the operation is decided. -/
structure Pc.Serves [DecidableLT K] (s : Shared ι K V) (l : List ℕ) (m : List (K × V))
    (o : Option (Op K V)) (pc : Pc K V) : Prop where
  told : ∀ o', pc.op? = some o' → o = some o'
  quiet : pc.quiet = true → o = none
  before : pc.result? = none → (entries s l).Perm m
  decided : ∀ r, pc.result? = some r →
    ∃ o' m', o = some o' ∧ Outcome o' r m m' ∧ (entries s l).Perm m'

section
variable (hash : K → Word) (s : Shared ι K V) (l : List ℕ) (o : Option (Op K V))

/-- What the thread knows at each place. -/
def Pc.At [DecidableLT K] [Inhabited K] : Pc K V → Prop
  | .claim w _ _ => w.Ready hash (· ∈ l) s
  | .find w f => w.Ready hash (· ∈ l) s ∧
      f.place.Tracks s.mem l (w.query hash) (w.Before hash)
  | .newSentinel o b bs p =>
    Finding hash o b bs ∧ Sentinel (· ∈ l) s p (bucketSplitKey (parent b))
  | .newNode key _ n => Leads hash (· ∈ l) s n key
  | .setNext w pred curr | .link w pred curr =>
    w.Ready hash (· ∈ l) s ∧ Stands (· ∈ l) s.mem (w.Before hash) pred ∧ s.mem.next pred = curr ∧
      ∀ c, curr = some c → below (w.data hash) (s.mem.data c)
  | .deleteSentinel _ _ _ _ => False
  | .storeValue key _ _ c | .loadValue key c => Matches hash (· ∈ l) s key c
  | .loadNext key pred c => Matches hash (· ∈ l) s key c ∧ pred ∈ l ∧ s.mem.next pred = some c
  | .mark key pred c next => Matches hash (· ∈ l) s key c ∧ pred ∈ l ∧ s.mem.next pred = some c ∧
      s.mem.next c = next
  | .unlink pred c next => pred ∈ l ∧ s.mem.next pred = some c ∧ s.mem.next c = next ∧
      ∃ key, o = some (.erase key) ∧ Matches hash (· ∈ l) s key c
  | .destroy _ a | .disown _ a => a.Ready hash (· ∈ l) s
  | _ => True
end

/-- **The invariant** of a map that one thread uses, with the thread's local state. -/
structure Sequential [DecidableLT K] [Inhabited K] (hash : K → Word) (s : Shared ι K V)
    (lc : Local K V) (l : List ℕ) (m : List (K × V)) (o : Option (Op K V)) : Prop where
  listed : Listed hash s l
  unmarked : ∀ a ∈ l, s.mem.marked a = true → ∃ pred next, lc.pc = .unlink pred a next
  intact : Intact s.mem
    (l ++ (lc.pc.owned hash ++ retired s.mem.hazard lc.pc.reclaiming))
  mine : ∀ n d, lc.pc.newNode? hash = some (n, d) → Private (· ∈ l) s lc.pc n d
  place : lc.pc.At hash s l o
  serves : lc.pc.Serves s l m o
  passed : ∀ w second i, lc.pc = .claim w second i → ∀ j < i, s.mem.hazard.id j ≠ none
  counted : s.size.toNat + lc.pc.uncounted = (entries s l).length + lc.pc.overcounted
  bounded : lc.pc.Bounded s
  power : ∃ k ≤ 63, s.bucketCount.toNat = 2 ^ k

section
variable [DecidableLT K] {s s' : Shared ι K V} {l l' : List ℕ} {m : List (K × V)}
  {o : Option (Op K V)} {pc pc' : Pc K V}

/-- The operation goes on, or is as decided as before. -/
theorem Pc.Serves.same (h : pc.Serves s l m o) (hr : pc'.result? = pc.result?)
    (ho : ∀ o', pc'.op? = some o' → pc.op? = some o') (hq : pc'.quiet = pc.quiet)
    (he : entries s' l' = entries s l) :
    pc'.Serves s' l' m o := by
  refine ⟨fun o' e => h.told o' (ho o' e), fun e => h.quiet (hq.symm.trans e), fun e => ?_,
    fun r e => ?_⟩
  · rw [he]; exact h.before (hr.symm.trans e)
  · rw [he]; exact h.decided r (hr.symm.trans e)

variable [Inhabited K] {hash : K → Word} {lc lc' : Local K V}

/-- The operation is decided. -/
theorem Sequential.decide [IsStrictWeakOrder K (· < ·)] (hh : Agrees hash)
    (h : Sequential hash s lc l m o) {o' : Op K V} {E : List (K × V)} {r : Res V}
    (hb : lc.pc.result? = none) (ho : o = some o') (ha : apply o' (entries s l) = (E, r))
    (he : (entries s' l').Perm E) (hr : pc'.result? = some r) (hop : pc'.op? = none)
    (hq : pc'.quiet = false) : pc'.Serves s' l' m o := by
  obtain ⟨hp, hres⟩ := apply_perm (h.listed.distinct hh) (h.serves.before hb) o'
  rw [ha] at hp hres
  refine ⟨fun o'' e => ?_, fun e => ?_, fun e => ?_, fun r' e => ?_⟩
  · rw [hop] at e; cases e
  · rw [hq] at e; cases e
  · rw [hr] at e; cases e
  · obtain rfl : r = r' := Option.some.inj (hr.symm.trans e)
    exact ⟨o', (apply o' m).1, ho, .inr (Prod.ext rfl hres.symm), he.trans hp⟩

omit [Inhabited K] in
theorem apply_length_le (o : Op K V) (m : List (K × V)) : (apply o m).1.length ≤ m.length + 1 := by
  cases o with
  | put k v =>
    rw [apply]
    split
    · simp [FiniteMap.assign]
    · simp
  | get k => simp [apply]
  | erase k => exact (List.length_filter_le _ _).trans (Nat.le_succ _)
  | contains k => simp [apply]

/-- The list is not longer than the map before the operation, but for one entry. -/
theorem Sequential.length_le (h : Sequential hash s lc l m o) :
    (entries s l).length ≤ m.length + 1 := by
  cases hr : lc.pc.result? with
  | none => exact (h.serves.before hr).length_eq.le.trans (Nat.le_succ _)
  | some r =>
    obtain ⟨o', m', -, hout, hp⟩ := h.serves.decided r hr
    rw [hp.length_eq]
    rcases hout with ⟨-, rfl⟩ | ha
    · exact Nat.le_succ _
    · rw [← show (apply o' m).1 = m' by rw [ha]]
      exact apply_length_le o' m

theorem Sequential.used (h : Sequential hash s lc l m o)
    (hu : ∀ p a n, lc.pc ≠ .unlink p a n) : Still s.mem l := by
  refine ⟨fun a ha b hb => h.listed.closed ha hb, fun a ha => ?_⟩
  by_contra hm
  obtain ⟨pred, next, he⟩ := h.unmarked a ha (by simpa using hm)
  exact hu pred a next he

/-! ## Where a step leads -/

/-- After a step: the invariant, with all sentinels and what the step has linked in. -/
def Next (hash : K → Word) (s : Shared ι K V) (pc : Pc K V) (l : List ℕ) (m : List (K × V))
    (o : Option (Op K V)) (s' : Shared ι K V) (lc' : Local K V) : Prop :=
  ∃ l', Sequential hash s' lc' l' m o ∧
    (∀ a ∈ l, (s.mem.data a).key = none → a ∈ l' ∧ s'.mem.data a = s.mem.data a) ∧
    ∀ n, pc.links lc'.pc = some n → n ∈ l'

theorem Next.same (h : Sequential hash s' lc' l m o) (hl : pc.links lc'.pc = none)
    (hd : ∀ a ∈ l, s'.mem.data a = s.mem.data a) : Next hash s pc l m o s' lc' := by
  refine ⟨l, h, fun a ha _ => ⟨ha, hd a ha⟩, fun n hn => ?_⟩
  rw [hl] at hn
  cases hn

theorem Pc.At.setHazard {z : HazardPtr.Shared ι} (h : pc.At hash s l o) :
    pc.At hash (s.setHazard z) l o := by
  have hg : Grows (· ∈ l) s.mem (s.setHazard z).mem :=
    ⟨fun _ _ => rfl, fun _ _ h => ⟨h, rfl⟩⟩
  have hl : ∀ a, a ∈ l → a ∈ l := fun _ ha => ha
  cases pc with
  | claim w second i => exact Owner.Ready.mono hg hl h
  | find w f => exact ⟨h.1.mono hg hl, h.2.congr rfl rfl⟩
  | setNext w pred curr | link w pred curr => exact ⟨h.1.mono hg hl, h.2⟩
  | destroy m a | disown m a => exact After.Ready.mono hg hl h
  | _ => exact h

omit [LT K] [DecidableLT K] [Inhabited K] in
theorem Pc.Bounded.setHazard {z : HazardPtr.Shared ι} (h : pc.Bounded s) :
    pc.Bounded (s.setHazard z) := by
  cases pc <;> exact h

/-- A step that changes nothing but slots. -/
theorem Sequential.slots {i i' : List ℕ} (h : Sequential hash s ⟨i, pc⟩ l m o)
    (z : HazardPtr.Shared ι) (hpl : pc'.At hash s l o) (hsv : pc'.Serves s l m o)
    (hb : pc'.Bounded s)
    (hc : Carries hash pc pc') (hw : (pc'.owned hash).Sublist (pc.owned hash))
    (hr : retired z pc'.reclaiming = retired s.mem.hazard pc.reclaiming)
    (hps : ∀ w second i, pc' = .claim w second i → ∀ j < i, z.id j ≠ none)
    (hu : ∀ p a n, pc ≠ .unlink p a n) (hn : pc'.uncounted = pc.uncounted)
    (hn' : pc'.overcounted = pc.overcounted) (hl : pc.links pc' = none) :
    Next hash s pc l m o (s.setHazard z) ⟨i', pc'⟩ := by
  have hun := (h.used hu).unmarked
  refine .same ⟨h.listed.frame (fun _ _ => rfl) (fun _ _ => rfl) fun _ _ => rfl, fun a ha hm => ?_,
    h.intact.sublist ?_, fun n d hnew => ?_, hpl.setHazard,
    hsv.same rfl (fun _ e => e) rfl rfl, hps, ?_, hb.setHazard, h.power⟩ hl fun _ _ => rfl
  · exact absurd hm (by rw [show (s.setHazard z).mem.marked a = false from hun a ha]; simp)
  · show List.Sublist (l ++ (pc'.owned hash ++ retired z pc'.reclaiming)) _
    rw [hr]
    exact (List.Sublist.refl l).append (hw.append (.refl _))
  · obtain ⟨hold, hval, hlink⟩ := hc n d hnew
    have hp := h.mine n d hold
    exact ⟨hp.unlinked, hp.used, hp.data, hp.unmarked, fun v hv => hp.value v (hval v hv),
      fun w pred curr e => absurd e (hlink w pred curr)⟩
  · show s.size.toNat + pc'.uncounted = (entries s l).length + pc'.overcounted
    rw [hn, hn']
    exact h.counted

/-- A step that changes nothing but the thread's place. -/
theorem Sequential.goto {i i' : List ℕ} (h : Sequential hash s ⟨i, pc⟩ l m o)
    (hpl : pc'.At hash s l o) (hsv : pc'.Serves s l m o) (hb : pc'.Bounded s)
    (hc : Carries hash pc pc') (hw : (pc'.owned hash).Sublist (pc.owned hash))
    (hr : retired s.mem.hazard pc'.reclaiming = retired s.mem.hazard pc.reclaiming)
    (hps : ∀ w second i, pc' = .claim w second i → ∀ j < i, s.mem.hazard.id j ≠ none)
    (hu : ∀ p a n, pc ≠ .unlink p a n) (hn : pc'.uncounted = pc.uncounted)
    (hn' : pc'.overcounted = pc.overcounted) (hl : pc.links pc' = none) :
    Next hash s pc l m o s ⟨i', pc'⟩ :=
  h.slots s.mem.hazard hpl hsv hb hc hw hr hps hu hn hn' hl

/-- `find_bucket` is called. -/
theorem Sequential.at_findBucket (h : Sequential hash s lc l m o) {o' : Op K V} {b : Word}
    {bs : List Word} (hc : Calls hash o' b bs) : (findBucket o' b bs).At hash s l o := by
  unfold findBucket
  split
  · rename_i hb
    subst hb
    exact ⟨hc, h.listed.head_mem, h.listed.first⟩
  · rename_i hb
    exact ⟨hb, hc⟩

theorem at_owner {w : Owner K V} {slots : List ℕ} (hw : w.Ready hash (· ∈ l) s) :
    (w.resume slots).At hash s l o := by
  cases w with
  | op o => trivial
  | bucket o b bs => exact ⟨hw, trivial⟩
  | put key value n a => exact ⟨hw, trivial⟩

theorem at_after {a : After K V} {slots : List ℕ} (ha : a.Ready hash (· ∈ l) s) :
    (a.resume slots).At hash s l o := by
  cases a with
  | result r => trivial
  | bucket o' b bs n =>
    obtain ⟨hc, hn⟩ := ha
    cases bs with
    | nil =>
      have hlead : Leads hash (· ∈ l) s n o'.key := ⟨_, hn, hc⟩
      cases o' with
      | put key value => exact hlead
      | get key => exact ⟨hlead, trivial⟩
      | erase key => exact ⟨hlead, trivial⟩
      | contains key => exact ⟨hlead, trivial⟩
    | cons b' bs =>
      obtain ⟨rfl, hb, hc⟩ := hc
      exact ⟨⟨hb, hc⟩, hn⟩

/-- Where a search starts. -/
theorem Listed.start (h : Listed hash s l) {w : Search K V} (hw : w.Ready hash (· ∈ l) s) :
    Stands (· ∈ l) s.mem (w.Before hash) (w.query hash).start := by
  cases w with
  | sentinel o b bs =>
    refine ⟨h.head_mem, ?_⟩
    show BeforeBucket b (s.mem.data head)
    rw [h.first]
    exact beforeBucket_of_and BitVec.zero_and hw.1.symm
  | anchor o b bs p n =>
    obtain ⟨⟨hb, -⟩, hpl, hpd⟩ := hw
    refine ⟨hpl, ?_⟩
    show BeforeBucket b (s.mem.data p)
    rw [hpd]
    exact beforeBucket_of_and (parent_and hb) (parent_ne hb)
  | data n j =>
    obtain ⟨k, ⟨hn, hd⟩, hk⟩ := hw
    refine ⟨hn, ?_⟩
    show below (s.mem.data n) (dataOf hash j.key)
    rw [hd]
    exact .inl hk

/-- What a search goes past stands before what it looks for. -/
theorem Listed.advance (h : Listed hash s l) {w : Search K V} (a : ℕ) (ha : a ∈ l)
    (hadv : (w.query hash).advance (s.mem.data a) = true) : w.Before hash (s.mem.data a) := by
  cases w with
  | sentinel o b bs => exact advance_bucket (h.proper a ha) hadv
  | anchor o b bs p n => exact advance_bucket (h.proper a ha) hadv
  | data n j => exact advance_data hadv

/-- What an operation's own search has found out: the node of the key, or the key's empty place. -/
theorem Listed.outcome [IsStrictWeakOrder K (· < ·)] (hh : Agrees hash) (h : Listed hash s l)
    {n pred : ℕ} {j : Job K V} {found : Bool} {curr : Option ℕ}
    (hk : (Place.result found pred curr).Tracks s.mem l (Search.query hash (.data n j))
      (Search.Before hash (.data n j))) :
    (found = true ∧ ∃ c, curr = some c ∧ Matches hash (· ∈ l) s j.key c) ∨
    (found = false ∧ (∀ c, curr = some c → below (dataOf hash j.key) (s.mem.data c)) ∧
      lookup Same j.key (entries s l) = none) := by
  obtain ⟨⟨hp, hb⟩, hn, hnone, hc⟩ := hk
  have habsent : (∀ c, curr = some c → below (dataOf hash j.key) (s.mem.data c)) →
      lookup Same j.key (entries s l) = none := fun hcs =>
    lookup_eq_none.mpr (h.absent hh hp hb fun c hcc => hcs c (hn.symm.trans hcc))
  cases curr with
  | none =>
    have hcs : ∀ c, none = some c → below (dataOf hash j.key) (s.mem.data c) := nofun
    exact .inr ⟨hnone rfl, hcs, habsent hcs⟩
  | some c =>
    obtain ⟨ha, hf⟩ := hc c rfl
    have hcl := h.closed hp hn
    rcases stop_data (h.proper c hcl) ha with ⟨he, x, hx, hs⟩ | ⟨he, hlt⟩
    · exact .inl ⟨hf.trans he, c, rfl, hcl, x, hx, hs⟩
    · have hcs : ∀ c', some c = some c' → below (dataOf hash j.key) (s.mem.data c') := by
        rintro c' ⟨⟩
        exact hlt
      exact .inr ⟨hf.trans he, hcs, habsent hcs⟩

/-! ## The end of a search -/

theorem Sequential.goto_findBucket {i : List ℕ} (h : Sequential hash s ⟨i, pc⟩ l m o)
    {o' : Op K V} {b : Word} {bs : List Word} (hc : Calls hash o' b bs)
    (hbd : s.size.toNat ≤ s.bucketCount.toNat) (hop : pc.op? = some o')
    (hres : pc.result? = none) (hq : pc.quiet = false) (hr : pc.reclaiming = .finished)
    (hn : pc.uncounted = 0) (hn' : pc.overcounted = 0) (hl : ∀ pc', pc.links pc' = none)
    (hu : ∀ p a n, pc ≠ .unlink p a n) :
    Next hash s pc l m o s ⟨i, findBucket o' b bs⟩ := by
  have hat := h.at_findBucket hc
  have hret : ∀ pc' : Pc K V, pc'.reclaiming = .finished →
      retired s.mem.hazard pc'.reclaiming = retired s.mem.hazard pc.reclaiming := fun pc' e => by
    rw [e, hr]
  unfold findBucket at hat ⊢
  split
  · rename_i hb
    rw [if_pos hb] at hat
    exact h.goto hat (h.serves.same hres.symm (fun _ e => hop.trans e) hq.symm rfl) hbd
      (.of_none rfl)
      (List.nil_sublist _) (hret _ rfl) nofun hu hn.symm hn'.symm (hl _)
  · rename_i hb
    rw [if_neg hb] at hat
    refine h.goto hat (h.serves.same hres.symm (fun _ e => hop.trans e) hq.symm rfl) hbd
      (.of_none rfl)
      (List.nil_sublist _) (hret _ rfl) ?_ hu hn.symm hn'.symm (hl _)
    rintro w second j ⟨⟩ k hk
    cases hk

variable [IsStrictWeakOrder K (· < ·)] (hh : Agrees hash)
include hh

/-- What an operation does with the end of its own search. -/
theorem Sequential.resume_job {i : List ℕ} {p c n pred : ℕ} {j : Job K V} {found : Bool}
    {curr : Option ℕ}
    (h : Sequential hash s ⟨i, .find (.data n j) ⟨p, c, .result found pred curr⟩⟩ l m o) :
    Next hash s (.find (.data n j) ⟨p, c, .result found pred curr⟩) l m o s
      ⟨i, j.resume n found pred curr⟩ := by
  obtain ⟨hready, hk⟩ := h.place
  have ho : o = some j.operation := h.serves.told _ rfl
  have hent : ∀ {o' r}, o = some o' → apply o' (entries s l) = (entries s l, r) →
      Next hash s (.find (.data n j) ⟨p, c, .result found pred curr⟩) l m o s
        ⟨i, .destroy 2 (.result r)⟩ := fun ho' ha =>
    h.goto trivial (h.decide hh rfl ho' ha (.refl _) rfl rfl rfl) h.bounded (.of_none rfl)
      (List.nil_sublist _) rfl (by rintro _ _ _ ⟨⟩) (by rintro _ _ _ ⟨⟩) rfl rfl rfl
  rcases h.listed.outcome hh hk with ⟨rfl, c', rfl, hm⟩ | ⟨rfl, hcs, hnone⟩
  · obtain ⟨hlook, hsome⟩ := h.listed.lookup_of_matches hh hm
    cases j with
    | put key value a =>
      exact h.goto hm (h.serves.same rfl (fun _ e => e) rfl rfl) h.bounded
        (fun n d hn => ⟨hn, fun v hv => hv, (by rintro _ _ _ ⟨⟩)⟩) (.refl _) rfl
        (by rintro _ _ _ ⟨⟩)
        (by rintro _ _ _ ⟨⟩) rfl rfl rfl
    | get key =>
      exact h.goto hm (h.serves.same rfl (fun _ e => e) rfl rfl) h.bounded (.of_none rfl)
        (.refl _) rfl
        (by rintro _ _ _ ⟨⟩) (by rintro _ _ _ ⟨⟩) rfl rfl rfl
    | erase key =>
      exact h.goto ⟨hm, hk.1.1, hk.2.1⟩ (h.serves.same rfl (fun _ e => e) rfl rfl) h.bounded
        (.of_none rfl) (.refl _) rfl (by rintro _ _ _ ⟨⟩) (by rintro _ _ _ ⟨⟩) rfl rfl rfl
    | contains key =>
      have hl : (lookup Same key (entries s l)).isSome = true := hlook ▸ hsome
      exact hent ho (by simp only [Job.operation, apply, hl])
  · cases j with
    | put key value a =>
      refine h.goto ⟨hready, hk.1, hk.2.1, hcs⟩ (h.serves.same rfl (fun _ e => e) rfl rfl) h.bounded
        (fun n d hn => ?_) (.refl _) rfl (by rintro _ _ _ ⟨⟩) (by rintro _ _ _ ⟨⟩) rfl rfl rfl
      exact ⟨hn, fun v hv => hv, (by rintro _ _ _ ⟨⟩)⟩
    | get key =>
      have hl : lookup Same key (entries s l) = none := hnone
      have ha : apply (.get key) (entries s l) = (entries s l, .value none) := by
        rw [apply, hl]
      cases curr <;> exact hent ho ha
    | erase key =>
      have hl : lookup Same key (entries s l) = none := hnone
      have ha : apply (.erase key) (entries s l) = (entries s l, .bool false) := by
        rw [apply, hl, remove_eq_self (lookup_eq_none.mp hl)]
        rfl
      cases curr <;> exact hent ho ha
    | contains key =>
      have hl : lookup Same key (entries s l) = none := hnone
      have ha : apply (.contains key) (entries s l) = (entries s l, .bool false) := by
        rw [apply, hl]
        rfl
      exact hent ho ha

/-- What follows a search. -/
theorem Sequential.resume {i : List ℕ} {p c pred : ℕ} {w : Search K V} {found : Bool}
    {curr : Option ℕ}
    (h : Sequential hash s ⟨i, .find w ⟨p, c, .result found pred curr⟩⟩ l m o) :
    Next hash s (.find w ⟨p, c, .result found pred curr⟩) l m o s
      ⟨i, w.resume s found pred curr⟩ := by
  obtain ⟨hready, hk⟩ := h.place
  cases w with
  | sentinel o' b bs =>
    have hparent : Next hash s (.find (.sentinel o' b bs) ⟨p, c, .result found pred curr⟩) l m o s
        ⟨i, findBucket o' (parent b) (b :: bs)⟩ :=
      h.goto_findBucket ⟨rfl, hready⟩ h.bounded rfl rfl rfl rfl rfl rfl (fun _ => rfl)
        (by rintro _ _ _ ⟨⟩)
    cases curr with
    | none => exact hparent
    | some c' =>
      simp only [Search.resume]
      split
      · rename_i hs
        have hs : (s.mem.data c').splitKey = bucketSplitKey b ∧ (s.mem.data c').key = none := by
          simpa [isSentinel] using hs
        have hat : (Pc.destroy 2 (.bucket o' b bs c')).At hash s l o := by
          refine ⟨hready.2, h.listed.closed hk.1.1 hk.2.1, ?_⟩
          rw [← hs.1, ← hs.2]
        exact h.goto hat (h.serves.same rfl (fun _ e => e) rfl rfl) h.bounded (.of_none rfl)
          (.refl _)
          rfl (by rintro _ _ _ ⟨⟩) (by rintro _ _ _ ⟨⟩) rfl rfl rfl
      · exact hparent
  | anchor o' b bs p' n =>
    have hcs : ∀ c', curr = some c' → below (sentinelOf K b) (s.mem.data c') := fun c' hc' =>
      stop_bucket (hk.2.2.2 c' hc').1
    exact h.goto ⟨hready.1, hk.1, hk.2.1, hcs⟩ (h.serves.same rfl (fun _ e => e) rfl rfl)
      h.bounded (fun n d hn => ⟨hn, (by rintro _ ⟨⟩), (by rintro _ _ _ ⟨⟩)⟩) (.refl _) rfl
      (by rintro _ _ _ ⟨⟩) (by rintro _ _ _ ⟨⟩) rfl rfl rfl
  | data n j => exact h.resume_job hh
end

end Bonostl.LockfreeHashMap
