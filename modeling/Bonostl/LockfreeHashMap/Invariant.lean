import Bonostl.HarrisMichael.Traverse
import Bonostl.Interleaving.Linearizable
import Bonostl.LockfreeHashMap.Model

/-!
# The list of `lockfree_hash_map`

Runs in which `new` returns no address twice. The nodes form one chain ordered by split key and, for
equal split keys, by key (`below`). Sentinels of one split key may repeat: two threads that create
the same bucket can both link one (`Sentinels.lean` says when). Sentinels are never marked, so a
search may start at any of them.

`Inv` is what every step keeps: the chain, the nodes that threads have made and not yet linked, and
what each thread knows at its place (`Pc.Knows`). Split keys are used through three facts only: a
bucket's is below the data of its hashes, not below its parent's, and no data's.
-/

namespace Bonostl.LockfreeHashMap

open Interleaving HazardPtr HarrisMichael Chain

variable {ι K V : Type} [LT K]

/-! ## The order of the list -/

/-- Sentinels come first, and are not told apart. -/
def before : Option K → Option K → Prop
  | none, _ => True
  | some x, some y => x < y
  | some _, none => False

/-- The order of the list: by split key, then sentinels before data, then by key. -/
def below (d e : Data K) : Prop :=
  d.splitKey < e.splitKey ∨ (d.splitKey = e.splitKey ∧ before d.key e.key)

theorem before_trans [IsTrans K (· < ·)] {x y z : Option K} (hxy : before x y) (hyz : before y z) :
    before x z := by
  cases x <;> cases y <;> cases z <;> simp_all only [before]
  exact IsTrans.trans (r := (· < ·)) _ _ _ hxy hyz

instance [IsTrans K (· < ·)] : IsTrans (Data K) below where
  trans a b c hab hbc := by
    rcases hab with h1 | ⟨e1, h1⟩
    · rcases hbc with h2 | ⟨e2, -⟩
      · exact .inl (BitVec.lt_trans h1 h2)
      · exact .inl (e2 ▸ h1)
    · rcases hbc with h2 | ⟨e2, h2⟩
      · exact .inl (e1 ▸ h2)
      · exact .inr ⟨e1.trans e2, before_trans h1 h2⟩

/-- Neither is less than the other. -/
def Same (x y : K) : Prop := ¬ x < y ∧ ¬ y < x

section
variable (hash : K → Word)

omit [LT K] in
/-- The data of a node that holds `key`. -/
def dataOf (key : K) : Data K := ⟨dataSplitKey (hash key), some key⟩

omit [LT K] in
/-- The data of a bucket's sentinel. -/
def sentinelOf (K : Type) (b : Word) : Data K := ⟨bucketSplitKey b, none⟩

omit [LT K] in
/-- What a node can carry. -/
def Proper (d : Data K) : Prop := (∃ b, d = sentinelOf K b) ∨ ∃ key, d = dataOf hash key

/-- The data that may stand before the sentinel of `b`: strictly before, unless the bucket has bits
that its split key leaves out. -/
def BeforeBucket (b : Word) (d : Data K) : Prop :=
  d.splitKey < bucketSplitKey b ∨ (2 ^ 32 ≤ b.toNat ∧ below d (sentinelOf K b))

/-- The data that may stand before what a search looks for. -/
def Search.Before : Search K V → Data K → Prop
  | .sentinel _ b _ | .anchor _ b _ _ _ => BeforeBucket b
  | .data _ j => fun d => below d (dataOf hash j.key)

/-- The data of a node to be linked in. -/
def Link.data : Link K V → Data K
  | .sentinel _ b _ _ => sentinelOf K b
  | .put key _ _ _ => dataOf hash key

/-- The data behind which a new node belongs. -/
def Link.Before : Link K V → Data K → Prop
  | .sentinel _ b _ _ => BeforeBucket b
  | .put key _ _ _ => fun d => below d (dataOf hash key)

theorem BeforeBucket.below {b : Word} {d : Data K} (h : BeforeBucket b d) :
    below d (sentinelOf K b) := by
  rcases h with h | ⟨-, h⟩
  · exact .inl h
  · exact h

/-- The sentinel of a bucket with fewer bits. -/
theorem beforeBucket_of_and {a b : Word} (h : a &&& b = a) (hne : a ≠ b) :
    BeforeBucket b (sentinelOf K a) := by
  by_cases hsmall : b.toNat < 2 ^ 32
  · exact .inl (bucketSplitKey_lt_of_and h hne hsmall)
  · refine .inr ⟨by omega, ?_⟩
    by_cases heq : bucketSplitKey a = bucketSplitKey b
    · exact .inr ⟨heq, trivial⟩
    · exact .inl (BitVec.lt_of_le_ne (bucketSplitKey_le_of_and h) heq)

theorem Link.Before.below {w : Link K V} {d : Data K} (h : w.Before hash d) :
    below d (w.data hash) := by
  cases w with
  | sentinel o b bs n => exact BeforeBucket.below h
  | put key value n a => exact h

variable [DecidableLT K] {hash} {d : Data K}

/-- What a search goes past. -/
theorem precedes_eq_true {k : Word} {key : K} (h : precedes k key d = true) :
    d.splitKey < k ∨ (d.splitKey = k ∧ ∃ x, d.key = some x ∧ x < key) := by
  obtain ⟨sk, x⟩ := d
  simp only [precedes, Bool.not_eq_true', Bool.or_eq_false_iff, decide_eq_false_iff_not] at h
  obtain ⟨hle, heq⟩ := h
  by_cases he : sk = k
  · right
    subst he
    cases x with
    | none => simp at heq
    | some x => exact ⟨rfl, x, rfl, by simpa using heq⟩
  · exact .inl (BitVec.lt_of_le_ne (BitVec.not_lt.mp hle) he)

/-- Where a search stops. -/
theorem precedes_eq_false {k : Word} {key : K} (h : precedes k key d = false) :
    k < d.splitKey ∨ (d.splitKey = k ∧ ∀ x, d.key = some x → ¬ x < key) := by
  obtain ⟨sk, x⟩ := d
  by_cases hlt : k < sk
  · exact .inl hlt
  · right
    cases x with
    | none => simpa [precedes, hlt] using h
    | some x => simpa [precedes, hlt] using h

/-- What the comparisons of a search for a sentinel say of the nodes it goes past and stops at. -/
theorem advance_bucket {b : Word} {key : K} (hp : Proper hash d)
    (h : precedes (bucketSplitKey b) key d = true) : BeforeBucket b d := by
  rcases precedes_eq_true h with hlt | ⟨he, x, hx, -⟩
  · exact .inl hlt
  · rcases hp with ⟨b', rfl⟩ | ⟨y, rfl⟩
    · cases hx
    · exact absurd he.symm (bucketSplitKey_ne_dataSplitKey _ _)

theorem stop_bucket {b : Word} {key : K} (h : precedes (bucketSplitKey b) key d = false) :
    below (sentinelOf K b) d := by
  rcases precedes_eq_false h with hlt | ⟨he, -⟩
  · exact .inl hlt
  · exact .inr ⟨he.symm, trivial⟩

theorem advance_data {x : K} (h : precedes (dataSplitKey (hash x)) x d = true) :
    below d (dataOf hash x) := by
  rcases precedes_eq_true h with hlt | ⟨he, y, hy, hlt⟩
  · exact .inl hlt
  · exact .inr ⟨he, by rw [hy]; exact hlt⟩

/-- A search for data stops at data that is the same, or at something behind it. -/
theorem stop_data {x : K} (hp : Proper hash d) (h : precedes (dataSplitKey (hash x)) x d = false) :
    (equals (dataSplitKey (hash x)) x d = true ∧
      ∃ y, d = ⟨dataSplitKey (hash x), some y⟩ ∧ Same y x) ∨
    (equals (dataSplitKey (hash x)) x d = false ∧ below (dataOf hash x) d) := by
  obtain ⟨sk, y⟩ := d
  rcases precedes_eq_false h with hlt | ⟨he, hy⟩
  · refine .inr ⟨?_, .inl hlt⟩
    have hne : sk ≠ dataSplitKey (hash x) := by
      rintro rfl
      exact absurd hlt (BitVec.lt_irrefl _)
    simp [equals, hne]
  · obtain rfl : sk = dataSplitKey (hash x) := he
    cases y with
    | none =>
      -- a sentinel has no data key
      rcases hp with ⟨b, hb⟩ | ⟨y, hy⟩
      · exact absurd (congrArg Data.splitKey hb).symm (bucketSplitKey_ne_dataSplitKey _ _)
      · exact absurd (congrArg Data.key hy) (by simp [dataOf])
    | some y =>
      have hyx : ¬ y < x := hy y rfl
      by_cases hxy : x < y
      · exact .inr ⟨by simp [equals, hxy], .inr ⟨rfl, hxy⟩⟩
      · exact .inl ⟨by simp [equals, hxy, hyx], y, rfl, hyx, hxy⟩

end

/-! ## What a thread knows -/

section
variable (hash : K → Word) (linked : ℕ → Prop) (s : Shared ι K V)

/-- Node `n` is a sentinel that was linked in. -/
def Sentinel (n : ℕ) (splitKey : Word) : Prop := linked n ∧ s.mem.data n = ⟨splitKey, none⟩

/-- `n` is a sentinel from which the data of `key` can be searched for. -/
def Leads (n : ℕ) (key : K) : Prop :=
  ∃ splitKey, Sentinel linked s n splitKey ∧ splitKey < dataSplitKey (hash key)

omit [LT K] in
/-- The calls of `find_bucket` that are open: `b` is the parent of the next one, and the last one's
sentinel comes before the key of the operation. -/
def Calls (o : Op K V) : Word → List Word → Prop
  | b, [] => bucketSplitKey b < dataSplitKey (hash o.key)
  | b, b' :: bs => b = parent b' ∧ b' ≠ 0 ∧ Calls o b' bs

/-- `find_bucket` of a bucket other than 0 is running. -/
def Finding (o : Op K V) (b : Word) (bs : List Word) : Prop := b ≠ 0 ∧ Calls hash o b bs

/-- Node `c` holds a key that is the same as `key`. -/
def Matches (key : K) (c : ℕ) : Prop :=
  linked c ∧ ∃ x, s.mem.data c = ⟨dataSplitKey (hash key), some x⟩ ∧ Same x key

/-- What a search starts from. -/
def Search.Ready : Search K V → Prop
  | .sentinel o b bs => Finding hash o b bs
  | .anchor o b bs p _ => Finding hash o b bs ∧ Sentinel linked s p (bucketSplitKey (parent b))
  | .data n j => Leads hash linked s n j.key

/-- What a link is made for. -/
def Link.Ready : Link K V → Prop
  | .sentinel o b bs _ => Finding hash o b bs
  | .put key _ n _ => Leads hash linked s n key

/-- What the `hp_owner`s are constructed for. -/
def Owner.Ready : Owner K V → Prop
  | .op _ => True
  | .bucket o b bs => Finding hash o b bs
  | .put key _ n _ => Leads hash linked s n key

/-- What is known when they are destroyed. -/
def After.Ready : After K V → Prop
  | .bucket o b bs n => Calls hash o b bs ∧ Sentinel linked s n (bucketSplitKey b)
  | .result _ => True

/-- What a thread knows at each place; `D` are the instants of its operation. -/
def Pc.Knows [DecidableLT K] [Inhabited K] (D : Set (Memory ι (Data K))) : Pc K V → Prop
  | .claim w _ _ => w.Ready hash linked s
  | .find w f => w.Ready hash linked s ∧
      f.place.Knows below head linked s.mem D (w.query hash) (w.Before hash)
  | .newSentinel o b bs p =>
    Finding hash o b bs ∧ Sentinel linked s p (bucketSplitKey (parent b))
  | .newNode key _ n => Leads hash linked s n key
  | .setNext w pred curr | .link w pred curr =>
    w.Ready hash linked s ∧ Stands linked s.mem (w.Before hash) pred ∧
      ∀ c, curr = some c → linked c ∧ below (w.data hash) (s.mem.data c)
  | .deleteSentinel o b bs _ => Finding hash o b bs
  | .storeValue key _ _ c | .loadValue key c =>
    Matches hash linked s key c ∧ Seen head D c (s.mem.data c)
  | .loadNext key pred c | .mark key pred c _ => linked pred ∧ Matches hash linked s key c
  | .unlink pred c next =>
    linked pred ∧ linked c ∧ s.mem.marked c = true ∧ s.mem.next c = next
  | .destroy _ a | .disown _ a => a.Ready hash linked s
  | _ => True

omit [LT K] in
/-- The node a thread has made and not linked in, with its data. -/
def Pc.newNode? : Pc K V → Option (ℕ × Data K)
  | .claim (.put key _ _ n) _ _ | .find (.data _ (.put key _ n)) _ | .storeValue key _ n _ =>
    some (n, dataOf hash key)
  | .find (.anchor _ b _ _ n) _ => some (n, sentinelOf K b)
  | .setNext w _ _ | .link w _ _ => some (w.node, w.data hash)
  | _ => none

omit [LT K] in
/-- The value of the node a `put` has made. -/
def Pc.newValue? : Pc K V → Option V
  | .claim (.put _ value _ _) _ _ | .find (.data _ (.put _ value _)) _ | .storeValue _ value _ _
  | .setNext (.put _ value _ _) _ _ | .link (.put _ value _ _) _ _ => some value
  | _ => none

omit [LT K] in
/-- The node that is linked in by a step from one place to another. -/
def Pc.links : Pc K V → Pc K V → Option ℕ
  | .link w _ _, .destroy _ _ | .link w _ _, .fetchAdd => some w.node
  | _, _ => none

/-- What a thread has made is as it made it, and nobody else's. -/
structure Private (pc : Pc K V) (n : ℕ) (d : Data K) : Prop where
  unlinked : ¬ linked n
  used : s.mem.used n = true
  data : s.mem.data n = d
  unmarked : s.mem.marked n = false
  value : ∀ v, pc.newValue? = some v → s.values n = some v
  next : ∀ w pred curr, pc = .link w pred curr → s.mem.next n = curr
end

/-- **The invariant**: `linked` are the nodes ever linked in, `D t` the instants of `t`'s
operation. -/
structure Inv [DecidableLT K] [Inhabited K] (hash : K → Word) (linked : ℕ → Prop)
    (s : Shared ι K V) (f : ι → Local K V) (D : ι → Set (Memory ι (Data K))) : Prop where
  chain : ∃ l, MarkedChain below head linked l s.mem.next s.mem.marked s.mem.data
  head : Sentinel linked s head (bucketSplitKey 0)
  used : ∀ a, linked a → s.mem.used a = true
  proper : ∀ a, linked a → Proper hash (s.mem.data a)
  sentinels : ∀ a, linked a → (s.mem.data a).key = none → s.mem.marked a = false
  marked : ∀ a, s.mem.marked a = true → linked a
  mine : ∀ t n d, (f t).pc.newNode? hash = some (n, d) → Private linked s (f t).pc n d
  inj : ∀ t u n d e, (f t).pc.newNode? hash = some (n, d) → (f u).pc.newNode? hash = some (n, e) →
    t = u
  knows : ∀ t, (f t).pc.Knows hash linked s (D t)

section
variable {hash : K → Word} {linked linked' : ℕ → Prop} {s s' : Shared ι K V} {f : ι → Local K V}
  {D D' : ι → Set (Memory ι (Data K))} {t : ι} {l' : Local K V}

/-! ### What is known stays known -/

section
variable (hg : Grows linked s.mem s'.mem) (hl : ∀ a, linked a → linked' a)
include hg hl

omit [LT K] in
theorem Sentinel.mono {n : ℕ} {k : Word} (h : Sentinel linked s n k) : Sentinel linked' s' n k :=
  ⟨hl n h.1, (hg.data n h.1).trans h.2⟩

omit [LT K] in
theorem Leads.mono {n : ℕ} {key : K} (h : Leads hash linked s n key) :
    Leads hash linked' s' n key := by
  obtain ⟨k, hs, hk⟩ := h
  exact ⟨k, hs.mono hg hl, hk⟩

theorem Matches.mono {key : K} {c : ℕ} (h : Matches hash linked s key c) :
    Matches hash linked' s' key c := by
  obtain ⟨hc, x, hx, hs⟩ := h
  exact ⟨hl c hc, x, (hg.data c hc).trans hx, hs⟩

omit [LT K] in
theorem Search.Ready.mono {w : Search K V} (h : w.Ready hash linked s) :
    w.Ready hash linked' s' := by
  cases w with
  | sentinel o b bs => exact h
  | anchor o b bs p n => exact ⟨h.1, h.2.mono hg hl⟩
  | data n j => exact Leads.mono hg hl h

omit [LT K] in
theorem Link.Ready.mono {w : Link K V} (h : w.Ready hash linked s) : w.Ready hash linked' s' := by
  cases w with
  | sentinel o b bs n => exact h
  | put key value n a => exact Leads.mono hg hl h

omit [LT K] in
theorem Owner.Ready.mono {w : Owner K V} (h : w.Ready hash linked s) :
    w.Ready hash linked' s' := by
  cases w with
  | op o => trivial
  | bucket o b bs => exact h
  | put key value n a => exact Leads.mono hg hl h

omit [LT K] in
theorem After.Ready.mono {a : After K V} (h : a.Ready hash linked s) : a.Ready hash linked' s' := by
  cases a with
  | bucket o b bs n => exact ⟨h.1, h.2.mono hg hl⟩
  | result r => trivial

variable [DecidableLT K] [Inhabited K]

theorem Pc.Knows.mono {E E' : Set (Memory ι (Data K))} {pc : Pc K V}
    (h : pc.Knows hash linked s E) (hE : E ⊆ E') : pc.Knows hash linked' s' E' := by
  cases pc with
  | claim w second i => exact Owner.Ready.mono hg hl h
  | find w f => exact ⟨h.1.mono hg hl, h.2.mono hg hl hE⟩
  | newSentinel o b bs p => exact ⟨h.1, h.2.mono hg hl⟩
  | newNode key value n => exact Leads.mono hg hl h
  | setNext w pred curr | link w pred curr =>
    obtain ⟨h1, h2, h3⟩ := h
    refine ⟨h1.mono hg hl, h2.mono hg hl, fun c hc => ?_⟩
    obtain ⟨h4, h5⟩ := h3 c hc
    exact ⟨hl c h4, by rw [hg.data c h4]; exact h5⟩
  | deleteSentinel o b bs n => exact h
  | storeValue key value n c | loadValue key c =>
    refine ⟨h.1.mono hg hl, ?_⟩
    rw [hg.data c h.1.1]
    exact h.2.mono hE
  | loadNext key pred c | mark key pred c next => exact ⟨hl _ h.1, h.2.mono hg hl⟩
  | unlink pred c next =>
    obtain ⟨h1, h2, h3, h4⟩ := h
    obtain ⟨h5, h6⟩ := hg.frozen c h2 h3
    exact ⟨hl _ h1, hl _ h2, h5, h6.trans h4⟩
  | destroy m a | disown m a => exact After.Ready.mono hg hl h
  | _ => trivial
end

omit [LT K] in
/-- A thread's new node is not touched. -/
theorem Private.mono {pc : Pc K V} {n : ℕ} {d : Data K} (h : Private linked s pc n d)
    (hl : ¬ linked' n) (hu : s'.mem.used n = s.mem.used n) (hd : s'.mem.data n = s.mem.data n)
    (hm : s'.mem.marked n = s.mem.marked n) (hv : s'.values n = s.values n)
    (hn : s'.mem.next n = s.mem.next n) : Private linked' s' pc n d :=
  ⟨hl, hu.trans h.used, hd.trans h.data, hm.trans h.unmarked, fun v hv' => hv.trans (h.value v hv'),
    fun w pred curr e => hn.trans (h.next w pred curr e)⟩

/-! ### The steps -/

variable [DecidableLT K] [Inhabited K] [DecidableEq ι]

/-- A step of `t`: what has to be said of the shared state, of the other threads' new nodes and of
`t` itself. -/
theorem Inv.threads (h : Inv hash linked s f D) (s' : Shared ι K V) (hg : Grows linked s.mem s'.mem)
    (hl : ∀ a, linked a → linked' a)
    (hchain : ∃ l, MarkedChain below LockfreeHashMap.head linked' l s'.mem.next s'.mem.marked
      s'.mem.data)
    (hused : ∀ a, linked' a → s'.mem.used a = true)
    (hproper : ∀ a, linked' a → Proper hash (s'.mem.data a))
    (hsent : ∀ a, linked' a → (s'.mem.data a).key = none → s'.mem.marked a = false)
    (hmarked : ∀ a, s'.mem.marked a = true → linked' a)
    (hother : ∀ u, u ≠ t → ∀ n d, (f u).pc.newNode? hash = some (n, d) →
      Private linked' s' (f u).pc n d)
    (hself : ∀ n d, l'.pc.newNode? hash = some (n, d) → Private linked' s' l'.pc n d ∧
      ∀ u, u ≠ t → ∀ e, (f u).pc.newNode? hash ≠ some (n, e))
    (hD : ∀ u, u ≠ t → D u ⊆ D' u) (hkn : l'.pc.Knows hash linked' s' (D' t)) :
    Inv hash linked' s' (Function.update f t l') D' := by
  refine ⟨hchain, h.head.mono hg hl, hused, hproper, hsent, hmarked, ?_, ?_, ?_⟩
  · intro u n d hn
    by_cases hut : u = t
    · subst hut
      rw [Function.update_self] at hn ⊢
      exact (hself n d hn).1
    · rw [Function.update_of_ne hut] at hn ⊢
      exact hother u hut n d hn
  · intro u v n d e hu hv
    by_cases hut : u = t
    · by_cases hvt : v = t
      · exact hut.trans hvt.symm
      · subst hut
        rw [Function.update_self] at hu
        rw [Function.update_of_ne hvt] at hv
        exact absurd hv ((hself n d hu).2 v hvt e)
    · rw [Function.update_of_ne hut] at hu
      by_cases hvt : v = t
      · subst hvt
        rw [Function.update_self] at hv
        exact absurd hu ((hself n e hv).2 u hut d)
      · rw [Function.update_of_ne hvt] at hv
        exact h.inj u v n d e hu hv
  · intro u
    by_cases hut : u = t
    · subst hut
      rwa [Function.update_self]
    · rw [Function.update_of_ne hut]
      exact (h.knows u).mono hg hl (hD u hut)

/-- The new node of a thread stays its own at the next place. -/
def Carries (hash : K → Word) (pc pc' : Pc K V) : Prop :=
  ∀ n d, pc'.newNode? hash = some (n, d) → pc.newNode? hash = some (n, d) ∧
    (∀ v, pc'.newValue? = some v → pc.newValue? = some v) ∧ ∀ w pred curr, pc' ≠ .link w pred curr

omit [LT K] [DecidableLT K] [Inhabited K] in
theorem Carries.of_none {pc pc' : Pc K V} (h : pc'.newNode? hash = none) : Carries hash pc pc' := by
  intro n d hn
  rw [h] at hn
  cases hn

/-- A step that links nothing in and writes to no node that is not linked in. -/
theorem Inv.keep (h : Inv hash linked s f D) (s' : Shared ι K V) (hk : Kept linked s.mem s'.mem)
    (hchain : ∃ l, MarkedChain below LockfreeHashMap.head linked l s'.mem.next s'.mem.marked
      s'.mem.data)
    (hv : ∀ a, ¬ linked a → s'.values a = s.values a) (hD : ∀ u, u ≠ t → D u ⊆ D' u)
    (hc : Carries hash (f t).pc l'.pc) (hkn : l'.pc.Knows hash linked s' (D' t)) :
    Inv hash linked s' (Function.update f t l') D' := by
  have hpriv : ∀ {pc : Pc K V} {n : ℕ} {d : Data K}, Private linked s pc n d →
      Private linked s' pc n d := fun hp =>
    hp.mono hp.unlinked (hk.used _) (hk.data _) (hk.marked _) (hv _ hp.unlinked)
      (hk.next _ hp.unlinked)
  refine h.threads s' hk.grows (fun _ ha => ha) hchain ?_ ?_ ?_ ?_ ?_ ?_ hD hkn
  · intro a ha; rw [hk.used]; exact h.used a ha
  · intro a ha; rw [hk.data]; exact h.proper a ha
  · intro a ha; rw [hk.data, hk.marked]; exact h.sentinels a ha
  · intro a ha; rw [hk.marked] at ha; exact h.marked a ha
  · exact fun u _ n d hn => hpriv (h.mine u n d hn)
  · intro n d hn
    obtain ⟨hmine, hval, hlink⟩ := hc n d hn
    have hp := hpriv (h.mine t n d hmine)
    refine ⟨⟨hp.unlinked, hp.used, hp.data, hp.unmarked, fun v hv' => hp.value v (hval v hv'),
      fun w pred curr e => absurd e (hlink w pred curr)⟩, fun u hut e hu => hut ?_⟩
    exact h.inj u t n e d hu hmine

omit [LT K] [DecidableLT K] [Inhabited K] [DecidableEq ι] in
theorem grows_alloc {a : ℕ} {d : Data K} (ha : ¬ linked a) :
    Grows linked s.mem (s.mem.alloc a d) := by
  have hne : ∀ b, linked b → b ≠ a := by rintro b hb rfl; exact ha hb
  exact ⟨fun b hb => Function.update_of_ne (hne b hb) _ _, fun b hb hm =>
    ⟨(Function.update_of_ne (hne b hb) _ _).trans hm, Function.update_of_ne (hne b hb) _ _⟩⟩

omit [DecidableEq ι] in
theorem Inv.unused (h : Inv hash linked s f D) {a : ℕ} (ha : s.mem.used a = false) : ¬ linked a :=
  fun hl => absurd (h.used a hl) (by simp [ha])

/-- `new node` at an address that was never used. -/
theorem Inv.new (h : Inv hash linked s f D) {a : ℕ} {d : Data K} {x : Option V}
    (ha : s.mem.used a = false) (hD : ∀ u, u ≠ t → D u ⊆ D' u)
    (hm : s'.mem = s.mem.alloc a d) (hx : s'.values = Function.update s.values a x)
    (hnew : l'.pc.newNode? hash = some (a, d)) (hval : ∀ v, l'.pc.newValue? = some v → x = some v)
    (hlink : ∀ w pred curr, l'.pc ≠ .link w pred curr)
    (hkn : l'.pc.Knows hash linked s' (D' t)) : Inv hash linked s' (Function.update f t l') D' := by
  have hal := h.unused ha
  have hne : ∀ b, linked b → b ≠ a := by rintro b hb rfl; exact hal hb
  obtain ⟨l, hc⟩ := h.chain
  refine h.threads _ (by rw [hm]; exact grows_alloc hal) (fun _ hb => hb) ⟨l, ?_⟩ ?_ ?_ ?_ ?_
    ?_ ?_ hD
    hkn
  · rw [hm]
    exact hc.frame h.head.1 (fun b hb => Function.update_of_ne (hne b hb) _ _)
      (fun b hb => Function.update_of_ne (hne b hb) _ _)
      (fun b hb => Function.update_of_ne (hne b hb) _ _)
  · intro b hb
    rw [hm, Memory.alloc_used]
    simp [h.used b hb]
  · intro b hb
    rw [hm, Memory.alloc_data, if_neg (hne b hb)]
    exact h.proper b hb
  · intro b hb
    rw [hm, Memory.alloc_data, Memory.alloc_marked, if_neg (hne b hb), if_neg (hne b hb)]
    exact h.sentinels b hb
  · intro b hb
    rw [hm, Memory.alloc_marked] at hb
    split at hb
    · cases hb
    · exact h.marked b hb
  · intro u hut n e hn
    have hp := h.mine u n e hn
    have hna : n ≠ a := by rintro rfl; rw [hp.used] at ha; cases ha
    refine hp.mono hp.unlinked ?_ ?_ ?_ ?_ ?_
    · rw [hm, Memory.alloc_used, if_neg hna]
    · rw [hm, Memory.alloc_data, if_neg hna]
    · rw [hm, Memory.alloc_marked, if_neg hna]
    · rw [hx, Function.update_of_ne hna]
    · rw [hm, Memory.alloc_next, if_neg hna]
  · intro n e hn
    obtain ⟨rfl, rfl⟩ := Prod.mk.inj (Option.some.inj (hnew.symm.trans hn))
    refine ⟨⟨hal, ?_, ?_, ?_, fun v hv => ?_, fun w pred curr e => absurd e (hlink w pred curr)⟩,
      fun u hut e hu => ?_⟩
    · rw [hm, Memory.alloc_used, if_pos rfl]
    · rw [hm, Memory.alloc_data, if_pos rfl]
    · rw [hm, Memory.alloc_marked, if_pos rfl]
    · rw [hx, Function.update_self]
      exact hval v hv
    · have hp := h.mine u a e hu
      rw [hp.used] at ha
      cases ha

omit [LT K] [DecidableLT K] [Inhabited K] [DecidableEq ι] in
theorem grows_setNext {a : ℕ} {p : Option ℕ} (ha : ¬ linked a) :
    Grows linked s.mem (s.mem.setNext a p) := by
  have hne : ∀ b, linked b → b ≠ a := by rintro b hb rfl; exact ha hb
  exact ⟨fun b _ => rfl, fun b hb hm =>
    ⟨(Function.update_of_ne (hne b hb) _ _).trans hm, Function.update_of_ne (hne b hb) _ _⟩⟩

/-- `new_node->next.store(curr)`, `sentinel->next.store(curr)`. -/
theorem Inv.set_next (h : Inv hash linked s f D) {i : List ℕ} {w : Link K V} {pred : ℕ}
    {curr : Option ℕ} (hft : f t = ⟨i, .setNext w pred curr⟩) (hD : ∀ u, D u ⊆ D' u) :
    Inv hash linked { s with mem := s.mem.setNext w.node curr }
      (Function.update f t ⟨i, .link w pred curr⟩) D' := by
  have hmine : (f t).pc.newNode? hash = some (w.node, w.data hash) := by rw [hft]; rfl
  have hp := h.mine t _ _ hmine
  have hne : ∀ b, linked b → b ≠ w.node := by rintro b hb rfl; exact hp.unlinked hb
  have hg : Grows linked s.mem (s.mem.setNext w.node curr) := grows_setNext hp.unlinked
  obtain ⟨l, hc⟩ := h.chain
  refine h.threads { s with mem := s.mem.setNext w.node curr } hg (fun _ hb => hb) ⟨l, ?_⟩
    h.used h.proper ?_ ?_ ?_ ?_ (fun u _ => hD u) ?_
  · exact hc.frame h.head.1 (fun b hb => Function.update_of_ne (hne b hb) _ _)
      (fun b hb => Function.update_of_ne (hne b hb) _ _) fun b _ => rfl
  · intro b hb hk
    rw [Memory.setNext_marked, if_neg (hne b hb)]
    exact h.sentinels b hb hk
  · intro b hb
    rw [Memory.setNext_marked] at hb
    split at hb
    · cases hb
    · exact h.marked b hb
  · intro u hut n e hn
    have hq := h.mine u n e hn
    have hna : n ≠ w.node := by
      rintro rfl
      exact hut (h.inj u t _ _ _ hn hmine)
    refine hq.mono hq.unlinked rfl rfl ?_ rfl ?_
    · rw [Memory.setNext_marked, if_neg hna]
    · rw [Memory.setNext_next, if_neg hna]
  · intro n e hn
    obtain ⟨rfl, rfl⟩ :=
      Prod.mk.inj (Option.some.inj (hn : some (w.node, w.data hash) = some (n, e)))
    refine ⟨⟨hp.unlinked, hp.used, hp.data, ?_, fun v hv => hp.value v ?_, ?_⟩,
      fun u hut e hu => ?_⟩
    · rw [Memory.setNext_marked, if_pos rfl]
    · rw [hft]
      cases w with
      | sentinel o b bs n => cases hv
      | put key value n a => exact hv
    · rintro w' pred' curr' ⟨⟩
      rw [Memory.setNext_next, if_pos rfl]
    · exact hut (h.inj u t _ _ _ hu hmine)
  · have hk : (f t).pc.Knows hash linked { s with mem := s.mem.setNext w.node curr } (D' t) :=
      (h.knows t).mono hg (fun _ hb => hb) (hD t)
    rw [hft] at hk
    exact hk

/-- The compare-exchange that links a node in succeeds. -/
theorem Inv.link (h : Inv hash linked s f D) {i : List ℕ} {w : Link K V} {pred : ℕ}
    {curr : Option ℕ} (hft : f t = ⟨i, .link w pred curr⟩) (hn : s.mem.next pred = curr)
    (hm : s.mem.marked pred = false) (hD : ∀ u, u ≠ t → D u ⊆ D' u) :
    Inv hash (fun x => x = w.node ∨ linked x)
      { s with mem := { s.mem with next := Function.update s.mem.next pred (some w.node) } }
      (Function.update f t ⟨i, w.linked⟩) D' := by
  have hmine : (f t).pc.newNode? hash = some (w.node, w.data hash) := by rw [hft]; rfl
  have hp := h.mine t _ _ hmine
  have hk := h.knows t
  rw [hft] at hk
  obtain ⟨hready, ⟨hpl, hpB⟩, hcurr⟩ := hk
  have hnn := hp.next w pred curr (by rw [hft])
  obtain ⟨l, hc⟩ := h.chain
  obtain ⟨l', hc', -⟩ := hc.insert hpl hm hp.unlinked (hnn.trans hn.symm)
    (by rw [hp.data]; exact hpB.below) fun b hb => by
      rw [hp.data]; exact (hcurr b (hn.symm.trans hb)).2
  have hg : Grows linked s.mem
      { s.mem with next := Function.update s.mem.next pred (some w.node) } :=
    (kept_unlink hpl hm).grows
  refine h.threads { s with
      mem := { s.mem with next := Function.update s.mem.next pred (some w.node) } } hg
    (fun _ hb => .inr hb) ⟨l', hc'⟩ ?_ ?_ ?_ ?_ ?_ ?_ hD ?_
  · rintro b (rfl | hb)
    · exact hp.used
    · exact h.used b hb
  · rintro b (rfl | hb)
    · dsimp only
      rw [hp.data]
      cases w with
      | sentinel o b bs n => exact .inl ⟨b, rfl⟩
      | put key value n a => exact .inr ⟨key, rfl⟩
    · exact h.proper b hb
  · rintro b (rfl | hb) hk
    · exact hp.unmarked
    · exact h.sentinels b hb hk
  · exact fun b hb => .inr (h.marked b hb)
  · intro u hut n e hu
    have hq := h.mine u n e hu
    have hna : n ≠ w.node := by
      rintro rfl
      exact hut (h.inj u t _ _ _ hu hmine)
    refine hq.mono (by simp [hna, hq.unlinked]) rfl rfl rfl rfl ?_
    exact Function.update_of_ne (by rintro rfl; exact hq.unlinked hpl) _ _
  · intro n e hn'
    cases w <;> cases hn'
  · cases w with
    | sentinel o b bs n => exact ⟨hready.2, .inl rfl, hp.data⟩
    | put key value n a => trivial

/-- The compare-exchange that marks a node succeeds. -/
theorem Inv.mark (h : Inv hash linked s f D) {i : List ℕ} {key : K} {pred curr : ℕ}
    {next : Option ℕ} (hft : f t = ⟨i, .mark key pred curr next⟩) (hn : s.mem.next curr = next)
    (hD : ∀ u, u ≠ t → D u ⊆ D' u) :
    Inv hash linked
      { s with mem := { s.mem with marked := Function.update s.mem.marked curr true } }
      (Function.update f t ⟨i, .unlink pred curr next⟩) D' := by
  have hk := h.knows t
  rw [hft] at hk
  obtain ⟨hpl, hcl, x, hx, -⟩ := hk
  have hg : Grows linked s.mem { s.mem with marked := Function.update s.mem.marked curr true } := by
    refine ⟨fun _ _ => rfl, fun a ha ham => ⟨?_, rfl⟩⟩
    by_cases hac : a = curr
    · subst hac; simp
    · simpa [hac] using ham
  have hne : curr ≠ LockfreeHashMap.head := by
    rintro rfl
    rw [h.head.2] at hx
    exact absurd (congrArg Data.key hx) (by simp)
  obtain ⟨l, hc⟩ := h.chain
  refine h.threads { s with
      mem := { s.mem with marked := Function.update s.mem.marked curr true } } hg
    (fun _ hb => hb) ⟨l, hc.mark hne⟩ h.used h.proper ?_ ?_ ?_ nofun hD ⟨hpl, hcl, by simp, hn⟩
  · intro b hb hk
    have hbc : b ≠ curr := by rintro rfl; rw [hx] at hk; cases hk
    simpa [hbc] using h.sentinels b hb hk
  · intro b hb
    by_cases hbc : b = curr
    · subst hbc; exact hcl
    · exact h.marked b (by simpa [hbc] using hb)
  · intro u hut n e hu
    have hq := h.mine u n e hu
    have hnc : n ≠ curr := by rintro rfl; exact hq.unlinked hcl
    exact hq.mono hq.unlinked rfl rfl (by simp [hnc]) rfl rfl

/-! ### Where a step leads -/

omit [DecidableEq ι] in
theorem knows_findBucket (h : Inv hash linked s f D) {o : Op K V} {b : Word} {bs : List Word}
    {E : Set (Memory ι (Data K))} (hc : Calls hash o b bs) :
    (findBucket o b bs).Knows hash linked s E := by
  unfold findBucket
  split
  · rename_i hb
    subst hb
    exact ⟨hc, h.head⟩
  · rename_i hb
    exact ⟨hb, hc⟩

omit [DecidableEq ι] in
theorem knows_owner {w : Owner K V} {slots : List ℕ} {E : Set (Memory ι (Data K))}
    (hw : w.Ready hash linked s) : (w.resume slots).Knows hash linked s E := by
  cases w with
  | op o => trivial
  | bucket o b bs => exact ⟨hw, trivial⟩
  | put key value n a => exact ⟨hw, trivial⟩

omit [DecidableEq ι] in
theorem knows_after {a : After K V} {slots : List ℕ} {E : Set (Memory ι (Data K))}
    (ha : a.Ready hash linked s) : (a.resume slots).Knows hash linked s E := by
  cases a with
  | result r => trivial
  | bucket o b bs n =>
    obtain ⟨hc, hn⟩ := ha
    cases bs with
    | nil =>
      have hlead : Leads hash linked s n o.key := ⟨_, hn, hc⟩
      cases o with
      | put key value => exact hlead
      | get key => exact ⟨hlead, trivial⟩
      | erase key => exact ⟨hlead, trivial⟩
      | contains key => exact ⟨hlead, trivial⟩
    | cons b' bs =>
      obtain ⟨rfl, hb, hc⟩ := hc
      exact ⟨⟨hb, hc⟩, hn⟩

omit [DecidableEq ι] in
/-- What an operation's own search knows at its end. -/
theorem knows_job (h : Inv hash linked s f D) {n pred : ℕ} {j : Job K V} {found : Bool}
    {curr : Option ℕ} {E : Set (Memory ι (Data K))} (hw : Leads hash linked s n j.key)
    (hk : (Place.result found pred curr).Knows below LockfreeHashMap.head linked s.mem E
      (Search.query hash (.data n j)) (Search.Before hash (.data n j))) :
    (j.resume n found pred curr).Knows hash linked s E := by
  obtain ⟨hs, -, hnone, hc⟩ := hk
  have hfound : ∀ c, curr = some c → found = true → Matches hash linked s j.key c ∧
      Seen LockfreeHashMap.head E c (s.mem.data c) := by
    rintro c rfl hf
    obtain ⟨hl, ha, hfc, hseen⟩ := hc c rfl
    rcases stop_data (h.proper c hl) ha with ⟨-, x, hx, hsame⟩ | ⟨he, -⟩
    · exact ⟨⟨hl, x, hx, hsame⟩, hseen⟩
    · exact absurd (hf.symm.trans (hfc.trans he)) (by simp)
  have habsent : found = false → ∀ c, curr = some c →
      linked c ∧ below (dataOf hash j.key) (s.mem.data c) := by
    rintro hf c rfl
    obtain ⟨hl, ha, hfc, -⟩ := hc c rfl
    rcases stop_data (h.proper c hl) ha with ⟨he, -⟩ | ⟨-, hb⟩
    · exact absurd (hf.symm.trans (hfc.trans he)) (by simp)
    · exact ⟨hl, hb⟩
  cases found with
  | false =>
    cases j with
    | put key value a => exact ⟨hw, hs, habsent rfl⟩
    | get key => cases curr <;> trivial
    | erase key => cases curr <;> trivial
    | contains key => trivial
  | true =>
    cases curr with
    | none => exact absurd (hnone rfl) (by simp)
    | some c =>
      obtain ⟨hm, hseen⟩ := hfound c rfl rfl
      cases j with
      | put key value a => exact ⟨hm, hseen⟩
      | get key => exact ⟨hm, hseen⟩
      | erase key => exact ⟨hs.1, hm⟩
      | contains key => trivial

omit [DecidableEq ι] in
/-- What a search knows at its end is what its caller goes on with. -/
theorem knows_search (h : Inv hash linked s f D) {w : Search K V} {pred : ℕ} {found : Bool}
    {curr : Option ℕ} {E : Set (Memory ι (Data K))} (hw : w.Ready hash linked s)
    (hk : (Place.result found pred curr).Knows below LockfreeHashMap.head linked s.mem E
      (w.query hash) (w.Before hash)) :
    (w.resume s found pred curr).Knows hash linked s E := by
  cases w with
  | sentinel o b bs =>
    obtain ⟨hb, hc⟩ := hw
    have hparent : (findBucket o (parent b) (b :: bs)).Knows hash linked s E :=
      knows_findBucket h ⟨rfl, hb, hc⟩
    cases curr with
    | none => exact hparent
    | some c =>
      simp only [Search.resume]
      split
      · rename_i hs
        have hs : (s.mem.data c).splitKey = bucketSplitKey b ∧ (s.mem.data c).key = none := by
          simpa [isSentinel] using hs
        obtain ⟨hl, -⟩ := hk.2.2.2 c rfl
        refine ⟨hc, hl, ?_⟩
        rw [← hs.1, ← hs.2]
      · exact hparent
  | anchor o b bs p n =>
    obtain ⟨hfind, -⟩ := hw
    obtain ⟨hs, -, -, hc⟩ := hk
    refine ⟨hfind, hs, fun c hcc => ?_⟩
    obtain ⟨hl, ha, -⟩ := hc c hcc
    exact ⟨hl, stop_bucket ha⟩
  | data n j => exact knows_job h hw hk

/-! ### Every step keeps the invariant -/

/-- After a step: the invariant, with the node the step linked in, and what it did not undo. -/
def Moved (hash : K → Word) (linked : ℕ → Prop) (s : Shared ι K V) (f : ι → Local K V)
    (D' : ι → Set (Memory ι (Data K))) (t : ι) (s' : Shared ι K V) (l' : Local K V) : Prop :=
  Inv hash (fun x => (f t).pc.links l'.pc = some x ∨ linked x) s' (Function.update f t l') D' ∧
    Grows linked s.mem s'.mem

theorem Moved.same (hlk : (f t).pc.links l'.pc = none)
    (h : Inv hash linked s' (Function.update f t l') D') (hg : Grows linked s.mem s'.mem) :
    Moved hash linked s f D' t s' l' := by
  refine ⟨?_, hg⟩
  have hsame : (fun x => (f t).pc.links l'.pc = some x ∨ linked x) = linked := by
    funext x; simp [hlk]
  rw [hsame]
  exact h

/-- A step outside the chain. -/
theorem Inv.goto (h : Inv hash linked s f D) {i i' : List ℕ} {pc pc' : Pc K V}
    (hft : f t = ⟨i, pc⟩) (hD : ∀ u, u ≠ t → D u ⊆ D' u)
    (hkn : pc'.Knows hash linked s (D' t))
    (hc : Carries hash pc pc' := by exact .of_none rfl) (hlk : pc.links pc' = none := by rfl)
    (hn : s'.mem.next = s.mem.next := by rfl) (hm : s'.mem.marked = s.mem.marked := by rfl)
    (hd : s'.mem.data = s.mem.data := by rfl) (hu : s'.mem.used = s.mem.used := by rfl)
    (hv : ∀ a, ¬ linked a → s'.values a = s.values a := by exact fun _ _ => rfl) :
    Moved hash linked s f D' t s' ⟨i', pc'⟩ := by
  have hk : Kept linked s.mem s'.mem := .of_eq hd hm hn hu
  refine .same (by rw [hft]; exact hlk) (h.keep s' hk ?_ hv hD (by rw [hft]; exact hc)
    (hkn.mono hk.grows (fun _ ha => ha) subset_rfl)) hk.grows
  rw [hn, hm, hd]
  exact h.chain

omit [DecidableEq ι] in
/-- Where a search starts. -/
theorem Inv.start (h : Inv hash linked s f D) {w : Search K V} (hw : w.Ready hash linked s) :
    linked (w.query hash).start ∧ s.mem.marked (w.query hash).start = false ∧
      w.Before hash (s.mem.data (w.query hash).start) := by
  have hsent : ∀ n k, Sentinel linked s n k → linked n ∧ s.mem.marked n = false := fun n k hn =>
    ⟨hn.1, h.sentinels n hn.1 (by rw [hn.2])⟩
  cases w with
  | sentinel o b bs =>
    obtain ⟨h1, h2⟩ := hsent _ _ h.head
    refine ⟨h1, h2, ?_⟩
    show BeforeBucket b (s.mem.data LockfreeHashMap.head)
    rw [h.head.2]
    exact beforeBucket_of_and (BitVec.zero_and) hw.1.symm
  | anchor o b bs p n =>
    obtain ⟨⟨hb, -⟩, hp⟩ := hw
    obtain ⟨h1, h2⟩ := hsent _ _ hp
    refine ⟨h1, h2, ?_⟩
    show BeforeBucket b (s.mem.data p)
    rw [hp.2]
    exact beforeBucket_of_and (parent_and hb) (parent_ne hb)
  | data n j =>
    obtain ⟨k, hn, hk⟩ := hw
    obtain ⟨h1, h2⟩ := hsent _ _ hn
    refine ⟨h1, h2, ?_⟩
    show below (s.mem.data n) (dataOf hash j.key)
    rw [hn.2]
    exact .inl hk

omit [DecidableEq ι] in
/-- What a search goes past stands before what it looks for. -/
theorem Inv.advance (h : Inv hash linked s f D) {w : Search K V} (a : ℕ) (ha : linked a)
    (hadv : (w.query hash).advance (s.mem.data a) = true) : w.Before hash (s.mem.data a) := by
  cases w with
  | sentinel o b bs => exact advance_bucket (h.proper a ha) hadv
  | anchor o b bs p n => exact advance_bucket (h.proper a ha) hadv
  | data n j => exact advance_data hadv

omit [LT K] [DecidableLT K] [Inhabited K] in
theorem carries_claim (w : Owner K V) (b b' : Bool) (i i' : ℕ) :
    Carries hash (.claim w b i) (.claim w b' i') := by
  cases w with
  | put key value n a => exact fun n d hn => ⟨hn, fun v hv => hv, nofun⟩
  | _ => exact .of_none rfl

theorem inv_move [IsTrans K (· < ·)] (h : Inv hash linked s f D) {ch : Choice K V}
    {ev : Event (Op K V) (Res V)} (hmv : Move hash t s ch ev (f t) s' l')
    (hch : ∀ a, ch = .alloc a → s.mem.used a = false) (hD : ∀ u, u ≠ t → D u ⊆ D' u)
    (hDt : (∀ o, ev ≠ .call o) → D t ⊆ D' t) (hnow : s'.mem ∈ D' t) :
    Moved hash linked s f D' t s' l' := by
  have hkn := h.knows t
  generalize hft : f t = lt at hmv
  rw [hft] at hkn
  have hgr : Grows linked s.mem s.mem := ⟨fun _ _ => rfl, fun _ _ hm => ⟨hm, rfl⟩⟩
  cases hmv with
  | elsewhere i => exact h.goto hft hD trivial
  | call i o =>
    exact h.goto hft hD (by cases o <;> trivial) (.of_none (by cases o <;> rfl)) (by rfl)
  | claim w second i slots hi hid =>
    cases second with
    | false => exact h.goto hft hD hkn (carries_claim w _ _ _ _)
    | true =>
      refine h.goto hft hD (knows_owner hkn) ?_
      cases w with
      | op o => exact .of_none rfl
      | bucket o b bs => exact .of_none rfl
      | put key value n a => exact fun n d hn => ⟨hn, fun v hv => hv, nofun⟩
  | claimNext w second i slots =>
    exact h.goto hft hD hkn (carries_claim w _ _ _ _)
  | claimNone w second i slots => exact h.goto hft hD trivial
  | destroyed slots a =>
    refine h.goto hft hD (knows_after hkn) (.of_none ?_)
    cases a with
    | result r => rfl
    | bucket o b bs n =>
      cases bs with
      | nil => cases o <;> rfl
      | cons b' bs => rfl
  | destroy i slots m a => exact h.goto hft hD hkn
  | disown i slots m a => exact h.goto hft hD hkn
  | bucketOf i o =>
    refine h.goto hft hD (knows_findBucket h ?_) (.of_none ?_)
    · exact bucketSplitKey_lt_dataSplitKey _ _
    · unfold findBucket
      split <;> rfl
  | find i w f₀ m f' ch hm =>
    obtain ⟨hw, hk⟩ := hkn
    obtain ⟨l, hc⟩ := h.chain
    obtain ⟨hs1, hs2, hs3⟩ := h.start hw
    obtain ⟨hc', -, hkept, hk'⟩ := hm.knows hc hk hs1 hs2 hs3 h.advance (hDt nofun) hnow
    have hw' : w.Ready hash linked { s with mem := m } := hw.mono hkept.grows fun _ ha => ha
    refine .same (by rw [hft]; rfl) (h.keep { s with mem := m } hkept hc' (fun _ _ => rfl) hD ?_
      ⟨hw', hk'⟩) hkept.grows
    rw [hft]
    intro n d hn
    cases w with
    | sentinel o b bs => cases hn
    | anchor o b bs p a => exact ⟨hn, nofun, nofun⟩
    | data n' j => cases j <;> exact ⟨hn, fun v hv => hv, nofun⟩
  | resume i w p c found pred curr =>
    obtain ⟨hw, hk⟩ := hkn
    refine h.goto hft hD ((knows_search h hw hk).mono hgr (fun _ ha => ha) (hDt nofun)) ?_
    intro n d hn
    cases w with
    | sentinel o b bs =>
      exfalso
      simp only [Search.resume, findBucket] at hn
      split at hn
      · split at hn
        · cases hn
        · split at hn <;> cases hn
      · split at hn <;> cases hn
    | anchor o b bs p a => exact ⟨hn, nofun, nofun⟩
    | data n' j =>
      cases j with
      | put key value a =>
        cases found with
        | false => exact ⟨hn, fun v hv => hv, nofun⟩
        | true =>
          cases curr with
          | none => exact ⟨hn, fun v hv => hv, nofun⟩
          | some c => exact ⟨hn, fun v hv => hv, nofun⟩
      | get key => cases found <;> cases curr <;> cases hn
      | erase key => cases found <;> cases curr <;> cases hn
      | contains key => cases hn
  | newSentinel i o b bs p a ha =>
    have hgrow := grows_alloc (s := s) (d := (⟨bucketSplitKey b, none⟩ : Data K))
      (h.unused (hch a rfl))
    refine .same (by rw [hft]; rfl) (h.new (hch a rfl) hD (d := sentinelOf K b) rfl rfl rfl nofun
      nofun ?_)
      hgrow
    have hs : Sentinel linked (s.newSentinel a (bucketSplitKey b)) _ _ :=
      hkn.2.mono hgrow fun _ ha => ha
    exact ⟨⟨hkn.1, hs⟩, trivial⟩
  | newNode i key value n a ha =>
    have hgrow := grows_alloc (s := s) (d := dataOf hash key) (h.unused (hch a rfl))
    refine .same (by rw [hft]; rfl) (h.new (hch a rfl) hD (d := dataOf hash key) rfl rfl rfl ?_
      nofun ?_)
      hgrow
    · exact fun v hv => hv
    · show Leads hash linked (s.newNode a (dataSplitKey (hash key)) key value) n key
      exact Leads.mono hgrow (fun _ ha => ha) hkn
  | setNext i w pred curr =>
    have hDD : ∀ u, D u ⊆ D' u := fun u => by
      by_cases hut : u = t
      · subst hut; exact hDt nofun
      · exact hD u hut
    have hp := h.mine t w.node (w.data hash) (by rw [hft]; rfl)
    exact .same (by rw [hft]; rfl) (h.set_next hft hDD) (grows_setNext hp.unlinked)
  | link i w pred curr hn hm =>
    have hlk : (f t).pc.links w.linked = some w.node := by rw [hft]; cases w <;> rfl
    have heq : (fun x => (f t).pc.links w.linked = some x ∨ linked x) =
        fun x => x = w.node ∨ linked x := by
      funext x; simp [hlk, eq_comm]
    refine ⟨?_, (kept_unlink hkn.2.1.1 hm).grows⟩
    rw [heq]
    exact h.link hft hn hm hD
  | linkFail i w pred curr =>
    cases w with
    | sentinel o b bs n => exact h.goto hft hD hkn.1
    | put key value n a =>
      exact h.goto hft hD ⟨hkn.1, trivial⟩ fun n d hn => ⟨hn, fun v hv => hv, nofun⟩
  | deleteSentinel i o b bs n => exact h.goto hft hD ⟨hkn, trivial⟩
  | storeValue i key value n curr =>
    have hv : ∀ a, ¬ linked a → Function.update s.values curr (s.values n) a = s.values a :=
      fun a ha =>
      Function.update_of_ne (by rintro rfl; exact ha hkn.1.1) _ _
    exact h.goto hft hD trivial (.of_none rfl) rfl rfl rfl rfl rfl hv
  | deleteNode i n => exact h.goto hft hD trivial
  | fetchAdd i => exact h.goto hft hD trivial
  | grow i n hn => exact h.goto hft hD trivial
  | growNot i n hn => exact h.goto hft hD trivial
  | growCount i => exact h.goto hft hD trivial
  | growSize i count hn => exact h.goto hft hD trivial
  | growEnough i count hn => exact h.goto hft hD trivial
  | growCas i count hc => exact h.goto hft hD trivial
  | growCasFail i count => exact h.goto hft hD trivial
  | loadValue i key curr => exact h.goto hft hD trivial
  | loadNext i key pred curr => exact h.goto hft hD hkn
  | mark i key pred curr next hn hm =>
    refine .same (by rw [hft]; rfl) (h.mark hft hn hD) ⟨fun _ _ => rfl, fun a ha ham => ⟨?_, rfl⟩⟩
    by_cases hac : a = curr
    · subst hac; simp
    · simpa [hac] using ham
  | markFail i key pred curr next => exact h.goto hft hD trivial
  | unlink i pred curr next hn hm =>
    obtain ⟨h1, h2, h3, rfl⟩ := hkn
    obtain ⟨l, hc⟩ := h.chain
    obtain ⟨l', hc', -⟩ := unlink_live hc h1 hn hm h3
    have hk := kept_unlink (p := s.mem.next curr) h1 hm
    exact .same (by rw [hft]; rfl) (h.keep { s with mem := { s.mem with
      next := Function.update s.mem.next pred (s.mem.next curr) } } hk ⟨l', hc'⟩ (fun _ _ => rfl) hD
        (.of_none rfl) trivial) hk.grows
  | unlinkFail i pred curr next => exact h.goto hft hD trivial
  | fetchSub i => exact h.goto hft hD trivial
  | reclaim i r sp hz r' freed ch hs =>
    obtain ⟨e1, e2, e3, e4⟩ := free_eq { s.mem with hazard := hz } freed
    exact h.goto hft hD trivial (.of_none rfl) rfl e1 e2 e3 e4
  | reclaimed i => exact h.goto hft hD trivial
  | sweep i r sp hz r' freed ch hs =>
    obtain ⟨e1, e2, e3, e4⟩ := free_eq { s.mem with hazard := hz } freed
    exact h.goto hft hD trivial (.of_none rfl) rfl e1 e2 e3 e4
  | swept i => exact h.goto hft hD trivial
  | ret i r => exact h.goto hft hD trivial
end

/-! ## Runs -/

omit [LT K] in
/-- The node a step links in. -/
def insertedNode (r : Step ι K V) : Option ℕ := (r.pre.loc r.tid).pc.links (r.cfg.loc r.tid).pc

omit [LT K] in
/-- The nodes that some step has linked in, and `head_`. -/
def Inserted (h : List (Step ι K V)) (a : ℕ) : Prop :=
  a = head ∨ ∃ r ∈ h, insertedNode r = some a

omit [LT K] in
/-- The memories of the operation `t` is running. -/
def instants (h : List (Step ι K V)) (t : ι) : Set (Memory ι (Data K)) :=
  {m | ∃ s ∈ during h t, s.mem = m}

omit [LT K] in
/-- Memory is never reused: `new` returns an address that has not held a node. -/
def NoReuse (c : Config ι (Shared ι K V) (Local K V)) (k : Choice K V) : Prop :=
  ∀ a, k = .alloc a → c.shared.mem.used a = false

section
variable [DecidableLT K] [Inhabited K] [DecidableEq ι] {hash : K → Word} {count : Word} {n : ℕ}
  {h : List (Step ι K V)} {c : Config ι (Shared ι K V) (Local K V)} {t : ι} {k : Choice K V}
  {ev : Event (Op K V) (Res V)} {s' : Shared ι K V} {l' : Local K V}

omit [DecidableEq ι] in
theorem inv_initial : Inv hash (Inserted ([] : List (Step ι K V)))
    (initial (ι := ι) (K := K) (V := V) count n).shared (initial (ι := ι) count n).loc
    (instants ([] : List (Step ι K V))) := by
  have hc : MarkedChain below head (Inserted ([] : List (Step ι K V))) [head]
      (initial (ι := ι) (K := K) (V := V) count n).shared.mem.next
      (initial (ι := ι) (K := K) (V := V) count n).shared.mem.marked
      (initial (ι := ι) (K := K) (V := V) count n).shared.mem.data := by
    refine ⟨⟨rfl, rfl⟩, ?_, nofun, ?_, rfl⟩
    · simp [Inserted]
    · simp [Inserted]
  refine ⟨⟨[head], hc⟩, ⟨.inl rfl, rfl⟩, ?_, fun a _ => .inl ⟨0, rfl⟩, fun _ _ _ => rfl,
    nofun, nofun, nofun, fun _ => trivial⟩
  simp [Inserted, initial]

omit [LT K] [DecidableLT K] [Inhabited K] in
theorem inserted_cons (x : ℕ) :
    Inserted (⟨t, ev, c, c.set t s' l'⟩ :: h) x ↔
      (c.loc t).pc.links l'.pc = some x ∨ Inserted h x := by
  simp only [Inserted, insertedNode, List.mem_cons, exists_eq_or_imp, Config.set_loc_self]
  tauto

/-- One step of a run. -/
theorem inv_step [IsTrans K (· < ·)] (hI : Inv hash (Inserted h) c.shared c.loc (instants h))
    (hmv : Move hash t c.shared k ev (c.loc t) s' l') (hok : NoReuse c k) :
    Inv hash (Inserted (⟨t, ev, c, c.set t s' l'⟩ :: h)) s' (c.set t s' l').loc
        (instants (⟨t, ev, c, c.set t s' l'⟩ :: h)) ∧
      Grows (Inserted h) c.shared.mem s'.mem := by
  have hD : ∀ u, u ≠ t → instants h u ⊆ instants (⟨t, ev, c, c.set t s' l'⟩ :: h) u := by
    rintro u hu _ ⟨S, hS, rfl⟩
    exact ⟨S, mem_during_old (fun e => absurd e hu.symm) hS, rfl⟩
  have hDt : (∀ o, ev ≠ .call o) →
      instants h t ⊆ instants (⟨t, ev, c, c.set t s' l'⟩ :: h) t := by
    rintro hev _ ⟨S, hS, rfl⟩
    exact ⟨S, mem_during_old (fun _ => hev) hS, rfl⟩
  obtain ⟨hI', hg⟩ := inv_move hI hmv hok hD hDt
    ⟨s', mem_during_now ⟨t, ev, c, c.set t s' l'⟩ h, rfl⟩
  refine ⟨?_, hg⟩
  have hins : Inserted (⟨t, ev, c, c.set t s' l'⟩ :: h) =
      fun x => (c.loc t).pc.links l'.pc = some x ∨ Inserted h x := by
    funext x
    exact propext (inserted_cons x)
  rw [hins]
  exact hI'
end

end Bonostl.LockfreeHashMap
