import Bonostl.LockfreeHashMap.Frames

/-!
# The sentinels of the ancestors

A bucket's sentinel is linked in behind that of its parent, so a list with the sentinel of a bucket
has the sentinels of all its ancestors (`Rooted.ancestors`), in whatever order they were created.

`Rooted` is this as an invariant of the runs of one thread. It asks nothing of `<` and of the hash
function: the thread finds the links as it has read them and the nodes in place, wherever
its searches stop. So no compare-exchange of the thread fails.
-/

namespace Bonostl.LockfreeHashMap

open Interleaving HazardPtr HarrisMichael Chain

variable {ι K V : Type}

/-! ## Parents in a list -/

/-- Node `n` of the list is the sentinel of `b`. -/
def SentinelIn (m : Memory ι (Data K)) (l : List ℕ) (b : Word) (n : ℕ) : Prop :=
  n ∈ l ∧ m.data n = sentinelOf K b

/-- A list with the sentinel of a bucket has that of its parent. -/
def Parents (m : Memory ι (Data K)) (l : List ℕ) : Prop :=
  ∀ b, b ≠ 0 → ∀ n, SentinelIn m l b n → ∃ p, SentinelIn m l (parent b) p

variable {m m' : Memory ι (Data K)} {l l' : List ℕ} {b : Word} {n : ℕ}

theorem SentinelIn.mono (h : SentinelIn m l b n) (hl : ∀ a ∈ l, a ∈ l')
    (hd : ∀ a ∈ l, m'.data a = m.data a) : SentinelIn m' l' b n :=
  ⟨hl n h.1, (hd n h.1).trans h.2⟩

/-- A split key leaves out the bits from 32 on. -/
theorem sentinelOf_parent (hb : 2 ^ 32 ≤ b.toNat) : sentinelOf K (parent b) = sentinelOf K b := by
  have hb0 : b ≠ 0 := by
    rintro rfl
    exact absurd hb (by decide)
  have hpos : b.toNat ≠ 0 := by simpa [BitVec.toNat_eq] using hb0
  have hlog : 32 ≤ b.toNat.log2 := (Nat.le_log2 hpos).mpr hb
  have hlow : (parent b).setWidth 32 = b.setWidth 32 := by
    refine BitVec.eq_of_getLsbD_eq fun i hi => ?_
    have hne : i ≠ b.toNat.log2 := by omega
    simp [parent_getLsbD hb0, hne]
  rw [sentinelOf, sentinelOf, bucketSplitKey, bucketSplitKey, hlow]

theorem sentinelOf_inj {b b' : Word} (hb : b.toNat < 2 ^ 32) (hb' : b'.toNat < 2 ^ 32)
    (h : sentinelOf K b = sentinelOf K b') : b = b' := by
  have hlow := congrArg BitVec.toNat (bucketSplitKey_inj (congrArg Data.splitKey h))
  rw [BitVec.toNat_setWidth, BitVec.toNat_setWidth, Nat.mod_eq_of_lt hb, Nat.mod_eq_of_lt hb']
    at hlow
  exact BitVec.eq_of_toNat_eq hlow

/-- The sentinel of a bucket is linked in when that of the parent is there. -/
theorem Parents.insert {b₀ : Word} {p₀ : ℕ} (h : Parents m l) (hp : SentinelIn m l (parent b₀) p₀)
    (hn : m.data n = sentinelOf K b₀) (hl : ∀ a, a ∈ l' ↔ a = n ∨ a ∈ l) : Parents m l' := by
  have hsub : ∀ {b a}, SentinelIn m l b a → SentinelIn m l' b a := fun ha =>
    ha.mono (fun a hal => (hl a).mpr (.inr hal)) fun _ _ => rfl
  rintro b hb a ⟨ha, hd⟩
  rcases (hl a).mp ha with rfl | hal
  · have he : sentinelOf K b₀ = sentinelOf K b := hn.symm.trans hd
    rcases Nat.lt_or_ge b.toNat (2 ^ 32) with hsmall | hbig
    · rcases Nat.lt_or_ge b₀.toNat (2 ^ 32) with hsmall₀ | hbig₀
      · obtain rfl := sentinelOf_inj hsmall₀ hsmall he
        exact ⟨p₀, hsub hp⟩
      · -- the sentinel of the parent is one of `b`, too
        have hsame : SentinelIn m l b p₀ := ⟨hp.1, hp.2.trans ((sentinelOf_parent hbig₀).trans he)⟩
        obtain ⟨p, hp⟩ := h b hb p₀ hsame
        exact ⟨p, hsub hp⟩
    · exact ⟨a, ha, hd.trans (sentinelOf_parent hbig).symm⟩
  · obtain ⟨p, hp⟩ := h b hb a ⟨hal, hd⟩
    exact ⟨p, hsub hp⟩

/-- A list with other nodes than sentinels has the same parents. -/
theorem Parents.congr (h : Parents m l)
    (hl : ∀ b a, SentinelIn m' l' b a ↔ SentinelIn m l b a) : Parents m' l' := by
  intro b hb a ha
  obtain ⟨p, hp⟩ := h b hb a ((hl b a).mp ha)
  exact ⟨p, (hl _ p).mpr hp⟩

theorem Parents.ancestors (h : Parents m l) (hn : SentinelIn m l b n) : ∀ k,
    ∃ p, SentinelIn m l (parent^[k] b) p
  | 0 => ⟨n, hn⟩
  | k + 1 => by
    obtain ⟨p, hp⟩ := h.ancestors hn k
    rw [Function.iterate_succ_apply']
    by_cases hb : parent^[k] b = 0
    · rw [hb] at hp ⊢
      exact ⟨p, hp⟩
    · exact h _ hb p hp

/-! ## What the thread knows -/

section
variable (m l)

/-- Where a search starts. -/
def Search.Starts : Search K V → Prop
  | .sentinel _ _ _ => True
  | .anchor _ b _ p _ => SentinelIn m l (parent b) p
  | .data n _ => n ∈ l

/-- The parent of a sentinel that is to be linked in. -/
def Link.Anchored : Link K V → Prop
  | .sentinel _ b _ _ => ∃ p, SentinelIn m l (parent b) p
  | .put _ _ _ _ => True

/-- What the thread knows at each place. -/
def Pc.Placed [LT K] [DecidableLT K] [Inhabited K] (hash : K → Word) : Pc K V → Prop
  | .claim (.put _ _ n _) _ _ | .newNode _ _ n => n ∈ l
  | .find w f => w.Starts m l ∧ f.place.Tracks m l (w.query hash) fun _ => True
  | .newSentinel _ b _ p => SentinelIn m l (parent b) p
  | .setNext w pred curr => w.Anchored m l ∧ pred ∈ l ∧ m.next pred = curr
  | .link w pred curr => w.Anchored m l ∧ pred ∈ l ∧ m.next pred = curr ∧ m.next w.node = curr
  | .deleteSentinel _ _ _ _ => False
  | .loadNext _ pred c => pred ∈ l ∧ m.next pred = some c ∧ (m.data c).key ≠ none
  | .mark _ pred c next | .unlink pred c next =>
    pred ∈ l ∧ m.next pred = some c ∧ (m.data c).key ≠ none ∧ m.next c = next
  | .destroy _ (.bucket _ b _ n) | .disown _ (.bucket _ b _ n) => SentinelIn m l b n
  | _ => True
end

/-- **The invariant** of the list of a map that one thread uses. -/
structure Rooted [LT K] [DecidableLT K] [Inhabited K] (hash : K → Word) (m : Memory ι (Data K))
    (pc : Pc K V) (l : List ℕ) : Prop where
  chain : Linked m.next (some head) l
  first : m.data head = sentinelOf K 0
  parents : Parents m l
  unmarked : ∀ a ∈ l, m.marked a = true → ∃ pred next, pc = .unlink pred a next
  intact : Intact m (l ++ (pc.owned hash ++ retired m.hazard pc.reclaiming))
  mine : ∀ n d, pc.newNode? hash = some (n, d) → m.data n = d ∧ m.marked n = false
  place : pc.Placed m l hash

section
variable [LT K] [DecidableLT K] [Inhabited K] {hash : K → Word} {pc pc' : Pc K V}

theorem Rooted.head_mem (h : Rooted hash m pc l) : head ∈ l :=
  List.mem_of_head? h.chain.head_eq.symm

theorem Rooted.closed (h : Rooted hash m pc l) {a c : ℕ} (ha : a ∈ l) (hc : m.next a = some c) :
    c ∈ l := by
  obtain ⟨l₁, l₂, rfl, hsuf⟩ := h.chain.split ha
  rw [hc] at hsuf
  have hcl : c ∈ l₂ := List.mem_of_head? hsuf.head_eq.symm
  simp [hcl]

theorem Rooted.still (h : Rooted hash m pc l) (hu : ∀ p a n, pc ≠ .unlink p a n) : Still m l := by
  refine ⟨fun a ha c hc => h.closed ha hc, fun a ha => ?_⟩
  by_contra hm
  obtain ⟨pred, next, he⟩ := h.unmarked a ha (by simpa using hm)
  exact hu pred a next he

/-- Nodes of the list are not the thread's own. -/
theorem Rooted.apart (h : Rooted hash m pc l) {n : ℕ} (hn : n ∈ pc.owned hash) : n ∉ l := fun hl =>
  (List.nodup_append.mp h.intact.1).2.2 n hl n (List.mem_append_left _ hn) rfl

theorem Rooted.alive (h : Rooted hash m pc l) {a : ℕ} (ha : a ∈ l) : m.alive a = true :=
  h.intact.2 a (List.mem_append_left _ ha)

/-! ## Steps that leave the list alone -/

omit [LT K] [DecidableLT K] [Inhabited K] in
theorem Parents.frame (h : Parents m l) (hd : ∀ a ∈ l, m'.data a = m.data a) : Parents m' l :=
  h.congr fun b a => and_congr_right fun ha => by rw [hd a ha]

/-- A step that writes to no node of the list. -/
theorem Rooted.frame (h : Rooted hash m pc l) (hn : ∀ a ∈ l, m'.next a = m.next a)
    (hd : ∀ a ∈ l, m'.data a = m.data a) (hm : ∀ a ∈ l, m'.marked a = m.marked a)
    (hint : Intact m' (l ++ (pc'.owned hash ++ retired m'.hazard pc'.reclaiming)))
    (hmine : ∀ n d, pc'.newNode? hash = some (n, d) → m'.data n = d ∧ m'.marked n = false)
    (hpl : pc'.Placed m' l hash) (hu : ∀ p a n, pc ≠ .unlink p a n) : Rooted hash m' pc' l := by
  have hun := (h.still hu).unmarked
  refine ⟨h.chain.congr hn, (hd _ h.head_mem).trans h.first, h.parents.frame hd, fun a ha hma => ?_,
    hint, hmine, hpl⟩
  rw [hm a ha, hun a ha] at hma
  cases hma

/-- A step that changes nothing but slots. -/
theorem Rooted.slots (h : Rooted hash m pc l) (z : HazardPtr.Shared ι)
    (hpl : pc'.Placed { m with hazard := z } l hash)
    (hnew : ∀ n d, pc'.newNode? hash = some (n, d) → pc.newNode? hash = some (n, d))
    (hw : (pc'.owned hash).Sublist (pc.owned hash))
    (hr : retired z pc'.reclaiming = retired m.hazard pc.reclaiming)
    (hu : ∀ p a n, pc ≠ .unlink p a n) :
    Rooted hash { m with hazard := z } pc' l := by
  refine h.frame (fun _ _ => rfl) (fun _ _ => rfl) (fun _ _ => rfl) ?_ (fun n d hn => ?_) hpl hu
  · rw [show ({ m with hazard := z } : Memory ι (Data K)).hazard = z from rfl, hr]
    exact Intact.sublist (m := { m with hazard := z }) h.intact
      ((List.Sublist.refl l).append (hw.append (.refl _)))
  · exact h.mine n d (hnew n d hn)

/-- A step that changes nothing but the thread's place. -/
theorem Rooted.goto (h : Rooted hash m pc l) (hpl : pc'.Placed m l hash)
    (hnew : ∀ n d, pc'.newNode? hash = some (n, d) → pc.newNode? hash = some (n, d))
    (hw : (pc'.owned hash).Sublist (pc.owned hash))
    (hr : retired m.hazard pc'.reclaiming = retired m.hazard pc.reclaiming)
    (hu : ∀ p a n, pc ≠ .unlink p a n) : Rooted hash m pc' l :=
  h.slots m.hazard hpl hnew hw hr hu

/-! ## Steps that write to nodes -/

/-- `new node` -/
theorem Rooted.new (h : Rooted hash m pc l) {a : ℕ} {d : Data K} (ha : m.alive a = false)
    (hpl : a ∉ l → pc'.Placed (m.alloc a d) l hash) (hnew : pc'.newNode? hash = some (a, d))
    (hown : pc'.owned hash = [a]) (hr : pc'.reclaiming = .finished) (hold : pc.owned hash = [])
    (hr' : pc.reclaiming = .finished) (hu : ∀ p a n, pc ≠ .unlink p a n) :
    Rooted hash (m.alloc a d) pc' l := by
  have hal : a ∉ l := fun hl => absurd (h.alive hl) (by simp [ha])
  have hne : ∀ b ∈ l, b ≠ a := by
    rintro b hb rfl
    exact hal hb
  refine h.frame (fun b hb => Function.update_of_ne (hne b hb) _ _)
    (fun b hb => Function.update_of_ne (hne b hb) _ _)
    (fun b hb => Function.update_of_ne (hne b hb) _ _) ?_ (fun n e hn => ?_) (hpl hal) hu
  · have hint := h.intact
    rw [hold, hr'] at hint
    rw [hown, hr]
    exact (Intact.alloc hint ha d).of_perm List.perm_middle
  · obtain ⟨rfl, rfl⟩ := Prod.mk.inj (Option.some.inj (hnew.symm.trans hn))
    exact ⟨Function.update_self .., Function.update_self ..⟩

/-- `new_node->next.store(curr)`, `sentinel->next.store(curr)` -/
theorem Rooted.set_next {w : Link K V} {pred : ℕ} {curr : Option ℕ}
    (h : Rooted hash m (.setNext w pred curr) l) :
    Rooted hash (m.setNext w.node curr) (.link w pred curr) l := by
  have hnl : w.node ∉ l := h.apart (List.mem_singleton.mpr rfl)
  have hne : ∀ b ∈ l, b ≠ w.node := by
    rintro b hb rfl
    exact hnl hb
  obtain ⟨hw, hp, hpn⟩ := h.place
  refine h.frame (fun b hb => Function.update_of_ne (hne b hb) _ _) (fun _ _ => rfl)
    (fun b hb => Function.update_of_ne (hne b hb) _ _) h.intact (fun n d hn => ?_) ?_ nofun
  · obtain ⟨rfl, rfl⟩ :=
      Prod.mk.inj (Option.some.inj (hn : some (w.node, w.data hash) = some (n, d)))
    exact ⟨(h.mine w.node _ rfl).1, Function.update_self ..⟩
  · have hwa : w.Anchored (m.setNext w.node curr) l := by
      cases w with
      | sentinel => exact hw
      | put => trivial
    exact ⟨hwa, hp, (Function.update_of_ne (hne pred hp) _ _).trans hpn, Function.update_self ..⟩

/-- The compare-exchange that links a node in. -/
theorem Rooted.link {w : Link K V} {pred : ℕ} {curr : Option ℕ}
    (h : Rooted hash m (.link w pred curr) l) :
    ∃ l', Rooted hash { m with next := Function.update m.next pred (some w.node) } w.linked l' := by
  have hnl : w.node ∉ l := h.apart (List.mem_singleton.mpr rfl)
  have hun := (h.still (by rintro _ _ _ ⟨⟩)).unmarked
  obtain ⟨hw, hp, hpn, hwn⟩ := h.place
  obtain ⟨hdata, hmark⟩ := h.mine w.node (w.data hash) rfl
  obtain ⟨l₁, l₂, rfl, -⟩ := h.chain.split hp
  have hperm : (l₁ ++ pred :: w.node :: l₂).Perm (w.node :: (l₁ ++ pred :: l₂)) := by
    have hmid : ((l₁ ++ [pred]) ++ w.node :: l₂).Perm (w.node :: ((l₁ ++ [pred]) ++ l₂)) :=
      List.perm_middle
    simpa using hmid
  have hmem : ∀ a, a ∈ l₁ ++ pred :: w.node :: l₂ ↔ a = w.node ∨ a ∈ l₁ ++ pred :: l₂ := fun a =>
    hperm.mem_iff.trans List.mem_cons
  have hint : Intact m ((l₁ ++ pred :: w.node :: l₂) ++ ([] ++ retired m.hazard .finished)) :=
    h.intact.of_perm ((hperm.append_right _).trans List.perm_middle.symm)
  have hmarks : ∀ a ∈ l₁ ++ pred :: w.node :: l₂, m.marked a = false := fun a ha =>
    ((hmem a).mp ha).elim (fun e => e ▸ hmark) (hun a)
  refine ⟨l₁ ++ pred :: w.node :: l₂, h.chain.insert hnl (hwn.trans hpn.symm), h.first, ?_,
    fun a ha hma => absurd hma (by simp [hmarks a ha]), ?_, ?_, ?_⟩
  · cases w with
    | sentinel o b bs n =>
      obtain ⟨p, hp⟩ := hw
      exact h.parents.insert hp hdata hmem
    | put key value start n =>
      -- the new node is no sentinel
      refine h.parents.congr fun b a => ⟨fun hb => ⟨((hmem a).mp hb.1).resolve_left ?_, hb.2⟩,
        fun hb => ⟨(hmem a).mpr (.inr hb.1), hb.2⟩⟩
      rintro rfl
      exact absurd (congrArg Data.key (hdata.symm.trans hb.2))
        (by simp [Link.data, dataOf, sentinelOf])
  · cases w <;> exact hint
  · cases w <;> (intro _ _ e; cases e)
  · cases w with
    | sentinel o b bs n => exact ⟨(hmem n).mpr (.inl rfl), hdata⟩
    | put => trivial

/-- `delete new_node` -/
theorem Rooted.delete_node {n : ℕ} (h : Rooted hash m (.deleteNode n : Pc K V) l) :
    Rooted hash (m.free (some n)) (.destroy 2 (.result (.bool false)) : Pc K V) l := by
  refine h.frame (fun _ _ => rfl) (fun _ _ => rfl) (fun _ _ => rfl)
    (Intact.free (some n) (h.intact.of_perm ?_)) nofun trivial nofun
  show (n :: (l ++ retired m.hazard .finished)).Perm (l ++ n :: retired m.hazard .finished)
  exact List.perm_middle.symm

/-- The compare-exchange that marks a node. -/
theorem Rooted.mark {key : K} {pred c : ℕ} {next : Option ℕ}
    (h : Rooted hash m (.mark key pred c next : Pc K V) l) :
    Rooted hash { m with marked := Function.update m.marked c true }
      (.unlink pred c next : Pc K V) l := by
  have hun := (h.still nofun).unmarked
  refine ⟨h.chain, h.first, h.parents, fun a ha hma => ?_, h.intact, nofun, h.place⟩
  by_cases hac : a = c
  · exact ⟨pred, next, by rw [hac]⟩
  · have hma' : Function.update m.marked c true a = true := hma
    rw [Function.update_of_ne hac, hun a ha] at hma'
    cases hma'

/-- The compare-exchange that unlinks the marked node. -/
theorem Rooted.unlink {pred c : ℕ} {next : Option ℕ}
    (h : Rooted hash m (.unlink pred c next : Pc K V) l) :
    ∃ l', Rooted hash { m with next := Function.update m.next pred next }
      (.reclaim (.make c) : Pc K V) l' := by
  obtain ⟨hp, hpn, hkey, rfl⟩ := h.place
  obtain ⟨l₁, l₂, rfl, hsuf⟩ := h.chain.split hp
  rw [hpn] at hsuf
  obtain ⟨l₂, rfl⟩ : ∃ l₃, l₂ = c :: l₃ := by
    cases l₂ with
    | nil => cases hsuf
    | cons a l₃ => exact ⟨l₃, by rw [Option.some.inj hsuf.1]⟩
  have hperm : (l₁ ++ pred :: c :: l₂).Perm (c :: (l₁ ++ pred :: l₂)) := by
    have hmid : ((l₁ ++ [pred]) ++ c :: l₂).Perm (c :: ((l₁ ++ [pred]) ++ l₂)) := List.perm_middle
    simpa using hmid
  have hcn : c ∉ l₁ ++ pred :: l₂ := (List.nodup_cons.mp (hperm.nodup h.chain.nodup)).1
  have hsub : ∀ a ∈ l₁ ++ pred :: l₂, a ∈ l₁ ++ pred :: c :: l₂ := fun a ha =>
    hperm.symm.subset (List.mem_cons_of_mem c ha)
  refine ⟨l₁ ++ pred :: l₂, h.chain.unlink, h.first, ?_, fun a ha hma => ?_, ?_, nofun, trivial⟩
  · refine h.parents.congr fun b a => ⟨fun ⟨ha, hd⟩ => ⟨hsub a ha, hd⟩, fun ⟨ha, hd⟩ => ⟨?_, hd⟩⟩
    refine (List.mem_cons.mp (hperm.subset ha)).resolve_left ?_
    rintro rfl
    exact hkey (congrArg Data.key hd)
  · obtain ⟨p, n, he⟩ := h.unmarked a (hsub a ha) hma
    cases he
    exact absurd ha hcn
  · have hint : Intact m ((l₁ ++ pred :: c :: l₂) ++ ([] ++ retired m.hazard .finished)) := h.intact
    exact hint.of_perm (List.perm_middle.trans (hperm.symm.append_right _))

/-- A step of `reclaim_later`. -/
theorem Rooted.reclaims {r r' : Reclaim} {sp : Bool} {z : HazardPtr.Shared ι} {freed : Option ℕ}
    (h : Rooted hash m pc l) (hs : r.step sp m.hazard = some (z, r', freed))
    (hpl : pc'.Placed (Memory.free { m with hazard := z } freed) l hash)
    (hr : pc.reclaiming = r) (hr' : pc'.reclaiming = r') (hown : pc.owned hash = [])
    (hown' : pc'.owned hash = []) (hnew : pc'.newNode? hash = none)
    (hu : ∀ p a n, pc ≠ .unlink p a n) :
    Rooted hash (Memory.free { m with hazard := z } freed) pc' l := by
  obtain ⟨e1, e2, e3, -⟩ := free_eq { m with hazard := z } freed
  have hz : (Memory.free { m with hazard := z } freed).hazard = z := by cases freed <;> rfl
  refine h.frame (fun a _ => congrFun e1 a) (fun a _ => congrFun e3 a) (fun a _ => congrFun e2 a) ?_
    (fun n d hn => ?_) hpl hu
  · have hint := h.intact
    rw [hown, hr] at hint
    rw [hown', hr', hz]
    refine Intact.free freed (Intact.of_perm (m := { m with hazard := z }) hint ?_)
    exact List.perm_append_comm_assoc _ _ _ |>.trans ((Reclaim.step_retired hs).append_left l)
  · rw [hnew] at hn
    cases hn

/-! ## Every step -/

omit [LT K] [DecidableLT K] [Inhabited K] in
theorem SentinelIn.setHazard {z : HazardPtr.Shared ι} (h : SentinelIn m l b n) :
    SentinelIn { m with hazard := z } l b n := h

/-- Slots are no part of what is known. -/
theorem Pc.Placed.setHazard {z : HazardPtr.Shared ι} (h : pc.Placed m l hash) :
    pc.Placed { m with hazard := z } l hash := by
  cases pc with
  | find w f => exact ⟨by cases w <;> exact h.1, h.2.congr rfl rfl⟩
  | setNext w pred curr | link w pred curr => exact ⟨by cases w <;> exact h.1, h.2⟩
  | claim w second i => cases w <;> exact h
  | destroy k a | disown k a => cases a <;> exact h
  | _ => exact h

variable {s s' : Shared ι K V} {lc lc' : Local K V} {t : ι} {k : Choice K V}
  {ev : Event (Op K V) (Res V)} {P : Op K V → Word → Prop} {o : Op K V} {bs : List Word}

/-- `find_bucket` is called. -/
theorem Rooted.at_findBucket (h : Rooted hash m pc l) : (findBucket o b bs).Placed m l hash := by
  unfold findBucket
  split
  · exact ⟨h.head_mem, h.first⟩
  · trivial

theorem Rooted.goto_findBucket (h : Rooted hash m pc l) (hr : pc.reclaiming = .finished)
    (hu : ∀ p a n, pc ≠ .unlink p a n) : Rooted hash m (findBucket o b bs) l := by
  have hpl : (findBucket o b bs).Placed m l hash := h.at_findBucket
  unfold findBucket at hpl ⊢
  split
  · rename_i hb
    rw [if_pos hb] at hpl
    exact h.goto hpl nofun (List.nil_sublist _) (by rw [hr]; rfl) hu
  · rename_i hb
    rw [if_neg hb] at hpl
    exact h.goto hpl nofun (List.nil_sublist _) (by rw [hr]; rfl) hu

/-- The second `hp_owner` has its slot. -/
theorem Rooted.claimed {w : Owner K V} {second : Bool} {i : ℕ} {slots : List ℕ}
    (h : Rooted hash m (.claim w second i) l) (z : HazardPtr.Shared ι)
    (hz : retired z .finished = retired m.hazard .finished) :
    Rooted hash { m with hazard := z } (w.resume slots) l := by
  have hpl := h.place
  cases w with
  | op o => exact h.slots z trivial nofun (.refl _) hz nofun
  | bucket o b bs => exact h.slots z ⟨trivial, trivial⟩ nofun (.refl _) hz nofun
  | put key value n a => exact h.slots z ⟨hpl, trivial⟩ (fun _ _ e => e) (.refl _) hz nofun

/-- The destructors of the `hp_owner`s are done. -/
theorem Rooted.destroyed {a : After K V} {slots : List ℕ} (h : Rooted hash m (.destroy 0 a) l)
    (hst : (Pc.destroy 0 a).Framed P) : Rooted hash m (a.resume slots) l := by
  cases a with
  | result r => exact h.goto trivial nofun (.refl _) rfl nofun
  | bucket o b bs n =>
    have hn : SentinelIn m l b n := h.place
    cases bs with
    | nil =>
      cases o with
      | put key value => exact h.goto (show n ∈ l from hn.1) nofun (.refl _) rfl nofun
      | _ => exact h.goto ⟨hn.1, trivial⟩ nofun (.refl _) rfl nofun
    | cons b' bs =>
      obtain ⟨-, -, rfl, -⟩ := hst
      exact h.goto hn nofun (.refl _) rfl nofun

/-- A step of a search. -/
theorem Rooted.find {w : Search K V} {f f' : Find} (h : Rooted hash m (.find w f) l)
    (hm : Find.Move (w.query hash) m f m' f') : Rooted hash m' (.find w f') l := by
  obtain ⟨hw, hk⟩ := h.place
  have hstart : Stands (· ∈ l) m (fun _ => True) (w.query hash).start := by
    refine ⟨?_, trivial⟩
    cases w with
    | sentinel => exact h.head_mem
    | anchor => exact hw.1
    | data => exact hw
  obtain ⟨⟨p, rfl⟩, hk'⟩ := hm.tracks (h.still nofun) hk hstart fun _ _ _ => trivial
  have hpl : (Pc.find w f').Placed m l hash := ⟨hw, hk'.congr rfl rfl⟩
  refine h.slots { m.hazard with pointer := p } hpl.setHazard (fun n d hn => ?_) ?_ rfl nofun
  · cases w with
    | sentinel => cases hn
    | anchor => exact hn
    | data x j => cases j <;> exact hn
  · cases w with
    | data x j => cases j <;> exact .refl _
    | _ => exact .refl _

/-- What follows a search. -/
theorem Rooted.resume {w : Search K V} {p c pred : ℕ} {found : Bool} {curr : Option ℕ}
    (h : Rooted hash s.mem (.find w ⟨p, c, .result found pred curr⟩) l) :
    Rooted hash s.mem (w.resume s found pred curr) l := by
  obtain ⟨hw, ⟨hp, -⟩, hpn, hnone, hc⟩ := h.place
  cases w with
  | sentinel o b bs =>
    cases curr with
    | none => exact h.goto_findBucket rfl (by rintro _ _ _ ⟨⟩)
    | some c =>
      simp only [Search.resume]
      split
      · rename_i hs
        have hs : (s.mem.data c).splitKey = bucketSplitKey b ∧ (s.mem.data c).key = none := by
          simpa [isSentinel] using hs
        have hn : SentinelIn s.mem l b c := by
          refine ⟨h.closed hp hpn, ?_⟩
          rw [sentinelOf, ← hs.1, ← hs.2]
        exact h.goto hn (by rintro _ _ ⟨⟩) (.refl _) rfl (by rintro _ _ _ ⟨⟩)
      · exact h.goto_findBucket rfl (by rintro _ _ _ ⟨⟩)
  | anchor o b bs q n =>
    exact h.goto ⟨⟨q, hw⟩, hp, hpn⟩ (fun _ _ e => e) (.refl _) rfl (by rintro _ _ _ ⟨⟩)
  | data n j =>
    cases j with
    | put key value a =>
      cases found with
      | false =>
        cases curr <;>
          exact h.goto ⟨trivial, hp, hpn⟩ (fun _ _ e => e) (.refl _) rfl (by rintro _ _ _ ⟨⟩)
      | true =>
        cases curr with
        | none =>
          exact h.goto ⟨trivial, hp, hpn⟩ (fun _ _ e => e) (.refl _) rfl (by rintro _ _ _ ⟨⟩)
        | some c => exact h.goto trivial (fun _ _ e => e) (.refl _) rfl (by rintro _ _ _ ⟨⟩)
    | erase key =>
      cases found with
      | false =>
        cases curr <;>
          exact h.goto trivial (fun _ _ e => by cases e) (.refl _) rfl (by rintro _ _ _ ⟨⟩)
      | true =>
        cases curr with
        | none => exact h.goto trivial (by rintro _ _ ⟨⟩) (.refl _) rfl (by rintro _ _ _ ⟨⟩)
        | some c =>
          -- what `equals` has found holds a key
          have he := (hc c rfl).2
          refine h.goto ⟨hp, hpn, fun hkey => ?_⟩ (by rintro _ _ ⟨⟩) (.refl _) rfl
            (by rintro _ _ _ ⟨⟩)
          simp [Search.query, findFrom, equals, hkey] at he
    | get key =>
      cases found <;> cases curr <;>
        exact h.goto trivial (fun _ _ e => by cases e) (.refl _) rfl (by rintro _ _ _ ⟨⟩)
    | contains key => exact h.goto trivial (by rintro _ _ ⟨⟩) (.refl _) rfl (by rintro _ _ _ ⟨⟩)

/-- **Every step of the thread** leads on. -/
theorem Rooted.step (h : Rooted hash s.mem lc.pc l) (hst : lc.pc.Framed P)
    (hs : LockfreeHashMap.step hash t k s lc = some (ev, s', lc')) :
    ∃ l', Rooted hash s'.mem lc'.pc l' := by
  cases step_move hash hs with
  | elsewhere i => exact ⟨l, h.goto trivial (by rintro _ _ ⟨⟩) (.refl _) rfl (by rintro _ _ _ ⟨⟩)⟩
  | call i o => cases o <;> exact ⟨l, h.goto trivial (fun _ _ e => by cases e) (.refl _) rfl
    (by rintro _ _ _ ⟨⟩)⟩
  | claim w second i slots =>
    cases second with
    | false =>
      have hpl : (Pc.claim w true 0).Placed s.mem l hash := by cases w <;> exact h.place
      refine ⟨l, h.slots _ hpl.setHazard (fun n d hn => ?_) ?_ rfl (by rintro _ _ _ ⟨⟩)⟩
      · cases w <;> exact hn
      · cases w <;> exact .refl _
    | true => exact ⟨l, h.claimed _ rfl⟩
  | claimNext w second i slots =>
    have hpl : (Pc.claim w second (i + 1)).Placed s.mem l hash := by cases w <;> exact h.place
    refine ⟨l, h.goto hpl (fun n d hn => ?_) ?_ rfl (by rintro _ _ _ ⟨⟩)⟩
    · cases w <;> exact hn
    · cases w <;> exact .refl _
  | claimNone w second i slots =>
    exact ⟨l, h.goto trivial (by rintro _ _ ⟨⟩) (List.nil_sublist _) rfl
    (by rintro _ _ _ ⟨⟩)⟩
  | destroyed slots a => exact ⟨l, h.destroyed hst⟩
  | destroy i slots n a =>
    have hpl : (Pc.disown n a).Placed s.mem l hash := by cases a <;> exact h.place
    cases a <;> exact ⟨l, h.slots _ hpl.setHazard (fun _ _ e => by cases e) (.refl _) rfl
      (by rintro _ _ _ ⟨⟩)⟩
  | disown i slots n a =>
    have hpl : (Pc.destroy n a).Placed s.mem l hash := by cases a <;> exact h.place
    cases a <;> exact ⟨l, h.slots _ hpl.setHazard (fun _ _ e => by cases e) (.refl _) rfl
      (by rintro _ _ _ ⟨⟩)⟩
  | bucketOf i o => exact ⟨l, h.goto_findBucket rfl (by rintro _ _ _ ⟨⟩)⟩
  | find i w f m' f' ch hf => exact ⟨l, h.find hf⟩
  | resume i w p c found pred curr => exact ⟨l, h.resume⟩
  | newSentinel i o b bs p a ha =>
    refine ⟨l, h.new ha (d := sentinelOf K b) (fun hal => ⟨?_, trivial⟩) rfl rfl rfl rfl rfl
      (by rintro _ _ _ ⟨⟩)⟩
    exact SentinelIn.mono h.place (fun _ hb => hb) fun c hc =>
      Function.update_of_ne (by rintro rfl; exact hal hc) _ _
  | newNode i key value n a ha =>
    exact ⟨l, h.new ha (d := dataOf hash key) (fun _ => h.place) rfl rfl rfl rfl rfl
      (by rintro _ _ _ ⟨⟩)⟩
  | setNext i w pred curr => exact ⟨l, h.set_next⟩
  | link i w pred curr => exact h.link
  | linkFail i w pred curr =>
    -- nobody else has changed the link
    obtain ⟨-, hp, hpn, -⟩ := h.place
    have hum := (h.still (by rintro _ _ _ ⟨⟩)).unmarked pred hp
    simp only [LockfreeHashMap.step, Memory.cas, hpn, hum] at hs
    cases w <;> simp [Link.linked, Link.failed, search] at hs
  | deleteSentinel => exact h.place.elim
  | storeValue i key value n curr => exact ⟨l, h.goto trivial (by rintro _ _ ⟨⟩) (.refl _) rfl
    (by rintro _ _ _ ⟨⟩)⟩
  | deleteNode i n => exact ⟨l, h.delete_node⟩
  | loadNext i key pred curr =>
    obtain ⟨hp, hpn, hkey⟩ := h.place
    exact ⟨l, h.goto ⟨hp, hpn, hkey, rfl⟩ (by rintro _ _ ⟨⟩) (.refl _) rfl (by rintro _ _ _ ⟨⟩)⟩
  | mark i key pred curr next => exact ⟨l, h.mark⟩
  | markFail i key pred curr next =>
    obtain ⟨hp, hpn, -, hcn⟩ := h.place
    have hum := (h.still (by rintro _ _ _ ⟨⟩)).unmarked curr (h.closed hp hpn)
    simp [LockfreeHashMap.step, Memory.casMark, hcn, hum] at hs
  | unlink i pred curr next => exact h.unlink
  | unlinkFail i pred curr next =>
    obtain ⟨hp, hpn, -⟩ := h.place
    have hum : s.mem.marked pred = false := by
      by_contra hmk
      obtain ⟨p, n, he⟩ := h.unmarked pred hp (by simpa using hmk)
      cases he
      -- the node before it is another one
      exact h.chain.no_loop hp hpn
    simp [LockfreeHashMap.step, Memory.cas, hpn, hum] at hs
  | reclaim i r sp z r' freed ch hr => exact ⟨l, h.reclaims hr trivial rfl rfl rfl rfl rfl
    (by rintro _ _ _ ⟨⟩)⟩
  | sweep i r sp z r' freed ch hr => exact ⟨l, h.reclaims hr trivial rfl rfl rfl rfl rfl
    (by rintro _ _ _ ⟨⟩)⟩
  | _ => exact ⟨l, h.goto trivial (fun _ _ e => by cases e) (.refl _) rfl (by rintro _ _ _ ⟨⟩)⟩

end

/-! ## Runs of one thread -/

/-- The list of a new map. -/
theorem parents_head (hd : m.data head = sentinelOf K 0) : Parents m [head] := by
  rintro b hb n ⟨hn, hnd⟩
  obtain rfl := List.mem_singleton.mp hn
  rcases Nat.lt_or_ge b.toNat (2 ^ 32) with hsmall | hbig
  · exact absurd (sentinelOf_inj hsmall (by decide) (hnd.symm.trans hd)) hb
  · exact ⟨head, hn, hnd.trans (sentinelOf_parent hbig).symm⟩

section
variable [LT K] [DecidableLT K] [Inhabited K] {hash : K → Word} {count : Word} {k : ℕ}

theorem rooted_initial :
    Rooted hash (initial (ι := ι) (K := K) (V := V) count k).shared.mem (.idle : Pc K V)
      [head] := by
  refine ⟨⟨rfl, rfl⟩, rfl, parents_head rfl, nofun, ⟨List.nodup_singleton head, fun a ha => ?_⟩,
    nofun, trivial⟩
  obtain rfl := List.mem_singleton.mp ha
  rfl

/-- What every run of the one thread keeps. -/
structure Tended (hash : K → Word) (t : ι) (h : List (Step ι K V))
    (c : Config ι (Shared ι K V) (Local K V)) : Prop where
  thrifty : Thrifty hash t h c
  rooted : ∃ l, Rooted hash c.shared.mem (c.loc t).pc l
  finite : {a | c.shared.mem.alive a = true}.Finite

/-- **Every list of a run** has the ancestors of its sentinels. -/
theorem tended_run [DecidableEq ι] {t : ι} {h : List (Step ι K V)}
    {c : Config ι (Shared ι K V) (Local K V)}
    (hr : (program hash).Run (onlySmall t) (initial count k) h c) : Tended hash t h c := by
  refine hr.induction (I := Tended hash t) ⟨thrifty_initial, ⟨[head], rooted_initial⟩, ?_⟩ ?_
  · refine (Set.finite_singleton head).subset fun a ha => ?_
    simpa [initial] using ha
  · rintro h c u k ev s l - hI ⟨rfl, h0, h32⟩ hs
    obtain ⟨l₀, hR⟩ := hI.rooted
    refine ⟨hI.thrifty.step h0 h32 hs, ?_, (step_move hash hs).alive_finite hI.finite⟩
    rw [Config.set_loc_self]
    exact hR.step hI.thrifty.budget.framed hs
end

end Bonostl.LockfreeHashMap
