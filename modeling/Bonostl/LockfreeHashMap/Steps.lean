import Bonostl.LockfreeHashMap.Sequential

/-!
# The steps of the one thread

One lemma for each step of `lockfree_hash_map` that writes to nodes or counters, and from them
`Sequential.step`: no step of the thread leaves the invariant. Nobody interferes, so every
compare-exchange of the thread succeeds.
-/

namespace Bonostl.LockfreeHashMap

open Interleaving HazardPtr HarrisMichael Chain FiniteMap

variable {ι K V : Type} [LT K] [DecidableLT K] [Inhabited K] {hash : K → Word}
  {s s' : Shared ι K V} {l : List ℕ} {m : List (K × V)} {o : Option (Op K V)} {i : List ℕ}
  {pc pc' : Pc K V} {lc lc' : Local K V}

/-! ## Nodes that are not in the list -/

/-- Nodes of the list are not deleted, and none of the thread's other nodes is in it. -/
theorem Sequential.apart (h : Sequential hash s lc l m o) {n : ℕ}
    (hn : n ∈ lc.pc.owned hash) : ∀ a ∈ l, a ≠ n := by
  rintro a ha rfl
  have hd := (List.nodup_append.mp h.intact.1).2.2 a ha a
  exact hd (List.mem_append_left _ hn) rfl

theorem Sequential.alive (h : Sequential hash s lc l m o) {a : ℕ} (ha : a ∈ l) :
    s.mem.alive a = true := h.intact.2 a (List.mem_append_left _ ha)

/-- `new node` -/
theorem Sequential.new (h : Sequential hash s ⟨i, pc⟩ l m o) {i' : List ℕ} {a : ℕ} {d : Data K}
    {x : Option V} (ha : s.mem.alive a = false)
    (hnew : pc'.newNode? hash = some (a, d)) (hval : ∀ v, pc'.newValue? = some v → x = some v)
    (hlink : ∀ w pred curr, pc' ≠ .link w pred curr)
    (hpl : pc'.At hash ⟨s.mem.alloc a d, Function.update s.values a x, s.bucketCount, s.size⟩ l o)
    (hsv : pc'.Serves s l m o) (hb : pc'.Bounded s)
    (hps : ∀ w second i, pc' = .claim w second i → i = 0)
    (hown : pc'.owned hash = [a]) (hr : pc'.reclaiming = .finished) (hold : pc.owned hash = [])
    (hr' : pc.reclaiming = .finished) (hu : ∀ p a n, pc ≠ .unlink p a n)
    (hn : pc'.uncounted = pc.uncounted) (hn' : pc'.overcounted = pc.overcounted)
    (hl : pc.links pc' = none) :
    Next hash s pc l m o ⟨s.mem.alloc a d, Function.update s.values a x, s.bucketCount, s.size⟩
      ⟨i', pc'⟩ := by
  have hne : ∀ b ∈ l, b ≠ a := by
    rintro b hb rfl
    exact absurd (h.alive hb) (by simp [ha])
  have hd : ∀ b ∈ l, (s.mem.alloc a d).data b = s.mem.data b := fun b hb =>
    Function.update_of_ne (hne b hb) _ _
  have hv : ∀ b ∈ l, Function.update s.values a x b = s.values b := fun b hb =>
    Function.update_of_ne (hne b hb) _ _
  have hun := (h.used hu).unmarked
  have he : entries ⟨s.mem.alloc a d, Function.update s.values a x, s.bucketCount, s.size⟩ l =
      entries s l := entries_congr hd hv
  refine .same ⟨h.listed.frame (fun b hb => Function.update_of_ne (hne b hb) _ _) hd hv,
    fun b hb hm => ?_, ?_, fun n e hnn => ?_, hpl, hsv.same rfl (fun _ e => e) rfl he, ?_, ?_, ?_,
    h.power⟩ hl hd
  · have hm' : (s.mem.alloc a d).marked b = true := hm
    rw [Memory.alloc_marked, if_neg (hne b hb), hun b hb] at hm'
    cases hm'
  · dsimp only
    rw [hown, hr]
    have hint := h.intact
    rw [hold, hr'] at hint
    exact (Intact.alloc hint ha d).of_perm
      List.perm_middle
  · obtain ⟨rfl, rfl⟩ := Prod.mk.inj (Option.some.inj (hnew.symm.trans hnn))
    refine ⟨fun hal => hne a hal rfl, ?_, ?_, ?_, fun v hv' => ?_,
      fun w pred curr e => absurd e (hlink w pred curr)⟩
    · exact Function.update_self ..
    · exact Function.update_self ..
    · exact Function.update_self ..
    · exact (Function.update_self ..).trans (hval v hv')
  · intro w second j e k hk
    rw [hps w second j e] at hk
    cases hk
  · rw [he, hn, hn']
    exact h.counted
  · cases pc' <;> exact hb

/-- `new_node->next.store(curr)`, `sentinel->next.store(curr)` -/
theorem Sequential.set_next {w : Link K V} {pred : ℕ} {curr : Option ℕ}
    (h : Sequential hash s ⟨i, .setNext w pred curr⟩ l m o) :
    Next hash s (.setNext w pred curr) l m o { s with mem := s.mem.setNext w.node curr }
      ⟨i, .link w pred curr⟩ := by
  have hp := h.mine w.node (w.data hash) rfl
  have hne : ∀ b ∈ l, b ≠ w.node := by rintro b hb rfl; exact hp.unlinked hb
  have hnext : ∀ b ∈ l, (s.mem.setNext w.node curr).next b = s.mem.next b := fun b hb =>
    Function.update_of_ne (hne b hb) _ _
  have hun := (h.used nofun).unmarked
  obtain ⟨hready, hst, hpn, hcs⟩ := h.place
  have hg : Grows (· ∈ l) s.mem (s.mem.setNext w.node curr) := grows_setNext hp.unlinked
  refine .same ⟨h.listed.frame hnext (fun _ _ => rfl) fun _ _ => rfl, fun b hb hm => ?_, h.intact,
    fun n d hn => ?_, ⟨hready.mono hg fun _ ha => ha, hst, ?_, hcs⟩,
    h.serves.same rfl (fun _ e => e) rfl rfl, nofun, h.counted, h.bounded, h.power⟩ rfl
    fun _ _ => rfl
  · have hm' : (s.mem.setNext w.node curr).marked b = true := hm
    rw [Memory.setNext_marked, if_neg (hne b hb), hun b hb] at hm'
    cases hm'
  · obtain ⟨rfl, rfl⟩ :=
      Prod.mk.inj (Option.some.inj (hn : some (w.node, w.data hash) = some (n, d)))
    refine ⟨hp.unlinked, hp.used, hp.data, ?_, fun v hv => hp.value v ?_, ?_⟩
    · exact Function.update_self ..
    · cases w with
      | sentinel o b bs n => cases hv
      | put key value n a => exact hv
    · rintro w' pred' curr' ⟨⟩
      exact Function.update_self ..
  · exact (hnext pred hst.1).trans hpn

/-- The compare-exchange that links a node in. -/
theorem Sequential.link [IsStrictWeakOrder K (· < ·)] (hh : Agrees hash) {w : Link K V} {pred : ℕ}
    {curr : Option ℕ} (h : Sequential hash s ⟨i, .link w pred curr⟩ l m o) :
    Next hash s (.link w pred curr) l m o
      { s with mem := { s.mem with next := Function.update s.mem.next pred (some w.node) } }
      ⟨i, w.linked⟩ := by
  have hp := h.mine w.node (w.data hash) rfl
  have hun := (h.used (by rintro _ _ _ ⟨⟩)).unmarked
  obtain ⟨hready, ⟨hpl, hpB⟩, hpn, hcs⟩ := h.place
  have hcs' : ∀ c, s.mem.next pred = some c → below (w.data hash) (s.mem.data c) := fun c hc =>
    hcs c (hpn.symm.trans hc)
  obtain ⟨l', hperm, hl'⟩ := h.listed.insert (n := w.node) hpl hp.unlinked
    ((hp.next w pred curr rfl).trans hpn.symm) hp.data (by
      cases w with
      | sentinel o b bs n => exact .inl ⟨b, rfl⟩
      | put key value n a => exact .inr ⟨key, rfl⟩) (fun k hk => by
      cases w with
      | sentinel o b bs n => cases hk
      | put key value n a => exact ⟨value, hp.value value rfl⟩) hpB.below hcs'
  have hn : w.node ∈ l' := hperm.symm.subset (by simp)
  have hsub : ∀ a ∈ l, a ∈ l' := fun a ha => hperm.symm.subset (by simp [ha])
  have hint : Intact s.mem (l' ++ ([] ++ retired s.mem.hazard .finished)) := by
    refine h.intact.of_perm ?_
    exact (hperm.append_right _).trans List.perm_middle.symm
  have hmarks : ∀ b ∈ l', s.mem.marked b = false := fun b hb =>
    (List.mem_cons.mp (hperm.subset hb)).elim (fun e => e ▸ hp.unmarked) (hun b)
  have hent : (entries s l').Perm (entries s (w.node :: l)) := entries_perm hperm
  cases w with
  | sentinel o' b bs n =>
    have hsame : (entries s l').Perm (entries s l) :=
      hent.trans (by rw [entries_sentinel (by rw [hp.data]; rfl)])
    have ho : o = some o' := h.serves.told _ rfl
    refine ⟨l', ⟨hl', fun b hb hm => ?_, hint, (by rintro _ _ ⟨⟩), ⟨hready.2, hn, hp.data⟩, ⟨?_,
      (by rintro ⟨⟩), ?_, (by rintro _ ⟨⟩)⟩,
      (by rintro _ _ _ ⟨⟩), ?_, h.bounded, h.power⟩, fun a ha _ => ⟨hsub a ha, rfl⟩, ?_⟩
    · exact absurd ((hmarks b hb).symm.trans hm) (by simp)
    · rintro o'' ⟨⟩
      exact ho
    · exact fun _ => hsame.trans (h.serves.before rfl)
    · show s.size.toNat + 0 = (entries s l').length + 0
      rw [hsame.length_eq]
      exact h.counted
    · rintro x ⟨⟩
      exact hn
  | put key value start n =>
    have hnone : lookup Same key (entries s l) = none :=
      lookup_eq_none.mpr (h.listed.absent hh hpl hpB hcs')
    have hcons : (entries s l').Perm ((key, value) :: entries s l) :=
      hent.trans (by rw [entries_data (by rw [hp.data]; rfl) (hp.value value rfl)])
    have ha : apply (.put key value) (entries s l) = ((key, value) :: entries s l, .bool true) := by
      rw [apply, hnone]
      rfl
    refine ⟨l', ⟨hl', fun b hb hm => ?_, hint, (by rintro _ _ ⟨⟩), trivial,
      h.decide hh rfl (h.serves.told _ rfl) ha hcons rfl rfl rfl, (by rintro _ _ _ ⟨⟩), ?_,
        h.bounded, h.power⟩,
      fun a ha _ => ⟨hsub a ha, rfl⟩, ?_⟩
    · exact absurd ((hmarks b hb).symm.trans hm) (by simp)
    · show s.size.toNat + 1 = (entries s l').length + 0
      rw [hcons.length_eq, List.length_cons]
      exact congrArg (· + 1) h.counted
    · rintro x ⟨⟩
      exact hn

/-- `curr->value.store(new_node->value.load())` -/
theorem Sequential.store_value [IsStrictWeakOrder K (· < ·)] (hh : Agrees hash) {key : K}
    {value : V}
    {n c : ℕ} (h : Sequential hash s ⟨i, .storeValue key value n c⟩ l m o) :
    Next hash s (.storeValue key value n c) l m o
      { s with values := Function.update s.values c (s.values n) } ⟨i, .deleteNode n⟩ := by
  have hp := h.mine n (dataOf hash key) rfl
  have hm : Matches hash (· ∈ l) s key c := h.place
  have hun := (h.used (by rintro _ _ _ ⟨⟩)).unmarked
  obtain ⟨hlook, hsome⟩ := h.listed.lookup_of_matches hh hm
  rw [hp.value value rfl]
  obtain ⟨hl', hent⟩ := h.listed.assign hh (v := value) hm
  have ha : apply (.put key value) (entries s l) =
      (FiniteMap.assign Same key value (entries s l), .bool false) := by
    rw [apply, if_pos (hlook ▸ hsome)]
  refine .same ⟨hl', fun b hb hbm => absurd ((hun b hb).symm.trans hbm) (by simp), h.intact,
    (by rintro _ _ ⟨⟩), trivial,
    h.decide hh rfl (h.serves.told _ rfl) ha (by rw [hent]) rfl rfl rfl, (by rintro _ _ _ ⟨⟩), ?_,
      h.bounded,
    h.power⟩ rfl fun _ _ => rfl
  rw [hent, FiniteMap.assign, List.length_map]
  exact h.counted

/-- `delete new_node` -/
theorem Sequential.delete_node {n : ℕ} (h : Sequential hash s ⟨i, .deleteNode n⟩ l m o) :
    Next hash s (.deleteNode n) l m o { s with mem := s.mem.free (some n) }
      ⟨i, .destroy 2 (.result (.bool false))⟩ := by
  have hun := (h.used nofun).unmarked
  refine .same ⟨h.listed.frame (fun _ _ => rfl) (fun _ _ => rfl) fun _ _ => rfl,
    fun b hb hbm => absurd ((hun b hb).symm.trans hbm) (by simp),
    Intact.free (some n) (h.intact.of_perm ?_), nofun, trivial,
    h.serves.same rfl (fun _ e => e) rfl rfl, nofun, h.counted, h.bounded, h.power⟩ rfl
    fun _ _ => rfl
  show (n :: (l ++ retired s.mem.hazard .finished)).Perm
    (l ++ n :: retired s.mem.hazard .finished)
  exact List.perm_middle.symm

/-! ## Counters -/

/-- A step that changes a counter. -/
theorem Sequential.counters (h : Sequential hash s ⟨i, pc⟩ l m o) (bucketCount size : Word)
    (hsv : pc'.Serves s l m o)
    (hc : size.toNat + pc'.uncounted = (entries s l).length + pc'.overcounted)
    (hb : pc'.Bounded ⟨s.mem, s.values, bucketCount, size⟩)
    (hpow : ∃ k ≤ 63, bucketCount.toNat = 2 ^ k)
    (hpl : pc'.At hash ⟨s.mem, s.values, bucketCount, size⟩ l o)
    (hps : ∀ w second i, pc' ≠ .claim w second i) (hu : ∀ p a n, pc ≠ .unlink p a n)
    (hnew : pc'.newNode? hash = none) (hown : pc'.owned hash = pc.owned hash)
    (hr : pc'.reclaiming = pc.reclaiming) (hl : pc.links pc' = none) :
    Next hash s pc l m o ⟨s.mem, s.values, bucketCount, size⟩ ⟨i, pc'⟩ := by
  have hun := (h.used hu).unmarked
  refine .same ⟨h.listed.frame (fun _ _ => rfl) (fun _ _ => rfl) fun _ _ => rfl,
    fun b hb hbm => absurd ((hun b hb).symm.trans hbm) (by simp), ?_, fun n d e => ?_, hpl,
    hsv.same rfl (fun _ e => e) rfl rfl, fun w second i e => absurd e (hps w second i), hc, hb,
    hpow⟩ hl fun _ _ => rfl
  · dsimp only
    rw [hown, hr]
    exact h.intact
  · rw [hnew] at e
    cases e

theorem toNat_succ {n : Word} (h : n.toNat < 2 ^ 63) : (n + 1).toNat = n.toNat + 1 := by
  rw [BitVec.toNat_add_of_lt] <;> (simp; try omega)

/-- `size_.fetch_add(1)` -/
theorem Sequential.fetch_add (hm : m.length < 2 ^ 62) (h : Sequential hash s ⟨i, .fetchAdd⟩ l m o) :
    Next hash s .fetchAdd l m o { s with size := s.size + 1 } ⟨i, .compareCount (s.size + 1)⟩ := by
  have hlen := h.length_le
  have hcount : s.size.toNat + 1 = (entries s l).length + 0 := h.counted
  have hbound : s.size.toNat ≤ s.bucketCount.toNat := h.bounded
  have hsucc : (s.size + 1).toNat = s.size.toNat + 1 := toNat_succ (by omega)
  refine h.counters _ _ (h.serves.same rfl (fun _ e => e) rfl rfl) ?_ ⟨rfl, ?_⟩ h.power trivial
    nofun nofun rfl rfl
    rfl rfl
  · show (s.size + 1).toNat + 0 = (entries s l).length + 0
    omega
  · show (s.size + 1).toNat ≤ s.bucketCount.toNat + 1
    omega

/-- `size_.fetch_sub(1)` -/
theorem Sequential.fetch_sub (h : Sequential hash s ⟨i, .fetchSub⟩ l m o) :
    Next hash s .fetchSub l m o { s with size := s.size - 1 }
      ⟨i, .destroy 2 (.result (.bool true))⟩ := by
  have hcount : s.size.toNat + 0 = (entries s l).length + 1 := h.counted
  have hbound : s.size.toNat ≤ s.bucketCount.toNat := h.bounded
  have hpred : (s.size - 1).toNat = s.size.toNat - 1 := by
    rw [BitVec.toNat_sub_of_le (BitVec.le_def.mpr (by simp; omega))]
    simp
  refine h.counters _ _ (h.serves.same rfl (fun _ e => e) rfl rfl) ?_ ?_ h.power trivial nofun nofun
    rfl rfl rfl
    rfl
  · show (s.size - 1).toNat + 0 = (entries s l).length + 0
    omega
  · show (s.size - 1).toNat ≤ s.bucketCount.toNat
    omega

/-- The compare-exchange of `grow`. -/
theorem Sequential.grow_cas (hm : m.length < 2 ^ 62) {count : Word}
    (h : Sequential hash s ⟨i, .growCas count⟩ l m o) :
    Next hash s (.growCas count) l m o { s with bucketCount := count * 2 }
      ⟨i, .destroy 2 (.result (.bool true))⟩ ∧
    s.bucketCount = count ∧ s.bucketCount.toNat ≤ (count * 2).toNat := by
  have hlen := h.length_le
  have hcount : s.size.toNat + 0 = (entries s l).length + 0 := h.counted
  obtain ⟨rfl, hbound⟩ : count = s.bucketCount ∧ s.size.toNat = s.bucketCount.toNat + 1 := h.bounded
  obtain ⟨k, -, hk⟩ := h.power
  have hlt : s.bucketCount.toNat < 2 ^ 62 := by omega
  have hdouble : (s.bucketCount * 2).toNat = s.bucketCount.toNat * 2 := by
    rw [BitVec.toNat_mul, show (2 : Word).toNat = 2 from rfl, Nat.mod_eq_of_lt (by omega)]
  have hk62 : k < 62 := (Nat.pow_lt_pow_iff_right (by decide : 1 < 2)).mp (hk ▸ hlt)
  have hpos : 0 < s.bucketCount.toNat := hk ▸ Nat.two_pow_pos k
  refine ⟨h.counters _ _ (h.serves.same rfl (fun _ e => e) rfl rfl) h.counted ?_
    ⟨k + 1, by omega, ?_⟩
    trivial nofun nofun rfl rfl rfl rfl, rfl, by omega⟩
  · show s.size.toNat ≤ (s.bucketCount * 2).toNat
    omega
  · rw [hdouble, hk, pow_succ]

/-! ## `erase` -/

/-- The compare-exchange that marks a node. -/
theorem Sequential.mark {key : K} {pred c : ℕ} {next : Option ℕ}
    (h : Sequential hash s ⟨i, .mark key pred c next⟩ l m o) :
    Next hash s (.mark key pred c next) l m o
      { s with mem := { s.mem with marked := Function.update s.mem.marked c true } }
      ⟨i, .unlink pred c next⟩ := by
  have hun := (h.used nofun).unmarked
  obtain ⟨hm, hpl, hpn, hcn⟩ := h.place
  have ho : o = some (.erase key) := h.serves.told _ rfl
  refine .same ⟨h.listed.frame (fun _ _ => rfl) (fun _ _ => rfl) fun _ _ => rfl, fun b hb hbm => ?_,
    h.intact, nofun, ⟨hpl, hpn, hcn, key, ho, hm⟩,
    h.serves.same rfl nofun rfl rfl, nofun, h.counted, h.bounded, h.power⟩ rfl fun _ _ => rfl
  by_cases hbc : b = c
  · exact ⟨pred, next, by rw [hbc]⟩
  · have hbm' : Function.update s.mem.marked c true b = true := hbm
    rw [Function.update_of_ne hbc, hun b hb] at hbm'
    cases hbm'

/-- The compare-exchange that unlinks the marked node. -/
theorem Sequential.unlink [IsStrictWeakOrder K (· < ·)] (hh : Agrees hash) {pred c : ℕ}
    {next : Option ℕ} (h : Sequential hash s ⟨i, .unlink pred c next⟩ l m o) :
    Next hash s (.unlink pred c next) l m o
      { s with mem := { s.mem with next := Function.update s.mem.next pred next } }
      ⟨i, .reclaim (.make c)⟩ := by
  obtain ⟨hpl, hpn, rfl, key, ho, hm⟩ := h.place
  obtain ⟨hlook, hsome⟩ := h.listed.lookup_of_matches hh hm
  obtain ⟨l', hperm, hl'⟩ := h.listed.unlink hpl hpn
  have hrem := h.listed.remove hh hm hperm
  obtain ⟨hcl, x, hx, hs⟩ := hm
  have hcn : c ∉ l' := (List.nodup_cons.mp (hperm.nodup h.listed.chain.nodup)).1
  have hsub : ∀ a ∈ l', a ∈ l := fun a ha => hperm.symm.subset (by simp [ha])
  have ha : apply (.erase key) (entries s l) =
      (FiniteMap.remove Same key (entries s l), .bool true) := by
    rw [apply, hlook, hsome]
  obtain ⟨v, hv⟩ := h.listed.valued c hcl x (by rw [hx])
  have hlen : (entries s l).length = (entries s l').length + 1 := by
    rw [(entries_perm hperm).length_eq, entries_data (by rw [hx]) hv, List.length_cons]
  refine ⟨l', ⟨hl', fun b hb hbm => ?_, ?_, (by rintro _ _ ⟨⟩), trivial,
    h.decide hh rfl ho ha hrem rfl rfl rfl, (by rintro _ _ _ ⟨⟩), ?_,
      h.bounded, h.power⟩, fun a ha hk => ?_, (by rintro _ ⟨⟩)⟩
  · obtain ⟨p, n, he⟩ := h.unmarked b (hsub b hb) hbm
    cases he
    exact absurd hb hcn
  · have hint : Intact s.mem (l ++ ([] ++ retired s.mem.hazard .finished)) := h.intact
    exact hint.of_perm ((List.perm_middle (a := c)).trans (hperm.symm.append_right _))
  · have hc : s.size.toNat + 0 = (entries s l).length + 0 := h.counted
    show s.size.toNat + 0 = (entries s l').length + 1
    omega
  · refine ⟨(List.mem_cons.mp (hperm.subset ha)).resolve_left ?_, rfl⟩
    rintro rfl
    rw [hx] at hk
    cases hk

/-- A step of `reclaim_later`. -/
theorem Sequential.reclaims {r r' : Reclaim} {sp : Bool} {z : HazardPtr.Shared ι}
    {freed : Option ℕ} (h : Sequential hash s ⟨i, pc⟩ l m o)
    (hs : r.step sp s.mem.hazard = some (z, r', freed)) (hsv : pc'.Serves s l m o)
    (hb : pc'.Bounded s) (hr : pc.reclaiming = r) (hr' : pc'.reclaiming = r')
    (hown : pc.owned hash = []) (hown' : pc'.owned hash = [])
    (hpl : pc'.At hash { s with mem := Memory.free { s.mem with hazard := z } freed } l o)
    (hps : ∀ w second i, pc' ≠ .claim w second i) (hu : ∀ p a n, pc ≠ .unlink p a n)
    (hnew : pc'.newNode? hash = none) (hn : pc'.uncounted = pc.uncounted)
    (hn' : pc'.overcounted = pc.overcounted) (hl : pc.links pc' = none) :
    Next hash s pc l m o { s with mem := Memory.free { s.mem with hazard := z } freed }
      ⟨i, pc'⟩ := by
  obtain ⟨e1, e2, e3, -⟩ := free_eq { s.mem with hazard := z } freed
  have hun := (h.used hu).unmarked
  have hperm := Reclaim.step_retired hs
  have hint := h.intact
  dsimp only at hint
  rw [hown, hr] at hint
  have hz : (Memory.free { s.mem with hazard := z } freed).hazard = z := by cases freed <;> rfl
  have he : entries { s with mem := Memory.free { s.mem with hazard := z } freed } l =
      entries s l :=
    entries_congr (fun b _ => congrFun e3 b) fun _ _ => rfl
  refine .same ⟨h.listed.frame (fun b _ => congrFun e1 b) (fun b _ => congrFun e3 b) fun _ _ => rfl,
    fun b hb hbm => ?_, ?_, fun n d e => ?_, hpl, hsv.same rfl (fun _ e => e) rfl he,
    fun w second i e => absurd e (hps w second i), ?_, ?_, h.power⟩ hl fun b _ => congrFun e3 b
  · dsimp only at hbm
    rw [e2, hun b hb] at hbm
    cases hbm
  · dsimp only
    rw [hown', hr', hz]
    refine Intact.free freed (Intact.of_perm (m := { s.mem with hazard := z }) hint ?_)
    exact List.perm_append_comm_assoc _ _ _ |>.trans (hperm.append_left l)
  · rw [hnew] at e
    cases e
  · rw [he, hn, hn']
    exact h.counted
  · cases pc' <;> exact hb

/-! ## Every step -/

/-- The construction of an `hp_owner` is decided by the slot it looks at. -/
theorem step_claim {t : ι} {k : Choice K V} {w : Owner K V} {second : Bool} {j : ℕ}
    {ev : Event (Op K V) (Res V)}
    (hs : step hash t k s ⟨i, .claim w second j⟩ = some (ev, s', lc')) :
    (j < maxHazardPointers ∧ s.mem.hazard.id j = none ∧ s' = s.setHazard
      { s.mem.hazard with id := Function.update s.mem.hazard.id j (some t) } ∧
      lc' = ⟨j :: i, if second then w.resume (j :: i) else .claim w true 0⟩) ∨
    (j < maxHazardPointers ∧ s.mem.hazard.id j ≠ none ∧ s' = s ∧
      lc' = ⟨i, .claim w second (j + 1)⟩) ∨
    (maxHazardPointers ≤ j ∧ s' = s ∧
      lc' = ⟨i, .destroy i.length (.result .noHazardPointers)⟩) := by
  cases k with
  | run =>
    by_cases hj : j < maxHazardPointers
    · by_cases hid : s.mem.hazard.id j = none
      · simp only [step, tryClaim, hj, hid, if_true] at hs
        obtain ⟨-, rfl, rfl⟩ : _ ∧ _ ∧ _ := by simpa using hs
        exact .inl ⟨hj, hid, rfl, rfl⟩
      · simp only [step, tryClaim, hj, hid, if_true, if_false] at hs
        obtain ⟨-, rfl, rfl⟩ : _ ∧ _ ∧ _ := by simpa using hs
        exact .inr (.inl ⟨hj, hid, rfl, rfl⟩)
    · simp only [step, hj, if_false] at hs
      obtain ⟨-, rfl, rfl⟩ : _ ∧ _ ∧ _ := by simpa using hs
      exact .inr (.inr ⟨Nat.not_lt.mp hj, rfl, rfl⟩)
  | _ => cases hs

omit [LT K] [DecidableLT K] [Inhabited K] in
theorem carries_resume (w : Owner K V) (second : Bool) (j : ℕ) (slots : List ℕ) :
    Carries hash (.claim w second j) (w.resume slots) := by
  cases w with
  | op o => exact .of_none rfl
  | bucket o b bs => exact .of_none rfl
  | put key value n a => exact fun n d hn => ⟨hn, fun v hv => hv, nofun⟩

/-- A slot is claimed, or found taken. -/
theorem Sequential.claim {t : ι} {k : Choice K V} {w : Owner K V} {second : Bool} {j : ℕ}
    {ev : Event (Op K V) (Res V)} (h : Sequential hash s ⟨i, .claim w second j⟩ l m o)
    (hs : step hash t k s ⟨i, .claim w second j⟩ = some (ev, s', lc')) :
    Next hash s (.claim w second j) l m o s' lc' := by
  rcases step_claim hs with ⟨-, -, rfl, rfl⟩ | ⟨-, hid, rfl, rfl⟩ | ⟨-, rfl, rfl⟩
  · cases second with
    | false =>
      refine h.slots _ h.place (h.serves.same rfl (fun _ e => e) rfl rfl) h.bounded
        (carries_claim w _ _ _ _) (by cases w <;> exact .refl _) rfl ?_ nofun rfl rfl rfl
      rintro w' second' j' ⟨⟩ x hx
      cases hx
    | true =>
      refine h.slots _ (at_owner h.place) (h.serves.same ?_ ?_ ?_ rfl) ?_ (carries_resume w _ _ _)
        ?_ ?_ ?_ nofun ?_ ?_ ?_ <;> cases w <;>
        first | rfl | exact fun _ e => e | exact h.bounded | exact .refl _ | nofun
  · refine h.goto h.place (h.serves.same rfl (fun _ e => e) rfl rfl) h.bounded
      (carries_claim w _ _ _ _)
      (by cases w <;> exact .refl _) rfl ?_ nofun rfl rfl rfl
    rintro w' second' j' ⟨⟩ x hx
    rcases Nat.lt_succ_iff_lt_or_eq.mp hx with hlt | rfl
    · exact h.passed w second j rfl x hlt
    · exact hid
  · have ho : o = some w.operation := h.serves.told _ rfl
    refine h.goto trivial ⟨nofun, nofun, nofun, ?_⟩ h.bounded (.of_none rfl) (List.nil_sublist _)
      rfl nofun nofun rfl rfl rfl
    rintro r ⟨⟩
    exact ⟨w.operation, m, ho, .inl ⟨rfl, rfl⟩, h.serves.before rfl⟩

/-- The destructors of the `hp_owner`s are done. -/
theorem Sequential.resume_after {a : After K V} (h : Sequential hash s ⟨i, .destroy 0 a⟩ l m o) :
    Next hash s (.destroy 0 a) l m o s ⟨i, a.resume i⟩ := by
  have hat : (a.resume i).At hash s l o := at_after h.place
  cases a with
  | result r =>
    exact h.goto trivial (h.serves.same rfl (fun _ e => e) rfl rfl) h.bounded (.of_none rfl)
      (.refl _) rfl
      nofun nofun rfl rfl rfl
  | bucket o' b bs n =>
    cases bs with
    | nil =>
      cases o' <;> exact h.goto hat (h.serves.same rfl (fun _ e => e) rfl rfl) h.bounded
        (.of_none rfl) (.refl _) rfl nofun nofun rfl rfl rfl
    | cons b' bs =>
      exact h.goto hat (h.serves.same rfl (fun _ e => e) rfl rfl) h.bounded (.of_none rfl)
        (.refl _) rfl
        nofun nofun rfl rfl rfl

/-- A step of a search. -/
theorem Sequential.find {w : Search K V} {f f' : Find} {m' : Memory ι (Data K)}
    (h : Sequential hash s ⟨i, .find w f⟩ l m o)
    (hm : Find.Move (w.query hash) s.mem f m' f') :
    Next hash s (.find w f) l m o { s with mem := m' } ⟨i, .find w f'⟩ := by
  obtain ⟨hready, hk⟩ := h.place
  obtain ⟨⟨p, rfl⟩, hk'⟩ :=
    hm.tracks (h.used nofun) hk (h.listed.start hready) h.listed.advance
  refine h.slots { s.mem.hazard with pointer := p } ⟨hready, hk'.congr rfl rfl⟩
    (h.serves.same rfl (fun _ e => e) rfl rfl) h.bounded (fun n d hn => ?_) ?_ rfl nofun nofun rfl
    rfl rfl
  · cases w with
    | sentinel o b bs => cases hn
    | anchor o b bs p a => exact ⟨hn, nofun, nofun⟩
    | data n' j => cases j <;> exact ⟨hn, fun v hv => hv, nofun⟩
  · cases w with
    | data n' j => cases j <;> exact .refl _
    | _ => exact .refl _

section
variable [IsStrictWeakOrder K (· < ·)] (hh : Agrees hash) {t : ι} {k : Choice K V}
include hh

/-- **Every step of the thread** leads on. -/
theorem Sequential.step (hm : m.length < 2 ^ 62) (h : Sequential hash s lc l m o)
    (hs : step hash t k s lc = some (.tau, s', lc')) : Next hash s lc.pc l m o s' lc' := by
  cases step_move hash hs with
  | elsewhere i =>
    exact h.goto trivial (h.serves.same rfl (fun _ e => e) rfl rfl) h.bounded
      (.of_none rfl) (.refl _) rfl (by rintro _ _ _ ⟨⟩) (by rintro _ _ _ ⟨⟩) rfl rfl rfl
  | claim => exact h.claim hs
  | claimNext => exact h.claim hs
  | claimNone => exact h.claim hs
  | destroyed slots a => exact h.resume_after
  | destroy j slots n a =>
    have hat : (Pc.disown n a).At hash s l o := h.place
    cases a <;> exact h.slots _ hat (h.serves.same rfl (fun _ e => e) rfl rfl) h.bounded
      (.of_none rfl) (.refl _) rfl (by rintro _ _ _ ⟨⟩) (by rintro _ _ _ ⟨⟩) rfl rfl rfl
  | disown j slots n a =>
    have hat : (Pc.destroy n a).At hash s l o := h.place
    cases a <;> exact h.slots _ hat (h.serves.same rfl (fun _ e => e) rfl rfl) h.bounded
      (.of_none rfl) (.refl _) rfl (by rintro _ _ _ ⟨⟩) (by rintro _ _ _ ⟨⟩) rfl rfl rfl
  | bucketOf i o' =>
    exact h.goto_findBucket (bucketSplitKey_lt_dataSplitKey _ _) h.bounded rfl rfl rfl rfl rfl rfl
      (fun _ => rfl) (by rintro _ _ _ ⟨⟩)
  | find i w f m' f' ch hf => exact h.find hf
  | resume i w p c found pred curr => exact h.resume hh
  | newSentinel i o' b bs p a ha =>
    have hal : a ∉ l := fun hl => absurd (h.alive hl) (by simp [ha])
    have hg : Grows (· ∈ l) s.mem (s.newSentinel a (bucketSplitKey b)).mem := grows_alloc hal
    refine h.new ha (d := sentinelOf K b) rfl (by rintro _ ⟨⟩) (by rintro _ _ _ ⟨⟩) ?_
      (h.serves.same rfl (fun _ e => e) rfl rfl) h.bounded (by rintro _ _ _ ⟨⟩) rfl rfl rfl rfl
      (by rintro _ _ _ ⟨⟩) rfl rfl rfl
    exact ⟨⟨h.place.1, h.place.2.mono hg fun _ hb => hb⟩, trivial⟩
  | newNode i key value n a ha =>
    have hal : a ∉ l := fun hl => absurd (h.alive hl) (by simp [ha])
    have hg : Grows (· ∈ l) s.mem (s.newNode a (dataSplitKey (hash key)) key value).mem :=
      grows_alloc hal
    refine h.new ha (d := dataOf hash key) (x := some value) rfl (fun v hv => hv)
      (by rintro _ _ _ ⟨⟩) ?_
      (h.serves.same rfl (fun _ e => e) rfl rfl) h.bounded ?_ rfl rfl rfl rfl
      (by rintro _ _ _ ⟨⟩) rfl
      rfl rfl
    · exact Leads.mono (s := s) hg (fun _ hb => hb) h.place
    · rintro w second j ⟨⟩
      rfl
  | setNext i w pred curr => exact h.set_next
  | link i w pred curr hn hmk => exact h.link hh
  | linkFail i w pred curr =>
    -- nobody else has changed the link
    obtain ⟨-, hst, hpn, -⟩ := h.place
    have hum := (h.used (by rintro _ _ _ ⟨⟩)).unmarked pred hst.1
    simp only [LockfreeHashMap.step, Memory.cas, hpn, hum] at hs
    cases w <;> simp [Link.linked, Link.failed, search] at hs
  | deleteSentinel => exact h.place.elim
  | storeValue i key value n curr => exact h.store_value hh
  | deleteNode i n => exact h.delete_node
  | fetchAdd i => exact h.fetch_add hm
  | grow i n hn =>
    obtain ⟨rfl, hb⟩ := h.bounded
    have hlt := BitVec.lt_def.mp hn
    exact h.goto trivial (h.serves.same rfl (fun _ e => e) rfl rfl)
      (show s.size.toNat = s.bucketCount.toNat + 1 by omega) (.of_none rfl) (.refl _) rfl
      (by rintro _ _ _ ⟨⟩) (by rintro _ _ _ ⟨⟩) rfl rfl rfl
  | growNot i n hn =>
    obtain ⟨rfl, -⟩ := h.bounded
    exact h.goto trivial (h.serves.same rfl (fun _ e => e) rfl rfl)
      (BitVec.le_def.mp (BitVec.not_lt.mp hn)) (.of_none rfl) (.refl _) rfl (by rintro _ _ _ ⟨⟩)
      (by rintro _ _ _ ⟨⟩) rfl rfl rfl
  | growCount i =>
    exact h.goto trivial (h.serves.same rfl (fun _ e => e) rfl rfl) ⟨rfl, h.bounded⟩
      (.of_none rfl) (.refl _) rfl (by rintro _ _ _ ⟨⟩) (by rintro _ _ _ ⟨⟩) rfl rfl rfl
  | growSize i count hn =>
    exact h.goto trivial (h.serves.same rfl (fun _ e => e) rfl rfl) h.bounded
      (.of_none rfl) (.refl _) rfl (by rintro _ _ _ ⟨⟩) (by rintro _ _ _ ⟨⟩) rfl rfl rfl
  | growEnough i count hn =>
    obtain ⟨rfl, -⟩ := h.bounded
    exact h.goto trivial (h.serves.same rfl (fun _ e => e) rfl rfl) (BitVec.le_def.mp hn)
      (.of_none rfl) (.refl _) rfl (by rintro _ _ _ ⟨⟩) (by rintro _ _ _ ⟨⟩) rfl rfl rfl
  | growCas i count hc => exact (h.grow_cas hm).1
  | growCasFail i count =>
    obtain ⟨rfl, -⟩ := h.bounded
    simp only [LockfreeHashMap.step, if_true] at hs
    have hs' : { s with bucketCount := s.bucketCount * 2 } = s := by simpa using hs
    have hgrow := (h.grow_cas hm).1
    rwa [hs'] at hgrow
  | loadValue i key curr =>
    obtain ⟨hl, -⟩ := h.listed.lookup_of_matches hh h.place
    refine h.goto trivial (h.decide hh rfl (h.serves.told _ rfl) ?_ (.refl _) rfl rfl rfl) h.bounded
      (.of_none rfl) (.refl _) rfl (by rintro _ _ _ ⟨⟩) (by rintro _ _ _ ⟨⟩) rfl rfl rfl
    rw [apply, hl]
  | loadNext i key pred curr =>
    obtain ⟨hmt, hpl, hpn⟩ := h.place
    exact h.goto ⟨hmt, hpl, hpn, rfl⟩ (h.serves.same rfl (fun _ e => e) rfl rfl) h.bounded
      (.of_none rfl) (.refl _) rfl (by rintro _ _ _ ⟨⟩) (by rintro _ _ _ ⟨⟩) rfl rfl rfl
  | mark i key pred curr next hn hmk => exact h.mark
  | markFail i key pred curr next =>
    obtain ⟨hmt, -, -, hcn⟩ := h.place
    have hum := (h.used (by rintro _ _ _ ⟨⟩)).unmarked curr hmt.1
    simp [LockfreeHashMap.step, Memory.casMark, hcn, hum] at hs
  | unlink i pred curr next hn hmk => exact h.unlink hh
  | unlinkFail i pred curr next =>
    obtain ⟨hpl, hpn, -, -⟩ := h.place
    have hum : s.mem.marked pred = false := by
      by_contra hmk
      obtain ⟨p, n, he⟩ := h.unmarked pred hpl (by simpa using hmk)
      cases he
      -- the node before it is another one
      exact h.listed.chain.no_loop hpl hpn
    simp [LockfreeHashMap.step, Memory.cas, hpn, hum] at hs
  | fetchSub i => exact h.fetch_sub
  | reclaim i r sp z r' freed ch hr =>
    exact h.reclaims hr (h.serves.same rfl (fun _ e => e) rfl rfl) h.bounded rfl rfl rfl rfl trivial
      (by rintro _ _ _ ⟨⟩) (by rintro _ _ _ ⟨⟩) rfl rfl rfl rfl
  | reclaimed i =>
    exact h.goto trivial (h.serves.same rfl (fun _ e => e) rfl rfl) h.bounded
      (.of_none rfl) (.refl _) rfl (by rintro _ _ _ ⟨⟩) (by rintro _ _ _ ⟨⟩) rfl rfl rfl
  | sweep i r sp z r' freed ch hr =>
    exact h.reclaims hr (h.serves.same rfl (fun _ e => e) rfl rfl) h.bounded rfl rfl rfl rfl trivial
      (by rintro _ _ _ ⟨⟩) (by rintro _ _ _ ⟨⟩) rfl rfl rfl rfl
  | swept i =>
    exact h.goto trivial (h.serves.same rfl (fun _ e => e) rfl rfl) h.bounded
      (.of_none rfl) (.refl _) rfl (by rintro _ _ _ ⟨⟩) (by rintro _ _ _ ⟨⟩) rfl rfl rfl
end

end Bonostl.LockfreeHashMap
