import Bonostl.FiniteMap.Basic
import Bonostl.LockfreeHashMap.Invariant

/-!
# What the list of `lockfree_hash_map` contains

For a map that one thread uses. `Listed` says that the nodes `l` are the list, in order; `entries`
are its keys and values, a finite map whose keys are told apart by `Same` alone. The list's order
decides whether a key is in it (`Listed.absent`), and a node is linked in, unlinked or given another
value by changing one entry.

`apply` is what an operation does to a finite map and what it returns. It knows nothing of hashes
and buckets.
-/

namespace Bonostl.LockfreeHashMap

open Chain FiniteMap HarrisMichael

variable {ι K V : Type} [LT K]

instance [DecidableLT K] : DecidableRel (Same (K := K)) := fun x y =>
  inferInstanceAs (Decidable (¬ x < y ∧ ¬ y < x))

instance [IsStrictWeakOrder K (· < ·)] : IsEquiv K Same where
  refl x := ⟨irrefl_of (· < ·) x, irrefl_of (· < ·) x⟩
  symm _ _ h := ⟨h.2, h.1⟩
  trans x y z h h' := IsStrictWeakOrder.incomp_trans (α := K) x y z h h'

/-- What an operation does to a finite map, and what it returns. -/
def apply [DecidableLT K] : Op K V → List (K × V) → List (K × V) × Res V
  | .put k v, m =>
    if (lookup Same k m).isSome then (assign Same k v m, .bool false)
    else ((k, v) :: m, .bool true)
  | .get k, m => (m, .value (lookup Same k m))
  | .erase k, m => (remove Same k m, .bool (lookup Same k m).isSome)
  | .contains k, m => (m, .bool (lookup Same k m).isSome)

/-- `Hash` agrees on equivalent keys. -/
def Agrees (hash : K → Word) : Prop := ∀ x y, Same x y → hash x = hash y

section
omit [LT K]

/-- The key and the value of a node. -/
def entry (s : Shared ι K V) (a : ℕ) : Option (K × V) :=
  (s.mem.data a).key.bind fun k => (s.values a).map (Prod.mk k)

/-- The keys and the values of a list of nodes. -/
def entries (s : Shared ι K V) (l : List ℕ) : List (K × V) := l.filterMap (entry s)

variable {s s' : Shared ι K V} {l l' : List ℕ}

theorem mem_entries {e : K × V} : e ∈ entries s l ↔
    ∃ a ∈ l, (s.mem.data a).key = some e.1 ∧ s.values a = some e.2 := by
  obtain ⟨k, v⟩ := e
  simp only [entries, List.mem_filterMap, entry, Option.bind_eq_some_iff, Option.map_eq_some_iff,
    Prod.mk.injEq]
  constructor
  · rintro ⟨a, ha, k', hk, v', hv, rfl, rfl⟩
    exact ⟨a, ha, hk, hv⟩
  · rintro ⟨a, ha, hk, hv⟩
    exact ⟨a, ha, k, hk, v, hv, rfl, rfl⟩

theorem entries_congr (hd : ∀ a ∈ l, s'.mem.data a = s.mem.data a)
    (hv : ∀ a ∈ l, s'.values a = s.values a) : entries s' l = entries s l :=
  List.filterMap_congr fun a ha => by rw [entry, entry, hd a ha, hv a ha]

theorem entries_perm (h : l.Perm l') : (entries s l).Perm (entries s l') := h.filterMap _

theorem entries_data {a : ℕ} {k : K} {v : V} (hk : (s.mem.data a).key = some k)
    (hv : s.values a = some v) : entries s (a :: l) = (k, v) :: entries s l :=
  List.filterMap_cons_some (by simp [entry, hk, hv])

theorem entries_sentinel {a : ℕ} (hk : (s.mem.data a).key = none) :
    entries s (a :: l) = entries s l :=
  List.filterMap_cons_none (by simp [entry, hk])
end

/-- The nodes `l` are the list. -/
structure Listed (hash : K → Word) (s : Shared ι K V) (l : List ℕ) : Prop where
  chain : Linked s.mem.next (some head) l
  proper : ∀ a ∈ l, Proper hash (s.mem.data a)
  ordered : (l.map s.mem.data).Pairwise below
  valued : ∀ a ∈ l, ∀ k, (s.mem.data a).key = some k → ∃ v, s.values a = some v
  first : s.mem.data head = sentinelOf K 0

variable {hash : K → Word} {s s' : Shared ι K V} {l : List ℕ}

theorem Listed.head_mem (h : Listed hash s l) : head ∈ l := List.mem_of_head? h.chain.head_eq.symm

theorem Listed.closed (h : Listed hash s l) {a b : ℕ} (ha : a ∈ l) (hb : s.mem.next a = some b) :
    b ∈ l := by
  obtain ⟨l₁, l₂, rfl, hsuf⟩ := h.chain.split ha
  rw [hb] at hsuf
  have hbl : b ∈ l₂ := List.mem_of_head? hsuf.head_eq.symm
  simp [hbl]

/-- Nothing of the list has changed. -/
theorem Listed.frame (h : Listed hash s l) (hn : ∀ a ∈ l, s'.mem.next a = s.mem.next a)
    (hd : ∀ a ∈ l, s'.mem.data a = s.mem.data a) (hv : ∀ a ∈ l, s'.values a = s.values a) :
    Listed hash s' l := by
  refine ⟨h.chain.congr hn, fun a ha => ?_, ?_, fun a ha k hk => ?_, ?_⟩
  · rw [hd a ha]; exact h.proper a ha
  · rw [List.map_congr_left hd]; exact h.ordered
  · rw [hd a ha] at hk
    rw [hv a ha]
    exact h.valued a ha k hk
  · exact (hd _ h.head_mem).trans h.first

/-! ## Keys -/

/-- A node that holds a key has the data of that key. -/
theorem Listed.data_of_key (h : Listed hash s l) {a : ℕ} (ha : a ∈ l) {k : K}
    (hk : (s.mem.data a).key = some k) : s.mem.data a = dataOf hash k := by
  rcases h.proper a ha with ⟨b, hb⟩ | ⟨k', hk'⟩
  · rw [hb] at hk; cases hk
  · rw [hk'] at hk
    cases hk
    exact hk'

theorem not_below_same (hh : Agrees hash) {x y : K} (hs : Same x y) :
    ¬ below (dataOf hash x) (dataOf hash y) := by
  rintro (hlt | ⟨-, hlt⟩)
  · rw [dataOf, dataOf, hh x y hs] at hlt
    exact BitVec.lt_irrefl _ hlt
  · exact hs.1 hlt

/-- A place in the list: everything is on one side of it. -/
theorem Listed.sides [IsTrans K (· < ·)] (h : Listed hash s l) {pred : ℕ} {d : Data K}
    (hp : pred ∈ l) (hb : below (s.mem.data pred) d)
    (hc : ∀ c, s.mem.next pred = some c → below d (s.mem.data c)) :
    ∀ a ∈ l, below (s.mem.data a) d ∨ below d (s.mem.data a) := by
  obtain ⟨l₁, l₂, rfl, hsuf⟩ := h.chain.split hp
  have hord := h.ordered
  rw [List.map_append, List.map_cons, List.pairwise_append, List.pairwise_cons] at hord
  obtain ⟨-, ⟨-, h₂⟩, h₁⟩ := hord
  intro a ha
  rcases List.mem_append.mp ha with ha | ha
  · exact .inl (trans_of below (h₁ _ (List.mem_map_of_mem ha) _ (by simp)) hb)
  · rcases List.mem_cons.mp ha with rfl | ha
    · exact .inl hb
    · right
      cases l₂ with
      | nil => cases ha
      | cons c l₂ =>
        have hdc := hc c hsuf.1
        rcases List.mem_cons.mp ha with rfl | ha
        · exact hdc
        · rw [List.map_cons, List.pairwise_cons] at h₂
          exact trans_of below hdc (h₂.1 _ (List.mem_map_of_mem ha))

/-- A key that belongs to an empty place is not in the map. -/
theorem Listed.absent [IsStrictWeakOrder K (· < ·)] (hh : Agrees hash) (h : Listed hash s l)
    {pred : ℕ} {key : K} (hp : pred ∈ l) (hb : below (s.mem.data pred) (dataOf hash key))
    (hc : ∀ c, s.mem.next pred = some c → below (dataOf hash key) (s.mem.data c)) :
    ∀ e ∈ entries s l, ¬ Same e.1 key := by
  intro e he hs
  obtain ⟨a, ha, hk, -⟩ := mem_entries.mp he
  have hd := h.data_of_key ha hk
  rcases h.sides hp hb hc a ha with hlt | hlt
  · exact not_below_same hh hs (hd ▸ hlt)
  · exact not_below_same hh ⟨hs.2, hs.1⟩ (hd ▸ hlt)

/-- Two nodes do not hold the same key. -/
theorem Listed.apart [IsStrictWeakOrder K (· < ·)] (hh : Agrees hash) (h : Listed hash s l) :
    (l.map s.mem.data).Pairwise fun d e => ∀ x y, d.key = some x → e.key = some y → ¬ Same x y := by
  refine h.ordered.imp_of_mem fun {d e} hd he hlt x y hx hy hs => ?_
  obtain ⟨a, ha, rfl⟩ := List.mem_map.mp hd
  obtain ⟨b, hb, rfl⟩ := List.mem_map.mp he
  rw [h.data_of_key ha hx, h.data_of_key hb hy] at hlt
  exact not_below_same hh hs hlt

theorem Listed.distinct [IsStrictWeakOrder K (· < ·)] (hh : Agrees hash) (h : Listed hash s l) :
    Distinct Same (entries s l) := by
  refine List.pairwise_filterMap.mpr ((List.pairwise_map.mp (h.apart hh)).imp ?_)
  intro a b hab e he e' he'
  simp only [entry, Option.bind_eq_some_iff, Option.map_eq_some_iff] at he he'
  obtain ⟨x, hx, v, -, rfl⟩ := he
  obtain ⟨y, hy, w, -, rfl⟩ := he'
  exact hab x y hx hy

/-- A key is held by one node. -/
theorem Listed.same_node [IsStrictWeakOrder K (· < ·)] (hh : Agrees hash) (h : Listed hash s l)
    {a c : ℕ} (ha : a ∈ l) (hc : c ∈ l) {x y : K} (hx : (s.mem.data a).key = some x)
    (hy : (s.mem.data c).key = some y) (hs : Same x y) : a = c := by
  by_contra hne
  have hsymm : Std.Symm fun a b : ℕ => ∀ x y, (s.mem.data a).key = some x →
      (s.mem.data b).key = some y → ¬ Same x y :=
    ⟨fun a b hab x y hx hy hs => hab y x hy hx ⟨hs.2, hs.1⟩⟩
  exact (List.pairwise_map.mp (h.apart hh)).forall ha hc hne x y hx hy hs

/-- The value of a key is that of the node that holds it. -/
theorem Listed.lookup_of_matches [IsStrictWeakOrder K (· < ·)] [DecidableLT K] (hh : Agrees hash)
    (h : Listed hash s l) {c : ℕ} {key : K} (hm : Matches hash (· ∈ l) s key c) :
    lookup Same key (entries s l) = s.values c ∧ (s.values c).isSome := by
  obtain ⟨hc, x, hx, hs⟩ := hm
  have hk : (s.mem.data c).key = some x := by rw [hx]
  obtain ⟨v, hv⟩ := h.valued c hc x hk
  have hmem : (x, v) ∈ entries s l := mem_entries.mpr ⟨c, hc, hk, hv⟩
  rw [hv]
  exact ⟨lookup_of_mem (h.distinct hh) hmem hs, rfl⟩

/-! ## Changes -/

/-- A node is linked in behind `pred`. -/
theorem Listed.insert [IsTrans K (· < ·)] (h : Listed hash s l) {pred n : ℕ} {d : Data K}
    (hp : pred ∈ l) (hn : n ∉ l) (hnn : s.mem.next n = s.mem.next pred) (hd : s.mem.data n = d)
    (hpr : Proper hash d) (hv : ∀ k, d.key = some k → ∃ v, s.values n = some v)
    (hb : below (s.mem.data pred) d)
    (hc : ∀ c, s.mem.next pred = some c → below d (s.mem.data c)) :
    ∃ l', l'.Perm (n :: l) ∧ Listed hash
      { s with mem := { s.mem with next := Function.update s.mem.next pred (some n) } } l' := by
  have hsides := h.sides hp hb hc
  obtain ⟨l₁, l₂, rfl, hsuf⟩ := h.chain.split hp
  have hperm : (l₁ ++ pred :: n :: l₂).Perm (n :: (l₁ ++ pred :: l₂)) := by
    have hmid : ((l₁ ++ [pred]) ++ n :: l₂).Perm (n :: ((l₁ ++ [pred]) ++ l₂)) := List.perm_middle
    simpa using hmid
  have hmem : ∀ a ∈ l₁ ++ pred :: n :: l₂, a = n ∨ a ∈ l₁ ++ pred :: l₂ := fun a ha =>
    List.mem_cons.mp (hperm.subset ha)
  refine ⟨l₁ ++ pred :: n :: l₂, hperm, h.chain.insert hn hnn, fun a ha => ?_, ?_,
    fun a ha k hk => ?_, h.first⟩
  · rcases hmem a ha with rfl | ha
    · exact hd ▸ hpr
    · exact h.proper a ha
  · have hord := h.ordered
    simp only [List.map_append, List.map_cons, List.pairwise_append, List.pairwise_cons,
      List.mem_cons, List.mem_map, hd] at hord ⊢
    obtain ⟨h₁, ⟨h₂, h₃⟩, h₄⟩ := hord
    have hafter : ∀ e, (∃ a ∈ l₂, s.mem.data a = e) → below d e := by
      rintro e ⟨a, ha, rfl⟩
      cases l₂ with
      | nil => cases ha
      | cons c l₂ =>
        have hdc := hc c hsuf.1
        rcases List.mem_cons.mp ha with rfl | ha
        · exact hdc
        · rw [List.map_cons, List.pairwise_cons] at h₃
          exact trans_of below hdc (h₃.1 _ (List.mem_map_of_mem ha))
    refine ⟨h₁, ⟨?_, hafter, h₃⟩, ?_⟩
    · rintro e (rfl | he)
      · exact hb
      · exact h₂ e he
    · rintro e he e' (rfl | rfl | he')
      · exact h₄ e he _ (.inl rfl)
      · exact trans_of below (h₄ e he _ (.inl rfl)) hb
      · exact h₄ e he e' (.inr he')
  · rcases hmem a ha with rfl | ha
    · exact hv k (hd ▸ hk)
    · exact h.valued a ha k hk

/-- The node behind `pred` is taken out. -/
theorem Listed.unlink (h : Listed hash s l) {pred c : ℕ} (hp : pred ∈ l)
    (hc : s.mem.next pred = some c) :
    ∃ l', l.Perm (c :: l') ∧ Listed hash
      { s with mem := { s.mem with next := Function.update s.mem.next pred (s.mem.next c) } }
        l' := by
  obtain ⟨l₁, l₂, rfl, hsuf⟩ := h.chain.split hp
  rw [hc] at hsuf
  obtain ⟨b, l₂, rfl⟩ : ∃ b l₃, l₂ = b :: l₃ := by
    cases l₂ with
    | nil => cases hsuf
    | cons b l₃ => exact ⟨b, l₃, rfl⟩
  obtain rfl : c = b := Option.some.inj hsuf.1
  have hperm : (l₁ ++ pred :: c :: l₂).Perm (c :: (l₁ ++ pred :: l₂)) := by
    have hmid : ((l₁ ++ [pred]) ++ c :: l₂).Perm (c :: ((l₁ ++ [pred]) ++ l₂)) := List.perm_middle
    simpa using hmid
  have hsub : List.Sublist (l₁ ++ pred :: l₂) (l₁ ++ pred :: c :: l₂) :=
    (List.Sublist.refl l₁).append ((List.sublist_cons_self c l₂).cons_cons pred)
  exact ⟨l₁ ++ pred :: l₂, hperm, h.chain.unlink, fun a ha => h.proper a (hsub.subset ha),
    h.ordered.sublist (hsub.map _), fun a ha => h.valued a (hsub.subset ha), h.first⟩

section
variable [IsStrictWeakOrder K (· < ·)] [DecidableLT K] (hh : Agrees hash) (h : Listed hash s l)
include hh h

/-- The value of a node is replaced. -/
theorem Listed.assign {c : ℕ} {key : K} {v : V} (hm : Matches hash (· ∈ l) s key c) :
    Listed hash { s with values := Function.update s.values c (some v) } l ∧
      entries { s with values := Function.update s.values c (some v) } l =
        assign Same key v (entries s l) := by
  obtain ⟨hc, x, hx, hs⟩ := hm
  have hk : (s.mem.data c).key = some x := by rw [hx]
  refine ⟨⟨h.chain, h.proper, h.ordered, fun a ha k hk => ?_, h.first⟩, ?_⟩
  · by_cases hac : a = c
    · exact ⟨v, by simp [hac]⟩
    · obtain ⟨w, hw⟩ := h.valued a ha k hk
      exact ⟨w, by simp [hac, hw]⟩
  · rw [entries, FiniteMap.assign, entries, List.map_filterMap]
    refine List.filterMap_congr fun a ha => ?_
    by_cases hac : a = c
    · subst hac
      obtain ⟨w, hw⟩ := h.valued a ha x hk
      simp [entry, hk, hw, hs]
    · cases hy : (s.mem.data a).key with
      | none => simp [entry, hy]
      | some y =>
        obtain ⟨w, hw⟩ := h.valued a ha y hy
        have hns : ¬ Same y key := fun hsy =>
          hac (h.same_node hh ha hc hy hk (trans_of Same hsy (symm_of Same hs)))
        simp [entry, hy, hw, hac, hns]

/-- The map without the key of a node that is taken out. -/
theorem Listed.remove {c : ℕ} {key : K} {l' : List ℕ} (hm : Matches hash (· ∈ l) s key c)
    (hp : l.Perm (c :: l')) : (entries s l').Perm (remove Same key (entries s l)) := by
  obtain ⟨hc, x, hx, hs⟩ := hm
  have hk : (s.mem.data c).key = some x := by rw [hx]
  obtain ⟨v, hv⟩ := h.valued c hc x hk
  have hcons : (entries s l).Perm ((x, v) :: entries s l') := by
    rw [← entries_data hk hv]
    exact entries_perm hp
  have hne : ∀ e ∈ entries s l', ¬ Same e.1 key := by
    intro e he hse
    obtain ⟨a, ha, hy, -⟩ := mem_entries.mp he
    have hac := h.same_node hh (hp.symm.subset (by simp [ha])) hc hy hk
      (trans_of Same hse (symm_of Same hs))
    exact (List.nodup_cons.mp (hp.nodup h.chain.nodup)).1 (hac ▸ ha)
  have hrem : (FiniteMap.remove Same key (entries s l)).Perm
      (FiniteMap.remove Same key ((x, v) :: entries s l')) := remove_perm hcons
  rw [remove_cons hs hne] at hrem
  exact hrem.symm
end

/-- An operation does not see the order of the entries. -/
theorem apply_perm [IsStrictWeakOrder K (· < ·)] [DecidableLT K] {m m' : List (K × V)}
    (hd : Distinct Same m) (hp : m.Perm m') (o : Op K V) :
    (apply o m).1.Perm (apply o m').1 ∧ (apply o m).2 = (apply o m').2 := by
  cases o with
  | put k v =>
    simp only [apply, lookup_perm hd hp]
    split
    · exact ⟨assign_perm hp, rfl⟩
    · exact ⟨hp.cons _, rfl⟩
  | get k => simp only [apply, lookup_perm hd hp]; exact ⟨hp, trivial⟩
  | erase k => simp only [apply, lookup_perm hd hp]; exact ⟨remove_perm hp, trivial⟩
  | contains k => simp only [apply, lookup_perm hd hp]; exact ⟨hp, trivial⟩

end Bonostl.LockfreeHashMap
