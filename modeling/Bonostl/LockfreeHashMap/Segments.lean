import Bonostl.LockfreeHashMap.Invariant

/-!
# The segments of the buckets in split order

The buckets of a table of `2 ^ j` buckets cut the split keys into intervals (`residue_iff`):
reversed, the low `j` bits of a hash are the high ones, so the hashes of a bucket have the keys from
the one of its sentinel up to that of the next sentinel of the table. In a list that is ordered by
split keys the nodes of a bucket (`Belongs`) are one piece, and when the table doubles, bucket `b`
keeps the first part of its piece and the new bucket `b + 2 ^ j` has the rest (`split_segment`).

`split_order` says this of every table of up to `2 ^ 32` buckets at once; `list_segments` applies it
to the lists of the map's runs.
-/

namespace Bonostl.LockfreeHashMap

open Interleaving HazardPtr HarrisMichael Chain

variable {ι K V : Type}

/-! ## Reversed words as numbers -/

/-- The reversed low 32 bits of a bucket or a hash. -/
def reversed (v : Word) : ℕ := (reverseBits (v.setWidth 32)).toNat

theorem reverseBits_reverseBits (v : BitVec 32) : reverseBits (reverseBits v) = v := by
  refine BitVec.eq_of_getLsbD_eq fun i hi => ?_
  rw [reverseBits_getLsbD _ hi, reverseBits_getLsbD _ (by omega), show 31 - (31 - i) = i by omega]

theorem reversed_testBit (v : Word) {i : ℕ} (hi : i < 32) :
    (reversed v).testBit i = v.toNat.testBit (31 - i) := by
  have hlow : 31 - i < 32 := by omega
  rw [reversed, BitVec.testBit_toNat, reverseBits_getLsbD _ hi, BitVec.getLsbD_setWidth,
    decide_eq_true hlow, Bool.true_and, ← BitVec.testBit_toNat]

theorem reversed_lt (v : Word) : reversed v < 2 ^ 32 := (reverseBits (v.setWidth 32)).isLt

section
variable {j : ℕ} {b v w : Word}

/-- The high `j` bits of the reversed word are the low `j` bits of the word. -/
theorem reversed_div_eq_iff (hj : j ≤ 32) :
    reversed v / 2 ^ (32 - j) = reversed w / 2 ^ (32 - j) ↔ v.toNat % 2 ^ j = w.toNat % 2 ^ j := by
  have hhigh : ∀ (u : Word) (i : ℕ), i < j →
      (reversed u / 2 ^ (32 - j)).testBit i = u.toNat.testBit (j - 1 - i) := by
    intro u i hi
    rw [Nat.testBit_div_two_pow, reversed_testBit u (by omega)]
    exact congrArg u.toNat.testBit (by omega)
  constructor
  · intro h
    refine Nat.eq_of_testBit_eq fun i => ?_
    rw [Nat.testBit_mod_two_pow, Nat.testBit_mod_two_pow]
    by_cases hi : i < j
    · have hbit := congrArg (Nat.testBit · (j - 1 - i)) h
      simp only [hhigh _ _ (show j - 1 - i < j by omega)] at hbit
      rw [show j - 1 - (j - 1 - i) = i by omega] at hbit
      rw [hbit]
    · simp [hi]
  · intro h
    refine Nat.eq_of_testBit_eq fun i => ?_
    by_cases hi : i < j
    · have hbit := congrArg (Nat.testBit · (j - 1 - i)) h
      simp only [Nat.testBit_mod_two_pow, show j - 1 - i < j by omega, decide_true,
        Bool.true_and] at hbit
      rw [hhigh v i hi, hhigh w i hi, hbit]
    · have hzero : ∀ u : Word, (reversed u / 2 ^ (32 - j)).testBit i = false := fun u => by
        rw [Nat.testBit_div_two_pow]
        refine Nat.testBit_lt_two_pow ((reversed_lt u).trans_le ?_)
        exact Nat.pow_le_pow_right (by decide) (by omega)
      rw [hzero v, hzero w]

/-- A bucket of a table of `2 ^ j` buckets, reversed, is a multiple of `2 ^ (32 - j)`. -/
theorem reversed_mod (hb : b.toNat < 2 ^ j) : reversed b % 2 ^ (32 - j) = 0 := by
  refine Nat.eq_of_testBit_eq fun i => ?_
  rw [Nat.testBit_mod_two_pow, Nat.zero_testBit]
  by_cases hi : i < 32 - j
  · rw [reversed_testBit b (by omega), Nat.testBit_lt_two_pow, Bool.and_false]
    exact hb.trans_le (Nat.pow_le_pow_right (by decide) (by omega))
  · simp [hi]

/-- **The words of a bucket are an interval** of reversed words. -/
theorem residue_iff (hj : j ≤ 32) (hb : b.toNat < 2 ^ j) (v : Word) :
    v.toNat % 2 ^ j = b.toNat ↔
      reversed b ≤ reversed v ∧ reversed v < reversed b + 2 ^ (32 - j) := by
  have hpos : 0 < 2 ^ (32 - j) := Nat.two_pow_pos _
  have hmul := Nat.div_add_mod (reversed b) (2 ^ (32 - j))
  rw [reversed_mod hb, Nat.add_zero] at hmul
  have hiff := reversed_div_eq_iff (v := v) (w := b) hj
  rw [Nat.mod_eq_of_lt hb] at hiff
  rw [← hiff]
  constructor
  · intro h
    have hv := Nat.div_add_mod (reversed v) (2 ^ (32 - j))
    have hlt := Nat.mod_lt (reversed v) hpos
    rw [h, hmul] at hv
    omega
  · rintro ⟨hle, hlt⟩
    refine Nat.div_eq_of_lt_le ?_ ?_
    · rw [Nat.mul_comm, hmul]
      exact hle
    · rw [Nat.add_mul, Nat.mul_comm, hmul, Nat.one_mul]
      exact hlt

/-! ## Sentinels and data -/

theorem bucketSplitKey_eq (b : Word) : (bucketSplitKey b).toNat = 2 * reversed b :=
  bucketSplitKey_toNat b

theorem dataSplitKey_eq (h : Word) : (dataSplitKey h).toNat = 2 * reversed h + 1 :=
  dataSplitKey_toNat h

/-- The data of a bucket comes behind its sentinel, and no sentinel of the table is in between. -/
theorem sentinel_before_data {h : Word} (hj : j ≤ 32) (hb : b.toNat = h.toNat % 2 ^ j) :
    bucketSplitKey b < dataSplitKey h ∧ ∀ b' : Word, b'.toNat < 2 ^ j →
      bucketSplitKey b ≤ bucketSplitKey b' → bucketSplitKey b' ≤ dataSplitKey h → b' = b := by
  have hlt : b.toNat < 2 ^ j := hb ▸ Nat.mod_lt _ (Nat.two_pow_pos j)
  obtain ⟨hle, hup⟩ := (residue_iff hj hlt h).mp hb.symm
  refine ⟨?_, fun b' hb' h₁ h₂ => ?_⟩
  · rw [BitVec.lt_def, bucketSplitKey_eq, dataSplitKey_eq]
    omega
  · rw [BitVec.le_def, bucketSplitKey_eq, bucketSplitKey_eq] at h₁
    rw [BitVec.le_def, bucketSplitKey_eq, dataSplitKey_eq] at h₂
    have hres := (residue_iff hj hlt b').mpr ⟨by omega, by omega⟩
    rw [Nat.mod_eq_of_lt hb'] at hres
    exact BitVec.eq_of_toNat_eq hres

/-- The two buckets that a bucket becomes when the table doubles have intervals side by side. -/
theorem reversed_new {b' : Word} (hj : j < 32) (hb : b.toNat < 2 ^ j)
    (hb' : b'.toNat = b.toNat + 2 ^ j) :
    reversed b' = reversed b + 2 ^ (31 - j) ∧ 2 ^ (32 - j) = 2 * 2 ^ (31 - j) := by
  have hwidth : 2 ^ (32 - j) = 2 * 2 ^ (31 - j) := by
    rw [show 32 - j = 31 - j + 1 by omega, pow_succ, Nat.mul_comm]
  refine ⟨?_, hwidth⟩
  have hpos := Nat.two_pow_pos j
  have hpow : 2 ^ (j + 1) = 2 * 2 ^ j := by rw [pow_succ, Nat.mul_comm]
  have hexp : 32 - (j + 1) = 31 - j := by omega
  have hmod : b'.toNat % 2 ^ j = b.toNat := by rw [hb', Nat.add_mod_right, Nat.mod_eq_of_lt hb]
  obtain ⟨hle, hup⟩ := (residue_iff hj.le hb b').mp hmod
  have hout : ¬ reversed b' < reversed b + 2 ^ (31 - j) := fun hlt => by
    have hres := (residue_iff (j := j + 1) hj (by omega) b').mpr ⟨hle, by rwa [hexp]⟩
    rw [Nat.mod_eq_of_lt (by omega)] at hres
    omega
  have hd : 2 ^ (31 - j) ∣ reversed b' - reversed b := by
    have h₁ := reversed_mod (j := j + 1) (b := b) (by omega)
    have h₂ := reversed_mod (j := j + 1) (b := b') (by omega)
    rw [hexp] at h₁ h₂
    exact Nat.dvd_sub (Nat.dvd_of_mod_eq_zero h₂) (Nat.dvd_of_mod_eq_zero h₁)
  have hstep := Nat.eq_of_dvd_of_lt_two_mul (by omega) hd (by omega)
  omega

/-- The sentinel of the new bucket of a doubled table: behind that of the old bucket, and before the
next one of the old table. -/
theorem new_sentinel {b' : Word} (hj : j < 32) (hb : b.toNat < 2 ^ j)
    (hb' : b'.toNat = b.toNat + 2 ^ j) :
    bucketSplitKey b < bucketSplitKey b' ∧ ∀ x : Word, x.toNat < 2 ^ j →
      bucketSplitKey b < bucketSplitKey x → bucketSplitKey b' < bucketSplitKey x := by
  obtain ⟨hnew, hwidth⟩ := reversed_new hj hb hb'
  have hpos := Nat.two_pow_pos (31 - j)
  refine ⟨?_, fun x hx hlt => ?_⟩
  · rw [BitVec.lt_def, bucketSplitKey_eq, bucketSplitKey_eq]
    omega
  · rw [BitVec.lt_def, bucketSplitKey_eq, bucketSplitKey_eq] at hlt ⊢
    have hout : ¬ reversed x < reversed b + 2 ^ (32 - j) := fun hin => by
      have hres := (residue_iff hj.le hb x).mpr ⟨by omega, hin⟩
      rw [Nat.mod_eq_of_lt hx] at hres
      rw [BitVec.eq_of_toNat_eq hres] at hlt
      omega
    omega
end

/-! ## Segments of a list -/

/-- A list that is ordered by a key is cut by a bound. -/
theorem filter_lt_append {α β : Type} [LinearOrder β] (key : α → β) (k : β) : ∀ {l : List α},
    l.Pairwise (fun a b => key a ≤ key b) →
      l.filter (fun a => key a < k) ++ l.filter (fun a => k ≤ key a) = l
  | [], _ => rfl
  | a :: l, h => by
    obtain ⟨ha, hl⟩ := List.pairwise_cons.mp h
    by_cases hk : key a < k
    · rw [List.filter_cons_of_pos (by simpa using hk), List.filter_cons_of_neg (by simpa using hk),
        List.cons_append, filter_lt_append key k hl]
    · -- everything behind `a` is at least as large
      have hall : ∀ b ∈ l, k ≤ key b := fun b hb => (not_lt.mp hk).trans (ha b hb)
      have hnone : l.filter (fun b => key b < k) = [] :=
        List.filter_eq_nil_iff.mpr fun b hb => by simpa using hall b hb
      have hsome : l.filter (fun b => k ≤ key b) = l :=
        List.filter_eq_self.mpr fun b hb => by simpa using hall b hb
      rw [List.filter_cons_of_neg (by simpa using hk), List.filter_cons_of_pos (by simpa using hk),
        hnone, hsome, List.nil_append]

/-- The node belongs to bucket `b` of a table of `2 ^ j` buckets: it holds a key whose hash does, or
is the sentinel of `b` or of a bucket that splits off `b` in a larger table. -/
def Belongs (hash : K → Word) (j : ℕ) (b : Word) (d : Data K) : Prop :=
  (∃ b', d = sentinelOf K b' ∧ b'.toNat % 2 ^ j = b.toNat) ∨
    ∃ key, d = dataOf hash key ∧ (hash key).toNat % 2 ^ j = b.toNat

variable {hash : K → Word} {j : ℕ} {b b' : Word}

/-- The nodes of a bucket are an interval of split keys. -/
theorem belongs_iff {d : Data K} (hj : j ≤ 32) (hb : b.toNat < 2 ^ j) (hd : Proper hash d) :
    Belongs hash j b d ↔ 2 * reversed b ≤ d.splitKey.toNat ∧
      d.splitKey.toNat < 2 * (reversed b + 2 ^ (32 - j)) := by
  constructor
  · rintro (⟨c, rfl, hc⟩ | ⟨key, rfl, hk⟩)
    · have hin := (residue_iff hj hb c).mp hc
      rw [sentinelOf, bucketSplitKey_eq]
      omega
    · have hin := (residue_iff hj hb (hash key)).mp hk
      rw [dataOf, dataSplitKey_eq]
      omega
  · rintro ⟨hle, hlt⟩
    rcases hd with ⟨c, rfl⟩ | ⟨key, rfl⟩
    · rw [sentinelOf, bucketSplitKey_eq] at hle hlt
      exact .inl ⟨c, rfl, (residue_iff hj hb c).mpr ⟨by omega, by omega⟩⟩
    · rw [dataOf, dataSplitKey_eq] at hle hlt
      exact .inr ⟨key, rfl, (residue_iff hj hb (hash key)).mpr ⟨by omega, by omega⟩⟩

/-- The segment of bucket `b` of a table of `2 ^ j` buckets is the one piece of the list between `p`
and `q`. When the table doubles, `x` is the segment of `b` and `y` that of the new bucket `b'`, with
the new sentinel between the two. -/
structure Splits (hash : K → Word) (j : ℕ) (b b' : Word) (p x y q l : List (Data K)) : Prop where
  list : l = p ++ (x ++ y) ++ q
  outside : ∀ d ∈ p ++ q, ¬ Belongs hash j b d
  inside : ∀ d ∈ x ++ y, Belongs hash j b d
  kept : ∀ d ∈ x, Belongs hash (j + 1) b d ∧ bucketSplitKey b ≤ d.splitKey ∧
    d.splitKey < bucketSplitKey b'
  new : ∀ d ∈ y, Belongs hash (j + 1) b' d ∧ bucketSplitKey b' ≤ d.splitKey

/-- **A segment splits into two.** -/
theorem split_segment {l : List (Data K)} (hj : j < 32) (hb : b.toNat < 2 ^ j)
    (hb' : b'.toNat = b.toNat + 2 ^ j)
    (hsorted : l.Pairwise fun d e => d.splitKey ≤ e.splitKey)
    (hproper : ∀ d ∈ l, Proper hash d) : ∃ p x y q, Splits hash j b b' p x y q l := by
  obtain ⟨hnew, hwidth⟩ := reversed_new hj hb hb'
  have hpos := Nat.two_pow_pos (31 - j)
  have hpow : 2 ^ (j + 1) = 2 * 2 ^ j := by rw [pow_succ, Nat.mul_comm]
  have hexp : 32 - (j + 1) = 31 - j := by omega
  -- the list is cut at the old sentinel, at the new one and at the end of the old segment
  let key : Data K → ℕ := fun d => d.splitKey.toNat
  let l₁ := l.filter fun d => 2 * reversed b ≤ key d
  let l₂ := l₁.filter fun d => 2 * reversed b' ≤ key d
  have hs₁ := hsorted.filter fun d => decide (2 * reversed b ≤ key d)
  have hs₂ := hs₁.filter fun d => decide (2 * reversed b' ≤ key d)
  have hcut₀ := filter_lt_append key (2 * reversed b) hsorted
  have hcut₁ := filter_lt_append key (2 * reversed b') hs₁
  have hcut₂ := filter_lt_append key (2 * (reversed b + 2 ^ (32 - j))) hs₂
  have hold : ∀ d ∈ l, _ := fun d hd => belongs_iff hj.le hb (hproper d hd)
  have hkept : ∀ d ∈ l, _ := fun d hd =>
    belongs_iff (j := j + 1) hj (by omega : b.toNat < 2 ^ (j + 1)) (hproper d hd)
  have hmoved : ∀ d ∈ l, _ := fun d hd =>
    belongs_iff (j := j + 1) hj (by omega : b'.toNat < 2 ^ (j + 1)) (hproper d hd)
  rw [hexp] at hkept hmoved
  refine ⟨l.filter fun d => key d < 2 * reversed b, l₁.filter fun d => key d < 2 * reversed b',
    l₂.filter fun d => key d < 2 * (reversed b + 2 ^ (32 - j)),
    l₂.filter fun d => 2 * (reversed b + 2 ^ (32 - j)) ≤ key d, ?_, ?_, ?_, ?_, ?_⟩
  · rw [List.append_assoc, List.append_assoc, hcut₂, hcut₁, hcut₀]
  · intro d hd
    simp only [l₁, l₂, key, List.mem_append, List.mem_filter, decide_eq_true_eq] at hd
    rcases hd with ⟨hl, hlt⟩ | ⟨⟨⟨hl, -⟩, -⟩, hge⟩
    · rw [hold d hl]; omega
    · rw [hold d hl]; omega
  · intro d hd
    simp only [l₁, l₂, key, List.mem_append, List.mem_filter, decide_eq_true_eq] at hd
    rcases hd with ⟨⟨hl, hge⟩, hlt⟩ | ⟨⟨⟨hl, hge⟩, -⟩, hlt⟩
    · rw [hold d hl]; omega
    · rw [hold d hl]; omega
  · intro d hd
    simp only [l₁, key, List.mem_filter, decide_eq_true_eq] at hd
    obtain ⟨⟨hl, hge⟩, hlt⟩ := hd
    rw [hkept d hl, BitVec.le_def, BitVec.lt_def, bucketSplitKey_eq, bucketSplitKey_eq]
    omega
  · intro d hd
    simp only [l₁, l₂, key, List.mem_filter, decide_eq_true_eq] at hd
    obtain ⟨⟨⟨hl, -⟩, hge⟩, hlt⟩ := hd
    rw [hmoved d hl, BitVec.le_def, bucketSplitKey_eq]
    omega

section
variable [LT K] [DecidableLT K] [Inhabited K] [DecidableEq ι]

/-- The lists of the map's runs are such lists. -/
theorem list_segments [IsTrans K (· < ·)] {count : Word} {m : ℕ} {h : List (Step ι K V)}
    {c : Config ι (Shared ι K V) (Local K V)} (hj : j < 32) (hb : b.toNat < 2 ^ j)
    (hb' : b'.toNat = b.toNat + 2 ^ j)
    (hr : (program hash).Run (fun _ c _ k => NoReuse c k) (initial count m) h c) :
    ∃ p x y q, Splits hash j b b' p x y q
      ((nodes c.shared.mem.next (some head)).map c.shared.mem.data) := by
  have hI : Inv hash (Inserted h) c.shared c.loc (instants h) := by
    refine hr.induction (I := fun h c => Inv hash (Inserted h) c.shared c.loc (instants h))
      inv_initial ?_
    rintro h c t k ev s l - hI hok hs
    exact (inv_step hI (step_move hash hs) hok).1
  obtain ⟨l, hc⟩ := hI.chain
  rw [nodes_eq hc.chain]
  refine split_segment hj hb hb' ?_ ?_
  · refine List.pairwise_map.mpr (hc.sorted.imp ?_)
    rintro a a' (hlt | ⟨heq, -⟩)
    · exact BitVec.le_of_lt hlt
    · exact BitVec.le_of_eq heq
  · intro d hd
    obtain ⟨a, ha, rfl⟩ := List.mem_map.mp hd
    exact hI.proper a (hc.mem a ha)
end

/-! ## Split ordering -/

/-- **Split ordering is correct**, for every table of `2 ^ j` buckets and every hash `h` with its
bucket `b`. -/
theorem split_order {j : ℕ} (hj : j ≤ 32) {h b : Word} (hb : b.toNat = h.toNat % 2 ^ j) :
    (∀ v i, i < 32 → (reverseBits v).getLsbD i = v.getLsbD (31 - i)) ∧
    (∀ v, reverseBits (reverseBits v) = v) ∧
    bucketSplitKey b < dataSplitKey h ∧
    (∀ b' : Word, b'.toNat < 2 ^ j → bucketSplitKey b ≤ bucketSplitKey b' →
      bucketSplitKey b' ≤ dataSplitKey h → b' = b) ∧
    (b ≠ 0 → (∀ i, (parent b).getLsbD i = (b.getLsbD i && decide (i ≠ b.toNat.log2))) ∧
      bucketSplitKey (parent b) < bucketSplitKey b) ∧
    (j < 32 → ∀ b' : Word, b'.toNat = b.toNat + 2 ^ j →
      bucketSplitKey b < bucketSplitKey b' ∧
      (∀ x : Word, x.toNat < 2 ^ j → bucketSplitKey b < bucketSplitKey x →
        bucketSplitKey b' < bucketSplitKey x) ∧
      ∀ (K : Type) (hash : K → Word) (l : List (Data K)),
        l.Pairwise (fun d e => d.splitKey ≤ e.splitKey) → (∀ d ∈ l, Proper hash d) →
          ∃ p x y q, Splits hash j b b' p x y q l) := by
  have hlt : b.toNat < 2 ^ j := hb ▸ Nat.mod_lt _ (Nat.two_pow_pos j)
  obtain ⟨hdata, hnone⟩ := sentinel_before_data hj hb
  refine ⟨fun v i hi => reverseBits_getLsbD v hi, reverseBits_reverseBits, hdata, hnone, ?_, ?_⟩
  · intro h0
    have h32 : b.toNat < 2 ^ 32 := hlt.trans_le (Nat.pow_le_pow_right (by decide) hj)
    exact ⟨parent_getLsbD h0, bucketSplitKey_lt_of_and (parent_and h0) (parent_ne h0) h32⟩
  · intro hj' b' hb'
    obtain ⟨hnew, hnext⟩ := new_sentinel hj' hlt hb'
    exact ⟨hnew, hnext, fun K hash l hs hp => split_segment hj' hlt hb' hs hp⟩

theorem split_order_three : bucketSplitKey 3 < dataSplitKey 11 ∧
    (∀ b' : Word, b'.toNat < 2 ^ 2 → bucketSplitKey 3 ≤ bucketSplitKey b' →
      bucketSplitKey b' ≤ dataSplitKey 11 → b' = 3) ∧
    bucketSplitKey (parent 3) < bucketSplitKey 3 ∧ bucketSplitKey 3 < bucketSplitKey 7 := by
  obtain ⟨-, -, hdata, hnone, hparent, hsplit⟩ :=
    split_order (j := 2) (by decide) (show (3 : Word).toNat = (11 : Word).toNat % 2 ^ 2 by decide)
  exact ⟨hdata, hnone, (hparent (by decide)).2, (hsplit (by decide) 7 (by decide)).1⟩

end Bonostl.LockfreeHashMap
