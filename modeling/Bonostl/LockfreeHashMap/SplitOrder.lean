import Mathlib.Data.BitVec
import Mathlib.Tactic.IntervalCases

/-!
# Split order (`lockfree_hash_map.hpp`)

The keys that order the list of `lockfree_hash_map`. A `std::size_t` has 64 bits. `bucket_split_key`
and `data_split_key` reverse the low 32 bits of a bucket or a hash; taking bits away from the
argument makes the result smaller (`bucketSplitKey_le_of_and`), so the sentinel of a bucket comes
before the data of its hashes, and that of its parent (`parent_and`) before its own.
-/

namespace Bonostl.LockfreeHashMap

/-- `std::size_t` and `std::uint64_t`. -/
abbrev Word := BitVec 64

/-- `normalize_bucket_count`, for at most `fuel` rounds of its loop. -/
def normalizeLoop (n : Word) : ℕ → Word → Option Word
  | 0, _ => none
  | fuel + 1, count => if count < n then normalizeLoop n fuel (count <<< 1) else some count

/-- `normalize_bucket_count`; `none` when the loop does not end. -/
def normalizeBucketCount (n : Word) : Option Word := normalizeLoop n 65 1

/-- `reverse_bits`. -/
def reverseBits (v : BitVec 32) : BitVec 32 :=
  let v := ((v >>> 1) &&& 0x55555555) ||| ((v &&& 0x55555555) <<< 1)
  let v := ((v >>> 2) &&& 0x33333333) ||| ((v &&& 0x33333333) <<< 2)
  let v := ((v >>> 4) &&& 0x0F0F0F0F) ||| ((v &&& 0x0F0F0F0F) <<< 4)
  let v := ((v >>> 8) &&& 0x00FF00FF) ||| ((v &&& 0x00FF00FF) <<< 8)
  (v >>> 16) ||| (v <<< 16)

/-- `bucket_split_key`. -/
def bucketSplitKey (bucket : Word) : Word := (reverseBits (bucket.setWidth 32)).setWidth 64 <<< 1

/-- `data_split_key`. -/
def dataSplitKey (hash : Word) : Word := ((reverseBits (hash.setWidth 32)).setWidth 64 <<< 1) ||| 1

/-- `bucket_of`, with the bucket count that was loaded. -/
def bucketOf (bucketCount hash : Word) : Word := hash &&& (bucketCount - 1)

/-- `std::bit_floor`. -/
def bitFloor (n : Word) : Word := if n = 0 then 0 else BitVec.ofNat 64 (2 ^ n.toNat.log2)

/-- The parent of a bucket: its most significant bit cleared. -/
def parent (bucket : Word) : Word := bucket ^^^ bitFloor bucket

/-! ## Bucket counts -/

theorem normalizeLoop_le {n : Word} {fuel : ℕ} {count r : Word}
    (h : normalizeLoop n fuel count = some r) : n ≤ r := by
  induction fuel generalizing count with
  | zero => cases h
  | succ fuel ih =>
    rw [normalizeLoop] at h
    split at h
    · exact ih h
    · cases h
      exact BitVec.not_lt.mp ‹_›

/-- A bucket count is not zero. -/
theorem normalizeBucketCount_ne_zero {n count : Word} (h : normalizeBucketCount n = some count) :
    count ≠ 0 := by
  rintro rfl
  have hn : n = 0 := BitVec.le_zero_iff.mp (normalizeLoop_le h)
  subst hn
  exact absurd h (by decide)

/-- The loop stops at the first power of two that is not below `n`. -/
theorem normalizeLoop_eq {n : Word} (hn : n.toNat ≤ 2 ^ 63) : ∀ (fuel i : ℕ) {count : Word},
    count.toNat = 2 ^ i → i ≤ 63 → 63 < fuel + i →
    ∃ k r, k ≤ 63 ∧ normalizeLoop n fuel count = some r ∧ r.toNat = 2 ^ k ∧ i ≤ k ∧
      ∀ j, i ≤ j → j < k → 2 ^ j < n.toNat
  | 0, i, _, _, hi, hf => by omega
  | fuel + 1, i, count, hcount, hi, hf => by
    rw [normalizeLoop]
    split
    · rename_i hlt
      have hin : 2 ^ i < n.toNat := hcount ▸ BitVec.lt_def.mp hlt
      have hi63 : i < 63 := by
        by_contra hge
        obtain rfl : i = 63 := by omega
        omega
      have hpow : 2 ^ i * 2 < 2 ^ 64 := by
        have := Nat.pow_lt_pow_right (by decide : 1 < 2) (show i + 1 < 64 by omega)
        rwa [pow_succ] at this
      have hnext : (count <<< 1).toNat = 2 ^ (i + 1) := by
        rw [BitVec.toNat_shiftLeft, Nat.shiftLeft_eq, hcount, pow_one, Nat.mod_eq_of_lt hpow,
          pow_succ]
      obtain ⟨k, r, hk, hr, hpk, hik, hbelow⟩ :=
        normalizeLoop_eq hn fuel (i + 1) hnext hi63 (by omega)
      refine ⟨k, r, hk, hr, hpk, by omega, fun j hij hjk => ?_⟩
      rcases Nat.eq_or_lt_of_le hij with rfl | hij
      · exact hin
      · exact hbelow j hij hjk
    · exact ⟨i, count, hi, rfl, hcount, le_refl i, fun j hij hji => absurd hij (by omega)⟩

/-- **`normalize_bucket_count` returns a power of two** for up to `2 ^ 63` buckets. -/
theorem normalizeBucketCount_eq {n : Word} (hn : n.toNat ≤ 2 ^ 63) :
    ∃ k r, k ≤ 63 ∧ normalizeBucketCount n = some r ∧ r.toNat = 2 ^ k := by
  obtain ⟨k, r, hk, hr, hpow, -⟩ :=
    normalizeLoop_eq hn 65 0 (show (1 : Word).toNat = 2 ^ 0 from rfl) (by decide) (by decide)
  exact ⟨k, r, hk, hr, hpow⟩

/-- A bucket of at most `2 ^ 32` fits in 32 bits. -/
theorem bucketOf_lt {count hash : Word} (hc : count ≠ 0) (h32 : count.toNat ≤ 2 ^ 32) :
    (bucketOf count hash).toNat < 2 ^ 32 := by
  have hpos : count.toNat ≠ 0 := by simpa [BitVec.toNat_eq] using hc
  have hle : (bucketOf count hash).toNat ≤ (count - 1).toNat := by
    rw [bucketOf, BitVec.toNat_and]
    exact Nat.and_le_right
  have hsub : (count - 1).toNat = count.toNat - 1 := by
    rw [BitVec.toNat_sub_of_le (BitVec.le_def.mpr (by simpa using Nat.one_le_iff_ne_zero.mpr hpos))]
    simp
  omega

/-! ## Bit reversal -/

/-- **`reverse_bits` reverses 32 bits.** -/
theorem reverseBits_getLsbD (v : BitVec 32) {i : ℕ} (hi : i < 32) :
    (reverseBits v).getLsbD i = v.getLsbD (31 - i) := by
  unfold reverseBits
  interval_cases i <;> simp

theorem reverseBits_and (v w : BitVec 32) :
    reverseBits (v &&& w) = reverseBits v &&& reverseBits w := by
  refine BitVec.eq_of_getLsbD_eq fun i hi => ?_
  rw [BitVec.getLsbD_and, reverseBits_getLsbD _ hi, reverseBits_getLsbD _ hi,
    reverseBits_getLsbD _ hi, BitVec.getLsbD_and]

theorem reverseBits_inj {v w : BitVec 32} (h : reverseBits v = reverseBits w) : v = w := by
  refine BitVec.eq_of_getLsbD_eq fun i hi => ?_
  have hb := congrArg (BitVec.getLsbD · (31 - i)) h
  rw [reverseBits_getLsbD _ (by omega), reverseBits_getLsbD _ (by omega)] at hb
  rwa [show 31 - (31 - i) = i by omega] at hb

/-! ## Split keys -/

theorem bucketSplitKey_toNat (b : Word) :
    (bucketSplitKey b).toNat = 2 * (reverseBits (b.setWidth 32)).toNat := by
  have hlt := (reverseBits (b.setWidth 32)).isLt
  simp only [bucketSplitKey, BitVec.toNat_shiftLeft, BitVec.toNat_setWidth, Nat.shiftLeft_eq]
  omega

theorem dataSplitKey_toNat (h : Word) :
    (dataSplitKey h).toNat = 2 * (reverseBits (h.setWidth 32)).toNat + 1 := by
  have hb := bucketSplitKey_toNat h
  have hor : dataSplitKey h = bucketSplitKey h ||| 1 := rfl
  rw [hor, BitVec.toNat_or, hb]
  exact (Nat.two_pow_add_eq_or_of_lt (i := 1) (by decide : 1 < 2 ^ 1) _).symm

/-- A bucket key is no data key. -/
theorem bucketSplitKey_ne_dataSplitKey (b h : Word) : bucketSplitKey b ≠ dataSplitKey h := by
  intro he
  have ht := congrArg BitVec.toNat he
  rw [bucketSplitKey_toNat, dataSplitKey_toNat] at ht
  omega

theorem bucketSplitKey_inj {a b : Word} (h : bucketSplitKey a = bucketSplitKey b) :
    a.setWidth 32 = b.setWidth 32 := by
  refine reverseBits_inj (BitVec.eq_of_toNat_eq ?_)
  have ht := congrArg BitVec.toNat h
  rw [bucketSplitKey_toNat, bucketSplitKey_toNat] at ht
  omega

/-- Fewer bits, smaller key. -/
theorem reverseBits_le_of_and {a b : Word} (h : a &&& b = a) :
    (reverseBits (a.setWidth 32)).toNat ≤ (reverseBits (b.setWidth 32)).toNat := by
  have hw : reverseBits (a.setWidth 32) =
      reverseBits (a.setWidth 32) &&& reverseBits (b.setWidth 32) := by
    rw [← reverseBits_and, ← BitVec.setWidth_and, h]
  rw [hw, BitVec.toNat_and]
  exact Nat.and_le_right

theorem bucketSplitKey_le_of_and {a b : Word} (h : a &&& b = a) :
    bucketSplitKey a ≤ bucketSplitKey b := by
  rw [BitVec.le_def, bucketSplitKey_toNat, bucketSplitKey_toNat]
  have := reverseBits_le_of_and h
  omega

/-- Fewer bits of a bucket that fits in 32 bits, smaller key. -/
theorem bucketSplitKey_lt_of_and {a b : Word} (h : a &&& b = a) (hne : a ≠ b)
    (h32 : b.toNat < 2 ^ 32) : bucketSplitKey a < bucketSplitKey b := by
  refine BitVec.lt_of_le_ne (bucketSplitKey_le_of_and h) fun he => hne ?_
  have hle : a.toNat ≤ b.toNat := by
    rw [← h, BitVec.toNat_and]
    exact Nat.and_le_right
  have ht := congrArg BitVec.toNat (bucketSplitKey_inj he)
  rw [BitVec.toNat_setWidth, BitVec.toNat_setWidth, Nat.mod_eq_of_lt (by omega),
    Nat.mod_eq_of_lt h32] at ht
  exact BitVec.eq_of_toNat_eq ht

/-- The sentinel of a bucket comes before the data of its hashes. -/
theorem bucketSplitKey_lt_dataSplitKey (count hash : Word) :
    bucketSplitKey (bucketOf count hash) < dataSplitKey hash := by
  have hle := reverseBits_le_of_and (a := bucketOf count hash) (b := hash) (by
    unfold bucketOf
    rw [BitVec.and_assoc, BitVec.and_comm (count - 1), ← BitVec.and_assoc, BitVec.and_self])
  rw [BitVec.lt_def, bucketSplitKey_toNat, dataSplitKey_toNat]
  omega

/-! ## Parents -/

theorem bitFloor_getLsbD {b : Word} (hb : b ≠ 0) (i : ℕ) :
    (bitFloor b).getLsbD i = decide (i = b.toNat.log2) := by
  have hpos : b.toNat ≠ 0 := by simpa [BitVec.toNat_eq] using hb
  have hlog : b.toNat.log2 < 64 := (Nat.log2_lt hpos).mpr b.isLt
  unfold bitFloor
  rw [if_neg hb, BitVec.getLsbD_ofNat, Nat.testBit_two_pow]
  by_cases hi : i = b.toNat.log2
  · subst hi; simp [hlog]
  · simp [hi, Ne.symm hi]

theorem getLsbD_log2 {b : Word} (hb : b ≠ 0) : b.getLsbD b.toNat.log2 = true := by
  have hpos : b.toNat ≠ 0 := by simpa [BitVec.toNat_eq] using hb
  rw [← BitVec.testBit_toNat]
  exact Nat.testBit_log2 hpos

/-- A parent has the bits of its bucket without the highest one. -/
theorem parent_getLsbD {b : Word} (hb : b ≠ 0) (i : ℕ) :
    (parent b).getLsbD i = (b.getLsbD i && decide (i ≠ b.toNat.log2)) := by
  unfold parent
  rw [BitVec.getLsbD_xor, bitFloor_getLsbD hb]
  by_cases hi : i = b.toNat.log2
  · subst hi; simp [getLsbD_log2 hb]
  · simp [hi]

theorem parent_and {b : Word} (hb : b ≠ 0) : parent b &&& b = parent b := by
  refine BitVec.eq_of_getLsbD_eq fun i _ => ?_
  rw [BitVec.getLsbD_and, parent_getLsbD hb]
  cases b.getLsbD i <;> simp

theorem parent_toNat_le (b : Word) : (parent b).toNat ≤ b.toNat := by
  by_cases hb : b = 0
  · subst hb; decide
  · rw [← parent_and hb, BitVec.toNat_and]
    exact Nat.and_le_right

theorem parent_ne {b : Word} (hb : b ≠ 0) : parent b ≠ b := by
  intro he
  have hbit := congrArg (BitVec.getLsbD · b.toNat.log2) he
  simp [parent_getLsbD hb, getLsbD_log2 hb] at hbit

end Bonostl.LockfreeHashMap
