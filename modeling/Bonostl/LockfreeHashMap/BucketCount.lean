import Bonostl.LockfreeHashMap.Model
import Mathlib.Order.Bounds.Basic

/-!
# The bucket counts of `lockfree_hash_map`

`bucket_of` masks the hash with `bucket_count - 1`, which is the remainder by a power of two
(`IsModulus`). `normalize_bucket_count` doubles 1 until it is not below `n`; for more than `2 ^ 63`
buckets the count becomes 0 and stays below `n`, and the loop does not end
(`normalizeLoop_eq_none`). `grow` doubles in the same way, from any thread: the one doubling that
leaves the powers of two is that of `2 ^ 63` (`Wraps`), and `bucket_count` is 0 from then on.

The counter decides when `grow` doubles, and it can wrap (`Counter.lean`): three threads on a map of
`2 ^ 63` buckets are enough (`bucket_count_zero`).
-/

namespace Bonostl.LockfreeHashMap

open Interleaving

variable {ι K V : Type}

/-- `bucket_of` is the remainder by the bucket count. -/
def IsModulus (count : Word) : Prop :=
  count ≠ 0 ∧ ∀ hash, (bucketOf count hash).toNat = hash.toNat % count.toNat

/-- The powers of two that are at least `n` and at least 1. -/
def BucketCounts (n : Word) : Set ℕ := {p | (∃ k, p = 2 ^ k) ∧ max n.toNat 1 ≤ p}

theorem isModulus_two_pow {count : Word} {k : ℕ} (hk : count.toNat = 2 ^ k) : IsModulus count := by
  have hpos : 1 ≤ count.toNat := hk ▸ Nat.one_le_two_pow
  refine ⟨fun h => ?_, fun hash => ?_⟩
  · rw [h] at hpos
    exact absurd hpos (by decide)
  · have hsub : (count - 1).toNat = count.toNat - 1 := by
      rw [BitVec.toNat_sub_of_le (BitVec.le_def.mpr (by simpa using hpos))]
      simp
    rw [bucketOf, BitVec.toNat_and, hsub, hk, Nat.and_two_pow_sub_one_eq_mod]

/-! ## `normalize_bucket_count` -/

/-- A count that was doubled up to `2 ^ 63` is 0 next, and never reaches a larger `n`. -/
theorem normalizeLoop_eq_none {n : Word} (hn : 2 ^ 63 < n.toNat) : ∀ (fuel : ℕ) {count : Word},
    (∃ i, count.toNat = 2 ^ i % 2 ^ 64) → normalizeLoop n fuel count = none
  | 0, _, _ => rfl
  | fuel + 1, count, ⟨i, hi⟩ => by
    have hsmall : 2 ^ i % 2 ^ 64 ≤ 2 ^ 63 := by
      rcases Nat.lt_or_ge i 64 with hlt | hge
      · exact (Nat.mod_le _ _).trans (Nat.pow_le_pow_right (by decide) (by omega))
      · rw [Nat.mod_eq_zero_of_dvd (Nat.pow_dvd_pow 2 hge)]
        exact Nat.zero_le _
    have hlt : count < n := BitVec.lt_def.mpr (by omega)
    rw [normalizeLoop, if_pos hlt]
    refine normalizeLoop_eq_none hn fuel ⟨i + 1, ?_⟩
    rw [BitVec.toNat_shiftLeft, Nat.shiftLeft_eq, hi, Nat.mod_mul_mod, ← pow_add]

/-- What the loop returns is the least of these powers of two. -/
theorem normalizeLoop_isLeast {n : Word} (hn : n.toNat ≤ 2 ^ 63) :
    ∃ r, normalizeBucketCount n = some r ∧ IsLeast (BucketCounts n) r.toNat := by
  obtain ⟨k, r, hk, hr, hpow, hk0, hbelow⟩ :=
    normalizeLoop_eq hn 65 0 (show (1 : Word).toNat = 2 ^ 0 from rfl) (by decide) (by decide)
  refine ⟨r, hr, ⟨⟨k, hpow⟩, max_le (BitVec.le_def.mp (normalizeLoop_le hr)) ?_⟩, ?_⟩
  · rw [hpow]
    exact Nat.one_le_two_pow
  · intro p hp
    obtain ⟨⟨j, hj⟩, hmax⟩ := hp
    subst hj
    rw [hpow]
    refine Nat.pow_le_pow_right (by decide) ?_
    by_contra hjk
    have hlt := hbelow j (Nat.zero_le j) (Nat.not_le.mp hjk)
    exact absurd ((le_max_left n.toNat 1).trans hmax) (Nat.not_le.mpr hlt)

/-- **The loop ends** exactly for up to `2 ^ 63` buckets. -/
theorem normalize_iff (n : Word) :
    ((∃ fuel r, normalizeLoop n fuel 1 = some r ∧ IsLeast (BucketCounts n) r.toNat) ↔
      n.toNat ≤ 2 ^ 63) ∧
    (2 ^ 63 < n.toNat → ∀ fuel, normalizeLoop n fuel 1 = none) := by
  have hnone : 2 ^ 63 < n.toNat → ∀ fuel, normalizeLoop n fuel 1 = none := fun hn fuel =>
    normalizeLoop_eq_none hn fuel ⟨0, rfl⟩
  refine ⟨⟨?_, fun hn => ?_⟩, hnone⟩
  · rintro ⟨fuel, r, hr, -⟩
    by_contra hn
    rw [hnone (Nat.not_le.mp hn) fuel] at hr
    cases hr
  · obtain ⟨r, hr, hleast⟩ := normalizeLoop_isLeast hn
    exact ⟨65, r, hr, hleast⟩

/-- A map was constructed: its bucket count is a power of two. -/
theorem two_pow_of_normalize {n count : Word} (h : normalizeBucketCount n = some count) :
    ∃ k ≤ 63, count.toNat = 2 ^ k := by
  have hn : n.toNat ≤ 2 ^ 63 := by
    by_contra hn
    rw [normalizeBucketCount, (normalize_iff n).2 (Nat.not_le.mp hn)] at h
    cases h
  obtain ⟨k, r, hk, hr, hpow⟩ := normalizeBucketCount_eq hn
  obtain rfl : count = r := Option.some.inj (h.symm.trans hr)
  exact ⟨k, hk, hpow⟩

/-! ## `grow` -/

/-- The next step doubles a bucket count of `count`. -/
def Pc.doubles (count : Word) : Pc K V → Bool
  | .growCas expected => count == expected
  | _ => false

/-- The step doubles a bucket count of `2 ^ 63`. -/
def Wraps (r : Step ι K V) : Prop :=
  (r.pre.loc r.tid).pc.doubles r.pre.shared.bucketCount = true ∧
    r.pre.shared.bucketCount.toNat = 2 ^ 63

section
variable [LT K] [DecidableLT K] [Inhabited K] {hash : K → Word} {t : ι} {s s' : Shared ι K V}
  {k : Choice K V} {ev : Event (Op K V) (Res V)} {l l' : Local K V}

/-- Only the compare-exchange of `grow` changes the bucket count, and it doubles it. -/
theorem step_bucketCount (hs : step hash t k s l = some (ev, s', l')) :
    s'.bucketCount = if l.pc.doubles s.bucketCount then s.bucketCount * 2 else s.bucketCount := by
  cases step_move hash hs with
  | growCas i count hc =>
    subst hc
    rw [if_pos (by simp [Pc.doubles])]
  | growCasFail i count =>
    by_cases hc : s.bucketCount = count
    · -- a strong compare-exchange of the value that is there does not fail
      simp only [step, hc, if_true, Option.some.injEq, Prod.mk.injEq] at hs
      have hb := congrArg Shared.bucketCount hs.2.1
      rw [if_pos (by simp [Pc.doubles, hc]), hc]
      exact hc.symm.trans hb.symm
    · rw [if_neg (by simp [Pc.doubles, hc])]
  | _ => rfl

variable [DecidableEq ι] {n count : Word} {m : ℕ} {h : List (Step ι K V)}
  {c : Config ι (Shared ι K V) (Local K V)}

/-- Doubling `2 ^ k`. -/
theorem toNat_double {count : Word} {k : ℕ} (hk : count.toNat = 2 ^ k) (hlt : k < 63) :
    (count * 2).toNat = 2 ^ (k + 1) := by
  have hpow := Nat.pow_lt_pow_right (by decide : 1 < 2) (show k + 1 < 64 by omega)
  rw [BitVec.toNat_mul, hk, pow_succ]
  rw [pow_succ] at hpow
  exact Nat.mod_eq_of_lt hpow

/-- Every bucket count of a run is a power of two, or 0 after a doubling of `2 ^ 63`. -/
theorem bucketCount_run (hcount : normalizeBucketCount n = some count)
    (hr : (program hash).Run Program.anyStep (initial count m) h c) :
    ((∃ k ≤ 63, c.shared.bucketCount.toNat = 2 ^ k) ∧ ∀ r ∈ h, ¬ Wraps r) ∨
      (c.shared.bucketCount = 0 ∧ ∃ r ∈ h, Wraps r) := by
  refine hr.induction (I := fun h c =>
    ((∃ k ≤ 63, c.shared.bucketCount.toNat = 2 ^ k) ∧ ∀ r ∈ h, ¬ Wraps r) ∨
      (c.shared.bucketCount = 0 ∧ ∃ r ∈ h, Wraps r)) (.inl ⟨two_pow_of_normalize hcount, nofun⟩) ?_
  rintro h c t k ev s l - hI - hs
  have hb := step_bucketCount hs
  rcases hI with ⟨⟨j, hj, hpow⟩, hno⟩ | ⟨hzero, r, hr, hw⟩
  · by_cases hd : (c.loc t).pc.doubles c.shared.bucketCount = true
    · rw [if_pos hd] at hb
      rcases Nat.eq_or_lt_of_le hj with rfl | hlt
      · refine .inr ⟨BitVec.eq_of_toNat_eq ?_, _, List.mem_cons_self, hd, hpow⟩
        rw [Config.set_shared, hb, BitVec.toNat_mul, hpow]
        rfl
      · refine .inl ⟨⟨j + 1, hlt, ?_⟩, ?_⟩
        · rw [Config.set_shared, hb, toNat_double hpow hlt]
        · rintro r hr hw
          rcases List.mem_cons.mp hr with rfl | hr
          · exact absurd (Nat.pow_right_injective le_rfl (hpow.symm.trans hw.2)) (by omega)
          · exact hno r hr hw
    · rw [if_neg hd] at hb
      refine .inl ⟨⟨j, hj, by rw [Config.set_shared, hb, hpow]⟩, ?_⟩
      rintro r hr hw
      rcases List.mem_cons.mp hr with rfl | hr
      · exact hd hw.1
      · exact hno r hr hw
  · refine .inr ⟨?_, r, List.mem_cons_of_mem _ hr, hw⟩
    rw [Config.set_shared, hb, hzero]
    split <;> rfl

/-- **`bucket_of` is the remainder by the bucket count** in a state of a run, of any threads,
exactly when no step before it has doubled a bucket count of `2 ^ 63`. `normalize_bucket_count`
returns, and then the least power of two that is at least `n` and 1, exactly for up to `2 ^ 63`
buckets; its loop does not end for more. -/
theorem bucket_count_iff (hcount : normalizeBucketCount n = some count)
    (hr : (program hash).Run Program.anyStep (initial count m) h c) :
    (∀ n : Word,
      ((∃ fuel r, normalizeLoop n fuel 1 = some r ∧ IsLeast (BucketCounts n) r.toNat) ↔
        n.toNat ≤ 2 ^ 63) ∧
      (2 ^ 63 < n.toNat → ∀ fuel, normalizeLoop n fuel 1 = none)) ∧
    (IsModulus c.shared.bucketCount ↔ ∀ r ∈ h, ¬ Wraps r) := by
  refine ⟨normalize_iff, ?_⟩
  rcases bucketCount_run hcount hr with ⟨⟨k, -, hpow⟩, hno⟩ | ⟨hzero, r, hmem, hw⟩
  · exact ⟨fun _ => hno, fun _ => isModulus_two_pow hpow⟩
  · exact ⟨fun hm => absurd hzero hm.1, fun hno => absurd hw (hno r hmem)⟩
end

/-- Two keys are put into a map of one bucket; the second `put` doubles it. -/
def twoPuts : List (Unit × Choice ℕ ℕ) :=
  [turn () [.call (.put 2 7)] 2, turn () [.alloc 1] 16, turn () [.call (.put 4 7)] 2,
    turn () [.alloc 2] 23].flatten

theorem bucket_count_iff_two_puts :
    (∃ fuel r, normalizeLoop 0 fuel 1 = some r ∧ IsLeast (BucketCounts 0) r.toNat) ∧
    ∃ (h : List (Step Unit ℕ ℕ)) (c : Config Unit (Shared Unit ℕ ℕ) (Local ℕ ℕ)),
      (program fun _ : ℕ => 0).Run Program.anyStep (initial 1 0) h c ∧
      c.shared.bucketCount = 2 ∧ IsModulus c.shared.bucketCount := by
  obtain ⟨h, c, hr, hq⟩ := Program.replay_reaches (program fun _ : ℕ => (0 : Word)) (initial 1 0)
    twoPuts
    (fun h c => decide (c.shared.bucketCount = 2) &&
      h.all fun r => decide (r.pre.shared.bucketCount.toNat ≠ 2 ^ 63))
    (by decide)
  obtain ⟨hcount, hall⟩ := Bool.and_eq_true_iff.mp hq
  have hsmall : ∀ r ∈ h, ¬ Wraps r := by
    rintro r hr ⟨-, hw⟩
    exact of_decide_eq_true (List.all_eq_true.mp hall r hr) hw
  obtain ⟨hnormalize, hmodulus⟩ := bucket_count_iff (n := 0) (by decide) hr
  exact ⟨(hnormalize 0).1.mpr (by decide), h, c, hr, of_decide_eq_true hcount, hmodulus.mpr hsmall⟩

/-- Keys 2 and 4 are linked; before their `put`s count them, another thread erases both. Then the
first `put` goes on. -/
def countedLate : List (ℕ × Choice ℕ ℕ) :=
  [turn 0 [.call (.put 2 7)] 2, turn 0 [.alloc 1] 8, turn 1 [.call (.put 4 7)] 2,
  turn 1 [.alloc 2] 16,
    turn 2 [.call (.erase 2)] 35, turn 2 [.call (.erase 4)] 35, List.replicate 5 (0, .run)].flatten

/-- **The doubling wraps.** `normalize_bucket_count` does not return for `2 ^ 63 + 1` buckets. It
does for `2 ^ 63`, and in a map of so many buckets a `put` leaves the bucket count at 0. -/
theorem bucket_count_zero :
    (∀ fuel, normalizeLoop 0x8000000000000001 fuel 1 = none) ∧
    normalizeBucketCount 0x8000000000000000 = some 0x8000000000000000 ∧
    ∃ (h : List (Step ℕ ℕ ℕ)) (c : Config ℕ (Shared ℕ ℕ ℕ) (Local ℕ ℕ)),
      (program fun _ : ℕ => 0).Run Program.anyStep (initial 0x8000000000000000 0) h c ∧
      c.shared.bucketCount = 0 ∧ ¬ IsModulus c.shared.bucketCount := by
  refine ⟨(normalize_iff _).2 (by decide), by decide, ?_⟩
  obtain ⟨h, c, hr, hq⟩ := Program.replay_reaches (program fun _ : ℕ => (0 : Word))
    (initial 0x8000000000000000 0) countedLate (fun _ c => decide (c.shared.bucketCount = 0))
    (by set_option maxRecDepth 10000 in decide)
  exact ⟨h, c, hr, of_decide_eq_true hq, fun hm => hm.1 (of_decide_eq_true hq)⟩

end Bonostl.LockfreeHashMap
