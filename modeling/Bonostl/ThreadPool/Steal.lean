import Bonostl.ThreadPool.Model
import Mathlib.Data.List.Perm.Lattice
import Mathlib.Data.List.Nodup
import Mathlib.Data.List.Range

/-!
# Which queues a thread tries to steal from (`pop_task_from_other_thread_queue`)

`Steals` is the loop while nothing interleaves: the queues it visits, and whether it finds a task.
It visits `count - 1` queues in a row from `my_index + 1 + random_steal_offset(count)` on. So it
leaves one queue out, and that is the caller's own only for the offset 0 (`steal_others_iff`). For
other offsets the thread looks into its own queue and misses another worker's.

The loop adds in `unsigned`. From `2 ^ 31` queues on, sums wrap before they are reduced; the theorem
has the exact bound.
-/

namespace Bonostl.ThreadPool

variable {E κ F G R : Type}

/-- `(start + i) % count` -/
def attempt (k start i : ℕ) : ℕ := unsigned (start + i) % k

/-- The loop of `pop_task_from_other_thread_queue` with nothing interleaved: the queues it visits,
and what it returns. -/
inductive Steals (k : ℕ) (t : Thread E) (c : Choice κ) (st : List (Frame F)) :
    Shared F G R → Phase F → List ℕ → Bool → Prop
  | found {s s' : Shared F G R} {start i : ℕ} {task : Task F}
      (hs : search k t c s st (.steal start i) = some (s', ⟨some (.call task), st⟩)) :
      Steals k t c st s (.steal start i) [attempt k start i] true
  | next {s s' : Shared F G R} {start i start' i' : ℕ} {qs : List ℕ} {b : Bool}
      (hs : search k t c s st (.steal start i) = some (s', ⟨some (.steal start' i'), st⟩))
      (h : Steals k t c st s' (.steal start' i') qs b) :
      Steals k t c st s (.steal start i) (attempt k start i :: qs) b
  | failed {s s' : Shared F G R} {start i : ℕ}
      (hs : search k t c s st (.steal start i) = some (s', ⟨none, st⟩)) :
      Steals k t c st s (.steal start i) [] false

variable {k : ℕ} {t : Thread E} {c : Choice κ} {st : List (Frame F)} {s s' : Shared F G R}
  {start i : ℕ} {qs : List ℕ} {b : Bool}

/-! ## The loop -/

theorem search_end (hi : ¬ i + 1 < k) :
    search k t c s st (.steal start i) = some (s, ⟨none, st⟩) := by
  simp [search, hi]

theorem search_empty (hi : i + 1 < k) (hq : s.queues (attempt k start i) = []) :
    search k t c s st (.steal start i) = some (s, ⟨some (.steal start (i + 1)), st⟩) := by
  rw [attempt] at hq
  simp [search, hi, hq]

variable (t c st) in
theorem search_found (hi : i + 1 < k) (hq : s.queues (attempt k start i) ≠ []) :
    ∃ s' task, search k t c s st (.steal start i) = some (s', ⟨some (.call task), st⟩) := by
  rw [attempt] at hq
  simp [search, hi, List.getLast?_eq_some_getLast hq]

/-- The loop ends. -/
theorem exists_steals (n : ℕ) (hn : k ≤ i + 1 + n) :
    ∃ qs b, Steals k t c st s (.steal start i) qs b := by
  induction n generalizing i with
  | zero => exact ⟨_, _, .failed (search_end (by omega))⟩
  | succ n ih =>
    by_cases hi : i + 1 < k
    · by_cases hq : s.queues (attempt k start i) = []
      · obtain ⟨qs, b, h⟩ := ih (i := i + 1) (by omega)
        exact ⟨_, _, .next (search_empty hi hq) h⟩
      · obtain ⟨s', task, hs⟩ := search_found t c st hi hq
        exact ⟨_, _, .found hs⟩
    · exact ⟨_, _, .failed (search_end hi)⟩

/-- When every steal fails, the loop has visited all the queues it counts through; when it finds a
task, one of them was not empty. -/
theorem Steals.result {p : Phase F} (h : Steals k t c st s p qs b) : ∀ {start i : ℕ},
    p = .steal start i →
    (b = false → qs = (List.range' i (k - 1 - i)).map (attempt k start) ∧
      ∀ q ∈ qs, s.queues q = []) := by
  induction h with
  | found hs =>
    intro start i _ hb
    cases hb
  | @next s s' start i start' i' qs b hs h ih =>
    rintro _ _ ⟨⟩ hb
    by_cases hi : i + 1 < k
    · by_cases hq : s.queues (attempt k start i) = []
      · rw [search_empty hi hq] at hs
        obtain ⟨rfl, rfl, rfl⟩ : s = s' ∧ start = start' ∧ i + 1 = i' := by simpa using hs
        obtain ⟨hqs, hall⟩ := ih rfl hb
        refine ⟨?_, ?_⟩
        · rw [hqs, show k - 1 - i = (k - 1 - (i + 1)) + 1 by omega, List.range'_succ, List.map_cons]
        · intro q hmem
          rcases List.mem_cons.mp hmem with rfl | hmem
          · exact hq
          · exact hall q hmem
      · obtain ⟨s'', task, hs'⟩ := search_found t c st hi hq
        rw [hs'] at hs
        simp at hs
    · rw [search_end hi] at hs
      simp at hs
  | @failed s s' start i hs =>
    rintro _ _ ⟨⟩ -
    by_cases hi : i + 1 < k
    · by_cases hq : s.queues (attempt k start i) = []
      · rw [search_empty hi hq] at hs
        simp at hs
      · obtain ⟨s'', task, hs'⟩ := search_found t c st hi hq
        rw [hs'] at hs
        simp at hs
    · rw [show k - 1 - i = 0 by omega]
      exact ⟨rfl, nofun⟩

/-- In empty queues no task is found. -/
theorem Steals.of_empty {p : Phase F} (h : Steals k t c st s p qs b)
    (hall : ∀ q, s.queues q = []) : b = false := by
  induction h with
  | @found s s' start i task hs =>
    by_cases hi : i + 1 < k
    · rw [search_empty hi (hall _)] at hs
      simp at hs
    · rw [search_end hi] at hs
      simp at hs
  | @next s s' start i start' i' qs b hs h ih =>
    by_cases hi : i + 1 < k
    · rw [search_empty hi (hall _)] at hs
      obtain ⟨rfl, -, -⟩ : s = s' ∧ start = start' ∧ i + 1 = i' := by simpa using hs
      exact ih hall
    · rw [search_end hi] at hs
      simp at hs
  | failed => rfl

/-! ## The queue that is left out -/

theorem add_mod_eq (hs : start < k) {j : ℕ} (hj : j < k) :
    (start + j) % k = if start + j < k then start + j else start + j - k := by
  split
  · exact Nat.mod_eq_of_lt ‹_›
  · rw [Nat.mod_eq_sub_mod (by omega), Nat.mod_eq_of_lt (by omega)]

/-- Without wrap the loop visits all queues but the one before its first. -/
theorem attempts_perm (hs : start < k) (hw : start + k ≤ 2 ^ 32 + 1) :
    ((List.range' 0 (k - 1)).map (attempt k start)).Perm
      ((List.range k).erase ((start + (k - 1)) % k)) := by
  have hat : ∀ j < k - 1,
      attempt k start j = if start + j < k then start + j else start + j - k := by
    intro j hj
    have hu : (start + j) % 2 ^ 32 = start + j := Nat.mod_eq_of_lt (by omega)
    rw [attempt, unsigned, hu, add_mod_eq hs (by omega)]
  have hleft := add_mod_eq hs (show k - 1 < k by omega)
  refine (List.perm_ext_iff_of_nodup ?_ ((List.nodup_range).erase _)).mpr fun q => ?_
  · refine List.Nodup.map_on ?_ List.nodup_range'
    intro x hx y hy he
    rw [List.mem_range'_1] at hx hy
    rw [hat x (by omega), hat y (by omega)] at he
    split at he <;> split at he <;> omega
  · rw [List.nodup_range.mem_erase_iff, List.mem_range, List.mem_map, hleft]
    constructor
    · rintro ⟨j, hj, rfl⟩
      rw [List.mem_range'_1] at hj
      rw [hat j (by omega)]
      constructor
      · split <;> split <;> omega
      · split <;> omega
    · rintro ⟨hne, hq⟩
      by_cases hle : start ≤ q
      · refine ⟨q - start, List.mem_range'_1.mpr ⟨by omega, ?_⟩, ?_⟩
        · split at hne <;> omega
        · rw [hat _ (by split at hne <;> omega), if_pos (by omega)]
          omega
      · refine ⟨q + k - start, List.mem_range'_1.mpr ⟨by omega, ?_⟩, ?_⟩
        · split at hne <;> omega
        · rw [hat _ (by split at hne <;> omega), if_neg (by omega)]
          omega

/-- If the sums wrap, the first queue is visited twice. -/
theorem not_nodup_of_wrap (hk : k < 2 ^ 32) (hs : start < k) (hw : 2 ^ 32 + 1 < start + k) :
    ¬ ((List.range' 0 (k - 1)).map (attempt k start)).Nodup := by
  intro hnd
  have hinj := List.inj_on_of_nodup_map hnd
  have h₁ : k - start ∈ List.range' 0 (k - 1) := List.mem_range'_1.mpr ⟨by omega, by omega⟩
  have h₂ : 2 ^ 32 - start ∈ List.range' 0 (k - 1) := List.mem_range'_1.mpr ⟨by omega, by omega⟩
  have he : attempt k start (k - start) = attempt k start (2 ^ 32 - start) := by
    rw [attempt, attempt, unsigned, unsigned, show start + (k - start) = k by omega,
      show start + (2 ^ 32 - start) = 2 ^ 32 by omega, Nat.mod_eq_of_lt hk]
    simp
  have := hinj h₁ h₂ he
  omega

/-- The start that leaves out the caller's own queue. -/
theorem left_out_iff {m o : ℕ} (hk : k < 2 ^ 32) (hm : m < k) (ho : o < k) :
    unsigned (m + 1 + o) % k = (m + 1) % k ↔ o = 0 ∨ (m + 1 = k ∧ k + o = 2 ^ 32) := by
  have hm1 : (m + 1) % k = if m + 1 < k then m + 1 else 0 := by
    split
    · exact Nat.mod_eq_of_lt ‹_›
    · rw [show m + 1 = k by omega, Nat.mod_self]
  by_cases hw : m + 1 + o < 2 ^ 32
  · have hsum : unsigned (m + 1 + o) % k = if m + 1 + o < k then m + 1 + o else m + 1 + o - k := by
      rw [unsigned, Nat.mod_eq_of_lt hw]
      split
      · exact Nat.mod_eq_of_lt ‹_›
      · rw [Nat.mod_eq_sub_mod (by omega), Nat.mod_eq_of_lt (by omega)]
    rw [hsum, hm1]
    split <;> split <;> omega
  · have hsum : unsigned (m + 1 + o) % k = m + 1 + o - 2 ^ 32 := by
      have hu : (m + 1 + o) % 2 ^ 32 = m + 1 + o - 2 ^ 32 := by omega
      rw [unsigned, hu, Nat.mod_eq_of_lt (by omega)]
    rw [hsum, hm1]
    split <;> omega

/-! ## The whole call -/

/-- Nothing interleaved, `t` tries every queue but its own once before it gives up, and finds a task
if one of them has one. `offset` is what the generator of `random_steal_offset` holds. -/
def TriesOthers (F G R κ : Type) (k : ℕ) (t : Thread E) (offset : ℕ) : Prop :=
  ∀ (s s' : Shared F G R) (st : List (Frame F)) (p : Phase F), s.poolWorkQueue = [] →
    search k t (.random offset : Choice κ) s st .popShared = some (s', ⟨some p, st⟩) →
    ∃ qs b, Steals k t (.run : Choice κ) st s' p qs b ∧
      (b = false → qs.Perm ((List.range k).erase t.myIndex)) ∧
      ((∃ j < k, j ≠ t.myIndex ∧ s.queues j ≠ []) → b = true)

/-- **A thread tries all other queues** just when the offset is 0 and no sum wraps, or the sum of a
last worker's index and its offset wraps to 0. -/
theorem steal_others_iff [Inhabited G] {t : Thread E} {offset : ℕ} (hk : k < 2 ^ 32)
    (ht : t.myIndex < k) :
    TriesOthers F G R κ k t offset ↔
      (offset % k = 0 ∨ (t.myIndex + 1 = k ∧ k + offset % k = 2 ^ 32)) ∧
        (t.myIndex + 1) % k + k ≤ 2 ^ 32 + 1 := by
  have hpos : 0 < k := by omega
  have ho : offset % k < k := Nat.mod_lt _ hpos
  have hsucc : (t.myIndex + 1) % k < k := Nat.mod_lt _ hpos
  have hprev : ((t.myIndex + 1) % k + (k - 1)) % k = t.myIndex := by
    rw [Nat.mod_add_mod, show t.myIndex + 1 + (k - 1) = t.myIndex + k by omega, Nat.add_mod_right,
      Nat.mod_eq_of_lt ht]
  rw [← left_out_iff hk ht ho]
  constructor
  · intro h
    -- a pool whose queues are all empty
    obtain ⟨qs, b, hst, hperm, -⟩ := h ⟨false, [], fun _ => [], fun _ => none, fun _ => false, 0,
      default⟩
      _ [] _ rfl rfl
    obtain rfl := hst.of_empty fun _ => rfl
    obtain ⟨rfl, -⟩ := hst.result rfl rfl
    have hp := hperm rfl
    generalize hstart : unsigned (t.myIndex + 1 + offset % k) % k = start at hp
    have hs : start < k := hstart ▸ Nat.mod_lt _ hpos
    have hw : start + k ≤ 2 ^ 32 + 1 := by
      by_contra hwrap
      exact not_nodup_of_wrap hk hs (by omega) (hp.symm.nodup (List.nodup_range.erase _))
    have hout : (start + (k - 1)) % k = t.myIndex := by
      by_contra hne
      have hmem : (start + (k - 1)) % k ∈ (List.range k).erase t.myIndex :=
        List.nodup_range.mem_erase_iff.mpr ⟨hne, List.mem_range.mpr (Nat.mod_lt _ hpos)⟩
      have hmem' := (attempts_perm hs hw).subset (hp.symm.subset hmem)
      exact (List.nodup_range.mem_erase_iff.mp hmem').1 rfl
    have hst' : start = (t.myIndex + 1) % k := by
      rw [← hout, Nat.mod_add_mod, show start + (k - 1) + 1 = start + k by omega, Nat.add_mod_right,
        Nat.mod_eq_of_lt hs]
    exact ⟨hst', hst' ▸ hw⟩
  · rintro ⟨hstart, hw⟩ s s' st p hpool hsearch
    simp only [search, hpool] at hsearch
    obtain ⟨rfl, rfl⟩ : s = s' ∧ .steal (unsigned (t.myIndex + 1 + offset % k) % k) 0 = p := by
      simpa using hsearch
    obtain ⟨qs, b, hst⟩ : ∃ qs b, Steals k t (.run : Choice κ) st s
        (.steal (unsigned (t.myIndex + 1 + offset % k) % k) 0) qs b :=
      exists_steals k (by omega)
    refine ⟨qs, b, hst, fun hb => ?_, ?_⟩
    · rw [(hst.result rfl hb).1, hstart, ← hprev]
      exact hprev.symm ▸ attempts_perm hsucc hw
    · rintro ⟨j, hj, hne, hq⟩
      by_contra hb
      obtain ⟨rfl, hall⟩ := hst.result rfl (by simpa using hb)
      refine hq (hall j ((attempts_perm (hstart ▸ hsucc) (hstart ▸ hw)).symm.subset ?_))
      rw [hstart, hprev]
      exact List.nodup_range.mem_erase_iff.mpr ⟨hne, List.mem_range.mpr hj⟩

/-- With the offset 0 a worker of two tries the other one. -/
theorem steal_others_two : TriesOthers Unit Unit Unit Unit 2 (.worker 0 : Thread Unit) 0 :=
  (steal_others_iff (by decide) (by decide)).mpr (by decide)

/-- With the offset 1 it looks into its own queue. -/
theorem steal_misses : ¬ TriesOthers Unit Unit Unit Unit 2 (.worker 0 : Thread Unit) 1 := by
  intro h
  obtain ⟨qs, b, hst, hperm, -⟩ := h ⟨false, [], fun _ => [], fun _ => none, fun _ => false, 0, ()⟩
    _ [] _ rfl rfl
  obtain rfl := hst.of_empty fun _ => rfl
  obtain ⟨rfl, -⟩ := hst.result rfl rfl
  exact absurd (hperm rfl) (by decide)

end Bonostl.ThreadPool
