import Bonostl.ParallelSearch.Refine

/-!
# What `parallel_find` returns

**Sound and complete** (`find_sound_complete`): under every schedule and at every depth
`parallel_find_impl` returns, and what it returns is an element equal to `match`, or `last` if there
is none.

**Not always the first one.** The early exit stops every branch as soon as one has found a match, so
which match comes back is a matter of timing: it is the first one of a block, and of any block that
has one (`find_schedules`). Where the matches lie in different blocks two runs may differ
(`find_two_results`); where they all lie in one block every run returns what `std::find` returns.
-/

namespace Bonostl.ParallelSearch

variable {α β : Type} {eq : α → β → Bool} {xs : List α} {m : β} {depth : ℕ}

/-- A result of `parallel_find_impl` is the position found, or the end of the range. -/
def foundAt (last : ℕ) (o : Option ℕ) : ℕ := o.getD last

variable (eq xs m) in
theorem findAlgo_encodes : Encodes (findAlgo eq xs m) foundAt where
  miss _ := rfl
  hit _ := rfl
  join {mid last a d} hd _ := by
    cases d with
    | none => exact if_pos rfl
    | some i => exact if_neg (hd i rfl).ne

theorem testsAt_iff {p : α → Bool} {i : ℕ} :
    testsAt xs p i = true ↔ ∃ x, xs[i]? = some x ∧ p x = true := by
  unfold testsAt
  cases xs[i]? <;> simp

theorem clear_iff {p : α → Bool} :
    Clear (testsAt xs p) 0 xs.length ↔ ∀ x ∈ xs, p x = false := by
  constructor
  · intro h x hx
    obtain ⟨i, hi, rfl⟩ := List.mem_iff_getElem.mp hx
    have := h i (Nat.zero_le i) hi
    simpa [testsAt, hi] using this
  · intro h i _ hi
    simp [testsAt, hi, h]

/-- A match lies in the range. -/
theorem testsAt_lt {p : α → Bool} {i : ℕ} (h : testsAt xs p i = true) : i < xs.length := by
  obtain ⟨x, hx, -⟩ := testsAt_iff.mp h
  exact (List.getElem?_eq_some_iff.mp hx).1

/-- The first match of a range is the one `std::find` returns. -/
theorem findIdx_of_firstIn {p : α → Bool} {i : ℕ} (h : FirstIn (testsAt xs p) (0, xs.length) i) :
    i = xs.findIdx p := by
  have hi := h.lt
  refine ((List.findIdx_eq hi).mpr ⟨?_, fun j hj => ?_⟩).symm
  · have := h.test
    simpa [testsAt, hi] using this
  · have hlt := hj.trans hi
    have := h.clear j (Nat.zero_le j) hj
    simpa [testsAt, hlt] using this

/-- **`parallel_find` is sound and complete under early exit.** -/
theorem find_sound_complete (eq : α → β → Bool) (xs : List α) (m : β) (depth : ℕ) :
    (∀ σ r, parallelFindImpl eq xs m depth σ = some r →
      (r = xs.length ↔ ∀ x ∈ xs, eq x m = false) ∧
        ((∃ x ∈ xs, eq x m = true) → ∃ x, xs[r]? = some x ∧ eq x m = true)) ∧
    ∀ σ x, (findAlgo eq xs m).run σ (false, .enter 0 xs.length depth) = some x →
      σ.length ≤ 3 * xs.length + slack depth ∧
        ∃ τ r, parallelFindImpl eq xs m depth (σ ++ τ) = some r := by
  refine ⟨fun σ r h => ?_, fun σ x h => completes (findAlgo_encodes eq xs m) h⟩
  rcases returned (findAlgo_encodes eq xs m) h with ⟨i, rfl, b, hb, hi⟩ | ⟨rfl, hc⟩
  · obtain ⟨x, hx, hm⟩ := testsAt_iff.mp hi.test
    have hlt := testsAt_lt hi.test
    refine ⟨⟨fun heq => absurd heq hlt.ne, fun hno => ?_⟩, fun _ => ⟨x, hx, hm⟩⟩
    have := hno x (List.mem_of_getElem? hx)
    simp [hm] at this
  · have hno := clear_iff.mp hc
    refine ⟨⟨fun _ => hno, fun _ => rfl⟩, fun ⟨x, hx, hm⟩ => ?_⟩
    have := hno x hx
    simp [hm] at this

/-- At depth 8 and under a schedule that lets the second half win, on a range with matches in
both. -/
theorem find_sound_complete_second :
    parallelFindImpl (fun x m : ℕ => x == m) (List.replicate 50 7) 7 8
        ([⟨[], true⟩, ⟨[], true⟩] ++ List.replicate 4 ⟨[.async], true⟩ ++
          List.replicate 2 ⟨[.direct], true⟩ ++ [⟨[], true⟩]) = some 25 ∧
      ∃ x, (List.replicate 50 7)[25]? = some x ∧ (x == 7) = true := by
  have h : parallelFindImpl (fun x m : ℕ => x == m) (List.replicate 50 7) 7 8
      ([⟨[], true⟩, ⟨[], true⟩] ++ List.replicate 4 ⟨[.async], true⟩ ++
        List.replicate 2 ⟨[.direct], true⟩ ++ [⟨[], true⟩]) = some 25 := by decide
  exact ⟨h, ((find_sound_complete (fun x m : ℕ => x == m) (List.replicate 50 7) 7 8).1 _ _ h).2
    ⟨7, by simp, by decide⟩⟩

/-! ## Which match it is -/

/-- All matches lie in one block. -/
def OneBlock (tests : ℕ → Bool) (n depth : ℕ) : Prop :=
  ∃ b ∈ blocks depth 0 n, ∀ i, tests i = true → b.1 ≤ i ∧ i < b.2

theorem blocks_ne_nil (depth first last : ℕ) : blocks depth first last ≠ [] := by
  induction depth generalizing first last with
  | zero => exact List.cons_ne_nil _ _
  | succ d ih =>
    by_cases hs : Short first last (d + 1)
    · rw [blocks_short hs]
      exact List.cons_ne_nil _ _
    · rw [blocks_long hs]
      exact List.append_ne_nil_of_left_ne_nil (ih first _) _

/-- The first match of the only block that has one is the first of the range. -/
theorem OneBlock.first {tests : ℕ → Bool} {n i : ℕ} {b : ℕ × ℕ} (h : OneBlock tests n depth)
    (hb : b ∈ blocks depth 0 n) (hi : FirstIn tests b i) : FirstIn tests (0, n) i := by
  obtain ⟨b', hb', hall⟩ := h
  obtain rfl : b = b' := block_unique (Nat.zero_le n) hb hb' ⟨hi.ge, hi.lt⟩ (hall i hi.test)
  refine ⟨Nat.zero_le i, hi.lt.trans_le (blocks_within (Nat.zero_le n) hb).2.2, hi.test, ?_⟩
  intro j _ hj
  by_contra ht
  have ht : tests j = true := by simpa using ht
  simp [hi.clear j (hall j ht).1 hj] at ht

/-- Matches in two blocks. -/
theorem two_blocks {tests : ℕ → Bool} {n : ℕ} (hn : ∀ i, tests i = true → i < n)
    (h : ¬ OneBlock tests n depth) : ∃ b ∈ blocks depth 0 n, ∃ b' ∈ blocks depth 0 n,
      ∃ i i', FirstIn tests b i ∧ FirstIn tests b' i' ∧ i ≠ i' := by
  obtain ⟨b₀, hb₀⟩ := List.exists_mem_of_ne_nil _ (blocks_ne_nil depth 0 n)
  have hsome : ∀ b ∈ blocks depth 0 n, ∃ k, tests k = true ∧ ¬ (b.1 ≤ k ∧ k < b.2) := by
    intro b hb
    by_contra hno
    push Not at hno
    exact h ⟨b, hb, fun i hi => ⟨(hno i hi).1, (hno i hi).2⟩⟩
  obtain ⟨k, hk, -⟩ := hsome b₀ hb₀
  obtain ⟨b, hb, hkb⟩ := blocks_cover depth (Nat.zero_le k) (hn k hk)
  obtain ⟨k', hk', hout⟩ := hsome b hb
  obtain ⟨b', hb', hkb'⟩ := blocks_cover depth (Nat.zero_le k') (hn k' hk')
  obtain ⟨i, hi, -⟩ := exists_firstIn hkb hk
  obtain ⟨i', hi', -⟩ := exists_firstIn hkb' hk'
  refine ⟨b, hb, b', hb', i, i', hi, hi', ?_⟩
  rintro rfl
  obtain rfl := block_unique (Nat.zero_le n) hb hb' ⟨hi.ge, hi.lt⟩ ⟨hi'.ge, hi'.lt⟩
  exact hout hkb'

/-- **The result and the schedule.** A run returns `last` if there is no match, else the first match
of a block, and every such value is returned by some run; every run returns what `std::find`
returns if the matches all lie in one block, and else two runs differ. -/
theorem find_schedules (eq : α → β → Bool) (xs : List α) (m : β) :
    (∀ r, (∃ σ, parallelFind eq xs m σ = some r) ↔
      (∃ b ∈ blocks 8 0 xs.length, FirstIn (findAlgo eq xs m).tests b r) ∨
        (r = xs.length ∧ ∀ x ∈ xs, eq x m = false)) ∧
    (OneBlock (findAlgo eq xs m).tests xs.length 8 →
      ∀ σ r, parallelFind eq xs m σ = some r → r = xs.findIdx fun x => eq x m) ∧
    (¬ OneBlock (findAlgo eq xs m).tests xs.length 8 →
      ∃ σ τ r r', parallelFind eq xs m σ = some r ∧ parallelFind eq xs m τ = some r' ∧ r ≠ r') := by
  have hA := findAlgo_encodes eq xs m
  refine ⟨fun r => ⟨?_, ?_⟩, fun hone σ r h => ?_, fun hno => ?_⟩
  · rintro ⟨σ, h⟩
    rcases returned hA h with ⟨i, rfl, b, hb, hi⟩ | ⟨rfl, hc⟩
    · exact .inl ⟨b, hb, hi⟩
    · exact .inr ⟨rfl, clear_iff.mp hc⟩
  · rintro (⟨b, hb, hi⟩ | ⟨rfl, hno⟩)
    · exact returns_block hA hb hi
    · -- some run returns, and it has found nothing
      have hstart : (findAlgo eq xs m).run [] (false, .enter 0 xs.length 8) = some _ := rfl
      obtain ⟨-, τ, r, h⟩ := completes hA hstart
      have hlast := ((find_sound_complete eq xs m 8).1 _ _ h).1.mpr hno
      exact ⟨[] ++ τ, hlast ▸ h⟩
  · rcases returned hA h with ⟨i, rfl, b, hb, hi⟩ | ⟨rfl, hc⟩
    · exact findIdx_of_firstIn (hone.first hb hi)
    · exact (List.findIdx_eq_length.mpr fun x hx => clear_iff.mp hc x hx).symm
  · obtain ⟨b, hb, b', hb', i, i', hi, hi', hne⟩ := two_blocks (fun i hi => testsAt_lt hi) hno
    obtain ⟨σ, hσ⟩ := returns_block hA hb hi
    obtain ⟨τ, hτ⟩ := returns_block hA hb' hi'
    exact ⟨σ, τ, i, i', hσ, hτ, hne⟩

/-- Fifty equal elements, all of them matches: whichever half runs first wins. -/
theorem find_two_results :
    ∃ σ τ, parallelFind (fun x m : ℕ => x == m) (List.replicate 50 7) 7 σ = some 0 ∧
      parallelFind (fun x m : ℕ => x == m) (List.replicate 50 7) 7 τ = some 25 ∧
      (List.replicate 50 7).findIdx (fun x => x == 7) = 0 :=
  ⟨[⟨[], true⟩, ⟨[], true⟩] ++ List.replicate 4 ⟨[.direct], true⟩ ++
      List.replicate 2 ⟨[.async], true⟩ ++ [⟨[], true⟩],
    [⟨[], true⟩, ⟨[], true⟩] ++ List.replicate 4 ⟨[.async], true⟩ ++
      List.replicate 2 ⟨[.direct], true⟩ ++ [⟨[], true⟩],
    by decide, by decide, by decide⟩

end Bonostl.ParallelSearch
