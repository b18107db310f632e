import Bonostl.ParallelSearch.Search

/-!
# The functions refine the search

`value last` writes a result of the search as the function returns it from a range that ends at
`last`. Where the function's own way to combine results (`join`) does to written results what the
search does (`Encodes`), a step of the function is the same step of the search (`step_encode`), and
so is a run (`run_encode`). `returned`, `returns_blocks` and `completed` say for such a function
what a schedule makes it return, that every block can win, and that it returns.
-/

namespace Bonostl.ParallelSearch

variable {R : Type}

/-- A call of the search on a range that ends at `last`, with its results written as the function
returns them. -/
def Call.encode (value : ℕ → Option ℕ → R) : ℕ → Call (Option ℕ) → Call R
  | _, .enter first l depth => .enter first l depth
  | _, .loop first l => .loop first l
  | _, .compare first l => .compare first l
  | _, .found first => .found first
  | _, .check first l depth => .check first l depth
  | last, .halves mid l a d => .halves mid l (a.encode value last) (d.encode value mid)
  | last, .ret o => .ret (value last o)

/-- The function combines written results as the search combines findings. -/
structure Encodes (A : Algo R) (value : ℕ → Option ℕ → R) : Prop where
  miss (last : ℕ) : A.miss last = value last none
  hit {i last : ℕ} (h : i < last) : A.hit i = value last (some i)
  join {mid last : ℕ} {a d : Option ℕ} (hd : ∀ i ∈ d, i < mid) (ha : ∀ i ∈ a, mid ≤ i ∧ i < last) :
    A.join mid (value last a) (value mid d) = value last (d.or a)

variable {A : Algo R} {value : ℕ → Option ℕ → R} {done done' : Bool} {first last depth n : ℕ}
  {c c' : Call (Option ℕ)} {σ : List Choice}

/-- The search with the tests of a function. -/
abbrev Algo.search (A : Algo R) : Algo (Option ℕ) := ParallelSearch.search A.tests A.testsEmpty

theorem act_encode (hA : Encodes A value) (hle : first ≤ last) {seen : Bool}
    (hc : Fits A.tests done first last depth c) :
    A.act seen done (c.encode value last) =
      (A.search.act seen done c).map fun x => (x.1, x.2.encode value last) := by
  cases c with
  | enter f l d =>
    obtain ⟨rfl, rfl, rfl⟩ := hc
    simp only [Call.encode, Algo.act, Option.map_some, search]
    split
    · rw [hA.miss]
      rfl
    · split <;> rfl
  | loop i l =>
    obtain ⟨rfl, -⟩ := hc
    simp only [Call.encode, Algo.act, Option.map_some]
    split
    · rw [hA.miss]
      rfl
    · rfl
  | compare i l =>
    simp only [Call.encode, Algo.act, Option.map_some, search]
    split <;> rfl
  | found i => exact congrArg (fun r => some (true, Call.ret r)) (hA.hit hc.2.lt)
  | check f l d =>
    obtain ⟨rfl, rfl, rfl, -⟩ := hc
    simp only [Call.encode, Algo.act, Option.map_some]
    split
    · rw [hA.miss]
      rfl
    · rfl
  | halves mid l a d =>
    cases a with
    | ret a =>
      cases d with
      | ret d =>
        obtain ⟨rfl, rfl, -, ha, hd⟩ := hc
        have hm := middle_bounds hle
        refine congrArg (fun r => some (done, Call.ret r)) (hA.join ?_ ?_)
        · rintro i rfl
          exact (hd.ret_lt hm.1).2.1
        · rintro i rfl
          have := ha.ret_lt hm.2
          exact ⟨this.1, this.2.1⟩
      | _ => rfl
    | _ => rfl
  | ret o => rfl

theorem step_encode (hA : Encodes A value) (hle : first ≤ last) {seen : Bool} {p : List Half}
    (hc : Fits A.tests done first last depth c) :
    A.step seen p done (c.encode value last) =
      (A.search.step seen p done c).map fun x => (x.1, x.2.encode value last) := by
  induction p generalizing first last depth c with
  | nil => exact act_encode hA hle hc
  | cons half p ih =>
    cases c with
    | halves mid l a d =>
      obtain ⟨rfl, rfl, -, ha, hd⟩ := hc
      obtain ⟨hm₁, hm₂⟩ := middle_bounds hle
      cases half with
      | async =>
        simp only [Call.encode, Algo.step, ih hm₂ ha, Option.map_map]
        rfl
      | direct =>
        simp only [Call.encode, Algo.step, ih hm₁ hd, Option.map_map]
        rfl
    | _ => cases half <;> rfl

/-- **Refinement**: under every schedule the function does what the search does. -/
theorem run_encode (hA : Encodes A value) (hle : first ≤ last)
    (hc : Fits A.tests done first last depth c) :
    A.run σ (done, c.encode value last) =
      (A.search.run σ (done, c)).map fun x => (x.1, x.2.encode value last) := by
  induction σ generalizing done c with
  | nil => rfl
  | cons ch σ ih =>
    rw [Algo.run, Algo.run, step_encode hA hle hc]
    cases hs : A.search.step ch.seen ch.path done c with
    | none => rfl
    | some x =>
      obtain ⟨b, c'⟩ := x
      exact ih (fits_step hle (step_sound hs) hc).2

/-- What a function has returned is what the search has found. -/
theorem returns_iff (hA : Encodes A value) {r : R} : A.returns n depth σ = some r ↔
    ∃ done' o, A.search.run σ (false, .enter 0 n depth) = some (done', .ret o) ∧ r = value n o := by
  have henc : A.run σ (false, .enter 0 n depth) = _ :=
    run_encode (σ := σ) hA (Nat.zero_le n) (fits_enter false 0 n depth)
  unfold Algo.returns
  rw [henc]
  cases hs : A.search.run σ (false, .enter 0 n depth) with
  | none => simp
  | some x =>
    obtain ⟨b, c⟩ := x
    cases c with
    | ret o => simp [Call.encode, Call.result, eq_comm]
    | _ => simp [Call.encode, Call.result]

/-- What a schedule makes a function return. -/
theorem returned (hA : Encodes A value) {r : R} (h : A.returns n depth σ = some r) :
    (∃ i, r = value n (some i) ∧ ∃ b ∈ blocks depth 0 n, FirstIn A.tests b i) ∨
      (r = value n none ∧ Clear A.tests 0 n) := by
  obtain ⟨done', o, hrun, rfl⟩ := (returns_iff hA).mp h
  rcases search_result (Nat.zero_le n) (run_steps hrun) with ⟨i, rfl, hi⟩ | ⟨rfl, hc⟩
  · exact .inl ⟨i, rfl, hi⟩
  · exact .inr ⟨rfl, hc⟩

/-- For each block with a match, some schedule makes the function return the first one in it. -/
theorem returns_block (hA : Encodes A value) {b : ℕ × ℕ} {i : ℕ} (hb : b ∈ blocks depth 0 n)
    (hi : FirstIn A.tests b i) : ∃ σ, A.returns n depth σ = some (value n (some i)) := by
  obtain ⟨σ, hσ⟩ := (steps_first (e := A.testsEmpty) (Nat.zero_le n) hb hi).run
  exact ⟨σ, (returns_iff hA).mpr ⟨_, _, hσ, rfl⟩⟩

/-- **The function returns**: a schedule it can follow can be continued until it has returned, and
is no longer than the cost of the call. -/
theorem completes (hA : Encodes A value) {x : Bool × Call R}
    (h : A.run σ (false, .enter 0 n depth) = some x) :
    σ.length ≤ 3 * n + slack depth ∧ ∃ τ r, A.returns n depth (σ ++ τ) = some r := by
  have henc : A.run σ (false, .enter 0 n depth) = _ :=
    run_encode (σ := σ) hA (Nat.zero_le n) (fits_enter false 0 n depth)
  rw [henc] at h
  obtain ⟨⟨b, c⟩, hs, -⟩ := Option.map_eq_some_iff.mp h
  have hc := (steps_inv (Nat.zero_le n) (run_steps hs) (fits_enter _ _ _ _) (by simp)).1
  refine ⟨?_, ?_⟩
  · have := run_cost (Nat.zero_le n) hs (fits_enter _ _ _ _)
    simp only [Call.cost, Nat.sub_zero] at this
    omega
  · obtain ⟨b', o, hsteps⟩ := steps_returns (Nat.zero_le n) hc
    obtain ⟨τ, hτ⟩ := hsteps.run
    refine ⟨τ, value n o, (returns_iff hA).mpr ⟨b', o, ?_, rfl⟩⟩
    rw [run_append, hs]
    exact hτ

end Bonostl.ParallelSearch
