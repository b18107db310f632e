import Mathlib.Data.List.Pairwise
import Mathlib.Order.Basic
import Bonostl.ParallelSearch.Model

/-!
# A search with early exit, whatever the calls return

The search says what both functions are for: a call returns the position of a match it has found, or
nothing. It is the same recursion (`search`), with the first of two findings carried upwards. A
call of `parallel_find_impl` is a call of the search with its results written as iterators, one of
`parallel_any_of_impl` the same with results written as truth values (`Call.encode`), and their
runs are the runs of the search (`run_encode`). So what the calls return is read off the search:

* a result is the first match of one of the blocks that the range is split into (`blocks`), and a
  call that has found nothing has no match in its range or the flag is set (`Fits`);
* once the flag is set, a result on the way up carries a match (`Carries`): the branch that set the
  flag is never dropped, though every other branch may report that it found nothing;
* every step lowers the cost of the call (`step_cost`), and a call that has not returned can take
  a step (`exists_step`).
-/

namespace Bonostl.ParallelSearch

/-! ## Steps as a relation -/

variable {R : Type} {A : Algo R}

/-- Some call of the tree takes a step. -/
inductive Step (A : Algo R) : Bool → Call R → Bool → Call R → Prop
  | act (seen : Bool) {done done' : Bool} {c c' : Call R}
      (h : A.act seen done c = some (done', c')) :
      Step A done c done' c'
  | async {done done' : Bool} {a a' d : Call R} (mid last : ℕ) (h : Step A done a done' a') :
      Step A done (.halves mid last a d) done' (.halves mid last a' d)
  | direct {done done' : Bool} {a d d' : Call R} (mid last : ℕ) (h : Step A done d done' d') :
      Step A done (.halves mid last a d) done' (.halves mid last a d')

theorem step_sound {seen done done' : Bool} {c c' : Call R} {p : List Half}
    (h : A.step seen p done c = some (done', c')) : Step A done c done' c' := by
  induction p generalizing c c' with
  | nil => exact .act seen h
  | cons half p ih =>
    cases c with
    | halves mid last a d =>
      cases half with
      | async =>
        obtain ⟨⟨b, a'⟩, ha, heq⟩ := Option.map_eq_some_iff.mp h
        cases heq
        exact .async mid last (ih ha)
      | direct =>
        obtain ⟨⟨b, d'⟩, hd, heq⟩ := Option.map_eq_some_iff.mp h
        cases heq
        exact .direct mid last (ih hd)
    | _ => cases half <;> cases h

theorem Step.choice {done done' : Bool} {c c' : Call R} (h : Step A done c done' c') :
    ∃ ch : Choice, A.step ch.seen ch.path done c = some (done', c') := by
  induction h with
  | act seen h => exact ⟨⟨[], seen⟩, h⟩
  | async mid last _ ih =>
    obtain ⟨ch, hch⟩ := ih
    exact ⟨⟨.async :: ch.path, ch.seen⟩, by simp [Algo.step, hch]⟩
  | direct mid last _ ih =>
    obtain ⟨ch, hch⟩ := ih
    exact ⟨⟨.direct :: ch.path, ch.seen⟩, by simp [Algo.step, hch]⟩

/-- The steps of a run. -/
inductive Steps (A : Algo R) : Bool → Call R → Bool → Call R → Prop
  | refl (done : Bool) (c : Call R) : Steps A done c done c
  | head {done done' done'' : Bool} {c c' c'' : Call R} (h : Step A done c done' c')
      (hs : Steps A done' c' done'' c'') : Steps A done c done'' c''

theorem run_steps {σ : List Choice} {done done' : Bool} {c c' : Call R}
    (h : A.run σ (done, c) = some (done', c')) : Steps A done c done' c' := by
  induction σ generalizing done c with
  | nil =>
    cases h
    exact .refl _ _
  | cons ch σ ih =>
    obtain ⟨⟨b, c₁⟩, h₁, h₂⟩ := Option.bind_eq_some_iff.mp h
    exact .head (step_sound h₁) (ih h₂)

theorem Steps.run {done done' : Bool} {c c' : Call R} (h : Steps A done c done' c') :
    ∃ σ, A.run σ (done, c) = some (done', c') := by
  induction h with
  | refl => exact ⟨[], rfl⟩
  | head hstep _ ih =>
    obtain ⟨ch, hch⟩ := hstep.choice
    obtain ⟨σ, hσ⟩ := ih
    exact ⟨ch :: σ, by simp [Algo.run, hch, hσ]⟩

theorem Steps.trans {b₁ b₂ b₃ : Bool} {c₁ c₂ c₃ : Call R} (h : Steps A b₁ c₁ b₂ c₂)
    (h' : Steps A b₂ c₂ b₃ c₃) : Steps A b₁ c₁ b₃ c₃ := by
  induction h with
  | refl => exact h'
  | head hs _ ih => exact .head hs (ih h')

theorem Steps.async {b b' : Bool} {a a' d : Call R} (mid last : ℕ) (h : Steps A b a b' a') :
    Steps A b (.halves mid last a d) b' (.halves mid last a' d) := by
  induction h with
  | refl => exact .refl _ _
  | head hs _ ih => exact .head (.async mid last hs) ih

theorem Steps.direct {b b' : Bool} {a d d' : Call R} (mid last : ℕ) (h : Steps A b d b' d') :
    Steps A b (.halves mid last a d) b' (.halves mid last a d') := by
  induction h with
  | refl => exact .refl _ _
  | head hs _ ih => exact .head (.direct mid last hs) ih

/-- A step of the call itself; the flag is seen. -/
theorem Steps.act {b b' : Bool} {c c' : Call R} (h : A.act true b c = some (b', c')) :
    Steps A b c b' c' := .head (.act true h) (.refl _ _)

theorem run_append (σ τ : List Choice) (x : Bool × Call R) :
    A.run (σ ++ τ) x = (A.run σ x).bind (A.run τ) := by
  induction σ generalizing x with
  | nil => rfl
  | cons ch σ ih =>
    rw [List.cons_append, Algo.run, Algo.run]
    cases A.step ch.seen ch.path x.1 x.2 with
    | none => rfl
    | some y => exact ih y

/-! ## Calls return -/

/-- What is left of a call of some depth, apart from its elements. -/
def slack : ℕ → ℕ
  | 0 => 2
  | depth + 1 => 2 * slack depth + 3

/-- A bound for the steps a call can still take. -/
def Call.cost : Call R → ℕ
  | .enter first last depth => 3 * (last - first) + slack depth
  | .loop first last => 3 * (last - first) + 1
  | .compare first last => 3 * (last - first)
  | .found _ => 1
  | .check first last depth => 3 * (last - first) + slack depth - 1
  | .halves _ _ a d => a.cost + d.cost + 1
  | .ret _ => 0

theorem two_le_slack (depth : ℕ) : 2 ≤ slack depth := by
  cases depth with
  | zero => exact le_refl 2
  | succ d =>
    unfold slack
    omega

/-- A call that has not returned can take a step. -/
theorem exists_step (A : Algo R) (done : Bool) (c : Call R) :
    (∃ r, c = .ret r) ∨ ∃ done' c', Step A done c done' c' := by
  induction c with
  | ret r => exact .inl ⟨r, rfl⟩
  | halves mid last a d iha ihd =>
    right
    rcases iha with ⟨ra, rfl⟩ | ⟨done', a', ha⟩
    · rcases ihd with ⟨rd, rfl⟩ | ⟨done', d', hd⟩
      · exact ⟨done, .ret (A.join mid ra rd), .act true rfl⟩
      · exact ⟨done', _, .direct mid last hd⟩
    · exact ⟨done', _, .async mid last ha⟩
  | found first => exact .inr ⟨true, .ret (A.hit first), .act true rfl⟩
  | _ => exact .inr ⟨done, _, .act true rfl⟩

/-- A call with two halves moves when both have returned. -/
theorem act_halves {seen done done' : Bool} {mid last : ℕ} {a d c' : Call R}
    (h : A.act seen done (.halves mid last a d) = some (done', c')) :
    ∃ ra rd, a = .ret ra ∧ d = .ret rd ∧ done' = done ∧ c' = .ret (A.join mid ra rd) := by
  cases a with
  | ret ra =>
    cases d with
    | ret rd =>
      obtain ⟨rfl, rfl⟩ : done = done' ∧ _ = c' := by simpa [Algo.act] using h
      exact ⟨ra, rd, rfl, rfl, rfl, rfl⟩
    | _ => cases h
  | _ => cases h

/-! ## The search -/

/-- The recursion with the position found as the result. -/
def search (tests : ℕ → Bool) (testsEmpty : Bool) : Algo (Option ℕ) where
  tests := tests
  testsEmpty := testsEmpty
  miss _ := none
  hit first := some first
  join _ async direct := direct.or async

/-- `mid_point`. -/
abbrev middle (first last : ℕ) : ℕ := first + (last - first) / 2

/-- The call looks at its elements itself. -/
abbrev Short (first last depth : ℕ) : Prop := last - first < 2 * minPerThread ∨ depth = 0

/-- The blocks whose elements one call looks at, from left to right. -/
def blocks : ℕ → ℕ → ℕ → List (ℕ × ℕ)
  | 0, first, last => [(first, last)]
  | depth + 1, first, last =>
    if last - first < 2 * minPerThread then [(first, last)]
    else blocks depth first (middle first last) ++ blocks depth (middle first last) last

/-- No match between two positions. -/
def Clear (tests : ℕ → Bool) (first last : ℕ) : Prop := ∀ i, first ≤ i → i < last → tests i = false

/-- The first match of a block. -/
structure FirstIn (tests : ℕ → Bool) (block : ℕ × ℕ) (i : ℕ) : Prop where
  ge : block.1 ≤ i
  lt : i < block.2
  test : tests i = true
  clear : Clear tests block.1 i

/-- What a call on a range is doing, and what it knows when it returns. -/
def Fits (tests : ℕ → Bool) (done : Bool) : ℕ → ℕ → ℕ → Call (Option ℕ) → Prop
  | first, last, depth, .enter f l d => f = first ∧ l = last ∧ d = depth
  | first, last, depth, .loop i l =>
    l = last ∧ Short first last depth ∧ first ≤ i ∧ i ≤ last ∧ Clear tests first i
  | first, last, depth, .compare i l =>
    l = last ∧ Short first last depth ∧ first ≤ i ∧ i < last ∧ Clear tests first i
  | first, last, depth, .found i => Short first last depth ∧ FirstIn tests (first, last) i
  | first, last, depth, .check f l d => f = first ∧ l = last ∧ d = depth ∧ ¬ Short first last depth
  | first, last, depth, .halves mid l a d =>
    mid = middle first last ∧ l = last ∧ ¬ Short first last depth ∧
      Fits tests done mid last (depth - 1) a ∧ Fits tests done first mid (depth - 1) d
  | first, last, _, .ret none => done = true ∨ Clear tests first last
  | first, last, depth, .ret (some i) => ∃ b ∈ blocks depth first last, FirstIn tests b i

/-- A result on the way up is a match. -/
def Carries : Call (Option ℕ) → Prop
  | .ret o => o.isSome
  | .halves _ _ a d => Carries a ∨ Carries d
  | _ => False

section
variable {tests : ℕ → Bool} {e done done' : Bool} {first last depth i : ℕ} {c c' : Call (Option ℕ)}

theorem middle_bounds (h : first ≤ last) :
    first ≤ middle first last ∧ middle first last ≤ last := by
  unfold middle
  omega

theorem blocks_short (h : Short first last depth) : blocks depth first last = [(first, last)] := by
  cases depth with
  | zero => rfl
  | succ d => exact if_pos (h.resolve_right (Nat.succ_ne_zero d))

theorem blocks_long (h : ¬ Short first last depth) : blocks depth first last =
    blocks (depth - 1) first (middle first last) ++
      blocks (depth - 1) (middle first last) last := by
  cases depth with
  | zero => exact absurd (Or.inr rfl) h
  | succ d => exact if_neg fun hlt => h (.inl hlt)

/-- The blocks lie in the range. -/
theorem blocks_within (hle : first ≤ last) {b : ℕ × ℕ} (hb : b ∈ blocks depth first last) :
    first ≤ b.1 ∧ b.1 ≤ b.2 ∧ b.2 ≤ last := by
  induction depth generalizing first last with
  | zero =>
    obtain rfl := List.mem_singleton.mp hb
    exact ⟨le_refl _, hle, le_refl _⟩
  | succ d ih =>
    by_cases hs : Short first last (d + 1)
    · rw [blocks_short hs, List.mem_singleton] at hb
      subst hb
      exact ⟨le_refl _, hle, le_refl _⟩
    · obtain ⟨h1, h2⟩ := middle_bounds hle
      rw [blocks_long hs] at hb
      rcases List.mem_append.mp hb with hb | hb
      · have := ih h1 hb
        omega
      · have := ih h2 hb
        omega

/-- The blocks cover the range. -/
theorem blocks_cover (depth : ℕ) (h1 : first ≤ i) (h2 : i < last) :
    ∃ b ∈ blocks depth first last, b.1 ≤ i ∧ i < b.2 := by
  induction depth generalizing first last with
  | zero => exact ⟨(first, last), List.mem_singleton.mpr rfl, h1, h2⟩
  | succ d ih =>
    by_cases hs : Short first last (d + 1)
    · exact ⟨(first, last), by simp [blocks_short hs], h1, h2⟩
    · rw [blocks_long hs]
      rcases Nat.lt_or_ge i (middle first last) with hm | hm
      · obtain ⟨b, hb, hi⟩ := ih h1 hm
        exact ⟨b, List.mem_append_left _ hb, hi⟩
      · obtain ⟨b, hb, hi⟩ := ih hm h2
        exact ⟨b, List.mem_append_right _ hb, hi⟩

/-- The blocks follow one another. -/
theorem blocks_pairwise (hle : first ≤ last) :
    (blocks depth first last).Pairwise fun b b' => b.2 ≤ b'.1 := by
  induction depth generalizing first last with
  | zero => exact List.pairwise_singleton _ _
  | succ d ih =>
    by_cases hs : Short first last (d + 1)
    · rw [blocks_short hs]
      exact List.pairwise_singleton _ _
    · obtain ⟨h1, h2⟩ := middle_bounds hle
      rw [blocks_long hs, List.pairwise_append]
      refine ⟨ih h1, ih h2, fun b hb b' hb' => ?_⟩
      exact (blocks_within h1 hb).2.2.trans (blocks_within h2 hb').1

/-- A position is in one block. -/
theorem block_unique (hle : first ≤ last) {b b' : ℕ × ℕ} (hb : b ∈ blocks depth first last)
    (hb' : b' ∈ blocks depth first last) (h : b.1 ≤ i ∧ i < b.2) (h' : b'.1 ≤ i ∧ i < b'.2) :
    b = b' := by
  by_contra hne
  let apart : ℕ × ℕ → ℕ × ℕ → Prop := fun x y => x.2 ≤ y.1 ∨ y.2 ≤ x.1
  have hpair : (blocks depth first last).Pairwise apart := (blocks_pairwise hle).imp fun h => .inl h
  have : Std.Symm apart := ⟨fun _ _ h => h.symm⟩
  rcases hpair.forall hb hb' hne with hlt | hlt <;> omega

theorem Clear.mono {first' last' : ℕ} (h : Clear tests first last) (hf : first ≤ first')
    (hl : last' ≤ last) : Clear tests first' last' :=
  fun i h1 h2 => h i (hf.trans h1) (h2.trans_le hl)

theorem Clear.succ (h : Clear tests first i) (hi : tests i = false) :
    Clear tests first (i + 1) := by
  intro j h1 h2
  rcases Nat.lt_succ_iff_lt_or_eq.mp h2 with h2 | rfl
  · exact h j h1 h2
  · exact hi

theorem Clear.append {mid : ℕ} (h : Clear tests first mid) (h' : Clear tests mid last) :
    Clear tests first last := by
  intro j h1 h2
  rcases Nat.lt_or_ge j mid with hj | hj
  · exact h j h1 hj
  · exact h' j hj h2

theorem Fits.mono (hd : done = true → done' = true) (h : Fits tests done first last depth c) :
    Fits tests done' first last depth c := by
  induction c generalizing first last depth with
  | halves mid l a d iha ihd =>
    obtain ⟨h1, h2, h3, h4, h5⟩ := h
    exact ⟨h1, h2, h3, iha h4, ihd h5⟩
  | ret o =>
    cases o with
    | none => exact h.imp_left hd
    | some i => exact h
  | _ => exact h

/-- A block with a match has a first one. -/
theorem exists_firstIn {b : ℕ × ℕ} (h : b.1 ≤ i ∧ i < b.2) (ht : tests i = true) :
    ∃ j, FirstIn tests b j ∧ j ≤ i := by
  induction hn : i - b.1 using Nat.strong_induction_on generalizing i with
  | _ n ih =>
    by_cases hc : Clear tests b.1 i
    · exact ⟨i, ⟨h.1, h.2, ht, hc⟩, le_refl i⟩
    · simp only [Clear, not_forall, Bool.not_eq_false] at hc
      obtain ⟨k, hk1, hk2, hk⟩ := hc
      obtain ⟨j, hj, hjk⟩ := ih (k - b.1) (by omega) ⟨hk1, hk2.trans h.2⟩ hk rfl
      exact ⟨j, hj, hjk.trans hk2.le⟩

/-- A finding lies in the range of the call. -/
theorem Fits.ret_lt (hle : first ≤ last) (h : Fits tests done first last depth (.ret (some i))) :
    first ≤ i ∧ i < last ∧ tests i = true := by
  obtain ⟨b, hb, hf⟩ := h
  obtain ⟨h1, -, h2⟩ := blocks_within hle hb
  exact ⟨h1.trans hf.ge, hf.lt.trans_le h2, hf.test⟩

/-! ### A step of the search -/

/-- **A step keeps what a call knows.** The flag is only ever set. -/
theorem fits_act {seen : Bool} (hle : first ≤ last) (hc : Fits tests done first last depth c)
    (h : (search tests e).act seen done c = some (done', c')) :
    (done = true → done' = true) ∧ Fits tests done' first last depth c' := by
  cases c with
  | enter f l d =>
    obtain ⟨rfl, rfl, rfl⟩ := hc
    obtain ⟨rfl, rfl⟩ : done = done' ∧ _ = c' := by simpa [Algo.act] using h
    refine ⟨id, ?_⟩
    split
    · rename_i he
      exact .inr fun i h1 h2 => by omega
    · split
      · rename_i hs
        exact ⟨rfl, hs, le_refl _, hle, fun i h1 h2 => by omega⟩
      · rename_i hs
        exact ⟨rfl, rfl, rfl, hs⟩
  | loop i l =>
    obtain ⟨rfl, hs, h1, h2, hclear⟩ := hc
    obtain ⟨rfl, rfl⟩ : done = done' ∧ _ = c' := by simpa [Algo.act] using h
    refine ⟨id, ?_⟩
    split
    · rename_i hend
      rcases hend with rfl | hseen
      · exact .inr hclear
      · exact .inl hseen.1
    · rename_i hend
      exact ⟨rfl, hs, h1, lt_of_le_of_ne h2 fun h => hend (.inl h), hclear⟩
  | compare i l =>
    obtain ⟨rfl, hs, h1, h2, hclear⟩ := hc
    obtain ⟨rfl, rfl⟩ : done = done' ∧ _ = c' := by simpa [Algo.act] using h
    refine ⟨id, ?_⟩
    split
    · rename_i ht
      exact ⟨hs, h1, h2, ht, hclear⟩
    · rename_i ht
      exact ⟨rfl, hs, by omega, h2, hclear.succ (Bool.not_eq_true _ ▸ ht)⟩
  | found i =>
    obtain ⟨hs, hfirst⟩ := hc
    obtain ⟨rfl, rfl⟩ : true = done' ∧ _ = c' := by simpa [Algo.act] using h
    exact ⟨fun _ => rfl, (first, last), by simp [blocks_short hs], hfirst⟩
  | check f l d =>
    obtain ⟨rfl, rfl, rfl, hs⟩ := hc
    obtain ⟨rfl, rfl⟩ : done = done' ∧ _ = c' := by simpa [Algo.act] using h
    refine ⟨id, ?_⟩
    split
    · rename_i hseen
      exact .inl hseen.1
    · exact ⟨rfl, rfl, hs, ⟨rfl, rfl, rfl⟩, rfl, rfl, rfl⟩
  | halves mid l a d =>
    obtain ⟨rfl, rfl, hs, ha, hd⟩ := hc
    obtain ⟨ra, rd, rfl, rfl, rfl, rfl⟩ := act_halves h
    refine ⟨id, ?_⟩
    cases rd with
    | some i =>
      obtain ⟨b, hb, hfirst⟩ := hd
      exact ⟨b, by simp [blocks_long hs, hb], hfirst⟩
    | none =>
      cases ra with
      | some i =>
        obtain ⟨b, hb, hfirst⟩ := ha
        exact ⟨b, by simp [blocks_long hs, hb], hfirst⟩
      | none =>
        rcases hd with hd | hd
        · exact .inl hd
        · exact ha.imp id hd.append
  | ret r => cases h

theorem fits_step (hle : first ≤ last) (h : Step (search tests e) done c done' c')
    (hc : Fits tests done first last depth c) :
    (done = true → done' = true) ∧ Fits tests done' first last depth c' := by
  induction h generalizing first last depth with
  | act _ h => exact fits_act hle hc h
  | async mid l _ ih =>
    obtain ⟨rfl, rfl, hs, ha, hd⟩ := hc
    obtain ⟨hmono, ha'⟩ := ih (middle_bounds hle).2 ha
    exact ⟨hmono, rfl, rfl, hs, ha', hd.mono hmono⟩
  | direct mid l _ ih =>
    obtain ⟨rfl, rfl, hs, ha, hd⟩ := hc
    obtain ⟨hmono, hd'⟩ := ih (middle_bounds hle).1 hd
    exact ⟨hmono, rfl, rfl, hs, ha.mono hmono, hd'⟩

/-- A result that carries a match is not dropped, and a call that sets the flag has one. -/
theorem carries_step (h : Step (search tests e) done c done' c')
    (hc : Carries c ∨ (done = false ∧ done' = true)) : Carries c' := by
  induction h with
  | @act _ b b' c c' h =>
    cases c with
    | found i =>
      obtain ⟨-, rfl⟩ : true = b' ∧ _ = c' := by simpa [Algo.act] using h
      exact rfl
    | halves mid l a d =>
      obtain ⟨ra, rd, rfl, rfl, rfl, rfl⟩ := act_halves h
      rcases hc with hc | ⟨h1, h2⟩
      · cases rd with
        | some i => exact rfl
        | none => exact hc.resolve_right (by simp [Carries])
      · simp [h1] at h2
    | ret r => cases h
    | _ =>
      obtain ⟨rfl, -⟩ : b = b' ∧ _ = c' := by simpa [Algo.act] using h
      rcases hc with hc | ⟨h1, h2⟩
      · exact hc.elim
      · simp [h1] at h2
  | async mid l _ ih =>
    rcases hc with (hc | hc) | hc
    · exact .inl (ih (.inl hc))
    · exact .inr hc
    · exact .inl (ih (.inr hc))
  | direct mid l _ ih =>
    rcases hc with (hc | hc) | hc
    · exact .inl hc
    · exact .inr (ih (.inl hc))
    · exact .inr (ih (.inr hc))

theorem cost_act {seen : Bool} (hle : first ≤ last) (hc : Fits tests done first last depth c)
    (h : (search tests e).act seen done c = some (done', c')) : c'.cost < c.cost := by
  cases c with
  | enter f l d =>
    obtain ⟨-, rfl⟩ : done = done' ∧ _ = c' := by simpa [Algo.act] using h
    have := two_le_slack d
    split
    · simp only [Call.cost]
      omega
    · split <;> simp only [Call.cost] <;> omega
  | loop i l =>
    obtain ⟨-, rfl⟩ : done = done' ∧ _ = c' := by simpa [Algo.act] using h
    split <;> simp only [Call.cost] <;> omega
  | compare i l =>
    obtain ⟨rfl, hs, h1, h2, hclear⟩ := hc
    obtain ⟨-, rfl⟩ : done = done' ∧ _ = c' := by simpa [Algo.act] using h
    split <;> simp only [Call.cost] <;> omega
  | found i =>
    obtain ⟨-, rfl⟩ : true = done' ∧ _ = c' := by simpa [Algo.act] using h
    simp [Call.cost]
  | check f l d =>
    obtain ⟨rfl, rfl, rfl, hs⟩ := hc
    obtain ⟨-, rfl⟩ : done = done' ∧ _ = c' := by simpa [Algo.act] using h
    obtain ⟨d', rfl⟩ := Nat.exists_eq_succ_of_ne_zero fun h => hs (.inr h)
    split
    · simp only [Call.cost, slack]
      omega
    · simp only [Call.cost, slack, Nat.succ_eq_add_one, Nat.add_sub_cancel]
      omega
  | halves mid l a d =>
    obtain ⟨ra, rd, rfl, rfl, rfl, rfl⟩ := act_halves h
    simp [Call.cost]
  | ret r => cases h

theorem cost_step (hle : first ≤ last) (h : Step (search tests e) done c done' c')
    (hc : Fits tests done first last depth c) : c'.cost < c.cost := by
  induction h generalizing first last depth with
  | act _ h => exact cost_act hle hc h
  | async mid l _ ih =>
    obtain ⟨rfl, rfl, -, ha, -⟩ := hc
    have := ih (middle_bounds hle).2 ha
    simp only [Call.cost]
    omega
  | direct mid l _ ih =>
    obtain ⟨rfl, rfl, -, -, hd⟩ := hc
    have := ih (middle_bounds hle).1 hd
    simp only [Call.cost]
    omega

/-! ### Runs -/

/-- What holds along a run of a call that began with the flag clear. -/
theorem steps_inv (hle : first ≤ last) (h : Steps (search tests e) done c done' c')
    (hc : Fits tests done first last depth c) (hcarry : done = true → Carries c) :
    Fits tests done' first last depth c' ∧ (done' = true → Carries c') := by
  induction h with
  | refl => exact ⟨hc, hcarry⟩
  | @head b b' _ _ _ _ hs _ ih =>
    obtain ⟨hmono, hc'⟩ := fits_step hle hs hc
    refine ih hc' fun hb' => carries_step hs ?_
    cases b with
    | true => exact .inl (hcarry rfl)
    | false => exact .inr ⟨rfl, hb'⟩

theorem fits_enter (done : Bool) (first last depth : ℕ) :
    Fits tests done first last depth (.enter first last depth) := ⟨rfl, rfl, rfl⟩

/-- **Sound and complete.** A call that began with the flag clear returns the first match of a
block, or nothing, and then its range has no match. -/
theorem search_result (hle : first ≤ last) {o : Option ℕ}
    (h : Steps (search tests e) false (.enter first last depth) done' (.ret o)) :
    (∃ i, o = some i ∧ ∃ b ∈ blocks depth first last, FirstIn tests b i) ∨
      (o = none ∧ Clear tests first last) := by
  obtain ⟨hfits, hcarry⟩ := steps_inv hle h (fits_enter _ _ _ _) (by simp)
  cases o with
  | some i => exact .inl ⟨i, rfl, hfits⟩
  | none =>
    -- the flag is clear: had a branch set it, its match would have come up
    have hd : done' ≠ true := fun hd => by simpa [Carries] using hcarry hd
    exact .inr ⟨rfl, hfits.resolve_left hd⟩

/-- No run is longer than the cost of its call. -/
theorem run_cost (hle : first ≤ last) {σ : List Choice}
    (h : (search tests e).run σ (done, c) = some (done', c'))
    (hc : Fits tests done first last depth c) : σ.length + c'.cost ≤ c.cost := by
  induction σ generalizing done c with
  | nil =>
    obtain ⟨rfl, rfl⟩ : done = done' ∧ c = c' := by simpa [Algo.run] using h
    simp
  | cons ch σ ih =>
    obtain ⟨⟨b, c₁⟩, h₁, h₂⟩ := Option.bind_eq_some_iff.mp h
    have hs := step_sound h₁
    have hlt : c₁.cost < c.cost := cost_step hle hs hc
    have := ih h₂ (fits_step hle hs hc).2
    rw [List.length_cons]
    omega

/-- **Calls return**: whatever a call has done, some further steps make it return. -/
theorem steps_returns (hle : first ≤ last) (hc : Fits tests done first last depth c) :
    ∃ done' o, Steps (search tests e) done c done' (.ret o) := by
  induction hn : c.cost using Nat.strong_induction_on generalizing done c with
  | _ n ih =>
    rcases exists_step (search tests e) done c with ⟨o, rfl⟩ | ⟨b, c', hs⟩
    · exact ⟨done, o, .refl _ _⟩
    · have hlt := cost_step hle hs hc
      obtain ⟨b', o, h⟩ := ih _ (hn ▸ hlt) (fits_step hle hs hc).2 rfl
      exact ⟨b', o, .head hs h⟩

/-! ### Runs that find a given match -/

/-- A call that sees the flag set looks at nothing. -/
theorem steps_stopped (depth first last : ℕ) :
    Steps (search tests e) true (.enter first last depth) true (.ret none) := by
  refine .head (.act true rfl) ?_
  split
  · exact .refl _ _
  · split
    · exact .act (by simp [Algo.act, search])
    · exact .act (by simp [Algo.act, search])

theorem steps_loop (hi : first ≤ i) (hlt : i < last) (hclear : Clear tests first i) :
    Steps (search tests e) false (.loop first last) false (.compare i last) := by
  induction hn : i - first generalizing first with
  | zero =>
    obtain rfl : first = i := by omega
    exact .act (by simp [Algo.act, hlt.ne])
  | succ n ih =>
    have hne : first ≠ last := by omega
    have ht : tests first = false := hclear first (le_refl _) (by omega)
    have h₁ : Step (search tests e) false (.loop first last) false (.compare first last) :=
      .act true (by simp [Algo.act, hne])
    have h₂ : Step (search tests e) false (.compare first last) false (.loop (first + 1) last) :=
      .act true (by simp [Algo.act, search, ht])
    exact .head h₁ (.head h₂ (ih (by omega) (hclear.mono (by omega) (le_refl _)) (by omega)))

variable (tests e done depth) in
/-- The first step of a call whose range has elements. -/
theorem step_enter (hlt : first < last) :
    Step (search tests e) done (.enter first last depth) done
      (if Short first last depth then .loop first last else .check first last depth) := by
  have hne : ¬ last - first = 0 := by omega
  exact .act true (by simp [Algo.act, hne])

theorem steps_block (hs : Short first last depth) (hf : FirstIn tests (first, last) i) :
    Steps (search tests e) false (.enter first last depth) true (.ret (some i)) := by
  have hlt := hf.lt
  have h₁ := step_enter tests e false depth (hf.ge.trans_lt hlt)
  rw [if_pos hs] at h₁
  have h₂ := steps_loop (e := e) hf.ge hlt hf.clear
  have h₃ : Step (search tests e) false (.compare i last) false (.found i) :=
    .act true (by simp [Algo.act, search, hf.test])
  exact .head h₁ (h₂.trans (.head h₃ (.act rfl)))

/-- **Each block can win**: there is a run that returns its first match. -/
theorem steps_first (hle : first ≤ last) {b : ℕ × ℕ} (hb : b ∈ blocks depth first last)
    (hf : FirstIn tests b i) :
    Steps (search tests e) false (.enter first last depth) true (.ret (some i)) := by
  induction depth generalizing first last with
  | zero =>
    obtain rfl := List.mem_singleton.mp hb
    exact steps_block (.inr rfl) hf
  | succ d ih =>
    by_cases hs : Short first last (d + 1)
    · rw [blocks_short hs, List.mem_singleton] at hb
      subst hb
      exact steps_block hs hf
    · have hlt : first < last := by
        have : ¬ last - first < 2 * minPerThread := fun h => hs (.inl h)
        unfold minPerThread at this
        omega
      have h₁ := step_enter tests e false (d + 1) hlt
      rw [if_neg hs] at h₁
      obtain ⟨hm₁, hm₂⟩ := middle_bounds hle
      have h₂ : Step (search tests e) false (.check first last (d + 1)) false
          (.halves (middle first last) last (.enter (middle first last) last d)
            (.enter first (middle first last) d)) := .act true rfl
      refine .head h₁ (.head h₂ ?_)
      rw [blocks_long hs] at hb
      -- the half with the block runs first, the other one then finds the flag set
      rcases List.mem_append.mp hb with hb | hb
      · exact ((ih hm₁ hb).direct _ _).trans (((steps_stopped d _ _).async _ _).trans (.act rfl))
      · exact ((ih hm₂ hb).async _ _).trans (((steps_stopped d _ _).direct _ _).trans (.act rfl))
end

end Bonostl.ParallelSearch
