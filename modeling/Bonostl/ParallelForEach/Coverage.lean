import Bonostl.ParallelForEach.Model

/-!
# Every element once

`Covers` is what has to be said of a pass: what holds of an element before the function is applied
to it and after, that nothing done at another element disturbs that, and what the results of two
adjoining parts make. The contract of a call is then its part of the range, with none of its
elements done (`contract`). The two halves of a part lie apart, and they make up the part, also
where `length` has been truncated: its second half is the longer one then. Only the very first call
may be handed a range whose `length` is zero.
-/

namespace Bonostl.ParallelForEach

open Blocks ForkJoin

variable {M V S R : Type}

/-- A pass over the elements below `n`. -/
structure Covers (P : Pass M V S R) (n : ℕ) where
  Todo : M → ℕ → Prop
  Done : M → ℕ → Prop
  /-- what the function returns for an element -/
  result : ℕ → V
  /-- what a call is given whose range begins at a position -/
  given : ℕ → S
  /-- what is returned for a part of the range -/
  total : ℕ → ℕ → R
  load {m i} (h : Todo m i) : P.load m i = result i
  store {m i} (first : ℕ) (hf : first ≤ i) (hi : i < n) (h : Todo m i) :
    Done (P.store m i (total first i) (result i)) i
  store_ne {m i j} (first : ℕ) (hf : first ≤ i) (hi : i < n) (hj : j < n) (hne : i ≠ j) :
    (Todo m j → Todo (P.store m i (total first i) (result i)) j) ∧
      (Done m j → Done (P.store m i (total first i) (result i)) j)
  init (i) : P.init (given i) = total i i
  advance (i k) : P.advance (given i) k = given (i + k)
  feed {first i} (h : first ≤ i) : P.feed (total first i) (result i) = total first (i + 1)
  join {first mid last} (h : first ≤ mid) (h' : mid ≤ last) :
    P.join (total first mid) (total mid last) = total first last

/-! ## Parts of the range -/

/-- A part of the range. -/
structure Part (n : ℕ) where
  first : ℕ
  last : ℕ
  le : first ≤ last
  last_le : last ≤ n

/-- Position `i` is in the part. -/
def Part.Has {n : ℕ} (γ : Part n) (i : ℕ) : Prop := γ.first ≤ i ∧ i < γ.last

theorem Part.Has.lt {n i : ℕ} {γ : Part n} (h : γ.Has i) : i < n := h.2.trans_le γ.last_le

/-- Two halves of a part. -/
structure Part.Halves {n : ℕ} (γ γ₁ γ₂ : Part n) : Prop where
  first : γ₁.first = γ.first
  mid : γ₂.first = γ₁.last
  last : γ₂.last = γ.last

namespace Part.Halves

variable {n i : ℕ} {γ γ₁ γ₂ : Part n}

theorem has_iff (h : γ.Halves γ₁ γ₂) : γ.Has i ↔ γ₁.Has i ∨ γ₂.Has i := by
  have h1 := γ₁.le
  have h2 := γ₂.le
  unfold Has
  rw [h.mid, h.last] at *
  rw [h.first] at *
  omega

theorem apart (h : γ.Halves γ₁ γ₂) : ¬ (γ₁.Has i ∧ γ₂.Has i) := by
  unfold Has
  rw [h.mid]
  omega

end Part.Halves

/-- The halves a call makes of a part whose `length` is long enough: neither `length` is zero. -/
theorem halves_length {w first last : ℕ} (h : 2 * minPerThread ≤ lengthOf w (last - first)) :
    first + lengthOf w (last - first) / 2 ≤ last ∧
      lengthOf w (first + lengthOf w (last - first) / 2 - first) ≠ 0 ∧
      lengthOf w (last - (first + lengthOf w (last - first) / 2)) ≠ 0 := by
  have hlt := lengthOf_lt w (last - first)
  have hle := lengthOf_le w (last - first)
  have hsplit := Nat.mod_add_div (last - first) (2 ^ w)
  unfold minPerThread at h
  change lengthOf w (last - first) + _ = _ at hsplit
  refine ⟨by omega, ?_, ?_⟩
  · rw [Nat.add_sub_cancel_left, lengthOf, Nat.mod_eq_of_lt (by omega)]
    omega
  · have hrest : last - (first + lengthOf w (last - first) / 2) =
        (lengthOf w (last - first) - lengthOf w (last - first) / 2) +
          2 ^ w * ((last - first) / 2 ^ w) := by omega
    rw [hrest, lengthOf, Nat.add_mul_mod_self_left, Nat.mod_eq_of_lt (by omega)]
    omega

/-! ## The contract of a call -/

namespace Covers

variable {P : Pass M V S R} {n : ℕ} (C : Covers P n) (w : ℕ)

/-- The elements of a part before `i` are done, the others are not. -/
def Upto (γ : Part n) (m : M) (i : ℕ) : Prop :=
  ∀ j, γ.Has j → if j < i then C.Done m j else C.Todo m j

/-- What holds at each place of a call. -/
def Own (γ : Part n) (m : M) : Place V S R → Prop
  | .enter first last s _ => first = γ.first ∧ last = γ.last ∧ s = C.given first ∧
      (lengthOf w (last - first) = 0 → first = last) ∧ C.Upto γ m first
  | .load i last r => last = γ.last ∧ γ.first ≤ i ∧ i ≤ last ∧ r = C.total γ.first i ∧ C.Upto γ m i
  | .store i last r v => last = γ.last ∧ γ.first ≤ i ∧ i < last ∧ r = C.total γ.first i ∧
      v = C.result i ∧ C.Upto γ m i
  | .ret r => r = C.total γ.first γ.last ∧ C.Upto γ m γ.last

/-- What a call ends with: its result, and its part done. -/
def Post (γ : Part n) (m : M) (r : R) : Prop := r = C.total γ.first γ.last ∧ C.Upto γ m γ.last

/-- The elements in `p` are left as they are. -/
def Keeps (p : ℕ → Prop) (m m' : M) : Prop :=
  ∀ i < n, p i → (C.Todo m i → C.Todo m' i) ∧ (C.Done m i → C.Done m' i)

section
variable {C} {w} {p q : ℕ → Prop} {γ γ₁ γ₂ : Part n} {m m' m'' : M} {s : Place V S R} {r : R}
  {i : ℕ}

theorem Keeps.refl : C.Keeps p m m := fun _ _ _ => ⟨id, id⟩

theorem Keeps.trans (h : C.Keeps p m m') (h' : C.Keeps p m' m'') : C.Keeps p m m'' :=
  fun i hi hp => ⟨fun ht => (h' i hi hp).1 ((h i hi hp).1 ht),
    fun hd => (h' i hi hp).2 ((h i hi hp).2 hd)⟩

theorem Keeps.mono (h : C.Keeps p m m') (hq : ∀ i, q i → p i) : C.Keeps q m m' :=
  fun i hi hp => h i hi (hq i hp)

theorem Upto.keeps (h : C.Upto γ m i) (hk : C.Keeps γ.Has m m') : C.Upto γ m' i := by
  intro j hj
  have hone := h j hj
  split
  · rename_i hlt
    rw [if_pos hlt] at hone
    exact (hk j hj.lt hj).2 hone
  · rename_i hlt
    rw [if_neg hlt] at hone
    exact (hk j hj.lt hj).1 hone

theorem Upto.done (h : C.Upto γ m γ.last) {j : ℕ} (hj : γ.Has j) : C.Done m j := by
  have hone := h j hj
  rwa [if_pos hj.2] at hone

theorem Upto.todo (h : C.Upto γ m i) {j : ℕ} (hj : γ.Has j) (hi : i ≤ j) : C.Todo m j := by
  have hone := h j hj
  rwa [if_neg (Nat.not_lt.mpr hi)] at hone

/-- Nothing has been done to the halves of a part. -/
theorem Upto.halves (h : C.Upto γ m γ.first) (hs : γ.Halves γ₁ γ₂) :
    C.Upto γ₁ m γ₁.first ∧ C.Upto γ₂ m γ₂.first := by
  constructor
  · intro j hj
    rw [if_neg (Nat.not_lt.mpr hj.1)]
    exact h.todo (hs.has_iff.mpr (.inl hj)) (hs.first ▸ hj.1)
  · intro j hj
    have hj' := hs.has_iff.mpr (.inr hj)
    rw [if_neg (Nat.not_lt.mpr hj.1)]
    exact h.todo hj' hj'.1

theorem Own.stable (h : C.Own w γ m s) (hk : C.Keeps γ.Has m m') : C.Own w γ m' s := by
  cases s with
  | enter first last s depth =>
    obtain ⟨h1, h2, h3, h4, hall⟩ := h
    exact ⟨h1, h2, h3, h4, hall.keeps hk⟩
  | load i last r =>
    obtain ⟨h1, h2, h3, h4, hall⟩ := h
    exact ⟨h1, h2, h3, h4, hall.keeps hk⟩
  | store i last r v =>
    obtain ⟨h1, h2, h3, h4, h5, hall⟩ := h
    exact ⟨h1, h2, h3, h4, h5, hall.keeps hk⟩
  | ret r => exact ⟨h.1, h.2.keeps hk⟩

/-- An element's result is stored: the others are left as they are. -/
theorem Own.store {i last : ℕ} {v : V} (h : C.Own w γ m (.store i last r v)) :
    C.Own w γ (P.store m i r v) (.load (i + 1) last (P.feed r v)) ∧
      C.Keeps (fun j => ¬ γ.Has j) m (P.store m i r v) := by
  obtain ⟨rfl, hf, hi, rfl, rfl, hall⟩ := h
  have hin : γ.Has i := ⟨hf, hi⟩
  refine ⟨⟨rfl, by omega, hi, C.feed hf, fun j hj => ?_⟩, fun j hj hne => ?_⟩
  · have hone := hall j hj
    rcases Nat.lt_trichotomy j i with hlt | rfl | hgt
    · rw [if_pos hlt] at hone
      rw [if_pos (by omega)]
      exact (C.store_ne γ.first hf hin.lt hj.lt (Nat.ne_of_gt hlt)).2 hone
    · rw [if_neg (Nat.lt_irrefl j)] at hone
      rw [if_pos (Nat.lt_succ_self j)]
      exact C.store γ.first hf hin.lt hone
    · rw [if_neg (by omega)] at hone
      rw [if_neg (by omega)]
      exact (C.store_ne γ.first hf hin.lt hj.lt (Nat.ne_of_lt hgt)).1 hone
  · exact C.store_ne γ.first hf hin.lt hj fun he => hne (he ▸ hin)

/-- The first half ends where `length / 2` says. -/
theorem Own.halves {first last depth : ℕ} {s : S} (h : C.Own w γ m (.enter first last s depth))
    (hlong : 2 * minPerThread ≤ lengthOf w (last - first)) :
    ∃ γ₁ γ₂, γ.Halves γ₁ γ₂ ∧
      C.Own w γ₁ m (.enter first (first + lengthOf w (last - first) / 2) s (depth - 1)) ∧
      C.Own w γ₂ m (.enter (first + lengthOf w (last - first) / 2) last
        (P.advance s (lengthOf w (last - first) / 2)) (depth - 1)) := by
  obtain ⟨rfl, rfl, rfl, -, hall⟩ := h
  obtain ⟨hmid, h1, h2⟩ := halves_length hlong
  let γ₁ : Part n := ⟨γ.first, _, Nat.le_add_right _ _, hmid.trans γ.last_le⟩
  let γ₂ : Part n := ⟨_, γ.last, hmid, γ.last_le⟩
  have hs : γ.Halves γ₁ γ₂ := ⟨rfl, rfl, rfl⟩
  obtain ⟨hall₁, hall₂⟩ := hall.halves hs
  exact ⟨γ₁, γ₂, hs, ⟨rfl, rfl, rfl, fun h => (h1 h).elim, hall₁⟩,
    rfl, rfl, C.advance _ _, fun h => (h2 h).elim, hall₂⟩

/-- What the halves return is what the part returns. -/
theorem Post.join {a d : R} (hs : γ.Halves γ₁ γ₂) (ha : C.Post γ₁ m a) (hd : C.Post γ₂ m d) :
    C.Own w γ m (.ret (P.join a d)) := by
  obtain ⟨rfl, ha⟩ := ha
  obtain ⟨rfl, hd⟩ := hd
  refine ⟨?_, fun j hj => ?_⟩
  · rw [hs.first, hs.mid, hs.last]
    exact C.join (hs.first ▸ γ₁.le) (hs.mid ▸ hs.last ▸ γ₂.le)
  · rw [if_pos hj.2]
    rcases hs.has_iff.mp hj with hj | hj
    · exact ha.done hj
    · exact hd.done hj
end

/-- The contract of a call. -/
def contract : Contract (divided P w) (Part n) where
  Own := C.Own w
  Post := C.Post
  Split γ _ γ₁ γ₂ := γ.Halves γ₁ γ₂
  Change γ m m' := C.Keeps (fun j => ¬ γ.Has j) m m'
  Stable γ m m' := C.Keeps γ.Has m m'
  go {γ m s m' s'} h ha := by
    cases s with
    | enter first last s depth =>
      obtain ⟨rfl, rfl, rfl, -, hall⟩ := h
      simp only [divided] at ha
      split at ha
      · cases ha
      · split at ha <;> cases ha
        exact ⟨⟨rfl, Nat.le_refl _, γ.le, C.init _, hall⟩, .refl⟩
    | load i last r =>
      obtain ⟨rfl, hf, hi, rfl, hall⟩ := h
      simp only [divided] at ha
      split at ha <;> cases ha
      have hlt : i < γ.last := by omega
      exact ⟨⟨rfl, hf, hlt, rfl, C.load (hall.todo ⟨hf, hlt⟩ (Nat.le_refl i)), hall⟩, .refl⟩
    | store i last r v =>
      cases ha
      exact h.store
    | ret r => cases ha
  fork {γ m s m' k a d} h ha := by
    cases s with
    | enter first last s depth =>
      simp only [divided] at ha
      split at ha
      · cases ha
      · split at ha
        · cases ha
        · rename_i hlong
          cases ha
          exact ⟨.refl, h.halves (by omega)⟩
    | load i last r =>
      simp only [divided] at ha
      split at ha <;> cases ha
    | _ => cases ha
  done {γ m s m' r} h ha := by
    cases s with
    | enter first last s depth =>
      obtain ⟨rfl, rfl, rfl, hzero, hall⟩ := h
      simp only [divided] at ha
      split at ha
      · rename_i h0
        cases ha
        have hempty := hzero h0
        rw [C.init, Post]
        rw [hempty] at hall ⊢
        exact ⟨⟨rfl, hall⟩, .refl⟩
      · split at ha <;> cases ha
    | load i last r =>
      obtain ⟨rfl, hf, hi, rfl, hall⟩ := h
      simp only [divided] at ha
      split at ha
      · rename_i hend
        cases ha
        exact ⟨⟨hend ▸ rfl, hend ▸ hall⟩, .refl⟩
      · cases ha
    | store i last r v => cases ha
    | ret r =>
      cases ha
      exact ⟨h, .refl⟩
  join hs ha hd := ha.join hs hd
  change_refl _ _ := .refl
  change_trans := .trans
  change_split hs h := by
    rcases h with h | h
    · exact h.mono fun i hi hin => hi (hs.has_iff.mpr (.inl hin))
    · exact h.mono fun i hi hin => hi (hs.has_iff.mpr (.inr hin))
  apart hs := ⟨fun h => h.mono fun i hi hin => hs.apart ⟨hin, hi⟩,
    fun h => h.mono fun i hi hin => hs.apart ⟨hi, hin⟩⟩
  own_stable := .stable
  post_stable h hk := ⟨h.1, h.2.keeps hk⟩
  split_stable hs hk := ⟨hk.mono fun i hi => hs.has_iff.mpr (.inl hi),
    hk.mono fun i hi => hs.has_iff.mpr (.inr hi)⟩

/-! ## The calls return -/

/-- The halves a call submits, and the steps it takes. -/
def halves : Place V S R → ℕ
  | .enter _ _ _ depth => halvesOf depth
  | _ => 0

/-- The steps of its own that a call takes. -/
def steps : Place V S R → ℕ
  | .enter first last _ depth => 2 * (last - first) + stepsOf depth
  | .load i last _ => 2 * (last - i)
  | .store i last _ _ => 2 * (last - i) - 1
  | .ret _ => 0

/-- The halves and the steps of a call are bounded. -/
def measure : Measure (C.contract w) where
  tasks := halves
  cost := steps
  go {γ m s m' s'} h ha := by
    cases s with
    | enter first last s depth =>
      have hpos := stepsOf_pos depth
      simp only [divided] at ha
      split at ha
      · cases ha
      · split at ha <;> cases ha
        simp only [halves, steps]
        omega
    | load i last r =>
      obtain ⟨rfl, hf, hi, rfl, hall⟩ := h
      simp only [divided] at ha
      split at ha <;> cases ha
      simp only [halves, steps]
      omega
    | store i last r v =>
      obtain ⟨-, -, hi, -⟩ := h
      cases ha
      simp only [halves, steps]
      omega
    | ret r => cases ha
  fork {γ m s m' k a d} h ha := by
    cases s with
    | enter first last s depth =>
      simp only [divided] at ha
      split at ha
      · cases ha
      · split at ha
        · cases ha
        · rename_i hlong
          cases ha
          have hd : depth ≠ 0 := fun hd => hlong (.inr hd)
          have hhalves := halvesOf_split hd
          have hsteps := stepsOf_split hd
          have hle := lengthOf_le w (last - first)
          simp only [halves, steps]
          omega
    | load i last r =>
      simp only [divided] at ha
      split at ha <;> cases ha
    | _ => cases ha
  join _ _ _ := ⟨rfl, Nat.zero_le _⟩

variable {C} {w} {length depth : ℕ} {m₀ : M} {y : State (Place V S R) Unit R M}

/-- **Every element once**: what holds when the first call returns, how many halves it has
submitted, and that it returns. -/
theorem covers (hle : length ≤ n) (hlen : lengthOf w length = 0 → length = 0)
    (hm : ∀ i < n, C.Todo m₀ i)
    (hr : (divided P w).Reaches (start (.enter 0 length (C.given 0) depth) m₀) y) :
    (∀ r, y.call = .ret r → r = C.total 0 length ∧
      ∀ i < n, if i < length then C.Done y.mem i else C.Todo y.mem i) ∧
      y.submitted ≤ 2 ^ depth - 1 ∧ ∃ z r, (divided P w).Reaches y z ∧ z.call = .ret r := by
  let γ : Part n := ⟨0, length, Nat.zero_le length, hle⟩
  have hown : (C.contract w).Own γ m₀ (.enter 0 length (C.given 0) depth) := by
    refine ⟨rfl, rfl, rfl, fun h => (hlen h).symm, fun j hj => ?_⟩
    rw [if_neg (Nat.not_lt_zero j)]
    exact hm j hj.lt
  refine ⟨fun r hret => ?_, (C.measure w).submitted_le hown hr, (C.measure w).returns hown hr⟩
  obtain ⟨⟨hr, hall⟩, hk⟩ := Contract.returns_post hown hr hret
  refine ⟨hr, fun i hi => ?_⟩
  split
  · exact hall.done ⟨Nat.zero_le i, ‹_›⟩
  · rename_i hout
    exact (hk i hi fun hin => hout hin.2).1 (hm i hi)

end Covers

end Bonostl.ParallelForEach
