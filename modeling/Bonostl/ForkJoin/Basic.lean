import Mathlib.Algebra.Group.Nat.Defs
import Mathlib.Logic.Relation
import Mathlib.Order.Basic

/-!
# Fork and join

A call takes steps of its own (`Act.go`), splits into two calls that run at the same time
(`Act.fork`), or returns (`Act.done`). A call that has split goes on, at `join`, when both halves
have returned. So a call is a tree, and every call in the tree can take the next step: a step is
given by the way to the call that takes it. All calls share a memory.

A `Contract` says what a call owns. `γ` is what a particular call has been promised and has to
establish; `Own γ` is an assertion for each of its places, `Post γ` the one it ends with. `Change γ`
is what the call may do to the memory and `Stable γ` what the others may do. Two halves of a call
may do to each other what each of them can stand (`apart`). Then a call that begins with its
assertion ends with its postcondition, in whatever order the calls of the tree take their steps
(`Contract.returns_post`).

A `Measure` counts the halves a call can still submit, and the steps it can still take
(`Measure.submitted_le`, `Measure.completes`).
-/

namespace ForkJoin

variable {S W R M Γ : Type}

/-- What a step of a call does. -/
inductive Act (S W R : Type) where
  | go (s : S)
  | fork (k : W) (async direct : S)
  | done (r : R)

/-- The code of the calls: `join` is the place where a call goes on that has split. -/
structure Algo (S W R M : Type) where
  act : S → M → M × Act S W R
  join : W → R → R → S

/-- A call with the calls below it. -/
inductive Call (S W R : Type) where
  | run (s : S)
  | halves (k : W) (async direct : Call S W R)
  | ret (r : R)

/-- One of the two halves of a call: the submitted one, or the call's own. -/
inductive Half where
  | async
  | direct

/-- What is left of a call after a step. -/
def Act.call : Act S W R → Call S W R
  | .go s => .run s
  | .fork k async direct => .halves k (.run async) (.run direct)
  | .done r => .ret r

/-- The halves a step submits. -/
def Act.submits : Act S W R → ℕ
  | .fork _ _ _ => 1
  | _ => 0

/-- A step of the call at the end of a path, with the number of halves it submits. -/
def Algo.step (A : Algo S W R M) : List Half → M → Call S W R → Option (M × ℕ × Call S W R)
  | [], m, .run s => some ((A.act s m).1, (A.act s m).2.submits, (A.act s m).2.call)
  | [], m, .halves k (.ret a) (.ret d) => some (m, 0, .run (A.join k a d))
  | .async :: p, m, .halves k a d =>
    (A.step p m a).map fun (m', n, a') => (m', n, .halves k a' d)
  | .direct :: p, m, .halves k a d =>
    (A.step p m d).map fun (m', n, d') => (m', n, .halves k a d')
  | _, _, _ => none

/-- A call, the memory, and how many halves have been submitted. -/
structure State (S W R M : Type) where
  mem : M
  submitted : ℕ
  call : Call S W R

/-- One step of any call. -/
def Algo.Step (A : Algo S W R M) (x y : State S W R M) : Prop :=
  ∃ p n, A.step p x.mem x.call = some (y.mem, n, y.call) ∧ y.submitted = x.submitted + n

/-- Any number of steps, of any calls in any order. -/
def Algo.Reaches (A : Algo S W R M) : State S W R M → State S W R M → Prop :=
  Relation.ReflTransGen A.Step

/-- A call that has just begun. -/
def start (s : S) (m : M) : State S W R M := ⟨m, 0, .run s⟩

/-! ## What a step can do -/

/-- The moves of a call and of the calls below it, with the number of halves they submit. -/
inductive Move (A : Algo S W R M) : M → Call S W R → M → ℕ → Call S W R → Prop
  | run (m s) : Move A m (.run s) (A.act s m).1 (A.act s m).2.submits (A.act s m).2.call
  | join (m k a d) : Move A m (.halves k (.ret a) (.ret d)) m 0 (.run (A.join k a d))
  | async (k d) {m a m' n a'} (h : Move A m a m' n a') :
      Move A m (.halves k a d) m' n (.halves k a' d)
  | direct (k a) {m d m' n d'} (h : Move A m d m' n d') :
      Move A m (.halves k a d) m' n (.halves k a d')

section
variable {A : Algo S W R M}

theorem step_move {p : List Half} {m m' : M} {c c' : Call S W R} {n : ℕ}
    (hs : A.step p m c = some (m', n, c')) : Move A m c m' n c' := by
  induction p generalizing c c' with
  | nil =>
    cases c with
    | run s =>
      cases hs
      exact .run m s
    | halves k a d =>
      cases a with
      | ret a =>
        cases d with
        | ret d =>
          cases hs
          exact .join m k a d
        | _ => cases hs
      | _ => cases hs
    | ret r => cases hs
  | cons half p ih =>
    cases c with
    | halves k a d =>
      cases half with
      | async =>
        obtain ⟨⟨m₁, n₁, a₁⟩, hs₁, he⟩ := Option.map_eq_some_iff.mp hs
        cases he
        exact .async k d (ih hs₁)
      | direct =>
        obtain ⟨⟨m₁, n₁, d₁⟩, hs₁, he⟩ := Option.map_eq_some_iff.mp hs
        cases he
        exact .direct k a (ih hs₁)
    | _ => cases half <;> cases hs

/-- A call that has not returned can take a step, or a call below it can. -/
theorem step_exists (A : Algo S W R M) (m : M) (c : Call S W R) :
    (∃ r, c = .ret r) ∨ ∃ p x, A.step p m c = some x := by
  induction c with
  | run s => exact .inr ⟨[], _, rfl⟩
  | ret r => exact .inl ⟨r, rfl⟩
  | halves k a d iha ihd =>
    right
    rcases iha with ⟨ra, rfl⟩ | ⟨p, x, hs⟩
    · rcases ihd with ⟨rd, rfl⟩ | ⟨p, x, hs⟩
      · exact ⟨[], _, rfl⟩
      · exact ⟨.direct :: p, (x.1, x.2.1, .halves k (.ret ra) x.2.2), by simp [Algo.step, hs]⟩
    · exact ⟨.async :: p, (x.1, x.2.1, .halves k x.2.2 d), by simp [Algo.step, hs]⟩

theorem Move.reaches {x : State S W R M} {m : M} {n : ℕ} {c : Call S W R} {p : List Half}
    (hs : A.step p x.mem x.call = some (m, n, c)) : A.Reaches x ⟨m, x.submitted + n, c⟩ :=
  .single ⟨p, n, hs, rfl⟩
end

/-! ## Contracts -/

/-- What the calls of an algorithm own, establish, change and stand, with the obligations of each
kind of step. -/
structure Contract (A : Algo S W R M) (Γ : Type) where
  Own : Γ → M → S → Prop
  Post : Γ → M → R → Prop
  /-- how a call shares out what it owns to its halves -/
  Split : Γ → W → Γ → Γ → Prop
  Change : Γ → M → M → Prop
  Stable : Γ → M → M → Prop
  go {γ m s m' s'} (h : Own γ m s) (ha : A.act s m = (m', .go s')) : Own γ m' s' ∧ Change γ m m'
  fork {γ m s m' k a d} (h : Own γ m s) (ha : A.act s m = (m', .fork k a d)) :
    Change γ m m' ∧ ∃ γ₁ γ₂, Split γ k γ₁ γ₂ ∧ Own γ₁ m' a ∧ Own γ₂ m' d
  done {γ m s m' r} (h : Own γ m s) (ha : A.act s m = (m', .done r)) : Post γ m' r ∧ Change γ m m'
  join {γ k γ₁ γ₂ m a d} (hs : Split γ k γ₁ γ₂) (ha : Post γ₁ m a) (hd : Post γ₂ m d) :
    Own γ m (A.join k a d)
  change_refl (γ m) : Change γ m m
  change_trans {γ m m' m''} (h : Change γ m m') (h' : Change γ m' m'') : Change γ m m''
  change_split {γ k γ₁ γ₂ m m'} (hs : Split γ k γ₁ γ₂) (h : Change γ₁ m m' ∨ Change γ₂ m m') :
    Change γ m m'
  apart {γ k γ₁ γ₂ m m'} (hs : Split γ k γ₁ γ₂) :
    (Change γ₁ m m' → Stable γ₂ m m') ∧ (Change γ₂ m m' → Stable γ₁ m m')
  own_stable {γ m m' s} (h : Own γ m s) (hm : Stable γ m m') : Own γ m' s
  post_stable {γ m m' r} (h : Post γ m r) (hm : Stable γ m m') : Post γ m' r
  split_stable {γ k γ₁ γ₂ m m'} (hs : Split γ k γ₁ γ₂) (hm : Stable γ m m') :
    Stable γ₁ m m' ∧ Stable γ₂ m m'

namespace Contract

variable {A : Algo S W R M} (C : Contract A Γ)

/-- What holds of a tree of calls. -/
def Good (γ : Γ) (m : M) : Call S W R → Prop
  | .run s => C.Own γ m s
  | .halves k a d => ∃ γ₁ γ₂, C.Split γ k γ₁ γ₂ ∧ Good γ₁ m a ∧ Good γ₂ m d
  | .ret r => C.Post γ m r

variable {C} {γ : Γ} {m m' : M} {c c' : Call S W R} {n : ℕ} {x y : State S W R M}

/-- What the others do to the memory. -/
theorem Good.stable (h : C.Good γ m c) (hm : C.Stable γ m m') : C.Good γ m' c := by
  induction c generalizing γ with
  | run s => exact C.own_stable h hm
  | ret r => exact C.post_stable h hm
  | halves k a d iha ihd =>
    obtain ⟨γ₁, γ₂, hs, ha, hd⟩ := h
    obtain ⟨h₁, h₂⟩ := C.split_stable hs hm
    exact ⟨γ₁, γ₂, hs, iha ha h₁, ihd hd h₂⟩

/-- **A step of any call of the tree.** -/
theorem Good.move (h : C.Good γ m c) (hm : Move A m c m' n c') :
    C.Good γ m' c' ∧ C.Change γ m m' := by
  induction hm generalizing γ with
  | run m s =>
    rcases hact : A.act s m with ⟨m₁, act⟩
    cases act with
    | go s' => exact C.go h hact
    | fork k a d =>
      obtain ⟨hc, γ₁, γ₂, hs, ha, hd⟩ := C.fork h hact
      exact ⟨⟨γ₁, γ₂, hs, ha, hd⟩, hc⟩
    | done r => exact C.done h hact
  | join m k a d =>
    obtain ⟨γ₁, γ₂, hs, ha, hd⟩ := h
    exact ⟨C.join hs ha hd, C.change_refl γ m⟩
  | async k d _ ih =>
    obtain ⟨γ₁, γ₂, hs, ha, hd⟩ := h
    obtain ⟨ha', hc⟩ := ih ha
    exact ⟨⟨γ₁, γ₂, hs, ha', hd.stable ((C.apart hs).1 hc)⟩, C.change_split hs (.inl hc)⟩
  | direct k a _ ih =>
    obtain ⟨γ₁, γ₂, hs, ha, hd⟩ := h
    obtain ⟨hd', hc⟩ := ih hd
    exact ⟨⟨γ₁, γ₂, hs, ha.stable ((C.apart hs).2 hc), hd'⟩, C.change_split hs (.inr hc)⟩

theorem Good.reaches (h : C.Good γ x.mem x.call) (hr : A.Reaches x y) :
    C.Good γ y.mem y.call ∧ C.Change γ x.mem y.mem := by
  induction hr with
  | refl => exact ⟨h, C.change_refl γ x.mem⟩
  | tail _ hs ih =>
    obtain ⟨p, n, hs, -⟩ := hs
    obtain ⟨hg, hc⟩ := ih.1.move (step_move hs)
    exact ⟨hg, C.change_trans ih.2 hc⟩

/-- **A call that returns** has kept its contract. -/
theorem returns_post {s : S} {r : R} (h : C.Own γ m s) (hr : A.Reaches (start s m) y)
    (hret : y.call = .ret r) : C.Post γ y.mem r ∧ C.Change γ m y.mem := by
  have hg := Good.reaches (C := C) (x := start s m) h hr
  rw [hret] at hg
  exact hg

end Contract

/-! ## How many halves, how many steps -/

/-- Bounds for the halves a call can still submit and the steps it can still take. -/
structure Measure {A : Algo S W R M} (C : Contract A Γ) where
  tasks : S → ℕ
  cost : S → ℕ
  go {γ m s m' s'} (h : C.Own γ m s) (ha : A.act s m = (m', .go s')) :
    tasks s' ≤ tasks s ∧ cost s' < cost s
  fork {γ m s m' k a d} (h : C.Own γ m s) (ha : A.act s m = (m', .fork k a d)) :
    tasks a + tasks d + 1 ≤ tasks s ∧ cost a + cost d + 5 ≤ cost s
  join (k a d) : tasks (A.join k a d) = 0 ∧ cost (A.join k a d) ≤ 1

namespace Measure

variable {A : Algo S W R M} {C : Contract A Γ} (μ : Measure C)

/-- The halves that can still be submitted. -/
def tasksLeft : Call S W R → ℕ
  | .run s => μ.tasks s
  | .halves _ a d => tasksLeft a + tasksLeft d
  | .ret _ => 0

/-- The steps that can still be taken. -/
def left : Call S W R → ℕ
  | .run s => μ.cost s + 1
  | .halves _ a d => left a + left d + 3
  | .ret _ => 0

variable {μ} {γ : Γ} {m m' : M} {c c' : Call S W R} {n : ℕ} {x y : State S W R M}

theorem move (h : C.Good γ m c) (hm : Move A m c m' n c') :
    n + μ.tasksLeft c' ≤ μ.tasksLeft c ∧ μ.left c' < μ.left c := by
  induction hm generalizing γ with
  | run m s =>
    rcases hact : A.act s m with ⟨m₁, act⟩
    cases act with
    | go s' =>
      obtain ⟨ht, hc⟩ := μ.go h hact
      simp only [Act.submits, Act.call, tasksLeft, left]
      omega
    | fork k a d =>
      obtain ⟨ht, hc⟩ := μ.fork h hact
      simp only [Act.submits, Act.call, tasksLeft, left]
      omega
    | done r =>
      simp only [Act.submits, Act.call, tasksLeft, left]
      omega
  | join m k a d =>
    obtain ⟨ht, hc⟩ := μ.join k a d
    simp only [tasksLeft, left]
    omega
  | async k d _ ih =>
    obtain ⟨γ₁, γ₂, -, ha, -⟩ := h
    have hlt := ih ha
    simp only [tasksLeft, left]
    omega
  | direct k a _ ih =>
    obtain ⟨γ₁, γ₂, -, -, hd⟩ := h
    have hlt := ih hd
    simp only [tasksLeft, left]
    omega

/-- **A call submits no more halves** than its beginning says. -/
theorem submitted_le {s : S} (h : C.Own γ m s) (hr : A.Reaches (start s m) y) :
    y.submitted ≤ μ.tasks s := by
  suffices hle : y.submitted + μ.tasksLeft y.call ≤ μ.tasks s from Nat.le_trans
    (Nat.le_add_right _ _) hle
  induction hr with
  | refl => exact Nat.le_of_eq (Nat.zero_add _)
  | tail hr hs ih =>
    obtain ⟨p, n, hs, hsub⟩ := hs
    have hg := (Contract.Good.reaches (C := C) (x := start s m) h hr).1
    have hle := (move (μ := μ) hg (step_move hs)).1
    omega

/-- **Every run can be continued until the call returns.** -/
theorem completes (μ : Measure C) (h : C.Good γ x.mem x.call) :
    ∃ y r, A.Reaches x y ∧ y.call = .ret r := by
  induction hn : μ.left x.call using Nat.strongRecOn generalizing x with
  | _ n ih =>
    rcases step_exists A x.mem x.call with ⟨r, hret⟩ | ⟨p, ⟨m, k, c⟩, hs⟩
    · exact ⟨x, r, .refl, hret⟩
    · have hm := step_move hs
      obtain ⟨y, r, hr, hret⟩ := ih _ (hn ▸ (move (μ := μ) h hm).2) (x := ⟨m, x.submitted + k, c⟩)
        (h.move hm).1 rfl
      exact ⟨y, r, (Move.reaches hs).trans hr, hret⟩

/-- Wherever a run has come, it can be continued until the call returns. -/
theorem returns (μ : Measure C) {s : S} (h : C.Own γ m s) (hr : A.Reaches (start s m) y) :
    ∃ z r, A.Reaches y z ∧ z.call = .ret r :=
  μ.completes (Contract.Good.reaches (C := C) (x := start s m) h hr).1

end Measure

/-! ## Calls that split `depth` times -/

/-- The halves that are submitted when each call splits until `depth` is used up. -/
def halvesOf (depth : ℕ) : ℕ := 2 ^ depth - 1

/-- The steps these calls take beside what the last of them do. -/
def stepsOf (depth : ℕ) : ℕ := 6 * 2 ^ depth - 5

theorem stepsOf_pos (depth : ℕ) : 0 < stepsOf depth := by
  have := Nat.two_pow_pos depth
  unfold stepsOf
  omega

theorem halvesOf_split {depth : ℕ} (h : depth ≠ 0) :
    halvesOf (depth - 1) + halvesOf (depth - 1) + 1 = halvesOf depth := by
  obtain ⟨d, rfl⟩ := Nat.exists_eq_succ_of_ne_zero h
  have := Nat.two_pow_pos d
  simp only [halvesOf, Nat.add_sub_cancel, Nat.succ_eq_add_one, Nat.pow_succ]
  omega

theorem stepsOf_split {depth : ℕ} (h : depth ≠ 0) :
    stepsOf (depth - 1) + stepsOf (depth - 1) + 5 = stepsOf depth := by
  obtain ⟨d, rfl⟩ := Nat.exists_eq_succ_of_ne_zero h
  have := Nat.two_pow_pos d
  simp only [stepsOf, Nat.add_sub_cancel, Nat.succ_eq_add_one, Nat.pow_succ]
  omega

end ForkJoin
