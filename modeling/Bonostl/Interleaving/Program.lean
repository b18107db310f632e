import Mathlib.Data.Set.Card
import Mathlib.Logic.Function.Basic

/-!
# Programs run by interleaved threads

A `Program` says what one thread does in one atomic step: from the shared state and the thread's
own local state it gives the next ones, and what the step shows of the operation the thread is
running (`Event`). The scheduler's choice `κ` carries everything the program does not decide
itself: which operation a thread calls, which address an allocation returns, whether a weak
compare-exchange fails spuriously.

A `Run` is a sequence of such steps by any threads in any order, with its history kept newest
first. Its parameter `ok` restricts the steps a run may take (`fun _ _ _ _ => True` for none),
and may read the history.

* `Run.induction`: what holds initially and is kept by every allowed step holds in every run.
* `replay` and `exec` run a schedule; `replay_run`, `exec_run`: what it reaches is reached by a run.
* `threadsIn`: how many threads are in a given kind of local state, and how a step changes it.
-/

namespace Interleaving

/-- What a step shows of the operation its thread is running. -/
inductive Event (Op Res : Type) where
  | call (o : Op)
  | ret (r : Res)
  | tau
  deriving DecidableEq

/-- The shared state and every thread's local state. -/
structure Config (ι σ Λ : Type) where
  shared : σ
  loc : ι → Λ

/-- One atomic step of a thread; `none` when the thread cannot take the step now. -/
structure Program (ι σ Λ κ Op Res : Type) where
  step : ι → κ → σ → Λ → Option (Event Op Res × σ × Λ)

/-- A step that was taken: by whom, what it showed, from where to where. -/
structure Rec (ι σ Λ Op Res : Type) where
  tid : ι
  ev : Event Op Res
  pre : Config ι σ Λ
  cfg : Config ι σ Λ

variable {ι σ Λ κ Op Res : Type} [DecidableEq ι]

/-- The configuration after thread `t` moved to shared state `s` and local state `l`. -/
def Config.set (c : Config ι σ Λ) (t : ι) (s : σ) (l : Λ) : Config ι σ Λ :=
  ⟨s, Function.update c.loc t l⟩

@[simp] theorem Config.set_shared (c : Config ι σ Λ) (t : ι) (s : σ) (l : Λ) :
    (c.set t s l).shared = s := rfl

@[simp] theorem Config.set_loc_self (c : Config ι σ Λ) (t : ι) (s : σ) (l : Λ) :
    (c.set t s l).loc t = l := by simp [Config.set]

@[simp] theorem Config.set_loc_ne (c : Config ι σ Λ) {t u : ι} (h : u ≠ t) (s : σ) (l : Λ) :
    (c.set t s l).loc u = c.loc u := by simp [Config.set, h]

/-- What all threads satisfy after a step of `t`: the mover's new local state, and every other
thread's old one in the new shared state. -/
theorem Config.forall_set {c : Config ι σ Λ} {t : ι} {s : σ} {l : Λ} {p : ι → Λ → Prop}
    (ht : p t l) (hu : ∀ u, u ≠ t → p u (c.loc u)) : ∀ u, p u ((c.set t s l).loc u) := by
  intro u
  by_cases h : u = t
  · subst h; rwa [Config.set_loc_self]
  · rw [Config.set_loc_ne c h]; exact hu u h

namespace Program

variable (P : Program ι σ Λ κ Op Res)

/-- The runs from `c₀` whose steps all meet `ok`, with their history, newest step first. -/
inductive Run (ok : List (Rec ι σ Λ Op Res) → Config ι σ Λ → ι → κ → Prop)
    (c₀ : Config ι σ Λ) : List (Rec ι σ Λ Op Res) → Config ι σ Λ → Prop
  | nil : Run ok c₀ [] c₀
  | cons {h : List (Rec ι σ Λ Op Res)} {c : Config ι σ Λ} {t : ι} {k : κ} {ev : Event Op Res}
      {s : σ} {l : Λ} (hrun : Run ok c₀ h c) (hok : ok h c t k)
      (hstep : P.step t k c.shared (c.loc t) = some (ev, s, l)) :
      Run ok c₀ (⟨t, ev, c, c.set t s l⟩ :: h) (c.set t s l)

/-- No restriction on the steps. -/
def anyStep : List (Rec ι σ Λ Op Res) → Config ι σ Λ → ι → κ → Prop := fun _ _ _ _ => True

variable {P} {ok : List (Rec ι σ Λ Op Res) → Config ι σ Λ → ι → κ → Prop} {c₀ : Config ι σ Λ}

/-- **The invariant rule**, for invariants that may read the history. -/
theorem Run.induction {I : List (Rec ι σ Λ Op Res) → Config ι σ Λ → Prop} (h₀ : I [] c₀)
    (hstep : ∀ h c t k ev s l, P.Run ok c₀ h c → I h c → ok h c t k →
      P.step t k c.shared (c.loc t) = some (ev, s, l) →
      I (⟨t, ev, c, c.set t s l⟩ :: h) (c.set t s l))
    {h : List (Rec ι σ Λ Op Res)} {c : Config ι σ Λ} (hr : P.Run ok c₀ h c) : I h c := by
  induction hr with
  | nil => exact h₀
  | cons hrun hok hs ih => exact hstep _ _ _ _ _ _ _ hrun ih hok hs

/-- Steps that are allowed by one restriction may be by another. -/
theorem Run.mono {ok' : List (Rec ι σ Λ Op Res) → Config ι σ Λ → ι → κ → Prop}
    {h : List (Rec ι σ Λ Op Res)} {c : Config ι σ Λ} (hr : P.Run ok c₀ h c)
    (hok : ∀ h c t k, ok h c t k → ok' h c t k) : P.Run ok' c₀ h c := by
  induction hr with
  | nil => exact .nil
  | cons _ hk hs ih => exact ih.cons (hok _ _ _ _ hk) hs

/-- A run with restricted steps is a run. -/
theorem Run.any {h : List (Rec ι σ Λ Op Res)} {c : Config ι σ Λ} (hr : P.Run ok c₀ h c) :
    P.Run anyStep c₀ h c :=
  hr.mono fun _ _ _ _ _ => trivial

/-- The history says where the run has come. -/
theorem Run.cfg_eq {h : List (Rec ι σ Λ Op Res)} {c : Config ι σ Λ} (hr : P.Run ok c₀ h c) :
    c = (h.head?.map Rec.cfg).getD c₀ := by
  cases hr <;> rfl

/-- What came before a step of a run is a run. -/
theorem Run.before {r : Rec ι σ Λ Op Res} {h₁ h₂ : List (Rec ι σ Λ Op Res)} {c : Config ι σ Λ}
    (hr : P.Run ok c₀ (h₁ ++ r :: h₂) c) : P.Run ok c₀ h₂ r.pre := by
  induction h₁ generalizing c with
  | nil =>
    cases hr with
    | cons hrun => exact hrun
  | cons r₁ h₁ ih =>
    cases hr with
    | cons hrun => exact ih hrun

/-- A step of a run is a step of the program. -/
theorem Run.step_at {r : Rec ι σ Λ Op Res} {h₁ h₂ : List (Rec ι σ Λ Op Res)} {c : Config ι σ Λ}
    (hr : P.Run ok c₀ (h₁ ++ r :: h₂) c) : ∃ k s l, ok h₂ r.pre r.tid k ∧
      P.step r.tid k r.pre.shared (r.pre.loc r.tid) = some (r.ev, s, l) ∧
      r.cfg = r.pre.set r.tid s l := by
  induction h₁ generalizing c with
  | nil =>
    cases hr with
    | cons _ hok hs => exact ⟨_, _, _, hok, hs, rfl⟩
  | cons r₁ h₁ ih =>
    cases hr with
    | cons hrun => exact ih hrun

theorem Run.unique {h : List (Rec ι σ Λ Op Res)} {c c' : Config ι σ Λ} (hr : P.Run ok c₀ h c)
    (hr' : P.Run ok c₀ h c') : c = c' :=
  hr.cfg_eq.trans hr'.cfg_eq.symm

variable (P)

/-- Run a schedule: each entry names the thread that moves and the choice it is given. Every step
has to pass `check`, which reads the configurations before and after it. The steps taken come newest
first. -/
def replay (check : Config ι σ Λ → ι → κ → Config ι σ Λ → Bool) (c : Config ι σ Λ) :
    List (ι × κ) → Option (List (Rec ι σ Λ Op Res) × Config ι σ Λ)
  | [] => some ([], c)
  | (t, k) :: rest =>
    match P.step t k c.shared (c.loc t) with
    | none => none
    | some (ev, s, l) =>
      if check c t k (c.set t s l) then
        (replay check (c.set t s l) rest).map fun (h, c') => (h ++ [⟨t, ev, c, c.set t s l⟩], c')
      else none

/-- What a schedule reaches. -/
def exec (check : Config ι σ Λ → ι → κ → Config ι σ Λ → Bool) (c : Config ι σ Λ)
    (sched : List (ι × κ)) : Option (Config ι σ Λ) :=
  (P.replay check c sched).map Prod.snd

variable {P} {check : Config ι σ Λ → ι → κ → Config ι σ Λ → Bool}

/-- A schedule goes on with a run. -/
theorem replay_run (ok : List (Rec ι σ Λ Op Res) → Config ι σ Λ → ι → κ → Prop)
    (hok : ∀ h c t k c', P.Run ok c₀ h c → check c t k c' = true → ok h c t k) :
    ∀ (sched : List (ι × κ)) {h h' : List (Rec ι σ Λ Op Res)} {c c' : Config ι σ Λ},
      P.Run ok c₀ h c → P.replay check c sched = some (h', c') →
      P.Run ok c₀ (h' ++ h) c' ∧ ∀ r ∈ h', ∃ k, check r.pre r.tid k r.cfg = true
  | [], h, h', c, c', hr, he => by
    obtain ⟨rfl, rfl⟩ := Prod.mk.inj (Option.some.inj he)
    exact ⟨hr, by simp⟩
  | (t, k) :: rest, h, h', c, c', hr, he => by
    simp only [replay] at he
    cases hs : P.step t k c.shared (c.loc t) with
    | none => rw [hs] at he; exact absurd he (by simp)
    | some r =>
      obtain ⟨ev, s, l⟩ := r
      rw [hs] at he
      dsimp only at he
      split at he
      · rename_i hc
        obtain ⟨⟨h₁, c₁⟩, hrest, heq⟩ := Option.map_eq_some_iff.mp he
        obtain ⟨rfl, rfl⟩ := Prod.mk.inj heq
        obtain ⟨hr', hall⟩ := replay_run ok hok rest (hr.cons (hok h c t k _ hr hc) hs) hrest
        refine ⟨by simpa using hr', fun r hmem => ?_⟩
        rcases List.mem_append.mp hmem with hmem | hmem
        · exact hall r hmem
        · obtain rfl := List.mem_singleton.mp hmem
          exact ⟨k, hc⟩
      · exact absurd he (by simp)

/-- What a schedule reaches after a run is reached by a longer run, whose new steps all passed
`check`. -/
theorem exec_run_from (ok : List (Rec ι σ Λ Op Res) → Config ι σ Λ → ι → κ → Prop)
    (hok : ∀ h c t k c', P.Run ok c₀ h c → check c t k c' = true → ok h c t k)
    (sched : List (ι × κ)) {h : List (Rec ι σ Λ Op Res)} {c c' : Config ι σ Λ}
    (hr : P.Run ok c₀ h c) (he : P.exec check c sched = some c') :
    ∃ h', P.Run ok c₀ (h' ++ h) c' ∧ ∀ r ∈ h', ∃ k, check r.pre r.tid k r.cfg = true := by
  obtain ⟨⟨h', c₁⟩, hrest, rfl⟩ := Option.map_eq_some_iff.mp he
  exact ⟨h', replay_run ok hok sched hr hrest⟩

theorem exec_run (ok : List (Rec ι σ Λ Op Res) → Config ι σ Λ → ι → κ → Prop)
    (hok : ∀ h c t k c', P.Run ok c₀ h c → check c t k c' = true → ok h c t k)
    {sched : List (ι × κ)} {c : Config ι σ Λ} (he : P.exec check c₀ sched = some c) :
    ∃ h, P.Run ok c₀ h c := by
  obtain ⟨h, hr, -⟩ := exec_run_from ok hok sched Run.nil he
  exact ⟨h ++ [], hr⟩

/-- Some run does what a schedule shows. -/
theorem replay_reaches (P : Program ι σ Λ κ Op Res) (c₀ : Config ι σ Λ) (sched : List (ι × κ))
    (q : List (Rec ι σ Λ Op Res) → Config ι σ Λ → Bool)
    (he : (P.replay (fun _ _ _ _ => true) c₀ sched).any (fun (h, c) => q h c) = true) :
    ∃ h c, P.Run anyStep c₀ h c ∧ q h c = true := by
  obtain ⟨⟨h, c⟩, hc, hq⟩ := (Option.any_eq_true _ _).mp he
  obtain ⟨hr, -⟩ := replay_run anyStep (fun _ _ _ _ _ _ _ => trivial) sched .nil hc
  exact ⟨h, c, by simpa using hr, hq⟩

end Program

/-! ## Counting threads -/

/-- How many threads are in a local state that satisfies `p`. -/
noncomputable def threadsIn (p : Λ → Prop) (f : ι → Λ) : ℕ := {t | p (f t)}.ncard

/-- Only finitely many threads have left their initial local state. -/
theorem Program.Run.finite_moved {P : Program ι σ Λ κ Op Res}
    {ok : List (Rec ι σ Λ Op Res) → Config ι σ Λ → ι → κ → Prop} {c₀ : Config ι σ Λ}
    {h : List (Rec ι σ Λ Op Res)} {c : Config ι σ Λ} (hr : P.Run ok c₀ h c) :
    {t | c.loc t ≠ c₀.loc t}.Finite := by
  induction hr with
  | nil => simp
  | @cons h c t k ev s l _ _ _ ih =>
    refine (ih.insert t).subset fun u hu => ?_
    by_cases hut : u = t
    · exact Or.inl hut
    · right
      simpa [Config.set_loc_ne c hut] using hu

/-- A step changes the count by what it changes for the thread that moves. -/
theorem threadsIn_update {p : Λ → Prop} [DecidablePred p] {f : ι → Λ}
    (hf : {t | p (f t)}.Finite) (t : ι) (l : Λ) :
    threadsIn p (Function.update f t l) + (if p (f t) then 1 else 0) =
      threadsIn p f + (if p l then 1 else 0) := by
  have hsplit : ∀ g : ι → Λ, {u | p (g u)}.Finite → (∀ u, u ≠ t → g u = f u) →
      threadsIn p g = ({u | p (f u)} \ {t}).ncard + (if p (g t) then 1 else 0) := by
    intro g hg hgf
    have hd : {u | p (g u)} \ {t} = {u | p (f u)} \ {t} := by
      ext u
      simp only [Set.mem_sdiff, Set.mem_ofPred_eq, Set.mem_singleton_iff]
      constructor
      · rintro ⟨h, hu⟩; exact ⟨by rwa [← hgf u hu], hu⟩
      · rintro ⟨h, hu⟩; exact ⟨by rwa [hgf u hu], hu⟩
    unfold threadsIn
    by_cases hp : p (g t)
    · rw [if_pos hp, ← hd, Set.ncard_sdiff_singleton_add_one (show t ∈ {u | p (g u)} from hp) hg]
    · rw [if_neg hp, ← hd, Set.sdiff_singleton_eq_self (show t ∉ {u | p (g u)} from hp)]
      rfl
  have hup : {u | p (Function.update f t l u)}.Finite := by
    refine (hf.insert t).subset fun u hu => ?_
    by_cases hut : u = t
    · exact Or.inl hut
    · right
      simpa [hut] using hu
  rw [hsplit _ hup fun u hu => by simp [hu], hsplit f hf fun _ _ => rfl, Function.update_self]
  omega

/-- `threadsIn_update` for a kind of local state that is not the idle one. -/
theorem threadsIn_update_of_idle {idle : Λ} {p : Λ → Bool} {f : ι → Λ} (hp : p idle = false)
    (hf : {t | f t ≠ idle}.Finite) (t : ι) (l : Λ) :
    threadsIn (fun l => p l) (Function.update f t l) + (if p (f t) then 1 else 0) =
      threadsIn (fun l => p l) f + (if p l then 1 else 0) :=
  threadsIn_update (hf.subset fun u hu hidle => by simp [hidle, hp] at hu) t l

attribute [grind =] Function.update_apply

end Interleaving
