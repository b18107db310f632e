import Bonostl.CountingSemaphore.Conserved

/-!
# Who holds the permits of a semaphore

A thread holds the permits of the acquisitions that have returned to it, less those it has called
`release` for: calls and returns alone say what it holds (`held`). Where every thread releases
only what it holds (`Owns`), the permits there are and those held never exceed what the semaphore
was made with: a semaphore of `n` admits `n` holders, and a `binary_semaphore` that starts available
is a mutex. Nor does a permit get lost. When nobody can go on, whoever is still inside waits in
`acquire`, and all permits are held (`permits_held`).
-/

namespace Bonostl.CountingSemaphore

open Interleaving

variable {ι : Type}

/-- The permits an operation gives back. -/
def Op.permits : Op → ℤ
  | .release count => count
  | _ => 0

variable [DecidableEq ι]

/-- The permits a thread holds: those of the `acquire`s and `try_acquire`s that have returned to it,
less those it has called `release` for. -/
def held (t : ι) (h : List (Step ι)) : ℤ :=
  worth grants (returned h t) - ((callsOf h t).map Op.permits).sum

/-- Threads release only permits they hold. -/
def Owns (h : List (Step ι)) (_ : Config ι (Shared ι) Pc) (t : ι) (k : Choice ι) : Prop :=
  ∀ count, k = .call (.release count) → (count : ℤ) ≤ held t h

theorem grants_nonneg (o : Op) (v : Res) : 0 ≤ grants o v := by
  unfold grants
  split <;> decide

theorem permits_nonneg (o : Op) : 0 ≤ o.permits := by cases o <;> simp [Op.permits]

/-- What has been released is what was called for. -/
theorem worth_releases (L : List (Op × Res)) :
    worth releases L = ((L.map Prod.fst).map Op.permits).sum := by
  induction L with
  | nil => rfl
  | cons y L ih =>
    obtain ⟨o, v⟩ := y
    rw [worth_cons, ih]
    cases o <;> rfl

theorem step_call {t : ι} {k : Choice ι} {s s' : Shared ι} {l l' : Pc} {o : Op}
    (hs : step t k s l = some (.call o, s', l')) : k = .call o := by
  unfold step at hs
  cases l with
  | idle => cases k <;> cases hs; rfl
  | _ =>
    cases k
    all_goals dsimp only at hs
    all_goals (repeat' split at hs)
    all_goals cases hs

section
variable {n : ℤ} {h : List (Step ι)} {c : Config ι (Shared ι) Pc} {t : ι}

/-- Who holds a permit for each one it gives back does not go below none. -/
theorem held_nonneg (hr : program.Run Owns (initial n) h c) (t : ι) : 0 ≤ held t h := by
  refine hr.induction (I := fun h _ => ∀ t, 0 ≤ held t h) (fun _ => le_rfl)
    (fun h c t k ev s l _ ih hown hs u => ?_) t
  have hu := ih u
  unfold held at hu ⊢
  by_cases htu : t = u
  · subst htu
    cases ev with
    | call o =>
      have ho : o.permits ≤ held t h := by
        cases o with
        | release count => exact hown count (step_call hs)
        | _ => exact ih t
      unfold held at ho
      simp [callsOf, calls, returned] at ho ⊢
      omega
    | ret v =>
      simp only [callsOf, calls, returned] at hu ⊢
      cases hcur : current h t with
      | none => simpa [hcur] using hu
      | some o =>
        have := grants_nonneg o v
        simp at hu ⊢
        omega
    | tau => simpa [callsOf, calls, returned] using hu
  · rw [callsOf_ne htu, returned_ne htu]
    exact hu

theorem held_of_notMem (ht : t ∉ users h) : held t h = 0 := by
  obtain ⟨-, hret, hcalls⟩ := of_notMem_users ht
  simp [held, hret, hcalls]

/-- What a thread holds, by what is settled and the operation it is in. -/
theorem held_eq {x : Status Op Res} {es : List (Effect ι Op Res)} (hA : Accounted x es h t) :
    held t h = worth grants (settled x h t) - worth releases (settled x h t) -
      (worth grants (x.outcome (current h t)) - worth releases (x.outcome (current h t)) +
        ((current h t).toList.map Op.permits).sum) := by
  rw [held, hA.calls, List.map_append, List.sum_append, ← worth_releases, settled, worth_append,
    worth_append]
  omega

theorem held_le {x : Status Op Res} {es : List (Effect ι Op Res)} (hA : Accounted x es h t) :
    held t h ≤ worth grants (settled x h t) - worth releases (settled x h t) := by
  have hgrants : 0 ≤ worth grants (x.outcome (current h t)) := worth_nonneg grants_nonneg
  have hreleases : worth releases (x.outcome (current h t)) ≤
      ((current h t).toList.map Op.permits).sum := by
    rw [worth_releases]
    cases x <;> cases hcur : current h t <;> simp [Status.outcome, permits_nonneg]
  rw [held_eq hA]
  omega

/-! ## Progress -/

/-- Thread `t` can go on with its operation: no call, and no spurious wake-up. -/
def CanGo (c : Config ι (Shared ι) Pc) (t : ι) : Prop :=
  ∃ k : Choice ι, (k = .run ∨ ∃ u, k = .notify u) ∧ (step t k c.shared (c.loc t)).isSome

/-- Whoever has the mutex can go on. -/
theorem locked_canGo (ht : (c.loc t).locked) : CanGo c t := by
  refine ⟨.run, .inl rfl, ?_⟩
  generalize c.loc t = pc at ht
  cases pc with
  | check | tryCheck | block | take | add | unlock => rfl
  | _ => cases ht

/-- While nobody has the mutex, only a blocked thread cannot go on. -/
theorem canGo_or_blocked (hfree : c.shared.mutex = none) (ht : c.loc t ≠ .idle)
    (hl : (c.loc t).locked = false) : CanGo c t ∨ Blocked c t := by
  generalize hft : c.loc t = pc at ht hl
  cases pc with
  | idle => exact absurd rfl ht
  | lock o => exact .inl ⟨.run, .inl rfl, by simp [hft, step, hfree]⟩
  | wait =>
    by_cases hb : t ∈ c.shared.blocked
    · exact .inr ⟨hft, hb⟩
    · exact .inl ⟨.run, .inl rfl, by simp [hft, step, hb, hfree]⟩
  | notify left =>
    obtain ⟨u, hu⟩ := notifyOne_isSome c.shared.blocked t
    obtain ⟨ws, hws⟩ := Option.isSome_iff_exists.mp hu
    exact .inl ⟨.notify u, .inr ⟨u, rfl⟩, by simp [hft, step, hws]⟩
  | done r => exact .inl ⟨.run, .inl rfl, by simp [hft, step]⟩
  | _ => cases hl

/-- If nobody can go on, whoever is in an operation is blocked, and there is no permit. -/
theorem all_blocked (hn : 0 ≤ n) (hr : program.Run Program.anyStep (initial n) h c)
    (hno : ∀ t, ¬ CanGo c t) (ht : c.loc t ≠ .idle) : Blocked c t ∧ c.shared.count = 0 := by
  have hI := Inv.run hn hr
  have hunlocked : ∀ u, (c.loc u).locked = false := fun u =>
    eq_false_of_ne_true fun hu => hno u (locked_canGo hu)
  have hfree : c.shared.mutex = none := by
    by_contra hm
    obtain ⟨u, hu⟩ := Option.ne_none_iff_exists'.mp hm
    exact absurd ((hI.owner u).mpr hu) (by simp [hunlocked u])
  have hblocked : ∀ u, c.loc u ≠ .idle → Blocked c u := fun u hu =>
    (canGo_or_blocked hfree hu (hunlocked u)).resolve_left (hno u)
  refine ⟨hblocked t ht, le_antisymm (Int.not_lt.mp fun hpos => ?_) hI.count⟩
  -- somebody would be on the way, but nobody can go on
  obtain ⟨u, hu⟩ := somebody_comes hn hr (hblocked t ht) hpos
  have hne : c.loc u ≠ .idle := by
    rintro he
    rcases hu with hu | ⟨hu, -⟩
    all_goals
      rw [he] at hu
      cases hu
  obtain ⟨hwait, hmem⟩ := hblocked u hne
  rcases hu with hu | ⟨-, hnot⟩
  · rw [hwait] at hu
    cases hu
  · exact hnot hmem

/-- The permits held and those of `count_`. -/
theorem sum_held_le (hn : 0 ≤ n) (hr : program.Run Program.anyStep (initial n) h c) :
    c.shared.count + ∑ t ∈ users h, held t h ≤ n := by
  obtain ⟨H, rfl, hL, -⟩ := semaphore_linearizable hn hr
  have hsum := permits_accounted hn hr
  have hle := Finset.sum_le_sum fun t (_ : t ∈ users (H.map Prod.fst)) => held_le (hL.accounted t)
  rw [Finset.sum_sub_distrib] at hle
  omega

/-- Where no operation is about to return and no `release` is under way, nothing is missing. -/
theorem sum_held_eq (hn : 0 ≤ n) (hr : program.Run Program.anyStep (initial n) h c)
    (hquiet : ∀ t, (c.loc t).status = .idle ∨ (c.loc t).status = .called .acquire) :
    c.shared.count + ∑ t ∈ users h, held t h = n := by
  obtain ⟨H, rfl, hL, -⟩ := semaphore_linearizable hn hr
  have hsum := permits_accounted hn hr
  have hheld : ∀ t, held t (H.map Prod.fst) =
      worth grants (settled (c.loc t).status (H.map Prod.fst) t) -
        worth releases (settled (c.loc t).status (H.map Prod.fst) t) := by
    intro t
    have hA := hL.accounted t
    have hfits := hA.fits
    rw [held_eq hA]
    obtain hst | hst := hquiet t
    · rw [hst] at hfits ⊢
      have hcur : current (H.map Prod.fst) t = none := hfits
      simp [hcur]
    · rw [hst] at hfits ⊢
      have hcur : current (H.map Prod.fst) t = some .acquire := hfits
      simp [hcur, Op.permits]
  rw [Finset.sum_congr rfl fun t _ => hheld t, Finset.sum_sub_distrib]
  omega

/-- **A semaphore of `n` permits has at most `n` holders**, whatever its users do as long as they
release what they hold, and loses no permit: once nobody can go on, whoever is in an operation is
blocked in `acquire` and all `n` permits are held. -/
theorem permits_held (hn : 0 ≤ n) (hr : program.Run Owns (initial n) h c) :
    (∀ t, 0 ≤ held t h) ∧ (∀ S : Finset ι, c.shared.count + ∑ t ∈ S, held t h ≤ n) ∧
    ((∀ t, ¬ CanGo c t) → ∀ t, c.loc t ≠ .idle →
      Blocked c t ∧ ∃ S : Finset ι, ∑ t ∈ S, held t h = n) := by
  have hnonneg := held_nonneg hr
  refine ⟨hnonneg, fun S => ?_, fun hno t ht => ?_⟩
  · have hsub : ∑ t ∈ S, held t h ≤ ∑ t ∈ S ∪ users h, held t h :=
      Finset.sum_le_sum_of_subset_of_nonneg Finset.subset_union_left fun t _ _ => hnonneg t
    have husers : ∑ t ∈ users h, held t h = ∑ t ∈ S ∪ users h, held t h :=
      Finset.sum_subset Finset.subset_union_right fun t _ hnot => held_of_notMem hnot
    have := sum_held_le hn hr.any
    omega
  · have hall := fun t => all_blocked hn hr.any hno (t := t)
    refine ⟨(hall t ht).1, users h, ?_⟩
    have := sum_held_eq hn hr.any fun u => by
      by_cases hu : c.loc u = .idle
      · exact .inl (by rw [hu]; rfl)
      · exact .inr (by rw [(hall u hu).1.1]; rfl)
    rw [(hall t ht).2] at this
    omega
end

/-- Thread `true` takes the only permit, and thread `false` blocks in `acquire`. -/
def takeThenBlock : List (Bool × Choice Bool) :=
  (true, Choice.call .acquire) :: List.replicate 5 (true, Choice.run) ++
    (false, Choice.call .acquire) :: List.replicate 3 (false, Choice.run)

/-- Nobody calls `release`. -/
def keepsAll (_ : Config Bool (Shared Bool) Pc) (_ : Bool) (k : Choice Bool)
    (_ : Config Bool (Shared Bool) Pc) : Bool :=
  match k with
  | .call (.release _) => false
  | _ => true

theorem permits_held_one : ∃ h c, (program (ι := Bool)).Run Owns (initial 1) h c ∧ held true h = 1 ∧
    (∀ S : Finset Bool, c.shared.count + ∑ t ∈ S, held t h ≤ 1) ∧ Blocked c false ∧
    ∃ S : Finset Bool, ∑ t ∈ S, held t h = 1 := by
  have he : ((program.replay keepsAll (initial 1) takeThenBlock).any fun (h, c) =>
      decide (held true h = 1 ∧ c.loc true = .idle ∧ c.loc false = .wait ∧
        false ∈ c.shared.blocked)) = true := by decide
  obtain ⟨⟨h, c⟩, hc, hp⟩ := (Option.any_eq_true _ _).mp he
  obtain ⟨hr, -⟩ := Program.replay_run Owns (fun h c t k c' _ hk count hcall => by
    rw [hcall] at hk
    cases hk) _ .nil hc
  rw [List.append_nil] at hr
  obtain ⟨hheld, htrue, hfalse, hmem⟩ := of_decide_eq_true hp
  obtain ⟨-, hle, hstuck⟩ := permits_held (by decide) hr
  have hno : ∀ t, ¬ CanGo c t := by
    rintro t ⟨k, hk, hs⟩
    cases t with
    | true =>
      rw [htrue] at hs
      obtain rfl | ⟨u, rfl⟩ := hk <;> cases hs
    | false =>
      rw [hfalse] at hs
      obtain rfl | ⟨u, rfl⟩ := hk
      · simp [step, hmem] at hs
      · cases hs
  exact ⟨h, c, hr, hheld, hle, hstuck hno false (by rw [hfalse]; rintro ⟨⟩)⟩

/-! ## `binary_semaphore` -/

/-- The operations of a `binary_semaphore`. -/
inductive BinaryOp where
  | acquire
  | tryAcquire
  | release

/-- The call on `semaphore_`. -/
def BinaryOp.call : BinaryOp → Op
  | .acquire => .acquire
  | .tryAcquire => .tryAcquire
  | .release => .release 1

/-- A `binary_semaphore` as it is constructed. -/
def binary (initially_available : Bool) : Config ι (Shared ι) Pc :=
  initial (if initially_available then 1 else 0)

/-- The threads call the members of `binary_semaphore`, and release only what they hold. -/
def UsesBinary (h : List (Step ι)) (c : Config ι (Shared ι) Pc) (t : ι) (k : Choice ι) : Prop :=
  (∀ o, k = .call o → ∃ b : BinaryOp, o = b.call) ∧ Owns h c t k

/-- **A `binary_semaphore` is a mutex** for threads that release only what they hold. -/
theorem binary_semaphore_excludes {available : Bool} {h : List (Step ι)}
    {c : Config ι (Shared ι) Pc} (hr : program.Run UsesBinary (binary available) h c) :
    (c.shared.count = 0 ∨ c.shared.count = 1) ∧ (∀ t, held t h = 0 ∨ held t h = 1) ∧
    ∀ t u, held t h = 1 → held u h = 1 → t = u := by
  have hn : (0 : ℤ) ≤ if available then 1 else 0 := by split <;> decide
  have hone : (if available then 1 else 0 : ℤ) ≤ 1 := by split <;> decide
  have hr' : program.Run Owns (initial (if available then 1 else 0)) h c :=
    hr.mono fun _ _ _ _ hk => hk.2
  obtain ⟨hnonneg, hle, -⟩ := permits_held hn hr'
  have hcount := (Inv.run hn hr'.any).count
  refine ⟨?_, fun t => ?_, fun t u ht hu => ?_⟩
  · have := hle ∅
    rw [Finset.sum_empty] at this
    omega
  · have := hle {t}
    have := hnonneg t
    rw [Finset.sum_singleton] at *
    omega
  · by_contra htu
    have := hle {t, u}
    rw [Finset.sum_pair htu] at this
    omega

end Bonostl.CountingSemaphore
