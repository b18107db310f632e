import Bonostl.CountingSemaphore.Permits
import Bonostl.Interleaving.Points

/-!
# A `counting_semaphore` is an atomic counter of permits

`acquire` and a `try_acquire` that succeeds take effect where they lower `count_`, a `try_acquire`
that fails where it reads `count_`, and `release` where it raises it. Between the predicate and the
step that takes the permit nobody else changes `count_`: that is `Inv.ready`. So every run looks
like a run of `SemaphoreSpec`, in which an `acquire` happens only when there is a permit.
-/

namespace Bonostl.CountingSemaphore

open Interleaving

/-- The sequential semaphore. -/
inductive SemaphoreSpec : ℤ → Op → Res → ℤ → Prop
  | acquire (count : ℤ) (hc : 0 < count) : SemaphoreSpec count .acquire .unit (count - 1)
  | tryAcquire (count : ℤ) (hc : 0 < count) :
      SemaphoreSpec count .tryAcquire (.bool true) (count - 1)
  | tryAcquireFail (count : ℤ) (hc : count ≤ 0) :
      SemaphoreSpec count .tryAcquire (.bool false) count
  | release (count : ℤ) (k : ℕ) : SemaphoreSpec count (.release k) .unit (count + k)

/-- The operation that takes a permit and returns `r`. -/
def Res.taker : Res → Op
  | .unit => .acquire
  | .bool _ => .tryAcquire

/-- Where a thread's operation stands: called, or done with a result. -/
def Pc.status : Pc → Status Op Res
  | .idle => .idle
  | .lock o => .called o
  | .check _ | .block | .wait => .called .acquire
  | .tryCheck => .called .tryAcquire
  | .take _ r => .called r.taker
  | .add count => .called (.release count)
  | .unlock 0 r => .done r
  | .unlock (_ + 1) _ | .notify _ => .done .unit
  | .done r => .done r

@[simp] theorem locked_status (o : Op) : o.locked.status = .called o := by cases o <;> rfl

@[simp] theorem notifyFrom_status (r : Res) (n : ℕ) :
    (notifyFrom r n).status = (Pc.unlock n r).status := by cases n <;> rfl

/-- What takes a permit does not return that it has none. -/
def Pc.Takes : Pc → Prop
  | .take _ r => r ≠ .bool false
  | _ => True

variable {ι : Type} [DecidableEq ι] {s s' : Shared ι} {l l' : Pc} {t : ι} {k : Choice ι}
  {ev : Event Op Res}

theorem takes_move (hm : Move t s l s' l') : l'.Takes := by
  cases hm with
  | pass | tryPass => rintro ⟨⟩
  | lock o => cases o <;> trivial
  | unlock n r => cases n <;> trivial
  | notify left =>
    generalize left - 1 = n
    cases n <;> trivial
  | _ => trivial

/-- **What one step does to the semaphore.** -/
theorem step_commits (hready : ∀ w r, l = .take w r → 0 < s.count) (htakes : l.Takes)
    (hs : step t k s l = some (ev, s', l')) :
    Commits SemaphoreSpec Shared.count Pc.status s l s' l' ev := by
  unfold step at hs
  cases l with
  | take woken r =>
    cases k <;> cases hs
    have hc := hready woken r rfl
    cases r with
    | unit => exact .commit .acquire .unit rfl rfl (.acquire _ hc)
    | bool b =>
      obtain rfl : b = true := by
        cases b with
        | false => exact absurd rfl htakes
        | true => rfl
      exact .commit .tryAcquire (.bool true) rfl rfl (.tryAcquire _ hc)
  | tryCheck =>
    cases k <;> cases hs
    split
    · exact .commit .tryAcquire (.bool false) rfl rfl (.tryAcquireFail _ ‹_›)
    · exact .tau rfl rfl
  | add count =>
    cases k <;> cases hs
    refine .commit (.release count) .unit rfl ?_ (.release _ _)
    cases count <;> rfl
  | check woken =>
    cases k <;> cases hs
    split <;> exact .tau rfl rfl
  | idle =>
    cases k <;> cases hs
    exact .call _ rfl rfl rfl
  | done r =>
    cases k <;> cases hs
    exact .ret r rfl rfl rfl
  | unlock n r =>
    cases k <;> cases hs
    exact .tau (notifyFrom_status r n) rfl
  | notify left =>
    cases k <;> dsimp only at hs
    case notify u =>
      split at hs
      all_goals cases hs
      refine .tau ((notifyFrom_status _ _).trans ?_) rfl
      generalize left - 1 = n
      cases n <;> rfl
    all_goals cases hs
  | lock o =>
    cases k <;> dsimp only at hs
    case run =>
      split at hs
      all_goals cases hs
      exact .tau (locked_status o) rfl
    all_goals cases hs
  | _ =>
    cases k
    all_goals dsimp only at hs
    all_goals (repeat' split at hs)
    all_goals cases hs
    all_goals exact .tau rfl rfl

section
variable {n : ℤ} {h : List (Step ι)} {c : Config ι (Shared ι) Pc}

theorem takes_run (hr : program.Run Program.anyStep (initial n) h c) (t : ι) : (c.loc t).Takes := by
  refine hr.induction (I := fun _ c => ∀ t, (c.loc t).Takes) (fun _ => trivial)
    (fun h c t k ev s l _ ih _ hs => ?_) t
  exact Config.forall_set (p := fun _ (l : Pc) => l.Takes) (takes_move (step_move hs))
    fun u _ => ih u

/-- **The semaphore is linearizable.** Every run of any number of threads is one of the atomic
semaphore, from the permits it was made with to those it has now. -/
theorem semaphore_linearizable (hn : 0 ≤ n) (hr : program.Run Program.anyStep (initial n) h c) :
    ∃ H : Annotated ι (Shared ι) Pc Op Res, H.map Prod.fst = h ∧
      Linearized SemaphoreSpec Shared.count H (fun u => (c.loc u).status) ∧
      Legal SemaphoreSpec n (order H) c.shared.count := by
  refine LinearizedBy.legal ?_ hr
  exact Program.Run.commits (I := fun c => Inv c.shared c.loc ∧ ∀ t, (c.loc t).Takes)
    (fun h c hr => ⟨Inv.run hn hr, takes_run hr⟩) (fun _ => rfl)
    (fun c t k ev s l hI hs => step_commits (hI.1.ready t) (hI.2 t) hs) hr
end

/-- An `acquire` blocks until another thread releases two permits. -/
theorem semaphore_linearizable_handover :
    ∃ (h : List (Step Bool)) (c : Config Bool (Shared Bool) Pc),
      program.Run Program.anyStep (initial 0) h c ∧ c.loc false = .done .unit ∧
        ∃ es : List (Effect Bool Op Res), Legal SemaphoreSpec 0 es 1 := by
  obtain ⟨h, c, hr, hq⟩ := Program.replay_reaches (program (ι := Bool)) (initial 0)
    ((false, Choice.call .acquire) :: List.replicate 3 (false, Choice.run) ++
      (true, Choice.call (.release 2)) :: List.replicate 3 (true, Choice.run) ++
      (true, Choice.notify false) :: List.replicate 4 (false, Choice.run))
    (fun _ c => decide (c.loc false = .done .unit ∧ c.shared.count = 1)) (by decide)
  obtain ⟨hdone, hcount⟩ := of_decide_eq_true hq
  obtain ⟨H, -, -, hlegal⟩ := semaphore_linearizable le_rfl hr
  rw [hcount] at hlegal
  exact ⟨h, c, hr, hdone, order H, hlegal⟩

end Bonostl.CountingSemaphore
