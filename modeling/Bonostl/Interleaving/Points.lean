import Bonostl.Interleaving.Linearizable

/-!
# Operations with a fixed linearization point

Where the code of every operation has one step that takes effect, or one on each path, the status of
a thread can be read off its local state, and linearizability is a matter of single steps: `Commits`
says what each step has to do, and `Run.commits` adds them up over a run.
-/

namespace Interleaving

variable {ι σ Λ κ Op Res A : Type}

/-- What a step does to the object: a call or a return leaves it alone, a silent step either leaves
it alone or is the one where its thread's operation takes effect. -/
inductive Commits (spec : A → Op → Res → A → Prop) (abs : σ → A) (g : Λ → Status Op Res) (s : σ)
    (l : Λ)
    (s' : σ) (l' : Λ) : Event Op Res → Prop
  | call (o : Op) (hp : g l = .idle) (hg : g l' = .called o) (ha : abs s' = abs s) :
      Commits spec abs g s l s' l' (.call o)
  | tau (hg : g l' = g l) (ha : abs s' = abs s) : Commits spec abs g s l s' l' .tau
  | commit (o : Op) (r : Res) (hp : g l = .called o) (hg : g l' = .done r)
      (ha : spec (abs s) o r (abs s')) : Commits spec abs g s l s' l' .tau
  | ret (r : Res) (hp : g l = .done r) (hg : g l' = .idle) (ha : abs s' = abs s) :
      Commits spec abs g s l s' l' (.ret r)

variable [DecidableEq ι] {spec : A → Op → Res → A → Prop} {abs : σ → A} {g : Λ → Status Op Res}
  {P : Program ι σ Λ κ Op Res} {ok : List (Rec ι σ Λ Op Res) → Config ι σ Λ → ι → κ → Prop}
  {c₀ c : Config ι σ Λ} {h : List (Rec ι σ Λ Op Res)} {I : Config ι σ Λ → Prop}

theorem LinearizedBy.commits {t : ι} {ev : Event Op Res} {s : σ} {l : Λ}
    (hL : LinearizedBy spec abs (fun _ => g) h c)
    (hc : Commits spec abs g c.shared (c.loc t) s l ev) :
    LinearizedBy spec abs (fun _ => g) (⟨t, ev, c, c.set t s l⟩ :: h) (c.set t s l) := by
  have hd : ∀ u, u ≠ t → g (c.loc u) = g (c.loc u) := fun _ _ => rfl
  cases hc with
  | call o hp hg ha => exact hL.call hp hg ha hd
  | tau hg ha => exact hL.tau hg ha hd
  | commit o r hp hg ha => exact hL.commit hp hg ha hd
  | ret r hp hg ha => exact hL.ret hp hg ha hd

/-- **Fixed points.** A program whose steps, from where its runs get (`I`), are all of this kind is
linearizable. -/
theorem Program.Run.commits (hI : ∀ h c, P.Run ok c₀ h c → I c) (h₀ : ∀ t, g (c₀.loc t) = .idle)
    (hstep : ∀ c t k ev s l, I c → P.step t k c.shared (c.loc t) = some (ev, s, l) →
      Commits spec abs g c.shared (c.loc t) s l ev)
    (hr : P.Run ok c₀ h c) : LinearizedBy spec abs (fun _ => g) h c := by
  refine hr.induction (I := fun h c => LinearizedBy spec abs (fun _ => g) h c) ?_ ?_
  · refine ⟨[], rfl, ?_⟩
    have hidle : (fun u => g (c₀.loc u)) = fun _ => .idle := funext h₀
    rw [hidle]
    exact .nil
  · intro h c t k ev s l hrun hL _ hs
    exact hL.commits (hstep c t k ev s l (hI h c hrun) hs)

/-- The effects of a linearized run are a legal run of the object. -/
theorem LinearizedBy.legal (hL : LinearizedBy spec abs (fun _ => g) h c) (hr : P.Run ok c₀ h c) :
    ∃ H : Annotated ι σ Λ Op Res, H.map Prod.fst = h ∧
      Linearized spec abs H (fun u => g (c.loc u)) ∧
      Legal spec (abs c₀.shared) (order H) (abs c.shared) := by
  obtain ⟨H, rfl, hH⟩ := hL
  exact ⟨H, rfl, hH, hH.legal hr⟩

end Interleaving
