import Bonostl.ParallelPartialSum.Correct

/-!
# A throwing addition in `parallel_partial_sum`

Any addition of a run may throw. An exception that is thrown before its chunk has handed on anything
goes from promise to promise to the last chunk, and from there to the caller. In the loop over the
other elements the promise is already set, so that the `set_exception` of the handler throws and the
exception leaves the thread's function. So a run meets the claim exactly if no addition throws in
this loop of a chunk that a thread processes (`throwing_addition_iff`); the first chunk has no such
loop, and the last one, which `main` processes, hands on nothing. `throwing_addition_terminates` is
a run of three chunks.
-/

namespace Bonostl.ParallelPartialSum

open Interleaving Blocks

variable {α ε : Type}

/-- A run of `parallel_partial_sum`. -/
abbrev ThrowRun (add : α → α → α) (w hardware n : ℕ) (x : ℕ → α) (h : List (Step α ε))
    (c : Config Thread (Shared α ε) (Pc α ε)) : Prop :=
  (parallelPartialSum add w hardware n).Run Program.anyStep (initial x) h c

/-- No thread can step. -/
def Over (add : α → α → α) (w hardware n : ℕ) (c : Config Thread (Shared α ε) (Pc α ε)) : Prop :=
  Ended add (lengthOf w n) (numThreadsOf w hardware (lengthOf w n)) (blockBegin w hardware n) c

/-- A thread's place where it sets its promise. -/
def Pc.completing : Pc α ε → Bool
  | .run (.setValue _) | .run (.handler _) => true
  | _ => false

/-- No exception has left a thread's function, and no chunk has set its promise again. -/
def Contained (h : List (Step α ε)) (c : Config Thread (Shared α ε) (Pc α ε)) : Prop :=
  c.shared.terminated = false ∧ ∀ r ∈ h, ∀ b, r.tid = .chunk b →
    (r.pre.loc r.tid).completing = true → r.pre.shared.endValues b = none

/-- What additions have thrown has been rethrown to the caller. -/
def Rethrown (h : List (Step α ε)) (c : Config Thread (Shared α ε) (Pc α ε)) : Prop :=
  ∀ e, Threw h e → ∃ e', Threw h e' ∧ c.loc .main = .ret (some (.thrown e'))

section
variable {add : α → α → α} {length num n : ℕ} {first : ℕ → ℕ} {x : ℕ → α} {h : List (Step α ε)}
  {c : Config Thread (Shared α ε) (Pc α ε)} {b : ℕ}

/-- A chunk in which an addition has thrown too late never finishes. -/
theorem late_terminates (hI : Inv add num first x h c) (hend : Ended add length num first c)
    (hlate : LateIn h (.chunk b)) : c.shared.terminated = true := by
  obtain ⟨b', hb', hto⟩ := hI.throwers _ hlate.threw
  have hlt : b' + 1 < num := by
    refine lt_of_le_of_ne hb' fun hlast => ?_
    rw [owner, if_pos hlast] at hto
    cases hto
  rw [owner_chunk hlt] at hto
  cases hto
  rcases ended_cases hI hend with hterm | ⟨r, hl⟩ | ⟨-, -, hn⟩
  · exact hterm
  · exfalso
    have hmain := hI.main
    rw [hl] at hmain
    have hok := hI.chunk b hb'
    rw [owner_chunk hlt, hI.thread_finished (hmain.2 b hlt)] at hok
    rcases hok with hclean | ⟨-, hno, -⟩
    · exact hclean.quiet (by rw [owner_chunk hlt]; exact hlate.threw)
    · exact hno (by rw [owner_chunk hlt]; exact hlate)
  · omega

/-- If `main` returns without an exception, all chunks have done their work. -/
theorem clean_of_return (hI : Inv add num first x h c) (hl : c.loc .main = .ret none) :
    ∀ b < num, Clean add num first x h c.shared b := by
  have hmain := hI.main
  rw [hl] at hmain
  have hback : ∀ k b, b + k + 1 = num → Clean add num first x h c.shared b := by
    intro k
    induction k with
    | zero =>
      intro b hb
      have hok := hI.chunk b (by omega)
      rw [owner, if_pos (by omega), hl] at hok
      rcases hok with hclean | ⟨hlt, -⟩
      · exact hclean
      · omega
    | succ k ih =>
      intro b hb
      have hgiven := (ih (b + 1) (by omega)).given (Nat.succ_ne_zero b)
      have hok := hI.chunk b (by omega)
      rw [owner_chunk (by omega), hI.thread_finished (hmain.2 b (by omega))] at hok
      rcases hok with hclean | ⟨-, -, e, he, -⟩
      · exact hclean
      · rw [Nat.add_sub_cancel, he] at hgiven
        cases hgiven
  exact fun b hb => hback (num - 1 - b) b (by omega)

/-- An exception reaches the caller, unless the program has been terminated. -/
theorem rethrown (hI : Inv add num first x h c) (hend : Ended add length num first c)
    (hterm : c.shared.terminated = false) : Rethrown h c := by
  rintro e ⟨r, hr, he⟩
  obtain ⟨b, hb, hto⟩ := hI.throwers r.tid ⟨r, hr, rfl, by rw [he]; nofun⟩
  rcases ended_cases hI hend with hterm' | ⟨res, hl⟩ | ⟨-, -, hn⟩
  · rw [hterm] at hterm'
    cases hterm'
  · cases res with
    | none =>
      have hquiet := (clean_of_return hI hl b hb).quiet
      rw [← hto] at hquiet
      exact absurd ⟨r, hr, rfl, by rw [he]; nofun⟩ hquiet
    | some e' =>
      have hok := hI.chunk (num - 1) (by omega)
      rw [owner_last (by omega), hl] at hok
      rcases hok with ⟨-, e'', rfl, ht⟩ | ⟨hlt, -⟩
      · exact ⟨e'', ht, hl⟩
      · omega
  · omega
end

section
variable {add : α → α → α} {w hardware n : ℕ} {x : ℕ → α} {h : List (Step α ε)}
  {c : Config Thread (Shared α ε) (Pc α ε)}

theorem inv_throwRun (hr : ThrowRun add w hardware n x h c) : Inv add
    (numThreadsOf w hardware (lengthOf w n)) (blockBegin w hardware n) x h c :=
  inv_run division_of_num num_of_length hr

/-- Where no addition throws too late, no exception leaves a thread. -/
theorem contained (hr : ThrowRun add w hardware n x h c) (hlate : ∀ b, ¬ LateIn h (.chunk b)) :
    Contained h c := by
  constructor
  · by_contra hterm
    obtain ⟨b, -, hl⟩ := (inv_throwRun hr).terminated (by simpa using hterm)
    exact hlate b hl
  · intro r hmem b hto hat
    obtain ⟨h₁, h₂, rfl⟩ := List.append_of_mem hmem
    have hI := inv_throwRun hr.before
    have hno : ¬ LateIn h₂ (.chunk b) := fun ⟨r', hr', hl⟩ =>
      hlate b ⟨r', List.mem_append_right _ (List.mem_cons_of_mem _ hr'), hl⟩
    have hthread := hI.thread b
    rw [hto] at hat
    generalize hl : r.pre.loc (.chunk b) = l at hat hthread
    cases l with
    | run p =>
      have hlt := hthread.1
      have hok := hI.chunk b (by omega)
      rw [owner_chunk hlt, hl] at hok
      cases p with
      | setValue addend => exact hok.2.1
      | handler e =>
        refine (hok.2 hlt).mpr ?_
        rwa [owner_chunk hlt]
      | _ => cases hat
    | _ => cases hat

/-- **When a throwing addition reaches the caller.** -/
theorem throwing_addition_iff {α ε : Type} (add : α → α → α) (w hardware n : ℕ) (x : ℕ → α) :
    (∀ (h : List (Step α ε)) c, ThrowRun add w hardware n x h c → Over add w hardware n c →
      (Contained h c ∧ Rethrown h c ↔ ∀ b, ¬ LateIn h (.chunk b))) ∧
    (∀ (h : List (Step α ε)) c, ThrowRun add w hardware n x h c → (∀ b, ¬ LateIn h (.chunk b)) →
      Contained h c) ∧
    ∀ (h : List (Step α ε)) c, ThrowRun add w hardware n x h c →
      ∃ h' c', ThrowRun add w hardware n x (h' ++ h) c' ∧ Over add w hardware n c' := by
  refine ⟨fun h c hr hend => ⟨fun hmeets b hlate => ?_, fun hlate => ?_⟩,
    fun h c hr hlate => contained hr hlate,
    fun h c hr => completes division_of_num num_of_length hr⟩
  · have hterm := late_terminates (inv_throwRun hr) hend hlate
    rw [hmeets.1.1] at hterm
    cases hterm
  · have hcontained := contained hr hlate
    exact ⟨hcontained, rethrown (inv_throwRun hr) hend hcontained.1⟩
end

/-- The steps of one thread. -/
def steps (t : Thread) (k : ℕ) : List (Thread × Choice Unit) := List.replicate k (t, .run)

/-- Fifty-one elements on three threads. The first chunk is done, the second has handed on its end
value; then the first addition to its other elements throws. -/
def lateThrow : List (Thread × Choice Unit) :=
  [steps .main 3, steps (.chunk 0) 20, steps (.chunk 1) 21, [(.chunk 1, .throw ())],
    steps (.chunk 1) 2].flatten

theorem over_of_terminated {add : α → α → α} {w hardware n : ℕ}
    {c : Config Thread (Shared α ε) (Pc α ε)} (hterm : c.shared.terminated = true) :
    Over add w hardware n c := fun t k => by rw [step, hterm, if_pos rfl]

/-- **The exception leaves the thread** and does not come to the caller, though no other addition
throws. -/
theorem throwing_addition_terminates :
    ∃ (h : List (Step ℕ Unit)) (c : Config Thread (Shared ℕ Unit) (Pc ℕ Unit)),
      ThrowRun (· + ·) 64 3 51 id h c ∧ Over (· + ·) 64 3 51 c ∧ Threw h () ∧
      c.shared.terminated = true ∧ ¬ Contained h c ∧ ¬ Rethrown h c := by
  obtain ⟨h, c, hr, hq⟩ := Program.replay_reaches (parallelPartialSum (· + ·) 64 3 51) (initial id)
    lateThrow (fun h c => c.shared.terminated && h.any (fun r => decide (thrownIn r = some ())) &&
      decide (c.loc .main = .spawn 2)) (by decide)
  simp only [Bool.and_eq_true, List.any_eq_true, decide_eq_true_eq] at hq
  obtain ⟨⟨hterm, r, hmem, hthrown⟩, hmain⟩ := hq
  refine ⟨h, c, hr, over_of_terminated hterm, ⟨r, hmem, hthrown⟩, hterm, fun hcont => ?_,
    fun hre => ?_⟩
  · rw [hcont.1] at hterm
    cases hterm
  · obtain ⟨e, -, hl⟩ := hre () ⟨r, hmem, hthrown⟩
    rw [hmain] at hl
    cases hl

end Bonostl.ParallelPartialSum
