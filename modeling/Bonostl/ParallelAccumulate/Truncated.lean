import Bonostl.Blocks.Wrapped
import Bonostl.ParallelAccumulate.Correct

/-!
# `parallel_accumulate` with a length of `w` bits

The range is folded whole also where its length has been truncated: a short fold goes on to `last`,
and so does the last block. There are two exceptions. A length of zero returns `init`; and a length
so near to `2 ^ w` that `length + min_per_thread - 1` wraps asks for no thread, so that `block_size`
divides by zero.
-/

namespace Bonostl.ParallelAccumulate

open Interleaving Blocks

/-- The blocks of a range of `n` elements, from a length of `w` bits. -/
def truncatedLayout (w hardware n : ℕ) : Layout :=
  ⟨lengthOf w n, numThreadsOf w hardware (lengthOf w n), blockBegin w hardware n⟩

/-- A run with an `unsigned long` of `w` bits. -/
abbrev TruncatedRun {V T : Type} [Inhabited T] (o : Op V T) (w hardware n : ℕ) (x : ℕ → V)
    (init : T)
    (h : List (Rec Thread (Shared T) (Pc V T) Unit T)) (c : Config Thread (Shared T) (Pc V T)) :
    Prop := DividedRun o (truncatedLayout w hardware n) n x init h c

/-- Every run returns the fold of the range. -/
def Accumulates (w n : ℕ) : Prop :=
  ∀ (α : Type) [Inhabited α] (op : α → α → α) (init : α) (hardware : ℕ) (x : ℕ → α),
    (∀ a b c, op (op a b) c = op a (op b c)) →
    (∀ h c r, TruncatedRun (.plain op) w hardware n x init h c → c.loc .main = .ret r →
      r = fold op x init 0 n) ∧
    ∀ h c, TruncatedRun (.plain op) w hardware n x init h c →
      ∃ h' c', TruncatedRun (.plain op) w hardware n x init (h' ++ h) c' ∧ Returned c'

section
variable {w hardware n : ℕ}

theorem truncated_division (hn : (truncatedLayout w hardware n).Long) :
    Division n (truncatedLayout w hardware n).numThreads (truncatedLayout w hardware n).first := by
  refine wrapped_division (of_not_not fun hd => ?_)
  exact hn.2 (numThreadsOf_wraps hd)

/-- A length that is neither zero nor too near to `2 ^ w`. -/
theorem has_thread (h : lengthOf w n < 2 * minPerThread ∨ lengthOf w n + minPerThread - 1 < 2 ^ w) :
    ¬ (truncatedLayout w hardware n).NoThread := by
  rintro ⟨hlong, hz⟩
  have hd : Divides w n := ⟨pos_of_long hlong, h.resolve_left hlong⟩
  have hdiv : Division n (numThreadsOf w hardware (lengthOf w n)) _ := wrapped_division hd
  exact hdiv.pos.ne' hz

theorem truncated_value {α : Type} {op : α → α → α} (hop : ∀ a b c, op (op a b) c = op a (op b c))
    {x : ℕ → α} {init : α} (hz : ¬ (truncatedLayout w hardware n).NoThread)
    (h0 : lengthOf w n = 0 → n = 0) :
    value (.plain op) (truncatedLayout w hardware n) n x init = fold op x init 0 n := by
  by_cases hshort : lengthOf w n < 2 * minPerThread
  · unfold value
    by_cases hzero : lengthOf w n = 0
    · rw [h0 hzero]
      exact (if_pos (Nat.zero_mod _)).trans fold_self.symm
    · exact (if_neg hzero).trans (if_pos hshort)
  · have hn : (truncatedLayout w hardware n).Long := ⟨hshort, fun hno => hz ⟨hshort, hno⟩⟩
    exact value_long hop (truncated_division hn) hn

/-- The last of the elements. -/
theorem fold_right {init : ℕ} (h : n ≠ 0) : fold (fun _ b => b) (fun _ : ℕ => 0) init 0 n = 0 := by
  obtain ⟨k, rfl⟩ := Nat.exists_eq_succ_of_ne_zero h
  exact fold_succ (Nat.zero_le k)

/-- **When the whole range is folded.** -/
theorem accumulates_iff : Accumulates w n ↔ n = 0 ∨
    lengthOf w n ≠ 0 ∧
      (lengthOf w n < 2 * minPerThread ∨ lengthOf w n + minPerThread - 1 < 2 ^ w) := by
  constructor
  · intro hall
    by_contra hcon
    simp only [not_or, not_and, ne_eq] at hcon
    obtain ⟨hn, hcon⟩ := hcon
    obtain ⟨hval, hret⟩ := hall ℕ (fun _ b => b) 1 2 (fun _ => 0) fun _ _ _ => rfl
    obtain ⟨h, c, hr, r, hl⟩ := hret [] initial .nil
    obtain ⟨hz, heq⟩ := returns_value truncated_division hr hl
    have hzero : lengthOf w n = 0 := by
      by_contra h0
      obtain ⟨hlong, hwraps⟩ := hcon h0
      exact hz ⟨hlong, numThreadsOf_wraps fun hd => hwraps hd.2⟩
    -- `init` is returned, and the last element is another
    have h1 : r = 1 := heq.trans (if_pos hzero)
    have h2 : r = 0 := (hval _ c r hr hl).trans (fold_right hn)
    omega
  · intro hn α _ op init hardware x hop
    have h0 : lengthOf w n = 0 → n = 0 := fun hzero => hn.resolve_right fun h => h.1 hzero
    have hz : ¬ (truncatedLayout w hardware n).NoThread := by
      refine has_thread (hn.elim (fun hzero => .inl ?_) And.right)
      rw [hzero]
      exact (Nat.zero_mod _).trans_lt (by decide)
    refine ⟨fun h c r hr hl => ?_, fun h c hr => returns truncated_division hz hr⟩
    exact (returns_value truncated_division hr hl).2.trans (truncated_value hop hz h0)
end

end Bonostl.ParallelAccumulate
