import Mathlib.Data.List.Perm.Basic
import Mathlib.Order.Lattice
import Mathlib.Order.RelClasses

/-!
# Stable sorting

`Sorted` and `StableSort` are what a sort and a stable sort do, for a strict weak order `lt`: two
elements of which neither is less than the other are equivalent (`Equiv`) and stay in the order in
which they were. There is only one stable sort of a list (`StableSort.unique`); `mergeSort_stable`
says that there is one. A list may be sorted in parts (`StableSort.append`), or divided at an
element (`sorted_divide`).
-/

namespace Sorting

variable {α : Type} (lt : α → α → Prop)

/-- No element comes after one that it is less than. -/
def Sorted (xs : List α) : Prop := xs.Pairwise fun a b => ¬ lt b a

/-- Neither is less than the other. -/
def Equiv (a b : α) : Prop := ¬ lt a b ∧ ¬ lt b a

/-- `ys` is a sort of `xs`. -/
structure Sorts (xs ys : List α) : Prop where
  perm : ys.Perm xs
  sorted : Sorted lt ys

variable [DecidableRel lt]

instance : DecidableRel (Equiv lt) := fun _ _ => inferInstanceAs (Decidable (_ ∧ _))

/-- `ys` is the stable sort of `xs`. -/
structure StableSort (xs ys : List α) : Prop extends Sorts lt xs ys where
  stable (a : α) : ys.filter (fun b => Equiv lt a b) = xs.filter fun b => Equiv lt a b

section
variable {lt} {xs ys zs xs₁ xs₂ ys₁ ys₂ : List α} {a b c : α} [IsStrictWeakOrder α lt]

omit [DecidableRel lt] in
theorem not_lt_trans (hab : ¬ lt b a) (hbc : ¬ lt c b) : ¬ lt c a := by
  intro hca
  by_cases hab' : lt a b
  · exact hbc (trans_of lt hca hab')
  by_cases hbc' : lt b c
  · exact hab (trans_of lt hbc' hca)
  · exact (IsStrictWeakOrder.incomp_trans a b c ⟨hab', hab⟩ ⟨hbc', hbc⟩).2 hca

omit [DecidableRel lt] in
theorem Equiv.refl (a : α) : Equiv lt a a := ⟨irrefl_of lt a, irrefl_of lt a⟩

/-- The smallest element comes first. -/
theorem head_eq (hy : StableSort lt xs (a :: ys)) (hz : StableSort lt xs (b :: zs)) : a = b := by
  have hab : Equiv lt a b := by
    have hb : b ∈ a :: ys := hy.perm.mem_iff.mpr (hz.perm.mem_iff.mp List.mem_cons_self)
    have ha : a ∈ b :: zs := hz.perm.mem_iff.mpr (hy.perm.mem_iff.mp List.mem_cons_self)
    constructor
    · rcases List.mem_cons.mp ha with rfl | ha
      · exact irrefl_of lt a
      · exact (List.pairwise_cons.mp hz.sorted).1 a ha
    · rcases List.mem_cons.mp hb with rfl | hb
      · exact irrefl_of lt b
      · exact (List.pairwise_cons.mp hy.sorted).1 b hb
  have heq := (hy.stable a).trans (hz.stable a).symm
  rw [List.filter_cons_of_pos (by simpa using Equiv.refl a),
    List.filter_cons_of_pos (by simpa using hab)] at heq
  exact (List.cons.inj heq).1

/-- **There is only one stable sort.** -/
theorem StableSort.unique (hy : StableSort lt xs ys) (hz : StableSort lt xs zs) : ys = zs := by
  induction ys generalizing xs zs with
  | nil =>
    have hnil := hz.perm.trans hy.perm.symm
    exact (List.perm_nil.mp hnil).symm
  | cons a ys ih =>
    cases zs with
    | nil => exact (List.not_perm_cons_nil (hy.perm.trans hz.perm.symm)).elim
    | cons b zs =>
      obtain rfl := head_eq hy hz
      congr 1
      have hself : StableSort lt zs zs := ⟨⟨.rfl, (List.pairwise_cons.mp hz.sorted).2⟩,
        fun _ => rfl⟩
      refine ih ⟨⟨?_, (List.pairwise_cons.mp hy.sorted).2⟩, fun c => ?_⟩ hself
      · exact (hy.perm.trans hz.perm.symm).cons_inv
      · have heq := (hy.stable c).trans (hz.stable c).symm
        by_cases hc : Equiv lt c a
        · rw [List.filter_cons_of_pos (by simpa using hc), List.filter_cons_of_pos
            (by simpa using hc)]
            at heq
          exact (List.cons.inj heq).2
        · rwa [List.filter_cons_of_neg (by simpa using hc), List.filter_cons_of_neg
            (by simpa using hc)]
            at heq

omit [IsStrictWeakOrder α lt] in
/-- A list may be sorted in parts. -/
theorem StableSort.append (h₁ : StableSort lt xs₁ ys₁) (h₂ : StableSort lt xs₂ ys₂)
    (h : StableSort lt (ys₁ ++ ys₂) zs) : StableSort lt (xs₁ ++ xs₂) zs := by
  refine ⟨⟨h.perm.trans (h₁.perm.append h₂.perm), h.sorted⟩, fun a => ?_⟩
  rw [h.stable, List.filter_append, List.filter_append, h₁.stable, h₂.stable]

omit [DecidableRel lt] in
/-- A list may be divided at an element. -/
theorem sorted_divide (h₁ : Sorted lt xs) (h₂ : Sorted lt ys) (hx : ∀ b ∈ xs, lt b a)
    (hy : ∀ b ∈ ys, ¬ lt b a) : Sorted lt (xs ++ a :: ys) := by
  refine List.pairwise_append.mpr ⟨h₁, List.pairwise_cons.mpr ⟨hy, h₂⟩, fun b hb c hc => ?_⟩
  have hba : ¬ lt a b := fun hab => irrefl_of lt a (trans_of lt hab (hx b hb))
  rcases List.mem_cons.mp hc with rfl | hc
  · exact hba
  · exact not_lt_trans hba (hy c hc)

/-- **There is a stable sort.** -/
theorem mergeSort_stable (xs : List α) :
    StableSort lt xs (xs.mergeSort fun a b => !decide (lt b a)) := by
  have htrans : ∀ a b c : α, (!decide (lt b a)) = true → (!decide (lt c b)) = true →
      (!decide (lt c a)) = true := by
    intro a b c hab hbc
    simp only [Bool.not_eq_true', decide_eq_false_iff_not] at *
    exact not_lt_trans hab hbc
  have htotal : ∀ a b : α, ((!decide (lt b a)) || !decide (lt a b)) = true := by
    intro a b
    by_cases hab : lt a b
    · have hba : ¬ lt b a := fun hba => irrefl_of lt a (trans_of lt hab hba)
      simp [hba]
    · simp [hab]
  have hperm := List.mergeSort_perm xs fun a b => !decide (lt b a)
  refine ⟨⟨hperm, (List.pairwise_mergeSort htrans htotal xs).imp fun h => by simpa using h⟩,
    fun a => ?_⟩
  -- the elements equivalent to `a` are a sorted part of the list, and such a part stays as it is
  have hsorted :
      (xs.filter fun b => Equiv lt a b).Pairwise fun b c => (!decide (lt c b)) = true := by
    refine List.pairwise_iff_forall_sublist.mpr fun {b c} hbc => ?_
    have hb := List.of_mem_filter (hbc.subset List.mem_cons_self)
    have hc := List.of_mem_filter (hbc.subset (List.mem_cons_of_mem _ List.mem_cons_self))
    simp only [decide_eq_true_eq] at hb hc
    simpa using not_lt_trans (a := b) hb.1 hc.2
  have hsub := List.sublist_mergeSort htrans htotal hsorted List.filter_sublist
  have hsub' := hsub.filter fun b => Equiv lt a b
  rw [List.filter_filter] at hsub'
  simp only [Bool.and_self] at hsub'
  refine (hsub'.eq_of_length ?_).symm
  exact ((hperm.filter _).length_eq).symm
end

instance strictWeakOrderLt [LinearOrder α] : IsStrictWeakOrder α fun a b => a < b :=
  isStrictWeakOrder_of_isOrderConnected

end Sorting
