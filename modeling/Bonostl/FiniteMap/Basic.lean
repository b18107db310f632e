import Mathlib.Data.List.Pairwise
import Mathlib.Data.List.Perm.Basic
import Mathlib.Order.Defs.Unbundled

/-!
# Finite maps

A finite map is a list of entries of which no two have the same key. What counts as the same key is
an equivalence `same`. `lookup` does not see the order of the entries (`lookup_perm`); `assign` and
`remove` change the entries of one key.
-/

namespace FiniteMap

variable {K V : Type} (same : K → K → Prop)

/-- No two entries have the same key. -/
def Distinct (m : List (K × V)) : Prop := m.Pairwise fun e e' => ¬ same e.1 e'.1

variable [DecidableRel same]

/-- The value of a key. -/
def lookup (k : K) (m : List (K × V)) : Option V :=
  (m.find? fun e => decide (same e.1 k)).map Prod.snd

/-- Another value for a key that has one. -/
def assign (k : K) (v : V) (m : List (K × V)) : List (K × V) :=
  m.map fun e => if same e.1 k then (e.1, v) else e

/-- The map without a key. -/
def remove (k : K) (m : List (K × V)) : List (K × V) := m.filter fun e => decide (¬ same e.1 k)

variable {same} {k : K} {v : V} {m m' : List (K × V)}

theorem lookup_eq_none : lookup same k m = none ↔ ∀ e ∈ m, ¬ same e.1 k := by
  simp [lookup, List.find?_eq_none]

theorem exists_of_lookup (h : lookup same k m = some v) : ∃ e ∈ m, same e.1 k ∧ e.2 = v := by
  obtain ⟨e, he, rfl⟩ := Option.map_eq_some_iff.mp h
  exact ⟨e, List.mem_of_find?_eq_some he, by simpa using List.find?_some he, rfl⟩

section
variable [IsEquiv K same]

omit [DecidableRel same] in
/-- Two entries for one key are one entry. -/
theorem Distinct.unique (hd : Distinct same m) {e e' : K × V} (he : e ∈ m) (he' : e' ∈ m)
    (hk : same e.1 k) (hk' : same e'.1 k) : e = e' := by
  by_contra hne
  have hsymm : Std.Symm fun e e' : K × V => ¬ same e.1 e'.1 :=
    ⟨fun a b hab hba => hab (symm_of same hba)⟩
  exact hd.forall he he' hne (trans_of same hk (symm_of same hk'))

theorem lookup_of_mem (hd : Distinct same m) {e : K × V} (he : e ∈ m) (hk : same e.1 k) :
    lookup same k m = some e.2 := by
  cases hl : lookup same k m with
  | none => exact absurd hk (lookup_eq_none.mp hl e he)
  | some v =>
    obtain ⟨e', he', hk', rfl⟩ := exists_of_lookup hl
    rw [hd.unique he he' hk hk']

theorem lookup_congr {k' : K} (hk : same k k') : lookup same k m = lookup same k' m := by
  have hiff : ∀ e : K × V, same e.1 k ↔ same e.1 k' := fun e =>
    ⟨fun he => trans_of same he hk, fun he => trans_of same he (symm_of same hk)⟩
  simp only [lookup, hiff]

/-- The order of the entries does not matter. -/
theorem lookup_perm (hd : Distinct same m) (hp : m.Perm m') :
    lookup same k m = lookup same k m' := by
  cases hl : lookup same k m' with
  | none =>
    rw [lookup_eq_none] at hl ⊢
    exact fun e he => hl e (hp.subset he)
  | some v =>
    obtain ⟨e, he, hk, rfl⟩ := exists_of_lookup hl
    exact lookup_of_mem hd (hp.symm.subset he) hk
end

omit [DecidableRel same] in
theorem Distinct.cons (hd : Distinct same m) (hk : ∀ e ∈ m, ¬ same k e.1) :
    Distinct same ((k, v) :: m) :=
  List.pairwise_cons.mpr ⟨hk, hd⟩

theorem Distinct.assign (hd : Distinct same m) : Distinct same (assign same k v m) := by
  refine List.pairwise_map.mpr (hd.imp fun {e e'} h => ?_)
  split_ifs <;> exact h

theorem Distinct.remove (hd : Distinct same m) : Distinct same (remove same k m) :=
  List.Pairwise.filter _ hd

theorem assign_perm (hp : m.Perm m') : (assign same k v m).Perm (assign same k v m') := hp.map _

theorem remove_perm (hp : m.Perm m') : (remove same k m).Perm (remove same k m') := hp.filter _

/-- The removal of a key that has no entry. -/
theorem remove_eq_self (hm : ∀ e ∈ m, ¬ same e.1 k) : remove same k m = m :=
  List.filter_eq_self.mpr fun e he => by simpa using hm e he

theorem lookup_cons (e : K × V) :
    lookup same k (e :: m) = if same e.1 k then some e.2 else lookup same k m := by
  unfold lookup
  split_ifs with he
  · rw [List.find?_cons_of_pos (by simpa using he)]
    rfl
  · rw [List.find?_cons_of_neg (by simpa using he)]

theorem lookup_append : lookup same k (m ++ m') = (lookup same k m).or (lookup same k m') := by
  rw [lookup, List.find?_append, Option.map_or]
  rfl

theorem lookup_assign [IsEquiv K same] (k' : K) : lookup same k' (assign same k v m) =
    if same k k' then (lookup same k m).map fun _ => v else lookup same k' m := by
  induction m with
  | nil => simp [assign, lookup]
  | cons e m ih =>
    rw [assign, List.map_cons, lookup_cons, ← assign, ih, lookup_cons, lookup_cons]
    by_cases he : same e.1 k
    · have hiff : same e.1 k' ↔ same k k' :=
        ⟨trans_of same (symm_of same he), trans_of same he⟩
      simp only [he, if_true, hiff]
      split_ifs <;> rfl
    · by_cases hk : same k k'
      · have hne : ¬ same e.1 k' := fun h => he (trans_of same h (symm_of same hk))
        simp only [he, hk, hne, if_true, if_false]
      · simp only [he, hk, if_false]

theorem lookup_remove [IsEquiv K same] (k' : K) : lookup same k' (remove same k m) =
    if same k k' then none else lookup same k' m := by
  split_ifs with hk
  · refine lookup_eq_none.mpr fun e he hek => ?_
    have hne : ¬ same e.1 k := by simpa using List.of_mem_filter he
    exact hne (trans_of same hek (symm_of same hk))
  · induction m with
    | nil => rfl
    | cons e m ih =>
      by_cases he : same e.1 k
      · have hne : ¬ same e.1 k' := fun h => hk (trans_of same (symm_of same he) h)
        rw [remove, List.filter_cons_of_neg (by simpa using he), ← remove, ih, lookup_cons,
          if_neg hne]
      · rw [remove, List.filter_cons_of_pos (by simpa using he), ← remove, lookup_cons, ih,
          lookup_cons]

/-- A search for the first entry to erase finds the only one. -/
theorem eraseP_eq_remove [IsEquiv K same] (hd : Distinct same m) :
    (m.eraseP fun e => decide (same e.1 k)) = remove same k m := by
  induction m with
  | nil => rfl
  | cons e m ih =>
    obtain ⟨hne, hd⟩ := List.pairwise_cons.mp hd
    by_cases he : same e.1 k
    · rw [List.eraseP_cons_of_pos (by simpa using he), remove,
        List.filter_cons_of_neg (by simpa using he), ← remove, remove_eq_self]
      exact fun e' he' hk => hne e' he' (trans_of same he (symm_of same hk))
    · rw [List.eraseP_cons_of_neg (by simpa using he), ih hd, remove, remove,
        List.filter_cons_of_pos (by simpa using he)]

omit [DecidableRel same] in
/-- A new entry at the end. -/
theorem Distinct.append [IsEquiv K same] (hd : Distinct same m) (hk : ∀ e ∈ m, ¬ same e.1 k) :
    Distinct same (m ++ [(k, v)]) := by
  refine List.pairwise_append.mpr ⟨hd, List.pairwise_singleton _ _, fun e he e' he' => ?_⟩
  obtain rfl := List.mem_singleton.mp he'
  exact hk e he

/-- The removal of the only entry for a key. -/
theorem remove_cons {e : K × V} (he : same e.1 k) (hm : ∀ e' ∈ m, ¬ same e'.1 k) :
    remove same k (e :: m) = m := by
  rw [remove, List.filter_cons_of_neg (by simpa using he)]
  exact remove_eq_self hm

end FiniteMap
