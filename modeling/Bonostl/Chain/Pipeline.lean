import Mathlib.Data.List.Basic

/-!
# Traversals in line

Several traversals go through one list, none overtaking another. From the front of the list to its
back they divide it into segments: each `Stage` has the items between its traversal and the one
ahead, and the first stage, whose owner is nobody, the items that all have passed. A traversal may
drop items it meets.

`view` is the list that is left when all have come to the end, `future` what a traversal is still
going to meet. Both stay what they are while other traversals pass an item (`view_pass`,
`future_pass`) or drop one (`view_drop`, `future_drop`), and when a traversal leaves that would drop
nothing any more (`view_leave`, `future_leave`).
-/

namespace Pipeline

/-- A traversal, what it drops, and the items up to the next one. -/
structure Stage (κ α : Type) where
  owner : κ
  drops : α → Bool
  segment : List α

variable {κ α : Type}

/-- The items of all stages. -/
def items (G : List (Stage κ α)) : List α := G.flatMap Stage.segment

/-- What is left of the items when all traversals are at the end. -/
def view : List (Stage κ α) → List α
  | [] => []
  | k :: G => (k.segment ++ view G).filter fun a => !k.drops a

variable [DecidableEq κ]

/-- The items behind the traversal `t`. -/
def behind (t : κ) : List (Stage κ α) → List α
  | [] => []
  | k :: G => if k.owner = t then [] else k.segment ++ behind t G

/-- The items between the traversal `t` and the next one. -/
def segment (t : κ) : List (Stage κ α) → List α
  | [] => []
  | k :: G => if k.owner = t then k.segment else segment t G

/-- The items that traversal `t` is going to meet. -/
def future (t : κ) : List (Stage κ α) → List α
  | [] => []
  | k :: G => if k.owner = t then k.segment ++ view G else future t G

variable {k w : Stage κ α} {G pre post X Y : List (Stage κ α)} {a : α} {l : List α} {t u : κ}

omit [DecidableEq κ] in
theorem view_append (h : view X = view Y) (pre : List (Stage κ α)) :
    view (pre ++ X) = view (pre ++ Y) := by
  induction pre with
  | nil => exact h
  | cons k pre ih =>
    show (k.segment ++ view (pre ++ X)).filter _ = (k.segment ++ view (pre ++ Y)).filter _
    rw [ih]

theorem future_append (hv : view X = view Y) (hf : future u X = future u Y)
    (pre : List (Stage κ α)) : future u (pre ++ X) = future u (pre ++ Y) := by
  induction pre with
  | nil => exact hf
  | cons k pre ih =>
    show (if k.owner = u then k.segment ++ view (pre ++ X) else future u (pre ++ X)) =
      if k.owner = u then k.segment ++ view (pre ++ Y) else future u (pre ++ Y)
    rw [ih, view_append hv]

/-- The owners of the stages. -/
def owners (G : List (Stage κ α)) : List κ := G.map Stage.owner

/-- The owners and what they drop. -/
def keys (G : List (Stage κ α)) : List (κ × (α → Bool)) := G.map fun k => (k.owner, k.drops)

/-! Where a traversal is among the stages. -/

theorem behind_of_mem (hu : u ∈ owners pre) : behind u (pre ++ X) = behind u pre := by
  induction pre with
  | nil => cases hu
  | cons k pre ih =>
    rw [List.cons_append, behind, behind]
    split
    · rfl
    · rename_i hk
      rw [ih ((List.mem_cons.mp hu).resolve_left fun e => hk e.symm)]

theorem behind_of_not_mem (hu : u ∉ owners pre) :
    behind u (pre ++ X) = items pre ++ behind u X := by
  induction pre with
  | nil => rfl
  | cons k pre ih =>
    obtain ⟨h1, h2⟩ := List.ne_and_not_mem_of_not_mem_cons hu
    rw [List.cons_append, behind, if_neg (Ne.symm h1), ih h2]
    simp [items]

theorem segment_of_mem (hu : u ∈ owners pre) : segment u (pre ++ X) = segment u pre := by
  induction pre with
  | nil => cases hu
  | cons k pre ih =>
    rw [List.cons_append, segment, segment]
    split
    · rfl
    · rename_i hk
      rw [ih ((List.mem_cons.mp hu).resolve_left fun e => hk e.symm)]

theorem segment_of_not_mem (hu : u ∉ owners pre) : segment u (pre ++ X) = segment u X := by
  induction pre with
  | nil => rfl
  | cons k pre ih =>
    obtain ⟨h1, h2⟩ := List.ne_and_not_mem_of_not_mem_cons hu
    rw [List.cons_append, segment, if_neg (Ne.symm h1), ih h2]

theorem future_of_not_mem (hu : u ∉ owners pre) : future u (pre ++ X) = future u X := by
  induction pre with
  | nil => rfl
  | cons k pre ih =>
    obtain ⟨h1, h2⟩ := List.ne_and_not_mem_of_not_mem_cons hu
    rw [List.cons_append, future, if_neg (Ne.symm h1), ih h2]

theorem behind_sublist : ∀ G : List (Stage κ α), (behind u G).Sublist (items G)
  | [] => .slnil
  | k :: G => by
    rw [behind]
    split
    · exact List.nil_sublist _
    · exact (List.Sublist.refl k.segment).append (behind_sublist G)

theorem segment_sublist : ∀ G : List (Stage κ α), (segment u G).Sublist (items G)
  | [] => .slnil
  | k :: G => by
    rw [segment]
    split
    · exact List.sublist_append_left _ _
    · exact (segment_sublist G).trans (List.sublist_append_right _ _)

/-- A traversal and the stage behind it, which there is unless it is the first. -/
theorem exists_stage (hn : (owners (w :: G)).Nodup) (ht : t ∈ owners G) :
    ∃ pre w' k post, w :: G = pre ++ w' :: k :: post ∧ k.owner = t ∧
      t ∉ owners pre ∧ w'.owner ≠ t ∧ t ∉ owners post := by
  induction G generalizing w with
  | nil => cases ht
  | cons k G ih =>
    obtain ⟨h1, h2⟩ := List.nodup_cons.mp hn
    by_cases hk : k.owner = t
    · refine ⟨[], w, k, G, rfl, hk, List.not_mem_nil, ?_, ?_⟩
      · rintro rfl
        exact h1 ht
      · rw [← hk]
        exact (List.nodup_cons.mp h2).1
    · obtain ⟨pre, w', k', post, he, h3, h4, h5, h6⟩ :=
        ih h2 ((List.mem_cons.mp ht).resolve_left fun e => hk e.symm)
      refine ⟨w :: pre, w', k', post, by rw [he]; rfl, h3, ?_, h5, h6⟩
      refine List.not_mem_cons_of_ne_of_not_mem ?_ h4
      rintro rfl
      exact h1 ht

section
variable (ht : t ∉ owners pre) (hw : w.owner ≠ t) (hk : k.owner = t)
include ht hw hk

theorem behind_self : behind t (pre ++ w :: k :: post) = items pre ++ w.segment := by
  simp [behind_of_not_mem ht, behind, hw, hk]

theorem segment_self : segment t (pre ++ w :: k :: post) = k.segment := by
  simp [segment_of_not_mem ht, segment, hw, hk]

theorem future_self : future t (pre ++ w :: k :: post) = k.segment ++ view post := by
  simp [future_of_not_mem ht, future, hw, hk]
end

/-! ## A traversal passes an item -/

section
variable (hk : k.drops a = false)
include hk

omit [DecidableEq κ] in
theorem view_pass : view (pre ++ w :: { k with segment := a :: l } :: post) =
    view (pre ++ { w with segment := w.segment ++ [a] } :: { k with segment := l } :: post) :=
  view_append (by simp [view, hk]) pre

theorem future_pass (hu : k.owner ≠ u) :
    future u (pre ++ w :: { k with segment := a :: l } :: post) =
      future u (pre ++ { w with segment := w.segment ++ [a] } :: { k with segment := l } :: post) :=
  future_append (by simp [view, hk]) (by simp [future, view, hk, hu]) pre
end

theorem behind_pass (hu : k.owner ≠ u) :
    behind u (pre ++ { w with segment := w.segment ++ [a] } :: { k with segment := l } :: post) =
      behind u (pre ++ w :: { k with segment := a :: l } :: post) := by
  by_cases hp : u ∈ owners pre
  · rw [behind_of_mem hp, behind_of_mem hp]
  · rw [behind_of_not_mem hp, behind_of_not_mem hp]
    simp [behind, hu]

theorem segment_pass (hu : k.owner ≠ u) :
    ∃ m, segment u
        (pre ++ { w with segment := w.segment ++ [a] } :: { k with segment := l } :: post) =
      segment u (pre ++ w :: { k with segment := a :: l } :: post) ++ m := by
  by_cases hp : u ∈ owners pre
  · exact ⟨[], by rw [segment_of_mem hp, segment_of_mem hp, List.append_nil]⟩
  · rw [segment_of_not_mem hp, segment_of_not_mem hp]
    by_cases hw : w.owner = u
    · exact ⟨[a], by simp [segment, hw]⟩
    · exact ⟨[], by simp [segment, hw, hu]⟩

omit [DecidableEq κ] in
theorem items_pass :
    items (pre ++ { w with segment := w.segment ++ [a] } :: { k with segment := l } ::
    post) = items (pre ++ w :: { k with segment := a :: l } :: post) := by
  simp [items]

/-! ## A traversal drops an item -/

omit [DecidableEq κ] in
theorem view_drop (hk : k.drops a = true) :
    view (pre ++ { k with segment := a :: l } :: post) =
      view (pre ++ { k with segment := l } :: post) :=
  view_append (by simp [view, hk]) pre

theorem future_drop (hk : k.drops a = true) (hu : k.owner ≠ u) :
    future u (pre ++ { k with segment := a :: l } :: post) =
      future u (pre ++ { k with segment := l } :: post) :=
  future_append (by simp [view, hk]) (by simp [future, hu]) pre

theorem segment_drop (hu : k.owner ≠ u) :
    segment u (pre ++ { k with segment := l } :: post) =
      segment u (pre ++ { k with segment := a :: l } :: post) := by
  by_cases hp : u ∈ owners pre
  · rw [segment_of_mem hp, segment_of_mem hp]
  · rw [segment_of_not_mem hp, segment_of_not_mem hp]
    simp [segment, hu]

/-- Only a traversal ahead had the item behind it. -/
theorem behind_drop (hu : k.owner ≠ u) :
    behind u (pre ++ { k with segment := l } :: post) =
        behind u (pre ++ { k with segment := a :: l } :: post) ∨
      ∃ m, behind u (pre ++ { k with segment := a :: l } :: post) = items pre ++ a :: m ∧
        behind u (pre ++ { k with segment := l } :: post) = items pre ++ m := by
  by_cases hp : u ∈ owners pre
  · exact .inl (by rw [behind_of_mem hp, behind_of_mem hp])
  · refine .inr ⟨l ++ behind u post, ?_, ?_⟩
    · rw [behind_of_not_mem hp]
      simp [behind, hu]
    · rw [behind_of_not_mem hp]
      simp [behind, hu]

/-! ## A traversal leaves -/

section
variable (hk : ∀ a ∈ k.segment ++ view post, k.drops a = false)
include hk

omit [DecidableEq κ] in
theorem view_last : view (k :: post) = k.segment ++ view post := by
  refine List.filter_eq_self.mpr fun a ha => ?_
  simp [hk a ha]

omit [DecidableEq κ] in
theorem view_leave : view (pre ++ w :: k :: post) =
    view (pre ++ { w with segment := w.segment ++ k.segment } :: post) := by
  refine view_append ?_ pre
  rw [view, view_last hk, view, List.append_assoc]

theorem future_leave (hu : k.owner ≠ u) : future u (pre ++ w :: k :: post) =
    future u (pre ++ { w with segment := w.segment ++ k.segment } :: post) := by
  refine future_append ?_ ?_ pre
  · rw [view, view_last hk, view, List.append_assoc]
  · simp [future, view_last hk, hu]
end

theorem behind_leave (hu : k.owner ≠ u) :
    behind u (pre ++ { w with segment := w.segment ++ k.segment } :: post) =
      behind u (pre ++ w :: k :: post) := by
  by_cases hp : u ∈ owners pre
  · rw [behind_of_mem hp, behind_of_mem hp]
  · rw [behind_of_not_mem hp, behind_of_not_mem hp]
    simp [behind, hu]

theorem segment_leave (hu : k.owner ≠ u) :
    ∃ m, segment u (pre ++ { w with segment := w.segment ++ k.segment } :: post) =
      segment u (pre ++ w :: k :: post) ++ m := by
  by_cases hp : u ∈ owners pre
  · exact ⟨[], by rw [segment_of_mem hp, segment_of_mem hp, List.append_nil]⟩
  · rw [segment_of_not_mem hp, segment_of_not_mem hp]
    by_cases hw : w.owner = u
    · exact ⟨k.segment, by simp [segment, hw]⟩
    · exact ⟨[], by simp [segment, hw, hu]⟩

omit [DecidableEq κ] in
theorem items_leave : items (pre ++ { w with segment := w.segment ++ k.segment } :: post) =
    items (pre ++ w :: k :: post) := by
  simp [items]

/-! ## At the front -/

section
variable (hw : ∀ a, w.drops a = false)
include hw

omit [DecidableEq κ] in
theorem view_front : view (w :: G) = w.segment ++ view G := by
  refine List.filter_eq_self.mpr fun a _ => ?_
  simp [hw a]

omit [DecidableEq κ] in
/-- A traversal enters: it is going to meet all that is left. -/
theorem view_enter (o : κ) (d : α → Bool) :
    view ({ w with segment := [] } :: ⟨o, d, w.segment⟩ :: G) =
      (view (w :: G)).filter fun a => !d a := by
  have h : view (w :: G) = w.segment ++ view G := view_front hw
  rw [h]
  exact view_front hw

omit [DecidableEq κ] in
theorem view_push (a : α) : view ({ w with segment := a :: w.segment } :: G) =
    a :: view (w :: G) := by
  have h : view (w :: G) = w.segment ++ view G := view_front hw
  rw [h]
  exact view_front hw
end

omit [DecidableEq κ] in
/-- Nothing is left that is not there. -/
theorem view_sublist : ∀ G : List (Stage κ α), (view G).Sublist (items G)
  | [] => .slnil
  | k :: G => List.filter_sublist.trans (List.Sublist.append_left (view_sublist G) k.segment)

end Pipeline
