import Mathlib.Data.List.Nodup
import Mathlib.Logic.Function.Basic

/-!
# Null-terminated chains

`Linked next p l`: following `next` from the pointer `p` visits the nodes of `l` in order and ends
at the null pointer. A pointer has at most one such list (`Linked.unique`), and the list repeats no
node (`Linked.nodup`). `Linked.insert` and `Linked.unlink` are the two writes of a linked list.
-/

namespace Chain

variable {α : Type} {next m : α → Option α}

/-- The nodes from `p` on. -/
def Linked (next : α → Option α) : Option α → List α → Prop
  | p, [] => p = none
  | p, a :: l => p = some a ∧ Linked next (next a) l

theorem Linked.unique {l l' : List α} : ∀ {p : Option α}, Linked next p l → Linked next p l' →
    l = l' := by
  induction l generalizing l' with
  | nil =>
    intro p h h'
    cases l' with
    | nil => rfl
    | cons b l' => exact absurd (h.symm.trans h'.1) (by simp)
  | cons a l ih =>
    intro p h h'
    cases l' with
    | nil => exact absurd (h'.symm.trans h.1) (by simp)
    | cons b l' =>
      obtain rfl : a = b := Option.some.inj (h.1.symm.trans h'.1)
      rw [ih h.2 h'.2]

open Classical in
/-- The nodes from `p` on, if the chain ends. -/
noncomputable def nodes (next : α → Option α) (p : Option α) : List α :=
  if h : ∃ l, Linked next p l then h.choose else []

theorem nodes_eq {p : Option α} {l : List α} (h : Linked next p l) : nodes next p = l := by
  have hex : ∃ l, Linked next p l := ⟨l, h⟩
  rw [nodes, dif_pos hex]
  exact hex.choose_spec.unique h

theorem Linked.head_eq {p : Option α} {l : List α} (h : Linked next p l) : p = l.head? := by
  cases l with
  | nil => exact h
  | cons a l => exact h.1

theorem Linked.congr {p : Option α} {l : List α} (h : Linked next p l)
    (he : ∀ a ∈ l, m a = next a) : Linked m p l := by
  induction l generalizing p with
  | nil => exact h
  | cons a l ih =>
    refine ⟨h.1, ?_⟩
    rw [he a (by simp)]
    exact ih h.2 fun b hb => he b (by simp [hb])

/-- The rest of the chain from one of its nodes. -/
theorem Linked.suffix {p : Option α} {l₁ l₂ : List α} {a : α}
    (h : Linked next p (l₁ ++ a :: l₂)) : Linked next (next a) l₂ := by
  induction l₁ generalizing p with
  | nil => exact h.2
  | cons b l₁ ih => exact ih h.2

theorem Linked.nodup {p : Option α} {l : List α} (h : Linked next p l) : l.Nodup := by
  induction l generalizing p with
  | nil => exact List.nodup_nil
  | cons a l ih =>
    refine List.nodup_cons.mpr ⟨fun hmem => ?_, ih h.2⟩
    -- were `a` met again, the two rests from it would be one list of two lengths
    obtain ⟨l₁, l₂, rfl⟩ := List.append_of_mem hmem
    have hlen := congrArg List.length ((Linked.suffix h.2).unique h.2)
    simp only [List.length_append, List.length_cons] at hlen
    omega

theorem Linked.split {p : Option α} {l : List α} {a : α} (h : Linked next p l) (ha : a ∈ l) :
    ∃ l₁ l₂, l = l₁ ++ a :: l₂ ∧ Linked next (next a) l₂ := by
  obtain ⟨l₁, l₂, rfl⟩ := List.append_of_mem ha
  exact ⟨l₁, l₂, rfl, h.suffix⟩

/-- What follows a node is on the chain. -/
theorem Linked.next_mem {p : Option α} {l : List α} {a b : α} (h : Linked next p l) (ha : a ∈ l)
    (hn : next a = some b) : b ∈ l := by
  obtain ⟨l₁, l₂, rfl, hrest⟩ := h.split ha
  rw [hn] at hrest
  cases l₂ with
  | nil => cases hrest
  | cons c l₂ =>
    obtain rfl := Option.some.inj hrest.1
    simp

/-- A node is not its own successor. -/
theorem Linked.no_loop {p : Option α} {l : List α} {a : α} (h : Linked next p l) (ha : a ∈ l) :
    next a ≠ some a := by
  obtain ⟨l₁, l₂, rfl, hsuf⟩ := h.split ha
  intro hn
  rw [hn] at hsuf
  have hmem : a ∈ l₂ := by
    cases l₂ with
    | nil => cases hsuf
    | cons b l₂ => simp [Option.some.inj hsuf.1]
  exact (List.nodup_cons.mp (List.nodup_append.mp h.nodup).2.1).1 hmem

/-- A chain may be cut at a node and continued in another way. -/
theorem Linked.splice {p : Option α} {l₁ l₂ l₃ : List α} {a : α}
    (h : Linked next p (l₁ ++ a :: l₂)) (h₁ : ∀ b ∈ l₁, m b = next b)
    (h₃ : Linked m (m a) l₃) : Linked m p (l₁ ++ a :: l₃) := by
  induction l₁ generalizing p with
  | nil => exact ⟨h.1, h₃⟩
  | cons b l₁ ih =>
    refine ⟨h.1, ?_⟩
    rw [h₁ b (by simp)]
    exact ih h.2 fun c hc => h₁ c (by simp [hc])

section
variable [DecidableEq α] {p : Option α} {l₁ l₂ : List α} {a b : α}

/-- A node is linked in behind `a`. -/
theorem Linked.insert (h : Linked next p (l₁ ++ a :: l₂)) (hb : b ∉ l₁ ++ a :: l₂)
    (hn : next b = next a) :
    Linked (Function.update next a (some b)) p (l₁ ++ a :: b :: l₂) := by
  have hnd := h.nodup
  have hrest : Linked (Function.update next a (some b)) (next a) l₂ :=
    h.suffix.congr fun x hx => Function.update_of_ne (by grind) _ _
  refine h.splice (fun x hx => Function.update_of_ne (by grind) _ _) ?_
  rw [Function.update_self]
  refine ⟨rfl, ?_⟩
  rw [Function.update_of_ne (by grind), hn]
  exact hrest

/-- The node behind `a` is taken out. -/
theorem Linked.unlink (h : Linked next p (l₁ ++ a :: b :: l₂)) :
    Linked (Function.update next a (next b)) p (l₁ ++ a :: l₂) := by
  have hnd := h.nodup
  refine h.splice (fun x hx => Function.update_of_ne (by grind) _ _) ?_
  rw [Function.update_self]
  exact (h.suffix).2.congr fun x hx => Function.update_of_ne (by grind) _ _
end

end Chain
