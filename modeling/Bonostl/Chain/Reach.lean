import Bonostl.Chain.Marked
import Mathlib.Logic.Relation

/-!
# What can be reached along a chain

`Reaches next a b`: following `next` from node `a` comes to `b`. A traversal may stand on a node
that is no longer on the chain; what can be reached from it does not get less when a node is linked
in (`Reaches.insert`) or another one is taken out (`Reaches.unlink`).
-/

namespace Chain

open Relation

variable {α ρ : Type} {next m : α → Option α} {a b c n p : α}

/-- Node `b` can be reached from node `a`. -/
def Reaches (next : α → Option α) (a b : α) : Prop := ReflTransGen (fun a b => next a = some b) a b

theorem Reaches.refl (a : α) : Reaches next a a := ReflTransGen.refl

theorem Reaches.head (hab : next a = some b) (h : Reaches next b c) : Reaches next a c :=
  ReflTransGen.head hab h

theorem Reaches.trans (h : Reaches next a b) (h' : Reaches next b c) : Reaches next a c :=
  ReflTransGen.trans h h'

/-- The first node behind `a` is on the way. -/
theorem Reaches.step (h : Reaches next a c) (hac : a ≠ c) (hab : next a = some b) :
    Reaches next b c := by
  rcases ReflTransGen.cases_head h with rfl | ⟨x, hx, hxc⟩
  · exact absurd rfl hac
  · obtain rfl : b = x := Option.some.inj (hab.symm.trans hx)
    exact hxc

theorem Reaches.exists_next (h : Reaches next a c) (hac : a ≠ c) : ∃ b, next a = some b := by
  rcases ReflTransGen.cases_head h with rfl | ⟨x, hx, -⟩
  · exact absurd rfl hac
  · exact ⟨x, hx⟩

/-- Where the links that are followed stay. -/
theorem Reaches.congr {P : α → Prop} (h : Reaches next a c) (ha : P a)
    (hclosed : ∀ x y, P x → next x = some y → P y) (he : ∀ x, P x → m x = next x) :
    Reaches m a c := by
  induction h using ReflTransGen.head_induction_on with
  | refl => exact .refl c
  | head hab _ ih => exact .head ((he _ ha).trans hab) (ih (hclosed _ _ ha hab))

/-- A chain leads from each of its nodes to all behind. -/
theorem Linked.reaches {q : Option α} {l₁ l₂ : List α} (h : Linked next q (l₁ ++ a :: l₂))
    (hb : b ∈ a :: l₂) : Reaches next a b := by
  have hrest := h.suffix
  clear h
  induction l₂ generalizing a with
  | nil =>
    obtain rfl := List.mem_singleton.mp hb
    exact .refl b
  | cons c l₂ ih =>
    rcases List.mem_cons.mp hb with rfl | hb
    · exact .refl b
    · exact .head hrest.1 (ih hb hrest.2)

section
variable [DecidableEq α]

/-- A node is linked in behind `p`. -/
theorem Reaches.insert (h : Reaches next a c) (hnp : n ≠ p) (hn : next n = next p) :
    Reaches (Function.update next p (some n)) a c := by
  induction h using ReflTransGen.head_induction_on with
  | refl => exact .refl c
  | @head x y hxy _ ih =>
    by_cases hx : x = p
    · subst hx
      refine .head (Function.update_self ..) (.head ?_ ih)
      rw [Function.update_of_ne hnp, hn]
      exact hxy
    · exact .head ((Function.update_of_ne hx _ _).trans hxy) ih

/-- The node behind `p` is taken out; the others can still be reached. -/
theorem Reaches.unlink (h : Reaches next a c) (hpb : next p = some b) (hbp : b ≠ p) (hcb : c ≠ b) :
    Reaches (Function.update next p (next b)) a c := by
  induction h using ReflTransGen.head_induction_on with
  | refl => exact .refl c
  | @head x y hxy _ ih =>
    by_cases hx : x = p
    · subst hx
      obtain rfl : b = y := Option.some.inj (hpb.symm.trans hxy)
      obtain ⟨z, hz⟩ := ih.exists_next hcb.symm
      have hz' := hz
      rw [Function.update_of_ne hbp] at hz
      exact .head ((Function.update_self ..).trans hz) (ih.step hcb.symm hz')
    · exact .head ((Function.update_of_ne hx _ _).trans hxy) ih
end

namespace MarkedChain

variable {lt : ρ → ρ → Prop} {head : α} {linked : α → Prop} {l : List α} {marked : α → Bool}
  {rank : α → ρ}

/-- All that can be reached from a node was linked in, and is behind it. -/
theorem reaches_above [IsTrans ρ lt] (h : MarkedChain lt head linked l next marked rank)
    (ha : linked a) (hr : Reaches next a b) : linked b ∧ (b = a ∨ lt (rank a) (rank b)) := by
  induction hr with
  | refl => exact ⟨ha, .inl rfl⟩
  | tail _ hxy ih =>
    obtain ⟨h1, h2⟩ := h.link _ _ ih.1 hxy
    refine ⟨h1, .inr ?_⟩
    rcases ih.2 with rfl | ih
    · exact h2
    · exact IsTrans.trans _ _ _ ih h2

theorem reaches_of_mem (h : MarkedChain lt head linked l next marked rank) (hb : b ∈ l) :
    Reaches next head b := by
  have hc := h.chain
  cases l with
  | nil => cases hb
  | cons a l =>
    obtain rfl : head = a := Option.some.inj hc.1
    exact Linked.reaches (show Linked next (some head) ([] ++ head :: l) from hc) hb

/-- Of two nodes on the chain, the higher one can be reached from the lower one. -/
theorem reaches_of_lt [IsTrans ρ lt] (h : MarkedChain lt head linked l next marked rank)
    (hirr : ∀ x, ¬ lt x x) (ha : a ∈ l) (hb : b ∈ l) (hab : lt (rank a) (rank b)) :
    Reaches next a b := by
  obtain ⟨l₁, l₂, rfl⟩ := List.append_of_mem ha
  have hs := h.sorted
  rw [List.pairwise_append] at hs
  refine h.chain.reaches ?_
  rcases List.mem_append.mp hb with hb | hb
  · exact absurd (IsTrans.trans _ _ _ hab (hs.2.2 b hb a (by simp))) (hirr _)
  · exact hb

end MarkedChain

end Chain
