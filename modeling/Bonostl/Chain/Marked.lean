import Bonostl.Chain.Linked
import Mathlib.Order.Defs.Unbundled

/-!
# Ordered chains with marked nodes

The shared part of a Harris-Michael list. `linked` are the nodes that were ever linked in, `l` the
chain from `head`. A node is taken out of the list by marking it first, which freezes its `next`,
and unlinking it later, so a node that is not marked is on the chain (`MarkedChain.unmarked`), and
even the frozen links lead upwards (`MarkedChain.link`).

`insert`, `mark`, `unlink` are the three compare-exchanges that keep this, and `gap` is what a
traversal learns from one link of an unmarked node: the chain has nothing between its two ends.
-/

namespace Chain

variable {α ρ : Type} {lt : ρ → ρ → Prop} {head : α} {linked : α → Prop} {l : List α}
  {next : α → Option α} {marked : α → Bool} {rank : α → ρ}

/-- An ordered chain whose unmarked nodes are all on it. -/
structure MarkedChain (lt : ρ → ρ → Prop) (head : α) (linked : α → Prop) (l : List α)
    (next : α → Option α) (marked : α → Bool) (rank : α → ρ) : Prop where
  chain : Linked next (some head) l
  mem : ∀ a ∈ l, linked a
  link : ∀ a b, linked a → next a = some b → linked b ∧ lt (rank a) (rank b)
  unmarked : ∀ a, linked a → marked a = false → a ∈ l
  head_unmarked : marked head = false

theorem pairwise_of_linked [IsTrans ρ lt] {p : Option α} {l : List α} (h : Linked next p l)
    (hlink : ∀ a ∈ l, ∀ b, next a = some b → lt (rank a) (rank b)) :
    l.Pairwise fun a b => lt (rank a) (rank b) := by
  induction l generalizing p with
  | nil => exact List.Pairwise.nil
  | cons a l ih =>
    have hl := ih h.2 fun b hb => hlink b (by simp [hb])
    refine List.pairwise_cons.mpr ⟨?_, hl⟩
    cases l with
    | nil => simp
    | cons b l =>
      have hab : lt (rank a) (rank b) := hlink a (by simp) b h.2.1
      intro c hc
      rcases List.mem_cons.mp hc with rfl | hc
      · exact hab
      · exact IsTrans.trans _ _ _ hab ((List.pairwise_cons.mp hl).1 c hc)

namespace MarkedChain

theorem head_mem (h : MarkedChain lt head linked l next marked rank) : head ∈ l := by
  have hc := h.chain
  cases l with
  | nil => cases hc
  | cons b l => rw [Option.some.inj hc.1]; simp

/-- **The chain is strictly ordered**, marked nodes included. -/
theorem sorted [IsTrans ρ lt] (h : MarkedChain lt head linked l next marked rank) :
    l.Pairwise fun a b => lt (rank a) (rank b) :=
  pairwise_of_linked h.chain fun a ha b hb => (h.link a b (h.mem a ha) hb).2

/-- Two nodes of the chain are ordered. -/
theorem total [IsTrans ρ lt] (h : MarkedChain lt head linked l next marked rank) {a b : α}
    (ha : a ∈ l) (hb : b ∈ l) (hab : a ≠ b) :
    lt (rank a) (rank b) ∨ lt (rank b) (rank a) := by
  obtain ⟨l₁, l₂, rfl⟩ := List.append_of_mem ha
  have hs := h.sorted
  rw [List.pairwise_append] at hs
  rcases List.mem_append.mp hb with hb | hb
  · exact .inr (hs.2.2 b hb a (by simp))
  · rcases List.mem_cons.mp hb with rfl | hb
    · exact absurd rfl hab
    · exact .inl ((List.pairwise_cons.mp hs.2.1).1 b hb)

/-- Nothing on the chain lies between an unmarked node and its successor. -/
theorem gap [IsTrans ρ lt] (h : MarkedChain lt head linked l next marked rank) {a x : α}
    (ha : linked a) (hm : marked a = false) (hx : x ∈ l) :
    x = a ∨ lt (rank x) (rank a) ∨ ∃ b, next a = some b ∧ (x = b ∨ lt (rank b) (rank x)) := by
  obtain ⟨l₁, l₂, rfl, hl₂⟩ := h.chain.split (h.unmarked a ha hm)
  have hs := h.sorted
  rw [List.pairwise_append] at hs
  rcases List.mem_append.mp hx with hx | hx
  · exact .inr (.inl (hs.2.2 x hx a (by simp)))
  · rcases List.mem_cons.mp hx with rfl | hx
    · exact .inl rfl
    · cases l₂ with
      | nil => simp at hx
      | cons b l₂ =>
        refine .inr (.inr ⟨b, hl₂.1, ?_⟩)
        rcases List.mem_cons.mp hx with rfl | hx
        · exact .inl rfl
        · exact .inr ((List.pairwise_cons.mp (List.pairwise_cons.mp hs.2.1).2).1 x hx)

variable [DecidableEq α]

/-- A node is linked in behind an unmarked one. -/
theorem insert (h : MarkedChain lt head linked l next marked rank) {a n : α}
    (ha : linked a) (hm : marked a = false) (hn : ¬ linked n) (hnext : next n = next a)
    (han : lt (rank a) (rank n)) (hnb : ∀ b, next a = some b → lt (rank n) (rank b)) :
    ∃ l', MarkedChain lt head (fun x => x = n ∨ linked x) l' (Function.update next a (some n))
      marked rank ∧ ∀ x, x ∈ l' ↔ x = n ∨ x ∈ l := by
  obtain ⟨l₁, l₂, rfl, hl₂⟩ := h.chain.split (h.unmarked a ha hm)
  have hnl : n ∉ l₁ ++ a :: l₂ := fun hmem => hn (h.mem n hmem)
  have hmem : ∀ x, x ∈ l₁ ++ a :: n :: l₂ ↔ x = n ∨ x ∈ l₁ ++ a :: l₂ := by intro x; grind
  refine ⟨l₁ ++ a :: n :: l₂, ⟨h.chain.insert hnl hnext, fun x hx => ?_, ?_, ?_,
    h.head_unmarked⟩, hmem⟩
  · exact ((hmem x).mp hx).imp id (h.mem x)
  · intro x b hx hb
    by_cases hxa : x = a
    · subst hxa
      rw [Function.update_self] at hb
      obtain rfl := Option.some.inj hb
      exact ⟨.inl rfl, han⟩
    · rw [Function.update_of_ne hxa] at hb
      rcases hx with rfl | hx
      · rw [hnext] at hb
        exact ⟨.inr (h.link a b ha hb).1, hnb b hb⟩
      · exact ⟨.inr (h.link x b hx hb).1, (h.link x b hx hb).2⟩
  · intro x hx hxm
    rw [hmem]
    exact hx.imp id fun hx => h.unmarked x hx hxm

/-- A node is marked. -/
theorem mark (h : MarkedChain lt head linked l next marked rank) {a : α} (ha : a ≠ head) :
    MarkedChain lt head linked l next (Function.update marked a true) rank := by
  refine ⟨h.chain, h.mem, h.link, fun x hx hxm => ?_, ?_⟩
  · by_cases hxa : x = a
    · subst hxa; simp at hxm
    · rw [Function.update_of_ne hxa] at hxm; exact h.unmarked x hx hxm
  · rw [Function.update_of_ne ha.symm]; exact h.head_unmarked

/-- A marked node is taken out behind an unmarked one. -/
theorem unlink [IsTrans ρ lt] (h : MarkedChain lt head linked l next marked rank) {a b : α}
    (ha : linked a) (hm : marked a = false) (hab : next a = some b) (hb : marked b = true) :
    ∃ l', MarkedChain lt head linked l' (Function.update next a (next b)) marked rank ∧
      ∀ x, x ∈ l' ↔ x ≠ b ∧ x ∈ l := by
  obtain ⟨l₁, l₂, rfl, hl₂⟩ := h.chain.split (h.unmarked a ha hm)
  cases l₂ with
  | nil => rw [hab] at hl₂; cases hl₂
  | cons c l₂ =>
    obtain rfl : b = c := Option.some.inj (hab.symm.trans hl₂.1)
    have hnd := h.chain.nodup
    have hmem : ∀ x, x ∈ l₁ ++ a :: l₂ ↔ x ≠ b ∧ x ∈ l₁ ++ a :: b :: l₂ := by
      intro x; grind
    refine ⟨l₁ ++ a :: l₂, ⟨h.chain.unlink, fun x hx => h.mem x ((hmem x).mp hx).2, ?_, ?_,
      h.head_unmarked⟩, hmem⟩
    · intro x y hx hy
      by_cases hxa : x = a
      · subst hxa
        rw [Function.update_self] at hy
        have h1 := h.link x b hx hab
        have h2 := h.link b y h1.1 hy
        exact ⟨h2.1, IsTrans.trans _ _ _ h1.2 h2.2⟩
      · rw [Function.update_of_ne hxa] at hy
        exact h.link x y hx hy
    · intro x hx hxm
      rw [hmem]
      refine ⟨?_, h.unmarked x hx hxm⟩
      rintro rfl
      rw [hb] at hxm
      cases hxm

omit [DecidableEq α] in
/-- Nodes that were never linked in may be written to. -/
theorem frame (h : MarkedChain lt head linked l next marked rank) {next' : α → Option α}
    {marked' : α → Bool} {rank' : α → ρ} (hh : linked head)
    (hn : ∀ a, linked a → next' a = next a) (hm : ∀ a, linked a → marked' a = marked a)
    (hr : ∀ a, linked a → rank' a = rank a) :
    MarkedChain lt head linked l next' marked' rank' := by
  refine ⟨h.chain.congr fun a ha => hn a (h.mem a ha), h.mem, fun a b ha hb => ?_,
    fun a ha hma => h.unmarked a ha (hm a ha ▸ hma), (hm head hh).trans h.head_unmarked⟩
  rw [hn a ha] at hb
  obtain ⟨h1, h2⟩ := h.link a b ha hb
  exact ⟨h1, by rw [hr a ha, hr b h1]; exact h2⟩

end MarkedChain

end Chain
