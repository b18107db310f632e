import Bonostl.ThreadsafeList.Serial

/-!
# The memory of a list under hand-over-hand locking

`remove_if` deletes a node after it has released the node's mutex. This is safe because it has taken
the node off the list before, holding the mutex of the node before it: whoever locks a node next has
the one before it locked, and finds it by a link of the list. So what a thread accesses is a node it
has locked, one that is its own, or one behind a node it has locked (`touches_place`), and all three
hold nodes (`list_memory_safe`). That a step accesses no more than `touches` says is
`Move.untouched`, for what it changes, and `step_touches`, for what it depends on.
-/

namespace Bonostl.ThreadsafeList

open Interleaving Chain Pipeline

variable {ι T : Type}

namespace Pc

/-- The nodes whose mutex, link or element the next step of a thread uses. -/
def touches : Pc T → List ℕ
  | .lockPush _ _ | .lockHead _ | .setHead _ => [head]
  | .moveNext n _ => [head, n]
  | .loadNext _ current | .unlockPrev _ current _ | .take _ _ current _ | .keep _ _ current _ =>
    [current]
  | .lockNext _ _ next | .visit _ next | .test _ _ _ next | .unlockNext _ _ _ next
  | .delete _ _ _ next => [next]
  | .splice _ _ current next => [current, next]
  | .unlock a _ => [a]
  | .idle | .new _ | .done _ => []

/-- The node whose element the next step reads. -/
def reads : Pc T → Option ℕ
  | .visit _ next | .test _ _ _ next | .splice _ _ _ next => some next
  | _ => none

/-- The node the next step deletes. -/
def deletes : Pc T → Option ℕ
  | .delete _ _ _ next => some next
  | _ => none

/-- What a step accesses is locked, the thread's own, or about to be locked. -/
theorem touches_place {pc : Pc T} {a : ℕ} (ha : a ∈ pc.touches) :
    a ∈ pc.holds ∨ pc.own = some a ∨ pc.wants = some a := by
  cases pc with
  | lockPush n value | lockHead k =>
    obtain rfl := List.mem_singleton.mp ha
    exact .inr (.inr rfl)
  | lockNext k current next =>
    obtain rfl := List.mem_singleton.mp ha
    exact .inr (.inr rfl)
  | delete p removed current next =>
    obtain rfl := List.mem_singleton.mp ha
    exact .inr (.inl rfl)
  | moveNext n value =>
    rcases List.mem_cons.mp ha with rfl | ha
    · exact .inl List.mem_cons_self
    · obtain rfl := List.mem_singleton.mp ha
      exact .inr (.inl rfl)
  | idle | new value | done r => cases ha
  | _ =>
    simp only [touches, List.mem_cons, List.not_mem_nil, or_false] at ha
    simp [holds, ha]

end Pc

/-! ## `touches` is all that a step uses -/

section
variable {s s₁ s' : Shared ι T} {t : ι} {c : Choice T} {ev : Event (Op T) (Res T)} {l l' : Pc T}
  {a : ℕ}

/-- A step leaves the other nodes as they are. -/
theorem Move.untouched (hM : Move t s ev l s' l') (ha : a ∉ l.touches) (halive : s.alive a = true) :
    s'.mutex a = s.mutex a ∧ s'.next a = s.next a ∧ s'.data a = s.data a := by
  cases hM with
  | new value b hb =>
    have hab : a ≠ b := by
      rintro rfl
      exact absurd halive (by simp [hb])
    simp [hab]
  | _ => simp_all [Pc.touches, Shared.move, Shared.unlock]

/-- Only the deletion ends the life of a node. -/
theorem Move.deleted (hM : Move t s ev l s' l') (halive : s.alive a = true)
    (ha : s'.alive a = false) :
    l.deletes = some a := by
  cases hM with
  | new value b hb =>
    by_cases hab : a = b
    · simp [hab] at ha
    · simp [hab, halive] at ha
  | delete p removed current next =>
    by_cases hab : a = next
    · rw [hab]
      rfl
    · simp [hab, halive] at ha
  | _ => simp_all [Shared.move, Shared.unlock]

/-- Whether a thread can go on, and where to, depends on what it touches only. -/
theorem step_touches (hnew : ∀ value, l ≠ .new value) (hm : ∀ a ∈ l.touches, s₁.mutex a = s.mutex a)
    (hn : ∀ a ∈ l.touches, s₁.next a = s.next a) (hd : ∀ a ∈ l.touches, s₁.data a = s.data a) :
    (step t c s₁ l).map (fun r => (r.1, r.2.2)) = (step t c s l).map fun r => (r.1, r.2.2) := by
  cases l with
  | new value => exact absurd rfl (hnew value)
  | lockPush n value | lockHead k =>
    have h := hm head List.mem_cons_self
    cases c <;> simp only [step, Shared.lock, h, Option.map_map]
    cases s.mutex head <;> rfl
  | lockNext k current next =>
    have h := hm next List.mem_cons_self
    cases c <;> simp only [step, Shared.lock, h, Option.map_map]
    cases s.mutex next <;> rfl
  | loadNext k current =>
    have h := hn current List.mem_cons_self
    cases c <;> simp only [step, h]
    cases s.next current <;> rfl
  | visit k next =>
    have h := hd next List.mem_cons_self
    cases c <;> simp only [step, h]
    cases (s.data next).bind (k.visit next) <;> rfl
  | test p removed current next =>
    have h := hd next List.mem_cons_self
    cases c <;> simp only [step, h]
    cases s.data next <;> rfl
  | splice p removed current next =>
    have h := hd next (List.mem_cons_of_mem _ List.mem_cons_self)
    cases c <;> simp only [step, h, Option.map_some]
  | _ => cases c <;> rfl
end

/-! ## The invariant keeps them alive -/

section
variable [DecidableEq ι] {A : List T} {E : ι → Option (Op T × List T)} {G : Line ι T}
  {g : ℕ → Option ℕ} {s : Shared ι T} {f : ι → Pc T} {t u : ι} {a : ℕ}

/-- What a thread waits for is in the list. -/
theorem Inv.wants_mem (h : Inv A E G g s f) (ha : (f t).wants = some a) : a ∈ nodesOf G := by
  have hpl := h.place t
  generalize f t = pc at ha hpl
  cases pc with
  | lockPush n value | lockHead k =>
    obtain rfl := Option.some.inj ha
    exact List.mem_cons_self
  | lockNext k current next =>
    obtain rfl := Option.some.inj ha
    exact h.chain.next_mem (h.at_mem hpl.1.mem hpl.2.1) hpl.2.2
  | _ => cases ha

theorem Inv.touches_alive (h : Inv A E G g s f) (ha : a ∈ (f t).touches) : s.alive a = true := by
  rcases Pc.touches_place ha with hh | ho | hw
  · exact h.held_alive hh
  · exact ((h.place t).own_private ho).2
  · exact h.alive a (h.wants_mem hw)

/-- A thread's own node is nobody else's business. -/
theorem Inv.own_untouched (h : Inv A E G g s f) (ho : (f t).own = some a) (hut : u ≠ t) :
    a ∉ (f u).holds ∧ a ∉ (f u).touches := by
  have hnot : a ∉ nodesOf G := ((h.place t).own_private ho).1
  have hholds : a ∉ (f u).holds := fun hh =>
    ((h.place u).held hh).elim (fun ho' => hut (h.own u t a ho' ho)) hnot
  refine ⟨hholds, fun ha => ?_⟩
  rcases Pc.touches_place ha with hh | ho' | hw
  · exact hholds hh
  · exact hut (h.own u t a ho' ho)
  · exact hnot (h.wants_mem hw)

theorem Inv.reads_data (h : Inv A E G g s f) (ha : (f t).reads = some a) :
    ∃ x, s.data a = some x := by
  have hpl := h.place t
  generalize f t = pc at ha hpl
  cases pc with
  | visit k next =>
    obtain rfl := Option.some.inj ha
    obtain ⟨-, x, hx, -⟩ := h.next_mem hpl.2
    exact ⟨x, hx⟩
  | test p removed current next | splice p removed current next =>
    obtain rfl := Option.some.inj ha
    obtain ⟨-, x, hx, -⟩ := h.next_mem hpl.2.2
    exact ⟨x, hx⟩
  | _ => cases ha

/-- A node is deleted by the one thread that has it. -/
theorem Inv.deletes_own (h : Inv A E G g s f) (ha : (f t).deletes = some a) :
    (f t).own = some a ∧ s.alive a = true ∧ a ≠ head ∧ s.mutex a = none := by
  have hpl := h.place t
  generalize hft : f t = pc at ha hpl
  cases pc with
  | delete p removed current next =>
    obtain rfl := Option.some.inj ha
    obtain ⟨hS, hAt, hnot, halive⟩ := hpl
    refine ⟨rfl, halive, ?_, ?_⟩
    · rintro rfl
      exact hnot List.mem_cons_self
    · by_contra hm
      obtain ⟨u, hu⟩ := Option.ne_none_iff_exists'.mp hm
      have hh := (h.mutex next u).mp hu
      by_cases hut : u = t
      · subst hut
        rw [hft] at hh
        obtain rfl := List.mem_singleton.mp hh
        exact hnot (h.at_mem hS.mem hAt)
      · exact (h.own_untouched (t := t) (by rw [hft]; rfl) hut).1 hh
  | _ => cases ha
end

section
variable [DecidableEq ι] {h : List (Step ι T)} {c : Config ι (Shared ι T) (Pc T)}

/-- **No use after free.** In every reachable state: the nodes whose mutex, link or element the next
step of a thread uses have not been deleted, and the element it reads is there; and a node that a
thread is about to delete is one that has not been deleted before, is not `head`, has a free mutex,
and is neither locked nor used by any other thread. A step leaves every node alone that it does not
use, and deletes no other. -/
theorem list_memory_safe (hr : program.Run Program.anyStep initial h c) :
    (∀ t, ∀ a ∈ (c.loc t).touches, c.shared.alive a = true) ∧
    (∀ t a, (c.loc t).reads = some a → ∃ x, c.shared.data a = some x) ∧
    (∀ t a, (c.loc t).deletes = some a →
      c.shared.alive a = true ∧ a ≠ head ∧ c.shared.mutex a = none ∧
      ∀ u, u ≠ t → a ∉ (c.loc u).holds ∧ a ∉ (c.loc u).touches) ∧
    ∀ t ch ev s' l', step t ch c.shared (c.loc t) = some (ev, s', l') →
      ∀ a, c.shared.alive a = true →
      (a ∉ (c.loc t).touches →
        s'.mutex a = c.shared.mutex a ∧ s'.next a = c.shared.next a ∧ s'.data a = c.shared.data a) ∧
      (s'.alive a = false → (c.loc t).deletes = some a) := by
  obtain ⟨G, g, hI⟩ := inv_run hr
  refine ⟨fun t a ha => hI.touches_alive ha, fun t a ha => hI.reads_data ha, fun t a ha => ?_,
    fun t ch ev s' l' hs a halive => ?_⟩
  · obtain ⟨hown, halive, hhead, hmutex⟩ := hI.deletes_own ha
    exact ⟨halive, hhead, hmutex, fun u hu => hI.own_untouched hown hu⟩
  · have hM := step_move hs
    exact ⟨fun ha => hM.untouched ha halive, fun ha => hM.deleted halive ha⟩
end

/-- A `remove_if` is about to delete the node of 7 while a `for_each` waits for `head`. -/
theorem list_memory_safe_remove :
    ∃ (h : List (Step Bool ℕ)) (c : Config Bool (Shared Bool ℕ) (Pc ℕ)),
      program.Run Program.anyStep initial h c ∧ (c.loc true).deletes = some 1 ∧
      (c.loc false).wants = some head ∧ c.shared.mutex 1 = none ∧ 1 ∉ (c.loc false).touches := by
  obtain ⟨h, c, hr, hq⟩ := Program.replay_reaches program initial
    ([pushing false 1 7, [(true, .call (.removeIf fun _ => true))], List.replicate 7 (true, .run),
      [(false, .call .forEach)]].flatten)
    (fun _ c => decide ((c.loc true).deletes = some 1 ∧ (c.loc false).wants = some head))
    (by decide)
  obtain ⟨hd, hw⟩ := of_decide_eq_true hq
  obtain ⟨-, -, hfree, hothers⟩ := (list_memory_safe hr).2.2.1 true 1 hd
  exact ⟨h, c, hr, hd, hw, hfree, (hothers false (by decide)).2⟩

end Bonostl.ThreadsafeList
