import Bonostl.Chain.Linked

/-!
# `queue` (`queue.hpp`)

The queue for one thread: a chain of nodes that ends in a dummy. `head` owns its node and every node
the next one, so a node is deleted when the pointer to it is moved out of or destroyed. Nodes live
at addresses; `alive` says which addresses hold one, and `make_unique` may return any address that
holds none, also one whose node was deleted.

An access to a node through a null pointer or after its deletion has no result, nor has an
assignment to `tail->next` that would delete a node. `Holds` is the representation of a list;
`sequential_queue` says that the queue is a first-in first-out list under every sequence of calls,
without such an access, and that its destructor deletes every node that is left.
-/

namespace Bonostl.Queue

open Chain Function

variable {T : Type}

/-- The nodes, field by field, and the members of the queue. -/
structure State (T : Type) where
  data : ℕ → Option T
  next : ℕ → Option ℕ
  alive : ℕ → Bool
  head : Option ℕ
  tail : ℕ

/-- A call; `a` is the address `make_unique` returns in it. -/
inductive Op (T : Type) where
  | push (new_value : T) (a : ℕ)
  | tryPop

/-- What a call returns. -/
inductive Res (T : Type) where
  | unit
  | popped (result : Option T)

/-- `std::make_unique<node>()`. -/
def State.make (s : State T) (a : ℕ) : State T :=
  { s with
    data := update s.data a none
    next := update s.next a none
    alive := update s.alive a true }

/-- `queue()`. -/
def construct (a : ℕ) : State T :=
  State.make ⟨fun _ => none, fun _ => none, fun _ => false, some a, a⟩ a

/-- `push`. -/
def push (s : State T) (new_value : T) (new_tail : ℕ) : Option (State T) :=
  let s := s.make new_tail
  if s.alive s.tail ∧ s.next s.tail = none then
    some { s with data := update s.data s.tail (some new_value),
                  next := update s.next s.tail (some new_tail), tail := new_tail }
  else none

/-- `try_pop`; moving `head->next` to `head` deletes the old head. -/
def tryPop (s : State T) : Option (State T × Option T) :=
  if s.head = some s.tail then some (s, none)
  else
    match s.head with
    | none => none
    | some a =>
      if s.alive a then
        some ({ s with
          head := s.next a
          next := update s.next a none
          alive := update s.alive a false }, s.data a)
      else none

/-- One call. -/
def step (s : State T) : Op T → Option (State T × Res T)
  | .push v a => (push s v a).map (·, .unit)
  | .tryPop => (tryPop s).map fun x => (x.1, .popped x.2)

/-- A sequence of calls. -/
def run (s : State T) : List (Op T) → Option (State T × List (Res T))
  | [] => some (s, [])
  | o :: os => (step s o).bind fun x => (run x.1 os).map fun y => (y.1, x.2 :: y.2)

/-- The nodes `~unique_ptr` deletes from `p` on, the last one first, if there are at most `n`. -/
def destroy (s : State T) : ℕ → Option ℕ → Option (List ℕ)
  | _, none => some []
  | 0, some _ => none
  | n + 1, some a => if s.alive a then (destroy s n (s.next a)).map (· ++ [a]) else none

/-- `make_unique` returns an address that holds no node. -/
def Op.fresh (s : State T) : Op T → Bool
  | .push _ a => !s.alive a
  | .tryPop => true

/-- The same in each of a sequence of calls. -/
def allocates (s : State T) : List (Op T) → Bool
  | [] => true
  | o :: os => o.fresh s && (step s o).all fun x => allocates x.1 os

/-! ## The list -/

/-- The calls on a list. -/
def Op.apply (xs : List T) : Op T → List T × Res T
  | .push v _ => (xs ++ [v], .unit)
  | .tryPop => (xs.tail, .popped xs.head?)

/-- The list after a sequence of calls, and their results. -/
def applyAll (xs : List T) : List (Op T) → List T × List (Res T)
  | [] => (xs, [])
  | o :: os => ((applyAll (o.apply xs).1 os).1, (o.apply xs).2 :: (applyAll (o.apply xs).1 os).2)

/-- The queue holds the list `xs` in the nodes `l`, with the dummy behind them, and there are no
other nodes. -/
structure Holds (s : State T) (l : List ℕ) (xs : List T) : Prop where
  chain : Linked s.next s.head (l ++ [s.tail])
  data : l.map s.data = xs.map some
  alive : ∀ a, s.alive a = true ↔ a ∈ l ++ [s.tail]

variable {s s' : State T} {l : List ℕ} {xs : List T} {a : ℕ} {v : T}

theorem holds_construct (a : ℕ) : Holds (construct a : State T) [] [] := by
  refine ⟨⟨rfl, update_self ..⟩, rfl, fun b => ?_⟩
  by_cases hb : b = a
  · simp [construct, State.make, hb]
  · simp [construct, State.make, hb]

theorem Holds.tail_next (h : Holds s l xs) : s.next s.tail = none := h.chain.suffix

theorem Holds.tail_not_mem (h : Holds s l xs) : s.tail ∉ l := fun hmem =>
  (List.nodup_append.mp h.chain.nodup).2.2 _ hmem _ (List.mem_singleton_self _) rfl

/-- `push` appends. -/
theorem Holds.push (h : Holds s l xs) (ha : s.alive a = false) (v : T) :
    ∃ s', Queue.push s v a = some s' ∧ Holds s' (l ++ [s.tail]) (xs ++ [v]) := by
  have hnew : a ∉ l ++ [s.tail] := fun hmem => by
    rw [(h.alive a).mpr hmem] at ha
    cases ha
  have hat : s.tail ≠ a := by
    rintro rfl
    exact hnew (by simp)
  have hnext : (s.make a).next s.tail = none := (update_of_ne hat _ _).trans h.tail_next
  have halive : (s.make a).alive s.tail = true :=
    (update_of_ne hat _ _).trans ((h.alive s.tail).mpr (by simp))
  refine ⟨_, if_pos ⟨halive, hnext⟩, ?_, ?_, fun b => ?_⟩
  · -- the new dummy is linked in behind the old one
    have hmade : Linked (s.make a).next s.head (l ++ [s.tail]) :=
      h.chain.congr fun b hb => update_of_ne (fun e : b = a => hnew (e ▸ hb)) _ _
    have hlink := Linked.insert (b := a) hmade hnew ((update_self ..).trans hnext.symm)
    rw [List.append_assoc]
    exact hlink
  · have hl : l.map (update (update s.data a none) s.tail (some v)) = l.map s.data := by
      refine List.map_congr_left fun b hb => ?_
      rw [update_of_ne (fun e : b = s.tail => h.tail_not_mem (e ▸ hb)),
        update_of_ne fun e : b = a => hnew (e ▸ List.mem_append_left _ hb)]
    rw [List.map_append, List.map_append]
    exact congrArg₂ (· ++ ·) (hl.trans h.data) (by simp [State.make])
  · show update s.alive a true b = true ↔ _
    by_cases hb : b = a
    · simp [hb]
    · rw [update_of_ne hb, h.alive b, List.mem_append]
      simp [hb]

/-- `try_pop` on an empty queue. -/
theorem Holds.tryPop_empty (h : Holds s [] xs) : tryPop s = some (s, none) := if_pos h.chain.1

/-- `try_pop` takes the first element. -/
theorem Holds.tryPop (h : Holds s (a :: l) (v :: xs)) :
    ∃ s', Queue.tryPop s = some (s', some v) ∧ Holds s' l xs := by
  obtain ⟨hhead, hrest⟩ := h.chain
  have hnodup := List.nodup_cons.mp h.chain.nodup
  have hat : s.head ≠ some s.tail := by
    rw [hhead]
    exact fun he => h.tail_not_mem (Option.some.inj he ▸ List.mem_cons_self)
  have hv : s.data a = some v := (List.cons.inj h.data).1
  refine ⟨{ s with
      head := s.next a
      next := update s.next a none
      alive := update s.alive a false }, ?_, ?_, (List.cons.inj h.data).2, fun b => ?_⟩
  · unfold Queue.tryPop
    rw [if_neg hat, hhead]
    dsimp only
    rw [if_pos ((h.alive a).mpr List.mem_cons_self), hv]
  · exact hrest.congr fun b hb => update_of_ne (fun e : b = a => hnodup.1 (e ▸ hb)) _ _
  · show update s.alive a false b = true ↔ _
    by_cases hb : b = a
    · subst hb
      simpa using hnodup.1
    · rw [update_of_ne hb, h.alive b]
      simp [hb]

/-- Every call does to the queue what it does to the list. -/
theorem Holds.step (h : Holds s l xs) (o : Op T) (ha : o.fresh s = true) :
    ∃ s' l', Queue.step s o = some (s', (o.apply xs).2) ∧ Holds s' l' (o.apply xs).1 := by
  cases o with
  | push v a =>
    obtain ⟨s', hs, h'⟩ := h.push (Bool.not_eq_true' _ |>.mp ha) v
    exact ⟨s', _, by rw [Queue.step, hs]; rfl, h'⟩
  | tryPop =>
    cases xs with
    | nil =>
      obtain rfl : l = [] := List.map_eq_nil_iff.mp h.data
      exact ⟨s, [], by rw [Queue.step, h.tryPop_empty]; rfl, h⟩
    | cons v xs =>
      obtain ⟨a, l, rfl⟩ : ∃ a l', l = a :: l' := by
        cases l with
        | nil => cases h.data
        | cons a l => exact ⟨a, l, rfl⟩
      obtain ⟨s', hs, h'⟩ := h.tryPop
      exact ⟨s', l, by rw [Queue.step, hs]; rfl, h'⟩

theorem Holds.run (h : Holds s l xs) (os : List (Op T)) (ha : allocates s os = true) :
    ∃ s' l', Queue.run s os = some (s', (applyAll xs os).2) ∧ Holds s' l' (applyAll xs os).1 := by
  induction os generalizing s l xs with
  | nil => exact ⟨s, l, rfl, h⟩
  | cons o os ih =>
    obtain ⟨hfresh, hrest⟩ := Bool.and_eq_true_iff.mp ha
    obtain ⟨s₁, l₁, hs, h₁⟩ := h.step o hfresh
    rw [hs] at hrest
    obtain ⟨s₂, l₂, hrun, h₂⟩ := ih h₁ hrest
    exact ⟨s₂, l₂, by rw [Queue.run, hs, Option.bind_some, hrun]; rfl, h₂⟩

/-- The destructor goes through the chain to its end. -/
theorem destroy_eq {p : Option ℕ} {n : ℕ} (h : Linked s.next p l) (ha : ∀ a ∈ l, s.alive a = true)
    (hn : l.length ≤ n) : destroy s n p = some l.reverse := by
  induction l generalizing p n with
  | nil =>
    obtain rfl : p = none := h
    cases n <;> rfl
  | cons a l ih =>
    obtain ⟨rfl, hl⟩ := h
    cases n with
    | zero => exact absurd hn (Nat.not_succ_le_zero _)
    | succ n =>
      unfold destroy
      rw [if_pos (ha a List.mem_cons_self),
        ih hl (fun b hb => ha b (List.mem_cons_of_mem _ hb)) (Nat.le_of_succ_le_succ hn),
        List.reverse_cons]
      rfl

/-- **`queue` is a first-in first-out queue that leaks nothing.** Under every sequence of calls,
with any addresses for the nodes: no call accesses a node that is not there, the results are those
of a list to whose end `push` appends and whose first element `try_pop` takes, and the destructor
deletes each node that is left exactly once: one for each element of the list, and the dummy. -/
theorem sequential_queue (a : ℕ) (os : List (Op T)) (ha : allocates (construct a) os = true) :
    ∃ s d, run (construct a) os = some (s, (applyAll [] os).2) ∧
      destroy s ((applyAll [] os).1.length + 1) s.head = some d ∧ d.Nodup ∧
      d.length = (applyAll [] os).1.length + 1 ∧ ∀ b, b ∈ d ↔ s.alive b = true := by
  obtain ⟨s, l, hrun, h⟩ := (holds_construct a).run os ha
  have hlen : (l ++ [s.tail]).length = (applyAll [] os).1.length + 1 := by
    have := congrArg List.length h.data
    rw [List.length_map, List.length_map] at this
    rw [List.length_append, this]
    rfl
  refine ⟨s, (l ++ [s.tail]).reverse, hrun, ?_, List.nodup_reverse.mpr h.chain.nodup, ?_,
    fun b => ?_⟩
  · exact destroy_eq h.chain (fun b hb => (h.alive b).mpr hb) (Nat.le_of_eq hlen)
  · rw [List.length_reverse, hlen]
  · rw [List.mem_reverse, h.alive b]

/-- The address of the first node is used again. -/
theorem sequential_queue_reuse : ∃ (s : State ℕ) (d : List ℕ),
    run (construct 0) [.push 5 1, .tryPop, .push 6 0, .tryPop, .tryPop] =
      some (s, [.unit, .popped (some 5), .unit, .popped (some 6), .popped none]) ∧
      destroy s 1 s.head = some d ∧ d.Nodup ∧ d.length = 1 ∧ ∀ b, b ∈ d ↔ s.alive b = true :=
  sequential_queue 0 [.push 5 1, .tryPop, .push 6 0, .tryPop, .tryPop] (by decide)

end Bonostl.Queue
