import Bonostl.HazardPtr.Model

/-!
# The search of a Harris-Michael list

`lockfree_list::find` and `lockfree_hash_map::find_from` are one function up to where the search
starts, how a node's data is compared with the key and which nodes are handed to `reclaim_later`
when they are unlinked. `Query` holds these four; `Find.step` is the function, one atomic access of
the source as one step.

A link is a pointer (`next`) and its lowest bit (`marked`), written together by every
compare-exchange. `used` says which addresses have ever held a node: a run in which `new` returns
no used address is one in which memory is never reused.
-/

namespace Bonostl.HarrisMichael

open HazardPtr

/-- The nodes of a list and the hazard registry. -/
structure Memory (ι δ : Type) where
  next : ℕ → Option ℕ
  marked : ℕ → Bool
  data : ℕ → δ
  alive : ℕ → Bool
  used : ℕ → Bool
  hazard : HazardPtr.Shared ι

/-- What one search looks for: it starts behind the node `start`, goes on past the nodes that
satisfy `advance`, and reports whether the node it stops at satisfies `equal`. -/
structure Query (δ : Type) where
  start : ℕ
  advance : δ → Bool
  equal : δ → Bool
  reclaims : δ → Bool

/-- Where a search stands, with its local variables. -/
inductive Place where
  | start
  | load (pred : ℕ)
  | protect (pred curr : ℕ)
  | validate (pred curr : ℕ)
  | loadNext (pred curr : ℕ)
  | unlink (pred curr : ℕ) (next : Option ℕ)
  | reclaim (pred : ℕ) (next : Option ℕ) (r : Reclaim)
  | compare (pred curr : ℕ) (next : Option ℕ)
  | result (found : Bool) (pred : ℕ) (curr : Option ℕ)
  deriving DecidableEq

/-- A search: the slots its two hazard pointers stand for now, and its place. -/
structure Find where
  hpPred : ℕ
  hpCurr : ℕ
  place : Place
  deriving DecidableEq

variable {ι δ : Type}

/-- The top of the loop: a null `curr` ends the search. -/
def loop (pred : ℕ) : Option ℕ → Place
  | none => .result false pred none
  | some curr => .protect pred curr

/-- The memory after `delete` of a node, if one was deleted. -/
def Memory.free (m : Memory ι δ) : Option ℕ → Memory ι δ
  | none => m
  | some a => { m with alive := Function.update m.alive a false }

/-- The memory after `new` of a node at address `a`. -/
def Memory.alloc (m : Memory ι δ) (a : ℕ) (d : δ) : Memory ι δ :=
  { m with next := Function.update m.next a none,
           marked := Function.update m.marked a false,
           data := Function.update m.data a d,
           alive := Function.update m.alive a true,
           used := Function.update m.used a true }

/-- A store to the link of a node that no other thread can reach. -/
def Memory.setNext (m : Memory ι δ) (a : ℕ) (p : Option ℕ) : Memory ι δ :=
  { m with next := Function.update m.next a p, marked := Function.update m.marked a false }

/-- `compare_exchange_strong` on the link of `a`, from the unmarked pointer `p` to `p'`. -/
def Memory.cas (m : Memory ι δ) (a : ℕ) (p p' : Option ℕ) : Option (Memory ι δ) :=
  if m.next a = p ∧ m.marked a = false then some { m with next := Function.update m.next a p' }
  else none

/-- `compare_exchange_strong` on the link of `a`, from the unmarked pointer `p` to the marked. -/
def Memory.casMark (m : Memory ι δ) (a : ℕ) (p : Option ℕ) : Option (Memory ι δ) :=
  if m.next a = p ∧ m.marked a = false then
    some { m with marked := Function.update m.marked a true }
  else none

section
variable (m : Memory ι δ) (a : ℕ) (d : δ) (p : Option ℕ) (b : ℕ)

@[grind =] theorem Memory.alloc_next : (m.alloc a d).next b = if b = a then none else m.next b :=
  Function.update_apply ..

@[grind =] theorem Memory.alloc_marked :
    (m.alloc a d).marked b = if b = a then false else m.marked b := Function.update_apply ..

@[grind =] theorem Memory.alloc_data : (m.alloc a d).data b = if b = a then d else m.data b :=
  Function.update_apply ..

@[grind =] theorem Memory.alloc_alive :
    (m.alloc a d).alive b = if b = a then true else m.alive b := Function.update_apply ..

@[grind =] theorem Memory.alloc_used :
    (m.alloc a d).used b = if b = a then true else m.used b := Function.update_apply ..

@[grind =] theorem Memory.setNext_next : (m.setNext a p).next b = if b = a then p else m.next b :=
  Function.update_apply ..

@[grind =] theorem Memory.setNext_marked :
    (m.setNext a p).marked b = if b = a then false else m.marked b := Function.update_apply ..

@[grind =] theorem Memory.setNext_data : (m.setNext a p).data b = m.data b := rfl

@[grind =] theorem Memory.setNext_alive : (m.setNext a p).alive b = m.alive b := rfl

@[grind =] theorem Memory.setNext_used : (m.setNext a p).used b = m.used b := rfl
end

/-- One step of the search; `none` when it has a result. -/
def Find.step (q : Query δ) (spurious : Bool) (m : Memory ι δ) (f : Find) :
    Option (Memory ι δ × Find) :=
  match f.place with
  | .start => some ({ m with hazard := store m.hazard f.hpPred (some q.start) },
      { f with place := .load q.start })
  | .load pred => some (m, { f with place := loop pred (m.next pred) })
  | .protect pred curr => some ({ m with hazard := store m.hazard f.hpCurr (some curr) },
      { f with place := .validate pred curr })
  | .validate pred curr =>
    if m.next pred = some curr then some (m, { f with place := .loadNext pred curr })
    else some (m, { f with place := .start })
  | .loadNext pred curr =>
    if m.marked curr then some (m, { f with place := .unlink pred curr (m.next curr) })
    else some (m, { f with place := .compare pred curr (m.next curr) })
  | .unlink pred curr next =>
    match m.cas pred (some curr) next with
    | some m' =>
      if q.reclaims (m.data curr) then
        some (m', { f with place := .reclaim pred next (.make curr) })
      else some (m', { f with place := loop pred next })
    | none => some (m, { f with place := .start })
  | .reclaim pred next r =>
    match r.step spurious m.hazard with
    | some (h, r', freed) =>
      some (Memory.free { m with hazard := h } freed, { f with place := .reclaim pred next r' })
    | none => some (m, { f with place := loop pred next })
  | .compare pred curr next =>
    if q.advance (m.data curr) then some (m, ⟨f.hpCurr, f.hpPred, loop curr next⟩)
    else some (m, { f with place := .result (q.equal (m.data curr)) pred (some curr) })
  | .result _ _ _ => none

/-! ## What a step can do -/

/-- The moves of a search. -/
inductive Find.Move (q : Query δ) (m : Memory ι δ) : Find → Memory ι δ → Find → Prop
  | start (p c) : Move q m ⟨p, c, .start⟩ { m with hazard := store m.hazard p (some q.start) }
      ⟨p, c, .load q.start⟩
  | load (p c pred) : Move q m ⟨p, c, .load pred⟩ m ⟨p, c, loop pred (m.next pred)⟩
  | protect (p c pred curr) : Move q m ⟨p, c, .protect pred curr⟩
      { m with hazard := store m.hazard c (some curr) } ⟨p, c, .validate pred curr⟩
  | valid (p c pred curr) (hv : m.next pred = some curr) :
      Move q m ⟨p, c, .validate pred curr⟩ m ⟨p, c, .loadNext pred curr⟩
  | invalid (p c pred curr) : Move q m ⟨p, c, .validate pred curr⟩ m ⟨p, c, .start⟩
  | loadMarked (p c pred curr) (hm : m.marked curr = true) :
      Move q m ⟨p, c, .loadNext pred curr⟩ m ⟨p, c, .unlink pred curr (m.next curr)⟩
  | loadUnmarked (p c pred curr) (hm : m.marked curr = false) :
      Move q m ⟨p, c, .loadNext pred curr⟩ m ⟨p, c, .compare pred curr (m.next curr)⟩
  | unlink (p c pred curr next) (hn : m.next pred = some curr) (hm : m.marked pred = false)
      (hr : q.reclaims (m.data curr) = true) :
      Move q m ⟨p, c, .unlink pred curr next⟩ { m with next := Function.update m.next pred next }
        ⟨p, c, .reclaim pred next (.make curr)⟩
  | unlinkOnly (p c pred curr next) (hn : m.next pred = some curr) (hm : m.marked pred = false)
      (hr : q.reclaims (m.data curr) = false) :
      Move q m ⟨p, c, .unlink pred curr next⟩ { m with next := Function.update m.next pred next }
        ⟨p, c, loop pred next⟩
  | unlinkFail (p c pred curr next) : Move q m ⟨p, c, .unlink pred curr next⟩ m ⟨p, c, .start⟩
  | reclaim (p c pred next r sp h r' freed) (hs : r.step sp m.hazard = some (h, r', freed)) :
      Move q m ⟨p, c, .reclaim pred next r⟩ (Memory.free { m with hazard := h } freed)
        ⟨p, c, .reclaim pred next r'⟩
  | reclaimed (p c pred next) :
      Move q m ⟨p, c, .reclaim pred next .finished⟩ m ⟨p, c, loop pred next⟩
  | advance (p c pred curr next) (ha : q.advance (m.data curr) = true) :
      Move q m ⟨p, c, .compare pred curr next⟩ m ⟨c, p, loop curr next⟩
  | stop (p c pred curr next) (ha : q.advance (m.data curr) = false) :
      Move q m ⟨p, c, .compare pred curr next⟩ m
        ⟨p, c, .result (q.equal (m.data curr)) pred (some curr)⟩

theorem Find.step_move {q : Query δ} {sp : Bool} {m m' : Memory ι δ} {f f' : Find}
    (hs : f.step q sp m = some (m', f')) : Find.Move q m f m' f' := by
  obtain ⟨p, c, place⟩ := f
  cases place with
  | start => cases hs; exact .start p c
  | load pred => cases hs; exact .load p c pred
  | protect pred curr => cases hs; exact .protect p c pred curr
  | validate pred curr =>
    dsimp only [Find.step] at hs
    split at hs <;> cases hs
    · exact .valid p c pred curr ‹_›
    · exact .invalid p c pred curr
  | loadNext pred curr =>
    dsimp only [Find.step] at hs
    split at hs <;> cases hs
    · exact .loadMarked p c pred curr ‹_›
    · exact .loadUnmarked p c pred curr (by simpa using ‹¬ m.marked curr = true›)
  | unlink pred curr next =>
    dsimp only [Find.step, Memory.cas] at hs
    by_cases hc : m.next pred = some curr ∧ m.marked pred = false
    · rw [if_pos hc] at hs
      dsimp only at hs
      split at hs <;> cases hs
      · exact .unlink p c pred curr next hc.1 hc.2 ‹_›
      · exact .unlinkOnly p c pred curr next hc.1 hc.2 (by simpa using ‹¬ q.reclaims _ = true›)
    · rw [if_neg hc] at hs
      cases hs
      exact .unlinkFail p c pred curr next
  | reclaim pred next r =>
    dsimp only [Find.step] at hs
    split at hs
    · cases hs; exact .reclaim p c pred next r sp _ _ _ ‹_›
    · cases hs
      obtain rfl := Reclaim.step_none ‹_›
      exact .reclaimed p c pred next
  | compare pred curr next =>
    dsimp only [Find.step] at hs
    split at hs <;> cases hs
    · exact .advance p c pred curr next ‹_›
    · exact .stop p c pred curr next (by simpa using ‹¬ q.advance _ = true›)
  | result found pred curr => cases hs

/-- A search claims no slot and gives none back. -/
theorem Find.Move.ids {q : Query δ} {m m' : Memory ι δ} {f f' : Find} (hm : Find.Move q m f m' f') :
    m'.hazard.id = m.hazard.id := by
  cases hm with
  | reclaim p c pred next r sp h r' freed hs =>
    have hid : h.id = m.hazard.id := funext (Reclaim.step_slots hs).1
    cases freed <;> exact hid
  | _ => rfl

end Bonostl.HarrisMichael
