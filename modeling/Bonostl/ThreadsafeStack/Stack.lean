import Bonostl.Interleaving.Guarded

/-!
# `threadsafe_stack` (`threadsafe_stack.hpp`)

Every member function runs under `mutex_`. The steps inside are the calls on `data_`: `empty`, `top`
and `pop` of a `std::stack`, of which the last two are defined only on a stack that is not empty.
`data_` is a list, its top first. `copy` is the copy constructor, which locks the stack it copies
from; the new stack is its result. A value that was moved out of is never read again, so moves are
copies.

The move constructor takes no lock: nobody else may use the stack it moves from, so it has no place
among the operations of several threads.

Out of scope: exceptions of the element's copies and moves.
-/

namespace Bonostl.ThreadsafeStack

open Interleaving Guarded

/-- The operations of the stack. -/
inductive Op (V : Type) where
  | push (new_value : V)
  | pop
  | tryPop
  | empty
  | copy
  deriving DecidableEq

/-- `tried o` is `true` with the value `try_pop` has assigned, or `false` without one. -/
inductive Res (V : Type) where
  | unit
  | popped (o : Option V)
  | tried (o : Option V)
  | bool (b : Bool)
  | stack (data : List V)
  deriving DecidableEq

/-- The two ways to pop: by value, and into a variable of the caller. -/
inductive Form where
  | value
  | ref
  deriving DecidableEq

/-- Where an operation stands between two calls on `data_`. -/
inductive Inside (V : Type) where
  | push (new_value : V)
  | test (f : Form)
  | top (f : Form)
  | drop (f : Form) (result : V)
  | empty
  | copy
  deriving DecidableEq

variable {V : Type}

/-- What `pop` and `try_pop` return for what they have found. -/
def Form.ret : Form → Option V → Res V
  | .value => .popped
  | .ref => .tried

/-- What an operation does first. -/
def enter : Op V → Inside V
  | .push new_value => .push new_value
  | .pop => .test .value
  | .tryPop => .test .ref
  | .empty => .empty
  | .copy => .copy

/-- One call on `data_`. -/
def call : Inside V → List V → Option (List V × (Inside V ⊕ Res V))
  | .push new_value, data => some (new_value :: data, .inr .unit)
  | .test f, data => some (data, if data.isEmpty then .inr (f.ret none) else .inl (.top f))
  | .top _, [] => none
  | .top f, v :: data => some (v :: data, .inl (.drop f v))
  | .drop _ _, [] => none
  | .drop f result, _ :: data => some (data, .inr (f.ret (some result)))
  | .empty, data => some (data, .inr (.bool data.isEmpty))
  | .copy, data => some (data, .inr (.stack data))

/-- The code of the operations, under the mutex. -/
def code : Code (List V) (Inside V) (Op V) (Res V) := ⟨enter, call⟩

/-- The sequential stack. -/
inductive StackSpec : List V → Op V → Res V → List V → Prop
  | push (v : V) (vs : List V) : StackSpec vs (.push v) .unit (v :: vs)
  | pop (v : V) (vs : List V) : StackSpec (v :: vs) .pop (.popped (some v)) vs
  | popEmpty : StackSpec [] .pop (.popped none) []
  | tryPop (v : V) (vs : List V) : StackSpec (v :: vs) .tryPop (.tried (some v)) vs
  | tryPopEmpty : StackSpec [] .tryPop (.tried none) []
  | empty (vs : List V) : StackSpec vs .empty (.bool vs.isEmpty) vs
  | copy (vs : List V) : StackSpec vs .copy (.stack vs) vs

/-- The test, `top` and `pop`, one after the other. -/
theorem ends_pop (f : Form) (v : V) (vs : List V) :
    code.Ends (.test f) (v :: vs) vs (f.ret (some v)) :=
  .next rfl (.next rfl (.last rfl))

theorem ends_popEmpty (f : Form) : (code (V := V)).Ends (.test f) [] [] (f.ret none) :=
  .last rfl

/-- **The code is that of a stack.** -/
theorem code_meets : (code (V := V)).Meets StackSpec fun _ => True := by
  intro data o _
  cases o with
  | push v => exact ⟨_, _, .last rfl, .push v data, trivial⟩
  | pop =>
    cases data with
    | nil => exact ⟨_, _, ends_popEmpty _, .popEmpty, trivial⟩
    | cons v vs => exact ⟨_, _, ends_pop _ v vs, .pop v vs, trivial⟩
  | tryPop =>
    cases data with
    | nil => exact ⟨_, _, ends_popEmpty _, .tryPopEmpty, trivial⟩
    | cons v vs => exact ⟨_, _, ends_pop _ v vs, .tryPop v vs, trivial⟩
  | empty => exact ⟨_, _, .last rfl, .empty data, trivial⟩
  | copy => exact ⟨_, _, .last rfl, .copy data, trivial⟩

/-! ## Values -/

variable {ι : Type}

/-- The value an effect has put on the stack. -/
def pushedBy (e : Effect ι (Op V) (Res V)) : Option V :=
  match e.op with
  | .push v => some v
  | _ => none

/-- The value an effect has taken off. -/
def poppedBy (e : Effect ι (Op V) (Res V)) : Option V :=
  match e.res with
  | .popped o | .tried o => o
  | _ => none

/-- What was pushed has been popped or is left. -/
theorem legal_values {a b : List V} {es : List (Effect ι (Op V) (Res V))}
    (h : Legal StackSpec a es b) :
    (a ++ es.filterMap pushedBy).Perm (es.filterMap poppedBy ++ b) := by
  induction h with
  | nil a => simp
  | @cons a b d e es hs _ ih =>
    obtain ⟨t, o, r⟩ := e
    cases hs with
    | push v => exact List.perm_middle.trans ih
    | pop v | tryPop v => exact List.Perm.cons v ih
    | popEmpty | tryPopEmpty | empty | copy => exact ih

variable [DecidableEq ι]
  {h : List (Rec ι (Members ι (List V)) (Place (Inside V) (Op V) (Res V)) (Op V) (Res V))}
  {c : Config ι (Members ι (List V)) (Place (Inside V) (Op V) (Res V))}

/-- **`threadsafe_stack` is a linearizable stack.** In every run, with any number of threads: the
operations, in the order in which they got `mutex_`, are those of one stack, which is `data_` while
the mutex is free; a copy is the whole stack at that instant; no thread calls `top` or `pop` on an
empty `std::stack`; and the values popped and those left are the values pushed. -/
theorem stack_linearizable (hr : code.program.Run Program.anyStep (Code.initial []) h c) :
    ∃ H : Annotated ι (Config ι (Members ι (List V)) (Place (Inside V) (Op V) (Res V)))
        (Place (Inside V) (Op V) (Res V)) (Op V) (Res V),
      H.map Prod.fst = h.map Rec.whole ∧
      Linearized StackSpec code.settled H (fun u => code.status c (c.loc u)) ∧
      (c.shared.mutex = none → code.settled c = c.shared.data) ∧
      (∀ t b, c.loc t = .inside b → (call b c.shared.data).isSome) ∧
      ((order H).filterMap pushedBy).Perm ((order H).filterMap poppedBy ++ code.settled c) := by
  obtain ⟨H, hH, hlin, hlegal, hfree⟩ := Code.linearizable code_meets trivial hr
  obtain ⟨-, hgo⟩ := Code.keeps_going code_meets trivial hr
  refine ⟨H, hH, hlin, fun hm => (hfree hm).1, fun t b ht => ?_, by simpa using legal_values hlegal⟩
  have hstep := hgo t (by rw [ht]; rfl)
  rw [ht] at hstep
  cases hcall : call b c.shared.data with
  | some x => rfl
  | none =>
    have hnone : code.step b c.shared.data = none := hcall
    simp [Code.threadStep, hnone] at hstep

/-- 1 and 2 are pushed, another thread copies the stack while the first is about to `pop`. -/
theorem stack_linearizable_copy : ∃ h c,
    (code (V := ℕ)).program.Run Program.anyStep (Code.initial (ι := Bool) []) h c ∧
      c.loc false = .done (.popped (some 2)) ∧ c.loc true = .done (.stack [2, 1]) ∧
      c.shared.data = [1] ∧
      ∃ H : Annotated Bool (Config Bool (Members Bool (List ℕ)) (Place (Inside ℕ) (Op ℕ) (Res ℕ)))
          (Place (Inside ℕ) (Op ℕ) (Res ℕ)) (Op ℕ) (Res ℕ),
        H.map Prod.fst = h.map Rec.whole ∧
        ((order H).filterMap pushedBy).Perm ((order H).filterMap poppedBy ++ [1]) := by
  obtain ⟨h, c, hr, hq⟩ := Program.replay_reaches (code (V := ℕ)).program
    (Code.initial (ι := Bool) [])
    ((false, Choice.call (.push 1)) :: List.replicate 4 (false, Choice.run) ++
      (false, Choice.call (.push 2)) :: List.replicate 4 (false, Choice.run) ++
      (false, Choice.call .pop) :: (true, Choice.call .copy) ::
      List.replicate 3 (true, Choice.run) ++
      List.replicate 5 (false, Choice.run))
    (fun _ c => decide (c.loc false = .done (.popped (some 2)) ∧
      c.loc true = .done (.stack [2, 1]) ∧
      c.shared.data = [1] ∧ c.shared.mutex = none)) (by decide)
  obtain ⟨h1, h2, h3, h4⟩ := of_decide_eq_true hq
  obtain ⟨H, hH, -, hfree, -, hperm⟩ := stack_linearizable hr
  rw [hfree h4, h3] at hperm
  exact ⟨h, c, hr, h1, h2, h3, H, hH, hperm⟩

end Bonostl.ThreadsafeStack
