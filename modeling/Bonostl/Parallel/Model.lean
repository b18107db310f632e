import Bonostl.ThreadPool.Model

/-!
# The parallel algorithms on the default pool

`parallel_find`, `parallel_any_of`, `parallel_for_each`, `parallel_transform`, `parallel_count_if`,
`parallel_merge_sort` and `parallel_quick_sort` share one recursion: a call that is not small
submits one half to the pool, calls itself on the other half, waits for the submitted half by the
helping loop and gets its result. This is the code they run, as far as it decides which tasks are
submitted and how calls end; the values computed are left out, except whether a search has found a
match.

A piece of code is its stack of calls. `ret` says how the call above the top one has just ended. The
user's comparisons, predicates and functions return or throw as the scheduler chooses (`User`), and
so does the division of `std::partition`. The user makes calls on threads of its own and in tasks of
its own, which run on the pool as well. The depth of `parallel_find`, `parallel_any_of` and
`parallel_quick_sort` is 8. A search has its own flag `done`, numbered as the searches begin.
-/

namespace Bonostl.Parallel

open ThreadPool

/-- The algorithms that submit tasks to the pool. -/
inductive Algo where
  | find
  | anyOf
  | forEach
  | transform
  | countIf
  | mergeSort
  | quickSort
  deriving DecidableEq

/-- How a call ends; a search that returns says whether it has found a match. -/
inductive Outcome where
  | returns (found : Bool)
  | throws
  deriving DecidableEq

/-- The range and the depth of a call. -/
structure Args where
  first : ℕ
  last : ℕ
  depth : ℕ
  deriving DecidableEq

/-- A call on the stack, at the place where it is. `sub` is the submitted half. -/
inductive Call where
  | user
  | enter (a : Algo) (r : Args) (flag : ℕ)
  | partition (r : Args) (flag : ℕ)
  | check (a : Algo) (r : Args) (flag : ℕ)
  | submit (a : Algo) (sub direct : Args) (flag : ℕ)
  | direct (a : Algo) (sub flag : ℕ)
  | await (a : Algo) (sub flag : ℕ) (found : Bool)
  | get (a : Algo) (sub flag : ℕ) (found : Bool)
  | merge
  | loop (a : Algo) (i last flag : ℕ)
  | element (a : Algo) (i last flag : ℕ)
  | found (flag : ℕ)
  | sort
  | caught (flag : ℕ)
  deriving DecidableEq

/-- The calls of a task, the last one first, and how the one on top of them has ended. -/
structure Body where
  stack : List Call
  ret : Option Outcome
  deriving DecidableEq

/-- The flags of the searches so far. -/
structure Memory where
  done : ℕ → Bool
  searches : ℕ

/-- What the user's functions do, and which calls the user makes. -/
inductive User where
  | call (a : Algo) (r : Args)
  | submit
  | value (b : Bool)
  | throws
  | divide (p : ℕ)
  deriving DecidableEq

/-- A search stops when its flag is set. -/
def Algo.searches : Algo → Bool
  | .find | .anyOf => true
  | _ => false

/-- The depth a call starts with. -/
def Algo.depth (depth : ℕ) : Algo → ℕ
  | .find | .anyOf | .quickSort => 8
  | _ => depth

/-- The number of elements. -/
def Args.length (r : Args) : ℕ := r.last - r.first

/-- The halves of a range, one level deeper. -/
def Args.lower (r : Args) : Args := ⟨r.first, r.first + r.length / 2, r.depth - 1⟩

/-- The other half of a range. -/
def Args.upper (r : Args) : Args := ⟨r.first + r.length / 2, r.last, r.depth - 1⟩

/-- The call on top returns or throws. -/
def ends (g : Memory) (rest : List Call) (o : Outcome) : Memory × Act Body Outcome :=
  (g, .go ⟨rest, some o⟩)

/-- The call on top goes on at `calls`. -/
def goes (g : Memory) (calls : List Call) : Memory × Act Body Outcome := (g, .go ⟨calls, none⟩)

/-- An exception in a call of `a`; `parallel_find_impl` catches it, sets the flag and throws it
on. -/
def raises (g : Memory) (rest : List Call) (flag : ℕ) : Algo → Memory × Act Body Outcome
  | .find => goes g (.caught flag :: rest)
  | _ => ends g rest .throws

/-- The beginning of a call, up to the first access to something shared. -/
def enter (g : Memory) (rest : List Call) (r : Args) (flag : ℕ) : Algo → Memory × Act Body Outcome
  | .find =>
    if r.length < 50 ∨ r.depth = 0 then goes g (.loop .find r.first r.last flag :: rest)
    else goes g (.check .find r flag :: rest)
  | .anyOf =>
    if r.length = 0 then ends g rest (.returns false)
    else if r.length < 50 ∨ r.depth = 0 then goes g (.loop .anyOf r.first r.last flag :: rest)
    else goes g (.check .anyOf r flag :: rest)
  | .mergeSort =>
    if r.length < 512 ∨ r.depth = 0 then goes g (.sort :: rest)
    else goes g (.submit .mergeSort r.lower r.upper flag :: rest)
  | .quickSort =>
    if r.length = 0 then ends g rest (.returns false)
    else if r.depth = 0 then goes g (.sort :: rest)
    else goes g (.partition r flag :: rest)
  | a =>
    if r.length = 0 then ends g rest (.returns false)
    else if r.length < 50 ∨ r.depth = 0 then goes g (.loop a r.first r.last flag :: rest)
    else goes g (.submit a r.lower r.upper flag :: rest)

/-- `do_sort` after `std::partition` has put `p` elements before the others; the pivot is apart. -/
def divided (g : Memory) (rest : List Call) (r : Args) (flag p : ℕ) : Memory × Act Body Outcome :=
  if p = 0 ∨ p = r.length - 1 then goes g (.sort :: rest)
  else goes g (.submit .quickSort ⟨0, p, r.depth - 1⟩ ⟨p, r.length - 1, r.depth - 1⟩ flag :: rest)

/-- What a call does when the one above it has ended. -/
def resume (g : Memory) (o : Outcome) : List Call → Option (Memory × Act Body Outcome)
  | [] => some (g, .finish o)
  | .user :: rest => some (goes g (.user :: rest))
  | .direct a sub flag :: rest =>
    match o with
    | .returns found => some (goes g (.await a sub flag found :: rest))
    | .throws => some (raises g rest flag a)
  | _ :: _ => none

/-- `async_result.get()`; `parallel_find_impl` does not call it when the direct half has a match. -/
def gets (g : Memory) (rest : List Call) (flag : ℕ) (found : Bool) (o : Outcome) :
    Algo → Memory × Act Body Outcome
  | .find =>
    if found then ends g rest (.returns true)
    else
      match o with
      | .returns b => ends g rest (.returns b)
      | .throws => raises g rest flag .find
  | .mergeSort =>
    match o with
    | .returns _ => goes g (.merge :: rest)
    | .throws => ends g rest .throws
  | _ =>
    match o with
    | .returns b => ends g rest (.returns (b || found))
    | .throws => ends g rest .throws

/-- The next step of a piece of code. -/
def next (x : User) (results : ℕ → Option Outcome) (g : Memory) (f : Body) :
    Option (Memory × Act Body Outcome) :=
  match f.ret, f.stack with
  | some o, stack => resume g o stack
  | none, [] => none
  | none, .user :: rest =>
    match x with
    | .call a r =>
      some (⟨Function.update g.done g.searches false, g.searches + 1⟩,
        .go ⟨.enter a { r with depth := a.depth r.depth } g.searches :: .user :: rest, none⟩)
    | .submit => some (g, .submit ⟨[.user], none⟩ fun _ => ⟨.user :: rest, none⟩)
    | .value b => some (ends g rest (.returns b))
    | .throws => some (ends g rest .throws)
    | .divide _ => none
  | none, .enter a r flag :: rest => some (enter g rest r flag a)
  | none, .partition r flag :: rest =>
    match x with
    | .divide p => if p < r.length then some (divided g rest r flag p) else none
    | .throws => some (ends g rest .throws)
    | _ => none
  | none, .check a r flag :: rest =>
    if g.done flag then some (ends g rest (.returns false))
    else some (goes g (.submit a r.upper r.lower flag :: rest))
  | none, .submit a sub direct flag :: rest =>
    some (g, .submit ⟨[.enter a sub flag], none⟩ fun n =>
      ⟨.enter a direct flag :: .direct a n flag :: rest, none⟩)
  | none, .direct _ _ _ :: _ => none
  | none, .await a sub flag found :: rest =>
    some (g, .wait sub ⟨.get a sub flag found :: rest, none⟩)
  | none, .get a sub flag found :: rest =>
    match results sub with
    | none => none
    | some o => some (gets g rest flag found o a)
  | none, .merge :: rest | none, .sort :: rest =>
    match x with
    | .value _ => some (ends g rest (.returns false))
    | .throws => some (ends g rest .throws)
    | _ => none
  | none, .loop a i last flag :: rest =>
    if i = last ∨ (a.searches ∧ g.done flag) then some (ends g rest (.returns false))
    else some (goes g (.element a i last flag :: rest))
  | none, .element a i last flag :: rest =>
    match x with
    | .value b =>
      if a.searches && b then some (goes g (.found flag :: rest))
      else some (goes g (.loop a (i + 1) last flag :: rest))
    | .throws => some (raises g rest flag a)
    | _ => none
  | none, .found flag :: rest =>
    some (ends { g with done := Function.update g.done flag true } rest (.returns true))
  | none, .caught flag :: rest =>
    some (ends { g with done := Function.update g.done flag true } rest .throws)

/-- The code of the tasks. -/
def code : Code User Body Memory Outcome := ⟨next⟩

/-- A new pool, and users that have made no call. -/
def start {E : Type} (threadCount : ℕ) :
    Interleaving.Config (Thread E) (Shared Body Memory Outcome) (Pc Body) :=
  initial (workers threadCount) (fun _ => ⟨[.user], none⟩) ⟨fun _ => false, 0⟩

end Bonostl.Parallel
