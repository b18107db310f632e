import Bonostl.Interleaving.Program
import Mathlib.Data.BitVec

/-!
# `seqlock` (`seqlock.hpp`)

The protected record has the fields `φ` with values in `V`. A writer constructs a `write_guard`
(`write_mutex_.lock()`, `fetch_add`), writes fields one by one, whichever and as often as it likes
(`Choice.write`), and destroys the guard (`fetch_add`, `unlock`). A reader calls `read_begin`,
copies the fields of `fields` one by one and calls `read_retry`; it does so once (`Op.read`), or in
the loop of the class comment (`Op.loop`):

    do { seq = lock.read_begin(); /* copy data */ } while (lock.read_retry(seq));

`sequence_` is an `unsigned`: `BitVec 32`.

Out of scope: memory orders (every access is sequentially consistent).
-/

namespace Bonostl.Seqlock

open Interleaving

/-- `sequence_`, `write_mutex_` with its owner, and the record the lock protects. -/
structure Shared (ι φ V : Type) where
  sequence : BitVec 32
  writeMutex : Option ι
  record : φ → V

/-- A write section, one read, or the loop of the class comment. -/
inductive Op where
  | write
  | read
  | loop
  deriving DecidableEq

/-- A read returns what `read_retry` said and the copy; the loop returns its last copy. -/
inductive Res (V : Type) where
  | unit
  | read (valid : Bool) (copy : List V)
  | loop (copy : List V)
  deriving DecidableEq

/-- How a reader uses what `read_retry` returns. -/
inductive Reader where
  | once
  | loop
  deriving DecidableEq

/-- Where a thread stands. A reader's copy is kept newest field first. -/
inductive Pc (φ V : Type) where
  | idle
  | lock
  | enter
  | section
  | unlock
  | begin (k : Reader)
  | copy (k : Reader) (start : BitVec 32) (todo : List φ) (copied : List V)
  | done (r : Res V)
  deriving DecidableEq

/-- The scheduler's choice: a call, the next step, or a write to a field inside a write section. -/
inductive Choice (φ V : Type) where
  | call (o : Op)
  | run
  | write (x : φ) (v : V)
  deriving DecidableEq

variable {ι φ V : Type} [DecidableEq φ]

/-- The reader after `read_retry` returned `valid`. -/
def Reader.resume (valid : Bool) (copy : List V) : Reader → Pc φ V
  | .once => .done (.read valid copy)
  | .loop => if valid then .begin .loop else .done (.loop copy)

/-- One step of a thread; `fields` is the order in which readers copy. -/
def step (fields : List φ) (t : ι) (c : Choice φ V) (s : Shared ι φ V) (l : Pc φ V) :
    Option (Event Op (Res V) × Shared ι φ V × Pc φ V) :=
  match l, c with
  | .idle, .call .write => some (.call .write, s, .lock)
  | .idle, .call .read => some (.call .read, s, .begin .once)
  | .idle, .call .loop => some (.call .loop, s, .begin .loop)
  -- write_guard
  | .lock, .run =>
    match s.writeMutex with
    | some _ => none
    | none => some (.tau, { s with writeMutex := some t }, .enter)
  | .enter, .run => some (.tau, { s with sequence := s.sequence + 1 }, .section)
  | .section, .write x v =>
    some (.tau, { s with record := Function.update s.record x v }, .section)
  | .section, .run => some (.tau, { s with sequence := s.sequence + 1 }, .unlock)
  | .unlock, .run => some (.tau, { s with writeMutex := none }, .done .unit)
  -- read_begin, the copy, read_retry
  | .begin k, .run =>
    if s.sequence &&& 1 ≠ 0 then some (.tau, s, .begin k)
    else some (.tau, s, .copy k s.sequence fields [])
  | .copy k start (x :: todo) copied, .run =>
    some (.tau, s, .copy k start todo (s.record x :: copied))
  | .copy k start [] copied, .run =>
    some (.tau, s, k.resume (s.sequence == start) copied.reverse)
  | .done r, .run => some (.ret r, s, .idle)
  | _, _ => none

/-- The threads that use a seqlock. -/
def program (fields : List φ) : Program ι (Shared ι φ V) (Pc φ V) (Choice φ V) Op (Res V) :=
  ⟨step fields⟩

/-- A new lock for a record that holds `ρ`. -/
def initial (ρ : φ → V) : Config ι (Shared ι φ V) (Pc φ V) where
  shared := ⟨0, none, ρ⟩
  loc := fun _ => .idle

/-- A step of a run. -/
abbrev Step (ι φ V : Type) := Rec ι (Shared ι φ V) (Pc φ V) Op (Res V)

/-! ## What a step can do -/

/-- The moves of a thread. -/
inductive Move (fields : List φ) (t : ι) (s : Shared ι φ V) :
    Event Op (Res V) → Pc φ V → Shared ι φ V → Pc φ V → Prop
  | write : Move fields t s (.call .write) .idle s .lock
  | read : Move fields t s (.call .read) .idle s (.begin .once)
  | loop : Move fields t s (.call .loop) .idle s (.begin .loop)
  | lock (hm : s.writeMutex = none) :
      Move fields t s .tau .lock { s with writeMutex := some t } .enter
  | enter : Move fields t s .tau .enter { s with sequence := s.sequence + 1 } .section
  | field (x v) : Move fields t s .tau .section
      { s with record := Function.update s.record x v } .section
  | leave : Move fields t s .tau .section { s with sequence := s.sequence + 1 } .unlock
  | unlock : Move fields t s .tau .unlock { s with writeMutex := none } (.done .unit)
  | beginOdd (k) (hs : s.sequence &&& 1 ≠ 0) : Move fields t s .tau (.begin k) s (.begin k)
  | begin (k) (hs : s.sequence &&& 1 = 0) :
      Move fields t s .tau (.begin k) s (.copy k s.sequence fields [])
  | copy (k start x todo copied) : Move fields t s .tau (.copy k start (x :: todo) copied) s
      (.copy k start todo (s.record x :: copied))
  | retry (k start copied) : Move fields t s .tau (.copy k start [] copied) s
      (k.resume (s.sequence == start) copied.reverse)
  | ret (r) : Move fields t s (.ret r) (.done r) s .idle

theorem step_move {fields : List φ} {t : ι} {c : Choice φ V} {s s' : Shared ι φ V} {l l' : Pc φ V}
    {ev : Event Op (Res V)} (hs : step fields t c s l = some (ev, s', l')) :
    Move fields t s ev l s' l' := by
  unfold step at hs
  split at hs
  all_goals (repeat' split at hs)
  all_goals cases hs
  all_goals (constructor <;> simp_all)

end Bonostl.Seqlock
