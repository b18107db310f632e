import Bonostl.LockfreeQueue.Fifo

/-!
# The external count of `head`

A `pop` adds one to `head`'s `external_count` before it looks at `tail`. The `pop` that moves `head`
takes the count with it; one that finds the queue empty, or loses its compare-exchange, leaves it
where it is: the first gives nothing back, the second only subtracts from the node's
`internal_count`. So while `head` stays at a node its count grows by one for each `pop` that
`leaves` the node (`drift`), and it is bounded by a constant and the number of operations in
progress only as long as there are few of them (`external_count_iff`). A consumer that polls an
empty queue long enough makes it overflow (`polling_overflows`).
-/

namespace Bonostl.LockfreeQueue

open Interleaving Chain

variable {ι T : Type}

/-! ## Who has counted the node at `head` -/

/-- The node a thread has counted in `pop`, until it leaves the loop or tries again. -/
def Pc.counted : Pc T → Option ℕ
  | .popTail old | .popNext old | .popCas old _ => some old.ptr
  | _ => none

/-- The next step moves `head`. -/
def Pc.moves (s : Shared T) : Pc T → Bool
  | .popCas old _ => s.head = old
  | _ => false

/-- The next step gives up the node at `head`, without moving `head`: the queue is empty, or the
compare-exchange fails. -/
def Pc.leaves (s : Shared T) : Pc T → Bool
  | .popTail old => old.ptr = s.tail.ptr ∧ old.ptr = s.head.ptr
  | .popCas old _ => s.head ≠ old ∧ old.ptr = s.head.ptr
  | _ => false

/-- How many times a `pop` has left the node at `head` since `head` was moved there. -/
def drift : List (Step ι T) → ℕ
  | [] => 0
  | r :: h =>
    let pc := r.pre.loc r.tid
    if pc.moves r.pre.shared then 0
    else drift h + (pc.leaves r.pre.shared).toNat

/-- How many operations are in progress. -/
noncomputable def busy (c : Config ι (Shared T) (Pc T)) : ℕ :=
  threadsIn (fun pc => pc ≠ .idle) c.loc

/-- `head`'s count is at most a constant and the number of operations in progress. -/
def Bounded (bound : ℕ) (c : Config ι (Shared T) (Pc T)) : Prop :=
  c.shared.head.externalCount ≤ bound + busy c

/-! ## Every node is linked with the count 1 -/

/-- What a `push` that tries again may store in a node's `next`. -/
def After.newNext : After T → Option Counted
  | .finish => none
  | .again _ new => some new

/-- What a thread may store in a node's `next`, or in `head`. -/
def Pc.newNext : Pc T → Option Counted
  | .loadTail _ new | .countTail _ new _ | .data _ new _ | .next new _ | .help _ new _
  | .helpNew _ new _ | .popCas _ new => some new
  | .setTail a _ _ _ | .counter _ _ _ (.setTail a _ _) => a.newNext
  | _ => none

/-- Nodes are linked with the count 1. -/
structure CountOne (s : Shared T) (f : ι → Pc T) : Prop where
  next (n x) (hx : s.next n = some x) : x.externalCount = 1
  loc (t x) (hx : (f t).newNext = some x) : x.externalCount = 1

section
variable {s s' : Shared T} {f : ι → Pc T} {t : ι} {pc pc' : Pc T} {k : Choice T}
  {ev : Event (Op T) (Res T)}

theorem Move.next_one (hm : Move s k ev pc s' pc')
    (hn : ∀ n x, s.next n = some x → x.externalCount = 1)
    (hp : ∀ x, pc.newNext = some x → x.externalCount = 1) :
    (∀ n x, s'.next n = some x → x.externalCount = 1) ∧
      ∀ x, pc'.newNext = some x → x.externalCount = 1 := by
  cases hm with
  | newNode d a ha =>
    refine ⟨fun n x hx => ?_, fun x hx => by cases hx; rfl⟩
    by_cases hna : n = a
    · simp [Shared.new, hna] at hx
    · exact hn n x (by simpa [Shared.new, hna] using hx)
  | helpNew d y old a ha =>
    refine ⟨fun n x hx => ?_, fun x hx => by cases hx; exact hp y rfl⟩
    by_cases hna : n = a
    · simp [Shared.new, hna] at hx
    · exact hn n x (by simpa [Shared.new, hna] using hx)
  | next new old hnone | help d new old hnone =>
    refine ⟨fun n x hx => ?_, fun x hx => by first | exact hp x hx | cases hx⟩
    by_cases hna : n = old.ptr
    · subst hna
      obtain rfl : new = x := by simpa using hx
      exact hp new rfl
    · exact hn n x (by simpa [hna] using hx)
  | popNext old y hy => exact ⟨hn, fun x hx => by cases hx; exact hn _ _ hy⟩
  | setTail a cur old new ht => exact ⟨hn, fun x hx => by cases a <;> exact hp x hx⟩
  | retry a cur old new k hk =>
    refine ⟨hn, fun x hx => ?_⟩
    unfold LockfreeQueue.retry at hx
    split at hx
    · exact hp x hx
    · cases a <;> exact hp x hx
  | load n u r | cas n u old r | casZero n u old r | casFail n u old r | delete n u r =>
    exact ⟨hn, fun x hx => by cases r <;> exact hp x hx⟩
  | _ => exact ⟨hn, fun x hx => by first | exact hp x hx | cases hx⟩

theorem counted_after (a : After T) (old : Counted) : (a.resume old).counted = none := by
  cases a <;> rfl

theorem counted_return (n : ℕ) (r : Return T) : (r.resume n).counted = none := by
  cases r <;> rfl

/-- **What a step does to `head`'s count**: it moves `head`, or the count changes as the number of
threads that have counted the node does, and by one for the thread that leaves it. -/
theorem Move.external_count (hm : Move s k ev pc s' pc') :
    (pc.moves s = true ∧ pc = .popCas s.head s'.head ∧ pc' = .popData s.head) ∨
      pc.moves s = false ∧ s'.head.ptr = s.head.ptr ∧
        s'.head.externalCount + (if pc.counted = some s.head.ptr then 1 else 0) =
          s.head.externalCount + (if pc'.counted = some s.head.ptr then 1 else 0) +
            (pc.leaves s).toNat := by
  cases hm with
  | popCas old x hh =>
    subst hh
    exact .inl ⟨by simp [Pc.moves], rfl, rfl⟩
  | countHead old hh =>
    subst hh
    exact .inr ⟨rfl, rfl, by simp [Pc.counted, Pc.leaves]⟩
  | popEmpty old ht =>
    refine .inr ⟨rfl, rfl, ?_⟩
    by_cases he : s.tail.ptr = s.head.ptr <;> simp [Pc.counted, Pc.leaves, ht, he]
  | popTail old ht => exact .inr ⟨rfl, rfl, by simp [Pc.counted, Pc.leaves, ht]⟩
  | popNext old x hn => exact .inr ⟨rfl, rfl, by simp [Pc.counted, Pc.leaves]⟩
  | popCasFail old x hh =>
    refine .inr ⟨by simpa [Pc.moves] using hh, rfl, ?_⟩
    by_cases he : old.ptr = s.head.ptr <;> simp [Pc.counted, Pc.leaves, hh, he]
  | setTail a cur old new ht =>
    exact .inr ⟨rfl, rfl, by rw [counted_after]; simp [Pc.counted, Pc.leaves]⟩
  | retry a cur old new k hk =>
    have hnone : (LockfreeQueue.retry a cur s.tail new).counted = none := by
      unfold LockfreeQueue.retry
      split
      · rfl
      · exact counted_after a s.tail
    exact .inr ⟨rfl, rfl, by rw [hnone]; simp [Pc.counted, Pc.leaves]⟩
  | cas n u old r hc hz | delete n u r =>
    exact .inr ⟨rfl, rfl, by rw [counted_return]; simp [Pc.counted, Pc.leaves, Shared.delete]⟩
  | _ => exact .inr ⟨rfl, rfl, by simp [Pc.counted, Pc.leaves, Shared.new, Shared.delete]⟩
end

/-! ## Runs -/

section
variable [DecidableEq ι] {h : List (Step ι T)} {c : Config ι (Shared T) (Pc T)}
  {ok : List (Step ι T) → Config ι (Shared T) (Pc T) → ι → Choice T → Prop}

/-- How many threads have counted a node. -/
noncomputable def counting (n : ℕ) (f : ι → Pc T) : ℕ := threadsIn (fun pc => pc.counted = some n) f

theorem finite_busy (hr : program.Run ok initial h c) : {t | c.loc t ≠ .idle}.Finite :=
  hr.finite_moved

theorem counting_update (hr : program.Run ok initial h c) (n : ℕ) (t : ι) (pc : Pc T) :
    counting n (Function.update c.loc t pc) + (if (c.loc t).counted = some n then 1 else 0) =
      counting n c.loc + (if pc.counted = some n then 1 else 0) := by
  refine threadsIn_update ((finite_busy hr).subset fun u hu hidle => ?_) t pc
  rw [Set.mem_ofPred_eq, hidle] at hu
  cases hu

/-- Whoever has counted a node is in an operation. -/
theorem counting_le_busy (hr : program.Run ok initial h c) (n : ℕ) : counting n c.loc ≤ busy c := by
  refine Set.ncard_le_ncard (fun u hu hidle => ?_) (finite_busy hr)
  rw [Set.mem_ofPred_eq, hidle] at hu
  cases hu

theorem countOne_run (hr : program.Run ok initial h c) : CountOne c.shared c.loc := by
  refine Program.Run.induction (I := fun _ c => CountOne c.shared c.loc) ?_ ?_ hr
  · exact ⟨fun n x hx => (by cases hx), fun t x hx => (by cases hx)⟩
  · rintro h c t k ev s' pc' - ⟨hn, hl⟩ - hs
    obtain ⟨hn', hp'⟩ := (step_move hs).next_one hn (hl t)
    exact ⟨hn', Config.forall_set (p := fun _ (pc : Pc T) => ∀ x, pc.newNext = some x →
      x.externalCount = 1) hp'
      fun u _ => hl u⟩

omit [DecidableEq ι] in
theorem drift_cons {h : List (Step ι T)} {r : Step ι T} : drift (r :: h) =
    if (r.pre.loc r.tid).moves r.pre.shared then 0
    else drift h + ((r.pre.loc r.tid).leaves r.pre.shared).toNat := rfl

/-- **In every run** `head`'s count is at most what the threads that have counted its node and the
`pop`s that have left it make. -/
theorem external_count_le (hr : program.Run ok initial h c) :
    c.shared.head.externalCount ≤ 1 + drift h + counting c.shared.head.ptr c.loc := by
  induction hr with
  | nil => exact Int.le_add_of_nonneg_right (Int.natCast_nonneg _)
  | @cons h c t k ev s' pc' hrun _ hs ih =>
    have hone := (countOne_run hrun).loc t
    rw [drift_cons]
    rcases (step_move hs).external_count with ⟨hmv, hpc, -⟩ | ⟨hmv, hptr, heq⟩
    · have h1 := hone s'.head (by rw [hpc]; rfl)
      simp only [hmv, if_true, Config.set_shared]
      omega
    · have hcnt := counting_update hrun c.shared.head.ptr t pc'
      simp only [hmv, Config.set, hptr, Bool.false_eq_true, if_false]
      push_cast
      split at heq <;> split at heq <;> simp_all <;> omega

/-- No node's memory is used again. -/
abbrev FreshNodes (_ : List (Step ι T)) (c : Config ι (Shared T) (Pc T)) (t : ι) (k : Choice T) :
    Prop :=
  NoReuse c t k

theorem shape_run (hr : program.Run FreshNodes initial h c) :
    Shape c.shared c.loc ∧ Used c.shared c.loc := by
  refine Program.Run.induction (I := fun _ c => Shape c.shared c.loc ∧ Used c.shared c.loc)
    ⟨shape_initial, used_initial⟩ ?_ hr
  rintro h c t k ev s' pc' - ⟨hS, hU⟩ hnew hs
  have hm := step_move hs
  have hfresh : ∀ a, (c.loc t).Allocates → k = .alloc a → Fresh c.shared c.loc a :=
    fun a ha hk => hU.fresh (hnew a ha hk)
  exact ⟨shape_move hS hm hfresh, used_move hU hS hm hfresh⟩

theorem Pc.Fits.headed {s : Shared T} {pc : Pc T} {n : ℕ} (h : pc.Fits s)
    (hc : pc.counted = some n) :
    Headed s n := by
  cases pc with
  | popTail old =>
    cases hc
    exact h
  | popNext old | popCas old x =>
    cases hc
    exact h.1
  | _ => cases hc

omit [DecidableEq ι] in
/-- Nobody has counted the node that `head` is moved to. -/
theorem counting_moved {x : Counted} {t : ι} (hS : Shape c.shared c.loc)
    (ht : c.loc t = .popCas c.shared.head x) : counting x.ptr c.loc = 0 := by
  have hfit := hS.fits t
  rw [ht] at hfit
  obtain ⟨-, -, hx⟩ := hfit
  obtain ⟨hmem, hne⟩ := hS.next_mem hS.head_mem hx
  have hnone : {u | (c.loc u).counted = some x.ptr} = ∅ := by
    refine Set.eq_empty_of_forall_notMem fun u hu => ?_
    exact hne (((hS.fits u).headed hu).1 hmem)
  unfold counting threadsIn
  rw [hnone, Set.ncard_empty]

omit [DecidableEq ι] in
theorem counting_idle (hidle : ∀ t, c.loc t = .idle) (n : ℕ) : counting n c.loc = 0 := by
  simp [counting, threadsIn, hidle, Pc.counted]

/-- **Without reuse of memory** `head`'s count is just that. -/
theorem external_count_eq (hr : program.Run FreshNodes initial h c) :
    c.shared.head.externalCount = 1 + drift h + counting c.shared.head.ptr c.loc := by
  induction hr with
  | nil =>
    rw [counting_idle fun _ => rfl]
    rfl
  | @cons h c t k ev s' pc' hrun _ hs ih =>
    have hone := (countOne_run hrun).loc t
    rw [drift_cons]
    rcases (step_move hs).external_count with ⟨hmv, hpc, hpc'⟩ | ⟨hmv, hptr, heq⟩
    · have h1 := hone s'.head (by rw [hpc]; rfl)
      have hcnt := counting_update hrun s'.head.ptr t pc'
      rw [counting_moved (shape_run hrun).1 hpc, hpc'] at hcnt
      simp only [hmv, if_true, Config.set, hpc']
      simp only [Pc.counted, reduceCtorEq, if_false] at hcnt
      omega
    · have hcnt := counting_update hrun c.shared.head.ptr t pc'
      simp only [hmv, Config.set, hptr, Bool.false_eq_true, if_false]
      push_cast
      split at heq <;> split at heq <;> simp_all <;> omega

omit [DecidableEq ι] in
theorem Move.popped {s s' : Shared T} {k : Choice T} {ev : Event (Op T) (Res T)} {pc pc' : Pc T}
    {old : Counted} (hm : Move s k ev pc s' pc') (hpc : pc' = .popData old) : s.head = old := by
  cases hm with
  | popCas old' x hh =>
    cases hpc
    exact hh
  | setTail a cur old' new ht => cases a <;> cases hpc
  | retry a cur old' new k hk =>
    unfold LockfreeQueue.retry at hpc
    split at hpc
    · cases hpc
    · cases a <;> cases hpc
  | cas n u old' r hc hz | delete n u r => cases r <;> cases hpc
  | _ => cases hpc

/-- The count a popped node's `internal_count` is given was `head`'s in a state of the run. -/
theorem popped_count (hr : program.Run ok initial h c) {t : ι} {old : Counted}
    (ht : c.loc t = .popData old) :
    ∃ h' c', h' <:+ h ∧ program.Run ok initial h' c' ∧ c'.shared.head = old := by
  induction hr with
  | nil => cases ht
  | @cons h c u k ev s' pc' hrun _ hs ih =>
    by_cases htu : t = u
    · subst htu
      rw [Config.set_loc_self] at ht
      exact ⟨h, c, List.suffix_cons _ _, hrun, (step_move hs).popped ht⟩
    · rw [Config.set_loc_ne c htu] at ht
      obtain ⟨h', c', hsuf, hr', hc'⟩ := ih ht
      exact ⟨h', c', hsuf.trans (List.suffix_cons _ _), hr', hc'⟩

/-- **When the count of `head` is bounded**: as long as a `pop` has left its node fewer than `bound`
times. With no operation in progress it is bounded in no other case. It fits into the `int` as long
as `drift` and the operations in progress do. What `free_external_counter` adds for a popped node,
less two, was the count of `head` in an earlier state, and fits into 30 bits if they did there. -/
theorem external_count_iff (hr : program.Run Program.anyStep initial h c) (bound : ℕ) :
    (drift h < bound → Bounded bound c) ∧
      (program.Run FreshNodes initial h c → (∀ t, c.loc t = .idle) →
        (Bounded bound c ↔ drift h < bound)) ∧
      (drift h + busy c < 2 ^ 31 - 1 → c.shared.head.externalCount < 2 ^ 31) ∧
      ∀ t old, c.loc t = .popData old →
        ∃ h' c', h' <:+ h ∧ program.Run Program.anyStep initial h' c' ∧ c'.shared.head = old ∧
          (drift h' + busy c' ≤ 2 ^ 30 → old.externalCount - 2 < 2 ^ 30) := by
  have hle := external_count_le hr
  have hbusy := counting_le_busy hr c.shared.head.ptr
  refine ⟨fun hd => ?_, fun hr' hidle => ?_, fun hd => by omega, fun t old ht => ?_⟩
  · unfold Bounded
    omega
  · have heq := external_count_eq hr'
    rw [counting_idle hidle] at heq
    have hnone : busy c = 0 := by simp [busy, threadsIn, hidle]
    unfold Bounded
    rw [heq, hnone]
    omega
  · obtain ⟨h', c', hsuf, hr', rfl⟩ := popped_count hr ht
    have hle' := external_count_le hr'
    have hbusy' := counting_le_busy hr' c'.shared.head.ptr
    exact ⟨h', c', hsuf, hr', rfl, fun hd => by omega⟩

/-! ## A consumer that polls -/

/-- `pop` on an empty queue, `n` times. -/
theorem Alone.polls {t : ι} {rs : List (Res T)} {s : Shared T} (ha : Alone t h c rs s .idle)
    (ht : s.tail.ptr = s.head.ptr) (n : ℕ) :
    Alone t h c (List.replicate n (.popped none) ++ rs)
      { s with head := ⟨s.head.externalCount + n, s.head.ptr⟩ } .idle := by
  induction n with
  | zero => simpa using ha
  | succ n ih =>
    have hone := ih.empty ht
    rw [List.replicate_succ]
    simpa [Counted.increase, Int.add_assoc] using hone
end

/-- The queue is new, and one thread calls `pop`. -/
theorem polls_initial (n : ℕ) : ∃ h c, (program (ι := Unit) (T := ℕ)).Run FreshNodes initial h c ∧
    (∀ t, c.loc t = .idle) ∧ returns h = List.replicate n (.popped none) ∧
      c.shared.head.externalCount = 1 + n := by
  have ha : Alone () [] (initial (ι := Unit) (T := ℕ)) [] (initial (ι := Unit)).shared .idle :=
    ⟨[], .nil, nofun, nofun, rfl⟩
  obtain ⟨h, hr, -, -, hret⟩ := ha.polls rfl n
  rw [List.append_nil] at hr hret
  exact ⟨h, _, hr.mono fun _ _ _ _ hok => hok.1, fun _ => rfl, hret, rfl⟩

/-- After three of them the count is 4, so `drift` is 3. -/
theorem external_count_iff_three :
    ∃ h c, (program (ι := Unit) (T := ℕ)).Run FreshNodes initial h c ∧
    Bounded 4 c ∧ ¬ drift h < 3 := by
  obtain ⟨h, c, hr, hidle, -, hcount⟩ := polls_initial 3
  have hnone : busy c = 0 := by simp [busy, threadsIn, hidle]
  refine ⟨h, c, hr, by unfold Bounded; omega, fun hd => ?_⟩
  have hle := (external_count_iff hr.any 3).1 hd
  unfold Bounded at hle
  omega

/-- After `2 ^ 31 - 1` calls that found the queue empty, the `int` has overflowed; and no constant
bounds the count of `head`. -/
theorem polling_overflows :
    (∃ h c, (program (ι := Unit) (T := ℕ)).Run Program.anyStep initial h c ∧
    (∀ t, c.loc t = .idle) ∧
      returns h = List.replicate (2 ^ 31 - 1) (.popped none) ∧
      c.shared.head.externalCount = 2 ^ 31) ∧
    ¬ ∃ bound, ∀ h c, (program (ι := Unit) (T := ℕ)).Run Program.anyStep initial h c →
      (∀ t, c.loc t = .idle) → Bounded bound c := by
  constructor
  · obtain ⟨h, c, hr, hidle, hret, hcount⟩ := polls_initial (2 ^ 31 - 1)
    exact ⟨h, c, hr.any, hidle, hret, hcount.trans (by decide)⟩
  · rintro ⟨bound, hall⟩
    obtain ⟨h, c, hr, hidle, -, hcount⟩ := polls_initial bound
    have hle := hall h c hr.any hidle
    have hnone : busy c = 0 := by simp [busy, threadsIn, hidle]
    unfold Bounded at hle
    omega

end Bonostl.LockfreeQueue
