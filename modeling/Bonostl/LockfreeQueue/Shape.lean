import Bonostl.Chain.Linked
import Bonostl.LockfreeQueue.Model

/-!
# The chain of `lockfree_queue`

`chain` is the list of nodes from `head`. In every state `tail` points to its last node or to the
one before (`Shape.tail_mem`, `Shape.tail_next`), a node's `next` is set once, and a thread inside
`push` or `pop` knows where the node stands that it counted a reference to (`Pc.Fits`).

This rests on one thing about the memory: `new` does not return the address of a node on the chain
or of one that a thread still refers to (`Fresh`). Whoever uses `shape_move` has to say why.
-/

namespace Bonostl.LockfreeQueue

open Interleaving Chain

variable {ι T : Type}

/-- The address in a node's `next`. -/
def succ (s : Shared T) (n : ℕ) : Option ℕ := (s.next n).map Counted.ptr

/-- The nodes from `head`. -/
noncomputable def chain (s : Shared T) : List ℕ := nodes (succ s) (some s.head.ptr)

/-- The node a thread has counted through `tail`, until `set_new_tail` is over. -/
@[grind]
def Pc.pushing : Pc T → Option ℕ
  | .data _ _ old | .next _ old | .deleteNext _ old _ | .help _ _ old | .helpNew _ _ old =>
    some old.ptr
  | .setTail _ cur _ _ => some cur
  | .counter n _ _ (.setTail _ _ _) => some n
  | _ => none

/-- The node a thread has counted through `head`, until it gives the reference back. -/
@[grind]
def Pc.popping : Pc T → Option ℕ
  | .popTail old | .popNext old | .popCas old _ | .popData old => some old.ptr
  | .counter _ _ .delete _ => none
  | .counter n _ _ (.pop _) | .counter n _ _ (.value _) => some n
  | _ => none

/-- The node a `push` that tries again has made. -/
@[grind]
def After.made : After T → Option ℕ
  | .finish => none
  | .again _ new => some new.ptr

/-- The node a thread has made and not yet linked. -/
@[grind]
def Pc.made : Pc T → Option ℕ
  | .loadTail _ new | .countTail _ new _ | .data _ new _ | .next new _ | .deleteNext new _ _
  | .help _ new _ => some new.ptr
  | .setTail a _ _ _ | .counter _ _ _ (.setTail a _ _) => a.made
  | _ => none

/-- A thread still refers to `n`. -/
@[grind]
def Pc.Holds (pc : Pc T) (n : ℕ) : Prop := pc.pushing = some n ∨ pc.popping = some n

/-- A thread refers to `n`: it has made it, or counted it. -/
def Pc.Refers (pc : Pc T) (n : ℕ) : Prop := pc.made = some n ∨ pc.Holds n

/-- A step calls `new node`. -/
def Pc.Allocates : Pc T → Prop
  | .newNode _ | .helpNew _ _ _ => True
  | _ => False

/-- What a thread refers to after a step is what it referred to before, an end of the queue, or the
node it has just made. -/
theorem Move.refers {s s' : Shared T} {k : Choice T} {ev : Event (Op T) (Res T)} {pc pc' : Pc T}
    (hm : Move s k ev pc s' pc') {n : ℕ} (hn : pc'.Refers n) :
    pc.Refers n ∨ n = s.tail.ptr ∨ n = s.head.ptr ∨ (pc.Allocates ∧ k = .alloc n) := by
  -- what the step's new place refers to: made, counted through `tail`, counted through `head`
  cases hm with
  | retry a cur old new k hk =>
    unfold LockfreeQueue.retry at hn
    split at hn
    · rename_i he
      subst he
      exact .inl hn
    · cases a <;> rcases hn with hn | hn | hn <;> first | exact .inl (.inl hn) | cases hn
  | setTail a cur old new ht =>
    cases a <;> rcases hn with hn | hn | hn <;> first | exact .inl (.inl hn) | cases hn
  | load n u r | casFail n u old r | casZero n u old r hc hz | cas n u old r hc hz | delete n u r =>
    cases r <;> first | exact .inl hn | (rcases hn with hn | hn | hn <;> cases hn)
  | countTail d new old ht =>
    subst ht
    rcases hn with hn | hn | hn
    · exact .inl (.inl hn)
    · exact .inr (.inl (Option.some.inj hn).symm)
    · cases hn
  | countHead old hh =>
    subst hh
    rcases hn with hn | hn | hn
    · cases hn
    · cases hn
    · exact .inr (.inr (.inl (Option.some.inj hn).symm))
  | newNode d a ha =>
    rcases hn with hn | hn | hn
    · cases hn; exact .inr (.inr (.inr ⟨trivial, rfl⟩))
    · cases hn
    · cases hn
  | helpNew d x old a ha =>
    rcases hn with hn | hn | hn
    · cases hn; exact .inr (.inr (.inr ⟨trivial, rfl⟩))
    · exact .inl (.inr (.inl hn))
    · cases hn
  | next new old hn' | help d new old hn' | deleteNext new old x =>
    rcases hn with hn | hn | hn
    · cases hn
    · exact .inl (.inr (.inl hn))
    · cases hn
  | _ => first | exact .inl hn | (rcases hn with hn | hn | hn <;> cases hn)

/-! ## What a thread knows of its node -/

/-- `tail` has reached `n`: if it is still the last node, `tail` is there. -/
def Reached (s : Shared T) (n : ℕ) : Prop := s.next n = none → s.tail.ptr = n

/-- `head` has reached `n`: it is there, or it has gone on. -/
def Headed (s : Shared T) (n : ℕ) : Prop :=
  (n ∈ chain s → n = s.head.ptr) ∧ (s.next n = none → n = s.head.ptr)

/-- What a `push` in `set_new_tail` knows. -/
@[grind]
def After.Fits : After T → Prop
  | .finish => True
  | .again _ new => new.externalCount = 1

/-- What a thread knows at each place. -/
@[grind]
def Pc.Fits (s : Shared T) : Pc T → Prop
  | .loadTail _ new | .countTail _ new _ => new.externalCount = 1
  | .data _ new old | .next new old | .help _ new old =>
    new.externalCount = 1 ∧ Reached s old.ptr
  | .deleteNext _ old x => s.next old.ptr = some x
  | .helpNew _ x old => x.externalCount = 1 ∧ s.next old.ptr = some x
  | .setTail a cur old new => a.Fits ∧ old.ptr = cur ∧ s.next cur = some new
  | .counter n _ _ (.setTail a old new) => a.Fits ∧ old.ptr = n ∧ s.next n = some new
  | .popTail old => Headed s old.ptr
  | .popNext old => Headed s old.ptr ∧ s.tail.ptr ≠ old.ptr ∧ ∃ x, s.next old.ptr = some x
  | .popCas old x => Headed s old.ptr ∧ s.tail.ptr ≠ old.ptr ∧ s.next old.ptr = some x
  | .counter _ _ .delete _ => True
  | .counter n _ _ (.pop _) => Headed s n ∧ s.tail.ptr ≠ n ∧ ∃ x, s.next n = some x
  | .popData old => old.ptr ∉ chain s ∧ ∃ x, s.next old.ptr = some x
  | .counter n _ _ (.value _) => n ∉ chain s ∧ ∃ x, s.next n = some x
  | _ => True

/-- What a step keeps of what can be known of node `n`. -/
structure Keeps (s s' : Shared T) (n : ℕ) : Prop where
  next : ∀ x, s.next n = some x → s'.next n = some x
  reached : Reached s n → Reached s' n
  headed : Headed s n → Headed s' n
  passed : Headed s n → s.tail.ptr ≠ n → s'.tail.ptr ≠ n
  off : n ∉ chain s → n ∉ chain s'

section
variable {s s' : Shared T} {n : ℕ}

/-- What a thread that reached `popNext` knows of its node. -/
theorem Keeps.past (hk : Keeps s s' n) (h : Headed s n ∧ s.tail.ptr ≠ n ∧ ∃ x, s.next n = some x) :
    Headed s' n ∧ s'.tail.ptr ≠ n ∧ ∃ x, s'.next n = some x := by
  obtain ⟨hh, ht, x, hx⟩ := h
  exact ⟨hk.headed hh, hk.passed hh ht, x, hk.next x hx⟩

theorem Keeps.popped (hk : Keeps s s' n) (h : n ∉ chain s ∧ ∃ x, s.next n = some x) :
    n ∉ chain s' ∧ ∃ x, s'.next n = some x := by
  obtain ⟨ho, x, hx⟩ := h
  exact ⟨hk.off ho, x, hk.next x hx⟩

theorem Pc.Fits.mono {pc : Pc T} (h : pc.Fits s) (hk : ∀ n, pc.Holds n → Keeps s s' n) :
    pc.Fits s' := by
  cases pc with
  | data d new old | next new old | help d new old =>
    exact ⟨h.1, (hk _ (.inl rfl)).reached h.2⟩
  | deleteNext new old x => exact (hk _ (.inl rfl)).next _ h
  | helpNew d x old => exact ⟨h.1, (hk _ (.inl rfl)).next _ h.2⟩
  | setTail a cur old new => exact ⟨h.1, h.2.1, (hk _ (.inl rfl)).next _ h.2.2⟩
  | popTail old => exact (hk _ (.inr rfl)).headed h
  | popNext old => exact (hk _ (.inr rfl)).past h
  | popCas old x =>
    obtain ⟨hh, ht, hx⟩ := h
    exact ⟨(hk _ (.inr rfl)).headed hh, (hk _ (.inr rfl)).passed hh ht, (hk _ (.inr rfl)).next x hx⟩
  | popData old => exact (hk _ (.inr rfl)).popped h
  | counter n u c r =>
    cases r with
    | setTail a old new => exact ⟨h.1, h.2.1, (hk n (.inl rfl)).next _ h.2.2⟩
    | pop old =>
      cases c with
      | delete => trivial
      | _ => exact (hk n (.inr rfl)).past h
    | value res =>
      cases c with
      | delete => trivial
      | _ => exact (hk n (.inr rfl)).popped h
  | _ => exact h
end

theorem Pc.Fits.reached {s : Shared T} {pc : Pc T} {n : ℕ} (h : pc.Fits s)
    (hp : pc.pushing = some n) : Reached s n := by
  have hset : ∀ x, s.next n = some x → Reached s n := fun x hx hnone => by
    rw [hx] at hnone
    cases hnone
  cases pc with
  | data d new old | next new old | help d new old =>
    obtain ⟨-, hr⟩ := h
    rwa [Option.some.inj hp] at hr
  | deleteNext new old x => exact hset x (by rw [← Option.some.inj hp]; exact h)
  | helpNew d x old => exact hset x (by rw [← Option.some.inj hp]; exact h.2)
  | setTail a cur old new => exact hset new (by rw [← Option.some.inj hp]; exact h.2.2)
  | counter m u c r =>
    cases r with
    | setTail a old new => exact hset new (by rw [← Option.some.inj hp]; exact h.2.2)
    | _ => cases hp
  | _ => cases hp

/-! ## The invariant -/

/-- The queue's nodes form a chain with `tail` at its end, and every thread's references fit. -/
structure Shape (s : Shared T) (f : ι → Pc T) : Prop where
  linked : Linked (succ s) (some s.head.ptr) (chain s)
  tail_mem : s.tail.ptr ∈ chain s
  tail_next : ∀ x, s.next s.tail.ptr = some x → s.next x.ptr = none
  next_count : ∀ n x, s.next n = some x → x.externalCount = 1
  fits : ∀ t, (f t).Fits s
  made : ∀ t n, (f t).made = some n → n ∉ chain s ∧ s.next n = none
  made_inj : ∀ t u n, (f t).made = some n → (f u).made = some n → t = u
  made_free : ∀ t u n, (f t).made = some n → ¬ (f u).Holds n

/-- Address `a` is not on the chain and no thread refers to it. -/
def Fresh (s : Shared T) (f : ι → Pc T) (a : ℕ) : Prop :=
  a ∉ chain s ∧ ∀ t, ¬ (f t).Refers a

theorem chain_congr {s s' : Shared T} (hn : s'.next = s.next) (hh : s'.head.ptr = s.head.ptr) :
    chain s' = chain s := by
  unfold chain succ
  rw [hn, hh]

section
variable {s : Shared T} {f : ι → Pc T} (h : Shape s f)
include h

/-- The chain begins with `head`. -/
theorem Shape.chain_eq : ∃ l, chain s = s.head.ptr :: l ∧
    Linked (succ s) (succ s s.head.ptr) l := by
  have hl := h.linked
  cases hc : chain s with
  | nil => rw [hc] at hl; cases hl
  | cons a l =>
    rw [hc] at hl
    obtain ⟨ha, hl⟩ := hl
    obtain rfl := Option.some.inj ha
    exact ⟨l, rfl, hl⟩

theorem Shape.head_mem : s.head.ptr ∈ chain s := by
  obtain ⟨l, hc, -⟩ := h.chain_eq
  simp [hc]

/-- The node behind a node of the chain is on it, and is not `head`. -/
theorem Shape.next_mem {n : ℕ} {x : Counted} (hn : n ∈ chain s) (hx : s.next n = some x) :
    x.ptr ∈ chain s ∧ x.ptr ≠ s.head.ptr := by
  obtain ⟨l₁, l₂, hc, hl⟩ := h.linked.split hn
  have hnd := h.linked.nodup
  obtain ⟨l, hc', -⟩ := h.chain_eq
  have hs : succ s n = some x.ptr := by simp [succ, hx]
  rw [hs] at hl
  cases l₂ with
  | nil => cases hl
  | cons b l₂ =>
    obtain rfl := Option.some.inj hl.1
    refine ⟨by simp [hc], ?_⟩
    rw [hc] at hc' hnd
    cases l₁ with
    | nil => obtain ⟨rfl, -⟩ := List.cons.inj hc'; grind
    | cons d l₁ => obtain ⟨rfl, -⟩ := List.cons.inj hc'; grind

/-! ### The writes -/

/-- `new` at a fresh address. -/
theorem Shape.chain_new {a : ℕ} (ha : Fresh s f a) : chain (s.new a) = chain s :=
  nodes_eq (h.linked.congr fun b hb => by
    have hne : b ≠ a := by rintro rfl; exact ha.1 hb
    simp [succ, Shared.new, hne])

theorem Shape.keeps_new {a : ℕ} (ha : Fresh s f a) {n : ℕ} (hn : n ≠ a) : Keeps s (s.new a) n := by
  have hc := h.chain_new ha
  have hnn : (s.new a).next n = s.next n := by simp [Shared.new, hn]
  constructor
  · rw [hnn]; exact fun _ => id
  · unfold Reached; rw [hnn]; exact id
  · unfold Headed; rw [hc, hnn]; exact id
  · exact fun _ => id
  · rw [hc]; exact id

/-- A node is linked behind the last one. -/
theorem Shape.linked_link {x : Counted} (hn : s.next s.tail.ptr = none) (hx : x.ptr ∉ chain s)
    (hxn : s.next x.ptr = none) :
    Linked (succ { s with next := Function.update s.next s.tail.ptr (some x) })
      (some s.head.ptr) (chain s ++ [x.ptr]) := by
  obtain ⟨l₁, l₂, hc, hl⟩ := h.linked.split h.tail_mem
  have hs : succ s s.tail.ptr = none := by simp [succ, hn]
  rw [hs] at hl
  obtain rfl : l₂ = [] := by
    cases l₂ with
    | nil => rfl
    | cons b l₂ => cases hl.1
  have hlink := h.linked
  rw [hc] at hlink hx ⊢
  have hins := hlink.insert (b := x.ptr) hx (by simp [succ, hn, hxn])
  have he : succ { s with next := Function.update s.next s.tail.ptr (some x) } =
      Function.update (succ s) s.tail.ptr (some x.ptr) := by
    funext b
    by_cases hb : b = s.tail.ptr <;> simp [succ, hb]
  rw [he]
  simpa using hins

theorem Shape.chain_link {x : Counted} (hn : s.next s.tail.ptr = none) (hx : x.ptr ∉ chain s)
    (hxn : s.next x.ptr = none) :
    chain { s with next := Function.update s.next s.tail.ptr (some x) } = chain s ++ [x.ptr] :=
  nodes_eq (h.linked_link hn hx hxn)

theorem Shape.keeps_link {x : Counted} (hn : s.next s.tail.ptr = none) (hx : x.ptr ∉ chain s)
    (hxn : s.next x.ptr = none) {n : ℕ} (hne : n ≠ x.ptr) :
    Keeps s { s with next := Function.update s.next s.tail.ptr (some x) } n := by
  have hc := h.chain_link hn hx hxn
  refine ⟨?_, ?_, ?_, fun _ ht => ht, ?_⟩
  · intro y hy
    have hnt : n ≠ s.tail.ptr := by rintro rfl; rw [hn] at hy; cases hy
    simpa [hnt] using hy
  · intro hr hnone
    by_cases hnt : n = s.tail.ptr
    · exact hnt.symm
    · exact hr (by simpa [hnt] using hnone)
  · rintro ⟨h1, h2⟩
    refine ⟨fun hm => h1 ?_, fun hnone => h2 ?_⟩
    · rw [hc] at hm
      simpa [hne] using hm
    · by_cases hnt : n = s.tail.ptr
      · subst hnt; simp at hnone
      · simpa [hnt] using hnone
  · intro ho
    rw [hc]
    simp [ho, hne]

/-- `tail` goes on to the next node. -/
theorem Shape.keeps_tail {x : Counted} (hx : s.next s.tail.ptr = some x) (n : ℕ) :
    Keeps s { s with tail := x } n := by
  have hc : chain { s with tail := x } = chain s := chain_congr rfl rfl
  refine ⟨fun _ hy => hy, fun hr hnone => ?_, fun hh => ?_, fun hh ht => ?_, by rw [hc]; exact id⟩
  · have he : s.tail.ptr = n := hr hnone
    subst he
    change s.next s.tail.ptr = none at hnone
    rw [hx] at hnone
    cases hnone
  · unfold Headed at hh ⊢
    rw [hc]
    exact hh
  · rintro rfl
    obtain ⟨hm, hne⟩ := h.next_mem h.tail_mem hx
    exact hne (hh.1 hm)

/-- `head` goes on to the next node. -/
theorem Shape.chain_pop {x : Counted} (hx : s.next s.head.ptr = some x) :
    chain s = s.head.ptr :: chain { s with head := x } := by
  obtain ⟨l, hc, hl⟩ := h.chain_eq
  have hs : succ s s.head.ptr = some x.ptr := by simp [succ, hx]
  rw [hs] at hl
  rw [hc]
  have : chain { s with head := x } = l := nodes_eq hl
  rw [this]

theorem Shape.keeps_pop {x : Counted} (hx : s.next s.head.ptr = some x) (n : ℕ) :
    Keeps s { s with head := x } n := by
  have hc := h.chain_pop hx
  have hnd := h.linked.nodup
  rw [hc] at hnd
  refine ⟨fun _ hy => hy, fun hr => hr, fun hh => ⟨fun hm => ?_, fun hnone => ?_⟩, fun _ ht => ht,
    fun ho hm => ho (by rw [hc]; simp [hm])⟩
  · have he : n = s.head.ptr := hh.1 (by rw [hc]; simp [hm])
    subst he
    exact absurd hm (List.nodup_cons.mp hnd).1
  · have he : n = s.head.ptr := hh.2 hnone
    subst he
    change s.next s.head.ptr = none at hnone
    rw [hx] at hnone
    cases hnone
end

/-! ## Every step keeps the shape -/

theorem Keeps.same {s s' : Shared T} (hn : s'.next = s.next) (hh : s'.head.ptr = s.head.ptr)
    (ht : s'.tail.ptr = s.tail.ptr) (n : ℕ) : Keeps s s' n := by
  have hc := chain_congr hn hh
  constructor <;> simp [Reached, Headed, hn, hh, ht, hc]

section
variable [DecidableEq ι] {s s' : Shared T} {f : ι → Pc T} {t : ι} {pc pc' : Pc T} (h : Shape s f)
  (hft : f t = pc)
include h hft

/-- The threads' half of a step of `t`: the others know what they knew, and `t` refers to no node
that is not its own or another thread's private one. -/
theorem Shape.threads (hlinked : Linked (succ s') (some s'.head.ptr) (chain s'))
    (htail : s'.tail.ptr ∈ chain s')
    (htn : ∀ x, s'.next s'.tail.ptr = some x → s'.next x.ptr = none)
    (hcount : ∀ n x, s'.next n = some x → x.externalCount = 1)
    (hkeeps : ∀ u, u ≠ t → ∀ n, (f u).Holds n → Keeps s s' n) (hfit : pc'.Fits s')
    (hmade : ∀ u, u ≠ t → ∀ n, (f u).made = some n → n ∉ chain s' ∧ s'.next n = none)
    (hmine : ∀ n, pc'.made = some n → (n ∉ chain s' ∧ s'.next n = none) ∧
      (pc.made = some n ∨ Fresh s f n))
    (hhold : ∀ n, pc'.Holds n → pc.Holds n ∨ n ∈ chain s)
    (hown : ∀ n, pc'.Holds n → pc'.made ≠ some n) :
    Shape s' (Function.update f t pc') := by
  subst hft
  refine ⟨hlinked, htail, htn, hcount, fun u => ?_, fun u n hu => ?_, fun u v n hu hv => ?_,
    fun u v n hu hv => ?_⟩
  · by_cases hut : u = t
    · subst hut; simpa using hfit
    · simpa [hut] using (h.fits u).mono (hkeeps u hut)
  · by_cases hut : u = t
    · subst hut; exact (hmine n (by simpa using hu)).1
    · exact hmade u hut n (by simpa [hut] using hu)
  · have h1 := h.made_inj
    have h2 : ∀ n, Fresh s f n → ∀ u, (f u).made ≠ some n := fun n hf u hu => hf.2 u (.inl hu)
    by_cases hut : u = t <;> by_cases hvt : v = t <;> grind
  · have h1 := h.made_free
    have h2 := h.made
    have h3 : ∀ n, Fresh s f n → n ∉ chain s ∧ ∀ u, ¬ (f u).Holds n := fun n hf =>
      ⟨hf.1, fun u hu => hf.2 u (.inr hu)⟩
    by_cases hut : u = t <;> by_cases hvt : v = t <;> grind

/-- A step that moves no pointer. -/
theorem Shape.goto (hfit : pc'.Fits s') (hn : s'.next = s.next := by rfl)
    (hh : s'.head.ptr = s.head.ptr := by rfl) (ht : s'.tail.ptr = s.tail.ptr := by rfl)
    (hmade : ∀ n, pc'.made = some n → pc.made = some n := by nofun)
    (hhold : ∀ n, pc'.Holds n → pc.Holds n ∨ n ∈ chain s := by
      exact fun _ hn => hn.elim nofun nofun) :
    Shape s' (Function.update f t pc') := by
  have hc := chain_congr hn hh
  have hs : succ s' = succ s := by unfold succ; rw [hn]
  have hmd : ∀ u n, (f u).made = some n → n ∉ chain s' ∧ s'.next n = none := by
    rw [hc, hn]; exact h.made
  refine h.threads hft ?_ ?_ ?_ ?_ (fun u _ n _ => .same hn hh ht n) hfit (fun u _ => hmd u)
    (fun n hm => ⟨hmd t n (by rw [hft]; exact hmade n hm), .inl (hmade n hm)⟩) hhold ?_
  · rw [hs, hc, hh]; exact h.linked
  · rw [hc, ht]; exact h.tail_mem
  · rw [hn, ht]; exact h.tail_next
  · rw [hn]; exact h.next_count
  · intro n hn' hm
    have hmt : (f t).made = some n := by rw [hft]; exact hmade n hm
    rcases hhold n hn' with h1 | h1
    · exact h.made_free t t n hmt (by rw [hft]; exact h1)
    · exact (h.made t n hmt).1 h1

/-- The next node is linked by the thread that made it. -/
theorem Shape.link {n : ℕ} {x : Counted} (hr : Reached s n) (hn : s.next n = none)
    (hp : pc.pushing = some n) (hx : pc.made = some x.ptr) (hx1 : x.externalCount = 1)
    (hfit : pc'.Fits { s with next := Function.update s.next n (some x) }) (hm : pc'.made = none)
    (hhold : ∀ m, pc'.Holds m → pc.Holds m) :
    Shape { s with next := Function.update s.next n (some x) } (Function.update f t pc') := by
  obtain rfl : s.tail.ptr = n := hr hn
  subst hft
  obtain ⟨hxc, hxn⟩ := h.made t x.ptr hx
  have hc := h.chain_link hn hxc hxn
  have hne : ∀ u m, (f u).Holds m → m ≠ x.ptr := by
    rintro u m hu rfl
    exact h.made_free t u _ hx hu
  have hxt : x.ptr ≠ s.tail.ptr := by
    intro he
    exact hxc (he ▸ h.tail_mem)
  refine h.threads rfl ?_ ?_ ?_ ?_ (fun u _ m hu => h.keeps_link hn hxc hxn (hne u m hu)) hfit ?_
    ?_ (fun m hm => .inl (hhold m hm)) ?_
  · rw [hc]; exact h.linked_link hn hxc hxn
  · rw [hc]; exact List.mem_append_left _ h.tail_mem
  · intro y hy
    obtain rfl : x = y := by simpa using hy
    simp [hxt, hxn]
  · intro m y hy
    by_cases hmt : m = s.tail.ptr
    · subst hmt
      obtain rfl : x = y := by simpa using hy
      exact hx1
    · exact h.next_count m y (by simpa [hmt] using hy)
  · intro u hut m hum
    obtain ⟨h1, h2⟩ := h.made u m hum
    have hmx : m ≠ x.ptr := by
      rintro rfl
      exact hut (h.made_inj u t _ hum hx)
    have hmt : m ≠ s.tail.ptr := by
      rintro rfl
      exact h1 h.tail_mem
    rw [hc]
    exact ⟨by simp [h1, hmx], by simp [hmt, h2]⟩
  · rw [hm]; nofun
  · rw [hm]; nofun

/-- `tail` goes on to the next node. -/
theorem Shape.tail_on {x : Counted} (hx : s.next s.tail.ptr = some x)
    (hfit : pc'.Fits { s with tail := x }) (hmade : ∀ n, pc'.made = some n → pc.made = some n)
    (hhold : ∀ n, ¬ pc'.Holds n) : Shape { s with tail := x } (Function.update f t pc') := by
  have hc : chain { s with tail := x } = chain s := chain_congr rfl rfl
  obtain ⟨hm, -⟩ := h.next_mem h.tail_mem hx
  have hmd : ∀ u n, (f u).made = some n → n ∉ chain { s with tail := x } ∧ s.next n = none := by
    rw [hc]; exact h.made
  refine h.threads hft ?_ ?_ ?_ h.next_count (fun u _ n _ => h.keeps_tail hx n) hfit
    (fun u _ => hmd u) (fun n hm => ⟨hmd t n (by rw [hft]; exact hmade n hm), .inl (hmade n hm)⟩)
    (fun n hn => absurd hn (hhold n)) (fun n hn => absurd hn (hhold n))
  · rw [hc]; exact h.linked
  · rw [hc]; exact hm
  · intro y hy
    have hnone := h.tail_next x hx
    exact absurd (hy.symm.trans hnone) (by simp)

/-- `head` goes on to the next node. -/
theorem Shape.head_on {x : Counted} (hx : s.next s.head.ptr = some x)
    (ht : s.tail.ptr ≠ s.head.ptr) (hfit : pc'.Fits { s with head := x }) (hmade : pc'.made = none)
    (hhold : ∀ n, pc'.Holds n → pc.Holds n) :
    Shape { s with head := x } (Function.update f t pc') := by
  have hc := h.chain_pop hx
  have hlink := h.linked
  rw [hc] at hlink
  have hs : succ s s.head.ptr = some x.ptr := by simp [succ, hx]
  refine h.threads hft ?_ ?_ h.tail_next h.next_count (fun u _ n _ => h.keeps_pop hx n) hfit ?_ ?_
    (fun n hn => .inl (hhold n hn)) ?_
  · have := hlink.2
    rwa [hs] at this
  · have hm := h.tail_mem
    rw [hc] at hm
    simpa [ht] using hm
  · intro u _ n hu
    obtain ⟨h1, h2⟩ := h.made u n hu
    rw [hc] at h1
    exact ⟨fun hm => h1 (by simp [hm]), h2⟩
  · rw [hmade]; nofun
  · rw [hmade]; nofun

/-- `new node`. -/
theorem Shape.new {a : ℕ} (ha : Fresh s f a) (hfit : pc'.Fits (s.new a)) (hmade : pc'.made = some a)
    (hhold : ∀ n, pc'.Holds n → pc.Holds n) : Shape (s.new a) (Function.update f t pc') := by
  have hc := h.chain_new ha
  have hnn : ∀ n, n ≠ a → (s.new a).next n = s.next n := fun n hn => by simp [Shared.new, hn]
  have hna : (s.new a).next a = none := by simp [Shared.new]
  have hht : ∀ u n, (f u).Holds n → n ≠ a := by
    rintro u n hu rfl
    exact ha.2 u (.inr hu)
  have hta : s.tail.ptr ≠ a := by
    rintro rfl
    exact ha.1 h.tail_mem
  refine h.threads hft ?_ ?_ ?_ ?_ (fun u _ n hu => h.keeps_new ha (hht u n hu)) hfit ?_ ?_
    (fun n hn => .inl (hhold n hn)) ?_
  · rw [hc]
    refine h.linked.congr fun b hb => ?_
    have hne : b ≠ a := by rintro rfl; exact ha.1 hb
    simp [succ, hnn b hne]
  · rw [hc]; exact h.tail_mem
  · intro x hx
    have hx' : s.next s.tail.ptr = some x := by rw [← hnn _ hta]; exact hx
    by_cases hxa : x.ptr = a
    · rw [hxa, hna]
    · rw [hnn _ hxa]; exact h.tail_next x hx'
  · intro n x hx
    by_cases hn : n = a
    · rw [hn, hna] at hx; cases hx
    · exact h.next_count n x (by rw [← hnn n hn]; exact hx)
  · intro u _ n hu
    obtain ⟨h1, h2⟩ := h.made u n hu
    have hn : n ≠ a := by rintro rfl; exact ha.2 u (.inl hu)
    rw [hc, hnn n hn]
    exact ⟨h1, h2⟩
  · intro n hn
    obtain rfl : a = n := by simpa [hmade] using hn
    rw [hc, hna]
    exact ⟨⟨ha.1, rfl⟩, .inr ha⟩
  · intro n hn
    rw [hmade]
    have hne := hht t n (by rw [hft]; exact hhold n hn)
    simpa using hne.symm
end

section
variable [DecidableEq ι] {s s' : Shared T} {f : ι → Pc T} {t : ι} {pc' : Pc T} {k : Choice T}
  {ev : Event (Op T) (Res T)}

/-- **Every step keeps the shape**, as long as `new` returns fresh addresses. -/
theorem shape_move (h : Shape s f) (hm : Move s k ev (f t) s' pc')
    (hfresh : ∀ a, (f t).Allocates → k = .alloc a → Fresh s f a) :
    Shape s' (Function.update f t pc') := by
  have hfits := h.fits t
  generalize hft : f t = pc at hm hfits hfresh
  cases hm with
  | push v => exact h.goto hft trivial
  | newValue v a ha => exact h.goto hft trivial
  | newNode d a ha =>
    exact h.new hft (hfresh a trivial rfl) rfl rfl fun n hn => hn.elim nofun nofun
  | loadTail d new => exact h.goto hft hfits rfl rfl rfl fun _ => id
  | countTail d new old ht =>
    subst ht
    exact h.goto hft ⟨hfits, fun _ => rfl⟩ rfl rfl rfl (fun _ => id)
      fun n hn => hn.elim (fun he => .inr (by cases he; exact h.tail_mem)) nofun
  | countTailFail d new old => exact h.goto hft hfits rfl rfl rfl fun _ => id
  | data d new old hd => exact h.goto hft hfits rfl rfl rfl (fun _ => id) fun _ => .inl
  | dataFail d new old hd => exact h.goto hft hfits rfl rfl rfl (fun _ => id) fun _ => .inl
  | next new old hn =>
    exact h.link hft hfits.2 hn rfl rfl hfits.1 ⟨trivial, rfl, by simp⟩ rfl fun _ => id
  | nextFail new old x hn => exact h.goto hft hn rfl rfl rfl (fun _ => id) fun _ => .inl
  | deleteNext new old x => exact h.goto hft ⟨trivial, rfl, hfits⟩ rfl rfl rfl nofun fun _ => .inl
  | help d new old hn =>
    exact h.link hft hfits.2 hn rfl rfl hfits.1 ⟨hfits.1, by simp⟩ rfl fun _ => id
  | helpFail d new old x hn =>
    exact h.goto hft ⟨hfits.1, rfl, hn⟩ rfl rfl rfl (fun _ => id) fun _ => .inl
  | helpNew d x old a ha =>
    have hf := hfresh a trivial rfl
    have hne : old.ptr ≠ a := by
      rintro rfl
      exact hf.2 t (by rw [hft]; exact .inr (.inl rfl))
    exact h.new hft hf ⟨hfits.1, rfl, by simp [Shared.new, hne, hfits.2]⟩ rfl fun _ => id
  | setTail a cur old new ht =>
    obtain ⟨ha, rfl, hn⟩ := hfits
    subst ht
    cases a with
    | finish => exact h.tail_on hft hn trivial nofun fun _ hn => hn.elim nofun nofun
    | again d new' =>
      exact h.tail_on hft hn ha (fun _ => id) fun _ hn => hn.elim nofun nofun
  | retry a cur old new k hk =>
    obtain ⟨ha, rfl, hn⟩ := hfits
    unfold retry
    split
    · rename_i he
      exact h.goto hft ⟨ha, rfl, he ▸ hn⟩ rfl rfl rfl (fun _ => id)
        fun n hn => .inl (hn.imp (fun e => by rw [← he]; exact e) id)
    · cases a with
      | finish => exact h.goto hft trivial
      | again d new' => exact h.goto hft ha rfl rfl rfl (fun _ => id)
  | pop => exact h.goto hft trivial
  | loadHead => exact h.goto hft trivial
  | countHead old hh =>
    subst hh
    exact h.goto hft ⟨fun _ => rfl, fun _ => rfl⟩ rfl rfl rfl nofun
      fun n hn => hn.elim nofun fun he => .inr (by cases he; exact h.head_mem)
  | countHeadFail old => exact h.goto hft trivial
  | popEmpty old ht => exact h.goto hft trivial
  | popTail old ht =>
    refine h.goto hft ⟨hfits, Ne.symm ht, ?_⟩ rfl rfl rfl nofun fun _ => .inl
    cases hx : s.next old.ptr with
    | some x => exact ⟨x, rfl⟩
    | none =>
      -- `tail` is behind `head`, so `head` has a successor
      have he := hfits.2 hx
      obtain ⟨l, hc, hl⟩ := h.chain_eq
      have hs : succ s s.head.ptr = none := by simp [succ, ← he, hx]
      rw [hs] at hl
      cases l with
      | cons b l => cases hl.1
      | nil =>
        have hm := h.tail_mem
        rw [hc, List.mem_singleton] at hm
        exact absurd (he.trans hm.symm) ht
  | popNext old x hn =>
    exact h.goto hft ⟨hfits.1, hfits.2.1, hn⟩ rfl rfl rfl nofun fun _ => .inl
  | popCas old x hh =>
    subst hh
    obtain ⟨-, ht, hx⟩ := hfits
    have hnd := h.linked.nodup
    rw [h.chain_pop hx] at hnd
    exact h.head_on hft hx ht ⟨(List.nodup_cons.mp hnd).1, x, hx⟩ rfl fun _ => id
  | popCasFail old x hh =>
    obtain ⟨h1, h2, h3⟩ := hfits
    exact h.goto hft ⟨h1, h2, x, h3⟩ rfl rfl rfl nofun fun _ => .inl
  | popData old => exact h.goto hft hfits rfl rfl rfl nofun fun _ => .inl
  | popMove d => exact h.goto hft trivial
  | load n u r =>
    cases r <;> exact h.goto hft hfits rfl rfl rfl (fun _ => id) fun _ => .inl
  | cas n u old r hc hz =>
    cases r with
    | setTail a old' new => exact h.goto hft hfits rfl rfl rfl (fun _ => id) fun _ => .inl
    | _ => exact h.goto hft trivial
  | casZero n u old r hc hz =>
    cases r with
    | setTail a old' new => exact h.goto hft hfits rfl rfl rfl (fun _ => id) fun _ => .inl
    | _ => exact h.goto hft trivial
  | casFail n u old r =>
    cases r <;> exact h.goto hft hfits rfl rfl rfl (fun _ => id) fun _ => .inl
  | delete n u r =>
    cases r with
    | setTail a old' new => exact h.goto hft hfits rfl rfl rfl (fun _ => id) fun _ => .inl
    | _ => exact h.goto hft trivial
  | ret r => exact h.goto hft trivial

omit [DecidableEq ι] in
/-- What is on the chain after a step was there before, or is the node just linked. -/
theorem Move.mem_chain (hm : Move s k ev (f t) s' pc') (h : Shape s f)
    (hfresh : ∀ a, (f t).Allocates → k = .alloc a → Fresh s f a) {n : ℕ} (hn : n ∈ chain s') :
    n ∈ chain s ∨ (f t).made = some n := by
  have hfits := h.fits t
  have hmade := h.made t
  generalize f t = pc at hm hfits hfresh hmade
  cases hm with
  | newNode d a ha | helpNew d x old a ha =>
    rw [h.chain_new (hfresh a trivial rfl)] at hn
    exact .inl hn
  | next new old hx | help d new old hx =>
    obtain ⟨hxc, hxn⟩ := hmade new.ptr rfl
    have ht := hfits.2 hx
    rw [← ht] at hn hx
    rw [h.chain_link hx hxc hxn] at hn
    rcases List.mem_append.mp hn with hn | hn
    · exact .inl hn
    · exact .inr (by rw [List.mem_singleton.mp hn]; rfl)
  | popCas old x hh =>
    subst hh
    rw [h.chain_pop hfits.2.2]
    exact .inl (List.mem_cons_of_mem _ hn)
  | countHead old hh => subst hh; exact .inl hn
  | _ => exact .inl hn

omit [DecidableEq ι] in
theorem shape_initial : Shape (initial (ι := ι) (T := T)).shared (initial (ι := ι)).loc := by
  have hl : Linked (succ (initial (ι := ι) (T := T)).shared) (some 0) [0] := ⟨rfl, rfl⟩
  have hc : chain (initial (ι := ι) (T := T)).shared = [0] := nodes_eq hl
  refine ⟨?_, ?_, nofun, nofun, fun _ => trivial, nofun, nofun, nofun⟩
  · rw [hc]; exact hl
  · rw [hc]; exact List.mem_singleton_self 0
end

end Bonostl.LockfreeQueue
