import Bonostl.Chain.Linked
import Bonostl.ThreadsafeQueue.Model

/-!
# The chain of `threadsafe_queue`

The nodes from the first one to `tail` are a list `q` (`Shape`). All but `tail` hold a value. A
thread inside `push` or `pop_head` owns one node that is not on the chain: the new one until `tail`
has moved to it, the old head once it is moved out. `push` changes `tail` and the fields of the node
there, `pop_head` changes `head` and the fields of its own node; so what one side knows survives the
steps of the other (`Pc.Fits.frame`), and `head ≠ tail`, once found under `head_mutex_`, stays true
until `head` moves.
-/

namespace Bonostl.ThreadsafeQueue

open Interleaving Chain

variable {ι T : Type}

/-- The thread holds `head_mutex_`. -/
def Pc.holdsHead : Pc T → Bool
  | .getHead _ _ | .lockGet _ _ _ | .getTail _ _ _ | .unlockGet _ _ _ _ | .block _ | .refHead _ _
  | .refData _ _ _ | .readHead _ _ _ | .nullHead _ _ _ _ | .readNext _ _ _ | .nullNext _ _ _ _
  | .setHead _ _ _ _ | .unlockHead _ _ _ | .release _ => true
  | _ => false

/-- The thread holds `tail_mutex_`. -/
def Pc.holdsTail : Pc T → Bool
  | .tailData _ _ | .writeData _ _ _ | .tailNext _ _ | .writeNext _ _ _ | .moveTail _ _
  | .unlockTail _ | .getTail _ _ _ | .unlockGet _ _ _ _ => true
  | _ => false

/-- The node that only this thread accesses. -/
def Pc.owns : Pc T → Option ℕ
  | .lockTail _ n | .tailData _ n | .writeData _ n _ | .tailNext _ n | .writeNext _ n _
  | .moveTail _ n => some n
  | .readNext _ _ old | .nullNext _ _ old _ | .setHead _ _ old _ | .unlockHead _ _ old
  | .takeData _ old | .free old _ => some old
  | _ => none

/-- `pop_head` has moved `head` out and not yet set it. -/
def Pc.nulled : Pc T → Bool
  | .readNext _ _ _ | .nullNext _ _ _ _ | .setHead _ _ _ _ => true
  | _ => false

/-- `push` has stored its value in the tail node. -/
def Pc.filled : Pc T → Bool
  | .tailNext _ _ | .writeNext _ _ _ | .moveTail _ _ => true
  | _ => false

/-- `push` has linked its node behind the tail. -/
def Pc.linked : Pc T → Bool
  | .moveTail _ _ => true
  | _ => false

/-- The link of a node of the queue; the tail node has none, also when the next one is there. -/
def succ (s : Shared ι T) (a : ℕ) : Option ℕ := if a = s.tail then none else s.next a

/-- The value a pop by reference has stored is the one of the node it is going to take. -/
def Read (s : Shared ι T) (v : Option T) (p : ℕ) : Prop := v = none ∨ v = s.data p

/-- What a thread knows, `q` being the nodes of the queue. -/
def Pc.Fits (s : Shared ι T) (q : List ℕ) : Pc T → Prop
  | .lockTail _ n | .tailData _ n => s.data n = none ∧ s.next n = none
  | .writeData _ n p => s.data n = none ∧ s.next n = none ∧ p = s.tail
  | .tailNext v n => s.data n = none ∧ s.next n = none ∧ s.data s.tail = some v
  | .writeNext v n p =>
    s.data n = none ∧ s.next n = none ∧ s.data s.tail = some v ∧ p = s.tail
  | .moveTail v n =>
    s.data n = none ∧ s.next n = none ∧ s.data s.tail = some v ∧ s.next s.tail = some n
  | .lockGet _ _ h | .getTail _ _ h => h = s.head
  | .unlockGet _ _ h p => h = s.head ∧ p = s.tail
  | .refHead qu _ => s.head ≠ some s.tail ∧ qu ≠ .empty
  | .refData qu _ p => s.head = some p ∧ p ≠ s.tail ∧ qu ≠ .empty
  | .readHead qu _ v =>
    s.head ≠ some s.tail ∧ (∀ p, s.head = some p → Read s v p) ∧ qu ≠ .empty
  | .nullHead qu _ v old => s.head = some old ∧ old ≠ s.tail ∧ Read s v old ∧ qu ≠ .empty
  | .readNext _ v old => (s.data old).isSome ∧ Read s v old ∧ s.next old = q.head?
  | .nullNext _ v old nx =>
    (s.data old).isSome ∧ Read s v old ∧ s.next old = some nx ∧ some nx = q.head?
  | .setHead _ v old nx =>
    (s.data old).isSome ∧ Read s v old ∧ s.next old = none ∧ some nx = q.head?
  | .unlockHead _ v old => (s.data old).isSome ∧ Read s v old ∧ s.next old = none
  | .takeData _ old => (s.data old).isSome ∧ s.next old = none
  | .free old _ => s.next old = none
  | .fault => False
  | _ => True

/-- `q` are the nodes of the queue, `tail` the last one. -/
structure Shape (s : Shared ι T) (f : ι → Pc T) (q : List ℕ) : Prop where
  headOwner : ∀ t, (f t).holdsHead ↔ s.headMutex = some t
  tailOwner : ∀ t, (f t).holdsTail ↔ s.tailMutex = some t
  chained : Linked (succ s) q.head? q
  last : q.getLast? = some s.tail
  headed : ∀ a, s.head = some a → q.head? = some a
  nulled : s.head = none → ∃ t, (f t).nulled
  stored : ∀ a ∈ q, a ≠ s.tail → (s.data a).isSome
  alive : ∀ a ∈ q, s.alive a
  owned : ∀ t n, (f t).owns = some n → s.alive n ∧ n ∉ q
  apart : ∀ t u n, (f t).owns = some n → (f u).owns = some n → t = u
  empty : (∀ t, (f t).filled = false) → s.data s.tail = none
  unlinked : (∀ t, (f t).linked = false) → s.next s.tail = none
  fits : ∀ t, (f t).Fits s q

/-- The nodes of the queue after a step. -/
def Pc.advance (q : List ℕ) : Pc T → List ℕ
  | .moveTail _ n => q ++ [n]
  | .nullHead _ _ _ _ => q.tail
  | _ => q

section
variable {s : Shared ι T} {f : ι → Pc T} {q : List ℕ} (h : Shape s f q)
include h

theorem Shape.head_unique {t u : ι} (ht : (f t).holdsHead) (hu : (f u).holdsHead) : t = u :=
  Option.some.inj (((h.headOwner t).mp ht).symm.trans ((h.headOwner u).mp hu))

theorem Shape.tail_unique {t u : ι} (ht : (f t).holdsTail) (hu : (f u).holdsTail) : t = u :=
  Option.some.inj (((h.tailOwner t).mp ht).symm.trans ((h.tailOwner u).mp hu))

theorem Shape.tail_mem : s.tail ∈ q := List.mem_of_getLast? h.last

theorem Shape.head_mem {a : ℕ} (ha : s.head = some a) : a ∈ q :=
  List.mem_of_mem_head? (h.headed a ha)

theorem Shape.nodup : q.Nodup := h.chained.nodup

/-- Nobody owns a node of the queue. -/
theorem Shape.owns_ne {t : ι} {n a : ℕ} (hn : (f t).owns = some n) (ha : a ∈ q) : n ≠ a := by
  rintro rfl
  exact (h.owned t n hn).2 ha
end

theorem Pc.nulled_holdsHead {pc : Pc T} (h : pc.nulled) : pc.holdsHead := by
  cases pc <;> simp_all [Pc.nulled, Pc.holdsHead]

theorem Pc.filled_holdsTail {pc : Pc T} (h : pc.filled) : pc.holdsTail := by
  cases pc <;> simp_all [Pc.filled, Pc.holdsTail]

theorem Pc.linked_filled {pc : Pc T} (h : pc.linked) : pc.filled := by
  cases pc <;> simp_all [Pc.filled, Pc.linked]

/-- **What a thread knows survives** a step of another one that leaves alone the end it has locked,
and the node it owns. -/
theorem Pc.Fits.frame {s s' : Shared ι T} {q q' : List ℕ} {pc : Pc T} (h : pc.Fits s q)
    (htail : pc.holdsTail → s'.tail = s.tail ∧ s'.data s.tail = s.data s.tail ∧
      s'.next s.tail = s.next s.tail)
    (hhead : pc.holdsHead → s'.head = s.head)
    (hne : ∀ p, s.head = some p → p ≠ s.tail → p ≠ s'.tail ∧ s'.data p = s.data p)
    (hnull : pc.nulled → q'.head? = q.head?)
    (hown : ∀ n, pc.owns = some n → s'.data n = s.data n ∧ s'.next n = s.next n) :
    pc.Fits s' q' := by
  cases pc <;>
    simp only [Pc.Fits, Pc.holdsTail, Pc.holdsHead, Pc.nulled, Pc.owns, Read, Option.some.injEq,
      forall_eq', forall_const] at * <;> grind

section
variable (qu : Query) (w eq : Bool)

@[simp] theorem compared_holdsHead : (qu.compared w eq : Pc T).holdsHead = true := by
  rcases qu with (_ | _) | (_ | _) | _ <;> cases eq <;> rfl

@[simp] theorem compared_holdsTail : (qu.compared w eq : Pc T).holdsTail = false := by
  rcases qu with (_ | _) | (_ | _) | _ <;> cases eq <;> rfl

@[simp] theorem compared_owns : (qu.compared w eq : Pc T).owns = none := by
  rcases qu with (_ | _) | (_ | _) | _ <;> cases eq <;> rfl

@[simp] theorem compared_nulled : (qu.compared w eq : Pc T).nulled = false := by
  rcases qu with (_ | _) | (_ | _) | _ <;> cases eq <;> rfl

@[simp] theorem compared_filled : (qu.compared w eq : Pc T).filled = false := by
  rcases qu with (_ | _) | (_ | _) | _ <;> cases eq <;> rfl

@[simp] theorem compared_linked : (qu.compared w eq : Pc T).linked = false := by
  rcases qu with (_ | _) | (_ | _) | _ <;> cases eq <;> rfl
end

/-- A comparison that goes on to a pop has found `head` and `tail` apart. -/
theorem compared_fits {s : Shared ι T} {q : List ℕ} {qu : Query} {w eq : Bool}
    (h : eq = false → s.head ≠ some s.tail) : (qu.compared w eq).Fits s q := by
  rcases qu with (_ | _) | (_ | _) | _ <;> cases eq <;> simp_all [Query.compared, Pc.Fits, Read]

/-! ## One step -/

variable [DecidableEq ι] {s s' : Shared ι T} {f : ι → Pc T} {q : List ℕ} {t : ι} {c : Choice ι T}
  {ev : Event (Op T) (Res T)} {l' : Pc T}

theorem Shape.headOwner_move (h : Shape s f q) (hm : Move t c s ev (f t) s' l') (u : ι) :
    (Function.update f t l' u).holdsHead ↔ s'.headMutex = some u := by
  have hu := h.headOwner u
  have ht := h.headOwner t
  by_cases hut : u = t
  · subst hut
    rw [Function.update_self]
    generalize f u = pc at hm hu
    cases hm with
    | unlockGet => rw [compared_holdsHead]; exact hu
    | _ => simp_all [Pc.holdsHead]
  · rw [Function.update_of_ne hut, hu]
    generalize f t = pc at hm ht
    cases hm <;> simp_all [Pc.holdsHead, Ne.symm hut]

theorem Shape.tailOwner_move (h : Shape s f q) (hm : Move t c s ev (f t) s' l') (u : ι) :
    (Function.update f t l' u).holdsTail ↔ s'.tailMutex = some u := by
  have hu := h.tailOwner u
  have ht := h.tailOwner t
  by_cases hut : u = t
  · subst hut
    rw [Function.update_self]
    generalize f u = pc at hm hu
    cases hm with
    | unlockGet => simp
    | _ => simp_all [Pc.holdsTail]
  · rw [Function.update_of_ne hut, hu]
    generalize f t = pc at hm ht
    cases hm <;> simp_all [Pc.holdsTail, Ne.symm hut]

/-- What a thread owns after a step: what it owned, a new node, or the old head. -/
theorem Move.owns (hm : Move t c s ev (f t) s' l') {n : ℕ} (hn : l'.owns = some n) :
    (f t).owns = some n ∨ (s.alive n = false ∧ s'.alive n = true) ∨
      ((∃ qu w v, f t = .nullHead qu w v n) ∧ s'.alive = s.alive) := by
  generalize f t = pc at hm
  cases hm with
  | unlockGet => simp at hn
  | _ => simp_all [Pc.owns]

/-- Which nodes are freed and made. -/
theorem Move.alive (hm : Move t c s ev (f t) s' l') {n : ℕ} (hn : s.alive n) :
    s'.alive n ∨ (f t).owns = some n ∧ l'.owns = none := by
  generalize f t = pc at hm
  cases hm with
  | newTail v m hc ha =>
    by_cases hnm : n = m
    · subst hnm; simp_all
    · exact .inl (by simpa [hnm] using hn)
  | free old r =>
    by_cases hno : n = old
    · subst hno; exact .inr ⟨rfl, rfl⟩
    · exact .inl (by simpa [hno] using hn)
  | _ => exact .inl hn

/-- The links of the nodes of the queue are written by `moveTail` only. -/
theorem Shape.next_move (h : Shape s f q) (hm : Move t c s ev (f t) s' l') {a : ℕ} (ha : a ∈ q)
    (hne : a ≠ s.tail) : s'.next a = s.next a ∧ s'.data a = s.data a := by
  have hfits := h.fits t
  have howns := fun n hn => h.owns_ne (t := t) (n := n) hn ha
  have hal := h.alive a ha
  generalize f t = pc at hm hfits howns
  cases hm with
  | newTail v n hc hn =>
    have han : a ≠ n := by rintro rfl; simp_all
    simp [han]
  | writeData v n p =>
    obtain ⟨-, -, rfl⟩ := hfits
    simp [hne]
  | writeNext v n p =>
    obtain ⟨-, -, -, rfl⟩ := hfits
    simp [hne]
  | nullNext qu v old nx =>
    have hao := howns old rfl
    simp [Ne.symm hao]
  | _ => simp

/-- What joins the queue is the node `push` has made. -/
theorem mem_advance {pc : Pc T} {a : ℕ} (ha : a ∈ pc.advance q) :
    a ∈ q ∨ ∃ v, pc = .moveTail v a := by
  cases pc with
  | moveTail v n =>
    rcases List.mem_append.mp ha with h | h
    · exact .inl h
    · obtain rfl := List.mem_singleton.mp h
      exact .inr ⟨v, rfl⟩
  | nullHead => exact .inl (List.mem_of_mem_tail ha)
  | _ => exact .inl ha

theorem Move.moveTail_owns (hm : Move t c s ev (f t) s' l') {v : T} {n : ℕ}
    (hf : f t = .moveTail v n) : l'.owns = none := by
  rw [hf] at hm
  cases hm
  rfl

omit [DecidableEq ι] in
/-- The queue begins with the node that `pop_head` takes, and goes on. -/
theorem Shape.nullHead_eq (h : Shape s f q) {qu : Query} {w : Bool} {v : Option T} {old : ℕ}
    (hf : f t = .nullHead qu w v old) : ∃ rest, q = old :: rest ∧ rest.getLast? = some s.tail ∧
      s.next old = rest.head? ∧ Linked (succ s) rest.head? rest := by
  have hfits := h.fits t
  rw [hf] at hfits
  obtain ⟨hhead, hne, -⟩ := hfits
  have hq := h.headed old hhead
  have hl := h.chained
  have hlast := h.last
  cases q with
  | nil => cases hq
  | cons a rest =>
    obtain rfl : a = old := Option.some.inj hq
    have hsucc : succ s a = s.next a := if_neg hne
    refine ⟨rest, rfl, ?_, hsucc.symm.trans hl.2.head_eq, hl.2.head_eq ▸ hl.2⟩
    cases rest with
    | nil => exact absurd (Option.some.inj hlast) hne
    | cons b rest => simpa using hlast

/-- Whoever owns a node after the step: it is alive and not in the queue. -/
theorem Shape.owned_move (h : Shape s f q) (hm : Move t c s ev (f t) s' l') (u : ι) (n : ℕ)
    (hn : (Function.update f t l' u).owns = some n) : s'.alive n ∧ n ∉ (f t).advance q := by
  by_cases hut : u = t
  · subst hut
    rw [Function.update_self] at hn
    have hmove : ∀ v, f u ≠ .moveTail v n := fun v hf => by
      rw [hm.moveTail_owns hf] at hn
      cases hn
    have hnew : n ∉ q → n ∉ (f u).advance q := fun hq ha =>
      (mem_advance ha).elim hq fun ⟨v, hv⟩ => hmove v hv
    rcases hm.owns hn with hold | ⟨hdead, halive⟩ | ⟨⟨qu, w, v, hf⟩, hsame⟩
    · obtain ⟨hal, hq⟩ := h.owned u n hold
      refine ⟨(hm.alive hal).resolve_right fun ⟨_, hno⟩ => ?_, hnew hq⟩
      rw [hno] at hn
      cases hn
    · exact ⟨halive, hnew fun hq => by simp [h.alive n hq] at hdead⟩
    · obtain ⟨rest, rfl, -⟩ := h.nullHead_eq hf
      have hnd := h.nodup
      refine ⟨by rw [hsame]; exact h.alive n (by simp), ?_⟩
      rw [hf]
      exact (List.nodup_cons.mp hnd).1
  · rw [Function.update_of_ne hut] at hn
    obtain ⟨hal, hq⟩ := h.owned u n hn
    refine ⟨(hm.alive hal).resolve_right fun ⟨ht, _⟩ => hut (h.apart u t n hn ht), fun ha => ?_⟩
    rcases mem_advance ha with ha | ⟨v, hv⟩
    · exact hq ha
    · exact hut (h.apart u t n hn (by rw [hv]; rfl))

/-- Nobody takes a node that another thread owns. -/
theorem Shape.owns_new (h : Shape s f q) (hm : Move t c s ev (f t) s' l') {u : ι} {n : ℕ}
    (hl : l'.owns = some n) (hu : (f u).owns = some n) : u = t := by
  obtain ⟨hal, hq⟩ := h.owned u n hu
  rcases hm.owns hl with hold | ⟨hdead, -⟩ | ⟨⟨qu, w, v, hf⟩, -⟩
  · exact h.apart u t n hu hold
  · simp [hal] at hdead
  · obtain ⟨rest, rfl, -⟩ := h.nullHead_eq hf
    exact absurd (by simp) hq

theorem Shape.apart_move (h : Shape s f q) (hm : Move t c s ev (f t) s' l') (u v : ι) (n : ℕ)
    (hu : (Function.update f t l' u).owns = some n)
    (hv : (Function.update f t l' v).owns = some n) : u = v := by
  by_cases hut : u = t
  · subst hut
    by_cases hvt : v = u
    · exact hvt.symm
    · rw [Function.update_self] at hu
      rw [Function.update_of_ne hvt] at hv
      exact (h.owns_new hm hu hv).symm
  · rw [Function.update_of_ne hut] at hu
    by_cases hvt : v = t
    · subst hvt
      rw [Function.update_self] at hv
      exact h.owns_new hm hv hu
    · rw [Function.update_of_ne hvt] at hv
      exact h.apart u v n hu hv

/-- The queue after a step: one chain up to `tail`. -/
theorem Shape.chained_move (h : Shape s f q) (hm : Move t c s ev (f t) s' l') :
    Linked (succ s') ((f t).advance q).head? ((f t).advance q) ∧
      ((f t).advance q).getLast? = some s'.tail := by
  have hnext := fun a ha hne => (h.next_move (a := a) hm ha hne).1
  have hfits := h.fits t
  have howned := h.owned t
  generalize hft : f t = pc at hm hfits howned
  have hstay : s'.tail = s.tail → Linked (succ s') q.head? q ∧ q.getLast? = some s'.tail := by
    intro htail
    refine ⟨h.chained.congr fun a ha => ?_, htail ▸ h.last⟩
    unfold succ
    rw [htail]
    split
    · rfl
    · exact hnext a ha ‹_›
  cases hm with
  | moveTail v n =>
    obtain ⟨-, hn, -, hlink⟩ := hfits
    have hnq := (howned n rfl).2
    obtain ⟨l, rfl⟩ := List.getLast?_eq_some_iff.mp h.last
    have hnd := h.nodup
    have hne : s.tail ≠ n := fun he => hnq (by simp [he])
    have hhead : ((l ++ [s.tail]) ++ [n]).head? = (l ++ [s.tail]).head? := by cases l <;> rfl
    refine ⟨?_, by simp [Pc.advance]⟩
    show Linked _ ((l ++ [s.tail]) ++ [n]).head? ((l ++ [s.tail]) ++ [n])
    rw [hhead, List.append_assoc]
    refine h.chained.splice (fun b hb => ?_) ⟨?_, ?_⟩
    · have hbt : b ≠ s.tail := fun he => List.disjoint_of_nodup_append hnd hb (by simp [he])
      have hbn : b ≠ n := fun he => hnq (by simp [← he, hb])
      simp [succ, hbt, hbn]
    · simp [succ, hne, hlink]
    · simp [succ, Linked]
  | nullHead qu w v old =>
    obtain ⟨rest, rfl, hlast, -, hl⟩ := h.nullHead_eq hft
    exact ⟨hl, hlast⟩
  | _ => exact hstay rfl

theorem Shape.headed_move (h : Shape s f q) (hm : Move t c s ev (f t) s' l') (a : ℕ)
    (ha : s'.head = some a) : ((f t).advance q).head? = some a := by
  have hfits := h.fits t
  have hq := h.headed a
  generalize hft : f t = pc at hm hfits
  cases hm with
  | moveTail v n =>
    have hq := hq ha
    cases q with
    | nil => cases hq
    | cons b q => exact hq
  | nullHead => cases ha
  | setHead qu v old nx =>
    obtain ⟨-, -, -, hnx⟩ := hfits
    exact hnx.symm.trans ha
  | _ => exact hq ha

theorem Shape.nulled_move (h : Shape s f q) (hm : Move t c s ev (f t) s' l') (ha : s'.head = none) :
    ∃ u, (Function.update f t l' u).nulled := by
  have hold := h.nulled
  have hkeep : s.head = none → (f t).nulled = false → ∃ u, (Function.update f t l' u).nulled := by
    intro hs ht
    obtain ⟨u, hu⟩ := hold hs
    have hut : u ≠ t := by rintro rfl; simp [ht] at hu
    exact ⟨u, by rwa [Function.update_of_ne hut]⟩
  generalize hft : f t = pc at hm hkeep
  cases hm with
  | nullHead | readNext | nullNext => exact ⟨t, by simp [Pc.nulled]⟩
  | setHead => cases ha
  | _ => exact hkeep ha rfl

theorem Shape.stored_move (h : Shape s f q) (hm : Move t c s ev (f t) s' l') (a : ℕ)
    (ha : a ∈ (f t).advance q) (hne : a ≠ s'.tail) : (s'.data a).isSome := by
  have hfits := h.fits t
  have hdata := fun ha hne => (h.next_move (a := a) hm ha hne).2
  have hst := h.stored a
  generalize hft : f t = pc at hm hfits ha
  cases hm with
  | moveTail v n =>
    obtain ⟨-, -, hd, -⟩ := hfits
    rcases mem_advance ha with ha | ⟨v', hv⟩
    · by_cases hat : a = s.tail
      · subst hat; simp [hd]
      · exact hst ha hat
    · cases hv; exact absurd rfl hne
  | nullHead => exact hst (List.mem_of_mem_tail ha) hne
  | _ => exact (hdata ha hne).symm ▸ hst ha hne

theorem Shape.alive_move (h : Shape s f q) (hm : Move t c s ev (f t) s' l') (a : ℕ)
    (ha : a ∈ (f t).advance q) : s'.alive a := by
  rcases mem_advance ha with ha | ⟨v, hv⟩
  · exact (hm.alive (h.alive a ha)).resolve_right fun ⟨ho, _⟩ => (h.owned t a ho).2 ha
  · have hal := (h.owned t a (by rw [hv]; rfl)).1
    rw [hv] at hm
    cases hm
    exact hal

/-- The tail node holds no value until `push` stores one there. -/
theorem Shape.empty_move (h : Shape s f q) (hm : Move t c s ev (f t) s' l')
    (hall : ∀ u, (Function.update f t l' u).filled = false) : s'.data s'.tail = none := by
  have hself : l'.filled = false := by simpa using hall t
  have hkeep : (f t).filled = false → s.data s.tail = none := by
    intro ht
    refine h.empty fun u => ?_
    by_cases hut : u = t
    · rwa [hut]
    · simpa [hut] using hall u
  have hfits := h.fits t
  have hal := h.alive _ h.tail_mem
  generalize hft : f t = pc at hm hfits hkeep
  cases hm with
  | moveTail v n => exact hfits.1
  | newTail v n hc hn =>
    have htn : s.tail ≠ n := by rintro rfl; simp [hal] at hn
    simpa [htn] using hkeep rfl
  | writeData | tailNext | writeNext => simp [Pc.filled] at hself
  | _ => exact hkeep rfl

theorem Shape.unlinked_move (h : Shape s f q) (hm : Move t c s ev (f t) s' l')
    (hall : ∀ u, (Function.update f t l' u).linked = false) : s'.next s'.tail = none := by
  have hself : l'.linked = false := by simpa using hall t
  have hkeep : (f t).linked = false → s.next s.tail = none := by
    intro ht
    refine h.unlinked fun u => ?_
    by_cases hut : u = t
    · rwa [hut]
    · simpa [hut] using hall u
  have hfits := h.fits t
  have howns := fun n hn => h.owns_ne (t := t) (n := n) hn h.tail_mem
  have hal := h.alive _ h.tail_mem
  generalize hft : f t = pc at hm hfits hkeep howns
  cases hm with
  | moveTail v n => exact hfits.2.1
  | newTail v n hc hn =>
    have htn : s.tail ≠ n := by rintro rfl; simp [hal] at hn
    simpa [htn] using hkeep rfl
  | writeNext => simp [Pc.linked] at hself
  | nullNext qu v old nx =>
    have hne := howns old rfl
    simpa [hne.symm] using hkeep rfl
  | _ => exact hkeep rfl

/-- What the mover knows after its step. -/
theorem Shape.fits_self (h : Shape s f q) (hm : Move t c s ev (f t) s' l') :
    l'.Fits s' ((f t).advance q) := by
  have hfits := h.fits t
  have howns := fun n hn => h.owns_ne (t := t) (n := n) hn h.tail_mem
  generalize hft : f t = pc at hm hfits howns
  cases hm with
  | newTail v n => exact ⟨Function.update_self .., Function.update_self ..⟩
  | writeData v n p =>
    obtain ⟨hd, hn, rfl⟩ := hfits
    have hne := howns n rfl
    simp [Pc.Fits, hne, hd, hn]
  | writeNext v n p =>
    obtain ⟨hd, hn, hv, rfl⟩ := hfits
    have hne := howns n rfl
    simp [Pc.Fits, hne, hd, hn, hv]
  | unlockGet qu w hd p =>
    obtain ⟨rfl, rfl⟩ := hfits
    exact compared_fits fun he => by simpa using he
  | refHead qu w p hp =>
    refine ⟨hp, fun he => hfits.1 ?_, hfits.2⟩
    rw [hp, he]
  | refData qu w p =>
    obtain ⟨hp, hne, hqu⟩ := hfits
    refine ⟨by simpa [hp] using hne, fun p' hp' => .inr ?_, hqu⟩
    rw [Option.some.inj (hp.symm.trans hp')]
  | readHead qu w v old hp =>
    obtain ⟨hne, hv, hqu⟩ := hfits
    exact ⟨hp, by simpa [hp] using hne, hv old hp, hqu⟩
  | nullHead qu w v old =>
    obtain ⟨rest, rfl, -, hnext, -⟩ := h.nullHead_eq hft
    exact ⟨h.stored old (by simp) hfits.2.1, hfits.2.2.1, hnext⟩
  | readNext qu v old nx hn =>
    obtain ⟨hd, hv, hq⟩ := hfits
    exact ⟨hd, hv, hn, hn.symm.trans hq⟩
  | nullNext qu v old nx =>
    obtain ⟨hd, hv, -, hq⟩ := hfits
    exact ⟨hd, hv, Function.update_self .., hq⟩
  | setHead qu v old nx => exact ⟨hfits.1, hfits.2.1, hfits.2.2.1⟩
  | unlockHead qu old => exact ⟨hfits.1, hfits.2.2⟩
  | unlockRef qu v old => exact hfits.2.2
  | takeData qu old v hd => exact hfits.2
  | _ => simp_all [Pc.Fits]

/-- The node a thread owns is not written by others. -/
theorem Shape.owned_frame (h : Shape s f q) (hm : Move t c s ev (f t) s' l') {u : ι} (hut : u ≠ t)
    {n : ℕ} (hn : (f u).owns = some n) : s'.data n = s.data n ∧ s'.next n = s.next n := by
  obtain ⟨hal, hq⟩ := h.owned u n hn
  have hne : n ≠ s.tail := fun he => hq (he ▸ h.tail_mem)
  have hno := fun ht => hut (h.apart u t n hn ht)
  have hfits := h.fits t
  generalize hft : f t = pc at hm hfits hno
  cases hm with
  | newTail v m hc hm =>
    have hnm : n ≠ m := by rintro rfl; simp [hal] at hm
    simp [hnm]
  | writeData v m p => obtain ⟨-, -, rfl⟩ := hfits; simp [hne]
  | writeNext v m p => obtain ⟨-, -, -, rfl⟩ := hfits; simp [hne]
  | nullNext qu v old nx =>
    have hno : n ≠ old := by rintro rfl; exact hno rfl
    simp [hno]
  | _ => exact ⟨rfl, rfl⟩

/-- What the others know after the step. -/
theorem Shape.fits_other (h : Shape s f q) (hm : Move t c s ev (f t) s' l') {u : ι} (hut : u ≠ t) :
    (f u).Fits s' ((f t).advance q) := by
  have hfits := h.fits t
  have howns := fun n hn => h.owns_ne (t := t) (n := n) hn h.tail_mem
  have hnext := fun a ha hne => h.next_move (a := a) hm ha hne
  have howned := h.owned t
  have htl := fun ht hu => hut (h.tail_unique (t := u) (u := t) ht hu)
  have hhd := fun ht hu => hut (h.head_unique (t := u) (u := t) ht hu)
  refine (h.fits u).frame ?_ ?_ ?_ ?_ ?_
  · intro hu
    have htail := htl hu
    have hal := h.alive _ h.tail_mem
    generalize hft : f t = pc at hm hfits howns htail
    cases hm with
    | newTail v n hc hn =>
      have htn : s.tail ≠ n := by rintro rfl; simp [hal] at hn
      simp [htn]
    | nullNext qu v old nx =>
      have hne := howns old rfl
      simp [hne.symm]
    | writeData | writeNext | moveTail => exact absurd rfl htail
    | _ => exact ⟨rfl, rfl, rfl⟩
  · intro hu
    have hhead := hhd hu
    generalize hft : f t = pc at hm hhead
    cases hm with
    | nullHead | setHead => exact absurd rfl hhead
    | _ => rfl
  · intro p hp hne
    have hpq := h.head_mem hp
    refine ⟨?_, (hnext p hpq hne).2⟩
    generalize hft : f t = pc at hm howned
    cases hm with
    | moveTail v n =>
      rintro rfl
      exact (howned _ rfl).2 hpq
    | _ => exact hne
  · intro hu
    have hhead := hhd (Pc.nulled_holdsHead hu)
    have hq := h.tail_mem
    generalize hft : f t = pc at hhead
    cases pc with
    | nullHead => exact absurd rfl hhead
    | moveTail v n => cases q <;> simp_all [Pc.advance]
    | _ => rfl
  · intro n hn
    exact h.owned_frame hm hut hn

/-- **One step keeps the shape**; `tail` joins the queue and `head` leaves it. -/
theorem Shape.move (h : Shape s f q) (hm : Move t c s ev (f t) s' l') :
    Shape s' (Function.update f t l') ((f t).advance q) where
  headOwner := h.headOwner_move hm
  tailOwner := h.tailOwner_move hm
  chained := (h.chained_move hm).1
  last := (h.chained_move hm).2
  headed := h.headed_move hm
  nulled := h.nulled_move hm
  stored := h.stored_move hm
  alive := h.alive_move hm
  owned := h.owned_move hm
  apart := h.apart_move hm
  empty := h.empty_move hm
  unlinked := h.unlinked_move hm
  fits := fun u => by
    by_cases hut : u = t
    · subst hut; rw [Function.update_self]; exact h.fits_self hm
    · rw [Function.update_of_ne hut]; exact h.fits_other hm hut

omit [DecidableEq ι] in
/-- `head` is there for the thread that holds its mutex, unless it has moved it out itself. -/
theorem Shape.head_some (h : Shape s f q) (hh : (f t).holdsHead) (hn : (f t).nulled = false) :
    ∃ a, s.head = some a := by
  by_contra hnone
  obtain ⟨u, hu⟩ := h.nulled (by simpa [← Option.isSome_iff_exists] using hnone)
  obtain rfl := h.head_unique (Pc.nulled_holdsHead hu) hh
  simp [hn] at hu

omit [DecidableEq ι] in
/-- No step dereferences what it must not. -/
theorem Shape.no_fault (h : Shape s f q) (t : ι) : (f t).faults s = false := by
  have hfits := h.fits t
  have howned := h.owned t
  have htail := h.alive _ h.tail_mem
  have hne : q.head?.isSome := by
    have := h.tail_mem
    cases q <;> simp_all
  have hhead : (f t).holdsHead → (f t).nulled = false → s.head.isNone = false := by
    intro hh hn
    obtain ⟨a, ha⟩ := h.head_some hh hn
    simp [ha]
  generalize hft : f t = pc at hfits howned hhead
  cases pc with
  | writeData v n p => obtain ⟨-, -, rfl⟩ := hfits; simp [Pc.faults, htail]
  | writeNext v n p => obtain ⟨-, -, -, rfl⟩ := hfits; simp [Pc.faults, htail]
  | refHead | readHead => exact hhead rfl rfl
  | refData qu w p =>
    have hpq := h.head_mem hfits.1
    have := h.stored p hpq hfits.2.1
    simp_all [Pc.faults, h.alive p hpq]
  | readNext qu v old =>
    obtain ⟨-, -, hq⟩ := hfits
    have := (howned old rfl).1
    simp_all [Pc.faults]
  | nullNext qu v old nx => simp [Pc.faults, (howned old rfl).1]
  | takeData qu old =>
    have := (howned old rfl).1
    simp_all [Pc.faults, Pc.Fits]
  | free old r =>
    have := (howned old rfl).1
    simp_all [Pc.faults, Pc.Fits]
  | _ => rfl

theorem Shape.move_of_step (h : Shape s f q) (hs : step t c s (f t) = some (ev, s', l')) :
    Move t c s ev (f t) s' l' := by
  rcases step_move hs with hf | ⟨-, hm⟩
  · simp [h.no_fault t] at hf
  · exact hm

omit [DecidableEq ι] in
/-- A new queue has the shape. -/
theorem shape_initial : Shape (initial (ι := ι) (T := T)).shared (initial (ι := ι)).loc [0] where
  headOwner := by simp [initial, Pc.holdsHead]
  tailOwner := by simp [initial, Pc.holdsTail]
  chained := by simp [initial, Linked, succ]
  last := rfl
  headed := by simp [initial]
  nulled := by simp [initial]
  stored := by simp [initial]
  alive := by simp [initial]
  owned := by simp [initial, Pc.owns]
  apart := by simp [initial, Pc.owns]
  empty := by simp [initial]
  unlinked := by simp [initial]
  fits := by simp [initial, Pc.Fits]

end Bonostl.ThreadsafeQueue
