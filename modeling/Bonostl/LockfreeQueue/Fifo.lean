import Bonostl.Interleaving.Linearizable
import Bonostl.LockfreeQueue.Shape

/-!
# `lockfree_queue` is a FIFO queue

`contents` is the list of values from `head` up to `tail`. A `push` takes effect when `tail` leaves
the node its value was put in, by whichever thread moves it; a `pop` when it moves `head`, or when
it finds `tail` at the node it counted.

`pop` sets `data` back to null. A `push` that counted the node before and comes late then finds an
empty node that has left the queue, and puts its value there. `PushesOnLast` says that no step of a
run does this; `queue_fifo` is about such runs, and `late_push_lost` is one that is not such.
-/

namespace Bonostl.LockfreeQueue

open Interleaving Chain

variable {ι T : Type}

/-- Node memory is never used again: `new node` returns an address that has not held a node. -/
def NoReuse (c : Config ι (Shared T) (Pc T)) (t : ι) (k : Choice T) : Prop :=
  ∀ a, (c.loc t).Allocates → k = .alloc a → c.shared.used a = false

/-- A compare-exchange of `push` on an empty `data` finds a node that has no successor yet. -/
def OnLast (c : Config ι (Shared T) (Pc T)) (t : ι) : Prop :=
  ∀ d new old, c.loc t = .data d new old → c.shared.data old.ptr = none →
    c.shared.next old.ptr = none

/-- The steps of the runs in which no value is lost. -/
def PushesOnLast (_ : List (Step ι T)) (c : Config ι (Shared T) (Pc T)) (t : ι) (k : Choice T) :
    Prop :=
  NoReuse c t k ∧ OnLast c t

/-! ## Where values are -/

/-- The node that holds the value of a `push` which is in `set_new_tail`. -/
@[grind]
def After.placed (n : ℕ) : After T → Option ℕ
  | .finish => some n
  | .again _ _ => none

/-- The node a thread has put its value in, until `push` is over. -/
@[grind]
def Pc.placed : Pc T → Option ℕ
  | .next _ old | .deleteNext _ old _ => some old.ptr
  | .setTail a cur _ _ => a.placed cur
  | .counter n _ _ (.setTail a _ _) => a.placed n
  | _ => none

/-- The node a thread has taken from the queue, until it takes the value out. -/
@[grind]
def Pc.won : Pc T → Option ℕ
  | .popData old => some old.ptr
  | _ => none

/-- Nodes that the queue or a thread refers to have been in use. -/
def Used (s : Shared T) (f : ι → Pc T) : Prop :=
  ∀ n, n ∈ chain s ∨ (∃ t, (f t).Refers n) → s.used n = true

/-- Which nodes hold a value. -/
structure Filled (s : Shared T) (f : ι → Pc T) : Prop where
  full : ∀ n ∈ chain s, s.next n ≠ none → s.data n ≠ none
  new : ∀ x, s.next s.tail.ptr = some x → s.data x.ptr = none
  made : ∀ t n, (f t).made = some n → s.data n = none
  placed : ∀ t n, (f t).placed = some n → s.tail.ptr = n → s.data n ≠ none
  placed_inj : ∀ t u n, (f t).placed = some n → (f u).placed = some n → t = u
  owner : s.data s.tail.ptr ≠ none → ∃ t, (f t).placed = some s.tail.ptr
  helps : ∀ t d new old, f t = .help d new old → s.next old.ptr = none → s.data old.ptr ≠ none
  won : ∀ t n, (f t).won = some n → s.data n ≠ none
  won_inj : ∀ t u n, (f t).won = some n → (f u).won = some n → t = u

theorem Pc.placed_pushing {pc : Pc T} {n : ℕ} (h : pc.placed = some n) : pc.pushing = some n := by
  cases pc with
  | setTail a cur old new => cases a <;> simp_all [Pc.placed, Pc.pushing, After.placed]
  | counter m u c r =>
    cases r with
    | setTail a old new => cases a <;> simp_all [Pc.placed, Pc.pushing, After.placed]
    | _ => cases h
  | next new old | deleteNext new old x => exact h
  | _ => cases h

theorem Pc.won_popping {pc : Pc T} {n : ℕ} (h : pc.won = some n) : pc.popping = some n := by
  cases pc <;> first | exact h | cases h

section
variable [DecidableEq ι] {s s' : Shared T} {f : ι → Pc T} {t : ι} {pc pc' : Pc T}

/-- A step that writes no `data`, `next` or `tail`. -/
theorem Filled.goto (hF : Filled s f) (hft : f t = pc) (hc : ∀ n ∈ chain s', n ∈ chain s)
    (hd : s'.data = s.data) (hn : s'.next = s.next) (ht : s'.tail.ptr = s.tail.ptr)
    (hmade : ∀ n, pc'.made = some n → pc.made = some n)
    (hplaced : pc'.placed = pc.placed ∨ pc'.placed = none ∧ pc.placed ≠ some s.tail.ptr)
    (hhelp : ∀ d new old, pc' = .help d new old → s.data old.ptr ≠ none)
    (hwon : ∀ n, pc'.won = some n → s.data n ≠ none ∧ ∀ u, (f u).won ≠ some n) :
    Filled s' (Function.update f t pc') := by
  subst hft
  obtain ⟨h1, h2, h3, h4, h5, h6, h7, h8, h9⟩ := hF
  refine ⟨?_, ?_, ?_, ?_, ?_, ?_, ?_, ?_, ?_⟩
  · rw [hn, hd]; exact fun n hm => h1 n (hc n hm)
  · rw [hn, hd, ht]; exact h2
  · rw [hd]; intro u n hu; by_cases hut : u = t <;> grind
  · rw [hd, ht]; intro u n hu; by_cases hut : u = t <;> grind
  · intro u v n hu hv; by_cases hut : u = t <;> by_cases hvt : v = t <;> grind
  · rw [hd, ht]; intro hne; obtain ⟨u, hu⟩ := h6 hne
    exact ⟨u, by by_cases hut : u = t <;> grind⟩
  · rw [hd, hn]; intro u d new old hu; by_cases hut : u = t <;> grind
  · rw [hd]; intro u n hu; by_cases hut : u = t <;> grind
  · intro u v n hu hv; by_cases hut : u = t <;> by_cases hvt : v = t <;> grind

variable (hF : Filled s f) (hS : Shape s f)
include hF hS

/-- A value is put in the last node. -/
theorem Filled.place {d : Object T} {new old : Counted} (hft : f t = .data d new old)
    (hd : s.data old.ptr = none) (hn : s.next old.ptr = none) :
    Filled { s with data := Function.update s.data old.ptr (some d) }
      (Function.update f t (.next new old)) := by
  have hfits := hS.fits t
  rw [hft] at hfits
  have ht : s.tail.ptr = old.ptr := hfits.2 hn
  have hheld : (f t).Holds old.ptr := by rw [hft]; exact .inl rfl
  have hfree : ∀ u n, (f u).made = some n → n ≠ old.ptr := by
    rintro u n hu rfl
    exact hS.made_free u t _ hu hheld
  have hmt : (f t).made = some new.ptr := by rw [hft]; rfl
  obtain ⟨h1, h2, h3, h4, h5, h6, h7, h8, h9⟩ := hF
  have hcd : chain { s with data := Function.update s.data old.ptr (some d) } = chain s :=
    chain_congr rfl rfl
  refine ⟨?_, ?_, ?_, ?_, ?_, ?_, ?_, ?_, ?_⟩
  · intro n hm hne
    by_cases hno : n = old.ptr
    · simp [hno]
    · simpa [hno] using h1 n (hcd ▸ hm) hne
  · intro x hx
    rw [ht, hn] at hx
    cases hx
  · intro u n hu
    have hu' : (f u).made = some n := by
      by_cases hut : u = t
      · subst hut; rw [hmt]; simpa [Pc.made] using hu
      · simpa [hut] using hu
    simpa [hfree u n hu'] using h3 u n hu'
  · intro u n _ htn
    obtain rfl : old.ptr = n := ht.symm.trans htn
    simp
  · -- another thread's value would be in the node
    have hno : ∀ u, (f u).placed ≠ some old.ptr := fun u hu => h4 u _ hu ht hd
    have hpt : (f t).placed = none := by rw [hft]; rfl
    intro u v n hu hv
    by_cases hut : u = t <;> by_cases hvt : v = t <;> grind
  · exact fun _ => ⟨t, by simp [ht, Pc.placed]⟩
  · intro u d' new' old' hu hnone
    by_cases hno : old'.ptr = old.ptr
    · simp [hno]
    · have hut : u ≠ t := by rintro rfl; simp at hu
      simpa [hno] using h7 u d' new' old' (by simpa [hut] using hu) hnone
  · intro u n hu
    have hut : u ≠ t := by rintro rfl; simp [Pc.won] at hu
    by_cases hno : n = old.ptr
    · simp [hno]
    · simpa [hno] using h8 u n (by simpa [hut] using hu)
  · intro u v n hu hv
    have hut : u ≠ t := by rintro rfl; simp [Pc.won] at hu
    have hvt : v ≠ t := by rintro rfl; simp [Pc.won] at hv
    exact h9 u v n (by simpa [hut] using hu) (by simpa [hvt] using hv)

/-- The next node is linked behind one that holds a value. -/
theorem Filled.link {n : ℕ} {x : Counted} (hft : f t = pc) (hr : Reached s n)
    (hn : s.next n = none) (hx : pc.made = some x.ptr) (hd : s.data n ≠ none)
    (hm : pc'.made = none) (hplaced : pc'.placed = pc.placed)
    (hhelp : ∀ d new old, pc' ≠ .help d new old) (hwon : pc'.won = none) :
    Filled { s with next := Function.update s.next n (some x) } (Function.update f t pc') := by
  obtain rfl : s.tail.ptr = n := hr hn
  subst hft
  obtain ⟨hxc, hxn⟩ := hS.made t x.ptr hx
  have hc := hS.chain_link hn hxc hxn
  obtain ⟨h1, h2, h3, h4, h5, h6, h7, h8, h9⟩ := hF
  refine ⟨?_, ?_, ?_, ?_, ?_, ?_, ?_, ?_, ?_⟩
  · intro m hmem hne
    rw [hc] at hmem
    by_cases hmt : m = s.tail.ptr
    · rw [hmt]; exact hd
    · rcases List.mem_append.mp hmem with hmem | hmem
      · exact h1 m hmem (by simpa [hmt] using hne)
      · obtain rfl := List.mem_singleton.mp hmem
        simp [hmt, hxn] at hne
  · intro y hy
    obtain rfl : x = y := by simpa using hy
    exact h3 t _ hx
  · intro u m hu; by_cases hut : u = t <;> grind
  · intro u m hu; by_cases hut : u = t <;> grind
  · intro u v m hu hv; by_cases hut : u = t <;> by_cases hvt : v = t <;> grind
  · intro hne
    obtain ⟨u, hu⟩ := h6 hne
    exact ⟨u, by by_cases hut : u = t <;> grind⟩
  · intro u d new old hu hnone
    have hut : u ≠ t := by rintro rfl; exact hhelp d new old (by simpa using hu)
    have hot : old.ptr ≠ s.tail.ptr := by intro he; simp [he] at hnone
    exact h7 u d new old (by simpa [hut] using hu) (by simpa [hot] using hnone)
  · intro u m hu; by_cases hut : u = t <;> grind
  · intro u v m hu hv; by_cases hut : u = t <;> by_cases hvt : v = t <;> grind

/-- `tail` goes on to the next node, which is empty. -/
theorem Filled.tail_on {x : Counted} (hft : f t = pc) (hx : s.next s.tail.ptr = some x)
    (hmade : ∀ n, pc'.made = some n → pc.made = some n) (hplaced : pc'.placed = none)
    (hhelp : ∀ d new old, pc' ≠ .help d new old) (hwon : pc'.won = none) :
    Filled { s with tail := x } (Function.update f t pc') := by
  subst hft
  have hc : chain { s with tail := x } = chain s := chain_congr rfl rfl
  have hxn := hS.tail_next x hx
  have hne : s.tail.ptr ≠ x.ptr := by
    intro he
    rw [← he, hx] at hxn
    cases hxn
  -- nobody has put a value in a node that `tail` has not reached
  have hno : ∀ u, (f u).placed ≠ some x.ptr := by
    intro u hu
    exact hne ((hS.fits u).reached (Pc.placed_pushing hu) hxn)
  obtain ⟨h1, h2, h3, h4, h5, h6, h7, h8, h9⟩ := hF
  have hdx := h2 x hx
  refine ⟨?_, ?_, ?_, ?_, ?_, ?_, ?_, ?_, ?_⟩
  · rw [hc]; exact h1
  · intro y hy
    exact absurd (hy.symm.trans hxn) (by simp)
  · intro u m hu; by_cases hut : u = t <;> grind
  · intro u m hu; by_cases hut : u = t <;> grind
  · intro u v m hu hv; by_cases hut : u = t <;> by_cases hvt : v = t <;> grind
  · exact fun hne => absurd hdx hne
  · intro u d new old hu; by_cases hut : u = t <;> grind
  · intro u m hu; by_cases hut : u = t <;> grind
  · intro u v m hu hv; by_cases hut : u = t <;> by_cases hvt : v = t <;> grind

/-- `pop` takes the value out of the node it has won. -/
theorem Filled.take {old : Counted} (hft : f t = .popData old) (hpl : pc'.placed = none)
    (hm : pc'.made = none) (hw : pc'.won = none) (hh : ∀ d new old, pc' ≠ .help d new old) :
    Filled { s with data := Function.update s.data old.ptr none } (Function.update f t pc') := by
  have hfits := hS.fits t
  rw [hft] at hfits
  obtain ⟨hoff, x, hx⟩ := hfits
  have hcd : chain { s with data := Function.update s.data old.ptr none } = chain s :=
    chain_congr rfl rfl
  have htail : s.tail.ptr ≠ old.ptr := by
    intro he
    exact hoff (he ▸ hS.tail_mem)
  obtain ⟨h1, h2, h3, h4, h5, h6, h7, h8, h9⟩ := hF
  have hwt : (f t).won = some old.ptr := by rw [hft]; rfl
  have hpt : (f t).placed = none := by rw [hft]; rfl
  refine ⟨?_, ?_, ?_, ?_, ?_, ?_, ?_, ?_, ?_⟩
  · intro n hmem hne
    have hno : n ≠ old.ptr := by rintro rfl; exact hoff (hcd ▸ hmem)
    simpa [hno] using h1 n (hcd ▸ hmem) hne
  · intro y hy
    by_cases hyo : y.ptr = old.ptr
    · simp [hyo]
    · simpa [hyo] using h2 y hy
  · intro u n hu
    by_cases hno : n = old.ptr
    · simp [hno]
    · have hu' : (f u).made = some n := by by_cases hut : u = t <;> grind
      simpa [hno] using h3 u n hu'
  · intro u n hu htn
    have hno : n ≠ old.ptr := htn ▸ htail
    have hu' : (f u).placed = some n := by by_cases hut : u = t <;> grind
    simpa [hno] using h4 u n hu' htn
  · intro u v m hu hv; by_cases hut : u = t <;> by_cases hvt : v = t <;> grind
  · intro hne
    obtain ⟨u, hu⟩ := h6 (by simpa [htail] using hne)
    exact ⟨u, by by_cases hut : u = t <;> grind⟩
  · intro u d new old' hu hnone
    have hut : u ≠ t := by rintro rfl; exact hh d new old' (by simpa using hu)
    have hno : old'.ptr ≠ old.ptr := by
      intro he
      rw [show s.next old'.ptr = some x from he ▸ hx] at hnone
      cases hnone
    simpa [hno] using h7 u d new old' (by simpa [hut] using hu) hnone
  · intro u n hu
    have hut : u ≠ t := by rintro rfl; simp [hw] at hu
    have hu' : (f u).won = some n := by simpa [hut] using hu
    have hno : n ≠ old.ptr := by
      rintro rfl
      exact hut (h9 u t _ hu' hwt)
    simpa [hno] using h8 u n hu'
  · intro u v m hu hv; by_cases hut : u = t <;> by_cases hvt : v = t <;> grind

/-- `new node` makes an empty node. -/
theorem Filled.new_node {a : ℕ} (ha : Fresh s f a) (hft : f t = pc) (hm : pc'.made = some a)
    (hplaced : pc'.placed = none) (hp : pc.placed = none) (hw : pc'.won = none)
    (hh : ∀ d new old, pc' ≠ .help d new old) :
    Filled (s.new a) (Function.update f t pc') := by
  subst hft
  have hc := hS.chain_new ha
  have hfr : ∀ u n, (f u).Holds n → n ≠ a := by
    rintro u n hu rfl
    exact ha.2 u (.inr hu)
  have hmd : ∀ u n, (f u).made = some n → n ≠ a := by
    rintro u n hu rfl
    exact ha.2 u (.inl hu)
  have hda : (s.new a).data a = none := by simp [Shared.new]
  have hdn : ∀ n, n ≠ a → (s.new a).data n = s.data n := fun n hn => by simp [Shared.new, hn]
  have hnn : ∀ n, n ≠ a → (s.new a).next n = s.next n := fun n hn => by simp [Shared.new, hn]
  have hta : s.tail.ptr ≠ a := by
    rintro rfl
    exact ha.1 hS.tail_mem
  have htl : (s.new a).tail = s.tail := rfl
  have hpu : ∀ u n, (f u).placed = some n → n ≠ a := fun u n hu =>
    hfr u n (.inl (Pc.placed_pushing hu))
  have hwu : ∀ u n, (f u).won = some n → n ≠ a := fun u n hu =>
    hfr u n (.inr (Pc.won_popping hu))
  obtain ⟨h1, h2, h3, h4, h5, h6, h7, h8, h9⟩ := hF
  refine ⟨?_, ?_, ?_, ?_, ?_, ?_, ?_, ?_, ?_⟩
  · intro n hmem hne
    rw [hc] at hmem
    have hna : n ≠ a := by rintro rfl; exact ha.1 hmem
    rw [hdn n hna]
    exact h1 n hmem (by rwa [← hnn n hna])
  · intro x hx
    by_cases hxa : x.ptr = a
    · rw [hxa, hda]
    · rw [hdn _ hxa]
      exact h2 x (by rw [← hnn _ hta]; exact hx)
  · intro u n hu
    by_cases hna : n = a
    · rw [hna, hda]
    · rw [hdn n hna]
      exact h3 u n (by by_cases hut : u = t <;> grind)
  · intro u n hu htn
    have hu' : (f u).placed = some n := by by_cases hut : u = t <;> grind
    rw [hdn n (hpu u n hu')]
    exact h4 u n hu' htn
  · intro u v m hu hv; by_cases hut : u = t <;> by_cases hvt : v = t <;> grind
  · intro hne
    rw [htl, hdn _ hta] at hne
    obtain ⟨u, hu⟩ := h6 hne
    exact ⟨u, by rw [htl]; by_cases hut : u = t <;> grind⟩
  · intro u d new old hu hnone
    have hut : u ≠ t := by rintro rfl; exact hh d new old (by simpa using hu)
    have hfu : f u = .help d new old := by simpa [hut] using hu
    have hoa : old.ptr ≠ a := hfr u _ (by rw [hfu]; exact .inl rfl)
    rw [hdn _ hoa]
    exact h7 u d new old hfu (by rwa [← hnn _ hoa])
  · intro u n hu
    have hu' : (f u).won = some n := by by_cases hut : u = t <;> grind
    rw [hdn n (hwu u n hu')]
    exact h8 u n hu'
  · intro u v m hu hv; by_cases hut : u = t <;> by_cases hvt : v = t <;> grind
end

/-- The steps that are neither of the writes above. -/
theorem Filled.quiet [DecidableEq ι] {s s' : Shared T} {f : ι → Pc T} {t : ι} {pc pc' : Pc T}
    (hF : Filled s f) (hft : f t = pc) (hplaced : pc'.placed = pc.placed)
    (hmade : ∀ n, pc'.made = some n → pc.made = some n := by nofun)
    (hd : s'.data = s.data := by rfl) (hn : s'.next = s.next := by rfl)
    (ht : s'.tail.ptr = s.tail.ptr := by rfl) (hh : s'.head.ptr = s.head.ptr := by rfl)
    (hhelp : ∀ d new old, pc' ≠ .help d new old := by nofun) (hw : pc'.won = none := by rfl) :
    Filled s' (Function.update f t pc') :=
  hF.goto hft (fun n hm => by rwa [chain_congr hn hh] at hm) hd hn ht hmade (.inl hplaced)
    (fun d new old e => absurd e (hhelp d new old)) (by rw [hw]; nofun)

section
variable [DecidableEq ι] {s s' : Shared T} {f : ι → Pc T} {t : ι} {pc' : Pc T} {k : Choice T}
  {ev : Event (Op T) (Res T)}

theorem filled_move (hF : Filled s f) (hS : Shape s f) (hm : Move s k ev (f t) s' pc')
    (hfresh : ∀ a, (f t).Allocates → k = .alloc a → Fresh s f a)
    (hlast : ∀ d new old, f t = .data d new old → s.data old.ptr = none → s.next old.ptr = none) :
    Filled s' (Function.update f t pc') := by
  have hfits := hS.fits t
  generalize hft : f t = pc at hm hfits hfresh
  cases hm with
  | push v | newValue v a ha | pop | loadHead | countHeadFail old | popEmpty old ht | popTail old ht
  | popNext old x hn | popCasFail old x hh | popMove d | ret r => exact hF.quiet hft rfl
  | newNode d a ha => exact hF.new_node hS (hfresh a trivial rfl) hft rfl rfl rfl rfl nofun
  | loadTail d new | countTailFail d new old => exact hF.quiet hft rfl fun _ => id
  | countTail d new old ht => subst ht; exact hF.quiet hft rfl fun _ => id
  | countHead old hh => subst hh; exact hF.quiet hft rfl
  | data d new old hd => exact hF.place hS hft hd (hlast d new old hft hd)
  | dataFail d new old hd =>
    exact hF.goto hft (fun _ => id) rfl rfl rfl (fun _ => id) (.inl rfl)
      (fun _ _ _ e => by cases e; exact hd) nofun
  | next new old hn =>
    exact hF.link hS hft hfits.2 hn rfl (hF.placed t _ (by rw [hft]; rfl) (hfits.2 hn)) rfl rfl
      nofun rfl
  | nextFail new old x hn | helpFail d new old x hn => exact hF.quiet hft rfl fun _ => id
  | deleteNext new old x => exact hF.quiet hft rfl
  | help d new old hn =>
    exact hF.link hS hft hfits.2 hn rfl (hF.helps t d new old hft hn) rfl rfl nofun rfl
  | helpNew d x old a ha =>
    exact hF.new_node hS (hfresh a trivial rfl) hft rfl rfl rfl rfl nofun
  | setTail a cur old new ht =>
    obtain ⟨-, rfl, hn⟩ := hfits
    subst ht
    cases a with
    | finish => exact hF.tail_on hS hft hn nofun rfl nofun rfl
    | again d new' => exact hF.tail_on hS hft hn (fun _ => id) rfl nofun rfl
  | retry a cur old new k hk =>
    unfold retry
    split
    · rename_i he
      subst he
      exact hF.quiet hft rfl fun _ => id
    · rename_i he
      cases a with
      | finish =>
        exact hF.goto hft (fun _ => id) rfl rfl rfl nofun
          (.inr ⟨rfl, fun e => he (Option.some.inj e).symm⟩) nofun nofun
      | again d new' => exact hF.quiet hft rfl fun _ => id
  | popCas old x hh =>
    subst hh
    obtain ⟨-, ht, hx⟩ := hfits
    have hc := hS.chain_pop hx
    refine hF.goto hft (fun n hm => by rw [hc]; simp [hm]) rfl rfl rfl nofun (.inl rfl) nofun
      fun n hn => ?_
    obtain rfl := Option.some.inj hn
    refine ⟨hF.full _ hS.head_mem (by simp [hx]), fun u hu => ?_⟩
    -- a winner's node has left the chain
    have hfu := hS.fits u
    generalize f u = pu at hu hfu
    cases pu with
    | popData old' =>
      obtain ⟨hoff, -⟩ := hfu
      rw [show old'.ptr = s.head.ptr from Option.some.inj hu] at hoff
      exact hoff hS.head_mem
    | _ => cases hu
  | popData old => exact hF.take hS hft rfl rfl rfl nofun
  | load n u r | casFail n u old r | casZero n u old r hc hz =>
    cases r <;> exact hF.quiet hft rfl fun _ => id
  | cas n u old r hc hz => cases r <;> exact hF.quiet hft rfl fun _ => id
  | delete n u r => cases r <;> exact hF.quiet hft rfl fun _ => id

omit [DecidableEq ι] in
theorem Used.fresh (hU : Used s f) {a : ℕ} (ha : s.used a = false) : Fresh s f a := by
  have hno : ∀ n, s.used n = true → n ≠ a := by
    rintro n hn rfl
    rw [ha] at hn
    cases hn
  exact ⟨fun hm => hno a (hU a (.inl hm)) rfl, fun t hm => hno a (hU a (.inr ⟨t, hm⟩)) rfl⟩

omit [DecidableEq ι] in
theorem Move.used_mono (hm : Move s k ev (f t) s' pc') {n : ℕ} (hn : s.used n = true) :
    s'.used n = true := by
  generalize f t = pc at hm
  cases hm with
  | newNode d a ha | helpNew d x old a ha => by_cases hna : n = a <;> simp [Shared.new, hna, hn]
  | _ => exact hn

theorem used_move (hU : Used s f) (hS : Shape s f) (hm : Move s k ev (f t) s' pc')
    (hfresh : ∀ a, (f t).Allocates → k = .alloc a → Fresh s f a) :
    Used s' (Function.update f t pc') := by
  rintro n (hn | ⟨u, hn⟩)
  · rcases hm.mem_chain hS hfresh hn with h | h
    · exact hm.used_mono (hU n (.inl h))
    · exact hm.used_mono (hU n (.inr ⟨t, .inl h⟩))
  · by_cases hut : u = t
    · subst hut
      rw [Function.update_self] at hn
      rcases hm.refers hn with h | rfl | rfl | ⟨ha, rfl⟩
      · exact hm.used_mono (hU n (.inr ⟨u, h⟩))
      · exact hm.used_mono (hU _ (.inl hS.tail_mem))
      · exact hm.used_mono (hU _ (.inl hS.head_mem))
      · generalize f u = pc at hm ha
        cases hm <;> first | (simp [Shared.new]; done) | cases ha
    · exact hm.used_mono (hU n (.inr ⟨u, by simpa [hut] using hn⟩))
end

/-! ## The abstract queue -/

/-- The sequential queue. -/
inductive QueueSpec : List T → Op T → Res T → List T → Prop
  | push (vs : List T) (v : T) : QueueSpec vs (.push v) .unit (vs ++ [v])
  | pop (v : T) (vs : List T) : QueueSpec (v :: vs) .pop (.popped (some v)) vs
  | popEmpty : QueueSpec [] .pop (.popped none) []

/-- The value in a node. -/
def valueAt (s : Shared T) (n : ℕ) : Option T := (s.data n).map Object.value

/-- The values in the queue: those of the nodes from `head` up to `tail`. -/
noncomputable def contents (s : Shared T) : List T :=
  ((chain s).takeWhile (· ≠ s.tail.ptr)).filterMap (valueAt s)

theorem takeWhile_ne {l₁ l₂ : List ℕ} {a : ℕ} (ha : a ∉ l₁) :
    (l₁ ++ a :: l₂).takeWhile (· ≠ a) = l₁ := by
  have hall : ∀ x ∈ l₁, decide (x ≠ a) = true := by
    intro x hx
    simp only [ne_eq, decide_not, Bool.not_eq_eq_eq_not, Bool.not_true, decide_eq_false_iff_not]
    rintro rfl
    exact ha hx
  rw [List.takeWhile_append_of_pos hall]
  simp

/-- How far the operation of a thread has come that put its value in node `n`: it takes effect
when `tail` leaves `n`. -/
def placedStatus (s : Shared T) (n : ℕ) : Status (Op T) (Res T) :=
  if s.tail.ptr = n then
    match s.data n with
    | some d => .called (.push d.value)
    | none => .idle
  else .done .unit

/-- How far a `push` in `set_new_tail` has come. -/
def After.status (s : Shared T) (n : ℕ) : After T → Status (Op T) (Res T)
  | .finish => placedStatus s n
  | .again d _ => .called (.push d.value)

/-- How far a thread's operation has come. -/
def Pc.status (s : Shared T) : Pc T → Status (Op T) (Res T)
  | .idle => .idle
  | .newValue v => .called (.push v)
  | .newNode d | .loadTail d _ | .countTail d _ _ | .data d _ _ | .help d _ _ | .helpNew d _ _ =>
    .called (.push d.value)
  | .next _ old | .deleteNext _ old _ => placedStatus s old.ptr
  | .setTail a cur _ _ => a.status s cur
  | .counter n _ _ (.setTail a _ _) => a.status s n
  | .loadHead | .countHead _ | .popTail _ | .popNext _ | .popCas _ _ | .counter _ _ _ (.pop _) =>
    .called .pop
  | .popData old => .done (.popped (valueAt s old.ptr))
  | .counter _ _ _ (.value res) | .popMove res => .done (.popped (res.map Object.value))
  | .done r => .done r

/-- The statuses of the other threads after a step that leaves their nodes alone. -/
theorem status_congr {s s' : Shared T} {pc : Pc T}
    (hp : ∀ n, pc.placed = some n → placedStatus s' n = placedStatus s n)
    (hw : ∀ n, pc.won = some n → s'.data n = s.data n) : pc.status s' = pc.status s := by
  cases pc with
  | next new old | deleteNext new old x => exact hp _ rfl
  | setTail a cur old new =>
    cases a with
    | finish => exact hp _ rfl
    | again d new' => rfl
  | counter n u c r =>
    cases r with
    | setTail a old new =>
      cases a with
      | finish => exact hp _ rfl
      | again d new' => rfl
    | _ => rfl
  | popData old => simp only [Pc.status, valueAt, hw old.ptr rfl]
  | _ => rfl

theorem placedStatus_congr {s s' : Shared T} {n : ℕ} (ht : s'.tail.ptr = s.tail.ptr)
    (hd : s'.data n = s.data n) : placedStatus s' n = placedStatus s n := by
  unfold placedStatus
  rw [ht, hd]

theorem status_placed {s : Shared T} {pc : Pc T} {n : ℕ} (h : pc.placed = some n) :
    pc.status s = placedStatus s n := by
  cases pc with
  | next new old | deleteNext new old x => rw [← Option.some.inj h]; rfl
  | setTail a cur old new =>
    cases a with
    | finish => rw [← Option.some.inj h]; rfl
    | again d new' => cases h
  | counter m u c r =>
    cases r with
    | setTail a old new =>
      cases a with
      | finish => rw [← Option.some.inj h]; rfl
      | again d new' => cases h
    | _ => cases h
  | _ => cases h

section
variable {s s' : Shared T} {f : ι → Pc T}

theorem contents_congr (hc : chain s' = chain s) (ht : s'.tail.ptr = s.tail.ptr)
    (hd : ∀ n ∈ chain s, n ≠ s.tail.ptr → s'.data n = s.data n) : contents s' = contents s := by
  unfold contents
  rw [hc, ht]
  refine List.filterMap_congr fun n hn => ?_
  have hm : n ∈ chain s := (List.takeWhile_prefix _).subset hn
  have hne : n ≠ s.tail.ptr := by
    rintro rfl
    simpa using List.all_eq_true.mp List.all_takeWhile _ hn
  rw [valueAt, valueAt, hd n hm hne]

variable (hS : Shape s f)
include hS

/-- The nodes from `head` up to `tail`, and those from there. -/
theorem Shape.split_tail : ∃ l₁ l₂, chain s = l₁ ++ s.tail.ptr :: l₂ ∧ s.tail.ptr ∉ l₁ ∧
    Linked (succ s) (succ s s.tail.ptr) l₂ := by
  obtain ⟨l₁, l₂, hc, hl⟩ := hS.linked.split hS.tail_mem
  have hnd := hS.linked.nodup
  rw [hc] at hnd
  exact ⟨l₁, l₂, hc, fun hm => (List.disjoint_of_nodup_append hnd) hm (by simp), hl⟩

theorem contents_link {x : Counted} (hn : s.next s.tail.ptr = none) (hx : x.ptr ∉ chain s)
    (hxn : s.next x.ptr = none) :
    contents { s with next := Function.update s.next s.tail.ptr (some x) } = contents s := by
  obtain ⟨l₁, l₂, hc, hno, -⟩ := hS.split_tail
  unfold contents
  rw [hS.chain_link hn hx hxn, hc, List.append_assoc, List.cons_append, takeWhile_ne hno,
    takeWhile_ne hno]
  rfl

/-- `tail` leaves a node: its value is in the queue. -/
theorem contents_tail {x : Counted} {d : Object T} (hx : s.next s.tail.ptr = some x)
    (hd : s.data s.tail.ptr = some d) :
    contents { s with tail := x } = contents s ++ [d.value] := by
  obtain ⟨l₁, l₂, hc, hno, hl⟩ := hS.split_tail
  have hs : succ s s.tail.ptr = some x.ptr := by simp [succ, hx]
  rw [hs] at hl
  cases l₂ with
  | nil => cases hl
  | cons b l₂ =>
    obtain rfl := Option.some.inj hl.1
    have hnd := hS.linked.nodup
    have hc' : chain { s with tail := x } = l₁ ++ [s.tail.ptr] ++ x.ptr :: l₂ := by
      have he : chain { s with tail := x } = chain s := chain_congr rfl rfl
      rw [he, hc]; simp
    have hno' : x.ptr ∉ l₁ ++ [s.tail.ptr] := by
      rw [hc] at hnd
      intro hm
      have hnd' : (l₁ ++ [s.tail.ptr] ++ x.ptr :: l₂).Nodup := by simpa using hnd
      exact (List.disjoint_of_nodup_append hnd') hm (by simp)
    unfold contents
    rw [hc', takeWhile_ne hno', hc, takeWhile_ne hno, List.filterMap_append]
    simp only [List.filterMap_cons, List.filterMap_nil]
    rw [show valueAt { s with tail := x } s.tail.ptr = some d.value by simp [valueAt, hd]]
    rfl

/-- `head` leaves a node: its value is no longer in the queue. -/
theorem contents_head {x : Counted} {d : Object T} (hx : s.next s.head.ptr = some x)
    (ht : s.tail.ptr ≠ s.head.ptr) (hd : s.data s.head.ptr = some d) :
    contents s = d.value :: contents { s with head := x } := by
  unfold contents
  rw [hS.chain_pop hx, List.takeWhile_cons_of_pos (by simpa using ht.symm), List.filterMap_cons]
  rw [show valueAt s s.head.ptr = some d.value by simp [valueAt, hd]]
  rfl

theorem contents_empty (ht : s.tail.ptr = s.head.ptr) : contents s = [] := by
  obtain ⟨l, hc, -⟩ := hS.chain_eq
  unfold contents
  rw [hc, List.takeWhile_cons_of_neg (by simp [ht])]
  rfl
end

/-! ## Every step is one of the abstract queue -/

section
variable [DecidableEq ι] {c : Config ι (Shared T) (Pc T)} {s' : Shared T} {pc pc' : Pc T} {t : ι}
  {h : List (Step ι T)} {k : Choice T} {ev : Event (Op T) (Res T)}
  (hL : LinearizedBy QueueSpec contents Pc.status h c)
include hL

/-- A step in which nothing takes effect and no value, `next` or end of the queue is written. -/
theorem linear_tau (hft : c.loc t = pc) (hg : pc'.status c.shared = pc.status c.shared)
    (hn : s'.next = c.shared.next := by rfl) (hd : s'.data = c.shared.data := by rfl)
    (hh : s'.head.ptr = c.shared.head.ptr := by rfl)
    (ht : s'.tail.ptr = c.shared.tail.ptr := by rfl) :
    LinearizedBy QueueSpec contents Pc.status (⟨t, .tau, c, c.set t s' pc'⟩ :: h)
      (c.set t s' pc') := by
  have hst : ∀ x : Pc T, x.status s' = x.status c.shared := fun x =>
    status_congr (fun n _ => placedStatus_congr ht (by rw [hd])) fun n _ => by rw [hd]
  refine hL.tau ?_ (contents_congr (chain_congr hn hh) ht fun n _ _ => by rw [hd]) fun u _ => hst _
  rw [hst, hft, hg]

theorem linear_new {a : ℕ} (hS : Shape c.shared c.loc) (ha : Fresh c.shared c.loc a)
    (hft : c.loc t = pc) (hg : pc'.status (c.shared.new a) = pc.status c.shared) :
    LinearizedBy QueueSpec contents Pc.status
      (⟨t, .tau, c, c.set t (c.shared.new a) pc'⟩ :: h) (c.set t (c.shared.new a) pc') := by
  have hd : ∀ n, n ≠ a → (c.shared.new a).data n = c.shared.data n := fun n hn => by
    simp [Shared.new, hn]
  have hne : ∀ u n, (c.loc u).Holds n → n ≠ a := by
    rintro u n hu rfl
    exact ha.2 u (.inr hu)
  refine hL.tau (by rw [hg, hft]) ?_ fun u _ => status_congr (fun n hn => ?_) fun n hn => ?_
  · refine contents_congr (hS.chain_new ha) rfl fun n hn _ => hd n ?_
    rintro rfl
    exact ha.1 hn
  · exact placedStatus_congr rfl (hd n (hne u n (.inl (Pc.placed_pushing hn))))
  · exact hd n (hne u n (.inr (Pc.won_popping hn)))

/-- `tail` leaves a node, and the push that put its value there takes effect. -/
theorem linear_tail (hS : Shape c.shared c.loc) (hF : Filled c.shared c.loc) {a : After T}
    {new : Counted} (hft : c.loc t = .setTail a c.shared.tail.ptr c.shared.tail new)
    (hn : c.shared.next c.shared.tail.ptr = some new) :
    LinearizedBy QueueSpec contents Pc.status
      (⟨t, .tau, c, c.set t { c.shared with tail := new } (a.resume c.shared.tail)⟩ :: h)
      (c.set t { c.shared with tail := new } (a.resume c.shared.tail)) := by
  have hdata := hF.full _ hS.tail_mem (by simp [hn])
  obtain ⟨d, hd⟩ := Option.ne_none_iff_exists'.mp hdata
  obtain ⟨v, hv⟩ := hF.owner hdata
  have hnn := hS.tail_next new hn
  have hne : new.ptr ≠ c.shared.tail.ptr := by
    intro he
    rw [he, hn] at hnn
    cases hnn
  have hleft : placedStatus { c.shared with tail := new } c.shared.tail.ptr = .done .unit :=
    if_neg hne
  have hspec : QueueSpec (contents c.shared) (.push d.value) .unit
      (contents { c.shared with tail := new }) := by
    rw [contents_tail hS hn hd]
    exact .push _ _
  refine hL.commit_by (v := v) ?_ ?_ hspec ?_
  · rw [status_placed hv, placedStatus, if_pos rfl, hd]
  · by_cases hvt : v = t
    · subst hvt
      rw [Config.set_loc_self]
      cases a with
      | finish => rfl
      | again d' new' => rw [hft] at hv; cases hv
    · rw [Config.set_loc_ne _ hvt, status_placed hv, hleft]
  · intro u huv
    by_cases hut : u = t
    · subst hut
      rw [Config.set_loc_self, hft]
      cases a with
      | finish => exact absurd (hF.placed_inj u v _ (by rw [hft]; rfl) hv) huv
      | again d' new' => rfl
    · rw [Config.set_loc_ne _ hut]
      refine status_congr (fun n hp => ?_) fun n _ => rfl
      have h1 : c.shared.tail.ptr ≠ n := by
        rintro rfl
        exact huv (hF.placed_inj u v _ hp hv)
      have h2 : new.ptr ≠ n := by
        rintro rfl
        exact h1 ((hS.fits u).reached (Pc.placed_pushing hp) hnn)
      rw [placedStatus, placedStatus, if_neg h1, if_neg h2]

theorem linear_move (hS : Shape c.shared c.loc) (hF : Filled c.shared c.loc)
    (hm : Move c.shared k ev (c.loc t) s' pc')
    (hfresh : ∀ a, (c.loc t).Allocates → k = .alloc a → Fresh c.shared c.loc a)
    (hlast : OnLast c t) :
    LinearizedBy QueueSpec contents Pc.status (⟨t, ev, c, c.set t s' pc'⟩ :: h)
      (c.set t s' pc') := by
  have hfits := hS.fits t
  have hlast := hlast
  generalize hft : c.loc t = pc at hm hfits hfresh
  cases hm with
  | push v | pop => exact hL.call (by rw [hft]; rfl) rfl rfl
  | ret r => exact hL.ret (by rw [hft]; rfl) rfl rfl
  | newValue v a ha | loadTail d new | countTailFail d new old | dataFail d new old hd
  | nextFail new old x hn | helpFail d new old x hn | deleteNext new old x | loadHead
  | countHeadFail old | popTail old ht | popNext old x hn | popCasFail old x hh | popMove d =>
    exact linear_tau hL hft rfl
  | countTail d new old ht => subst ht; exact linear_tau hL hft rfl
  | countHead old hh => subst hh; exact linear_tau hL hft rfl
  | load n u r | casFail n u old r | casZero n u old r hc hz =>
    cases r <;> exact linear_tau hL hft rfl
  | cas n u old r hc hz => cases r <;> exact linear_tau hL hft rfl
  | delete n u r => cases r <;> exact linear_tau hL hft rfl
  | newNode d a ha | helpNew d x old a ha =>
    exact linear_new hL hS (hfresh a trivial rfl) hft rfl
  | data d new old hd =>
    have ht := hfits.2 (hlast d new old hft hd)
    have hfresh : ∀ u, (c.loc u).placed ≠ some old.ptr := fun u hu => hF.placed u _ hu ht hd
    refine hL.tau ?_ (contents_congr (chain_congr rfl rfl) rfl fun n _ hne => ?_) fun u _ =>
      status_congr (fun n hn => placedStatus_congr rfl ?_) fun n hn => ?_
    · rw [hft]
      simp [Pc.status, placedStatus, ht]
    · rw [ht] at hne
      exact Function.update_of_ne hne _ _
    · exact Function.update_of_ne (by rintro rfl; exact hfresh u hn) _ _
    · exact Function.update_of_ne (by rintro rfl; exact hF.won u _ hn hd) _ _
  | next new old hn | help d new old hn =>
    obtain ⟨hxc, hxn⟩ := hS.made t new.ptr (by rw [hft]; rfl)
    have ht := hfits.2 hn
    rw [← ht] at hn
    have hc := contents_link hS hn hxc hxn
    rw [ht] at hc
    exact hL.tau (by rw [hft]; rfl) hc
  | setTail a cur old new ht =>
    obtain ⟨-, rfl, hn⟩ := hfits
    subst ht
    exact linear_tail hL hS hF hft hn
  | retry a cur old new k hk =>
    unfold retry
    split
    · rename_i he
      subst he
      exact linear_tau hL hft rfl
    · rename_i he
      cases a with
      | finish => exact linear_tau hL hft (if_neg he).symm
      | again d new' => exact linear_tau hL hft rfl
  | popEmpty old ht =>
    have he : c.shared.tail.ptr = c.shared.head.ptr := by
      rw [← ht]
      exact hfits.1 (ht ▸ hS.tail_mem)
    refine hL.commit (by rw [hft]; rfl) rfl ?_
    rw [contents_empty hS he]
    exact .popEmpty
  | popCas old x hh =>
    subst hh
    obtain ⟨-, ht, hx⟩ := hfits
    obtain ⟨d, hd⟩ := Option.ne_none_iff_exists'.mp (hF.full _ hS.head_mem (by simp [hx]))
    have hspec : QueueSpec (contents c.shared) .pop (.popped (some d.value))
        (contents { c.shared with head := x }) := by
      rw [contents_head hS hx ht hd]
      exact .pop _ _
    refine hL.commit (by rw [hft]; rfl) ?_ hspec
      fun u _ => status_congr (fun _ _ => rfl) fun _ _ => rfl
    simp [Pc.status, valueAt, hd]
  | popData old =>
    have hw : (c.loc t).won = some old.ptr := by rw [hft]; rfl
    have ht : c.shared.tail.ptr ≠ old.ptr := by
      intro he
      exact hfits.1 (he ▸ hS.tail_mem)
    refine hL.tau ?_ (contents_congr (chain_congr rfl rfl) rfl fun n hn _ => ?_) fun u hut =>
      status_congr (fun n hn => ?_) fun n hn => ?_
    · rw [hft]; rfl
    · exact Function.update_of_ne (by rintro rfl; exact hfits.1 hn) _ _
    · by_cases hno : n = old.ptr
      · subst hno
        rw [placedStatus, placedStatus, if_neg ht, if_neg ht]
      · exact placedStatus_congr rfl (Function.update_of_ne hno _ _)
    · exact Function.update_of_ne (by rintro rfl; exact hut (hF.won_inj u t _ hn hw)) _ _
end

/-! ## Runs -/

section
variable [DecidableEq ι] {h : List (Step ι T)} {c : Config ι (Shared T) (Pc T)}

/-- What holds in every state of a run in which no value is lost. -/
structure Inv (h : List (Step ι T)) (c : Config ι (Shared T) (Pc T)) : Prop where
  shape : Shape c.shared c.loc
  used : Used c.shared c.loc
  filled : Filled c.shared c.loc
  linear : LinearizedBy QueueSpec contents Pc.status h c

omit [DecidableEq ι] in
theorem used_initial : Used (initial (ι := ι) (T := T)).shared (initial (ι := ι)).loc := by
  have hl : Linked (succ (initial (ι := ι) (T := T)).shared) (some 0) [0] := ⟨rfl, rfl⟩
  have hc : chain (initial (ι := ι) (T := T)).shared = [0] := nodes_eq hl
  rintro n (hn | ⟨t, hn | hn | hn⟩)
  · rw [hc] at hn
    rw [List.mem_singleton.mp hn]
    rfl
  all_goals cases hn

theorem inv_initial : Inv (ι := ι) (T := T) [] initial := by
  refine ⟨shape_initial, used_initial, ?_, [], rfl, .nil⟩
  exact ⟨nofun, nofun, nofun, nofun, nofun, fun hne => absurd rfl hne, nofun, nofun, nofun⟩

theorem inv_run (hr : program.Run PushesOnLast initial h c) : Inv h c := by
  refine Program.Run.induction inv_initial ?_ hr
  rintro h c t k ev s' pc' - ⟨hS, hU, hF, hL⟩ ⟨hnew, hlast⟩ hs
  have hm := step_move hs
  have hfresh : ∀ a, (c.loc t).Allocates → k = .alloc a → Fresh c.shared c.loc a :=
    fun a ha hk => hU.fresh (hnew a ha hk)
  exact ⟨shape_move hS hm hfresh, used_move hU hS hm hfresh, filled_move hF hS hm hfresh hlast,
    linear_move hL hS hF hm hfresh hlast⟩

/-- The values pushed, newest first. -/
def pushed (os : List (Op T)) : List T := os.filterMap fun o => match o with
  | .push v => some v
  | .pop => none

/-- The values popped. -/
def popped (rs : List (Res T)) : List T := rs.filterMap fun r => match r with
  | .popped v => v
  | .unit => none

omit [DecidableEq ι] in
/-- In a sequential run values leave the queue in the order in which they came. -/
theorem legal_fifo {vs ws : List T} {es : List (Effect ι (Op T) (Res T))}
    (hl : Legal QueueSpec vs es ws) :
    vs ++ pushed (es.map Effect.op) = popped (es.map Effect.res) ++ ws := by
  induction hl with
  | nil => simp [pushed, popped]
  | @cons a b d e es hs _ ih =>
    obtain ⟨t, o, r⟩ := e
    cases hs with
    | push vs v => simpa [pushed, popped] using ih
    | pop v vs => simpa [pushed, popped] using ih
    | popEmpty => simpa [pushed, popped] using ih

/-! ## Draining -/

/-- Thread `t` alone calls `pop` until it finds the queue empty, and gets the values `vs`. -/
structure Drains (t : ι) (h : List (Step ι T)) (vs : List T) : Prop where
  alone : ∀ r ∈ h, r.tid = t
  pops : ∀ o ∈ calls h, o = .pop
  results : (returns h).reverse = vs.map (fun v => .popped (some v)) ++ [.popped none]
  last : ∃ r h', h = r :: h' ∧ r.ev = .ret (.popped none)

/-- A run goes on with steps of thread `t` alone, which calls `pop` and gets the results `rs`
(newest first). -/
def Alone (t : ι) (h : List (Step ι T)) (c : Config ι (Shared T) (Pc T)) (rs : List (Res T))
    (s : Shared T) (l : Pc T) : Prop :=
  ∃ h', program.Run PushesOnLast initial (h' ++ h) (c.set t s l) ∧ (∀ r ∈ h', r.tid = t) ∧
    (∀ o ∈ calls h', o = .pop) ∧ returns h' = rs

variable {t : ι} {rs : List (Res T)} {s s' : Shared T} {l l' : Pc T}

/-- The results after one more event. -/
def gained : Event (Op T) (Res T) → List (Res T) → List (Res T)
  | .ret r, rs => r :: rs
  | _, rs => rs

theorem Alone.goes (ha : Alone t h c rs s l) {ev : Event (Op T) (Res T)} {k : Choice T}
    (hs : step k s l = some (ev, s', l')) (hnd : ∀ d new old, l ≠ .data d new old)
    (hna : ¬ l.Allocates) (hop : ∀ o, ev = .call o → o = .pop) :
    Alone t h c (gained ev rs) s' l' := by
  obtain ⟨h', hr, htid, hpop, hret⟩ := ha
  have hs' : (program (ι := ι)).step t k (c.set t s l).shared ((c.set t s l).loc t) =
      some (ev, s', l') := by simpa [program] using hs
  have hok : PushesOnLast (h' ++ h) (c.set t s l) t k := by
    refine ⟨fun a hal => ?_, fun d new old he => ?_⟩
    · rw [Config.set_loc_self] at hal
      exact absurd hal hna
    · rw [Config.set_loc_self] at he
      exact absurd he (hnd d new old)
  have hset : (c.set t s l).set t s' l' = c.set t s' l' := by simp [Config.set]
  have hcons := hr.cons hok hs'
  rw [hset] at hcons
  refine ⟨_ :: h', hcons, ?_, ?_, ?_⟩
  · simpa using htid
  · cases ev with
    | call o => simpa [calls, hop o rfl] using hpop
    | ret r => simpa [calls] using hpop
    | tau => simpa [calls] using hpop
  · cases ev with
    | call o => simpa [returns, gained] using hret
    | ret r => simpa [returns, gained] using hret
    | tau => simpa [returns, gained] using hret

/-- The rest of `pop` from `free_external_counter` on. -/
theorem Alone.finish {n : ℕ} {u : Update} {d : Object T}
    (ha : Alone t h c rs s (.counter n u .load (.value (some d)))) :
    ∃ s', Alone t h c (.popped (some d.value) :: rs) s' .idle ∧ s'.next = s.next ∧
      s'.data = s.data ∧ s'.head = s.head ∧ s'.tail = s.tail := by
  have h1 := ha.goes (k := .run) rfl nofun id nofun
  have hcas : step .run s (.counter n u (.cas (s.count n)) (.value (some d))) =
      some (.tau, { s with count := Function.update s.count n (u.apply (s.count n)) },
        if u.apply (s.count n) = .zero then .counter n u .delete (.value (some d))
        else .popMove (some d)) := if_pos rfl
  have h2 := h1.goes hcas nofun id nofun
  split at h2
  · have h3 := h2.goes (k := .run) rfl nofun id nofun
    have h4 := h3.goes (k := .run) rfl nofun id nofun
    have h5 := h4.goes (k := .run) rfl nofun id nofun
    exact ⟨_, h5, rfl, rfl, rfl, rfl⟩
  · have h3 := h2.goes (k := .run) rfl nofun id nofun
    have h4 := h3.goes (k := .run) rfl nofun id nofun
    exact ⟨_, h4, rfl, rfl, rfl, rfl⟩

/-- `pop` up to the comparison of the counted node with `tail`. -/
theorem Alone.begin (ha : Alone t h c rs s .idle) :
    Alone t h c rs { s with head := s.head.increase } (.popTail s.head.increase) := by
  have h1 := ha.goes (k := .call .pop) rfl nofun id (fun o e => (Event.call.inj e).symm)
  have h2 := h1.goes (k := .run) rfl nofun id nofun
  have hcount : step .run s (.countHead s.head) =
      some (.tau, { s with head := s.head.increase }, .popTail s.head.increase) := if_pos rfl
  exact h2.goes hcount nofun id nofun

theorem Alone.empty (ha : Alone t h c rs s .idle) (ht : s.tail.ptr = s.head.ptr) :
    Alone t h c (.popped none :: rs) { s with head := s.head.increase } .idle := by
  have hcmp : step .run { s with head := s.head.increase } (.popTail s.head.increase) =
      some (.tau, { s with head := s.head.increase }, .done (.popped none)) := if_pos ht.symm
  have h1 := ha.begin.goes hcmp nofun id nofun
  exact h1.goes (k := .run) rfl nofun id nofun

theorem Alone.one (ha : Alone t h c rs s .idle) {x : Counted} {d : Object T}
    (ht : s.tail.ptr ≠ s.head.ptr) (hx : s.next s.head.ptr = some x)
    (hd : s.data s.head.ptr = some d) :
    ∃ s', Alone t h c (.popped (some d.value) :: rs) s' .idle ∧ s'.next = s.next ∧
      s'.data = Function.update s.data s.head.ptr none ∧ s'.head = x ∧ s'.tail = s.tail := by
  have hcmp : step .run { s with head := s.head.increase } (.popTail s.head.increase) =
      some (.tau, { s with head := s.head.increase }, .popNext s.head.increase) :=
    if_neg (Ne.symm ht)
  have hnext : step .run { s with head := s.head.increase } (.popNext s.head.increase) =
      some (.tau, { s with head := s.head.increase }, .popCas s.head.increase x) := by
    simp [step, hx]
  have hcas : step .run { s with head := s.head.increase } (.popCas s.head.increase x) =
      some (.tau, { s with head := x }, .popData s.head.increase) := if_pos rfl
  have h1 := ha.begin.goes hcmp nofun id nofun
  have h2 := h1.goes hnext nofun id nofun
  have h3 := h2.goes hcas nofun id nofun
  have h4 := h3.goes (k := .run) rfl nofun id nofun
  dsimp only [Counted.increase_ptr] at h4
  rw [hd] at h4
  obtain ⟨s', h5, h6, h7, h8, h9⟩ := h4.finish
  exact ⟨s', h5, h6, h7, h8, h9⟩

omit [DecidableEq ι] in
/-- `head` has a successor when `tail` is not there. -/
theorem Shape.head_next {f : ι → Pc T} (hS : Shape s f) (ht : s.tail.ptr ≠ s.head.ptr) :
    ∃ x, s.next s.head.ptr = some x := by
  cases hx : s.next s.head.ptr with
  | some x => exact ⟨x, rfl⟩
  | none =>
    obtain ⟨l, hc, hl⟩ := hS.chain_eq
    have hs : succ s s.head.ptr = none := by simp [succ, hx]
    rw [hs] at hl
    cases l with
    | cons b l => cases hl.1
    | nil =>
      have hm := hS.tail_mem
      rw [hc, List.mem_singleton] at hm
      exact absurd hm ht

theorem Alone.inv (ha : Alone t h c rs s l) : ∃ f : ι → Pc T, Shape s f ∧ Filled s f := by
  obtain ⟨h', hr, -⟩ := ha
  obtain ⟨hS, -, hF, -⟩ := inv_run hr
  exact ⟨_, hS, hF⟩

/-- From a state with no operation in progress, `pop` returns the contents and then nothing. -/
theorem Alone.drain {vs : List T} (ha : Alone t h c rs s .idle) (hvs : contents s = vs) :
    ∃ s', Alone t h c (.popped none :: (vs.map fun v => .popped (some v)).reverse ++ rs)
      s' .idle := by
  induction vs generalizing rs s with
  | nil =>
    obtain ⟨f, hS, hF⟩ := ha.inv
    by_cases ht : s.tail.ptr = s.head.ptr
    · exact ⟨_, ha.empty ht⟩
    · obtain ⟨x, hx⟩ := hS.head_next ht
      obtain ⟨d, hd⟩ := Option.ne_none_iff_exists'.mp (hF.full _ hS.head_mem (by simp [hx]))
      rw [contents_head hS hx ht hd] at hvs
      cases hvs
  | cons v vs ih =>
    obtain ⟨f, hS, hF⟩ := ha.inv
    have ht : s.tail.ptr ≠ s.head.ptr := by
      intro ht
      rw [contents_empty hS ht] at hvs
      cases hvs
    obtain ⟨x, hx⟩ := hS.head_next ht
    obtain ⟨d, hd⟩ := Option.ne_none_iff_exists'.mp (hF.full _ hS.head_mem (by simp [hx]))
    rw [contents_head hS hx ht hd] at hvs
    obtain ⟨rfl, hrest⟩ := List.cons.inj hvs
    obtain ⟨s', ha', h1, h2, h3, h4⟩ := ha.one ht hx hd
    have hnd := hS.linked.nodup
    rw [hS.chain_pop hx] at hnd
    have hvs' : contents s' = vs := by
      rw [← hrest]
      refine contents_congr (chain_congr h1 (by rw [h3])) (by rw [h4]) fun n hn _ => ?_
      rw [h2]
      refine Function.update_of_ne ?_ _ _
      rintro rfl
      exact (List.nodup_cons.mp hnd).1 hn
    obtain ⟨s'', ha''⟩ := ih ha' hvs'
    exact ⟨s'', by simpa using ha''⟩

omit [DecidableEq ι] in
/-- A `pop` that has found the queue empty, at the step before its return. -/
theorem Move.found_empty {f : ι → Pc T} {ev : Event (Op T) (Res T)} {k : Choice T}
    (hm : Move s k ev (f t) s' (.done (.popped none))) (hS : Shape s f) : contents s' = [] := by
  have hfits := hS.fits t
  generalize f t = pc at hm hfits
  generalize hpc : Pc.done (.popped none) = pc' at hm
  cases hm with
  | popEmpty old ht =>
    refine contents_empty hS ?_
    rw [← ht]
    exact hfits.1 (ht ▸ hS.tail_mem)
  | retry a cur old new k hk =>
    unfold LockfreeQueue.retry at hpc
    split at hpc
    · cases hpc
    · cases a <;> cases hpc
  | setTail a cur old new ht => cases a <;> cases hpc
  | cas n u old r hc hz => cases r <;> cases hpc
  | delete n u r => cases r <;> cases hpc
  | _ => cases hpc

/-- Steps of `t` alone leave the other threads where they are. -/
theorem loc_of_alone {ok : List (Step ι T) → Config ι (Shared T) (Pc T) → ι → Choice T → Prop}
    {c₀ c' : Config ι (Shared T) (Pc T)} {h' : List (Step ι T)} (hr : program.Run ok c₀ h c)
    (hr' : program.Run ok c₀ (h' ++ h) c') (ha : ∀ r ∈ h', r.tid = t) {u : ι} (hu : u ≠ t) :
    c'.loc u = c.loc u := by
  induction h' generalizing c' with
  | nil => rw [hr.unique hr']
  | cons r h' ih =>
    cases hr' with
    | cons hrun hok hs =>
      have htid := ha _ List.mem_cons_self
      dsimp only at htid
      rw [Config.set_loc_ne _ (by rw [htid]; exact hu)]
      exact ih hrun fun r hr => ha r (by simp [hr])

/-- After draining, nothing is left and no operation is in progress. -/
theorem Drains.empty {h' : List (Step ι T)} {c' : Config ι (Shared T) (Pc T)} {vs : List T}
    (hd : Drains t h' vs) (hr : program.Run PushesOnLast initial h c)
    (hr' : program.Run PushesOnLast initial (h' ++ h) c') (hidle : ∀ u, c.loc u = .idle) :
    contents c'.shared = [] ∧ ∀ u, c'.loc u = .idle := by
  have hothers : ∀ u, u ≠ t → c'.loc u = .idle := fun u hu => by
    rw [loc_of_alone hr hr' hd.alone hu, hidle u]
  obtain ⟨r, rest, rfl, hev⟩ := hd.last
  have htid := hd.alone
  cases hr' with
  | @cons _ c₁ t₁ k ev s₁ l₁ hrun hok hs =>
    obtain rfl : t₁ = t := htid _ List.mem_cons_self
    subst hev
    have hm := step_move hs
    generalize hpc : c₁.loc t₁ = pc at hm
    cases hm with
    | ret =>
      have hself : (c₁.set t₁ c₁.shared Pc.idle).loc t₁ = .idle := Config.set_loc_self _ _ _ _
      refine ⟨?_, fun u => if hu : u = t₁ then by rw [hu]; exact hself else hothers u hu⟩
      cases rest with
      | nil =>
        rw [← hr.unique hrun, hidle] at hpc
        cases hpc
      | cons r₂ rest =>
        cases hrun with
        | @cons _ c₂ t₂ k₂ ev₂ s₂ l₂ hrun₂ hok₂ hs₂ =>
          obtain rfl : t₂ = t₁ := htid _ (List.mem_cons_of_mem _ List.mem_cons_self)
          rw [Config.set_loc_self] at hpc
          subst hpc
          exact (step_move hs₂).found_empty (inv_run hrun₂).shape

/-- A thread is idle after a step only when its operation has returned. -/
theorem Move.idle {k : Choice T} {ev : Event (Op T) (Res T)} (hm : Move s k ev l s' .idle) :
    ∃ r, ev = .ret r := by
  generalize hpc : Pc.idle = pc' at hm
  cases hm with
  | ret r => exact ⟨r, rfl⟩
  | retry a cur old new k hk =>
    unfold LockfreeQueue.retry at hpc
    split at hpc
    · cases hpc
    · cases a <;> cases hpc
  | setTail a cur old new ht => cases a <;> cases hpc
  | cas n u old r hc hz => cases r <;> cases hpc
  | delete n u r => cases r <;> cases hpc
  | _ => cases hpc

/-- In a run that ends with no operation in progress, the values popped and those in the queue are
the values pushed. -/
theorem values_kept (hr : program.Run PushesOnLast initial h c) (hidle : ∀ u, c.loc u = .idle) :
    (popped (returns h) ++ contents c.shared).Perm (pushed (calls h)) := by
  obtain ⟨-, -, -, H, rfl, hL⟩ := inv_run hr
  have hfifo := legal_fifo (hL.legal hr)
  rw [contents_empty shape_initial rfl, List.nil_append] at hfifo
  obtain ⟨hcalls, hrets⟩ := hL.complete fun u => by rw [hidle u]; rfl
  have h1 : (pushed (calls (H.map Prod.fst))).Perm (pushed ((order H).map Effect.op)) :=
    hcalls.filterMap _
  have h2 : (popped (returns (H.map Prod.fst))).Perm (popped ((order H).map Effect.res)) :=
    hrets.filterMap _
  rw [hfifo] at h1
  exact (h2.append_right _).trans h1.symm

omit [DecidableEq ι] in
/-- What a drain adds to the values pushed and popped. -/
theorem Drains.values {h' : List (Step ι T)} {vs : List T} (hd : Drains t h' vs) :
    pushed (calls (h' ++ h)) = pushed (calls h) ∧
      (popped (returns (h' ++ h))).Perm (popped (returns h) ++ vs) := by
  constructor
  · have hno : pushed (calls h') = [] := by
      refine List.filterMap_eq_nil_iff.mpr fun o ho => ?_
      rw [hd.pops o ho]
    have happ : pushed (calls (h' ++ h)) = pushed (calls h') ++ pushed (calls h) := by
      simp [pushed, calls]
    rw [happ, hno, List.nil_append]
  · have happ : popped (returns (h' ++ h)) = popped (returns h') ++ popped (returns h) := by
      simp [popped, returns]
    have hvs : (popped (returns h')).Perm vs := by
      have hrev : popped (returns h').reverse = vs := by
        rw [hd.results]
        simp [popped, List.filterMap_map]
      have hp : (popped (returns h')).Perm (popped (returns h').reverse) :=
        (List.reverse_perm _).symm.filterMap _
      rwa [hrev] at hp
    rw [happ]
    exact (hvs.append_right _).trans List.perm_append_comm

/-- **`lockfree_queue` is a FIFO queue** in every run in which no `push` finds an empty node that
has left the queue. Its operations are linearizable to the sequential queue, in an order in which
values are popped as they were pushed; and in a state with no operation in progress, a thread can
drain the queue, and the values popped and those it gets are the values pushed. -/
theorem queue_fifo (hr : program.Run PushesOnLast initial h c) :
    (∃ (H : Annotated ι (Shared T) (Pc T) (Op T) (Res T)) (p : ι → Status (Op T) (Res T)),
      H.map Prod.fst = h ∧ Linearized QueueSpec contents H p ∧
        pushed ((order H).map Effect.op) = popped ((order H).map Effect.res) ++ contents c.shared) ∧
      ((∀ u, c.loc u = .idle) → ∀ t,
        (∃ h' c' vs, program.Run PushesOnLast initial (h' ++ h) c' ∧ Drains t h' vs) ∧
          ∀ h' c' vs, program.Run PushesOnLast initial (h' ++ h) c' → Drains t h' vs →
            (popped (returns h) ++ vs).Perm (pushed (calls h))) := by
  refine ⟨?_, fun hidle t => ⟨?_, fun h' c' vs hr' hd => ?_⟩⟩
  · obtain ⟨-, -, -, H, rfl, hL⟩ := inv_run hr
    have hfifo := legal_fifo (hL.legal hr)
    rw [contents_empty shape_initial rfl, List.nil_append] at hfifo
    exact ⟨H, _, rfl, hL, hfifo⟩
  · have hself : c.set t c.shared .idle = c := by simp [Config.set, ← hidle t]
    have ha : Alone t h c [] c.shared .idle :=
      ⟨[], by rw [hself]; exact hr, by simp, by simp [calls], rfl⟩
    obtain ⟨s', h', hr', htid, hpop, hret⟩ := ha.drain rfl
    refine ⟨h', _, contents c.shared, hr', htid, hpop, by rw [hret]; simp, ?_⟩
    cases h' with
    | nil => cases hret
    | cons r h' =>
      refine ⟨r, h', rfl, ?_⟩
      have hid : (c.set t s' Pc.idle).loc r.tid = .idle := by
        rw [htid r List.mem_cons_self]
        exact Config.set_loc_self _ _ _ _
      generalize c.set t s' Pc.idle = c' at hr' hid
      cases hr' with
      | cons hrun hok hs =>
        rw [Config.set_loc_self] at hid
        subst hid
        obtain ⟨x, rfl⟩ := (step_move hs).idle
        have hx : x :: returns h' = .popped none :: _ := hret
        rw [(List.cons.inj hx).1]
  · obtain ⟨hempty, hidle'⟩ := hd.empty hr hr' hidle
    obtain ⟨hpush, hpop⟩ := hd.values (h := h)
    have hkept := values_kept hr' hidle'
    rw [hempty, List.append_nil, hpush] at hkept
    exact hpop.symm.trans hkept
end

/-- The run of `late_push_lost`: thread 0 counts the first node and waits; thread 1 pushes 20 there
and thread 2 pops it; then thread 0 puts 10 in the node, which has left the queue. -/
def latePush : List (Fin 3 × Choice ℕ) :=
  [turn 0 [.call (.push 10), .alloc 0, .alloc 1] 2,
    turn 1 [.call (.push 20), .alloc 1, .alloc 2] 6, turn 2 [.call .pop] 10, turn 0 [] 5].flatten

/-- Nothing is checked of a step but that `new node` returns an address that has not been used. -/
def newCheck (c : Config (Fin 3) (Shared ℕ) (Pc ℕ)) (t : Fin 3) (k : Choice ℕ)
    (_ : Config (Fin 3) (Shared ℕ) (Pc ℕ)) : Bool :=
  match c.loc t, k with
  | .newNode _, .alloc a | .helpNew _ _ _, .alloc a => !c.shared.used a
  | _, _ => true

theorem newCheck_ok (c : Config (Fin 3) (Shared ℕ) (Pc ℕ)) (t : Fin 3) (k : Choice ℕ)
    (c' : Config (Fin 3) (Shared ℕ) (Pc ℕ)) (hk : newCheck c t k c' = true) : NoReuse c t k := by
  rintro a hal rfl
  unfold newCheck at hk
  generalize c.loc t = pc at hal hk
  cases pc <;> first | simpa using hk | cases hal

/-- A value may be lost: the queue is drained, and 10 has not been popped. -/
theorem late_push_lost :
    ¬ ∀ (h : List (Step (Fin 3) ℕ)) (c : Config (Fin 3) (Shared ℕ) (Pc ℕ)),
      program.Run (fun _ => NoReuse) initial h c → (∀ u, c.loc u = .idle) →
        ∀ t h' c' vs, program.Run (fun _ => NoReuse) initial (h' ++ h) c' → Drains t h' vs →
          (popped (returns h) ++ vs).Perm (pushed (calls h)) := by
  intro hall
  have he : ((program.replay newCheck initial latePush).any fun (h, c) =>
      (∀ u, c.loc u = .idle) ∧ popped (returns h) = [20] ∧ pushed (calls h) = [20, 10] ∧
        ((program.replay newCheck c (turn 2 [.call .pop] 4)).any fun (h', _) =>
          (∀ r ∈ h', r.tid = 2) ∧ (∀ o ∈ calls h', o = .pop) ∧ returns h' = [.popped none] ∧
            h'.head?.map Rec.ev = some (.ret (.popped none))) = true) = true := by
    decide
  obtain ⟨⟨h, c⟩, hc, hd⟩ := (Option.any_eq_true _ _).mp he
  obtain ⟨hidle, hpop, hpush, hdrain⟩ := of_decide_eq_true hd
  obtain ⟨⟨h', c'⟩, hc', hd'⟩ := (Option.any_eq_true _ _).mp hdrain
  obtain ⟨htid, hops, hret, hlast⟩ := of_decide_eq_true hd'
  have hok : ∀ (h : List (Step (Fin 3) ℕ)) c t k c', program.Run (fun _ => NoReuse) initial h c →
      newCheck c t k c' = true → NoReuse c t k := fun _ c t k c' _ => newCheck_ok c t k c'
  obtain ⟨hr, -⟩ := Program.replay_run (fun _ => NoReuse) hok latePush .nil hc
  rw [List.append_nil] at hr
  obtain ⟨hr', -⟩ := Program.replay_run (fun _ => NoReuse) hok _ hr hc'
  have hdrains : Drains 2 h' [] := by
    refine ⟨htid, hops, by rw [hret]; rfl, ?_⟩
    cases h' with
    | nil => cases hlast
    | cons r h' => exact ⟨r, h', rfl, Option.some.inj hlast⟩
  have hperm := hall h c hr hidle 2 h' c' [] hr' hdrains
  rw [hpop, hpush] at hperm
  exact absurd hperm.length_eq (by decide)

/-- Two pushes and a pop, one after the other. -/
def inTurn : List (Fin 3 × Choice ℕ) :=
  [turn 1 [.call (.push 20), .alloc 1, .alloc 2] 6, turn 0 [.call (.push 30), .alloc 0, .alloc 1] 6,
    turn 2 [.call .pop] 10].flatten

/-- `PushesOnLast`, as a test. -/
def lastCheck (c : Config (Fin 3) (Shared ℕ) (Pc ℕ)) (t : Fin 3) (k : Choice ℕ)
    (c' : Config (Fin 3) (Shared ℕ) (Pc ℕ)) : Bool :=
  newCheck c t k c' && match c.loc t with
    | .data _ _ old => (c.shared.next old.ptr).isNone
    | _ => true

theorem queue_fifo_in_turn :
    ∃ (h : List (Step (Fin 3) ℕ)) (c : Config (Fin 3) (Shared ℕ) (Pc ℕ)),
      program.Run PushesOnLast initial h c ∧ (∀ u, c.loc u = .idle) ∧
        popped (returns h) = [20] ∧ pushed (calls h) = [30, 20] ∧
        ∀ t h' c' vs, program.Run PushesOnLast initial (h' ++ h) c' → Drains t h' vs →
          ([20] ++ vs).Perm [30, 20] := by
  have he : ((program.replay lastCheck initial inTurn).any fun (h, c) =>
      (∀ u, c.loc u = .idle) ∧ popped (returns h) = [20] ∧ pushed (calls h) = [30, 20]) = true := by
    decide
  obtain ⟨⟨h, c⟩, hc, hd⟩ := (Option.any_eq_true _ _).mp he
  obtain ⟨hidle, hpop, hpush⟩ := of_decide_eq_true hd
  obtain ⟨hr, -⟩ := Program.replay_run PushesOnLast (fun h c t k c' _ hk => by
    obtain ⟨hnew, hlast⟩ := Bool.and_eq_true_iff.mp hk
    refine ⟨newCheck_ok c t k c' hnew, fun d new old hpc _ => ?_⟩
    rw [hpc] at hlast
    exact Option.isNone_iff_eq_none.mp hlast) inTurn .nil hc
  rw [List.append_nil] at hr
  refine ⟨h, c, hr, hidle, hpop, hpush, fun t h' c' vs hr' hd' => ?_⟩
  have hperm := ((queue_fifo hr).2 hidle t).2 h' c' vs hr' hd'
  rwa [hpop, hpush] at hperm

end Bonostl.LockfreeQueue
