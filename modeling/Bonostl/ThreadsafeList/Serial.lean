import Bonostl.Chain.Linked
import Bonostl.Chain.Pipeline
import Bonostl.Interleaving.Locks
import Bonostl.ThreadsafeList.Model

/-!
# The order of the head lock

The operations take effect in the order in which they lock `head`. A traversal cannot be overtaken,
so those in progress stand in line, the last one to enter nearest to `head`; the items between two
of them are what the one behind is going to meet next (`Pipeline`). What a traversal will have done
when it returns is thus settled when it locks `head`: what it has done so far, and what is left of
the items ahead once those before it have passed (`Expect`).

`Inv` says so of every reachable state, for a line `G` of traversals that owns every node of the
list; `g` are the links of the list with the cuts of moved `unique_ptr`s mended.
-/

namespace Bonostl.ThreadsafeList

open Interleaving Chain Pipeline

variable {ι T : Type}

/-! ## The abstract list -/

/-- What an operation does to a list, and what it returns. -/
def Op.apply (A : List T) : Op T → List T × Res T
  | .pushFront value => (value :: A, .unit)
  | .forEach => (A, .visited A)
  | .findFirstIf p => (A, .found (A.find? p))
  | .removeIf p => (A.filter fun x => !p x, .removed (A.filter p))

/-- The list after some operations, one at a time. -/
def serial (os : List (Op T)) : List T := os.foldl (fun A o => (o.apply A).1) []

/-- The operation of a traversal. -/
def Task.op : Task T → Op T
  | .forEach _ => .forEach
  | .findFirstIf p => .findFirstIf p
  | .removeIf p _ => .removeIf p

/-- The operation that locks `head` in a step from here. -/
def Pc.enters : Pc T → Option (Op T)
  | .lockPush _ value => some (.pushFront value)
  | .lockHead k => some k.op
  | _ => none

/-- The operations in the order in which they have locked `head`. -/
def entered : List (Step ι T) → List (Op T)
  | [] => []
  | r :: h => entered h ++ (r.pre.loc r.tid).enters.toList

/-! ## What is known at each place -/

namespace Pc

/-- The nodes a thread has locked. -/
def holds : Pc T → List ℕ
  | .moveNext _ _ | .setHead _ => [head]
  | .loadNext _ current | .lockNext _ current _ | .delete _ _ current _ => [current]
  | .unlockPrev _ current next | .test _ _ current next | .take _ _ current next
  | .splice _ _ current next | .unlockNext _ _ current next | .keep _ _ current next =>
    [current, next]
  | .visit _ next => [next]
  | .unlock a _ => [a]
  | _ => []

/-- The node whose mutex a thread is about to lock. -/
def wants : Pc T → Option ℕ
  | .lockPush _ _ | .lockHead _ => some head
  | .lockNext _ _ next => some next
  | _ => none

/-- The node that is not in the list and belongs to the thread. -/
def own : Pc T → Option ℕ
  | .lockPush n _ | .moveNext n _ => some n
  | .unlockNext _ _ _ next | .delete _ _ _ next => some next
  | _ => none

/-- The link that is cut between two moves. -/
def cut : Pc T → Option ℕ
  | .setHead _ => some head
  | .splice _ _ current _ => some current
  | _ => none

/-- The traversal a thread is in. -/
def task : Pc T → Option (Task T)
  | .loadNext k _ | .lockNext k _ _ | .unlockPrev k _ _ | .visit k _ => some k
  | .test p removed _ _ | .take p removed _ _ | .splice p removed _ _ | .unlockNext p removed _ _
  | .delete p removed _ _ | .keep p removed _ _ => some (.removeIf p removed)
  | _ => none

end Pc

/-- The items a traversal drops. -/
def Task.drops : Task T → ℕ × T → Bool
  | .removeIf p _ => fun e => p e.2
  | _ => fun _ => false

/-- What a traversal that entered with the list `A` has still to meet. -/
def Expect (A F : List T) : Task T → Prop
  | .forEach visited => A = visited ++ F
  | .findFirstIf p => A.find? p = F.find? p
  | .removeIf p removed => A.filter p = removed ++ F.filter p

/-- A line of traversals over the items of the list. -/
abbrev Line (ι T : Type) := List (Stage (Option ι) (ℕ × T))

/-- The nodes of the list, `head` first. -/
def nodesOf (G : Line ι T) : List ℕ := head :: (items G).map Prod.fst

/-- A node that a thread has for itself. -/
def Private (G : Line ι T) (s : Shared ι T) (n : ℕ) : Prop := n ∉ nodesOf G ∧ s.alive n = true

/-- A result is what the operation returns on the list it entered with. -/
def Answer (e : Option (Op T × List T)) (r : Res T) : Prop :=
  ∃ o A, e = some (o, A) ∧ r = (o.apply A).2

section
variable [DecidableEq ι]

/-- The node right behind traversal `t`. -/
def At (G : Line ι T) (t : ι) (a : ℕ) : Prop :=
  (head :: (behind (some t) G).map Prod.fst).getLast? = some a

/-- Traversal `t` is in line, and what it has done and will meet is what it has to. -/
structure Stands (e : Option (Op T × List T)) (G : Line ι T) (t : ι) (k : Task T) : Prop where
  mem : some t ∈ owners G
  drops : ∀ d, (some t, d) ∈ keys G → d = k.drops
  expect : ∃ A, e = some (k.op, A) ∧ Expect A ((future (some t) G).map Prod.snd) k

/-- The next item of traversal `t`. -/
def Next (G : Line ι T) (t : ι) (a : ℕ) (q : T → Prop) : Prop :=
  ∃ x l, segment (some t) G = (a, x) :: l ∧ q x

/-- What holds of a thread at each place; `e` is the operation and the list with which it has
entered. -/
def Pc.Ok (e : Option (Op T × List T)) (G : Line ι T) (g : ℕ → Option ℕ) (s : Shared ι T) (t : ι) :
    Pc T → Prop
  | .idle | .new _ => some t ∉ owners G
  | .lockHead k => some t ∉ owners G ∧ ∀ A, Expect A A k
  | .lockPush n value => some t ∉ owners G ∧ Private G s n ∧ s.data n = some value
  | .moveNext n value =>
    some t ∉ owners G ∧ Private G s n ∧ s.data n = some value ∧ Answer e .unit
  | .setHead n => some t ∉ owners G ∧ g head = some n ∧ Answer e .unit
  | .loadNext k current => Stands e G t k ∧ At G t current
  | .lockNext k current next => Stands e G t k ∧ At G t current ∧ g current = some next
  | .unlockPrev k current next =>
    Stands e G t k ∧ At G t current ∧ Next G t next fun x => k.drops (next, x) = false
  | .visit k next => Stands e G t k ∧ Next G t next fun x => k.drops (next, x) = false
  | .test p removed current next =>
    Stands e G t (.removeIf p removed) ∧ At G t current ∧ Next G t next fun _ => True
  | .take p removed current next | .splice p removed current next =>
    Stands e G t (.removeIf p removed) ∧ At G t current ∧ Next G t next fun x => p x = true
  | .keep p removed current next =>
    Stands e G t (.removeIf p removed) ∧ At G t current ∧ Next G t next fun x => p x = false
  | .unlockNext p removed current next | .delete p removed current next =>
    Stands e G t (.removeIf p removed) ∧ At G t current ∧ Private G s next
  | .unlock a r => some t ∉ owners G ∧ a ∈ nodesOf G ∧ Answer e r
  | .done r => some t ∉ owners G ∧ Answer e r

/-- **The invariant**: `A` is the abstract list, `E` says with what the threads have entered. -/
structure Inv (A : List T) (E : ι → Option (Op T × List T)) (G : Line ι T) (g : ℕ → Option ℕ)
    (s : Shared ι T) (f : ι → Pc T) : Prop where
  first : (keys G).head? = some (none, fun _ => false)
  nodup : (owners G).Nodup
  chain : Linked g (some head) (nodesOf G)
  data : ∀ e ∈ items G, s.data e.1 = some e.2
  alive : ∀ a ∈ nodesOf G, s.alive a = true
  links : ∀ a, (∀ t, (f t).cut ≠ some a) → s.next a = g a
  mutex : ∀ a t, s.mutex a = some t ↔ a ∈ (f t).holds
  own : ∀ t u n, (f t).own = some n → (f u).own = some n → t = u
  view : (∀ t n v, f t ≠ .moveNext n v) → A = (view G).map Prod.snd
  pushed : ∀ t n v, f t = .moveNext n v → A = v :: (Pipeline.view G).map Prod.snd
  place : ∀ t, (f t).Ok (E t) G g s t

/-! ## What the steps of others leave -/

/-- What a step of another thread keeps for a thread at `pc`. -/
structure Frame (G : Line ι T) (g : ℕ → Option ℕ) (s : Shared ι T) (G' : Line ι T)
    (g' : ℕ → Option ℕ)
    (s' : Shared ι T) (u : ι) (pc : Pc T) : Prop where
  mem : some u ∈ owners G' ↔ some u ∈ owners G
  drops : ∀ d, (some u, d) ∈ keys G' → (some u, d) ∈ keys G
  place : ∀ a ∈ pc.holds, At G u a → At G' u a
  segment : ∃ m, segment (some u) G' = segment (some u) G ++ m
  future : future (some u) G' = future (some u) G
  link : ∀ a ∈ pc.holds, g' a = g a
  nodes : ∀ a ∈ pc.holds, a ∈ nodesOf G → a ∈ nodesOf G'
  own : ∀ n, pc.own = some n → Private G s n → Private G' s' n ∧ s'.data n = s.data n

variable {A A' : List T} {E E' : ι → Option (Op T × List T)} {e : Option (Op T × List T)}
  {G G' : Line ι T} {g g' : ℕ → Option ℕ} {s s' : Shared ι T} {f : ι → Pc T} {t u : ι}
  {pc l' : Pc T}
  {k : Task T} {a : ℕ} {q : T → Prop}

theorem Stands.frame (h : Stands e G u k) (hF : Frame G g s G' g' s' u pc) : Stands e G' u k := by
  refine ⟨hF.mem.mpr h.mem, fun d hd => h.drops d (hF.drops d hd), ?_⟩
  rw [hF.future]
  exact h.expect

theorem Next.frame (h : Next G u a q) (hF : Frame G g s G' g' s' u pc) : Next G' u a q := by
  obtain ⟨x, l, hs, hq⟩ := h
  obtain ⟨m, hm⟩ := hF.segment
  exact ⟨x, l ++ m, by rw [hm, hs]; rfl, hq⟩

theorem Pc.Ok.frame (h : pc.Ok e G g s u) (hF : Frame G g s G' g' s' u pc) :
    pc.Ok e G' g' s' u := by
  cases pc with
  | idle | new value => exact fun hm => h (hF.mem.mp hm)
  | lockHead k => exact ⟨fun hm => h.1 (hF.mem.mp hm), h.2⟩
  | lockPush n value =>
    obtain ⟨h1, h2⟩ := hF.own n rfl h.2.1
    exact ⟨fun hm => h.1 (hF.mem.mp hm), h1, h2.trans h.2.2⟩
  | moveNext n value =>
    obtain ⟨h1, h2⟩ := hF.own n rfl h.2.1
    exact ⟨fun hm => h.1 (hF.mem.mp hm), h1, h2.trans h.2.2.1, h.2.2.2⟩
  | setHead n =>
    exact ⟨fun hm => h.1 (hF.mem.mp hm), (hF.link head (by simp [Pc.holds])).trans h.2.1, h.2.2⟩
  | loadNext k current => exact ⟨h.1.frame hF, hF.place _ (by simp [Pc.holds]) h.2⟩
  | lockNext k current next =>
    have hc : current ∈ (Pc.lockNext k current next).holds := by simp [Pc.holds]
    exact ⟨h.1.frame hF, hF.place _ hc h.2.1, (hF.link _ hc).trans h.2.2⟩
  | unlockPrev k current next =>
    exact ⟨h.1.frame hF, hF.place _ (by simp [Pc.holds]) h.2.1, h.2.2.frame hF⟩
  | visit k next => exact ⟨h.1.frame hF, h.2.frame hF⟩
  | test p removed current next | take p removed current next | splice p removed current next
  | keep p removed current next =>
    exact ⟨h.1.frame hF, hF.place _ (by simp [Pc.holds]) h.2.1, h.2.2.frame hF⟩
  | unlockNext p removed current next | delete p removed current next =>
    exact ⟨h.1.frame hF, hF.place _ (by simp [Pc.holds]) h.2.1, (hF.own next rfl h.2.2).1⟩
  | unlock a r =>
    exact ⟨fun hm => h.1 (hF.mem.mp hm), hF.nodes a (by simp [Pc.holds]) h.2.1, h.2.2⟩
  | done r => exact ⟨fun hm => h.1 (hF.mem.mp hm), h.2⟩

/-- Where the line and the links stay. -/
theorem Frame.same (hown : ∀ n, pc.own = some n → Private G s n →
    s'.alive n = true ∧ s'.data n = s.data n) : Frame G g s G g s' u pc :=
  ⟨Iff.rfl, fun _ h => h, fun _ _ h => h, ⟨[], (List.append_nil _).symm⟩, rfl,
    fun _ _ => rfl, fun _ _ h => h, fun n hn hp => ⟨⟨hp.1, (hown n hn hp).1⟩, (hown n hn hp).2⟩⟩

/-! ## The locks -/

/-- Two threads hold no common node. -/
theorem Inv.exclusive (h : Inv A E G g s f) (ht : a ∈ (f t).holds) (hu : a ∈ (f u).holds) :
    u = t := by
  have h1 := (h.mutex a t).mpr ht
  have h2 := (h.mutex a u).mpr hu
  rw [h1] at h2
  exact (Option.some.inj h2).symm

/-- The mutexes after a step, from what it does to the mover's. -/
theorem Inv.mutex_set (h : Inv A E G g s f) (hnew : ∀ b, s'.mutex b = some t ↔ b ∈ l'.holds)
    (hother : ∀ b u, u ≠ t → (s'.mutex b = some u ↔ s.mutex b = some u)) :
    ∀ b u, s'.mutex b = some u ↔ b ∈ (Function.update f t l' u).holds := by
  intro b u
  by_cases hu : u = t
  · subst hu; rw [Function.update_self]; exact hnew b
  · rw [Function.update_of_ne hu, hother b u hu]; exact h.mutex b u

theorem Inv.mutex_same (h : Inv A E G g s f) (hs : s'.mutex = s.mutex)
    (hl : ∀ b, b ∈ l'.holds ↔ b ∈ (f t).holds) :
    ∀ b u, s'.mutex b = some u ↔ b ∈ (Function.update f t l' u).holds :=
  h.mutex_set (fun b => by rw [hs, h.mutex, hl]) fun b u _ => by rw [hs]

theorem Inv.mutex_lock (h : Inv A E G g s f) (hm : s.mutex a = none)
    (hs : s'.mutex = Function.update s.mutex a (some t))
    (hl : ∀ b, b ∈ l'.holds ↔ b = a ∨ b ∈ (f t).holds) :
    ∀ b u, s'.mutex b = some u ↔ b ∈ (Function.update f t l' u).holds := by
  refine h.mutex_set (fun b => ?_) fun b u hu => ?_
  · rw [hs, hl, ← h.mutex]
    by_cases hb : b = a
    · subst hb; simp
    · rw [Function.update_of_ne hb]; simp [hb]
  · rw [hs]
    by_cases hb : b = a
    · subst hb; simp [hm, Ne.symm hu]
    · rw [Function.update_of_ne hb]

theorem Inv.mutex_unlock (h : Inv A E G g s f) (ht : a ∈ (f t).holds)
    (hs : s'.mutex = Function.update s.mutex a none)
    (hl : ∀ b, b ∈ l'.holds ↔ b ≠ a ∧ b ∈ (f t).holds) :
    ∀ b u, s'.mutex b = some u ↔ b ∈ (Function.update f t l' u).holds := by
  refine h.mutex_set (fun b => ?_) fun b u hu => ?_
  · rw [hs, hl, ← h.mutex]
    by_cases hb : b = a
    · subst hb; simp
    · rw [Function.update_of_ne hb]; simp [hb]
  · rw [hs]
    by_cases hb : b = a
    · subst hb
      rw [Function.update_self, (h.mutex b t).mpr ht]
      simp [Ne.symm hu]
    · rw [Function.update_of_ne hb]

/-! ## Steps that leave the line -/

theorem links_set (h : Inv A E G g s f) (hs : s'.next = s.next) (hc : (f t).cut = none) (a : ℕ)
    (ha : ∀ u, (Function.update f t l' u).cut ≠ some a) : s'.next a = g a := by
  rw [hs]
  refine h.links a fun u => ?_
  by_cases hu : u = t
  · subst hu; rw [hc]; nofun
  · have := ha u
    rwa [Function.update_of_ne hu] at this

theorem own_set (h : Inv A E G g s f) (hl : l'.own = none ∨ l'.own = (f t).own) :
    ∀ u v n, (Function.update f t l' u).own = some n → (Function.update f t l' v).own = some n →
      u = v := by
  have hsub : ∀ u n, (Function.update f t l' u).own = some n → (f u).own = some n := by
    intro u n hn
    by_cases hu : u = t
    · subst hu
      rw [Function.update_self] at hn
      rcases hl with hl | hl
      · rw [hl] at hn; cases hn
      · rwa [hl] at hn
    · rwa [Function.update_of_ne hu] at hn
  exact fun u v n hu hv => h.own u v n (hsub u n hu) (hsub v n hv)

theorem own_new (h : Inv A E G g s f)
    (hl : ∀ n, l'.own = some n → ∀ u, u ≠ t → (f u).own ≠ some n) :
    ∀ u v n, (Function.update f t l' u).own = some n → (Function.update f t l' v).own = some n →
      u = v := by
  intro u v n hu hv
  by_cases hut : u = t
  · by_cases hvt : v = t
    · rw [hut, hvt]
    · rw [hut, Function.update_self] at hu
      rw [Function.update_of_ne hvt] at hv
      exact absurd hv (hl n hu v hvt)
  · rw [Function.update_of_ne hut] at hu
    by_cases hvt : v = t
    · rw [hvt, Function.update_self] at hv
      exact absurd hu (hl n hv u hut)
    · rw [Function.update_of_ne hvt] at hv
      exact h.own u v n hu hv

theorem Pc.Ok.own_private (h : pc.Ok e G g s u) {n : ℕ} (hn : pc.own = some n) : Private G s n := by
  cases pc with
  | lockPush m value => cases hn; exact h.2.1
  | moveNext m value => cases hn; exact h.2.1
  | unlockNext p removed current next | delete p removed current next => cases hn; exact h.2.2
  | _ => cases hn

/-- The invariant after a step, from its parts. -/
theorem Inv.assemble (h : Inv A E G g s f)
    (hfirst : (keys G').head? = some (none, fun _ => false))
    (hnodup : (owners G').Nodup) (hchain : Linked g' (some head) (nodesOf G'))
    (hdata : ∀ e ∈ items G', s'.data e.1 = some e.2) (halive : ∀ a ∈ nodesOf G', s'.alive a = true)
    (hlinks : ∀ a, (∀ u, (Function.update f t l' u).cut ≠ some a) → s'.next a = g' a)
    (hmutex : ∀ b u, s'.mutex b = some u ↔ b ∈ (Function.update f t l' u).holds)
    (hown : ∀ u v n, (Function.update f t l' u).own = some n →
      (Function.update f t l' v).own = some n → u = v)
    (hview : (∀ n v, l' ≠ .moveNext n v) → (∀ u n v, u ≠ t → f u ≠ .moveNext n v) →
      A' = (Pipeline.view G').map Prod.snd)
    (hpushed : ∀ n v, l' = .moveNext n v → A' = v :: (Pipeline.view G').map Prod.snd)
    (hothers : ∀ u n v, u ≠ t → f u = .moveNext n v → A' = v :: (Pipeline.view G').map Prod.snd)
    (hE : ∀ u, u ≠ t → E' u = E u) (hframe : ∀ u, u ≠ t → Frame G g s G' g' s' u (f u))
    (hok : l'.Ok (E' t) G' g' s' t) : Inv A' E' G' g' s' (Function.update f t l') := by
  refine ⟨hfirst, hnodup, hchain, hdata, halive, hlinks, hmutex, hown, fun hno => hview ?_ ?_,
    fun u n v he => ?_, fun u => ?_⟩
  · intro n v he
    exact hno t n v (by rw [Function.update_self]; exact he)
  · intro u n v hu he
    exact hno u n v (by rw [Function.update_of_ne hu]; exact he)
  · by_cases hu : u = t
    · subst hu
      rw [Function.update_self] at he
      exact hpushed n v he
    · rw [Function.update_of_ne hu] at he
      exact hothers u n v hu he
  · by_cases hu : u = t
    · subst hu; rwa [Function.update_self]
    · rw [Function.update_of_ne hu, hE u hu]
      exact (h.place u).frame (hframe u hu)

/-- What a step leaves of the abstract list that keeps the view and does not push. -/
theorem Inv.view_same (h : Inv A E G g s f) (hpc : ∀ n v, f t ≠ .moveNext n v)
    (hv : Pipeline.view G' = Pipeline.view G) :
    ((∀ u n v, u ≠ t → f u ≠ .moveNext n v) → A = (Pipeline.view G').map Prod.snd) ∧
      ∀ u n v, u ≠ t → f u = .moveNext n v → A = v :: (Pipeline.view G').map Prod.snd := by
  rw [hv]
  refine ⟨fun hno => h.view fun u n v he => ?_, fun u n v _ he => h.pushed u n v he⟩
  by_cases hu : u = t
  · subst hu; exact hpc n v he
  · exact hno u n v hu he

/-- A step that changes neither the line nor a node. -/
theorem Inv.goto (h : Inv A E G g s f) (hE : ∀ u, u ≠ t → E' u = E u) (hd : s'.data = s.data)
    (ha : s'.alive = s.alive)
    (hlinks : ∀ a, (∀ u, (Function.update f t l' u).cut ≠ some a) → s'.next a = g a)
    (hmutex : ∀ b u, s'.mutex b = some u ↔ b ∈ (Function.update f t l' u).holds)
    (hown : l'.own = none ∨ l'.own = (f t).own) (hpc : ∀ n v, f t ≠ .moveNext n v)
    (hl : ∀ n v, l' ≠ .moveNext n v) (hok : l'.Ok (E' t) G g s' t) :
    Inv A E' G g s' (Function.update f t l') := by
  obtain ⟨hv, ho⟩ := h.view_same hpc rfl
  exact h.assemble h.first h.nodup h.chain (by rw [hd]; exact h.data)
    (by rw [ha]; exact h.alive) hlinks
    hmutex (own_set h hown) (fun _ => hv) (fun n v he => absurd he (hl n v)) ho hE
    (fun u hu => .same fun n _ hp => ⟨by rw [ha]; exact hp.2, by rw [hd]⟩) hok

/-! ## A traversal in the line -/

omit [DecidableEq ι] in
theorem first_stage (hf : (keys G).head? = some (none, fun _ => false)) :
    ∃ w G', G = w :: G' ∧ w.owner = none ∧ ∀ e, w.drops e = false := by
  cases G with
  | nil => cases hf
  | cons w G' =>
    obtain ⟨h1, h2⟩ := Prod.mk.inj (Option.some.inj hf)
    exact ⟨w, G', rfl, h1, fun e => by rw [h2]⟩

/-- The stage of a traversal, and the one behind it. -/
theorem Inv.stage (h : Inv A E G g s f) (ht : some t ∈ owners G) :
    ∃ pre w k post, G = pre ++ w :: k :: post ∧ k.owner = some t ∧ some t ∉ owners pre ∧
      w.owner ≠ some t ∧ some t ∉ owners post := by
  obtain ⟨w, G', rfl, hw, -⟩ := first_stage h.first
  refine exists_stage h.nodup ((List.mem_cons.mp ht).resolve_left ?_)
  rw [hw]
  nofun

/-- The list from the node right behind a traversal. -/
theorem Inv.at_split (h : Inv A E G g s f) {pre post : Line ι T} {w k : Stage (Option ι) (ℕ × T)}
    (hG : G = pre ++ w :: k :: post) (hk : k.owner = some t) (hpre : some t ∉ owners pre)
    (hw : w.owner ≠ some t) (ha : At G t a) :
    ∃ l, nodesOf G = l ++ a :: (k.segment ++ items post).map Prod.fst ∧
      head :: (items pre ++ w.segment).map Prod.fst = l ++ [a] ∧
      Linked g (g a) ((k.segment ++ items post).map Prod.fst) := by
  unfold At at ha
  rw [hG, behind_self hpre hw hk, List.getLast?_eq_some_iff] at ha
  obtain ⟨l, hl⟩ := ha
  have hn : nodesOf G = l ++ a :: (k.segment ++ items post).map Prod.fst := by
    have : nodesOf G =
        (head :: (items pre ++ w.segment).map Prod.fst) ++
          (k.segment ++ items post).map Prod.fst := by
      rw [hG]
      simp [nodesOf, items]
    rw [this, hl]
    simp
  refine ⟨l, hn, hl, ?_⟩
  have hc := h.chain
  rw [hn] at hc
  exact hc.suffix

/-- A traversal in line holds the node behind it or its next item. -/
theorem Pc.Ok.in_line (h : pc.Ok e G g s u) (hm : some u ∈ owners G) :
    (∃ a ∈ pc.holds, At G u a) ∨ ∃ a ∈ pc.holds, Next G u a fun _ => True := by
  cases pc with
  | idle | new value => exact absurd hm h
  | lockHead k | lockPush n value | moveNext n value | setHead n | unlock a r | done r =>
    exact absurd hm h.1
  | loadNext k current => exact .inl ⟨current, by simp [Pc.holds], h.2⟩
  | visit k next =>
    obtain ⟨x, l, hx, -⟩ := h.2
    exact .inr ⟨next, by simp [Pc.holds], x, l, hx, trivial⟩
  | _ => exact .inl ⟨_, by simp [Pc.holds], h.2.1⟩

/-- No stage but the first is nobody's. -/
theorem Inv.owner_some (h : Inv A E G g s f) {pre post : Line ι T} {w k : Stage (Option ι) (ℕ × T)}
    (hG : G = pre ++ w :: k :: post) : ∃ u, k.owner = some u := by
  obtain ⟨w₀, G', hG', hw₀, -⟩ := first_stage h.first
  cases hk : k.owner with
  | some u => exact ⟨u, rfl⟩
  | none =>
    have hnd := h.nodup
    have hmem : w₀.owner ∈ owners (pre ++ [w]) := by
      have hhead : (pre ++ [w]).head? = some w₀ := by
        have := congrArg List.head? (hG.symm.trans hG')
        cases pre <;> simpa using this
      exact List.mem_map_of_mem (List.mem_of_mem_head? hhead)
    have hG₂ : owners G = owners (pre ++ [w]) ++ owners (k :: post) := by
      rw [hG]; simp [owners]
    rw [hG₂] at hnd
    exact absurd (hw₀.trans hk.symm)
      ((List.nodup_append.mp hnd).2.2 w₀.owner hmem k.owner (by simp [owners]))

/-- A thread that has locked the next node has overtaken nobody: the node is its own next item. -/
theorem Inv.next_segment (h : Inv A E G g s f) {current next : ℕ}
    (hft : f t = .lockNext k current next) (hm : s.mutex next = none) :
    Next G t next fun _ => True := by
  have hpl := h.place t
  rw [hft] at hpl
  obtain ⟨hS, hAt, hg⟩ := hpl
  obtain ⟨pre, w, st, post, hG, hst, hpre, hw, hpost⟩ := h.stage hS.mem
  obtain ⟨l, -, hl, hlink⟩ := h.at_split hG hst hpre hw hAt
  rw [hg] at hlink
  have hseg : segment (some t) G = st.segment := by rw [hG, segment_self hpre hw hst]
  cases hsegs : st.segment with
  | cons e m =>
    rw [hsegs] at hlink hseg
    obtain ⟨a, x⟩ := e
    obtain rfl : next = a := Option.some.inj hlink.1
    exact ⟨x, m, hseg, trivial⟩
  | nil =>
    exfalso
    rw [hsegs, List.nil_append] at hlink
    cases post with
    | nil => cases hlink
    | cons st' post' =>
      -- the traversal ahead stands at the same node, or holds the next one
      have hG' : G = (pre ++ [w]) ++ st :: st' :: post' := by rw [hG]; simp
      obtain ⟨u, hu⟩ := h.owner_some hG'
      have hut : u ≠ t := by
        rintro rfl
        exact hpost (by rw [← hu]; simp [owners])
      have hupre : some u ∉ owners (pre ++ [w]) ∧ st.owner ≠ some u := by
        have hnd := h.nodup
        rw [hG', owners, List.map_append, List.nodup_append] at hnd
        refine ⟨fun hmem => hnd.2.2 _ hmem _ (by simp [← hu]) rfl, ?_⟩
        rw [hst]
        exact fun e => hut (Option.some.inj e).symm
      have hmem : some u ∈ owners G := by rw [hG', ← hu]; simp [owners]
      rcases (h.place u).in_line hmem with ⟨a, ha, hAtu⟩ | ⟨a, ha, x, m, hx, -⟩
      · obtain ⟨l', -, hl', -⟩ := h.at_split hG' hu hupre.1 hupre.2 hAtu
        have he : l ++ [current] = l' ++ [a] := by
          rw [← hl, ← hl', hsegs]
          simp [items]
        obtain rfl : current = a := by simpa using congrArg List.getLast? he
        exact hut (h.exclusive (by rw [hft]; simp [Pc.holds]) ha)
      · rw [hG', segment_self hupre.1 hupre.2 hu] at hx
        simp only [items, List.flatMap_cons, hx] at hlink
        obtain rfl : next = a := Option.some.inj hlink.1
        rw [(h.mutex next u).mpr ha] at hm
        cases hm

/-! ## Steps that change the line -/

theorem at_of_behind {m : List (ℕ × T)} {x : T} (hb : behind (some t) G = m ++ [(a, x)]) :
    At G t a := by
  rw [At, hb, List.getLast?_eq_some_iff]
  exact ⟨head :: m.map Prod.fst, by simp⟩

/-- A traversal passes its next item and stands on it. -/
theorem Inv.pass (h : Inv A E G g s f) {x : T} {l : List (ℕ × T)} {k' : Task T}
    (hS : Stands (E t) G t k) (hseg : segment (some t) G = (a, x) :: l)
    (hdrop : k.drops (a, x) = false) (hd : s'.data = s.data) (ha : s'.alive = s.alive)
    (hn : s'.next = s.next) (hcut : (f t).cut = none)
    (hmutex : ∀ b u, s'.mutex b = some u ↔ b ∈ (Function.update f t (.loadNext k' a) u).holds)
    (hpc : ∀ n v, f t ≠ .moveNext n v) (hk : k'.drops = k.drops ∧ k'.op = k.op)
    (hexp : ∀ A F, Expect A (x :: F) k → Expect A F k') :
    ∃ G', Inv A E G' g s' (Function.update f t (.loadNext k' a)) := by
  obtain ⟨pre, w, st, post, rfl, hst, hpre, hw, hpost⟩ := h.stage hS.mem
  rw [segment_self hpre hw hst] at hseg
  obtain ⟨o, d, m⟩ := st
  obtain rfl : m = (a, x) :: l := hseg
  obtain rfl : o = some t := hst
  have hdk : d = k.drops := hS.drops d (by simp [keys])
  have hda : d (a, x) = false := by rw [hdk]; exact hdrop
  have hw' :
      ({ w with segment := w.segment ++ [(a, x)] } : Stage (Option ι) (ℕ × T)).owner ≠ some t :=
    hw
  have hkeys : keys (pre ++ { w with segment := w.segment ++ [(a, x)] } :: ⟨some t, d, l⟩ :: post) =
      keys (pre ++ w :: ⟨some t, d, (a, x) :: l⟩ :: post) := by simp [keys]
  have howners :
      owners (pre ++ { w with segment := w.segment ++ [(a, x)] } :: ⟨some t, d, l⟩ :: post) =
      owners (pre ++ w :: ⟨some t, d, (a, x) :: l⟩ :: post) := by simp [owners]
  have hitems :
      items (pre ++ { w with segment := w.segment ++ [(a, x)] } :: ⟨some t, d, l⟩ :: post) =
      items (pre ++ w :: ⟨some t, d, (a, x) :: l⟩ :: post) := items_pass (k := ⟨some t, d, []⟩)
  have hv : Pipeline.view (pre ++ w :: ⟨some t, d, (a, x) :: l⟩ :: post) = _ :=
    view_pass (k := ⟨some t, d, []⟩) hda
  obtain ⟨hview, hothers⟩ := h.view_same hpc hv.symm
  refine ⟨pre ++ { w with segment := w.segment ++ [(a, x)] } :: ⟨some t, d, l⟩ :: post,
    h.assemble (hkeys ▸ h.first) (howners ▸ h.nodup) ?_ ?_ ?_ (links_set h hn hcut) hmutex
    (own_set h (.inl rfl)) (fun _ => hview) nofun hothers (fun _ _ => rfl) (fun u hu => ?_)
    ⟨?_, ?_⟩⟩
  · rw [nodesOf, hitems]; exact h.chain
  · rw [hd, hitems]; exact h.data
  · rw [ha, nodesOf, hitems]; exact h.alive
  · have hne : (some t : Option ι) ≠ some u := fun e => hu (Option.some.inj e).symm
    refine ⟨by rw [howners], by rw [hkeys]; exact fun _ hd => hd, fun b _ hb => ?_,
      segment_pass (k := ⟨some t, d, []⟩) hne, (future_pass (k := ⟨some t, d, []⟩) hda hne).symm,
      fun _ _ => rfl, fun b _ hb => ?_, fun n _ hp => ⟨⟨?_, by rw [ha]; exact hp.2⟩, by rw [hd]⟩⟩
    · rw [At, behind_pass (k := ⟨some t, d, []⟩) hne]
      exact hb
    · rw [nodesOf, hitems]; exact hb
    · rw [nodesOf, hitems]; exact hp.1
  · refine ⟨by rw [howners]; exact hS.mem, by rw [hkeys, hk.1]; exact hS.drops, ?_⟩
    obtain ⟨A₀, he, hx⟩ := hS.expect
    rw [future_self hpre hw rfl] at hx
    exact ⟨A₀, by rw [hk.2]; exact he, by rw [future_self hpre hw' rfl]; exact hexp _ _ hx⟩
  · exact at_of_behind ((behind_self hpre hw' rfl).trans (List.append_assoc ..).symm)

omit [DecidableEq ι] in
theorem cut_holds (hc : pc.cut = some a) : a ∈ pc.holds := by
  cases pc with
  | setHead n | splice p removed current next => cases hc; simp [Pc.holds]
  | _ => cases hc

omit [DecidableEq ι] in
/-- What is last stays last when another is taken out. -/
theorem getLast?_take_out {l m : List ℕ} {a b c : ℕ} (h : (c :: (l ++ a :: m)).getLast? = some b)
    (hab : b ≠ a) : (c :: (l ++ m)).getLast? = some b := by
  cases m with
  | nil =>
    have he : (c :: (l ++ [a])).getLast? = some a := by
      rw [← List.cons_append, List.getLast?_append]
      rfl
    rw [he] at h
    exact absurd (Option.some.inj h).symm hab
  | cons d m =>
    have he : ∀ l' : List ℕ, (c :: (l' ++ d :: m)).getLast? = (d :: m).getLast? := by
      intro l'
      rw [← List.cons_append, List.getLast?_append, List.getLast?_cons]
      rfl
    rw [he]
    rwa [show l ++ a :: d :: m = (l ++ [a]) ++ d :: m by simp, he] at h

/-- `remove_if` takes its next item out of the list. -/
theorem Inv.drop (h : Inv A E G g s f) {p : T → Bool} {removed : List T} {current next : ℕ}
    (hft : f t = .splice p removed current next) :
    ∃ G' g', Inv A E G' g' (s.move next current) (Function.update f t
      (.unlockNext p (removed ++ (s.data next).toList) current next)) := by
  have hpl := h.place t
  rw [hft] at hpl
  obtain ⟨hS, hAt, x, l, hseg, hpx⟩ := hpl
  obtain ⟨pre, w, st, post, hG, hst, hpre, hw, hpost⟩ := h.stage hS.mem
  obtain ⟨lx, hnodes, hlx, -⟩ := h.at_split hG hst hpre hw hAt
  rw [hG, segment_self hpre hw hst] at hseg
  obtain ⟨o, d, m⟩ := st
  obtain rfl : m = (next, x) :: l := hseg
  obtain rfl : o = some t := hst
  subst hG
  have hdk : d = (Task.removeIf p removed).drops := hS.drops d (by simp [keys])
  have hda : d (next, x) = true := by rw [hdk]; exact hpx
  have hnd : (lx ++ current :: next :: (l ++ items post).map Prod.fst).Nodup := by
    have := h.chain.nodup
    rwa [hnodes] at this
  have hcn : current ≠ next := by grind
  have hsx : s.data next = some x := h.data (next, x) (by simp [items])
  have hmem : next ∈ nodesOf (pre ++ w :: ⟨some t, d, (next, x) :: l⟩ :: post) := by
    rw [hnodes]; simp
  have hheld : ∀ u b, u ≠ t → b ∈ (f u).holds → b ≠ current ∧ b ≠ next := by
    refine fun u b hu hb => ⟨?_, ?_⟩
    · rintro rfl
      exact hu (h.exclusive (by rw [hft]; simp [Pc.holds]) hb)
    · rintro rfl
      exact hu (h.exclusive (by rw [hft]; simp [Pc.holds]) hb)
  have hkeys : keys (pre ++ w :: ⟨some t, d, l⟩ :: post) =
      keys (pre ++ w :: ⟨some t, d, (next, x) :: l⟩ :: post) := by simp [keys]
  have howners : owners (pre ++ w :: ⟨some t, d, l⟩ :: post) =
      owners (pre ++ w :: ⟨some t, d, (next, x) :: l⟩ :: post) := by simp [owners]
  have hnodes' : nodesOf (pre ++ w :: ⟨some t, d, l⟩ :: post) =
      lx ++ current :: (l ++ items post).map Prod.fst := by
    have : nodesOf (pre ++ w :: ⟨some t, d, l⟩ :: post) =
        (head :: (items pre ++ w.segment).map Prod.fst) ++ (l ++ items post).map Prod.fst := by
      simp [nodesOf, items]
    rw [this, hlx]
    simp
  have hsub : ∀ b, b ∈ nodesOf (pre ++ w :: ⟨some t, d, l⟩ :: post) ↔ b ≠ next ∧
      b ∈ nodesOf (pre ++ w :: ⟨some t, d, (next, x) :: l⟩ :: post) := by
    intro b
    rw [hnodes', hnodes]
    grind
  have hre : ∀ k : Stage (Option ι) (ℕ × T), (pre ++ [w]) ++ k :: post = pre ++ w :: k :: post := by
    simp
  have hv : Pipeline.view ((pre ++ [w]) ++ ⟨some t, d, (next, x) :: l⟩ :: post) = _ :=
    view_drop (k := ⟨some t, d, []⟩) hda
  rw [hre, hre] at hv
  obtain ⟨hview, hothers⟩ := h.view_same (t := t) (by simp [hft]) hv.symm
  refine ⟨pre ++ w :: ⟨some t, d, l⟩ :: post,
    Function.update (Function.update g current (g next)) next none,
    h.assemble (hkeys ▸ h.first) (howners ▸ h.nodup) ?_ (fun e he => h.data e ?_)
    (fun b hb => h.alive b ((hsub b).mp hb).2) (fun b hb => ?_)
    (h.mutex_same rfl (by rw [hft]; simp [Pc.holds])) (fun u v n hu hv => ?_) (fun _ => hview)
    (by rintro _ _ ⟨⟩)
    hothers (fun _ _ => rfl) (fun u hu => ?_) ⟨?_, ?_, ?_⟩⟩
  · have hc := h.chain
    rw [hnodes] at hc
    rw [hnodes']
    refine hc.unlink.congr fun b hb => Function.update_of_ne ((hsub b).mp ?_).1 _ _
    rw [hnodes']
    exact hb
  · rw [← hre] at he ⊢
    simp only [items, List.flatMap_append, List.flatMap_cons, List.mem_append, List.mem_cons]
      at he ⊢
    tauto
  · show Function.update (Function.update s.next current (s.next next)) next none b = _
    by_cases hbn : b = next
    · rw [hbn, Function.update_self, Function.update_self]
    rw [Function.update_of_ne hbn, Function.update_of_ne hbn]
    by_cases hbc : b = current
    · rw [hbc, Function.update_self, Function.update_self]
      refine h.links next fun u hu => ?_
      obtain rfl := h.exclusive (t := t) (by rw [hft]; simp [Pc.holds]) (cut_holds hu)
      rw [hft] at hu
      exact hcn (Option.some.inj hu)
    · rw [Function.update_of_ne hbc, Function.update_of_ne hbc]
      refine h.links b fun u hu => ?_
      by_cases hut : u = t
      · subst hut
        rw [hft] at hu
        exact hbc (Option.some.inj hu).symm
      · exact hb u (by rw [Function.update_of_ne hut]; exact hu)
  · refine own_new h (fun n hn u _ hu => ?_) u v n hu hv
    obtain rfl := Option.some.inj hn
    exact ((h.place u).own_private hu).1 hmem
  · have hne : (some t : Option ι) ≠ some u := fun e => hu (Option.some.inj e).symm
    refine ⟨by rw [howners], by rw [hkeys]; exact fun _ hd => hd, fun b hb hAtu => ?_, ⟨[], ?_⟩, ?_,
      fun b hb => ?_, fun b hb hbn => ?_, fun n _ hp => ⟨⟨fun hn => ?_, hp.2⟩, rfl⟩⟩
    · have hb' : behind (some u) ((pre ++ [w]) ++ ⟨some t, d, l⟩ :: post) = _ ∨ _ :=
        behind_drop (k := ⟨some t, d, []⟩) (a := (next, x)) hne
      rw [hre, hre] at hb'
      rcases hb' with hb' | ⟨m, h1, h2⟩
      · rw [At, hb']
        exact hAtu
      · rw [At, h1] at hAtu
        rw [At, h2]
        simp only [List.map_append, List.map_cons] at hAtu ⊢
        exact getLast?_take_out hAtu (hheld u b hu hb).2
    · have hs' : segment (some u) ((pre ++ [w]) ++ ⟨some t, d, l⟩ :: post) = _ :=
        segment_drop (k := ⟨some t, d, []⟩) (a := (next, x)) hne
      rw [hre, hre] at hs'
      rw [hs', List.append_nil]
    · have hf' : future (some u) ((pre ++ [w]) ++ ⟨some t, d, (next, x) :: l⟩ :: post) = _ :=
        future_drop (k := ⟨some t, d, []⟩) hda hne
      rw [hre, hre] at hf'
      exact hf'.symm
    · obtain ⟨h1, h2⟩ := hheld u b hu hb
      rw [Function.update_of_ne h2, Function.update_of_ne h1]
    · exact (hsub b).mpr ⟨(hheld u b hu hb).2, hbn⟩
    · exact hp.1 ((hsub n).mp hn).2
  · refine ⟨by rw [howners]; exact hS.mem, by rw [hkeys]; exact hS.drops, ?_⟩
    obtain ⟨A₀, he, hx⟩ := hS.expect
    rw [future_self hpre hw rfl] at hx
    refine ⟨A₀, he, ?_⟩
    rw [future_self hpre hw rfl, hsx]
    simpa [Expect, hpx] using hx
  · rw [At, behind_self hpre hw rfl]
    rwa [At, behind_self hpre hw rfl] at hAt
  · exact ⟨fun hn => ((hsub next).mp hn).1 rfl, h.alive next hmem⟩

/-- The nodes a thread has locked are in the list, or its own. -/
theorem Pc.Ok.held (h : pc.Ok e G g s u) (ha : a ∈ pc.holds) : pc.own = some a ∨ a ∈ nodesOf G := by
  have hAt : ∀ {b : ℕ}, At G u b → b ∈ nodesOf G := by
    intro b hb
    have hm := List.mem_of_getLast? hb
    refine List.mem_cons.mpr ((List.mem_cons.mp hm).imp id fun hm => ?_)
    exact (List.Sublist.map _ (behind_sublist G)).subset hm
  have hNext : ∀ {b : ℕ} {q : T → Prop}, Next G u b q → b ∈ nodesOf G := by
    rintro b q ⟨x, l, hs, -⟩
    refine List.mem_cons_of_mem _ (List.mem_map.mpr ⟨(b, x), ?_, rfl⟩)
    exact (segment_sublist G).subset (by rw [hs]; simp)
  have hhead : head ∈ nodesOf G := by simp [nodesOf]
  cases pc with
  | moveNext n value | setHead n =>
    simp only [Pc.holds, List.mem_singleton] at ha; exact .inr (ha ▸ hhead)
  | loadNext k current | lockNext k current next =>
    simp only [Pc.holds, List.mem_singleton] at ha
    subst ha
    first | exact .inr (hAt h.2) | exact .inr (hAt h.2.1)
  | delete p removed current next =>
    simp only [Pc.holds, List.mem_singleton] at ha
    exact .inr (ha ▸ hAt h.2.1)
  | visit k next =>
    simp only [Pc.holds, List.mem_singleton] at ha
    exact .inr (ha ▸ hNext h.2)
  | unlockPrev k current next =>
    simp only [Pc.holds, List.mem_cons, List.not_mem_nil, or_false] at ha
    rcases ha with rfl | rfl
    · exact .inr (hAt h.2.1)
    · exact .inr (hNext h.2.2)
  | test p removed current next | take p removed current next | splice p removed current next
  | keep p removed current next =>
    simp only [Pc.holds, List.mem_cons, List.not_mem_nil, or_false] at ha
    rcases ha with rfl | rfl
    · exact .inr (hAt h.2.1)
    · exact .inr (hNext h.2.2)
  | unlockNext p removed current next =>
    simp only [Pc.holds, List.mem_cons, List.not_mem_nil, or_false] at ha
    rcases ha with rfl | rfl
    · exact .inr (hAt h.2.1)
    · exact .inl rfl
  | unlock b r =>
    simp only [Pc.holds, List.mem_singleton] at ha
    exact .inr (ha ▸ h.2.1)
  | _ => cases ha

theorem Inv.held_alive (h : Inv A E G g s f) (ha : a ∈ (f u).holds) : s.alive a = true := by
  rcases (h.place u).held ha with ho | hn
  · exact ((h.place u).own_private ho).2
  · exact h.alive a hn

/-- A traversal that would drop nothing any more goes out of line. -/
theorem Inv.leave (h : Inv A E G g s f) {r : Res T} (ht : some t ∈ owners G)
    (hq : ∀ d, (some t, d) ∈ keys G → ∀ e ∈ future (some t) G, d e = false)
    (hpc : ∀ n v, f t ≠ .moveNext n v) (hcut : (f t).cut = none) (hh : (f t).holds = [a])
    (ha : a ∈ nodesOf G) (hr : Answer (E t) r) :
    ∃ G', Inv A E G' g s (Function.update f t (.unlock a r)) := by
  obtain ⟨pre, w, st, post, rfl, hst, hpre, hw, hpost⟩ := h.stage ht
  obtain ⟨o, d, m⟩ := st
  obtain rfl : o = some t := hst
  rw [future_self hpre hw rfl] at hq
  have hk := hq d (by simp [keys])
  have hsub : (pre ++ { w with segment := w.segment ++ m } :: post : Line ι T).map
      (fun k => (k.owner, k.drops)) |>.Sublist (keys (pre ++ w :: ⟨some t, d, m⟩ :: post)) := by
    simp only [keys, List.map_append, List.map_cons]
    exact (List.Sublist.refl _).append ((List.sublist_cons_self _ _).cons_cons _)
  have hitems : items (pre ++ { w with segment := w.segment ++ m } :: post) =
      items (pre ++ w :: ⟨some t, d, m⟩ :: post) := items_leave (k := ⟨some t, d, m⟩)
  have hv : Pipeline.view (pre ++ w :: ⟨some t, d, m⟩ :: post) = _ := view_leave hk
  obtain ⟨hview, hothers⟩ := h.view_same hpc hv.symm
  have howners : ∀ o, o ∈ owners (pre ++ { w with segment := w.segment ++ m } :: post) ↔
      o ≠ some t ∧ o ∈ owners (pre ++ w :: ⟨some t, d, m⟩ :: post) := by
    intro o
    simp only [owners, List.map_append, List.map_cons, List.mem_append,
      List.mem_cons] at hpre hpost ⊢
    grind
  refine ⟨pre ++ { w with segment := w.segment ++ m } :: post, h.assemble ?_ ?_ ?_ ?_ ?_
    (links_set h rfl hcut) (h.mutex_same rfl (by rw [hh]; simp [Pc.holds])) (own_set h (.inl rfl))
    (fun _ => hview) nofun hothers (fun _ _ => rfl) (fun u hu => ?_)
    ⟨fun hm => ((howners _).mp hm).1 rfl, ?_, hr⟩⟩
  · have := h.first
    cases pre <;> simpa [keys] using this
  · have := h.nodup
    rw [owners] at this ⊢
    refine this.sublist ?_
    simp only [List.map_append, List.map_cons]
    exact (List.Sublist.refl _).append ((List.sublist_cons_self _ _).cons_cons _)
  · rw [nodesOf, hitems]; exact h.chain
  · rw [hitems]; exact h.data
  · rw [nodesOf, hitems]; exact h.alive
  · have hne : (some t : Option ι) ≠ some u := fun e => hu (Option.some.inj e).symm
    refine ⟨(howners _).trans ⟨fun h => h.2, fun h => ⟨hne.symm, h⟩⟩, fun _ hd => hsub.subset hd,
      fun b _ hb => ?_, segment_leave (k := ⟨some t, d, m⟩) hne, (future_leave hk hne).symm,
      fun _ _ => rfl, fun b _ hb => ?_, fun n _ hp => ⟨⟨?_, hp.2⟩, rfl⟩⟩
    · rw [At, behind_leave (k := ⟨some t, d, m⟩) hne]
      exact hb
    · rw [nodesOf, hitems]; exact hb
    · rw [nodesOf, hitems]; exact hp.1
  · rw [nodesOf, hitems]; exact ha

/-- While `head` is not locked, nobody is about to link a node. -/
theorem Inv.unlocked_view (h : Inv A E G g s f) (hm : s.mutex head = none) :
    (∀ u n v, f u ≠ .moveNext n v) ∧ A = (Pipeline.view G).map Prod.snd := by
  have hno : ∀ u n v, f u ≠ .moveNext n v := by
    intro u n v he
    have := (h.mutex head u).mpr (by rw [he]; simp [Pc.holds])
    rw [hm] at this
    cases this
  exact ⟨hno, h.view hno⟩

omit [DecidableEq ι] in
theorem apply_task (l : List (ℕ × T)) (k : Task T) :
    (k.op.apply (l.map Prod.snd)).1 = (l.filter fun e => !k.drops e).map Prod.snd := by
  cases k with
  | removeIf p removed =>
    show (l.map Prod.snd).filter _ = _
    rw [List.filter_map]
    rfl
  | _ => simp [Task.op, Op.apply, Task.drops]

/-- A traversal locks `head` and gets in line. -/
theorem Inv.enter (h : Inv A E G g s f) (hft : f t = .lockHead k) (hm : s.mutex head = none) :
    ∃ G', Inv (k.op.apply A).1 (Function.update E t (some (k.op, A))) G' g
      { s with mutex := Function.update s.mutex head (some t) }
      (Function.update f t (.loadNext k head)) := by
  have hpl := h.place t
  rw [hft] at hpl
  obtain ⟨hno, hA⟩ := h.unlocked_view hm
  obtain ⟨w, G₁, rfl, hw, hwd⟩ := first_stage h.first
  obtain ⟨hnt, hfresh⟩ := hpl
  have hv := view_enter (G := G₁) hwd (some t) k.drops
  have hitems : items ({ w with segment := [] } :: ⟨some t, k.drops, w.segment⟩ :: G₁) =
      items (w :: G₁) := by simp [items]
  have hwt : w.owner ≠ some t := by simp [hw]
  have hview : (k.op.apply A).1 =
      (Pipeline.view ({ w with segment := [] } :: ⟨some t, k.drops, w.segment⟩ :: G₁)).map
        Prod.snd := by
    rw [hv, hA]
    exact apply_task _ k
  have hG₁ : some t ∉ owners G₁ := fun hmem => hnt (List.mem_cons_of_mem _ hmem)
  refine ⟨{ w with segment := [] } :: ⟨some t, k.drops, w.segment⟩ :: G₁,
    h.assemble h.first ?_ ?_ ?_ ?_ (links_set h rfl (by rw [hft]; rfl))
    (h.mutex_lock hm rfl (by rw [hft]; simp [Pc.holds])) (own_set h (.inl rfl)) (fun _ _ => hview)
    (by rintro _ _ ⟨⟩)
    (fun u n v _ he => absurd he (hno u n v)) (fun u hu => Function.update_of_ne hu _ _)
    (fun u hu => ?_) ⟨⟨?_, ?_, A, ?_, ?_⟩, ?_⟩⟩
  · obtain ⟨h1, h2⟩ := List.nodup_cons.mp h.nodup
    refine List.nodup_cons.mpr ⟨List.not_mem_cons_of_ne_of_not_mem hwt h1, ?_⟩
    exact List.nodup_cons.mpr ⟨hG₁, h2⟩
  · rw [nodesOf, hitems]; exact h.chain
  · rw [hitems]; exact h.data
  · rw [nodesOf, hitems]; exact h.alive
  · have hut : (some t : Option ι) ≠ some u := fun e => hu (Option.some.inj e).symm
    have hwu : w.owner ≠ some u := by simp [hw]
    have hbehind :
        behind (some u) ({ w with segment := [] } :: ⟨some t, k.drops, w.segment⟩ :: G₁) =
        behind (some u) (w :: G₁) := by simp [behind, hut, hwu]
    refine ⟨by simp [owners, hut.symm], fun d hd => ?_, fun b _ hb => ?_, ⟨[], ?_⟩, ?_,
      fun _ _ => rfl, fun b _ hb => ?_, fun n _ hp => ⟨⟨?_, hp.2⟩, rfl⟩⟩
    · simpa [keys, hut.symm] using hd
    · rw [At, hbehind]; exact hb
    · simp [Pipeline.segment, hut, hwu]
    · simp [future, hut, hwu]
    · rw [nodesOf, hitems]; exact hb
    · rw [nodesOf, hitems]; exact hp.1
  · simp [owners]
  · intro d hd
    simp only [keys, List.map_cons, List.mem_cons, Prod.mk.injEq] at hd
    rcases hd with ⟨he, -⟩ | ⟨-, rfl⟩ | hd
    · exact absurd he.symm hwt
    · rfl
    · obtain ⟨st, hst, he⟩ := List.mem_map.mp hd
      exact absurd (List.mem_map.mpr ⟨st, hst, congrArg Prod.fst he⟩) hG₁
  · rw [Function.update_self]
  · have hf : future (some t) ({ w with segment := [] } :: ⟨some t, k.drops, w.segment⟩ :: G₁) =
        Pipeline.view (w :: G₁) := by
      rw [view_front hwd]
      simp [future, hwt]
    rw [hf, ← hA]
    exact hfresh A
  · simp [At, behind, hwt]

/-- `push_front` locks `head`: the element is in the abstract list. -/
theorem Inv.lock_push (h : Inv A E G g s f) {n : ℕ} {v : T} (hft : f t = .lockPush n v)
    (hm : s.mutex head = none) :
    Inv (v :: A) (Function.update E t (some (.pushFront v, A))) G g
      { s with mutex := Function.update s.mutex head (some t) }
      (Function.update f t (.moveNext n v)) := by
  have hpl := h.place t
  rw [hft] at hpl
  obtain ⟨hno, hA⟩ := h.unlocked_view hm
  refine h.assemble h.first h.nodup h.chain h.data h.alive (links_set h rfl (by rw [hft]; rfl))
    (h.mutex_lock hm rfl (by rw [hft]; simp [Pc.holds])) (own_set h (.inr (by rw [hft]; rfl)))
    (fun hl => absurd rfl (hl n v)) (fun n' v' he => ?_) (fun u n v _ he => absurd he (hno u n v))
    (fun u hu => Function.update_of_ne hu _ _) (fun u _ => .same fun n _ hp => ⟨hp.2, rfl⟩)
    ⟨hpl.1, hpl.2.1, hpl.2.2, .pushFront v, A, by rw [Function.update_self], rfl⟩
  cases he
  rw [hA]

/-- `push_front` puts its node in front of the others. -/
theorem Inv.push (h : Inv A E G g s f) {n : ℕ} {v : T} (hft : f t = .moveNext n v) :
    ∃ G' g', Inv A E G' g' (s.move head n) (Function.update f t (.setHead n)) := by
  have hpl := h.place t
  rw [hft] at hpl
  obtain ⟨hnt, ⟨hn, hna⟩, hnv, hans⟩ := hpl
  have hA := h.pushed t n v hft
  obtain ⟨w, G₁, rfl, hw, hwd⟩ := first_stage h.first
  have hv := view_push (G := G₁) hwd (n, v)
  have hitems : items ({ w with segment := (n, v) :: w.segment } :: G₁) =
      (n, v) :: items (w :: G₁) := by
    simp [items]
  have hnodes : nodesOf ({ w with segment := (n, v) :: w.segment } :: G₁) =
      head :: n :: (items (w :: G₁)).map Prod.fst := by rw [nodesOf, hitems]; rfl
  have hnh : n ≠ head := fun e => hn (by rw [e]; simp [nodesOf])
  have hholds : head ∈ (f t).holds := by rw [hft]; simp [Pc.holds]
  have hheld : ∀ u b, u ≠ t → b ∈ (f u).holds → b ≠ head ∧ b ≠ n := by
    refine fun u b hu hb => ⟨?_, ?_⟩
    · rintro rfl
      exact hu (h.exclusive hholds hb)
    · rintro rfl
      rcases (h.place u).held hb with ho | hmem
      · exact hu (h.own u t _ ho (by rw [hft]; rfl))
      · exact hn hmem
  have hsub : ∀ b, b ∈ nodesOf ({ w with segment := (n, v) :: w.segment } :: G₁) ↔
      b = n ∨ b ∈ nodesOf (w :: G₁) := by
    intro b
    rw [hnodes, nodesOf]
    simp only [List.mem_cons]
    tauto
  refine ⟨{ w with segment := (n, v) :: w.segment } :: G₁,
    Function.update (Function.update g n (g head)) head (some n),
    h.assemble h.first h.nodup ?_ (fun e he => ?_) (fun b hb => ?_) (fun b hb => ?_)
    (h.mutex_same rfl (by rw [hft]; simp [Pc.holds])) (own_set h (.inl rfl))
    (fun _ _ => by rw [hA, hv]; rfl) (by rintro _ _ ⟨⟩) (fun u n' v' hu he => ?_) (fun _ _ => rfl)
    (fun u hu => ?_)
    ⟨hnt, by rw [Function.update_self], hans⟩⟩
  · rw [hnodes]
    have hc : Linked (Function.update g n (g head)) (some head) (nodesOf (w :: G₁)) :=
      h.chain.congr fun b hb => Function.update_of_ne (by rintro rfl; exact hn hb) _ _
    have hc' : Linked _ (some head) ([] ++ head :: (items (w :: G₁)).map Prod.fst) := hc
    refine hc'.insert hn ?_
    rw [Function.update_self, Function.update_of_ne hnh.symm]
  · rw [hitems] at he
    rcases List.mem_cons.mp he with rfl | he
    · exact hnv
    · exact h.data e he
  · rcases (hsub b).mp hb with rfl | hb
    · exact hna
    · exact h.alive b hb
  · have hcut : ∀ u, (f u).cut ≠ some head := by
      intro u hu
      obtain rfl := h.exclusive hholds (cut_holds hu)
      rw [hft] at hu
      cases hu
    have hbh : b ≠ head := fun e => hb t (by rw [Function.update_self, e]; rfl)
    show Function.update (Function.update s.next n (s.next head)) head none b = _
    rw [Function.update_of_ne hbh, Function.update_of_ne hbh]
    by_cases hbn : b = n
    · rw [hbn, Function.update_self, Function.update_self]
      exact h.links head hcut
    · rw [Function.update_of_ne hbn, Function.update_of_ne hbn]
      refine h.links b fun u hu => ?_
      by_cases hut : u = t
      · rw [hut, hft] at hu
        cases hu
      · exact hb u (by rw [Function.update_of_ne hut]; exact hu)
  · refine absurd (h.exclusive hholds ?_) hu
    rw [he]
    simp [Pc.holds]
  · have hwu : w.owner ≠ some u := by simp [hw]
    refine ⟨Iff.rfl, fun _ hd => hd, fun b hb hAt => ?_, ⟨[], by simp [Pipeline.segment, hwu]⟩,
      by simp [future, hwu], fun b hb => ?_, fun b _ hbn => (hsub b).mpr (.inr hbn),
      fun m hm hp => ⟨⟨fun hmem => ?_, hp.2⟩, rfl⟩⟩
    · have hbehind : behind (some u) ({ w with segment := (n, v) :: w.segment } :: G₁) =
          (n, v) :: behind (some u) (w :: G₁) := by simp [behind, hwu]
      rw [At] at hAt ⊢
      rw [hbehind]
      cases hbu : behind (some u) (w :: G₁) with
      | nil =>
        rw [hbu] at hAt
        exact absurd (Option.some.inj hAt).symm (hheld u b hu hb).1
      | cons e l =>
        rw [hbu] at hAt
        simpa using hAt
    · obtain ⟨h1, h2⟩ := hheld u b hu hb
      rw [Function.update_of_ne h1, Function.update_of_ne h2]
    · rcases (hsub m).mp hmem with rfl | hmem
      · exact hu (h.own u t _ hm (by rw [hft]; rfl))
      · exact hp.1 hmem

/-- `new` gives the thread a node of its own. -/
theorem Inv.new (h : Inv A E G g s f) {v : T} (hft : f t = .new v) (ha : s.alive a = false) :
    Inv A E G (Function.update g a none) { s with
      mutex := Function.update s.mutex a none
      next := Function.update s.next a none
      data := Function.update s.data a (some v)
      alive := Function.update s.alive a true } (Function.update f t (.lockPush a v)) := by
  have hpl := h.place t
  rw [hft] at hpl
  have hne : ∀ b, s.alive b = true → b ≠ a := by
    rintro b hb rfl
    rw [ha] at hb
    cases hb
  have hmem : a ∉ nodesOf G := fun hmem => hne a (h.alive a hmem) rfl
  obtain ⟨hview, hothers⟩ := h.view_same (t := t) (by rw [hft]; nofun) rfl
  refine h.assemble h.first h.nodup ?_ (fun e he => ?_) (fun b hb => ?_) (fun b hb => ?_) ?_
    (own_new h fun n hn u _ hu => ?_) (fun _ => hview) nofun hothers (fun _ _ => rfl)
    (fun u hu => ?_)
    ⟨hpl, ⟨hmem, Function.update_self ..⟩, Function.update_self ..⟩
  · exact h.chain.congr fun b hb => Function.update_of_ne (hne b (h.alive b hb)) _ _
  · have hea := h.alive e.1 (List.mem_cons_of_mem _ (List.mem_map_of_mem he))
    exact (Function.update_of_ne (hne _ hea) _ _).trans (h.data e he)
  · exact (Function.update_of_ne (hne b (h.alive b hb)) _ _).trans (h.alive b hb)
  · show Function.update s.next a none b = Function.update g a none b
    by_cases hba : b = a
    · rw [hba, Function.update_self, Function.update_self]
    · rw [Function.update_of_ne hba, Function.update_of_ne hba]
      refine h.links b fun u hu => ?_
      by_cases hut : u = t
      · rw [hut, hft] at hu
        cases hu
      · exact hb u (by rw [Function.update_of_ne hut]; exact hu)
  · have hfree : ∀ u, s.mutex a ≠ some u := fun u hu =>
      hne a (h.held_alive ((h.mutex a u).mp hu)) rfl
    have hnone : Function.update s.mutex a none = s.mutex := by
      rw [Function.update_eq_self_iff]
      exact (Option.eq_none_iff_forall_ne_some.mpr hfree).symm
    exact h.mutex_same hnone (by rw [hft]; simp [Pc.holds])
  · obtain rfl := Option.some.inj hn
    exact hne a ((h.place u).own_private hu).2 rfl
  · refine ⟨Iff.rfl, fun _ hd => hd, fun _ _ hb => hb, ⟨[], (List.append_nil _).symm⟩, rfl,
      fun b hb => Function.update_of_ne (hne b (h.held_alive hb)) _ _, fun _ _ hb => hb,
      fun n _ hp => ⟨⟨hp.1, ?_⟩, Function.update_of_ne (hne n hp.2) _ _⟩⟩
    exact (Function.update_of_ne (hne n hp.2) _ _).trans hp.2

/-- The node that was taken out is deleted. -/
theorem Inv.delete (h : Inv A E G g s f) {p : T → Bool} {removed : List T} {current next : ℕ}
    (hft : f t = .delete p removed current next) :
    Inv A E G g { s with alive := Function.update s.alive next false }
      (Function.update f t (.loadNext (.removeIf p removed) current)) := by
  have hpl := h.place t
  rw [hft] at hpl
  obtain ⟨hS, hAt, hp⟩ := hpl
  obtain ⟨hview, hothers⟩ := h.view_same (t := t) (by rw [hft]; nofun) rfl
  refine h.assemble h.first h.nodup h.chain h.data (fun b hb => ?_)
    (links_set h rfl (by rw [hft]; rfl)) (h.mutex_same rfl (by rw [hft]; simp [Pc.holds]))
    (own_set h (.inl rfl)) (fun _ => hview) nofun hothers (fun _ _ => rfl)
    (fun u hu => .same fun n hn hpn => ⟨?_, rfl⟩) ⟨hS, hAt⟩
  · have hbn : b ≠ next := by
      rintro rfl
      exact hp.1 hb
    exact (Function.update_of_ne hbn _ _).trans (h.alive b hb)
  · have hne : n ≠ next := by
      rintro rfl
      exact hu (h.own u t _ hn (by rw [hft]; rfl))
    exact (Function.update_of_ne hne _ _).trans hpn.2

/-- Where no link of the node is cut, its successor is the next one of the list. -/
theorem Inv.next_eq (h : Inv A E G g s f) (ha : a ∈ (f t).holds) (hcut : (f t).cut = none) :
    s.next a = g a := by
  refine h.links a fun u hu => ?_
  obtain rfl := h.exclusive ha (cut_holds hu)
  rw [hcut] at hu
  cases hu

/-- A traversal at the end of the list has done what it had to. -/
theorem Stands.answer (hS : Stands e G t k) (hf : future (some t) G = []) : Answer e k.result := by
  obtain ⟨A, he, hx⟩ := hS.expect
  rw [hf] at hx
  refine ⟨k.op, A, he, ?_⟩
  cases k with
  | forEach visited =>
    simp only [Expect, List.map_nil, List.append_nil] at hx
    simp [Task.op, Op.apply, Task.result, hx]
  | findFirstIf p =>
    simp only [Expect, List.map_nil, List.find?_nil] at hx
    simp [Task.op, Op.apply, Task.result, hx]
  | removeIf p removed =>
    simp only [Expect, List.map_nil, List.filter_nil, List.append_nil] at hx
    simp [Task.op, Op.apply, Task.result, hx]

theorem Inv.at_mem (h : Inv A E G g s f) (hS : some t ∈ owners G) (hAt : At G t a) :
    a ∈ nodesOf G := by
  obtain ⟨pre, w, st, post, hG, hst, hpre, hw, -⟩ := h.stage hS
  obtain ⟨l, hl, -⟩ := h.at_split hG hst hpre hw hAt
  rw [hl]
  simp

/-- Behind the last node there is nothing to meet. -/
theorem Inv.future_end (h : Inv A E G g s f) (hS : some t ∈ owners G) (hAt : At G t a)
    (hg : g a = none) : future (some t) G = [] := by
  obtain ⟨pre, w, st, post, hG, hst, hpre, hw, -⟩ := h.stage hS
  obtain ⟨l, -, -, hlink⟩ := h.at_split hG hst hpre hw hAt
  rw [hg] at hlink
  have hnil := hlink.unique (show Linked g none [] from rfl)
  rw [List.map_eq_nil_iff, List.append_eq_nil_iff] at hnil
  have hview : Pipeline.view post = [] := List.sublist_nil.mp (hnil.2 ▸ view_sublist post)
  rw [hG, future_self hpre hw hst, hnil.1, hview]
  rfl

theorem Next.mem (h : Next G t a q) : ∃ x, (a, x) ∈ items G ∧ q x := by
  obtain ⟨x, l, hs, hq⟩ := h
  exact ⟨x, (segment_sublist G).subset (by rw [hs]; simp), hq⟩

theorem Inv.next_mem (h : Inv A E G g s f) (hN : Next G t a q) :
    a ∈ nodesOf G ∧ ∃ x, s.data a = some x ∧ q x := by
  obtain ⟨x, hx, hq⟩ := hN.mem
  exact ⟨List.mem_cons_of_mem _ (List.mem_map.mpr ⟨(a, x), hx, rfl⟩), x, h.data _ hx, hq⟩

theorem Inv.at_ne_next (h : Inv A E G g s f) {b : ℕ} (hS : some t ∈ owners G) (hAt : At G t a)
    (hN : Next G t b q) : a ≠ b := by
  obtain ⟨pre, w, st, post, hG, hst, hpre, hw, -⟩ := h.stage hS
  obtain ⟨l, hl, -⟩ := h.at_split hG hst hpre hw hAt
  obtain ⟨x, m, hseg, -⟩ := hN
  rw [hG, segment_self hpre hw hst] at hseg
  have hnd := h.chain.nodup
  rw [hl, hseg] at hnd
  grind

/-- What a traversal does with its next item, unless it is a `remove_if`. -/
theorem Inv.visit (h : Inv A E G g s f) {next : ℕ} {x : T} (hft : f t = .visit k next)
    (hd : s.data next = some x) (hv : k.visit next x = some l') :
    ∃ G', Inv A E G' g s (Function.update f t l') := by
  have hpl := h.place t
  rw [hft] at hpl
  obtain ⟨hS, hN⟩ := hpl
  obtain ⟨hmem, x', hx', -⟩ := h.next_mem hN
  obtain ⟨y, l, hseg, hdrop⟩ := hN
  obtain rfl : x = y := by
    have := h.data (next, y) ((segment_sublist G).subset (by rw [hseg]; simp))
    rw [hd] at this
    exact Option.some.inj this
  have hcut : (f t).cut = none := by rw [hft]; rfl
  have hpc : ∀ n v, f t ≠ .moveNext n v := by rw [hft]; nofun
  have hmutex : ∀ k' : Task T, ∀ b u, s.mutex b = some u ↔
      b ∈ (Function.update f t (.loadNext k' next) u).holds := fun k' =>
    h.mutex_same rfl (by rw [hft]; simp [Pc.holds])
  cases k with
  | removeIf p removed => cases hv
  | forEach visited =>
    cases hv
    exact h.pass hS hseg hdrop rfl rfl rfl hcut (hmutex _) hpc ⟨rfl, rfl⟩
      fun A F hA => by simpa [Expect] using hA
  | findFirstIf p =>
    by_cases hp : p x = true
    · have hl' : Pc.unlock next (.found (some x)) = l' := by simpa [Task.visit, hp] using hv
      subst hl'
      refine h.leave hS.mem (fun d hd' e _ => by rw [hS.drops d hd']; rfl) hpc hcut
        (by rw [hft]; rfl) hmem ?_
      obtain ⟨A₀, he, hx⟩ := hS.expect
      refine ⟨_, A₀, he, ?_⟩
      obtain ⟨pre, w, st, post, hG, hst, hpre, hw, -⟩ := h.stage hS.mem
      rw [hG, segment_self hpre hw hst] at hseg
      rw [hG, future_self hpre hw hst, hseg] at hx
      have hfind : A₀.find? p = some x := by simpa [Expect, hp] using hx
      simp [Task.op, Op.apply, hfind]
    · have hl' : Pc.loadNext (.findFirstIf p) next = l' := by simpa [Task.visit, hp] using hv
      subst hl'
      exact h.pass hS hseg hdrop rfl rfl rfl hcut (hmutex _) hpc ⟨rfl, rfl⟩
        fun A F hA => by simpa [Expect, hp] using hA

/-- The abstract list after a step from here. -/
def Pc.advance (A : List T) (pc : Pc T) : List T := pc.enters.elim A fun o => (o.apply A).1

/-- With what a thread has entered after a step from here. -/
def Pc.entry (A : List T) (e : Option (Op T × List T)) (ev : Event (Op T) (Res T)) (pc : Pc T) :
    Option (Op T × List T) :=
  match ev with
  | .call _ => none
  | _ => pc.enters.elim e fun o => some (o, A)

variable {ev : Event (Op T) (Res T)}

/-- **A step keeps the invariant.** -/
theorem Inv.move (h : Inv A E G g s f) (hm : Move t s ev (f t) s' l') :
    ∃ G' g', Inv ((f t).advance A) (Function.update E t ((f t).entry A (E t) ev)) G' g' s'
      (Function.update f t l') := by
  have hpl := h.place t
  have hE : Function.update E t (E t) = E := Function.update_eq_self ..
  generalize hft : f t = pc at hm hpl
  cases hm with
  | call o =>
    refine ⟨G, g, h.goto (fun u hu => Function.update_of_ne hu _ _) rfl rfl
      (links_set h rfl (by rw [hft]; rfl)) (h.mutex_same rfl ?_) ?_ (by simp [hft]) ?_ ?_⟩
    · rw [hft]; cases o <;> simp [Op.begin, Pc.holds]
    · cases o <;> exact .inl rfl
    · cases o <;> (rintro _ _ ⟨⟩)
    · cases o with
      | pushFront value => exact hpl
      | forEach | findFirstIf p | removeIf p => exact ⟨hpl, fun A => by simp [Expect]⟩
  | new value a ha => exact ⟨G, _, hE.symm ▸ h.new hft ha⟩
  | lockPush n value hm => exact ⟨G, g, h.lock_push hft hm⟩
  | moveNext n value =>
    obtain ⟨G', g', hI⟩ := h.push hft
    exact ⟨G', g', hE.symm ▸ hI⟩
  | setHead n =>
    refine ⟨G, g, h.goto (fun u hu => Function.update_of_ne hu _ _) rfl rfl (fun a ha => ?_)
      (h.mutex_same rfl (by rw [hft]; simp [Pc.holds])) (.inl rfl) (by simp [hft])
      (by rintro _ _ ⟨⟩) ?_⟩
    · show Function.update s.next head (some n) a = g a
      by_cases hah : a = head
      · rw [hah, Function.update_self, hpl.2.1]
      · rw [Function.update_of_ne hah]
        refine h.links a fun u hu => ?_
        by_cases hut : u = t
        · rw [hut, hft] at hu
          exact hah (Option.some.inj hu).symm
        · exact ha u (by rw [Function.update_of_ne hut]; exact hu)
    · rw [Function.update_self]
      exact ⟨hpl.1, by simp [nodesOf], hpl.2.2⟩
  | lockHead k hm =>
    obtain ⟨G', hI⟩ := h.enter hft hm
    exact ⟨G', g, hI⟩
  | loadNext k current next hn =>
    rw [h.next_eq (t := t) (by rw [hft]; simp [Pc.holds]) (by rw [hft]; rfl)] at hn
    refine ⟨G, g, h.goto (fun u hu => Function.update_of_ne hu _ _) rfl rfl
      (links_set h rfl (by rw [hft]; rfl)) (h.mutex_same rfl (by rw [hft]; simp [Pc.holds]))
      (.inl rfl)
      (by simp [hft]) (by rintro _ _ ⟨⟩) ?_⟩
    rw [Function.update_self]
    exact ⟨hpl.1, hpl.2, hn⟩
  | loadEnd k current hn =>
    rw [h.next_eq (t := t) (by rw [hft]; simp [Pc.holds]) (by rw [hft]; rfl)] at hn
    have hf := h.future_end hpl.1.mem hpl.2 hn
    obtain ⟨G', hI⟩ := h.leave hpl.1.mem (by simp [hf]) (by simp [hft]) (by rw [hft]; rfl)
      (by rw [hft]; rfl) (h.at_mem hpl.1.mem hpl.2) (hpl.1.answer hf)
    exact ⟨G', g, hE.symm ▸ hI⟩
  | lockNext k current next hm =>
    obtain ⟨x, l, hseg, -⟩ := h.next_segment hft hm
    refine ⟨G, g, h.goto (fun u hu => Function.update_of_ne hu _ _) rfl rfl
      (links_set h rfl (by rw [hft]; rfl)) (h.mutex_lock hm rfl ?_) ?_ (by simp [hft]) ?_ ?_⟩
    · rw [hft]; cases k <;> simp [Task.locked, Pc.holds, or_comm]
    · cases k <;> exact .inl rfl
    · cases k <;> (rintro _ _ ⟨⟩)
    · rw [Function.update_self]
      cases k with
      | forEach visited => exact ⟨hpl.1, hpl.2.1, x, l, hseg, rfl⟩
      | findFirstIf p => exact ⟨hpl.1, hpl.2.1, x, l, hseg, rfl⟩
      | removeIf p removed => exact ⟨hpl.1, hpl.2.1, x, l, hseg, trivial⟩
  | unlockPrev k current next =>
    have hne := h.at_ne_next hpl.1.mem hpl.2.1 hpl.2.2
    refine ⟨G, g, h.goto (fun u hu => Function.update_of_ne hu _ _) rfl rfl
      (links_set h rfl (by rw [hft]; rfl))
      (h.mutex_unlock (a := current) (by rw [hft]; simp [Pc.holds]) rfl fun b => ?_) (.inl rfl)
      (by simp [hft]) (by rintro _ _ ⟨⟩) ?_⟩
    · rw [hft]
      simp only [Pc.holds, List.mem_cons, List.not_mem_nil, or_false]
      grind
    · rw [Function.update_self]
      exact ⟨hpl.1, hpl.2.2⟩
  | visit k next x l' hd hv =>
    obtain ⟨G', hI⟩ := h.visit hft hd hv
    exact ⟨G', g, hE.symm ▸ hI⟩
  | testTrue p removed current next x hd hp | testFalse p removed current next x hd hp =>
    obtain ⟨hS, hAt, y, l, hseg, -⟩ := hpl
    have hy := h.data (next, y) ((segment_sublist G).subset (by rw [hseg]; simp))
    obtain rfl : x = y := Option.some.inj (hd.symm.trans hy)
    refine ⟨G, g, h.goto (fun u hu => Function.update_of_ne hu _ _) rfl rfl
      (links_set h rfl (by rw [hft]; rfl)) (h.mutex_same rfl (by rw [hft]; simp [Pc.holds]))
      (.inl rfl)
      (by simp [hft]) (by rintro _ _ ⟨⟩) ?_⟩
    rw [Function.update_self]
    exact ⟨hS, hAt, x, l, hseg, hp⟩
  | take p removed current next =>
    refine ⟨G, g, h.goto (fun u hu => Function.update_of_ne hu _ _) rfl rfl (fun a ha => ?_)
      (h.mutex_same rfl (by rw [hft]; simp [Pc.holds])) (.inl rfl) (by simp [hft])
      (by rintro _ _ ⟨⟩) ?_⟩
    · have hac : a ≠ current := fun e => ha t (by rw [Function.update_self, e]; rfl)
      refine (Function.update_of_ne hac _ _).trans (h.links a fun u hu => ?_)
      by_cases hut : u = t
      · rw [hut, hft] at hu
        cases hu
      · exact ha u (by rw [Function.update_of_ne hut]; exact hu)
    · rw [Function.update_self]
      exact hpl
  | splice p removed current next =>
    obtain ⟨G', g', hI⟩ := h.drop hft
    exact ⟨G', g', hE.symm ▸ hI⟩
  | unlockNext p removed current next =>
    have hne : current ≠ next := by
      rintro rfl
      exact hpl.2.2.1 (h.at_mem hpl.1.mem hpl.2.1)
    refine ⟨G, g, h.goto (fun u hu => Function.update_of_ne hu _ _) rfl rfl
      (links_set h rfl (by rw [hft]; rfl))
      (h.mutex_unlock (a := next) (by rw [hft]; simp [Pc.holds]) rfl fun b => ?_)
      (.inr (by rw [hft]; rfl)) (by simp [hft]) (by rintro _ _ ⟨⟩) ?_⟩
    · rw [hft]
      simp only [Pc.holds, List.mem_cons, List.not_mem_nil, or_false]
      grind
    · rw [Function.update_self]
      exact hpl
  | delete p removed current next => exact ⟨G, g, hE.symm ▸ h.delete hft⟩
  | keep p removed current next =>
    obtain ⟨hS, hAt, hN⟩ := hpl
    have hne := h.at_ne_next hS.mem hAt hN
    obtain ⟨x, l, hseg, hpx⟩ := hN
    have hmutex : ∀ b u, (s.unlock current).mutex b = some u ↔
        b ∈ (Function.update f t (.loadNext (.removeIf p removed) next) u).holds := by
      refine h.mutex_unlock (a := current) (by rw [hft]; simp [Pc.holds]) rfl fun b => ?_
      rw [hft]
      simp only [Pc.holds, List.mem_cons, List.not_mem_nil, or_false]
      grind
    have hexp : ∀ A F, Expect A (x :: F) (.removeIf p removed) → Expect A F (.removeIf p removed) :=
      fun A F hA => by simpa [Expect, hpx] using hA
    have hd : (s.unlock current).data = s.data := rfl
    obtain ⟨G', hI⟩ := h.pass hS hseg hpx hd rfl rfl (by rw [hft]; rfl) hmutex (by simp [hft])
      ⟨rfl, rfl⟩ hexp
    exact ⟨G', g, hE.symm ▸ hI⟩
  | unlock a r =>
    refine ⟨G, g, h.goto (fun u hu => Function.update_of_ne hu _ _) rfl rfl
      (links_set h rfl (by rw [hft]; rfl))
      (h.mutex_unlock (a := a) (by rw [hft]; simp [Pc.holds]) rfl fun b => ?_) (.inl rfl)
      (by simp [hft]) (by rintro _ _ ⟨⟩) ?_⟩
    · rw [hft]; simp [Pc.holds]
    · rw [Function.update_self]
      exact ⟨hpl.1, hpl.2.2⟩
  | ret r =>
    exact ⟨G, g, h.goto (fun u hu => Function.update_of_ne hu _ _) rfl rfl
      (links_set h rfl (by rw [hft]; rfl)) (h.mutex_same rfl (by rw [hft]; simp [Pc.holds]))
      (.inl rfl)
      (by simp [hft]) (by rintro _ _ ⟨⟩) hpl.1⟩
end

/-! ## Runs -/

section
variable [DecidableEq ι]

/-- The operation a thread has called last. -/
def called : List (Step ι T) → ι → Option (Op T)
  | [], _ => none
  | r :: h, t =>
    match r.ev with
    | .call o => if r.tid = t then some o else called h t
    | _ => called h t

/-- The operation with which a thread has locked `head` since its last call, and the list that those
which had locked `head` before leave. -/
def entry : List (Step ι T) → ι → Option (Op T × List T)
  | [], _ => none
  | r :: h, t =>
    if r.tid = t then (r.pre.loc t).entry (serial (entered h)) (entry h t) r.ev else entry h t

variable {h : List (Step ι T)} {c : Config ι (Shared ι T) (Pc T)} {t : ι} {s s' : Shared ι T}
  {ev : Event (Op T) (Res T)} {pc l' : Pc T}

omit [DecidableEq ι] in
theorem serial_entered_cons (r : Step ι T) :
    serial (entered (r :: h)) = (r.pre.loc r.tid).advance (serial (entered h)) := by
  show (entered h ++ (r.pre.loc r.tid).enters.toList).foldl (fun A o => (o.apply A).1) [] = _
  rw [List.foldl_append, Pc.advance]
  cases (r.pre.loc r.tid).enters <;> rfl

theorem entry_cons (r : Step ι T) : entry (r :: h) = Function.update (entry h) r.tid
    ((r.pre.loc r.tid).entry (serial (entered h)) (entry h r.tid) r.ev) := by
  funext u
  by_cases hu : r.tid = u
  · subst hu
    rw [Function.update_self, entry, if_pos rfl]
  · rw [Function.update_of_ne (Ne.symm hu), entry, if_neg hu]

theorem inv_initial : Inv ([] : List T) (fun _ : ι => none) [⟨none, fun _ => false, []⟩]
    (fun _ => none)
    (initial (ι := ι) (T := T)).shared (initial (ι := ι) (T := T)).loc := by
  have hnodes : nodesOf [(⟨none, fun _ => false, []⟩ : Stage (Option ι) (ℕ × T))] = [head] := rfl
  refine ⟨rfl, List.nodup_singleton _, ⟨rfl, rfl⟩, nofun, fun a ha => ?_, fun _ _ => rfl,
    fun a t => ?_, nofun, fun _ => rfl, nofun, fun t => ?_⟩
  · rw [hnodes, List.mem_singleton] at ha
    rw [ha]
    rfl
  · simp [initial, Pc.holds]
  · simp [initial, Pc.Ok, owners]

/-- **The invariant in every run.** -/
theorem inv_run (hr : program.Run Program.anyStep initial h c) :
    ∃ G g, Inv (serial (entered h)) (entry h) G g c.shared c.loc := by
  refine hr.induction (I := fun h c => ∃ G g, Inv (serial (entered h)) (entry h) G g c.shared c.loc)
    ⟨_, _, inv_initial⟩ fun h c t k ev s l _ hI _ hs => ?_
  obtain ⟨G, g, hI⟩ := hI
  obtain ⟨G', g', hI'⟩ := hI.move (step_move hs)
  refine ⟨G', g', ?_⟩
  rw [serial_entered_cons, entry_cons]
  exact hI'

/-! A thread enters with the operation it has called. -/

/-- The operation of a thread that has not entered yet. -/
def Pc.calling : Pc T → Option (Op T)
  | .new value | .lockPush _ value => some (.pushFront value)
  | .lockHead k => some k.op
  | _ => none

omit [DecidableEq ι] in
theorem Pc.calling_of_enters {o : Op T} (he : pc.enters = some o) : pc.calling = some o := by
  cases pc with
  | lockPush n value | lockHead k => exact he
  | _ => cases he

omit [DecidableEq ι] in
theorem Move.calling (hm : Move t s ev pc s' l') : (∃ o, ev = .call o ∧ l'.calling = some o) ∨
    (∀ o, ev ≠ .call o) ∧ (l'.calling = none ∨ l'.calling = pc.calling) := by
  cases hm with
  | call o => exact .inl ⟨o, rfl, by cases o <;> rfl⟩
  | new value a ha => exact .inr ⟨nofun, .inr rfl⟩
  | lockNext k current next hm => exact .inr ⟨nofun, .inl (by cases k <;> rfl)⟩
  | visit k next x l' hd hv =>
    refine .inr ⟨nofun, .inl ?_⟩
    cases k with
    | forEach visited => cases hv; rfl
    | findFirstIf p =>
      simp only [Task.visit] at hv
      split at hv <;> cases hv <;> rfl
    | removeIf p removed => cases hv
  | _ => exact .inr ⟨nofun, .inl rfl⟩

/-- What a thread has called is what it is about to enter with, or has entered with. -/
structure Calls (h : List (Step ι T)) (c : Config ι (Shared ι T) (Pc T)) : Prop where
  calling : ∀ t o, (c.loc t).calling = some o → called h t = some o
  inside : ∀ t o A, entry h t = some (o, A) → called h t = some o

theorem called_cons (r : Step ι T) (u : ι) (hu : (∀ o, r.ev ≠ .call o) ∨ r.tid ≠ u) :
    called (r :: h) u = called h u := by
  rw [called]
  split
  · rename_i o ho
    rw [if_neg (hu.resolve_left fun hn => hn o ho)]
  · rfl

theorem Calls.move (hC : Calls h c) (hm : Move t c.shared ev (c.loc t) s' l') :
    Calls (⟨t, ev, c, c.set t s' l'⟩ :: h) (c.set t s' l') := by
  -- the other threads have neither called nor entered
  have hother : ∀ u, u ≠ t → called (⟨t, ev, c, c.set t s' l'⟩ :: h) u = called h u := fun u hu =>
    called_cons _ u (.inr (Ne.symm hu))
  have hentry := entry_cons (h := h) ⟨t, ev, c, c.set t s' l'⟩
  dsimp only at hentry
  refine ⟨fun u o hu => ?_, fun u o A hu => ?_⟩
  · by_cases hut : u = t
    · subst hut
      rw [Config.set_loc_self] at hu
      rcases hm.calling with ⟨o', rfl, ho'⟩ | ⟨hev, hl⟩
      · simpa [called, ho'] using hu
      · rw [called_cons _ _ (.inl hev)]
        rcases hl with hl | hl
        · rw [hl] at hu; cases hu
        · exact hC.calling u o (hl ▸ hu)
    · rw [hother u hut]
      rw [Config.set_loc_ne c hut] at hu
      exact hC.calling u o hu
  · rw [hentry] at hu
    by_cases hut : u = t
    · subst hut
      rw [Function.update_self] at hu
      rcases hm.calling with ⟨o', rfl, ho'⟩ | ⟨hev, -⟩
      · cases hu
      · rw [called_cons _ _ (.inl hev)]
        cases hen : (c.loc u).enters with
        | some o' =>
          have he : (c.loc u).entry (serial (entered h)) (entry h u) ev =
              some (o', serial (entered h)) := by
            cases ev with
            | call o => exact absurd rfl (hev o)
            | ret r | tau => simp [Pc.entry, hen]
          rw [he] at hu
          cases hu
          exact hC.calling u _ (Pc.calling_of_enters hen)
        | none =>
          have he : (c.loc u).entry (serial (entered h)) (entry h u) ev = entry h u := by
            cases ev with
            | call o => exact absurd rfl (hev o)
            | ret r | tau => simp [Pc.entry, hen]
          rw [he] at hu
          exact hC.inside u o A hu
    · rw [Function.update_of_ne hut] at hu
      rw [hother u hut]
      exact hC.inside u o A hu

theorem calls_run (hr : program.Run Program.anyStep initial h c) : Calls h c :=
  hr.induction (I := Calls) ⟨nofun, nofun⟩ fun _ _ _ _ _ _ _ _ hC _ hs => hC.move (step_move hs)

/-! ## Waiting -/

/-- A thread that waits holds at most the node right before the one it waits for. -/
theorem Inv.waits {A : List T} {E : ι → Option (Op T × List T)} {G : Line ι T} {g : ℕ → Option ℕ}
    {f : ι → Pc T} (hI : Inv A E G g s f) {a b : ℕ} (ha : s.mutex a = some t)
    (hb : (f t).wants = some b) : (nodesOf G).idxOf a < (nodesOf G).idxOf b := by
  rw [hI.mutex] at ha
  have hpl := hI.place t
  generalize f t = pc at ha hb hpl
  cases pc with
  | lockPush n value | lockHead k => cases ha
  | lockNext k current next =>
    obtain rfl := Option.some.inj hb
    obtain rfl : a = current := by simpa [Pc.holds] using ha
    obtain ⟨hS, hAt, hg⟩ := hpl
    obtain ⟨pre, w, st, post, hG, hst, hpre, hw, -⟩ := hI.stage hS.mem
    obtain ⟨l, hl, -, hlink⟩ := hI.at_split hG hst hpre hw hAt
    have hnd := hI.chain.nodup
    rw [hg] at hlink
    obtain ⟨m, hm⟩ : ∃ m, (st.segment ++ items post).map Prod.fst = next :: m := by
      generalize (st.segment ++ items post).map Prod.fst = m at hlink
      cases m with
      | nil => cases hlink
      | cons e m => exact ⟨m, by rw [Option.some.inj hlink.1]⟩
    rw [hl, hm] at hnd ⊢
    have hal : a ∉ l := by grind
    have hnl : next ∉ l ∧ next ≠ a := by grind
    rw [List.idxOf_append_of_notMem hal, List.idxOf_append_of_notMem hnl.1, List.idxOf_cons_self,
      List.idxOf_cons_ne _ hnl.2.symm, List.idxOf_cons_self]
    omega
  | _ => cases hb

/-- **Serializable by the head lock**: an operation returns what it returns on the list that the
operations before it, in the order in which they have locked `head`, leave one at a time; when all
have returned, the list is what all of them leave; and no threads wait for each other in a cycle. -/
theorem head_lock_serializes (hr : program.Run Program.anyStep initial h c) :
    (∀ h₁ r h₂ res, h = h₁ ++ r :: h₂ → r.ev = .ret res → ∃ o A, called h₂ r.tid = some o ∧
      entry h₂ r.tid = some (o, A) ∧ res = (o.apply A).2) ∧
    ((∀ t, c.loc t = .idle) → ∃ l, Linked c.shared.next (c.shared.next head) l ∧
      l.map c.shared.data = (serial (entered h)).map some) ∧
    ∀ t, ¬ Relation.TransGen (WaitsFor c.shared.mutex fun t => (c.loc t).wants) t t := by
  refine ⟨fun h₁ r h₂ res he hres => ?_, fun hidle => ?_, ?_⟩
  · subst he
    obtain ⟨k, s, l, -, hs, -⟩ := hr.step_at
    obtain ⟨G, g, hI⟩ := inv_run hr.before
    have hm := step_move hs
    have hpl := hI.place r.tid
    rw [hres] at hm
    generalize r.pre.loc r.tid = pc at hm hpl
    cases hm
    obtain ⟨o, A, he, hres⟩ := hpl.2
    exact ⟨o, A, (calls_run hr.before).inside _ _ _ he, he, hres⟩
  · obtain ⟨G, g, hI⟩ := inv_run hr
    have hnext : c.shared.next = g := funext fun a => hI.links a fun t => by rw [hidle t]; nofun
    -- nobody is in line
    obtain ⟨w, G', rfl, -, hw⟩ := first_stage hI.first
    obtain rfl : G' = [] := by
      cases G' with
      | nil => rfl
      | cons k post =>
        obtain ⟨u, hu⟩ := hI.owner_some (show w :: k :: post = [] ++ w :: k :: post from rfl)
        have hpl := hI.place u
        rw [hidle u] at hpl
        exact absurd (by rw [← hu]; simp [owners]) hpl
    have hA := hI.view fun t n v => by rw [hidle t]; nofun
    refine ⟨w.segment.map Prod.fst, ?_, ?_⟩
    · rw [hnext]
      simpa [nodesOf, items] using hI.chain.2
    · rw [hA, view_front hw]
      simp only [Pipeline.view, List.append_nil, List.map_map]
      refine List.map_congr_left fun e he => hI.data e ?_
      simpa [items] using he
  · obtain ⟨G, g, hI⟩ := inv_run hr
    have : IsStrictOrder ℕ fun a b => (nodesOf G).idxOf a < (nodesOf G).idxOf b :=
      { irrefl := fun a => lt_irrefl _, trans := fun a b c => lt_trans }
    exact waits_acyclic (r := fun a b => (nodesOf G).idxOf a < (nodesOf G).idxOf b)
      fun t a b ha hb => hI.waits ha hb
end

/-- A `push_front` from the call to the return. -/
def pushing (t : Bool) (a value : ℕ) : List (Bool × Choice ℕ) :=
  [(t, Choice.call (.pushFront value)), (t, Choice.alloc a)] ++ List.replicate 5 (t, Choice.run)

/-- A `for_each` has released `head` and is at the first of one element when another is pushed. -/
def pushedBehind : List (Bool × Choice ℕ) :=
  [pushing false 1 7, [(true, .call .forEach)], List.replicate 4 (true, .run), pushing false 2 8,
    List.replicate 4 (true, .run)].flatten

/-- The last step has returned that only element 7 was visited, and nobody is inside any more. -/
def visitedOne (h : List (Step Bool ℕ)) (c : Config Bool (Shared Bool ℕ) (Pc ℕ)) : Bool :=
  match h, c.loc false, c.loc true with
  | ⟨true, .ret (.visited [7]), _, _⟩ :: _, .idle, .idle => true
  | _, _, _ => false

theorem head_lock_serializes_push_behind :
    ∃ (c : Config Bool (Shared Bool ℕ) (Pc ℕ)) (r : Step Bool ℕ) (h₂ : List (Step Bool ℕ)),
      program.Run Program.anyStep initial (r :: h₂) c ∧ r.tid = true ∧ r.ev = .ret (.visited [7]) ∧
      (∃ o A, called h₂ true = some o ∧ entry h₂ true = some (o, A) ∧
        Res.visited [7] = (o.apply A).2) ∧
      (∃ l, Linked c.shared.next (c.shared.next head) l ∧
        l.map c.shared.data = (serial (entered (r :: h₂))).map some) ∧
      ∀ t, ¬ Relation.TransGen (WaitsFor c.shared.mutex fun t => (c.loc t).wants) t t := by
  obtain ⟨h, c, hr, hq⟩ := Program.replay_reaches program initial pushedBehind visitedOne
    (by decide)
  unfold visitedOne at hq
  split at hq
  · rename_i pre cfg h₂ hf ht
    obtain ⟨h1, h2, h3⟩ := head_lock_serializes hr
    have hidle : ∀ t, c.loc t = .idle := by
      rintro (_ | _)
      · exact hf
      · exact ht
    exact ⟨c, _, h₂, hr, rfl, rfl, h1 [] _ h₂ _ rfl rfl, h2 hidle, h3⟩
  · cases hq

end Bonostl.ThreadsafeList
