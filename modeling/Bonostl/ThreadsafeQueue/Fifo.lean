import Bonostl.Interleaving.Linearizable
import Bonostl.ThreadsafeQueue.Shape

/-!
# `threadsafe_queue` is a linearizable FIFO queue

`push` takes effect when it moves `tail`, a pop when `pop_head` has moved `head` out, and an
operation that finds the queue empty (and `empty` in any case) when `get_tail` reads `tail`: the
mutex it holds keeps `head` where it was compared (`point`). The values in the queue are those of
the nodes before `tail` (`contents`); while `head` is moved out, the first node is the one its
thread is going to set (`front`).

`two_lock_queue` collects what holds in every run.
-/

namespace Bonostl.ThreadsafeQueue

open Interleaving Chain

variable {ι T : Type}

/-! ## The values in the queue -/

/-- The first node while `head` is moved out. -/
def Pc.front (s : Shared ι T) : Pc T → Option ℕ
  | .readNext _ _ old => s.next old
  | .nullNext _ _ _ nx | .setHead _ _ _ nx => some nx
  | _ => none

/-- The first node of the queue. -/
def front (c : Config ι (Shared ι T) (Pc T)) : Option ℕ :=
  match c.shared.head with
  | some a => some a
  | none => c.shared.headMutex.bind fun t => (c.loc t).front c.shared

/-- The values of all nodes but the last. -/
def values (s : Shared ι T) (q : List ℕ) : List T := q.dropLast.filterMap s.data

/-- The values in the queue, the oldest first. -/
noncomputable def contents (c : Config ι (Shared ι T) (Pc T)) : List T :=
  values c.shared (nodes (succ c.shared) (front c))

section
variable {c : Config ι (Shared ι T) (Pc T)} {q : List ℕ} (h : Shape c.shared c.loc q)
include h

theorem Shape.front_eq : front c = q.head? := by
  unfold front
  cases hh : c.shared.head with
  | some a => exact (h.headed a hh).symm
  | none =>
    obtain ⟨t, ht⟩ := h.nulled hh
    have hown := (h.headOwner t).mp (Pc.nulled_holdsHead ht)
    have hfits := h.fits t
    rw [hown]
    show (c.loc t).front c.shared = q.head?
    generalize c.loc t = pc at ht hfits
    cases pc with
    | readNext => exact hfits.2.2
    | nullNext => exact hfits.2.2.2
    | setHead => exact hfits.2.2.2
    | _ => simp [Pc.nulled] at ht

theorem Shape.contents_eq : contents c = values c.shared q := by
  unfold contents
  rw [h.front_eq, nodes_eq h.chained]
end

/-- A node before the last is not the tail. -/
theorem Shape.dropLast_ne {s : Shared ι T} {f : ι → Pc T} {q : List ℕ} (h : Shape s f q) {a : ℕ}
    (ha : a ∈ q.dropLast) : a ∈ q ∧ a ≠ s.tail := by
  have hnd := h.nodup
  obtain ⟨l, rfl⟩ := List.getLast?_eq_some_iff.mp h.last
  rw [List.dropLast_concat] at ha
  exact ⟨by simp [ha], fun he => List.disjoint_of_nodup_append hnd ha (by simp [he])⟩

section
variable [DecidableEq ι] {s s' : Shared ι T} {f : ι → Pc T} {q : List ℕ} {t : ι} {k : Choice ι T}
  {ev : Event (Op T) (Res T)} {l' : Pc T}

/-- The values of a step that moves neither end. -/
theorem Shape.values_stay (h : Shape s f q) (hm : Move t k s ev (f t) s' l') :
    values s' q = values s q := by
  refine List.filterMap_congr fun a ha => ?_
  obtain ⟨hq, hne⟩ := h.dropLast_ne ha
  exact (h.next_move hm hq hne).2

omit [DecidableEq ι] in
theorem Shape.values_push (h : Shape s f q) {v : T} {n : ℕ} (hf : f t = .moveTail v n) :
    values { s with tail := n } (q ++ [n]) = values s q ++ [v] := by
  have hfits := h.fits t
  rw [hf] at hfits
  obtain ⟨l, rfl⟩ := List.getLast?_eq_some_iff.mp h.last
  simp [values, hfits.2.2.1]

omit [DecidableEq ι] in
theorem Shape.values_pop (h : Shape s f q) {qu : Query} {w : Bool} {v : Option T} {old : ℕ}
    (hf : f t = .nullHead qu w v old) :
    ∃ x, s.data old = some x ∧ values s q = x :: values { s with head := none } q.tail := by
  obtain ⟨rest, rfl, hlast, -, -⟩ := h.nullHead_eq hf
  have hfits := h.fits t
  rw [hf] at hfits
  obtain ⟨x, hx⟩ := Option.isSome_iff_exists.mp (h.stored old (by simp) hfits.2.1)
  refine ⟨x, hx, ?_⟩
  cases rest with
  | nil => cases hlast
  | cons b rest => simp [values, hx]

omit [DecidableEq ι] in
/-- The comparison of the two ends tells whether the queue is empty. -/
theorem Shape.values_eq_nil (h : Shape s f q) {a : ℕ} (ha : s.head = some a) :
    values s q = [] ↔ a = s.tail := by
  have hq := h.headed a ha
  have hlast := h.last
  have hst := h.stored
  have hnd := h.nodup
  cases q with
  | nil => cases hq
  | cons b rest =>
    obtain rfl : b = a := Option.some.inj hq
    cases rest with
    | nil =>
      have : b = s.tail := by simpa using hlast
      simp [values, this]
    | cons d rest =>
      have hbt : b ≠ s.tail := by
        rintro rfl
        have hmem : s.tail ∈ d :: rest := List.mem_of_getLast? (by simpa using hlast)
        exact (List.nodup_cons.mp hnd).1 hmem
      obtain ⟨x, hx⟩ := Option.isSome_iff_exists.mp (hst b (by simp) hbt)
      simp [values, hx, hbt]
end

/-! ## The points at which operations take effect -/

/-- What `try_pop` returns on an empty queue. -/
def Form.missed : Form → Res T
  | .value => .optional none
  | .ref => .found false none

/-- The sequential queue. -/
inductive Fifo : List T → Op T → Res T → List T → Prop
  | push (q v) : Fifo q (.push v) .unit (q ++ [v])
  | waitAndPop (f v q) :
      Fifo (v :: q) (.query (.waitAndPop f)) ((Query.waitAndPop f).popped v) q
  | tryPop (f v q) : Fifo (v :: q) (.query (.tryPop f)) ((Query.tryPop f).popped v) q
  | miss (f) : Fifo [] (.query (.tryPop f)) f.missed []
  | empty (q) : Fifo q (.query .empty) (.bool q.isEmpty) q

/-- What a comparison decides without a pop. -/
def Query.settled (w eq : Bool) (qu : Query) : Option (Res T) :=
  match qu.compared w eq with
  | .release r => some r
  | _ => none

/-- The operations that take effect with a thread's next step. -/
def Pc.point (t : ι) (s : Shared ι T) : Pc T → List (Effect ι (Op T) (Res T))
  | .moveTail v _ => [⟨t, .push v, .unit⟩]
  | .nullHead qu _ _ old => (s.data old).toList.map fun v => ⟨t, .query qu, qu.popped v⟩
  | .getTail qu w h => (qu.settled w (h = some s.tail)).toList.map fun r => ⟨t, .query qu, r⟩
  | _ => []

/-- The operations that take effect with a step. -/
def point (r : Rec ι (Shared ι T) (Pc T) (Op T) (Res T)) : List (Effect ι (Op T) (Res T)) :=
  (r.pre.loc r.tid).point r.tid r.pre.shared

/-- How far the operation of a thread has come. -/
def status (s : Shared ι T) : Pc T → Status (Op T) (Res T)
  | .idle | .fault => .idle
  | .newTail v | .lockTail v _ | .tailData v _ | .writeData v _ _ | .tailNext v _
  | .writeNext v _ _ | .moveTail v _ => .called (.push v)
  | .unlockTail _ | .notify => .done .unit
  | .unlockGet qu w h p =>
    match (qu.settled w (h = some p) : Option (Res T)) with
    | some r => .done r
    | none => .called (.query qu)
  | .lockHead qu | .getHead qu _ | .lockGet qu _ _ | .getTail qu _ _ | .refHead qu _
  | .refData qu _ _ | .readHead qu _ _ | .nullHead qu _ _ _ => .called (.query qu)
  | .block f | .wait f => .called (.query (.waitAndPop f))
  | .readNext qu _ old | .nullNext qu _ old _ | .setHead qu _ old _ | .unlockHead qu _ old
  | .takeData qu old =>
    match s.data old with
    | some v => .done (qu.popped v)
    | none => .called (.query qu)
  | .free _ r | .release r | .done r => .done r

theorem status_compared (s : Shared ι T) (qu : Query) (w : Bool) (h : Option ℕ) (p : ℕ) :
    status s (qu.compared w (h = some p)) = status s (.unlockGet qu w h p) := by
  rcases qu with (_ | _) | (_ | _) | _ <;> cases hd : decide (h = some p) <;>
    simp [Query.compared, Query.settled, status, hd]

/-- What the comparison decides is right for a queue that is empty just when the ends are equal. -/
theorem fifo_settled {qu : Query} {w eq : Bool} {r : Res T} {q : List T}
    (hr : qu.settled w eq = some r) (hq : q = [] ↔ eq = true) : Fifo q (.query qu) r q := by
  rcases qu with (_ | _) | (_ | _) | _ <;> cases eq <;>
    simp_all [Query.settled, Query.compared] <;> subst hr
  · exact .miss .value
  · exact .miss .ref
  · have he : q.isEmpty = false := by simpa using hq
    simpa [he] using Fifo.empty q
  · exact .empty []

theorem fifo_popped {qu : Query} (hqu : qu ≠ .empty) (v : T) (q : List T) :
    Fifo (v :: q) (.query qu) (qu.popped v) q := by
  cases qu with
  | waitAndPop f => exact .waitAndPop f v q
  | tryPop f => exact .tryPop f v q
  | empty => exact absurd rfl hqu

/-! ## Every run is linearized -/

section
variable [DecidableEq ι] {c : Config ι (Shared ι T) (Pc T)} {q : List ℕ} {t : ι} {k : Choice ι T}
  {s' : Shared ι T} {ev : Event (Op T) (Res T)} {l' : Pc T}
  {H : Annotated ι (Config ι (Shared ι T) (Pc T)) (Pc T) (Op T) (Res T)}

/-- The other threads' operations are where they were. -/
theorem Shape.status_set (h : Shape c.shared c.loc q) (hm : Move t k c.shared ev (c.loc t) s' l') :
    (fun u => status s' ((c.set t s' l').loc u)) =
      Function.update (fun u => status c.shared (c.loc u)) t (status s' l') := by
  funext u
  by_cases hut : u = t
  · subst hut; simp
  · have hown := fun n hn => (h.owned_frame (u := u) (n := n) hm hut hn).1
    rw [Config.set_loc_ne c hut, Function.update_of_ne hut]
    generalize c.loc u = pc at hown
    cases pc <;> simp_all [status, Pc.owns]

/-- The queue after a step. -/
theorem Shape.contents_move (h : Shape c.shared c.loc q)
    (hm : Move t k c.shared ev (c.loc t) s' l') :
    contents (c.set t s' l') = values s' ((c.loc t).advance q) :=
  Shape.contents_eq (c := c.set t s' l') (h.move hm)

/-- **One step is linearized** by the operations that take effect with it. -/
theorem Shape.linearized_move (h : Shape c.shared c.loc q)
    (hm : Move t k c.shared ev (c.loc t) s' l')
    (hL : Linearized Fifo contents H fun u => status c.shared (c.loc u)) :
    Linearized Fifo contents
      ((Rec.whole ⟨t, ev, c, c.set t s' l'⟩, (c.loc t).point t c.shared) :: H)
      fun u => status (c.set t s' l').shared ((c.set t s' l').loc u) := by
  have hcon := h.contents_eq
  have hcon' := h.contents_move hm
  have hstay := h.values_stay hm
  have hfits := h.fits t
  have hp : (fun u => status c.shared (c.loc u)) t = status c.shared (c.loc t) := rfl
  rw [Config.set_shared, h.status_set hm]
  -- a silent step that changes neither the status nor the queue
  have htau : ev = .tau → status s' l' = status c.shared (c.loc t) → (c.loc t).advance q = q →
      Linearized Fifo contents ((Rec.whole ⟨t, ev, c, c.set t s' l'⟩, []) :: H)
        (Function.update (fun u => status c.shared (c.loc u)) t (status s' l')) := by
    rintro rfl hs hq
    rw [hs, Function.update_eq_self]
    have ha : contents (c.set t s' l').whole.shared = contents c.whole.shared := by
      show contents (c.set t s' l') = contents c
      rw [hcon', hq, hstay, hcon]
    exact hL.tau ha
  -- a step with which the mover's own operation takes effect
  have hcommit : ∀ o r, ev = .tau → status c.shared (c.loc t) = .called o → status s' l' = .done r →
      Fifo (values c.shared q) o r (values s' ((c.loc t).advance q)) →
      Linearized Fifo contents ((Rec.whole ⟨t, ev, c, c.set t s' l'⟩, [⟨t, o, r⟩]) :: H)
        (Function.update (fun u => status c.shared (c.loc u)) t (status s' l')) := by
    rintro o r rfl ho hs hF
    rw [hs]
    have ha : Fifo (contents c.whole.shared) o r (contents (c.set t s' l').whole.shared) := by
      show Fifo (contents c) o r (contents (c.set t s' l'))
      rwa [hcon', hcon]
    exact hL.commit ho ha
  generalize hft : c.loc t = pc at hm hfits hp hcon' htau hcommit
  cases hm with
  | push v | query qu =>
    refine hL.call (c := c.whole) hp ?_
    exact hcon'.trans hcon.symm
  | ret r =>
    refine hL.ret (c := c.whole) hp ?_
    exact hcon'.trans hcon.symm
  | moveTail v n =>
    have hF := Fifo.push (values c.shared q) v
    rw [← h.values_push hft] at hF
    exact hcommit _ _ rfl rfl rfl hF
  | nullHead qu w v old =>
    obtain ⟨x, hx, hval⟩ := h.values_pop hft
    have hF := fifo_popped hfits.2.2.2 x (values { c.shared with head := none } q.tail)
    rw [← hval] at hF
    simp only [Pc.point, hx, Option.toList_some, List.map_cons, List.map_nil]
    exact hcommit _ _ rfl rfl (by simp [status, hx]) hF
  | getTail qu w hd =>
    have hnil : values c.shared q = [] ↔ decide (hd = some c.shared.tail) = true := by
      obtain ⟨a, ha⟩ := h.head_some (t := t) (by rw [hft]; rfl) (by rw [hft]; rfl)
      rw [h.values_eq_nil ha, show hd = c.shared.head from hfits, ha]
      simp
    cases hr : (qu.settled w (hd = some c.shared.tail) : Option (Res T)) with
    | some r =>
      simp only [Pc.point, hr, Option.toList_some, List.map_cons, List.map_nil]
      exact hcommit _ _ rfl rfl (by simp [status, hr]) (fifo_settled hr hnil)
    | none =>
      simp only [Pc.point, hr, Option.toList_none, List.map_nil]
      exact htau rfl (by simp [status, hr]) rfl
  | unlockGet qu w hd p => exact htau rfl (status_compared _ _ _ _ _) rfl
  | unlockRef qu v old =>
    have hv : c.shared.data old = some v := (hfits.2.1.resolve_left (by simp)).symm
    exact htau rfl (by simp [status, hv]) rfl
  | takeData qu old v hv => exact htau rfl (by simp [status, hv]) rfl
  | _ => exact htau rfl rfl rfl
end

/-- A history with the operations that take effect at each step. -/
def linearization (h : List (Rec ι (Shared ι T) (Pc T) (Op T) (Res T))) :
    Annotated ι (Config ι (Shared ι T) (Pc T)) (Pc T) (Op T) (Res T) :=
  h.map fun r => (r.whole, point r)

theorem linearization_map (h : List (Rec ι (Shared ι T) (Pc T) (Op T) (Res T))) :
    (linearization h).map Prod.fst = h.map Rec.whole := by
  simp [linearization]

/-! ## First in, first out -/

/-- The value an operation puts into the queue. -/
def Op.pushed : Op T → Option T
  | .push v => some v
  | .query _ => none

/-- The value a result takes out of the queue. -/
def Res.taken : Res T → Option T
  | .value v | .stored v => some v
  | .optional o | .found _ o => o
  | .unit | .bool _ => none

/-- In a sequential run the values come out in the order in which they went in. -/
theorem Legal.fifo {a b : List T} {es : List (Effect ι (Op T) (Res T))} (h : Legal Fifo a es b) :
    es.filterMap (fun e => e.res.taken) ++ b = a ++ es.filterMap (fun e => e.op.pushed) := by
  induction h with
  | nil => simp
  | @cons a b c e es hs _ ih =>
    obtain ⟨t, o, r⟩ := e
    cases hs with
    | push => simpa [Op.pushed, Res.taken] using ih
    | waitAndPop f v => cases f <;> simpa [Op.pushed, Res.taken, Query.popped] using ih
    | tryPop f v => cases f <;> simpa [Op.pushed, Res.taken, Query.popped] using ih
    | miss f => cases f <;> simpa [Op.pushed, Res.taken, Form.missed] using ih
    | empty => simpa [Op.pushed, Res.taken] using ih

/-- The value of a push that is about to release `tail_mutex_`. -/
def Pc.releases : Pc T → Option T
  | .unlockTail v => some v
  | _ => none

/-- The values pushed, in the order in which the pushes released `tail_mutex_`. -/
def released (h : List (Rec ι (Shared ι T) (Pc T) (Op T) (Res T))) : List T :=
  (h.filterMap fun r => (r.pre.loc r.tid).releases).reverse

/-- The value of a push that has moved `tail` and still holds `tail_mutex_`. -/
def unreleased (c : Config ι (Shared ι T) (Pc T)) : List T :=
  match c.shared.tailMutex with
  | none => []
  | some t => (c.loc t).releases.toList

/-- The values pushed, in the order in which the pushes took effect. -/
def pushed (h : List (Rec ι (Shared ι T) (Pc T) (Op T) (Res T))) : List T :=
  (order (linearization h)).filterMap fun e => e.op.pushed

/-- The values popped, in the order in which the pops took effect. -/
def popped (h : List (Rec ι (Shared ι T) (Pc T) (Op T) (Res T))) : List T :=
  (order (linearization h)).filterMap fun e => e.res.taken

section
variable {h : List (Rec ι (Shared ι T) (Pc T) (Op T) (Res T))}

theorem released_cons (r : Rec ι (Shared ι T) (Pc T) (Op T) (Res T)) :
    released (r :: h) = released h ++ (r.pre.loc r.tid).releases.toList := by
  unfold released
  cases hr : (r.pre.loc r.tid).releases <;> simp [hr]

theorem pushed_cons (r : Rec ι (Shared ι T) (Pc T) (Op T) (Res T)) :
    pushed (r :: h) = pushed h ++ (point r).filterMap fun e => e.op.pushed := by
  unfold pushed
  simp [linearization]

variable [DecidableEq ι] {c : Config ι (Shared ι T) (Pc T)} {q : List ℕ} {t : ι} {k : Choice ι T}
  {s' : Shared ι T} {ev : Event (Op T) (Res T)} {l' : Pc T}

/-- The steps that neither lock nor unlock `tail_mutex_` nor move `tail`. -/
theorem unreleased_stay (hmutex : s'.tailMutex = c.shared.tailMutex)
    (hold : (c.loc t).releases = none) (hnew : l'.releases = none) :
    unreleased (c.set t s' l') = unreleased c := by
  unfold unreleased
  rw [Config.set_shared, hmutex]
  cases c.shared.tailMutex with
  | none => rfl
  | some u =>
    by_cases hut : u = t
    · subst hut; simp [hold, hnew]
    · simp [Config.set_loc_ne c hut]

/-- A push that takes effect is about to release its mutex. -/
theorem Shape.unreleased_move (hs : Shape c.shared c.loc q)
    (hm : Move t k c.shared ev (c.loc t) s' l') :
    unreleased c ++ ((c.loc t).point t c.shared).filterMap (fun e => e.op.pushed) =
      (c.loc t).releases.toList ++ unreleased (c.set t s' l') := by
  have hown := hs.tailOwner t
  have hstay : s'.tailMutex = c.shared.tailMutex → (c.loc t).releases = none → l'.releases = none →
      unreleased (c.set t s' l') = unreleased c := unreleased_stay
  generalize hft : c.loc t = pc at hm hown hstay
  cases hm with
  | moveTail v n =>
    have hmutex := hown.mp rfl
    simp [unreleased, hmutex, hft, Pc.releases, Pc.point, Op.pushed]
  | unlockTail v =>
    have hmutex := hown.mp rfl
    simp [unreleased, hmutex, hft, Pc.releases, Pc.point]
  | unlockGet qu w hd p =>
    have hmutex := hown.mp rfl
    simp [unreleased, hmutex, hft, Pc.releases, Pc.point]
  | lockTail v n hmutex => simp [unreleased, hmutex, Pc.releases, Pc.point]
  | lockGet qu w hd hmutex => simp [unreleased, hmutex, Pc.releases, Pc.point]
  | nullHead qu w v old =>
    rw [hstay rfl rfl rfl]
    cases hd : c.shared.data old <;> simp [Pc.point, Pc.releases, hd, Op.pushed]
  | getTail qu w hd =>
    rw [hstay rfl rfl rfl]
    cases hr : (qu.settled w (hd = some c.shared.tail) : Option (Res T)) <;>
      simp [Pc.point, Pc.releases, hr, Op.pushed]
  | _ => simp [hstay rfl rfl rfl, Pc.point, Pc.releases]

end

/-! ## The result -/

section
variable [DecidableEq ι] {h : List (Rec ι (Shared ι T) (Pc T) (Op T) (Res T))}
  {c : Config ι (Shared ι T) (Pc T)}

/-- What holds in every run. -/
structure Inv (h : List (Rec ι (Shared ι T) (Pc T) (Op T) (Res T)))
    (c : Config ι (Shared ι T) (Pc T)) : Prop where
  shape : ∃ q, Shape c.shared c.loc q
  linear : Linearized Fifo contents (linearization h) fun u => status c.shared (c.loc u)
  order : pushed h = released h ++ unreleased c

theorem Inv.run (hr : program.Run Program.anyStep initial h c) : Inv h c := by
  refine hr.induction (I := fun h c => Inv h c) ?_ ?_
  · exact ⟨⟨_, shape_initial⟩, .nil, rfl⟩
  · rintro h c t k ev s' l' _ ⟨⟨q, hs⟩, hL, hord⟩ _ hstep
    have hm := hs.move_of_step hstep
    refine ⟨⟨_, hs.move hm⟩, hs.linearized_move hm hL, ?_⟩
    rw [pushed_cons, released_cons, hord, List.append_assoc, List.append_assoc]
    exact congrArg _ (hs.unreleased_move hm)

/-- **The queue with two locks.** In every run

* the operations, at the points where they take effect, are a sequential FIFO queue, and every value
  comes out once, in the order in which the pushes released `tail_mutex_`;
* while neither mutex is held, the chain from `head` ends at `tail`, all its nodes but the last hold
  a value and the last holds none, and these are the values not yet popped;
* no thread has dereferenced a null pointer, a freed node or an empty optional, or is about to. -/
theorem two_lock_queue (hr : program.Run Program.anyStep initial h c) :
    (Linearized Fifo contents (linearization h) (fun u => status c.shared (c.loc u)) ∧
      popped h ++ contents c = pushed h ∧ pushed h = released h ++ unreleased c) ∧
    (c.shared.headMutex = none → c.shared.tailMutex = none →
      ∃ l, Linked c.shared.next c.shared.head (l ++ [c.shared.tail]) ∧
        (∀ a ∈ l, (c.shared.data a).isSome) ∧ c.shared.data c.shared.tail = none ∧
        released h = popped h ++ l.filterMap c.shared.data) ∧
    ∀ t, c.loc t ≠ .fault ∧ (c.loc t).faults c.shared = false := by
  obtain ⟨⟨q, hs⟩, hL, hord⟩ := Inv.run hr
  have hfifo : popped h ++ contents c = pushed h := by
    have hrun := Legal.fifo (hL.legal_whole (linearization_map h) hr)
    rwa [shape_initial.contents_eq] at hrun
  refine ⟨⟨hL, hfifo, hord⟩, fun hhead htail => ?_, fun t => ⟨fun hf => ?_, hs.no_fault t⟩⟩
  · have hnohead : ∀ t, (c.loc t).holdsHead = false := fun t => by
      simpa [hhead] using hs.headOwner t
    have hnotail : ∀ t, (c.loc t).holdsTail = false := fun t => by
      simpa [htail] using hs.tailOwner t
    have hempty : c.shared.data c.shared.tail = none := hs.empty fun t => by
      by_contra hf
      exact absurd (Pc.filled_holdsTail (by simpa using hf)) (by simp [hnotail t])
    have hlast : c.shared.next c.shared.tail = none := hs.unlinked fun t => by
      by_contra hl
      exact absurd (Pc.filled_holdsTail (Pc.linked_filled (by simpa using hl)))
        (by simp [hnotail t])
    have hfirst : c.shared.head = q.head? := by
      cases hh : c.shared.head with
      | some a => exact (hs.headed a hh).symm
      | none =>
        obtain ⟨t, ht⟩ := hs.nulled hh
        exact absurd (Pc.nulled_holdsHead ht) (by simp [hnohead t])
    have hun : unreleased c = [] := by simp [unreleased, htail]
    have hdrop := fun a => hs.dropLast_ne (a := a)
    have hcon := hs.contents_eq
    have hlink := hs.chained
    have hstored := hs.stored
    obtain ⟨l, rfl⟩ := List.getLast?_eq_some_iff.mp hs.last
    refine ⟨l, ?_, fun a ha => ?_, hempty, ?_⟩
    · rw [hfirst]
      refine hlink.congr fun a _ => ?_
      unfold succ
      split
      · rename_i he
        rw [he, hlast]
      · rfl
    · obtain ⟨hq, hne⟩ := hdrop a (by simpa using ha)
      exact hstored a hq hne
    · rw [← List.append_nil (released h), ← hun, ← hord, ← hfifo, hcon]
      simp [values]
  · have := hs.fits t
    rw [hf] at this
    exact this
end

/-- A value pushed while a consumer is waiting for it, with both operations finished. -/
theorem two_lock_queue_handover :
    ∃ (h : List (Rec Bool (Shared Bool ℕ) (Pc ℕ) (Op ℕ) (Res ℕ))) (c : _),
      program.Run Program.anyStep initial h c ∧
        (c.shared.headMutex = none ∧ c.shared.tailMutex = none ∧ popped h = [5] ∧
          c.loc false = .done (.value 5)) ∧
        ∃ l, Linked c.shared.next c.shared.head (l ++ [c.shared.tail]) ∧
          released h = [5] ++ l.filterMap c.shared.data := by
  obtain ⟨h, c, hr, hp⟩ := Program.replay_reaches program initial
    ([(false, Choice.call (.query (.waitAndPop .value))), (false, Choice.run),
        (false, Choice.run), (false, Choice.run), (false, Choice.run), (false, Choice.run),
        (false, Choice.run), (true, Choice.call (.push 5)), (true, Choice.alloc 1)] ++
      List.replicate 7 (true, Choice.run) ++ [(true, Choice.notify false)] ++
      List.replicate 13 (false, Choice.run))
    (fun h c => c.shared.headMutex = none ∧ c.shared.tailMutex = none ∧ popped h = [5] ∧
      c.loc false = .done (.value 5)) (by decide)
  obtain ⟨hhead, htail, hpop, hdone⟩ := of_decide_eq_true hp
  obtain ⟨l, hlink, -, -, hrel⟩ := (two_lock_queue hr).2.1 hhead htail
  exact ⟨h, c, hr, ⟨hhead, htail, hpop, hdone⟩, l, hlink, hpop ▸ hrel⟩

end Bonostl.ThreadsafeQueue
