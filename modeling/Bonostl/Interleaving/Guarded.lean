import Bonostl.Interleaving.Linearizable

/-!
# Objects behind one mutex

Every operation locks the object's mutex, runs its own sequential code on the object's data, step by
step, and unlocks it again (`Code.program`). Another thread may take steps anywhere in between, but
none on the data. If the sequential code of every operation gets to its end and does there what
`spec` says (`Code.Meets`), the object is linearizable to `spec` (`Code.linearizable`), and no
thread ever comes to a step that its data do not allow (`Code.keeps_going`).

While an operation is inside, the data are somewhere between two states of the object. The object's
state is then what the operation is going to leave (`Code.settled`), so that an operation takes
effect when it gets the mutex.
-/

namespace Interleaving

namespace Guarded

/-- The sequential code of the operations: `enter o` is where that of `o` begins. A step on the data
goes on or ends with a result; it is `none` where the data do not allow it. -/
structure Code (A B Op Res : Type) where
  enter : Op → B
  step : B → A → Option (A × (B ⊕ Res))

/-- The mutex and what it guards. -/
structure Members (ι A : Type) where
  mutex : Option ι
  data : A

/-- Where a thread stands. -/
inductive Place (B Op Res : Type) where
  | idle
  | lock (o : Op)
  | inside (b : B)
  | unlock (r : Res)
  | done (r : Res)
  deriving DecidableEq

/-- The scheduler's choice: a call, or the next step. -/
inductive Choice (Op : Type) where
  | call (o : Op)
  | run
  deriving DecidableEq

variable {ι A B Op Res : Type}

/-- The thread holds the mutex. -/
def Place.locked : Place B Op Res → Bool
  | .inside _ | .unlock _ => true
  | _ => false

namespace Code

variable (m : Code A B Op Res)

/-- One step of a thread. -/
def threadStep (t : ι) (k : Choice Op) (s : Members ι A) (l : Place B Op Res) :
    Option (Event Op Res × Members ι A × Place B Op Res) :=
  match l, k with
  | .idle, .call o => some (.call o, s, .lock o)
  | .lock o, .run =>
    match s.mutex with
    | some _ => none
    | none => some (.tau, { s with mutex := some t }, .inside (m.enter o))
  | .inside b, .run =>
    match m.step b s.data with
    | none => none
    | some (data, .inl b') => some (.tau, { s with data }, .inside b')
    | some (data, .inr r) => some (.tau, { s with data }, .unlock r)
  | .unlock r, .run => some (.tau, { s with mutex := none }, .done r)
  | .done r, .run => some (.ret r, s, .idle)
  | _, _ => none

/-- The threads that use the object. -/
def program : Program ι (Members ι A) (Place B Op Res) (Choice Op) Op Res := ⟨m.threadStep⟩

/-- Nobody uses the object yet. -/
def initial (a : A) : Config ι (Members ι A) (Place B Op Res) := ⟨⟨none, a⟩, fun _ => .idle⟩

/-- The moves of a thread. -/
inductive Move (t : ι) (s : Members ι A) :
    Event Op Res → Place B Op Res → Members ι A → Place B Op Res → Prop
  | call (o) : Move t s (.call o) .idle s (.lock o)
  | lock (o) (hm : s.mutex = none) :
      Move t s .tau (.lock o) { s with mutex := some t } (.inside (m.enter o))
  | next (b a b') (h : m.step b s.data = some (a, .inl b')) :
      Move t s .tau (.inside b) { s with data := a } (.inside b')
  | last (b a r) (h : m.step b s.data = some (a, .inr r)) :
      Move t s .tau (.inside b) { s with data := a } (.unlock r)
  | unlock (r) : Move t s .tau (.unlock r) { s with mutex := none } (.done r)
  | ret (r) : Move t s (.ret r) (.done r) s .idle

variable {m}

theorem step_move {t : ι} {k : Choice Op} {s s' : Members ι A} {l l' : Place B Op Res}
    {ev : Event Op Res} (hs : m.threadStep t k s l = some (ev, s', l')) :
    m.Move t s ev l s' l' := by
  unfold threadStep at hs
  split at hs
  all_goals (repeat' split at hs)
  all_goals cases hs
  all_goals (constructor; try assumption)

/-! ## The sequential code -/

variable (m) in
/-- From `b` on data `a` the code ends with the data `a'` and the result `r`. -/
inductive Ends : B → A → A → Res → Prop
  | last {b : B} {a a' : A} {r : Res} (h : m.step b a = some (a', .inr r)) : Ends b a a' r
  | next {b b' : B} {a a' a'' : A} {r : Res} (h : m.step b a = some (a', .inl b'))
      (he : Ends b' a' a'' r) : Ends b a a'' r

variable {b b' : B} {a a' a'' : A} {r r' : Res}

theorem Ends.unique (h : m.Ends b a a' r) (h' : m.Ends b a a'' r') : a' = a'' ∧ r = r' := by
  induction h with
  | last hs =>
    cases h' with
    | last hs' => simpa [hs] using hs'
    | next hs' => simp [hs] at hs'
  | next hs _ ih =>
    cases h' with
    | last hs' => simp [hs] at hs'
    | next hs' he' =>
      have heq := hs.symm.trans hs'
      simp only [Option.some.injEq, Prod.mk.injEq, Sum.inl.injEq] at heq
      obtain ⟨rfl, rfl⟩ := heq
      exact ih he'

/-- Code that ends does not stop before. -/
theorem Ends.step (h : m.Ends b a a' r) :
    m.step b a = some (a', .inr r) ∨
      ∃ a₁ b', m.step b a = some (a₁, .inl b') ∧ m.Ends b' a₁ a' r := by
  cases h with
  | last hs => exact .inl hs
  | next hs he => exact .inr ⟨_, _, hs, he⟩

theorem Ends.of_next (h : m.Ends b a a'' r) (hs : m.step b a = some (a', .inl b')) :
    m.Ends b' a' a'' r := by
  rcases h.step with h | ⟨_, _, h, he⟩
  · simp [hs] at h
  · have heq := hs.symm.trans h
    simp only [Option.some.injEq, Prod.mk.injEq, Sum.inl.injEq] at heq
    obtain ⟨rfl, rfl⟩ := heq
    exact he

variable (m) in
/-- From good data every operation ends, does what `spec` says and leaves good data. -/
def Meets (spec : A → Op → Res → A → Prop) (Good : A → Prop) : Prop :=
  ∀ a o, Good a → ∃ a' r, m.Ends (m.enter o) a a' r ∧ spec a o r a' ∧ Good a'

/-! ## The invariant -/

variable {spec : A → Op → Res → A → Prop} {Good : A → Prop}

variable (m Good) in
/-- The one thread inside is going to end well. -/
structure Inv (s : Members ι A) (f : ι → Place B Op Res) : Prop where
  owner : ∀ t, (f t).locked ↔ s.mutex = some t
  ends : ∀ t b, f t = .inside b → ∃ a r, m.Ends b s.data a r ∧ Good a
  good : (∀ t b, f t ≠ .inside b) → Good s.data

theorem Inv.unique {s : Members ι A} {f : ι → Place B Op Res} (h : m.Inv Good s f) {t u : ι}
    (ht : (f t).locked) (hu : (f u).locked) : t = u :=
  Option.some.inj (((h.owner t).mp ht).symm.trans ((h.owner u).mp hu))

variable [DecidableEq ι] {s s' : Members ι A} {f : ι → Place B Op Res} {t : ι}
  {l' : Place B Op Res} {ev : Event Op Res}

theorem Inv.owner_move (h : m.Inv Good s f) (hm : m.Move t s ev (f t) s' l') (u : ι) :
    (Function.update f t l' u).locked ↔ s'.mutex = some u := by
  have hu := h.owner u
  have ht := h.owner t
  by_cases hut : u = t
  · subst hut
    rw [Function.update_self]
    generalize f u = l at hm hu
    cases hm <;> simp_all [Place.locked]
  · rw [Function.update_of_ne hut, hu]
    generalize f t = l at hm ht
    cases hm <;> simp_all [Place.locked, Ne.symm hut]

omit [DecidableEq ι] in
/-- Nobody else is inside while a thread holds the mutex, or takes it. -/
theorem Inv.outside (h : m.Inv Good s f) (ht : (f t).locked ∨ s.mutex = none) {u : ι} (hut : u ≠ t)
    (b : B) : f u ≠ .inside b := by
  intro hu
  have hlu : (f u).locked := by rw [hu]; rfl
  rcases ht with ht | hfree
  · exact hut (h.unique hlu ht)
  · have hown := (h.owner u).mp hlu
    rw [hfree] at hown
    cases hown

theorem Inv.ends_move (hmeets : m.Meets spec Good) (h : m.Inv Good s f)
    (hm : m.Move t s ev (f t) s' l') (u : ι) (b : B) (hu : Function.update f t l' u = .inside b) :
    ∃ a r, m.Ends b s'.data a r ∧ Good a := by
  have hends := h.ends t
  by_cases hut : u = t
  · subst hut
    rw [Function.update_self] at hu
    subst hu
    have hgood := h.good
    have hout : s.mutex = none → ∀ v b, f v ≠ .inside b := fun hfree v b hv => by
      have := (h.owner v).mp (by rw [hv]; rfl)
      rw [hfree] at this
      cases this
    generalize f u = l at hm hends
    cases hm with
    | lock o hfree =>
      obtain ⟨a', r, he, -, hg⟩ := hmeets s.data o (hgood (hout hfree))
      exact ⟨a', r, he, hg⟩
    | next b₀ a b' hs =>
      obtain ⟨a', r, he, hg⟩ := hends b₀ rfl
      exact ⟨a', r, he.of_next hs, hg⟩
  · rw [Function.update_of_ne hut] at hu
    have hother : s'.data = s.data := by
      have hout := h.outside (t := t) (u := u)
      generalize f t = l at hm hout
      cases hm with
      | next | last => exact absurd hu (hout (.inl rfl) hut b)
      | _ => rfl
    rw [hother]
    exact h.ends u b hu

theorem Inv.good_move (h : m.Inv Good s f) (hm : m.Move t s ev (f t) s' l')
    (hno : ∀ u b, Function.update f t l' u ≠ .inside b) : Good s'.data := by
  have hself := hno t
  rw [Function.update_self] at hself
  have hends := h.ends t
  have hold : (∀ b, f t ≠ .inside b) → Good s.data := fun ht => h.good fun u b => by
    by_cases hut : u = t
    · exact hut ▸ ht b
    · have := hno u b
      rwa [Function.update_of_ne hut] at this
  generalize f t = l at hm hends hold
  cases hm with
  | call | unlock | ret => exact hold nofun
  | lock o => exact absurd rfl (hself _)
  | next b a b' => exact absurd rfl (hself _)
  | last b a r hs =>
    obtain ⟨a', r', he, hg⟩ := hends b rfl
    obtain ⟨rfl, -⟩ := Ends.unique (.last hs) he
    exact hg

theorem Inv.move (hmeets : m.Meets spec Good) (h : m.Inv Good s f)
    (hm : m.Move t s ev (f t) s' l') : m.Inv Good s' (Function.update f t l') where
  owner := h.owner_move hm
  ends := h.ends_move hmeets hm
  good := h.good_move hm

variable {a₀ : A} {h : List (Rec ι (Members ι A) (Place B Op Res) Op Res)}
  {c : Config ι (Members ι A) (Place B Op Res)}

theorem Inv.run (hmeets : m.Meets spec Good) (h₀ : Good a₀)
    (hr : m.program.Run Program.anyStep (initial a₀) h c) : m.Inv Good c.shared c.loc := by
  refine hr.induction (I := fun _ c => m.Inv Good c.shared c.loc) ?_ fun h c t k ev s l _ hI _ hs =>
    hI.move hmeets (step_move hs)
  exact ⟨by simp [initial, Place.locked], by simp [initial], fun _ => h₀⟩

/-- **Nobody is stopped inside.** At most one thread holds the mutex, and it can take its next
step. -/
theorem keeps_going (hmeets : m.Meets spec Good) (h₀ : Good a₀)
    (hr : m.program.Run Program.anyStep (initial a₀) h c) :
    (∀ t u, (c.loc t).locked → (c.loc u).locked → t = u) ∧
      ∀ t, (c.loc t).locked → (m.threadStep t .run c.shared (c.loc t)).isSome := by
  have hI := Inv.run hmeets h₀ hr
  refine ⟨fun t u => hI.unique, fun t ht => ?_⟩
  generalize hl : c.loc t = l at ht
  cases l with
  | inside b =>
    obtain ⟨a, r, he, -⟩ := hI.ends t b hl
    rcases he.step with hs | ⟨a₁, b', hs, -⟩ <;> simp [threadStep, hs]
  | unlock r => rfl
  | _ => cases ht

/-! ## Linearizability -/

variable (m)

open Classical in
/-- The state of the object: what the operation inside is going to leave, or the data. -/
noncomputable def settled (c : Config ι (Members ι A) (Place B Op Res)) : A :=
  if h : ∃ a t b r, c.loc t = .inside b ∧ m.Ends b c.shared.data a r then h.choose
  else c.shared.data

open Classical in
/-- How far a thread's operation has come: the one inside has taken effect. -/
noncomputable def status (c : Config ι (Members ι A) (Place B Op Res)) :
    Place B Op Res → Status Op Res
  | .idle => .idle
  | .lock o => .called o
  | .inside b =>
    if h : ∃ x : A × Res, m.Ends b c.shared.data x.1 x.2 then .done h.choose.2 else .idle
  | .unlock r | .done r => .done r

variable {m}

omit [DecidableEq ι] in
theorem status_inside {r : Res} (he : m.Ends b c.shared.data a r) :
    m.status c (.inside b) = .done r := by
  have hex : ∃ x : A × Res, m.Ends b c.shared.data x.1 x.2 := ⟨(a, r), he⟩
  have heq := (hex.choose_spec.unique he).2
  simp only [status, dif_pos hex, heq]

omit [DecidableEq ι] in
theorem settled_outside (hno : ∀ t b, c.loc t ≠ .inside b) : m.settled c = c.shared.data := by
  unfold settled
  rw [dif_neg]
  rintro ⟨a, t, b, r, ht, -⟩
  exact hno t b ht

omit [DecidableEq ι] in
theorem Inv.settled_inside (hI : m.Inv Good c.shared c.loc) {t : ι} {r : Res}
    (ht : c.loc t = .inside b)
    (he : m.Ends b c.shared.data a r) : m.settled c = a := by
  have hex : ∃ a t b r, c.loc t = .inside b ∧ m.Ends b c.shared.data a r := ⟨a, t, b, r, ht, he⟩
  unfold settled
  rw [dif_pos hex]
  obtain ⟨u, b', r', hu, he'⟩ := hex.choose_spec
  obtain rfl : u = t := hI.unique (by rw [hu]; rfl) (by rw [ht]; rfl)
  rw [ht] at hu
  cases hu
  exact (he'.unique he).1

omit [DecidableEq ι] in
/-- While the mutex is free the state is the data. -/
theorem Inv.settled_free (hI : m.Inv Good c.shared c.loc) (hfree : c.shared.mutex = none) :
    m.settled c = c.shared.data := by
  refine settled_outside fun t b ht => ?_
  have := (hI.owner t).mp (by rw [ht]; rfl)
  rw [hfree] at this
  cases this

omit [DecidableEq ι] in
/-- A thread outside has the same status on other data. -/
theorem status_congr {c' : Config ι (Members ι A) (Place B Op Res)} {l : Place B Op Res}
    (hl : (∀ b, l ≠ .inside b) ∨ c'.shared.data = c.shared.data) :
    m.status c' l = m.status c l := by
  cases l with
  | inside b =>
    have hd := hl.resolve_left fun h => h b rfl
    unfold status
    rw [hd]
  | _ => rfl

/-- A step that does not go inside, or out, or on inside, leaves the state. -/
theorem settled_set (hI : m.Inv Good c.shared c.loc) {s' : Members ι A} {l' : Place B Op Res}
    (hl : ∀ b, c.loc t ≠ .inside b) (hl' : ∀ b, l' ≠ .inside b) (hd : s'.data = c.shared.data) :
    m.settled (c.set t s' l') = m.settled c := by
  have hiff : ∀ a, (∃ u b r, (c.set t s' l').loc u = .inside b ∧ m.Ends b s'.data a r) ↔
      ∃ u b r, c.loc u = .inside b ∧ m.Ends b c.shared.data a r := by
    intro a
    rw [hd]
    constructor
    · rintro ⟨u, b, r, hu, he⟩
      by_cases hut : u = t
      · subst hut
        rw [Config.set_loc_self] at hu
        exact absurd hu (hl' b)
      · rw [Config.set_loc_ne c hut] at hu
        exact ⟨u, b, r, hu, he⟩
    · rintro ⟨u, b, r, hu, he⟩
      have hut : u ≠ t := by
        rintro rfl
        exact hl b hu
      exact ⟨u, b, r, by rw [Config.set_loc_ne c hut]; exact hu, he⟩
  by_cases hin : ∃ u b, c.loc u = .inside b
  · obtain ⟨u, b, hu⟩ := hin
    obtain ⟨a, r, he, -⟩ := hI.ends u b hu
    have hex : ∃ a u b r, (c.set t s' l').loc u = .inside b ∧
        m.Ends b (c.set t s' l').shared.data a r := ⟨a, (hiff a).mpr ⟨u, b, r, hu, he⟩⟩
    rw [hI.settled_inside hu he]
    unfold settled
    rw [dif_pos hex]
    obtain ⟨v, b', r', hv, he'⟩ := (hiff _).mp hex.choose_spec
    obtain rfl : v = u := hI.unique (by rw [hv]; rfl) (by rw [hu]; rfl)
    rw [hu] at hv
    cases hv
    exact (he'.unique he).1
  · push Not at hin
    rw [settled_outside hin, settled_outside, Config.set_shared, hd]
    intro u b
    by_cases hut : u = t
    · subst hut
      rw [Config.set_loc_self]
      exact hl' b
    · rw [Config.set_loc_ne c hut]
      exact hin u b

variable (m) in
/-- The object of `m` and how far its operations have come, on whole configurations. -/
abbrev Linear (spec : A → Op → Res → A → Prop)
    (h : List (Rec ι (Members ι A) (Place B Op Res) Op Res))
    (c : Config ι (Members ι A) (Place B Op Res)) : Prop :=
  LinearizedBy spec m.settled m.status (h.map Rec.whole) c.whole

/-- **One step**: an operation takes effect when it gets the mutex. -/
theorem Linear.move (hmeets : m.Meets spec Good) (hI : m.Inv Good c.shared c.loc)
    (hI' : m.Inv Good s' (Function.update c.loc t l')) (hL : m.Linear spec h c)
    (hm : m.Move t c.shared ev (c.loc t) s' l') :
    m.Linear spec (⟨t, ev, c, c.set t s' l'⟩ :: h) (c.set t s' l') := by
  have hown : (c.set t s' l').loc t = l' := Config.set_loc_self ..
  -- no other thread is inside when this one is, or gets there
  have hd : (∀ u, u ≠ t → (∀ b, c.loc u ≠ .inside b) ∨ s'.data = c.shared.data) →
      ∀ u, u ≠ t → m.status (c.set t s' l') (c.loc u) = m.status c (c.loc u) :=
    fun hall u hut => status_congr (hall u hut)
  generalize hft : c.loc t = l at hm
  cases hm with
  | call o =>
    refine LinearizedBy.call (c := c.whole) hL ?_ ?_ ?_ (hd fun _ _ => .inr rfl)
    · show m.status c (c.loc t) = _
      rw [hft]; rfl
    · rfl
    · exact settled_set hI (by rw [hft]; nofun) nofun rfl
  | ret r =>
    refine LinearizedBy.ret (c := c.whole) hL ?_ ?_ ?_ (hd fun _ _ => .inr rfl)
    · show m.status c (c.loc t) = _
      rw [hft]; rfl
    · rfl
    · exact settled_set hI (by rw [hft]; nofun) nofun rfl
  | unlock r =>
    refine LinearizedBy.tau (c := c.whole) hL ?_ ?_ (hd fun _ _ => .inr rfl)
    · show m.status _ (.done r) = m.status c (c.loc t)
      rw [hft]; rfl
    · exact settled_set hI (by rw [hft]; nofun) nofun rfl
  | lock o hfree =>
    have hsettled := hI.settled_free hfree
    have hout : ∀ u b, c.loc u ≠ .inside b := fun u b hu => by
      have := (hI.owner u).mp (by rw [hu]; rfl)
      rw [hfree] at this
      cases this
    obtain ⟨a, r, he, hspec, -⟩ := hmeets _ o (hI.good hout)
    refine LinearizedBy.commit (c := c.whole) (o := o) hL ?_ (status_inside (c := c.set t _ _) he)
      ?_
      (hd fun _ _ => .inr rfl)
    · show m.status c (c.loc t) = _
      rw [hft]; rfl
    · have hnow : m.settled (c.set t { c.shared with mutex := some t } (.inside (m.enter o))) = a :=
        Inv.settled_inside (c := c.set t _ _) hI' hown he
      show spec (m.settled c) o r (m.settled _)
      rw [hsettled, hnow]
      exact hspec
  | next b a b' hs =>
    obtain ⟨a', r, he, -⟩ := hI.ends t b hft
    have he' := he.of_next hs
    refine LinearizedBy.tau (c := c.whole) hL ?_ ?_ (hd fun u hut => .inl ?_)
    · show m.status (c.set t _ _) (.inside b') = m.status c (c.loc t)
      rw [hft, status_inside he, status_inside (c := c.set t _ _) he']
    · show m.settled _ = m.settled c
      rw [hI.settled_inside hft he, Inv.settled_inside (c := c.set t _ _) hI' hown he']
    · exact hI.outside (.inl (by rw [hft]; rfl)) hut
  | last b a r hs =>
    have he : m.Ends b c.shared.data a r := .last hs
    refine LinearizedBy.tau (c := c.whole) hL ?_ ?_ (hd fun u hut => .inl ?_)
    · show m.status _ (.unlock r) = m.status c (c.loc t)
      rw [hft, status_inside he]; rfl
    · show m.settled _ = m.settled c
      rw [hI.settled_inside hft he, settled_outside]
      · rfl
      · intro u b'
        by_cases hut : u = t
        · subst hut
          rw [hown]
          nofun
        · rw [Config.set_loc_ne c hut]
          exact hI.outside (.inl (by rw [hft]; rfl)) hut b'
    · exact hI.outside (.inl (by rw [hft]; rfl)) hut

theorem Linear.run (hmeets : m.Meets spec Good) (h₀ : Good a₀)
    (hr : m.program.Run Program.anyStep (initial a₀) h c) : m.Linear spec h c := by
  refine hr.induction (I := fun h c => m.Linear spec h c) ⟨[], rfl, .nil⟩
    fun h c t k ev s l hrun hL _ hs => ?_
  have hI := Inv.run hmeets h₀ hrun
  have hm := step_move hs
  exact hL.move hmeets hI (hI.move hmeets hm) hm

/-- **Objects behind one mutex are linearizable**: the operations, in the order in which they got
the mutex, are a linearization; the state they lead to is that of the object, and it is good. -/
theorem linearizable (hmeets : m.Meets spec Good) (h₀ : Good a₀)
    (hr : m.program.Run Program.anyStep (initial a₀) h c) :
    ∃ H : Annotated ι (Config ι (Members ι A) (Place B Op Res)) (Place B Op Res) Op Res,
      H.map Prod.fst = h.map Rec.whole ∧
      Linearized spec m.settled H (fun u => m.status c (c.loc u)) ∧
      Legal spec a₀ (order H) (m.settled c) ∧
      (c.shared.mutex = none → m.settled c = c.shared.data ∧ Good c.shared.data) := by
  have hI := Inv.run hmeets h₀ hr
  obtain ⟨H, hH, hlin⟩ := Linear.run hmeets h₀ hr
  have hlegal := hlin.legal_whole hH hr
  have hstart : m.settled (initial (ι := ι) a₀) = a₀ := settled_outside nofun
  rw [hstart] at hlegal
  refine ⟨H, hH, hlin, hlegal, fun hfree => ⟨hI.settled_free hfree, hI.good fun t b ht => ?_⟩⟩
  have := (hI.owner t).mp (by rw [ht]; rfl)
  rw [hfree] at this
  cases this

end Code

end Guarded

end Interleaving
