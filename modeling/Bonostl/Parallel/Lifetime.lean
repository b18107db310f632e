import Bonostl.Parallel.Model
import Bonostl.ThreadPool.Helping

/-!
# When the tasks of a parallel call have finished

A call that has submitted one half keeps its number on the stack, as `direct`, `await` or `get`,
until the future of that half is ready (`next_subs`). There is one exception: an exception that
leaves the direct half goes on to the caller at once, through the `std::future` destructor, which
does not wait. No `catch` or guard of the algorithms waits for the submitted half on that path.

So tasks can outlive their call (`task_outlives_call`), and they do not as long as every exception
that leaves a direct half finds the submitted half finished (`Settled`, `no_task_outlives_call`).
-/

namespace Bonostl.Parallel

open Interleaving ThreadPool

variable {E : Type}

/-- The submitted half a call has to wait for. -/
def Call.sub : Call → Option ℕ
  | .direct _ sub _ | .await _ sub _ _ | .get _ sub _ _ => some sub
  | _ => none

/-- The submitted halves the calls on a stack have to wait for. -/
def Body.subs (f : Body) : List ℕ := f.stack.filterMap Call.sub

/-- The submitted halves a frame has to wait for. -/
def held : Frame Body → List ℕ
  | .code _ _ f | .wait _ _ _ f => f.subs
  | .worker | .destroy _ => []

/-- The code need not wait for `n` any more: its future is ready, or an exception has just left the
direct half of the call that submitted it. -/
def Excused (results : ℕ → Option Outcome) (f : Body) (n : ℕ) : Prop :=
  (results n).isSome ∨ ∃ a flag calls, f = ⟨.direct a n flag :: calls, some .throws⟩

/-- What a piece of code does about the halves it has submitted. -/
def Keeps (results : ℕ → Option Outcome) (f : Body) : Act Body Outcome → Prop
  | .go f' => ∀ n ∈ f.subs, n ∈ f'.subs ∨ Excused results f n
  | .submit _ resume => ∀ m, (∀ n ∈ f.subs, n ∈ (resume m).subs) ∧
      ∀ a sub direct flag calls, f = ⟨.submit a sub direct flag :: calls, none⟩ →
        m ∈ (resume m).subs
  | .wait _ f' => f'.subs = f.subs
  | .finish _ => f.subs = []
  | .runPendingTask _ | .destroy _ => False

section
variable {results : ℕ → Option Outcome} {g g' : Memory} {rest : List Call} {ret : Option Outcome}
  {flag : ℕ} {top : Call} {act : Act Body Outcome}

/-- The call on top ends, or goes on as `calls`. -/
theorem keeps_go (calls : List Call) {ret' : Option Outcome}
    (ht : ∀ n, top.sub = some n → Excused results ⟨top :: rest, ret⟩ n) :
    Keeps results ⟨top :: rest, ret⟩ (.go ⟨calls ++ rest, ret'⟩) := by
  intro n hn
  rcases List.mem_filterMap.mp hn with ⟨c, hc, hsub⟩
  rcases List.mem_cons.mp hc with rfl | hc
  · exact .inr (ht n hsub)
  · exact .inl (List.mem_filterMap.mpr ⟨c, List.mem_append_right _ hc, hsub⟩)

theorem keeps_ends {o : Outcome}
    (ht : ∀ n, top.sub = some n → Excused results ⟨top :: rest, ret⟩ n) :
    Keeps results ⟨top :: rest, ret⟩ (ends g rest o).2 :=
  keeps_go [] ht

theorem keeps_goes {c : Call}
    (ht : ∀ n, top.sub = some n → Excused results ⟨top :: rest, ret⟩ n) :
    Keeps results ⟨top :: rest, ret⟩ (goes g (c :: rest)).2 :=
  keeps_go [c] ht

theorem keeps_raises {a : Algo}
    (ht : ∀ n, top.sub = some n → Excused results ⟨top :: rest, ret⟩ n) :
    Keeps results ⟨top :: rest, ret⟩ (raises g rest flag a).2 := by
  cases a with
  | find => exact keeps_goes ht
  | _ => exact keeps_ends ht

theorem keeps_enter {r : Args} {a : Algo} :
    Keeps results ⟨.enter a r flag :: rest, ret⟩ (enter g rest r flag a).2 := by
  have ht : ∀ n, (Call.enter a r flag).sub = some n →
      Excused results ⟨.enter a r flag :: rest, ret⟩ n := by simp [Call.sub]
  cases a <;> unfold enter <;> dsimp only <;> split_ifs <;>
    first | exact keeps_ends ht | exact keeps_goes ht

theorem keeps_gets {a : Algo} {sub : ℕ} {found : Bool} {o : Outcome} (hr : results sub = some o) :
    Keeps results ⟨.get a sub flag found :: rest, ret⟩ (gets g rest flag found o a).2 := by
  have ht : ∀ n, (Call.get a sub flag found).sub = some n →
      Excused results ⟨.get a sub flag found :: rest, ret⟩ n := by
    rintro n ⟨⟩
    exact .inl (by simp [hr])
  cases a <;> unfold gets <;> dsimp only <;> (try split_ifs) <;> (try cases o) <;>
    first | exact keeps_ends ht | exact keeps_goes ht

theorem Keeps.of_eq {f : Body} {p : Memory × Act Body Outcome} (hk : Keeps results f p.2)
    (hp : some p = some (g', act)) : Keeps results f act := by
  cases hp
  exact hk

/-- How a call goes on when the one above it has ended. -/
theorem keeps_resume {o : Outcome} {stack : List Call} (hn : resume g o stack = some (g', act)) :
    Keeps results ⟨stack, some o⟩ act := by
  unfold resume at hn
  split at hn
  · cases hn; rfl
  · exact (keeps_goes (by simp [Call.sub])).of_eq hn
  · rename_i a sub flag rest
    cases o with
    | returns found =>
      cases hn
      intro n hn
      exact .inl hn
    | throws =>
      refine (keeps_raises ?_).of_eq hn
      rintro n ⟨⟩
      exact .inr ⟨a, flag, rest, rfl⟩
  · cases hn

/-- **A submitted half stays on the stack until its future is ready**, or an exception leaves the
direct half. -/
theorem next_keeps {x : User} {f : Body} (hn : next x results g f = some (g', act)) :
    Keeps results f act := by
  obtain ⟨stack, ret⟩ := f
  cases ret with
  | some o => exact keeps_resume hn
  | none =>
    cases stack with
    | nil => cases hn
    | cons top rest =>
      cases top with
      | user =>
        cases x with
        | call a r => cases hn; exact keeps_go [_, _] (by simp [Call.sub])
        | submit => cases hn; exact fun m => ⟨fun n h => h, by simp⟩
        | value b => exact (keeps_ends (by simp [Call.sub])).of_eq hn
        | throws => exact (keeps_ends (by simp [Call.sub])).of_eq hn
        | divide p => cases hn
      | enter a r flag =>
        exact keeps_enter.of_eq hn
      | partition r flag =>
        cases x with
        | divide p =>
          simp only [next] at hn
          split at hn
          · refine Keeps.of_eq ?_ hn
            unfold divided
            split
            · exact keeps_goes (by simp [Call.sub])
            · exact keeps_goes (by simp [Call.sub])
          · cases hn
        | throws => exact (keeps_ends (by simp [Call.sub])).of_eq hn
        | _ => cases hn
      | check a r flag =>
        simp only [next] at hn
        split at hn
        · exact (keeps_ends (by simp [Call.sub])).of_eq hn
        · exact (keeps_goes (by simp [Call.sub])).of_eq hn
      | submit a sub direct flag =>
        cases hn
        exact fun m => ⟨fun n h => List.mem_cons_of_mem _ h, fun _ _ _ _ _ _ => List.mem_cons_self⟩
      | direct a sub flag => cases hn
      | await a sub flag found => cases hn; rfl
      | get a sub flag found =>
        simp only [next] at hn
        split at hn
        · cases hn
        · exact (keeps_gets ‹_›).of_eq hn
      | merge | sort =>
        cases x with
        | value b => exact (keeps_ends (by simp [Call.sub])).of_eq hn
        | throws => exact (keeps_ends (by simp [Call.sub])).of_eq hn
        | _ => cases hn
      | loop a i last flag =>
        simp only [next] at hn
        split at hn
        · exact (keeps_ends (by simp [Call.sub])).of_eq hn
        · exact (keeps_goes (by simp [Call.sub])).of_eq hn
      | element a i last flag =>
        cases x with
        | value b =>
          simp only [next] at hn
          split at hn
          · exact (keeps_goes (by simp [Call.sub])).of_eq hn
          · exact (keeps_goes (by simp [Call.sub])).of_eq hn
        | throws =>
          exact (keeps_raises (by simp [Call.sub])).of_eq hn
        | _ => cases hn
      | found flag => exact (keeps_ends (by simp [Call.sub])).of_eq hn
      | caught flag => exact (keeps_ends (by simp [Call.sub])).of_eq hn
end

/-! ## Runs -/

/-- The code `id` is on top of the stack and about to submit a half. -/
def Submits (l : Pc Body) (id : Option ℕ) : Prop :=
  ∃ children a sub direct flag calls rest,
    l = ⟨none, .code id children ⟨.submit a sub direct flag :: calls, none⟩ :: rest⟩

/-- The step `r` submits task `n` as a half of a call of the code `id`. -/
def Forked (r : Rec (Thread E) (Shared Body Memory Outcome) (Pc Body) ℕ ℕ) (id : Option ℕ) (n : ℕ) :
    Prop :=
  r.ev = .call n ∧ Submits (r.pre.loc r.tid) id

/-- Task `n` was submitted by the calls that the code `id` on thread `t` has made, directly or
through the recursion. -/
inductive From (h : List (Rec (Thread E) (Shared Body Memory Outcome) (Pc Body) ℕ ℕ))
    (t : Thread E) (id : Option ℕ) : ℕ → Prop
  | direct {r n} (hr : r ∈ h) (ht : r.tid = t) (hf : Forked r id n) : From h t id n
  | nested {m r n} (hm : From h t id m) (hr : r ∈ h) (hf : Forked r (some m) n) : From h t id n

/-- **The condition**: when an exception leaves the direct half of a call, the submitted half has
finished. -/
def Settled (_ : List (Rec (Thread E) (Shared Body Memory Outcome) (Pc Body) ℕ ℕ))
    (c : Config (Thread E) (Shared Body Memory Outcome) (Pc Body)) (t : Thread E)
    (_ : Choice User) : Prop :=
  ∀ id children a sub flag calls rest,
    c.loc t = ⟨none, .code id children ⟨.direct a sub flag :: calls, some .throws⟩ :: rest⟩ →
      (c.shared.results sub).isSome

/-- The invariant: a submitted half has finished, or the call that has submitted it keeps its
future. -/
structure Kept (h : List (Rec (Thread E) (Shared Body Memory Outcome) (Pc Body) ℕ ℕ))
    (c : Config (Thread E) (Shared Body Memory Outcome) (Pc Body)) : Prop where
  futures : ∀ n, (c.shared.results n).isSome ↔ n ∈ executed h
  live : c.shared.done = false
  above : ∀ t, ∀ fr ∈ (c.loc t).stack.dropLast, fr.task ≠ none ∨ c.shared.done = true
  kept : ∀ r ∈ h, ∀ id n, Forked r id n → (c.shared.results n).isSome ∨
    ∃ fr ∈ (c.loc r.tid).stack, fr.task = id ∧ n ∈ held fr

section
variable [DecidableEq E] {k : ℕ}
  {h : List (Rec (Thread E) (Shared Body Memory Outcome) (Pc Body) ℕ ℕ)}
  {c : Config (Thread E) (Shared Body Memory Outcome) (Pc Body)} {t : Thread E} {x : Choice User}
  {ev : Event ℕ ℕ} {s' : Shared Body Memory Outcome} {l' : Pc Body}

omit [DecidableEq E] in
/-- What the code on top of a stack does to the halves it has to wait for. -/
theorem held_act {s : Shared Body Memory Outcome} {id : Option ℕ} {children : List ℕ} {f : Body}
    {rest : List (Frame Body)} {a : Act Body Outcome} (hk : Keeps s.results f a)
    (ha : act t s id children rest a = (ev, s', l')) {n : ℕ} (hn : n ∈ f.subs) :
    Excused s.results f n ∨ ∃ fr ∈ l'.stack, fr.task = id ∧ n ∈ held fr := by
  cases a with
  | go f' =>
    cases ha
    rcases hk n hn with hn' | hex
    · exact .inr ⟨_, List.mem_cons_self, rfl, hn'⟩
    · exact .inl hex
  | submit body resume =>
    cases ha
    exact .inr ⟨_, List.mem_cons_self, rfl, (hk _).1 n hn⟩
  | wait m f' =>
    cases ha
    have hsubs : f'.subs = f.subs := hk
    exact .inr ⟨_, List.mem_cons_self, rfl, by simpa [held, hsubs] using hn⟩
  | finish r =>
    have hnil : f.subs = [] := hk
    simp [hnil] at hn
  | runPendingTask | destroy => exact hk.elim

omit [DecidableEq E] in
theorem mem_act {s : Shared Body Memory Outcome} {id : Option ℕ} {children : List ℕ}
    {rest : List (Frame Body)} {a : Act Body Outcome}
    (ha : act t s id children rest a = (ev, s', l')) {fr : Frame Body} (hf : fr ∈ rest) :
    fr ∈ l'.stack := by
  cases a with
  | finish r => cases id <;> cases ha <;> exact hf
  | destroy f' => cases ha; exact List.mem_cons_of_mem _ (List.mem_cons_of_mem _ hf)
  | _ => cases ha; exact List.mem_cons_of_mem _ hf

omit [DecidableEq E] in
/-- The halves on a stack stay there until their futures are ready. -/
theorem held_step (hm : Move k code t c.shared ev (c.loc t) s' l') (hset : Settled h c t x)
    {fr : Frame Body} (hf : fr ∈ (c.loc t).stack) {n : ℕ} (hn : n ∈ held fr) :
    (c.shared.results n).isSome ∨ ∃ fr' ∈ l'.stack, fr'.task = fr.task ∧ n ∈ held fr' := by
  generalize hl : c.loc t = pc at hm hf
  cases hm with
  | exit =>
    rcases List.mem_cons.mp hf with rfl | hf
    · simp [held] at hn
    · exact .inr ⟨fr, hf, rfl, hn⟩
  | loop | help | miss | dequeue => exact .inr ⟨fr, hf, rfl, hn⟩
  | call => exact .inr ⟨fr, List.mem_cons_of_mem _ hf, rfl, hn⟩
  | ready =>
    rcases List.mem_cons.mp hf with rfl | hf
    · exact .inr ⟨_, List.mem_cons_self, rfl, hn⟩
    · exact .inr ⟨fr, List.mem_cons_of_mem _ hf, rfl, hn⟩
  | join =>
    rcases List.mem_cons.mp hf with rfl | hf
    · simp [held] at hn
    · exact .inr ⟨fr, List.mem_cons_of_mem _ hf, rfl, hn⟩
  | code y g a id children f rest ev s' l' hnext ha =>
    rcases List.mem_cons.mp hf with rfl | hf
    · rcases held_act (s := { c.shared with memory := g }) (next_keeps hnext) ha
        hn with (hr | ⟨b, flag, calls, rfl⟩) | hfr
      · exact .inl hr
      · exact .inl (hset _ _ _ _ _ _ _ hl)
      · exact .inr hfr
    · exact .inr ⟨fr, mem_act ha hf, rfl, hn⟩

omit [DecidableEq E] in
/-- A submitted half comes to lie on the stack of the call that has submitted it. -/
theorem held_submit (hm : Move k code t c.shared ev (c.loc t) s' l') {id : Option ℕ} {n : ℕ}
    (hev : ev = .call n) (hs : Submits (c.loc t) id) :
    ∃ fr ∈ l'.stack, fr.task = id ∧ n ∈ held fr := by
  obtain ⟨children, a, sub, direct, flag, calls, rest, hl⟩ := hs
  rw [hl] at hm
  cases hm with
  | code y g a' id children f rest ev s' l' hnext ha =>
    cases hnext
    cases ha
    cases hev
    exact ⟨_, List.mem_cons_self, rfl, List.mem_cons_self⟩

omit [DecidableEq E] in
/-- No code destroys the pool. -/
theorem live_step (hm : Move k code t c.shared ev (c.loc t) s' l') (hd : c.shared.done = false) :
    s'.done = false := by
  generalize c.loc t = pc at hm
  cases hm with
  | dequeue p task src s' st hp hq => cases hq <;> exact hd
  | code y g a id children f rest ev s' l' hnext ha =>
    have hk := next_keeps hnext
    cases a with
    | finish r => cases id <;> cases ha <;> exact hd
    | submit body resume => cases ha; cases t <;> exact hd
    | destroy f' => exact hk.elim
    | _ => cases ha; exact hd
  | _ => exact hd

theorem Kept.advance (hk : Kept h c) (hm : Move k code t c.shared ev (c.loc t) s' l')
    (hset : Settled h c t x) : Kept (stepRec c t ev s' l' :: h) (c.set t s' l') := by
  have hmono : ∀ n, (c.shared.results n).isSome → (s'.results n).isSome := by
    intro n hn
    have hex := (hk.futures n).mp hn
    rw [hm.futures hk.futures]
    exact ((List.sublist_cons_self _ h).filterMap _).subset hex
  have hlive := live_step hm hk.live
  refine ⟨hm.futures hk.futures, hlive, ?_, ?_⟩
  · have hold : ∀ u, ∀ fr ∈ (c.loc u).stack.dropLast, fr.task ≠ none ∨ s'.done = true :=
      fun u fr hf => (hk.above u fr hf).imp_right fun hd => absurd hd (by simp [hk.live])
    exact Config.forall_set (p := fun _ (l : Pc Body) => ∀ fr ∈ l.stack.dropLast,
      fr.task ≠ none ∨ s'.done = true) (hm.above (hold t)) fun u _ => hold u
  · intro r hr id n hfk
    rcases List.mem_cons.mp hr with rfl | hr
    · right
      show ∃ fr ∈ ((c.set t s' l').loc t).stack, fr.task = id ∧ n ∈ held fr
      rw [Config.set_loc_self]
      exact held_submit hm hfk.1 hfk.2
    · rcases hk.kept r hr id n hfk with hres | ⟨fr, hf, hid, hn⟩
      · exact .inl (hmono n hres)
      · by_cases ht : r.tid = t
        · rw [ht, Config.set_loc_self]
          rw [ht] at hf
          rcases held_step hm hset hf hn with hres | ⟨fr', hf', hid', hn'⟩
          · exact .inl (hmono n hres)
          · exact .inr ⟨fr', hf', hid'.trans hid, hn'⟩
        · rw [Config.set_loc_ne c ht]
          exact .inr ⟨fr, hf, hid, hn⟩

theorem kept_run {threadCount : ℕ}
    (hr : (program (workers threadCount) code).Run Settled (start threadCount) h c) : Kept h c := by
  refine hr.induction (I := fun h c => Kept h c) ⟨by simp [start, initial, executed], rfl,
    ?_, by simp⟩
    fun h c t x ev s l _ hk hset hs => hk.advance (step_move hs) hset
  rintro (i | e)
  · by_cases hi : i < workers threadCount <;> simp [start, initial, hi]
  · simp [start, initial]

omit [DecidableEq E] in
/-- The code on top of a stack is not below as well. -/
theorem Kept.top_unique (hk : Kept h c) (hp : Placed h c) {id : Option ℕ} {children : List ℕ}
    {f : Body} {rest : List (Frame Body)} (hl : c.loc t = ⟨none, .code id children f :: rest⟩)
    {fr : Frame Body} (hf : fr ∈ (c.loc t).stack) (hid : fr.task = id) :
    fr = .code id children f := by
  rcases List.mem_cons.mp (by simpa [hl] using hf) with rfl | hf
  · rfl
  · exfalso
    cases id with
    | none =>
      -- the code of a thread of the user's own lies at the bottom
      have htop : .code none children f ∈ (c.loc t).stack.dropLast := by
        rw [hl]
        cases rest with
        | nil => simp at hf
        | cons b rest => simp
      rcases hk.above t _ htop with htask | hdone
      · exact htask rfl
      · simp [hk.live] at hdone
    | some m =>
      have hm : m ∈ rest.filterMap Frame.task := List.mem_filterMap.mpr ⟨fr, hf, hid⟩
      have htaken : (c.loc t).taken = m :: rest.filterMap Frame.task := by rw [hl]; rfl
      have hone := (hp.taken_once (t := t) (n := m) (by simp [htaken])).1
      have hpos := List.count_pos_iff.mpr hm
      rw [htaken, List.count_cons_self] at hone
      omega

/-! ## The result -/

/-- **No task outlives its call**, in the runs in which every exception that leaves the direct half
of a call finds the submitted half finished: when the user's code goes on after a call, every task
that its calls have submitted, directly or through the recursion, has finished. -/
theorem no_task_outlives_call {threadCount : ℕ}
    (hr : (program (workers threadCount) code).Run Settled (start threadCount) h c)
    {id : Option ℕ} {children : List ℕ} {ret : Option Outcome} {rest : List (Frame Body)}
    (hl : c.loc t = ⟨none, .code id children ⟨[.user], ret⟩ :: rest⟩) {n : ℕ}
    (hn : From h t id n) : (c.shared.results n).isSome := by
  have hk := kept_run hr
  have hp := placed_run hr.any
  induction hn with
  | @direct r n hr ht hf =>
    rcases hk.kept r hr id n hf with hres | ⟨fr, hfr, hid, hheld⟩
    · exact hres
    · rw [ht] at hfr
      rw [hk.top_unique hp hl hfr hid] at hheld
      simp [held, Body.subs, Call.sub] at hheld
  | @nested m r n hm hr hf hres =>
    rcases hk.kept r hr (some m) n hf with hres | ⟨fr, hfr, hid, hheld⟩
    · exact hres
    · exact absurd ((hk.futures m).mp hres) (hp.not_executed (mem_taken hfr hid))
end

/-- `Settled`, as a test. -/
def settled (c : Config (Thread Unit) (Shared Body Memory Outcome) (Pc Body)) (t : Thread Unit) :
    Bool :=
  match c.loc t with
  | ⟨none, .code _ _ ⟨.direct _ sub _ :: _, some .throws⟩ :: _⟩ => (c.shared.results sub).isSome
  | _ => true

theorem settled_sound {h : List (Rec (Thread Unit) (Shared Body Memory Outcome) (Pc Body) ℕ ℕ)}
    {c : Config (Thread Unit) (Shared Body Memory Outcome) (Pc Body)} {t : Thread Unit}
    {x : Choice User} (hs : settled c t = true) : Settled h c t x := by
  intro id children a sub flag calls rest hl
  simpa [settled, hl] using hs

/-- `Submits`, as a test. -/
def submits (l : Pc Body) (id : Option ℕ) : Bool :=
  match l with
  | ⟨none, .code id' _ ⟨.submit _ _ _ _ :: _, none⟩ :: _⟩ => id' = id
  | _ => false

theorem submits_sound {l : Pc Body} {id : Option ℕ} (h : submits l id = true) : Submits l id := by
  unfold submits at h
  split at h
  · cases of_decide_eq_true h
    exact ⟨_, _, _, _, _, _, _, rfl⟩
  · cases h

/-- Some step of a thread was a half it submitted as task `n`, as a test. -/
def forks (h : List (Rec (Thread Unit) (Shared Body Memory Outcome) (Pc Body) ℕ ℕ))
    (t : Thread Unit) (id : Option ℕ) (n : ℕ) : Bool :=
  h.any fun r => r.tid = t && r.ev = .call n && submits (r.pre.loc r.tid) id

theorem From.of_forks {h : List (Rec (Thread Unit) (Shared Body Memory Outcome) (Pc Body) ℕ ℕ)}
    {t : Thread Unit} {id : Option ℕ} {n : ℕ} (hf : forks h t id n = true) : From h t id n := by
  obtain ⟨r, hr, hf⟩ := List.any_eq_true.mp hf
  simp only [Bool.and_eq_true, decide_eq_true_eq] at hf
  exact .direct hr hf.1.1 ⟨hf.1.2, submits_sound hf.2⟩

/-- A thread sorts 512 elements. A worker has run the half it has submitted, when a comparison in
its own half throws: the exception leaves the call. -/
theorem no_task_outlives_call_thrown :
    ∃ (h : List (Rec (Thread Unit) (Shared Body Memory Outcome) (Pc Body) ℕ ℕ)) (c : _),
      (program (workers 1) code).Run Settled (start 1) h c ∧
        c.loc (.external ()) = ⟨none, [.code none [0] ⟨[.user], some .throws⟩]⟩ ∧
        From h (.external ()) none 0 ∧ (c.shared.results 0).isSome := by
  have he : (((program (workers 1) code).replay (fun c t _ _ => settled c t) (start 1)
      ([(Thread.external (), Choice.code (User.call .mergeSort ⟨0, 512, 8⟩))] ++
        List.replicate 3 (Thread.external (), Choice.code (User.value false)) ++
        List.replicate 4 (Thread.worker 0, Choice.run) ++
        List.replicate 3 (Thread.worker 0, Choice.code (User.value false)) ++
        List.replicate 2 (Thread.external (), Choice.code User.throws))).any fun (h, c) =>
          c.loc (.external ()) = ⟨none, [.code none [0] ⟨[.user], some .throws⟩]⟩ &&
            forks h (.external ()) none 0) = true := by
    decide
  obtain ⟨⟨h, c⟩, hc, hp⟩ := (Option.any_eq_true _ _).mp he
  obtain ⟨hr, -⟩ := Program.replay_run Settled (fun h c t x c' _ hchk => settled_sound hchk) _
    .nil hc
  rw [List.append_nil] at hr
  simp only [Bool.and_eq_true, decide_eq_true_eq] at hp
  have hfrom := From.of_forks hp.2
  exact ⟨h, c, hr, hp.1, hfrom, no_task_outlives_call hr hp.1 hfrom⟩

/-- **The direct half throws**: `parallel_for_each` on 50 elements throws to its caller, and then a
worker begins to apply the function to the first half of the range. -/
theorem task_outlives_call :
    ∃ (h : List (Rec (Thread Unit) (Shared Body Memory Outcome) (Pc Body) ℕ ℕ)) (c : _),
      (program (workers 1) code).Run Program.anyStep (start 1) h c ∧
        c.loc (.external ()) = ⟨none, [.code none [0] ⟨[.user], some .throws⟩]⟩ ∧
        From h (.external ()) none 0 ∧ c.shared.results 0 = none ∧
        c.loc (.worker 0) =
          ⟨none, [.code (some 0) [] ⟨[.element .forEach 0 25 0], none⟩, .worker]⟩ := by
  obtain ⟨h, c, hr, hp⟩ := Program.replay_reaches (program (workers 1) code) (start 1)
    ([(Thread.external (), Choice.code (User.call .forEach ⟨0, 50, 8⟩))] ++
      List.replicate 4 (Thread.external (), Choice.code (User.value false)) ++
      List.replicate 2 (Thread.external (), Choice.code User.throws) ++
      List.replicate 4 (Thread.worker 0, Choice.run) ++
      List.replicate 2 (Thread.worker 0, Choice.code (User.value false)))
    (fun h c => c.loc (.external ()) = ⟨none, [.code none [0] ⟨[.user], some .throws⟩]⟩ &&
      forks h (.external ()) none 0 && c.shared.results 0 = none && c.loc (.worker 0) =
        ⟨none, [.code (some 0) [] ⟨[.element .forEach 0 25 0], none⟩, .worker]⟩) (by decide)
  simp only [Bool.and_eq_true, decide_eq_true_eq] at hp
  exact ⟨h, c, hr, hp.1.1.1, From.of_forks hp.1.1.2, hp.1.2, hp.2⟩

end Bonostl.Parallel
