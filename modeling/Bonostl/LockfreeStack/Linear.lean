import Bonostl.Interleaving.Linearizable
import Bonostl.LockfreeStack.Safety

/-!
# `lockfree_stack` is a stack

`contents` is the list of values from `head`, top first. `effect` reads off a step which operation
takes effect there: the successful compare-exchange of `push` and of `pop`, and the recheck of an
empty `pop`. `stack_linearized` says that these effects are a linearization of every run, that no
thread uses a node that is not allocated, that what a `pop` installs is the successor of the
top, and that the values popped and those still on the stack are the values pushed.
-/

namespace Bonostl.LockfreeStack

open Interleaving HazardPtr Chain

variable {ι V : Type}

/-- The sequential stack. A `pop` of a thread that gets no slot throws and changes nothing. -/
inductive StackSpec : List V → Op V → Res V → List V → Prop
  | push (v : V) (vs : List V) : StackSpec vs (.push v) .unit (v :: vs)
  | pop (v : V) (vs : List V) : StackSpec (v :: vs) .pop (.popped (some v)) vs
  | popEmpty : StackSpec [] .pop (.popped none) []
  | popThrows (vs : List V) : StackSpec vs .pop .noHazardPointers vs
  | deleteNodes (vs : List V) : StackSpec vs .deleteNodesWithNoHazards .unit vs
  | exit (vs : List V) : StackSpec vs .exit .unit vs

/-- The nodes from `head`. -/
noncomputable def chain (s : Shared ι V) : List ℕ := nodes s.next s.head

/-- The values on the stack, top first. -/
noncomputable def contents (s : Shared ι V) : List V := (chain s).filterMap s.data

theorem chain_eq {s : Shared ι V} {l : List ℕ} (h : Linked s.next s.head l) : chain s = l :=
  nodes_eq h

/-- The operation that takes effect when thread `t` goes from one place to another. -/
def effectAt (t : ι) (s : Shared ι V) : Pc V → Pc V → List (Effect ι (Op V) (Res V))
  | .pushCas n, .done _ => (s.data n).toList.map fun v => ⟨t, .push v, .unit⟩
  | .popCas _ a _, .popClear _ _ => [⟨t, .pop, .popped (s.data a)⟩]
  | .popReload _ _, .popClear _ _ => [⟨t, .pop, .popped none⟩]
  | .claim _, .done r => [⟨t, .pop, r⟩]
  | .exitId _, .done r => [⟨t, .exit, r⟩]
  | .deleteNodes, .reclaim r _ => [⟨t, .deleteNodesWithNoHazards, r⟩]
  | _, _ => []

/-- The operation that takes effect at a step. -/
def effect (r : Rec ι (Shared ι V) (Local V) (Op V) (Res V)) : List (Effect ι (Op V) (Res V)) :=
  effectAt r.tid r.pre.shared (r.pre.loc r.tid).pc (r.cfg.loc r.tid).pc

/-- How far a thread's operation has come. -/
def Pc.status (s : Shared ι V) : Pc V → Status (Op V) (Res V)
  | .idle => .idle
  | .pushNew v => .called (.push v)
  | .pushLoad n | .pushCas n =>
    match s.data n with
    | some v => .called (.push v)
    | none => .idle
  | .claim _ | .popLoad _ | .popStore _ _ | .popReload _ _ | .popNext _ _ | .popCas _ _ _ =>
    .called .pop
  | .popClear _ none => .done (.popped none)
  | .popClear _ (some a) | .popData a => .done (.popped (s.data a))
  | .popScan _ r _ | .popDelete _ r => .done (.popped r)
  | .deleteNodes => .called .deleteNodesWithNoHazards
  | .reclaim r _ => .done r
  | .exitPointer _ | .exitId _ => .called .exit
  | .done r => .done r

theorem scanFrom_status (s : Shared ι V) (a : ℕ) (r : Option V) (i : ℕ) :
    (scanFrom a r i).status s = .done (.popped r) := by unfold scanFrom; split <;> rfl

theorem status_congr {s s' : Shared ι V} {pc : Pc V}
    (h : ∀ a, pc.pushing = some a ∨ pc.popped = some a → s'.data a = s.data a) :
    pc.status s' = pc.status s := by
  cases pc with
  | pushLoad n | pushCas n => simp only [Pc.status, h n (.inl rfl)]
  | popClear hp o =>
    cases o with
    | none => rfl
    | some a => simp only [Pc.status, h a (.inr rfl)]
  | popData a => simp only [Pc.status, h a (.inr rfl)]
  | _ => rfl

variable [DecidableEq ι] {place : ℕ → Place ι} {w : ℕ → Where ι} {l : List ℕ}
  {c : Config ι (Shared ι V) (Local V)} {s' : Shared ι V} {l' : Local V} {t : ι}
  {H : Annotated ι (Shared ι V) (Local V) (Op V) (Res V)} {ev : Event (Op V) (Res V)}

/-- The statuses after a step that writes no value a waiting thread relies on. -/
theorem statuses_set (hd : ∀ u, u ≠ t → (c.loc u).pc.status s' = (c.loc u).pc.status c.shared) :
    (fun u => ((c.set t s' l').loc u).pc.status s') =
      Function.update (fun u => (c.loc u).pc.status c.shared) t (l'.pc.status s') := by
  funext u
  by_cases hut : u = t
  · subst hut; simp
  · simp [hut, hd u hut]

omit [DecidableEq ι] in
/-- A pusher's write to its own node's `next` is not seen from `head`. -/
theorem contents_next (h : Inv place w l c.shared c.loc) {n : ℕ} {p : Option ℕ}
    (hft : (c.loc t).pc = .pushLoad n ∨ (c.loc t).pc = .pushCas n) :
    contents { c.shared with next := Function.update c.shared.next n p } = contents c.shared := by
  have hpl : place n = .pushing t := by
    rw [← h.pushing]
    rcases hft with e | e <;> rw [e] <;> rfl
  have hnl : ∀ b ∈ l, b ≠ n := by
    rintro b hb rfl
    rw [h.linked, hpl] at hb
    cases hb
  rw [contents, contents, chain_eq h.chain,
    chain_eq (s := { c.shared with next := Function.update c.shared.next n p })
      (h.chain.congr fun b hb => Function.update_of_ne (hnl b hb) _ _)]

section
variable {o o' : Option ℕ} {pc pc' : Pc V}

theorem effect_eq (hft : c.loc t = ⟨o, pc⟩) :
    effect ⟨t, ev, c, c.set t s' ⟨o', pc'⟩⟩ = effectAt t c.shared pc pc' := by
  simp [effect, hft]

/-- What `Linearized` has to say after thread `t` went from `c` to `s'`, `l'`. -/
def Extends (H : Annotated ι (Shared ι V) (Local V) (Op V) (Res V)) (ev : Event (Op V) (Res V))
    (c : Config ι (Shared ι V) (Local V)) (t : ι) (s' : Shared ι V) (l' : Local V) : Prop :=
  Linearized StackSpec contents
    ((⟨t, ev, c, c.set t s' l'⟩, effect ⟨t, ev, c, c.set t s' l'⟩) :: H)
    fun u => ((c.set t s' l').loc u).pc.status s'

variable (hL : Linearized StackSpec contents H fun u => (c.loc u).pc.status c.shared)
  (hft : c.loc t = ⟨o, pc⟩)
include hL hft

theorem extends_tau (hc : contents s' = contents c.shared)
    (hst : pc'.status s' = pc.status c.shared)
    (he : effectAt t c.shared pc pc' = [] := by rfl)
    (hd : ∀ u, u ≠ t → (c.loc u).pc.status s' = (c.loc u).pc.status c.shared :=
      by exact fun _ _ => status_congr fun _ _ => rfl) : Extends H .tau c t s' ⟨o', pc'⟩ := by
  rw [Extends, statuses_set hd, effect_eq hft, he]
  have hself : Function.update (fun u => (c.loc u).pc.status c.shared) t (pc'.status s') =
      fun u => (c.loc u).pc.status c.shared := by
    rw [hst, Function.update_eq_self_iff, hft]
  rw [hself]
  exact hL.tau hc

theorem extends_call (q : Op V) (hpc : pc.status c.shared = .idle := by rfl)
    (hst : pc'.status c.shared = .called q := by rfl)
    (he : effectAt t c.shared pc pc' = [] := by rfl) :
    Extends H (.call q) c t c.shared ⟨o', pc'⟩ := by
  rw [Extends, statuses_set fun _ _ => rfl, effect_eq hft, he, hst]
  exact hL.call (by rw [hft]; exact hpc) rfl

theorem extends_ret (r : Res V) (hpc : pc.status c.shared = .done r := by rfl)
    (hst : pc'.status c.shared = .idle := by rfl)
    (he : effectAt t c.shared pc pc' = [] := by rfl) :
    Extends H (.ret r) c t c.shared ⟨o', pc'⟩ := by
  rw [Extends, statuses_set fun _ _ => rfl, effect_eq hft, he, hst]
  exact hL.ret (by rw [hft]; exact hpc) rfl

theorem extends_commit (q : Op V) (r : Res V) (hc : StackSpec (contents c.shared) q r (contents s'))
    (hpc : pc.status c.shared = .called q) (hst : pc'.status s' = .done r)
    (he : effectAt t c.shared pc pc' = [⟨t, q, r⟩])
    (hd : ∀ a, s'.data a = c.shared.data a) : Extends H .tau c t s' ⟨o', pc'⟩ := by
  rw [Extends, statuses_set fun _ _ => status_congr fun a _ => hd a, effect_eq hft, he, hst]
  exact hL.commit (by rw [hft]; exact hpc) hc
end

/-- **One step**: the effects read off it extend a linearization. -/
theorem linear_move (h : Inv place w l c.shared c.loc) (hm : Move t c.shared ev (c.loc t) s' l')
    (hL : Linearized StackSpec contents H fun u => (c.loc u).pc.status c.shared) :
    Extends H ev c t s' l' := by
  have hcont : contents c.shared = l.filterMap c.shared.data := by rw [contents, chain_eq h.chain]
  generalize hft : c.loc t = lt at hm
  cases hm with
  | push i v => exact extends_call hL hft _
  | popFirst => exact extends_call hL hft _
  | pop i => exact extends_call hL hft _
  | deleteNodes i => exact extends_call hL hft _
  | exit i => exact extends_call hL hft _
  | ret i r => exact extends_ret hL hft _
  | new i v a ha =>
    have hfree : place a = .free := by
      by_contra hne
      rw [(h.alive a).mpr hne] at ha
      cases ha
    have hal : ∀ b ∈ l, b ≠ a := by
      rintro b hb rfl
      rw [h.linked, hfree] at hb
      cases hb
    refine extends_tau hL hft ?_ ?_ rfl fun u hu => status_congr fun b hb => ?_
    · have hch : Linked (Function.update c.shared.next a none) c.shared.head l :=
        h.chain.congr fun b hb => Function.update_of_ne (hal b hb) _ _
      rw [hcont, contents, show chain _ = l from chain_eq hch]
      exact List.filterMap_congr fun b hb => Function.update_of_ne (hal b hb) _ _
    · simp [Pc.status]
    · have hba : b ≠ a := by
        rintro rfl
        rcases hb with hb | hb
        · rw [(h.pushing u b).mp hb] at hfree; cases hfree
        · rw [(h.popped u b).mp hb] at hfree; cases hfree
      exact Function.update_of_ne hba _ _
  | pushLoad i n =>
    exact extends_tau hL hft (contents_next h (.inl (by rw [hft]))) rfl
  | pushRetry i n =>
    exact extends_tau hL hft (contents_next h (.inr (by rw [hft]))) rfl
  | pushCas i n hn =>
    obtain ⟨v, hv⟩ : ∃ v, c.shared.data n = some v :=
      Option.isSome_iff_exists.mp (h.data n (.inr ⟨t, (h.pushing t n).mp (by rw [hft]; rfl)⟩))
    refine extends_commit hL hft (.push v) .unit ?_ (by simp [Pc.status, hv]) rfl
      (by simp [effectAt, hv]) fun _ => rfl
    have hch : Linked c.shared.next (some n) (n :: l) := ⟨rfl, hn ▸ h.chain⟩
    rw [hcont, contents, chain_eq (s := { c.shared with head := some n }) hch]
    simpa [hv] using StackSpec.push v _
  | claim i j hi hid => exact extends_tau hL hft rfl rfl
  | claimNext i j => exact extends_tau hL hft rfl rfl
  | claimNone i j =>
    exact extends_commit hL hft .pop .noHazardPointers (.popThrows _) rfl rfl rfl fun _ => rfl
  | exitPointer i hp => exact extends_tau hL hft rfl rfl
  | exitId i hp => exact extends_commit hL hft .exit .unit (.exit _) rfl rfl rfl fun _ => rfl
  | popLoad i hp => exact extends_tau hL hft rfl rfl
  | popStore i hp old => exact extends_tau hL hft rfl rfl
  | popEmpty i hp hh =>
    have hnil : l = [] := Linked.unique (hh ▸ h.chain) rfl
    refine extends_commit hL hft .pop (.popped none) ?_ rfl rfl rfl fun _ => rfl
    rw [hcont, hnil]
    exact .popEmpty
  | popValid i hp a hh => exact extends_tau hL hft rfl rfl
  | popAgain i hp temp => exact extends_tau hL hft rfl rfl
  | popNext i hp a => exact extends_tau hL hft rfl rfl
  | popCas i hp a next hh =>
    obtain ⟨l₁, rfl, hinv⟩ := h.pop_cas hft hh
    obtain ⟨v, hv⟩ : ∃ v, c.shared.data a = some v :=
      Option.isSome_iff_exists.mp (h.data a (.inl ((h.linked a).mp (by simp))))
    refine extends_commit hL hft .pop (.popped (c.shared.data a)) ?_ rfl rfl rfl fun _ => rfl
    rw [hcont, contents, chain_eq hinv.chain, hv, List.filterMap_cons_some hv]
    exact .pop v _
  | popRetry i hp a next => exact extends_tau hL hft rfl rfl
  | popNone i hp => exact extends_tau hL hft rfl rfl
  | popSome i hp a => exact extends_tau hL hft rfl rfl
  | popData i a => exact extends_tau hL hft rfl (scanFrom_status ..)
  | popLater i a r j => exact extends_tau hL hft rfl rfl
  | popScan i a r j hj => exact extends_tau hL hft rfl (scanFrom_status ..)
  | popDelete i a r => exact extends_tau hL hft rfl rfl
  | takeList i =>
    exact extends_commit hL hft .deleteNodesWithNoHazards .unit (.deleteNodes _) rfl rfl rfl
      fun _ => rfl
  | reclaim i r rc sp hz rc' freed hs =>
    cases freed with
    | none => exact extends_tau hL hft rfl rfl
    | some a => exact extends_tau hL hft rfl rfl
  | reclaimed i r rc hs => exact extends_tau hL hft rfl rfl

/-- The values of the pushes among some effects. -/
def pushes (es : List (Effect ι (Op V) (Res V))) : List V :=
  es.filterMap fun e => match e.op with
    | .push v => some v
    | _ => none

/-- The values the pops among some effects returned. -/
def pops (es : List (Effect ι (Op V) (Res V))) : List V :=
  es.filterMap fun e => match e.res with
    | .popped r => r
    | _ => none

omit [DecidableEq ι] in
/-- On a sequential stack, what was pushed is what was popped and what is left. -/
theorem legal_pushes {a b : List V} {es : List (Effect ι (Op V) (Res V))}
    (h : Legal StackSpec a es b) : (a ++ pushes es).Perm (pops es ++ b) := by
  induction h with
  | nil a => simp [pushes, pops]
  | @cons a b d e es hs _ ih =>
    obtain ⟨t, o, r⟩ := e
    cases hs with
    | push v => exact List.perm_middle.trans ih
    | pop v => exact List.Perm.cons v ih
    | popEmpty => exact ih
    | popThrows | deleteNodes | exit => exact ih

/-- Every reachable state keeps `Inv`, and the effects of the run are a linearization. -/
theorem inv_run {h : List (Rec ι (Shared ι V) (Local V) (Op V) (Res V))}
    {c : Config ι (Shared ι V) (Local V)} (hr : program.Run Program.anyStep initial h c) :
    (∃ place w l, Inv place w l c.shared c.loc) ∧
      Linearized StackSpec contents (h.map fun r => (r, effect r))
        fun u => (c.loc u).pc.status c.shared := by
  refine Program.Run.induction (I := fun h c => (∃ place w l, Inv place w l c.shared c.loc) ∧
    Linearized StackSpec contents (h.map fun r => (r, effect r))
      fun u => (c.loc u).pc.status c.shared) ⟨⟨_, _, _, inv_initial⟩, .nil⟩ ?_ hr
  rintro h c t k ev s l - ⟨⟨place, w, l₀, hinv⟩, hL⟩ - hstep
  have hm := step_move hstep
  exact ⟨inv_move hinv hm, linear_move hinv hm hL⟩

/-- **`lockfree_stack` is a linearizable stack with safe reclamation.** In every run, with any
number of threads and any reuse of addresses: no thread uses an address that holds no node, from
the time it may rely on the pointer to its last access; a `pop` about to succeed installs the
successor of the node on top; the successful compare-exchanges and the rechecks of empty
`pop`s, in their order, are a linearization; the values popped are values pushed, each as
often at most, and the rest is on the stack. -/
theorem stack_linearized {h : List (Rec ι (Shared ι V) (Local V) (Op V) (Res V))}
    {c : Config ι (Shared ι V) (Local V)} (hr : program.Run Program.anyStep initial h c) :
    (∀ t a, (c.loc t).pc.uses a → c.shared.alive a = true) ∧
    (∀ t hp a next, (c.loc t).pc = .popCas hp a next → c.shared.head = some a →
      c.shared.next a = next ∧ ∃ v rest, c.shared.data a = some v ∧
        contents c.shared = v :: rest ∧ contents { c.shared with head := next } = rest) ∧
    (∃ p, Linearized StackSpec contents (h.map fun r => (r, effect r)) p) ∧
    (pushes (order (h.map fun r => (r, effect r)))).Perm
      (pops (order (h.map fun r => (r, effect r))) ++ contents c.shared) := by
  obtain ⟨⟨place, w, l, hinv⟩, hL⟩ := inv_run hr
  refine ⟨fun t a hu => ?_, fun t hp a next hpc hh => ?_, ⟨_, hL⟩, ?_⟩
  · rw [hinv.alive]
    rcases hu with hu | ⟨hp, hu⟩ | hu | hu | hu
    · rw [(hinv.pushing t a).mp hu]; nofun
    · exact (hinv.valid t hp a hu).1
    · rw [(hinv.popped t a).mp hu]; nofun
    · rw [(hinv.retired a).mpr (by rw [(hinv.reclaim.pending t a).mp hu]; nofun)]; nofun
    · rw [(hinv.retired a).mpr (by rw [(hinv.reclaim.held t a).mp hu]; nofun)]; nofun
  · obtain ⟨l₁, rfl, hinv'⟩ := hinv.pop_cas (o := (c.loc t).slot) (t := t) (by rw [← hpc]) hh
    obtain ⟨v, hv⟩ : ∃ v, c.shared.data a = some v :=
      Option.isSome_iff_exists.mp (hinv.data a (.inl ((hinv.linked a).mp (by simp))))
    refine ⟨hinv.next_eq t hp a next hpc, v, l₁.filterMap c.shared.data, hv, ?_, ?_⟩
    · rw [contents, chain_eq hinv.chain, List.filterMap_cons_some hv]
    · rw [contents, chain_eq hinv'.chain]
  · have hmap : (h.map fun r => (r, effect r)).map Prod.fst = h := by simp [Function.comp_def]
    rw [← hmap] at hr
    have hempty : Linked (initial (ι := ι) (V := V)).shared.next none [] := rfl
    have hnil : contents (initial (ι := ι) (V := V)).shared = [] := by
      rw [contents, show chain _ = [] from chain_eq hempty]; rfl
    have hlegal := hL.legal hr
    rw [hnil] at hlegal
    simpa using legal_pushes hlegal

/-- One thread pushes and pops; the address its node had is used again by the other thread, whose
`pop` stands before its compare-exchange. -/
def reuseSchedule : List (Bool × Choice ℕ) :=
  [(false, Choice.call (.push 7)), (false, Choice.alloc 0)] ++
    List.replicate 3 (false, Choice.run) ++
  (false, Choice.call .pop) :: List.replicate 110 (false, Choice.run) ++
  [(true, Choice.call (.push 8)), (true, Choice.alloc 0)] ++ List.replicate 3 (true, Choice.run) ++
  (true, Choice.call .pop) :: List.replicate 6 (true, Choice.run)

theorem stack_linearized_reuse :
    ∃ (h : List (Rec Bool (Shared Bool ℕ) (Local ℕ) (Op ℕ) (Res ℕ)))
      (c : Config Bool (Shared Bool ℕ) (Local ℕ)),
      program.Run Program.anyStep initial h c ∧ (c.loc true).pc = .popCas 1 0 none ∧
        c.shared.head = some 0 ∧ c.shared.alive 0 = true ∧
        (∃ v, contents c.shared = v :: contents { c.shared with head := none }) ∧
        ∃ p, Linearized StackSpec contents (h.map fun r => (r, effect r)) p := by
  have he : ((program.exec (fun _ _ _ _ => true) initial reuseSchedule).any fun c =>
      (c.loc true).pc = .popCas 1 0 none ∧ c.shared.head = some 0) = true := by
    set_option maxRecDepth 10000 in decide
  obtain ⟨c, hc, hd⟩ := (Option.any_eq_true _ _).mp he
  obtain ⟨h, hr⟩ := Program.exec_run Program.anyStep (fun _ _ _ _ _ _ _ => trivial) hc
  obtain ⟨hpc, hh⟩ := of_decide_eq_true hd
  obtain ⟨huse, hpop, hlin, -⟩ := stack_linearized hr
  obtain ⟨-, v, rest, -, hv, hrest⟩ := hpop true 1 0 none hpc hh
  have halive := huse true 0 (.inr (.inl ⟨1, by rw [hpc]; rfl⟩))
  exact ⟨h, c, hr, hpc, hh, halive, ⟨v, by rw [hv, hrest]⟩, hlin⟩

end Bonostl.LockfreeStack
