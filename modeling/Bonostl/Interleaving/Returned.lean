import Bonostl.Interleaving.Points
import Mathlib.Algebra.BigOperators.Group.Finset.Basic

/-!
# What has returned to a thread

The calls and returns of a history say for every thread which operation it is in (`current`), which
operations it has called (`callsOf`), and which have returned to it with which results (`returned`).
None of this reads a local state.

In a linearized history the effects of a thread are the operations that have returned to it and the
one that is about to (`Linearized.effects`). So an account of the object that adds up over its
operations is an account of what the threads have been told (`Linearized.account`), and so is what a
thread keeps of it in its local state (`Measured`).
-/

namespace Interleaving

variable {ι σ Λ Op Res A : Type} [DecidableEq ι]

/-- The operation thread `t` is in: called, and not returned. -/
def current : List (Rec ι σ Λ Op Res) → ι → Option Op
  | [], _ => none
  | r :: h, t =>
    if r.tid = t then
      match r.ev with
      | .call o => some o
      | .ret _ => none
      | .tau => current h t
    else current h t

/-- The operations thread `t` has called, newest first. -/
def callsOf (h : List (Rec ι σ Λ Op Res)) (t : ι) : List Op :=
  calls (h.filter fun r => r.tid = t)

/-- The operations that have returned to thread `t`, with their results, newest first. -/
def returned : List (Rec ι σ Λ Op Res) → ι → List (Op × Res)
  | [], _ => []
  | r :: h, t =>
    if r.tid = t then
      match r.ev, current h t with
      | .ret v, some o => (o, v) :: returned h t
      | _, _ => returned h t
    else returned h t

/-- The operation that has its result and has not returned. -/
def Status.outcome : Status Op Res → Option Op → List (Op × Res)
  | .done v, some o => [(o, v)]
  | _, _ => []

/-- The operations that have returned to thread `t`, and the one that is about to. -/
def settled (x : Status Op Res) (h : List (Rec ι σ Λ Op Res)) (t : ι) : List (Op × Res) :=
  x.outcome (current h t) ++ returned h t

/-- What operations with results are worth together. -/
def worth (w : Op → Res → ℤ) (L : List (Op × Res)) : ℤ := (L.map fun x => w x.1 x.2).sum

/-- The threads that have taken a step. -/
def users (h : List (Rec ι σ Λ Op Res)) : Finset ι := (h.map Rec.tid).toFinset

/-- The operations of thread `t` that took effect, oldest first. -/
def effectsOf (es : List (Effect ι Op Res)) (t : ι) : List (Op × Res) :=
  (es.filter fun e => e.tid = t).map fun e => (e.op, e.res)

/-- The status of a thread goes with the operation it is in. -/
def Status.Fits : Status Op Res → Option Op → Prop
  | .idle, o => o = none
  | .called o, o' => o' = some o
  | .done _, o => ∃ o', o = some o'

section
variable {x : Status Op Res} {o : Option Op} {w w' : Op → Res → ℤ} {L : List (Op × Res)}

@[simp] theorem worth_nil : worth w [] = 0 := rfl

@[simp] theorem worth_cons (y : Op × Res) : worth w (y :: L) = w y.1 y.2 + worth w L := by
  simp [worth]

theorem worth_append (L L' : List (Op × Res)) : worth w (L ++ L') = worth w L + worth w L' := by
  simp [worth]

theorem worth_reverse : worth w L.reverse = worth w L := by
  unfold worth
  rw [List.map_reverse, List.sum_reverse]

theorem worth_sub : worth (fun o v => w o v - w' o v) L = worth w L - worth w' L := by
  induction L with
  | nil => rfl
  | cons y L ih =>
    rw [worth_cons, worth_cons, worth_cons, ih]
    omega

theorem worth_nonneg (hw : ∀ o v, 0 ≤ w o v) : 0 ≤ worth w L := by
  induction L with
  | nil => exact le_rfl
  | cons y L ih =>
    rw [worth_cons]
    exact add_nonneg (hw _ _) ih

@[simp] theorem Status.outcome_idle : (Status.idle : Status Op Res).outcome o = [] := rfl

@[simp] theorem Status.outcome_called (o' : Op) :
    (Status.called o' : Status Op Res).outcome o = [] := rfl

@[simp] theorem Status.outcome_reverse : (x.outcome o).reverse = x.outcome o := by
  cases x <;> cases o <;> rfl
end

section
variable {r : Rec ι σ Λ Op Res} {h : List (Rec ι σ Λ Op Res)} {t : ι} {x : Status Op Res}

theorem current_ne (ht : r.tid ≠ t) : current (r :: h) t = current h t := by
  rw [current, if_neg ht]

theorem returned_ne (ht : r.tid ≠ t) : returned (r :: h) t = returned h t := by
  rw [returned, if_neg ht]

theorem callsOf_ne (ht : r.tid ≠ t) : callsOf (r :: h) t = callsOf h t := by
  unfold callsOf
  rw [List.filter_cons_of_neg (by simpa using ht)]

/-- A thread that has taken no step has called nothing. -/
theorem of_notMem_users (ht : t ∉ users h) :
    current h t = none ∧ returned h t = [] ∧ callsOf h t = [] := by
  induction h with
  | nil => exact ⟨rfl, rfl, rfl⟩
  | cons r h ih =>
    simp only [users, List.map_cons, List.toFinset_cons, Finset.mem_insert, not_or] at ht
    obtain ⟨hr, hh⟩ := ht
    rw [current_ne (Ne.symm hr), returned_ne (Ne.symm hr), callsOf_ne (Ne.symm hr)]
    exact ih hh
end

/-! ## In a linearized history -/

variable {spec : A → Op → Res → A → Prop} {abs : σ → A} {H : Annotated ι σ Λ Op Res}
  {p p' : ι → Status Op Res} {t : ι}

theorem effectsOf_append (es es' : List (Effect ι Op Res)) :
    effectsOf (es ++ es') t = effectsOf es t ++ effectsOf es' t := by
  simp [effectsOf]

/-- A step's effects of a thread: none, or the operation the thread is in. -/
theorem Takes.outcome {es : List (Effect ι Op Res)} (h : Takes p es p') {o : Option Op}
    (hf : (p t).Fits o) :
    (p' t).Fits o ∧ (p t).outcome o ++ effectsOf es t = (p' t).outcome o := by
  induction h with
  | nil => exact ⟨hf, List.append_nil _⟩
  | @cons p p' e es hc _ ih =>
    by_cases het : e.tid = t
    · subst het
      rw [hc] at hf ⊢
      obtain rfl : o = some e.op := hf
      obtain ⟨hf', ho⟩ := ih (by rw [Function.update_self]; exact ⟨_, rfl⟩)
      rw [Function.update_self] at ho
      refine ⟨hf', ?_⟩
      rw [← ho]
      simp [effectsOf, Status.outcome]
    · rw [Function.update_of_ne (Ne.symm het)] at ih
      obtain ⟨hf', ho⟩ := ih hf
      refine ⟨hf', ?_⟩
      rw [← ho]
      simp [effectsOf, het]

/-- What the history says about a thread goes with its status and its effects. -/
structure Accounted (x : Status Op Res) (es : List (Effect ι Op Res))
    (h : List (Rec ι σ Λ Op Res)) (t : ι) : Prop where
  fits : x.Fits (current h t)
  effects : effectsOf es t = (returned h t).reverse ++ x.outcome (current h t)
  calls : callsOf h t = (current h t).toList ++ (returned h t).map Prod.fst

/-- The thread's own step, by what it shows. -/
theorem Accounted.step {r : Rec ι σ Λ Op Res} {h : List (Rec ι σ Λ Op Res)}
    {E es : List (Effect ι Op Res)} {w x w' y : Status Op Res} (hA : Accounted w E h r.tid)
    (hopen : Opens r.ev w x)
    (htake : ∀ o, x.Fits o → w'.Fits o ∧ x.outcome o ++ effectsOf es r.tid = w'.outcome o)
    (hclose : Closes r.ev w' y) : Accounted y (E ++ es) (r :: h) r.tid := by
  obtain ⟨hf, he, hc⟩ := hA
  obtain ⟨t, ev, c, c'⟩ := r
  dsimp only at *
  cases ev with
  | call o =>
    cases hopen
    cases hclose
    obtain ⟨hf', ho⟩ := htake (some o) rfl
    have hcur : current h t = none := hf
    refine ⟨by simpa [current] using hf', ?_, ?_⟩
    · rw [Status.outcome_called, List.nil_append] at ho
      simp [effectsOf_append, he, current, returned, ho]
    · simpa [callsOf, Interleaving.calls, current, returned, hcur] using hc
  | ret v =>
    cases hopen
    cases hclose
    obtain ⟨o, hcur⟩ : ∃ o, current h t = some o := (htake _ hf).1
    obtain ⟨-, ho⟩ := htake _ hf
    rw [hcur] at he ho hc
    refine ⟨by simp [current, Status.Fits], ?_, ?_⟩
    · rw [effectsOf_append, he, List.append_assoc, ho]
      simp [returned, hcur, Status.outcome]
    · simpa [callsOf, Interleaving.calls, current, returned, hcur] using hc
  | tau =>
    cases hopen
    cases hclose
    obtain ⟨hf', ho⟩ := htake _ hf
    refine ⟨by simpa [current] using hf', ?_, ?_⟩
    · rw [effectsOf_append, he, List.append_assoc, ho]
      simp [current, returned]
    · simpa [callsOf, Interleaving.calls, current, returned] using hc

/-- **The effects of a thread are its operations**, as far as they have come. -/
theorem Linearized.accounted (hL : Linearized spec abs H p) (t : ι) :
    Accounted (p t) (order H) (H.map Prod.fst) t := by
  induction hL with
  | nil => exact ⟨rfl, rfl, rfl⟩
  | @step H p p' r es x y _ hopen htake _ hclose ih =>
    rw [order_cons, List.map_cons]
    by_cases hrt : t = r.tid
    · subst hrt
      rw [Function.update_self]
      refine ih.step hopen (fun o hf => ?_) hclose
      have := htake.outcome (t := r.tid) (o := o)
      rw [Function.update_self] at this
      exact this hf
    · obtain ⟨hf, he, hc⟩ := ih
      have htakes := htake.outcome (t := t) (o := current (H.map Prod.fst) t)
      rw [Function.update_of_ne hrt] at htakes ⊢
      obtain ⟨hf', ho⟩ := htakes hf
      refine ⟨?_, ?_, ?_⟩
      · rwa [current_ne (Ne.symm hrt)]
      · rw [effectsOf_append, he, current_ne (Ne.symm hrt), returned_ne (Ne.symm hrt),
          List.append_assoc, ho]
      · rw [callsOf_ne (Ne.symm hrt), current_ne (Ne.symm hrt), returned_ne (Ne.symm hrt), hc]

theorem Linearized.effects (hL : Linearized spec abs H p) (t : ι) :
    effectsOf (order H) t = (settled (p t) (H.map Prod.fst) t).reverse := by
  rw [(hL.accounted t).effects, settled, List.reverse_append, Status.outcome_reverse]

/-- Only threads that have taken a step have effects. -/
theorem Linearized.tid_mem (hL : Linearized spec abs H p) {e : Effect ι Op Res}
    (he : e ∈ order H) : e.tid ∈ users (H.map Prod.fst) := by
  by_contra hno
  obtain ⟨hcur, hret, -⟩ := of_notMem_users hno
  have hmem : (e.op, e.res) ∈ effectsOf (order H) e.tid :=
    List.mem_map.mpr ⟨e, List.mem_filter.mpr ⟨he, by simp⟩, rfl⟩
  rw [(hL.accounted e.tid).effects, hret, hcur] at hmem
  cases hp : p e.tid <;> simp [hp, Status.outcome] at hmem

/-! ## Adding up -/

/-- Effects, thread by thread. -/
theorem worth_effects (w : Op → Res → ℤ) {S : Finset ι} {es : List (Effect ι Op Res)}
    (hS : ∀ e ∈ es, e.tid ∈ S) :
    worth w (es.map fun e => (e.op, e.res)) = ∑ t ∈ S, worth w (effectsOf es t) := by
  induction es with
  | nil => simp [effectsOf]
  | cons e es ih =>
    have hrest := ih fun e' he' => hS e' (List.mem_cons_of_mem _ he')
    have hone : ∀ t, worth w (effectsOf (e :: es) t) =
        worth w (effectsOf es t) + if t = e.tid then w e.op e.res else 0 := by
      intro t
      by_cases het : e.tid = t
      · subst het
        simp [effectsOf, add_comm]
      · simp [effectsOf, het, Ne.symm het]
    rw [List.map_cons, worth_cons, hrest, Finset.sum_congr rfl fun t _ => hone t,
      Finset.sum_add_distrib, Finset.sum_ite_eq' S e.tid, if_pos (hS e List.mem_cons_self)]
    exact add_comm _ _

omit [DecidableEq ι] in
/-- A legal run of an object in which every operation adds what it is worth to `φ`. -/
theorem Legal.worth {φ : A → ℤ} {w : Op → Res → ℤ}
    (hw : ∀ a o v b, spec a o v b → φ b = φ a + w o v) {a b : A} {es : List (Effect ι Op Res)}
    (hl : Legal spec a es b) :
    φ b = φ a + Interleaving.worth w (es.map fun e => (e.op, e.res)) := by
  induction hl with
  | nil => simp
  | @cons a b c e es h _ ih =>
    rw [ih, hw _ _ _ _ h, List.map_cons, worth_cons]
    exact add_assoc _ _ _

/-- **The account of an object**: what it had, and what the operations of its users added. -/
theorem Linearized.account {φ : A → ℤ} {w : Op → Res → ℤ}
    (hw : ∀ a o v b, spec a o v b → φ b = φ a + w o v) (hL : Linearized spec abs H p) {a b : A}
    (hl : Legal spec a (order H) b) :
    φ b = φ a + ∑ t ∈ users (H.map Prod.fst),
      Interleaving.worth w (settled (p t) (H.map Prod.fst) t) := by
  rw [hl.worth hw, worth_effects w fun e he => hL.tid_mem he]
  refine congrArg (φ a + ·) (Finset.sum_congr rfl fun t _ => ?_)
  rw [hL.effects t, worth_reverse]

/-! ## What a thread keeps -/

/-- A measure `m` of the local states is what the thread's own operations are worth. -/
def Measured (w : Op → Res → ℤ) (g : Λ → Status Op Res) (m : Λ → ℤ)
    (h : List (Rec ι σ Λ Op Res)) (c : Config ι σ Λ) : Prop :=
  ∀ t, (g (c.loc t)).Fits (current h t) ∧
    m (c.loc t) = Interleaving.worth w (settled (g (c.loc t)) h t)

/-- The measure goes on as long as a step changes its thread's by what the operation that takes
effect is worth. -/
theorem Measured.step {w : Op → Res → ℤ} {g : Λ → Status Op Res} {m : Λ → ℤ}
    {h : List (Rec ι σ Λ Op Res)} {c : Config ι σ Λ} {ev : Event Op Res} {s : σ} {l : Λ}
    (hM : Measured w g m h c)
    (hc : Commits (fun a o v b => b = a + w o v) id g (m (c.loc t)) (c.loc t) (m l) l ev) :
    Measured w g m (⟨t, ev, c, c.set t s l⟩ :: h) (c.set t s l) := by
  intro u
  by_cases hut : u = t
  · subst hut
    obtain ⟨hf, hm⟩ := hM u
    rw [Config.set_loc_self]
    cases hc with
    | call o hp hg ha =>
      rw [hp] at hm
      rw [hg, show m l = m (c.loc u) from ha, hm]
      simp [current, returned, settled, Status.Fits]
    | tau hg ha =>
      rw [hg, show m l = m (c.loc u) from ha, hm]
      simpa [current, returned, settled] using hf
    | commit o v hp hg ha =>
      rw [hp] at hf hm
      have hcur : current h u = some o := hf
      rw [hg, show m l = m (c.loc u) + w o v from ha, hm]
      simp [current, returned, settled, Status.Fits, Status.outcome, hcur, add_comm]
    | ret v hp hg ha =>
      rw [hp] at hf hm
      obtain ⟨o, hcur⟩ : ∃ o, current h u = some o := hf
      rw [hg, show m l = m (c.loc u) from ha, hm]
      simp [current, returned, settled, Status.Fits, Status.outcome, hcur]
  · rw [Config.set_loc_ne c hut, current_ne (Ne.symm hut), settled, current_ne (Ne.symm hut),
      returned_ne (Ne.symm hut)]
    exact hM u

end Interleaving
