import Bonostl.Interleaving.Program

/-!
# Linearizability

A sequential object is a relation `spec a o r b`: operation `o` on state `a` may return `r` and
leave `b`. A history is linearizable to it when every step of the history can be given a list of
operations that take effect there, such that

* the operations of a step are legal, one after the other, from the abstract state of the
  configuration before the step to that of the one after it (`Legal`, with `abs` the abstraction);
* every operation takes effect at most once, after its call and before its return, and returns the
  result it took effect with (`Status`, `Takes`, `Opens`, `Closes`).

`Linearized` keeps the chosen effects beside each record and the status of every thread. The
effects of all steps, oldest first (`order`), are then one legal sequential run
(`Linearized.legal`). Effects may be chosen late: `Linearized.insert` adds the effect of a pending
operation to any step since its call, and `Linearized.read` is the case of an operation that
leaves the state alone.
-/

namespace Interleaving

variable {ι σ Λ κ Op Res A : Type} [DecidableEq ι]

/-- How far a thread's operation has come: not called, called, or taken effect with a result. -/
inductive Status (Op Res : Type) where
  | idle
  | called (o : Op)
  | done (r : Res)

/-- An operation that takes effect. -/
structure Effect (ι Op Res : Type) where
  tid : ι
  op : Op
  res : Res

/-- A legal sequential run of the object. -/
inductive Legal (spec : A → Op → Res → A → Prop) : A → List (Effect ι Op Res) → A → Prop
  | nil (a : A) : Legal spec a [] a
  | cons {a b c : A} {e : Effect ι Op Res} {es : List (Effect ι Op Res)}
      (h : spec a e.op e.res b) (hes : Legal spec b es c) : Legal spec a (e :: es) c

/-- Each effect is one of a thread whose operation was called and has not taken effect. -/
inductive Takes : (ι → Status Op Res) → List (Effect ι Op Res) → (ι → Status Op Res) → Prop
  | nil (p : ι → Status Op Res) : Takes p [] p
  | cons {p p' : ι → Status Op Res} {e : Effect ι Op Res} {es : List (Effect ι Op Res)}
      (h : p e.tid = .called e.op)
      (hes : Takes (Function.update p e.tid (.done e.res)) es p') : Takes p (e :: es) p'

/-- What an event does to its thread's status before the step's effects. -/
inductive Opens : Event Op Res → Status Op Res → Status Op Res → Prop
  | call (o : Op) : Opens (.call o) .idle (.called o)
  | ret (r : Res) (x : Status Op Res) : Opens (.ret r) x x
  | tau (x : Status Op Res) : Opens .tau x x

/-- What an event does to its thread's status after the step's effects: an operation returns the
result it took effect with. -/
inductive Closes : Event Op Res → Status Op Res → Status Op Res → Prop
  | call (o : Op) (x : Status Op Res) : Closes (.call o) x x
  | ret (r : Res) : Closes (.ret r) (.done r) .idle
  | tau (x : Status Op Res) : Closes .tau x x

/-- A history with the effects of each of its steps, newest step first. -/
abbrev Annotated (ι σ Λ Op Res : Type) := List (Rec ι σ Λ Op Res × List (Effect ι Op Res))

section
variable (spec : A → Op → Res → A → Prop) (abs : σ → A)

/-- The effects chosen for a history are a linearization of it, with the statuses it ends in. -/
inductive Linearized : Annotated ι σ Λ Op Res → (ι → Status Op Res) → Prop
  | nil : Linearized [] fun _ => .idle
  | step {H : Annotated ι σ Λ Op Res} {p p' : ι → Status Op Res} {r : Rec ι σ Λ Op Res}
      {es : List (Effect ι Op Res)} {x y : Status Op Res} (hH : Linearized H p)
      (hopen : Opens r.ev (p r.tid) x) (htake : Takes (Function.update p r.tid x) es p')
      (hlegal : Legal spec (abs r.pre.shared) es (abs r.cfg.shared))
      (hclose : Closes r.ev (p' r.tid) y) :
      Linearized ((r, es) :: H) (Function.update p' r.tid y)

/-- Some choice of effects is a linearization of the history. -/
def Linearizable (h : List (Rec ι σ Λ Op Res)) : Prop :=
  ∃ (H : Annotated ι σ Λ Op Res) (p : ι → Status Op Res),
    H.map Prod.fst = h ∧ Linearized spec abs H p
end

/-- All effects, oldest first. -/
def order (H : Annotated ι σ Λ Op Res) : List (Effect ι Op Res) :=
  (H.map Prod.snd).reverse.flatten

variable {spec : A → Op → Res → A → Prop} {abs : σ → A} {H : Annotated ι σ Λ Op Res}
  {p p' : ι → Status Op Res} {t : ι} {o : Op} {res : Res} {c c' : Config ι σ Λ}

omit [DecidableEq ι] in
@[simp] theorem order_cons (x : Rec ι σ Λ Op Res × List (Effect ι Op Res)) :
    order (x :: H) = order H ++ x.2 := by simp [order]

omit [DecidableEq ι] in
theorem Legal.append {a b d : A} {es es' : List (Effect ι Op Res)} (h : Legal spec a es b)
    (h' : Legal spec b es' d) : Legal spec a (es ++ es') d := by
  induction h with
  | nil => exact h'
  | cons hs _ ih => exact .cons hs (ih h')

omit [DecidableEq ι] in
theorem Legal.single {a b : A} {e : Effect ι Op Res} (h : spec a e.op e.res b) :
    Legal spec a [e] b := .cons h (.nil b)

/-- **One order for all operations**: the effects of a run are a legal sequential run between the
abstract states at its two ends. -/
theorem Linearized.legal {P : Program ι σ Λ κ Op Res}
    {ok : List (Rec ι σ Λ Op Res) → Config ι σ Λ → ι → κ → Prop} {c₀ : Config ι σ Λ}
    (hL : Linearized spec abs H p) (hr : P.Run ok c₀ (H.map Prod.fst) c) :
    Legal spec (abs c₀.shared) (order H) (abs c.shared) := by
  induction hL generalizing c with
  | nil => cases hr; exact .nil _
  | step _ _ _ hlegal _ ih =>
    rw [List.map_cons] at hr
    cases hr with
    | cons hrun _ _ => rw [order_cons]; exact (ih hrun).append hlegal

/-! ## Steps with a fixed choice of effects -/

/-- A step in which nothing takes effect. -/
theorem Linearized.tau (hL : Linearized spec abs H p) (ha : abs c'.shared = abs c.shared) :
    Linearized spec abs ((⟨t, .tau, c, c'⟩, []) :: H) p := by
  have := Linearized.step (r := ⟨t, .tau, c, c'⟩) hL (.tau _) (.nil _)
    (by rw [ha]; exact .nil _) (.tau _)
  simpa using this

theorem Linearized.call (hL : Linearized spec abs H p) (hp : p t = .idle)
    (ha : abs c'.shared = abs c.shared) :
    Linearized spec abs ((⟨t, .call o, c, c'⟩, []) :: H) (Function.update p t (.called o)) := by
  have := Linearized.step (r := ⟨t, .call o, c, c'⟩) hL (by rw [hp]; exact .call o) (.nil _)
    (by rw [ha]; exact .nil _) (.call _ _)
  simpa using this

/-- The thread's own operation takes effect. -/
theorem Linearized.commit (hL : Linearized spec abs H p) (hp : p t = .called o)
    (ha : spec (abs c.shared) o res (abs c'.shared)) :
    Linearized spec abs ((⟨t, .tau, c, c'⟩, [⟨t, o, res⟩]) :: H)
      (Function.update p t (.done res)) := by
  have := Linearized.step (r := ⟨t, .tau, c, c'⟩) hL (.tau _)
    (.cons (e := ⟨t, o, res⟩) (by simpa using hp) (.nil _)) (.single ha) (.tau _)
  simpa using this

theorem Linearized.ret (hL : Linearized spec abs H p) (hp : p t = .done res)
    (ha : abs c'.shared = abs c.shared) :
    Linearized spec abs ((⟨t, .ret res, c, c'⟩, []) :: H) (Function.update p t .idle) := by
  have := Linearized.step (r := ⟨t, .ret res, c, c'⟩) hL (.ret _ _) (.nil _)
    (by rw [ha]; exact .nil _) (by simpa [hp] using Closes.ret res)
  simpa using this

/-! ## Effects chosen late -/

/-- A thread that is still waiting took no effect. -/
theorem Takes.waiting {es : List (Effect ι Op Res)} (h : Takes p es p') (hp : p' t = .called o) :
    p t = .called o ∧ ∀ e ∈ es, e.tid ≠ t := by
  induction h with
  | nil => exact ⟨hp, by simp⟩
  | @cons p p' e es hc _ ih =>
    obtain ⟨h1, h2⟩ := ih hp
    have hne : e.tid ≠ t := by
      rintro rfl
      simp at h1
    exact ⟨by rwa [Function.update_of_ne hne.symm] at h1, by simpa [hne] using h2⟩

/-- The statuses of threads that took no effect do not matter. -/
theorem Takes.frame {es : List (Effect ι Op Res)} (h : Takes p es p') (he : ∀ e ∈ es, e.tid ≠ t)
    (x : Status Op Res) : Takes (Function.update p t x) es (Function.update p' t x) := by
  induction h with
  | nil => exact .nil _
  | @cons p p' e es hc _ ih =>
    have hne : e.tid ≠ t := he e (by simp)
    refine .cons (by rwa [Function.update_of_ne hne]) ?_
    rw [Function.update_comm hne.symm]
    exact ih fun e' he' => he e' (by simp [he'])

theorem Takes.insert {l₁ l₂ : List (Effect ι Op Res)} (h : Takes p (l₁ ++ l₂) p')
    (hp : p' t = .called o) :
    Takes p (l₁ ++ ⟨t, o, res⟩ :: l₂) (Function.update p' t (.done res)) := by
  induction l₁ generalizing p with
  | nil =>
    obtain ⟨h1, h2⟩ := Takes.waiting h hp
    exact .cons h1 (Takes.frame h h2 _)
  | cons e l₁ ih =>
    cases h with
    | cons hc hes => exact .cons hc (ih hes)

/-- The step's event leaves the status of a waiting thread alone, unless it is its call. -/
theorem Closes.waiting {ev : Event Op Res} {x : Status Op Res} {t' : ι}
    (h : Closes ev (p t') x) (hp : Function.update p t' x t = .called o) :
    p t = .called o ∧ (t' = t → (ev = .tau ∨ ∃ o, ev = .call o) ∧ x = .called o) := by
  by_cases ht : t' = t
  · subst ht
    rw [Function.update_self] at hp
    subst hp
    generalize p t' = y at h ⊢
    cases h with
    | call o' => exact ⟨rfl, fun _ => ⟨.inr ⟨o', rfl⟩, rfl⟩⟩
    | tau => exact ⟨rfl, fun _ => ⟨.inl rfl, rfl⟩⟩
  · rw [Function.update_of_ne (Ne.symm ht)] at hp
    exact ⟨hp, fun h => absurd h ht⟩

/-- The closing half of a step, with the waiting thread's effect already taken. -/
theorem Closes.update {ev : Event Op Res} {x : Status Op Res} {t' : ι}
    (h : Closes ev (p t') x) (hp : Function.update p t' x t = .called o) (y : Status Op Res) :
    ∃ z, Closes ev (Function.update p t y t') z ∧
      Function.update (Function.update p t y) t' z =
        Function.update (Function.update p t' x) t y := by
  by_cases ht : t' = t
  · subst ht
    obtain ⟨-, h2⟩ := Closes.waiting h hp
    refine ⟨y, ?_, by simp⟩
    rcases (h2 rfl).1 with rfl | ⟨o', rfl⟩
    · simpa using Closes.tau y
    · simpa using Closes.call o' y
  · exact ⟨x, by rwa [Function.update_of_ne ht], Function.update_comm (Ne.symm ht) _ _ _⟩

/-- **Late effects.** A pending operation may take effect at any step since its call where this
leaves the step legal. -/
theorem Linearized.insert {H₁ H₂ : Annotated ι σ Λ Op Res} {r : Rec ι σ Λ Op Res}
    {l₁ l₂ : List (Effect ι Op Res)} (hL : Linearized spec abs (H₁ ++ (r, l₁ ++ l₂) :: H₂) p)
    (hp : p t = .called o) (hcall : ∀ x ∈ H₁, x.1.tid = t → ∀ o', x.1.ev ≠ .call o')
    (hlegal : Legal spec (abs r.pre.shared) (l₁ ++ ⟨t, o, res⟩ :: l₂) (abs r.cfg.shared)) :
    Linearized spec abs (H₁ ++ (r, l₁ ++ ⟨t, o, res⟩ :: l₂) :: H₂)
      (Function.update p t (.done res)) := by
  induction H₁ generalizing p with
  | nil =>
    cases hL with
    | @step _ p₀ p₁ _ _ x y hH hopen htake _ hclose =>
      obtain ⟨h1, -⟩ := Closes.waiting hclose hp
      obtain ⟨z, hz, hzeq⟩ := Closes.update hclose hp (.done res)
      rw [← hzeq]
      exact .step hH hopen (Takes.insert htake h1) hlegal hz
  | cons y H₁ ih =>
    cases hL with
    | @step _ p₀ p₁ r₁ es x y hH hopen htake hlegal₁ hclose =>
      obtain ⟨h1, h2⟩ := Closes.waiting hclose hp
      obtain ⟨z, hz, hzeq⟩ := Closes.update hclose hp (.done res)
      obtain ⟨h3, h4⟩ := Takes.waiting htake h1
      have hne := hcall (r₁, es) (by simp)
      rw [← hzeq]
      -- a waiting thread's own step since its call is silent
      have hop : p₀ t = .called o ∧ ∃ x', Opens r₁.ev (Function.update p₀ t (.done res) r₁.tid) x' ∧
          Function.update (Function.update p₀ t (.done res)) r₁.tid x' =
            Function.update (Function.update p₀ r₁.tid x) t (.done res) := by
        by_cases ht : r₁.tid = t
        · have hev : r₁.ev = .tau := by
            rcases (h2 ht).1 with h | ⟨o', h⟩
            · exact h
            · exact absurd h (hne ht o')
          subst ht
          rw [hev] at hopen ⊢
          generalize p₀ r₁.tid = w at hopen ⊢
          cases hopen with
          | tau =>
            rw [Function.update_self] at h3
            exact ⟨h3, .done res, by simpa using Opens.tau _, by simp⟩
        · rw [Function.update_of_ne (Ne.symm ht)] at h3
          exact ⟨h3, x, by rwa [Function.update_of_ne ht], Function.update_comm (Ne.symm ht) _ _ _⟩
      obtain ⟨hp₀, x', hopen', hupd⟩ := hop
      have hH' := ih hH hp₀ (fun x hx => hcall x (by simp [hx]))
      exact .step hH' hopen' (by rw [hupd]; exact Takes.frame htake h4 _) hlegal₁ hz

/-- The shared states of the operation `t` is running: since its last call. -/
def during : List (Rec ι σ Λ Op Res) → ι → Set σ
  | [], _ => ∅
  | r :: h, t => {s | s = r.cfg.shared ∨
      ((r.tid = t → ∀ o, r.ev ≠ .call o) ∧ s ∈ during h t)}

omit [DecidableEq ι] in
theorem mem_during_now (r : Rec ι σ Λ Op Res) (h : List (Rec ι σ Λ Op Res)) :
    r.cfg.shared ∈ during (r :: h) t := Or.inl rfl

omit [DecidableEq ι] in
theorem mem_during_old {r : Rec ι σ Λ Op Res} {h : List (Rec ι σ Λ Op Res)} {s : σ}
    (hr : r.tid = t → ∀ o, r.ev ≠ .call o) (hs : s ∈ during h t) : s ∈ during (r :: h) t :=
  Or.inr ⟨hr, hs⟩

omit [DecidableEq ι] in
theorem during_split {h : List (Rec ι σ Λ Op Res)} {s : σ} (hs : s ∈ during h t) :
    ∃ h₁ r h₂, h = h₁ ++ r :: h₂ ∧ r.cfg.shared = s ∧
      ∀ x ∈ h₁, x.tid = t → ∀ o, x.ev ≠ .call o := by
  induction h with
  | nil => exact absurd hs (by simp [during])
  | cons r h ih =>
    rcases hs with rfl | ⟨hr, hs⟩
    · exact ⟨[], r, h, rfl, rfl, by simp⟩
    · obtain ⟨h₁, r', h₂, rfl, rfl, hall⟩ := ih hs
      refine ⟨r :: h₁, r', h₂, rfl, rfl, fun x hx => ?_⟩
      rcases List.mem_cons.mp hx with rfl | hx
      · exact hr
      · exact hall x hx

omit [DecidableEq ι] in
/-- The shared states of an operation that was called in `g`. -/
theorem during_since {g h : List (Rec ι σ Λ Op Res)} {s : σ} (hs : s ∈ during (g ++ h) t)
    (hg : ∃ q ∈ g, q.tid = t ∧ ∃ o, q.ev = .call o) : ∃ x ∈ g, x.cfg.shared = s := by
  induction g with
  | nil =>
    obtain ⟨q, hq, -⟩ := hg
    cases hq
  | cons r g ih =>
    rcases hs with rfl | ⟨hr, hs⟩
    · exact ⟨r, List.mem_cons_self, rfl⟩
    · obtain ⟨q, hq, hqt, o, ho⟩ := hg
      rcases List.mem_cons.mp hq with rfl | hq
      · exact absurd ho (hr hqt o)
      · obtain ⟨x, hx, he⟩ := ih hs ⟨q, hq, hqt, o, ho⟩
        exact ⟨x, List.mem_cons_of_mem _ hx, he⟩

/-! ### By position

A record keeps its position, counted from the oldest one, while effects are added. -/

omit [DecidableEq ι] in
/-- The record at position `i`, with its effects. -/
def recordAt (H : Annotated ι σ Λ Op Res) (i : ℕ) :
    Option (Rec ι σ Λ Op Res × List (Effect ι Op Res)) := H.reverse[i]?

omit [DecidableEq ι] in
/-- Other effects for the record at position `i`. -/
def amend (H : Annotated ι σ Λ Op Res) (i : ℕ)
    (x : Rec ι σ Λ Op Res × List (Effect ι Op Res)) : Annotated ι σ Λ Op Res :=
  (H.reverse.set i x).reverse

section
variable {i j : ℕ} {x y : Rec ι σ Λ Op Res × List (Effect ι Op Res)}
  {r : Rec ι σ Λ Op Res} {l l₁ l₂ : List (Effect ι Op Res)}

omit [DecidableEq ι] in
theorem recordAt_split (h : recordAt H i = some x) :
    ∃ H₁ H₂, H = H₁ ++ x :: H₂ ∧ H₂.length = i := by
  obtain ⟨hi, hx⟩ := List.getElem?_eq_some_iff.mp h
  refine ⟨(H.reverse.drop (i + 1)).reverse, (H.reverse.take i).reverse,
    ?_, by simp; simpa using hi.le⟩
  have hsplit : H.reverse = H.reverse.take i ++ x :: H.reverse.drop (i + 1) := by
    rw [← hx, ← List.drop_eq_getElem_cons hi, List.take_append_drop]
  have hrev := congrArg List.reverse hsplit
  rw [List.reverse_reverse] at hrev
  simpa using hrev

omit [DecidableEq ι] in
theorem amend_split {H₁ H₂ : Annotated ι σ Λ Op Res} :
    amend (H₁ ++ x :: H₂) H₂.length y = H₁ ++ y :: H₂ := by
  simp [amend]

omit [DecidableEq ι] in
theorem amend_map_fst (h : recordAt H i = some x) (hy : y.1 = x.1) :
    (amend H i y).map Prod.fst = H.map Prod.fst := by
  obtain ⟨H₁, H₂, rfl, rfl⟩ := recordAt_split h
  rw [amend_split]
  simp [hy]

/-- A pending operation takes effect at a position since its call. -/
theorem Linearized.insert_at (hL : Linearized spec abs H p) (hi : recordAt H i = some (r, l₁ ++ l₂))
    (hp : p t = .called o)
    (hcall : ∀ j x, i < j → recordAt H j = some x → x.1.tid = t → ∀ o', x.1.ev ≠ .call o')
    (hlegal : Legal spec (abs r.pre.shared) (l₁ ++ ⟨t, o, res⟩ :: l₂) (abs r.cfg.shared)) :
    Linearized spec abs (amend H i (r, l₁ ++ ⟨t, o, res⟩ :: l₂))
      (Function.update p t (.done res)) := by
  obtain ⟨H₁, H₂, rfl, rfl⟩ := recordAt_split hi
  rw [amend_split]
  refine hL.insert hp (fun x hx => ?_) hlegal
  obtain ⟨k, hk, rfl⟩ := List.getElem_of_mem (List.mem_reverse.mpr hx)
  refine hcall (H₂.length + 1 + k) _ (by omega) ?_
  have hk' : k < H₁.length := by simpa using hk
  unfold recordAt
  rw [List.reverse_append, List.reverse_cons, List.append_assoc,
    List.getElem?_append_right (by simp; omega)]
  simp only [List.length_reverse, List.singleton_append]
  rw [show H₂.length + 1 + k - H₂.length = k + 1 by omega, List.getElem?_cons_succ,
    List.getElem?_eq_getElem hk]

/-- The legal effects of a record. -/
theorem Linearized.legal_at (hL : Linearized spec abs H p) (hi : recordAt H i = some (r, l)) :
    Legal spec (abs r.pre.shared) l (abs r.cfg.shared) := by
  obtain ⟨H₁, H₂, rfl, rfl⟩ := recordAt_split hi
  clear hi
  induction H₁ generalizing p with
  | nil => cases hL; assumption
  | cons y H₁ ih => cases hL with | step hH => exact ih hH

omit [DecidableEq ι] in
/-- An instant of the operation `t` is running is the end of a record, with no call of `t` since. -/
theorem during_at {h : List (Rec ι σ Λ Op Res)} {s : σ} (hs : s ∈ during h t)
    (hh : H.map Prod.fst = h) :
    ∃ i r l, recordAt H i = some (r, l) ∧ r.cfg.shared = s ∧
      ∀ j x, i < j → recordAt H j = some x → x.1.tid = t → ∀ o, x.1.ev ≠ .call o := by
  obtain ⟨h₁, r, h₂, rfl, rfl, hall⟩ := during_split hs
  obtain ⟨H₁, H₂', rfl, rfl, h2⟩ := List.map_eq_append_iff.mp hh
  obtain ⟨⟨r', es⟩, H₂, rfl, rfl, rfl⟩ := List.map_eq_cons_iff.mp h2
  refine ⟨H₂.length, r', es, ?_, rfl, fun j x hj hx => ?_⟩
  · unfold recordAt
    rw [List.reverse_append, List.reverse_cons, List.append_assoc,
      List.getElem?_append_right (by simp)]
    simp
  · refine hall x.1 (List.mem_map_of_mem ?_)
    unfold recordAt at hx
    rw [List.reverse_append, List.reverse_cons, List.append_assoc,
      List.getElem?_append_right (by simp; omega)] at hx
    simp only [List.length_reverse, List.singleton_append] at hx
    obtain ⟨m, hm⟩ : ∃ m, j - H₂.length = m + 1 := ⟨j - H₂.length - 1, by omega⟩
    rw [hm, List.getElem?_cons_succ] at hx
    exact List.mem_reverse.mp (List.mem_of_getElem? hx)

/-- An operation that leaves the state alone may take effect at any instant since its call. -/
theorem Linearized.read_at {h : List (Rec ι σ Λ Op Res)} {s : σ} (hL : Linearized spec abs H p)
    (hh : H.map Prod.fst = h) (hp : p t = .called o) (hs : s ∈ during h t)
    (hspec : spec (abs s) o res (abs s)) :
    ∃ i r l, recordAt H i = some (r, l) ∧ spec (abs r.cfg.shared) o res (abs r.cfg.shared) ∧
      Linearized spec abs (amend H i (r, l ++ [⟨t, o, res⟩]))
        (Function.update p t (.done res)) := by
  obtain ⟨i, r, l, hi, rfl, hcall⟩ := during_at hs hh
  have hi' : recordAt H i = some (r, l ++ []) := by simpa using hi
  refine ⟨i, r, l, hi, hspec, hL.insert_at hi' hp hcall ?_⟩
  exact (hL.legal_at hi).append (.single hspec)

theorem Linearized.read {h : List (Rec ι σ Λ Op Res)} {s : σ} (hL : Linearized spec abs H p)
    (hh : H.map Prod.fst = h) (hp : p t = .called o) (hs : s ∈ during h t)
    (hspec : spec (abs s) o res (abs s)) :
    ∃ H', H'.map Prod.fst = h ∧ Linearized spec abs H' (Function.update p t (.done res)) := by
  obtain ⟨i, r, l, hi, -, hL'⟩ := hL.read_at hh hp hs hspec
  exact ⟨_, (amend_map_fst (y := (r, l ++ [⟨t, o, res⟩])) hi rfl).trans hh, hL'⟩
end

/-! ## Completed operations -/

/-- The operations called, newest first. -/
def calls (h : List (Rec ι σ Λ Op Res)) : List Op :=
  h.filterMap fun r => match r.ev with
    | .call o => some o
    | _ => none

/-- The results returned, newest first. -/
def returns (h : List (Rec ι σ Λ Op Res)) : List Res :=
  h.filterMap fun r => match r.ev with
    | .ret x => some x
    | _ => none

/-- The operation that has been called and has not taken effect. -/
def Status.waiting : Status Op Res → Option Op
  | .called o => some o
  | _ => none

/-- The result an operation is about to return. -/
def Status.result : Status Op Res → Option Res
  | .done r => some r
  | _ => none

/-- `L` lists the values of `p`, each beside its argument. -/
def Lists {α : Type} (p : ι → Option α) (L : List (ι × α)) : Prop :=
  (L.map Prod.fst).Nodup ∧ ∀ t a, (t, a) ∈ L ↔ p t = some a

section
variable {α : Type} {q : ι → Option α} {L : List (ι × α)} {a : α}

theorem Lists.set (hL : Lists q L) (hq : q t = none) :
    Lists (Function.update q t (some a)) ((t, a) :: L) := by
  obtain ⟨hnd, hmem⟩ := hL
  refine ⟨List.nodup_cons.mpr ⟨?_, hnd⟩, fun u b => ?_⟩
  · intro hm
    obtain ⟨⟨u, b⟩, hb, rfl⟩ := List.mem_map.mp hm
    rw [hmem, hq] at hb
    cases hb
  · by_cases hut : u = t
    · subst hut
      have hno : (u, b) ∉ L := by rw [hmem, hq]; simp
      simp [hno, eq_comm]
    · simp [hut, hmem]

theorem Lists.unset (hL : Lists q L) (hq : q t = some a) :
    ∃ L', Lists (Function.update q t none) L' ∧ L.Perm ((t, a) :: L') := by
  obtain ⟨hnd, hmem⟩ := hL
  obtain ⟨l₁, l₂, rfl⟩ := List.append_of_mem ((hmem t a).mpr hq)
  have hp : (l₁ ++ (t, a) :: l₂).Perm ((t, a) :: (l₁ ++ l₂)) := List.perm_middle
  have hnd' := (hp.map Prod.fst).nodup_iff.mp hnd
  rw [List.map_cons] at hnd'
  obtain ⟨hno, hnd'⟩ := List.nodup_cons.mp hnd'
  refine ⟨l₁ ++ l₂, ⟨hnd', fun u b => ?_⟩, hp⟩
  by_cases hut : u = t
  · subst hut
    simp only [Function.update_self, reduceCtorEq, iff_false]
    exact fun hb => hno (List.mem_map.mpr ⟨(u, b), hb, rfl⟩)
  · have hb := hmem u b
    rw [hp.mem_iff] at hb
    simpa [hut] using hb
end

/-- Every operation called has taken effect or waits, and every effect's result has been returned
or is about to be. -/
def Balanced (C : List Op) (E : List (Effect ι Op Res)) (R : List Res) (p : ι → Status Op Res) :
    Prop :=
  ∃ (W : List (ι × Op)) (D : List (ι × Res)), Lists (fun t => (p t).waiting) W ∧
    Lists (fun t => (p t).result) D ∧ C.Perm (E.map Effect.op ++ W.map Prod.snd) ∧
    (E.map Effect.res).Perm (R ++ D.map Prod.snd)

section
variable {C : List Op} {E : List (Effect ι Op Res)} {R : List Res}

theorem update_waiting (x : Status Op Res) :
    (fun u => (Function.update p t x u).waiting) =
      Function.update (fun u => (p u).waiting) t x.waiting := by
  funext u; by_cases hu : u = t <;> simp [hu]

theorem update_result (x : Status Op Res) :
    (fun u => (Function.update p t x u).result) =
      Function.update (fun u => (p u).result) t x.result := by
  funext u; by_cases hu : u = t <;> simp [hu]

theorem Balanced.call (h : Balanced C E R p) (hp : p t = .idle) :
    Balanced (o :: C) E R (Function.update p t (.called o)) := by
  obtain ⟨W, D, hW, hD, hC, hE⟩ := h
  refine ⟨(t, o) :: W, D, ?_, ?_, (hC.cons o).trans List.perm_middle.symm, hE⟩
  · rw [update_waiting]
    exact hW.set (by simp [hp, Status.waiting])
  · rw [update_result, Function.update_eq_self_iff.mpr (by simp [hp, Status.result])]
    exact hD

theorem Balanced.take {es : List (Effect ι Op Res)} (h : Balanced C E R p) (ht : Takes p es p') :
    Balanced C (E ++ es) R p' := by
  induction ht generalizing E with
  | nil => simpa using h
  | @cons p p' e es hc _ ih =>
    obtain ⟨W, D, hW, hD, hC, hE⟩ := h
    obtain ⟨W', hW', hperm⟩ := hW.unset (t := e.tid) (a := e.op) (by simp [hc, Status.waiting])
    have hb : Balanced C (E ++ [e]) R (Function.update p e.tid (.done e.res)) := by
      refine ⟨W', (e.tid, e.res) :: D, ?_, ?_, ?_, ?_⟩
      · rw [update_waiting]; exact hW'
      · rw [update_result]
        exact hD.set (by simp [hc, Status.result])
      · have hW2 := hperm.map Prod.snd
        refine hC.trans ?_
        simpa using hW2.append_left _
      · have hE2 := (hE.append_right [e.res]).trans (List.perm_append_singleton _ _)
        simpa using hE2.trans List.perm_middle.symm
    simpa using ih hb

theorem Balanced.ret (h : Balanced C E R p) (hp : p t = .done res) :
    Balanced C E (res :: R) (Function.update p t .idle) := by
  obtain ⟨W, D, hW, hD, hC, hE⟩ := h
  obtain ⟨D', hD', hperm⟩ := hD.unset (t := t) (a := res) (by simp [hp, Status.result])
  refine ⟨W, D', ?_, ?_, hC, hE.trans ?_⟩
  · rw [update_waiting, Function.update_eq_self_iff.mpr (by simp [hp, Status.waiting])]
    exact hW
  · rw [update_result]; exact hD'
  · have hD2 := (hperm.map Prod.snd).append_left R
    exact hD2.trans (by simp)
end

/-- The effects of a history are its operations, as far as they have come. -/
theorem Linearized.balanced (hL : Linearized spec abs H p) :
    Balanced (calls (H.map Prod.fst)) (order H) (returns (H.map Prod.fst)) p := by
  induction hL with
  | nil =>
    exact ⟨[], [], by simp [Lists, Status.waiting], by simp [Lists, Status.result], .nil, .nil⟩
  | @step H p p' r es x y _ hopen htake _ hclose ih =>
    obtain ⟨t, ev, c, c'⟩ := r
    rw [order_cons]
    dsimp only at hopen htake hclose ⊢
    cases ev with
    | call o =>
      obtain ⟨hi, rfl⟩ : p t = .idle ∧ x = .called o := by
        generalize p t = w at hopen
        cases hopen; exact ⟨rfl, rfl⟩
      obtain rfl : p' t = y := by
        generalize p' t = w at hclose
        cases hclose; rfl
      rw [Function.update_eq_self]
      exact (ih.call hi).take htake
    | ret res =>
      obtain rfl : p t = x := by
        generalize p t = w at hopen
        cases hopen; rfl
      obtain ⟨hd, rfl⟩ : p' t = .done res ∧ y = .idle := by
        generalize p' t = w at hclose
        cases hclose; exact ⟨rfl, rfl⟩
      rw [Function.update_eq_self] at htake
      exact (ih.take htake).ret hd
    | tau =>
      obtain rfl : p t = x := by
        generalize p t = w at hopen
        cases hopen; rfl
      obtain rfl : p' t = y := by
        generalize p' t = w at hclose
        cases hclose; rfl
      rw [Function.update_eq_self] at htake ⊢
      exact ih.take htake

/-- **Completed operations.** When every operation called has returned, the effects are the
operations called, and their results those returned. -/
theorem Linearized.complete (hL : Linearized spec abs H p) (hp : ∀ t, p t = .idle) :
    (calls (H.map Prod.fst)).Perm ((order H).map Effect.op) ∧
      (returns (H.map Prod.fst)).Perm ((order H).map Effect.res) := by
  obtain ⟨W, D, ⟨-, hW⟩, ⟨-, hD⟩, hC, hE⟩ := hL.balanced
  have hW0 : W = [] := List.eq_nil_iff_forall_not_mem.mpr fun ⟨t, o⟩ hm => by
    have := (hW t o).mp hm
    simp [hp t, Status.waiting] at this
  have hD0 : D = [] := List.eq_nil_iff_forall_not_mem.mpr fun ⟨t, r⟩ hm => by
    have := (hD t r).mp hm
    simp [hp t, Status.result] at this
  subst hW0 hD0
  exact ⟨by simpa using hC, by simpa using hE.symm⟩

/-! ## Statuses read off the configuration -/

/-- The history has a linearization whose statuses are those `g` reads off the configuration. -/
def LinearizedBy (spec : A → Op → Res → A → Prop) (abs : σ → A) (g : σ → Λ → Status Op Res)
    (h : List (Rec ι σ Λ Op Res)) (c : Config ι σ Λ) : Prop :=
  ∃ H : Annotated ι σ Λ Op Res, H.map Prod.fst = h ∧
    Linearized spec abs H fun u => g c.shared (c.loc u)

section
variable {g : σ → Λ → Status Op Res} {h : List (Rec ι σ Λ Op Res)} {s : σ} {l : Λ}

/-- The statuses after a step of `t` that leaves those of the others as they were. -/
theorem status_set (hd : ∀ u, u ≠ t → g s (c.loc u) = g c.shared (c.loc u)) :
    (fun u => g (c.set t s l).shared ((c.set t s l).loc u)) =
      Function.update (fun u => g c.shared (c.loc u)) t (g s l) := by
  funext u
  by_cases hut : u = t
  · subst hut; simp
  · simp [hut, hd u hut]

variable (hL : LinearizedBy spec abs g h c)
include hL

theorem LinearizedBy.tau (hg : g s l = g c.shared (c.loc t)) (ha : abs s = abs c.shared)
    (hd : ∀ u, u ≠ t → g s (c.loc u) = g c.shared (c.loc u) := by exact fun _ _ => rfl) :
    LinearizedBy spec abs g (⟨t, .tau, c, c.set t s l⟩ :: h) (c.set t s l) := by
  obtain ⟨H, rfl, hL⟩ := hL
  refine ⟨(_, []) :: H, rfl, ?_⟩
  have hself : Function.update (fun u => g c.shared (c.loc u)) t (g s l) =
      fun u => g c.shared (c.loc u) :=
    Function.update_eq_self_iff.mpr hg
  rw [status_set hd, hself]
  exact hL.tau ha

theorem LinearizedBy.call (hp : g c.shared (c.loc t) = .idle) (hg : g s l = .called o)
    (ha : abs s = abs c.shared)
    (hd : ∀ u, u ≠ t → g s (c.loc u) = g c.shared (c.loc u) := by exact fun _ _ => rfl) :
    LinearizedBy spec abs g (⟨t, .call o, c, c.set t s l⟩ :: h) (c.set t s l) := by
  obtain ⟨H, rfl, hL⟩ := hL
  refine ⟨(_, []) :: H, rfl, ?_⟩
  rw [status_set hd, hg]
  exact hL.call hp ha

theorem LinearizedBy.commit (hp : g c.shared (c.loc t) = .called o) (hg : g s l = .done res)
    (ha : spec (abs c.shared) o res (abs s))
    (hd : ∀ u, u ≠ t → g s (c.loc u) = g c.shared (c.loc u) := by exact fun _ _ => rfl) :
    LinearizedBy spec abs g (⟨t, .tau, c, c.set t s l⟩ :: h) (c.set t s l) := by
  obtain ⟨H, rfl, hL⟩ := hL
  refine ⟨(_, [⟨t, o, res⟩]) :: H, rfl, ?_⟩
  rw [status_set hd, hg]
  exact hL.commit hp ha

/-- A step of `t` in which the operation of another thread `v` takes effect. -/
theorem LinearizedBy.commit_by {v : ι} (hp : g c.shared (c.loc v) = .called o)
    (hv : g s ((c.set t s l).loc v) = .done res) (ha : spec (abs c.shared) o res (abs s))
    (hd : ∀ u, u ≠ v → g s ((c.set t s l).loc u) = g c.shared (c.loc u)) :
    LinearizedBy spec abs g (⟨t, .tau, c, c.set t s l⟩ :: h) (c.set t s l) := by
  obtain ⟨H, rfl, hL⟩ := hL
  refine ⟨(_, [⟨v, o, res⟩]) :: H, rfl, ?_⟩
  have hs : (fun u => g (c.set t s l).shared ((c.set t s l).loc u)) =
      Function.update (fun u => g c.shared (c.loc u)) v (.done res) := by
    funext u
    by_cases huv : u = v
    · subst huv; simpa using hv
    · simpa [huv] using hd u huv
  rw [hs]
  have := Linearized.step (r := ⟨t, .tau, c, c.set t s l⟩) hL (.tau _)
    (.cons (e := ⟨v, o, res⟩) (by simpa using hp) (.nil _)) (.single ha) (.tau _)
  simpa using this

theorem LinearizedBy.ret (hp : g c.shared (c.loc t) = .done res) (hg : g s l = .idle)
    (ha : abs s = abs c.shared)
    (hd : ∀ u, u ≠ t → g s (c.loc u) = g c.shared (c.loc u) := by exact fun _ _ => rfl) :
    LinearizedBy spec abs g (⟨t, .ret res, c, c.set t s l⟩ :: h) (c.set t s l) := by
  obtain ⟨H, rfl, hL⟩ := hL
  refine ⟨(_, []) :: H, rfl, ?_⟩
  rw [status_set hd, hg]
  exact hL.ret hp ha

/-- An operation that leaves the state alone, decided at an instant `s₀` since its call. -/
theorem LinearizedBy.read {s₀ : σ} (hs₀ : s₀ ∈ during h t) (hspec : spec (abs s₀) o res (abs s₀))
    (hp : g c.shared (c.loc t) = .called o) (hg : g s l = .done res) (ha : abs s = abs c.shared)
    (hd : ∀ u, u ≠ t → g s (c.loc u) = g c.shared (c.loc u) := by exact fun _ _ => rfl) :
    LinearizedBy spec abs g (⟨t, .tau, c, c.set t s l⟩ :: h) (c.set t s l) := by
  obtain ⟨H, hH, hL⟩ := hL
  obtain ⟨H', rfl, hL'⟩ := hL.read hH hp hs₀ hspec
  refine ⟨(_, []) :: H', rfl, ?_⟩
  rw [status_set hd, hg]
  exact hL'.tau ha
end

/-! ## Objects read off the whole configuration

While an operation holds what belongs to the object in its local state, the object's abstract state
is a function of the configuration, not of the shared state. -/

/-- The configuration as its own shared state. -/
def Config.whole (c : Config ι σ Λ) : Config ι (Config ι σ Λ) Λ := ⟨c, c.loc⟩

/-- The step, with configurations as shared states. -/
def Rec.whole (r : Rec ι σ Λ Op Res) : Rec ι (Config ι σ Λ) Λ Op Res :=
  ⟨r.tid, r.ev, r.pre.whole, r.cfg.whole⟩

/-- A linearization of whole configurations is one legal sequential run. -/
theorem Linearized.legal_whole {P : Program ι σ Λ κ Op Res}
    {ok : List (Rec ι σ Λ Op Res) → Config ι σ Λ → ι → κ → Prop} {c₀ : Config ι σ Λ}
    {abs : Config ι σ Λ → A} {h : List (Rec ι σ Λ Op Res)}
    {H : Annotated ι (Config ι σ Λ) Λ Op Res} (hL : Linearized spec abs H p)
    (hH : H.map Prod.fst = h.map Rec.whole) (hr : P.Run ok c₀ h c) :
    Legal spec (abs c₀) (order H) (abs c) := by
  induction hL generalizing c h with
  | nil =>
    obtain rfl : h = [] := by simpa using hH.symm
    cases hr
    exact .nil _
  | step _ _ _ hlegal _ ih =>
    cases hr with
    | nil => simp at hH
    | cons hrun _ _ =>
      rw [List.map_cons, List.map_cons] at hH
      obtain ⟨rfl, hrest⟩ := List.cons.inj hH
      rw [order_cons]
      exact (ih hrest hrun).append hlegal

end Interleaving
