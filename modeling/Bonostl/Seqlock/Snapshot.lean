import Bonostl.Seqlock.Model

/-!
# Reads of `seqlock`

`sequence_` is the number of `fetch_add`s so far, modulo `2 ^ 32`, and it is odd exactly while a
write section is open (`Inv.sequence`, `Inv.parity`). So a reader whose `read_retry` finds the
sequence of its `read_begin` has met no `fetch_add`, or `2 ^ 32` of them (`retry_consistent`), and
`read_consistent` says what that means of a copy that was returned as valid.

`read_retry` returns true when *no* write overlapped the read, and the loop of the class comment
goes on as long as it does. The loop ends exactly when a write has begun since `read_begin`;
`loop_exit_iff` says when its copy is a snapshot all the same, and `loop_exit_torn` is an exit with
a torn copy.
-/

namespace Bonostl.Seqlock

open Interleaving

variable {ι φ V : Type}

/-! ## Steps of a run -/

/-- The next step enters a write section. -/
def Pc.enters : Pc φ V → Bool
  | .enter => true
  | _ => false

/-- The step between two places leaves a write section. -/
def Pc.leaves : Pc φ V → Pc φ V → Bool
  | .section, .unlock => true
  | _, _ => false

/-- The step is the `fetch_add` of `write_guard`'s constructor. -/
def enters (r : Step ι φ V) : Bool := (r.pre.loc r.tid).enters

/-- The step is the `fetch_add` of `write_guard`'s destructor. -/
def leaves (r : Step ι φ V) : Bool := (r.pre.loc r.tid).leaves (r.cfg.loc r.tid)

/-- How often `sequence_` was raised. -/
def adds (h : List (Step ι φ V)) : ℕ := h.countP fun r => enters r || leaves r

/-- How many write sections were completed. -/
def completed (h : List (Step ι φ V)) : ℕ := h.countP leaves

/-- The records that completed write sections left, and the initial one. -/
def lefts (ρ : φ → V) (h : List (Step ι φ V)) : List (φ → V) :=
  (h.filter leaves).map (fun r => r.cfg.shared.record) ++ [ρ]

/-- The step between two places begins a read. -/
def Pc.begins : Pc φ V → Pc φ V → Bool
  | .begin _, .copy _ _ _ _ => true
  | _, _ => false

/-- The step is the load with which `read_begin` of thread `t` returns. -/
def begins [DecidableEq ι] (t : ι) (r : Step ι φ V) : Bool :=
  (r.pre.loc r.tid).begins (r.cfg.loc r.tid) && r.tid == t

/-- The steps since `read_begin` of thread `t` last returned, that load included. -/
def window [DecidableEq ι] (t : ι) : List (Step ι φ V) → List (Step ι φ V)
  | [] => []
  | r :: h => if begins t r then [r] else r :: window t h

/-- The thread is about to call `read_retry`. -/
def Pc.retries : Pc φ V → Bool
  | .copy _ _ [] _ => true
  | _ => false

/-- The step is the load of `read_retry` of thread `t`. -/
def retries [DecidableEq ι] (t : ι) (r : Step ι φ V) : Bool :=
  (r.pre.loc r.tid).retries && r.tid == t

/-- The steps before the last `read_retry` of thread `t`. -/
def beforeRetry [DecidableEq ι] (t : ι) : List (Step ι φ V) → List (Step ι φ V)
  | [] => []
  | r :: h => if retries t r then h else beforeRetry t h

/-- What thread `t` has copied since its `read_begin` is a snapshot that no write section
overlapped, or `2 ^ 31` sections were completed meanwhile. -/
def Consistent [DecidableEq ι] (fields : List φ) (ρ : φ → V) (t : ι) (copy : List V)
    (h : List (Step ι φ V)) : Prop :=
  ((∀ q ∈ window t h, ∀ u, q.cfg.loc u ≠ .section) ∧ ∃ σ ∈ lefts ρ h, copy = fields.map σ) ∨
    2 ^ 31 ≤ completed (window t h)

/-- A thread still has fields to copy. -/
def Pc.copying : Pc φ V → Bool
  | .copy _ _ (_ :: _) _ => true
  | _ => false

/-- The thread holds `write_mutex_`. -/
def Pc.writer : Pc φ V → Bool
  | .enter | .section | .unlock => true
  | _ => false

/-! ## The invariant -/

section
variable [DecidableEq ι]

/-- What a reader knows after `read_begin`. If no write section began while it was copying, what it
has copied so far is of one record, which a completed section left. -/
structure Reading (fields : List φ) (ρ : φ → V) (h : List (Step ι φ V))
    (c : Config ι (Shared ι φ V) (Pc φ V)) (t : ι) (start : BitVec 32) (todo : List φ)
    (copied : List V) : Prop where
  le : adds (window t h) ≤ adds h
  start : start = BitVec.ofNat 32 (adds h - adds (window t h))
  even : Even (adds h - adds (window t h))
  half : completed (window t h) = adds (window t h) / 2
  clean : (∀ q ∈ window t h, (q.cfg.loc t).copying → enters q = false) →
    (∀ q ∈ window t h, (q.cfg.loc t).copying → ∀ u, q.cfg.loc u ≠ .section) ∧
      ∃ σ ∈ lefts ρ h, ∃ seen, fields = seen ++ todo ∧ copied = (seen.map σ).reverse ∧
        (todo ≠ [] → adds (window t h) = 0 ∧ c.shared.record = σ)
  calm : adds (window t h) = 0 → ∀ q ∈ window t h, ∀ u, q.cfg.loc u ≠ .section

/-- The invariant: `sequence_` counts the entered and left sections, and a reader knows what it has
copied (`Reading`). -/
structure Inv (fields : List φ) (ρ : φ → V) (h : List (Step ι φ V))
    (c : Config ι (Shared ι φ V) (Pc φ V)) : Prop where
  sequence : c.shared.sequence = BitVec.ofNat 32 (adds h)
  parity : (∃ t, c.loc t = .section) ↔ ¬ Even (adds h)
  owner : ∀ t, (c.loc t).writer → c.shared.writeMutex = some t
  stable : (∀ t, c.loc t ≠ .section) → c.shared.record ∈ lefts ρ h
  reading : ∀ t k start todo copied, c.loc t = .copy k start todo copied →
    Reading fields ρ h c t start todo copied

variable {fields : List φ} {ρ : φ → V} {h : List (Step ι φ V)}
  {c : Config ι (Shared ι φ V) (Pc φ V)} {t : ι}

omit [DecidableEq ι] in
theorem adds_cons (r : Step ι φ V) :
    adds (r :: h) = adds h + if enters r || leaves r then 1 else 0 := by
  simp [adds, List.countP_cons]

omit [DecidableEq ι] in
theorem completed_cons (r : Step ι φ V) :
    completed (r :: h) = completed h + if leaves r then 1 else 0 := by
  simp [completed, List.countP_cons]

omit [DecidableEq ι] in
theorem lefts_mono {r : Step ι φ V} {σ : φ → V} (hσ : σ ∈ lefts ρ h) : σ ∈ lefts ρ (r :: h) := by
  unfold lefts at *
  rw [List.filter_cons]
  split
  · exact List.mem_cons_of_mem _ hσ
  · exact hσ

/-- A step by which no reader's window begins. -/
theorem window_cons {r : Step ι φ V} (hr : begins t r = false) :
    window t (r :: h) = r :: window t h := by
  simp [window, hr]

theorem ofNat_and_one {n : ℕ} : BitVec.ofNat 32 n &&& 1 = 0 ↔ Even n := by
  have h1 : (BitVec.ofNat 32 n &&& 1).toNat = n % 2 := by
    simp [Nat.and_one_is_mod]
  rw [← BitVec.toNat_inj, h1, Nat.even_iff]
  simp

theorem ofNat_eq_sub {n k : ℕ} (hk : k ≤ n) (he : BitVec.ofNat 32 n = BitVec.ofNat 32 (n - k)) :
    k = 0 ∨ 2 ^ 32 ≤ k := by
  have hmod : n % 2 ^ 32 = (n - k) % 2 ^ 32 := by
    simpa using congrArg BitVec.toNat he
  omega

section
variable [DecidableEq φ] {s' : Shared ι φ V} {l' : Pc φ V} {ev : Event Op (Res V)}

/-- The record of a step of `t` from `c`. -/
abbrev taken (t : ι) (ev : Event Op (Res V)) (c : Config ι (Shared ι φ V) (Pc φ V))
    (s' : Shared ι φ V) (l' : Pc φ V) : Step ι φ V := ⟨t, ev, c, c.set t s' l'⟩

omit [DecidableEq φ] in
theorem begins_other {u : ι} (hu : u ≠ t) : begins u (taken t ev c s' l') = false := by
  simp [begins, hu.symm]

omit [DecidableEq φ] in
/-- Nobody is in a write section while `sequence_` has been raised an even number of times. -/
theorem Inv.closed (hI : Inv fields ρ h c) (he : Even (adds h)) (u : ι) : c.loc u ≠ .section :=
  fun hu => hI.parity.mp ⟨u, hu⟩ he

omit [DecidableEq φ] in
/-- The thread about to enter its section is alone. -/
theorem Inv.enter_even (hI : Inv fields ρ h c) (ht : c.loc t = .enter) : Even (adds h) := by
  by_contra hodd
  obtain ⟨u, hu⟩ := hI.parity.mpr hodd
  have h1 := hI.owner u (by rw [hu]; rfl)
  have h2 := hI.owner t (by rw [ht]; rfl)
  obtain rfl : u = t := Option.some.inj (h1.symm.trans h2)
  rw [ht] at hu
  cases hu

/-- The three kinds of steps: one that leaves `sequence_` alone, and the two `fetch_add`s. -/
inductive Kind (h : List (Step ι φ V)) (c : Config ι (Shared ι φ V) (Pc φ V)) (t : ι)
    (r : Step ι φ V) (s' : Shared ι φ V) (l' : Pc φ V) : Prop
  | quiet (he : enters r = false) (hl : leaves r = false)
      (hs : s'.sequence = c.shared.sequence) (hr : Even (adds h) → s'.record = c.shared.record)
      (hc : l' = .section ↔ c.loc t = .section)
  | enter (he : enters r = true) (hl : leaves r = false) (hev : Even (adds h))
      (hs : s'.sequence = c.shared.sequence + 1) (hr : s'.record = c.shared.record)
      (hc : l' = .section)
  | leave (he : enters r = false) (hl : leaves r = true) (hodd : ¬ Even (adds h))
      (hs : s'.sequence = c.shared.sequence + 1) (hr : s'.record = c.shared.record)
      (hc : l' = .unlock) (hpc : c.loc t = .section)

theorem Inv.kind (hI : Inv fields ρ h c) (hm : Move fields t c.shared ev (c.loc t) s' l') :
    Kind h c t (taken t ev c s' l') s' l' := by
  generalize hft : c.loc t = pc at hm
  have h1 : enters (taken t ev c s' l') = pc.enters := by rw [← hft]; rfl
  have h2 : leaves (taken t ev c s' l') = pc.leaves l' := by rw [← hft]; simp [Seqlock.leaves]
  cases hm with
  | enter => exact .enter h1 h2 (hI.enter_even hft) rfl rfl rfl
  | leave => exact .leave h1 h2 (hI.parity.mp ⟨t, hft⟩) rfl rfl rfl hft
  | field x v =>
    exact .quiet h1 h2 rfl (fun he => absurd hft (hI.closed he t)) (by simp [hft])
  | retry k start copied =>
    refine .quiet h1 ?_ rfl (fun _ => rfl) ?_
    · rw [h2]
      simp [Pc.leaves]
    · rw [hft]
      cases k with
      | once => simp [Reader.resume]
      | loop => simp only [Reader.resume]; split <;> simp
  | _ => exact .quiet h1 h2 rfl (fun _ => rfl) (by simp [hft])

omit [DecidableEq φ] in
/-- A step of another thread, seen by a reader. -/
theorem Reading.other {u : ι} {k : Reader} {start : BitVec 32} {todo : List φ} {copied : List V}
    (hI : Inv fields ρ h c) (hk : Kind h c t (taken t ev c s' l') s' l') (hu : u ≠ t)
    (hpc : c.loc u = .copy k start todo copied) :
    Reading fields ρ (taken t ev c s' l' :: h) (c.set t s' l') u start todo copied := by
  obtain ⟨hle, hst, heven, hhalf, hclean, hcalm⟩ := hI.reading u k start todo copied hpc
  have hw : window u (taken t ev c s' l' :: h) = taken t ev c s' l' :: window u h :=
    window_cons (begins_other hu)
  have hloc : (taken t ev c s' l').cfg.loc u = c.loc u := Config.set_loc_ne c hu s' l'
  have hcp : (c.loc u).copying = !todo.isEmpty := by
    rw [hpc]
    cases todo <;> rfl
  have hpar := Nat.even_sub hle
  -- nobody is in a section after a quiet step that began with an even sequence
  have hopen : Even (adds h) → enters (taken t ev c s' l') = false →
      ∀ v, (c.set t s' l').loc v ≠ .section := by
    intro he hne v hv
    by_cases hvt : v = t
    · subst hvt
      rw [Config.set_loc_self] at hv
      cases hk with
      | quiet _ _ _ _ hc => exact hI.closed he v (hc.mp hv)
      | enter he' => rw [hne] at he'; cases he'
      | leave _ _ hodd => exact hodd he
    · rw [Config.set_loc_ne c hvt] at hv
      exact hI.closed he v hv
  refine ⟨?_, ?_, ?_, ?_, ?_, ?_⟩
  · rw [hw, adds_cons, adds_cons]
    omega
  · rw [hw, adds_cons, adds_cons, Nat.add_sub_add_right]
    exact hst
  · rw [hw, adds_cons, adds_cons, Nat.add_sub_add_right]
    exact heven
  · rw [hw, adds_cons, completed_cons, hhalf]
    cases hk with
    | quiet he hl => simp [he, hl]
    | enter he hl hev =>
      have := Nat.even_iff.mp ((hpar.mp heven).mp hev)
      simp only [he, hl, Bool.true_or, if_true, Bool.false_eq_true, if_false]
      omega
    | leave he hl hodd =>
      have : ¬ Even (adds (window u h)) := fun e => hodd ((hpar.mp heven).mpr e)
      rw [Nat.not_even_iff] at this
      simp only [he, hl, Bool.or_true, if_true]
      omega
  · rw [hw]
    intro hq
    obtain ⟨h1, σ, hσ, seen, h2, h3, h4⟩ :=
      hclean fun q hm => hq q (List.mem_cons_of_mem _ hm)
    -- while the reader is copying, the step is quiet
    have hnow : todo ≠ [] → enters (taken t ev c s' l') = false ∧ adds (window u h) = 0 ∧
        c.shared.record = σ ∧ Even (adds h) := by
      intro hne
      obtain ⟨h5, h6⟩ := h4 hne
      refine ⟨hq _ List.mem_cons_self ?_, h5, h6, ?_⟩
      · rw [hloc, hcp]
        simpa using hne
      · rw [h5, Nat.sub_zero] at heven
        exact heven
    refine ⟨fun q hm hcop => ?_, σ, lefts_mono hσ, seen, h2, h3, fun hne => ?_⟩
    · rcases List.mem_cons.mp hm with rfl | hm
      · rw [hloc, hcp] at hcop
        obtain ⟨h5, -, -, h6⟩ := hnow (by simpa using hcop)
        exact hopen h6 h5
      · exact h1 q hm hcop
    · obtain ⟨h5, h6, h7, h8⟩ := hnow hne
      cases hk with
      | quiet he hl _ hr =>
        rw [adds_cons, he, hl]
        exact ⟨by simpa using h6, (hr h8).trans h7⟩
      | enter he => rw [h5] at he; cases he
      | leave _ _ hodd => exact absurd h8 hodd
  · rw [hw, adds_cons]
    intro hz q hm
    have hz' : adds (window u h) = 0 ∧ enters (taken t ev c s' l') = false := by
      split at hz
      · omega
      · rename_i hno
        exact ⟨by omega, by simpa using (Bool.or_eq_false_iff.mp (by simpa using hno)).1⟩
    rcases List.mem_cons.mp hm with rfl | hm
    · have he : Even (adds h) := by
        rw [hz'.1, Nat.sub_zero] at heven
        exact heven
      exact hopen he hz'.2
    · exact hcalm hz'.1 q hm

/-- What the reader itself knows after a step. -/
theorem Reading.mine (hI : Inv fields ρ h c) (hm : Move fields t c.shared ev (c.loc t) s' l')
    {k : Reader} {start : BitVec 32} {todo : List φ} {copied : List V}
    (hl : l' = .copy k start todo copied) :
    Reading fields ρ (taken t ev c s' l' :: h) (c.set t s' l') t start todo copied := by
  have hk := hI.kind hm
  generalize hft : c.loc t = pc at hm
  have hbeg : begins t (taken t ev c s' l') = pc.begins l' := by
    rw [← hft]
    simp [begins]
  cases hm with
  | begin k' hs =>
    obtain ⟨rfl, rfl, rfl, rfl⟩ := Pc.copy.inj hl
    have hw : window t (taken t .tau c c.shared (.copy k' c.shared.sequence fields []) :: h) =
        [taken t .tau c c.shared (.copy k' c.shared.sequence fields [])] := by
      simp [window, hbeg, Pc.begins]
    rw [hI.sequence, ofNat_and_one] at hs
    cases hk with
    | enter he _ _ _ _ hc => cases hc
    | leave _ _ _ _ _ hc => cases hc
    | quiet he hl' _ _ _ =>
      have hz : adds [taken t .tau c c.shared (.copy k' c.shared.sequence fields [])] = 0 := by
        rw [adds_cons, he, hl']; rfl
      have ha : adds (taken t .tau c c.shared (.copy k' c.shared.sequence fields []) :: h) =
          adds h := by rw [adds_cons, he, hl']; rfl
      have hopen : ∀ v,
          (c.set t c.shared (.copy k' c.shared.sequence fields [])).loc v ≠ .section := by
        refine Config.forall_set (p := fun _ l => l ≠ Pc.section) (by simp) fun u _ =>
          hI.closed hs u
      refine ⟨?_, ?_, ?_, ?_, ?_, ?_⟩
      · rw [hw, hz]; exact Nat.zero_le _
      · rw [hw, hz, ha, Nat.sub_zero]; exact hI.sequence
      · rw [hw, hz, ha, Nat.sub_zero]; exact hs
      · rw [hw, hz, completed_cons, hl']; rfl
      · rw [hw]
        refine fun _ => ⟨fun q hq _ => ?_, c.shared.record, lefts_mono (hI.stable (hI.closed hs)),
          [], rfl, rfl, fun _ => ⟨hz, rfl⟩⟩
        rw [List.mem_singleton.mp hq]
        exact hopen
      · rw [hw]
        intro _ q hq
        rw [List.mem_singleton.mp hq]
        exact hopen
  | copy k' start' x todo' copied' =>
    obtain ⟨rfl, rfl, rfl, rfl⟩ := Pc.copy.inj hl
    obtain ⟨hle, hst, heven, hhalf, hclean, hcalm⟩ := hI.reading t _ _ _ _ hft
    have hw := window_cons (h := h) hbeg
    cases hk with
    | enter he _ _ _ _ hc => cases hc
    | leave _ _ _ _ _ hc => cases hc
    | quiet he hl' _ _ _ =>
      have ha : ∀ g, adds (taken t .tau c c.shared
          (.copy k' start' todo' (c.shared.record x :: copied')) :: g) = adds g := fun g => by
        rw [adds_cons, he, hl']; rfl
      have hopen : Even (adds h) → ∀ v, (c.set t c.shared
          (.copy k' start' todo' (c.shared.record x :: copied'))).loc v ≠ .section := fun hs =>
        Config.forall_set (p := fun _ l => l ≠ Pc.section) (by simp) fun u _ => hI.closed hs u
      have hev : adds (window t h) = 0 → Even (adds h) := fun hz => by
        rw [hz, Nat.sub_zero] at heven
        exact heven
      refine ⟨?_, ?_, ?_, ?_, ?_, ?_⟩
      · rw [hw, ha, ha]; exact hle
      · rw [hw, ha, ha]; exact hst
      · rw [hw, ha, ha]; exact heven
      · rw [hw, ha, completed_cons, hl', hhalf]; rfl
      · rw [hw, ha]
        intro hq
        obtain ⟨h1, σ, hσ, seen, h2, h3, h4⟩ :=
          hclean fun q hm => hq q (List.mem_cons_of_mem _ hm)
        obtain ⟨h5, h6⟩ := h4 (by simp)
        refine ⟨fun q hm hcop => ?_, σ, lefts_mono hσ, seen ++ [x], by simp [h2], ?_,
          fun _ => ⟨h5, h6⟩⟩
        · rcases List.mem_cons.mp hm with rfl | hm
          · exact hopen (hev h5)
          · exact h1 q hm hcop
        · rw [h3, h6]
          simp
      · rw [hw, ha]
        intro hz q hm
        rcases List.mem_cons.mp hm with rfl | hm
        · exact hopen (hev hz)
        · exact hcalm hz q hm
  | retry k' start' copied' =>
    cases k' with
    | once => cases hl
    | loop =>
      simp only [Reader.resume] at hl
      split at hl <;> cases hl
  | _ => cases hl

/-- Writers hold the mutex. -/
theorem owner_move (hI : Inv fields ρ h c) (hm : Move fields t c.shared ev (c.loc t) s' l') (u : ι)
    (hu : ((c.set t s' l').loc u).writer) : (c.set t s' l').shared.writeMutex = some u := by
  have hold := hI.owner
  have hother : u ≠ t → (c.loc u).writer := fun hut => by rwa [Config.set_loc_ne c hut] at hu
  have hmine : u = t → l'.writer := fun hut => by rwa [hut, Config.set_loc_self] at hu
  rw [Config.set_shared]
  generalize hft : c.loc t = pc at hm
  have htw : pc.writer → c.shared.writeMutex = some t := fun hp => hold t (by rw [hft]; exact hp)
  cases hm with
  | lock hm =>
    by_cases hut : u = t
    · rw [hut]
    · have := hold u (hother hut)
      rw [hm] at this
      cases this
  | unlock =>
    by_cases hut : u = t
    · exact absurd (hmine hut) (by simp [Pc.writer])
    · have h1 := hold u (hother hut)
      have h2 := htw rfl
      exact absurd (Option.some.inj (h1.symm.trans h2)) hut
  | enter | field x v | leave =>
    by_cases hut : u = t
    · rw [hut]; exact htw rfl
    · exact hold u (hother hut)
  | retry k start copied =>
    by_cases hut : u = t
    · refine absurd (hmine hut) ?_
      cases k with
      | once => simp [Reader.resume, Pc.writer]
      | loop => simp only [Reader.resume]; split <;> simp [Pc.writer]
    · exact hold u (hother hut)
  | _ =>
    by_cases hut : u = t
    · exact absurd (hmine hut) (by simp [Pc.writer])
    · exact hold u (hother hut)

theorem inv_move (hI : Inv fields ρ h c) (hm : Move fields t c.shared ev (c.loc t) s' l') :
    Inv fields ρ (taken t ev c s' l' :: h) (c.set t s' l') := by
  have hk := hI.kind hm
  refine ⟨?_, ?_, ?_, ?_, ?_⟩
  · rw [adds_cons]
    cases hk with
    | quiet he hl hs => simpa [he, hl, hs] using hI.sequence
    | enter he hl _ hs => simp [he, hl, hs, hI.sequence, BitVec.ofNat_add]
    | leave he hl _ hs => simp [he, hl, hs, hI.sequence, BitVec.ofNat_add]
  · rw [adds_cons]
    cases hk with
    | quiet he hl _ _ hc =>
      rw [he, hl, Bool.or_self, if_neg Bool.false_ne_true, Nat.add_zero, ← hI.parity]
      refine exists_congr fun u => ?_
      by_cases hut : u = t
      · subst hut; rw [Config.set_loc_self]; exact hc
      · rw [Config.set_loc_ne c hut]
    | enter he hl hev _ _ hc =>
      rw [he, Bool.true_or, if_pos rfl, Nat.even_add_one, not_not]
      exact iff_of_true ⟨t, by rw [Config.set_loc_self]; exact hc⟩ hev
    | leave he hl hodd _ _ hc hpc =>
      rw [hl, Bool.or_true, if_pos rfl, Nat.even_add_one, not_not]
      refine iff_of_false ?_ hodd
      rintro ⟨u, hu⟩
      by_cases hut : u = t
      · subst hut; rw [Config.set_loc_self, hc] at hu; cases hu
      · rw [Config.set_loc_ne c hut] at hu
        have h1 := hI.owner u (by rw [hu]; rfl)
        have h2 := hI.owner t (by rw [hpc]; rfl)
        exact hut (Option.some.inj (h1.symm.trans h2))
  · exact owner_move hI hm
  · intro hno
    cases hk with
    | quiet he hl _ hr hc =>
      have hbefore : ∀ u, c.loc u ≠ .section := by
        intro u hu
        by_cases hut : u = t
        · subst hut; exact hno u (by rw [Config.set_loc_self]; exact hc.mpr hu)
        · exact hno u (by rw [Config.set_loc_ne c hut]; exact hu)
      have hev : Even (adds h) := by
        by_contra hodd
        obtain ⟨u, hu⟩ := hI.parity.mpr hodd
        exact hbefore u hu
      rw [Config.set_shared, hr hev]
      exact lefts_mono (hI.stable hbefore)
    | enter _ _ _ _ _ hc => exact absurd hc (by simpa using hno t)
    | leave _ hl =>
      unfold lefts
      rw [List.filter_cons, if_pos hl]
      exact List.mem_cons_self
  · intro u k start todo copied hu
    by_cases hut : u = t
    · subst hut
      rw [Config.set_loc_self] at hu
      exact Reading.mine hI hm hu
    · rw [Config.set_loc_ne c hut] at hu
      exact Reading.other hI hk hut hu

theorem inv_run (hr : (program fields).Run Program.anyStep (initial ρ) h c) : Inv fields ρ h c := by
  refine Program.Run.induction ?_ ?_ hr
  · exact ⟨rfl, by simp [initial, adds], nofun, fun _ => by simp [initial, lefts], nofun⟩
  · intro h c t k ev s' l' _ hI _ hs
    exact inv_move hI (step_move hs)

variable {r : Step ι φ V} {k : Reader} {start : BitVec 32} {copied copy : List V}

/-- A `read_retry` that finds the sequence of its `read_begin`. -/
theorem retry_consistent (hr : (program fields).Run Program.anyStep (initial ρ) h c)
    (hcall : c.loc t = .copy k start [] copied) (hvalid : (c.shared.sequence == start) = true) :
    Consistent fields ρ t copied.reverse h := by
  have hI := inv_run hr
  obtain ⟨hle, hst, heven, hhalf, hclean, hcalm⟩ := hI.reading _ _ _ _ _ hcall
  have heq := eq_of_beq hvalid
  rw [hI.sequence, hst] at heq
  rcases ofNat_eq_sub hle heq with hz | hbig
  · left
    refine ⟨hcalm hz, ?_⟩
    have hnone : ∀ q ∈ window t h, enters q = false := by
      intro q hq
      have := List.countP_eq_zero.mp hz q hq
      exact (Bool.or_eq_false_iff.mp (by simpa using this)).1
    obtain ⟨-, σ, hσ, seen, h2, h3, -⟩ := hclean fun q hq _ => hnone q hq
    refine ⟨σ, hσ, ?_⟩
    rw [h3, h2]
    simp
  · right
    rw [hhalf]
    omega

omit [DecidableEq φ] in
theorem beforeRetry_other {r : Step ι φ V} (hr : r.tid ≠ t) :
    beforeRetry t (r :: h) = beforeRetry t h := by
  simp [beforeRetry, retries, hr]

omit [DecidableEq φ] in
theorem beforeRetry_mine {r : Step ι φ V} (hr : retries t r = true) :
    beforeRetry t (r :: h) = h := by
  simp [beforeRetry, hr]

omit [DecidableEq ι] in
/-- Only `read_retry` validates a read. -/
theorem Move.validates {s s' : Shared ι φ V} {l : Pc φ V} {ev : Event Op (Res V)}
    (hm : Move fields t s ev l s' (.done (.read true copy))) :
    ∃ start copied, l = .copy .once start [] copied ∧ (s.sequence == start) = true ∧
      copy = copied.reverse := by
  generalize hl : Pc.done (.read true copy) = l' at hm
  cases hm with
  | retry k start copied =>
    cases k with
    | once =>
      obtain ⟨hvalid, rfl⟩ := Res.read.inj (Pc.done.inj hl)
      exact ⟨start, copied, rfl, hvalid.symm, rfl⟩
    | loop =>
      simp only [Reader.resume] at hl
      split at hl <;> cases hl
  | _ => cases hl

omit [DecidableEq ι] in
/-- The loop goes on when `read_retry` returns true. -/
theorem Move.goes_on {s s' : Shared ι φ V} {l' : Pc φ V} {ev : Event Op (Res V)}
    (hm : Move fields t s ev (.copy .loop start [] copied) s' l') (hl : l' = .begin .loop) :
    (s.sequence == start) = true := by
  cases hm with
  | retry =>
    simp only [Reader.resume] at hl
    split at hl
    · assumption
    · cases hl

/-- What a read is about to return was found by its `read_retry`. -/
theorem done_consistent (hr : (program fields).Run Program.anyStep (initial ρ) h c)
    (hdone : c.loc t = .done (.read true copy)) :
    Consistent fields ρ t copy (beforeRetry t h) := by
  induction hr generalizing t copy with
  | nil => cases hdone
  | @cons h c u x ev s l hrun _ hs ih =>
    by_cases htu : t = u
    · subst htu
      rw [Config.set_loc_self] at hdone
      subst hdone
      obtain ⟨start, copied, hpc, hvalid, rfl⟩ := (step_move hs).validates
      rw [beforeRetry_mine (by simp [retries, hpc, Pc.retries])]
      exact retry_consistent hrun hpc hvalid
    · rw [Config.set_loc_ne c htu] at hdone
      rw [beforeRetry_other (Ne.symm htu)]
      exact ih hdone

/-- **A validated read is a snapshot.** When a read returns `true` and a copy, either no write
section was open at any instant between its `read_begin` and its `read_retry`, and the copy is the
record as a completed section or the initial state left it, or `2 ^ 31` sections were completed in
between. The loop of the class comment goes on after such a copy. -/
theorem read_consistent (hr : (program fields).Run Program.anyStep (initial ρ) (r :: h) c) :
    (∀ copy, r.ev = .ret (.read true copy) →
      Consistent fields ρ r.tid copy (beforeRetry r.tid h)) ∧
    ∀ start copied, r.pre.loc r.tid = .copy .loop start [] copied →
      r.cfg.loc r.tid = .begin .loop → Consistent fields ρ r.tid copied.reverse h := by
  cases hr with
  | @cons _ c u x ev s l hrun _ hs =>
    have hm := step_move hs
    dsimp only
    rw [Config.set_loc_self]
    refine ⟨fun copy hev => ?_, fun start copied hpc hl => ?_⟩
    · subst hev
      refine done_consistent hrun ?_
      generalize c.loc u = pc at hm
      cases hm
      rfl
    · have hstep := step_move hs
      rw [hpc] at hstep
      exact retry_consistent hrun hpc (hstep.goes_on hl)

/-- A section is open right after the `fetch_add` that opens it. -/
theorem enters_opens (hr : (program fields).Run Program.anyStep (initial ρ) h c) {q : Step ι φ V}
    (hq : q ∈ h) (he : enters q = true) : q.cfg.loc q.tid = .section := by
  induction hr with
  | nil => cases hq
  | @cons h c t k ev s' l' _ _ hs ih =>
    rcases List.mem_cons.mp hq with rfl | hq
    · have hm := step_move hs
      change (c.loc t).enters = true at he
      generalize c.loc t = pc at hm he
      cases hm with
      | enter => exact Config.set_loc_self _ _ _ _
      | _ => cases he
    · exact ih hq

omit [DecidableEq φ] in
theorem window_subset {q : Step ι φ V} (hq : q ∈ window t h) : q ∈ h := by
  induction h with
  | nil => exact hq
  | cons r h ih =>
    unfold window at hq
    split at hq
    · rw [List.mem_singleton.mp hq]
      exact List.mem_cons_self
    · rcases List.mem_cons.mp hq with rfl | hq
      · exact List.mem_cons_self
      · exact List.mem_cons_of_mem _ (ih hq)

/-- **The loop of the class comment.** When the loop exits, its copy was overlapped by no write
section and is the record as a completed section or the initial state left it, exactly when no
section began while it was copying. -/
theorem loop_exit_iff (hr : (program fields).Run Program.anyStep (initial ρ) (r :: h) c)
    (hexit : r.cfg.loc r.tid = .done (.loop copy)) :
    ((∀ q ∈ window r.tid h, (q.cfg.loc r.tid).copying → ∀ u, q.cfg.loc u ≠ .section) ∧
        ∃ σ ∈ lefts ρ h, copy = fields.map σ) ↔
      ∀ q ∈ window r.tid h, (q.cfg.loc r.tid).copying → enters q = false := by
  cases hr with
  | @cons _ c' t' k' ev' s'' l'' hrun _ hs =>
    dsimp only at hexit ⊢
    rw [Config.set_loc_self] at hexit
    have hI := inv_run hrun
    have hm := step_move hs
    generalize hft : c'.loc t' = pc at hm
    constructor
    · rintro ⟨hcalm, -⟩ q hq hcop
      by_contra he
      have hin := enters_opens hrun (window_subset hq) (by simpa using he)
      exact hcalm q hq hcop q.tid hin
    · intro hno
      cases hm with
      | retry k start copied =>
        cases k with
        | once => cases hexit
        | loop =>
          simp only [Reader.resume] at hexit
          split at hexit
          · cases hexit
          · obtain rfl := Res.loop.inj (Pc.done.inj hexit)
            obtain ⟨h1, σ, hσ, seen, h2, h3, -⟩ := (hI.reading _ _ _ _ _ hft).clean hno
            refine ⟨h1, σ, hσ, ?_⟩
            rw [h3, h2]
            simp
      | _ => cases hexit
end

end

/-! ## Runs of one reader and one writer -/

/-- A record of two fields, both zero. -/
def start₀ : Config Bool (Shared Bool Bool ℕ) (Pc Bool ℕ) := initial fun _ => 0

/-- Thread `true` writes 1 in both fields, in one section. -/
def writeBoth : List (Bool × Choice Bool ℕ) :=
  [(true, .call .write), (true, .run), (true, .run), (true, .write false 1), (true, .write true 1),
    (true, .run), (true, .run), (true, .run)]

/-- Thread `false` calls `o` and takes `n` steps. -/
def reads (o : Op) (n : ℕ) : List (Bool × Choice Bool ℕ) :=
  (false, .call o) :: List.replicate n (false, .run)

/-- A schedule's last step, with what was read before it. -/
theorem replay_last (sched : List (Bool × Choice Bool ℕ))
    (p : Step Bool Bool ℕ → List (Step Bool Bool ℕ) → Bool)
    (he : (((program [false, true]).replay (fun _ _ _ _ => true) start₀ sched).any fun (h, _) =>
      h.head?.any fun r => p r h.tail) = true) :
    ∃ r h c, (program [false, true]).Run Program.anyStep start₀ (r :: h) c ∧ p r h = true := by
  obtain ⟨⟨h, c⟩, hc, hd⟩ := (Option.any_eq_true _ _).mp he
  obtain ⟨r, hr, hp⟩ := (Option.any_eq_true _ _).mp hd
  obtain ⟨hrun, -⟩ := Program.replay_run Program.anyStep (fun _ _ _ _ _ _ _ => trivial) sched
    .nil hc
  rw [List.append_nil] at hrun
  cases h with
  | nil => cases hr
  | cons r' h' =>
    obtain rfl := Option.some.inj hr
    exact ⟨r', h', c, hrun, hp⟩

theorem read_consistent_after_write :
    ∃ (r : Step Bool Bool ℕ) (h : List (Step Bool Bool ℕ)) (c : _),
      (program [false, true]).Run Program.anyStep start₀ (r :: h) c ∧
        r.ev = .ret (.read true [1, 1]) ∧
        Consistent [false, true] (fun _ => 0) r.tid [1, 1] (beforeRetry r.tid h) := by
  obtain ⟨r, h, c, hr, hp⟩ := replay_last (writeBoth ++ reads .read 5)
    (fun r _ => r.ev = .ret (.read true [1, 1])) (by decide)
  have hev := of_decide_eq_true hp
  exact ⟨r, h, c, hr, hev, (read_consistent hr).1 _ hev⟩

/-- The loop exits with a torn copy: a section began after the first field was copied. -/
theorem loop_exit_torn :
    ¬ ∀ (r : Step Bool Bool ℕ) (h : List (Step Bool Bool ℕ)) (c : _) (copy : List ℕ),
      (program [false, true]).Run Program.anyStep start₀ (r :: h) c →
        r.cfg.loc r.tid = .done (.loop copy) → completed (window r.tid h) < 2 ^ 31 →
          (∀ q ∈ window r.tid h, (q.cfg.loc r.tid).copying → ∀ u, q.cfg.loc u ≠ .section) ∧
            ∃ σ ∈ lefts (fun _ => 0) h, copy = [false, true].map σ := by
  intro hall
  obtain ⟨r, h, c, hr, hp⟩ := replay_last
    (reads .loop 2 ++ writeBoth ++ [(false, Choice.run), (false, Choice.run)])
    (fun r h => r.cfg.loc r.tid = .done (.loop [0, 1]) ∧ completed (window r.tid h) < 2 ^ 31 ∧
      (window r.tid h).any fun q => (q.cfg.loc r.tid).copying && q.cfg.loc true == .section)
    (by decide)
  obtain ⟨hexit, hfew, hover⟩ := of_decide_eq_true hp
  obtain ⟨q, hq, hq'⟩ := List.any_eq_true.mp hover
  obtain ⟨hcop, hsec⟩ := Bool.and_eq_true_iff.mp hq'
  exact (hall r h c _ hr hexit hfew).1 q hq hcop true (eq_of_beq hsec)

/-- The loop exits with a snapshot when the section begins after the copy. -/
theorem loop_exit_iff_late :
    ∃ (r : Step Bool Bool ℕ) (h : List (Step Bool Bool ℕ)) (c : _),
      (program [false, true]).Run Program.anyStep start₀ (r :: h) c ∧
        r.cfg.loc r.tid = .done (.loop [0, 0]) ∧
        ∃ σ ∈ lefts (fun _ => 0) h, [0, 0] = [false, true].map σ := by
  obtain ⟨r, h, c, hr, hp⟩ := replay_last (reads .loop 3 ++ writeBoth ++ [(false, Choice.run)])
    (fun r h => r.cfg.loc r.tid = .done (.loop [0, 0]) ∧
      (window r.tid h).all fun q => !(q.cfg.loc r.tid).copying || !enters q) (by decide)
  obtain ⟨hexit, hno⟩ := of_decide_eq_true hp
  refine ⟨r, h, c, hr, hexit, ((loop_exit_iff hr hexit).mpr fun q hq hcop => ?_).2⟩
  have := List.all_eq_true.mp hno q hq
  rw [hcop] at this
  simpa using this

end Bonostl.Seqlock
