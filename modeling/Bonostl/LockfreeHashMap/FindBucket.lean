import Bonostl.Interleaving.Termination
import Bonostl.LockfreeHashMap.Ancestors

/-!
# `find_bucket` comes back

A call of `find_bucket` by a thread that runs alone, for any bucket, from a state that the thread
has reached. `Inside` is the invariant of the call until it returns: the list is
`Rooted`, and the open calls lead up to the one that was made (`Budget`). Every step of the call
lowers the `cost` (`Inside.lowers`), and there is a next step (`Inside.goes`), so the call returns.

`find_bucket_returns` puts the bounds of `Frames.lean` and the sentinels of `Ancestors.lean`
together.
-/

namespace Bonostl.LockfreeHashMap

open Interleaving HazardPtr HarrisMichael Chain

variable {ι K V : Type}

/-! ## One call -/

/-- The bucket of the call that is looked at. -/
def Root (o : Op K V) (b : Word) (o' : Op K V) (b' : Word) : Prop := o' = o ∧ b' = b

/-- The call of `find_bucket` of `b` in operation `o` has returned `n`. -/
def Returns (o : Op K V) (b : Word) (n : ℕ) (lc : Local K V) : Prop :=
  lc.pc = .destroy 0 (.bucket o b [] n)

/-- The only choice there is for a place of `find_bucket` that neither searches nor allocates. -/
def Pc.plain : Pc K V → Bool
  | .claim _ _ _ | .setNext _ _ _ | .link _ _ _ | .destroy _ _ | .disown _ _ => true
  | _ => false

theorem buckets_findBucket (o : Op K V) (b : Word) (bs : List Word) :
    (findBucket o b bs).buckets = b :: bs := by
  unfold findBucket
  split
  · rename_i hb
    rw [hb]
    rfl
  · rfl

section
variable [LT K] [DecidableLT K] [Inhabited K] {hash : K → Word} {s s' : Shared ι K V} {t : ι}
  {k k' : Choice K V} {ev : Event (Op K V) (Res V)} {lc lc' : Local K V} {o : Op K V} {b : Word}
  {bs : List Word} {l : List ℕ}

/-- A call is left by its return alone. -/
theorem Move.opened (hm : Move hash t s k ev lc s' lc') (hl : lc.pc.buckets ≠ [])
    (hret : ∀ o b n, lc.pc ≠ .destroy 0 (.bucket o b [] n))
    (hcalm : lc'.pc.result? ≠ some .noHazardPointers) : lc'.pc.buckets ≠ [] := by
  have hfind : ∀ o b bs, (findBucket (K := K) (V := V) o b bs).buckets ≠ [] := by
    intro o b bs h
    rw [buckets_findBucket] at h
    cases h
  cases hm with
  | claim w second =>
    cases w with
    | bucket o b bs => cases second <;> exact List.cons_ne_nil _ _
    | _ => exact absurd rfl hl
  | claimNext w =>
    cases w with
    | bucket o b bs => exact List.cons_ne_nil _ _
    | _ => exact absurd rfl hl
  | claimNone => exact absurd rfl hcalm
  | destroyed slots a =>
    cases a with
    | result => exact absurd rfl hl
    | bucket o b bs n =>
      cases bs with
      | nil => exact absurd rfl (hret o b n)
      | cons b' bs => exact List.cons_ne_nil _ _
  | destroy i slots m a =>
    cases a with
    | result => exact absurd rfl hl
    | bucket => exact List.cons_ne_nil _ _
  | disown i slots m a =>
    cases a with
    | result => exact absurd rfl hl
    | bucket => exact List.cons_ne_nil _ _
  | find i w =>
    cases w with
    | data => exact absurd rfl hl
    | _ => exact List.cons_ne_nil _ _
  | resume i w p c found pred curr =>
    cases w with
    | data => exact absurd rfl hl
    | anchor => exact List.cons_ne_nil _ _
    | sentinel o b bs =>
      simp only [Search.resume]
      split
      · split
        · exact List.cons_ne_nil _ _
        · exact hfind _ _ _
      · exact hfind _ _ _
  | newSentinel => exact List.cons_ne_nil _ _
  | setNext i w | link i w | linkFail i w =>
    cases w with
    | put => exact absurd rfl hl
    | sentinel => exact List.cons_ne_nil _ _
  | deleteSentinel => exact List.cons_ne_nil _ _
  | _ => exact absurd rfl hl

/-- A step of a search, or the end of it. -/
theorem step_find {i : List ℕ} {w : Search K V} {f : Find}
    (hs : step hash t k s ⟨i, .find w f⟩ = some (ev, s', lc')) :
    (∃ sp m' f', f.step (w.query hash) sp s.mem = some (m', f') ∧ s' = { s with mem := m' } ∧
      lc' = ⟨i, .find w f'⟩) ∨
    ∃ found pred curr, f.place = .result found pred curr ∧ s' = s ∧
      lc' = ⟨i, w.resume s found pred curr⟩ := by
  cases k with
  | run =>
    simp only [step] at hs
    split at hs
    · cases hs
      exact .inl ⟨false, _, _, ‹_›, rfl, rfl⟩
    · split at hs
      · cases hs
        exact .inr ⟨_, _, _, ‹_›, rfl, rfl⟩
      · cases hs
  | spurious =>
    simp only [step] at hs
    split at hs
    · cases hs
      exact .inl ⟨true, _, _, ‹_›, rfl, rfl⟩
    · cases hs
  | _ => cases hs

theorem step_plain (hpc : lc.pc.plain = true) (hs : step hash t k s lc = some (ev, s', lc')) :
    k = .run := by
  obtain ⟨i, pc⟩ := lc
  cases pc with
  | claim | setNext | link =>
    cases k with
    | run => rfl
    | _ => cases hs
  | destroy | disown => cases step_move hash hs <;> rfl
  | _ => cases hpc

/-- Where there is one step, it is the one that brings the thread nearer to the end. -/
theorem Goes.lowers (hg : Goes hash t s lc) (hpc : lc.pc.plain = true)
    (hs : step hash t k s lc = some (ev, s', lc')) : cost hash s' lc' < cost hash s lc := by
  obtain ⟨k', ev', s₁, l₁, hs₁, -, hlt⟩ := hg
  obtain rfl := step_plain hpc hs
  obtain rfl := step_plain hpc hs₁
  rw [hs] at hs₁
  cases hs₁
  exact hlt

/-- **The invariant** of the call. -/
structure Inside (hash : K → Word) (o : Op K V) (b : Word) (s : Shared ι K V) (lc : Local K V) :
    Prop where
  rooted : ∃ l, Rooted hash s.mem lc.pc l
  budget : Budget (Root o b) s lc
  finite : {a | s.mem.alive a = true}.Finite
  opened : lc.pc.buckets ≠ []

/-- While it has not returned, no open call has left it. -/
theorem Inside.not_returned (h : Inside hash o b s lc) (hret : ∀ n, ¬ Returns o b n lc) :
    ∀ o' b' n, lc.pc ≠ .destroy 0 (.bucket o' b' [] n) := by
  intro o' b' n hpc
  have hst := h.budget.framed
  rw [hpc] at hst
  obtain ⟨-, -, rfl, rfl⟩ := hst
  exact hret n hpc

/-- **A step of the call** keeps the invariant. -/
theorem Inside.step (h : Inside hash o b s lc) (hb : b.toNat < 2 ^ 32)
    (hret : ∀ n, ¬ Returns o b n lc)
    (hs : LockfreeHashMap.step hash t k s lc = some (ev, s', lc')) : Inside hash o b s' lc' := by
  obtain ⟨l, hl⟩ := h.rooted
  have hm := step_move hash hs
  have hbits : ∀ o' b', Root o b o' b' → b'.cpop.toNat ≤ 32 := by
    rintro o' b' ⟨-, rfl⟩
    exact cpop_le hb
  have hbudget := h.budget.step hbits (fun o' hpc => absurd (by rw [hpc]; rfl) h.opened) hs
  exact ⟨hl.step h.budget.framed hs, hbudget, hm.alive_finite h.finite,
    hm.opened h.opened (h.not_returned hret) hbudget.calm⟩

/-- **There is a next step** until the call returns, and it lowers the cost. -/
theorem Inside.goes (h : Inside hash o b s lc) : Goes hash t s lc := by
  obtain ⟨l, hl⟩ := h.rooted
  have hst := h.budget.framed
  have hheld := h.budget.holds
  have hopen := h.opened
  obtain ⟨i, pc⟩ := lc
  have hat := hl.place
  cases pc with
  | claim w second j => exact goes_claim
  | find w f =>
    have hw : ∀ o b bs, w = .sentinel o b bs → b ≠ 0 := by
      rintro o b bs rfl
      exact hst.1
    rcases Find.progress hl.chain (hl.still (by rintro _ _ _ ⟨⟩)).unmarked hat.2 with
      ⟨found, pred, curr, hres⟩ | ⟨m', f', hs, hlt⟩
    · obtain ⟨p, c, place⟩ := f
      cases hres
      exact goes_resume hw
    · have hstep : LockfreeHashMap.step hash t .run s ⟨i, .find w f⟩ =
          some (.tau, { s with mem := m' }, ⟨i, .find w f'⟩) := by
        simp [LockfreeHashMap.step, hs]
      refine .steps hstep ?_ hlt
      cases w <;> rfl
  | newSentinel o' b' bs p =>
    obtain ⟨a, ha⟩ := h.finite.exists_notMem
    have ha : s.mem.alive a = false := by simpa using ha
    have hs : LockfreeHashMap.step hash t (.alloc a) s ⟨i, .newSentinel o' b' bs p⟩ = some (.tau,
        s.newSentinel a (bucketSplitKey b'), ⟨i, search (.anchor o' b' bs p a) i⟩) := by
      simp [LockfreeHashMap.step, ha]
    exact .stage hs (show 21 + 10 * bs.length < 22 + 10 * bs.length by omega)
  | setNext w pred curr =>
    refine .stage (show LockfreeHashMap.step hash t .run s ⟨i, .setNext w pred curr⟩ = _ from rfl)
      ?_
    cases w <;> simp only [Pc.stage] <;> omega
  | link w pred curr =>
    obtain ⟨-, hp, hpn, -⟩ := hat
    have hum := (hl.still (by rintro _ _ _ ⟨⟩)).unmarked pred hp
    have hs : LockfreeHashMap.step hash t .run s ⟨i, .link w pred curr⟩ = some (.tau,
        { s with mem := { s.mem with next := Function.update s.mem.next pred (some w.node) } },
        ⟨i, w.linked⟩) := by
      simp [LockfreeHashMap.step, Memory.cas, hpn, hum]
    refine .stage hs ?_
    cases w with
    | sentinel o' b' bs n =>
      show 14 + 10 * bs.length < 19 + 10 * bs.length
      omega
    | put => exact Nat.lt_succ_self _
  | deleteSentinel => exact hat.elim
  | destroy k a => exact goes_destroy hheld
  | disown k a => exact goes_disown hheld
  | _ => exact absurd rfl hopen

/-- **Every step of the call** lowers the cost. -/
theorem Inside.lowers (h : Inside hash o b s lc)
    (hs : LockfreeHashMap.step hash t k s lc = some (ev, s', lc')) :
    cost hash s' lc' < cost hash s lc := by
  have hgo : Goes hash t s lc := h.goes
  obtain ⟨l, hl⟩ := h.rooted
  have hst := h.budget.framed
  have hopen := h.opened
  obtain ⟨i, pc⟩ := lc
  have hat := hl.place
  cases pc with
  | claim | setNext | link | destroy | disown => exact hgo.lowers rfl hs
  | find w f =>
    rcases step_find hs with ⟨sp, m', f', hf, rfl, rfl⟩ | ⟨found, pred, curr, -, rfl, rfl⟩
    · have hlt := Find.step_cost hl.chain (hl.still nofun).unmarked hat.2 hf
      refine Prod.Lex.toLex_lt_toLex.mpr (.inr ⟨?_, hlt⟩)
      cases w <;> rfl
    · refine Prod.Lex.toLex_lt_toLex.mpr (.inl (stage_resume_lt ?_))
      rintro o b bs rfl
      exact hst.1
  | newSentinel o' b' bs p =>
    cases step_move hash hs
    refine Prod.Lex.toLex_lt_toLex.mpr (.inl ?_)
    show 21 + 10 * bs.length < 22 + 10 * bs.length
    omega
  | deleteSentinel => exact hat.elim
  | _ => exact absurd rfl hopen
end

/-! ## Runs -/

section
variable [LT K] [DecidableLT K] [Inhabited K] [DecidableEq ι] {hash : K → Word} {t : ι}
  {n₀ count b : Word} {m : ℕ} {o : Op K V} {h : List (Step ι K V)}
  {c c' : Config ι (Shared ι K V) (Local K V)}

/-- The thread calls `find_bucket` of `b` in its operation `o`. -/
def calling (c : Config ι (Shared ι K V) (Local K V)) (t : ι) (o : Op K V) (b : Word) :
    Config ι (Shared ι K V) (Local K V) :=
  c.set t c.shared ⟨(c.loc t).slots, findBucket o b []⟩

/-- The steps of the thread until this call returns. -/
def untilReturn (t : ι) (o : Op K V) (b : Word) (_ : List (Step ι K V))
    (c : Config ι (Shared ι K V) (Local K V)) (u : ι) (_ : Choice K V) : Prop :=
  u = t ∧ ∀ n, ¬ Returns o b n (c.loc t)

omit [DecidableEq ι] in
/-- The call begins. -/
theorem Inside.call (hT : Tended hash t h c) (hpc : (c.loc t).pc = .bucketOf o) :
    Inside hash o b c.shared ⟨(c.loc t).slots, findBucket o b []⟩ := by
  obtain ⟨l, hR⟩ := hT.rooted
  have hsole := hT.thrifty.budget.sole
  have hheld := hT.thrifty.budget.holds
  rw [hpc] at hR hheld
  refine ⟨⟨l, hR.goto_findBucket rfl nofun⟩, ⟨⟨hsole.owned, fun w second i he j hj => ?_⟩,
    holds_findBucket hheld, framed_findBucket ⟨rfl, rfl⟩, ?_⟩, hT.finite, ?_⟩
  · have he : findBucket o b [] = .claim w second i := he
    unfold findBucket at he
    split at he
    · cases he
    · cases he
      exact absurd hj (Nat.not_lt_zero j)
  · rw [findBucket_result]
    nofun
  · rw [buckets_findBucket]
    nofun

/-- The invariant in every run of the call. -/
theorem inside_run {h' : List (Step ι K V)} (hT : Tended hash t h c)
    (hpc : (c.loc t).pc = .bucketOf o) (hb : b.toNat < 2 ^ 32)
    (hr : (program hash).Run (untilReturn t o b) (calling c t o b) h' c') :
    Inside hash o b c'.shared (c'.loc t) := by
  refine hr.induction (I := fun _ c' => Inside hash o b c'.shared (c'.loc t)) ?_ ?_
  · rw [calling, Config.set_loc_self]
    exact .call hT hpc
  · rintro h c u k ev s l - hI ⟨rfl, hret⟩ hs
    rw [Config.set_loc_self]
    exact hI.step hb hret hs

omit [DecidableEq ι] in
/-- The frames and the slots of the call. -/
theorem Inside.bounds {s : Shared ι K V} {lc : Local K V} (h : Inside hash o b s lc) :
    lc.pc.frames ≤ b.cpop.toNat ∧ lc.slots.length ≤ o.held + 2 * b.cpop.toNat := by
  rcases h.budget.framed.stack with hnil | ⟨o', b', bs, hbs, -, hst, hslots⟩
  · exact absurd hnil h.opened
  · have hn := hslots _ h.budget.holds
    obtain ⟨B, ⟨rfl, rfl⟩, hle⟩ := hst.frames_le
    refine ⟨(frames_le hbs).trans hle, by omega⟩

/-- The list has the sentinel `n` of `b`, and those of all its ancestors. -/
def AncestorsLinked (mem : Memory ι (Data K)) (b : Word) (n : ℕ) : Prop :=
  ∃ l, Linked mem.next (some head) l ∧ SentinelIn mem l b n ∧
    ∀ k, ∃ p, SentinelIn mem l (parent^[k] b) p

omit [DecidableEq ι] in
theorem Inside.linked {s : Shared ι K V} {lc : Local K V} {n : ℕ} (h : Inside hash o b s lc)
    (hret : Returns o b n lc) : AncestorsLinked s.mem b n := by
  obtain ⟨l, hR⟩ := h.rooted
  have hn := hR.place
  rw [hret] at hn
  exact ⟨l, hR.chain, hn, hR.parents.ancestors hn⟩

/-- **`find_bucket` terminates within its slot budget.** A thread runs alone, on a map that has at
most `2 ^ 32` buckets now. It holds at most two slots and two for each bit of its operation's
bucket, so 66, and it never throws. When it calls `find_bucket` of a bucket `b` of the table, the
call has no more frames than `b` has bits, and it returns: there is always a next step, and not
without end. What it returns is the sentinel of `b`, in a list with the sentinels of all ancestors
of `b`. -/
theorem find_bucket_returns (hcount : normalizeBucketCount n₀ = some count)
    (hr : (program hash).Run (only t) (initial count m) h c)
    (hb : b.toNat < c.shared.bucketCount.toNat) (h32 : c.shared.bucketCount.toNat ≤ 2 ^ 32) :
    (∀ o, running h = some o →
      (c.loc t).slots.length ≤ 2 + 2 * (bucketOf c.shared.bucketCount (hash o.key)).cpop.toNat ∧
      (c.loc t).pc.frames ≤ (bucketOf c.shared.bucketCount (hash o.key)).cpop.toNat) ∧
    (c.loc t).slots.length ≤ 66 ∧ 2 + 2 * b.cpop.toNat ≤ 66 ∧
    (c.loc t).pc.result? ≠ some .noHazardPointers ∧ (∀ r ∈ h, r.ev ≠ .ret .noHazardPointers) ∧
    ∀ o, (c.loc t).pc = .bucketOf o →
      (∀ h' c', (program hash).Run (untilReturn t o b) (calling c t o b) h' c' →
        (c'.loc t).pc.frames ≤ b.cpop.toNat ∧
        (c'.loc t).slots.length ≤ o.held + 2 * b.cpop.toNat ∧
        (c'.loc t).pc.result? ≠ some .noHazardPointers ∧
        (∀ n, Returns o b n (c'.loc t) →
          (c'.loc t).slots.length = (c.loc t).slots.length ∧ AncestorsLinked c'.shared.mem b n) ∧
        ((∀ n, ¬ Returns o b n (c'.loc t)) →
          ∃ k ev s l, step hash t k c'.shared (c'.loc t) = some (ev, s, l))) ∧
      ∀ f : ℕ → Config ι (Shared ι K V) (Local K V), f 0 = calling c t o b →
        (∀ i, ∃ k ev s l, step hash t k (f i).shared ((f i).loc t) = some (ev, s, l) ∧
          f (i + 1) = (f i).set t s l) → ∃ i n, Returns o b n ((f i).loc t) := by
  have h0 : c.shared.bucketCount ≠ 0 := by
    intro hz
    rw [hz] at hb
    exact Nat.not_lt_zero _ hb
  have hb32 : b.toNat < 2 ^ 32 := hb.trans_le h32
  have hbits := cpop_le hb32
  have hT := tended_run (small_run hcount hr h0 h32)
  have hbudget := hT.thrifty.budget
  refine ⟨fun o ho => hT.thrifty.bounds ho,
    hbudget.slots_le fun o B => Asks.cpop_le h0 h32, by omega, hbudget.calm, hT.thrifty.returns,
    fun o hpc => ⟨fun h' c' hr' => ?_, fun f hf₀ hf => ?_⟩⟩
  · have hI := inside_run hT hpc hb32 hr'
    refine ⟨hI.bounds.1, hI.bounds.2, hI.budget.calm, fun n hret => ⟨?_, hI.linked hret⟩,
      fun _ => ?_⟩
    · have hheld := hbudget.holds
      have hheld' := hI.budget.holds
      rw [hpc] at hheld
      rw [hret] at hheld'
      exact hheld'.trans hheld.symm
    · obtain ⟨k, ev, s, l, hs, -⟩ : Goes hash t c'.shared (c'.loc t) := hI.goes
      exact ⟨k, ev, s, l, hs⟩
  · have hpass : ∃ i, ∃ n, Returns o b n ((f i).loc t) := by
      refine Program.passes (P := program hash) (I := fun c => Inside hash o b c.shared (c.loc t))
        (fun c => ∃ n, Returns o b n (c.loc t)) (fun c => cost hash c.shared (c.loc t)) ?_ ?_ hf
      · intro c k ev s l hI hg hs
        rw [Config.set_loc_self]
        exact ⟨hI.step hb32 (fun n hn => hg ⟨n, hn⟩) hs, hI.lowers hs⟩
      · rw [hf₀, calling, Config.set_loc_self]
        exact .call hT hpc
    exact hpass
end

/-- `get` of a key of bucket 7 in a new map of 8 buckets: three frames and eight slots at most. -/
theorem find_bucket_returns_seven :
    ∃ (h : List (Step Unit ℕ ℕ)) (c : Config Unit (Shared Unit ℕ ℕ) (Local ℕ ℕ)),
      (program hashNat).Run (only ()) (initial 8 0) h c ∧ (c.loc ()).pc = .bucketOf (.get 7) ∧
      (∀ h' c', (program hashNat).Run (untilReturn () (.get 7) 7) (calling c () (.get 7) 7) h' c' →
        (c'.loc ()).pc.frames ≤ 3 ∧ (c'.loc ()).slots.length ≤ 8) ∧
      ∀ f : ℕ → Config Unit (Shared Unit ℕ ℕ) (Local ℕ ℕ), f 0 = calling c () (.get 7) 7 →
        (∀ i, ∃ k ev s l, step hashNat () k (f i).shared ((f i).loc ()) = some (ev, s, l) ∧
          f (i + 1) = (f i).set () s l) → ∃ i n, Returns (.get 7) 7 n ((f i).loc ()) := by
  have hnil : (program hashNat).Run (only ()) (initial (V := ℕ) 8 0) [] (initial 8 0) := .nil
  have hcalled := hnil.cons (k := .call (.get 7)) (t := ()) rfl rfl
  -- two slots are claimed; the second search for one finds the first slot taken
  have hone := hcalled.cons (k := .run) (t := ()) rfl rfl
  have htaken := hone.cons (k := .run) (t := ()) rfl rfl
  have htwo := htaken.cons (k := .run) (t := ()) rfl rfl
  obtain ⟨-, -, -, -, -, hcall⟩ := find_bucket_returns (b := 7)
    (show normalizeBucketCount 8 = some 8 by decide)
    htwo (by decide) (by decide)
  obtain ⟨hbounds, hends⟩ := hcall (.get 7) rfl
  refine ⟨_, _, htwo, rfl, fun h' c' hr' => ?_, hends⟩
  obtain ⟨hframes, hslots, -⟩ := hbounds h' c' hr'
  exact ⟨hframes, hslots⟩

end Bonostl.LockfreeHashMap
