import Bonostl.LockfreeHashMap.Results
import Mathlib.Data.Prod.Lex
import Mathlib.Data.Set.Finite.Basic
import Mathlib.Order.RelClasses

/-!
# Every call returns

A thread that runs alone comes to the end of its call: `find_bucket` calls itself on smaller buckets
only, no compare-exchange has to be repeated, and `new` finds an address (`call_returns`).
`Pc.Holds` says how many slots the thread has claimed at each place, so a destructor finds a slot to
give back.
-/

namespace Bonostl.LockfreeHashMap

open Interleaving HazardPtr HarrisMichael Chain

variable {ι K V : Type}

/-! ## Slots -/

/-- The `hp_owner`s an operation holds when it calls `find_bucket`: `put` has none yet. -/
def Op.held : Op K V → ℕ
  | .put _ _ => 0
  | _ => 2

/-- How many slots the thread has claimed. -/
def Pc.Holds (n : ℕ) : Pc K V → Prop
  | .claim (.op o) second _ => o.held = 2 ∧ n = second.toNat
  | .claim (.bucket o _ bs) second _ => n = o.held + 2 * bs.length + second.toNat
  | .claim (.put _ _ _ _) second _ => n = second.toNat
  | .bucketOf o => n = o.held
  | .find (.sentinel o _ bs) _ | .find (.anchor o _ bs _ _) _ | .newSentinel o _ bs _
  | .setNext (.sentinel o _ bs _) _ _ | .link (.sentinel o _ bs _) _ _
  | .deleteSentinel o _ bs _ => n = o.held + 2 * bs.length + 2
  | .destroy k (.bucket o _ bs _) => n = o.held + 2 * bs.length + k
  | .disown k (.bucket o _ bs _) => n = o.held + 2 * bs.length + k + 1
  | .destroy k (.result _) => n = k
  | .disown k (.result _) => n = k + 1
  | .newNode _ _ _ | .done _ | .idle | .elsewhere _ => n = 0
  | _ => n = 2

theorem holds_findBucket {o : Op K V} {b : Word} {bs : List Word} {n : ℕ}
    (hn : n = o.held + 2 * bs.length) : (findBucket o b bs).Holds n := by
  unfold findBucket
  split <;> exact hn

theorem holds_owner {w : Owner K V} {slots : List ℕ} {n j : ℕ}
    (h : (Pc.claim w true j).Holds n) : (w.resume slots).Holds (n + 1) := by
  cases w with
  | op o =>
    obtain ⟨ho, hn⟩ := h
    show n + 1 = o.held
    rw [hn, ho]
    rfl
  | bucket o b bs => exact congrArg (· + 1) h
  | put key value x a => exact congrArg (· + 1) h

theorem holds_after {a : After K V} {slots : List ℕ} {n : ℕ} (h : (Pc.destroy 0 a).Holds n) :
    (a.resume slots).Holds n := by
  cases a with
  | result r => exact h
  | bucket o b bs x =>
    cases bs with
    | nil => cases o <;> exact h
    | cons b' bs =>
      have h' : n = o.held + 2 * (bs.length + 1) + 0 := h
      show n = o.held + 2 * bs.length + 2
      omega

variable [LT K] [DecidableLT K] [Inhabited K] {hash : K → Word} {s s' : Shared ι K V}
  {lc lc' : Local K V} {t : ι} {k : Choice K V} {ev : Event (Op K V) (Res V)} {l : List ℕ}
  {m : List (K × V)} {o : Option (Op K V)}

/-- A step changes the slots as its place says. -/
theorem Move.holds (hm : Move hash t s k ev lc s' lc') (h : lc.pc.Holds lc.slots.length) :
    lc'.pc.Holds lc'.slots.length := by
  cases hm with
  | call i o => cases o <;> first | exact h | exact ⟨rfl, h⟩
  | claim w second j slots =>
    cases second with
    | true => exact holds_owner h
    | false =>
      cases w with
      | op o => exact ⟨h.1, congrArg (· + 1) h.2⟩
      | bucket o b bs => exact congrArg (· + 1) h
      | put key value n a => exact congrArg (· + 1) h
  | claimNext w => cases w <;> exact h
  | claimNone => rfl
  | destroyed slots a => exact holds_after h
  | destroy i slots n a => cases a <;> exact h
  | disown i slots n a => cases a <;> exact Nat.succ.inj h
  | bucketOf i o => exact holds_findBucket h
  | find i w f m' f' ch hf =>
    cases w with
    | data n j => exact h
    | _ => exact h
  | resume i w p c found pred curr =>
    cases w with
    | sentinel o b bs =>
      have hparent : (findBucket o (parent b) (b :: bs)).Holds i.length := holds_findBucket (by
        have h' : i.length = o.held + 2 * bs.length + 2 := h
        rw [List.length_cons]
        omega)
      simp only [Search.resume]
      split
      · split
        · exact h
        · exact hparent
      · exact hparent
    | anchor o b bs p n => exact h
    | data n j => cases j <;> cases found <;> cases curr <;> exact h
  | setNext i w => cases w <;> exact h
  | link i w => cases w <;> exact h
  | linkFail i w => cases w <;> exact h
  | _ => exact h

/-! ## How far a call is -/

section
omit [LT K] [DecidableLT K] [Inhabited K]

/-- The stages of a call, counted down. The buckets that wait for a parent's sentinel (`bs`) have
ten stages each; the next one is smaller than those above it. -/
def Pc.stage : Pc K V → ℕ
  | .claim (.op _) _ _ => 20 * 2 ^ 64 + 41
  | .bucketOf _ => 20 * 2 ^ 64 + 40
  | .claim (.bucket _ b bs) _ _ => 13 + 10 * bs.length + 20 * b.toNat
  | .find (.sentinel _ b bs) _ => 12 + 10 * bs.length + 20 * b.toNat
  | .newSentinel _ _ bs _ => 22 + 10 * bs.length
  | .find (.anchor _ _ bs _ _) _ => 21 + 10 * bs.length
  | .setNext (.sentinel _ _ bs _) _ _ => 20 + 10 * bs.length
  | .link (.sentinel _ _ bs _) _ _ => 19 + 10 * bs.length
  | .destroy _ (.bucket _ _ bs _) | .disown _ (.bucket _ _ bs _) => 14 + 10 * bs.length
  | .newNode _ _ _ => 12
  | .claim (.put _ _ _ _) _ _ => 11
  | .find (.data _ _) _ => 10
  | .setNext (.put _ _ _ _) _ _ | .storeValue _ _ _ _ | .loadValue _ _ | .loadNext _ _ _ => 9
  | .link (.put _ _ _ _) _ _ | .deleteNode _ | .mark _ _ _ _ => 8
  | .fetchAdd | .unlink _ _ _ => 7
  | .compareCount _ | .reclaim _ => 6
  | .growCount | .fetchSub => 5
  | .growSize _ => 4
  | .growCas _ => 3
  | .destroy _ (.result _) | .disown _ (.result _) => 2
  | .done _ | .elsewhere _ => 1
  | .idle | .deleteSentinel _ _ _ _ => 0

theorem stage_findBucket_le (o : Op K V) (b : Word) (bs : List Word) :
    (findBucket o b bs).stage ≤ 14 + 10 * bs.length + 20 * b.toNat := by
  unfold findBucket
  split <;> simp only [Pc.stage] <;> omega

theorem parent_toNat_lt {b : Word} (hb : b ≠ 0) : (parent b).toNat < b.toNat :=
  Nat.lt_of_le_of_ne (parent_toNat_le b) fun he => parent_ne hb (BitVec.eq_of_toNat_eq he)
end

/-- The steps that are left at one stage. -/
noncomputable def Pc.steps (hash : K → Word) (s : Shared ι K V) : Pc K V → ℕ
  | .claim _ second i => (if second then 0 else 101) + (maxHazardPointers - i)
  | .find w f => f.place.cost s.mem (w.query hash)
  | .reclaim r | .elsewhere r => r.cost s.mem.hazard
  | .destroy n _ => 2 * n
  | .disown n _ => 2 * n + 1
  | _ => 0

/-- What a step of a call makes smaller. -/
noncomputable def cost (hash : K → Word) (s : Shared ι K V) (lc : Local K V) : ℕ ×ₗ ℕ :=
  toLex (lc.pc.stage, lc.pc.steps hash s)

/-- The thread can take a step that brings it nearer to the end of its call. -/
def Goes (hash : K → Word) (t : ι) (s : Shared ι K V) (lc : Local K V) : Prop :=
  ∃ k ev s' lc', step hash t k s lc = some (ev, s', lc') ∧ (∀ o, ev ≠ .call o) ∧
    cost hash s' lc' < cost hash s lc

theorem Goes.stage (hs : step hash t k s lc = some (.tau, s', lc'))
    (hlt : lc'.pc.stage < lc.pc.stage) : Goes hash t s lc :=
  ⟨k, .tau, s', lc', hs, nofun, Prod.Lex.toLex_lt_toLex.mpr (.inl hlt)⟩

theorem Goes.steps (hs : step hash t k s lc = some (.tau, s', lc'))
    (he : lc'.pc.stage = lc.pc.stage) (hlt : lc'.pc.steps hash s' < lc.pc.steps hash s) :
    Goes hash t s lc :=
  ⟨k, .tau, s', lc', hs, nofun, Prod.Lex.toLex_lt_toLex.mpr (.inr ⟨he, hlt⟩)⟩

theorem goes_claim {i : List ℕ} {w : Owner K V} {second : Bool} {j : ℕ} :
    Goes hash t s ⟨i, .claim w second j⟩ := by
  by_cases hj : j < maxHazardPointers
  · by_cases hid : s.mem.hazard.id j = none
    · have hs : step hash t .run s ⟨i, .claim w second j⟩ = some (.tau, s.setHazard
          { s.mem.hazard with id := Function.update s.mem.hazard.id j (some t) },
          ⟨j :: i, if second then w.resume (j :: i) else .claim w true 0⟩) := by
        simp [step, tryClaim, hj, hid, Shared.setHazard]
      cases second with
      | false =>
        refine .steps hs ?_ ?_
        · cases w <;> rfl
        · simp only [Pc.steps, maxHazardPointers] at hj ⊢
          simp
          omega
      | true =>
        refine .stage hs ?_
        cases w <;> simp only [if_true, Owner.resume, search, Pc.stage] <;> omega
    · have hs : step hash t .run s ⟨i, .claim w second j⟩ =
          some (.tau, s, ⟨i, .claim w second (j + 1)⟩) := by
        simp [step, tryClaim, hj, hid]
      refine .steps hs ?_ ?_
      · cases w <;> rfl
      · simp only [Pc.steps]
        omega
  · have hs : step hash t .run s ⟨i, .claim w second j⟩ =
        some (.tau, s, ⟨i, .destroy i.length (.result .noHazardPointers)⟩) := by
      simp [step, hj]
    refine .stage hs ?_
    cases w <;> simp only [Pc.stage] <;> omega

omit [LT K] [DecidableLT K] [Inhabited K] in
/-- What follows a search is a later stage. -/
theorem stage_resume_lt {w : Search K V} {f : Find} {pred : ℕ} {found : Bool} {curr : Option ℕ}
    (hw : ∀ o b bs, w = .sentinel o b bs → b ≠ 0) :
    (w.resume s found pred curr).stage < (Pc.find w f).stage := by
  cases w with
  | sentinel o b bs =>
    have hb0 : b ≠ 0 := hw o b bs rfl
    have hb : 0 < b.toNat := by simpa [BitVec.toNat_eq, Nat.pos_iff_ne_zero] using hb0
    have hparent : (findBucket o (parent b) (b :: bs)).stage <
        12 + 10 * bs.length + 20 * b.toNat := by
      have hle := stage_findBucket_le o (parent b) (b :: bs)
      have hlt := parent_toNat_lt hb0
      rw [List.length_cons] at hle
      omega
    simp only [Search.resume]
    split
    · split
      · show 14 + 10 * bs.length < 12 + 10 * bs.length + 20 * b.toNat
        omega
      · exact hparent
    · exact hparent
  | anchor o b bs q n =>
    show 20 + 10 * bs.length < 21 + 10 * bs.length
    omega
  | data n j =>
    cases j <;> cases found <;> cases curr <;> simp [Search.resume, Job.resume, Pc.stage]

theorem goes_resume {i : List ℕ} {w : Search K V} {p c pred : ℕ} {found : Bool} {curr : Option ℕ}
    (hw : ∀ o b bs, w = .sentinel o b bs → b ≠ 0) :
    Goes hash t s ⟨i, .find w ⟨p, c, .result found pred curr⟩⟩ :=
  .stage (show step hash t .run s ⟨i, .find w ⟨p, c, .result found pred curr⟩⟩ =
    some (.tau, s, ⟨i, w.resume s found pred curr⟩) from rfl) (stage_resume_lt hw)

/-- The destructors of the `hp_owner`s go on. -/
theorem goes_destroy {i : List ℕ} {n : ℕ} {a : After K V} (h : (Pc.destroy n a).Holds i.length) :
    Goes hash t s ⟨i, .destroy n a⟩ := by
  cases n with
  | zero =>
    refine .stage (show step hash t .run s ⟨i, .destroy 0 a⟩ =
      some (.tau, s, ⟨i, a.resume i⟩) from rfl)
      ?_
    cases a with
    | result r => exact Nat.lt_succ_self _
    | bucket o b bs x =>
      cases bs with
      | nil => cases o <;> simp [After.resume, Op.resume, search, Pc.stage]
      | cons b' bs =>
        show 22 + 10 * bs.length < 14 + 10 * (bs.length + 1)
        omega
  | succ n =>
    cases i with
    | nil => cases a <;> cases h
    | cons j i =>
      refine .steps (show step hash t .run s ⟨j :: i, .destroy (n + 1) a⟩ = _ from rfl) ?_ ?_
      · cases a <;> rfl
      · exact Nat.lt_succ_self _

theorem goes_disown {i : List ℕ} {n : ℕ} {a : After K V} (h : (Pc.disown n a).Holds i.length) :
    Goes hash t s ⟨i, .disown n a⟩ := by
  cases i with
  | nil => cases a <;> cases h
  | cons j i =>
    refine .steps (show step hash t .run s ⟨j :: i, .disown n a⟩ = _ from rfl) ?_ ?_
    · cases a <;> rfl
    · exact Nat.lt_succ_self _

/-- `reclaim_later` goes on. -/
theorem goes_reclaim {i : List ℕ} {r : Reclaim} : Goes hash t s ⟨i, .reclaim r⟩ := by
  by_cases hr : r = .finished
  · subst hr
    exact .stage (show step hash t .run s ⟨i, .reclaim .finished⟩ = _ from rfl) (Nat.lt_succ_self _)
  · obtain ⟨z, r', freed, hs, hlt⟩ := Reclaim.progress hr s.mem.hazard
    have hstep : step hash t .run s ⟨i, .reclaim r⟩ = some (.tau,
        { s with mem := Memory.free { s.mem with hazard := z } freed }, ⟨i, .reclaim r'⟩) := by
      simp [step, hs]
    refine .steps hstep rfl ?_
    cases freed <;> exact hlt

theorem goes_elsewhere {i : List ℕ} {r : Reclaim} : Goes hash t s ⟨i, .elsewhere r⟩ := by
  by_cases hr : r = .finished
  · subst hr
    exact .stage (show step hash t .run s ⟨i, .elsewhere .finished⟩ = _ from rfl)
      (Nat.lt_succ_self _)
  · obtain ⟨z, r', freed, hs, hlt⟩ := Reclaim.progress hr s.mem.hazard
    have hstep : step hash t .run s ⟨i, .elsewhere r⟩ = some (.tau,
        { s with mem := Memory.free { s.mem with hazard := z } freed }, ⟨i, .elsewhere r'⟩) := by
      simp [step, hs]
    refine .steps hstep rfl ?_
    cases freed <;> exact hlt

/-- **A call goes on** until it has returned. -/
theorem Sequential.goes (h : Sequential hash s lc l m o) (hheld : lc.pc.Holds lc.slots.length)
    (hfin : {a | s.mem.alive a = true}.Finite) (hne : lc.pc ≠ .idle) : Goes hash t s lc := by
  obtain ⟨i, pc⟩ := lc
  obtain ⟨a, ha⟩ : ∃ a, s.mem.alive a = false := by
    obtain ⟨a, ha⟩ := hfin.exists_notMem
    exact ⟨a, by simpa using ha⟩
  have hat := h.place
  have hun := h.unmarked
  cases pc with
  | idle => exact absurd rfl hne
  | claim w second j => exact goes_claim
  | bucketOf o' =>
    refine .stage (show LockfreeHashMap.step hash t .run s ⟨i, .bucketOf o'⟩ = _ from rfl) ?_
    refine Nat.lt_of_le_of_lt (stage_findBucket_le _ _ _) ?_
    have hlt := (bucketOf s.bucketCount (hash o'.key)).isLt
    simp only [Pc.stage, List.length_nil]
    omega
  | find w f =>
    have hum := (h.used (by rintro _ _ _ ⟨⟩)).unmarked
    rcases Find.progress h.listed.chain hum hat.2 with ⟨found, pred, curr, hres⟩ | ⟨m', f', hs, hlt⟩
    · obtain ⟨p, c, place⟩ := f
      cases hres
      exact goes_resume fun o b bs e => by subst e; exact hat.1.1
    · have hstep : LockfreeHashMap.step hash t .run s ⟨i, .find w f⟩ =
          some (.tau, { s with mem := m' }, ⟨i, .find w f'⟩) := by
        simp [LockfreeHashMap.step, hs]
      refine .steps hstep ?_ hlt
      cases w <;> rfl
  | newSentinel o' b bs p =>
    have hs : LockfreeHashMap.step hash t (.alloc a) s ⟨i, .newSentinel o' b bs p⟩ = some (.tau,
        s.newSentinel a (bucketSplitKey b), ⟨i, search (.anchor o' b bs p a) i⟩) := by
      simp [LockfreeHashMap.step, ha]
    exact .stage hs (show 21 + 10 * bs.length < 22 + 10 * bs.length by omega)
  | newNode key value n =>
    have hs : LockfreeHashMap.step hash t (.alloc a) s ⟨i, .newNode key value n⟩ = some (.tau,
        s.newNode a (dataSplitKey (hash key)) key value,
        ⟨i, .claim (.put key value n a) false 0⟩) := by
      simp [LockfreeHashMap.step, ha]
    exact .stage hs (Nat.lt_succ_self _)
  | setNext w pred curr =>
    refine .stage (show LockfreeHashMap.step hash t .run s ⟨i, .setNext w pred curr⟩ = _ from rfl)
      ?_
    cases w <;> simp only [Pc.stage] <;> omega
  | link w pred curr =>
    obtain ⟨-, hst, hpn, -⟩ := hat
    have hum := (h.used (by rintro _ _ _ ⟨⟩)).unmarked pred hst.1
    have hs : LockfreeHashMap.step hash t .run s ⟨i, .link w pred curr⟩ = some (.tau,
        { s with mem := { s.mem with next := Function.update s.mem.next pred (some w.node) } },
        ⟨i, w.linked⟩) := by
      simp [LockfreeHashMap.step, Memory.cas, hpn, hum]
    refine .stage hs ?_
    cases w with
    | sentinel o' b bs n => show 14 + 10 * bs.length < 19 + 10 * bs.length; omega
    | put => exact Nat.lt_succ_self _
  | deleteSentinel => exact hat.elim
  | storeValue key value n c =>
    exact .stage (show LockfreeHashMap.step hash t .run s ⟨i, .storeValue key value n c⟩ =
      _ from rfl)
      (Nat.lt_succ_self _)
  | deleteNode n =>
    exact .stage (show LockfreeHashMap.step hash t .run s ⟨i, .deleteNode n⟩ = _ from rfl)
      (show 2 < 8 by decide)
  | fetchAdd =>
    exact .stage (show LockfreeHashMap.step hash t .run s ⟨i, .fetchAdd⟩ = _ from rfl)
      (Nat.lt_succ_self _)
  | compareCount n =>
    by_cases hn : s.bucketCount < n
    · exact .stage (show LockfreeHashMap.step hash t .run s ⟨i, .compareCount n⟩ =
        some (.tau, s, ⟨i, .growCount⟩) by
        simp [LockfreeHashMap.step, hn]) (Nat.lt_succ_self _)
    · exact .stage (show LockfreeHashMap.step hash t .run s ⟨i, .compareCount n⟩ =
        some (.tau, s, ⟨i, .destroy 2 (.result (.bool true))⟩) by simp [LockfreeHashMap.step, hn])
        (show 2 < 6 by decide)
  | growCount =>
    exact .stage (show LockfreeHashMap.step hash t .run s ⟨i, .growCount⟩ = _ from rfl)
      (Nat.lt_succ_self _)
  | growSize count =>
    by_cases hn : s.size ≤ count
    · exact .stage (show LockfreeHashMap.step hash t .run s ⟨i, .growSize count⟩ =
        some (.tau, s, ⟨i, .destroy 2 (.result (.bool true))⟩) by simp [LockfreeHashMap.step, hn])
        (show 2 < 4 by decide)
    · exact .stage (show LockfreeHashMap.step hash t .run s ⟨i, .growSize count⟩ =
        some (.tau, s, ⟨i, .growCas count⟩) by simp [LockfreeHashMap.step, hn]) (Nat.lt_succ_self _)
  | growCas count =>
    obtain ⟨rfl, -⟩ := h.bounded
    exact .stage (show LockfreeHashMap.step hash t .run s ⟨i, .growCas s.bucketCount⟩ =
      some (.tau, { s with bucketCount := s.bucketCount * 2 },
        ⟨i, .destroy 2 (.result (.bool true))⟩) by simp [LockfreeHashMap.step]) (Nat.lt_succ_self _)
  | loadValue key c =>
    exact .stage (show LockfreeHashMap.step hash t .run s ⟨i, .loadValue key c⟩ = _ from rfl)
      (show 2 < 9 by decide)
  | loadNext key pred c =>
    exact .stage (show LockfreeHashMap.step hash t .run s ⟨i, .loadNext key pred c⟩ = _ from rfl)
      (Nat.lt_succ_self _)
  | mark key pred c next =>
    obtain ⟨hm, -, -, hcn⟩ := hat
    have hum := (h.used (by rintro _ _ _ ⟨⟩)).unmarked c hm.1
    exact .stage (show LockfreeHashMap.step hash t .run s ⟨i, .mark key pred c next⟩ = some (.tau,
      { s with mem := { s.mem with marked := Function.update s.mem.marked c true } },
        ⟨i, .unlink pred c next⟩) by simp [LockfreeHashMap.step, Memory.casMark, hcn, hum])
      (Nat.lt_succ_self _)
  | unlink pred c next =>
    by_cases hcas : s.mem.next pred = some c ∧ s.mem.marked pred = false
    · exact .stage (show LockfreeHashMap.step hash t .run s ⟨i, .unlink pred c next⟩ = some (.tau,
        { s with mem := { s.mem with next := Function.update s.mem.next pred next } },
        ⟨i, .reclaim (.make c)⟩) by simp [LockfreeHashMap.step, Memory.cas, hcas])
        (Nat.lt_succ_self _)
    · exact .stage (show LockfreeHashMap.step hash t .run s ⟨i, .unlink pred c next⟩ =
        some (.tau, s, ⟨i, .fetchSub⟩) by simp [LockfreeHashMap.step, Memory.cas, hcas])
        (show 5 < 7 by decide)
  | reclaim r => exact goes_reclaim
  | fetchSub =>
    exact .stage (show LockfreeHashMap.step hash t .run s ⟨i, .fetchSub⟩ = _ from rfl)
      (show 2 < 5 by decide)
  | elsewhere r => exact goes_elsewhere
  | destroy n a => exact goes_destroy hheld
  | disown n a => exact goes_disown hheld
  | done r =>
    exact ⟨.run, .ret r, s, ⟨i, .idle⟩, rfl, (by rintro _ ⟨⟩), Prod.Lex.toLex_lt_toLex.mpr
      (.inl Nat.one_pos)⟩

/-! ## Runs -/

omit [LT K] [DecidableLT K] [Inhabited K] in
theorem free_alive {m : Memory ι (Data K)} (freed : Option ℕ) {a : ℕ}
    (h : (m.free freed).alive a = true) : m.alive a = true := by
  cases freed with
  | none => exact h
  | some b =>
    have h' : Function.update m.alive b false a = true := h
    by_cases hab : a = b
    · subst hab
      rw [Function.update_self] at h'
      cases h'
    · rwa [Function.update_of_ne hab] at h'

omit [LT K] [DecidableLT K] [Inhabited K] in
theorem findMove_alive {q : Query (Data K)} {f f' : Find} {m m' : Memory ι (Data K)}
    (hm : Find.Move q m f m' f') {a : ℕ} (h : m'.alive a = true) : m.alive a = true := by
  cases hm with
  | reclaim p c pred next r sp z r' freed hs =>
    exact free_alive (m := { m with hazard := z }) freed h
  | _ => exact h

/-- A step makes one node at most. -/
theorem Move.alive_finite (hm : Move hash t s k ev lc s' lc')
    (hf : {a | s.mem.alive a = true}.Finite) : {a | s'.mem.alive a = true}.Finite := by
  have hnew : ∀ (x : ℕ) (d : Data K), {a | (s.mem.alloc x d).alive a = true}.Finite := by
    intro x d
    refine (hf.insert x).subset fun a ha => ?_
    have ha' : (s.mem.alloc x d).alive a = true := ha
    rw [Memory.alloc_alive] at ha'
    split at ha'
    · exact .inl ‹_›
    · exact .inr ha'
  cases hm with
  | find i w f m' f' ch hfm => exact hf.subset fun a ha => findMove_alive hfm ha
  | newSentinel i o b bs p a ha => exact hnew a _
  | newNode i key value n a ha => exact hnew a _
  | deleteSentinel i o b bs n => exact hf.subset fun a ha => free_alive (some n) ha
  | deleteNode i n => exact hf.subset fun a ha => free_alive (some n) ha
  | reclaim i r sp z r' freed ch hs =>
    exact hf.subset fun a ha => free_alive (m := { s.mem with hazard := z }) freed ha
  | sweep i r sp z r' freed ch hs =>
    exact hf.subset fun a ha => free_alive (m := { s.mem with hazard := z }) freed ha
  | _ => exact hf

section
variable [DecidableEq ι] [IsStrictWeakOrder K (· < ·)] (hh : Agrees hash)
  {h : List (Step ι K V)} {c c₀ : Config ι (Shared ι K V) (Local K V)} {b count : Word} {n : ℕ}

/-- What every run of the one thread keeps. -/
structure Runs (hash : K → Word) (t : ι) (h : List (Step ι K V))
    (c : Config ι (Shared ι K V) (Local K V)) : Prop where
  alone : ∃ l, Alone hash t h c l
  held : (c.loc t).pc.Holds (c.loc t).slots.length
  finite : {a | c.shared.mem.alive a = true}.Finite

include hh in
/-- A step of a run. -/
theorem Runs.step (hI : Runs hash t h c) (hlen : (contents h).length < 2 ^ 62)
    (hs : LockfreeHashMap.step hash t k c.shared (c.loc t) = some (ev, s', lc')) :
    Runs hash t (⟨t, ev, c, c.set t s' lc'⟩ :: h) (c.set t s' lc') := by
  obtain ⟨l, ha⟩ := hI.alone
  have hm := step_move hash hs
  refine ⟨?_, ?_, hm.alive_finite hI.finite⟩
  · cases ev with
    | call o => exact ⟨l, alone_call ha hs⟩
    | ret r => exact ⟨l, alone_ret ha hs⟩
    | tau => exact alone_tau hh ha hlen hs
  · rw [Config.set_loc_self]
    exact hm.holds hI.held

include hh in
theorem runs_run (hb : b.toNat ≤ 2 ^ 63) (hcount : normalizeBucketCount b = some count)
    (hr : (program hash).Run (alone t) (initial count n) h c) : Runs hash t h c := by
  refine Program.Run.induction (I := Runs hash t) ?_ ?_ hr
  · refine ⟨⟨[head], alone_initial hcount hb⟩, rfl, ?_⟩
    refine (Set.finite_singleton head).subset fun a ha => ?_
    simpa [initial] using ha
  · rintro h c u k ev s lc - hI ⟨rfl, hlen⟩ hs
    exact hI.step hh hlen hs

include hh in
/-- **Every call returns**: a thread in the middle of a call can go on to its end. -/
theorem call_returns (hI : Runs hash t h c) (hlen : (contents h).length < 2 ^ 62)
    (hr : (program hash).Run (alone t) c₀ h c) :
    ∃ h' c', (program hash).Run (alone t) c₀ (h' ++ h) c' ∧ (c'.loc t).pc = .idle ∧
      ∀ r ∈ h', ∀ o, r.ev ≠ .call o := by
  refine Program.Run.returns (fun lc => lc.pc = .idle)
    (fun h c => Runs hash t h c ∧ (contents h).length < 2 ^ 62) (cost hash) ?_ ⟨hI, hlen⟩ hr
  rintro h c ⟨hI, hlen⟩ hidle
  obtain ⟨l, ha⟩ := hI.alone
  obtain ⟨k, ev, s', lc', hs, hev, hlt⟩ := ha.seq.goes hI.held hI.finite hidle
  refine ⟨k, ev, s', lc', ⟨rfl, hlen⟩, hs, hev, ?_⟩
  cases ev with
  | call o => exact absurd rfl (hev o)
  | ret r =>
    have hm := step_move hash hs
    generalize c.loc t = lc at hm
    cases hm
    exact .inl rfl
  | tau =>
    have hcont := (contents_of_tau (h := h) ⟨t, .tau, c, c.set t s' lc'⟩ nofun).2
    exact .inr ⟨⟨hI.step hh hlen hs, hcont ▸ hlen⟩, hlt⟩

/-- **Hashing and resizing are invisible.** When `t` alone calls the operations of a map with any
hash function and any number of initial buckets, its calls return what a finite map returns, so two
maps with the same calls return the same; a finished call leaves `size()` at the number of keys, at
most the number of buckets, which is a power of two and never becomes smaller; the list stays sorted
with every sentinel that was made; and every call returns. -/
theorem hashing_invisible (hh : Agrees hash) (hb : b.toNat ≤ 2 ^ 63)
    (hcount : normalizeBucketCount b = some count)
    (hr : (program hash).Run (alone t) (initial count n) h c) :
    (Enough t h → (completed h).map Prod.snd = answers apply [] ((completed h).map Prod.fst)) ∧
    (∀ (hash' : K → Word) (b' count' : Word) n' h' c', Agrees hash' → b'.toNat ≤ 2 ^ 63 →
      normalizeBucketCount b' = some count' →
      (program hash').Run (alone t) (initial (ι := ι) (K := K) (V := V) count' n') h' c' →
      Enough t h → Enough t h' → (completed h).map Prod.fst = (completed h').map Prod.fst →
      (completed h).map Prod.snd = (completed h').map Prod.snd) ∧
    ((c.loc t).pc = .idle → c.shared.size.toNat = (contents h).length ∧
      c.shared.size.toNat ≤ c.shared.bucketCount.toNat) ∧
    (∃ k, c.shared.bucketCount.toNat = 2 ^ k) ∧
    (∀ r ∈ h, r.pre.shared.bucketCount.toNat ≤ r.cfg.shared.bucketCount.toNat) ∧
    (∃ l, Linked c.shared.mem.next (some head) l ∧ (l.map c.shared.mem.data).Pairwise below ∧
      ((c.loc t).pc = .idle → ∀ r ∈ h, ∀ a b, createdSentinel r = some (a, b) →
        a ∈ l ∧ c.shared.mem.data a = sentinelOf K b)) ∧
    ((contents h).length < 2 ^ 62 →
      ∃ h' c', (program hash).Run (alone t) (initial count n) (h' ++ h) c' ∧
        (c'.loc t).pc = .idle ∧ ∀ r ∈ h', ∀ o, r.ev ≠ .call o) := by
  have hI := runs_run hh hb hcount hr
  obtain ⟨l, ha⟩ := hI.alone
  have hres : ∀ {hash' : K → Word} {h' : List (Step ι K V)} {c' l'}, Alone hash' t h' c' l' →
      Enough t h' →
      (completed h').map Prod.snd = answers apply [] ((completed h').map Prod.fst) := by
    intro hash' h' c' l' ha' he'
    rw [← (ha'.calm he').2]
    exact ha'.results
  refine ⟨hres ha, ?_, fun hidle => ?_, ?_, ha.grown,
    ⟨l, ha.seq.listed.chain, ha.seq.listed.ordered,
    fun hidle r hmem a b' hc => ?_⟩, fun hlen => call_returns hh hI hlen hr⟩
  · intro hash' b' count' n' h' c' hh' hb' hcount' hr' he he' hops
    obtain ⟨l', ha'⟩ := (runs_run hh' hb' hcount' hr').alone
    rw [hres ha he, hres ha' he', hops]
  · have hp := ha.seq.serves.before (by rw [hidle]; rfl)
    have hc := ha.seq.counted
    have hbd := ha.seq.bounded
    rw [hidle] at hc hbd
    refine ⟨?_, hbd⟩
    rw [← hp.length_eq]
    exact hc
  · obtain ⟨k, -, hk⟩ := ha.seq.power
    exact ⟨k, hk⟩
  · rcases ha.created r hmem a b' hc with hin | hnew
    · exact hin
    · rw [hidle] at hnew
      cases hnew
end

/-! ## A run -/

section
variable [DecidableEq ι] {h : List (Step ι K V)} {c c₀ : Config ι (Shared ι K V) (Local K V)}

omit [Inhabited K] in
theorem length_apply_le (o : Op K V) (m : List (K × V)) : (apply o m).1.length ≤ m.length + 1 := by
  cases o with
  | put key value =>
    simp only [apply]
    split
    · exact (List.length_map _).le.trans (Nat.le_succ _)
    · exact le_refl _
  | erase key => exact (List.length_filter_le _ m).trans (Nat.le_succ _)
  | get key | contains key => exact Nat.le_succ _

omit [Inhabited K] [DecidableEq ι] in
/-- A call is at least one step. -/
theorem length_contents_le (h : List (Step ι K V)) : (contents h).length ≤ h.length := by
  have hafter : ∀ os : List (Op K V), (after apply [] os).length ≤ os.length := by
    intro os
    induction os with
    | nil => exact le_refl _
    | cons o os ih => exact (length_apply_le o _).trans (Nat.succ_le_succ ih)
  have hcompleted : (completed h).length ≤ h.length := by
    induction h with
    | nil => exact le_refl _
    | cons r h ih =>
      simp only [completed]
      split
      · exact Nat.succ_le_succ ih
      · exact ih.trans (Nat.le_succ _)
  refine (hafter _).trans ?_
  rw [List.length_map]
  exact (List.length_filter_le _ _).trans hcompleted

/-- No run of `t` with fewer than `2 ^ 62` steps has too many keys. -/
theorem alone_of_short (hr : (program hash).Run (fun _ _ u _ => u = t) c₀ h c)
    (hlen : h.length < 2 ^ 62) : (program hash).Run (alone t) c₀ h c := by
  induction hr with
  | nil => exact .nil
  | @cons h c u k ev s l _ hu hs ih =>
    have hlen' : h.length < 2 ^ 62 := (Nat.lt_succ_self _).trans hlen
    exact (ih hlen').cons ⟨hu, (length_contents_le h).trans_lt hlen'⟩ hs
end

/-- `Enough`, as a test of a step. -/
def slotFree (r : Step Unit ℕ ℕ) : Bool :=
  match (r.pre.loc ()).pc with
  | .claim _ _ _ =>
    (List.range maxHazardPointers).any fun j => (r.pre.shared.mem.hazard.id j).isNone
  | _ => true

theorem enough_of_slotFree {h : List (Step Unit ℕ ℕ)} (hh : h.all slotFree = true) :
    Enough () h := by
  intro r hr w second i hpc
  have hfree := List.all_eq_true.mp hh r hr
  simp only [slotFree, hpc, List.any_eq_true, List.mem_range, Option.isNone_iff_eq_none] at hfree
  exact hfree

/-- All keys have the hash 5. The second key makes the map grow to two buckets, the third one
creates the sentinel of bucket 1 and makes it grow to four. -/
def collide : List (Unit × Choice ℕ ℕ) :=
  [turn () [.call (.put 7 1)] 2, turn () [.alloc 1] 16, turn () [.call (.put 8 2)] 2,
    turn () [.alloc 2] 23, turn () [.call (.put 9 3)] 12, turn () [.alloc 3] 14,
    turn () [.alloc 4] 27, turn () [.call (.erase 7)] 45, turn () [.call (.get 8)] 37].flatten

/-- From one bucket, with a hash that tells no keys apart. -/
theorem hashing_invisible_constant :
    ∃ (h : List (Step Unit ℕ ℕ)) (c : Config Unit (Shared Unit ℕ ℕ) (Local ℕ ℕ)),
      (program fun _ : ℕ => 5).Run (alone ()) (initial 1 0) h c ∧ c.shared.bucketCount = 4 ∧
      (completed h).map Prod.snd =
        [.value (some 2), .bool true, .bool true, .bool true, .bool true] ∧
      c.shared.size.toNat = (contents h).length := by
  obtain ⟨h, c, hr, hq⟩ := Program.replay_reaches (program (ι := Unit) (V := ℕ) fun _ : ℕ => 5)
    (initial 1 0) collide (fun h c => h.all slotFree && decide (h.length < 2 ^ 62) &&
      decide ((c.loc ()).pc = .idle) && decide (c.shared.bucketCount = 4) &&
      decide ((completed h).map Prod.fst =
        [.get 8, .erase 7, .put 9 3, .put 8 2, .put 7 1]))
    (by set_option maxRecDepth 10000 in decide)
  simp only [Bool.and_eq_true, decide_eq_true_eq] at hq
  obtain ⟨⟨⟨⟨hfree, hlen⟩, hidle⟩, hgrown⟩, hops⟩ := hq
  have hlt : IsStrictWeakOrder ℕ (· < ·) := isStrictWeakOrder_of_isOrderConnected
  have hh : Agrees fun _ : ℕ => (5 : Word) := fun _ _ _ => rfl
  have hr' := alone_of_short (t := ()) (hr.mono fun _ _ _ _ _ => rfl) hlen
  obtain ⟨hres, -, hsize, -⟩ := hashing_invisible (b := 1) hh (by decide) (by decide) hr'
  refine ⟨h, c, hr', hgrown, ?_, (hsize hidle).1⟩
  rw [hres (enough_of_slotFree hfree), hops]
  decide

end Bonostl.LockfreeHashMap
