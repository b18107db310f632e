import Bonostl.FiniteMap.Basic
import Bonostl.Interleaving.Sequential
import Bonostl.ThreadsafeLookupTable.Snapshot

/-!
# `threadsafe_lookup_table` used by one thread

When one thread makes all the calls, they return what a finite map returns, whatever the hash
function and the number of buckets (`lookup_table_map`). `Table` is the invariant of the buckets: an
entry is in the bucket of its key, and no bucket has two entries of one key. So a bucket is a finite
map of its own, and `findEntryFor`, `update` and the erasure of the first match are that map's
operations. `Pc.Serves` says at each place how far the call is.
-/

namespace Bonostl.ThreadsafeLookupTable

open Interleaving FiniteMap

variable {ι K V : Type} [BEq K]

/-- Keys that are `==`. -/
abbrev Same (key key' : K) : Prop := (key == key') = true

instance [EquivBEq K] : IsEquiv K Same where
  refl := BEq.refl
  symm _ _ := BEq.symm
  trans _ _ _ := BEq.trans

/-- What the operations do to a finite map, and what they return. -/
def apply : Op K V → Map K V → Map K V × Res K V
  | .valueFor key, m => (m, .optional (m key))
  | .addOrUpdateMapping key value, m =>
    (fun key' => if Same key key' then some value else m key', .unit)
  | .removeMapping key, m => (fun key' => if Same key key' then none else m key', .unit)
  | .getMap, m => (m, .map m)

/-! ## A bucket -/

section
variable {data : List (K × V)} {key : K}

theorem findEntryFor_eq_lookup : findEntryFor data key = lookup Same key data := by
  simp only [findEntryFor, lookup, Bool.decide_eq_true]

theorem eraseP_eq [EquivBEq K] (hd : Distinct Same data) :
    (data.eraseP fun item => item.1 == key) = remove Same key data := by
  rw [← eraseP_eq_remove hd]
  simp only [Bool.decide_eq_true]

theorem update_eq_assign [EquivBEq K] {value : V} (hd : Distinct Same data) :
    update key value data = assign Same key value data := by
  induction data with
  | nil => rfl
  | cons item rest ih =>
    obtain ⟨hne, hd⟩ := List.pairwise_cons.mp hd
    rw [assign, List.map_cons, ← assign]
    by_cases he : Same item.1 key
    · rw [update, if_pos he, if_pos he]
      congr 1
      refine (List.map_id _).symm.trans (List.map_congr_left fun e hmem => ?_)
      rw [if_neg fun hk => hne e hmem (trans_of Same he (symm_of Same hk))]
      rfl
    · rw [update, if_neg he, if_neg he, ih hd]

theorem act_distinct [EquivBEq K] (hd : Distinct Same data) (a : Access K V) :
    Distinct Same (a.act data).1 := by
  cases a with
  | valueFor key | snapshot => exact hd
  | removeMapping key =>
    rw [Access.act, eraseP_eq hd]
    exact hd.remove
  | addOrUpdateMapping key value =>
    simp only [Access.act, findEntryFor_eq_lookup]
    cases hl : lookup Same key data with
    | none => exact hd.append (lookup_eq_none.mp hl)
    | some v =>
      rw [update_eq_assign hd]
      exact hd.assign

theorem lookup_act_remove [EquivBEq K] (hd : Distinct Same data) (key' : K) :
    lookup Same key' ((Access.removeMapping key).act data).1 =
      if Same key key' then none else lookup Same key' data := by
  rw [Access.act, eraseP_eq hd]
  exact lookup_remove key'

theorem lookup_act_add [EquivBEq K] (hd : Distinct Same data) (value : V) (key' : K) :
    lookup Same key' ((Access.addOrUpdateMapping key value).act data).1 =
      if Same key key' then some value else lookup Same key' data := by
  simp only [Access.act, findEntryFor_eq_lookup]
  cases hl : lookup Same key data with
  | none =>
    rw [lookup_append, lookup_cons]
    split_ifs with hk
    · rw [← lookup_congr hk, hl]
      rfl
    · exact Option.or_none
  | some v =>
    rw [update_eq_assign hd, lookup_assign, hl]
    rfl

theorem act_add_unit (key : K) (value : V) (data : List (K × V)) :
    ((Access.addOrUpdateMapping key value).act data).2 = .unit := by
  simp only [Access.act]
  split <;> rfl

end

/-! ## The table -/

/-- **The invariant of the buckets**: every entry is in the bucket of its key, and no bucket has two
entries of one key. -/
structure Table (hash : K → ℕ) (numBuckets : ℕ) (s : Shared ι K V) : Prop where
  bucket : ∀ i, ∀ e ∈ s.data i, hash e.1 % numBuckets = i
  distinct : ∀ i, Distinct Same (s.data i)

/-- All entries, bucket after bucket. -/
def entries (numBuckets : ℕ) (s : Shared ι K V) : List (K × V) :=
  (List.range numBuckets).flatMap s.data

section
variable {hash : K → ℕ} {numBuckets : ℕ} {s : Shared ι K V}

/-- No two entries of the whole table have one key. -/
theorem Table.entries_distinct (hT : Table hash numBuckets s) (hh : Agrees hash) :
    Distinct Same (entries numBuckets s) := by
  refine List.pairwise_flatMap.mpr ⟨fun i _ => hT.distinct i, ?_⟩
  refine List.nodup_range.imp fun {i j} hij e he e' he' hk => hij ?_
  rw [← hT.bucket i e he, ← hT.bucket j e' he', hh _ _ hk]

theorem content_eq : content hash numBuckets s =
    fun key => lookup Same key (s.data (hash key % numBuckets)) :=
  funext fun _ => findEntryFor_eq_lookup

theorem Table.access [EquivBEq K] (hT : Table hash numBuckets s) (hh : Agrees hash) {o : Op K V}
    {i : ℕ}
    {a : Access K V} (ho : o.begin hash numBuckets = .lock i a none) :
    Table hash numBuckets { s with data := Function.update s.data i (a.act (s.data i)).1 } ∧
    apply o (content hash numBuckets s) =
      (content hash numBuckets { s with data := Function.update s.data i (a.act (s.data i)).1 },
        (a.act (s.data i)).2) := by
  constructor
  · constructor
    · intro j e he
      dsimp only at he
      by_cases hji : j = i
      · subst hji
        rw [Function.update_self] at he
        rcases act_mem he with ⟨e', he', hk⟩ | ⟨value, rfl⟩
        · rw [← hk]
          exact hT.bucket j e' he'
        · cases o <;> cases ho
          rfl
      · rw [Function.update_of_ne hji] at he
        exact hT.bucket j e he
    · intro j
      dsimp only
      by_cases hji : j = i
      · subst hji
        rw [Function.update_self]
        exact act_distinct (hT.distinct j) a
      · rw [Function.update_of_ne hji]
        exact hT.distinct j
  · have hother : ∀ {key key'}, hash key % numBuckets = i → ¬ hash key' % numBuckets = i →
        ¬ Same key key' := fun hk hk' he => hk' (hh _ _ he ▸ hk)
    cases o with
    | getMap => cases ho
    | valueFor key =>
      cases ho
      simp only [Access.act, Function.update_eq_self, apply]
      rfl
    | addOrUpdateMapping key value =>
      cases ho
      rw [act_add_unit, apply, content_eq, content_eq]
      refine Prod.ext (funext fun key' => ?_) rfl
      dsimp only
      by_cases hk : hash key' % numBuckets = hash key % numBuckets
      · rw [hk, Function.update_self, lookup_act_add (hT.distinct _)]
      · rw [Function.update_of_ne hk, if_neg (hother rfl hk)]
    | removeMapping key =>
      cases ho
      rw [apply, content_eq, content_eq]
      refine Prod.ext (funext fun key' => ?_) rfl
      dsimp only
      by_cases hk : hash key' % numBuckets = hash key % numBuckets
      · rw [hk, Function.update_self, lookup_act_remove (hT.distinct _)]
      · rw [Function.update_of_ne hk, if_neg (hother rfl hk)]

end

/-! ## One thread -/

section
variable (hash : K → ℕ) (numBuckets : ℕ)

/-- The part of `m` in the buckets below `i`. -/
def below (i : ℕ) (m : Map K V) : Map K V :=
  fun key => if hash key % numBuckets < i then m key else none

/-- How far the call of `o` is: `m` is the finite map before it. -/
def Pc.Serves (s : Shared ι K V) (m : Map K V) (o : Option (Op K V)) : Pc K V → Prop
  | .idle => o = none ∧ content hash numBuckets s = m
  | .next i result =>
    o = some .getMap ∧ content hash numBuckets s = m ∧ result = below hash numBuckets i m
  | .lock i a none | .access i a none =>
    (∃ o', o = some o' ∧ o'.begin hash numBuckets = .lock i a none) ∧ content hash numBuckets s = m
  | .lock i a (some result) | .access i a (some result) =>
    a = .snapshot ∧ i < numBuckets ∧
      o = some .getMap ∧ content hash numBuckets s = m ∧ result = below hash numBuckets i m
  | .unlock i r (some result) => i < numBuckets ∧ o = some .getMap ∧ content hash numBuckets s = m ∧
      ∃ m', r = .map m' ∧ merge result m' = below hash numBuckets (i + 1) m
  | .unlock _ r none | .done r =>
    ∃ o', o = some o' ∧ apply o' m = (content hash numBuckets s, r)

end

/-- The bucket whose mutex the thread has locked. -/
def Pc.locked : Pc K V → Option ℕ
  | .access i _ _ | .unlock i _ _ => some i
  | _ => none

/-- **The invariant** of a table that thread `t` uses alone. -/
structure Sequential (hash : K → ℕ) (numBuckets : ℕ) (t : ι) (s : Shared ι K V) (pc : Pc K V)
    (m : Map K V) (o : Option (Op K V)) : Prop where
  table : Table hash numBuckets s
  serves : pc.Serves hash numBuckets s m o
  mutex : ∀ i, s.mutex i = if pc.locked = some i then some t else none

section
variable {hash : K → ℕ} {numBuckets : ℕ} {t : ι} {s s' : Shared ι K V} {pc pc' : Pc K V}
  {m : Map K V}
  {o : Option (Op K V)} {ev : Event (Op K V) (Res K V)}

/-- A bucket's snapshot comes in. -/
theorem Table.merge_below [EquivBEq K] (hT : Table hash numBuckets s) (hh : Agrees hash) (i : ℕ) :
    merge (below hash numBuckets i (content hash numBuckets s)) (findEntryFor (s.data i)) =
      below hash numBuckets (i + 1) (content hash numBuckets s) := by
  have hother : ∀ key, hash key % numBuckets ≠ i → findEntryFor (s.data i) key = none := by
    intro key hk
    rw [findEntryFor_eq_lookup, lookup_eq_none]
    exact fun e he hek => hk (hh _ _ hek ▸ hT.bucket i e he)
  funext key
  unfold merge below
  rcases Nat.lt_trichotomy (hash key % numBuckets) i with hlt | heq | hgt
  · rw [if_pos hlt, if_pos (by omega), hother key (by omega), Option.or_none]
  · rw [if_neg (by omega), if_pos (by omega), Option.none_or, content, heq]
  · rw [if_neg (by omega), if_neg (by omega), hother key (by omega)]
    rfl

omit [BEq K] in
theorem below_numBuckets (hn : 0 < numBuckets) {i : ℕ} (hi : ¬ i < numBuckets) (m : Map K V) :
    below hash numBuckets i m = m := by
  funext key
  have hlt := Nat.mod_lt (hash key) hn
  exact if_pos (by omega)

theorem begin_serves (o : Op K V) (s : Shared ι K V) :
    (o.begin hash numBuckets).Serves hash numBuckets s (content hash numBuckets s) (some o) := by
  cases o with
  | getMap => exact ⟨rfl, rfl, rfl⟩
  | _ => exact ⟨⟨_, rfl, rfl⟩, rfl⟩

omit [BEq K] in
theorem begin_locked (o : Op K V) : (o.begin hash numBuckets).locked = none := by
  cases o <;> rfl

/-- What holds after a step: `m` and `o` change when a call begins or returns. -/
def After (hash : K → ℕ) (numBuckets : ℕ) (t : ι) (s : Shared ι K V) (pc : Pc K V) (m : Map K V)
    (o : Option (Op K V)) : Event (Op K V) (Res K V) → Prop
  | .call o' => o = none ∧ Sequential hash numBuckets t s pc m (some o')
  | .ret r => ∃ o', o = some o' ∧ (apply o' m).2 = r ∧
      Sequential hash numBuckets t s pc (apply o' m).1 none
  | .tau => Sequential hash numBuckets t s pc m o

/-- **A step keeps the invariant.** -/
theorem Sequential.step [EquivBEq K] (h : Sequential hash numBuckets t s pc m o) (hh : Agrees hash)
    (hn : 0 < numBuckets) (hm : Move hash numBuckets t s ev pc s' pc') :
    After hash numBuckets t s' pc' m o ev := by
  obtain ⟨hT, hserves, hmutex⟩ := h
  have hfree : ∀ i j, (if some i = some j then some t else none) = s.mutex j →
      Function.update s.mutex i none j = none := by
    intro i j hj
    by_cases hji : j = i
    · rw [hji, Function.update_self]
    · rw [Function.update_of_ne hji, ← hj, if_neg fun he => hji (Option.some.inj he).symm]
  cases hm with
  | call o' =>
    obtain ⟨ho, rfl⟩ := hserves
    refine ⟨ho, hT, begin_serves o' s, ?_⟩
    rw [begin_locked]
    exact hmutex
  | next i result hi =>
    obtain ⟨ho, hc, hres⟩ := hserves
    exact ⟨hT, ⟨rfl, hi, ho, hc, hres⟩, hmutex⟩
  | last i result hi =>
    obtain ⟨ho, rfl, rfl⟩ := hserves
    refine ⟨hT, ⟨_, ho, ?_⟩, hmutex⟩
    rw [below_numBuckets hn hi]
    rfl
  | lock i a result =>
    refine ⟨⟨hT.bucket, hT.distinct⟩, ?_, fun j => ?_⟩
    · cases result <;> exact hserves
    · show Function.update s.mutex i (some t) j = if some i = some j then some t else none
      by_cases hji : j = i
      · rw [hji, Function.update_self, if_pos rfl]
      · rw [Function.update_of_ne hji, hmutex j, if_neg fun he => hji (Option.some.inj he).symm]
        rfl
  | access i a result =>
    cases result with
    | none =>
      obtain ⟨⟨o', rfl, ho'⟩, rfl⟩ := hserves
      obtain ⟨hT', happly⟩ := hT.access hh ho'
      exact ⟨hT', ⟨o', rfl, happly⟩, hmutex⟩
    | some result =>
      obtain ⟨rfl, hi, ho, rfl, rfl⟩ := hserves
      have hdata : Function.update s.data i (Access.snapshot.act (s.data i)).1 = s.data :=
        Function.update_eq_self ..
      rw [hdata]
      exact ⟨hT, ⟨hi, ho, rfl, _, rfl, hT.merge_below hh i⟩, hmutex⟩
  | unlock i r => exact ⟨⟨hT.bucket, hT.distinct⟩, hserves, fun j => hfree i j (hmutex j).symm⟩
  | merge i m' result =>
    obtain ⟨-, ho, hc, m'', hm, hres⟩ := hserves
    cases hm
    exact ⟨⟨hT.bucket, hT.distinct⟩, ⟨ho, hc, hres⟩, fun j => hfree i j (hmutex j).symm⟩
  | ret r =>
    obtain ⟨o', ho, happly⟩ := hserves
    refine ⟨o', ho, by rw [happly], hT, ⟨rfl, ?_⟩, hmutex⟩
    rw [happly]

end

/-! ## Calls that return -/

/-- The steps of a call that are left. -/
def Pc.cost (numBuckets : ℕ) : Pc K V → ℕ
  | .idle => 0
  | .done _ => 1
  | .unlock _ _ none => 2
  | .access _ _ none => 3
  | .lock _ _ none => 4
  | .next i _ => 4 * (numBuckets - i) + 2
  | .lock i _ (some _) => 4 * (numBuckets - i) + 1
  | .access i _ (some _) => 4 * (numBuckets - i)
  | .unlock i _ (some _) => 4 * (numBuckets - i) - 1

/-- **A call goes on** until it has returned. -/
theorem Sequential.goes {hash : K → ℕ} {numBuckets : ℕ} {t : ι} {s : Shared ι K V} {pc : Pc K V}
    {m : Map K V} {o : Option (Op K V)} (h : Sequential hash numBuckets t s pc m o)
    (hne : pc ≠ .idle) :
    ∃ ev s' pc', ThreadsafeLookupTable.step hash numBuckets t .run s pc = some (ev, s', pc') ∧
    (∀ o', ev ≠ .call o') ∧
      pc'.cost numBuckets < pc.cost numBuckets := by
  have hserves := h.serves
  cases pc with
  | idle => exact absurd rfl hne
  | next i result =>
    by_cases hi : i < numBuckets
    · exact ⟨_, _, _, if_pos hi, nofun, by simp only [Pc.cost]; omega⟩
    · exact ⟨_, _, _, if_neg hi, nofun, by simp only [Pc.cost]; omega⟩
  | lock i a result =>
    have hmutex : s.mutex i = none := h.mutex i
    have hs : ThreadsafeLookupTable.step hash numBuckets t .run s (.lock i a result) = some (.tau,
        { s with mutex := Function.update s.mutex i (some t) }, .access i a result) := by
      simp [ThreadsafeLookupTable.step, hmutex]
    refine ⟨_, _, _, hs, nofun, ?_⟩
    cases result <;> exact Nat.lt_succ_self _
  | access i a result =>
    refine ⟨_, _, _, rfl, nofun, ?_⟩
    cases result with
    | none => exact Nat.lt_succ_self _
    | some result =>
      obtain ⟨-, hi, -⟩ := hserves
      simp only [Pc.cost]
      omega
  | unlock i r result =>
    cases result with
    | none => exact ⟨_, _, _, rfl, nofun, Nat.lt_succ_self _⟩
    | some result =>
      obtain ⟨hi, -, -, m', rfl, -⟩ := hserves
      refine ⟨_, _, _, rfl, nofun, ?_⟩
      simp only [Pc.cost]
      omega
  | done r => exact ⟨_, _, _, rfl, nofun, Nat.lt_succ_self _⟩

/-! ## Runs -/

/-- Thread `t` takes every step. -/
def alone (t : ι) (_ : List (Step ι K V)) (_ : Config ι (Shared ι K V) (Pc K V)) (u : ι)
    (_ : Choice K V) : Prop := u = t

/-- The finite map after the calls that have returned. -/
def contents (h : List (Step ι K V)) : Map K V :=
  Interleaving.after apply (fun _ => none) ((completed h).map Prod.fst)

/-- What every run of the one thread keeps. -/
structure Alone (hash : K → ℕ) (numBuckets : ℕ) (t : ι) (h : List (Step ι K V))
    (c : Config ι (Shared ι K V) (Pc K V)) : Prop where
  seq : Sequential hash numBuckets t c.shared (c.loc t) (contents h) (running h)
  results : (completed h).map Prod.snd = answers apply (fun _ => none) ((completed h).map Prod.fst)

variable [DecidableEq ι] [EquivBEq K] {hash : K → ℕ} {numBuckets : ℕ} {t : ι}
  {h : List (Step ι K V)}
  {c c₀ : Config ι (Shared ι K V) (Pc K V)}

theorem Alone.step (hI : Alone hash numBuckets t h c) (hh : Agrees hash) (hn : 0 < numBuckets)
    {ev : Event (Op K V) (Res K V)} {s : Shared ι K V} {l : Pc K V}
    (hm : Move hash numBuckets t c.shared ev (c.loc t) s l) :
    Alone hash numBuckets t (⟨t, ev, c, c.set t s l⟩ :: h) (c.set t s l) := by
  have hA := hI.seq.step hh hn hm
  cases ev with
  | call o =>
    have hcomp : completed (⟨t, .call o, c, c.set t s l⟩ :: h) = completed h :=
      completed_of_ne nofun
    refine ⟨?_, by rw [hcomp]; exact hI.results⟩
    rw [contents, hcomp, running_call rfl, Config.set_loc_self]
    exact hA.2
  | tau =>
    have hcomp : completed (⟨t, .tau, c, c.set t s l⟩ :: h) = completed h := completed_of_ne nofun
    refine ⟨?_, by rw [hcomp]; exact hI.results⟩
    rw [contents, hcomp, running_tau rfl, Config.set_loc_self]
    exact hA
  | ret r =>
    obtain ⟨o, ho, hres, hseq⟩ := hA
    have hcomp : completed (⟨t, .ret r, c, c.set t s l⟩ :: h) = (o, r) :: completed h :=
      completed_ret rfl ho
    refine ⟨?_, ?_⟩
    · rw [contents, hcomp, running_ret rfl, Config.set_loc_self]
      exact hseq
    · rw [hcomp, List.map_cons, List.map_cons, answers, hI.results]
      exact congrArg (· :: _) hres.symm

theorem alone_run (hh : Agrees hash) (hn : 0 < numBuckets)
    (hr : (program hash numBuckets).Run (alone t) initial h c) : Alone hash numBuckets t h c := by
  refine Program.Run.induction (I := Alone hash numBuckets t) ⟨?_, rfl⟩ ?_ hr
  · exact ⟨⟨fun _ _ he => absurd he List.not_mem_nil, fun _ => List.Pairwise.nil⟩, ⟨rfl, rfl⟩,
      fun _ => rfl⟩
  · rintro h c u k ev s l - hI rfl hs
    exact hI.step hh hn (step_move hs)

/-- **A lookup table is a map.** When `t` alone calls the operations of a table, with any hash
function and any number of buckets, its calls return what a finite map returns, so two tables with
the same calls return the same; an entry is in the bucket of its key, and no two entries of the
whole table have the same key; and every call returns. -/
theorem lookup_table_map (hh : Agrees hash) (hn : 0 < numBuckets)
    (hr : (program hash numBuckets).Run (alone t) initial h c) :
    (completed h).map Prod.snd = answers apply (fun _ => none) ((completed h).map Prod.fst) ∧
    (∀ (hash' : K → ℕ) (numBuckets' : ℕ) (h' : List (Step ι K V))
      (c' : Config ι (Shared ι K V) (Pc K V)), Agrees hash' → 0 < numBuckets' →
      (program hash' numBuckets').Run (alone t) initial h' c' →
      (completed h).map Prod.fst = (completed h').map Prod.fst →
      (completed h).map Prod.snd = (completed h').map Prod.snd) ∧
    (∀ i, ∀ e ∈ c.shared.data i, i = hash e.1 % numBuckets) ∧
    (entries numBuckets c.shared).Pairwise (fun e e' => ¬ (e.1 == e'.1) = true) ∧
    (c.loc t = .idle → content hash numBuckets c.shared = contents h) ∧
    ∃ h' c', (program hash numBuckets).Run (alone t) initial (h' ++ h) c' ∧ c'.loc t = .idle ∧
      ∀ r ∈ h', ∀ o, r.ev ≠ .call o := by
  have hI := alone_run hh hn hr
  refine ⟨hI.results, fun hash' numBuckets' h' c' hh' hn' hr' hops => ?_,
    fun i e he => (hI.seq.table.bucket i e he).symm, hI.seq.table.entries_distinct hh,
    fun hidle => ?_, ?_⟩
  · rw [hI.results, (alone_run hh' hn' hr').results, hops]
  · have hserves := hI.seq.serves
    rw [hidle] at hserves
    exact hserves.2
  · refine Program.Run.returns (· = .idle) (Alone hash numBuckets t) (fun _ => Pc.cost numBuckets)
      ?_ hI hr
    intro h c hI hidle
    obtain ⟨ev, s, l, hs, hev, hlt⟩ := hI.seq.goes hidle
    exact ⟨.run, ev, s, l, rfl, hs, hev, .inr ⟨hI.step hh hn (step_move hs), hlt⟩⟩

/-- Whether the one thread is in no call. -/
def isIdle (c : Config Unit (Shared Unit ℕ ℕ) (Pc ℕ ℕ)) : Bool :=
  match c.loc () with
  | .idle => true
  | _ => false

/-- The thread makes these calls; each one takes four more steps. -/
def inTurn (os : List (Op ℕ ℕ)) : List (Unit × Choice ℕ ℕ) :=
  os.flatMap fun o => ((), .call o) :: List.replicate 4 ((), .run)

/-- A table of three buckets in which all keys have the hash 0. -/
theorem lookup_table_map_constant :
    ∃ (h : List (Step Unit ℕ ℕ)) (c : Config Unit (Shared Unit ℕ ℕ) (Pc ℕ ℕ)),
      (program (fun _ : ℕ => 0) 3).Run (alone ()) initial h c ∧
      (completed h).map Prod.snd =
        [.optional none, .optional (some 3), .unit, .unit, .unit, .unit] ∧
      (entries 3 c.shared).Pairwise (fun e e' => ¬ (e.1 == e'.1) = true) ∧
      content (fun _ => 0) 3 c.shared = contents h := by
  have hh : Agrees fun _ : ℕ => 0 := fun _ _ _ => rfl
  obtain ⟨h, c, hr, hq⟩ := Program.replay_reaches (program (ι := Unit) (fun _ : ℕ => 0) 3) initial
    (inTurn [.addOrUpdateMapping 7 1, .addOrUpdateMapping 8 2, .addOrUpdateMapping 7 3,
      .removeMapping 8, .valueFor 7, .valueFor 8])
    (fun h c => isIdle c && decide ((completed h).map Prod.fst = [.valueFor 8, .valueFor 7,
      .removeMapping 8, .addOrUpdateMapping 7 3, .addOrUpdateMapping 8 2, .addOrUpdateMapping 7 1]))
    (by decide)
  rw [Bool.and_eq_true, decide_eq_true_eq] at hq
  have hidle : c.loc () = .idle := by
    have hi := hq.1
    unfold isIdle at hi
    split at hi
    · assumption
    · cases hi
  have hr' : (program (fun _ : ℕ => 0) 3).Run (alone ()) initial h c := hr.mono fun _ _ _ _ _ => rfl
  obtain ⟨hres, -, -, hdistinct, hcontent, -⟩ := lookup_table_map hh (by decide) hr'
  refine ⟨h, c, hr', ?_, hdistinct, hcontent hidle⟩
  rw [hres, hq.2]
  rfl

end Bonostl.ThreadsafeLookupTable
