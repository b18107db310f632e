import Bonostl.ThreadsafeLookupTable.Model

/-!
# What `get_map` returns

`get_map` holds one bucket's mutex at a time. So the map it returns is made of the contents of the
buckets at one instant each, between the call and the return, in the order of the buckets
(`get_map_buckets`); it need not be the content of the table at any single instant
(`get_map_mixed`).
-/

namespace Bonostl.ThreadsafeLookupTable

open Interleaving

variable {ι K V : Type}

/-- The members of the table after a history. -/
def after (h : List (Step ι K V)) : Shared ι K V :=
  ((h.head?.map Rec.cfg).getD initial).shared

section
variable [BEq K] (hash : K → ℕ) (numBuckets : ℕ)

/-- What `value_for` would find for each key. -/
def content (s : Shared ι K V) : Map K V :=
  fun key => findEntryFor (s.data (hash key % numBuckets)) key

/-- In history `h`, the last event of thread `t` is its call of `get_map`, after history `hb`. -/
def Called (h : List (Step ι K V)) (t : ι) (hb : List (Step ι K V)) : Prop :=
  ∃ ha r hb', h = ha ++ hb ∧ hb = r :: hb' ∧ r.tid = t ∧ r.ev = .call .getMap ∧
    ∀ x ∈ ha, x.tid = t → x.ev = .tau

/-- The map `m` is what the buckets below `i` held at one instant each since `hb`, in this order. -/
def Collected (hb h : List (Step ι K V)) (i : ℕ) (m : Map K V) : Prop :=
  ∃ time : ℕ → List (Step ι K V),
    (∀ j < i, hb <:+ time j ∧ time j <:+ h) ∧ (∀ j k, j ≤ k → k < i → time j <:+ time k) ∧
    (∀ key, hash key % numBuckets < i →
      m key = content hash numBuckets (after (time (hash key % numBuckets))) key) ∧
    ∀ key, i ≤ hash key % numBuckets → m key = none

/-- What holds at each place of a thread. -/
def Pc.Ok (h : List (Step ι K V)) (t : ι) : Pc K V → Prop
  | .idle => True
  | .next i result => ∃ hb, Called h t hb ∧ Collected hash numBuckets hb h i result
  | .lock i a (some result) | .access i a (some result) =>
    a = .snapshot ∧ ∃ hb, Called h t hb ∧ Collected hash numBuckets hb h i result
  | .lock i a none | .access i a none =>
    a ≠ .snapshot ∧ ∀ key value, a = .addOrUpdateMapping key value → i = hash key % numBuckets
  | .unlock i r (some result) =>
    ∃ m hb, r = .map m ∧ Called h t hb ∧ Collected hash numBuckets hb h (i + 1) (merge result m)
  | .unlock _ r none => ∀ m, r ≠ .map m
  | .done r => ∀ m, r = .map m → ∃ hb, Called h t hb ∧ Collected hash numBuckets hb h numBuckets m

/-- **The invariant**: every entry is in its bucket, and what the threads have collected. -/
structure Inv (h : List (Step ι K V)) (c : Config ι (Shared ι K V) (Pc K V)) : Prop where
  bucket : ∀ i, ∀ e ∈ c.shared.data i, hash e.1 % numBuckets = i
  place : ∀ t, (c.loc t).Ok hash numBuckets h t

variable {hash numBuckets}

omit [BEq K] in
theorem Called.cons {h hb : List (Step ι K V)} {t : ι} (hc : Called h t hb) {r : Step ι K V}
    (hr : r.tid = t → r.ev = .tau) : Called (r :: h) t hb := by
  obtain ⟨ha, r', hb', rfl, rfl, ht, hev, hall⟩ := hc
  refine ⟨r :: ha, r', hb', rfl, rfl, ht, hev, fun x hx hxt => ?_⟩
  rcases List.mem_cons.mp hx with rfl | hx
  · exact hr hxt
  · exact hall x hx hxt

omit [BEq K] in
theorem Called.suffix {h hb : List (Step ι K V)} {t : ι} (hc : Called h t hb) : hb <:+ h := by
  obtain ⟨ha, r', hb', rfl, -⟩ := hc
  exact List.suffix_append ..

theorem Collected.cons {hb h : List (Step ι K V)} {i : ℕ} {m : Map K V}
    (hc : Collected hash numBuckets hb h i m) (r : Step ι K V) :
    Collected hash numBuckets hb (r :: h) i m := by
  obtain ⟨time, h1, h2⟩ := hc
  exact ⟨time, fun j hj => ⟨(h1 j hj).1, (h1 j hj).2.trans (List.suffix_cons r h)⟩, h2⟩

/-- Nothing is collected yet. -/
theorem Collected.start (hb h : List (Step ι K V)) :
    Collected hash numBuckets hb h 0 fun _ => none :=
  ⟨fun _ => h, nofun, fun _ _ _ hk => absurd hk (Nat.not_lt_zero _),
    fun _ hk => absurd hk (Nat.not_lt_zero _), fun _ _ => rfl⟩

/-- The loop is over. -/
theorem Collected.finish {hb h : List (Step ι K V)} {i : ℕ} {m : Map K V}
    (hc : Collected hash numBuckets hb h i m) (hn : 0 < numBuckets) (hi : ¬ i < numBuckets) :
    Collected hash numBuckets hb h numBuckets m := by
  obtain ⟨time, h1, h2, h3, -⟩ := hc
  have hi : numBuckets ≤ i := Nat.not_lt.mp hi
  refine ⟨time, fun j hj => h1 j (by omega), fun j k hjk hk => h2 j k hjk (by omega),
    fun key hk => h3 key (by omega), fun key hk => ?_⟩
  have := Nat.mod_lt (hash key) hn
  omega

theorem findEntryFor_mem {data : List (K × V)} {key : K} {v : V}
    (hf : findEntryFor data key = some v) : ∃ e ∈ data, (e.1 == key) = true := by
  obtain ⟨e, he, -⟩ := Option.map_eq_some_iff.mp hf
  exact ⟨e, List.mem_of_find?_eq_some he, by simpa using List.find?_some he⟩

/-- The snapshot of bucket `i` comes in. -/
theorem Collected.take (hh : Agrees hash) {hb h : List (Step ι K V)} {i : ℕ} {result : Map K V}
    (hc : Collected hash numBuckets hb h i result) (hbh : hb <:+ h) (r : Step ι K V)
    (hb' : ∀ e ∈ r.cfg.shared.data i, hash e.1 % numBuckets = i) :
    Collected hash numBuckets hb (r :: h) (i + 1)
      (merge result (findEntryFor (r.cfg.shared.data i))) := by
  obtain ⟨time, h1, h2, h3, h4⟩ := hc
  have hother : ∀ key, hash key % numBuckets ≠ i →
      findEntryFor (r.cfg.shared.data i) key = none := by
    intro key hk
    cases hf : findEntryFor (r.cfg.shared.data i) key with
    | none => rfl
    | some v =>
      obtain ⟨e, he, heq⟩ := findEntryFor_mem hf
      rw [← hh _ _ heq] at hk
      exact absurd (hb' e he) hk
  refine ⟨fun j => if j < i then time j else r :: h, fun j hj => ?_, fun j k hjk hk => ?_,
    fun key hk => ?_, fun key hk => ?_⟩
  · dsimp only
    split
    · rename_i hji
      exact ⟨(h1 j hji).1, (h1 j hji).2.trans (List.suffix_cons r h)⟩
    · exact ⟨hbh.trans (List.suffix_cons r h), List.suffix_rfl⟩
  · dsimp only
    by_cases hki : k < i
    · rw [if_pos hki, if_pos (by omega)]
      exact h2 j k hjk hki
    · rw [if_neg hki]
      split
      · rename_i hji
        exact (h1 j hji).2.trans (List.suffix_cons r h)
      · exact List.suffix_rfl
  · dsimp only
    by_cases hki : hash key % numBuckets < i
    · rw [if_pos hki, merge, hother key (by omega), Option.or_none]
      exact h3 key hki
    · have he : hash key % numBuckets = i := by omega
      rw [if_neg hki, merge, h4 key (by omega), Option.none_or]
      simp [content, after, he]
  · rw [merge, h4 key (by omega), hother key (by omega)]
    rfl

/-- Other threads' steps. -/
theorem Pc.Ok.cons {h : List (Step ι K V)} {u : ι} {pc : Pc K V} (hp : pc.Ok hash numBuckets h u)
    {r : Step ι K V} (hr : r.tid ≠ u) : pc.Ok hash numBuckets (r :: h) u := by
  have hcall : ∀ {hb}, Called h u hb → Called (r :: h) u hb := fun hc => hc.cons fun e =>
    absurd e hr
  cases pc with
  | idle => trivial
  | next i result =>
    obtain ⟨hb, h1, h2⟩ := hp
    exact ⟨hb, hcall h1, h2.cons r⟩
  | lock i a result | access i a result =>
    cases result with
    | none => exact hp
    | some result =>
      obtain ⟨ha, hb, h1, h2⟩ := hp
      exact ⟨ha, hb, hcall h1, h2.cons r⟩
  | unlock i res result =>
    cases result with
    | none => exact hp
    | some result =>
      obtain ⟨m, hb, hm, h1, h2⟩ := hp
      exact ⟨m, hb, hm, hcall h1, h2.cons r⟩
  | done res =>
    intro m hm
    obtain ⟨hb, h1, h2⟩ := hp m hm
    exact ⟨hb, hcall h1, h2.cons r⟩

theorem update_mem {key : K} {value : V} {data : List (K × V)} {e : K × V}
    (he : e ∈ update key value data) : ∃ e' ∈ data, e'.1 = e.1 := by
  induction data with
  | nil => cases he
  | cons item rest ih =>
    unfold update at he
    split at he
    · rcases List.mem_cons.mp he with rfl | he
      · exact ⟨item, List.mem_cons_self, rfl⟩
      · exact ⟨e, List.mem_cons_of_mem _ he, rfl⟩
    · rcases List.mem_cons.mp he with rfl | he
      · exact ⟨e, List.mem_cons_self, rfl⟩
      · obtain ⟨e', he', hk⟩ := ih he
        exact ⟨e', List.mem_cons_of_mem _ he', hk⟩

/-- The keys of a bucket after an access. -/
theorem act_mem {data : List (K × V)} {a : Access K V} {e : K × V} (he : e ∈ (a.act data).1) :
    (∃ e' ∈ data, e'.1 = e.1) ∨ ∃ value, a = .addOrUpdateMapping e.1 value := by
  cases a with
  | valueFor key | snapshot => exact .inl ⟨e, he, rfl⟩
  | removeMapping key => exact .inl ⟨e, List.mem_of_mem_eraseP he, rfl⟩
  | addOrUpdateMapping key value =>
    dsimp only [Access.act] at he
    split at he
    · rcases List.mem_append.mp he with he | he
      · exact .inl ⟨e, he, rfl⟩
      · obtain rfl := List.mem_singleton.mp he
        exact .inr ⟨value, rfl⟩
    · exact .inl (update_mem he)

variable [DecidableEq ι] {h : List (Step ι K V)} {c : Config ι (Shared ι K V) (Pc K V)} {t : ι}

/-- **A step keeps the invariant.** -/
theorem Inv.step (hh : Agrees hash) (hI : Inv hash numBuckets h c) (hn : 0 < numBuckets)
    {ev : Event (Op K V) (Res K V)}
    {s : Shared ι K V} {l : Pc K V} (hm : Move hash numBuckets t c.shared ev (c.loc t) s l) :
    Inv hash numBuckets (⟨t, ev, c, c.set t s l⟩ :: h) (c.set t s l) := by
  have hpl := hI.place t
  suffices hnew : (∀ i, ∀ e ∈ s.data i, hash e.1 % numBuckets = i) ∧
      l.Ok hash numBuckets (⟨t, ev, c, c.set t s l⟩ :: h) t from
    ⟨hnew.1, Config.forall_set (p := fun u (pc : Pc K V) =>
      pc.Ok hash numBuckets (⟨t, ev, c, c.set t s l⟩ :: h) u) hnew.2
      fun u hu => (hI.place u).cons fun e => hu e.symm⟩
  have hcall : ∀ {hb}, Called h t hb → ev = .tau →
      Called (⟨t, ev, c, c.set t s l⟩ :: h) t hb := fun hc he => hc.cons fun _ => he
  generalize hft : c.loc t = pc at hm
  rw [hft] at hpl
  cases hm with
  | call o =>
    refine ⟨hI.bucket, ?_⟩
    cases o with
    | getMap =>
      exact ⟨_, ⟨[], _, h, rfl, rfl, rfl, rfl, by simp⟩, .start _ _⟩
    | valueFor key | removeMapping key => exact ⟨nofun, nofun⟩
    | addOrUpdateMapping key value =>
      refine ⟨nofun, fun key' value' he => ?_⟩
      cases he
      rfl
  | next i result hi =>
    obtain ⟨hb, h1, h2⟩ := hpl
    exact ⟨hI.bucket, rfl, hb, hcall h1 rfl, h2.cons _⟩
  | last i result hi =>
    obtain ⟨hb, h1, h2⟩ := hpl
    refine ⟨hI.bucket, fun m hm => ?_⟩
    cases hm
    exact ⟨hb, hcall h1 rfl, (h2.cons _).finish hn hi⟩
  | lock i a result hm =>
    refine ⟨hI.bucket, ?_⟩
    cases result with
    | none => exact hpl
    | some result =>
      obtain ⟨ha, hb, h1, h2⟩ := hpl
      exact ⟨ha, hb, hcall h1 rfl, h2.cons _⟩
  | access i a result =>
    cases result with
    | none =>
      refine ⟨fun j e he => ?_, fun m hm => ?_⟩
      · dsimp only at he
        by_cases hji : j = i
        · subst hji
          rw [Function.update_self] at he
          rcases act_mem he with ⟨e', he', hk⟩ | ⟨value, ha⟩
          · rw [← hk]
            exact hI.bucket j e' he'
          · exact (hpl.2 e.1 value ha).symm
        · rw [Function.update_of_ne hji] at he
          exact hI.bucket j e he
      · cases a with
        | snapshot => exact hpl.1 rfl
        | addOrUpdateMapping key value =>
          dsimp only [Access.act] at hm
          split at hm <;> cases hm
        | _ => cases hm
    | some result =>
      obtain ⟨rfl, hb, h1, h2⟩ := hpl
      have hdata : Function.update c.shared.data i (Access.snapshot.act (c.shared.data i)).1 =
          c.shared.data := Function.update_eq_self ..
      refine ⟨by rw [hdata]; exact hI.bucket, findEntryFor (c.shared.data i), hb, rfl,
        hcall h1 rfl, ?_⟩
      rw [hdata]
      exact h2.take hh h1.suffix ⟨t, .tau, c, c.set t c.shared _⟩ (hI.bucket i)
  | unlock i r => exact ⟨hI.bucket, fun m hm => absurd hm (hpl m)⟩
  | merge i m result =>
    obtain ⟨m', hb, hm, h1, h2⟩ := hpl
    cases hm
    exact ⟨hI.bucket, hb, hcall h1 rfl, h2.cons _⟩
  | ret r => exact ⟨hI.bucket, trivial⟩

theorem inv_run (hh : Agrees hash) (hn : 0 < numBuckets)
    (hr : (program hash numBuckets).Run Program.anyStep initial h c) : Inv hash numBuckets h c := by
  refine hr.induction (I := Inv hash numBuckets) ⟨fun i e he => ?_, fun _ => ?_⟩
    fun _ _ _ _ _ _ _ _ hI _ hs => hI.step hh hn (step_move hs)
  · cases he
  · trivial

/-- A step that returns was ready to. -/
theorem ret_place (hr : (program hash numBuckets).Run Program.anyStep initial h c)
    {h₁ h₂ : List (Step ι K V)} {r : Step ι K V} {res : Res K V} (he : h = h₁ ++ r :: h₂)
    (hret : r.ev = .ret res) : r.pre.loc r.tid = .done res := by
  subst he
  obtain ⟨k, s, l, -, hs, -⟩ := hr.step_at
  have hm := step_move hs
  rw [hret] at hm
  generalize r.pre.loc r.tid = pc at hm
  cases hm
  rfl

end

/-- **What `get_map` returns.** In every run, the map that a `get_map` returns is, bucket by bucket,
what the bucket held at one instant between the call and the return, and these instants come in the
order of the buckets. -/
theorem get_map_buckets [DecidableEq K] [DecidableEq ι] {hash : K → ℕ} {numBuckets : ℕ}
    {h : List (Step ι K V)} {c : Config ι (Shared ι K V) (Pc K V)} (hn : 0 < numBuckets)
    (hr : (program hash numBuckets).Run Program.anyStep initial h c) {h₁ h₂ : List (Step ι K V)}
    {r : Step ι K V} {m : Map K V} (he : h = h₁ ++ r :: h₂) (hret : r.ev = .ret (.map m)) :
    ∃ hb, Called h₂ r.tid hb ∧ ∃ time : ℕ → List (Step ι K V),
      (∀ i < numBuckets, hb <:+ time i ∧ time i <:+ h₂) ∧
      (∀ i j, i ≤ j → j < numBuckets → time i <:+ time j) ∧
      ∀ key, m key = content hash numBuckets (after (time (hash key % numBuckets))) key := by
  subst he
  have hI := inv_run (fun _ _ he => by rw [eq_of_beq he]) hn hr.before
  have hpl := hI.place r.tid
  rw [ret_place hr rfl hret] at hpl
  obtain ⟨hb, h1, time, h2, h3, h4, -⟩ := hpl m rfl
  exact ⟨hb, h1, time, h2, h3, fun key => h4 key (Nat.mod_lt _ hn)⟩

/-- A schedule in which thread `t` calls `o` and takes `n` more steps. -/
def turn {ι K V : Type} (t : ι) (o : Op K V) (n : ℕ) : List (ι × Choice K V) :=
  (t, .call o) :: List.replicate n (t, .run)

/-- A `get_map` over two buckets has copied the first one; then key 0 is added there, and after that
key 1 to the second; then it goes on. -/
def addedBehind : List (Bool × Choice ℕ ℕ) :=
  [turn false .getMap 4, turn true (.addOrUpdateMapping 0 7) 4,
  turn true (.addOrUpdateMapping 1 8) 4,
    List.replicate 6 (false, .run)].flatten

/-- The last step has returned a map with key 1 and without key 0. -/
def mapped (h : List (Step Bool ℕ ℕ)) : Bool :=
  match h with
  | ⟨_, .ret (.map m), _, _⟩ :: _ => m 0 = none ∧ m 1 = some 8
  | _ => false

theorem get_map_buckets_added :
    ∃ (h : List (Step Bool ℕ ℕ)) (c : Config Bool (Shared Bool ℕ ℕ) (Pc ℕ ℕ)) (r : Step Bool ℕ ℕ)
      (h₂ : List (Step Bool ℕ ℕ)) (m : Map ℕ ℕ),
      (program id 2).Run Program.anyStep initial h c ∧ h = r :: h₂ ∧ r.ev = .ret (.map m) ∧
      ∃ hb, Called h₂ r.tid hb ∧ ∃ time : ℕ → List (Step Bool ℕ ℕ),
        (∀ i < 2, hb <:+ time i ∧ time i <:+ h₂) ∧ (∀ i j, i ≤ j → j < 2 → time i <:+ time j) ∧
        ∀ key, m key = content id 2 (after (time (id key % 2))) key := by
  obtain ⟨h, c, hr, hq⟩ := Program.replay_reaches (program id 2) initial addedBehind
    (fun h _ => mapped h) (by decide)
  unfold mapped at hq
  split at hq
  · rename_i t m pre cfg h₂
    have he : ∀ r : Step Bool ℕ ℕ, r :: h₂ = [] ++ r :: h₂ := fun _ => rfl
    exact ⟨_, c, _, h₂, m, hr, rfl, rfl, get_map_buckets (by decide) hr (he _) rfl⟩
  · cases hq

/-- **No snapshot of the table.** At no instant does the table hold key 1 without key 0, but the map
does. -/
theorem get_map_mixed :
    ¬ ∀ (h : List (Step Bool ℕ ℕ)) (c : Config Bool (Shared Bool ℕ ℕ) (Pc ℕ ℕ)) (r : Step Bool ℕ ℕ)
      (h₂ : List (Step Bool ℕ ℕ)) (m : Map ℕ ℕ),
      (program id 2).Run Program.anyStep initial h c → h = r :: h₂ → r.ev = .ret (.map m) →
      ∃ hb, Called h₂ r.tid hb ∧ ∃ g, hb <:+ g ∧ g <:+ h₂ ∧ m = content id 2 (after g) := by
  intro hall
  obtain ⟨h, c, hr, hq⟩ := Program.replay_reaches (program id 2) initial addedBehind
    (fun h _ => mapped h && h.all fun r =>
      decide (content id 2 r.cfg.shared 1 = none ∨ content id 2 r.cfg.shared 0 ≠ none))
    (by decide)
  obtain ⟨hm, hstates⟩ := Bool.and_eq_true _ _ ▸ hq
  unfold mapped at hm
  split at hm
  · rename_i t m pre cfg h₂
    obtain ⟨hm0, hm1⟩ := of_decide_eq_true hm
    obtain ⟨hb, ⟨ha, r, hb', -, rfl, -⟩, g, hg, hg', rfl⟩ := hall _ c _ h₂ m hr rfl rfl
    cases g with
    | nil => exact absurd hg (by simp)
    | cons x g =>
      have hx := of_decide_eq_true (List.all_eq_true.mp hstates x
        (List.mem_cons_of_mem _ (hg'.subset List.mem_cons_self)))
      rcases hx with hx | hx
      · rw [show content id 2 (after (x :: g)) 1 = none from hx] at hm1
        cases hm1
      · exact hx hm0
  · cases hm

end Bonostl.ThreadsafeLookupTable
