import Bonostl.Interleaving.Points
import Bonostl.ThreadsafeLookupTable.Sequential

/-!
# `threadsafe_lookup_table` used by several threads

`value_for`, `add_or_update_mapping` and `remove_mapping` lock one bucket and take effect with their
access to it. A bucket holds the keys of its own hash only (`Table`), so the access is one of the
whole map, and the buckets together are a linearizable finite map: `table_linearizable`.

`get_map` reads the buckets one after the other, while the others go on. `MapSpec` says nothing
about what it returns, except that it changes nothing; what its result has to do with the table is
`get_map_buckets`.
-/

namespace Bonostl.ThreadsafeLookupTable

open Interleaving

variable {ι K V : Type} [BEq K]

/-- The sequential finite map. -/
inductive MapSpec : Map K V → Op K V → Res K V → Map K V → Prop
  | access (m : Map K V) (o : Op K V) (ho : o ≠ .getMap) : MapSpec m o (apply o m).2 (apply o m).1
  | getMap (m m' : Map K V) : MapSpec m .getMap (.map m') m

omit [BEq K] in
/-- The operation an access belongs to. -/
def Access.op : Access K V → Op K V
  | .valueFor key => .valueFor key
  | .addOrUpdateMapping key value => .addOrUpdateMapping key value
  | .removeMapping key => .removeMapping key
  | .snapshot => .getMap

omit [BEq K] in
/-- How far a thread's operation has come. -/
def Pc.status : Pc K V → Status (Op K V) (Res K V)
  | .idle => .idle
  | .lock _ a none | .access _ a none => .called a.op
  | .next _ _ | .lock _ _ (some _) | .access _ _ (some _) | .unlock _ _ (some _) => .called .getMap
  | .unlock _ r none | .done r => .done r

omit [BEq K] in
/-- The bucket and the access are those of the operation. -/
def Pc.Begun (hash : K → ℕ) (numBuckets : ℕ) : Pc K V → Prop
  | .lock i a none | .access i a none => a.op.begin hash numBuckets = .lock i a none
  | .lock _ a (some _) | .access _ a (some _) => a = .snapshot
  | _ => True

omit [BEq K] in
theorem begin_begun (hash : K → ℕ) (numBuckets : ℕ) (o : Op K V) :
    (o.begin hash numBuckets).Begun hash numBuckets ∧
      (o.begin hash numBuckets).status = .called o := by
  cases o <;> exact ⟨by simp [Op.begin, Pc.Begun, Access.op], rfl⟩

/-- The buckets are in order, and the threads at the right ones. -/
structure Shape (hash : K → ℕ) (numBuckets : ℕ) (s : Shared ι K V) (f : ι → Pc K V) : Prop where
  table : Table hash numBuckets s
  begun : ∀ t, (f t).Begun hash numBuckets

variable {hash : K → ℕ} {numBuckets : ℕ} {s s' : Shared ι K V} {f : ι → Pc K V} {t : ι}
  {ev : Event (Op K V) (Res K V)} {l' : Pc K V}

/-- A snapshot leaves its bucket as it is. -/
theorem access_snapshot (s : Shared ι K V) (i : ℕ) :
    ({ s with
      data := Function.update s.data i ((Access.snapshot (K := K) (V := V)).act (s.data i)).1 } :
      Shared ι K V) = s := by
  simp [Access.act]

theorem Table.mutex (hT : Table hash numBuckets s) (mutex : ℕ → Option ι) :
    Table hash numBuckets { s with mutex } := ⟨hT.bucket, hT.distinct⟩

variable [EquivBEq K]

/-- **One step** keeps the shape, and takes effect as the finite map says, or not at all. -/
theorem Shape.move (hI : Shape hash numBuckets s f) (hh : Agrees hash)
    (hm : Move hash numBuckets t s ev (f t) s' l') :
    (Table hash numBuckets s' ∧ l'.Begun hash numBuckets) ∧
      Commits MapSpec (content hash numBuckets) Pc.status s (f t) s' l' ev := by
  have hbegun := hI.begun t
  generalize f t = pc at hm hbegun
  cases hm with
  | call o =>
    obtain ⟨hb, hst⟩ := begin_begun hash numBuckets o
    exact ⟨⟨hI.table, hb⟩, .call o rfl hst rfl⟩
  | next i result hi => exact ⟨⟨hI.table, rfl⟩, .tau rfl rfl⟩
  | last i result hi => exact ⟨⟨hI.table, trivial⟩, .commit .getMap _ rfl rfl (.getMap _ _)⟩
  | lock i a result =>
    refine ⟨⟨hI.table.mutex _, ?_⟩, .tau ?_ rfl⟩
    · cases result <;> exact hbegun
    · cases result <;> rfl
  | access i a result =>
    cases result with
    | none =>
      have ho : a.op.begin hash numBuckets = .lock i a none := hbegun
      obtain ⟨hT, happly⟩ := hI.table.access hh ho
      have hne : a.op ≠ .getMap := by
        intro hget
        rw [hget] at ho
        cases ho
      refine ⟨⟨hT, trivial⟩, .commit a.op (a.act (s.data i)).2 rfl rfl ?_⟩
      have hspec := MapSpec.access (content hash numBuckets s) a.op hne
      rwa [happly] at hspec
    | some result =>
      obtain rfl : a = .snapshot := hbegun
      rw [access_snapshot]
      exact ⟨⟨hI.table, trivial⟩, .tau rfl rfl⟩
  | unlock i r => exact ⟨⟨hI.table.mutex _, trivial⟩, .tau rfl rfl⟩
  | merge i m result => exact ⟨⟨hI.table.mutex _, trivial⟩, .tau rfl rfl⟩
  | ret r => exact ⟨⟨hI.table, trivial⟩, .ret r rfl rfl rfl⟩

variable [DecidableEq ι] {h : List (Step ι K V)} {c : Config ι (Shared ι K V) (Pc K V)}

theorem Shape.run (hh : Agrees hash)
    (hr : (program hash numBuckets).Run Program.anyStep initial h c) :
    Shape hash numBuckets c.shared c.loc := by
  refine hr.induction (I := fun _ c => Shape hash numBuckets c.shared c.loc) ?_ ?_
  · exact ⟨⟨by simp [initial], fun i => List.Pairwise.nil⟩, fun t => trivial⟩
  · intro h c t k ev s l _ hI _ hs
    obtain ⟨⟨hT, hb⟩, -⟩ := hI.move hh (step_move hs)
    exact ⟨hT, Config.forall_set (p := fun _ l => Pc.Begun hash numBuckets l) hb fun u _ =>
      hI.begun u⟩

/-- **`threadsafe_lookup_table` is a linearizable map.** In every run, with any number of threads,
any number of buckets and any hash function that agrees on equal keys: the accesses to the buckets,
in their order, are a linearization of `value_for`, `add_or_update_mapping` and `remove_mapping` to
one finite map, which starts empty and ends as the content of the table; an entry is in the bucket
of its key, and no two entries of the table have the same key. -/
theorem table_linearizable (hh : Agrees hash)
    (hr : (program hash numBuckets).Run Program.anyStep initial h c) :
    (∃ H : Annotated ι (Shared ι K V) (Pc K V) (Op K V) (Res K V), H.map Prod.fst = h ∧
      Linearized MapSpec (content hash numBuckets) H (fun u => (c.loc u).status) ∧
      Legal MapSpec (fun _ => none) (order H) (content hash numBuckets c.shared)) ∧
    (∀ i, ∀ e ∈ c.shared.data i, i = hash e.1 % numBuckets) ∧
    (entries numBuckets c.shared).Pairwise fun e e' => ¬ (e.1 == e'.1) = true := by
  have hI := Shape.run hh hr
  refine ⟨?_, fun i e he => (hI.table.bucket i e he).symm, hI.table.entries_distinct hh⟩
  have hL : LinearizedBy MapSpec (content hash numBuckets) (fun _ => Pc.status) h c := by
    refine hr.commits (I := fun c => Shape hash numBuckets c.shared c.loc)
      (fun h c hrun => Shape.run hh hrun) (fun _ => rfl) fun c t k ev s l hI hstep => ?_
    exact (hI.move hh (step_move hstep)).2
  exact hL.legal hr

/-- Two threads in one table of two buckets: one adds a key while the other reads it. -/
theorem table_linearizable_race :
    ∃ (h : List (Step Bool ℕ ℕ)) (c : Config Bool (Shared Bool ℕ ℕ) (Pc ℕ ℕ)),
      (program id 2).Run Program.anyStep initial h c ∧ content id 2 c.shared 3 = some 7 ∧
      ∃ H : Annotated Bool (Shared Bool ℕ ℕ) (Pc ℕ ℕ) (Op ℕ ℕ) (Res ℕ ℕ), H.map Prod.fst = h ∧
        Legal MapSpec (fun _ => none) (order H) (content id 2 c.shared) := by
  obtain ⟨h, c, hr, hq⟩ := Program.replay_reaches (program id 2) initial
    [(false, .call (.addOrUpdateMapping 3 7)), (true, .call (.valueFor 3)), (true, .run),
    (true, .run),
      (true, .run), (false, .run), (false, .run), (false, .run)]
    (fun _ c => content id 2 c.shared 3 == some 7) (by decide)
  have hh : Agrees (id : ℕ → ℕ) := fun _ _ he => eq_of_beq he
  obtain ⟨⟨H, hH, -, hlegal⟩, -⟩ := table_linearizable hh hr
  exact ⟨h, c, hr, by simpa using hq, H, hH, hlegal⟩

end Bonostl.ThreadsafeLookupTable
