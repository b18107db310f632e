import Mathlib.Algebra.Order.BigOperators.Group.Finset
import Bonostl.ParallelPartialSum.Invariant

/-!
# Runs of `parallel_partial_sum`

`Inv` holds in every run (`inv_run`), whichever additions throw. Every step lowers a cost, and a
thread can step until `main` has returned, the program has been terminated, or `main` stands before
the division by zero (`completes`).
-/

namespace Bonostl.ParallelPartialSum

open Interleaving Blocks

variable {α ε : Type}

/-- Where `process_chunk` stands in a thread. -/
def Pc.chunk? : Pc α ε → Option (Chunk α ε)
  | .run p => some p
  | .join _ r | .ret r => some (.done r)
  | .finished => some (.done none)
  | _ => none

section
variable (add : α → α → α) (num : ℕ) (first : ℕ → ℕ) (x : ℕ → α)

/-- What `main` knows at each place. -/
def MainOk (s : Shared α ε) : Pc α ε → Prop
  | .enter => True
  | .spawn i => i < num ∧ ∀ b < i, s.started b = true
  | .run _ => 0 < num ∧ ∀ b, b + 1 < num → s.started b = true
  | .join i _ => i < num ∧ (∀ b, b + 1 < num → s.started b = true) ∧ ∀ b < i, s.finished b = true
  | .ret r => (num = 0 → r = none) ∧ ∀ b, b + 1 < num → s.finished b = true
  | _ => False

/-- What the thread of chunk `b` knows at each place. -/
def ThreadOk (s : Shared α ε) (b : ℕ) : Pc α ε → Prop
  | .idle => s.finished b = false
  | .run _ => b + 1 < num ∧ s.finished b = false
  | .finished => b + 1 < num ∧ s.finished b = true
  | _ => False

/-- **The invariant.** -/
structure Inv (h : List (Step α ε)) (c : Config Thread (Shared α ε) (Pc α ε)) : Prop where
  main : MainOk num c.shared (c.loc .main)
  thread (b : ℕ) : ThreadOk num c.shared b (c.loc (.chunk b))
  chunk (b : ℕ) (hb : b < num) : Ok add num first x h c.shared b (c.loc (owner num b)).chunk?
  handed (b : ℕ) (v : Except (Exn ε) α) (hv : c.shared.endValues b = some v) :
    Handed add first x h b v
  started (b : ℕ) (hb : c.shared.started b = true) : b + 1 < num
  throwers (t : Thread) (ht : ThrewIn h t) : ∃ b < num, t = owner num b
  terminated (ht : c.shared.terminated = true) : ∃ b, b + 1 < num ∧ LateIn h (.chunk b)
  untouched (hn : num = 0) : c.shared.mem = x
end

section
variable {add : α → α → α} {length num n : ℕ} {first : ℕ → ℕ} {x : ℕ → α} {h : List (Step α ε)}
  {c : Config Thread (Shared α ε) (Pc α ε)} {s' : Shared α ε} {l' : Pc α ε} {t : Thread}
  {ev : Event Unit (Option (Exn ε))} {b : ℕ}

theorem owner_last (hn : 0 < num) : owner num (num - 1) = .main := if_pos (by omega)

theorem owner_chunk (hb : b + 1 < num) : owner num b = .chunk b := if_neg (by omega)

theorem owner_inj {b' : ℕ} (h : owner num b = owner num b') : b = b' := by
  unfold owner at h
  split at h <;> split at h
  · omega
  · cases h
  · cases h
  · exact Thread.chunk.inj h

theorem inv_initial (add : α → α → α) (num : ℕ) (first : ℕ → ℕ) (x : ℕ → α) :
    Inv (ε := ε) add num first x [] (initial x) where
  main := trivial
  thread _ := rfl
  chunk b hb := by
    have hp : ((initial (ε := ε) x).loc (owner num b)).chunk? = none := by
      unfold owner
      split <;> rfl
    rw [hp]
    exact ⟨by simp [ThrewIn], rfl, fun _ _ _ => rfl⟩
  handed _ _ hv := by cases hv
  started _ hb := by cases hb
  throwers t ht := by simp [ThrewIn] at ht
  terminated ht := by cases ht
  untouched _ := rfl

/-- A step that is not one of `process_chunk`. -/
theorem Inv.still (hI : Inv add num first x h c) (hmain : MainOk num s' ((c.set t s' l').loc .main))
    (hthread : ∀ b, ThreadOk num s' b ((c.set t s' l').loc (.chunk b)))
    (hplace : l'.chunk? = (c.loc t).chunk? ∨ ∀ b < num, t ≠ owner num b)
    (hr : throws (c.loc t) l' = none) (hmem : s'.mem = c.shared.mem)
    (hend : s'.endValues = c.shared.endValues) (hstarted : ∀ b, s'.started b = true → b + 1 < num)
    (hterm : s'.terminated = true → ∃ b, b + 1 < num ∧ LateIn h (.chunk b)) :
    Inv add num first x (⟨t, ev, c, c.set t s' l'⟩ :: h) (c.set t s' l') := by
  have hr' : thrownIn ⟨t, ev, c, c.set t s' l'⟩ = none := by
    rw [thrownIn, Config.set_loc_self]
    exact hr
  refine ⟨hmain, hthread, fun b hb => ?_, fun b v hv => ?_, hstarted, fun u hu => ?_, fun ht => ?_,
    fun hn => hmem.trans (hI.untouched hn)⟩
  · have hok := (hI.chunk b hb).still hr' hmem hend
    by_cases hto : owner num b = t
    · subst hto
      rcases hplace with hplace | hne
      · rw [Config.set_loc_self, hplace]
        exact hok
      · exact absurd rfl (hne b hb)
    · rwa [Config.set_loc_ne c hto]
  · exact (hI.handed b v (by rwa [← hend])).cons
  · exact hI.throwers u ((threwIn_of_none hr').mp hu)
  · obtain ⟨b, hb, hl⟩ := hterm ht
    exact ⟨b, hb, (late_cons (.inl hr')).mpr hl⟩

/-- A step of `process_chunk`, or its beginning. -/
theorem Inv.process (hI : Inv add num first x h c) (hb : b < num) (hto : owner num b = t)
    (hmain : MainOk num s' ((c.set t s' l').loc .main))
    (hthread : ∀ b, ThreadOk num s' b ((c.set t s' l').loc (.chunk b)))
    (hok : Ok add num first x (⟨t, ev, c, c.set t s' l'⟩ :: h) s' b l'.chunk?)
    (hmem : ∀ j, j < first b ∨ first (b + 1) ≤ j → s'.mem j = c.shared.mem j)
    (hblocks : ∀ b' < num, b' ≠ b → first (b' + 1) ≤ first b ∨ first (b + 1) ≤ first b')
    (hother : ∀ b' ≠ b, s'.endValues b' = c.shared.endValues b')
    (hset : ∀ v, c.shared.endValues b = some v → s'.endValues b = some v)
    (hhanded : ∀ v, s'.endValues b = some v →
      c.shared.endValues b = some v ∨ Handed add first x h b v)
    (hstarted : s'.started = c.shared.started) (hterm : s'.terminated = c.shared.terminated) :
    Inv add num first x (⟨t, ev, c, c.set t s' l'⟩ :: h) (c.set t s' l') := by
  refine ⟨hmain, hthread, fun b' hb' => ?_, fun b' v hv => ?_, fun b' hb' => hI.started b'
    (hstarted ▸ hb'),
    fun u hu => ?_, fun ht => ?_, fun hn => absurd hn (by omega)⟩
  · by_cases hbb : b' = b
    · subst hbb hto
      rw [Config.set_loc_self]
      exact hok
    · have hne : owner num b' ≠ t := fun he => hbb (owner_inj (he.trans hto.symm))
      rw [Config.set_loc_ne c hne]
      refine (hI.chunk b' hb').frame hne.symm (fun j h1 h2 => hmem j ?_) (hother b' hbb)
        fun v hv => ?_
      · rcases hblocks b' hb' hbb with hle | hle
        · exact .inl (h2.trans_le hle)
        · exact .inr (hle.trans h1)
      · by_cases hbb' : b' - 1 = b
        · subst hbb'
          exact hset v hv
        · exact (hother _ hbb').trans hv
  · have hold : Handed add first x h b' v := by
      by_cases hbb : b' = b
      · subst hbb
        rcases hhanded v hv with hold | hnew
        · exact hI.handed b' v hold
        · exact hnew
      · exact hI.handed b' v ((hother b' hbb).symm.trans hv)
    exact hold.cons
  · rcases threwIn_cons.mp hu with ⟨hut, -⟩ | hu
    · exact ⟨b, hb, hut.symm.trans hto.symm⟩
    · exact hI.throwers u hu
  · obtain ⟨b', hb', hl⟩ := hI.terminated (hterm ▸ ht)
    exact ⟨b', hb', lateIn_cons.mpr (.inr hl)⟩

theorem MainOk.mono {s : Shared α ε} (hm : MainOk num s l')
    (hs : ∀ b, s.started b = true → s'.started b = true)
    (hf : ∀ b, s.finished b = true → s'.finished b = true) : MainOk num s' l' := by
  cases l' with
  | spawn i => exact ⟨hm.1, fun b hb => hs b (hm.2 b hb)⟩
  | run p => exact ⟨hm.1, fun b hb => hs b (hm.2 b hb)⟩
  | join i r => exact ⟨hm.1, fun b hb => hs b (hm.2.1 b hb), fun b hb => hf b (hm.2.2 b hb)⟩
  | ret r => exact ⟨hm.1, fun b hb => hf b (hm.2 b hb)⟩
  | enter => trivial
  | _ => exact hm.elim

theorem ThreadOk.congr {s : Shared α ε} (ht : ThreadOk num s b l')
    (hf : s'.finished b = s.finished b) :
    ThreadOk num s' b l' := by
  cases l' with
  | idle => exact hf.trans ht
  | run p => exact ⟨ht.1, hf.trans ht.2⟩
  | finished => exact ⟨ht.1, hf.trans ht.2⟩
  | _ => exact ht.elim

/-- The threads, when `main` steps. -/
theorem threads_main (hI : Inv add num first x h c) (hf : s'.finished = c.shared.finished) (b : ℕ) :
    ThreadOk num s' b ((c.set .main s' l').loc (.chunk b)) := by
  rw [Config.set_loc_ne c (by simp)]
  exact (hI.thread b).congr (congrFun hf b)

/-- The threads, when one of them steps. -/
theorem threads_chunk (hI : Inv add num first x h c) (hself : ThreadOk num s' b l')
    (hf : ∀ b' ≠ b, s'.finished b' = c.shared.finished b') (b' : ℕ) :
    ThreadOk num s' b' ((c.set (.chunk b) s' l').loc (.chunk b')) := by
  by_cases hb : b' = b
  · subst hb
    rwa [Config.set_loc_self]
  · rw [Config.set_loc_ne c (by simpa using hb)]
    exact (hI.thread b').congr (hf b' hb)

/-- `main`, when a thread steps. -/
theorem main_chunk (hI : Inv add num first x h c) (hs : s'.started = c.shared.started)
    (hf : ∀ b, c.shared.finished b = true → s'.finished b = true) :
    MainOk num s' ((c.set (.chunk b) s' l').loc .main) := by
  rw [Config.set_loc_ne c (by simp)]
  exact hI.main.mono (fun b hb => hs ▸ hb) hf

/-- A thread that is joined has finished. -/
theorem Inv.thread_finished (hI : Inv add num first x h c) (hf : c.shared.finished b = true) :
    c.loc (.chunk b) = .finished := by
  have hthread := hI.thread b
  generalize c.loc (.chunk b) = l at hthread
  cases l with
  | finished => rfl
  | idle => exact absurd (hf.symm.trans hthread) (by simp)
  | run p => exact absurd (hf.symm.trans hthread.2) (by simp)
  | _ => exact hthread.elim

/-- `process_chunk` begins. -/
theorem Ok.chunkBegin {s : Shared α ε} {r : Step α ε} (hok : Ok add num first x h s b none)
    (hlt : first b < first (b + 1)) (hr : thrownIn r = none) :
    Ok add num first x (r :: h) s b (some (begin first b s)) := by
  obtain ⟨hq, hs, hh⟩ := hok
  have hmem : s.mem (first b) = x (first b) := hh _ (le_refl _) hlt
  refine ⟨quiet_cons hr hq, hs, Nat.lt_succ_self _, hlt, hmem.trans reduce_one.symm,
    hh.congr fun j h1 _ => ?_⟩
  unfold upTo
  split
  · obtain rfl : j = first b := by omega
    exact reduce_one.symm
  · rfl

/-- The blocks lie one after the other. -/
theorem blocks_apart (hD : Division n num first) (hb : b < num) :
    ∀ b' < num, b' ≠ b → first (b' + 1) ≤ first b ∨ first (b + 1) ≤ first b' := by
  intro b' hb' hne
  rcases Nat.lt_or_gt_of_ne hne with hlt | hgt
  · exact .inl (hD.mono hlt hb.le)
  · exact .inr (hD.mono hgt hb'.le)

/-- A thread begins with its chunk. -/
theorem Inv.chunkBegin (hI : Inv add num first x h c) (hD : Division n num first) (hb : b < num)
    (hto : owner num b = t) (hl : (c.loc t).chunk? = none)
    (hr : throws (c.loc t) (.run (begin first b c.shared)) = none)
    (hmain : MainOk num c.shared ((c.set t c.shared (.run (begin first b c.shared))).loc .main))
    (hthread : ∀ b', ThreadOk num c.shared b'
      ((c.set t c.shared (.run (begin first b c.shared))).loc (.chunk b'))) :
    Inv add num first x (⟨t, ev, c, c.set t c.shared (.run (begin first b c.shared))⟩ :: h)
      (c.set t c.shared (.run (begin first b c.shared))) := by
  have hok := hI.chunk b hb
  rw [hto, hl] at hok
  have hr' : thrownIn ⟨t, ev, c, c.set t c.shared (.run (begin first b c.shared))⟩ = none := by
    rw [thrownIn, Config.set_loc_self]
    exact hr
  exact hI.process hb hto hmain hthread (hok.chunkBegin (hD.lt b hb) hr') (fun _ _ => rfl)
    (blocks_apart hD hb) (fun _ _ => rfl) (fun _ hv => hv) (fun _ hv => .inl hv) rfl rfl

/-- A thread goes on with its chunk. -/
theorem Inv.chunkStep {p p' : Chunk α ε} (hI : Inv add num first x h c) (hD : Division n num first)
    (hb : b < num) (hto : owner num b = t) (hl : c.loc t = .run p)
    (hm : ChunkMove add num first b c.shared p s' p')
    (hmain : MainOk num s' ((c.set t s' (.run p')).loc .main))
    (hthread : ∀ b', ThreadOk num s' b' ((c.set t s' (.run p')).loc (.chunk b'))) :
    Inv add num first x (⟨t, ev, c, c.set t s' (.run p')⟩ :: h) (c.set t s' (.run p')) := by
  have hok := hI.chunk b hb
  rw [hto, hl] at hok
  obtain ⟨hstarted, -, hterm⟩ := hm.flags
  have hlt := hD.lt b hb
  subst hto
  refine hI.process hb rfl hmain hthread ?_ (fun j hj => hok.mem_other hlt hm hj)
    (blocks_apart hD hb)
    (fun b' hne => hm.endValues_other hne) (fun v hv => hm.endValues_set hv)
    (fun v hv => hok.handed hlt hm hv) hstarted hterm
  refine hok.step hb hlt (fun v hv => hI.handed _ _ hv) (fun e he => hI.handed _ _ he) hm rfl hl ?_
  exact Config.set_loc_self ..

/-- **A step keeps the invariant.** -/
theorem inv_move (hD : num ≠ 0 → Division n num first) (hlen : length = 0 → num = 0)
    (hI : Inv add num first x h c) (hm : Move add length num first c.shared t (c.loc t) s' l') :
    Inv add num first x (⟨t, ev, c, c.set t s' l'⟩ :: h) (c.set t s' l') := by
  have hmain := hI.main
  generalize hl : c.loc t = l at hm
  cases hm with
  | empty h0 =>
    have hn := hlen h0
    refine hI.still ?_ (threads_main hI rfl) (.inr fun b hb => by omega) (by rw [hl]; rfl) rfl rfl
      hI.started hI.terminated
    rw [Config.set_loc_self]
    exact ⟨fun _ => rfl, fun b hb => by omega⟩
  | divide h0 hn =>
    refine hI.still ?_ (threads_main hI rfl) (.inl (by rw [hl]; rfl)) (by rw [hl]; rfl) rfl rfl
      hI.started hI.terminated
    rw [Config.set_loc_self]
    exact ⟨Nat.pos_of_ne_zero hn, fun b hb => absurd hb (Nat.not_lt_zero b)⟩
  | spawn i hi =>
    rw [hl] at hmain
    obtain ⟨hin, hall⟩ := hmain
    refine hI.still ?_ (threads_main hI rfl) (.inl (by rw [hl]; rfl)) (by rw [hl]; rfl) rfl rfl
      (fun b hb => ?_) hI.terminated
    · rw [Config.set_loc_self]
      refine ⟨by omega, fun b hb => ?_⟩
      by_cases hbi : b = i
      · subst hbi
        exact Function.update_self _ _ _
      · exact (Function.update_of_ne hbi _ _).trans (hall b (by omega))
    · by_cases hbi : b = i
      · omega
      · exact hI.started b ((Function.update_of_ne hbi _ _).symm.trans hb)
  | own =>
    rw [hl] at hmain
    obtain ⟨hin, hall⟩ := hmain
    have hpos : 0 < num := Nat.pos_of_ne_zero (by rintro rfl; exact absurd hin (Nat.not_lt_zero _))
    refine hI.chunkBegin (hD hpos.ne') hin (owner_last hpos) (by rw [hl]; rfl) (by rw [hl]; rfl) ?_
      (threads_main hI rfl)
    rw [Config.set_loc_self]
    exact ⟨hpos, fun b hb => hall b (by omega)⟩
  | ownStep p s' p' hp =>
    rw [hl] at hmain
    obtain ⟨hpos, hall⟩ := hmain
    obtain ⟨hstarted, hfinished, -⟩ := hp.flags
    refine hI.chunkStep (hD hpos.ne') (by omega) (owner_last hpos) hl hp ?_
      (threads_main hI hfinished)
    rw [Config.set_loc_self]
    exact ⟨hpos, fun b hb => hstarted ▸ hall b hb⟩
  | ownEnd r =>
    rw [hl] at hmain
    obtain ⟨hpos, hall⟩ := hmain
    refine hI.still ?_ (threads_main hI rfl) (.inl (by rw [hl]; rfl)) (by rw [hl]; rfl) rfl rfl
      hI.started hI.terminated
    rw [Config.set_loc_self]
    exact ⟨hpos, hall, fun b hb => absurd hb (Nat.not_lt_zero b)⟩
  | join i r hi hf =>
    rw [hl] at hmain
    obtain ⟨hin, hall, hdone⟩ := hmain
    refine hI.still ?_ (threads_main hI rfl) (.inl (by rw [hl]; rfl)) (by rw [hl]; rfl) rfl rfl
      hI.started hI.terminated
    rw [Config.set_loc_self]
    refine ⟨by omega, hall, fun b hb => ?_⟩
    rcases Nat.lt_succ_iff_lt_or_eq.mp hb with hb | rfl
    · exact hdone b hb
    · exact hf
  | joined r =>
    rw [hl] at hmain
    obtain ⟨hin, hall, hdone⟩ := hmain
    refine hI.still ?_ (threads_main hI rfl) (.inl (by rw [hl]; rfl)) (by rw [hl]; rfl) rfl rfl
      hI.started hI.terminated
    rw [Config.set_loc_self]
    exact ⟨fun hn => by omega, fun b hb => hdone b (by omega)⟩
  | chunkBegin b hb =>
    have hlt := hI.started b hb
    have hthread := hI.thread b
    rw [hl] at hthread
    exact hI.chunkBegin (hD (by omega)) (by omega) (owner_chunk hlt) (by rw [hl]; rfl)
      (by rw [hl]; rfl)
      (main_chunk hI rfl fun _ hf => hf) (threads_chunk hI ⟨hlt, hthread⟩ fun _ _ => rfl)
  | chunkStep b p s' p' hp =>
    have hthread := hI.thread b
    rw [hl] at hthread
    obtain ⟨hlt, hf⟩ := hthread
    obtain ⟨hstarted, hfinished, -⟩ := hp.flags
    exact hI.chunkStep (hD (by omega)) (by omega) (owner_chunk hlt) hl hp
      (main_chunk hI hstarted fun b' hf => hfinished ▸ hf)
      (threads_chunk hI ⟨hlt, (congrFun hfinished b).trans hf⟩ fun b' _ => congrFun hfinished b')
  | chunkEnd b =>
    have hthread := hI.thread b
    rw [hl] at hthread
    obtain ⟨hlt, hf⟩ := hthread
    refine hI.still (main_chunk hI rfl fun b' hf => ?_)
      (threads_chunk hI ⟨hlt, Function.update_self _ _ _⟩
        fun b' hne => Function.update_of_ne hne _ _)
      (.inl (by rw [hl]; rfl)) (by rw [hl]; rfl) rfl rfl hI.started hI.terminated
    by_cases hbb : b' = b
    · subst hbb
      exact Function.update_self _ _ _
    · exact (Function.update_of_ne hbb _ _).trans hf
  | terminate b e =>
    have hthread := hI.thread b
    rw [hl] at hthread
    obtain ⟨hlt, hf⟩ := hthread
    have hok := hI.chunk b (by omega)
    rw [owner_chunk hlt, hl] at hok
    refine hI.still (main_chunk hI rfl fun _ hf => hf) (threads_chunk hI ⟨hlt, hf⟩ fun _ _ => rfl)
      (.inl (by rw [hl])) (by rw [hl]; rfl) rfl rfl hI.started fun _ => ⟨b, hlt, ?_⟩
    rcases hok with ⟨hlast, -⟩ | ⟨-, hlate⟩
    · omega
    · rwa [owner_chunk hlt] at hlate

/-! ## Every run comes to an end -/

/-- The steps of `process_chunk` that are left. -/
def chunkLeft (first : ℕ → ℕ) (b : ℕ) : Chunk α ε → ℕ
  | .sum i _ => (first (b + 1) - i) + (first (b + 1) - first b) + 7
  | .get => first (b + 1) - first b + 6
  | .last _ => first (b + 1) - first b + 5
  | .setValue _ => first (b + 1) - first b + 4
  | .others i _ => first (b + 1) - i + 3
  | .handler _ => 2
  | .done _ => 1

/-- A bound for the steps of chunk `b` that are left, by the place of the thread that processes it.
-/
def pcLeft (first : ℕ → ℕ) (b : ℕ) : Pc α ε → ℕ
  | .run p => chunkLeft first b p
  | .join _ _ | .ret _ | .finished => 0
  | _ => 2 * (first (b + 1) - first b) + 8

/-- The steps of `main` that are left, apart from its chunk. -/
def mainLeft (num : ℕ) : Pc α ε → ℕ
  | .enter => 2 * num + 5
  | .spawn i => num - i + num + 3
  | .run _ => num + 3
  | .join i _ => num - i + 1
  | _ => 0

/-- The steps of all chunks that are left. -/
def chunksLeft (num : ℕ) (first : ℕ → ℕ) (f : Thread → Pc α ε) : ℕ :=
  (Finset.range num).sum fun b => pcLeft first b (f (owner num b))

/-- The steps that are left. -/
def cost (num : ℕ) (first : ℕ → ℕ) (c : Config Thread (Shared α ε) (Pc α ε)) : ℕ :=
  (if c.shared.terminated then 0 else 1) + mainLeft num (c.loc .main) + chunksLeft num first c.loc

theorem chunkLeft_lt {s : Shared α ε} {p p' : Chunk α ε} (hlt : first b < first (b + 1))
    (hok : Ok add num first x h s b (some p)) (hm : ChunkMove add num first b s p s' p') :
    chunkLeft first b p' < chunkLeft first b p := by
  cases hm with
  | sumEnd acc =>
    unfold afterSum
    split
    · simp only [chunkLeft]
      omega
    · split <;> simp only [chunkLeft] <;> omega
  | sum i acc hi =>
    have hle := hok.2.2.2.1
    simp only [chunkLeft]
    omega
  | last addend =>
    unfold afterLast
    split <;> simp only [chunkLeft] <;> omega
  | others i addend hi =>
    have hle := hok.2.2.2.1
    unfold lastOf at hle
    simp only [chunkLeft]
    omega
  | _ =>
    simp only [chunkLeft]
    omega

theorem owner_main (hto : owner num b = .main) : b + 1 = num := by
  by_contra hne
  rw [owner, if_neg hne] at hto
  cases hto

theorem chunksLeft_le
    (hb : ∀ b < num, owner num b = t → pcLeft first b l' ≤ pcLeft first b (c.loc t)) :
    chunksLeft num first (c.set t s' l').loc ≤ chunksLeft num first c.loc := by
  refine Finset.sum_le_sum fun b hmem => ?_
  by_cases hto : owner num b = t
  · rw [hto, Config.set_loc_self]
    exact hb b (Finset.mem_range.mp hmem) hto
  · rw [Config.set_loc_ne c hto]

theorem chunksLeft_lt (hb : b < num) (hto : owner num b = t)
    (hlt : pcLeft first b l' < pcLeft first b (c.loc t)) :
    chunksLeft num first (c.set t s' l').loc < chunksLeft num first c.loc := by
  refine Finset.sum_lt_sum (fun b' hmem => ?_) ⟨b, Finset.mem_range.mpr hb, ?_⟩
  · by_cases hbb : b' = b
    · subst hbb
      rw [hto, Config.set_loc_self]
      exact hlt.le
    · rw [Config.set_loc_ne c fun he => hbb (owner_inj (he.trans hto.symm))]
  · rw [hto, Config.set_loc_self]
    exact hlt

theorem cost_main (hlt : mainLeft num l' < mainLeft num (c.loc .main))
    (hpc : ∀ b, b + 1 = num → pcLeft first b l' ≤ pcLeft first b (c.loc .main))
    (hterm : s'.terminated = c.shared.terminated) :
    cost num first (c.set .main s' l') < cost num first c := by
  have hsum : chunksLeft num first (c.set .main s' l').loc ≤ chunksLeft num first c.loc :=
    chunksLeft_le fun b _ hto => hpc b (owner_main hto)
  unfold cost
  rw [Config.set_loc_self, Config.set_shared, hterm]
  omega

theorem cost_chunk (hb : b < num) (hto : owner num b = t)
    (hlt : pcLeft first b l' < pcLeft first b (c.loc t))
    (hmain : mainLeft num ((c.set t s' l').loc .main) = mainLeft num (c.loc .main))
    (hterm : s'.terminated = c.shared.terminated) :
    cost num first (c.set t s' l') < cost num first c := by
  have hsum : chunksLeft num first (c.set t s' l').loc < chunksLeft num first c.loc :=
    chunksLeft_lt hb hto hlt
  unfold cost
  rw [hmain, Config.set_shared, hterm]
  omega

theorem cost_terminate (hbefore : c.shared.terminated = false) (hterm : s'.terminated = true)
    (hsame : l' = c.loc t) (hmain : (c.set t s' l').loc .main = c.loc .main) :
    cost num first (c.set t s' l') < cost num first c := by
  have hsum : chunksLeft num first (c.set t s' l').loc ≤ chunksLeft num first c.loc :=
    chunksLeft_le fun _ _ _ => by rw [hsame]
  unfold cost
  rw [hmain, Config.set_shared, hbefore, hterm, if_pos rfl, if_neg (by simp)]
  omega

theorem cost_move (hD : num ≠ 0 → Division n num first) (hI : Inv add num first x h c)
    (hterm : c.shared.terminated = false)
    (hm : Move add length num first c.shared t (c.loc t) s' l') :
    cost num first (c.set t s' l') < cost num first c := by
  have hmain := hI.main
  generalize hl : c.loc t = l at hm
  cases hm with
  | empty h0 => exact cost_main (by rw [hl]; simp [mainLeft]) (by rw [hl]; simp [pcLeft]) rfl
  | divide h0 hn =>
    exact cost_main (by rw [hl]; simp only [mainLeft]; omega) (by rw [hl]; simp [pcLeft]) rfl
  | spawn i hi =>
    rw [hl] at hmain
    have hin := hmain.1
    exact cost_main (by rw [hl]; simp only [mainLeft]; omega) (by rw [hl]; simp [pcLeft]) rfl
  | own =>
    rw [hl] at hmain
    have hin := hmain.1
    refine cost_main (by rw [hl]; simp only [mainLeft]; omega) (fun b hb => ?_) rfl
    obtain rfl : b = num - 1 := by omega
    have hlt := (hD (by omega)).lt (num - 1) hin
    rw [hl]
    simp only [pcLeft, chunkLeft, begin]
    omega
  | ownStep p s' p' hp =>
    rw [hl] at hmain
    have hpos := hmain.1
    have hok := hI.chunk (num - 1) (by omega)
    rw [owner_last hpos, hl] at hok
    refine cost_chunk (show num - 1 < num by omega) (owner_last hpos) ?_ ?_ hp.flags.2.2
    · rw [hl]
      exact chunkLeft_lt ((hD hpos.ne').lt _ (by omega)) hok hp
    · rw [Config.set_loc_self, hl]
      rfl
  | ownEnd r =>
    exact cost_main (by rw [hl]; simp only [mainLeft]; omega) (by rw [hl]; simp [pcLeft, chunkLeft])
      rfl
  | join i r hi hf =>
    rw [hl] at hmain
    have hin := hmain.1
    exact cost_main (by rw [hl]; simp only [mainLeft]; omega) (by rw [hl]; simp [pcLeft]) rfl
  | joined r => exact cost_main (by rw [hl]; simp [mainLeft]) (by rw [hl]; simp [pcLeft]) rfl
  | chunkBegin b hb =>
    have hlt := hI.started b hb
    have hblock := (hD (by omega)).lt b (by omega)
    refine cost_chunk (show b < num by omega) (owner_chunk hlt) ?_ ?_ rfl
    · rw [hl]
      simp only [pcLeft, chunkLeft, begin]
      omega
    · rw [Config.set_loc_ne c (by simp)]
  | chunkStep b p s' p' hp =>
    have hthread := hI.thread b
    rw [hl] at hthread
    have hlt := hthread.1
    have hok := hI.chunk b (by omega)
    rw [owner_chunk hlt, hl] at hok
    refine cost_chunk (show b < num by omega) (owner_chunk hlt) ?_ ?_ hp.flags.2.2
    · rw [hl]
      exact chunkLeft_lt ((hD (by omega)).lt b (by omega)) hok hp
    · rw [Config.set_loc_ne c (by simp)]
  | chunkEnd b =>
    have hthread := hI.thread b
    rw [hl] at hthread
    refine cost_chunk (show b < num by have := hthread.1; omega) (owner_chunk hthread.1) ?_ ?_ rfl
    · rw [hl]
      exact Nat.one_pos
    · rw [Config.set_loc_ne c (by simp)]
  | terminate b e =>
    exact cost_terminate hterm rfl hl.symm (Config.set_loc_ne c (by simp) _ _)

end

/-! ## Where a run can end -/

section
variable {add : α → α → α} {length num n : ℕ} {first : ℕ → ℕ} {x : ℕ → α} {h : List (Step α ε)}
  {c c₀ : Config Thread (Shared α ε) (Pc α ε)} {b : ℕ}

/-- No thread can step. -/
def Ended (add : α → α → α) (length num : ℕ) (first : ℕ → ℕ)
    (c : Config Thread (Shared α ε) (Pc α ε)) : Prop :=
  ∀ t k, step add length num first t k c.shared (c.loc t) = none

theorem running_none (hterm : c.shared.terminated = false) (hend : Ended add length num first c)
    (t : Thread) : running add length num first .run c.shared t (c.loc t) = none := by
  have hs := hend t .run
  unfold step at hs
  rwa [hterm, if_neg (by simp)] at hs

/-- `process_chunk` goes on unless it waits. -/
theorem chunkStep_none (add : α → α → α) (num : ℕ) (first : ℕ → ℕ) {s : Shared α ε} {p : Chunk α ε}
    (hp : ∀ r, p ≠ .done r)
    (hs : chunkStep add num first b .run s p = none) : p = .get ∧ s.endValues (b - 1) = none := by
  cases p with
  | get =>
    refine ⟨rfl, ?_⟩
    simp only [chunkStep] at hs
    split at hs
    · assumption
    · cases hs
    · cases hs
  | done r => exact absurd rfl (hp r)
  | sum i acc =>
    simp only [chunkStep] at hs
    split at hs <;> cases hs
  | last addend => cases hs
  | setValue addend =>
    simp only [chunkStep] at hs
    split at hs <;> cases hs
  | others i addend =>
    simp only [chunkStep] at hs
    split at hs <;> cases hs
  | handler e =>
    simp only [chunkStep] at hs
    split at hs
    · split at hs <;> cases hs
    · cases hs

/-- A chunk that waits has one before it that has not handed on anything and has not finished. -/
theorem waits (hI : Inv add num first x h c) (hb : b < num)
    (hl : (c.loc (owner num b)).chunk? = some .get) (hnone : c.shared.endValues (b - 1) = none) :
    b ≠ 0 ∧ c.loc (.chunk (b - 1)) ≠ .finished := by
  have hok := hI.chunk b hb
  rw [hl] at hok
  have hb0 : b ≠ 0 := hok.2.2.1
  refine ⟨hb0, fun hfin => ?_⟩
  have hprev := hI.chunk (b - 1) (by omega)
  rw [owner_chunk (by omega), hfin] at hprev
  rcases hprev with hclean | ⟨-, -, e, he, -⟩
  · rw [hclean.handed (by omega)] at hnone
    cases hnone
  · rw [he] at hnone
    cases hnone

theorem runningChunk_none {s : Shared α ε} {p : Chunk α ε} (hp : ∀ r, p ≠ .done r)
    (hs : running add length num first .run s (.chunk b) (.run p) = none) :
    p = .get ∧ s.endValues (b - 1) = none := by
  refine chunkStep_none add num first hp ?_
  cases p with
  | done r => exact absurd rfl (hp r)
  | last addend => cases hs
  | _ => exact Option.map_eq_none_iff.mp hs

theorem runningMain_none {s : Shared α ε} {p : Chunk α ε} (hp : ∀ r, p ≠ .done r)
    (hs : running add length num first .run s .main (.run p) = none) :
    p = .get ∧ s.endValues (num - 1 - 1) = none := by
  refine chunkStep_none add num first hp ?_
  cases p with
  | done r => exact absurd rfl (hp r)
  | last addend => cases hs
  | _ => exact Option.map_eq_none_iff.mp hs

/-- Where no thread can step, a started chunk has finished if the one before it has. -/
theorem chunk_finished_of (hI : Inv add num first x h c) (hterm : c.shared.terminated = false)
    (hend : Ended add length num first c) (hstarted : c.shared.started b = true)
    (hprev : b ≠ 0 → c.loc (.chunk (b - 1)) = .finished) : c.loc (.chunk b) = .finished := by
  have hb := hI.started b hstarted
  have hs := running_none hterm hend (.chunk b)
  have hthread := hI.thread b
  generalize hl : c.loc (.chunk b) = l at hs hthread
  cases l with
  | idle => simp [running, hstarted] at hs
  | run p =>
    exfalso
    by_cases hp : ∃ r, p = .done r
    · obtain ⟨r, rfl⟩ := hp
      cases r <;> cases hs
    · obtain ⟨rfl, hnone⟩ := runningChunk_none (fun r he => hp ⟨r, he⟩) hs
      obtain ⟨hb0, hne⟩ := waits hI (show b < num by omega) (by rw [owner_chunk hb, hl]; rfl) hnone
      exact hne (hprev hb0)
  | finished => rfl
  | _ => exact hthread.elim

theorem chunk_finished (hI : Inv add num first x h c) (hterm : c.shared.terminated = false)
    (hend : Ended add length num first c) (hall : ∀ b, b + 1 < num → c.shared.started b = true)
    (hb : b + 1 < num) : c.loc (.chunk b) = .finished := by
  induction b with
  | zero => exact chunk_finished_of hI hterm hend (hall 0 hb) fun h0 => absurd rfl h0
  | succ b ih => exact chunk_finished_of hI hterm hend (hall _ hb) fun _ => ih (by omega)

/-- **Where a run can end.** -/
theorem ended_cases (hI : Inv add num first x h c) (hend : Ended add length num first c) :
    c.shared.terminated = true ∨ (∃ r, c.loc .main = .ret r) ∨
      (c.loc .main = .enter ∧ length ≠ 0 ∧ num = 0) := by
  by_cases hterm : c.shared.terminated = true
  · exact .inl hterm
  have hterm : c.shared.terminated = false := by simpa using hterm
  right
  have hs := running_none hterm hend .main
  have hmain := hI.main
  generalize hl : c.loc .main = l at hs hmain
  cases l with
  | enter =>
    simp only [running] at hs
    split at hs
    · cases hs
    · split at hs
      · exact .inr ⟨rfl, ‹_›, ‹_›⟩
      · cases hs
  | spawn i =>
    simp only [running] at hs
    split at hs <;> cases hs
  | run p =>
    exfalso
    obtain ⟨hpos, hall⟩ := hmain
    by_cases hp : ∃ r, p = .done r
    · obtain ⟨r, rfl⟩ := hp
      cases hs
    · obtain ⟨rfl, hnone⟩ := runningMain_none (fun r he => hp ⟨r, he⟩) hs
      obtain ⟨hb, hne⟩ := waits hI (show num - 1 < num by omega)
        (by rw [owner_last hpos, hl]; rfl) hnone
      exact hne (chunk_finished hI hterm hend hall (by omega))
  | join i r =>
    exfalso
    obtain ⟨hin, hall, -⟩ := hmain
    simp only [running] at hs
    split at hs
    · cases hs
    · split at hs
      · cases hs
      · rename_i hne hf
        have hfin := chunk_finished hI hterm hend hall (show i + 1 < num by omega)
        have hthread := hI.thread i
        rw [hfin] at hthread
        exact hf hthread.2
  | ret r => exact .inl ⟨r, rfl⟩
  | _ => exact hmain.elim

/-! ## Runs -/

/-- A run that began with `x`. -/
abbrev SumRun (add : α → α → α) (length num : ℕ) (first : ℕ → ℕ) (x : ℕ → α) (h : List (Step α ε))
    (c : Config Thread (Shared α ε) (Pc α ε)) : Prop :=
  (program add length num first).Run Program.anyStep (initial x) h c

theorem inv_run (hD : num ≠ 0 → Division n num first) (hlen : length = 0 → num = 0)
    (hr : SumRun add length num first x h c) : Inv add num first x h c := by
  refine hr.induction (I := Inv add num first x) (inv_initial add num first x) ?_
  intro h c t k ev s l _ hI _ hs
  exact inv_move hD hlen hI (step_move hs).2

/-- **Every run can be continued to its end.** -/
theorem completes (hD : num ≠ 0 → Division n num first) (hlen : length = 0 → num = 0)
    (hr : SumRun add length num first x h c) :
    ∃ h' c', SumRun add length num first x (h' ++ h) c' ∧ Ended add length num first c' := by
  have hd : (program (ε := ε) add length num first).Decreases
      (fun c => ∃ h, Inv add num first x h c) (cost num first) := by
    rintro c t k ev s l ⟨h, hI⟩ hs
    obtain ⟨hterm, hm⟩ := step_move hs
    exact ⟨⟨⟨t, ev, c, c.set t s l⟩ :: h, inv_move hD hlen hI hm⟩, cost_move hD hI hterm hm⟩
  refine hr.completes hd (fun c _ => ?_) ⟨[], inv_initial add num first x⟩
  by_cases hend : Ended add length num first c
  · exact .inl hend
  · right
    simp only [Ended, not_forall] at hend
    obtain ⟨t, k, hne⟩ := hend
    obtain ⟨⟨ev, s, l⟩, hs⟩ := Option.ne_none_iff_exists'.mp hne
    exact ⟨t, k, ev, s, l, hs⟩

end

end Bonostl.ParallelPartialSum
