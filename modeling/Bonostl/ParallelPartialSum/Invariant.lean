import Bonostl.ParallelPartialSum.Model

/-!
# What each chunk has done

`Chunk.Ok` is a table of the places of `process_chunk`: what stands in the chunk's elements, what
its promise and the one before it have been set to, and which additions have thrown. A chunk's own
sums are `localSum`, its results `result`, its end value `endValue`. A promise that is set to a
value is set to the end value, and one that is set to an exception to one that an addition has
thrown. `Late` is the one place where an exception finds the promise already set: the loop over the
other elements.
-/

namespace Bonostl.ParallelPartialSum

open Interleaving Blocks

variable {α ε : Type}

/-- A step of a run. -/
abbrev Step (α ε : Type) := Rec Thread (Shared α ε) (Pc α ε) Unit (Option (Exn ε))

/-! ## Values -/

section
variable (add : α → α → α) (first : ℕ → ℕ) (x : ℕ → α)

/-- What `std::partial_sum` of chunk `b` writes at position `p`. -/
def localSum (b p : ℕ) : α := reduce add x (first b) (p + 1)

/-- The position of a chunk's last element. -/
def lastOf (b : ℕ) : ℕ := first (b + 1) - 1

/-- What a chunk hands on. -/
def endValue : ℕ → α
  | 0 => localSum add first x 0 (lastOf first 0)
  | b + 1 => add (localSum add first x (b + 1) (lastOf first (b + 1))) (endValue b)

/-- What a chunk leaves at position `p`. -/
def result (b p : ℕ) : α :=
  if b = 0 then localSum add first x b p
  else add (localSum add first x b p) (endValue add first x (b - 1))

theorem endValue_eq (b : ℕ) : endValue add first x b = result add first x b (lastOf first b) := by
  cases b <;> rfl
end

/-! ## Exceptions -/

/-- The exception an addition throws when a thread steps from one place to another. -/
def throws : Pc α ε → Pc α ε → Option ε
  | .run (.sum _ _), .run (.handler (.thrown e)) | .run (.last _), .run (.handler (.thrown e))
  | .run (.others _ _), .run (.handler (.thrown e)) => some e
  | _, _ => none

/-- The exception an addition throws in a step. -/
def thrownIn (r : Step α ε) : Option ε := throws (r.pre.loc r.tid) (r.cfg.loc r.tid)

/-- An addition has thrown `e`. -/
def Threw (h : List (Step α ε)) (e : ε) : Prop := ∃ r ∈ h, thrownIn r = some e

/-- An addition of thread `t` has thrown. -/
def ThrewIn (h : List (Step α ε)) (t : Thread) : Prop := ∃ r ∈ h, r.tid = t ∧ thrownIn r ≠ none

/-- A thread's place in the loop over the other elements. -/
def Pc.inOthers : Pc α ε → Bool
  | .run (.others _ _) => true
  | _ => false

/-- An addition of thread `t` has thrown in the loop over the other elements. -/
def LateIn (h : List (Step α ε)) (t : Thread) : Prop :=
  ∃ r ∈ h, r.tid = t ∧ thrownIn r ≠ none ∧ (r.pre.loc t).inOthers = true

section
variable {h : List (Step α ε)} {r : Step α ε} {e : ε} {t : Thread}

theorem Threw.cons (ht : Threw h e) : Threw (r :: h) e := by
  obtain ⟨r', hr', he⟩ := ht
  exact ⟨r', List.mem_cons_of_mem r hr', he⟩

theorem threw_now (hr : thrownIn r = some e) : Threw (r :: h) e := ⟨r, List.mem_cons_self, hr⟩

theorem threwIn_cons : ThrewIn (r :: h) t ↔ (r.tid = t ∧ thrownIn r ≠ none) ∨ ThrewIn h t := by
  simp [ThrewIn]

theorem lateIn_cons : LateIn (r :: h) t ↔
    (r.tid = t ∧ thrownIn r ≠ none ∧ (r.pre.loc t).inOthers = true) ∨ LateIn h t := by
  simp [LateIn]

theorem LateIn.threw (hl : LateIn h t) : ThrewIn h t := by
  obtain ⟨r, hr, ht, hne, -⟩ := hl
  exact ⟨r, hr, ht, hne⟩

theorem ThrewIn.threw (ht : ThrewIn h t) : ∃ e, Threw h e := by
  obtain ⟨r, hr, -, hne⟩ := ht
  obtain ⟨e, he⟩ := Option.ne_none_iff_exists'.mp hne
  exact ⟨e, r, hr, he⟩
end

/-! ## The table -/

section
variable (add : α → α → α) (num : ℕ) (first : ℕ → ℕ) (x : ℕ → α)

/-- The thread that processes chunk `b`. -/
def owner (b : ℕ) : Thread := if b + 1 = num then .main else .chunk b

/-- The chunk before has handed on its end value. -/
def Given (s : Shared α ε) (b : ℕ) : Prop :=
  b ≠ 0 → s.endValues (b - 1) = some (.ok (endValue add first x (b - 1)))

/-- The elements of chunk `b` are as `f` says. -/
def Holds (s : Shared α ε) (b : ℕ) (f : ℕ → α) : Prop :=
  ∀ j, first b ≤ j → j < first (b + 1) → s.mem j = f j

/-- The chunk's own sums up to position `i`, `f` from there on. -/
def upTo (i : ℕ) (f g : ℕ → α) (j : ℕ) : α := if j < i then f j else g j

/-- A chunk that has done its work. -/
structure Clean (h : List (Step α ε)) (s : Shared α ε) (b : ℕ) : Prop where
  quiet : ¬ ThrewIn h (owner num b)
  given : Given add first x s b
  handed : b + 1 < num → s.endValues b = some (.ok (endValue add first x b))
  values : Holds first s b (result add first x b)

/-- What holds at each place of `process_chunk` on chunk `b`; `none` before it. -/
def Ok (h : List (Step α ε)) (s : Shared α ε) (b : ℕ) : Option (Chunk α ε) → Prop
  | none => ¬ ThrewIn h (owner num b) ∧ s.endValues b = none ∧ Holds first s b x
  | some (.sum i acc) => ¬ ThrewIn h (owner num b) ∧ s.endValues b = none ∧ first b < i ∧
      i ≤ first (b + 1) ∧ acc = reduce add x (first b) i ∧
      Holds first s b (upTo i (localSum add first x b) x)
  | some .get => ¬ ThrewIn h (owner num b) ∧ s.endValues b = none ∧ b ≠ 0 ∧
      Holds first s b (localSum add first x b)
  | some (.last addend) => ¬ ThrewIn h (owner num b) ∧ s.endValues b = none ∧ b ≠ 0 ∧
      Given add first x s b ∧ addend = endValue add first x (b - 1) ∧
      Holds first s b (localSum add first x b)
  | some (.setValue addend) => ¬ ThrewIn h (owner num b) ∧ s.endValues b = none ∧ b + 1 < num ∧
      Given add first x s b ∧
      addend = (if b = 0 then none else some (endValue add first x (b - 1))) ∧
      Holds first s b (upTo (lastOf first b) (localSum add first x b) (result add first x b))
  | some (.others i addend) =>
    ¬ ThrewIn h (owner num b) ∧ b ≠ 0 ∧ first b ≤ i ∧ i ≤ lastOf first b ∧
      Given add first x s b ∧ (b + 1 < num → s.endValues b = some (.ok (endValue add first x b))) ∧
      addend = endValue add first x (b - 1) ∧
      Holds first s b fun j => if i ≤ j ∧ j < lastOf first b then localSum add first x b j
        else result add first x b j
  | some (.handler e) => (∃ e', e = .thrown e' ∧ Threw h e') ∧
      (b + 1 < num → (s.endValues b = none ↔ ¬ LateIn h (owner num b)))
  | some (.done none) => Clean add num first x h s b ∨
      (b + 1 < num ∧ ¬ LateIn h (owner num b) ∧
        ∃ e, s.endValues b = some (.error (.thrown e)) ∧ Threw h e)
  | some (.done (some e)) => (b + 1 = num ∧ ∃ e', e = .thrown e' ∧ Threw h e') ∨
      (b + 1 < num ∧ LateIn h (owner num b))
end

section
variable {add : α → α → α} {num : ℕ} {first : ℕ → ℕ} {x : ℕ → α} {h : List (Step α ε)}
  {r : Step α ε}
  {s s' : Shared α ε} {b : ℕ} {f g : ℕ → α}

theorem Holds.congr (hh : Holds first s b f) (hfg : ∀ j, first b ≤ j → j < first (b + 1) →
    f j = g j) :
    Holds first s b g := fun j h1 h2 => (hh j h1 h2).trans (hfg j h1 h2)

/-- A write to one element. -/
theorem Holds.update {i : ℕ} {v : α} (hh : Holds first s b f) (hv : v = g i)
    (hfg : ∀ j, first b ≤ j → j < first (b + 1) → j ≠ i → f j = g j) :
    Holds first { s with mem := Function.update s.mem i v } b g := by
  intro j h1 h2
  dsimp only
  by_cases hj : j = i
  · rw [hj, Function.update_self, hv]
  · rw [Function.update_of_ne hj, hh j h1 h2, hfg j h1 h2 hj]

theorem threwIn_of_none {t : Thread} (hr : thrownIn r = none) :
    ThrewIn (r :: h) t ↔ ThrewIn h t := by
  rw [threwIn_cons]
  exact or_iff_right fun ht => ht.2 hr

theorem quiet_cons {t : Thread} (hr : thrownIn r = none) (hq : ¬ ThrewIn h t) :
    ¬ ThrewIn (r :: h) t :=
  (threwIn_of_none hr).not.mpr hq

theorem quiet_other {t : Thread} (hr : r.tid ≠ t) : ThrewIn (r :: h) t ↔ ThrewIn h t := by
  rw [threwIn_cons]
  exact or_iff_right fun ht => hr ht.1

theorem late_other {t : Thread} (hr : r.tid ≠ t) : LateIn (r :: h) t ↔ LateIn h t := by
  rw [lateIn_cons]
  exact or_iff_right fun ht => hr ht.1

theorem late_cons {t : Thread} (hr : thrownIn r = none ∨ (r.pre.loc t).inOthers = false) :
    LateIn (r :: h) t ↔ LateIn h t := by
  rw [lateIn_cons]
  refine or_iff_right ?_
  rintro ⟨-, hne, hin⟩
  rcases hr with hr | hr
  · exact hne hr
  · rw [hr] at hin
    cases hin

/-- **Frame**: what a chunk's place says depends on its own elements, its own promise, the one
before it if that is set, and on what has thrown. -/
theorem Ok.congr {p : Option (Chunk α ε)} (hok : Ok add num first x h s b p)
    (hq : ThrewIn (r :: h) (owner num b) ↔ ThrewIn h (owner num b))
    (hl : LateIn (r :: h) (owner num b) ↔ LateIn h (owner num b))
    (hmem : ∀ j, first b ≤ j → j < first (b + 1) → s'.mem j = s.mem j)
    (hown : s'.endValues b = s.endValues b)
    (hbefore : ∀ v, s.endValues (b - 1) = some v → s'.endValues (b - 1) = some v) :
    Ok add num first x (r :: h) s' b p := by
  have hholds : ∀ {f}, Holds first s b f → Holds first s' b f := fun hh j h1 h2 =>
    (hmem j h1 h2).trans (hh j h1 h2)
  have hgiven : Given add first x s b → Given add first x s' b := fun hg hb => hbefore _ (hg hb)
  match p with
  | none =>
    obtain ⟨h1, h2, h3⟩ := hok
    exact ⟨hq.not.mpr h1, hown.trans h2, hholds h3⟩
  | some (.sum i acc) =>
    obtain ⟨h1, h2, h3, h4, h5, h6⟩ := hok
    exact ⟨hq.not.mpr h1, hown.trans h2, h3, h4, h5, hholds h6⟩
  | some .get =>
    obtain ⟨h1, h2, h3, h4⟩ := hok
    exact ⟨hq.not.mpr h1, hown.trans h2, h3, hholds h4⟩
  | some (.last addend) =>
    obtain ⟨h1, h2, h3, h4, h5, h6⟩ := hok
    exact ⟨hq.not.mpr h1, hown.trans h2, h3, hgiven h4, h5, hholds h6⟩
  | some (.setValue addend) =>
    obtain ⟨h1, h2, h3, h4, h5, h6⟩ := hok
    exact ⟨hq.not.mpr h1, hown.trans h2, h3, hgiven h4, h5, hholds h6⟩
  | some (.others i addend) =>
    obtain ⟨h1, h2, h3, h4, h5, h6, h7, h8⟩ := hok
    exact ⟨hq.not.mpr h1, h2, h3, h4, hgiven h5, fun hb => hown.trans (h6 hb), h7, hholds h8⟩
  | some (.handler e) =>
    obtain ⟨⟨e', he, ht⟩, h2⟩ := hok
    refine ⟨⟨e', he, ht.cons⟩, fun hb => ?_⟩
    rw [hown, hl]
    exact h2 hb
  | some (.done none) =>
    rcases hok with hc | ⟨h1, h2, e, he, ht⟩
    · exact .inl ⟨hq.not.mpr hc.quiet, hgiven hc.given, fun hb => hown.trans (hc.handed hb),
        hholds hc.values⟩
    · exact .inr ⟨h1, hl.not.mpr h2, e, hown.trans he, ht.cons⟩
  | some (.done (some e)) =>
    rcases hok with ⟨h1, e', he, ht⟩ | ⟨h1, h2⟩
    · exact .inl ⟨h1, e', he, ht.cons⟩
    · exact .inr ⟨h1, hl.mpr h2⟩

/-- A step of another thread. -/
theorem Ok.frame {p : Option (Chunk α ε)} (hok : Ok add num first x h s b p)
    (hr : r.tid ≠ owner num b) (hmem : ∀ j, first b ≤ j → j < first (b + 1) → s'.mem j = s.mem j)
    (hown : s'.endValues b = s.endValues b)
    (hbefore : ∀ v, s.endValues (b - 1) = some v → s'.endValues (b - 1) = some v) :
    Ok add num first x (r :: h) s' b p :=
  hok.congr (quiet_other hr) (late_other hr) hmem hown hbefore

/-- A step of any thread that throws nothing and writes nothing. -/
theorem Ok.still {p : Option (Chunk α ε)} (hok : Ok add num first x h s b p)
    (hr : thrownIn r = none)
    (hmem : s'.mem = s.mem) (hend : s'.endValues = s.endValues) :
    Ok add num first x (r :: h) s' b p :=
  hok.congr (threwIn_of_none hr) (late_cons (.inl hr)) (fun j _ _ => congrFun hmem j)
    (congrFun hend b)
    fun _ hv => (congrFun hend (b - 1)).trans hv

theorem lastOf_mem (hlt : first b < first (b + 1)) :
    first b ≤ lastOf first b ∧ lastOf first b < first (b + 1) := by
  unfold lastOf
  omega

theorem result_zero (p : ℕ) : result add first x 0 p = localSum add first x 0 p := if_pos rfl

theorem result_of_ne (hb : b ≠ 0) (p : ℕ) : result add first x b p =
    add (localSum add first x b p) (endValue add first x (b - 1)) := if_neg hb

/-- After `std::partial_sum`. -/
theorem ok_afterSum (hq : ¬ ThrewIn h (owner num b)) (hs : s.endValues b = none)
    (hh : Holds first s b (localSum add first x b)) :
    Ok add num first x h s b (some (afterSum num b)) := by
  unfold afterSum
  split
  · exact ⟨hq, hs, ‹_›, hh⟩
  · obtain rfl : b = 0 := by omega
    have hres : Holds first s 0 (result add first x 0) := hh.congr fun j _ _ => (result_zero j).symm
    split
    · refine ⟨hq, hs, ‹_›, fun h0 => absurd rfl h0, rfl, hres.congr fun j _ _ => ?_⟩
      unfold upTo
      rw [result_zero, ite_self]
    · exact .inl ⟨hq, fun h0 => absurd rfl h0, fun hb => absurd hb ‹_›, hres⟩

/-- After the patch of the last element. -/
theorem ok_afterLast (hlt : first b < first (b + 1)) (hq : ¬ ThrewIn h (owner num b))
    (hs : s.endValues b = none) (hb : b ≠ 0) (hg : Given add first x s b)
    (hh : Holds first s b (upTo (lastOf first b) (localSum add first x b) (result add first x b))) :
    Ok add num first x h s b (some (afterLast num first b (endValue add first x (b - 1)))) := by
  have hlast := lastOf_mem hlt
  unfold afterLast
  split
  · exact ⟨hq, hs, ‹_›, hg, (if_neg hb).symm, hh⟩
  · refine ⟨hq, hb, le_refl _, hlast.1, hg, fun hb => absurd hb ‹_›, rfl,
      hh.congr fun j h1 h2 => ?_⟩
    unfold upTo
    simp [h1]

/-- An addition throws before the chunk has handed on anything. -/
theorem ok_throw {e : ε} (hq : ¬ ThrewIn h (owner num b)) (hs : s.endValues b = none)
    (hr : thrownIn r = some e) (hpre : (r.pre.loc (owner num b)).inOthers = false) :
    Ok add num first x (r :: h) s b (some (.handler (.thrown e))) :=
  ⟨⟨e, rfl, threw_now hr⟩,
    fun _ => iff_of_true hs fun hl => hq ((late_cons (.inr hpre)).mp hl).threw⟩

/-- **A step of `process_chunk`.** -/
theorem Ok.step {p p' : Chunk α ε} (hb : b < num) (hlt : first b < first (b + 1))
    (hvalue : ∀ v, s.endValues (b - 1) = some (.ok v) → v = endValue add first x (b - 1))
    (herror : ∀ e, s.endValues (b - 1) = some (.error e) → ∃ e', e = .thrown e' ∧ Threw h e')
    (hok : Ok add num first x h s b (some p)) (hm : ChunkMove add num first b s p s' p')
    (htid : r.tid = owner num b) (hpre : r.pre.loc (owner num b) = .run p)
    (hcfg : r.cfg.loc (owner num b) = .run p') : Ok add num first x (r :: h) s' b (some p') := by
  have hthrown : thrownIn r = throws (.run p) (.run p') := by rw [thrownIn, htid, hpre, hcfg]
  have hin : (r.pre.loc (owner num b)).inOthers = (Pc.run p).inOthers := by rw [hpre]
  have hlast := lastOf_mem hlt
  cases hm with
  | sumEnd acc =>
    obtain ⟨hq, hs, -, -, -, hh⟩ := hok
    have hr : thrownIn r = none := by
      rw [hthrown]
      unfold afterSum
      split
      · rfl
      · split <;> rfl
    exact ok_afterSum (quiet_cons hr hq) hs (hh.congr fun j _ hj => if_pos hj)
  | sum i acc hi =>
    obtain ⟨hq, hs, h1, h2, rfl, hh⟩ := hok
    have hmem : s.mem i = x i := (hh i h1.le (by omega)).trans (if_neg (lt_irrefl i))
    have hsum : add (reduce add x (first b) i) (x i) = localSum add first x b i :=
      (reduce_succ h1).symm
    rw [hmem, hsum]
    refine ⟨quiet_cons hthrown hq, hs, by omega, by omega, rfl, hh.update ?_ fun j _ _ hj => ?_⟩
    · exact (if_pos (Nat.lt_succ_self i)).symm
    · unfold upTo
      simp only [show j < i + 1 ↔ j < i by omega]
  | sumThrow i acc e hi =>
    obtain ⟨hq, hs, -⟩ := hok
    exact ok_throw hq hs hthrown hin
  | got addend hg =>
    obtain ⟨hq, hs, hb, hh⟩ := hok
    obtain rfl := hvalue addend hg
    exact ⟨quiet_cons hthrown hq, hs, hb, fun _ => hg, rfl, hh⟩
  | gotError e hg =>
    obtain ⟨hq, hs, -⟩ := hok
    obtain ⟨e', rfl, ht⟩ := herror e hg
    exact ⟨⟨e', rfl, ht.cons⟩, fun _ => iff_of_true hs
      fun hl => hq ((late_cons (.inl hthrown)).mp hl).threw⟩
  | last addend =>
    obtain ⟨hq, hs, hb, hg, rfl, hh⟩ := hok
    have hr : thrownIn r = none := by
      rw [hthrown]
      unfold afterLast
      split <;> rfl
    refine ok_afterLast hlt (quiet_cons hr hq) hs hb hg (hh.update ?_ fun j _ h2 hj => ?_)
    · have hmem : s.mem (first (b + 1) - 1) = localSum add first x b (first (b + 1) - 1) :=
        hh _ hlast.1 hlast.2
      have hsum : add (localSum add first x b (lastOf first b)) (endValue add first x (b - 1)) =
          result add first x b (lastOf first b) := (result_of_ne hb _).symm
      rw [hmem]
      exact hsum.trans (if_neg (lt_irrefl (lastOf first b))).symm
    · exact (if_pos (show j < first (b + 1) - 1 by omega)).symm
  | lastThrow addend e =>
    obtain ⟨hq, hs, -⟩ := hok
    exact ok_throw hq hs hthrown hin
  | setFirst hset =>
    obtain ⟨hq, hs, hb, hg, haddend, hh⟩ := hok
    have hb0 : b = 0 := by
      by_contra hne
      rw [if_neg hne] at haddend
      cases haddend
    subst hb0
    have hmem : s.mem (first (0 + 1) - 1) = endValue add first x 0 :=
      (hh _ hlast.1 hlast.2).trans (if_neg (lt_irrefl _))
    refine .inl ⟨quiet_cons hthrown hq, fun h0 => absurd rfl h0, fun _ => ?_,
      hh.congr fun j _ _ => ?_⟩
    · dsimp only
      rw [Function.update_self, hmem]
    · unfold upTo
      rw [result_zero, ite_self]
  | setValue addend hset =>
    obtain ⟨hq, hs, hb, hg, haddend, hh⟩ := hok
    have hb0 : b ≠ 0 := by
      rintro rfl
      cases haddend
    rw [if_neg hb0] at haddend
    cases haddend
    have hmem : s.mem (first (b + 1) - 1) = endValue add first x b :=
      (hh _ hlast.1 hlast.2).trans ((if_neg (lt_irrefl _)).trans (endValue_eq add first x b).symm)
    refine ⟨quiet_cons hthrown hq, hb0, le_refl _, hlast.1, fun _ => ?_, fun _ => ?_, rfl,
      hh.congr fun j h1 _ => ?_⟩
    · dsimp only
      rw [Function.update_of_ne (by omega)]
      exact hg hb0
    · dsimp only
      rw [Function.update_self, hmem]
    · unfold upTo
      simp [h1]
  | setTwice addend v hset =>
    obtain ⟨hq, hs, -⟩ := hok
    rw [hs] at hset
    cases hset
  | others i addend hi =>
    obtain ⟨hq, hb, h1, h2, hg, hhand, rfl, hh⟩ := hok
    have hlt' : i < lastOf first b := lt_of_le_of_ne h2 hi
    have hmem : s.mem i = localSum add first x b i :=
      (hh i h1 (by omega)).trans (if_pos ⟨le_refl i, hlt'⟩)
    have hsum : add (localSum add first x b i) (endValue add first x (b - 1)) =
        result add first x b i :=
      (result_of_ne hb i).symm
    rw [hmem, hsum]
    refine ⟨quiet_cons hthrown hq, hb, by omega, hlt', hg, hhand, rfl,
      hh.update ?_ fun j _ _ hj => ?_⟩
    · exact (if_neg (by omega)).symm
    · simp only [show i ≤ j ↔ i + 1 ≤ j by omega]
  | othersThrow i addend e hi =>
    obtain ⟨hq, hb, -, -, -, hhand, -⟩ := hok
    refine ⟨⟨e, rfl, threw_now hthrown⟩, fun hlt => iff_of_false ?_ (not_not_intro ?_)⟩
    · rw [hhand hlt]
      nofun
    · exact lateIn_cons.mpr (.inl ⟨htid, by rw [hthrown]; nofun, hin⟩)
  | othersEnd addend =>
    obtain ⟨hq, hb, -, -, hg, hhand, -, hh⟩ := hok
    refine .inl ⟨quiet_cons hthrown hq, hg, hhand, hh.congr fun j _ _ => if_neg ?_⟩
    exact fun hj => absurd hj.1 (not_le.mpr hj.2)
  | setException e hb hset =>
    obtain ⟨⟨e', rfl, ht⟩, hiff⟩ := hok
    refine .inr ⟨hb, ?_, e', ?_, ht.cons⟩
    · rw [late_cons (.inl hthrown)]
      exact (hiff hb).mp hset
    · dsimp only
      rw [Function.update_self]
  | setAgain e v hb hset =>
    obtain ⟨-, hiff⟩ := hok
    refine .inr ⟨hb, (late_cons (.inl hthrown)).mpr ?_⟩
    by_contra hno
    rw [(hiff hb).mpr hno] at hset
    cases hset
  | rethrow e hb =>
    obtain ⟨⟨e', rfl, ht⟩, -⟩ := hok
    exact .inl ⟨by omega, e', rfl, ht.cons⟩

/-! ## What a step of a chunk leaves alone -/

theorem ChunkMove.flags {p p' : Chunk α ε} (hm : ChunkMove add num first b s p s' p') :
    s'.started = s.started ∧ s'.finished = s.finished ∧ s'.terminated = s.terminated := by
  cases hm <;> exact ⟨rfl, rfl, rfl⟩

theorem ChunkMove.endValues_other {p p' : Chunk α ε} (hm : ChunkMove add num first b s p s' p')
    {b' : ℕ}
    (hb : b' ≠ b) : s'.endValues b' = s.endValues b' := by
  cases hm
  case setFirst => exact Function.update_of_ne hb _ _
  case setValue => exact Function.update_of_ne hb _ _
  case setException => exact Function.update_of_ne hb _ _
  all_goals rfl

/-- A promise is set once. -/
theorem ChunkMove.endValues_set {p p' : Chunk α ε} (hm : ChunkMove add num first b s p s' p')
    {v : Except (Exn ε) α} (hv : s.endValues b = some v) : s'.endValues b = some v := by
  cases hm
  case setFirst hset => rw [hset] at hv; cases hv
  case setValue hset => rw [hset] at hv; cases hv
  case setException hset => rw [hset] at hv; cases hv
  all_goals exact hv

/-- What a chunk writes is in its block. -/
theorem Ok.mem_other {p p' : Chunk α ε} (hlt : first b < first (b + 1))
    (hok : Ok add num first x h s b (some p)) (hm : ChunkMove add num first b s p s' p') {j : ℕ}
    (hj : j < first b ∨ first (b + 1) ≤ j) : s'.mem j = s.mem j := by
  have hlast := lastOf_mem hlt
  unfold lastOf at hlast
  cases hm with
  | sum i acc hi =>
    obtain ⟨-, -, h1, h2, -⟩ := hok
    exact Function.update_of_ne (by omega) _ _
  | last addend => exact Function.update_of_ne (by omega) _ _
  | others i addend hi =>
    obtain ⟨-, -, h1, h2, -⟩ := hok
    unfold lastOf at h2
    exact Function.update_of_ne (by omega) _ _
  | _ => rfl

/-- What a promise is set to. -/
def Handed (add : α → α → α) (first : ℕ → ℕ) (x : ℕ → α) (h : List (Step α ε)) (b : ℕ) :
    Except (Exn ε) α → Prop
  | .ok v => v = endValue add first x b
  | .error e => ∃ e', e = .thrown e' ∧ Threw h e'

theorem Handed.cons {v : Except (Exn ε) α} (hv : Handed add first x h b v) :
    Handed add first x (r :: h) b v := by
  cases v with
  | ok v => exact hv
  | error e =>
    obtain ⟨e', he, ht⟩ := hv
    exact ⟨e', he, ht.cons⟩

/-- A chunk's promise is set to its end value or to what has been thrown. -/
theorem Ok.handed {p p' : Chunk α ε} (hlt : first b < first (b + 1))
    (hok : Ok add num first x h s b (some p)) (hm : ChunkMove add num first b s p s' p')
    {v : Except (Exn ε) α} (hv : s'.endValues b = some v) :
    s.endValues b = some v ∨ Handed add first x h b v := by
  have hlast := lastOf_mem hlt
  have hend : ∀ {addend}, Ok add num first x h s b (some (.setValue addend)) →
      Function.update s.endValues b (some (.ok (s.mem (first (b + 1) - 1)))) b = some v →
      Handed add first x h b v := by
    rintro addend ⟨-, -, -, -, -, hh⟩ hv
    rw [Function.update_self] at hv
    cases hv
    exact (hh _ hlast.1 hlast.2).trans ((if_neg (lt_irrefl _)).trans
      (endValue_eq add first x b).symm)
  cases hm
  case setFirst => exact .inr (hend hok hv)
  case setValue => exact .inr (hend hok hv)
  case setException =>
    obtain ⟨hthrown, -⟩ := hok
    dsimp only at hv
    rw [Function.update_self] at hv
    cases hv
    exact .inr hthrown
  all_goals exact .inl hv

end

end Bonostl.ParallelPartialSum
