import Bonostl.ThreadsafeQueue.Fifo

/-!
# Wake-ups of `threadsafe_queue`

`wait_for_data` evaluates its predicate under `head_mutex_`, but `push` makes it true under
`tail_mutex_` and notifies without any lock. A `notify_one` between the predicate and the block
finds nobody blocked, and the consumer then sleeps beside its element (`wakeup_lost`).

This is the only way to lose a wake-up. Count the consumers that are blocked or about to block, the
pushes in progress, and the consumers woken and not yet run: either there are pushes enough to wake
all the former, or the notifications still to come and the woken consumers cover the elements
(`Covered`). A `notify_one` breaks this only when it is that of the last push in progress, nobody is
blocked, a consumer has just found the queue empty, and there are more elements than woken consumers
(`Heard` excludes it). `no_lost_wakeup` is about the runs in which none does.
-/

namespace Bonostl.ThreadsafeQueue

open Interleaving Chain

variable {ι T : Type}

/-- The thread is in `push`. -/
def Pc.pushing : Pc T → Bool
  | .newTail _ | .lockTail _ _ | .tailData _ _ | .writeData _ _ _ | .tailNext _ _
  | .writeNext _ _ _ | .moveTail _ _ | .unlockTail _ | .notify => true
  | _ => false

/-- The thread's push has moved `tail` and not yet notified. -/
def Pc.notifies : Pc T → Bool
  | .unlockTail _ | .notify => true
  | _ => false

/-- The thread's `wait_and_pop` has read `tail` and found the queue empty; it is going to block. -/
def Pc.blocks : Pc T → Bool
  | .unlockGet (.waitAndPop _) _ h p => h = some p
  | .block _ => true
  | _ => false

/-- The query blocks until there is an element. -/
def Query.waits : Query → Bool
  | .waitAndPop _ => true
  | _ => false

/-- The thread is inside the wait, or has been woken from it and has neither taken an element nor
found that there is none. -/
def Pc.waits : Pc T → Bool
  | .wait _ => true
  | .getHead qu w | .lockGet qu w _ | .getTail qu w _ | .refHead qu w | .refData qu w _
  | .readHead qu w _ | .nullHead qu w _ _ => w && qu.waits
  | .unlockGet qu w h p => w && qu.waits && !decide (h = some p)
  | _ => false

/-- The thread is blocked on `data_cond_`. -/
def Blocked (c : Config ι (Shared ι T) (Pc T)) (t : ι) : Prop :=
  (∃ f, c.loc t = .wait f) ∧ t ∈ c.shared.blocked

/-- The thread was woken and has not yet run: it has not taken the mutex again, or holds it and has
neither taken an element nor found that there is none. -/
def Woken (c : Config ι (Shared ι T) (Pc T)) (t : ι) : Prop :=
  (c.loc t).waits ∧ t ∉ c.shared.blocked

/-- A consumer is blocked beside an element and nobody is left to wake it. -/
def LostWakeup (c : Config ι (Shared ι T) (Pc T)) : Prop :=
  (∃ t, Blocked c t) ∧ contents c ≠ [] ∧ (∀ t, (c.loc t).pushing = false) ∧ ∀ t, ¬ Woken c t

/-- A `notify_one` is heard: somebody is blocked, or no consumer is about to block, or another push
is still to notify, or there are woken consumers for all the elements. -/
def Heard (_ : List (Rec ι (Shared ι T) (Pc T) (Op T) (Res T))) (c : Config ι (Shared ι T) (Pc T))
    (t : ι) (_ : Choice ι T) : Prop :=
  c.loc t = .notify → c.shared.blocked = [] → (∃ u, (c.loc u).blocks) →
    (∃ u, u ≠ t ∧ (c.loc u).pushing) ∨ (contents c).length ≤ {u | Woken c u}.ncard

/-! ## The invariant -/

/-- How many threads are at places of the kind `p`. -/
noncomputable def count (p : Pc T → Bool) (f : ι → Pc T) : ℕ := threadsIn (fun l => p l) f

/-- The wake-ups still to come: enough for everybody who is or will be blocked, or for all the
elements `q` holds before its last node. -/
def Covered (s : Shared ι T) (f : ι → Pc T) (q : List ℕ) : Prop :=
  s.blocked.length + count Pc.blocks f ≤ count Pc.pushing f ∨
    q.length + s.blocked.length ≤ count Pc.waits f + count Pc.notifies f + 1

/-- The blocked threads are at the wait, and only finitely many threads are in an operation. -/
structure Waiting (s : Shared ι T) (f : ι → Pc T) : Prop where
  nodup : s.blocked.Nodup
  at_wait : ∀ t ∈ s.blocked, ∃ fm, f t = .wait fm
  finite : {t | f t ≠ .idle}.Finite

variable [DecidableEq ι] {s s' : Shared ι T} {f : ι → Pc T} {q : List ℕ} {t : ι} {k : Choice ι T}
  {ev : Event (Op T) (Res T)} {l' : Pc T}

theorem count_update {p : Pc T → Bool} (hp : p .idle = false) (hw : Waiting s f) (t : ι)
    (l : Pc T) :
    count p (Function.update f t l) + (if p (f t) then 1 else 0) =
      count p f + (if p l then 1 else 0) :=
  threadsIn_update_of_idle hp hw.finite t l

omit [DecidableEq ι] in
/-- The woken threads and the blocked ones are all that stand at the wait. -/
theorem Waiting.woken_add (hw : Waiting s f) :
    {u | (f u).waits = true ∧ u ∉ s.blocked}.ncard + s.blocked.length = count Pc.waits f := by
  refine woken_add_blocked (p := fun l : Pc T => l.waits = true)
    (hw.finite.subset fun u hu hidle => by simp [hidle, Pc.waits] at hu) hw.nodup fun t ht => ?_
  obtain ⟨fm, hf⟩ := hw.at_wait t ht
  rw [hf]
  rfl

theorem Waiting.move (hw : Waiting s f) (hm : Move t k s ev (f t) s' l') :
    Waiting s' (Function.update f t l') := by
  have hwt := hw.at_wait t
  have hkeep : ∀ u ∈ s.blocked, u ≠ t → ∃ fm, Function.update f t l' u = .wait fm := by
    intro u hu hut
    rw [Function.update_of_ne hut]
    exact hw.at_wait u hu
  have hfin : {u | Function.update f t l' u ≠ .idle}.Finite := by
    refine (hw.finite.insert t).subset fun u hu => ?_
    by_cases hut : u = t
    · exact Or.inl hut
    · exact Or.inr (by simpa [hut] using hu)
  generalize hft : f t = pc at hm
  cases hm with
  | block fm =>
    have hno : t ∉ s.blocked := fun ht => by
      obtain ⟨fm', hf⟩ := hwt ht
      rw [hft] at hf
      cases hf
    refine ⟨List.nodup_cons.mpr ⟨hno, hw.nodup⟩, fun u hu => ?_, hfin⟩
    rcases List.mem_cons.mp hu with rfl | hu
    · exact ⟨fm, Function.update_self ..⟩
    · exact hkeep u hu fun he => hno (he ▸ hu)
  | spurious fm ht =>
    refine ⟨hw.nodup.erase t, fun u hu => ?_, hfin⟩
    by_cases hut : u = t
    · exact ⟨fm, by rw [hut, Function.update_self]⟩
    · exact hkeep u (List.mem_of_mem_erase hu) hut
  | notify v ws hn =>
    refine ⟨notifyOne_nodup hn hw.nodup, fun u hu => hkeep u (notifyOne_subset hn hu) ?_, hfin⟩
    rintro rfl
    obtain ⟨fm', hf⟩ := hwt (notifyOne_subset hn hu)
    rw [hft] at hf
    cases hf
  | wake fm ht =>
    exact ⟨hw.nodup, fun u hu => hkeep u hu fun he => ht (he ▸ hu), hfin⟩
  | _ =>
    refine ⟨hw.nodup, fun u hu => hkeep u hu ?_, hfin⟩
    rintro rfl
    obtain ⟨fm', hf⟩ := hwt hu
    rw [hft] at hf
    cases hf

omit [DecidableEq ι] in
theorem count_pos {p : Pc T → Bool} (hp : p .idle = false) (hw : Waiting s f) {u : ι}
    (hu : p (f u) = true) : 0 < count p f := by
  have hfin : {t | p (f t) = true}.Finite :=
    hw.finite.subset fun v hv hidle => by simp [hidle, hp] at hv
  exact (Set.ncard_pos hfin).mpr ⟨u, hu⟩

omit [DecidableEq ι] in
theorem exists_of_count_pos {p : Pc T → Bool} (h : 0 < count p f) : ∃ u, p (f u) = true := by
  by_contra hno
  have hempty : {t | p (f t) = true} = ∅ :=
    Set.eq_empty_of_forall_notMem fun u hu => hno ⟨u, hu⟩
  have h0 : count p f = 0 := by
    unfold count threadsIn
    rw [hempty]
    exact Set.ncard_empty _
  omega

omit [DecidableEq ι] in
/-- At most one consumer is between its predicate and its block: it holds `head_mutex_`. -/
theorem Shape.count_blocks_le (h : Shape s f q) (hw : Waiting s f) : count Pc.blocks f ≤ 1 := by
  have hhold : ∀ u, (f u).blocks = true → (f u).holdsHead = true := by
    intro u hu
    generalize f u = pc at hu
    cases pc <;> simp_all [Pc.blocks, Pc.holdsHead]
  have hfin : {t | (f t).blocks = true}.Finite :=
    hw.finite.subset fun v hv hidle => by simp [hidle, Pc.blocks] at hv
  exact (Set.ncard_le_one hfin).mpr fun u hu v hv => h.head_unique (hhold u hu) (hhold v hv)

omit [DecidableEq ι] in
/-- The queue is empty when the ends are the same node. -/
theorem Shape.length_eq_one (h : Shape s f q) (ht : s.head = some s.tail) : q.length = 1 := by
  have hnil := (h.values_eq_nil ht).mpr rfl
  have hne := h.tail_mem
  have hsome := fun a (ha : a ∈ q.dropLast) => h.stored a (h.dropLast_ne ha).1 (h.dropLast_ne ha).2
  have hdrop : q.dropLast = [] := by
    cases hd : q.dropLast with
    | nil => rfl
    | cons a l =>
      obtain ⟨x, hx⟩ := Option.isSome_iff_exists.mp (hsome a (by simp [hd]))
      simp [values, hd, hx] at hnil
  cases q with
  | nil => simp at hne
  | cons a l => cases l <;> simp_all

section
variable (qu : Query) (w eq : Bool) (h : Option ℕ) (p : ℕ)

theorem compared_pushing : (qu.compared w eq : Pc T).pushing = false := by
  rcases qu with (_ | _) | (_ | _) | _ <;> cases eq <;> rfl

theorem compared_notifies : (qu.compared w eq : Pc T).notifies = false := by
  rcases qu with (_ | _) | (_ | _) | _ <;> cases eq <;> rfl

theorem compared_blocks : (qu.compared w (h = some p) : Pc T).blocks =
    (Pc.unlockGet qu w h p : Pc T).blocks := by
  rcases qu with (_ | _) | (_ | _) | _ <;> cases hd : decide (h = some p) <;>
    simp [Query.compared, Pc.blocks, hd]

theorem compared_waits : (qu.compared w (h = some p) : Pc T).waits =
    (Pc.unlockGet qu w h p : Pc T).waits := by
  rcases qu with (_ | _) | (_ | _) | _ <;> cases hd : decide (h = some p) <;>
    simp [Query.compared, Pc.waits, Query.waits, hd]
end

/-- **The wake-ups stay covered** by every step but an unheard `notify_one`. -/
theorem Covered.move (hc : Covered s f q) (h : Shape s f q) (hw : Waiting s f)
    (hm : Move t k s ev (f t) s' l')
    (hheard : f t = .notify → s.blocked = [] → (∃ u, (f u).blocks) →
      (∃ u, u ≠ t ∧ (f u).pushing) ∨
        q.length ≤ {u | (f u).waits = true ∧ u ∉ s.blocked}.ncard + 1) :
    Covered s' (Function.update f t l') ((f t).advance q) := by
  have hA := count_update (p := Pc.pushing) rfl hw t l'
  have hN := count_update (p := Pc.notifies) rfl hw t l'
  have hB := count_update (p := Pc.blocks) rfl hw t l'
  have hW := count_update (p := Pc.waits) rfl hw t l'
  have hw' := hw.move hm
  have hle := hw'.woken_add
  -- a step that changes none of the counts
  have hquiet : s'.blocked = s.blocked → (f t).pushing = l'.pushing →
      (f t).notifies = l'.notifies → (f t).blocks = l'.blocks → (f t).waits = l'.waits →
      Covered s' (Function.update f t l') q := by
    intro hb h1 h2 h3 h4
    rw [h1, Nat.add_right_cancel_iff] at hA
    rw [h2, Nat.add_right_cancel_iff] at hN
    rw [h3, Nat.add_right_cancel_iff] at hB
    rw [h4, Nat.add_right_cancel_iff] at hW
    unfold Covered
    rwa [hb, hA, hN, hB, hW]
  have hfits := h.fits t
  generalize hft : f t = pc at hm hA hN hB hW hfits hheard hquiet
  unfold Covered at *
  cases hm with
  | push v | moveTail v n =>
    simp [Pc.pushing, Pc.notifies, Pc.blocks, Pc.waits, Pc.advance] at hA hN hB hW ⊢
    omega
  | nullHead qu w v old =>
    obtain ⟨rest, rfl, -⟩ := h.nullHead_eq hft
    simp [Pc.pushing, Pc.notifies, Pc.blocks, Pc.waits, Pc.advance] at hA hN hB hW hc ⊢
    split at hW <;> omega
  | block fm =>
    simp [Pc.pushing, Pc.notifies, Pc.blocks, Pc.waits, Pc.advance] at hA hN hB hW ⊢
    omega
  | notify u ws hn =>
    simp [Pc.pushing, Pc.notifies, Pc.blocks, Pc.waits] at hA hN hB hW
    simp only [Pc.advance]
    rcases notifyOne_cases hn with ⟨hnil, rfl⟩ | ⟨hu, rfl⟩
    · -- nobody is blocked: the notification is lost unless it was not needed
      by_cases hb : count Pc.blocks f = 0
      · left; simp; omega
      · have hb1 := h.count_blocks_le hw
        have hwk := hw.woken_add
        rw [hnil, List.length_nil] at hwk
        rcases hheard rfl hnil (exists_of_count_pos (by omega)) with ⟨v, hvt, hv⟩ | hfew
        · have := count_pos (p := Pc.pushing) rfl hw' (u := v)
            (by rwa [Function.update_of_ne hvt])
          left; simp; omega
        · rw [hnil] at hfew
          right; simp; omega
    · have hlen := List.length_erase_of_mem hu
      have hpos := List.length_pos_of_mem hu
      omega
  | getTail qu w hd =>
    by_cases heq : hd = some s.tail
    · -- the queue is empty, and those who are blocked cover themselves
      have hone := h.length_eq_one ((show hd = s.head from hfits).symm.trans heq)
      simp [Pc.pushing, Pc.notifies, Pc.advance] at hA hN hle ⊢
      omega
    · exact hquiet rfl rfl rfl (by cases qu <;> simp [Pc.blocks, heq]) (by simp [Pc.waits, heq])
  | unlockGet qu w hd p =>
    exact hquiet rfl (compared_pushing ..).symm (compared_notifies ..).symm
      (compared_blocks ..).symm (compared_waits ..).symm
  | spurious fm ht =>
    have hlen := List.length_erase_of_mem ht
    simp [Pc.pushing, Pc.notifies, Pc.blocks, Pc.waits, Pc.advance] at hA hN hB hW ⊢
    omega
  | _ => exact hquiet rfl rfl rfl rfl rfl

/-! ## The result -/

omit [DecidableEq ι] in
theorem Shape.values_length (h : Shape s f q) : (values s q).length + 1 = q.length := by
  have hall : (values s q).length = q.dropLast.length := by
    unfold values
    rw [List.length_filterMap_eq_countP, List.countP_eq_length]
    exact fun a ha => h.stored a (h.dropLast_ne ha).1 (h.dropLast_ne ha).2
  have hpos := List.length_pos_of_mem h.tail_mem
  rw [hall, List.length_dropLast]
  omega

section
variable {h : List (Rec ι (Shared ι T) (Pc T) (Op T) (Res T))} {c : Config ι (Shared ι T) (Pc T)}

theorem covered_run (hr : program.Run Heard initial h c) :
    ∃ q, Shape c.shared c.loc q ∧ Waiting c.shared c.loc ∧ Covered c.shared c.loc q := by
  refine hr.induction (I := fun _ c => ∃ q, Shape c.shared c.loc q ∧ Waiting c.shared c.loc ∧
    Covered c.shared c.loc q) ?_ ?_
  · exact ⟨_, shape_initial, ⟨by simp [initial], by simp [initial], by simp [initial]⟩,
      Or.inr (by simp [initial])⟩
  · rintro h c t k ev s' l' _ ⟨q, hs, hw, hcov⟩ hheard hstep
    have hm := hs.move_of_step hstep
    refine ⟨_, hs.move hm, hw.move hm, hcov.move hs hw hm fun hn hnil hb => ?_⟩
    have hlen := hs.values_length
    refine (hheard hn hnil hb).imp_right fun hfew => ?_
    rw [hs.contents_eq] at hfew
    unfold Woken at hfew
    omega

/-- **No wake-up is lost** while every `notify_one` is heard. -/
theorem no_lost_wakeup (hr : program.Run Heard initial h c) : ¬ LostWakeup c := by
  rintro ⟨⟨t, -, ht⟩, hne, hpush, hwoken⟩
  obtain ⟨q, hs, hw, hcov⟩ := covered_run hr
  have hblocked := List.length_pos_of_mem ht
  have hlen := hs.values_length
  have hpos : 0 < (values c.shared q).length := by
    rw [hs.contents_eq] at hne
    exact List.length_pos_iff.mpr hne
  have hA : count Pc.pushing c.loc = 0 := by
    by_contra h0
    obtain ⟨u, hu⟩ := exists_of_count_pos (f := c.loc) (p := Pc.pushing) (by omega)
    simp [hpush u] at hu
  have hN : count Pc.notifies c.loc = 0 := by
    by_contra h0
    obtain ⟨u, hu⟩ := exists_of_count_pos (f := c.loc) (p := Pc.notifies) (by omega)
    have hno := hpush u
    generalize c.loc u = pc at hu hno
    cases pc <;> simp_all [Pc.notifies, Pc.pushing]
  have hW := hw.woken_add
  have hempty : {u | (c.loc u).waits = true ∧ u ∉ c.shared.blocked} = ∅ :=
    Set.eq_empty_of_forall_notMem hwoken
  rw [hempty, Set.ncard_empty] at hW
  unfold Covered at hcov
  omega
end

/-- A consumer finds the queue empty and is about to block. -/
def findsEmpty : List (Bool × Choice Bool ℕ) :=
  [(false, .call (.query (.waitAndPop .value))), (false, .run), (false, .run), (false, .run),
    (false, .run), (false, .run)]

/-- A push, up to its `notify_one`. -/
def pushes : List (Bool × Choice Bool ℕ) :=
  [(true, Choice.call (.push 5)), (true, Choice.alloc 1)] ++ List.replicate 7 (true, Choice.run)

/-- The push notifies before the consumer blocks. -/
theorem wakeup_lost : ¬ ∀ (h : List (Rec Bool (Shared Bool ℕ) (Pc ℕ) (Op ℕ) (Res ℕ))) (c : _),
    program.Run Program.anyStep initial h c → ¬ LostWakeup c := by
  intro hall
  obtain ⟨h, c, hr, hp⟩ := Program.replay_reaches program initial
    (findsEmpty ++ pushes ++ [(true, Choice.notify false), (true, Choice.run), (false, Choice.run)])
    (fun _ c => c.loc false = .wait .value ∧ c.loc true = .idle ∧ c.shared.blocked = [false] ∧
      c.shared.head = some 0 ∧ c.shared.tail = 1) (by decide)
  obtain ⟨hwait, hidle, hblocked, hhead, htail⟩ := of_decide_eq_true hp
  obtain ⟨⟨q, hs⟩, -, -⟩ := Inv.run hr
  refine hall h c hr ⟨⟨false, ⟨.value, hwait⟩, by simp [hblocked]⟩, fun hnil => ?_, ?_, ?_⟩
  · rw [hs.contents_eq, hs.values_eq_nil hhead, htail] at hnil
    cases hnil
  · rintro (_ | _) <;> simp [hwait, hidle, Pc.pushing]
  · rintro (_ | _) ⟨hwt, hnb⟩
    · simp [hblocked] at hnb
    · simp [hidle, Pc.waits] at hwt

/-- The consumer blocks before the push notifies. -/
theorem no_lost_wakeup_blocked :
    ∃ (h : List (Rec Bool (Shared Bool ℕ) (Pc ℕ) (Op ℕ) (Res ℕ))) (c : _),
      program.Run Heard initial h c ∧ (Blocked c false ∧ c.loc true = .notify) ∧
      ¬ LostWakeup c := by
  have he : ((program.replay (fun c t _ _ => c.loc t ≠ .notify) initial
      (findsEmpty ++ [(false, Choice.run)] ++ pushes)).any fun (_, c) =>
        c.loc false = .wait .value ∧ c.shared.blocked = [false] ∧ c.loc true = .notify) = true := by
    decide
  obtain ⟨⟨h, c⟩, hc, hp⟩ := (Option.any_eq_true _ _).mp he
  obtain ⟨hwait, hblocked, hnotify⟩ := of_decide_eq_true hp
  obtain ⟨hr, -⟩ := Program.replay_run Heard
    (fun _ _ _ _ _ _ hchk hn => absurd hn (of_decide_eq_true hchk)) _ .nil hc
  rw [List.append_nil] at hr
  exact ⟨h, c, hr, ⟨⟨⟨.value, hwait⟩, by simp [hblocked]⟩, hnotify⟩, no_lost_wakeup hr⟩

end Bonostl.ThreadsafeQueue
