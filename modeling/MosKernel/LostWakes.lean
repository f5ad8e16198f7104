import MosKernel.Lib.Transition
import MosKernel.MsgSteps

/-!
# Wake-ups lost by message queues

`wait_on` puts a task on a wait list in one critical section and to sleep in the next, and its caller
has tested the queue in a third.  A peer that commits in between is not noticed: the task sleeps beside
a message or a free slot, or after it has been taken off the list.

`NoWakeLost` bounds what is available beside a sleeper by the number of tasks already taken off the
list.  `Heeds` names the two kinds of steps that decide about it: falling asleep, and a commit that
finds nobody on the list.  The lists of the scheduler play no role: the argument needs only that a
sleeper is asleep since its last `Task::delay`, which holds even where they are damaged.
-/

namespace MosKernel

open OrderedInsert TaskList Transition Kernel

variable {T : Type} {cap : ℕ → ℕ} {σ σ' : System T} {a : Action T}

namespace Kernel

variable {k k' : Kernel} {c t u : Tid}

/-- Blocked and on `SLEEPING_LIST`. -/
def Asleep (k : Kernel) (t : Tid) : Prop := k.status t = .blocked ∧ t ∈ k.sleepingList.tids

instance : DecidablePred k.Asleep := fun _ => inferInstanceAs (Decidable (_ ∧ _))

/-- `Task::delay` puts `c` to sleep: it is on `SLEEPING_LIST` already or finds room there, and its wake
point does not wrap. -/
def FallsAsleep (k : Kernel) (c : Tid) (ticks : BitVec 32) : Prop :=
  (c ∈ k.sleepingList.tids ∨ k.sleepingList.tids.length < taskMax) ∧ k.osTicks < k.osTicks + ticks

instance (ticks : BitVec 32) : Decidable (k.FallsAsleep c ticks) :=
  inferInstanceAs (Decidable (_ ∧ _))

/-- What every step but a `Task::delay` does to sleepers. -/
structure Rests (k k' : Kernel) : Prop where
  asleep : ∀ t, k'.Asleep t → k.Asleep t
  schedReady : k'.schedReady = k.schedReady

theorem Rests.refl (k : Kernel) : Rests k k := ⟨fun _ h => h, rfl⟩

theorem Rests.trans {k'' : Kernel} (h : Rests k k') (h' : Rests k' k'') : Rests k k'' :=
  ⟨fun t ht => h.asleep t (h'.asleep t ht), h'.schedReady.trans h.schedReady⟩

theorem rests_expire (k : Kernel) (u : Tid) : Rests k (k.expire u) := by
  refine ⟨fun t ht => ?_, rfl⟩
  obtain ⟨hb, hs⟩ := ht
  rw [Kernel.expire, status_readyInsert, status_setTcb] at hb
  split_ifs at hb
  have hs' : t ∈ (k.sleepingList.remove u).tids := hs
  rw [remove_tids] at hs'
  exact ⟨hb, List.mem_of_mem_erase hs'⟩

theorem rests_requeue (k : Kernel) (u : Tid) : Rests k (k.requeue u) := by
  unfold requeue
  split_ifs
  · exact ⟨fun _ h => h, rfl⟩
  · refine ⟨fun t ht => ⟨?_, ht.2⟩, rfl⟩
    have hb := ht.1
    rw [status_readyInsert, status_readyRemove, status_setTcb] at hb
    split_ifs at hb
    exact hb
  · exact .refl k

theorem rests_setStatus (k : Kernel) (u : Tid) {st : TaskStatus} (hst : st ≠ .blocked) :
    Rests k (k.setStatus u st) := by
  refine ⟨fun t ht => ⟨?_, ht.2⟩, rfl⟩
  have hb := ht.1
  rw [setStatus, status_setTcb] at hb
  split_ifs at hb
  · exact absurd hb hst
  · exact hb

theorem rests_switchTo (k : Kernel) (u v : Tid) : Rests k (k.switchTo u v) := by
  have hset : ∀ k : Kernel, Rests k ((k.setStatus v .running).setCurrent v) :=
    fun k => (rests_setStatus k v (by simp)).trans ⟨fun _ h => h, rfl⟩
  unfold switchTo
  split_ifs
  · exact (rests_setStatus k u (by simp)).trans (hset _)
  · exact hset k
  · exact .refl k

theorem rests_wakeUpSleepers (k : Kernel) : Rests k k.wakeUpSleepers :=
  wakeUpSleepers_induct (.refl k) fun k' t h _ _ => h.trans (rests_expire k' t)

/-- Whoever is running, `next_tcb` is these three steps. -/
theorem nextTcb_shape (hk : k.nextTcb = some k') :
    ∃ u st, k' = (k.wakeUpSleepers.requeue u).switchTo u st := by
  obtain ⟨u, -, hk⟩ := Option.bind_eq_some_iff.mp hk
  obtain ⟨st, -, rfl⟩ := Option.map_eq_some_iff.mp hk
  exact ⟨u, st, rfl⟩

theorem rests_nextTcb (hk : k.nextTcb = some k') : Rests k k' := by
  obtain ⟨u, st, rfl⟩ := nextTcb_shape hk
  exact ((rests_wakeUpSleepers k).trans (rests_requeue _ u)).trans (rests_switchTo _ u st)

theorem rests_yieldTask (hk : k.yieldTask = some k') : Rests k k' := by
  unfold yieldTask at hk
  split_ifs at hk
  · exact rests_nextTcb hk
  · cases hk
    exact .refl k

theorem rests_yieldIf {b : Bool} (hk : k.yieldIf b = some k') : Rests k k' := by
  unfold Kernel.yieldIf at hk
  split_ifs at hk
  · exact rests_yieldTask hk
  · cases hk
    exact .refl k

theorem rests_chargeSlice (k : Kernel) (u : Tid) : Rests k (k.chargeSlice u) := by
  unfold chargeSlice
  split_ifs
  · refine ⟨fun t ht => ⟨?_, ht.2⟩, rfl⟩
    have hb := ht.1
    rw [status_setTcb] at hb
    split_ifs at hb with htu
    · rw [htu]
      exact hb
    · exact hb
  · exact .refl k

theorem rests_systickTick {r : Bool} (hk : k.systickTick = some (k', r)) : Rests k k' := by
  unfold systickTick at hk
  split_ifs at hk
  · cases hk
    exact .refl k
  · obtain ⟨u, -, hk⟩ := Option.map_eq_some_iff.mp hk
    cases hk
    have hadv : Rests k k.advanceTicks := ⟨fun _ h => h, rfl⟩
    exact hadv.trans (rests_chargeSlice _ u)

theorem rests_systickReplay {missed : ℕ} {r : Bool}
    (hk : k.systickReplay missed = some (k', r)) : Rests k k' := by
  induction missed generalizing k' r with
  | zero => exact rests_systickTick hk
  | succ missed ih =>
      obtain ⟨⟨k₁, r₁⟩, hk₁, hk⟩ := Option.bind_eq_some_iff.mp hk
      obtain ⟨⟨k₂, r₂⟩, hk₂, hk⟩ := Option.bind_eq_some_iff.mp hk
      cases hk
      exact (ih hk₁).trans (rests_systickTick hk₂)

theorem rests_systickTrap {missed : ℕ} (hk : k.systickTrap missed = some k') : Rests k k' := by
  obtain ⟨⟨k₁, r⟩, hk₁, hk⟩ := Option.bind_eq_some_iff.mp hk
  have hyield : k₁.yieldIf r = some k' := hk
  exact (rests_systickReplay hk₁).trans (rests_yieldIf hyield)

theorem rests_rouse (k : Kernel) (u : Tid) : Rests k (k.rouse u) := by
  refine ⟨fun t ht => ?_, rfl⟩
  obtain ⟨hb, hs⟩ := ht
  rw [Kernel.rouse, status_readyInsert, status_sleepingRemove, status_setTcb] at hb
  split_ifs at hb
  have hs' : t ∈ (k.sleepingList.remove u).tids := hs
  rw [remove_tids] at hs'
  exact ⟨hb, List.mem_of_mem_erase hs'⟩

/-- Nobody but the running task falls asleep in a `Task::delay`. -/
theorem asleep_delay {ticks : BitVec 32} (hcr : k.crTid = some c) (hk : k.delay ticks = some k') :
    (∀ t, t ≠ c → k'.Asleep t → k.Asleep t) ∧ k'.schedReady = k.schedReady := by
  unfold delay at hk
  split_ifs at hk
  · cases hk
    exact ⟨fun _ _ h => h, rfl⟩
  · rw [hcr] at hk
    have hy : (k.sleep c ticks).yieldTask = some k' := hk
    have hrests := rests_yieldTask hy
    refine ⟨fun t htc ht => ?_, hrests.schedReady⟩
    obtain ⟨hb, hs⟩ := hrests.asleep t ht
    have hb' : ((k.setTcb c _).park c).status t = .blocked := hb
    rw [Kernel.park, status_readyRemove, setStatus, status_setTcb, if_neg htc, status_setTcb,
      if_neg htc] at hb'
    exact ⟨hb', (mem_of_mem_insertInOrder hs).resolve_left htc⟩

theorem mem_sleepingList_sleep (k : Kernel) (c : Tid) (ticks : BitVec 32) :
    c ∈ (k.sleep c ticks).sleepingList.tids ↔
      c ∈ k.sleepingList.tids ∨ k.sleepingList.tids.length < taskMax :=
  mem_insertInOrder_self (l := k.sleepingList)

/-- **Who falls asleep.**  After its `Task::delay` the running task is asleep exactly when it was put on
`SLEEPING_LIST` with a wake point in the future. -/
theorem asleep_delay_self {ticks : BitVec 32} (hready : k.schedReady = true)
    (hcr : k.crTid = some c) (hne : ticks ≠ 0) (hk : k.delay ticks = some k') :
    k'.Asleep c ↔ k.FallsAsleep c ticks := by
  rw [FallsAsleep, ← mem_sleepingList_sleep k c ticks]
  rw [delay, if_neg hne, hcr, Option.bind_eq_bind, Option.bind_some, yieldTask,
    if_pos (show (k.sleep c ticks).schedReady = true from hready)] at hk
  have hpoint : ((k.sleep c ticks).tcbs c).wakePoint = k.osTicks + ticks := by
    simp [Kernel.sleep, Kernel.park, setStatus]
  have hblocked : (k.sleep c ticks).status c = .blocked := by
    show ((k.setTcb c _).park c).status c = .blocked
    rw [Kernel.park, status_readyRemove, setStatus, status_setTcb, if_pos rfl]
  constructor
  · intro h
    obtain ⟨u, st, rfl⟩ := nextTcb_shape hk
    have hw : (k.sleep c ticks).wakeUpSleepers.Asleep c :=
      ((rests_requeue _ u).trans (rests_switchTo _ u st)).asleep c h
    -- while `c` is asleep, its wake point is the one that `sleep` has written
    have hkeep : (k.sleep c ticks).wakeUpSleepers.Asleep c →
        ((k.sleep c ticks).wakeUpSleepers.tcbs c).wakePoint = k.osTicks + ticks := by
      refine wakeUpSleepers_induct (P := fun k' => k'.Asleep c →
        (k'.tcbs c).wakePoint = k.osTicks + ticks) (fun _ => hpoint) ?_
      intro k' t hk' _ _ ht
      have hct : c ≠ t := by
        rintro rfl
        have hb := ht.1
        rw [Kernel.expire, status_readyInsert, status_setTcb, if_pos rfl] at hb
        cases hb
      show (Function.update k'.tcbs t _ c).wakePoint = _
      rw [Function.update_of_ne hct]
      exact hk' ((rests_expire k' t).asleep c ht)
    have hdone := wakeUpSleepers_done (k.sleep c ticks) c hw.2
    rw [hkeep hw] at hdone
    exact ⟨((rests_wakeUpSleepers _).asleep c hw).2, hdone⟩
  · rintro ⟨hmem, hlt⟩
    have hframe := (frame_sleep k c ticks).trans (frame_wakeUpSleepers (k.sleep c ticks))
    have hcur : (k.sleep c ticks).wakeUpSleepers.crTid = some c := by
      rw [← hcr, crTid, currentTcbPtr_wakeUpSleepers]
      exact congrArg (fun f => Option.map f k.currentTcbPtr) (funext hframe.tid)
    rw [nextTcb, hcur] at hk
    obtain ⟨st, -, rfl⟩ := Option.map_eq_some_iff.mp hk
    have hkeep : (k.sleep c ticks).wakeUpSleepers.Asleep c ∧
        ((k.sleep c ticks).wakeUpSleepers.tcbs c).wakePoint = k.osTicks + ticks := by
      refine wakeUpSleepers_induct (P := fun k' => k'.Asleep c ∧
        (k'.tcbs c).wakePoint = k.osTicks + ticks) ⟨⟨hblocked, hmem⟩, hpoint⟩ ?_
      rintro k' t ⟨⟨hb, hs⟩, hp⟩ - hdue
      have hct : c ≠ t := by
        rintro rfl
        rw [hp] at hdue
        exact absurd hlt (BitVec.not_lt.mpr hdue)
      refine ⟨⟨?_, ?_⟩, ?_⟩
      · rw [Kernel.expire, status_readyInsert, status_setTcb, if_neg hct]
        exact hb
      · show c ∈ (k'.sleepingList.remove t).tids
        rw [remove_tids]
        exact (List.mem_erase_of_ne hct).mpr hs
      · show (Function.update k'.tcbs t _ c).wakePoint = _
        rw [Function.update_of_ne hct]
        exact hp
    obtain ⟨⟨hb, hs⟩, -⟩ := hkeep
    have hrun : (k.sleep c ticks).wakeUpSleepers.status c ≠ .running := by
      rw [hb]
      simp
    rw [requeue, if_pos (.inr hb), switchTo]
    split_ifs with hst hr
    · exact absurd hr hrun
    · refine ⟨?_, hs⟩
      rw [status_setCurrent, setStatus, status_setTcb, if_neg (Ne.symm hst)]
      exact hb
    · exact ⟨hb, hs⟩

end Kernel

namespace System

/-- Task `t` is asleep in the `wait_on` of its call. -/
def SleepsOn (σ : System T) (q : ℕ) (side : Side) (t : Tid) : Prop :=
  (σ.pc t).msg = some (q, side, .check) ∧ σ.kernel.Asleep t

/-- Task `t` has been taken off the wait list by a peer and has not made its second attempt yet. -/
def TakenOff (σ : System T) (q : ℕ) (side : Side) (t : Tid) : Prop :=
  (σ.pc t).onList = some (q, side) ∧ t ∉ ((σ.msgQueues q).waitList side).tids ∨
    (σ.pc t).msg = some (q, side, .retry)

instance (q : ℕ) (side : Side) : DecidablePred (SleepsOn σ q side) := fun _ =>
  inferInstanceAs (Decidable (_ ∧ _))

instance (q : ℕ) (side : Side) : DecidablePred (TakenOff σ q side) := fun _ =>
  inferInstanceAs (Decidable (_ ∧ _ ∨ _))

/-- How many tasks have been taken off the wait list and have not made their second attempt yet. -/
def taken (σ : System T) (q : ℕ) (side : Side) : ℕ :=
  (Finset.univ.filter (σ.TakenOff q side)).card

/-- **No wake-up is lost.**  Where a task sleeps, everything that is available to it is for tasks that
have been taken off its list already. -/
def NoWakeLost (cap : ℕ → ℕ) (σ : System T) : Prop :=
  ∀ q side t, σ.SleepsOn q side t → (σ.msgQueues q).avail (cap q) side ≤ σ.taken q side

/-- The queue and the side on which the running task falls asleep in this step. -/
def fallsAsleep (σ : System T) : Action T → Option (ℕ × Side)
  | .proceed => σ.kernel.crTid.bind fun cr =>
    match (σ.pc cr).msg with
    | some (q, side, .delay timeout) =>
      if σ.kernel.FallsAsleep cr timeout then some (q, side) else none
    | _ => none
  | _ => none

/-- A task that falls asleep leaves nothing available but for those already taken off; and a commit
that finds nobody on the list leaves nothing more beside one who sleeps although taken off. -/
structure Heeds (cap : ℕ → ℕ) (σ : System T) (a : Action T) : Prop where
  sleep : ∀ e ∈ σ.fallsAsleep a, (σ.msgQueues e.1).avail (cap e.1) e.2 ≤ σ.taken e.1 e.2
  commit : ∀ e ∈ σ.committing cap a, ((σ.msgQueues e.1).waitList e.2.other).tids = [] →
    ∀ t, σ.SleepsOn e.1 e.2.other t →
      (σ.msgQueues e.1).avail (cap e.1) e.2.other < σ.taken e.1 e.2.other

theorem heeds_iff : σ.Heeds cap a ↔
    (∀ e ∈ σ.fallsAsleep a, (σ.msgQueues e.1).avail (cap e.1) e.2 ≤ σ.taken e.1 e.2) ∧
    ∀ e ∈ σ.committing cap a, ((σ.msgQueues e.1).waitList e.2.other).tids = [] →
      ∀ t, σ.SleepsOn e.1 e.2.other t →
        (σ.msgQueues e.1).avail (cap e.1) e.2.other < σ.taken e.1 e.2.other :=
  ⟨fun h => ⟨h.sleep, h.commit⟩, fun h => ⟨h.1, h.2⟩⟩

instance (a : Action T) : Decidable (Heeds cap σ a) := decidable_of_iff _ heeds_iff.symm

theorem fallsAsleep_delay {cr : Tid} {q : ℕ} {side : Side} {timeout : BitVec 32}
    (hcr : σ.kernel.crTid = some cr) (hpc : (σ.pc cr).msg = some (q, side, .delay timeout)) :
    σ.fallsAsleep .proceed = if σ.kernel.FallsAsleep cr timeout then some (q, side) else none := by
  rw [fallsAsleep, hcr, Option.bind_some, hpc]

/-! ### Counting the tasks that are taken off -/

theorem takenOff_iff {q : ℕ} {side : Side} {t : Tid} (hpc : σ'.pc t = σ.pc t)
    (hl : t ∈ ((σ'.msgQueues q).waitList side).tids ↔ t ∈ ((σ.msgQueues q).waitList side).tids) :
    σ'.TakenOff q side t ↔ σ.TakenOff q side t := by
  rw [TakenOff, TakenOff, hpc, hl]

theorem taken_le {q : ℕ} {side : Side}
    (h : ∀ t, σ.TakenOff q side t → σ'.TakenOff q side t) : σ.taken q side ≤ σ'.taken q side := by
  refine Finset.card_le_card fun t ht => ?_
  rw [Finset.mem_filter] at ht ⊢
  exact ⟨ht.1, h t ht.2⟩

/-- At most one task makes its second attempt. -/
theorem taken_le_succ {q : ℕ} {side : Side} {c : Tid}
    (h : ∀ t, t ≠ c → σ.TakenOff q side t → σ'.TakenOff q side t) :
    σ.taken q side ≤ σ'.taken q side + 1 := by
  have hsub : Finset.univ.filter (σ.TakenOff q side) ⊆
      insert c (Finset.univ.filter (σ'.TakenOff q side)) := by
    intro t ht
    rw [Finset.mem_filter] at ht
    rw [Finset.mem_insert, Finset.mem_filter]
    by_cases htc : t = c
    · exact .inl htc
    · exact .inr ⟨ht.1, h t htc ht.2⟩
  exact (Finset.card_le_card hsub).trans (Finset.card_insert_le _ _)

/-- A task is taken off the list. -/
theorem taken_succ_le {q : ℕ} {side : Side} {w : Tid} (hw : ¬σ.TakenOff q side w)
    (hw' : σ'.TakenOff q side w) (h : ∀ t, σ.TakenOff q side t → σ'.TakenOff q side t) :
    σ.taken q side + 1 ≤ σ'.taken q side := by
  have hnot : w ∉ Finset.univ.filter (σ.TakenOff q side) := by
    rw [Finset.mem_filter]
    exact fun hm => hw hm.2
  have hsub : insert w (Finset.univ.filter (σ.TakenOff q side)) ⊆
      Finset.univ.filter (σ'.TakenOff q side) := by
    intro t ht
    rw [Finset.mem_insert, Finset.mem_filter] at ht
    rw [Finset.mem_filter]
    rcases ht with rfl | ht
    · exact ⟨Finset.mem_univ t, hw'⟩
    · exact ⟨ht.1, h t ht.2⟩
  have hcard := Finset.card_le_card hsub
  rw [Finset.card_insert_of_notMem hnot] at hcard
  exact hcard

/-! ### The invariant -/

/-- The scheduler has been launched, the wait lists hold waiters, and no wake-up is lost. -/
structure Watchful (cap : ℕ → ℕ) (σ : System T) : Prop where
  ready : σ.kernel.schedReady = true
  waiters : σ.Waiters cap
  noWakeLost : σ.NoWakeLost cap

/-- A step after which nobody new sleeps, no more is available and everyone taken off still is. -/
theorem NoWakeLost.keep (h : σ.NoWakeLost cap)
    (hsleep : ∀ q side t, σ'.SleepsOn q side t → σ.SleepsOn q side t)
    (havail : ∀ q side,
      (σ'.msgQueues q).avail (cap q) side = (σ.msgQueues q).avail (cap q) side)
    (htaken : ∀ q side t, σ.TakenOff q side t → σ'.TakenOff q side t) : σ'.NoWakeLost cap := by
  intro q side t ht
  rw [havail]
  exact (h q side t (hsleep q side t ht)).trans (taken_le (htaken q side))

/-- Only the running task moves, and not into the last section of `wait_on`. -/
theorem SleepsOn.before {c t : Tid} {pc : Pc T} {q : ℕ} {side : Side} (ht : σ'.SleepsOn q side t)
    (hk : Rests σ.kernel σ'.kernel) (hpc : σ'.pc = Function.update σ.pc c pc)
    (hne : pc.msg ≠ some (q, side, .check)) : σ.SleepsOn q side t := by
  obtain ⟨hm, hs⟩ := ht
  rw [hpc] at hm
  by_cases htc : t = c
  · subst htc
    rw [Function.update_self] at hm
    exact absurd hm hne
  · rw [Function.update_of_ne htc] at hm
    exact ⟨hm, hk.asleep t hs⟩

/-- Only the running task moves, and nobody else comes on a list. -/
theorem TakenOff.update {c t : Tid} {pc : Pc T} {q : ℕ} {side : Side} (ht : σ.TakenOff q side t)
    (hpc : σ'.pc = Function.update σ.pc c pc)
    (hl : ∀ u, u ≠ c → u ∈ ((σ'.msgQueues q).waitList side).tids →
      u ∈ ((σ.msgQueues q).waitList side).tids) (htc : t ≠ c) : σ'.TakenOff q side t := by
  rw [TakenOff, hpc, Function.update_of_ne htc]
  exact ht.imp (fun ht => ⟨ht.1, fun hm => ht.2 (hl t htc hm)⟩) id

/-- A task that is not in the second half of a waiting call has not been taken off. -/
theorem not_takenOff {t : Tid} (hl : (σ.pc t).onList = none)
    (hr : ∀ q side, (σ.pc t).msg ≠ some (q, side, .retry)) (q : ℕ) (side : Side) :
    ¬σ.TakenOff q side t := by
  rintro (⟨hm, -⟩ | hm)
  · rw [hl] at hm
    cases hm
  · exact hr q side hm

/-- Nor has one that finds itself on its list. -/
theorem not_takenOff_of_check {t : Tid} {q : ℕ} {side : Side} (hpc : (σ.pc t).msg = some (q, side, .check))
    (hmem : t ∈ ((σ.msgQueues q).waitList side).tids) (q' : ℕ) (side' : Side) :
    ¬σ.TakenOff q' side' t := by
  rintro (⟨hm, hnot⟩ | hm)
  · rw [Pc.onList_check hpc] at hm
    cases hm
    exact hnot hmem
  · rw [hpc] at hm
    cases hm

/-- What is available after a write to one wait list. -/
theorem avail_update {q q' n : ℕ} {side side' : Side} {j : MsgQueueInner T} {l : TaskList} :
    (Function.update σ.msgQueues q (j.setWaitList side l) q').avail n side' =
      if q' = q then j.avail n side' else (σ.msgQueues q').avail n side' := by
  by_cases hq : q' = q
  · subst hq
    rw [Function.update_self, if_pos rfl, MsgQueueInner.avail_setWaitList]
  · rw [Function.update_of_ne hq, if_neg hq]

theorem avail_update_self {q q' : ℕ} {side side' : Side} {l : TaskList} :
    (Function.update σ.msgQueues q ((σ.msgQueues q).setWaitList side l) q').avail (cap q') side' =
      (σ.msgQueues q').avail (cap q') side' := by
  rw [avail_update]
  split_ifs with hq
  · rw [hq]
  · rfl

theorem fallsAsleep_eq_none {cr : Tid} (hcr : σ.kernel.crTid = some cr)
    (hne : ∀ q side timeout, (σ.pc cr).msg ≠ some (q, side, .delay timeout)) (a : Action T) :
    σ.fallsAsleep a = none := by
  cases a with
  | proceed =>
      rw [fallsAsleep, hcr, Option.bind_some]
      split
      · rename_i q side timeout hm
        exact absurd hm (hne q side timeout)
      · rfl
  | _ => rfl

theorem heeds_of_none (hf : σ.fallsAsleep a = none) (hc : σ.committing cap a = none) :
    σ.Heeds cap a := by
  constructor
  · rw [hf]
    rintro e ⟨⟩
  · rw [hc]
    rintro e ⟨⟩

/-- Who is asleep after the running task has executed its `Task::delay`. -/
theorem Watchful.sleep_iff (h : σ.Watchful cap) {cr : Tid} {q : ℕ} {side : Side}
    {timeout : BitVec 32} {pc : Pc T} {k : Kernel} (hcr : σ.kernel.crTid = some cr)
    (hpc : (σ.pc cr).msg = some (q, side, .delay timeout)) (hnext : pc.msg = some (q, side, .check))
    (hk : σ.kernel.delay timeout = some k) :
    ({ σ with kernel := k, pc := Function.update σ.pc cr pc } : System T).NoWakeLost cap ↔
      (σ.kernel.FallsAsleep cr timeout →
        (σ.msgQueues q).avail (cap q) side ≤ σ.taken q side) := by
  have hne : timeout ≠ 0 := fun h0 => (h.waiters.pcs cr).timeout_ne hpc (congrArg some h0)
  have hself := asleep_delay_self h.ready hcr hne hk
  -- the running task stays where it was, on the list or off it
  have htaken : ∀ q' side',
      ({ σ with kernel := k, pc := Function.update σ.pc cr pc } : System T).taken q' side' =
        σ.taken q' side' := by
    intro q' side'
    refine congrArg Finset.card (Finset.filter_congr fun t _ => ?_)
    by_cases htc : t = cr
    · subst htc
      show ((Function.update σ.pc t pc t).onList = _ ∧ _ ∨ (Function.update σ.pc t pc t).msg = _) ↔
        ((σ.pc t).onList = _ ∧ _ ∨ (σ.pc t).msg = _)
      rw [Function.update_self, Pc.onList_check hnext, Pc.onList_delay hpc, hnext, hpc]
      simp
    · exact takenOff_iff (Function.update_of_ne htc _ _) Iff.rfl
  constructor
  · intro hall hfall
    have hsleep : ({ σ with kernel := k, pc := Function.update σ.pc cr pc } :
        System T).SleepsOn q side cr := by
      refine ⟨?_, hself.mpr hfall⟩
      show (Function.update σ.pc cr pc cr).msg = _
      rw [Function.update_self, hnext]
    have hle := hall q side cr hsleep
    rw [htaken] at hle
    exact hle
  · intro hfall q' side' t ht
    rw [htaken]
    obtain ⟨hm, hsl⟩ := ht
    replace hm : (Function.update σ.pc cr pc t).msg = some (q', side', .check) := hm
    by_cases htc : t = cr
    · subst htc
      rw [Function.update_self, hnext] at hm
      cases hm
      exact hfall (hself.mp hsl)
    · rw [Function.update_of_ne htc] at hm
      exact h.noWakeLost q' side' t ⟨hm, (asleep_delay hcr hk).1 t htc hsl⟩

/-- What a commit of `cr` on `side` of queue `q` means to those who wait. -/
structure Committed (cap : ℕ → ℕ) (σ σ' : System T) (cr : Tid) (q : ℕ) (side : Side) : Prop where
  caller : σ.pc cr = .user ∨ (σ.pc cr).msg = some (q, side, .retry)
  pc : σ'.pc = Function.update σ.pc cr .user
  rests : Rests σ.kernel σ'.kernel
  spent : (σ'.msgQueues q).avail (cap q) side + 1 = (σ.msgQueues q).avail (cap q) side
  gained : (σ'.msgQueues q).avail (cap q) side.other =
    (σ.msgQueues q).avail (cap q) side.other + 1
  elsewhere : ∀ q' ≠ q, ∀ side',
    (σ'.msgQueues q').avail (cap q') side' = (σ.msgQueues q').avail (cap q') side'
  lists : ∀ q' side', ¬(q' = q ∧ side' = side.other) →
    (σ'.msgQueues q').waitList side' = (σ.msgQueues q').waitList side'
  peer : (((σ.msgQueues q).waitList side.other).tids = [] ∧
      ((σ'.msgQueues q).waitList side.other).tids = [] ∧ σ'.kernel = σ.kernel) ∨
    ∃ w, ((σ.msgQueues q).waitList side.other).tids =
      w :: ((σ'.msgQueues q).waitList side.other).tids

theorem committed {cr : Tid} {q : ℕ} {side : Side} {j : MsgQueueInner T} {k : Kernel}
    {h : List (Event T)} (hpc : σ.pc cr = .user ∨ (σ.pc cr).msg = some (q, side, .retry))
    (hj : ∀ side', j.waitList side' = (σ.msgQueues q).waitList side')
    (havail : j.avail (cap q) side + 1 = (σ.msgQueues q).avail (cap q) side)
    (havail' : j.avail (cap q) side.other = (σ.msgQueues q).avail (cap q) side.other + 1)
    (hk : (tryWakeUp ((σ.msgQueues q).waitList side.other) σ.kernel cr).kernel.yieldIf
      (tryWakeUp ((σ.msgQueues q).waitList side.other) σ.kernel cr).yields = some k) :
    Committed cap σ { σ with
      kernel := k
      msgQueues := Function.update σ.msgQueues q (j.setWaitList side.other
        (tryWakeUp ((σ.msgQueues q).waitList side.other) σ.kernel cr).inner)
      pc := Function.update σ.pc cr .user
      history := h } cr q side := by
  refine ⟨hpc, rfl, ?_, ?_, ?_, ?_, ?_, ?_⟩
  · refine Rests.trans ?_ (rests_yieldIf hk)
    rcases tryWakeUp_cases ((σ.msgQueues q).waitList side.other) σ.kernel cr with
      ⟨-, he⟩ | ⟨w, l, -, he⟩
    · rw [he]
      exact .refl _
    · rw [he]
      exact rests_rouse _ w
  · rw [avail_update, if_pos rfl, havail]
  · rw [avail_update, if_pos rfl, havail']
  · intro q' hq side'
    rw [avail_update, if_neg hq]
  · intro q' side' hne
    rw [waitList_update hj, if_neg hne]
  · dsimp only
    rw [waitList_update hj, if_pos ⟨rfl, rfl⟩]
    rcases tryWakeUp_cases ((σ.msgQueues q).waitList side.other) σ.kernel cr with
      ⟨hnil, he⟩ | ⟨w, l, hl, he⟩
    · rw [he] at hk ⊢
      cases hk
      exact .inl ⟨hnil, hnil, rfl⟩
    · rw [he]
      exact .inr ⟨w, hl⟩

section Committed

variable {cr : Tid} {q : ℕ} {side : Side}

theorem Committed.caller_cases (h : Committed cap σ σ' cr q side) :
    (σ.pc cr).onList = none ∧
      ∀ q' side' stage, (σ.pc cr).msg = some (q', side', stage) →
        q' = q ∧ side' = side ∧ stage = .retry := by
  rcases h.caller with hpc | hpc
  · rw [hpc]
    exact ⟨rfl, by rintro q' side' stage ⟨⟩⟩
  · refine ⟨Pc.onList_retry hpc, fun q' side' stage hm => ?_⟩
    rw [hpc] at hm
    cases hm
    exact ⟨rfl, rfl, rfl⟩

/-- Everyone taken off a list still is, except that the caller leaves its own side. -/
theorem Committed.still (h : Committed cap σ σ' cr q side) {q' : ℕ} {side' : Side} {t : Tid}
    (hne : t ≠ cr ∨ ¬(q' = q ∧ side' = side)) (ht : σ.TakenOff q' side' t) :
    σ'.TakenOff q' side' t := by
  have htc : t ≠ cr := by
    rintro rfl
    obtain ⟨hlist, hmsg⟩ := h.caller_cases
    rcases ht with ⟨hm, -⟩ | hm
    · rw [hlist] at hm
      cases hm
    · obtain ⟨hq, hside, -⟩ := hmsg _ _ _ hm
      exact hne.elim (absurd rfl) fun hne => hne ⟨hq, hside⟩
  refine ht.update h.pc (fun u _ hu => ?_) htc
  by_cases heq : q' = q ∧ side' = side.other
  · obtain ⟨rfl, rfl⟩ := heq
    rcases h.peer with ⟨-, hnil, -⟩ | ⟨w, hw⟩
    · rw [hnil] at hu
      cases hu
    · rw [hw]
      exact List.mem_cons_of_mem w hu
  · rw [h.lists q' side' heq] at hu
    exact hu

theorem Committed.sleepsOn (h : Committed cap σ σ' cr q side) {q' : ℕ} {side' : Side} {t : Tid}
    (ht : σ'.SleepsOn q' side' t) : σ.SleepsOn q' side' t :=
  ht.before h.rests h.pc (by simp [Pc.msg])

/-- No wake-up is lost except on the peers' side. -/
theorem Committed.rest (h : Committed cap σ σ' cr q side) (hw : σ.NoWakeLost cap) {q' : ℕ}
    {side' : Side} {t : Tid} (ht : σ'.SleepsOn q' side' t) (hne : ¬(q' = q ∧ side' = side.other)) :
    (σ'.msgQueues q').avail (cap q') side' ≤ σ'.taken q' side' := by
  have hle := hw q' side' t (h.sleepsOn ht)
  by_cases hq : q' = q
  · subst hq
    have hside : side' = side := by
      cases side <;> cases side' <;> first | rfl | exact absurd ⟨rfl, rfl⟩ hne
    subst hside
    have hcard : σ.taken q' side' ≤ σ'.taken q' side' + 1 :=
      taken_le_succ fun u huc => h.still (.inl huc)
    have hspent := h.spent
    omega
  · rw [h.elsewhere q' hq]
    exact hle.trans (taken_le fun u => h.still (.inr fun heq => hq heq.1))

/-- A peer is taken off the list: one item more for one task more. -/
theorem Committed.taken_peer (h : Committed cap σ σ' cr q side) (hw : σ.Waiters cap) {w : Tid}
    (hcons : ((σ.msgQueues q).waitList side.other).tids =
      w :: ((σ'.msgQueues q).waitList side.other).tids) :
    σ.taken q side.other + 1 ≤ σ'.taken q side.other := by
  have hmem : w ∈ ((σ.msgQueues q).waitList side.other).tids := by
    rw [hcons]
    exact List.mem_cons_self
  have hwl := hw.waits q side.other w hmem
  have hn := hw.nodup q side.other
  rw [hcons, List.nodup_cons] at hn
  have hwcr : w ≠ cr := by
    rintro rfl
    rw [h.caller_cases.1] at hwl
    cases hwl
  refine taken_succ_le (w := w) ?_ (.inl ⟨?_, hn.1⟩)
    fun t => h.still (.inr fun heq => Side.other_ne side heq.2)
  · rintro (⟨-, hm⟩ | hm)
    · exact hm hmem
    · rw [Pc.onList_retry hm] at hwl
      cases hwl
  · rw [h.pc, Function.update_of_ne hwcr]
    exact hwl

/-- **A commit loses a wake-up** only where it finds nobody on the list beside one who sleeps. -/
theorem Committed.noWakeLost_iff (h : Committed cap σ σ' cr q side) (hw : σ.Waiters cap)
    (hold : σ.NoWakeLost cap) :
    σ'.NoWakeLost cap ↔ (((σ.msgQueues q).waitList side.other).tids = [] →
      ∀ t, σ.SleepsOn q side.other t →
        (σ.msgQueues q).avail (cap q) side.other < σ.taken q side.other) := by
  have hgained := h.gained
  rcases h.peer with ⟨hnil, hnil', hkernel⟩ | ⟨w, hcons⟩
  · -- nobody is on the list, and the kernel stays as it is
    have hsame : ∀ t, σ'.TakenOff q side.other t → σ.TakenOff q side.other t := by
      intro t ht
      have htc : t ≠ cr := by
        rintro rfl
        rcases ht with ⟨hm, -⟩ | hm
        · rw [h.pc, Function.update_self] at hm
          cases hm
        · rw [h.pc, Function.update_self] at hm
          cases hm
      refine (takenOff_iff (by rw [h.pc, Function.update_of_ne htc]) ?_).mp ht
      rw [hnil, hnil']
    have hle := taken_le hsame
    have hge : σ.taken q side.other ≤ σ'.taken q side.other :=
      taken_le fun t => h.still (.inr fun heq => Side.other_ne side heq.2)
    constructor
    · intro hall _ t ht
      have htc : t ≠ cr := by
        rintro rfl
        have hstage := (h.caller_cases.2 _ _ _ ht.1).2.2
        cases hstage
      have ht' : σ'.SleepsOn q side.other t := by
        refine ⟨?_, by rw [hkernel]; exact ht.2⟩
        rw [h.pc, Function.update_of_ne htc]
        exact ht.1
      have hall' := hall q side.other t ht'
      omega
    · intro hC q' side' t ht
      by_cases heq : q' = q ∧ side' = side.other
      · obtain ⟨rfl, rfl⟩ := heq
        have hlt := hC hnil t (h.sleepsOn ht)
        omega
      · exact h.rest hold ht heq
  · refine iff_of_true ?_ (fun hnil => by rw [hcons] at hnil; cases hnil)
    intro q' side' t ht
    by_cases heq : q' = q ∧ side' = side.other
    · obtain ⟨rfl, rfl⟩ := heq
      have hcard := h.taken_peer hw hcons
      have hle := hold q' side.other t (h.sleepsOn ht)
      omega
    · exact h.rest hold ht heq

end Committed

/-! ### Steps that lose no wake-up -/

section Quiet

variable {cr : Tid} {q : ℕ} {side : Side} {pc : Pc T} {hist : List (Event T)}

/-- A call that times out at once or is going to wait. -/
theorem NoWakeLost.start (h : σ.NoWakeLost cap) (hpc : σ.pc cr = .user)
    (hnext : pc = .user ∨ ∃ timeout ≠ 0, pc.msg = some (q, side, .wait timeout)) :
    ({ σ with pc := Function.update σ.pc cr pc, history := hist } : System T).NoWakeLost cap := by
  refine h.keep (fun q' side' t ht => ?_) (fun _ _ => rfl) fun q' side' t ht => ?_
  · refine ht.before (.refl _) rfl ?_
    rcases hnext with rfl | ⟨timeout, -, hm⟩
    · simp [Pc.msg]
    · simp [hm]
  · refine ht.update rfl (fun _ _ hm => hm) ?_
    rintro rfl
    exact not_takenOff (by rw [hpc]; rfl) (by simp [hpc, Pc.msg]) q' side' ht

/-- The running task goes on its list. -/
theorem Watchful.enlist (h : σ.Watchful cap) {timeout : BitVec 32}
    (hpc : (σ.pc cr).msg = some (q, side, .wait timeout))
    (hnext : pc.msg = some (q, side, .delay timeout)) :
    ({ σ with
      kernel := (σ.kernel.enqueue ((σ.msgQueues q).waitList side) cr).1
      msgQueues := Function.update σ.msgQueues q ((σ.msgQueues q).setWaitList side
        (σ.kernel.enqueue ((σ.msgQueues q).waitList side) cr).2)
      pc := Function.update σ.pc cr pc } : System T).NoWakeLost cap := by
  have hno := h.waiters.not_mem (Pc.onList_wait hpc)
  refine h.noWakeLost.keep (fun q' side' t ht => ?_) (fun _ _ => avail_update_self)
    fun q' side' t ht => ?_
  · exact ht.before ⟨fun _ hu => hu, rfl⟩ rfl (by simp [hnext])
  · refine ht.update rfl (fun u huc hu => mem_waitList_of_update (fun _ => rfl) (fun hul => ?_) hu) ?_
    · rw [mem_enqueue (h.waiters.nodup q side) (hno q side)] at hul
      exact hul.resolve_left huc
    · rintro rfl
      exact not_takenOff (Pc.onList_wait hpc) (by simp [hpc]) q' side' ht

/-- The running task finds itself on its list and leaves it. -/
theorem NoWakeLost.timeOut (h : σ.NoWakeLost cap) (hpc : (σ.pc cr).msg = some (q, side, .check))
    (hmem : cr ∈ ((σ.msgQueues q).waitList side).tids) :
    ({ σ with
      msgQueues := Function.update σ.msgQueues q ((σ.msgQueues q).setWaitList side
        (((σ.msgQueues q).waitList side).remove cr))
      pc := Function.update σ.pc cr .user
      history := hist } : System T).NoWakeLost cap := by
  refine h.keep (fun q' side' t ht => ?_) (fun _ _ => avail_update_self) fun q' side' t ht => ?_
  · exact ht.before (.refl _) rfl (by simp [Pc.msg])
  · refine ht.update rfl (fun u _ hu => mem_waitList_of_update (fun _ => rfl) (fun hul => ?_) hu) ?_
    · rw [remove_tids] at hul
      exact List.mem_of_mem_erase hul
    · rintro rfl
      exact not_takenOff_of_check hpc hmem q' side' ht

/-- The running task has been taken off its list and goes on to its second attempt. -/
theorem NoWakeLost.wake (h : σ.NoWakeLost cap) (hpc : (σ.pc cr).msg = some (q, side, .check))
    (hnext : pc.msg = some (q, side, .retry)) :
    ({ σ with pc := Function.update σ.pc cr pc } : System T).NoWakeLost cap := by
  refine h.keep (fun q' side' t ht => ?_) (fun _ _ => rfl) fun q' side' t ht => ?_
  · exact ht.before (.refl _) rfl (by simp [hnext])
  · by_cases htc : t = cr
    · subst htc
      right
      show (Function.update σ.pc t pc t).msg = _
      rw [Function.update_self, hnext]
      rcases ht with ⟨hm, -⟩ | hm
      · rw [Pc.onList_check hpc] at hm
        cases hm
        rfl
      · rw [hpc] at hm
        cases hm
    · exact ht.update rfl (fun _ _ hm => hm) htc

/-- The second attempt fails: nothing is available on the side of the task that gives up. -/
theorem NoWakeLost.giveUp (h : σ.NoWakeLost cap) (hpc : (σ.pc cr).msg = some (q, side, .retry))
    (havail : (σ.msgQueues q).avail (cap q) side = 0) :
    ({ σ with pc := Function.update σ.pc cr .user, history := hist } : System T).NoWakeLost cap := by
  intro q' side' t ht
  show (σ.msgQueues q').avail (cap q') side' ≤ _
  by_cases heq : q' = q ∧ side' = side
  · obtain ⟨rfl, rfl⟩ := heq
    omega
  · refine (h q' side' t (ht.before (.refl _) rfl (by simp [Pc.msg]))).trans (taken_le ?_)
    intro u hu
    refine hu.update rfl (fun _ _ hm => hm) ?_
    rintro rfl
    rcases hu with ⟨hm, -⟩ | hm
    · rw [Pc.onList_retry hpc] at hm
      cases hm
    · rw [hpc] at hm
      cases hm
      exact heq ⟨rfl, rfl⟩

/-- The running task falls asleep in a `Task::delay` that belongs to no queue. -/
theorem NoWakeLost.delay (h : σ.NoWakeLost cap) {ticks : BitVec 32} {k : Kernel}
    (hcr : σ.kernel.crTid = some cr) (hpc : σ.pc cr = .user) (hk : σ.kernel.delay ticks = some k) :
    (σ.setKernel k).NoWakeLost cap := by
  refine h.keep (fun q side t ht => ⟨ht.1, (asleep_delay hcr hk).1 t ?_ ht.2⟩) (fun _ _ => rfl)
    fun _ _ _ ht => ht
  rintro rfl
  have hm : (σ.pc t).msg = some (q, side, .check) := ht.1
  rw [hpc] at hm
  cases hm

/-- A step in which nobody falls asleep and no list changes. -/
theorem NoWakeLost.setKernel (h : σ.NoWakeLost cap) {k : Kernel} (hk : Rests σ.kernel k) :
    (σ.setKernel k).NoWakeLost cap :=
  h.keep (fun _ _ t ht => ⟨ht.1, hk.asleep t ht.2⟩) (fun _ _ => rfl) fun _ _ _ ht => ht

end Quiet

/-- **Which steps lose a wake-up.** -/
theorem Watchful.noWakeLost_iff (h : σ.Watchful cap) (ha : a.IsMsg)
    (hs : σ.step cap a = some σ') : σ'.NoWakeLost cap ↔ σ.Heeds cap a := by
  cases h.waiters.msgStep ha hs with
  | tick hk =>
      exact iff_of_true (h.noWakeLost.setKernel (rests_systickTrap hk)) (heeds_of_none rfl rfl)
  | switch hsw hk =>
      refine iff_of_true (h.noWakeLost.setKernel (rests_yieldIf hk)) ?_
      rcases hsw with rfl | rfl <;> exact heeds_of_none rfl rfl
  | delay hcr hpc hk => exact iff_of_true (h.noWakeLost.delay hcr hpc hk) (heeds_of_none rfl rfl)
  | @commit _ cr q side j k hist hcr hpc hcom hj havail havail' hk =>
      have hcommit := committed (h := hist) hpc hj havail havail' hk
      have hf : σ.fallsAsleep a = none := by
        refine fallsAsleep_eq_none hcr (fun q' side' timeout hm => ?_) a
        have hstage := (hcommit.caller_cases.2 _ _ _ hm).2.2
        cases hstage
      rw [hcommit.noWakeLost_iff h.waiters h.noWakeLost, heeds_iff, hf, hcom]
      simp
  | start hcr hpc hcom havail hnext =>
      exact iff_of_true (h.noWakeLost.start hpc hnext) (heeds_of_none rfl hcom)
  | enlist hcr hpc hnext =>
      exact iff_of_true (h.enlist hpc hnext) (heeds_of_none
        (fallsAsleep_eq_none hcr (by simp [hpc]) _) (committing_proceed hcr hpc (by simp)))
  | sleep hcr hpc hnext hk =>
      rw [h.sleep_iff hcr hpc hnext hk, heeds_iff, fallsAsleep_delay hcr hpc,
        committing_proceed hcr hpc (by simp)]
      split_ifs with hfall <;> simp [hfall]
  | timeOut hcr hpc hmem =>
      exact iff_of_true (h.noWakeLost.timeOut hpc hmem) (heeds_of_none
        (fallsAsleep_eq_none hcr (by simp [hpc]) _) (committing_proceed hcr hpc (by simp)))
  | wake hcr hpc hmem hnext =>
      exact iff_of_true (h.noWakeLost.wake hpc hnext) (heeds_of_none
        (fallsAsleep_eq_none hcr (by simp [hpc]) _) (committing_proceed hcr hpc (by simp)))
  | giveUp hcr hpc havail =>
      have hcom : σ.committing cap .proceed = none :=
        (committing_retry hcr hpc).trans (if_neg havail.not_gt)
      exact iff_of_true (h.noWakeLost.giveUp hpc havail)
        (heeds_of_none (fallsAsleep_eq_none hcr (by simp [hpc]) _) hcom)

theorem Watchful.step (h : σ.Watchful cap) (ha : a.IsMsg) (hs : σ.step cap a = some σ')
    (hC : σ.Heeds cap a) : σ'.Watchful cap := by
  refine ⟨?_, h.waiters.step ha hs, (h.noWakeLost_iff ha hs).mpr hC⟩
  have hready := h.ready
  cases h.waiters.msgStep ha hs with
  | tick hk => exact (rests_systickTrap hk).schedReady.trans hready
  | switch hsw hk => exact (rests_yieldIf hk).schedReady.trans hready
  | delay hcr hpc hk => exact (asleep_delay hcr hk).2.trans hready
  | commit hcr hpc hcom hj havail havail' hk =>
      exact (committed (h := []) hpc hj havail havail' hk).rests.schedReady.trans hready
  | sleep hcr hpc hnext hk => exact (asleep_delay hcr hk).2.trans hready
  | _ => exact hready

theorem watchful_init {boots : List BootCall} {k : Kernel} {counts : ℕ → ℤ}
    (h : launchAfter boots = some k) : (init k counts : System T).Watchful cap := by
  obtain ⟨⟨c, hc⟩, -, -, -⟩ := settled_launchAfter h
  refine ⟨hc.ready, waiters_init k counts, ?_⟩
  rintro q side t ⟨hm, -⟩
  cases hm

end System

/-- **When message queues lose no wake-up.**  In every run of `send` and `recv` calls, delays, yields and
interrupts from a launch, no wake-up is lost in all states exactly when every step heeds it: whoever
falls asleep in `wait_on` leaves nothing available but for those already taken off its list, and no
commit that finds the list empty adds an item beside one who sleeps although taken off. -/
theorem no_wake_lost {boots : List BootCall} {k : Kernel} {counts : ℕ → ℤ}
    {tr : List (System T × Action T)} (hl : launchAfter boots = some k)
    (hr : Run (System.step cap) (fun _ a => a.IsMsg) (System.init k counts) tr σ) :
    Always (fun σ : System T => σ.NoWakeLost cap) tr σ ↔ ∀ e ∈ tr, e.1.Heeds cap e.2 :=
  hr.forall_iff (System.watchful_init hl) (fun _ h => h.noWakeLost)
    (fun _ _ _ h ha hs hC => h.step ha hs hC)
    (fun _ _ _ h ha hs hok => (h.noWakeLost_iff ha hs).mp hok)

/-- A run that loses no wake-up: a receiver sleeps, a sender wakes it, and it receives the message. -/
theorem no_wake_lost_run : ∃ k₀ tr, ∃ σ : System ℕ,
    launchAfter [.create 3 "a", .create 3 "b"] = some k₀ ∧
      Run (System.step fun _ => 1) (fun _ a => a.IsMsg) (System.init k₀ fun _ => 0) tr σ ∧
      σ.history = [.received 0 0 7, .sent 0 1 7, .sendCalled 0 1 7, .recvCalled 0 0] ∧
      Always (fun σ : System ℕ => σ.NoWakeLost fun _ => 1) tr σ := by
  have hsome : (launchAfter [.create 3 "a", .create 3 "b"]).isSome = true := by decide +kernel
  obtain ⟨k₀, hk₀⟩ := Option.isSome_iff_exists.mp hsome
  have hexec : ((launchAfter [.create 3 "a", .create 3 "b"]).bind fun k₀ =>
      exec (System.step fun _ => 1)
        (fun (σ : System ℕ) a => a.IsMsg ∧ σ.Heeds (fun _ => 1) a) (System.init k₀ fun _ => 0)
        [.call (.recv 0 5), .proceed, .proceed, .call (.send 0 7 0), .preempt, .proceed,
          .proceed]).any (fun σ => σ.history =
            [.received 0 0 7, .sent 0 1 7, .sendCalled 0 1 7, .recvCalled 0 0]) = true := by
    decide +kernel
  rw [hk₀, Option.bind_some] at hexec
  obtain ⟨tr, σ, hr, hσ⟩ := exists_run_of_exec (fun (σ : System ℕ) a
    (h : decide (a.IsMsg ∧ σ.Heeds (fun _ => 1) a) = true) => of_decide_eq_true h) hexec
  have hrun := hr.mono fun _ _ h => h.1
  exact ⟨k₀, tr, σ, hk₀, hrun, of_decide_eq_true hσ,
    (no_wake_lost hk₀ hrun).mpr fun e he => (hr.forall_guard e he).2⟩

/-- A receiver that has found the queue empty is preempted before it is on the wait list, and a sender
commits: the receiver sleeps beside the message. -/
theorem wake_lost : ∃ k₀ tr, ∃ σ : System Unit,
    launchAfter [.create 3 "a", .create 3 "b"] = some k₀ ∧
      Run (System.step fun _ => 1) (fun _ a => a.IsMsg) (System.init k₀ fun _ => 0) tr σ ∧
      σ.SleepsOn 0 .receivers 0 ∧ (σ.msgQueues 0).len = 1 ∧ σ.taken 0 .receivers = 0 ∧
      ¬Always (fun σ : System Unit => σ.NoWakeLost fun _ => 1) tr σ := by
  have hsome : (launchAfter [.create 3 "a", .create 3 "b"]).isSome = true := by decide +kernel
  obtain ⟨k₀, hk₀⟩ := Option.isSome_iff_exists.mp hsome
  have hexec : ((launchAfter [.create 3 "a", .create 3 "b"]).bind fun k₀ =>
      exec (System.step fun _ => 1) (fun (_ : System Unit) a => a.IsMsg)
        (System.init k₀ fun _ => 0)
        [.call (.recv 0 100), .systick 49, .call (.send 0 () 0), .call (.task .yieldTask), .proceed,
          .proceed]).any (fun σ => σ.SleepsOn 0 .receivers 0 ∧ (σ.msgQueues 0).len = 1 ∧
            σ.taken 0 .receivers = 0) = true := by
    decide +kernel
  rw [hk₀, Option.bind_some] at hexec
  obtain ⟨tr, σ, hr, hσ⟩ := exists_run_of_exec (fun (_ : System Unit) (a : Action Unit)
    (h : decide a.IsMsg = true) => of_decide_eq_true h) hexec
  obtain ⟨hsleep, hlen, htaken⟩ := of_decide_eq_true hσ
  refine ⟨k₀, tr, σ, hk₀, hr, hsleep, hlen, htaken, fun hall => ?_⟩
  have hle : (σ.msgQueues 0).len ≤ σ.taken 0 .receivers := hall.2 0 .receivers 0 hsleep
  omega

end MosKernel
