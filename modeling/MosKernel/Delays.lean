import MosKernel.Ticks

/-!
# When delays end

`Task::delay` computes the wake point with a wrapping addition, and `wake_up_sleepers` compares it with
the clock as plain numbers.  So a delay ends with the first scheduling pass at or after its time while
neither sum wraps, at once when the wake point wraps, and too late when the clock wraps under it.
`delays_are_exact` says this for the whole life of a delay, from a launch with any clock value and
with any other tasks, creations and late interrupts.
-/

namespace MosKernel

open OrderedInsert TaskList Transition Kernel

/-! ### Ticks and passes of an action -/

/-- How many ticks an action counts. -/
def TaskAction.ticks : TaskAction → ℕ
  | .call _ => 0
  | .systick missed => missed + 1

/-- How many ticks have been counted in a run. -/
def elapsed : List (Kernel × TaskAction) → ℕ
  | [] => 0
  | (_, a) :: tr => elapsed tr + a.ticks

/-- Whether the call runs `next_tcb`. -/
def TaskCall.passes (k : Kernel) : TaskCall → Bool
  | .create priority name =>
    match k.allocTid with
    | some (tid, k) =>
      let k := k.addTask tid priority name
      k.currentTcbPtr.any fun p => priority < k.priority p
    | none => false
  | .createRaw _ _ _ => false
  | .exitCurrent => true
  | .block tid => k.status tid = .ready || k.status tid = .running
  | .resume tid =>
    k.status tid = .blocked && tid ∈ k.blockedList.tids &&
      k.currentTcbPtr.any fun p => k.priority tid < k.priority p
  | .terminate tid => k.status tid ≠ .terminated
  | .delay ticks => ticks ≠ 0
  | .yieldTask => true

/-- Whether the action runs `next_tcb`. -/
def TaskAction.passes (k : Kernel) : TaskAction → Bool
  | .call c => c.passes k
  | .systick missed => (k.systickReplay missed).any Prod.snd

namespace Kernel

variable {k k₁ k' : Kernel} {c t u : Tid} {w : BitVec 32}

/-- The kernel at another clock value. -/
def setClock (k : Kernel) (now : BitVec 32) : Kernel := { k with osTicks := now }

/-- `t` is asleep with the wake point `w`. -/
structure SleepsUntil (k : Kernel) (t : Tid) (w : BitVec 32) : Prop where
  status : k.status t = .blocked
  sleeping : t ∈ k.sleepingList.tids
  ready : t ∉ k.readyList.tids
  wakePoint : (k.tcbs t).wakePoint = w

/-- `t` has been made ready. -/
def Awake (k : Kernel) (t : Tid) : Prop := k.status t = .ready ∨ k.status t = .running

instance (k : Kernel) (t : Tid) : Decidable (k.Awake t) := instDecidableOr

theorem SleepsUntil.not_awake (h : k.SleepsUntil t w) : ¬k.Awake t := by
  rintro (hst | hst)
  · rw [h.status] at hst
    cases hst
  · rw [h.status] at hst
    cases hst

namespace SleepsUntil

/-! ### Writes to other tasks -/

theorem setTcb (h : k.SleepsUntil t w) (hu : t ≠ u) (f : Tcb → Tcb) :
    (k.setTcb u f).SleepsUntil t w := by
  refine ⟨?_, h.sleeping, h.ready, ?_⟩
  · rw [status_setTcb, if_neg hu]
    exact h.status
  · rw [setTcb_tcbs, Function.update_of_ne hu]
    exact h.wakePoint

theorem readyRemove (h : k.SleepsUntil t w) (u : Tid) : (k.readyRemove u).SleepsUntil t w := by
  refine ⟨h.status, h.sleeping, fun hm => h.ready ?_, h.wakePoint⟩
  rw [readyRemove_readyList, remove_tids] at hm
  exact List.mem_of_mem_erase hm

theorem readyInsert (h : k.SleepsUntil t w) (hu : t ≠ u) : (k.readyInsert u).SleepsUntil t w := by
  refine ⟨h.status, h.sleeping, fun hm => ?_, h.wakePoint⟩
  rcases mem_of_mem_insertInOrder hm with htu | hm
  · exact hu htu
  · exact h.ready hm

theorem sleepingRemove (h : k.SleepsUntil t w) (hu : t ≠ u) :
    (k.sleepingRemove u).SleepsUntil t w := by
  refine ⟨h.status, ?_, h.ready, h.wakePoint⟩
  rw [sleepingRemove_sleepingList, remove_tids]
  exact (List.mem_erase_of_ne hu).mpr h.sleeping

theorem sleepingInsert (h : k.SleepsUntil t w) (u : Tid) : (k.sleepingInsert u).SleepsUntil t w := by
  refine ⟨h.status, ?_, h.ready, h.wakePoint⟩
  rw [sleepingInsert_sleepingList]
  exact List.count_pos_iff.mp (lt_of_lt_of_le (List.count_pos_iff.mpr h.sleeping)
    count_le_insertInOrder)

theorem wake (h : k.SleepsUntil t w) (hu : t ≠ u) : (k.wake u).SleepsUntil t w :=
  (h.setTcb hu _).readyInsert hu

theorem park (h : k.SleepsUntil t w) (hu : t ≠ u) : (k.park u).SleepsUntil t w :=
  (h.setTcb hu _).readyRemove u

theorem blockedPush (h : k.SleepsUntil t w) (u : Tid) : (k.blockedPush u).SleepsUntil t w :=
  ⟨h.status, h.sleeping, h.ready, h.wakePoint⟩

theorem blockedRemove (h : k.SleepsUntil t w) (u : Tid) : (k.blockedRemove u).SleepsUntil t w :=
  ⟨h.status, h.sleeping, h.ready, h.wakePoint⟩

theorem freeTid (h : k.SleepsUntil t w) (hu : t ≠ u) : (k.freeTid u).SleepsUntil t w := by
  have hbit : (k.clearBit u).SleepsUntil t w := ⟨h.status, h.sleeping, h.ready, h.wakePoint⟩
  exact hbit.setTcb hu fun tcb => { tcb with status := .terminated }

theorem addTask (h : k.SleepsUntil t w) (ha : k.allocTid = some (u, k₁)) (hu : t ≠ u) (p : ℕ)
    (name : String) : (k₁.addTask u p name).SleepsUntil t w := by
  obtain ⟨-, rfl⟩ := allocTid_eq_some ha
  have hfresh : ({ k with
      tidBitmap := k.tidBitmap ||| (1#32 <<< u.val)
      tcbs := Function.update k.tcbs u (.empty u) } : Kernel).SleepsUntil t w := by
    have htcb : Function.update k.tcbs u (.empty u) t = k.tcbs t := Function.update_of_ne hu _ _
    refine ⟨?_, h.sleeping, h.ready, ?_⟩
    · show (Function.update k.tcbs u (.empty u) t).status = .blocked
      rw [htcb]
      exact h.status
    · show (Function.update k.tcbs u (.empty u) t).wakePoint = w
      rw [htcb]
      exact h.wakePoint
  exact (hfresh.setTcb hu _).readyInsert hu

/-! ### A scheduling pass -/

/-- `wake_up_sleepers` wakes `t` exactly when the clock has reached the wake point. -/
theorem wakeUpSleepers (h : k.SleepsUntil t w) :
    if k.osTicks < w then k.wakeUpSleepers.SleepsUntil t w else k.wakeUpSleepers.status t = .ready := by
  have hloop : k.wakeUpSleepers.SleepsUntil t w ∨
      w ≤ k.osTicks ∧ k.wakeUpSleepers.status t = .ready := by
    refine wakeUpSleepers_induct (P := fun k' => k'.SleepsUntil t w ∨
      w ≤ k.osTicks ∧ k'.status t = .ready) (.inl h) fun k' u hk' hu hdue => ?_
    by_cases htu : t = u
    · subst htu
      right
      refine ⟨?_, ?_⟩
      · rcases hk' with hk' | hk'
        · rw [← hk'.wakePoint]
          exact hdue
        · exact hk'.1
      · rw [expire, status_readyInsert, status_setTcb, if_pos rfl]
    · rcases hk' with hk' | ⟨hle, hst⟩
      · exact .inl (((hk'.sleepingRemove htu).setTcb htu _).readyInsert htu)
      · refine .inr ⟨hle, ?_⟩
        rw [expire, status_readyInsert, status_setTcb, if_neg htu]
        exact hst
  split_ifs with hlt
  · exact hloop.resolve_right fun hr => absurd hlt (BitVec.not_lt.mpr hr.1)
  · refine (hloop.resolve_left fun hs => hlt ?_).2
    rw [← hs.wakePoint]
    exact wakeUpSleepers_done k t hs.sleeping

theorem requeue (h : k.SleepsUntil t w) (c : Tid) : (k.requeue c).SleepsUntil t w := by
  by_cases htc : t = c
  · subst htc
    rw [Kernel.requeue, if_pos (.inr h.status)]
    exact h.readyRemove t
  · unfold Kernel.requeue
    split_ifs
    · exact h.readyRemove c
    · exact ((h.setTcb htc _).readyRemove c).readyInsert htc
    · exact h

theorem switchTo (h : k.SleepsUntil t w) (hu : t ≠ u) (c : Tid) :
    (k.switchTo c u).SleepsUntil t w := by
  have hrun : ∀ {k : Kernel}, k.SleepsUntil t w →
      ((k.setStatus u .running).setCurrent u).SleepsUntil t w := by
    intro k h
    have hset := h.setTcb hu fun tcb => { tcb with status := .running }
    exact ⟨hset.status, hset.sleeping, hset.ready, hset.wakePoint⟩
  unfold Kernel.switchTo
  dsimp only
  split_ifs with hne hcr
  · have htc : t ≠ c := by
      rintro rfl
      rw [h.status] at hcr
      cases hcr
    exact hrun (h.setTcb htc _)
  · exact hrun h
  · exact h

end SleepsUntil

/-- A task that is ready stays so through the second half of `next_tcb`. -/
theorem Awake.requeue (h : k.Awake t) (c : Tid) : (k.requeue c).Awake t := by
  unfold Kernel.requeue
  split_ifs
  · exact h
  · unfold Awake
    rw [status_readyInsert, status_readyRemove, status_setTcb]
    split_ifs
    · exact .inl rfl
    · exact h
  · exact h

theorem Awake.switchTo (h : k.Awake t) (c u : Tid) : (k.switchTo c u).Awake t := by
  have hset : ∀ {k : Kernel} {st : TaskStatus} (v : Tid), (st = .ready ∨ st = .running) →
      k.Awake t → (k.setStatus v st).Awake t := by
    intro k st v hst hk
    unfold Awake
    rw [setStatus, status_setTcb]
    split_ifs
    · exact hst
    · exact hk
  unfold Kernel.switchTo
  dsimp only
  split_ifs
  · exact hset u (.inr rfl) (hset c (.inl rfl) h)
  · exact hset u (.inr rfl) h
  · exact h

/-- **A scheduling pass** wakes `t` exactly when the clock has reached the wake point. -/
theorem SleepsUntil.nextTcb (h : k.SleepsUntil t w) (hk : k.nextTcb = some k') :
    if k.osTicks < w then k'.SleepsUntil t w else k'.Awake t := by
  obtain ⟨c, -, hk⟩ := Option.bind_eq_some_iff.mp hk
  obtain ⟨st, hfront, rfl⟩ := Option.map_eq_some_iff.mp hk
  have hw := h.wakeUpSleepers
  split_ifs at hw ⊢
  · have hr := hw.requeue c
    refine hr.switchTo ?_ c
    rintro rfl
    exact hr.ready (List.mem_of_mem_head? hfront)
  · exact ((show k.wakeUpSleepers.Awake t from .inl hw).requeue c).switchTo c st

/-- What an action does to a sleeper: nothing, unless it makes a scheduling pass. -/
def PassedOver (k' : Kernel) (t : Tid) (w : BitVec 32) (passes : Bool) : Prop :=
  if passes = true ∧ w ≤ k'.osTicks then k'.Awake t else k'.SleepsUntil t w

theorem SleepsUntil.passedOver (h : k.SleepsUntil t w) : k.PassedOver t w false := by
  unfold PassedOver
  rw [if_neg (by simp)]
  exact h

theorem SleepsUntil.yieldTask (h : k.SleepsUntil t w) (hr : k.schedReady = true)
    (hk : k.yieldTask = some k') : k'.PassedOver t w true := by
  have hticks := osTicks_yieldTask hk
  rw [Kernel.yieldTask, if_pos hr] at hk
  have hn := h.nextTcb hk
  unfold PassedOver
  rw [hticks]
  by_cases hlt : k.osTicks < w
  · rw [if_pos hlt] at hn
    rw [if_neg fun hle => absurd hlt (BitVec.not_lt.mpr hle.2)]
    exact hn
  · rw [if_neg hlt] at hn
    rw [if_pos ⟨rfl, BitVec.not_lt.mp hlt⟩]
    exact hn

theorem SleepsUntil.ne_running (h : k.SleepsUntil t w) (hs : k.Settled c) : t ≠ c := by
  rintro rfl
  exact h.ready hs.current_mem

/-- A task that is created is another one. -/
theorem SleepsUntil.ne_fresh (h : k.SleepsUntil t w) (hs : k.Settled c) {u : Tid} {k₁ : Kernel}
    (ha : k.allocTid = some (u, k₁)) : t ≠ u := by
  rintro rfl
  have hdead := (hs.toCoherent.added 0 "" ha).fresh
  rw [h.status] at hdead
  cases hdead

theorem SleepsUntil.create {p : ℕ} {name : String} {r : Kernel × Except String Tid}
    (h : k.SleepsUntil t w) (hs : k.Settled c) (hk : k.create p name = some r) :
    r.1.PassedOver t w ((TaskCall.create p name).passes k) := by
  unfold Kernel.create at hk
  simp only [TaskCall.passes]
  split at hk
  · rename_i ha
    cases hk
    rw [ha]
    exact h.passedOver
  · rename_i u k₁ ha
    have hadd := h.addTask ha (h.ne_fresh hs ha) p name
    have hready : (k₁.addTask u p name).schedReady = true := by
      rw [(allocTid_eq_some ha).2]
      exact hs.ready
    have hcur : (k₁.addTask u p name).currentTcbPtr = some c := by
      rw [(allocTid_eq_some ha).2]
      exact hs.current
    obtain ⟨k₃, hk₃, hpair⟩ := Option.map_eq_some_iff.mp hk
    cases hpair
    rw [ha]
    dsimp only
    rw [hcur, Option.any_some]
    simp only [hready, hcur] at hk₃
    split_ifs at hk₃ with hlt
    · rw [decide_eq_true hlt]
      exact hadd.yieldTask hready hk₃
    · cases hk₃
      rw [decide_eq_false hlt]
      exact hadd.passedOver

theorem SleepsUntil.block {u : Tid} (h : k.SleepsUntil t w) (hs : k.Settled c)
    (hk : k.block u = some k') : k'.PassedOver t w ((TaskCall.block u).passes k) := by
  have hblock : k.Awake u → ((k.park u).blockedPush u).SleepsUntil t w := by
    intro hu
    refine (h.park ?_).blockedPush u
    rintro rfl
    exact h.not_awake hu
  have hpass : (TaskCall.block u).passes k = decide (k.Awake u) := (Bool.decide_or _ _).symm
  rw [hpass]
  unfold Kernel.block at hk
  split at hk
  · rename_i hst
    rw [decide_eq_true (show k.Awake u from .inl hst)]
    exact (hblock (.inl hst)).yieldTask hs.ready hk
  · rename_i hst
    rw [decide_eq_true (show k.Awake u from .inr hst)]
    exact (hblock (.inr hst)).yieldTask hs.ready hk
  · rename_i hnr hnrun
    cases hk
    rw [decide_eq_false (show ¬k.Awake u from not_or.mpr ⟨hnr, hnrun⟩)]
    exact h.passedOver

theorem SleepsUntil.resume {u : Tid} (h : k.SleepsUntil t w) (hs : k.Settled c)
    (hk : k.resume u = some k') : k'.PassedOver t w ((TaskCall.resume u).passes k) := by
  have hpass : (TaskCall.resume u).passes k = decide (k.status u = .blocked ∧
      u ∈ k.blockedList.tids ∧ k.priority u < k.priority c) := by
    simp [TaskCall.passes, hs.current, Bool.and_assoc]
  rw [hpass]
  unfold Kernel.resume at hk
  split_ifs at hk with hst hm
  · cases hk
    rw [decide_eq_false fun hall => hst hall.1]
    exact h.passedOver
  · have htu : t ≠ u := by
      rintro rfl
      exact hs.disjoint t h.sleeping hm
    have hw := (h.blockedRemove u).wake htu
    have hpri : ∀ v, ((k.blockedRemove u).wake u).priority v = k.priority v :=
      (frame_wake (k.blockedRemove u) u).priority
    have hcur : ((k.blockedRemove u).wake u).currentTcbPtr = some c := hs.current
    simp only [hcur, hpri] at hk
    split_ifs at hk with hlt
    · rw [decide_eq_true ⟨not_not.mp hst, hm, hlt⟩]
      exact hw.yieldTask hs.ready hk
    · cases hk
      rw [decide_eq_false fun hall => hlt hall.2.2]
      exact hw.passedOver
  · cases hk
    rw [decide_eq_false fun hall => absurd hall.2.1 ‹_›]
    exact h.passedOver

theorem SleepsUntil.terminate {u : Tid} (h : k.SleepsUntil t w) (hs : k.Settled c) (htu : t ≠ u)
    (hk : k.terminate u = some k') : k'.PassedOver t w ((TaskCall.terminate u).passes k) := by
  have hpass : (TaskCall.terminate u).passes k = decide (k.status u ≠ .terminated) := rfl
  rw [hpass]
  unfold Kernel.terminate at hk
  split_ifs at hk with hdead
  · cases hk
    rw [decide_eq_false (not_not.mpr hdead)]
    exact h.passedOver
  · rw [decide_eq_true hdead]
    have hlists := ((h.readyRemove u).sleepingRemove htu).blockedRemove u
    exact (hlists.freeTid htu).yieldTask hs.ready hk

theorem SleepsUntil.delay {ticks : BitVec 32} (h : k.SleepsUntil t w) (hs : k.Settled c)
    (hk : k.delay ticks = some k') : k'.PassedOver t w ((TaskCall.delay ticks).passes k) := by
  have htc := h.ne_running hs
  have hpass : (TaskCall.delay ticks).passes k = decide (ticks ≠ 0) := rfl
  rw [hpass]
  unfold Kernel.delay at hk
  split_ifs at hk with hz
  · cases hk
    rw [decide_eq_false (not_not.mpr hz)]
    exact h.passedOver
  · rw [decide_eq_true hz]
    rw [hs.onCpu.crTid] at hk
    have hsleep : (k.sleep c ticks).SleepsUntil t w :=
      ((h.setTcb htc _).park htc).sleepingInsert c
    exact hsleep.yieldTask hs.ready hk

/-- A call of another task. -/
theorem SleepsUntil.exec {call : TaskCall} {r : Option Tid} (h : k.SleepsUntil t w)
    (hs : k.Settled c) (hne : call ≠ .terminate t) (he : call.exec k = some (k', r)) :
    k'.PassedOver t w (call.passes k) := by
  cases call with
  | create p name =>
      obtain ⟨r₂, hk, hpair⟩ := Option.map_eq_some_iff.mp he
      cases hpair
      exact h.create hs hk
  | createRaw p name size =>
      obtain ⟨⟨k₂, r₂⟩, hk, hpair⟩ := Option.map_eq_some_iff.mp he
      cases hpair
      unfold Kernel.createRaw at hk
      split at hk
      · cases hk
        exact h.passedOver
      · rename_i u k₁ ha
        dsimp only at hk
        split_ifs at hk
        cases hk
        exact (h.addTask ha (h.ne_fresh hs ha) p name).passedOver
  | exitCurrent =>
      obtain ⟨k₁, hk, hpair⟩ := Option.map_eq_some_iff.mp he
      cases hpair
      unfold Kernel.exitCurrent at hk
      rw [hs.onCpu.crTid] at hk
      exact ((h.readyRemove c).freeTid (h.ne_running hs)).yieldTask hs.ready hk
  | block u =>
      obtain ⟨k₁, hk, hpair⟩ := Option.map_eq_some_iff.mp he
      cases hpair
      exact h.block hs hk
  | resume u =>
      obtain ⟨k₁, hk, hpair⟩ := Option.map_eq_some_iff.mp he
      cases hpair
      exact h.resume hs hk
  | terminate u =>
      obtain ⟨k₁, hk, hpair⟩ := Option.map_eq_some_iff.mp he
      cases hpair
      refine h.terminate hs ?_ hk
      rintro rfl
      exact hne rfl
  | delay ticks =>
      obtain ⟨k₁, hk, hpair⟩ := Option.map_eq_some_iff.mp he
      cases hpair
      exact h.delay hs hk
  | yieldTask =>
      obtain ⟨k₁, hk, hpair⟩ := Option.map_eq_some_iff.mp he
      cases hpair
      exact h.yieldTask hs.ready hk

/-- Ticks alone wake nobody. -/
theorem SleepsUntil.systickReplay {missed : ℕ} {r : Bool} (h : k.SleepsUntil t w)
    (hs : k.Settled c) (hk : k.systickReplay missed = some (k', r)) : k'.SleepsUntil t w := by
  have htick : ∀ {k k' : Kernel} {r : Bool}, k.Settled c → k.SleepsUntil t w →
      k.systickTick = some (k', r) → k'.SleepsUntil t w := by
    intro k k' r hs h hk
    have htc := h.ne_running hs
    have hadv : k.advanceTicks.SleepsUntil t w := ⟨h.status, h.sleeping, h.ready, h.wakePoint⟩
    rw [systickTick_eq hs.onCpu] at hk
    cases hk
    unfold chargeSlice
    split_ifs
    · exact hadv.setTcb htc _
    · exact hadv
  induction missed generalizing k' r with
  | zero => exact htick hs h hk
  | succ missed ih =>
      obtain ⟨⟨k₁, r₁⟩, hk₁, hk⟩ := Option.bind_eq_some_iff.mp hk
      obtain ⟨⟨k₂, r₂⟩, hk₂, hk⟩ := Option.bind_eq_some_iff.mp hk
      cases hk
      exact htick (hs.systickReplay hk₁).1 (ih hk₁) hk₂

/-- One action of the others. -/
theorem SleepsUntil.step {a : TaskAction} (h : k.SleepsUntil t w) (hs : k.Settled c)
    (ha : a ≠ .call (.terminate t)) (hk : a.step k = some k') :
    k'.PassedOver t w (a.passes k) := by
  cases a with
  | call call =>
      obtain ⟨⟨k₁, r⟩, he, rfl⟩ := Option.map_eq_some_iff.mp hk
      exact h.exec hs (fun hc => ha (by rw [hc])) he
  | systick missed =>
      obtain ⟨⟨k₁, r⟩, hk₁, hk⟩ := Option.bind_eq_some_iff.mp hk
      have h₁ := h.systickReplay hs hk₁
      have hpass : (TaskAction.systick missed).passes k = r := by
        simp only [TaskAction.passes, hk₁, Option.any_some]
      rw [hpass]
      cases r with
      | false =>
          cases hk
          exact h₁.passedOver
      | true => exact h₁.yieldTask (hs.systickReplay hk₁).1.ready hk

theorem osTicks_taskAction {a : TaskAction} (hr : k.schedReady = true) (hk : a.step k = some k') :
    k'.osTicks = k.osTicks + BitVec.ofNat 32 a.ticks := by
  cases a with
  | call call =>
      obtain ⟨⟨k₁, r⟩, he, rfl⟩ := Option.map_eq_some_iff.mp hk
      exact (osTicks_taskCall he).trans (BitVec.add_zero _).symm
  | systick missed => exact osTicks_systickTrap hr hk

/-! ### The call of `Task::delay` -/

/-- The running task goes to sleep. -/
theorem Settled.sleepsUntil (h : k.Settled t) (ticks : BitVec 32) :
    (k.sleep t ticks).SleepsUntil t (k.osTicks + ticks) := by
  have hns : t ∉ k.sleepingList.tids := fun hm =>
    h.not_mem_ready (h.of_mem_sleeping t hm) h.current_mem
  have htids := (sleepingInsert_tids (k := (k.setTcb t fun tcb =>
    { tcb with wakePoint := k.osTicks + ticks }).park t) h.sleeping_nodup hns).1
  refine ⟨?_, ?_, ?_, ?_⟩
  · rw [Kernel.sleep, status_sleepingInsert, Kernel.park, status_readyRemove, setStatus,
      status_setTcb, if_pos rfl]
  · rw [Kernel.sleep, htids, mem_insertBefore]
    exact .inl rfl
  · show t ∉ (k.readyList.remove t).tids
    rw [remove_tids]
    exact h.ready_nodup.not_mem_erase
  · simp [Kernel.sleep, Kernel.park, setStatus]

/-- The pass at the end of the call itself. -/
theorem Settled.delay {ticks : BitVec 32} (h : k.Settled t) (hne : ticks ≠ 0)
    (hk : k.delay ticks = some k') : k'.PassedOver t (k.osTicks + ticks) true := by
  rw [Kernel.delay, if_neg hne, h.onCpu.crTid] at hk
  exact (h.sleepsUntil ticks).yieldTask h.ready hk

/-- A launched kernel may come with any clock value. -/
theorem Settled.setClock (h : k.Settled c) (now : BitVec 32) : (k.setClock now).Settled c := by
  obtain ⟨⟨h1, h2, h3, h4, h5, h6, h7, h8, h9, h10⟩, hr, hc, hm⟩ := h
  exact ⟨⟨h1, h2, h3, h4, h5, h6, h7, h8, h9, h10⟩, hr, hc, hm⟩

end Kernel

/-! ### Clock arithmetic -/

/-- A sum with a positive number is larger exactly when it does not wrap. -/
theorem lt_add_iff_not_wrap {x d : BitVec 32} (hd : 0 < d.toNat) :
    x < x + d ↔ x.toNat + d.toNat < 2 ^ 32 := by
  rw [BitVec.lt_def, BitVec.toNat_add]
  have hx := x.isLt
  have hd' := d.isLt
  omega

/-- Below half the range, the comparison with the wake point is right exactly while the clock has not
wrapped. -/
theorem due_iff_not_wrap {x d : BitVec 32} {e : ℕ} (hd : d.toNat < 2 ^ 31) (he : e < 2 ^ 31)
    (hwake : x.toNat + d.toNat < 2 ^ 32) :
    ((x + d ≤ x + BitVec.ofNat 32 e ↔ d.toNat ≤ e) ↔ x.toNat + e < 2 ^ 32) := by
  rw [BitVec.le_def, BitVec.toNat_add, BitVec.toNat_add, BitVec.toNat_ofNat]
  have hx := x.isLt
  omega

/-- The sleep of `t` along a run of the others, up to the action at the end of which it wakes. -/
theorem sleepsUntil_run {k₁ k₂ : Kernel} {t : Tid} {w : BitVec 32} {tr : List (Kernel × TaskAction)}
    (hl : Listed k₁) (h : k₁.SleepsUntil t w)
    (hr : Run TaskAction.step (fun _ a => a ≠ .call (.terminate t)) k₁ tr k₂)
    (hasleep : Always (fun k => ¬k.Awake t) tr k₂) :
    Listed k₂ ∧ k₂.SleepsUntil t w ∧ k₂.osTicks = k₁.osTicks + BitVec.ofNat 32 (elapsed tr) := by
  induction hr with
  | start => exact ⟨hl, h, (BitVec.add_zero _).symm⟩
  | @next tr k k' a hr ha hs ih =>
      obtain ⟨hall, hlast⟩ := hasleep
      rw [List.forall_mem_cons] at hall
      obtain ⟨hlk, hk, hticks⟩ := ih ⟨hall.2, hall.1⟩
      obtain ⟨c, hc⟩ := hlk.settled
      have hstep := hk.step hc ha hs
      unfold PassedOver at hstep
      refine ⟨TaskAction.step_listed hlk hs, ?_, ?_⟩
      · split_ifs at hstep
        · exact absurd hstep hlast
        · exact hstep
      · rw [osTicks_taskAction hc.ready hs, hticks, BitVec.add_assoc, BitVec.ofNat_add_ofNat]
        rfl

/-- **When delays are exact.**  A task that calls `Task::delay(d)` at any clock value sleeps through the
call exactly when its wake point does not wrap.  While it sleeps, an action of others without a
scheduling pass does not wake it, and one with a scheduling pass, `e` ticks after the call, does what
it should (wake the task if and only if `d` ticks have elapsed) exactly when the clock has not wrapped
since the call. -/
theorem delays_are_exact {boots : List BootCall} {k₀ k k₁ : Kernel} {now d : BitVec 32} {t : Tid}
    {tr₀ : List (Kernel × TaskAction)} (hl : launchAfter boots = some k₀)
    (hr₀ : Run TaskAction.step (fun _ _ => True) (k₀.setClock now) tr₀ k)
    (hcr : k.crTid = some t) (hpos : 1 ≤ d.toNat) (hlt : d.toNat < 2 ^ 31)
    (hk : k.delay d = some k₁) :
    (¬k₁.Awake t ↔ k.osTicks.toNat + d.toNat < 2 ^ 32) ∧
      ∀ (tr : List (Kernel × TaskAction)) (k₂ : Kernel) (a : TaskAction) (k₃ : Kernel),
        Run TaskAction.step (fun _ a => a ≠ .call (.terminate t)) k₁ tr k₂ →
        Always (fun k => ¬k.Awake t) tr k₂ → a ≠ .call (.terminate t) → a.step k₂ = some k₃ →
        elapsed tr + a.ticks < 2 ^ 31 →
        (a.passes k₂ = false → ¬k₃.Awake t) ∧
          (a.passes k₂ = true → ((k₃.Awake t ↔ d.toNat ≤ elapsed tr + a.ticks) ↔
            k.osTicks.toNat + (elapsed tr + a.ticks) < 2 ^ 32)) := by
  obtain ⟨⟨c, hc⟩, hlost, hp, -⟩ := settled_launchAfter hl
  have hlisted : Listed k := hr₀.invariant (I := Listed) ⟨⟨c, hc.setClock now⟩, hlost, hp⟩
    fun _ _ _ h _ hs => TaskAction.step_listed h hs
  obtain ⟨c', hc'⟩ := hlisted.settled
  obtain rfl : c' = t := by
    rw [hc'.onCpu.crTid] at hcr
    exact Option.some.inj hcr
  have hne : d ≠ 0 := by
    rintro rfl
    exact absurd hpos (by decide)
  have hcall := hc'.delay hne hk
  have hlisted₁ : Listed k₁ := by
    refine TaskAction.step_listed (a := .call (.delay d)) hlisted ?_
    show ((k.delay d).map (·, none)).map Prod.fst = some k₁
    rw [hk]
    rfl
  have hticks := Kernel.osTicks_delay hk
  have hwake : ¬k₁.Awake c' ↔ k.osTicks.toNat + d.toNat < 2 ^ 32 := by
    rw [← lt_add_iff_not_wrap hpos]
    unfold PassedOver at hcall
    rw [hticks] at hcall
    split_ifs at hcall with hle
    · exact iff_of_false (not_not.mpr hcall) (BitVec.not_lt.mpr hle.2)
    · exact iff_of_true hcall.not_awake (BitVec.not_le.mp fun h => hle ⟨rfl, h⟩)
  refine ⟨hwake, fun tr k₂ a k₃ hr hasleep ha hs he => ?_⟩
  have hasleep₁ : ¬k₁.Awake c' := hr.start_of_always hasleep
  have hsleep₁ : k₁.SleepsUntil c' (k.osTicks + d) := by
    unfold PassedOver at hcall
    split_ifs at hcall
    · exact absurd hcall hasleep₁
    · exact hcall
  obtain ⟨hlisted₂, hsleep₂, hticks₂⟩ := sleepsUntil_run hlisted₁ hsleep₁ hr hasleep
  obtain ⟨c₂, hc₂⟩ := hlisted₂.settled
  have hstep := hsleep₂.step hc₂ ha hs
  have hticks₃ : k₃.osTicks = k.osTicks + BitVec.ofNat 32 (elapsed tr + a.ticks) := by
    rw [osTicks_taskAction hc₂.ready hs, hticks₂, hticks, BitVec.add_assoc, BitVec.ofNat_add_ofNat]
  unfold PassedOver at hstep
  rw [hticks₃] at hstep
  refine ⟨fun hpass => ?_, fun hpass => ?_⟩
  · rw [hpass, if_neg (by simp)] at hstep
    exact hstep.not_awake
  · rw [← due_iff_not_wrap hlt he (hwake.mp hasleep₁)]
    refine iff_congr ?_ Iff.rfl
    by_cases hdue : k.osTicks + d ≤ k.osTicks + BitVec.ofNat 32 (elapsed tr + a.ticks)
    · rw [if_pos ⟨hpass, hdue⟩] at hstep
      exact iff_of_true hstep hdue
    · rw [if_neg fun hle => hdue hle.2] at hstep
      exact iff_of_false hstep.not_awake hdue

/-- At the clock value `0xFFFFFFFF` a delay of 5 ends within the call.  At `0xFFFFFFF0` a delay of 10
does not end in the pass 21 ticks after the call. -/
theorem wrapped_delays_are_wrong : ∃ k₀, launchAfter [.create 3 "a"] = some k₀ ∧
    (∃ k₁, (k₀.setClock 0xFFFFFFFF).crTid = some 0 ∧
      (k₀.setClock 0xFFFFFFFF).delay 5 = some k₁ ∧ k₁.Awake 0) ∧
    ∃ k₁ k₂, (k₀.setClock 0xFFFFFFF0).crTid = some 0 ∧
      (k₀.setClock 0xFFFFFFF0).delay 10 = some k₁ ∧ ¬k₁.Awake 0 ∧
      (TaskAction.systick 20).step k₁ = some k₂ ∧ (TaskAction.systick 20).passes k₁ = true ∧
      ¬k₂.Awake 0 := by
  have hsome : (launchAfter [.create 3 "a"]).isSome = true := by decide +kernel
  obtain ⟨k₀, hk₀⟩ := Option.isSome_iff_exists.mp hsome
  have hearly : (launchAfter [.create 3 "a"]).any (fun k₀ =>
      (k₀.setClock 0xFFFFFFFF).crTid = some 0 ∧
        ((k₀.setClock 0xFFFFFFFF).delay 5).any fun k₁ : Kernel => k₁.Awake 0) = true := by
    decide +kernel
  have hlate : (launchAfter [.create 3 "a"]).any (fun k₀ =>
      (k₀.setClock 0xFFFFFFF0).crTid = some 0 ∧
        ((k₀.setClock 0xFFFFFFF0).delay 10).any fun k₁ : Kernel => ¬k₁.Awake 0 ∧
          ((TaskAction.systick 20).step k₁).any fun k₂ : Kernel =>
            (TaskAction.systick 20).passes k₁ = true ∧ ¬k₂.Awake 0) = true := by
    decide +kernel
  rw [hk₀, Option.any_some] at hearly hlate
  obtain ⟨hcr, hearly⟩ := of_decide_eq_true hearly
  obtain ⟨k₁, hk₁, hawake⟩ := (Option.any_eq_true _ _).mp hearly
  obtain ⟨hcr', hlate⟩ := of_decide_eq_true hlate
  obtain ⟨k₂, hk₂, hlate⟩ := (Option.any_eq_true _ _).mp hlate
  obtain ⟨hasleep, hlate⟩ := of_decide_eq_true hlate
  obtain ⟨k₃, hk₃, hlate⟩ := (Option.any_eq_true _ _).mp hlate
  obtain ⟨hpass, hasleep'⟩ := of_decide_eq_true hlate
  exact ⟨k₀, hk₀, ⟨k₁, hcr, hk₁, of_decide_eq_true hawake⟩, k₂, k₃, hcr', hk₂, hasleep, hk₃, hpass,
    hasleep'⟩

/-- A delay of 10 at the clock value `0xFFFFFF00`: a pass after 4 ticks and one after 11. -/
theorem delays_are_exact_run : ∃ k₀ k₁ k₂ k₃, launchAfter [.create 3 "a"] = some k₀ ∧
    (k₀.setClock 0xFFFFFF00).delay 10 = some k₁ ∧
    (TaskAction.systick 3).step k₁ = some k₂ ∧ (TaskAction.systick 6).step k₂ = some k₃ ∧
    ¬k₁.Awake 0 ∧ ¬k₂.Awake 0 ∧ k₃.Awake 0 := by
  have hsome : (launchAfter [.create 3 "a"]).isSome = true := by decide +kernel
  obtain ⟨k₀, hk₀⟩ := Option.isSome_iff_exists.mp hsome
  have heval : (launchAfter [.create 3 "a"]).any (fun k₀ =>
      (k₀.setClock 0xFFFFFF00).crTid = some 0 ∧
        ((k₀.setClock 0xFFFFFF00).delay 10).any fun k₁ =>
          ((TaskAction.systick 3).step k₁).any fun k₂ =>
            ((TaskAction.systick 6).step k₂).isSome ∧ (TaskAction.systick 3).passes k₁ = true ∧
              (TaskAction.systick 6).passes k₂ = true) = true := by
    decide +kernel
  rw [hk₀, Option.any_some] at heval
  obtain ⟨hcr, heval⟩ := of_decide_eq_true heval
  obtain ⟨k₁, hk₁, heval⟩ := (Option.any_eq_true _ _).mp heval
  obtain ⟨k₂, hk₂, heval⟩ := (Option.any_eq_true _ _).mp heval
  obtain ⟨hk₃, hpass, hpass'⟩ := of_decide_eq_true heval
  obtain ⟨k₃, hk₃⟩ := Option.isSome_iff_exists.mp hk₃
  obtain ⟨hcall, hsteps⟩ := delays_are_exact hk₀ .start hcr (by decide) (by decide) hk₁
  have hasleep₁ : ¬k₁.Awake 0 :=
    hcall.mpr (show (0xFFFFFF00#32).toNat + (10#32).toNat < 2 ^ 32 by decide)
  have hasleep₂ : ¬k₂.Awake 0 := by
    intro h
    have hexact := (hsteps [] k₁ _ k₂ .start ⟨by simp, hasleep₁⟩ (by decide) hk₂ (by decide)).2 hpass
    have hnowrap : (0xFFFFFF00#32).toNat + (0 + 4) < 2 ^ 32 := by decide
    exact absurd ((hexact.mpr hnowrap).mp h) (show ¬10 ≤ 0 + 4 by decide)
  have hawake₃ : k₃.Awake 0 := by
    have hrun : Run TaskAction.step (fun _ a => a ≠ .call (.terminate 0)) k₁
        [(k₁, .systick 3)] k₂ := .next .start (by decide) hk₂
    have hexact := (hsteps _ k₂ _ k₃ hrun ⟨by simpa using hasleep₁, hasleep₂⟩ (by decide) hk₃
      (show 0 + 4 + 7 < 2 ^ 31 by decide)).2 hpass'
    have hnowrap : (0xFFFFFF00#32).toNat + (0 + 4 + 7) < 2 ^ 32 := by decide
    exact (hexact.mpr hnowrap).mpr (show 10 ≤ 0 + 4 + 7 by decide)
  exact ⟨k₀, k₁, k₂, k₃, hk₀, hk₁, hk₂, hk₃, hasleep₁, hasleep₂, hawake₃⟩

end MosKernel
