import MosKernel.Task

/-!
# Coherence of the scheduler lists

`Coherent k` says that the status of every task and the three scheduler lists tell the same story;
it also holds inside a critical section, where the running task may already have left `READY_LIST`.
`Settled k c` is the state between critical sections: coherent, launched, and the running task `c`
ready.  `Parked k t` is a task that waits somewhere outside the scheduler lists, on the queue of a
synchronisation object.

Every primitive of the kernel gets one lemma: it keeps `Coherent`, discards no `Err` (`lost`), and
what it does to parked tasks.  `Frame k k'` collects what scheduling never touches.
-/

namespace MosKernel

open OrderedInsert TaskList

namespace Kernel

variable {k k' : Kernel} {c t u : Tid}

/-- Status, lists and bitmap agree. -/
structure Coherent (k : Kernel) : Prop where
  ready_nodup : k.readyList.tids.Nodup
  sleeping_nodup : k.sleepingList.tids.Nodup
  blocked_nodup : k.blockedList.tids.Nodup
  mem_ready : ∀ t, t ∈ k.readyList.tids ↔ k.status t = .ready ∨ k.status t = .running
  of_mem_sleeping : ∀ t ∈ k.sleepingList.tids, k.status t = .blocked
  of_mem_blocked : ∀ t ∈ k.blockedList.tids, k.status t = .blocked
  disjoint : ∀ t ∈ k.sleepingList.tids, t ∉ k.blockedList.tids
  bit : ∀ t, k.tidBitmap.getLsbD t.val = true ↔ k.status t ≠ .terminated
  tid_eq : ∀ t, k.status t ≠ .terminated → (k.tcbs t).tid = t
  running : ∀ t, k.status t = .running → k.currentTcbPtr = some t

/-- Between critical sections of a launched kernel whose running task is `c`. -/
structure Settled (k : Kernel) (c : Tid) : Prop extends Coherent k where
  ready : k.schedReady = true
  current : k.currentTcbPtr = some c
  current_mem : c ∈ k.readyList.tids

/-- The running task `c` inside a critical section; it may have left `READY_LIST` by now. -/
structure OnCpu (k : Kernel) (c : Tid) : Prop where
  ready : k.schedReady = true
  current : k.currentTcbPtr = some c
  tid : (k.tcbs c).tid = c

theorem Settled.onCpu {k : Kernel} {c : Tid} (h : k.Settled c) : k.OnCpu c := by
  refine ⟨h.ready, h.current, h.tid_eq c ?_⟩
  have := (h.mem_ready c).mp h.current_mem
  grind

theorem OnCpu.crTid {k : Kernel} {c : Tid} (h : k.OnCpu c) : k.crTid = some c := by
  rw [Kernel.crTid, h.current, Option.map_some, h.tid]

/-- A blocked task that is on neither the sleeping nor the blocked list. -/
def Parked (k : Kernel) (t : Tid) : Prop :=
  k.status t = .blocked ∧ t ∉ k.sleepingList.tids ∧ t ∉ k.blockedList.tids

/-- What scheduling leaves alone. -/
structure Frame (k k' : Kernel) : Prop where
  priority : ∀ t, k'.priority t = k.priority t
  subPriority : ∀ t, (k'.tcbs t).subPriority = (k.tcbs t).subPriority
  tid : ∀ t, (k'.tcbs t).tid = (k.tcbs t).tid
  tidBitmap : k'.tidBitmap = k.tidBitmap
  schedReady : k'.schedReady = k.schedReady

theorem Frame.refl (k : Kernel) : Frame k k := by constructor <;> simp

theorem Frame.trans {k k' k'' : Kernel} (h : Frame k k') (h' : Frame k' k'') : Frame k k'' := by
  constructor
  · intro t
    rw [h'.priority, h.priority]
  · intro t
    rw [h'.subPriority, h.subPriority]
  · intro t
    rw [h'.tid, h.tid]
  · rw [h'.tidBitmap, h.tidBitmap]
  · rw [h'.schedReady, h.schedReady]

theorem frame_park (k : Kernel) (t : Tid) : Frame k (k.park t) := by
  constructor <;> simp [park, setStatus, Kernel.priority, Function.update_apply] <;> grind

theorem frame_wake (k : Kernel) (t : Tid) : Frame k (k.wake t) := by
  constructor <;> simp [wake, setStatus, Kernel.priority, Function.update_apply] <;> grind

theorem frame_expire (k : Kernel) (t : Tid) : Frame k (k.expire t) := by
  constructor <;> simp [expire, Kernel.priority, Function.update_apply] <;> grind

theorem frame_requeue (k : Kernel) (t : Tid) : Frame k (k.requeue t) := by
  unfold requeue
  constructor <;> split_ifs <;> simp [Kernel.priority, Function.update_apply] <;> grind

theorem frame_switchTo (k : Kernel) (t u : Tid) : Frame k (k.switchTo t u) := by
  unfold switchTo
  constructor <;> split_ifs <;> simp [setStatus, Kernel.priority, Function.update_apply] <;> grind

/-- From the middle of a critical section to the state in which some task runs again. -/
structure Switched (k k' : Kernel) : Prop where
  settled : ∃ c, k'.Settled c
  lost : k'.lost = k.lost
  parked : ∀ t, k'.Parked t ↔ k.Parked t
  frame : Frame k k'

theorem Settled.switched {k : Kernel} {c : Tid} (h : k.Settled c) : Switched k k :=
  ⟨⟨c, h⟩, rfl, fun _ => Iff.rfl, Frame.refl k⟩

/-! ### Single writes -/

@[simp] theorem status_setTcb (k : Kernel) (t u : Tid) (f : Tcb → Tcb) :
    (k.setTcb t f).status u = if u = t then (f (k.tcbs t)).status else k.status u := by
  show ((k.setTcb t f).tcbs u).status = _
  rw [setTcb_tcbs, Function.update_apply]
  split <;> rfl

@[simp] theorem status_setCurrent : (k.setCurrent t).status u = k.status u := rfl
@[simp] theorem status_advanceTicks : k.advanceTicks.status u = k.status u := rfl
@[simp] theorem status_clearBit : (k.clearBit t).status u = k.status u := rfl
@[simp] theorem status_readyRemove : (k.readyRemove t).status u = k.status u := rfl
@[simp] theorem status_readyInsert : (k.readyInsert t).status u = k.status u := rfl
@[simp] theorem status_sleepingRemove : (k.sleepingRemove t).status u = k.status u := rfl
@[simp] theorem status_sleepingInsert : (k.sleepingInsert t).status u = k.status u := rfl
@[simp] theorem status_blockedRemove : (k.blockedRemove t).status u = k.status u := rfl
@[simp] theorem status_blockedPush : (k.blockedPush t).status u = k.status u := rfl

theorem readyInsert_tids (hn : k.readyList.tids.Nodup) (ht : t ∉ k.readyList.tids) :
    (k.readyInsert t).readyList.tids = insertBefore (k.isBefore t) t k.readyList.tids ∧
      (k.readyInsert t).lost = k.lost := by
  have h := insertInOrder_of_lt (t := t) (p := k.isBefore t) (length_lt_of_not_mem hn ht)
  refine ⟨h.1, ?_⟩
  rw [readyInsert_lost, h.2, Nat.add_zero]

theorem sleepingInsert_tids (hn : k.sleepingList.tids.Nodup) (ht : t ∉ k.sleepingList.tids) :
    (k.sleepingInsert t).sleepingList.tids =
        insertBefore (fun u => (k.tcbs t).wakePoint < (k.tcbs u).wakePoint) t k.sleepingList.tids ∧
      (k.sleepingInsert t).lost = k.lost := by
  have h := insertInOrder_of_lt (t := t) (p := fun u => (k.tcbs t).wakePoint < (k.tcbs u).wakePoint)
    (length_lt_of_not_mem hn ht)
  refine ⟨h.1, ?_⟩
  rw [sleepingInsert_lost, h.2, Nat.add_zero]

theorem blockedPush_tids (hn : k.blockedList.tids.Nodup) (ht : t ∉ k.blockedList.tids) :
    (k.blockedPush t).blockedList.tids = k.blockedList.tids ++ [t] ∧
      (k.blockedPush t).lost = k.lost := by
  have h := pushBack_of_lt (t := t) (length_lt_of_not_mem hn ht)
  refine ⟨h.1, ?_⟩
  rw [blockedPush_lost, h.2, Nat.add_zero]

theorem Tid.lt_width (t : Tid) : t.val < 32 := t.isLt.trans (by decide)

theorem tidFree_eq (k : Kernel) (t : Tid) : k.tidFree t = !k.tidBitmap.getLsbD t.val := by
  have hne : BitVec.twoPow 32 t.val ≠ 0#32 := by
    intro h
    have hb := congrArg (fun b => b.getLsbD t.val) h
    simp [Tid.lt_width] at hb
  rw [tidFree, ← BitVec.twoPow_eq, BitVec.and_twoPow]
  cases k.tidBitmap.getLsbD t.val <;> simp [hne]

theorem getLsbD_set (b : BitVec 32) (t u : Tid) :
    (b ||| (1#32 <<< t.val)).getLsbD u.val = (b.getLsbD u.val || decide (u = t)) := by
  rw [BitVec.getLsbD_or, ← BitVec.twoPow_eq, BitVec.getLsbD_twoPow]
  simp [Tid.lt_width, Fin.ext_iff, eq_comm]

theorem getLsbD_clear (b : BitVec 32) (t u : Tid) :
    (b &&& ~~~(1#32 <<< t.val)).getLsbD u.val = (b.getLsbD u.val && decide (u ≠ t)) := by
  rw [BitVec.getLsbD_and, BitVec.getLsbD_not, ← BitVec.twoPow_eq, BitVec.getLsbD_twoPow]
  simp [Tid.lt_width, Fin.ext_iff, eq_comm]

namespace Coherent

theorem not_mem_ready (h : k.Coherent) (ht : k.status t = .blocked) : t ∉ k.readyList.tids := by
  rw [h.mem_ready, ht]
  simp

theorem not_parked (h : k.Coherent) (ht : t ∈ k.readyList.tids) : ¬k.Parked t := by
  intro hp
  exact h.not_mem_ready hp.1 ht

theorem setTcb (h : k.Coherent) {f : Tcb → Tcb}
    (hs : (f (k.tcbs t)).status = k.status t) (ht : (f (k.tcbs t)).tid = (k.tcbs t).tid) :
    (k.setTcb t f).Coherent := by
  obtain ⟨h1, h2, h3, h4, h5, h6, h7, h8, h9, h10⟩ := h
  constructor <;> simp only [status_setTcb, setTcb_tcbs, setTcb_readyList, setTcb_sleepingList,
    setTcb_blockedList, setTcb_tidBitmap, setTcb_currentTcbPtr, Function.update_apply] <;> grind

/-! ### Leaving the processor -/

/-- The running task blocks. -/
theorem park (h : k.Coherent) (ht : t ∈ k.readyList.tids) : (k.park t).Coherent := by
  obtain ⟨h1, h2, h3, h4, h5, h6, h7, h8, h9, h10⟩ := h
  constructor <;> simp [Kernel.park, setStatus, Function.update_apply] <;> grind

theorem parked_park (h : k.Coherent) (ht : t ∈ k.readyList.tids) :
    (k.park t).Parked u ↔ u = t ∨ k.Parked u := by
  have h4 := h.mem_ready t
  have h5 := h.of_mem_sleeping t
  have h6 := h.of_mem_blocked t
  simp [Parked, Kernel.park, setStatus]
  grind

/-! ### Becoming ready -/

/-- A parked task becomes ready. -/
theorem wake (h : k.Coherent) (ht : k.Parked t) :
    (k.wake t).Coherent ∧ (k.wake t).lost = k.lost := by
  have hl := readyInsert_tids (k := k.setStatus t .ready) h.ready_nodup (h.not_mem_ready ht.1)
  refine ⟨?_, hl.2⟩
  obtain ⟨hb, hsl, hbl⟩ := ht
  obtain ⟨h1, h2, h3, h4, h5, h6, h7, h8, h9, h10⟩ := h
  constructor <;> simp only [Kernel.wake, hl.1, nodup_insertBefore, mem_insertBefore] <;>
    simp [setStatus, Function.update_apply] <;> grind

theorem parked_wake (h : k.Coherent) :
    (k.wake t).Parked u ↔ u ≠ t ∧ k.Parked u := by
  have h5 := h.of_mem_sleeping u
  simp [Parked, Kernel.wake, setStatus]
  grind

/-- A sleeping task that is due becomes ready. -/
theorem expire (h : k.Coherent) (ht : t ∈ k.sleepingList.tids) :
    (k.expire t).Coherent ∧ (k.expire t).lost = k.lost := by
  have hb := h.of_mem_sleeping t ht
  have hl := readyInsert_tids (t := t) (k := (k.sleepingRemove t).setTcb t fun tcb =>
    { tcb with status := .ready, wakePoint := 0 }) h.ready_nodup (h.not_mem_ready hb)
  refine ⟨?_, hl.2⟩
  obtain ⟨h1, h2, h3, h4, h5, h6, h7, h8, h9, h10⟩ := h
  constructor <;> simp only [Kernel.expire, hl.1, nodup_insertBefore, mem_insertBefore] <;>
    simp [Function.update_apply] <;> grind

theorem parked_expire (h : k.Coherent) (ht : t ∈ k.sleepingList.tids) :
    (k.expire t).Parked u ↔ k.Parked u := by
  have hn := h.sleeping_nodup
  simp [Parked, Kernel.expire]
  grind

/-! ### Going to sleep, blocking and resuming -/

/-- A parked task goes on the sleeping list. -/
theorem sleepingInsert (h : k.Coherent) (ht : k.Parked t) :
    (k.sleepingInsert t).Coherent ∧ (k.sleepingInsert t).lost = k.lost := by
  obtain ⟨hb, hsl, hbl⟩ := ht
  have hl := sleepingInsert_tids h.sleeping_nodup hsl
  refine ⟨?_, hl.2⟩
  obtain ⟨h1, h2, h3, h4, h5, h6, h7, h8, h9, h10⟩ := h
  constructor <;> simp only [hl.1, nodup_insertBefore, mem_insertBefore, status_sleepingInsert,
    sleepingInsert_readyList, sleepingInsert_blockedList, sleepingInsert_tidBitmap,
    sleepingInsert_tcbs, sleepingInsert_currentTcbPtr] <;> grind

theorem parked_sleepingInsert (h : k.Coherent) (ht : k.Parked t) :
    (k.sleepingInsert t).Parked u ↔ u ≠ t ∧ k.Parked u := by
  have hl := sleepingInsert_tids h.sleeping_nodup ht.2.1
  simp only [Parked, hl.1, mem_insertBefore, status_sleepingInsert, sleepingInsert_blockedList]
  grind

/-- A parked task goes on the blocked list. -/
theorem blockedPush (h : k.Coherent) (ht : k.Parked t) :
    (k.blockedPush t).Coherent ∧ (k.blockedPush t).lost = k.lost := by
  obtain ⟨hb, hsl, hbl⟩ := ht
  have hl := blockedPush_tids h.blocked_nodup hbl
  refine ⟨?_, hl.2⟩
  obtain ⟨h1, h2, h3, h4, h5, h6, h7, h8, h9, h10⟩ := h
  constructor <;> simp only [hl.1, List.nodup_append, List.mem_append, List.mem_singleton,
    status_blockedPush, blockedPush_readyList, blockedPush_sleepingList, blockedPush_tidBitmap,
    blockedPush_tcbs, blockedPush_currentTcbPtr] <;> grind

theorem parked_blockedPush (h : k.Coherent) (ht : k.Parked t) :
    (k.blockedPush t).Parked u ↔ u ≠ t ∧ k.Parked u := by
  have hl := blockedPush_tids h.blocked_nodup ht.2.2
  simp only [Parked, hl.1, List.mem_append, status_blockedPush, blockedPush_sleepingList]
  grind

/-- Taking a task off the blocked list parks it. -/
theorem blockedRemove (h : k.Coherent) : (k.blockedRemove t).Coherent := by
  obtain ⟨h1, h2, h3, h4, h5, h6, h7, h8, h9, h10⟩ := h
  constructor <;> simp <;> grind

theorem parked_blockedRemove (h : k.Coherent) (ht : t ∈ k.blockedList.tids) :
    (k.blockedRemove t).Parked u ↔ u = t ∨ k.Parked u := by
  have hb := h.of_mem_blocked t ht
  have hd := h.disjoint t
  have hn := h.blocked_nodup
  simp [Parked]
  grind

/-- Taking a task off the sleeping list parks it. -/
theorem sleepingRemove (h : k.Coherent) : (k.sleepingRemove t).Coherent := by
  obtain ⟨h1, h2, h3, h4, h5, h6, h7, h8, h9, h10⟩ := h
  constructor <;> simp <;> grind

/-! ### The scheduling pass -/

/-- The running task goes back to its place in the ready list, or leaves it. -/
theorem requeue (h : k.Coherent) (hc : k.currentTcbPtr = some c) :
    (k.requeue c).Coherent ∧ (k.requeue c).lost = k.lost ∧
      ∀ t, (k.requeue c).status t ≠ .running := by
  have hrun : ∀ t, k.status t = .running → t = c := by
    intro t ht
    have := h.running t ht
    rw [hc] at this
    exact (Option.some.inj this).symm
  unfold Kernel.requeue
  split_ifs with hst hsl
  · obtain ⟨h1, h2, h3, h4, h5, h6, h7, h8, h9, h10⟩ := h
    refine ⟨?_, rfl, ?_⟩
    · constructor <;> simp <;> grind
    · intro t
      rw [status_readyRemove]
      grind
  · have hl := readyInsert_tids (t := c) (k := (k.setTcb c fun tcb =>
      { tcb with timeSlice := MosKernel.timeSlice, status := .ready }).readyRemove c)
      (by simpa using h.ready_nodup.erase c) (by simp [h.ready_nodup.mem_erase_iff])
    refine ⟨?_, hl.2, ?_⟩
    · obtain ⟨h1, h2, h3, h4, h5, h6, h7, h8, h9, h10⟩ := h
      constructor <;> simp only [hl.1, nodup_insertBefore, mem_insertBefore] <;>
        simp [Function.update_apply] <;> grind
    · intro t
      simp
      grind
  · exact ⟨h, rfl, by grind⟩

theorem parked_requeue (k : Kernel) (c u : Tid) : (k.requeue c).Parked u ↔ k.Parked u := by
  unfold Kernel.requeue
  split_ifs with hst hsl
  · rfl
  · simp [Parked]
    grind
  · rfl

/-- Switching to a ready task. -/
theorem switchTo (h : k.Coherent) (hc : k.currentTcbPtr = some c)
    (hrun : ∀ t, k.status t ≠ .running) (ht : t ∈ k.readyList.tids) :
    (k.switchTo c t).Coherent ∧ (k.switchTo c t).lost = k.lost ∧
      (k.switchTo c t).currentTcbPtr = some t ∧ (k.switchTo c t).readyList = k.readyList := by
  unfold Kernel.switchTo
  simp only [if_neg (hrun c)]
  split_ifs with hne
  · obtain ⟨h1, h2, h3, h4, h5, h6, h7, h8, h9, h10⟩ := h
    refine ⟨?_, rfl, rfl, rfl⟩
    constructor <;> simp [setStatus, Function.update_apply] <;> grind
  · exact ⟨h, rfl, by rw [hc, not_not.mp hne], rfl⟩

theorem parked_switchTo (h : k.Coherent) (ht : t ∈ k.readyList.tids)
    (hrun : k.status c ≠ .running) : (k.switchTo c t).Parked u ↔ k.Parked u := by
  have hr := (h.mem_ready t).mp ht
  unfold Kernel.switchTo
  rw [if_neg hrun]
  split_ifs with hne
  · simp [Parked, setStatus]
    grind
  · rfl

end Coherent

/-! ### Waking the sleepers -/

/-- What the expiry of a task that is due keeps, `wake_up_sleepers` keeps. -/
theorem wakeUpSleepers_induct {P : Kernel → Prop} {k : Kernel} (hk : P k)
    (h : ∀ k' t, P k' → t ∈ k'.sleepingList.tids → k.osTicks ≥ (k'.tcbs t).wakePoint →
      P (k'.expire t)) : P k.wakeUpSleepers := by
  have hloop : ∀ fuel i k', P k' → P (wakeUpSleepersLoop k.osTicks fuel i k') := by
    intro fuel
    induction fuel with
    | zero => exact fun i k' hk' => hk'
    | succ fuel ih =>
        intro i k' hk'
        unfold wakeUpSleepersLoop
        split
        · exact hk'
        · rename_i t ht
          split_ifs with hdue
          · exact ih _ _ (h k' t hk' (List.mem_of_getElem? ht) hdue)
          · exact ih _ _ hk'
  exact hloop _ _ _ hk

/-- The loop of `wake_up_sleepers` leaves nobody behind who is due, from any position that is past
tasks that are not. -/
theorem wakeUpSleepersLoop_done {now : BitVec 32} {fuel i : ℕ} {k : Kernel}
    (hlen : k.sleepingList.tids.length ≤ i + fuel)
    (hdone : ∀ t ∈ k.sleepingList.tids.take i, now < (k.tcbs t).wakePoint) :
    ∀ t ∈ (wakeUpSleepersLoop now fuel i k).sleepingList.tids,
      now < ((wakeUpSleepersLoop now fuel i k).tcbs t).wakePoint := by
  induction fuel generalizing i k with
  | zero =>
      intro t ht
      refine hdone t ?_
      rw [List.take_of_length_le (show k.sleepingList.tids.length ≤ i from hlen)]
      exact ht
  | succ fuel ih =>
      unfold wakeUpSleepersLoop
      split
      · rename_i hnone
        intro t ht
        refine hdone t ?_
        rw [List.take_of_length_le (List.getElem?_eq_none_iff.mp hnone)]
        exact ht
      · rename_i t ht
        obtain ⟨hi, rfl⟩ := List.getElem?_eq_some_iff.mp ht
        split_ifs with hdue
        · -- the task at `i` is due, so it is none of those before `i`
          have hnot : k.sleepingList.tids[i] ∉ k.sleepingList.tids.take i := by
            intro hmem
            exact absurd (hdone _ hmem) (BitVec.not_lt.mpr hdue)
          have herase : (k.expire k.sleepingList.tids[i]).sleepingList.tids =
              k.sleepingList.tids.take i ++ k.sleepingList.tids.drop (i + 1) := by
            show (k.sleepingList.remove k.sleepingList.tids[i]).tids = _
            rw [remove_tids]
            nth_rewrite 1 [← List.take_append_drop i k.sleepingList.tids]
            rw [List.erase_append_right _ hnot, List.drop_eq_getElem_cons hi,
              List.erase_cons_head]
          refine ih ?_ ?_
          · rw [herase, List.length_append, List.length_take, List.length_drop]
            omega
          · intro u hu
            rw [herase, List.take_append_of_le_length (by rw [List.length_take]; omega),
              List.take_take, min_self] at hu
            have hut : u ≠ k.sleepingList.tids[i] := by
              rintro rfl
              exact hnot hu
            show now < (Function.update k.tcbs k.sleepingList.tids[i] _ u).wakePoint
            rw [Function.update_of_ne hut]
            exact hdone u hu
        · refine ih (by omega) ?_
          intro u hu
          rw [← List.take_append_getElem hi, List.mem_append, List.mem_singleton] at hu
          rcases hu with hu | rfl
          · exact hdone u hu
          · exact BitVec.not_le.mp hdue

/-- **After `wake_up_sleepers` no sleeper is due.** -/
theorem wakeUpSleepers_done (k : Kernel) :
    ∀ t ∈ k.wakeUpSleepers.sleepingList.tids, k.osTicks < (k.wakeUpSleepers.tcbs t).wakePoint :=
  wakeUpSleepersLoop_done (Nat.le_of_eq (Nat.zero_add _).symm) (by simp)

theorem frame_wakeUpSleepers (k : Kernel) : Frame k k.wakeUpSleepers :=
  wakeUpSleepers_induct (Frame.refl k) fun k' t h _ _ => h.trans (frame_expire k' t)

theorem currentTcbPtr_wakeUpSleepers (k : Kernel) :
    k.wakeUpSleepers.currentTcbPtr = k.currentTcbPtr :=
  wakeUpSleepers_induct (P := fun k' => k'.currentTcbPtr = k.currentTcbPtr) rfl
    fun _ _ h _ _ => h

theorem Coherent.wakeUpSleepers (h : k.Coherent) :
    k.wakeUpSleepers.Coherent ∧ k.wakeUpSleepers.lost = k.lost ∧
      ∀ t, k.wakeUpSleepers.Parked t ↔ k.Parked t := by
  refine wakeUpSleepers_induct (P := fun k' => k'.Coherent ∧ k'.lost = k.lost ∧
    ∀ t, k'.Parked t ↔ k.Parked t) ⟨h, rfl, fun _ => Iff.rfl⟩ ?_
  rintro k' t ⟨hk, hl, hp⟩ ht -
  refine ⟨(hk.expire ht).1, (hk.expire ht).2.trans hl, fun u => ?_⟩
  rw [hk.parked_expire ht, hp]

/-! ### Switching tasks -/

theorem nextTcb_eq_some (ho : k.OnCpu c) (hk : k.nextTcb = some k') :
    ∃ st, (k.wakeUpSleepers.requeue c).readyList.front = some st ∧
      k' = (k.wakeUpSleepers.requeue c).switchTo c st := by
  have hcr : k.wakeUpSleepers.crTid = some c := by
    rw [crTid, currentTcbPtr_wakeUpSleepers, ho.current, Option.map_some,
      (frame_wakeUpSleepers k).tid, ho.tid]
  rw [nextTcb, hcr, Option.bind_some] at hk
  obtain ⟨st, hst, rfl⟩ := Option.map_eq_some_iff.mp hk
  exact ⟨st, hst, rfl⟩

theorem frame_nextTcb (hk : k.nextTcb = some k') : Frame k k' := by
  obtain ⟨cr, -, hk⟩ := Option.bind_eq_some_iff.mp hk
  obtain ⟨st, -, rfl⟩ := Option.map_eq_some_iff.mp hk
  exact ((frame_wakeUpSleepers k).trans (frame_requeue _ cr)).trans (frame_switchTo _ cr st)

theorem frame_yieldTask (hk : k.yieldTask = some k') : Frame k k' := by
  unfold yieldTask at hk
  split_ifs at hk
  · exact frame_nextTcb hk
  · cases hk
    exact Frame.refl k

/-- **A scheduling pass settles the kernel.**  From any coherent state, wherever the running task has
gone, `next_tcb` leaves a ready task running and no parked task touched. -/
theorem Coherent.nextTcb (h : k.Coherent) (ho : k.OnCpu c) (hk : k.nextTcb = some k') :
    Switched k k' := by
  have hframe := frame_nextTcb hk
  obtain ⟨st, hst, rfl⟩ := nextTcb_eq_some ho hk
  obtain ⟨hw, hwl, hwp⟩ := h.wakeUpSleepers
  have hcw : k.wakeUpSleepers.currentTcbPtr = some c :=
    (currentTcbPtr_wakeUpSleepers k).trans ho.current
  obtain ⟨hr, hrl, hrun⟩ := hw.requeue hcw
  have hcr : (k.wakeUpSleepers.requeue c).currentTcbPtr = some c := by
    unfold Kernel.requeue
    split_ifs <;> exact hcw
  have hmem : st ∈ (k.wakeUpSleepers.requeue c).readyList.tids := List.mem_of_mem_head? hst
  obtain ⟨hs, hsl, hsc, hsr⟩ := hr.switchTo hcr hrun hmem
  refine ⟨⟨st, hs, hframe.schedReady.trans ho.ready, hsc, hsr ▸ hmem⟩, ?_, fun t => ?_, hframe⟩
  · rw [hsl, hrl, hwl]
  · rw [hr.parked_switchTo hmem (hrun c), Coherent.parked_requeue, hwp]

theorem Coherent.yieldTask (h : k.Coherent) (ho : k.OnCpu c) (hk : k.yieldTask = some k') :
    Switched k k' := by
  rw [Kernel.yieldTask, if_pos ho.ready] at hk
  exact h.nextTcb ho hk

end Kernel

end MosKernel
