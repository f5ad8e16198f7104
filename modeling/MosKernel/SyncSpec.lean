import MosKernel.System
import MosKernel.Partition

/-!
# Critical sections on a coherent kernel

What the sections of `kernel/sync.rs` and `kernel/ipc.rs` share: an insertion into a wait queue that
does not hold the task yet, the switch at the end of a section, and the start of a system from
`Scheduler::launch`.
-/

namespace MosKernel

open OrderedInsert TaskList

variable {k k' : Kernel} {c t u : Tid} {queue : TaskList}

/-- A task that is not in a wait queue finds room in it. -/
theorem Kernel.enqueue_eq (hn : queue.tids.Nodup) (ht : t ∉ queue.tids) :
    (k.enqueue queue t).1 = k ∧
      (k.enqueue queue t).2.tids = insertBefore (k.isBefore t) t queue.tids := by
  have h := insertInOrder_of_lt (t := t) (p := k.isBefore t) (length_lt_of_not_mem hn ht)
  refine ⟨?_, h.1⟩
  show ({ k with lost := k.lost + errCount (queue.insertInOrder t (k.isBefore t)) } : Kernel) = k
  rw [h.2, Nat.add_zero]

theorem Kernel.mem_enqueue (hn : queue.tids.Nodup) (ht : t ∉ queue.tids) :
    u ∈ (k.enqueue queue t).2.tids ↔ u = t ∨ u ∈ queue.tids := by
  rw [(enqueue_eq hn ht).2, mem_insertBefore]

theorem Kernel.nodup_enqueue (hn : queue.tids.Nodup) (ht : t ∉ queue.tids) :
    (k.enqueue queue t).2.tids.Nodup := by
  rw [(enqueue_eq hn ht).2, nodup_insertBefore]
  exact ⟨ht, hn⟩

/-- The end of a section: the switch, if any, settles the kernel. -/
theorem Kernel.Coherent.yieldIf {b : Bool} (h : k.Coherent) (ho : k.OnCpu c)
    (hstay : b = false → c ∈ k.readyList.tids) (hk : k.yieldIf b = some k') :
    Kernel.Switched k k' := by
  unfold Kernel.yieldIf at hk
  cases b with
  | false =>
      cases hk
      exact Kernel.Settled.switched ⟨h, ho.ready, ho.current, hstay rfl⟩
  | true => exact h.yieldTask ho hk

theorem Kernel.OnCpu.park (h : k.OnCpu c) (t : Tid) : (k.park t).OnCpu c :=
  h.of_frame (Kernel.frame_park k t) rfl

theorem Kernel.OnCpu.wake (h : k.OnCpu c) (t : Tid) : (k.wake t).OnCpu c :=
  h.of_frame (Kernel.frame_wake k t) rfl

/-- The two orders of the writes that put the running task to sleep. -/
theorem Kernel.park_sleepingInsert (k : Kernel) (t : Tid) (ticks : BitVec 32) :
    ((k.park t).setTcb t fun tcb =>
      { tcb with wakePoint := (k.park t).osTicks + ticks }).sleepingInsert t = k.sleep t ticks := by
  have hcomm : (k.park t).setTcb t (fun tcb => { tcb with wakePoint := (k.park t).osTicks + ticks }) =
      (k.setTcb t fun tcb => { tcb with wakePoint := k.osTicks + ticks }).park t := by
    simp [Kernel.park, setStatus, Kernel.setTcb, readyRemove]
  rw [hcomm]
  rfl

/-! ### Sections with their switch -/

/-- A critical section and its switch: the lists stay coherent and no task starts or ends; `parked`
says who is parked afterwards. -/
structure Kernel.Stepped (k k' : Kernel) (parks : Tid → Prop) : Prop where
  settled : ∃ c, k'.Settled c
  lost : k'.lost = k.lost
  alive : ∀ t, k'.status t ≠ .terminated ↔ k.status t ≠ .terminated
  parked : ∀ t, k'.Parked t ↔ parks t

theorem Kernel.Switched.stepped {k k' : Kernel} (h : k.Coherent) (hs : Switched k k') :
    Stepped k k' k.Parked := by
  obtain ⟨c, hc⟩ := hs.settled
  exact ⟨hs.settled, hs.lost, h.alive_iff hc.toCoherent hs.frame, hs.parked⟩

/-- Coherent writes before the switch. -/
theorem Kernel.Stepped.of_frame {k k₁ k' : Kernel} {parks : Tid → Prop} (hs : Stepped k₁ k' parks)
    (h : k.Coherent) (h₁ : k₁.Coherent) (hf : Frame k k₁) (hl : k₁.lost = k.lost) :
    Stepped k k' parks :=
  ⟨hs.settled, hs.lost.trans hl, fun t => (hs.alive t).trans (h.alive_iff h₁ hf t), hs.parked⟩

/-- The running task blocks on a queue. -/
theorem Kernel.Settled.park_stepped {k k' : Kernel} (h : k.Settled c)
    (hk : (k.park c).yieldIf true = some k') : Stepped k k' fun t => t = c ∨ k.Parked t := by
  have hp := h.toCoherent.park h.current_mem
  have hs := (hp.yieldIf (h.onCpu.park c) (by simp) hk).stepped hp
  have hs' := hs.of_frame h.toCoherent hp (frame_park k c) rfl
  exact ⟨hs'.settled, hs'.lost, hs'.alive, fun t => (hs'.parked t).trans (h.parked_park h.current_mem)⟩

/-- The running task goes to sleep. -/
theorem Kernel.Settled.sleep_stepped {k k' : Kernel} {ticks : BitVec 32} (h : k.Settled c)
    (hk : (k.sleep c ticks).yieldIf true = some k') : Stepped k k' k.Parked := by
  obtain ⟨hco, hl, hp⟩ := h.toCoherent.sleep h.current_mem ticks
  have hf := frame_sleep k c ticks
  have hs := (hco.yieldIf (h.onCpu.of_frame hf rfl) (by simp) hk).stepped hco
  have hs' := hs.of_frame h.toCoherent hco hf hl
  exact ⟨hs'.settled, hs'.lost, hs'.alive, fun t => (hs'.parked t).trans (hp t)⟩

/-- The running task is still ready after waking another. -/
theorem Kernel.Settled.wake {k : Kernel} {w : Tid} (h : k.Settled c) (hw : k.Parked w) :
    (k.wake w).Settled c := by
  have hco := (h.toCoherent.wake hw).1
  have ho := h.onCpu.wake w
  refine ⟨hco, ho.ready, ho.current, ?_⟩
  rw [hco.mem_ready]
  have hc := (h.mem_ready c).mp h.current_mem
  rw [Kernel.wake, status_readyInsert, setStatus, status_setTcb]
  by_cases hcw : c = w
  · exact .inl (if_pos hcw)
  · rw [if_neg hcw]
    exact hc

/-- The running task makes a parked task ready. -/
theorem Kernel.Settled.wake_stepped {k k' : Kernel} {w : Tid} {b : Bool} (h : k.Settled c)
    (hw : k.Parked w) (hk : (k.wake w).yieldIf b = some k') :
    Stepped k k' fun t => t ≠ w ∧ k.Parked t := by
  have hset := h.wake hw
  have hs := (hset.toCoherent.yieldIf hset.onCpu (fun _ => hset.current_mem) hk).stepped
    hset.toCoherent
  have hs' := hs.of_frame h.toCoherent hset.toCoherent (frame_wake k w) (h.toCoherent.wake hw).2
  exact ⟨hs'.settled, hs'.lost, hs'.alive, fun t => (hs'.parked t).trans h.toCoherent.parked_wake⟩

/-! ### `BLOCKED_LIST` is left alone by the scheduler -/

theorem Kernel.blockedList_wakeUpSleepers (k : Kernel) :
    k.wakeUpSleepers.blockedList = k.blockedList := by
  refine wakeUpSleepers_induct (P := fun k' => k'.blockedList = k.blockedList) rfl ?_
  intro k' t h _ _
  exact h

theorem Kernel.blockedList_nextTcb (ho : k.OnCpu c) (hk : k.nextTcb = some k') :
    k'.blockedList = k.blockedList := by
  obtain ⟨st, -, rfl⟩ := nextTcb_eq_some ho hk
  rw [← blockedList_wakeUpSleepers k]
  have hs : ∀ k : Kernel, (k.switchTo c st).blockedList = k.blockedList := by
    intro k
    unfold switchTo
    split_ifs <;> rfl
  rw [hs]
  unfold requeue
  split_ifs <;> rfl

theorem Kernel.blockedList_yieldIf {b : Bool} (ho : k.OnCpu c) (hk : k.yieldIf b = some k') :
    k'.blockedList = k.blockedList := by
  unfold Kernel.yieldIf at hk
  split_ifs at hk
  · rw [yieldTask, if_pos ho.ready] at hk
    exact blockedList_nextTcb ho hk
  · cases hk
    rfl

theorem Kernel.blockedList_delay {ticks : BitVec 32} (ho : k.OnCpu c)
    (hk : k.delay ticks = some k') : k'.blockedList = k.blockedList := by
  unfold delay at hk
  split_ifs at hk
  · cases hk
    rfl
  · rw [ho.crTid] at hk
    have hy : (k.sleep c ticks).yieldIf true = some k' := hk
    have ho' : (k.sleep c ticks).OnCpu c := ho.of_frame (frame_sleep k c ticks) rfl
    rw [blockedList_yieldIf ho' hy]
    rfl

theorem Kernel.blockedList_systickReplay {missed : ℕ} {r : Bool} (h : k.Settled c)
    (hk : k.systickReplay missed = some (k', r)) : k'.blockedList = k.blockedList := by
  have htick : ∀ {k k' : Kernel} {r : Bool}, k.Settled c → k.systickTick = some (k', r) →
      k'.blockedList = k.blockedList := by
    intro k k' r h hk
    rw [systickTick_eq h.onCpu] at hk
    cases hk
    unfold chargeSlice
    split_ifs <;> rfl
  induction missed generalizing k' r with
  | zero => exact htick h hk
  | succ missed ih =>
      obtain ⟨⟨k₁, r₁⟩, hk₁, hk⟩ := Option.bind_eq_some_iff.mp hk
      obtain ⟨⟨k₂, r₂⟩, hk₂, hk⟩ := Option.bind_eq_some_iff.mp hk
      cases hk
      exact (htick (h.systickReplay hk₁).1 hk₂).trans (ih hk₁)

theorem Kernel.blockedList_systickTrap {missed : ℕ} (h : k.Settled c)
    (hk : k.systickTrap missed = some k') : k'.blockedList = k.blockedList := by
  obtain ⟨⟨k₁, r⟩, hk₁, hk⟩ := Option.bind_eq_some_iff.mp hk
  rw [← blockedList_systickReplay h hk₁]
  exact blockedList_yieldIf (h.systickReplay hk₁).1.onCpu hk

/-! ### Entries of `READY_LIST` are never taken from others -/

/-- An insertion into `READY_LIST` adds an entry, or is rejected and counted. -/
theorem Kernel.count_readyInsert (k : Kernel) (t : Tid) :
    (k.readyInsert t).readyList.tids.count t = k.readyList.tids.count t + 1 ∨
      (k.readyInsert t).lost = k.lost + 1 := by
  rcases lt_or_eq_of_le k.readyList.le_cap with hl | hl
  · left
    rw [readyInsert_readyList, (insertInOrder_of_lt hl).1, count_insertBefore, if_pos rfl]
  · right
    rw [readyInsert_lost, (insertInOrder_of_full hl).2]

theorem Kernel.mem_of_mem_readyInsert (h : u ∈ (k.readyInsert t).readyList.tids) :
    u = t ∨ u ∈ k.readyList.tids :=
  mem_of_mem_insertInOrder h

theorem Kernel.count_le_readyInsert (k : Kernel) (t u : Tid) :
    k.readyList.tids.count u ≤ (k.readyInsert t).readyList.tids.count u := by
  rw [readyInsert_readyList]
  exact count_le_insertInOrder

theorem Kernel.count_readyInsert_of_ne (k : Kernel) (h : u ≠ t) :
    (k.readyInsert t).readyList.tids.count u = k.readyList.tids.count u := by
  rw [readyInsert_readyList]
  rcases lt_or_eq_of_le k.readyList.le_cap with hl | hl
  · rw [(insertInOrder_of_lt hl).1, count_insertBefore, if_neg (Ne.symm h), Nat.add_zero]
  · rw [(insertInOrder_of_full hl).1]

theorem Kernel.count_le_requeue (k : Kernel) (hu : u ≠ c) :
    k.readyList.tids.count u ≤ (k.requeue c).readyList.tids.count u := by
  have herase : (k.readyList.tids.erase c).count u = k.readyList.tids.count u :=
    List.count_erase_of_ne hu
  unfold requeue
  split_ifs
  · rw [readyRemove_readyList, remove_tids, herase]
  · refine le_trans ?_ (count_le_readyInsert _ c u)
    rw [readyRemove_readyList, remove_tids, setTcb_readyList, herase]
  · exact le_rfl

/-- The second half of a switch puts only the outgoing task on `READY_LIST`. -/
theorem Kernel.mem_of_mem_requeue (h : u ∈ (k.requeue c).readyList.tids) :
    u = c ∨ u ∈ k.readyList.tids := by
  unfold requeue at h
  split_ifs at h
  · rw [readyRemove_readyList, remove_tids] at h
    exact .inr (List.mem_of_mem_erase h)
  · rcases mem_of_mem_readyInsert h with hu | hu
    · exact .inl hu
    · rw [readyRemove_readyList, remove_tids] at hu
      exact .inr (List.mem_of_mem_erase hu)
  · exact .inr h

theorem Kernel.readyList_switchTo (k : Kernel) (c t : Tid) :
    (k.switchTo c t).readyList = k.readyList := by
  unfold switchTo
  split_ifs <;> rfl

theorem Kernel.sleepingList_requeue (k : Kernel) (c : Tid) :
    (k.requeue c).sleepingList = k.sleepingList := by
  unfold requeue
  split_ifs <;> rfl

theorem Kernel.sleepingList_switchTo (k : Kernel) (c t : Tid) :
    (k.switchTo c t).sleepingList = k.sleepingList := by
  unfold switchTo
  split_ifs <;> rfl

theorem Kernel.currentTcbPtr_requeue (k : Kernel) (c : Tid) :
    (k.requeue c).currentTcbPtr = k.currentTcbPtr := by
  unfold requeue
  split_ifs <;> rfl

/-- After a switch the front of `READY_LIST` runs. -/
theorem Kernel.currentTcbPtr_switchTo (hc : k.currentTcbPtr = some c) :
    (k.switchTo c t).currentTcbPtr = some t := by
  unfold switchTo
  dsimp only
  split_ifs with hne
  · rfl
  · rfl
  · rw [hc, not_not.mp hne]

/-- **A switch takes no entry of another task off `READY_LIST`.** -/
theorem Kernel.count_le_nextTcb (ho : k.OnCpu c) (hu : u ≠ c) (hk : k.nextTcb = some k') :
    k.readyList.tids.count u ≤ k'.readyList.tids.count u := by
  obtain ⟨st, -, rfl⟩ := nextTcb_eq_some ho hk
  have hw : k.readyList.tids.count u ≤ k.wakeUpSleepers.readyList.tids.count u := by
    refine wakeUpSleepers_induct
      (P := fun k' => k.readyList.tids.count u ≤ k'.readyList.tids.count u) le_rfl ?_
    intro k' t h _ _
    refine h.trans ?_
    exact count_le_readyInsert ((k'.sleepingRemove t).setTcb t fun tcb =>
      { tcb with status := .ready, wakePoint := 0 }) t u
  rw [readyList_switchTo]
  exact hw.trans (count_le_requeue _ hu)

/-! ### Starting a system -/

theorem Kernel.blockedList_launchAfter {boots : List BootCall} (h : launchAfter boots = some k) :
    k.blockedList.tids = [] := by
  have hadd : ∀ (k : Kernel) (t : Tid) (k₁ : Kernel) (p : ℕ) (name : String), k.Booting →
      k.blockedList.tids = [] → k.allocTid = some (t, k₁) →
      (k₁.addTask t p name).blockedList.tids = [] := by
    intro k t k₁ p name _ hb ha
    rw [(allocTid_eq_some ha).2]
    exact hb
  obtain ⟨k₀, first, -, hb, -, rfl⟩ :=
    launchAfter_induct (P := fun k => k.blockedList.tids = []) rfl hadd h
  exact hb

end MosKernel
