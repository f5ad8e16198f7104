import MosKernel.Fifo
import MosKernel.LockSpec

/-!
# The idle task stays ready

`next_tcb` panics when `READY_LIST` is empty.  It never is: the idle task `e` is created by `launch`, and
`Idles e` is kept by every write of the kernel that does not block or end `e`, in whatever state the lists
are.  A switch from `e` removes its entry before it inserts it again, so the insertion finds room also in
a full list.  `idle_stays_ready` says so for all runs of all operations, and that no enabled action stops
the kernel.
-/

namespace MosKernel

open OrderedInsert TaskList Transition Kernel

variable {T : Type} {cap : ℕ → ℕ} {σ σ' : System T} {a : Action T}

namespace Kernel

variable {k k₁ k' : Kernel} {e t u : Tid} {b : Bool}

/-- Where neither a tick nor a switch stops the kernel, a systick interrupt does not. -/
theorem systickTrap_total {P : Kernel → Prop}
    (htick : ∀ k, P k → ∃ r, k.systickTick = some r ∧ P r.1)
    (hyield : ∀ k, P k → ∀ b, ∃ k', k.yieldIf b = some k' ∧ P k') (h : P k) (missed : ℕ) :
    ∃ k', k.systickTrap missed = some k' ∧ P k' := by
  have hreplay : ∃ r, k.systickReplay missed = some r ∧ P r.1 := by
    induction missed with
    | zero => exact htick k h
    | succ missed ih =>
        obtain ⟨⟨k₁, r₁⟩, hk₁, h₁⟩ := ih
        obtain ⟨⟨k₂, r₂⟩, hk₂, h₂⟩ := htick k₁ h₁
        refine ⟨(k₂, r₁ || r₂), ?_, h₂⟩
        rw [systickReplay, hk₁]
        show (k₁.systickTick.bind fun r => some (r.1, r₁ || r.2)) = _
        rw [hk₂]
        rfl
  obtain ⟨⟨k₁, r⟩, hk₁, h₁⟩ := hreplay
  obtain ⟨k', hk', h'⟩ := hyield k₁ h₁ r
  refine ⟨k', ?_, h'⟩
  rw [systickTrap, hk₁]
  exact hk'

/-- The idle task `e` is on `READY_LIST`, its identifier is in use, and no other control block has
it. -/
structure Idles (k : Kernel) (e : Tid) : Prop where
  ready : e ∈ k.readyList.tids
  status : k.status e = .ready ∨ k.status e = .running
  bit : k.tidBitmap.getLsbD e.val = true
  tid : ∀ t, (k.tcbs t).tid = e ↔ t = e
  schedReady : k.schedReady = true
  current : k.currentTcbPtr ≠ none

namespace Idles

/-- Writes that leave the bitmap and the identifiers alone. -/
theorem of_frame (h : k.Idles e) (hf : Frame k k₁) (hm : e ∈ k₁.readyList.tids)
    (hst : k₁.status e = .ready ∨ k₁.status e = .running)
    (hc : k₁.currentTcbPtr ≠ none) : k₁.Idles e := by
  refine ⟨hm, hst, ?_, fun t => ?_, hf.schedReady.trans h.schedReady, hc⟩
  · rw [hf.tidBitmap]
    exact h.bit
  · rw [hf.tid]
    exact h.tid t

theorem mem_readyRemove (h : e ∈ k.readyList.tids) (ht : e ≠ t) :
    e ∈ (k.readyRemove t).readyList.tids := by
  rw [readyRemove_readyList, remove_tids]
  exact (List.mem_erase_of_ne ht).mpr h

/-- An insertion drops nobody, also where the list is full. -/
theorem mem_readyInsert (h : e ∈ k.readyList.tids) (t : Tid) :
    e ∈ (k.readyInsert t).readyList.tids :=
  List.count_pos_iff.mp (lt_of_lt_of_le (List.count_pos_iff.mpr h) (count_le_readyInsert k t e))

/-- The list has room for a task that has just been removed. -/
theorem mem_reinsert (h : e ∈ k.readyList.tids) :
    e ∈ ((k.readyRemove e).readyInsert e).readyList.tids := by
  have hlt : (k.readyRemove e).readyList.tids.length < taskMax := by
    rw [readyRemove_readyList, remove_tids, List.length_erase_of_mem h]
    have hpos := List.length_pos_of_mem h
    have hcap := k.readyList.le_cap
    omega
  rw [readyInsert_readyList, (insertInOrder_of_lt hlt).1, mem_insertBefore]
  exact .inl rfl

theorem park (h : k.Idles e) (ht : e ≠ t) : (k.park t).Idles e := by
  refine h.of_frame (frame_park k t) ?_ ?_ h.current
  · exact mem_readyRemove (k := k.setStatus t .blocked) h.ready ht
  · rw [Kernel.park, status_readyRemove, setStatus, status_setTcb, if_neg ht]
    exact h.status

theorem wake (h : k.Idles e) (t : Tid) : (k.wake t).Idles e := by
  refine h.of_frame (frame_wake k t) ?_ ?_ h.current
  · exact mem_readyInsert (k := k.setStatus t .ready) h.ready t
  · rw [Kernel.wake, status_readyInsert, setStatus, status_setTcb]
    split_ifs
    · exact .inl rfl
    · exact h.status

theorem wakeAll (h : k.Idles e) (ts : List Tid) : (k.wakeAll ts).Idles e := by
  induction ts generalizing k with
  | nil => exact h
  | cons t ts ih => exact ih (h.wake t)

theorem enqueue (h : k.Idles e) (queue : TaskList) (t : Tid) : (k.enqueue queue t).1.Idles e :=
  ⟨h.ready, h.status, h.bit, h.tid, h.schedReady, h.current⟩

theorem enqueueBack (h : k.Idles e) (queue : TaskList) (t : Tid) :
    (k.enqueueBack queue t).1.Idles e :=
  ⟨h.ready, h.status, h.bit, h.tid, h.schedReady, h.current⟩

/-! ### Scheduling -/

theorem expire (h : k.Idles e) (t : Tid) : (k.expire t).Idles e := by
  refine h.of_frame (frame_expire k t) ?_ ?_ h.current
  · exact mem_readyInsert (k := (k.sleepingRemove t).setTcb t fun tcb =>
      { tcb with status := .ready, wakePoint := 0 }) h.ready t
  · rw [Kernel.expire, status_readyInsert, status_setTcb]
    split_ifs
    · exact .inl rfl
    · exact h.status

theorem wakeUpSleepers (h : k.Idles e) : k.wakeUpSleepers.Idles e :=
  wakeUpSleepers_induct (P := fun k' => k'.Idles e) h fun _ t h _ _ => h.expire t

theorem requeue (h : k.Idles e) (c : Tid) : (k.requeue c).Idles e := by
  refine h.of_frame (frame_requeue k c) ?_ ?_ ?_ <;> unfold Kernel.requeue
  · split_ifs with hst
    · refine mem_readyRemove h.ready ?_
      rintro rfl
      rcases h.status with hready | hrun
      · simp [hready] at hst
      · simp [hrun] at hst
    · by_cases hec : e = c
      · subst hec
        exact mem_reinsert (k := k.setTcb e fun tcb =>
          { tcb with timeSlice := MosKernel.timeSlice, status := .ready }) h.ready
      · exact mem_readyInsert (mem_readyRemove (k := k.setTcb c fun tcb =>
          { tcb with timeSlice := MosKernel.timeSlice, status := .ready }) h.ready hec) c
    · exact h.ready
  · split_ifs
    · exact h.status
    · rw [status_readyInsert, status_readyRemove, status_setTcb]
      split_ifs
      · exact .inl rfl
      · exact h.status
    · exact h.status
  · split_ifs <;> exact h.current

theorem switchTo (h : k.Idles e) (c t : Tid) : (k.switchTo c t).Idles e := by
  refine h.of_frame (frame_switchTo k c t) ?_ ?_ ?_
  · rw [readyList_switchTo]
    exact h.ready
  · have hset : ∀ {k : Kernel} (t : Tid) (st : TaskStatus), st = .ready ∨ st = .running →
        (k.status e = .ready ∨ k.status e = .running) →
          ((k.setStatus t st).status e = .ready ∨ (k.setStatus t st).status e = .running) := by
      intro k t st hst hk
      rw [setStatus, status_setTcb]
      split_ifs
      · exact hst
      · exact hk
    unfold Kernel.switchTo
    dsimp only
    split_ifs
    · exact hset t .running (.inr rfl) (hset c .ready (.inl rfl) h.status)
    · exact hset t .running (.inr rfl) h.status
    · exact h.status
  · unfold Kernel.switchTo
    dsimp only
    split_ifs
    · simp
    · simp
    · exact h.current

/-- **`next_tcb` does not panic.** -/
theorem nextTcb (h : k.Idles e) : ∃ k', k.nextTcb = some k' ∧ k'.Idles e := by
  have hw := h.wakeUpSleepers
  obtain ⟨p, hp⟩ := Option.ne_none_iff_exists'.mp hw.current
  have hcr : k.wakeUpSleepers.crTid = some (k.wakeUpSleepers.tcbs p).tid := by
    rw [crTid, hp, Option.map_some]
  have hr := hw.requeue (k.wakeUpSleepers.tcbs p).tid
  obtain ⟨st, rest, hlist⟩ := List.exists_cons_of_ne_nil (List.ne_nil_of_mem hr.ready)
  refine ⟨_, ?_, hr.switchTo (k.wakeUpSleepers.tcbs p).tid st⟩
  have hfront : (k.wakeUpSleepers.requeue (k.wakeUpSleepers.tcbs p).tid).readyList.front =
      some st := by
    show List.head? _ = some st
    rw [hlist]
    rfl
  rw [Kernel.nextTcb, hcr, Option.bind_some]
  show Option.map _ _ = _
  rw [hfront, Option.map_some]

theorem yieldTask (h : k.Idles e) : ∃ k', k.yieldTask = some k' ∧ k'.Idles e := by
  rw [Kernel.yieldTask, if_pos h.schedReady]
  exact h.nextTcb

theorem yieldIf (h : k.Idles e) (b : Bool) : ∃ k', k.yieldIf b = some k' ∧ k'.Idles e := by
  unfold Kernel.yieldIf
  cases b with
  | false => exact ⟨k, rfl, h⟩
  | true => exact h.yieldTask

/-! ### `Task` operations -/

/-- A free identifier is not the one of `e`. -/
theorem ne_of_alloc (h : k.Idles e) (ha : k.allocTid = some (t, k₁)) : e ≠ t := by
  rintro rfl
  have hfree := (allocTid_eq_some ha).1
  rw [tidFree_eq, h.bit] at hfree
  cases hfree

theorem addTask (h : k.Idles e) (ha : k.allocTid = some (t, k₁)) (p : ℕ) (name : String) :
    (k₁.addTask t p name).Idles e := by
  have hne := h.ne_of_alloc ha
  obtain ⟨-, rfl⟩ := allocTid_eq_some ha
  set k₁ : Kernel := { k with
    tidBitmap := k.tidBitmap ||| (1#32 <<< t.val)
    tcbs := Function.update k.tcbs t (.empty t) }
  have hready : e ∈ (k₁.addTask t p name).readyList.tids :=
    mem_readyInsert (k := k₁.setTcb t fun tcb =>
      { tcb with status := .ready, priority := p, timeSlice := MosKernel.timeSlice, name }) h.ready t
  refine ⟨hready, ?_, ?_, fun u => ?_, h.schedReady, h.current⟩
  · rw [Kernel.addTask, status_readyInsert, status_setTcb, if_neg hne]
    show (Function.update k.tcbs t (.empty t) e).status = .ready ∨
      (Function.update k.tcbs t (.empty t) e).status = .running
    rw [Function.update_of_ne hne]
    exact h.status
  · show (k.tidBitmap ||| (1#32 <<< t.val)).getLsbD e.val = true
    rw [getLsbD_set, h.bit, Bool.true_or]
  · have htid : ((k₁.addTask t p name).tcbs u).tid = if u = t then t else (k.tcbs u).tid := by
      simp only [Kernel.addTask, readyInsert_tcbs, setTcb_tcbs, k₁, Function.update_apply]
      split_ifs <;> rfl
    rw [htid]
    split_ifs with hut
    · exact ⟨fun he => hut.trans he, fun he => hut.symm.trans he⟩
    · exact h.tid u

theorem freeTid (h : k.Idles e) (ht : e ≠ t) : (k.freeTid t).Idles e := by
  refine ⟨h.ready, ?_, ?_, fun u => ?_, h.schedReady, h.current⟩
  · rw [Kernel.freeTid, setStatus, status_setTcb, if_neg ht]
    exact h.status
  · show (k.tidBitmap &&& ~~~(1#32 <<< t.val)).getLsbD e.val = true
    rw [getLsbD_clear, h.bit, Bool.true_and, decide_eq_true ht]
  · rw [← h.tid u, Kernel.freeTid, setStatus, setTcb_tcbs, Function.update_apply]
    split_ifs with hut
    · rw [hut]
      rfl
    · rfl

theorem readyRemove (h : k.Idles e) (ht : e ≠ t) : (k.readyRemove t).Idles e :=
  ⟨mem_readyRemove h.ready ht, h.status, h.bit, h.tid, h.schedReady, h.current⟩

theorem sleep (h : k.Idles e) (ht : e ≠ t) (ticks : BitVec 32) : (k.sleep t ticks).Idles e := by
  refine h.of_frame (frame_sleep k t ticks) ?_ ?_ h.current
  · exact mem_readyRemove (k := (k.setTcb t fun tcb =>
      { tcb with wakePoint := k.osTicks + ticks }).setStatus t .blocked) h.ready ht
  · rw [Kernel.sleep, status_sleepingInsert, Kernel.park, status_readyRemove, setStatus,
      status_setTcb, if_neg ht, status_setTcb, if_neg ht]
    exact h.status

theorem create (h : k.Idles e) (p : ℕ) (name : String) :
    ∃ r, k.create p name = some r ∧ r.1.Idles e := by
  unfold Kernel.create
  cases ha : k.allocTid with
  | none => exact ⟨_, rfl, h⟩
  | some r =>
      obtain ⟨t, k₁⟩ := r
      have hadd := h.addTask ha p name
      obtain ⟨k', hk', h'⟩ := hadd.yieldTask
      dsimp only
      split
      · split_ifs
        · rw [hk']
          exact ⟨_, rfl, h'⟩
        · exact ⟨_, rfl, hadd⟩
      · exact ⟨_, rfl, hadd⟩

/-- `create_raw` panics only for a stack that cannot hold a context frame. -/
theorem createRaw (h : k.Idles e) (p size : ℕ) (name : String)
    (hsize : k.allocTid = none ∨ size / 4 > contextWords) :
    ∃ r, k.createRaw p name size = some r ∧ r.1.Idles e := by
  unfold Kernel.createRaw
  cases ha : k.allocTid with
  | none => exact ⟨_, rfl, h⟩
  | some r =>
      obtain ⟨t, k₁⟩ := r
      rw [ha] at hsize
      dsimp only
      rw [if_pos (hsize.resolve_left (by simp))]
      exact ⟨_, rfl, h.addTask ha p name⟩

theorem exitCurrent (h : k.Idles e) (hcr : k.crTid = some t) (ht : e ≠ t) :
    ∃ k', k.exitCurrent = some k' ∧ k'.Idles e := by
  unfold Kernel.exitCurrent
  rw [hcr]
  exact ((h.readyRemove ht).freeTid ht).yieldTask

theorem block (h : k.Idles e) (ht : e ≠ t) : ∃ k', k.block t = some k' ∧ k'.Idles e := by
  have hpush : ((k.park t).blockedPush t).Idles e :=
    ⟨(h.park ht).ready, (h.park ht).status, (h.park ht).bit, (h.park ht).tid,
      (h.park ht).schedReady, (h.park ht).current⟩
  unfold Kernel.block
  split
  · exact hpush.yieldTask
  · exact hpush.yieldTask
  · exact ⟨k, rfl, h⟩

theorem resume (h : k.Idles e) (t : Tid) : ∃ k', k.resume t = some k' ∧ k'.Idles e := by
  have hrem : (k.blockedRemove t).Idles e :=
    ⟨h.ready, h.status, h.bit, h.tid, h.schedReady, h.current⟩
  have hw := hrem.wake t
  unfold Kernel.resume
  split_ifs
  · exact ⟨k, rfl, h⟩
  · dsimp only
    split
    · split_ifs
      · exact hw.yieldTask
      · exact ⟨_, rfl, hw⟩
    · exact ⟨_, rfl, hw⟩
  · exact ⟨k, rfl, h⟩

theorem terminate (h : k.Idles e) (ht : e ≠ t) : ∃ k', k.terminate t = some k' ∧ k'.Idles e := by
  have hrem := h.readyRemove ht
  have hlists : (((k.readyRemove t).sleepingRemove t).blockedRemove t).Idles e :=
    ⟨hrem.ready, hrem.status, hrem.bit, hrem.tid, hrem.schedReady, hrem.current⟩
  unfold Kernel.terminate
  split_ifs
  · exact ⟨k, rfl, h⟩
  · exact (hlists.freeTid ht).yieldTask

theorem delay (h : k.Idles e) (hcr : k.crTid = some t) (ht : e ≠ t) (ticks : BitVec 32) :
    ∃ k', k.delay ticks = some k' ∧ k'.Idles e := by
  unfold Kernel.delay
  split_ifs
  · exact ⟨k, rfl, h⟩
  · rw [hcr]
    exact (h.sleep ht ticks).yieldTask

/-- The running task is another one. -/
theorem crTid_ne (h : k.Idles e) (hcr : k.crTid = some t) (hne : k.currentTcbPtr ≠ some e) :
    e ≠ t := by
  obtain ⟨p, hp, rfl⟩ := Option.map_eq_some_iff.mp hcr
  intro he
  have hpe := (h.tid p).mp he.symm
  rw [hp, hpe] at hne
  exact hne rfl

/-! ### Interrupts -/

theorem tick (h : k.Idles e) : ∃ r, k.systickTick = some r ∧ r.1.Idles e := by
  obtain ⟨p, hp⟩ := Option.ne_none_iff_exists'.mp h.current
  have hadv : k.advanceTicks.Idles e := ⟨h.ready, h.status, h.bit, h.tid, h.schedReady, h.current⟩
  have hcr : k.advanceTicks.crTid = some (k.tcbs p).tid := by
    show k.currentTcbPtr.map _ = _
    rw [hp]
    rfl
  have hcharge : (k.advanceTicks.chargeSlice (k.tcbs p).tid).Idles e := by
    refine hadv.of_frame (frame_chargeSlice _ _) ?_ ?_ ?_ <;> unfold chargeSlice
    · split_ifs <;> exact h.ready
    · split_ifs
      · rw [status_setTcb]
        split_ifs with heq
        · rw [← heq]
          exact h.status
        · exact h.status
      · exact h.status
    · split_ifs <;> exact h.current
  unfold systickTick
  rw [h.schedReady]
  simp only [Bool.not_true, Bool.false_eq_true, if_false, hcr]
  exact ⟨_, rfl, hcharge⟩

theorem systickTrap (h : k.Idles e) (missed : ℕ) :
    ∃ k', k.systickTrap missed = some k' ∧ k'.Idles e :=
  systickTrap_total (P := fun k => k.Idles e) (fun _ h => h.tick) (fun _ h b => h.yieldIf b) h missed

/-! ### Sections on the objects -/

theorem setTcb {f : Tcb → Tcb} (h : k.Idles e) (t : Tid) (htid : (f (k.tcbs t)).tid = (k.tcbs t).tid)
    (hst : e = t → (f (k.tcbs t)).status = .ready ∨ (f (k.tcbs t)).status = .running) :
    (k.setTcb t f).Idles e := by
  refine ⟨h.ready, ?_, h.bit, fun u => ?_, h.schedReady, h.current⟩
  · rw [status_setTcb]
    split_ifs with het
    · exact hst het
    · exact h.status
  · rw [← h.tid u, setTcb_tcbs, Function.update_apply]
    split_ifs with hut
    · rw [htid, hut]
    · rfl

theorem readyInsert (h : k.Idles e) (t : Tid) : (k.readyInsert t).Idles e :=
  ⟨mem_readyInsert h.ready t, h.status, h.bit, h.tid, h.schedReady, h.current⟩

theorem sleepingInsert (h : k.Idles e) (t : Tid) : (k.sleepingInsert t).Idles e :=
  ⟨h.ready, h.status, h.bit, h.tid, h.schedReady, h.current⟩

theorem boost (h : k.Idles e) (o : Tid) (pri : ℕ) : (k.boost o pri).Idles e := by
  rcases lt_or_ge pri (k.priority o) with hlt | hge
  · have hset : (k.setTcb o (raised pri)).Idles e := by
      refine h.setTcb o rfl fun heo => ?_
      rw [← heo]
      exact h.status
    rw [boost_of_lt hlt]
    split_ifs
    · refine ⟨?_, hset.status, hset.bit, hset.tid, hset.schedReady, hset.current⟩
      by_cases heo : e = o
      · subst heo
        exact mem_reinsert hset.ready
      · exact mem_readyInsert (mem_readyRemove hset.ready heo) o
    · exact hset
  · rw [boost_of_le hge]
    exact h

theorem restore (h : k.Idles e) (c : Tid) : (k.restore c).Idles e := by
  unfold Kernel.restore
  split_ifs
  · refine h.setTcb c rfl fun hec => ?_
    rw [← hec]
    exact h.status
  · exact h

theorem rouse (h : k.Idles e) (t : Tid) : (k.rouse t).Idles e := by
  have hset : (k.setTcb t fun tcb => { tcb with wakePoint := 0xFFFFFFFF, status := .ready }).Idles e :=
    h.setTcb t rfl fun _ => .inl rfl
  have hrem : ((k.setTcb t fun tcb =>
      { tcb with wakePoint := 0xFFFFFFFF, status := .ready }).sleepingRemove t).Idles e :=
    ⟨hset.ready, hset.status, hset.bit, hset.tid, hset.schedReady, hset.current⟩
  exact hrem.readyInsert t

theorem semaDown (h : k.Idles e) (inner : SemaInner) (ht : e ≠ t) :
    (inner.down k t).kernel.Idles e := by
  unfold SemaInner.down
  dsimp only
  split_ifs
  · exact (h.park ht).enqueue _ t
  · exact h

theorem semaUp (h : k.Idles e) (inner : SemaInner) : (inner.up k).kernel.Idles e := by
  unfold SemaInner.up
  split
  · exact h.wake _
  · exact h

theorem downTimeoutBlock (h : k.Idles e) (inner : SemaInner) (ht : e ≠ t) (ticks : BitVec 32) :
    (inner.downTimeoutBlock k t ticks).kernel.Idles e :=
  (((h.park ht).enqueue inner.waitQueue t).setTcb t rfl fun het => absurd het ht).sleepingInsert t

theorem mutexLock (h : k.Idles e) (inner : MutexInner) (ht : e ≠ t) :
    (inner.lock k t).kernel.Idles e := by
  unfold MutexInner.lock
  split_ifs
  · exact h
  · split
    · exact ((h.boost _ (k.priority t)).park ht).enqueue inner.waitQueue t
    · exact h

theorem mutexUnlock (h : k.Idles e) (inner : MutexInner) (t : Tid) :
    (inner.unlock k t).kernel.Idles e := by
  unfold MutexInner.unlock
  dsimp only
  split_ifs
  · exact h
  · split
    · exact (h.restore t).wake _
    · exact h.restore t

theorem condNotify (h : k.Idles e) (queue : TaskList) : (condNotify queue k).kernel.Idles e := by
  unfold MosKernel.condNotify
  split
  · exact h.wake _
  · exact h

theorem tryWakeUp (h : k.Idles e) (waitList : TaskList) (c : Tid) :
    (tryWakeUp waitList k c).kernel.Idles e := by
  unfold MosKernel.tryWakeUp
  split
  · exact h.rouse _
  · exact h

theorem taskCall {c : TaskCall} (h : k.Idles e) (hcr : k.crTid = some t) (ht : e ≠ t)
    (hblock : c ≠ .block e) (hterm : c ≠ .terminate e)
    (hsize : ∀ p name size, c = .createRaw p name size →
      k.allocTid = none ∨ size / 4 > contextWords) :
    ∃ r, c.exec k = some r ∧ r.1.Idles e := by
  have hmap : ∀ {op : Option Kernel}, (∃ k', op = some k' ∧ k'.Idles e) →
      ∃ r, op.map (fun k' => (k', (none : Option Tid))) = some r ∧ r.1.Idles e := by
    rintro op ⟨k', rfl, h'⟩
    exact ⟨(k', none), rfl, h'⟩
  cases c with
  | create p name =>
      obtain ⟨r, hr, h'⟩ := h.create p name
      exact ⟨(r.1, r.2.toOption), by rw [TaskCall.exec, hr]; rfl, h'⟩
  | createRaw p name size =>
      obtain ⟨r, hr, h'⟩ := h.createRaw p size name (hsize p name size rfl)
      exact ⟨(r.1, r.2.toOption), by rw [TaskCall.exec, hr]; rfl, h'⟩
  | exitCurrent => exact hmap (h.exitCurrent hcr ht)
  | block u => exact hmap (h.block (t := u) (by rintro rfl; exact hblock rfl))
  | resume u => exact hmap (h.resume u)
  | terminate u => exact hmap (h.terminate (t := u) (by rintro rfl; exact hterm rfl))
  | delay ticks => exact hmap (h.delay hcr ht ticks)
  | yieldTask => exact hmap h.yieldTask

end Idles

end Kernel

/-! ### No other task -/

namespace Kernel

variable {k : Kernel} {e : Tid}

/-- The idle task `e` is the only one, and runs. -/
structure Alone (k : Kernel) (e : Tid) : Prop extends OnCpu k e where
  readyList : k.readyList.tids = [e]
  sleeping : k.sleepingList.tids = []
  status : k.status e = .ready ∨ k.status e = .running

namespace Alone

theorem nextTcb (h : k.Alone e) : ∃ k', k.nextTcb = some k' ∧ k'.Alone e := by
  have hw : k.wakeUpSleepers = k := by
    unfold Kernel.wakeUpSleepers TaskList.len
    rw [h.sleeping]
    rfl
  have hr : (k.requeue e).Alone e := by
    have hlive : ¬(k.status e = .terminated ∨ k.status e = .blocked) := by
      rcases h.status with hst | hst <;> simp [hst]
    unfold requeue
    rw [if_neg hlive]
    split_ifs
    · refine ⟨⟨h.ready, h.current, ?_⟩, ?_, h.sleeping, ?_⟩
      · show ((Function.update k.tcbs e _) e).tid = e
        rw [Function.update_self]
        exact h.tid
      · rw [readyInsert_readyList, (insertInOrder_of_lt ?_).1, readyRemove_readyList, remove_tids,
          setTcb_readyList, h.readyList, List.erase_cons_head]
        · rfl
        · rw [readyRemove_readyList, remove_tids, setTcb_readyList, h.readyList,
            List.erase_cons_head]
          decide
      · left
        rw [status_readyInsert, status_readyRemove, status_setTcb, if_pos rfl]
    · exact h
  refine ⟨k.requeue e, ?_, hr⟩
  have hfront : (k.requeue e).readyList.front = some e := by
    show List.head? _ = _
    rw [hr.readyList]
    rfl
  rw [Kernel.nextTcb, hw, h.crTid, Option.bind_some]
  show Option.map _ _ = _
  rw [hfront, Option.map_some, switchTo, if_neg (not_not.mpr rfl)]

theorem yieldIf (h : k.Alone e) (b : Bool) : ∃ k', k.yieldIf b = some k' ∧ k'.Alone e := by
  cases b with
  | false => exact ⟨k, rfl, h⟩
  | true =>
      unfold Kernel.yieldIf Kernel.yieldTask
      rw [if_pos rfl, if_pos h.ready]
      exact h.nextTcb

theorem tick (h : k.Alone e) : ∃ r, k.systickTick = some r ∧ r.1.Alone e := by
  refine ⟨_, systickTick_eq h.toOnCpu, ?_⟩
  unfold chargeSlice
  split_ifs
  · refine ⟨⟨h.ready, h.current, ?_⟩, h.readyList, h.sleeping, ?_⟩
    · show ((Function.update k.tcbs e _) e).tid = e
      rw [Function.update_self]
      exact h.tid
    · rw [status_setTcb, if_pos rfl]
      exact h.status
  · exact ⟨⟨h.ready, h.current, h.tid⟩, h.readyList, h.sleeping, h.status⟩

theorem systickTrap (h : k.Alone e) (missed : ℕ) :
    ∃ k', k.systickTrap missed = some k' ∧ k'.Alone e :=
  systickTrap_total (P := fun k => k.Alone e) (fun _ h => h.tick) (fun _ h b => h.yieldIf b) h missed

end Alone

end Kernel

namespace System

variable {e cr : Tid}

/-- The idle task is ready and has no call pending. -/
structure Spares (σ : System T) (e : Tid) : Prop where
  idles : σ.kernel.Idles e
  resting : σ.pc e = .user

namespace Spares

/-- The switch at the end of a section finds a task to run. -/
theorem yieldIf {b : Bool} (h : σ.Spares e) : ∃ σ', σ.yieldIf b = some σ' ∧ σ'.Spares e := by
  obtain ⟨k, hk, hi⟩ := h.idles.yieldIf b
  exact ⟨σ.setKernel k, by rw [System.yieldIf, hk, Option.map_some], hi, h.resting⟩

theorem put (h : σ.Spares e) (hk : σ'.kernel.Idles e) (hpc : σ'.pc = σ.pc) : σ'.Spares e := by
  refine ⟨hk, ?_⟩
  rw [hpc]
  exact h.resting

/-- A section after which another task is elsewhere in its call. -/
theorem putPc {pc : Pc T} (h : σ.Spares e) (hcr : e ≠ cr) (hk : σ'.kernel.Idles e)
    (hpc : σ'.pc = Function.update σ.pc cr pc) : σ'.Spares e := by
  refine ⟨hk, ?_⟩
  rw [hpc, Function.update_of_ne hcr]
  exact h.resting

theorem delay (h : σ.Spares e) (hc : σ.kernel.crTid = some cr) (hcr : e ≠ cr) (ticks : BitVec 32) :
    ∃ σ', σ.delay ticks = some σ' ∧ σ'.Spares e := by
  obtain ⟨k, hk, hi⟩ := h.idles.delay hc hcr ticks
  exact ⟨σ.setKernel k, by rw [System.delay, hk, Option.map_some], hi, h.resting⟩

theorem commitSend (h : σ.Spares e) (hcr : e ≠ cr) (q : ℕ) (msg : T) :
    ∃ σ', σ.commitSend cap cr q msg = some σ' ∧ σ'.Spares e :=
  yieldIf (h.putPc hcr (h.idles.tryWakeUp _ cr) rfl)

/-- The slot that `recv` reads holds a message. -/
theorem commitRecv {q : ℕ} {sent received : List T} (h : σ.Spares e) (hcr : e ≠ cr)
    (hf : (σ.msgQueues q).Fifo (cap q) sent received) (hpos : 0 < (σ.msgQueues q).len) :
    ∃ σ', σ.commitRecv cap cr q = some σ' ∧ σ'.Spares e := by
  obtain ⟨msg, j, hpop, -⟩ := hf.pop hpos
  have hr : (σ.msgQueues q).commitRecv (cap q) σ.kernel cr = some (msg,
      ⟨(MosKernel.tryWakeUp j.senders σ.kernel cr).kernel,
        { j with senders := (MosKernel.tryWakeUp j.senders σ.kernel cr).inner },
        (MosKernel.tryWakeUp j.senders σ.kernel cr).yields⟩) := by
    rw [MsgQueueInner.commitRecv, hpop, Option.map_some]
  rw [System.commitRecv, hr, Option.bind_some]
  exact yieldIf (h.putPc hcr (h.idles.tryWakeUp _ cr) rfl)

theorem lock (h : σ.Spares e) (hcr : e ≠ cr) (m : ℕ) :
    ∃ σ', σ.lock cr m = some σ' ∧ σ'.Spares e := by
  have hk := h.idles.mutexLock (σ.mutexes m) hcr
  unfold System.lock
  dsimp only
  split_ifs
  · exact yieldIf (h.putPc hcr hk rfl)
  · exact yieldIf (h.putPc hcr hk rfl)

theorem down (h : σ.Spares e) (hcr : e ≠ cr) (s : ℕ) :
    ∃ σ', σ.down cr s = some σ' ∧ σ'.Spares e := by
  have hk := h.idles.semaDown (σ.semas s) hcr
  unfold System.down
  dsimp only
  split_ifs
  · exact yieldIf (h.putPc hcr hk rfl)
  · exact yieldIf (h.put hk rfl)

theorem task {c : TaskCall} (h : σ.Spares e) (hc : σ.kernel.crTid = some cr) (hcr : e ≠ cr)
    (hblock : c ≠ .block e) (hterm : c ≠ .terminate e)
    (hsize : ∀ p name size, c = .createRaw p name size →
      σ.kernel.allocTid = none ∨ size / 4 > contextWords) :
    ∃ σ', σ.task c = some σ' ∧ σ'.Spares e := by
  obtain ⟨⟨k, r⟩, hr, hi⟩ := h.idles.taskCall hc hcr hblock hterm hsize
  rw [System.task, hr, Option.map_some]
  cases r with
  | none => exact ⟨_, rfl, hi, h.resting⟩
  | some t =>
      refine ⟨_, rfl, hi, ?_⟩
      show Function.update σ.pc t .user e = .user
      rw [Function.update_apply, h.resting, ite_self]

end Spares

/-! ### The machine -/

/-- What the running task needs in order to take an action: a call starts where no other is pending,
a guard can be dropped or waited with only where there is one, and got only where the task has room for
it, and the stack that `create_raw` is given holds a context frame. -/
def Enabled (σ : System T) : Action T → Prop
  | .call c => (∀ cr, σ.kernel.crTid = some cr → σ.pc cr = .user ∧
      (∀ m, (c = .unlock m ∨ ∃ c', c = .wait c' m) → 0 < σ.guards cr m) ∧
      ∀ m, c = .lock m → σ.guards cr m + 1 < 2 ^ 32) ∧
    ∀ p name size, c = .task (.createRaw p name size) →
      σ.kernel.allocTid = none ∨ size / 4 > contextWords
  | .proceed => ∀ cr, σ.kernel.crTid = some cr → σ.pc cr ≠ .user
  | _ => True

/-- The idle task `e` calls nothing, and nobody blocks or terminates it. -/
def SparesIdle (e : Tid) (σ : System T) : Action T → Prop
  | .call c => σ.kernel.currentTcbPtr ≠ some e ∧
    c ≠ .task (.block e) ∧ c ≠ .task (.terminate e)
  | _ => True

instance [DecidableEq T] (e : Tid) (σ : System T) : (a : Action T) → Decidable (SparesIdle e σ a)
  | .call _ => instDecidableAnd
  | .systick _ | .preempt | .upFromIsr _ | .proceed => isTrue trivial

namespace Spares

/-- A call other than one of `Task`'s. -/
theorem call {c : Call T} (h : σ.Spares e) (hd : σ.Delivers cap) (hc : σ.kernel.crTid = some cr)
    (hcr : e ≠ cr) (hen : σ.Enabled (.call c)) (hg : SparesIdle e σ (.call c)) :
    ∃ σ', σ.call cap cr c = some σ' ∧ σ'.Spares e := by
  obtain ⟨hrun, hsize⟩ := hen
  obtain ⟨-, hguard, hroom⟩ := hrun cr hc
  cases c with
  | task c =>
      refine h.task hc hcr (fun he => hg.2.1 (by rw [he])) (fun he => hg.2.2 (by rw [he])) ?_
      intro p name size he
      exact hsize p name size (by rw [he])
  | down s => exact h.down hcr s
  | downTimeout s ticks =>
      refine ⟨_, rfl, ?_⟩
      unfold System.downTimeout
      dsimp only
      split_ifs
      · exact h.put h.idles rfl
      · exact h.put h.idles rfl
      · exact h.putPc hcr h.idles rfl
  | tryDown s =>
      refine ⟨_, rfl, ?_⟩
      unfold System.tryDown
      dsimp only
      split_ifs
      · exact h.put h.idles rfl
      · exact h.put h.idles rfl
  | up s => exact yieldIf (h.put (h.idles.semaUp (σ.semas s)) rfl)
  | lock m =>
      rw [System.call, if_pos (hroom m rfl)]
      exact h.lock hcr m
  | unlock m =>
      rw [System.call, if_pos (hguard m (.inl rfl))]
      exact yieldIf (h.put (h.idles.mutexUnlock (σ.mutexes m) cr) rfl)
  | wait c m =>
      have hk := ((h.idles.enqueueBack (σ.condVars c) cr).park hcr).mutexUnlock (σ.mutexes m) cr
      rw [System.call, if_pos (hguard m (.inr ⟨c, rfl⟩))]
      exact yieldIf (h.putPc hcr hk rfl)
  | notify c =>
      exact yieldIf (h.put (h.idles.condNotify (σ.condVars c)) rfl)
  | notifyAll c =>
      exact yieldIf (h.put (h.idles.wakeAll (σ.condVars c).tids) rfl)
  | send q msg timeout =>
      have hlog : (σ.log (.sendCalled q cr msg)).Spares e := ⟨h.idles, h.resting⟩
      unfold System.call System.send
      dsimp only
      split_ifs
      · exact hlog.commitSend hcr q msg
      · exact ⟨_, rfl, h.putPc hcr h.idles rfl⟩
      · exact ⟨_, rfl, h.putPc hcr h.idles rfl⟩
  | recv q timeout =>
      have hlog : (σ.log (.recvCalled q cr)).Spares e := ⟨h.idles, h.resting⟩
      unfold System.call System.recv
      dsimp only
      split_ifs with hpos
      · exact hlog.commitRecv hcr (hd.fifo q) hpos
      · exact ⟨_, rfl, h.putPc hcr h.idles rfl⟩
      · exact ⟨_, rfl, h.putPc hcr h.idles rfl⟩

theorem downTimeoutBlock (h : σ.Spares e) (hcr : e ≠ cr) (s : ℕ) (ticks : BitVec 32) :
    ∃ σ', σ.downTimeoutBlock cr s ticks = some σ' ∧ σ'.Spares e :=
  yieldIf (h.putPc hcr (h.idles.downTimeoutBlock (σ.semas s) hcr ticks) rfl)

/-- The next section of the pending call. -/
theorem proceed (h : σ.Spares e) (hd : σ.Delivers cap) (hc : σ.kernel.crTid = some cr)
    (hpc : σ.pc cr ≠ .user) : ∃ σ', σ.proceed cap cr = some σ' ∧ σ'.Spares e := by
  have hcr : e ≠ cr := by
    rintro rfl
    exact hpc h.resting
  have hput : ∀ {σ' : System T} {pc : Pc T}, σ'.kernel = σ.kernel →
      σ'.pc = Function.update σ.pc cr pc → σ'.Spares e :=
    fun hk hp => h.putPc hcr (hk ▸ h.idles) hp
  unfold System.proceed
  split
  · exact absurd ‹_› hpc
  · exact ⟨_, rfl, hput rfl rfl⟩
  · exact h.downTimeoutBlock hcr _ _
  · refine ⟨_, rfl, ?_⟩
    unfold System.downTimeoutCheck
    dsimp only
    split_ifs <;> exact hput rfl rfl
  · exact ⟨_, rfl, hput rfl rfl⟩
  · exact yieldIf (hput rfl rfl)
  · exact h.lock hcr _
  · exact ⟨_, rfl, h.putPc hcr (h.idles.enqueue _ cr) rfl⟩
  · refine delay ?_ ?_ hcr _
    · exact hput rfl rfl
    · exact hc
  · refine ⟨_, rfl, ?_⟩
    unfold System.sendCheck
    dsimp only
    split_ifs <;> exact hput rfl rfl
  · split_ifs
    · exact h.commitSend hcr _ _
    · exact ⟨_, rfl, hput rfl rfl⟩
  · exact ⟨_, rfl, h.putPc hcr (h.idles.enqueue _ cr) rfl⟩
  · refine delay ?_ ?_ hcr _
    · exact hput rfl rfl
    · exact hc
  · refine ⟨_, rfl, ?_⟩
    unfold System.recvCheck
    dsimp only
    split_ifs <;> exact hput rfl rfl
  · split_ifs with hpos
    · exact h.commitRecv hcr (hd.fifo _) hpos
    · exact ⟨_, rfl, hput rfl rfl⟩

/-- **An enabled action does not stop the kernel**, and leaves the idle task ready. -/
theorem step (h : σ.Spares e) (hd : σ.Delivers cap) (hen : σ.Enabled a) (hg : SparesIdle e σ a) :
    ∃ σ', σ.step cap a = some σ' ∧ σ'.Spares e := by
  obtain ⟨p, hp⟩ := Option.ne_none_iff_exists'.mp h.idles.current
  have hc : σ.kernel.crTid = some (σ.kernel.tcbs p).tid := by
    rw [crTid, hp, Option.map_some]
  cases a with
  | systick missed =>
      obtain ⟨k, hk, hi⟩ := h.idles.systickTrap missed
      exact ⟨σ.setKernel k, by rw [System.step, hk, Option.map_some], hi, h.resting⟩
  | preempt => exact h.yieldIf
  | upFromIsr s => exact ⟨_, rfl, h.idles.semaUp (σ.semas s), h.resting⟩
  | call c =>
      have hcr := h.idles.crTid_ne hc hg.1
      obtain ⟨σ', hs, h'⟩ := h.call hd hc hcr hen hg
      refine ⟨σ', ?_, h'⟩
      rw [System.step, hc, Option.bind_some, (hen.1 _ hc).1]
      exact hs
  | proceed =>
      obtain ⟨σ', hs, h'⟩ := h.proceed hd hc (hen _ hc)
      exact ⟨σ', by rw [System.step, hc, Option.bind_some, hs], h'⟩

end Spares

/-- An action that was taken was enabled. -/
theorem enabled_of_step (hs : σ.step cap a = some σ') : σ.Enabled a := by
  cases a with
  | systick missed => trivial
  | preempt => trivial
  | upFromIsr s => trivial
  | call c =>
      obtain ⟨cr, hc, hs⟩ := Option.bind_eq_some_iff.mp hs
      split at hs
      · refine ⟨fun u hu => ?_, ?_⟩
        · rw [hc] at hu
          cases hu
          refine ⟨‹_›, fun m hm => ?_, ?_⟩
          · rcases hm with rfl | ⟨c', rfl⟩
            · by_contra hno
              rw [System.call, if_neg hno] at hs
              cases hs
            · by_contra hno
              rw [System.call, if_neg hno] at hs
              cases hs
          · rintro m rfl
            by_contra hno
            rw [System.call, if_neg hno] at hs
            cases hs
        · rintro p name size rfl
          obtain ⟨r, hr, -⟩ := Option.map_eq_some_iff.mp hs
          obtain ⟨r', hr', -⟩ := Option.map_eq_some_iff.mp hr
          unfold Kernel.createRaw at hr'
          split at hr'
          · exact .inl ‹_›
          · dsimp only at hr'
            split at hr'
            · exact .inr ‹_›
            · cases hr'
      · cases hs
  | proceed =>
      obtain ⟨cr, hc, hs⟩ := Option.bind_eq_some_iff.mp hs
      intro u hu hpc
      rw [hc] at hu
      cases hu
      rw [System.proceed, hpc] at hs
      cases hs

end System

/-! ### From the launch -/

namespace Kernel

variable {boots : List BootCall}

/-- The identifier that `launch` gives the idle task. -/
def idleTid (boots : List BootCall) : Option Tid :=
  (boots.foldlM BootCall.exec boot).bind fun k => k.allocTid.map Prod.fst

/-- Either nothing has been created, or the identifier `0` is in use.  A control block whose
identifier has never been allocated says `0`. -/
def Untouched (k : Kernel) : Prop :=
  (k = boot ∨ k.tidBitmap.getLsbD (0 : Tid).val = true) ∧
    ∀ t, (k.tcbs t).tid = t ∨ (k.tcbs t).tid = 0

theorem untouched_boot : boot.Untouched := ⟨.inl rfl, fun _ => .inr rfl⟩

theorem Untouched.addTask {k k₁ : Kernel} {t : Tid} (h : k.Untouched)
    (ha : k.allocTid = some (t, k₁)) (p : ℕ) (name : String) : (k₁.addTask t p name).Untouched := by
  have ha' := ha
  obtain ⟨-, rfl⟩ := allocTid_eq_some ha
  refine ⟨.inr ?_, fun u => ?_⟩
  · show (k.tidBitmap ||| (1#32 <<< t.val)).getLsbD (0 : Tid).val = true
    rw [getLsbD_set]
    rcases h.1 with rfl | hbit
    · have hfst : boot.allocTid.map Prod.fst = some 0 := by decide +kernel
      rw [ha'] at hfst
      have ht : (0 : Tid) = t := (Option.some.inj hfst).symm
      rw [decide_eq_true ht, Bool.or_true]
    · rw [hbit, Bool.true_or]
  · simp only [Kernel.addTask, readyInsert_tcbs, setTcb_tcbs, Function.update_apply]
    split_ifs with hut
    · exact .inl hut.symm
    · exact h.2 u

/-- The idle task of the launched kernel: others have been created before it, or it is alone. -/
theorem launchAfter_idle {k₀ : Kernel} {e : Tid} (hl : launchAfter boots = some k₀)
    (he : idleTid boots = some e) : k₀.Idles e ∨ k₀.Alone e := by
  obtain ⟨k, hk, hl⟩ := Option.bind_eq_some_iff.mp hl
  rw [idleTid, hk, Option.bind_some] at he
  obtain ⟨⟨e', k₁⟩, ha, rfl⟩ := Option.map_eq_some_iff.mp he
  obtain ⟨hb, hu⟩ := boots_induct untouched_boot (fun _ _ _ p name _ hu ha => hu.addTask ha p name) hk
  obtain ⟨k₂, first, -, hlaunch, hfirst, rfl⟩ := hb.launch hl
  obtain ⟨t, k₃, ha', rfl⟩ : ∃ t k₃, k.allocTid = some (t, k₃) ∧ k₂ = k₃.addTask t priMin "idle" := by
    rcases hlaunch with ⟨hnone, -⟩ | hsome
    · rw [hnone] at ha
      cases ha
    · exact hsome
  rw [ha] at ha'
  cases ha'
  have hadd := hb.toCoherent.added priMin "idle" ha
  have hidle : (k₁.addTask e' priMin "idle").status e' ≠ .terminated := by simp [hadd.status]
  have hready : e' ∈ (k₁.addTask e' priMin "idle").readyList.tids :=
    (hadd.coherent.mem_ready e').mpr (.inl hadd.status)
  have hbit := (hadd.coherent.bit e').mpr hidle
  have htid := hadd.coherent.tid_eq e' hidle
  have hst : ((k₁.addTask e' priMin "idle").setStatus first .running).status e' = .ready ∨
      ((k₁.addTask e' priMin "idle").setStatus first .running).status e' = .running := by
    rw [setStatus, status_setTcb]
    split_ifs
    · exact .inr rfl
    · exact .inl hadd.status
  have hsame : ∀ u, (((k₁.addTask e' priMin "idle").setStatus first .running).tcbs u).tid =
      ((k₁.addTask e' priMin "idle").tcbs u).tid := by
    intro u
    rw [setStatus, setTcb_tcbs, Function.update_apply]
    split_ifs with hu
    · rw [hu]
    · rfl
  obtain ⟨hfree, hk₁⟩ := allocTid_eq_some ha
  rcases hu.1 with hboot | hzero
  · right
    have hlist : (k₁.addTask e' priMin "idle").readyList.tids = [e'] := by
      rw [hk₁, hboot]
      rfl
    have hfe : first = e' := by
      have hhead : List.head? _ = some first := hfirst
      rw [hlist] at hhead
      exact (Option.some.inj hhead).symm
    have hsleep : (k₁.addTask e' priMin "idle").sleepingList.tids = [] := by
      rw [hk₁, hboot]
      rfl
    exact ⟨⟨rfl, congrArg some hfe, (hsame e').trans htid⟩, hlist, hsleep, hst⟩
  · left
    have hne : e' ≠ 0 := by
      rintro rfl
      rw [tidFree_eq, hzero] at hfree
      cases hfree
    refine ⟨hready, hst, hbit, fun u => ?_, rfl, by simp⟩
    have hall := (hu.addTask ha priMin "idle").2 u
    refine (iff_of_eq (congrArg (· = e') (hsame u))).trans ⟨fun hu' => ?_, ?_⟩
    · rcases hall with hself | h0
      · exact hself.symm.trans hu'
      · exact absurd (hu'.symm.trans h0) hne
    · rintro rfl
      exact htid

end Kernel

/-! ### The machine without other tasks -/

namespace System

variable {e : Tid}

/-- The idle task is the only one and nobody waits for a semaphore. -/
structure Alone (σ : System T) (e : Tid) : Prop where
  kernel : σ.kernel.Alone e
  resting : σ.pc e = .user
  semas : ∀ s, (σ.semas s).waitQueue.tids = []

theorem Alone.step (h : σ.Alone e) (hen : σ.Enabled a) (hg : SparesIdle e σ a) :
    ∃ σ', σ.step cap a = some σ' ∧ σ'.Alone e := by
  have hc := h.kernel.crTid
  cases a with
  | systick missed =>
      obtain ⟨k, hk, hi⟩ := h.kernel.systickTrap missed
      exact ⟨σ.setKernel k, by rw [System.step, hk, Option.map_some], hi, h.resting, h.semas⟩
  | preempt =>
      obtain ⟨k, hk, hi⟩ := h.kernel.yieldIf true
      exact ⟨σ.setKernel k, by rw [System.step, yieldIf, hk, Option.map_some], hi, h.resting, h.semas⟩
  | upFromIsr s =>
      have hwoken : (σ.semas s).woken = none := by
        unfold SemaInner.woken
        split_ifs
        · exact popFront_eq_none.mpr (h.semas s)
        · rfl
      have hup : (σ.semas s).up σ.kernel =
          ⟨σ.kernel, { σ.semas s with count := wrapI32 ((σ.semas s).count + 1) }, false⟩ := by
        unfold SemaInner.up
        rw [hwoken]
      refine ⟨_, rfl, ?_, h.resting, fun s' => ?_⟩
      · show ((σ.semas s).up σ.kernel).kernel.Alone e
        rw [hup]
        exact h.kernel
      · show (Function.update σ.semas s ((σ.semas s).up σ.kernel).inner s').waitQueue.tids = []
        rw [hup, Function.update_apply]
        split_ifs
        · exact h.semas s
        · exact h.semas s'
  | call c => exact absurd h.kernel.current hg.1
  | proceed => exact absurd h.resting (hen e hc)

end System

/-- **The scheduler never runs out of tasks.**  In every run after the launch in which the idle task
`e` calls nothing and nobody blocks or terminates it, `e` is on `READY_LIST` in every state, and no
enabled action stops the kernel: `next_tcb` always finds a task to run. -/
theorem idle_stays_ready {cap : ℕ → ℕ} {boots : List BootCall} {k₀ : Kernel} {e : Tid}
    {counts : ℕ → ℤ} {tr : List (System T × Action T)} {σ : System T}
    (hl : Kernel.launchAfter boots = some k₀) (he : Kernel.idleTid boots = some e)
    (hr : Run (System.step cap) (System.SparesIdle e) (System.init k₀ counts) tr σ) :
    Always (fun σ : System T => e ∈ σ.kernel.readyList.tids ∧
      ∀ a, σ.Enabled a → System.SparesIdle e σ a → (σ.step cap a).isSome) tr σ := by
  have hstep : ∀ {σ : System T} {a : Action T}, σ.Delivers cap ∧ (σ.Spares e ∨ σ.Alone e) →
      σ.Enabled a → System.SparesIdle e σ a →
      ∃ σ', σ.step cap a = some σ' ∧ σ'.Delivers cap ∧ (σ'.Spares e ∨ σ'.Alone e) := by
    rintro σ a ⟨hd, h | h⟩ hen hg
    · obtain ⟨σ', hs, h'⟩ := h.step hd hen hg
      exact ⟨σ', hs, hd.step hs, .inl h'⟩
    · obtain ⟨σ', hs, h'⟩ : ∃ σ', σ.step cap a = some σ' ∧ σ'.Alone e := h.step hen hg
      exact ⟨σ', hs, hd.step hs, .inr h'⟩
  have h₀ : (System.init k₀ counts : System T).Spares e ∨ (System.init k₀ counts : System T).Alone e := by
    rcases Kernel.launchAfter_idle hl he with hidle | halone
    · exact .inl ⟨hidle, rfl⟩
    · exact .inr ⟨halone, rfl, fun _ => rfl⟩
  have hall := hr.always (I := fun σ => σ.Delivers cap ∧ (σ.Spares e ∨ σ.Alone e))
    ⟨System.delivers_init k₀ counts, h₀⟩ fun σ a σ' h hg hs => by
    obtain ⟨σ₁, hs₁, h₁⟩ := hstep h (System.enabled_of_step hs) hg
    rw [hs] at hs₁
    cases hs₁
    exact h₁
  have hgoal : ∀ {σ : System T}, σ.Delivers cap ∧ (σ.Spares e ∨ σ.Alone e) →
      e ∈ σ.kernel.readyList.tids ∧
        ∀ a, σ.Enabled a → System.SparesIdle e σ a → (σ.step cap a).isSome := by
    intro σ h
    refine ⟨?_, fun a hen hg => ?_⟩
    · rcases h.2 with h | h
      · exact h.idles.ready
      · rw [h.kernel.readyList]
        exact List.mem_singleton_self e
    · obtain ⟨σ', hs, -⟩ := hstep h hen hg
      rw [hs]
      rfl
  exact ⟨fun e he => hgoal (hall.1 e he), hgoal hall.2⟩

/-- A run in which `unlock` makes a terminated task ready again. -/
theorem idle_stays_ready_run : ∃ k₀ tr, ∃ σ : System Unit,
    Kernel.launchAfter [.create 3 "a"] = some k₀ ∧ Kernel.idleTid [.create 3 "a"] = some 1 ∧
      Run (System.step fun _ => 0) (System.SparesIdle 1) (System.init k₀ fun _ => 0) tr σ ∧
      σ.kernel.status 2 = .running ∧ 1 ∈ σ.kernel.readyList.tids ∧
      ∀ a, σ.Enabled a → System.SparesIdle 1 σ a → (σ.step (fun _ => 0) a).isSome := by
  have hsome : (Kernel.launchAfter [.create 3 "a"]).isSome = true := by decide +kernel
  have he : Kernel.idleTid [.create 3 "a"] = some 1 := by decide +kernel
  obtain ⟨k₀, hk₀⟩ := Option.isSome_iff_exists.mp hsome
  have hexec : ((Kernel.launchAfter [.create 3 "a"]).bind fun k₀ =>
      exec (System.step fun _ => 0) (fun (σ : System Unit) a => System.SparesIdle 1 σ a)
        (System.init k₀ fun _ => 0)
        [.call (.task (.create 4 "b")), .call (.lock 0), .call (.task (.delay 2)), .call (.lock 0),
          .systick 1, .call (.task (.terminate 2)), .call (.unlock 0), .call (.task (.delay 1)),
          .proceed]).any (fun σ => σ.kernel.status 2 = .running) = true := by
    decide +kernel
  rw [hk₀, Option.bind_some] at hexec
  obtain ⟨tr, σ, hr, hσ⟩ := exists_run_of_exec (fun (σ : System Unit) (a : Action Unit)
    (h : decide (System.SparesIdle 1 σ a) = true) => of_decide_eq_true h) hexec
  obtain ⟨hready, htotal⟩ := (idle_stays_ready hk₀ he hr).2
  exact ⟨k₀, tr, σ, hk₀, he, hr, of_decide_eq_true hσ, hready, htotal⟩

end MosKernel
