import MosKernel.LockSpec

/-!
# Terminated tasks

`Task::terminate` takes the task off the scheduler lists and frees its identifier, but no object knows
whom it terminates: wait queues keep their entries and mutexes their owner.

`Within P` bounds from above who is mentioned anywhere; every step keeps the bound, up to the task it
creates.  So a task that a `terminate` erases stays erased until its identifier is allocated again, and
`Releasable` says exactly when `terminate` erases a task.
-/

namespace MosKernel

open OrderedInsert TaskList Transition Kernel

variable {T : Type} {cap : ℕ → ℕ} {σ σ' : System T} {a : Action T}

theorem TaskList.mem_of_mem_pushBack {l : TaskList} {t u : Tid}
    (h : u ∈ (l.kept (l.pushBack t)).tids) : u = t ∨ u ∈ l.tids := by
  by_cases hl : l.tids.length < taskMax
  · rw [(pushBack_of_lt hl).1, List.mem_append, List.mem_singleton] at h
    exact h.symm
  · have hfull : l.kept (l.pushBack t) = l := by simp [pushBack, hl, kept]
    rw [hfull] at h
    exact .inr h

/-- The identifier that a call gives a new task. -/
def TaskCall.creates (k : Kernel) : TaskCall → Option Tid
  | .create _ _ | .createRaw _ _ _ => k.allocTid.map Prod.fst
  | _ => none

namespace Kernel

variable {k k₁ k' : Kernel} {c t u : Tid} {b : Bool} {P : Tid → Prop}

/-- Only identifiers in `P` are alive, listed or running, and their control blocks carry them. -/
structure Within (k : Kernel) (P : Tid → Prop) : Prop where
  alive : ∀ t, k.status t ≠ .terminated → P t
  ready : ∀ t ∈ k.readyList.tids, P t
  sleeping : ∀ t ∈ k.sleepingList.tids, P t
  blocked : ∀ t ∈ k.blockedList.tids, P t
  tid : ∀ t, P t → (k.tcbs t).tid = t
  schedReady : k.schedReady = true
  current : ∀ t, k.currentTcbPtr = some t → P t

namespace Within

theorem crTid (h : k.Within P) (hcr : k.crTid = some t) : P t ∧ k.OnCpu t := by
  obtain ⟨p, hp, rfl⟩ := Option.map_eq_some_iff.mp hcr
  have htid := h.tid p (h.current p hp)
  rw [htid]
  exact ⟨h.current p hp, h.schedReady, hp, htid⟩

/-! ### Primitive writes -/

theorem setTcb {f : Tcb → Tcb} (h : k.Within P) (htid : (f (k.tcbs t)).tid = (k.tcbs t).tid)
    (hst : (f (k.tcbs t)).status ≠ .terminated → P t) : (k.setTcb t f).Within P := by
  refine ⟨fun u hu => ?_, h.ready, h.sleeping, h.blocked, fun u hu => ?_, h.schedReady, h.current⟩
  · rw [status_setTcb] at hu
    split_ifs at hu with hut
    · rw [hut]
      exact hst hu
    · exact h.alive u hu
  · rw [setTcb_tcbs, Function.update_apply]
    split_ifs with hut
    · rw [htid, ← hut]
      exact h.tid u hu
    · exact h.tid u hu

theorem readyRemove (h : k.Within P) (t : Tid) : (k.readyRemove t).Within P := by
  refine ⟨h.alive, fun u hu => h.ready u ?_, h.sleeping, h.blocked, h.tid, h.schedReady, h.current⟩
  rw [readyRemove_readyList, remove_tids] at hu
  exact List.mem_of_mem_erase hu

theorem readyInsert (h : k.Within P) (ht : P t) : (k.readyInsert t).Within P := by
  refine ⟨h.alive, fun u hu => ?_, h.sleeping, h.blocked, h.tid, h.schedReady, h.current⟩
  rw [readyInsert_readyList] at hu
  rcases mem_of_mem_insertInOrder hu with rfl | hu
  · exact ht
  · exact h.ready u hu

theorem sleepingRemove (h : k.Within P) (t : Tid) : (k.sleepingRemove t).Within P := by
  refine ⟨h.alive, h.ready, fun u hu => h.sleeping u ?_, h.blocked, h.tid, h.schedReady, h.current⟩
  rw [sleepingRemove_sleepingList, remove_tids] at hu
  exact List.mem_of_mem_erase hu

theorem sleepingInsert (h : k.Within P) (ht : P t) : (k.sleepingInsert t).Within P := by
  refine ⟨h.alive, h.ready, fun u hu => ?_, h.blocked, h.tid, h.schedReady, h.current⟩
  rw [sleepingInsert_sleepingList] at hu
  rcases mem_of_mem_insertInOrder hu with rfl | hu
  · exact ht
  · exact h.sleeping u hu

theorem blockedRemove (h : k.Within P) (t : Tid) : (k.blockedRemove t).Within P := by
  refine ⟨h.alive, h.ready, h.sleeping, fun u hu => h.blocked u ?_, h.tid, h.schedReady, h.current⟩
  rw [blockedRemove_blockedList, remove_tids] at hu
  exact List.mem_of_mem_erase hu

theorem blockedPush (h : k.Within P) (ht : P t) : (k.blockedPush t).Within P := by
  refine ⟨h.alive, h.ready, h.sleeping, fun u hu => ?_, h.tid, h.schedReady, h.current⟩
  rw [blockedPush_blockedList] at hu
  rcases mem_of_mem_pushBack hu with rfl | hu
  · exact ht
  · exact h.blocked u hu

theorem enqueue (h : k.Within P) (queue : TaskList) (t : Tid) : (k.enqueue queue t).1.Within P :=
  ⟨h.alive, h.ready, h.sleeping, h.blocked, h.tid, h.schedReady, h.current⟩

theorem enqueueBack (h : k.Within P) (queue : TaskList) (t : Tid) :
    (k.enqueueBack queue t).1.Within P :=
  ⟨h.alive, h.ready, h.sleeping, h.blocked, h.tid, h.schedReady, h.current⟩

theorem setStatus (h : k.Within P) (ht : P t) (st : TaskStatus) : (k.setStatus t st).Within P :=
  h.setTcb rfl fun _ => ht

theorem park (h : k.Within P) (ht : P t) : (k.park t).Within P :=
  (h.setStatus ht .blocked).readyRemove t

theorem wake (h : k.Within P) (ht : P t) : (k.wake t).Within P :=
  (h.setStatus ht .ready).readyInsert ht

theorem wakeAll {ts : List Tid} (h : k.Within P) (hts : ∀ t ∈ ts, P t) : (k.wakeAll ts).Within P := by
  induction ts generalizing k with
  | nil => exact h
  | cons t ts ih =>
      rw [List.forall_mem_cons] at hts
      exact ih (h.wake hts.1) hts.2

theorem freeTid (h : k.Within P) (t : Tid) : (k.freeTid t).Within P := by
  have hbit : (k.clearBit t).Within P :=
    ⟨h.alive, h.ready, h.sleeping, h.blocked, h.tid, h.schedReady, h.current⟩
  exact hbit.setTcb (t := t) (f := fun tcb => { tcb with status := .terminated }) rfl
    fun hne => absurd rfl hne

theorem boost (h : k.Within P) (ht : P t) (pri : ℕ) : (k.boost t pri).Within P := by
  rcases lt_or_ge pri (k.priority t) with hlt | hge
  · have hset : (k.setTcb t (raised pri)).Within P := h.setTcb rfl fun _ => ht
    rw [boost_of_lt hlt]
    split_ifs
    · exact (hset.readyRemove t).readyInsert ht
    · exact hset
  · rw [boost_of_le hge]
    exact h

theorem restore (h : k.Within P) (ht : P t) : (k.restore t).Within P := by
  unfold Kernel.restore
  split_ifs
  · exact h.setTcb rfl fun _ => ht
  · exact h

theorem rouse (h : k.Within P) (ht : P t) : (k.rouse t).Within P := by
  have hset : (k.setTcb t fun tcb =>
      { tcb with wakePoint := 0xFFFFFFFF, status := .ready }).Within P := h.setTcb rfl fun _ => ht
  exact (hset.sleepingRemove t).readyInsert ht

theorem sleep (h : k.Within P) (ht : P t) (ticks : BitVec 32) : (k.sleep t ticks).Within P := by
  have hset : (k.setTcb t fun tcb => { tcb with wakePoint := k.osTicks + ticks }).Within P :=
    h.setTcb rfl fun _ => ht
  exact (hset.park ht).sleepingInsert ht

/-! ### Scheduling -/

theorem wakeUpSleepers (h : k.Within P) : k.wakeUpSleepers.Within P := by
  refine wakeUpSleepers_induct (P := fun k' => k'.Within P) h fun k' t h hm _ => ?_
  have ht := h.sleeping t hm
  have hset : ((k'.sleepingRemove t).setTcb t fun tcb =>
      { tcb with status := .ready, wakePoint := 0 }).Within P :=
    (h.sleepingRemove t).setTcb rfl fun _ => ht
  exact hset.readyInsert ht

theorem requeue (h : k.Within P) (hc : P c) : (k.requeue c).Within P := by
  have hset : (k.setTcb c fun tcb =>
      { tcb with timeSlice := MosKernel.timeSlice, status := .ready }).Within P :=
    h.setTcb rfl fun _ => hc
  unfold Kernel.requeue
  split_ifs
  · exact h.readyRemove c
  · exact (hset.readyRemove c).readyInsert hc
  · exact h

theorem switchTo (h : k.Within P) (hc : P c) (ht : P t) : (k.switchTo c t).Within P := by
  have hrun : ∀ {k : Kernel}, k.Within P → ((k.setStatus t .running).setCurrent t).Within P := by
    intro k h
    have hset := h.setStatus ht .running
    refine ⟨hset.alive, hset.ready, hset.sleeping, hset.blocked, hset.tid, hset.schedReady, ?_⟩
    intro u hu
    cases hu
    exact ht
  unfold Kernel.switchTo
  dsimp only
  split_ifs
  · exact hrun (h.setStatus hc .ready)
  · exact hrun h
  · exact h

theorem nextTcb (h : k.Within P) (hk : k.nextTcb = some k') : k'.Within P := by
  obtain ⟨p, hcr, hk⟩ := Option.bind_eq_some_iff.mp hk
  obtain ⟨st, hfront, rfl⟩ := Option.map_eq_some_iff.mp hk
  have hp := (h.wakeUpSleepers.crTid hcr).1
  have hr := h.wakeUpSleepers.requeue hp
  exact hr.switchTo hp (hr.ready st (List.mem_of_mem_head? hfront))

theorem yieldTask (h : k.Within P) (hk : k.yieldTask = some k') :
    k'.Within P := by
  rw [Kernel.yieldTask, if_pos h.schedReady] at hk
  exact h.nextTcb hk

theorem yieldIf (h : k.Within P) (hk : k.yieldIf b = some k') :
    k'.Within P := by
  cases b with
  | false =>
      cases hk
      exact h
  | true => exact h.yieldTask hk

theorem tick {r : Bool} (h : k.Within P) (hk : k.systickTick = some (k', r)) :
    k'.Within P := by
  have hadv : k.advanceTicks.Within P :=
    ⟨h.alive, h.ready, h.sleeping, h.blocked, h.tid, h.schedReady, h.current⟩
  unfold systickTick at hk
  rw [h.schedReady] at hk
  simp only [Bool.not_true, Bool.false_eq_true, if_false] at hk
  obtain ⟨c, hcr, he⟩ := Option.map_eq_some_iff.mp hk
  cases he
  have hp := (hadv.crTid hcr).1
  unfold chargeSlice
  split_ifs
  · exact hadv.setTcb rfl fun _ => hp
  · exact hadv

theorem systickTrap {missed : ℕ} (h : k.Within P)
    (hk : k.systickTrap missed = some k') : k'.Within P := by
  have hreplay : ∀ {k' : Kernel} {r : Bool}, k.systickReplay missed = some (k', r) →
      k'.Within P := by
    clear hk
    induction missed with
    | zero => exact h.tick
    | succ missed ih =>
        intro k' r hk
        obtain ⟨⟨k₁, r₁⟩, hk₁, hk⟩ := Option.bind_eq_some_iff.mp hk
        obtain ⟨⟨k₂, r₂⟩, hk₂, hk⟩ := Option.bind_eq_some_iff.mp hk
        cases hk
        exact (ih hk₁).tick hk₂
  obtain ⟨⟨k₁, r⟩, hk₁, hk⟩ := Option.bind_eq_some_iff.mp hk
  exact (hreplay hk₁).yieldIf hk

/-! ### `Task` operations -/

theorem exitCurrent (h : k.Within P) (hk : k.exitCurrent = some k') :
    k'.Within P := by
  obtain ⟨c, -, hk⟩ := Option.bind_eq_some_iff.mp hk
  exact ((h.readyRemove c).freeTid c).yieldTask hk

theorem block (h : k.Within P) (hk : k.block t = some k') :
    k'.Within P := by
  have hlive : k.status t ≠ .terminated → ((k.park t).blockedPush t).Within P := fun hne =>
    (h.park (h.alive t hne)).blockedPush (h.alive t hne)
  unfold Kernel.block at hk
  split at hk
  · exact (hlive (by simp [*])).yieldTask hk
  · exact (hlive (by simp [*])).yieldTask hk
  · cases hk
    exact h

theorem resume (h : k.Within P) (hk : k.resume t = some k') :
    k'.Within P := by
  unfold Kernel.resume at hk
  split_ifs at hk with hst hm
  · cases hk
    exact h
  · have hw : ((k.blockedRemove t).wake t).Within P :=
      (h.blockedRemove t).wake (h.blocked t hm)
    dsimp only at hk
    split at hk
    · split_ifs at hk
      · exact hw.yieldTask hk
      · cases hk
        exact hw
    · cases hk
      exact hw
  · cases hk
    exact h

theorem terminate (h : k.Within P) (hk : k.terminate t = some k') :
    k'.Within P := by
  unfold Kernel.terminate at hk
  split_ifs at hk
  · cases hk
    exact h
  · exact ((((h.readyRemove t).sleepingRemove t).blockedRemove t).freeTid t).yieldTask hk

theorem delay {ticks : BitVec 32} (h : k.Within P) (hk : k.delay ticks = some k') :
    k'.Within P := by
  unfold Kernel.delay at hk
  split_ifs at hk
  · cases hk
    exact h
  · obtain ⟨c, hcr, hk⟩ := Option.bind_eq_some_iff.mp hk
    exact (h.sleep (h.crTid hcr).1 ticks).yieldTask hk

/-- Nobody joins. -/
theorem or_none {new : Option Tid} (hn : new = none) (h : k.Within P) :
    k.Within fun u => P u ∨ new = some u := by
  have hP : (fun u => P u ∨ new = some u) = P := by
    funext u
    simp [hn]
  rw [hP]
  exact h

/-- A new task joins. -/
theorem addTask (h : k.Within P) (ha : k.allocTid = some (t, k₁)) (p : ℕ) (name : String) :
    (k₁.addTask t p name).Within fun u => P u ∨ k.allocTid.map Prod.fst = some u := by
  have hP : (fun u => P u ∨ k.allocTid.map Prod.fst = some u) = fun u => P u ∨ u = t := by
    funext u
    rw [ha, Option.map_some, Option.some.injEq]
    exact propext (or_congr_right eq_comm)
  rw [hP]
  obtain ⟨-, rfl⟩ := allocTid_eq_some ha
  refine ⟨fun u hu => ?_, fun u hu => ?_, fun u hu => .inl (h.sleeping u hu),
    fun u hu => .inl (h.blocked u hu), fun u hu => ?_, h.schedReady, fun u hu => .inl (h.current u hu)⟩
  · by_cases hut : u = t
    · exact .inr hut
    · rw [Kernel.addTask, status_readyInsert, status_setTcb, if_neg hut] at hu
      have hold : (Function.update k.tcbs t (.empty t) u).status ≠ .terminated := hu
      rw [Function.update_of_ne hut] at hold
      exact .inl (h.alive u hold)
  · rw [Kernel.addTask, readyInsert_readyList] at hu
    rcases mem_of_mem_insertInOrder hu with rfl | hu
    · exact .inr rfl
    · exact .inl (h.ready u hu)
  · simp only [Kernel.addTask, readyInsert_tcbs, setTcb_tcbs, Function.update_apply]
    split_ifs with hut
    · exact hut.symm
    · exact h.tid u (hu.resolve_right hut)

theorem create {p : ℕ} {name : String} {r : Except String Tid} (h : k.Within P)
    (hk : k.create p name = some (k', r)) :
    k'.Within fun u => P u ∨ k.allocTid.map Prod.fst = some u := by
  unfold Kernel.create at hk
  split at hk
  · rename_i ha
    cases hk
    exact or_none (by rw [ha]; rfl) h
  · rename_i t k₁ ha
    have hadd := h.addTask ha p name
    obtain ⟨k₂, hk₂, he⟩ := Option.map_eq_some_iff.mp hk
    cases he
    split at hk₂
    · split_ifs at hk₂
      · exact hadd.yieldTask hk₂
      · cases hk₂
        exact hadd
    · cases hk₂
      exact hadd

theorem createRaw {p size : ℕ} {name : String} {r : Except String Tid} (h : k.Within P)
    (hk : k.createRaw p name size = some (k', r)) :
    k'.Within fun u => P u ∨ k.allocTid.map Prod.fst = some u := by
  unfold Kernel.createRaw at hk
  split at hk
  · rename_i ha
    cases hk
    exact or_none (by rw [ha]; rfl) h
  · rename_i t k₁ ha
    dsimp only at hk
    split_ifs at hk
    cases hk
    exact h.addTask ha p name

/-- **A call of `Task`'s interface mentions nobody new but the task it creates.** -/
theorem exec {c : TaskCall} {new : Option Tid} (h : k.Within P)
    (hk : c.exec k = some (k', new)) :
    k'.Within fun u => P u ∨ c.creates k = some u := by
  cases c with
  | create p name =>
      obtain ⟨r, hr, he⟩ := Option.map_eq_some_iff.mp hk
      cases he
      exact h.create hr
  | createRaw p name size =>
      obtain ⟨r, hr, he⟩ := Option.map_eq_some_iff.mp hk
      cases he
      exact h.createRaw hr
  | exitCurrent =>
      obtain ⟨k₁, hk₁, he⟩ := Option.map_eq_some_iff.mp hk
      cases he
      exact or_none rfl (h.exitCurrent hk₁)
  | block t =>
      obtain ⟨k₁, hk₁, he⟩ := Option.map_eq_some_iff.mp hk
      cases he
      exact or_none rfl (h.block hk₁)
  | resume t =>
      obtain ⟨k₁, hk₁, he⟩ := Option.map_eq_some_iff.mp hk
      cases he
      exact or_none rfl (h.resume hk₁)
  | terminate t =>
      obtain ⟨k₁, hk₁, he⟩ := Option.map_eq_some_iff.mp hk
      cases he
      exact or_none rfl (h.terminate hk₁)
  | delay ticks =>
      obtain ⟨k₁, hk₁, he⟩ := Option.map_eq_some_iff.mp hk
      cases he
      exact or_none rfl (h.delay hk₁)
  | yieldTask =>
      obtain ⟨k₁, hk₁, he⟩ := Option.map_eq_some_iff.mp hk
      cases he
      exact or_none rfl (h.yieldTask hk₁)

end Within

/-! ### Who is erased by a switch -/

/-- The kernel knows nothing of `t` any more. -/
structure Erased (k : Kernel) (t : Tid) : Prop where
  status : k.status t = .terminated
  ready : t ∉ k.readyList.tids
  sleeping : t ∉ k.sleepingList.tids
  blocked : t ∉ k.blockedList.tids
  current : k.currentTcbPtr ≠ some t

/-- A task that does not sleep is not touched by `wake_up_sleepers`. -/
theorem wakeUpSleepers_of_notMem (ht : t ∉ k.sleepingList.tids) :
    t ∉ k.wakeUpSleepers.sleepingList.tids ∧ k.wakeUpSleepers.status t = k.status t ∧
      k.wakeUpSleepers.readyList.tids.count t = k.readyList.tids.count t := by
  refine wakeUpSleepers_induct (P := fun k' => t ∉ k'.sleepingList.tids ∧
    k'.status t = k.status t ∧ k'.readyList.tids.count t = k.readyList.tids.count t)
    ⟨ht, rfl, rfl⟩ ?_
  rintro k' u ⟨hs, hst, hr⟩ hu -
  have hne : t ≠ u := by
    rintro rfl
    exact hs hu
  refine ⟨?_, ?_, ?_⟩
  · intro hm
    rw [expire, readyInsert_sleepingList, setTcb_sleepingList, sleepingRemove_sleepingList,
      remove_tids] at hm
    exact hs (List.mem_of_mem_erase hm)
  · rw [expire, status_readyInsert, status_setTcb, if_neg hne]
    exact hst
  · rw [expire, count_readyInsert_of_ne _ hne]
    exact hr

/-- A sleeping task goes on sleeping or becomes ready. -/
theorem wakeUpSleepers_of_mem (ht : t ∈ k.sleepingList.tids) :
    t ∈ k.wakeUpSleepers.sleepingList.tids ∨ k.wakeUpSleepers.status t = .ready := by
  refine wakeUpSleepers_induct (P := fun k' => t ∈ k'.sleepingList.tids ∨ k'.status t = .ready)
    (.inl ht) fun k' u h _ _ => ?_
  by_cases htu : t = u
  · right
    rw [expire, status_readyInsert, status_setTcb, if_pos htu]
  · rcases h with hm | hst
    · left
      rw [expire, readyInsert_sleepingList, setTcb_sleepingList, sleepingRemove_sleepingList,
        remove_tids]
      exact (List.mem_erase_of_ne htu).mpr hm
    · right
      rw [expire, status_readyInsert, status_setTcb, if_neg htu]
      exact hst

/-- The second half of `next_tcb` ends nobody. -/
theorem alive_requeue (h : k.status t ≠ .terminated) : (k.requeue c).status t ≠ .terminated := by
  unfold requeue
  split_ifs
  · exact h
  · rw [status_readyInsert, status_readyRemove, status_setTcb]
    split_ifs
    · exact TaskStatus.noConfusion
    · exact h
  · exact h

theorem alive_switchTo (h : k.status u ≠ .terminated) : (k.switchTo c t).status u ≠ .terminated := by
  have hset : ∀ {k : Kernel} {st : TaskStatus} (t : Tid), st ≠ .terminated →
      k.status u ≠ .terminated → (k.setStatus t st).status u ≠ .terminated := by
    intro k st t hst hk
    rw [setStatus, status_setTcb]
    split_ifs
    · exact hst
    · exact hk
  unfold switchTo
  dsimp only
  split_ifs
  · exact hset t (by decide) (hset c (by decide) h)
  · exact hset t (by decide) h
  · exact h

/-- What the second half of `next_tcb` does to a task that has ended. -/
theorem requeue_of_terminated (hst : k.status t = .terminated) :
    (k.requeue c).status t = .terminated ∧
      (k.requeue c).readyList.tids.count t =
        if c = t then k.readyList.tids.count t - 1 else k.readyList.tids.count t := by
  by_cases hct : c = t
  · subst hct
    rw [requeue, if_pos (.inl hst), if_pos rfl, readyRemove_readyList, remove_tids,
      List.count_erase_self]
    exact ⟨hst, rfl⟩
  · have htc : t ≠ c := Ne.symm hct
    rw [if_neg hct]
    unfold requeue
    split_ifs
    · rw [readyRemove_readyList, remove_tids, List.count_erase_of_ne htc]
      exact ⟨hst, rfl⟩
    · rw [count_readyInsert_of_ne _ htc, readyRemove_readyList, remove_tids,
        List.count_erase_of_ne htc, status_readyInsert, status_readyRemove, status_setTcb,
        if_neg htc]
      exact ⟨hst, rfl⟩
    · exact ⟨hst, rfl⟩

theorem status_switchTo_of_ne (h : u ≠ t) (hst : k.status u = .terminated) :
    (k.switchTo c t).status u = .terminated := by
  unfold switchTo
  dsimp only
  split_ifs with hne hrun
  · have huc : u ≠ c := by
      rintro rfl
      rw [hst] at hrun
      cases hrun
    rw [status_setCurrent, setStatus, status_setTcb, if_neg h, setStatus, status_setTcb, if_neg huc]
    exact hst
  · rw [status_setCurrent, setStatus, status_setTcb, if_neg h]
    exact hst
  · exact hst

/-- **What a switch erases.**  A task that has ended is gone after the switch exactly when no list
mentions it, `READY_LIST` apart if it is the one that is switched from. -/
theorem erased_nextTcb (ho : k.OnCpu c) (hst : k.status t = .terminated)
    (hk : k.nextTcb = some k') : k'.Erased t ↔
      k.readyList.tids.count t ≤ (if c = t then 1 else 0) ∧ t ∉ k.sleepingList.tids ∧
        t ∉ k.blockedList.tids := by
  have hblocked := blockedList_nextTcb ho hk
  obtain ⟨st, hfront, rfl⟩ := nextTcb_eq_some ho hk
  have hmem : st ∈ (k.wakeUpSleepers.requeue c).readyList.tids := List.mem_of_mem_head? hfront
  have hsleep : ((k.wakeUpSleepers.requeue c).switchTo c st).sleepingList =
      k.wakeUpSleepers.sleepingList := by
    rw [sleepingList_switchTo, sleepingList_requeue]
  constructor
  · intro h
    have hns : t ∉ k.sleepingList.tids := by
      intro hm
      rcases wakeUpSleepers_of_mem hm with hm | hready
      · exact h.sleeping (hsleep ▸ hm)
      · refine alive_switchTo (alive_requeue ?_) h.status
        rw [hready]
        exact TaskStatus.noConfusion
    obtain ⟨-, hst', hcount⟩ := wakeUpSleepers_of_notMem hns
    have hc := (requeue_of_terminated (c := c) (hst'.trans hst)).2
    have hnr := h.ready
    rw [readyList_switchTo, ← List.count_eq_zero, hc, hcount] at hnr
    refine ⟨?_, hns, hblocked ▸ h.blocked⟩
    split_ifs at hnr ⊢ <;> omega
  · rintro ⟨hr, hns, hnb⟩
    obtain ⟨hns', hst', hcount⟩ := wakeUpSleepers_of_notMem hns
    obtain ⟨hq, hc⟩ := requeue_of_terminated (c := c) (hst'.trans hst)
    have hnr : t ∉ (k.wakeUpSleepers.requeue c).readyList.tids := by
      rw [← List.count_eq_zero, hc, hcount]
      split_ifs at hr ⊢ <;> omega
    have hne : t ≠ st := by
      rintro rfl
      exact hnr hmem
    refine ⟨status_switchTo_of_ne hne hq, ?_, hsleep ▸ hns', hblocked ▸ hnb, ?_⟩
    · rw [readyList_switchTo]
      exact hnr
    · rw [currentTcbPtr_switchTo]
      · exact fun he => hne (Option.some.inj he).symm
      · rw [currentTcbPtr_requeue, currentTcbPtr_wakeUpSleepers]
        exact ho.current

end Kernel

/-! ### Sections on the objects -/

section Objects

variable {k : Kernel} {t u cr : Tid} {P : Tid → Prop}

/-- The waiters of a list are in `P`. -/
def TaskList.Within (l : TaskList) (P : Tid → Prop) : Prop := ∀ t ∈ l.tids, P t

structure MutexInner.Within (inner : MutexInner) (P : Tid → Prop) : Prop where
  owner : ∀ t, inner.owner = some t → P t
  waitQueue : inner.waitQueue.Within P

structure MsgQueueInner.Within (inner : MsgQueueInner T) (P : Tid → Prop) : Prop where
  senders : inner.senders.Within P
  receivers : inner.receivers.Within P

theorem TaskList.Within.popFront {l l' : TaskList} (h : l.Within P) (hp : l.popFront = some (t, l')) :
    P t ∧ l'.Within P := by
  have hl := popFront_eq_some.mp hp
  refine ⟨h t ?_, fun u hu => h u ?_⟩
  · rw [hl]
    exact List.mem_cons_self
  · rw [hl]
    exact List.mem_cons_of_mem t hu

theorem TaskList.Within.remove {l : TaskList} (h : l.Within P) (t : Tid) : (l.remove t).Within P := by
  intro u hu
  rw [remove_tids] at hu
  exact h u (List.mem_of_mem_erase hu)

theorem TaskList.Within.enqueue {queue : TaskList} (h : queue.Within P) (k : Kernel) (ht : P t) :
    (k.enqueue queue t).2.Within P := by
  intro u hu
  rcases mem_of_mem_insertInOrder hu with rfl | hu
  · exact ht
  · exact h u hu

theorem TaskList.Within.enqueueBack {queue : TaskList} (h : queue.Within P) (k : Kernel) (ht : P t) :
    (k.enqueueBack queue t).2.Within P := by
  intro u hu
  rcases mem_of_mem_pushBack hu with rfl | hu
  · exact ht
  · exact h u hu

namespace Kernel.Within

theorem semaDown {i : SemaInner} (h : k.Within P) (hi : i.waitQueue.Within P) (ht : P t) :
    (i.down k t).kernel.Within P ∧ (i.down k t).inner.waitQueue.Within P := by
  by_cases hneg : wrapI32 (i.count - 1) < 0
  · rw [SemaInner.down_of_neg hneg]
    exact ⟨(h.park ht).enqueue i.waitQueue t, hi.enqueue (k.park t) ht⟩
  · rw [SemaInner.down_of_nonneg hneg]
    exact ⟨h, hi⟩

theorem semaUp {i : SemaInner} (h : k.Within P) (hi : i.waitQueue.Within P) :
    (i.up k).kernel.Within P ∧ (i.up k).inner.waitQueue.Within P := by
  unfold SemaInner.up
  split
  · rename_i t queue hw
    unfold SemaInner.woken at hw
    split_ifs at hw
    obtain ⟨ht, hq⟩ := hi.popFront hw
    exact ⟨h.wake ht, hq⟩
  · exact ⟨h, hi⟩

theorem semaTryDown {i : SemaInner} (hi : i.waitQueue.Within P) : i.tryDown.1.waitQueue.Within P := by
  unfold SemaInner.tryDown
  split_ifs
  · exact hi
  · exact hi

theorem downTimeoutBlock {i : SemaInner} (h : k.Within P) (hi : i.waitQueue.Within P) (ht : P t)
    (ticks : BitVec 32) : (i.downTimeoutBlock k t ticks).kernel.Within P ∧
      (i.downTimeoutBlock k t ticks).inner.waitQueue.Within P := by
  have hset : (((k.park t).enqueue i.waitQueue t).1.setTcb t fun tcb =>
      { tcb with wakePoint := (k.park t).osTicks + ticks }).Within P :=
    ((h.park ht).enqueue i.waitQueue t).setTcb rfl fun _ => ht
  exact ⟨hset.sleepingInsert ht, hi.enqueue (k.park t) ht⟩

theorem mutexLock {i : MutexInner} (h : k.Within P) (hi : i.Within P) (ht : P t) :
    (i.lock k t).kernel.Within P ∧ (i.lock k t).inner.Within P := by
  unfold MutexInner.lock
  split_ifs
  · exact ⟨h, hi.owner, hi.waitQueue⟩
  · split
    · rename_i o ho
      exact ⟨((h.boost (hi.owner o ho) _).park ht).enqueue i.waitQueue t, hi.owner,
        hi.waitQueue.enqueue _ ht⟩
    · refine ⟨h, fun u hu => ?_, hi.waitQueue⟩
      cases hu
      exact ht

theorem mutexUnlock {i : MutexInner} (h : k.Within P) (hi : i.Within P) (ht : P t) :
    (i.unlock k t).kernel.Within P ∧ (i.unlock k t).inner.Within P := by
  unfold MutexInner.unlock
  dsimp only
  split_ifs
  · exact ⟨h, hi.owner, hi.waitQueue⟩
  · split
    · rename_i w queue hw
      obtain ⟨hpw, hq⟩ := hi.waitQueue.popFront hw
      refine ⟨(h.restore ht).wake hpw, fun u hu => ?_, hq⟩
      cases hu
      exact hpw
    · refine ⟨h.restore ht, fun u hu => ?_, hi.waitQueue⟩
      cases hu

theorem condNotify {queue : TaskList} (h : k.Within P) (hq : queue.Within P) :
    (condNotify queue k).kernel.Within P ∧ (condNotify queue k).inner.Within P := by
  unfold MosKernel.condNotify
  split
  · rename_i t rest hp
    obtain ⟨ht, hr⟩ := hq.popFront hp
    exact ⟨h.wake ht, hr⟩
  · exact ⟨h, hq⟩

theorem tryWakeUp {queue : TaskList} (h : k.Within P) (hq : queue.Within P) (cr : Tid) :
    (tryWakeUp queue k cr).kernel.Within P ∧ (tryWakeUp queue k cr).inner.Within P := by
  unfold MosKernel.tryWakeUp
  split
  · rename_i t rest hp
    obtain ⟨ht, hr⟩ := hq.popFront hp
    exact ⟨h.rouse ht, hr⟩
  · exact ⟨h, hq⟩

end Kernel.Within

end Objects

namespace System

variable {cr t : Tid} {P : Tid → Prop}

/-- Only identifiers in `P` are mentioned anywhere. -/
structure Within (σ : System T) (P : Tid → Prop) : Prop where
  kernel : σ.kernel.Within P
  semas : ∀ s, (σ.semas s).waitQueue.Within P
  mutexes : ∀ m, (σ.mutexes m).Within P
  condVars : ∀ c, (σ.condVars c).Within P
  msgQueues : ∀ q, (σ.msgQueues q).Within P

namespace Within

theorem setKernel {k : Kernel} (h : σ.Within P) (hk : k.Within P) : (σ.setKernel k).Within P :=
  ⟨hk, h.semas, h.mutexes, h.condVars, h.msgQueues⟩

theorem putSema {r : CsResult SemaInner} (h : σ.Within P)
    (hr : r.kernel.Within P ∧ r.inner.waitQueue.Within P) (s : ℕ) : (σ.putSema s r).Within P := by
  have hsemas : ∀ n, (Function.update σ.semas s r.inner n).waitQueue.Within P :=
    (Function.forall_update_iff σ.semas fun _ (i : SemaInner) => i.waitQueue.Within P).mpr
      ⟨hr.2, fun n _ => h.semas n⟩
  exact ⟨hr.1, hsemas, h.mutexes, h.condVars, h.msgQueues⟩

theorem putMutex {r : CsResult MutexInner} (h : σ.Within P)
    (hr : r.kernel.Within P ∧ r.inner.Within P) (m : ℕ) : (σ.putMutex m r).Within P := by
  have hmutexes : ∀ n, (Function.update σ.mutexes m r.inner n).Within P :=
    (Function.forall_update_iff σ.mutexes fun _ (i : MutexInner) => i.Within P).mpr
      ⟨hr.2, fun n _ => h.mutexes n⟩
  exact ⟨hr.1, h.semas, hmutexes, h.condVars, h.msgQueues⟩

theorem putCondVar {r : CsResult TaskList} (h : σ.Within P)
    (hr : r.kernel.Within P ∧ r.inner.Within P) (c : ℕ) : (σ.putCondVar c r).Within P := by
  have hcondVars : ∀ n, (Function.update σ.condVars c r.inner n).Within P :=
    (Function.forall_update_iff σ.condVars fun _ (l : TaskList) => l.Within P).mpr
      ⟨hr.2, fun n _ => h.condVars n⟩
  exact ⟨hr.1, h.semas, h.mutexes, hcondVars, h.msgQueues⟩

theorem putMsgQueue {r : CsResult (MsgQueueInner T)} (h : σ.Within P)
    (hr : r.kernel.Within P ∧ r.inner.Within P) (q : ℕ) : (σ.putMsgQueue q r).Within P := by
  have hmsgQueues : ∀ n, (Function.update σ.msgQueues q r.inner n).Within P :=
    (Function.forall_update_iff σ.msgQueues fun _ (i : MsgQueueInner T) => i.Within P).mpr
      ⟨hr.2, fun n _ => h.msgQueues n⟩
  exact ⟨hr.1, h.semas, h.mutexes, h.condVars, hmsgQueues⟩

theorem setPc (h : σ.Within P) (t : Tid) (pc : Pc T) : (σ.setPc t pc).Within P :=
  ⟨h.kernel, h.semas, h.mutexes, h.condVars, h.msgQueues⟩

theorem log (h : σ.Within P) (e : Event T) : (σ.log e).Within P :=
  ⟨h.kernel, h.semas, h.mutexes, h.condVars, h.msgQueues⟩

theorem setGuards (h : σ.Within P) (t : Tid) (m n : ℕ) : (σ.setGuards t m n).Within P :=
  ⟨h.kernel, h.semas, h.mutexes, h.condVars, h.msgQueues⟩

theorem yieldIf {b : Bool} (h : σ.Within P) (hs : σ.yieldIf b = some σ') : σ'.Within P := by
  obtain ⟨k, hk, rfl⟩ := yieldIf_eq_some hs
  exact h.setKernel (h.kernel.yieldIf hk)

theorem task {c : TaskCall} (h : σ.Within P) (hs : σ.task c = some σ') :
    σ'.Within fun u => P u ∨ c.creates σ.kernel = some u := by
  obtain ⟨⟨k, new⟩, hr, rfl⟩ := Option.map_eq_some_iff.mp hs
  have hk := h.kernel.exec hr
  have hq : ∀ {l : TaskList}, l.Within P → l.Within fun u => P u ∨ c.creates σ.kernel = some u :=
    fun hl t ht => .inl (hl t ht)
  have hall : (σ.setKernel k).Within fun u => P u ∨ c.creates σ.kernel = some u :=
    ⟨hk, fun s => hq (h.semas s),
      fun m => ⟨fun t ht => .inl ((h.mutexes m).owner t ht), hq (h.mutexes m).waitQueue⟩,
      fun c => hq (h.condVars c), fun q => ⟨hq (h.msgQueues q).senders, hq (h.msgQueues q).receivers⟩⟩
  cases new with
  | none => exact hall
  | some t => exact ⟨hall.kernel, hall.semas, hall.mutexes, hall.condVars, hall.msgQueues⟩

theorem lock (h : σ.Within P) (hcr : P cr) {m : ℕ} (hs : σ.lock cr m = some σ') : σ'.Within P := by
  have hput := h.putMutex (h.kernel.mutexLock (h.mutexes m) hcr) m
  unfold System.lock at hs
  dsimp only at hs
  split_ifs at hs
  · exact (hput.setPc cr _).yieldIf hs
  · exact ((hput.setGuards cr m _).setPc cr .user).yieldIf hs

theorem commitSend {q : ℕ} {msg : T} (h : σ.Within P) (hs : σ.commitSend cap cr q msg = some σ') :
    σ'.Within P := by
  have hpush : ((σ.msgQueues q).push (cap q) msg).Within P := by
    unfold MsgQueueInner.push
    split_ifs
    · exact ⟨(h.msgQueues q).senders, (h.msgQueues q).receivers⟩
    · exact h.msgQueues q
  obtain ⟨hk, hl⟩ := h.kernel.tryWakeUp hpush.receivers cr
  have hput := h.putMsgQueue
    (r := (σ.msgQueues q).commitSend (cap q) σ.kernel cr msg) ⟨hk, hpush.senders, hl⟩ q
  exact ((hput.log _).setPc cr .user).yieldIf hs

theorem commitRecv {q : ℕ} (h : σ.Within P) (hs : σ.commitRecv cap cr q = some σ') :
    σ'.Within P := by
  obtain ⟨⟨msg, r⟩, hr, hs⟩ := Option.bind_eq_some_iff.mp hs
  obtain ⟨-, rfl⟩ := MsgQueueInner.commitRecv_eq_some hr
  obtain ⟨hk, hl⟩ := h.kernel.tryWakeUp (h.msgQueues q).senders cr
  refine (((h.putMsgQueue ?_ q).log _).setPc cr .user).yieldIf hs
  exact ⟨hk, hl, (h.msgQueues q).receivers⟩

theorem delay {ticks : BitVec 32} (h : σ.Within P) (hs : σ.delay ticks = some σ') : σ'.Within P := by
  obtain ⟨k, hk, rfl⟩ := Option.map_eq_some_iff.mp hs
  exact h.setKernel (h.kernel.delay hk)

/-- A call other than one of `Task`'s. -/
theorem call {c : Call T} (h : σ.Within P) (hcr : P cr) (hs : σ.call cap cr c = some σ')
    (htask : ∀ c', c ≠ .task c') : σ'.Within P := by
  cases c with
  | task c' => exact absurd rfl (htask c')
  | down s =>
      have hput := h.putSema (h.kernel.semaDown (h.semas s) hcr) s
      unfold System.call System.down at hs
      dsimp only at hs
      split_ifs at hs
      · exact (hput.setPc cr _).yieldIf hs
      · exact (hput.log _).yieldIf hs
  | downTimeout s ticks =>
      have hput := h.putSema (r := ⟨σ.kernel, (σ.semas s).tryDown.1, false⟩)
        ⟨h.kernel, Kernel.Within.semaTryDown (h.semas s)⟩ s
      cases hs
      unfold System.downTimeout
      dsimp only
      split_ifs
      · exact hput.log _
      · exact hput
      · exact hput.setPc cr _
  | tryDown s =>
      have hput := h.putSema (r := ⟨σ.kernel, (σ.semas s).tryDown.1, false⟩)
        ⟨h.kernel, Kernel.Within.semaTryDown (h.semas s)⟩ s
      cases hs
      unfold System.tryDown
      dsimp only
      split_ifs
      · exact hput.log _
      · exact hput
  | up s =>
      exact ((h.putSema (h.kernel.semaUp (h.semas s)) s).log _).yieldIf hs
  | lock m =>
      unfold System.call at hs
      dsimp only at hs
      split_ifs at hs
      exact h.lock hcr hs
  | unlock m =>
      unfold System.call at hs
      dsimp only at hs
      split_ifs at hs
      have hput := h.putMutex (h.kernel.mutexUnlock (h.mutexes m) hcr) m
      exact (hput.setGuards cr m _).yieldIf hs
  | wait c m =>
      unfold System.call at hs
      dsimp only at hs
      split_ifs at hs
      have hw := h.putCondVar (r := ⟨_, _, false⟩) ⟨h.kernel.enqueueBack (σ.condVars c) cr,
        (h.condVars c).enqueueBack σ.kernel hcr⟩ c
      have hput := hw.putMutex ((hw.kernel.park hcr).mutexUnlock (hw.mutexes m) hcr) m
      exact ((hput.setGuards cr m _).setPc cr _).yieldIf hs
  | notify c => exact (h.putCondVar (h.kernel.condNotify (h.condVars c)) c).yieldIf hs
  | notifyAll c =>
      have hput := h.putCondVar (r := condNotifyAll (σ.condVars c) σ.kernel)
        ⟨h.kernel.wakeAll (h.condVars c), fun t ht => nomatch ht⟩ c
      exact hput.yieldIf hs
  | send q msg timeout =>
      have hlog := h.log (.sendCalled q cr msg)
      unfold System.call System.send at hs
      dsimp only at hs
      split_ifs at hs
      · exact hlog.commitSend hs
      · cases hs
        exact (hlog.log _).setPc cr .user
      · cases hs
        exact hlog.setPc cr _
  | recv q timeout =>
      have hlog := h.log (.recvCalled q cr)
      unfold System.call System.recv at hs
      dsimp only at hs
      split_ifs at hs
      · exact hlog.commitRecv hs
      · cases hs
        exact (hlog.log _).setPc cr .user
      · cases hs
        exact hlog.setPc cr _

/-- The next section of a pending call. -/
theorem proceed (h : σ.Within P) (hcr : P cr) (hs : σ.proceed cap cr = some σ') : σ'.Within P := by
  unfold System.proceed at hs
  split at hs
  · cases hs
  · cases hs
    exact (h.log _).setPc cr .user
  · rename_i s ticks _
    have hput := h.putSema (h.kernel.downTimeoutBlock (h.semas s) hcr ticks) s
    exact (hput.setPc cr _).yieldIf hs
  · rename_i s _
    have hcheck : ((σ.semas s).downTimeoutCheck cr).1.waitQueue.Within P := by
      unfold SemaInner.downTimeoutCheck
      split_ifs
      · exact (h.semas s).remove cr
      · exact h.semas s
    have hput := h.putSema (r := ⟨σ.kernel, ((σ.semas s).downTimeoutCheck cr).1, false⟩)
      ⟨h.kernel, hcheck⟩ s
    cases hs
    unfold System.downTimeoutCheck
    dsimp only
    split_ifs
    · exact (hput.log _).setPc cr .user
    · exact hput.setPc cr .user
  · cases hs
    exact (h.setGuards cr _ _).setPc cr .user
  · exact (h.setPc cr _).yieldIf hs
  · exact h.lock hcr hs
  · rename_i q msg timeout _
    cases hs
    refine setPc (h.putMsgQueue ?_ q) cr _
    exact ⟨h.kernel.enqueue (σ.msgQueues q).senders cr,
      (h.msgQueues q).senders.enqueue σ.kernel hcr, (h.msgQueues q).receivers⟩
  · exact (h.setPc cr _).delay hs
  · rename_i q msg _
    have hput := h.putMsgQueue (r := ⟨σ.kernel,
        { σ.msgQueues q with senders := (σ.msgQueues q).senders.remove cr }, false⟩)
      ⟨h.kernel, (h.msgQueues q).senders.remove cr, (h.msgQueues q).receivers⟩ q
    cases hs
    unfold System.sendCheck
    dsimp only
    split_ifs
    · exact (hput.log _).setPc cr .user
    · exact h.setPc cr _
  · split_ifs at hs
    · exact h.commitSend hs
    · cases hs
      exact (h.log _).setPc cr .user
  · rename_i q timeout _
    cases hs
    refine setPc (h.putMsgQueue ?_ q) cr _
    exact ⟨h.kernel.enqueue (σ.msgQueues q).receivers cr, (h.msgQueues q).senders,
      (h.msgQueues q).receivers.enqueue σ.kernel hcr⟩
  · exact (h.setPc cr _).delay hs
  · rename_i q _
    have hput := h.putMsgQueue (r := ⟨σ.kernel,
        { σ.msgQueues q with receivers := (σ.msgQueues q).receivers.remove cr }, false⟩)
      ⟨h.kernel, (h.msgQueues q).senders, (h.msgQueues q).receivers.remove cr⟩ q
    cases hs
    unfold System.recvCheck
    dsimp only
    split_ifs
    · exact (hput.log _).setPc cr .user
    · exact h.setPc cr _
  · split_ifs at hs
    · exact h.commitRecv hs
    · cases hs
      exact (h.log _).setPc cr .user

end Within

end System

/-- The identifier that an action gives a new task. -/
def Action.creates (σ : System T) : Action T → Option Tid
  | .call (.task c) => c.creates σ.kernel
  | _ => none

namespace System

variable {cr t : Tid} {P : Tid → Prop}

/-- **A step mentions nobody new but the task it creates.** -/
theorem Within.step (h : σ.Within P) (hs : σ.step cap a = some σ') :
    σ'.Within fun u => P u ∨ a.creates σ = some u := by
  have hno : ∀ {σ' : System T} {new : Option Tid}, new = none → σ'.Within P →
      σ'.Within fun u => P u ∨ new = some u := by
    intro σ' new hn h
    have hP : (fun u => P u ∨ new = some u) = P := by
      funext u
      simp [hn]
    rw [hP]
    exact h
  cases a with
  | systick missed =>
      obtain ⟨k, hk, rfl⟩ := Option.map_eq_some_iff.mp hs
      exact hno rfl (h.setKernel (h.kernel.systickTrap hk))
  | preempt => exact hno rfl (h.yieldIf hs)
  | upFromIsr s =>
      have hput := h.putSema (h.kernel.semaUp (h.semas s)) s
      cases hs
      exact hno rfl ⟨hput.kernel, hput.semas, hput.mutexes, hput.condVars, hput.msgQueues⟩
  | call c =>
      obtain ⟨cr, hcr, hs⟩ := Option.bind_eq_some_iff.mp hs
      split at hs
      · cases c with
        | task c => exact h.task hs
        | _ => exact hno rfl (h.call (h.kernel.crTid hcr).1 hs (by rintro c' ⟨⟩))
      · cases hs
  | proceed =>
      obtain ⟨cr, hcr, hs⟩ := Option.bind_eq_some_iff.mp hs
      exact hno rfl (h.proceed (h.kernel.crTid hcr).1 hs)

/-! ### Who is erased by `terminate` -/

/-- No object mentions `t`. -/
structure Unlisted (σ : System T) (t : Tid) : Prop where
  semas : ∀ s, t ∉ (σ.semas s).waitQueue.tids
  owners : ∀ m, (σ.mutexes m).owner ≠ some t
  mutexes : ∀ m, t ∉ (σ.mutexes m).waitQueue.tids
  condVars : ∀ c, t ∉ (σ.condVars c).tids
  senders : ∀ q, t ∉ (σ.msgQueues q).senders.tids
  receivers : ∀ q, t ∉ (σ.msgQueues q).receivers.tids

/-- `t` has ended and nothing mentions it. -/
structure Erased (σ : System T) (t : Tid) : Prop where
  kernel : σ.kernel.Erased t
  unlisted : σ.Unlisted t

/-- `terminate` can erase `t`: no object mentions it, and the scheduler lists hold no more entries
than the removals take away.  Of two entries of the running task `next_tcb` removes the second. -/
structure Releasable (σ : System T) (t : Tid) : Prop where
  unlisted : σ.Unlisted t
  ready : σ.kernel.readyList.tids.count t ≤ if σ.kernel.currentTcbPtr = some t then 2 else 1
  sleeping : σ.kernel.sleepingList.tids.count t ≤ 1
  blocked : σ.kernel.blockedList.tids.count t ≤ 1

/-- A living task is terminated. -/
def Ends (σ : System T) (a : Action T) (t : Tid) : Prop :=
  a = .call (.task (.terminate t)) ∧ σ.kernel.status t ≠ .terminated

theorem Within.erased (h : σ.Within P) (ht : ¬P t) : σ.Erased t where
  kernel :=
    { status := by
        by_contra hne
        exact ht (h.kernel.alive t hne)
      ready := fun hm => ht (h.kernel.ready t hm)
      sleeping := fun hm => ht (h.kernel.sleeping t hm)
      blocked := fun hm => ht (h.kernel.blocked t hm)
      current := fun hc => ht (h.kernel.current t hc) }
  unlisted :=
    { semas := fun s hm => ht (h.semas s t hm)
      owners := fun m ho => ht ((h.mutexes m).owner t ho)
      mutexes := fun m hm => ht ((h.mutexes m).waitQueue t hm)
      condVars := fun c hm => ht (h.condVars c t hm)
      senders := fun q hm => ht ((h.msgQueues q).senders t hm)
      receivers := fun q hm => ht ((h.msgQueues q).receivers t hm) }

/-- `Task`'s interface touches no object. -/
theorem unlisted_task {c : TaskCall} (hs : σ.task c = some σ') : σ'.Unlisted t ↔ σ.Unlisted t := by
  obtain ⟨⟨k, new⟩, -, rfl⟩ := Option.map_eq_some_iff.mp hs
  cases new with
  | none => exact ⟨fun ⟨h1, h2, h3, h4, h5, h6⟩ => ⟨h1, h2, h3, h4, h5, h6⟩,
      fun ⟨h1, h2, h3, h4, h5, h6⟩ => ⟨h1, h2, h3, h4, h5, h6⟩⟩
  | some u => exact ⟨fun ⟨h1, h2, h3, h4, h5, h6⟩ => ⟨h1, h2, h3, h4, h5, h6⟩,
      fun ⟨h1, h2, h3, h4, h5, h6⟩ => ⟨h1, h2, h3, h4, h5, h6⟩⟩

/-- The erased task leaves the bound. -/
theorem Within.erase (h : σ.Within P) (ht : σ.Erased t) : σ.Within fun u => P u ∧ u ≠ t where
  kernel :=
    { alive := fun u hu => ⟨h.kernel.alive u hu, fun he => hu (he ▸ ht.kernel.status)⟩
      ready := fun u hu => ⟨h.kernel.ready u hu, fun he => ht.kernel.ready (he ▸ hu)⟩
      sleeping := fun u hu => ⟨h.kernel.sleeping u hu, fun he => ht.kernel.sleeping (he ▸ hu)⟩
      blocked := fun u hu => ⟨h.kernel.blocked u hu, fun he => ht.kernel.blocked (he ▸ hu)⟩
      tid := fun u hu => h.kernel.tid u hu.1
      schedReady := h.kernel.schedReady
      current := fun u hu => ⟨h.kernel.current u hu, fun he => ht.kernel.current (he ▸ hu)⟩ }
  semas := fun s u hu => ⟨h.semas s u hu, fun he => ht.unlisted.semas s (he ▸ hu)⟩
  mutexes := fun m =>
    ⟨fun u hu => ⟨(h.mutexes m).owner u hu, fun he => ht.unlisted.owners m (he ▸ hu)⟩,
      fun u hu => ⟨(h.mutexes m).waitQueue u hu, fun he => ht.unlisted.mutexes m (he ▸ hu)⟩⟩
  condVars := fun c u hu => ⟨h.condVars c u hu, fun he => ht.unlisted.condVars c (he ▸ hu)⟩
  msgQueues := fun q =>
    ⟨fun u hu => ⟨(h.msgQueues q).senders u hu, fun he => ht.unlisted.senders q (he ▸ hu)⟩,
      fun u hu => ⟨(h.msgQueues q).receivers u hu, fun he => ht.unlisted.receivers q (he ▸ hu)⟩⟩

/-- **`terminate` erases the task exactly when it can.** -/
theorem Within.terminate_iff (h : σ.Within P) (he : σ.Ends a t) (hs : σ.step cap a = some σ') :
    σ'.Erased t ↔ σ.Releasable t := by
  obtain ⟨rfl, hlive⟩ := he
  obtain ⟨cr, hcr, hs⟩ := Option.bind_eq_some_iff.mp hs
  have ho := (h.kernel.crTid hcr).2
  split at hs
  · have hul := unlisted_task (t := t) hs
    obtain ⟨⟨k, new⟩, hr, rfl⟩ := Option.map_eq_some_iff.mp hs
    obtain ⟨k', hk, hpair⟩ := Option.map_eq_some_iff.mp hr
    cases hpair
    rw [Kernel.terminate, if_neg hlive] at hk
    have ho₁ : (σ.kernel.discard t).OnCpu cr := onCpu_discard ho t
    have hst₁ : (σ.kernel.discard t).status t = .terminated := by
      rw [status_discard, if_pos rfl]
    have hk' : (σ.kernel.discard t).yieldTask = some k := hk
    rw [Kernel.yieldTask, if_pos ho₁.ready] at hk'
    have hcounts : (σ.kernel.discard t).readyList.tids.count t = σ.kernel.readyList.tids.count t - 1 ∧
        (σ.kernel.discard t).sleepingList.tids.count t = σ.kernel.sleepingList.tids.count t - 1 ∧
        (σ.kernel.discard t).blockedList.tids.count t = σ.kernel.blockedList.tids.count t - 1 := by
      simp [Kernel.discard, Kernel.freeTid, Kernel.setStatus]
    have hcur : σ.kernel.currentTcbPtr = some t ↔ cr = t := by
      rw [ho.current, Option.some.injEq]
    have hiff := erased_nextTcb ho₁ hst₁ hk'
    rw [hcounts.1, ← List.count_eq_zero, hcounts.2.1, ← List.count_eq_zero, hcounts.2.2] at hiff
    constructor
    · intro h
      obtain ⟨hr, hsl, hb⟩ := hiff.mp h.kernel
      refine ⟨hul.mp h.unlisted, ?_, by omega, by omega⟩
      by_cases hct : cr = t
      · rw [if_pos hct] at hr
        rw [if_pos (hcur.mpr hct)]
        omega
      · rw [if_neg hct] at hr
        rw [if_neg (mt hcur.mp hct)]
        omega
    · intro h
      have hready := h.ready
      have hsl := h.sleeping
      have hb := h.blocked
      refine ⟨hiff.mpr ⟨?_, by omega, by omega⟩, hul.mpr h.unlisted⟩
      by_cases hct : cr = t
      · rw [if_pos (hcur.mpr hct)] at hready
        rw [if_pos hct]
        omega
      · rw [if_neg (mt hcur.mp hct)] at hready
        rw [if_neg hct]
        omega
  · cases hs

/-- The tasks that have been terminated and not been created again since. -/
def ended : List (System T × Action T) → Tid → Prop
  | [], _ => False
  | (σ, a) :: tr, t => σ.Ends a t ∨ ended tr t ∧ a.creates σ ≠ some t

/-- In every state of the run, the ended tasks are erased. -/
def EndedErased : List (System T × Action T) → System T → Prop
  | [], _ => True
  | (σ', a) :: tr, σ => (∀ t, ended ((σ', a) :: tr) t → σ.Erased t) ∧ EndedErased tr σ'

/-- A run whose terminations could all erase their task bounds the others from above. -/
theorem Within.run {σ₀ : System T} {tr : List (System T × Action T)} (h₀ : σ₀.Within P)
    (hr : Run (System.step cap) (fun _ _ => True) σ₀ tr σ)
    (hrel : ∀ e ∈ tr, ∀ t, e.1.Ends e.2 t → e.1.Releasable t) :
    ∃ P, σ.Within P ∧ ∀ t, ended tr t → ¬P t := by
  induction hr with
  | start => exact ⟨P, h₀, fun _ h => h.elim⟩
  | @next tr s s' a _ _ hs ih =>
      rw [List.forall_mem_cons] at hrel
      obtain ⟨Q, hQ, hgone⟩ := ih hrel.2
      have hstep := hQ.step hs
      by_cases hend : ∃ t, s.Ends a t
      · obtain ⟨t, ht⟩ := hend
        have herased := (hQ.terminate_iff ht hs).mpr (hrel.1 t ht)
        refine ⟨_, hstep.erase herased, fun u hu hPu => ?_⟩
        rcases hu with hu | ⟨hu, hnew⟩
        · have hut : u = t := by
            have he := hu.1.symm.trans ht.1
            cases he
            rfl
          exact hPu.2 hut
        · exact hPu.1.elim (hgone u hu) hnew
      · refine ⟨_, hstep, fun u hu hPu => ?_⟩
        rcases hu with hu | ⟨hu, hnew⟩
        · exact hend ⟨u, hu⟩
        · exact hPu.elim (hgone u hu) hnew

end System

/-- A settled kernel mentions only living tasks. -/
theorem Kernel.Settled.within {k : Kernel} {c : Tid} (h : k.Settled c) :
    k.Within fun t => k.status t ≠ .terminated where
  alive := fun _ => id
  ready := fun t ht => by
    rcases (h.mem_ready t).mp ht with hst | hst <;> simp [hst]
  sleeping := fun t ht => by simp [h.of_mem_sleeping t ht]
  blocked := fun t ht => by simp [h.of_mem_blocked t ht]
  tid := h.tid_eq
  schedReady := h.ready
  current := fun t ht => by
    rw [h.current] at ht
    cases ht
    exact h.alive

theorem System.within_init {boots : List BootCall} {k₀ : Kernel} {counts : ℕ → ℤ}
    (hl : Kernel.launchAfter boots = some k₀) :
    (System.init k₀ counts : System T).Within fun t => k₀.status t ≠ .terminated := by
  obtain ⟨⟨c, hc⟩, -, -, -⟩ := settled_launchAfter hl
  refine ⟨hc.within, fun s t ht => ?_, fun m => ⟨fun t ht => ?_, fun t ht => ?_⟩,
    fun c t ht => ?_, fun q => ⟨fun t ht => ?_, fun t ht => ?_⟩⟩
  all_goals cases ht

/-- **Terminated tasks are gone.**  In a run from the launch, every task that has been terminated is
erased in every state until its identifier is allocated again, if and only if every termination of a
living task comes when no object mentions the task and no scheduler list holds it twice. -/
theorem terminated_tasks_are_erased {cap : ℕ → ℕ} {boots : List BootCall} {k₀ : Kernel}
    {counts : ℕ → ℤ} {tr : List (System T × Action T)} {σ : System T}
    (hl : Kernel.launchAfter boots = some k₀)
    (hr : Run (System.step cap) (fun _ _ => True) (System.init k₀ counts) tr σ) :
    System.EndedErased tr σ ↔ ∀ e ∈ tr, ∀ t, e.1.Ends e.2 t → e.1.Releasable t := by
  have h₀ : (System.init k₀ counts : System T).Within fun t => k₀.status t ≠ .terminated :=
    System.within_init hl
  induction hr with
  | start => simp [System.EndedErased]
  | @next tr s s' a hr hok hs ih =>
      rw [List.forall_mem_cons]
      constructor
      · rintro ⟨herased, hrest⟩
        have hrel := ih.mp hrest
        obtain ⟨P, hP, -⟩ := h₀.run hr hrel
        refine ⟨fun t ht => (hP.terminate_iff ht hs).mp (herased t (.inl ht)), hrel⟩
      · rintro ⟨hrel, hrest⟩
        obtain ⟨P, hP, hgone⟩ := h₀.run (.next hr hok hs) (List.forall_mem_cons.mpr ⟨hrel, hrest⟩)
        exact ⟨fun t ht => hP.erased (hgone t ht), ih.mpr hrest⟩

/-- Task 0 holds mutex 0 and terminates task 2, which waits for it; its unlock makes the dead task
ready and the owner. -/
theorem dead_waiter_gets_mutex : ∃ k₀ tr, ∃ σ : System Unit,
    Kernel.launchAfter [.create 3 "a"] = some k₀ ∧
      Run (System.step fun _ => 0) (fun _ _ => True) (System.init k₀ fun _ => 0) tr σ ∧
      System.ended tr 2 ∧ σ.kernel.status 2 = .ready ∧ (σ.mutexes 0).owner = some 2 ∧
      ¬System.EndedErased tr σ := by
  have hsome : (Kernel.launchAfter [.create 3 "a"]).isSome = true := by decide +kernel
  obtain ⟨k₀, hk₀⟩ := Option.isSome_iff_exists.mp hsome
  have hexec : ((Kernel.launchAfter [.create 3 "a"]).bind fun k₀ =>
      exec (System.step fun _ => 0) (fun (_ : System Unit) _ => true) (System.init k₀ fun _ => 0)
        [.call (.task (.create 4 "b")), .call (.lock 0), .call (.task (.delay 2)), .call (.lock 0),
          .systick 1]).any (fun σ => σ.kernel.status 2 ≠ .terminated ∧
            (σ.step (fun _ => 0) (.call (.task (.terminate 2)))).any (fun σ =>
              (σ.step (fun _ => 0) (.call (.unlock 0))).any fun σ =>
                σ.kernel.status 2 = .ready ∧ (σ.mutexes 0).owner = some 2)) = true := by
    decide +kernel
  rw [hk₀, Option.bind_some] at hexec
  obtain ⟨tr, σ₁, hr, hσ⟩ := exists_run_of_exec (fun _ _ _ => trivial) hexec
  obtain ⟨hlive, hσ⟩ := of_decide_eq_true hσ
  obtain ⟨σ₂, hs₂, hσ⟩ := (Option.any_eq_true _ _).mp hσ
  obtain ⟨σ₃, hs₃, hσ⟩ := (Option.any_eq_true _ _).mp hσ
  obtain ⟨hready, ho⟩ := of_decide_eq_true hσ
  have hended : System.ended ((σ₂, .call (.unlock 0)) :: (σ₁, .call (.task (.terminate 2))) :: tr) 2 :=
    .inr ⟨.inl ⟨rfl, hlive⟩, by rintro ⟨⟩⟩
  refine ⟨k₀, _, σ₃, hk₀, .next (.next hr trivial hs₂) trivial hs₃, hended, hready, ho, fun h => ?_⟩
  exact (h.1 2 hended).unlisted.owners 0 ho

/-- A task is terminated while it sleeps. -/
theorem terminated_tasks_are_erased_run : ∃ k₀ tr, ∃ σ : System Unit,
    Kernel.launchAfter [.create 3 "a"] = some k₀ ∧
      Run (System.step fun _ => 0) (fun _ _ => True) (System.init k₀ fun _ => 0) tr σ ∧
      System.ended tr 2 ∧ System.EndedErased tr σ := by
  have hsome : (Kernel.launchAfter [.create 3 "a"]).isSome = true := by decide +kernel
  obtain ⟨k₀, hk₀⟩ := Option.isSome_iff_exists.mp hsome
  have hexec : ((Kernel.launchAfter [.create 3 "a"]).bind fun k₀ =>
      exec (System.step fun _ => 0) (fun (_ : System Unit) a =>
          a ∈ [.call (.task (.create 2 "b")), .call (.task (.delay 2))]) (System.init k₀ fun _ => 0)
        [.call (.task (.create 2 "b")), .call (.task (.delay 2))]).any (fun σ =>
          (σ.kernel.status 2 ≠ .terminated ∧ σ.kernel.readyList.tids.count 2 ≤ 1 ∧
            σ.kernel.sleepingList.tids.count 2 ≤ 1 ∧ σ.kernel.blockedList.tids.count 2 ≤ 1) ∧
          (σ.step (fun _ => 0) (.call (.task (.terminate 2)))).isSome) = true := by
    decide +kernel
  rw [hk₀, Option.bind_some] at hexec
  obtain ⟨tr, σ, hr, hσ⟩ := exists_run_of_exec (fun (_ : System Unit) (a : Action Unit)
    (h : decide (a ∈ [.call (.task (.create 2 "b")), .call (.task (.delay 2))]) = true) =>
      of_decide_eq_true h) hexec
  obtain ⟨⟨hlive, hready, hsleeping, hblocked⟩, hstep⟩ := of_decide_eq_true hσ
  obtain ⟨σ', hs⟩ := Option.isSome_iff_exists.mp hstep
  have hcalls : ∀ {a : Action Unit},
      a ∈ [.call (.task (.create 2 "b")), .call (.task (.delay 2))] →
        ∃ c : TaskCall, a = .call (.task c) ∧ ∀ t, c ≠ .terminate t := by
    intro a ha
    simp only [List.mem_cons, List.not_mem_nil, or_false] at ha
    rcases ha with rfl | rfl
    · exact ⟨_, rfl, fun t he => nomatch he⟩
    · exact ⟨_, rfl, fun t he => nomatch he⟩
  have hul : σ.Unlisted 2 := by
    refine hr.invariant (I := fun σ => σ.Unlisted 2) ?_ fun s a s' h ha hs => ?_
    · constructor <;> intro _ hm <;> cases hm
    · obtain ⟨c, rfl, -⟩ := hcalls ha
      obtain ⟨cr, -, hs⟩ := Option.bind_eq_some_iff.mp hs
      split at hs
      · exact (System.unlisted_task hs).mpr h
      · cases hs
  have hrel : ∀ e ∈ (σ, .call (.task (.terminate 2))) :: tr, ∀ t, e.1.Ends e.2 t →
      e.1.Releasable t := by
    rw [List.forall_mem_cons]
    refine ⟨fun t ht => ?_, fun e he t ht => ?_⟩
    · cases ht.1
      refine ⟨hul, hready.trans ?_, hsleeping, hblocked⟩
      split_ifs <;> decide
    · obtain ⟨c, hc, hne⟩ := hcalls (hr.forall_guard e he)
      rw [ht.1] at hc
      cases hc
      exact absurd rfl (hne t)
  have hrun : Run (System.step fun _ => 0) (fun _ _ => True) (System.init k₀ fun _ => 0) tr σ :=
    hr.mono fun _ _ _ => trivial
  exact ⟨k₀, _, σ', hk₀, .next hrun trivial hs, .inl ⟨rfl, hlive⟩,
    (terminated_tasks_are_erased hk₀ (.next hrun trivial hs)).mpr hrel⟩

end MosKernel
