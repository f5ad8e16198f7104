import MosKernel.Coherence

/-!
# Task operations on a settled kernel

One lemma for each function of `Task`: called in a settled state it leaves a settled state, discards
no `Err`, moves no parked task and changes no priority of a living task.  `Outcome` names these
facts; `TaskCall.exec_outcome` and `systickTrap_switched` are what the layers above use.
-/

namespace MosKernel

open OrderedInsert TaskList

namespace Kernel

variable {k k' : Kernel} {c t u : Tid}

/-- What an operation leaves, apart from the death of the tasks in `dies`. -/
structure Outcome (k k' : Kernel) (dies : Tid → Prop) : Prop where
  settled : ∃ c, k'.Settled c
  lost : k'.lost = k.lost
  parked : ∀ t, k'.Parked t ↔ k.Parked t ∧ ¬dies t
  alive : ∀ t, k.status t ≠ .terminated → ¬dies t → k'.status t ≠ .terminated
  priority : ∀ t, k.status t ≠ .terminated → k'.priority t = k.priority t
  subPriority : ∀ t, k.status t ≠ .terminated →
    (k'.tcbs t).subPriority = (k.tcbs t).subPriority

theorem Coherent.alive_iff (h : k.Coherent) (h' : k'.Coherent) (hf : Frame k k') (t : Tid) :
    k'.status t ≠ .terminated ↔ k.status t ≠ .terminated := by
  rw [← h'.bit, hf.tidBitmap, h.bit]

theorem Switched.outcome (h : k.Coherent) (hs : Switched k k') :
    Outcome k k' fun _ => False where
  settled := hs.settled
  lost := hs.lost
  parked := fun t => by rw [hs.parked, not_false_eq_true, and_true]
  alive := fun t ht _ => by
    obtain ⟨c, hc⟩ := hs.settled
    exact (h.alive_iff hc.toCoherent hs.frame t).mpr ht
  priority := fun t _ => hs.frame.priority t
  subPriority := fun t _ => hs.frame.subPriority t

/-- The end of a critical section: `Switched` may be prepended by coherent changes. -/
theorem Switched.of_frame {k₁ : Kernel} (hs : Switched k₁ k') (hl : k₁.lost = k.lost)
    (hp : ∀ t, k₁.Parked t ↔ k.Parked t) (hf : Frame k k₁) : Switched k k' where
  settled := hs.settled
  lost := hs.lost.trans hl
  parked := fun t => (hs.parked t).trans (hp t)
  frame := hf.trans hs.frame

theorem OnCpu.of_frame (h : k.OnCpu c) (hf : Frame k k')
    (hc : k'.currentTcbPtr = k.currentTcbPtr) : k'.OnCpu c :=
  ⟨hf.schedReady.trans h.ready, hc.trans h.current, (hf.tid c).trans h.tid⟩

/-! ### Creation -/

theorem allocTid_eq_some {k₁ : Kernel} (h : k.allocTid = some (t, k₁)) :
    k.tidFree t = true ∧ k₁ = { k with
      tidBitmap := k.tidBitmap ||| (1#32 <<< t.val)
      tcbs := Function.update k.tcbs t (.empty t) } := by
  obtain ⟨t', ht, he⟩ := Option.map_eq_some_iff.mp h
  cases he
  exact ⟨List.find?_some ht, rfl⟩

/-- A new task: fresh, coherent, and nobody else touched. -/
structure Added (k k' : Kernel) (t : Tid) : Prop where
  fresh : k.status t = .terminated
  coherent : k'.Coherent
  lost : k'.lost = k.lost
  parked : ∀ u, k'.Parked u ↔ k.Parked u
  tcbs : ∀ u, u ≠ t → k'.tcbs u = k.tcbs u
  status : k'.status t = .ready
  currentTcbPtr : k'.currentTcbPtr = k.currentTcbPtr
  schedReady : k'.schedReady = k.schedReady

theorem Coherent.added {k₁ : Kernel} (h : k.Coherent) (p : ℕ) (name : String)
    (ha : k.allocTid = some (t, k₁)) : Added k (k₁.addTask t p name) t := by
  obtain ⟨hfree, rfl⟩ := allocTid_eq_some ha
  rw [tidFree_eq, Bool.not_eq_true'] at hfree
  have hdead : k.status t = .terminated := by
    by_contra hne
    rw [(h.bit t).mpr hne] at hfree
    cases hfree
  have hnr : t ∉ k.readyList.tids := by rw [h.mem_ready, hdead]; simp
  have hns : t ∉ k.sleepingList.tids := fun hm => by simp [h.of_mem_sleeping t hm] at hdead
  have hnb : t ∉ k.blockedList.tids := fun hm => by simp [h.of_mem_blocked t hm] at hdead
  set k₁ : Kernel := { k with
    tidBitmap := k.tidBitmap ||| (1#32 <<< t.val)
    tcbs := Function.update k.tcbs t (.empty t) } with hk₁
  have hl := readyInsert_tids (t := t) (k := k₁.setTcb t fun tcb => { tcb with
    status := .ready, priority := p, timeSlice := MosKernel.timeSlice, name := name })
    h.ready_nodup hnr
  have hst : ∀ u, u ≠ t → (k₁.tcbs u) = k.tcbs u := by
    intro u hu
    simp [hk₁, hu]
  refine ⟨hdead, ?_, hl.2, ?_, ?_, by simp [addTask], rfl, rfl⟩
  · obtain ⟨h1, h2, h3, h4, h5, h6, h7, h8, h9, h10⟩ := h
    constructor <;> simp only [addTask, hl.1, nodup_insertBefore, mem_insertBefore] <;>
      simp [hk₁, Kernel.status, Function.update_apply, Tcb.empty] <;>
      simp only [Kernel.status] at * <;> grind
  · intro u
    simp [Parked, addTask, hk₁, Kernel.status, Function.update_apply, Tcb.empty]
    simp only [Kernel.status] at *
    grind
  · intro u hu
    simp [addTask, hst u hu, Function.update_of_ne hu]

theorem Settled.alive (h : k.Settled c) : k.status c ≠ .terminated := by
  have := (h.mem_ready c).mp h.current_mem
  grind

theorem Added.ne (ha : Added k k' t) (hu : k.status u ≠ .terminated) : u ≠ t := by
  rintro rfl
  exact hu ha.fresh

theorem Added.settled (ha : Added k k' t) (h : k.Settled c) : k'.Settled c := by
  refine ⟨ha.coherent, ha.schedReady.trans h.ready, ha.currentTcbPtr.trans h.current, ?_⟩
  rw [ha.coherent.mem_ready, Kernel.status, ha.tcbs c (ha.ne h.alive)]
  exact (h.mem_ready c).mp h.current_mem

/-- Scheduling after a creation gives the outcome of the whole call. -/
theorem Added.outcome {k₁ : Kernel} (ha : Added k k₁ t) (hs : Switched k₁ k') :
    Outcome k k' fun _ => False where
  settled := hs.settled
  lost := hs.lost.trans ha.lost
  parked := fun u => by rw [hs.parked, ha.parked, not_false_eq_true, and_true]
  alive := fun u hu _ => by
    obtain ⟨c', hc'⟩ := hs.settled
    rw [ha.coherent.alive_iff hc'.toCoherent hs.frame, Kernel.status, ha.tcbs u (ha.ne hu)]
    exact hu
  priority := fun u hu => by
    rw [hs.frame.priority, Kernel.priority, ha.tcbs u (ha.ne hu), Kernel.priority]
  subPriority := fun u hu => by rw [hs.frame.subPriority, ha.tcbs u (ha.ne hu)]

/-- The identifier a creation returns was free and is in use afterwards. -/
def Fresh (k k' : Kernel) (t : Tid) : Prop :=
  k.status t = .terminated ∧ k'.status t ≠ .terminated

theorem Added.newTid {k₁ : Kernel} (ha : Added k k₁ t) (hs : Switched k₁ k') : Fresh k k' t := by
  obtain ⟨c', hc'⟩ := hs.settled
  refine ⟨ha.fresh, ?_⟩
  rw [ha.coherent.alive_iff hc'.toCoherent hs.frame, ha.status]
  simp

/-- A creation finds the pool full, or adds a task and may switch to it. -/
theorem create_cases {p : ℕ} {name : String} {r : Except String Tid} (h : k.Settled c)
    (hk : k.create p name = some (k', r)) :
    k.allocTid = none ∧ k' = k ∧ r.toOption = none ∨ ∃ t k₁, k.allocTid = some (t, k₁) ∧
      r.toOption = some t ∧ Switched (k₁.addTask t p name) k' := by
  unfold create at hk
  split at hk
  · cases hk
    exact .inl ⟨‹_›, rfl, rfl⟩
  · rename_i t k₁ hal
    have ha := h.toCoherent.added p name hal
    have hset := ha.settled h
    simp only [ha.schedReady, ha.currentTcbPtr, h.ready, h.current] at hk
    obtain ⟨k₂, hk₂, he⟩ := Option.map_eq_some_iff.mp hk
    cases he
    refine .inr ⟨t, k₁, hal, rfl, ?_⟩
    split_ifs at hk₂
    · exact ha.coherent.yieldTask hset.onCpu hk₂
    · cases hk₂
      exact hset.switched

theorem createRaw_cases {p size : ℕ} {name : String} {r : Except String Tid} (h : k.Settled c)
    (hk : k.createRaw p name size = some (k', r)) :
    k.allocTid = none ∧ k' = k ∧ r.toOption = none ∨ ∃ t k₁, k.allocTid = some (t, k₁) ∧
      r.toOption = some t ∧ Switched (k₁.addTask t p name) k' := by
  unfold createRaw at hk
  split at hk
  · cases hk
    exact .inl ⟨‹_›, rfl, rfl⟩
  · rename_i t k₁ hal
    dsimp only at hk
    split at hk
    · cases hk
      exact .inr ⟨t, k₁, hal, rfl, ((h.toCoherent.added p name hal).settled h).switched⟩
    · cases hk

/-- What both kinds of creation come to. -/
theorem creation_outcome {p : ℕ} {name : String} {new : Option Tid} (h : k.Settled c)
    (hk : k.allocTid = none ∧ k' = k ∧ new = none ∨ ∃ t k₁, k.allocTid = some (t, k₁) ∧
      new = some t ∧ Switched (k₁.addTask t p name) k') :
    Outcome k k' (fun _ => False) ∧ ∀ t ∈ new, Fresh k k' t := by
  rcases hk with ⟨-, rfl, rfl⟩ | ⟨t, k₁, hal, rfl, hs⟩
  · exact ⟨h.switched.outcome h.toCoherent, by simp⟩
  · have ha := h.toCoherent.added p name hal
    exact ⟨ha.outcome hs, by simpa using ha.newTid hs⟩

/-! ### Exit and termination -/

/-- Take a task out of every list and free its identifier. -/
def discard (k : Kernel) (t : Tid) : Kernel :=
  (((k.readyRemove t).sleepingRemove t).blockedRemove t).freeTid t

theorem status_discard (k : Kernel) (t u : Tid) :
    (k.discard t).status u = if u = t then .terminated else k.status u := by
  rw [Kernel.discard, freeTid, setStatus, status_setTcb]
  rfl

theorem Coherent.discard (h : k.Coherent) (t : Tid) : (k.discard t).Coherent := by
  obtain ⟨h1, h2, h3, h4, h5, h6, h7, h8, h9, h10⟩ := h
  constructor <;> simp [Kernel.discard, freeTid, setStatus, Function.update_apply] <;> grind

theorem Coherent.parked_discard (h : k.Coherent) :
    (k.discard t).Parked u ↔ k.Parked u ∧ u ≠ t := by
  have hs := h.of_mem_sleeping u
  have hb := h.of_mem_blocked u
  simp [Parked, Kernel.discard, freeTid, setStatus]
  grind

theorem onCpu_discard (h : k.OnCpu c) (t : Tid) : (k.discard t).OnCpu c := by
  refine ⟨h.ready, h.current, ?_⟩
  have := h.tid
  simp [Kernel.discard, freeTid, setStatus, Function.update_apply]
  grind

/-- Scheduling after a task has been discarded. -/
theorem Coherent.discard_outcome (h : k.Coherent) (ho : k.OnCpu c)
    (hk : (k.discard t).yieldTask = some k') : Outcome k k' fun u => u = t := by
  have hs := (h.discard t).yieldTask (onCpu_discard ho t) hk
  have hkeep : ∀ u, u ≠ t → (k.discard t).tcbs u = k.tcbs u := by
    intro u hu
    simp [Kernel.discard, freeTid, setStatus, Function.update_of_ne hu]
  have hprio : ∀ u, (k.discard t).priority u = k.priority u ∧
      ((k.discard t).tcbs u).subPriority = (k.tcbs u).subPriority := by
    intro u
    simp [Kernel.discard, freeTid, setStatus, Kernel.priority, Function.update_apply]
    grind
  refine ⟨hs.settled, hs.lost, fun u => ?_, fun u hu hne => ?_, fun u _ => ?_, fun u _ => ?_⟩
  · rw [hs.parked, h.parked_discard]
  · obtain ⟨c', hc'⟩ := hs.settled
    rw [(h.discard t).alive_iff hc'.toCoherent hs.frame, Kernel.status, hkeep u hne]
    exact hu
  · rw [hs.frame.priority, (hprio u).1]
  · rw [hs.frame.subPriority, (hprio u).2]

/-- The running task sleeps nowhere, so leaving `READY_LIST` discards it. -/
theorem exit_eq_discard (h : k.Settled c) : (k.readyRemove c).freeTid c = k.discard c := by
  have hns : c ∉ k.sleepingList.tids := fun hm =>
    h.not_mem_ready (h.of_mem_sleeping c hm) h.current_mem
  have hnb : c ∉ k.blockedList.tids := fun hm =>
    h.not_mem_ready (h.of_mem_blocked c hm) h.current_mem
  have h1 : k.sleepingList.remove c = k.sleepingList := by
    ext1
    rw [remove_tids, List.erase_of_not_mem hns]
  have h2 : k.blockedList.remove c = k.blockedList := by
    ext1
    rw [remove_tids, List.erase_of_not_mem hnb]
  simp only [discard, sleepingRemove, blockedRemove, readyRemove_sleepingList,
    readyRemove_blockedList, h1, h2]
  rfl

theorem exitCurrent_eq (h : k.Settled c) : k.exitCurrent = (k.discard c).yieldTask := by
  rw [exitCurrent, h.onCpu.crTid]
  show ((k.readyRemove c).freeTid c).yieldTask = _
  rw [exit_eq_discard h]

theorem exitCurrent_outcome (h : k.Settled c) (hk : k.exitCurrent = some k') :
    Outcome k k' fun u => u = c := by
  rw [exitCurrent_eq h] at hk
  exact h.discard_outcome h.onCpu hk

theorem terminate_outcome (h : k.Settled c) (hk : k.terminate t = some k') :
    Outcome k k' fun u => u = t := by
  unfold terminate at hk
  split_ifs at hk with hdead
  · cases hk
    have hs := h.switched.outcome h.toCoherent
    refine ⟨hs.settled, rfl, fun u => ?_, fun u hu _ => hu, fun _ _ => rfl, fun _ _ => rfl⟩
    constructor
    · rintro hp
      refine ⟨hp, ?_⟩
      rintro rfl
      rw [hp.1] at hdead
      cases hdead
    · exact And.left
  · exact h.discard_outcome h.onCpu hk

/-! ### Blocking, resuming and sleeping -/

theorem frame_blockedPush (k : Kernel) (t : Tid) : Frame k (k.blockedPush t) := by
  constructor <;> simp [Kernel.priority]

theorem frame_blockedRemove (k : Kernel) (t : Tid) : Frame k (k.blockedRemove t) := by
  constructor <;> simp [Kernel.priority]

theorem frame_sleepingInsert (k : Kernel) (t : Tid) : Frame k (k.sleepingInsert t) := by
  constructor <;> simp [Kernel.priority]

theorem block_switched (h : k.Settled c) (hk : k.block t = some k') : Switched k k' := by
  unfold block at hk
  -- only a ready or running task is moved, so it is on the ready list
  have hmove : (k.status t = .ready ∨ k.status t = .running) →
      ((k.park t).blockedPush t).yieldTask = some k' → Switched k k' := by
    intro hst hk
    have ht := (h.mem_ready t).mpr hst
    have hpark := h.toCoherent.park ht
    have hp : (k.park t).Parked t := (h.parked_park ht).mpr (.inl rfl)
    have hf := (frame_park k t).trans (frame_blockedPush (k.park t) t)
    have hs := (hpark.blockedPush hp).1.yieldTask (h.onCpu.of_frame hf rfl) hk
    refine hs.of_frame (hpark.blockedPush hp).2 (fun u => ?_) hf
    rw [hpark.parked_blockedPush hp, h.parked_park ht]
    constructor
    · rintro ⟨hne, rfl | hu⟩
      · exact absurd rfl hne
      · exact hu
    · intro hu
      refine ⟨?_, .inr hu⟩
      rintro rfl
      exact h.not_parked ht hu
  split at hk
  · exact hmove (.inl ‹_›) hk
  · exact hmove (.inr ‹_›) hk
  · cases hk
    exact h.switched

theorem resume_switched (h : k.Settled c) (hk : k.resume t = some k') : Switched k k' := by
  unfold resume at hk
  split_ifs at hk with hst hmem
  · cases hk
    exact h.switched
  · have hrem := h.toCoherent.blockedRemove (t := t)
    have hp : (k.blockedRemove t).Parked t := (h.parked_blockedRemove hmem).mpr (.inl rfl)
    have hf : Frame k ((k.blockedRemove t).wake t) :=
      (frame_blockedRemove k t).trans (frame_wake (k.blockedRemove t) t)
    have ho := h.onCpu.of_frame hf rfl
    have hw := (hrem.wake hp).1
    have hset : ((k.blockedRemove t).wake t).Settled c := by
      refine ⟨hw, ho.ready, ho.current, ?_⟩
      rw [hw.mem_ready]
      have := (h.mem_ready c).mp h.current_mem
      simp [wake, setStatus]
      grind
    have hs : Switched ((k.blockedRemove t).wake t) k' := by
      dsimp only at hk
      rw [ho.current] at hk
      dsimp only at hk
      split_ifs at hk
      · exact hw.yieldTask ho hk
      · cases hk
        exact hset.switched
    refine hs.of_frame (hrem.wake hp).2 (fun u => ?_) hf
    rw [hrem.parked_wake, h.parked_blockedRemove hmem]
    constructor
    · rintro ⟨hne, rfl | hu⟩
      · exact absurd rfl hne
      · exact hu
    · intro hu
      refine ⟨?_, .inr hu⟩
      rintro rfl
      exact hu.2.2 hmem
  · cases hk
    exact h.switched

theorem frame_sleep (k : Kernel) (t : Tid) (ticks : BitVec 32) : Frame k (k.sleep t ticks) := by
  constructor <;> simp [sleep, park, setStatus, Kernel.priority, Function.update_apply] <;> grind

theorem Coherent.sleep (h : k.Coherent) (ht : t ∈ k.readyList.tids) (ticks : BitVec 32) :
    (k.sleep t ticks).Coherent ∧ (k.sleep t ticks).lost = k.lost ∧
      ∀ u, (k.sleep t ticks).Parked u ↔ k.Parked u := by
  have hset := h.setTcb (t := t) (f := fun tcb => { tcb with wakePoint := k.osTicks + ticks })
    rfl rfl
  have ht' : t ∈ (k.setTcb t fun tcb =>
    { tcb with wakePoint := k.osTicks + ticks }).readyList.tids := ht
  have hpark := hset.park ht'
  have hp := (hset.parked_park ht').mpr (.inl rfl : t = t ∨ _)
  refine ⟨(hpark.sleepingInsert hp).1, (hpark.sleepingInsert hp).2, fun u => ?_⟩
  have hnp := h.not_parked ht
  rw [Kernel.sleep, hpark.parked_sleepingInsert hp, hset.parked_park ht']
  simp only [Parked, status_setTcb, setTcb_sleepingList, setTcb_blockedList] at hnp ⊢
  grind [Kernel.status]

theorem delay_switched {ticks : BitVec 32} (h : k.Settled c) (hk : k.delay ticks = some k') :
    Switched k k' := by
  unfold delay at hk
  split_ifs at hk
  · cases hk
    exact h.switched
  · rw [h.onCpu.crTid] at hk
    obtain ⟨hco, hl, hp⟩ := h.toCoherent.sleep h.current_mem ticks
    have hf := frame_sleep k c ticks
    exact (hco.yieldTask (h.onCpu.of_frame hf rfl) hk).of_frame hl hp hf

/-! ### Interrupts -/

theorem systickTick_eq (ho : k.OnCpu c) : k.systickTick = some (k.advanceTicks.chargeSlice c,
    ((k.advanceTicks.chargeSlice c).tcbs c).timeSlice = 0 || !k.sleepingList.isEmpty) := by
  have hc : k.advanceTicks.crTid = some c := ho.crTid
  have hs : (k.advanceTicks.chargeSlice c).sleepingList = k.sleepingList := by
    unfold chargeSlice
    split <;> rfl
  simp only [systickTick, ho.ready, Bool.not_true, Bool.false_eq_true, if_false, hc,
    Option.map_some, hs]

theorem frame_advanceTicks (k : Kernel) : Frame k k.advanceTicks := by
  constructor <;> simp [Kernel.priority]

theorem frame_chargeSlice (k : Kernel) (t : Tid) : Frame k (k.chargeSlice t) := by
  unfold chargeSlice
  split
  · constructor <;> simp [Kernel.priority, Function.update_apply] <;> grind
  · exact Frame.refl k

theorem Settled.tick (h : k.Settled c) {r : Bool} (hk : k.systickTick = some (k', r)) :
    k'.Settled c ∧ k'.lost = k.lost ∧ (∀ t, k'.Parked t ↔ k.Parked t) ∧ Frame k k' := by
  have hadv : k.advanceTicks.Settled c := by
    obtain ⟨⟨h1, h2, h3, h4, h5, h6, h7, h8, h9, h10⟩, hr, hc, hm⟩ := h
    exact ⟨⟨h1, h2, h3, h4, h5, h6, h7, h8, h9, h10⟩, hr, hc, hm⟩
  rw [systickTick_eq h.onCpu] at hk
  cases hk
  have hf := (frame_advanceTicks k).trans (frame_chargeSlice k.advanceTicks c)
  refine ⟨?_, ?_, fun t => ?_, hf⟩
  · unfold chargeSlice
    split
    · exact ⟨hadv.toCoherent.setTcb rfl rfl, hadv.ready, hadv.current, hadv.current_mem⟩
    · exact hadv
  · unfold chargeSlice
    split <;> rfl
  · unfold chargeSlice
    split
    · simp only [Parked, status_setTcb, status_advanceTicks, setTcb_sleepingList,
        setTcb_blockedList, advanceTicks_sleepingList, advanceTicks_blockedList, advanceTicks_tcbs]
      grind [Kernel.status]
    · rfl

/-- Replayed ticks keep the running task on the processor. -/
theorem Settled.systickReplay (h : k.Settled c) {missed : ℕ} {r : Bool}
    (hk : k.systickReplay missed = some (k', r)) :
    k'.Settled c ∧ k'.lost = k.lost ∧ (∀ t, k'.Parked t ↔ k.Parked t) ∧ Frame k k' := by
  induction missed generalizing k' r with
  | zero => exact h.tick hk
  | succ missed ih =>
      obtain ⟨⟨k₁, r₁⟩, hk₁, hk⟩ := Option.bind_eq_some_iff.mp hk
      obtain ⟨⟨k₂, r₂⟩, hk₂, hk⟩ := Option.bind_eq_some_iff.mp hk
      cases hk
      obtain ⟨hs₁, hl₁, hp₁, hf₁⟩ := ih hk₁
      obtain ⟨hs₂, hl₂, hp₂, hf₂⟩ := hs₁.tick hk₂
      exact ⟨hs₂, hl₂.trans hl₁, fun t => (hp₂ t).trans (hp₁ t), hf₁.trans hf₂⟩

theorem systickTrap_switched {missed : ℕ} (h : k.Settled c)
    (hk : k.systickTrap missed = some k') : Switched k k' := by
  obtain ⟨⟨k₁, r⟩, hk₁, hk⟩ := Option.bind_eq_some_iff.mp hk
  obtain ⟨hs, hl, hp, hf⟩ := h.systickReplay hk₁
  have h₁ : Switched k₁ k' := by
    dsimp only at hk
    split_ifs at hk
    · exact hs.toCoherent.yieldTask hs.onCpu hk
    · cases hk
      exact hs.switched
  exact h₁.of_frame hl hp hf

end Kernel

/-! ### Any call -/

open Kernel

/-- The tasks that a call of the running task `c` ends. -/
def TaskCall.dies (c : Tid) : TaskCall → Tid → Prop
  | .exitCurrent, u => u = c
  | .terminate t, u => u = t
  | _, _ => False

theorem TaskCall.exec_outcome {k k' : Kernel} {c : Tid} {call : TaskCall} {r : Option Tid}
    (h : k.Settled c) (he : call.exec k = some (k', r)) :
    Outcome k k' (call.dies c) ∧ ∀ t ∈ r, Fresh k k' t := by
  cases call with
  | create p name =>
      obtain ⟨⟨k₁, r₁⟩, hk, he⟩ := Option.map_eq_some_iff.mp he
      cases he
      exact creation_outcome h (create_cases h hk)
  | createRaw p name size =>
      obtain ⟨⟨k₁, r₁⟩, hk, he⟩ := Option.map_eq_some_iff.mp he
      cases he
      exact creation_outcome h (createRaw_cases h hk)
  | exitCurrent =>
      obtain ⟨k₁, hk, he⟩ := Option.map_eq_some_iff.mp he
      cases he
      exact ⟨exitCurrent_outcome h hk, by simp⟩
  | block t =>
      obtain ⟨k₁, hk, he⟩ := Option.map_eq_some_iff.mp he
      cases he
      exact ⟨(block_switched h hk).outcome h.toCoherent, by simp⟩
  | resume t =>
      obtain ⟨k₁, hk, he⟩ := Option.map_eq_some_iff.mp he
      cases he
      exact ⟨(resume_switched h hk).outcome h.toCoherent, by simp⟩
  | terminate t =>
      obtain ⟨k₁, hk, he⟩ := Option.map_eq_some_iff.mp he
      cases he
      exact ⟨terminate_outcome h hk, by simp⟩
  | delay ticks =>
      obtain ⟨k₁, hk, he⟩ := Option.map_eq_some_iff.mp he
      cases he
      exact ⟨(delay_switched h hk).outcome h.toCoherent, by simp⟩
  | yieldTask =>
      obtain ⟨k₁, hk, he⟩ := Option.map_eq_some_iff.mp he
      cases he
      exact ⟨(h.toCoherent.yieldTask h.onCpu hk).outcome h.toCoherent, by simp⟩

end MosKernel
