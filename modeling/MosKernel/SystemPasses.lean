import MosKernel.Erasure
import MosKernel.Passes

/-!
# A system's actions up to their scheduling pass

`System.enter` does for the sections of all calls and for all interrupts what `TaskAction.enter` does for
the task operations: it is what an action writes to the kernel before it calls `next_tcb`, if it does.

* `System.kernel_step` — the kernel after an action is the one after these writes and the pass;
* `Kernel.Keeps` — what the writes leave alone, unless they count ticks or make a task.
-/

namespace MosKernel

open OrderedInsert TaskList Transition Kernel

variable {T : Type} {cap : ℕ → ℕ} {σ σ' : System T} {a : Action T}

/-- The kernel at the end of a section, and whether it asks for a pass. -/
def CsResult.entry {α : Type*} (r : CsResult α) : Kernel × Bool := (r.kernel, r.yields)

namespace System

variable {cr : Tid}

/-- The writes of a new call. -/
def enterCall (cap : ℕ → ℕ) (σ : System T) (cr : Tid) : Call T → Option (Kernel × Bool)
  | .task c => c.enter σ.kernel
  | .down s => some ((σ.semas s).down σ.kernel cr).entry
  | .downTimeout _ _ => some (σ.kernel, false)
  | .tryDown _ => some (σ.kernel, false)
  | .up s => some ((σ.semas s).up σ.kernel).entry
  | .lock m =>
    if σ.guards cr m + 1 < 2 ^ 32 then some ((σ.mutexes m).lock σ.kernel cr).entry else none
  | .unlock m =>
    if 0 < σ.guards cr m then some ((σ.mutexes m).unlock σ.kernel cr).entry else none
  | .wait c m =>
    if 0 < σ.guards cr m then
      let w := σ.kernel.enqueueBack (σ.condVars c) cr
      some (((σ.mutexes m).unlock (w.1.park cr) cr).kernel, true)
    else none
  | .notify c => some (condNotify (σ.condVars c) σ.kernel).entry
  | .notifyAll c => some (condNotifyAll (σ.condVars c) σ.kernel).entry
  | .send q msg _ =>
    if (σ.msgQueues q).len < cap q then
      some ((σ.msgQueues q).commitSend (cap q) σ.kernel cr msg).entry
    else some (σ.kernel, false)
  | .recv q _ =>
    if (σ.msgQueues q).len > 0 then
      ((σ.msgQueues q).commitRecv (cap q) σ.kernel cr).map fun r => r.2.entry
    else some (σ.kernel, false)

/-- The writes of the next section of the pending call. -/
def enterProceed (cap : ℕ → ℕ) (σ : System T) (cr : Tid) : Option (Kernel × Bool) :=
  match σ.pc cr with
  | .user => none
  | .down _ => some (σ.kernel, false)
  | .downTimeoutBlock s ticks => some ((σ.semas s).downTimeoutBlock σ.kernel cr ticks).entry
  | .downTimeoutCheck _ => some (σ.kernel, false)
  | .lock _ => some (σ.kernel, false)
  | .condUnlocked _ _ => some (σ.kernel, true)
  | .condRelock _ m => some ((σ.mutexes m).lock σ.kernel cr).entry
  | .sendWait q _ _ => some ((σ.kernel.enqueue (σ.msgQueues q).senders cr).1, false)
  | .sendDelay _ _ timeout => TaskCall.enter σ.kernel (.delay timeout)
  | .sendCheck _ _ => some (σ.kernel, false)
  | .sendRetry q msg =>
    if (σ.msgQueues q).len < cap q then
      some ((σ.msgQueues q).commitSend (cap q) σ.kernel cr msg).entry
    else some (σ.kernel, false)
  | .recvWait q _ => some ((σ.kernel.enqueue (σ.msgQueues q).receivers cr).1, false)
  | .recvDelay _ timeout => TaskCall.enter σ.kernel (.delay timeout)
  | .recvCheck _ => some (σ.kernel, false)
  | .recvRetry q =>
    if (σ.msgQueues q).len > 0 then
      ((σ.msgQueues q).commitRecv (cap q) σ.kernel cr).map fun r => r.2.entry
    else some (σ.kernel, false)

/-- The writes of an action up to its pass, and whether there is one. -/
def enter (cap : ℕ → ℕ) (σ : System T) : Action T → Option (Kernel × Bool)
  | .systick missed => σ.kernel.systickReplay missed
  | .preempt => some (σ.kernel, true)
  | .upFromIsr s => some (((σ.semas s).upFromIsr σ.kernel).kernel, false)
  | .call c => σ.kernel.crTid.bind fun cr =>
    match σ.pc cr with
    | .user => σ.enterCall cap cr c
    | _ => none
  | .proceed => σ.kernel.crTid.bind fun cr => σ.enterProceed cap cr

theorem map_kernel_yieldIf (σ : System T) (b : Bool) :
    (σ.yieldIf b).map kernel = σ.kernel.yieldIf b := by
  rw [yieldIf, Option.map_map]
  cases σ.kernel.yieldIf b <;> rfl

theorem map_kernel_delay (σ : System T) (timeout : BitVec 32) :
    (σ.delay timeout).map kernel =
      (TaskCall.enter σ.kernel (.delay timeout)).bind fun r => r.1.yieldIf r.2 := by
  have hexec := (TaskCall.delay timeout).exec_eq σ.kernel
  rw [← hexec, System.delay, TaskCall.exec, Option.map_map, Option.map_map]
  rfl

theorem map_kernel_commitSend (σ : System T) (q : ℕ) (msg : T) :
    (σ.commitSend cap cr q msg).map kernel =
      ((σ.msgQueues q).commitSend (cap q) σ.kernel cr msg).kernel.yieldIf
        ((σ.msgQueues q).commitSend (cap q) σ.kernel cr msg).yields :=
  map_kernel_yieldIf _ _

theorem map_kernel_commitRecv (σ : System T) (q : ℕ) :
    (σ.commitRecv cap cr q).map kernel =
      (((σ.msgQueues q).commitRecv (cap q) σ.kernel cr).map fun r => r.2.entry).bind fun r =>
        r.1.yieldIf r.2 := by
  rw [commitRecv]
  cases (σ.msgQueues q).commitRecv (cap q) σ.kernel cr with
  | none => rfl
  | some r => exact map_kernel_yieldIf _ _

theorem map_kernel_lock (σ : System T) (m : ℕ) :
    (σ.lock cr m).map kernel = ((σ.mutexes m).lock σ.kernel cr).kernel.yieldIf
      ((σ.mutexes m).lock σ.kernel cr).yields := by
  rw [lock, map_kernel_yieldIf]
  split_ifs <;> rfl

theorem map_kernel_call (σ : System T) (c : Call T) :
    (σ.call cap cr c).map kernel = (σ.enterCall cap cr c).bind fun r => r.1.yieldIf r.2 := by
  cases c with
  | task c =>
      show (σ.task c).map kernel = (c.enter σ.kernel).bind _
      rw [← c.exec_eq, task, Option.map_map]
      refine congrFun (congrArg Option.map (funext fun r => ?_)) _
      obtain ⟨k', created⟩ := r
      cases created <;> rfl
  | down s =>
      show (σ.down cr s).map kernel = ((σ.semas s).down σ.kernel cr).kernel.yieldIf _
      rw [down, map_kernel_yieldIf]
      split_ifs <;> rfl
  | downTimeout s ticks =>
      show some (σ.downTimeout cr s ticks).kernel = some σ.kernel
      unfold downTimeout
      dsimp only
      split_ifs <;> rfl
  | tryDown s =>
      show some (σ.tryDown cr s).kernel = some σ.kernel
      unfold tryDown
      dsimp only
      split_ifs <;> rfl
  | up s => exact map_kernel_yieldIf _ _
  | lock m =>
      show (if σ.guards cr m + 1 < 2 ^ 32 then σ.lock cr m else none).map kernel =
        (if σ.guards cr m + 1 < 2 ^ 32 then _ else none).bind _
      split_ifs
      · exact σ.map_kernel_lock m
      · rfl
  | unlock m =>
      show (if 0 < σ.guards cr m then σ.unlock cr m else none).map kernel =
        (if 0 < σ.guards cr m then _ else none).bind _
      split_ifs
      · exact map_kernel_yieldIf _ _
      · rfl
  | wait c m =>
      show (if 0 < σ.guards cr m then σ.wait cr c m else none).map kernel =
        (if 0 < σ.guards cr m then _ else none).bind _
      split_ifs
      · exact map_kernel_yieldIf _ _
      · rfl
  | notify c => exact map_kernel_yieldIf _ _
  | notifyAll c => exact map_kernel_yieldIf _ _
  | send q msg timeout =>
      rw [call, send, log_msgQueues, enterCall]
      by_cases hlen : (σ.msgQueues q).len < cap q
      · rw [if_pos hlen, if_pos hlen]
        exact map_kernel_commitSend _ q msg
      · rw [if_neg hlen, if_neg hlen]
        split_ifs <;> rfl
  | recv q timeout =>
      rw [call, recv, log_msgQueues, enterCall]
      by_cases hlen : (σ.msgQueues q).len > 0
      · rw [if_pos hlen, if_pos hlen]
        exact map_kernel_commitRecv _ q
      · rw [if_neg hlen, if_neg hlen]
        split_ifs <;> rfl

theorem map_kernel_proceed (σ : System T) (cr : Tid) :
    (σ.proceed cap cr).map kernel = (σ.enterProceed cap cr).bind fun r => r.1.yieldIf r.2 := by
  unfold proceed enterProceed
  cases σ.pc cr with
  | user => rfl
  | down s => rfl
  | downTimeoutBlock s ticks => exact map_kernel_yieldIf _ _
  | downTimeoutCheck s =>
      show some (σ.downTimeoutCheck cr s).kernel = some σ.kernel
      unfold downTimeoutCheck
      dsimp only
      split_ifs <;> rfl
  | lock m => rfl
  | condUnlocked c m => exact map_kernel_yieldIf _ _
  | condRelock c m => exact σ.map_kernel_lock m
  | sendWait q msg timeout => rfl
  | sendDelay q msg timeout => exact map_kernel_delay _ timeout
  | sendCheck q msg =>
      show some (σ.sendCheck cr q msg).kernel = some σ.kernel
      unfold sendCheck
      dsimp only
      split_ifs <;> rfl
  | sendRetry q msg =>
      dsimp only
      split_ifs
      · exact map_kernel_commitSend _ q msg
      · rfl
  | recvWait q timeout => rfl
  | recvDelay q timeout => exact map_kernel_delay _ timeout
  | recvCheck q =>
      show some (σ.recvCheck cr q).kernel = some σ.kernel
      unfold recvCheck
      dsimp only
      split_ifs <;> rfl
  | recvRetry q =>
      dsimp only
      split_ifs
      · exact map_kernel_commitRecv _ q
      · rfl

/-- **The kernel after an action** is the one after its writes and its pass. -/
theorem kernel_step (cap : ℕ → ℕ) (σ : System T) (a : Action T) :
    (σ.step cap a).map kernel = (σ.enter cap a).bind fun r => r.1.yieldIf r.2 := by
  cases a with
  | systick missed =>
      show ((σ.kernel.systickTrap missed).map σ.setKernel).map kernel = σ.kernel.systickTrap missed
      rw [Option.map_map]
      cases σ.kernel.systickTrap missed <;> rfl
  | preempt => exact map_kernel_yieldIf _ _
  | upFromIsr s => rfl
  | call c =>
      show (σ.kernel.crTid.bind _).map kernel = (σ.kernel.crTid.bind _).bind _
      cases σ.kernel.crTid with
      | none => rfl
      | some cr =>
          simp only [Option.bind_some]
          cases σ.pc cr with
          | user => exact σ.map_kernel_call c
          | _ => rfl
  | proceed =>
      show (σ.kernel.crTid.bind _).map kernel = (σ.kernel.crTid.bind _).bind _
      cases σ.kernel.crTid with
      | none => rfl
      | some cr => exact σ.map_kernel_proceed cr

theorem enter_of_step (hs : σ.step cap a = some σ') :
    ∃ k₁ b, σ.enter cap a = some (k₁, b) ∧ k₁.yieldIf b = some σ'.kernel := by
  have hstep := σ.kernel_step cap a
  rw [hs, Option.map_some] at hstep
  obtain ⟨⟨k₁, b⟩, he, hk⟩ := Option.bind_eq_some_iff.mp hstep.symm
  exact ⟨k₁, b, he, hk⟩

end System

/-- How many ticks an action counts. -/
def Action.ticks : Action T → ℕ
  | .systick missed => missed + 1
  | _ => 0

namespace Kernel

variable {k k₁ k₂ : Kernel} {c t u : Tid} {b : Bool}

/-! ### What the writes leave alone -/

/-- What the writes of an action leave alone that neither counts ticks nor makes a task. -/
structure Keeps (k k₁ : Kernel) : Prop where
  timeSlice : ∀ t, (k₁.tcbs t).timeSlice = (k.tcbs t).timeSlice
  tid : ∀ t, (k₁.tcbs t).tid = (k.tcbs t).tid
  current : k₁.currentTcbPtr = k.currentTcbPtr
  ready : k₁.schedReady = k.schedReady
  osTicks : k₁.osTicks = k.osTicks
  /-- only the running task sets a wake point; `MsgQueue::try_wake_up` puts one off for good -/
  wakePoint : ∀ t, k.crTid ≠ some t → (k.tcbs t).wakePoint ≤ (k₁.tcbs t).wakePoint

theorem Keeps.refl (k : Kernel) : Keeps k k :=
  ⟨fun _ => rfl, fun _ => rfl, rfl, rfl, rfl, fun _ _ => BitVec.le_refl _⟩

theorem Keeps.crTid (h : Keeps k k₁) : k₁.crTid = k.crTid := by
  unfold Kernel.crTid
  rw [h.current]
  exact congrArg (fun f => Option.map f k.currentTcbPtr) (funext h.tid)

theorem Keeps.trans (h : Keeps k k₁) (h' : Keeps k₁ k₂) : Keeps k k₂ where
  timeSlice t := (h'.timeSlice t).trans (h.timeSlice t)
  tid t := (h'.tid t).trans (h.tid t)
  current := h'.current.trans h.current
  ready := h'.ready.trans h.ready
  osTicks := h'.osTicks.trans h.osTicks
  wakePoint t ht := BitVec.le_trans (h.wakePoint t ht) (h'.wakePoint t (by rwa [h.crTid]))

theorem Keeps.onCpu (h : Keeps k k₁) (ho : k.OnCpu c) : k₁.OnCpu c :=
  ⟨h.ready.trans ho.ready, h.current.trans ho.current, (h.tid c).trans ho.tid⟩

theorem keeps_setTcb (k : Kernel) (t : Tid) {f : Tcb → Tcb}
    (hslice : (f (k.tcbs t)).timeSlice = (k.tcbs t).timeSlice)
    (htid : (f (k.tcbs t)).tid = (k.tcbs t).tid)
    (hwake : k.crTid = some t ∨ (k.tcbs t).wakePoint ≤ (f (k.tcbs t)).wakePoint) :
    Keeps k (k.setTcb t f) := by
  refine ⟨fun u => ?_, fun u => ?_, rfl, rfl, rfl, fun u hu => ?_⟩
  · rw [setTcb_tcbs, Function.update_apply]
    split_ifs with hut
    · rw [hut]
      exact hslice
    · rfl
  · rw [setTcb_tcbs, Function.update_apply]
    split_ifs with hut
    · rw [hut]
      exact htid
    · rfl
  · rw [setTcb_tcbs, Function.update_apply]
    split_ifs with hut
    · rw [hut] at hu ⊢
      exact hwake.resolve_left hu
    · exact BitVec.le_refl _

theorem keeps_setStatus (k : Kernel) (t : Tid) (st : TaskStatus) : Keeps k (k.setStatus t st) :=
  keeps_setTcb k t rfl rfl (.inr (BitVec.le_refl _))

/-- Writes to the lists and to the bitmap. -/
theorem keeps_of_eq (htcbs : k₁.tcbs = k.tcbs) (hcur : k₁.currentTcbPtr = k.currentTcbPtr)
    (hready : k₁.schedReady = k.schedReady) (hticks : k₁.osTicks = k.osTicks) : Keeps k k₁ :=
  ⟨fun t => by rw [htcbs], fun t => by rw [htcbs], hcur, hready, hticks,
    fun t _ => by rw [htcbs]; exact BitVec.le_refl _⟩

theorem keeps_park (k : Kernel) (t : Tid) : Keeps k (k.park t) :=
  (keeps_setStatus k t .blocked).trans (keeps_of_eq rfl rfl rfl rfl)

theorem keeps_wake (k : Kernel) (t : Tid) : Keeps k (k.wake t) :=
  (keeps_setStatus k t .ready).trans (keeps_of_eq rfl rfl rfl rfl)

theorem keeps_wakeAll (k : Kernel) (ts : List Tid) : Keeps k (k.wakeAll ts) := by
  induction ts generalizing k with
  | nil => exact .refl k
  | cons t ts ih => exact (keeps_wake k t).trans (ih _)

theorem keeps_enqueue (k : Kernel) (queue : TaskList) (t : Tid) : Keeps k (k.enqueue queue t).1 :=
  keeps_of_eq rfl rfl rfl rfl

theorem keeps_discard (k : Kernel) (t : Tid) : Keeps k (k.discard t) := by
  have hlists : Keeps k ((((k.readyRemove t).sleepingRemove t).blockedRemove t).clearBit t) :=
    keeps_of_eq rfl rfl rfl rfl
  exact hlists.trans (keeps_setStatus _ t .terminated)

theorem keeps_sleep {k : Kernel} {t : Tid} (hcr : k.crTid = some t) (ticks : BitVec 32) :
    Keeps k (k.sleep t ticks) := by
  have hset := keeps_setTcb k t (f := fun tcb => { tcb with wakePoint := k.osTicks + ticks }) rfl rfl
    (.inl hcr)
  exact (hset.trans (keeps_park _ t)).trans (keeps_of_eq rfl rfl rfl rfl)

/-- The wake point that `MsgQueue::try_wake_up` writes is the last one. -/
theorem le_lastPoint (w : BitVec 32) : w ≤ 0xFFFFFFFF := by
  rw [BitVec.le_def]
  have hw := w.isLt
  have hlast : (0xFFFFFFFF : BitVec 32).toNat = 2 ^ 32 - 1 := rfl
  omega

theorem keeps_rouse (k : Kernel) (t : Tid) : Keeps k (k.rouse t) := by
  have hset := keeps_setTcb k t
    (f := fun tcb => { tcb with wakePoint := 0xFFFFFFFF, status := .ready }) rfl rfl
    (.inr (le_lastPoint _))
  exact hset.trans (keeps_of_eq rfl rfl rfl rfl)

theorem keeps_boost (k : Kernel) (o : Tid) (pri : ℕ) : Keeps k (k.boost o pri) := by
  have hset := keeps_setTcb k o (f := fun tcb =>
    { tcb with
      subPriority := if tcb.subPriority = priInv then tcb.priority else tcb.subPriority
      priority := pri }) rfl rfl (.inr (BitVec.le_refl _))
  unfold boost
  dsimp only
  split_ifs
  · exact hset.trans (keeps_of_eq rfl rfl rfl rfl)
  · exact hset
  · exact .refl k

theorem keeps_restore (k : Kernel) (t : Tid) : Keeps k (k.restore t) := by
  unfold restore
  split_ifs
  · exact keeps_setTcb k t rfl rfl (.inr (BitVec.le_refl _))
  · exact .refl k

/-! ### The sections of the objects -/

theorem keeps_semaDown (i : SemaInner) (k : Kernel) (c : Tid) : Keeps k (i.down k c).kernel := by
  unfold SemaInner.down
  dsimp only
  split_ifs
  · exact (keeps_park k c).trans (keeps_enqueue _ _ c)
  · exact .refl k

theorem keeps_semaUp (i : SemaInner) (k : Kernel) : Keeps k (i.up k).kernel := by
  unfold SemaInner.up
  split
  · exact keeps_wake k _
  · exact .refl k

theorem keeps_downTimeoutBlock (i : SemaInner) (hcr : k.crTid = some c) (ticks : BitVec 32) :
    Keeps k (i.downTimeoutBlock k c ticks).kernel := by
  have hpark := (keeps_park k c).trans (keeps_enqueue (k.park c) i.waitQueue c)
  have hset := keeps_setTcb ((k.park c).enqueue i.waitQueue c).1 c
    (f := fun tcb => { tcb with wakePoint := k.osTicks + ticks }) rfl rfl
    (.inl (hpark.crTid.trans hcr))
  exact (hpark.trans hset).trans (keeps_of_eq rfl rfl rfl rfl)

theorem keeps_lock (i : MutexInner) (k : Kernel) (c : Tid) : Keeps k (i.lock k c).kernel := by
  unfold MutexInner.lock
  split_ifs
  · exact .refl k
  · split
    · exact ((keeps_boost k _ _).trans (keeps_park _ c)).trans (keeps_enqueue _ _ c)
    · exact .refl k

theorem keeps_unlock (i : MutexInner) (k : Kernel) (c : Tid) : Keeps k (i.unlock k c).kernel := by
  unfold MutexInner.unlock
  dsimp only
  split_ifs
  · exact .refl k
  · split
    · exact (keeps_restore k c).trans (keeps_wake _ _)
    · exact keeps_restore k c

theorem keeps_condNotify (queue : TaskList) (k : Kernel) : Keeps k (condNotify queue k).kernel := by
  unfold condNotify
  split
  · exact keeps_wake k _
  · exact .refl k

theorem keeps_tryWakeUp (queue : TaskList) (k : Kernel) (c : Tid) :
    Keeps k (tryWakeUp queue k c).kernel := by
  unfold tryWakeUp
  split
  · exact keeps_rouse k _
  · exact .refl k

theorem keeps_commitRecv {q : MsgQueueInner T} {n : ℕ} {r : T × CsResult (MsgQueueInner T)}
    (h : q.commitRecv n k c = some r) : Keeps k r.2.kernel := by
  rw [(MsgQueueInner.commitRecv_eq_some h).2]
  exact keeps_tryWakeUp _ k c

theorem keeps_delay {ticks : BitVec 32} (he : TaskCall.enter k (.delay ticks) = some (k₁, b)) :
    Keeps k k₁ := by
  simp only [TaskCall.enter] at he
  split_ifs at he
  · cases he
    exact .refl k
  · obtain ⟨cr, hcr, he⟩ := Option.map_eq_some_iff.mp he
    cases he
    exact keeps_sleep hcr ticks

theorem keeps_taskCall {call : TaskCall} (he : call.enter k = some (k₁, b))
    (hnew : call.creates k = none) : Keeps k k₁ := by
  cases call with
  | create p name =>
      simp only [TaskCall.enter] at he
      split at he
      · cases he
        exact .refl k
      · rename_i ha
        simp [TaskCall.creates, ha] at hnew
  | createRaw p name size =>
      simp only [TaskCall.enter] at he
      split at he
      · cases he
        exact .refl k
      · rename_i ha
        simp [TaskCall.creates, ha] at hnew
  | exitCurrent =>
      obtain ⟨cr, -, he⟩ := Option.map_eq_some_iff.mp he
      cases he
      have hlists : Keeps k ((k.readyRemove cr).clearBit cr) := keeps_of_eq rfl rfl rfl rfl
      exact hlists.trans (keeps_setStatus _ cr .terminated)
  | block t =>
      have hblock : Keeps k ((k.park t).blockedPush t) :=
        (keeps_park k t).trans (keeps_of_eq rfl rfl rfl rfl)
      simp only [TaskCall.enter] at he
      split at he <;> cases he
      · exact hblock
      · exact hblock
      · exact .refl k
  | resume t =>
      have hresume : Keeps k ((k.blockedRemove t).wake t) :=
        (keeps_of_eq rfl rfl rfl rfl : Keeps k (k.blockedRemove t)).trans (keeps_wake _ t)
      simp only [TaskCall.enter] at he
      split_ifs at he <;> cases he
      · exact .refl k
      · exact hresume
      · exact .refl k
  | terminate t =>
      simp only [TaskCall.enter] at he
      split_ifs at he <;> cases he
      · exact .refl k
      · exact keeps_discard k t
  | delay ticks => exact keeps_delay he
  | yieldTask =>
      cases he
      exact .refl k

end Kernel

namespace System

variable {cr : Tid} {k₁ : Kernel} {b : Bool}

theorem keeps_recv {q : ℕ} (he : (if (σ.msgQueues q).len > 0 then
    ((σ.msgQueues q).commitRecv (cap q) σ.kernel cr).map fun r => r.2.entry
    else some (σ.kernel, false)) = some (k₁, b)) : Keeps σ.kernel k₁ := by
  split_ifs at he
  · obtain ⟨r, hr, he⟩ := Option.map_eq_some_iff.mp he
    cases he
    exact keeps_commitRecv hr
  · cases he
    exact .refl _

theorem keeps_send {q : ℕ} {msg : T} (he : (if (σ.msgQueues q).len < cap q then
    some ((σ.msgQueues q).commitSend (cap q) σ.kernel cr msg).entry
    else some (σ.kernel, false)) = some (k₁, b)) : Keeps σ.kernel k₁ := by
  split_ifs at he
  · cases he
    exact keeps_tryWakeUp _ _ _
  · cases he
    exact .refl _

theorem keeps_enterCall {c : Call T} (he : σ.enterCall cap cr c = some (k₁, b))
    (hnew : (Action.call c).creates σ = none) : Keeps σ.kernel k₁ := by
  cases c with
  | task c => exact keeps_taskCall he hnew
  | down s =>
      cases he
      exact keeps_semaDown _ _ _
  | downTimeout s ticks =>
      cases he
      exact .refl _
  | tryDown s =>
      cases he
      exact .refl _
  | up s =>
      cases he
      exact keeps_semaUp _ _
  | lock m =>
      simp only [enterCall] at he
      split_ifs at he
      cases he
      exact keeps_lock _ _ _
  | unlock m =>
      simp only [enterCall] at he
      split_ifs at he
      cases he
      exact keeps_unlock _ _ _
  | wait c m =>
      simp only [enterCall] at he
      split_ifs at he
      cases he
      have hback : Keeps σ.kernel (σ.kernel.enqueueBack (σ.condVars c) cr).1 :=
        keeps_of_eq rfl rfl rfl rfl
      exact (hback.trans (keeps_park _ cr)).trans (keeps_unlock _ _ _)
  | notify c =>
      cases he
      exact keeps_condNotify _ _
  | notifyAll c =>
      cases he
      exact keeps_wakeAll _ _
  | send q msg timeout => exact keeps_send he
  | recv q timeout => exact keeps_recv he

theorem keeps_enterProceed (hcr : σ.kernel.crTid = some cr)
    (he : σ.enterProceed cap cr = some (k₁, b)) : Keeps σ.kernel k₁ := by
  unfold enterProceed at he
  cases hpc : σ.pc cr with
  | user =>
      rw [hpc] at he
      cases he
  | downTimeoutBlock s ticks =>
      rw [hpc] at he
      cases he
      exact keeps_downTimeoutBlock _ hcr _
  | condRelock c m =>
      rw [hpc] at he
      cases he
      exact keeps_lock _ _ _
  | sendWait q msg timeout =>
      rw [hpc] at he
      cases he
      exact keeps_enqueue _ _ _
  | recvWait q timeout =>
      rw [hpc] at he
      cases he
      exact keeps_enqueue _ _ _
  | sendDelay q msg timeout =>
      rw [hpc] at he
      exact keeps_delay he
  | recvDelay q timeout =>
      rw [hpc] at he
      exact keeps_delay he
  | sendRetry q msg =>
      rw [hpc] at he
      exact keeps_send he
  | recvRetry q =>
      rw [hpc] at he
      exact keeps_recv he
  | _ =>
      rw [hpc] at he
      cases he
      exact .refl _

/-- **What the writes leave alone**, unless the action counts ticks or makes a task. -/
theorem keeps_enter (he : σ.enter cap a = some (k₁, b)) (hticks : a.ticks = 0)
    (hnew : a.creates σ = none) : Keeps σ.kernel k₁ := by
  cases a with
  | systick missed => exact absurd hticks (Nat.succ_ne_zero missed)
  | preempt =>
      cases he
      exact .refl _
  | upFromIsr s =>
      cases he
      exact keeps_semaUp (σ.semas s) σ.kernel
  | call c =>
      obtain ⟨cr, -, he⟩ := Option.bind_eq_some_iff.mp he
      split at he
      · exact keeps_enterCall he hnew
      · cases he
  | proceed =>
      obtain ⟨cr, hcr, he⟩ := Option.bind_eq_some_iff.mp he
      exact keeps_enterProceed hcr he

/-- The writes of an action that makes a task. -/
theorem enter_creates {u : Tid} (he : σ.enter cap a = some (k₁, b)) (hnew : a.creates σ = some u) :
    ∃ k₀ p name, σ.kernel.allocTid = some (u, k₀) ∧ k₁ = k₀.addTask u p name := by
  cases a with
  | call c =>
      cases c with
      | task c =>
          obtain ⟨cr, -, he⟩ := Option.bind_eq_some_iff.mp he
          split at he
          · cases c with
            | create p name =>
                obtain ⟨⟨u', k₀⟩, ha, rfl⟩ := Option.map_eq_some_iff.mp hnew
                simp only [enterCall, TaskCall.enter, ha] at he
                cases he
                exact ⟨k₀, p, name, ha, rfl⟩
            | createRaw p name size =>
                obtain ⟨⟨u', k₀⟩, ha, rfl⟩ := Option.map_eq_some_iff.mp hnew
                simp only [enterCall, TaskCall.enter, ha] at he
                split_ifs at he
                cases he
                exact ⟨k₀, p, name, ha, rfl⟩
            | _ => cases hnew
          · cases he
      | _ => cases hnew
  | _ => cases hnew

end System

end MosKernel
