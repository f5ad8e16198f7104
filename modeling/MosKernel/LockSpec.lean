import MosKernel.SyncSpec
import MosKernel.LockSteps

/-!
# Wait queues

What the sections of locks, condition variables and semaphores do to the kernel, and the invariant that
all of them share: `Queued` says that the scheduler lists are coherent and that a task on a wait queue is
parked in a call that waits for this object.
-/

namespace MosKernel

open OrderedInsert TaskList Kernel

variable {T : Type} {cap : ℕ → ℕ} {σ σ' : System T} {a : Action T}

namespace Kernel

variable {k k₁ k₂ k' : Kernel} {c o t u w : Tid}

/-! ### Writes before the switch -/

/-- Writes of the running task that keep the lists coherent; `parks` says who is parked
afterwards. -/
structure Writes (k k₁ : Kernel) (parks : Tid → Prop) : Prop where
  coherent : k₁.Coherent
  onCpu : ∀ c, k.OnCpu c → k₁.OnCpu c
  lost : k₁.lost = k.lost
  alive : ∀ t, k₁.status t ≠ .terminated ↔ k.status t ≠ .terminated
  parked : ∀ t, k₁.Parked t ↔ parks t

theorem Writes.trans {p q : Tid → Prop} (h : Writes k k₁ p) (h' : Writes k₁ k₂ q) :
    Writes k k₂ q :=
  ⟨h'.coherent, fun c hc => h'.onCpu c (h.onCpu c hc), h'.lost.trans h.lost,
    fun t => (h'.alive t).trans (h.alive t), h'.parked⟩

theorem Writes.imp {p q : Tid → Prop} (h : Writes k k₁ p) (hpq : ∀ t, p t ↔ q t) :
    Writes k k₁ q :=
  ⟨h.coherent, h.onCpu, h.lost, h.alive, fun t => (h.parked t).trans (hpq t)⟩

theorem Stepped.imp {p q : Tid → Prop} (h : Stepped k k' p) (hpq : ∀ t, p t ↔ q t) :
    Stepped k k' q :=
  ⟨h.settled, h.lost, h.alive, fun t => (h.parked t).trans (hpq t)⟩

theorem Writes.stepped {parks : Tid → Prop} {b : Bool} (h : Writes k k₁ parks) (ho : k.OnCpu c)
    (hstay : b = false → c ∈ k₁.readyList.tids) (hk : k₁.yieldIf b = some k') :
    Stepped k k' parks := by
  have hs := (h.coherent.yieldIf (h.onCpu c ho) hstay hk).stepped h.coherent
  exact ⟨hs.settled, hs.lost.trans h.lost, fun t => (hs.alive t).trans (h.alive t),
    fun t => (hs.parked t).trans (h.parked t)⟩

theorem Coherent.writes_park (h : k.Coherent) (ht : t ∈ k.readyList.tids) :
    Writes k (k.park t) fun u => u = t ∨ k.Parked u :=
  ⟨h.park ht, fun _ hc => hc.park t, rfl, h.alive_iff (h.park ht) (frame_park k t),
    fun _ => h.parked_park ht⟩

theorem Coherent.writes_wake (h : k.Coherent) (hw : k.Parked w) :
    Writes k (k.wake w) fun u => u ≠ w ∧ k.Parked u :=
  ⟨(h.wake hw).1, fun _ hc => hc.wake w, (h.wake hw).2,
    h.alive_iff (h.wake hw).1 (frame_wake k w), fun _ => h.parked_wake⟩

/-- The loop of `notify_all`. -/
theorem Coherent.writes_wakeAll {ts : List Tid} (h : k.Coherent) (hn : ts.Nodup)
    (hp : ∀ t ∈ ts, k.Parked t) : Writes k (k.wakeAll ts) fun u => u ∉ ts ∧ k.Parked u := by
  induction ts generalizing k with
  | nil =>
      refine ⟨h, fun _ hc => hc, rfl, fun _ => Iff.rfl, fun t => ?_⟩
      simp [wakeAll]
  | cons w ts ih =>
      rw [List.nodup_cons] at hn
      have hw := h.writes_wake (hp w List.mem_cons_self)
      have hrest : ∀ t ∈ ts, (k.wake w).Parked t := by
        intro t ht
        rw [hw.parked]
        refine ⟨?_, hp t (List.mem_cons_of_mem w ht)⟩
        rintro rfl
        exact hn.1 ht
      refine (hw.trans (ih hw.coherent hn.2 hrest)).imp fun t => ?_
      rw [hw.parked, List.mem_cons, not_or]
      exact ⟨fun ⟨h1, h2, h3⟩ => ⟨⟨h2, h1⟩, h3⟩, fun ⟨⟨h2, h1⟩, h3⟩ => ⟨h1, h2, h3⟩⟩

/-! ### Priority inheritance and the lists -/

/-- Nothing differs but priorities and the order of `READY_LIST`. -/
structure Reorders (k k' : Kernel) : Prop where
  status : ∀ t, k'.status t = k.status t
  tid : ∀ t, (k'.tcbs t).tid = (k.tcbs t).tid
  ready : k'.readyList.tids.Perm k.readyList.tids
  sleepingList : k'.sleepingList = k.sleepingList
  blockedList : k'.blockedList = k.blockedList
  tidBitmap : k'.tidBitmap = k.tidBitmap
  currentTcbPtr : k'.currentTcbPtr = k.currentTcbPtr
  schedReady : k'.schedReady = k.schedReady
  lost : k'.lost = k.lost

theorem Reorders.refl (k : Kernel) : Reorders k k :=
  ⟨fun _ => rfl, fun _ => rfl, .refl _, rfl, rfl, rfl, rfl, rfl, rfl⟩

theorem Reorders.coherent (hr : Reorders k k') (h : k.Coherent) : k'.Coherent := by
  obtain ⟨h1, h2, h3, h4, h5, h6, h7, h8, h9, h10⟩ := h
  constructor <;> simp only [hr.status, hr.tid, hr.sleepingList, hr.blockedList, hr.tidBitmap,
    hr.currentTcbPtr, hr.ready.nodup_iff, hr.ready.mem_iff] <;> assumption

theorem Reorders.parked (hr : Reorders k k') (t : Tid) : k'.Parked t ↔ k.Parked t := by
  rw [Parked, Parked, hr.status, hr.sleepingList, hr.blockedList]

theorem Reorders.onCpu (hr : Reorders k k') (h : k.OnCpu c) : k'.OnCpu c :=
  ⟨hr.schedReady.trans h.ready, hr.currentTcbPtr.trans h.current, (hr.tid c).trans h.tid⟩

theorem Reorders.writes (hr : Reorders k k') (h : k.Coherent) : Writes k k' k.Parked := by
  refine ⟨hr.coherent h, fun c hc => hr.onCpu hc, hr.lost, fun t => ?_, hr.parked⟩
  rw [hr.status]

theorem Reorders.settled (hr : Reorders k k') (h : k.Settled c) : k'.Settled c :=
  ⟨hr.coherent h.toCoherent, hr.schedReady.trans h.ready, hr.currentTcbPtr.trans h.current,
    hr.ready.mem_iff.mpr h.current_mem⟩

/-- A write of priorities. -/
theorem reorders_setTcb (k : Kernel) (t : Tid) {f : Tcb → Tcb}
    (hs : (f (k.tcbs t)).status = (k.tcbs t).status) (ht : (f (k.tcbs t)).tid = (k.tcbs t).tid) :
    Reorders k (k.setTcb t f) := by
  refine ⟨fun u => ?_, fun u => ?_, .refl _, rfl, rfl, rfl, rfl, rfl, rfl⟩
  · rw [status_setTcb]
    split_ifs with hu
    · rw [hu]
      exact hs
    · rfl
  · rw [setTcb_tcbs, Function.update_apply]
    split_ifs with hu
    · rw [hu]
      exact ht
    · rfl

theorem Reorders.trans (h : Reorders k k₁) (h' : Reorders k₁ k₂) : Reorders k k₂ :=
  ⟨fun t => (h'.status t).trans (h.status t), fun t => (h'.tid t).trans (h.tid t),
    h'.ready.trans h.ready, h'.sleepingList.trans h.sleepingList,
    h'.blockedList.trans h.blockedList, h'.tidBitmap.trans h.tidBitmap,
    h'.currentTcbPtr.trans h.currentTcbPtr, h'.schedReady.trans h.schedReady,
    h'.lost.trans h.lost⟩

theorem reorders_restore (k : Kernel) (c : Tid) : Reorders k (k.restore c) := by
  unfold restore
  split_ifs
  · exact reorders_setTcb k c rfl rfl
  · exact .refl k

/-- The priority to which `restore` lets a task drop. -/
def base (k : Kernel) (t : Tid) : ℕ :=
  if (k.tcbs t).subPriority ≠ priInv then (k.tcbs t).subPriority else k.priority t

theorem priority_setTcb (k : Kernel) (t u : Tid) (f : Tcb → Tcb) :
    (k.setTcb t f).priority u = if u = t then (f (k.tcbs t)).priority else k.priority u := by
  show ((k.setTcb t f).tcbs u).priority = _
  rw [setTcb_tcbs, Function.update_apply]
  split <;> rfl

theorem priority_restore (k : Kernel) (c t : Tid) :
    (k.restore c).priority t = if t = c then k.base c else k.priority t := by
  unfold restore base
  split_ifs with hsub htc htc
  · rw [priority_setTcb, if_pos htc]
  · rw [priority_setTcb, if_neg htc]
  · rw [htc]
  · rfl

/-- The write of `boost`. -/
def raised (pri : ℕ) (tcb : Tcb) : Tcb :=
  { tcb with
    subPriority := if tcb.subPriority = priInv then tcb.priority else tcb.subPriority
    priority := pri }

theorem boost_of_lt {pri : ℕ} (h : pri < k.priority o) :
    k.boost o pri = if k.status o = .ready then
      ((k.setTcb o (raised pri)).readyRemove o).readyInsert o else k.setTcb o (raised pri) := by
  have hst : (k.setTcb o (raised pri)).status o = k.status o := by
    rw [status_setTcb, if_pos rfl]
    rfl
  rw [← hst]
  exact if_pos h

theorem boost_of_le {pri : ℕ} (h : k.priority o ≤ pri) : k.boost o pri = k :=
  if_neg (not_lt.mpr h)

/-- The owner is as urgent as the task that waits for it. -/
theorem priority_boost (k : Kernel) (o t : Tid) (pri : ℕ) :
    (k.boost o pri).priority t = if t = o then min pri (k.priority o) else k.priority t := by
  rcases lt_or_ge pri (k.priority o) with hlt | hge
  · have hset : (k.setTcb o (raised pri)).priority t = if t = o then pri else k.priority t :=
      priority_setTcb k o t (raised pri)
    rw [boost_of_lt hlt, min_eq_left hlt.le, ← hset]
    split_ifs <;> rfl
  · rw [boost_of_le hge, min_eq_right hge]
    split_ifs with ht
    · rw [ht]
    · rfl

/-- A ready task that is taken off `READY_LIST` and put back. -/
theorem Coherent.reorders_reinsert (h : k.Coherent) (ht : t ∈ k.readyList.tids) :
    Reorders k ((k.readyRemove t).readyInsert t) := by
  have hn : (k.readyRemove t).readyList.tids.Nodup := by
    rw [readyRemove_readyList, remove_tids]
    exact h.ready_nodup.erase t
  have hno : t ∉ (k.readyRemove t).readyList.tids := by
    rw [readyRemove_readyList, remove_tids]
    exact h.ready_nodup.not_mem_erase
  obtain ⟨hl, hlost⟩ := readyInsert_tids hn hno
  refine ⟨fun _ => rfl, fun _ => rfl, ?_, rfl, rfl, rfl, rfl, rfl, hlost⟩
  rw [hl]
  refine (perm_insertBefore _ _ _).trans ?_
  rw [readyRemove_readyList, remove_tids]
  exact (List.perm_cons_erase ht).symm

theorem Coherent.reorders_boost (h : k.Coherent) (o : Tid) (pri : ℕ) :
    Reorders k (k.boost o pri) := by
  have hset : Reorders k (k.setTcb o (raised pri)) := reorders_setTcb k o rfl rfl
  rcases lt_or_ge pri (k.priority o) with hlt | hge
  · rw [boost_of_lt hlt]
    split_ifs with hst
    · refine hset.trans ((hset.coherent h).reorders_reinsert ?_)
      rw [setTcb_readyList, h.mem_ready]
      exact .inl hst
    · exact hset
  · rw [boost_of_le hge]
    exact .refl k

/-! ### What the sections leave alone -/

theorem frame_yieldIf {b : Bool} (hk : k.yieldIf b = some k') : Frame k k' := by
  cases b with
  | false =>
      cases hk
      exact Frame.refl k
  | true => exact frame_yieldTask hk

theorem frame_enqueue (k : Kernel) (queue : TaskList) (t : Tid) :
    Frame k (k.enqueue queue t).1 :=
  ⟨fun _ => rfl, fun _ => rfl, fun _ => rfl, rfl, rfl⟩

theorem frame_enqueueBack (k : Kernel) (queue : TaskList) (t : Tid) :
    Frame k (k.enqueueBack queue t).1 :=
  ⟨fun _ => rfl, fun _ => rfl, fun _ => rfl, rfl, rfl⟩

theorem frame_wakeAll (k : Kernel) (ts : List Tid) : Frame k (k.wakeAll ts) := by
  induction ts generalizing k with
  | nil => exact Frame.refl k
  | cons t ts ih => exact (frame_wake k t).trans (ih (k.wake t))

theorem Frame.base (hf : Frame k k') (t : Tid) : k'.base t = k.base t := by
  rw [Kernel.base, Kernel.base, hf.subPriority, hf.priority]

/-! ### The sections -/

/-- The running task waits for a lock. -/
theorem Settled.contend_stepped {pri : ℕ} (h : k.Settled c)
    (hk : ((k.boost o pri).park c).yieldIf true = some k') :
    Stepped k k' fun t => t = c ∨ k.Parked t := by
  have hr := h.toCoherent.reorders_boost o pri
  have hb := hr.settled h
  have hw := (hr.writes h.toCoherent).trans (hb.toCoherent.writes_park hb.current_mem)
  refine (hw.imp fun t => ?_).stepped h.onCpu (by simp) hk
  rw [hr.parked]

/-- The writes of `MutexInner.unlock`: who is taken off the queue is not parked any more. -/
theorem Coherent.writes_unlock {i : MutexInner} {r : CsResult MutexInner} (h : k.Coherent)
    (hn : i.waitQueue.tids.Nodup) (hp : ∀ t ∈ i.waitQueue.tids, k.Parked t)
    (hr : Unlocks i k c r) : Writes k r.kernel fun t =>
      k.Parked t ∧ (t ∈ i.waitQueue.tids → t ∈ r.inner.waitQueue.tids) := by
  cases hr with
  | leave hne => exact ((Reorders.refl k).writes h).imp fun t => (and_iff_left id).symm
  | release hone hnil hb =>
      exact ((reorders_restore k c).writes h).imp fun t => (and_iff_left id).symm
  | @handOff w queue b hone hcons hb =>
      rw [hcons, List.nodup_cons] at hn
      have hres := (reorders_restore k c).writes h
      have hw : k.Parked w := hp w (by rw [hcons]; exact List.mem_cons_self)
      refine (hres.trans (hres.coherent.writes_wake ((hres.parked w).mpr hw))).imp fun t => ?_
      rw [hres.parked, hcons, List.mem_cons]
      constructor
      · rintro ⟨htw, ht⟩
        exact ⟨ht, fun hm => hm.resolve_left htw⟩
      · rintro ⟨ht, hm⟩
        refine ⟨?_, ht⟩
        rintro rfl
        exact hn.1 (hm (.inl rfl))

theorem Settled.unlock {i : MutexInner} {r : CsResult MutexInner} (h : k.Settled c)
    (hp : ∀ t ∈ i.waitQueue.tids, k.Parked t) (hr : Unlocks i k c r) : r.kernel.Settled c := by
  have hres := (reorders_restore k c).settled h
  cases hr with
  | leave hne => exact h
  | release hone hnil hb => exact hres
  | @handOff w queue b hone hcons hb =>
      have hw : k.Parked w := hp w (by rw [hcons]; exact List.mem_cons_self)
      exact hres.wake (((reorders_restore k c).parked w).mpr hw)

theorem OnCpu.unlock {i : MutexInner} {r : CsResult MutexInner} (ho : k.OnCpu c)
    (hr : Unlocks i k c r) : r.kernel.OnCpu c := by
  have hres := (reorders_restore k c).onCpu ho
  cases hr with
  | leave hne => exact ho
  | release hone hnil hb => exact hres
  | handOff hone hcons hb => exact hres.wake _

/-- The queue of a mutex that is unlocked loses at most its front. -/
theorem unlock_sublist {i : MutexInner} {r : CsResult MutexInner} (hr : Unlocks i k c r) :
    r.inner.waitQueue.tids.Sublist i.waitQueue.tids := by
  cases hr with
  | leave hne => exact List.Sublist.refl _
  | release hone hnil hb => exact List.Sublist.refl _
  | @handOff w queue b hone hcons hb =>
      rw [hcons]
      exact List.sublist_cons_self w queue.tids

/-- A task that is not on a queue finds room at its end. -/
theorem enqueueBack_eq {queue : TaskList} (hn : queue.tids.Nodup) (ht : t ∉ queue.tids) :
    (k.enqueueBack queue t).1 = k ∧ (k.enqueueBack queue t).2.tids = queue.tids ++ [t] := by
  have h := pushBack_of_lt (t := t) (length_lt_of_not_mem hn ht)
  refine ⟨?_, h.1⟩
  show ({ k with lost := k.lost + errCount (queue.pushBack t) } : Kernel) = k
  rw [h.2, Nat.add_zero]

end Kernel

/-! ### Wait queues -/

/-- An object with a wait queue. -/
inductive Res where
  | sema (s : ℕ)
  | mutex (m : ℕ)
  | condVar (c : ℕ)
  deriving DecidableEq

/-- The object on whose wait queue a task may be. -/
def Pc.waitsFor : Pc T → Option Res
  | .down s => some (.sema s)
  | .lock m => some (.mutex m)
  | .condUnlocked c _ | .condRelock c _ => some (.condVar c)
  | _ => none

namespace System

def waitQueue (σ : System T) : Res → TaskList
  | .sema s => (σ.semas s).waitQueue
  | .mutex m => (σ.mutexes m).waitQueue
  | .condVar c => σ.condVars c

theorem waitQueue_sema (σ : System T) (s : ℕ) (i : SemaInner) :
    ({ σ with semas := Function.update σ.semas s i } : System T).waitQueue =
      Function.update σ.waitQueue (.sema s) i.waitQueue := by
  funext r
  cases r with
  | sema s' =>
      by_cases hss : s' = s
      · subst hss
        simp [waitQueue]
      · simp [waitQueue, Function.update_of_ne, hss]
  | _ => simp [waitQueue]

theorem waitQueue_mutex (σ : System T) (m : ℕ) (i : MutexInner) :
    ({ σ with mutexes := Function.update σ.mutexes m i } : System T).waitQueue =
      Function.update σ.waitQueue (.mutex m) i.waitQueue := by
  funext r
  cases r with
  | mutex m' =>
      by_cases hmm : m' = m
      · subst hmm
        simp [waitQueue]
      · simp [waitQueue, Function.update_of_ne, hmm]
  | _ => simp [waitQueue]

theorem waitQueue_condVar (σ : System T) (c : ℕ) (queue : TaskList) :
    ({ σ with condVars := Function.update σ.condVars c queue } : System T).waitQueue =
      Function.update σ.waitQueue (.condVar c) queue := by
  funext r
  cases r with
  | condVar c' =>
      by_cases hcc : c' = c
      · subst hcc
        simp [waitQueue]
      · simp [waitQueue, Function.update_of_ne, hcc]
  | _ => simp [waitQueue]

/-- The lists are coherent, and a task on a wait queue is parked in a call that waits for the
object. -/
structure Queued (σ : System T) : Prop where
  settled : ∃ c, σ.kernel.Settled c
  pcs : ∀ t, (σ.pc t).IsLock
  nodup : ∀ r, (σ.waitQueue r).tids.Nodup
  waits : ∀ r, ∀ t ∈ (σ.waitQueue r).tids,
    (σ.pc t).waitsFor = some r ∧ σ.kernel.Parked t

theorem queued_init {boots : List BootCall} {k : Kernel} {counts : ℕ → ℤ}
    (h : launchAfter boots = some k) : (init k counts : System T).Queued := by
  refine ⟨(settled_launchAfter h).1, fun _ => trivial, fun r => ?_, fun r t ht => ?_⟩
  · cases r <;> exact List.nodup_nil
  · cases r <;> cases ht

theorem Queued.running (h : σ.Queued) {cr : Tid} (hcr : σ.kernel.crTid = some cr) :
    σ.kernel.Settled cr := by
  obtain ⟨c, hc⟩ := h.settled
  rw [hc.onCpu.crTid] at hcr
  cases hcr
  exact hc

/-- The running task is on no queue. -/
theorem Queued.not_mem (h : σ.Queued) {cr : Tid} (hcr : σ.kernel.crTid = some cr) (r : Res) :
    cr ∉ (σ.waitQueue r).tids := by
  intro hm
  exact (h.running hcr).not_parked (h.running hcr).current_mem (h.waits r cr hm).2

/-- A step after which every queued task was queued before, or is the one that has just blocked. -/
theorem queued_of_stepped {parks : Tid → Prop}
    (hk : Stepped σ.kernel σ'.kernel parks) (hpcs : ∀ t, (σ'.pc t).IsLock)
    (hn : ∀ r, (σ'.waitQueue r).tids.Nodup)
    (hw : ∀ r, ∀ t ∈ (σ'.waitQueue r).tids, (σ'.pc t).waitsFor = some r ∧ parks t) :
    σ'.Queued :=
  ⟨hk.settled, hpcs, hn, fun r t ht => ⟨(hw r t ht).1, (hk.parked t).mpr (hw r t ht).2⟩⟩

theorem isLock_update (h : ∀ t, (σ.pc t).IsLock) {c : Tid} {pc : Pc T} (hp : pc.IsLock)
    (t : Tid) : (Function.update σ.pc c pc t).IsLock := by
  rw [Function.update_apply]
  split_ifs
  · exact hp
  · exact h t

/-- Only the running task moves. -/
theorem moves_update {c : Tid} (pc : Pc T) (hcr : σ.kernel.crTid = some c) (hp : pc.IsLock)
    (t : Tid) : Function.update σ.pc c pc t = σ.pc t ∨
      σ.kernel.crTid = some t ∧ (Function.update σ.pc c pc t).IsLock := by
  by_cases ht : t = c
  · subst ht
    rw [Function.update_self]
    exact .inr ⟨hcr, hp⟩
  · exact .inl (Function.update_of_ne ht _ _)

/-- A step that leaves the queues as they are. -/
theorem Queued.keep (h : σ.Queued) (hk : Stepped σ.kernel σ'.kernel σ.kernel.Parked)
    (hq : σ'.waitQueue = σ.waitQueue)
    (hpc : ∀ t, σ'.pc t = σ.pc t ∨ σ.kernel.crTid = some t ∧ (σ'.pc t).IsLock) : σ'.Queued := by
  refine queued_of_stepped hk (fun t => ?_) (fun r => by rw [hq]; exact h.nodup r) fun r t ht => ?_
  · rcases hpc t with hpc | ⟨-, hp⟩
    · rw [hpc]
      exact h.pcs t
    · exact hp
  · rw [hq] at ht
    rcases hpc t with hpc | ⟨hcr, -⟩
    · rw [hpc]
      exact h.waits r t ht
    · exact absurd ht (h.not_mem hcr r)

/-- The running task blocks on `r`. -/
theorem Queued.enqueue (h : σ.Queued) {cr : Tid} {r : Res} {queue : TaskList} {pc : Pc T}
    (hcr : σ.kernel.crTid = some cr)
    (hk : Stepped σ.kernel σ'.kernel fun t => t = cr ∨ σ.kernel.Parked t)
    (hn : queue.tids.Nodup) (hmem : ∀ t, t ∈ queue.tids ↔ t = cr ∨ t ∈ (σ.waitQueue r).tids)
    (hq : σ'.waitQueue = Function.update σ.waitQueue r queue) (hp : pc.IsLock)
    (hwait : pc.waitsFor = some r) (hpc : σ'.pc = Function.update σ.pc cr pc) : σ'.Queued := by
  refine queued_of_stepped hk (fun t => ?_) (fun r' => ?_) fun r' t ht => ?_
  · rw [hpc]
    exact isLock_update h.pcs hp t
  · rw [hq, Function.update_apply]
    split_ifs
    · exact hn
    · exact h.nodup r'
  · have hold : t ∈ (σ.waitQueue r').tids →
        (σ'.pc t).waitsFor = some r' ∧ (t = cr ∨ σ.kernel.Parked t) := by
      intro hm
      rw [hpc, Function.update_of_ne]
      · exact ⟨(h.waits r' t hm).1, .inr (h.waits r' t hm).2⟩
      · rintro rfl
        exact h.not_mem hcr r' hm
    rw [hq, Function.update_apply] at ht
    split_ifs at ht with hr
    · subst hr
      rcases (hmem t).mp ht with rfl | hm
      · rw [hpc, Function.update_self]
        exact ⟨hwait, .inl rfl⟩
      · exact hold hm
    · exact hold ht

/-- Tasks are taken off the queue of `r`, and nobody else is made ready. -/
theorem Queued.dequeue (h : σ.Queued) {r : Res} {queue : TaskList}
    (hk : Stepped σ.kernel σ'.kernel fun t =>
      σ.kernel.Parked t ∧ (t ∈ (σ.waitQueue r).tids → t ∈ queue.tids))
    (hsub : queue.tids.Sublist (σ.waitQueue r).tids)
    (hq : σ'.waitQueue = Function.update σ.waitQueue r queue) (hpc : σ'.pc = σ.pc) :
    σ'.Queued := by
  refine queued_of_stepped hk (by rw [hpc]; exact h.pcs) (fun r' => ?_) fun r' t ht => ?_
  · rw [hq, Function.update_apply]
    split_ifs
    · exact (h.nodup r).sublist hsub
    · exact h.nodup r'
  · rw [hpc]
    rw [hq, Function.update_apply] at ht
    split_ifs at ht with hr
    · subst hr
      exact ⟨(h.waits r' t (hsub.subset ht)).1, (h.waits r' t (hsub.subset ht)).2, fun _ => ht⟩
    · obtain ⟨hw, hp⟩ := h.waits r' t ht
      refine ⟨hw, hp, fun hm => ?_⟩
      have heq := (h.waits r t hm).1
      rw [hw] at heq
      exact absurd (Option.some.inj heq) hr

/-- No task ends but one that exits. -/
def Survives (σ : System T) (a : Action T) (σ' : System T) : Prop :=
  ∀ t, σ.kernel.status t ≠ .terminated →
    (a = .call (.task .exitCurrent) → σ.kernel.crTid ≠ some t) → σ'.kernel.status t ≠ .terminated

theorem survives {parks : Tid → Prop} (hk : Stepped σ.kernel σ'.kernel parks) (a : Action T) :
    Survives σ a σ' :=
  fun t ht _ => (hk.alive t).mpr ht

/-- The front of the queue of `r` is made ready. -/
theorem Queued.wakeFront (h : σ.Queued) {r : Res} {w : Tid} {queue : TaskList} {b : Bool}
    (hcons : (σ.waitQueue r).tids = w :: queue.tids)
    (hk : (σ.kernel.wake w).yieldIf b = some σ'.kernel)
    (hq : σ'.waitQueue = Function.update σ.waitQueue r queue) (hpc : σ'.pc = σ.pc) :
    σ'.Queued ∧ Survives σ a σ' := by
  obtain ⟨c, hc⟩ := h.settled
  have hn := h.nodup r
  rw [hcons, List.nodup_cons] at hn
  have hw : σ.kernel.Parked w := (h.waits r w (by rw [hcons]; exact List.mem_cons_self)).2
  have hstep := hc.wake_stepped hw hk
  refine ⟨h.dequeue (hstep.imp fun t => ?_)
    (by rw [hcons]; exact List.sublist_cons_self w queue.tids) hq hpc, survives hstep a⟩
  rw [hcons, List.mem_cons]
  constructor
  · rintro ⟨htw, ht⟩
    exact ⟨ht, fun hm => hm.resolve_left htw⟩
  · rintro ⟨ht, hm⟩
    refine ⟨?_, ht⟩
    rintro rfl
    exact hn.1 (hm (.inl rfl))

/-- A step of the kernel that blocks and wakes nobody. -/
theorem Queued.idle (h : σ.Queued) : Stepped σ.kernel σ.kernel σ.kernel.Parked := by
  obtain ⟨c, hc⟩ := h.settled
  exact hc.switched.stepped hc.toCoherent

/-- A `Task` operation: the tasks it ends are on no queue, and neither is the one it creates. -/
theorem Queued.task (h : σ.Queued) {cr : Tid} {c : TaskCall} (hcr : σ.kernel.crTid = some cr)
    (hc : ∀ t, c ≠ .terminate t) (hs : σ.task c = some σ') :
    σ'.Queued ∧ Survives σ (.call (.task c)) σ' := by
  obtain ⟨⟨k, new⟩, he, rfl⟩ := Option.map_eq_some_iff.mp hs
  have hset := h.running hcr
  obtain ⟨ho, hfresh⟩ := TaskCall.exec_outcome hset he
  have hkeep : ∀ t, σ.kernel.Parked t → k.Parked t := by
    intro t ht
    refine (ho.parked t).mpr ⟨ht, fun hd => ?_⟩
    cases c with
    | exitCurrent =>
        cases hd
        exact hset.not_parked hset.current_mem ht
    | terminate u => exact hc u rfl
    | _ => exact hd
  have hsurvive : ∀ t, σ.kernel.status t ≠ .terminated →
      ((.call (.task c) : Action T) = .call (.task .exitCurrent) → σ.kernel.crTid ≠ some t) →
        k.status t ≠ .terminated := by
    intro t ht hexit
    refine ho.alive t ht fun hd => ?_
    cases c with
    | exitCurrent =>
        cases hd
        exact hexit rfl hcr
    | terminate u => exact hc u rfl
    | _ => exact hd
  cases new with
  | none =>
      refine ⟨⟨ho.settled, h.pcs, fun r => ?_, fun r t ht => ?_⟩, hsurvive⟩
      · exact h.nodup r
      · exact ⟨(h.waits r t ht).1, hkeep t (h.waits r t ht).2⟩
  | some t₀ =>
      refine ⟨⟨ho.settled, isLock_update h.pcs trivial, fun r => ?_, fun r t ht => ?_⟩, hsurvive⟩
      · exact h.nodup r
      · obtain ⟨hw, hp⟩ := h.waits r t ht
        refine ⟨?_, hkeep t hp⟩
        show (Function.update σ.pc t₀ .user t).waitsFor = some r
        rw [Function.update_of_ne]
        · exact hw
        · rintro rfl
          have hdead := (hfresh t rfl).1
          rw [hp.1] at hdead
          cases hdead

/-- `CondVar::wait`: the running task joins the queue of the condition variable and unlocks the
mutex. -/
theorem Queued.wait (h : σ.Queued) {cr : Tid} {c m : ℕ} {r : CsResult MutexInner} {pc : Pc T}
    {k : Kernel} (hcr : σ.kernel.crTid = some cr)
    (hr : Unlocks (σ.mutexes m) ((σ.kernel.enqueueBack (σ.condVars c) cr).1.park cr) cr r)
    (hpc : pc = .condUnlocked c m ∨ pc = .condRelock c m)
    (hk : r.kernel.yieldIf true = some k) :
    Stepped σ.kernel k (fun t => (t = cr ∨ σ.kernel.Parked t) ∧
      (t ∈ (σ.mutexes m).waitQueue.tids → t ∈ r.inner.waitQueue.tids)) ∧
    ({ σ with
      kernel := k
      mutexes := Function.update σ.mutexes m r.inner
      condVars := Function.update σ.condVars c (σ.kernel.enqueueBack (σ.condVars c) cr).2
      pc := Function.update σ.pc cr pc }.setGuards cr m (σ.guards cr m - 1)).Queued := by
  have hc := h.running hcr
  have hno := h.not_mem hcr
  have hback : (σ.kernel.enqueueBack (σ.condVars c) cr).1 = σ.kernel :=
    (enqueueBack_eq (h.nodup (.condVar c)) (hno (.condVar c))).1
  have hlist : (σ.kernel.enqueueBack (σ.condVars c) cr).2.tids = (σ.condVars c).tids ++ [cr] :=
    (enqueueBack_eq (h.nodup (.condVar c)) (hno (.condVar c))).2
  rw [hback] at hr
  have hpark := hc.toCoherent.writes_park hc.current_mem
  have hqueue : ∀ t ∈ (σ.mutexes m).waitQueue.tids, (σ.kernel.park cr).Parked t :=
    fun t ht => (hpark.parked t).mpr (.inr (h.waits (.mutex m) t ht).2)
  have hwrites := hpark.trans (hpark.coherent.writes_unlock (h.nodup (.mutex m)) hqueue hr)
  have hstep : Stepped σ.kernel k fun t => (t = cr ∨ σ.kernel.Parked t) ∧
      (t ∈ (σ.mutexes m).waitQueue.tids → t ∈ r.inner.waitQueue.tids) := by
    refine (hwrites.imp fun t => ?_).stepped hc.onCpu (by simp) hk
    rw [hpark.parked]
  have hp : pc.IsLock ∧ pc.waitsFor = some (.condVar c) := by
    rcases hpc with rfl | rfl <;> exact ⟨trivial, rfl⟩
  have hsub := unlock_sublist hr
  refine ⟨hstep, queued_of_stepped hstep (isLock_update h.pcs hp.1) (fun q => ?_) fun q t ht => ?_⟩
  · cases q with
    | sema s => exact h.nodup (.sema s)
    | mutex m' =>
        show (Function.update σ.mutexes m r.inner m').waitQueue.tids.Nodup
        rw [Function.update_apply]
        split_ifs
        · exact (h.nodup (.mutex m)).sublist hsub
        · exact h.nodup (.mutex m')
    | condVar c' =>
        show (Function.update σ.condVars c _ c').tids.Nodup
        rw [Function.update_apply]
        split_ifs
        · rw [hlist]
          have hdisj : ∀ u ∈ (σ.condVars c).tids, u ≠ cr := by
            rintro u hu rfl
            exact hno (.condVar c) hu
          refine List.nodup_append.mpr ⟨h.nodup (.condVar c), List.nodup_singleton cr, ?_⟩
          intro u hu v hv
          rw [List.mem_singleton] at hv
          rw [hv]
          exact hdisj u hu
        · exact h.nodup (.condVar c')
  · -- a task that was queued before still is, unless it has been handed the mutex
    have hold : t ∈ (σ.waitQueue q).tids →
        (t ∈ (σ.mutexes m).waitQueue.tids → t ∈ r.inner.waitQueue.tids) →
        (Function.update σ.pc cr pc t).waitsFor = some q ∧ (t = cr ∨ σ.kernel.Parked t) ∧
          (t ∈ (σ.mutexes m).waitQueue.tids → t ∈ r.inner.waitQueue.tids) := by
      intro hm hmutex
      rw [Function.update_of_ne]
      · exact ⟨(h.waits q t hm).1, .inr (h.waits q t hm).2, hmutex⟩
      · rintro rfl
        exact hno q hm
    have hother : q ≠ .mutex m → t ∈ (σ.waitQueue q).tids →
        (t ∈ (σ.mutexes m).waitQueue.tids → t ∈ r.inner.waitQueue.tids) := by
      intro hq hm hmutex
      have heq := (h.waits q t hm).1.symm.trans (h.waits (.mutex m) t hmutex).1
      exact absurd (Option.some.inj heq) hq
    cases q with
    | sema s => exact hold ht (hother (by simp) ht)
    | mutex m' =>
        replace ht : t ∈ (Function.update σ.mutexes m r.inner m').waitQueue.tids := ht
        rw [Function.update_apply] at ht
        split_ifs at ht with hm
        · subst hm
          exact hold (hsub.subset ht) fun _ => ht
        · exact hold ht (hother (by simpa using hm) ht)
    | condVar c' =>
        replace ht : t ∈ (Function.update σ.condVars c _ c').tids := ht
        rw [Function.update_apply] at ht
        split_ifs at ht with hcc
        · subst hcc
          rw [hlist, List.mem_append, List.mem_singleton] at ht
          rcases ht with ht | rfl
          · exact hold ht (hother (by simp) ht)
          · refine ⟨?_, .inl rfl, fun hm => absurd hm (hno (.mutex m))⟩
            show (Function.update σ.pc t pc t).waitsFor = some (.condVar c')
            rw [Function.update_self]
            exact hp.2
        · exact hold ht (hother (by simp) ht)

/-- **The wait queues along a step.** -/
theorem Queued.step (h : σ.Queued) (hs : LockStep σ a σ') : σ'.Queued ∧ Survives σ a σ' := by
  obtain ⟨c, hc⟩ := h.settled
  have hidle := h.idle
  cases hs with
  | tick hk =>
      have hstep := (systickTrap_switched hc hk).stepped hc.toCoherent
      exact ⟨h.keep hstep rfl fun t => .inl rfl, survives hstep _⟩
  | switch hk =>
      have hstep := (hc.toCoherent.yieldIf hc.onCpu (by simp) hk).stepped hc.toCoherent
      exact ⟨h.keep hstep rfl fun t => .inl rfl, survives hstep _⟩
  | task hcr hpc hcall hs => exact h.task hcr hcall hs
  | @sema _ s i pc hist hi hpc =>
      refine ⟨h.keep hidle ?_ fun t => ?_, survives hidle _⟩
      · refine (waitQueue_sema σ s i).trans ?_
        rw [hi]
        exact Function.update_eq_self (Res.sema s) σ.waitQueue
      · rcases hpc with ⟨-, rfl⟩ | ⟨-, cr, hcr, -, rfl⟩
        · exact .inl rfl
        · exact moves_update .user hcr trivial t
  | @block cr s n k hcr hpc hk =>
      have hno := h.not_mem hcr (.sema s)
      have hqn := h.nodup (.sema s)
      have hk' : (σ.kernel.park cr).yieldIf true = some k := by
        rw [← (enqueue_eq (k := σ.kernel.park cr) hqn hno).1]
        exact hk
      have hstep := (h.running hcr).park_stepped hk'
      exact ⟨h.enqueue hcr hstep (nodup_enqueue (k := σ.kernel.park cr) hqn hno)
        (fun t => mem_enqueue (k := σ.kernel.park cr) hqn hno) (waitQueue_sema σ s _)
        (show (Pc.down s : Pc T).IsLock from trivial) rfl rfl, survives hstep _⟩
  | @up _ w s i b k hist ha hcons hk =>
      exact h.wakeFront (r := .sema s) hcons hk (waitQueue_sema σ s _) rfl
  | @enter _ cr m i hcr hl hi =>
      have hqueue : i.waitQueue = (σ.mutexes m).waitQueue := by
        rcases hi with ⟨-, rfl⟩ | ⟨-, rfl⟩ <;> rfl
      refine ⟨h.keep hidle ?_ (moves_update .user hcr trivial), survives hidle _⟩
      refine (waitQueue_mutex σ m i).trans ?_
      rw [hqueue]
      exact Function.update_eq_self (Res.mutex m) σ.waitQueue
  | @contend _ cr o m k hcr hl ho hne hk =>
      have hno := h.not_mem hcr (.mutex m)
      have hqn := h.nodup (.mutex m)
      set k₁ := (σ.kernel.boost o (σ.kernel.priority cr)).park cr with hk₁
      have hk' : k₁.yieldIf true = some k := by
        rw [← (enqueue_eq (k := k₁) hqn hno).1]
        exact hk
      have hstep := (h.running hcr).contend_stepped hk'
      exact ⟨h.enqueue hcr hstep (nodup_enqueue (k := k₁) hqn hno)
        (fun t => mem_enqueue (k := k₁) hqn hno) (waitQueue_mutex σ m _)
        (show (Pc.lock m : Pc T).IsLock from trivial) rfl rfl, survives hstep _⟩
  | resume hcr hpc =>
      exact ⟨h.keep hidle rfl (moves_update .user hcr trivial), survives hidle _⟩
  | @unlock cr m r k hcr hpc hg hr hk =>
      have hrun := h.running hcr
      have hp : ∀ t ∈ (σ.mutexes m).waitQueue.tids, σ.kernel.Parked t :=
        fun t ht => (h.waits (.mutex m) t ht).2
      have hset := hrun.unlock hp hr
      have hw := hrun.toCoherent.writes_unlock (h.nodup (.mutex m)) hp hr
      have hstep := hw.stepped hrun.onCpu (fun _ => hset.current_mem) hk
      exact ⟨h.dequeue (r := .mutex m) hstep (unlock_sublist hr) (waitQueue_mutex σ m _) rfl,
        survives hstep _⟩
  | wait hcr hpc hg hr hnext hk =>
      obtain ⟨hstep, hq⟩ := h.wait hcr hr hnext hk
      exact ⟨hq, survives hstep _⟩
  | @condYield cr c' m k hcr hpc hk =>
      have hstep := (hc.toCoherent.yieldIf hc.onCpu (by simp) hk).stepped hc.toCoherent
      exact ⟨h.keep hstep rfl (moves_update (.condRelock c' m) hcr trivial), survives hstep _⟩
  | @notify cr w c queue k hcr hpc hcons hk =>
      exact h.wakeFront (r := .condVar c) hcons hk (waitQueue_condVar σ c _) rfl
  | notifyNone hnil => exact ⟨h, survives hidle _⟩
  | @notifyAll cr c k hcr hpc hk =>
      have hrun := h.running hcr
      have hp : ∀ t ∈ (σ.condVars c).tids, σ.kernel.Parked t :=
        fun t ht => (h.waits (.condVar c) t ht).2
      have hw := hrun.toCoherent.writes_wakeAll (h.nodup (.condVar c)) hp
      have hstay : (!(σ.condVars c).isEmpty) = false →
          cr ∈ (σ.kernel.wakeAll (σ.condVars c).tids).readyList.tids := by
        intro hempty
        have hnil : (σ.condVars c).tids = [] := by
          simpa [TaskList.isEmpty] using hempty
        rw [hnil]
        exact hrun.current_mem
      have hstep := hw.stepped hrun.onCpu hstay hk
      refine ⟨h.dequeue (r := .condVar c) (hstep.imp fun t => ?_) (List.nil_sublist _)
        (waitQueue_condVar σ c _) rfl, survives hstep _⟩
      rw [and_comm]
      exact and_congr_right fun _ => ⟨fun hm hm' => absurd hm' hm, fun hm hm' => by cases hm hm'⟩

end System

end MosKernel
