import MosKernel.Inheritance
import MosKernel.PeerWakes

/-!
# The order of wait queues

A wait queue is ordered when a task is put on it, by the priorities of that moment.  Priority inheritance
changes priorities later: of an owner, wherever it waits meanwhile, and of a task that leaves a mutex.
`Evolves` is what a step does to one wait list, and `OrderStep` collects it for all lists with the
priorities after the step.  `waits_in_order` says that all lists stay sorted, and that every waiter taken
from the front is one of the most urgent, exactly as long as no step moves a priority out of its place in a
list.
-/

namespace MosKernel

open OrderedInsert TaskList Transition Kernel

variable {T : Type} {cap : ℕ → ℕ} {σ σ₁ σ' : System T} {a : Action T}

/-! ### One list -/

/-- Sorted by priority, the most urgent task first. -/
def TaskList.SortedBy (l : TaskList) (pri : Tid → ℕ) : Prop :=
  l.tids.Pairwise fun t u => pri t ≤ pri u

/-- What a step does to a wait list: `pri₀` are the priorities before it, `pri` those at the end. -/
inductive Evolves (pri₀ pri : Tid → ℕ) (l : TaskList) : TaskList → Prop
  | same : Evolves pri₀ pri l l
  /-- a task is put in its place -/
  | enqueue {k : Kernel} (t : Tid) : (∀ u, k.priority u = pri u) →
      Evolves pri₀ pri l (k.enqueue l t).2
  /-- the front is taken -/
  | pop {t : Tid} {l' : TaskList} : l.tids = t :: l'.tids → Evolves pri₀ pri l l'
  /-- a task gives up waiting -/
  | quit (t : Tid) : pri₀ = pri → Evolves pri₀ pri l (l.remove t)

namespace Evolves

variable {pri₀ pri : Tid → ℕ} {l l' : TaskList}

/-- A list in the order of the new priorities stays so. -/
theorem sortedBy (h : Evolves pri₀ pri l l') (hl : l.SortedBy pri) : l'.SortedBy pri := by
  cases h with
  | same => exact hl
  | @enqueue k t hk =>
      rcases lt_or_eq_of_le l.le_cap with hlt | hfull
      · have hb : k.isBefore t = fun u => decide (pri t < pri u) := by
          funext u
          simp only [isBefore, hk]
        show (l.kept (l.insertInOrder t (k.isBefore t))).tids.Pairwise _
        rw [(insertInOrder_of_lt hlt).1, hb]
        exact pairwise_insertBefore hl
      · show (l.kept (l.insertInOrder t (k.isBefore t))).tids.Pairwise _
        rw [(insertInOrder_of_full hfull).1]
        exact hl
  | pop hcons =>
      rw [SortedBy, hcons, List.pairwise_cons] at hl
      exact hl.2
  | quit t heq =>
      rw [SortedBy, remove_tids]
      exact hl.sublist List.erase_sublist

/-- The front that is taken comes before all others. -/
theorem front_le {t : Tid} (hl : l.SortedBy pri) (hcons : l.tids = t :: l'.tids) :
    ∀ u ∈ l'.tids, pri t ≤ pri u := by
  rw [SortedBy, hcons, List.pairwise_cons] at hl
  exact hl.1

/-- Conversely, the order after the step and an urgent front give the order before it. -/
theorem sortedBy_of (h : Evolves pri₀ pri l l') (hl₀ : l.SortedBy pri₀) (hl' : l'.SortedBy pri)
    (hfront : ∀ t, l.tids = t :: l'.tids → ∀ u ∈ l'.tids, pri t ≤ pri u) : l.SortedBy pri := by
  cases h with
  | same => exact hl'
  | @enqueue k t hk =>
      rcases lt_or_eq_of_le l.le_cap with hlt | hfull
      · replace hl' : (l.kept (l.insertInOrder t (k.isBefore t))).tids.Pairwise _ := hl'
        rw [(insertInOrder_of_lt hlt).1] at hl'
        exact hl'.sublist (sublist_insertBefore _ t l.tids)
      · replace hl' : (l.kept (l.insertInOrder t (k.isBefore t))).tids.Pairwise _ := hl'
        rw [(insertInOrder_of_full hfull).1] at hl'
        exact hl'
  | @pop t l' hcons =>
      rw [SortedBy, hcons, List.pairwise_cons]
      exact ⟨hfront t hcons, hl'⟩
  | quit t heq =>
      rw [← heq]
      exact hl₀

end Evolves

/-! ### Sections -/

namespace Kernel

variable {k k' : Kernel}

theorem frame_systickTick {r : Bool} (hk : k.systickTick = some (k', r)) : Frame k k' := by
  unfold systickTick at hk
  split_ifs at hk
  · cases hk
    exact Frame.refl k
  · obtain ⟨cr, -, he⟩ := Option.map_eq_some_iff.mp hk
    cases he
    exact (frame_advanceTicks k).trans (frame_chargeSlice k.advanceTicks cr)

theorem frame_systickReplay {missed : ℕ} {r : Bool} (hk : k.systickReplay missed = some (k', r)) :
    Frame k k' := by
  induction missed generalizing k' r with
  | zero => exact frame_systickTick hk
  | succ missed ih =>
      obtain ⟨⟨k₁, r₁⟩, hk₁, hk⟩ := Option.bind_eq_some_iff.mp hk
      obtain ⟨⟨k₂, r₂⟩, hk₂, hk⟩ := Option.bind_eq_some_iff.mp hk
      cases hk
      exact (ih hk₁).trans (frame_systickTick hk₂)

theorem frame_systickTrap {missed : ℕ} (hk : k.systickTrap missed = some k') : Frame k k' := by
  obtain ⟨⟨k₁, r⟩, hk₁, hk⟩ := Option.bind_eq_some_iff.mp hk
  exact (frame_systickReplay hk₁).trans (frame_yieldIf hk)

theorem frame_delay {ticks : BitVec 32} (hk : k.delay ticks = some k') : Frame k k' := by
  unfold delay at hk
  split_ifs at hk
  · cases hk
    exact Frame.refl k
  · obtain ⟨cr, -, hk⟩ := Option.bind_eq_some_iff.mp hk
    exact (frame_sleep k cr ticks).trans (frame_yieldTask hk)

theorem down_order (i : SemaInner) (k : Kernel) (c : Tid) : Frame k (i.down k c).kernel ∧
    Evolves k.priority k.priority i.waitQueue (i.down k c).inner.waitQueue := by
  rcases lt_or_ge (wrapI32 (i.count - 1)) 0 with hneg | hpos
  · rw [SemaInner.down_of_neg hneg]
    exact ⟨(frame_park k c).trans (frame_enqueue (k.park c) i.waitQueue c),
      .enqueue c (frame_park k c).priority⟩
  · rw [SemaInner.down_of_nonneg (not_lt.mpr hpos)]
    exact ⟨Frame.refl k, .same⟩

theorem downTimeoutBlock_order (i : SemaInner) (k : Kernel) (c : Tid) (ticks : BitVec 32) :
    Frame k (i.downTimeoutBlock k c ticks).kernel ∧
      Evolves k.priority k.priority i.waitQueue (i.downTimeoutBlock k c ticks).inner.waitQueue := by
  refine ⟨?_, .enqueue c (frame_park k c).priority⟩
  have hset : Frame (k.park c) (((k.park c).enqueue i.waitQueue c).1.setTcb c fun tcb =>
      { tcb with wakePoint := k.osTicks + ticks }) := by
    constructor <;> simp [Kernel.priority, Function.update_apply] <;> grind
  exact ((frame_park k c).trans hset).trans (frame_sleepingInsert _ c)

theorem up_order (i : SemaInner) (k : Kernel) : Frame k (i.up k).kernel ∧
    Evolves k.priority k.priority i.waitQueue (i.up k).inner.waitQueue := by
  unfold SemaInner.up
  cases hw : i.woken with
  | none => exact ⟨Frame.refl k, .same⟩
  | some w =>
      unfold SemaInner.woken at hw
      split_ifs at hw
      exact ⟨frame_wake k w.1, .pop (popFront_eq_some.mp hw)⟩

theorem tryWakeUp_order (l : TaskList) (k : Kernel) (c : Tid) : Frame k (tryWakeUp l k c).kernel ∧
    Evolves k.priority k.priority l (tryWakeUp l k c).inner := by
  unfold tryWakeUp
  cases hw : l.popFront with
  | none => exact ⟨Frame.refl k, .same⟩
  | some w => exact ⟨frame_rouse k w.1, .pop (popFront_eq_some.mp hw)⟩

theorem frame_condNotify (queue : TaskList) (k : Kernel) :
    Frame k (condNotify queue k).kernel := by
  unfold condNotify
  cases queue.popFront with
  | none => exact Frame.refl k
  | some w => exact frame_wake k w.1

theorem commitSend_order {i : MsgQueueInner T} {n : ℕ} {k : Kernel} {c : Tid} {m : T}
    (hlt : i.len < n) : Frame k (i.commitSend n k c m).kernel ∧
      Evolves k.priority k.priority i.receivers (i.commitSend n k c m).inner.receivers ∧
        (i.commitSend n k c m).inner.senders = i.senders := by
  rw [MsgQueueInner.commitSend_of_lt hlt]
  have hw := tryWakeUp_order i.receivers k c
  exact ⟨hw.1, hw.2, rfl⟩

theorem commitRecv_order {i : MsgQueueInner T} {n : ℕ} {k : Kernel} {c : Tid}
    {r : T × CsResult (MsgQueueInner T)} (hr : i.commitRecv n k c = some r) :
    Frame k r.2.kernel ∧ Evolves k.priority k.priority i.senders r.2.inner.senders ∧
      r.2.inner.receivers = i.receivers := by
  rw [(MsgQueueInner.commitRecv_eq_some hr).2]
  have hw := tryWakeUp_order i.senders k c
  exact ⟨hw.1, hw.2, rfl⟩

end Kernel

/-! ### The lists of the system -/

/-- A list on which tasks wait in the order of their priorities. -/
inductive WaitList where
  | sema (s : ℕ)
  | mutex (m : ℕ)
  | senders (q : ℕ)
  | receivers (q : ℕ)

/-- `delay` and `yield_task`. -/
def TaskCall.IsDelay : TaskCall → Prop
  | .delay _ | .yieldTask => True
  | _ => False

instance : DecidablePred TaskCall.IsDelay
  | .delay _ | .yieldTask => isTrue trivial
  | .create _ _ | .createRaw _ _ _ | .exitCurrent | .block _ | .resume _ | .terminate _ => isFalse id

/-- No `Task` operation but these. -/
def Action.OnWaits : Action T → Prop
  | .call (.task c) => c.IsDelay
  | _ => True

instance : DecidablePred (Action.OnWaits (T := T))
  | .call (.task c) => inferInstanceAs (Decidable c.IsDelay)
  | .call (.down _) | .call (.downTimeout _ _) | .call (.tryDown _) | .call (.up _)
  | .call (.lock _) | .call (.unlock _) | .call (.wait _ _) | .call (.notify _) | .call (.notifyAll _)
  | .call (.send _ _ _) | .call (.recv _ _)
  | .systick _ | .preempt | .upFromIsr _ | .proceed => isTrue trivial

namespace System

def waitList (σ : System T) : WaitList → TaskList
  | .sema s => (σ.semas s).waitQueue
  | .mutex m => (σ.mutexes m).waitQueue
  | .senders q => (σ.msgQueues q).senders
  | .receivers q => (σ.msgQueues q).receivers

/-- Every wait list is sorted by the current priorities. -/
def WaitsInOrder (σ : System T) : Prop := ∀ w, (σ.waitList w).SortedBy σ.kernel.priority

/-- A waiter that the step takes from the front of a list is one of the most urgent.  The priorities
are those at the end of the step; no section writes a priority after it has taken a waiter. -/
def PopsUrgent (cap : ℕ → ℕ) (σ : System T) (a : Action T) : Prop :=
  ∀ σ' ∈ σ.step cap a, ∀ w t, (σ.waitList w).tids = t :: (σ'.waitList w).tids →
    ∀ u ∈ (σ'.waitList w).tids, σ'.kernel.priority t ≤ σ'.kernel.priority u

/-- The priorities that the step writes agree with the order of every wait list. -/
structure KeepsPlaces (σ : System T) (a : Action T) : Prop where
  /-- an owner that is boosted stands behind no task that is less urgent than it is then -/
  boost : ∀ p ∈ σ.contended a, ∀ w, KeepsOrder σ.kernel.priority p.2
    (min (σ.kernel.priority p.1) (σ.kernel.priority p.2)) (σ.waitList w).tids
  /-- a task that gets its base priority back stands in front of no task that is more urgent -/
  restore : ∀ p ∈ σ.releasing a, ∀ w,
    KeepsOrder σ.kernel.priority p.1 (σ.kernel.base p.1) (σ.waitList w).tids

/-- The priorities after a step. -/
def priorityAfter (σ : System T) (a : Action T) : Tid → ℕ :=
  match σ.contended a, σ.releasing a with
  | some (cr, o), _ => Function.update σ.kernel.priority o
      (min (σ.kernel.priority cr) (σ.kernel.priority o))
  | none, some (cr, _) => Function.update σ.kernel.priority cr (σ.kernel.base cr)
  | none, none => σ.kernel.priority

/-- What a step does to priorities and wait lists. -/
structure OrderStep (σ : System T) (a : Action T) (σ' : System T) : Prop where
  priority : ∀ t, σ'.kernel.priority t = σ.priorityAfter a t
  lists : ∀ w, Evolves σ.kernel.priority (σ.priorityAfter a) (σ.waitList w) (σ'.waitList w)

/-! ### Which priorities change -/

theorem priorityAfter_of_none (hc : σ.contended a = none) (hr : σ.releasing a = none) :
    σ.priorityAfter a = σ.kernel.priority := by
  unfold priorityAfter
  rw [hc, hr]

theorem priorityAfter_of_contended {p : Tid × Tid} (hp : p ∈ σ.contended a) :
    σ.priorityAfter a = Function.update σ.kernel.priority p.2
      (min (σ.kernel.priority p.1) (σ.kernel.priority p.2)) := by
  unfold priorityAfter
  rw [Option.mem_def.mp hp]

theorem priorityAfter_of_releasing {p : Tid × ℕ} (hc : σ.contended a = none)
    (hp : p ∈ σ.releasing a) :
    σ.priorityAfter a = Function.update σ.kernel.priority p.1 (σ.kernel.base p.1) := by
  unfold priorityAfter
  rw [hc, Option.mem_def.mp hp]

/-- One action does not both lock and unlock. -/
theorem contended_of_unlocking {m : ℕ} (hu : a.unlocking = some m) : σ.contended a = none := by
  refine Option.eq_none_iff_forall_not_mem.mpr fun p hp => ?_
  obtain ⟨-, m', hl, -⟩ := mem_contended.mp hp
  unfold Action.unlocking at hu
  split at hu
  · cases hl
  · cases hl
  · cases hu

theorem releasing_of_locking {cr : Tid} {m : ℕ} (hl : σ.locking cr a = some m) :
    σ.releasing a = none := by
  refine releasing_eq_none fun m' hu => ?_
  unfold System.locking at hl
  split at hl
  · cases hu
  · cases hu
  · cases hl

/-- Where the lists are sorted, the condition on a step is that they are sorted by the priorities after
it. -/
theorem WaitsInOrder.keepsPlaces_iff (h : σ.WaitsInOrder) :
    σ.KeepsPlaces a ↔ ∀ w, (σ.waitList w).SortedBy (σ.priorityAfter a) := by
  cases hc : σ.contended a with
  | some p =>
      have hr : σ.releasing a = none := by
        obtain ⟨-, m, hl, -⟩ := mem_contended.mp (Option.mem_def.mpr hc)
        exact releasing_of_locking hl
      rw [priorityAfter_of_contended (Option.mem_def.mpr hc)]
      constructor
      · intro hk w
        exact (pairwise_update_iff (h w)).mpr (hk.boost p hc w)
      · intro hs
        refine ⟨fun p' hp' w => ?_, fun p' hp' => ?_⟩
        · rw [Option.mem_unique hp' hc]
          exact (pairwise_update_iff (h w)).mp (hs w)
        · rw [hr] at hp'
          cases hp'
  | none =>
      cases hr : σ.releasing a with
      | some p =>
          rw [priorityAfter_of_releasing hc (Option.mem_def.mpr hr)]
          constructor
          · intro hk w
            exact (pairwise_update_iff (h w)).mpr (hk.restore p hr w)
          · intro hs
            refine ⟨fun p' hp' => ?_, fun p' hp' w => ?_⟩
            · rw [hc] at hp'
              cases hp'
            · rw [Option.mem_unique hp' hr]
              exact (pairwise_update_iff (h w)).mp (hs w)
      | none =>
          rw [priorityAfter_of_none hc hr]
          refine iff_of_true ⟨fun p' hp' => ?_, fun p' hp' => ?_⟩ h
          · rw [hc] at hp'
            cases hp'
          · rw [hr] at hp'
            cases hp'

/-- **Order along a step.** -/
theorem WaitsInOrder.step_iff (h : σ.WaitsInOrder) (hs : σ.step cap a = some σ')
    (ho : OrderStep σ a σ') : σ.KeepsPlaces a ↔ σ'.WaitsInOrder ∧ PopsUrgent cap σ a := by
  have hpri : σ'.kernel.priority = σ.priorityAfter a := funext ho.priority
  rw [h.keepsPlaces_iff]
  constructor
  · intro hl
    refine ⟨fun w => ?_, fun σ₁ hs₁ w t hcons => ?_⟩
    · rw [hpri]
      exact (ho.lists w).sortedBy (hl w)
    · rw [hs] at hs₁
      cases hs₁
      rw [hpri]
      exact Evolves.front_le (hl w) hcons
  · rintro ⟨hl, hpop⟩ w
    have hlw := hl w
    rw [hpri] at hlw
    refine (ho.lists w).sortedBy_of (h w) hlw fun t hcons => ?_
    rw [← hpri]
    exact hpop σ' hs w t hcons

/-! ### The steps -/

/-- A step that locks no mutex that somebody else owns and leaves none. -/
def Idle (σ : System T) (a : Action T) : Prop := σ.contended a = none ∧ σ.releasing a = none

theorem Idle.of_locking (hl : ∀ cr, σ.kernel.crTid = some cr → σ.locking cr a = none)
    (hu : a.unlocking = none) : σ.Idle a := by
  refine ⟨Option.eq_none_iff_forall_not_mem.mpr fun p hp => ?_, releasing_eq_none ?_⟩
  · obtain ⟨hcr, m, hm, -⟩ := mem_contended.mp hp
    rw [hl p.1 hcr] at hm
    cases hm
  · rw [hu]
    simp

/-- A step that touches no wait list. -/
theorem Idle.frame (h : σ.Idle a) (hf : Frame σ.kernel σ'.kernel)
    (hl : ∀ w, σ'.waitList w = σ.waitList w) : OrderStep σ a σ' := by
  refine ⟨fun t => ?_, fun w => ?_⟩
  · rw [priorityAfter_of_none h.1 h.2]
    exact hf.priority t
  · rw [hl w]
    exact .same

/-- A step that touches one wait list. -/
theorem OrderStep.one (w₀ : WaitList) (hp : ∀ t, σ'.kernel.priority t = σ.priorityAfter a t)
    (hw₀ : Evolves σ.kernel.priority (σ.priorityAfter a) (σ.waitList w₀) (σ'.waitList w₀))
    (hl : ∀ w, w ≠ w₀ → σ'.waitList w = σ.waitList w) : OrderStep σ a σ' := by
  refine ⟨hp, fun w => ?_⟩
  by_cases hw : w = w₀
  · rw [hw]
    exact hw₀
  · rw [hl w hw]
    exact .same

theorem Idle.one (h : σ.Idle a) (w₀ : WaitList) (hf : Frame σ.kernel σ'.kernel)
    (hw₀ : Evolves σ.kernel.priority σ.kernel.priority (σ.waitList w₀) (σ'.waitList w₀))
    (hl : ∀ w, w ≠ w₀ → σ'.waitList w = σ.waitList w) : OrderStep σ a σ' := by
  have hpri := priorityAfter_of_none h.1 h.2
  apply OrderStep.one w₀
  · rw [hpri]
    exact hf.priority
  · rw [hpri]
    exact hw₀
  · exact hl

/-- A switch at the end of a step. -/
theorem OrderStep.yieldIf {σ₂ : System T} {b : Bool} (h : OrderStep σ a σ₁)
    (hs : σ₂.yieldIf b = some σ') (hk : σ₂.kernel = σ₁.kernel)
    (hl : ∀ w, σ₂.waitList w = σ₁.waitList w) : OrderStep σ a σ' := by
  obtain ⟨k, hyield, rfl⟩ := yieldIf_eq_some hs
  have hf : Frame σ₁.kernel k := hk ▸ frame_yieldIf hyield
  refine ⟨fun t => (hf.priority t).trans (h.priority t), fun w => ?_⟩
  have hw := h.lists w
  rw [← hl w] at hw
  exact hw

/-- A section of a semaphore. -/
theorem Idle.sema (h : σ.Idle a) (s : ℕ) {r : CsResult SemaInner} (hf : Frame σ.kernel r.kernel)
    (hi : Evolves σ.kernel.priority σ.kernel.priority (σ.semas s).waitQueue r.inner.waitQueue) :
    OrderStep σ a (σ.putSema s r) := by
  apply h.one (.sema s) hf
  · show Evolves _ _ _ (Function.update σ.semas s r.inner s).waitQueue
    rw [Function.update_self]
    exact hi
  · intro w hw
    cases w with
    | sema s' =>
        show (Function.update σ.semas s r.inner s').waitQueue = (σ.semas s').waitQueue
        rw [Function.update_of_ne]
        exact fun hss => hw (congrArg WaitList.sema hss)
    | _ => rfl

/-- `try_down` leaves the queue alone. -/
theorem Idle.semaTryDown (h : σ.Idle a) (s : ℕ) :
    OrderStep σ a (σ.putSema s ⟨σ.kernel, ((σ.semas s).tryDown).1, false⟩) := by
  apply h.sema s (Frame.refl _)
  show Evolves _ _ _ ((σ.semas s).tryDown).1.waitQueue
  unfold SemaInner.tryDown
  split_ifs
  · exact .same
  · exact .same

/-- A section of a message queue. -/
theorem Idle.msgQueue (h : σ.Idle a) (q : ℕ) {r : CsResult (MsgQueueInner T)}
    (hf : Frame σ.kernel r.kernel)
    (hs : Evolves σ.kernel.priority σ.kernel.priority (σ.msgQueues q).senders r.inner.senders)
    (hr : Evolves σ.kernel.priority σ.kernel.priority (σ.msgQueues q).receivers r.inner.receivers) :
    OrderStep σ a (σ.putMsgQueue q r) := by
  have hpri := priorityAfter_of_none h.1 h.2
  constructor
  · rw [hpri]
    exact hf.priority
  · intro w
    rw [hpri]
    cases w with
    | senders q' =>
        show Evolves _ _ (σ.msgQueues q').senders (Function.update σ.msgQueues q r.inner q').senders
        by_cases hq : q' = q
        · rw [hq, Function.update_self]
          exact hs
        · rw [Function.update_of_ne hq]
          exact .same
    | receivers q' =>
        show Evolves _ _ (σ.msgQueues q').receivers
          (Function.update σ.msgQueues q r.inner q').receivers
        by_cases hq : q' = q
        · rw [hq, Function.update_self]
          exact hr
        · rw [Function.update_of_ne hq]
          exact .same
    | _ => exact .same

/-- A section of a mutex. -/
theorem OrderStep.mutex {m : ℕ} {r : CsResult MutexInner}
    (hp : ∀ t, r.kernel.priority t = σ.priorityAfter a t)
    (hi : Evolves σ.kernel.priority (σ.priorityAfter a) (σ.mutexes m).waitQueue r.inner.waitQueue) :
    OrderStep σ a (σ.putMutex m r) := by
  apply OrderStep.one (.mutex m) hp
  · show Evolves _ _ _ (Function.update σ.mutexes m r.inner m).waitQueue
    rw [Function.update_self]
    exact hi
  · intro w hw
    cases w with
    | mutex m' =>
        show (Function.update σ.mutexes m r.inner m').waitQueue = (σ.mutexes m').waitQueue
        rw [Function.update_of_ne]
        exact fun hmm => hw (congrArg WaitList.mutex hmm)
    | _ => rfl

/-- A lock boosts the owner, if it is somebody else. -/
theorem OrderStep.mutexLock {cr : Tid} {m : ℕ} (hcr : σ.kernel.crTid = some cr)
    (hl : σ.locking cr a = some m) :
    OrderStep σ a (σ.putMutex m ((σ.mutexes m).lock σ.kernel cr)) := by
  have hrel : σ.releasing a = none := releasing_of_locking hl
  by_cases hown : ∃ o, (σ.mutexes m).owner = some o ∧ o ≠ cr
  · obtain ⟨o, ho, hne⟩ := hown
    have hmem : (cr, o) ∈ σ.contended a := mem_contended.mpr ⟨hcr, m, hl, ho, hne⟩
    have hpri : ∀ t, (σ.kernel.boost o (σ.kernel.priority cr)).priority t = σ.priorityAfter a t := by
      intro t
      rw [priority_boost, priorityAfter_of_contended hmem, Function.update_apply]
    rw [MutexInner.lock_of_held ho hne]
    have hpark := frame_park (σ.kernel.boost o (σ.kernel.priority cr)) cr
    apply OrderStep.mutex
    · exact fun t => (hpark.priority t).trans (hpri t)
    · exact .enqueue cr fun t => (hpark.priority t).trans (hpri t)
  · have hcont : σ.contended a = none := by
      refine contended_eq_none hcr fun m' hm' o ho => ?_
      rw [hl] at hm'
      cases hm'
      by_contra hne
      exact hown ⟨o, ho, hne⟩
    have hsame : ((σ.mutexes m).lock σ.kernel cr).kernel = σ.kernel ∧
        ((σ.mutexes m).lock σ.kernel cr).inner.waitQueue = (σ.mutexes m).waitQueue := by
      cases ho : (σ.mutexes m).owner with
      | none =>
          rw [MutexInner.lock_of_free ho]
          exact ⟨rfl, rfl⟩
      | some o =>
          have hself : o = cr := by
            by_contra hne
            exact hown ⟨o, ho, hne⟩
          rw [MutexInner.lock_of_self (hself ▸ ho)]
          exact ⟨rfl, rfl⟩
    apply OrderStep.mutex
    · rw [priorityAfter_of_none hcont hrel, hsame.1]
      exact fun t => rfl
    · rw [hsame.2]
      exact .same

/-- An unlock restores the priority of the caller before it takes a waiter. -/
theorem OrderStep.mutexUnlock {cr : Tid} {m : ℕ} {k : Kernel} (hcr : σ.kernel.crTid = some cr)
    (hu : a.unlocking = some m) (hf : Frame σ.kernel k) :
    OrderStep σ a (σ.putMutex m ((σ.mutexes m).unlock k cr)) := by
  have hcont : σ.contended a = none := contended_of_unlocking hu
  have hr := (σ.mutexes m).unlocks k cr
  set r := (σ.mutexes m).unlock k cr with hrdef
  by_cases hone : (σ.mutexes m).recursiveCount = 1
  · have hmem : (cr, m) ∈ σ.releasing a := mem_releasing.mpr ⟨hcr, hu, hone⟩
    obtain ⟨-, -, hpri⟩ := unlocks_of_eq_one hr hone
    apply OrderStep.mutex
    · intro t
      rw [hpri, priorityAfter_of_releasing hcont hmem, Function.update_apply, hf.base, hf.priority]
    · clear_value r
      cases hr with
      | leave _ => exact .same
      | release _ hnil hb => exact .same
      | handOff _ hcons hb => exact .pop hcons
  · obtain ⟨-, hqueue, hk⟩ := unlocks_of_ne_one hr hone
    have hnone : σ.releasing a = none := by
      refine releasing_eq_none fun m' hm' => ?_
      rw [hu] at hm'
      cases hm'
      exact hone
    apply OrderStep.mutex
    · rw [priorityAfter_of_none hcont hnone, hk]
      exact hf.priority
    · rw [hqueue]
      exact .same

/-! ### The sections of the calls -/

/-- The history has no part in it. -/
theorem OrderStep.of_log {e : Event T} (h : OrderStep (σ.log e) a σ') : OrderStep σ a σ' :=
  ⟨h.priority, h.lists⟩

theorem Idle.log (h : σ.Idle a) (e : Event T) : (σ.log e).Idle a := h

variable {cr : Tid}

theorem Idle.commitSend {q : ℕ} {msg : T} (h : σ.Idle a) (hlt : (σ.msgQueues q).len < cap q)
    (hs : σ.commitSend cap cr q msg = some σ') : OrderStep σ a σ' := by
  obtain ⟨hf, hev, hsend⟩ := commitSend_order (k := σ.kernel) (c := cr) (m := msg) hlt
  exact (h.msgQueue q hf (hsend ▸ .same) hev).yieldIf hs rfl fun w => rfl

theorem Idle.commitRecv {q : ℕ} (h : σ.Idle a) (hs : σ.commitRecv cap cr q = some σ') :
    OrderStep σ a σ' := by
  obtain ⟨⟨msg, r⟩, hr, hs⟩ := Option.bind_eq_some_iff.mp hs
  obtain ⟨hf, hev, hrecv⟩ := commitRecv_order hr
  exact (h.msgQueue q hf hev (hrecv ▸ .same)).yieldIf hs rfl fun w => rfl

theorem Idle.delay {ticks : BitVec 32} (h : σ.Idle a) (hs : σ₁.delay ticks = some σ')
    (hk : σ₁.kernel = σ.kernel) (hl : ∀ w, σ₁.waitList w = σ.waitList w) : OrderStep σ a σ' := by
  obtain ⟨k, hd, rfl⟩ := Option.map_eq_some_iff.mp hs
  rw [hk] at hd
  exact h.frame (frame_delay hd) hl

/-- A call or a section that is no lock and no unlock. -/
theorem idle_of_crTid (hcr : σ.kernel.crTid = some cr) (hl : σ.locking cr a = none)
    (hu : a.unlocking = none) : σ.Idle a := by
  refine Idle.of_locking (fun cr' hcr' => ?_) hu
  rw [hcr] at hcr'
  cases hcr'
  exact hl

theorem Idle.task {c : TaskCall} (h : σ.Idle a) (hok : (Action.call (.task c) : Action T).OnWaits)
    (hs : σ.task c = some σ') : OrderStep σ a σ' := by
  obtain ⟨⟨k, new⟩, hexec, rfl⟩ := Option.map_eq_some_iff.mp hs
  cases c with
  | delay ticks =>
      obtain ⟨k₁, hk, he⟩ := Option.map_eq_some_iff.mp hexec
      cases he
      exact h.frame (frame_delay hk) fun w => rfl
  | yieldTask =>
      obtain ⟨k₁, hk, he⟩ := Option.map_eq_some_iff.mp hexec
      cases he
      exact h.frame (frame_yieldTask hk) fun w => rfl
  | _ => exact hok.elim

theorem Idle.down {s : ℕ} (h : σ.Idle a) (hs : σ.down cr s = some σ') : OrderStep σ a σ' := by
  obtain ⟨hf, hev⟩ := down_order (σ.semas s) σ.kernel cr
  unfold System.down at hs
  dsimp only at hs
  split_ifs at hs
  · exact (h.sema s hf hev).yieldIf hs rfl fun w => rfl
  · exact (h.sema s hf hev).yieldIf hs rfl fun w => rfl

theorem Idle.tryDown (h : σ.Idle a) (cr : Tid) (s : ℕ) : OrderStep σ a (σ.tryDown cr s) := by
  have htry := h.semaTryDown s
  unfold System.tryDown
  dsimp only
  split_ifs
  · exact ⟨htry.priority, htry.lists⟩
  · exact ⟨htry.priority, htry.lists⟩

theorem Idle.downTimeout (h : σ.Idle a) (cr : Tid) (s : ℕ) (ticks : BitVec 32) :
    OrderStep σ a (σ.downTimeout cr s ticks) := by
  have htry := h.semaTryDown s
  unfold System.downTimeout
  dsimp only
  split_ifs
  · exact ⟨htry.priority, htry.lists⟩
  · exact ⟨htry.priority, htry.lists⟩
  · exact ⟨htry.priority, htry.lists⟩

theorem Idle.downTimeoutBlock {s : ℕ} {ticks : BitVec 32} (h : σ.Idle a)
    (hs : σ.downTimeoutBlock cr s ticks = some σ') : OrderStep σ a σ' := by
  obtain ⟨hf, hev⟩ := downTimeoutBlock_order (σ.semas s) σ.kernel cr ticks
  exact (h.sema s hf hev).yieldIf hs rfl fun w => rfl

theorem Idle.downTimeoutCheck (h : σ.Idle a) (cr : Tid) (s : ℕ) :
    OrderStep σ a (σ.downTimeoutCheck cr s) := by
  have hput : OrderStep σ a
      (σ.putSema s ⟨σ.kernel, ((σ.semas s).downTimeoutCheck cr).1, false⟩) := by
    apply h.sema s (Frame.refl _)
    show Evolves _ _ _ ((σ.semas s).downTimeoutCheck cr).1.waitQueue
    unfold SemaInner.downTimeoutCheck
    split_ifs
    · exact .quit cr rfl
    · exact .same
  unfold System.downTimeoutCheck
  dsimp only
  split_ifs
  · exact ⟨hput.priority, hput.lists⟩
  · exact ⟨hput.priority, hput.lists⟩

theorem Idle.up {s : ℕ} (h : σ.Idle a) (hs : σ.up s = some σ') : OrderStep σ a σ' := by
  obtain ⟨hf, hev⟩ := up_order (σ.semas s) σ.kernel
  exact (h.sema s hf hev).yieldIf hs rfl fun w => rfl

/-- `lock`, and the second half of `CondVar::wait`. -/
theorem OrderStep.lock {m : ℕ} (hcr : σ.kernel.crTid = some cr) (hl : σ.locking cr a = some m)
    (hs : σ.lock cr m = some σ') : OrderStep σ a σ' := by
  have hlock := OrderStep.mutexLock hcr hl
  unfold System.lock at hs
  dsimp only at hs
  split_ifs at hs
  · exact hlock.yieldIf hs rfl fun w => rfl
  · exact hlock.yieldIf hs rfl fun w => rfl

theorem OrderStep.unlock {m : ℕ} (hcr : σ.kernel.crTid = some cr) (hu : a.unlocking = some m)
    (hs : σ.unlock cr m = some σ') : OrderStep σ a σ' :=
  (OrderStep.mutexUnlock hcr hu (Frame.refl σ.kernel)).yieldIf hs rfl fun _ => rfl

/-- The list of a condition variable is not kept in order, so only the unlock counts. -/
theorem OrderStep.wait {c m : ℕ} (hcr : σ.kernel.crTid = some cr) (hu : a.unlocking = some m)
    (hs : σ.wait cr c m = some σ') : OrderStep σ a σ' := by
  have hf := (frame_enqueueBack σ.kernel (σ.condVars c) cr).trans (frame_park _ cr)
  exact (OrderStep.mutexUnlock hcr hu hf).yieldIf hs rfl fun w => rfl

theorem Idle.notify {c : ℕ} (h : σ.Idle a) (hs : σ.notify c = some σ') : OrderStep σ a σ' := by
  have hput : OrderStep σ a (σ.putCondVar c (condNotify (σ.condVars c) σ.kernel)) :=
    h.frame (frame_condNotify _ _) fun w => rfl
  exact hput.yieldIf hs rfl fun w => rfl

theorem Idle.notifyAll {c : ℕ} (h : σ.Idle a) (hs : σ.notifyAll c = some σ') : OrderStep σ a σ' := by
  have hput : OrderStep σ a (σ.putCondVar c (condNotifyAll (σ.condVars c) σ.kernel)) :=
    h.frame (frame_wakeAll _ _) fun w => rfl
  exact hput.yieldIf hs rfl fun w => rfl

theorem Idle.send {q : ℕ} {msg : T} {timeout : BitVec 32} (h : σ.Idle a)
    (hs : σ.send cap cr q msg timeout = some σ') : OrderStep σ a σ' := by
  unfold System.send at hs
  dsimp only at hs
  split_ifs at hs with hlt
  · exact ((h.log _).commitSend hlt hs).of_log
  · cases hs
    exact h.frame (Frame.refl _) fun w => rfl
  · cases hs
    exact h.frame (Frame.refl _) fun w => rfl

theorem Idle.recv {q : ℕ} {timeout : BitVec 32} (h : σ.Idle a)
    (hs : σ.recv cap cr q timeout = some σ') : OrderStep σ a σ' := by
  unfold System.recv at hs
  dsimp only at hs
  split_ifs at hs with hlt
  · exact ((h.log _).commitRecv hs).of_log
  · cases hs
    exact h.frame (Frame.refl _) fun w => rfl
  · cases hs
    exact h.frame (Frame.refl _) fun w => rfl

theorem Idle.sendWait (h : σ.Idle a) (cr : Tid) (q : ℕ) (pc : Pc T) :
    OrderStep σ a ((σ.sendWait cr q).setPc cr pc) := by
  have hput := h.msgQueue q
    (r := ⟨(σ.kernel.enqueue (σ.msgQueues q).senders cr).1, { σ.msgQueues q with
      senders := (σ.kernel.enqueue (σ.msgQueues q).senders cr).2 }, false⟩)
    (frame_enqueue _ _ _) (.enqueue cr fun _ => rfl) .same
  exact ⟨hput.priority, hput.lists⟩

theorem Idle.recvWait (h : σ.Idle a) (cr : Tid) (q : ℕ) (pc : Pc T) :
    OrderStep σ a ((σ.recvWait cr q).setPc cr pc) := by
  have hput := h.msgQueue q
    (r := ⟨(σ.kernel.enqueue (σ.msgQueues q).receivers cr).1, { σ.msgQueues q with
      receivers := (σ.kernel.enqueue (σ.msgQueues q).receivers cr).2 }, false⟩)
    (frame_enqueue _ _ _) .same (.enqueue cr fun _ => rfl)
  exact ⟨hput.priority, hput.lists⟩

theorem Idle.sendCheck (h : σ.Idle a) (cr : Tid) (q : ℕ) (msg : T) :
    OrderStep σ a (σ.sendCheck cr q msg) := by
  unfold System.sendCheck
  dsimp only
  split_ifs
  · have hput := h.msgQueue q
      (r := ⟨σ.kernel, { σ.msgQueues q with senders := (σ.msgQueues q).senders.remove cr }, false⟩)
      (Frame.refl _) (.quit cr rfl) .same
    exact ⟨hput.priority, hput.lists⟩
  · exact h.frame (Frame.refl _) fun w => rfl

theorem Idle.recvCheck (h : σ.Idle a) (cr : Tid) (q : ℕ) : OrderStep σ a (σ.recvCheck cr q) := by
  unfold System.recvCheck
  dsimp only
  split_ifs
  · have hput := h.msgQueue q
      (r := ⟨σ.kernel, { σ.msgQueues q with receivers := (σ.msgQueues q).receivers.remove cr }, false⟩)
      (Frame.refl _) .same (.quit cr rfl)
    exact ⟨hput.priority, hput.lists⟩
  · exact h.frame (Frame.refl _) fun w => rfl

/-- The second attempt of `send`, the last one. -/
theorem Idle.sendRetry {q : ℕ} {msg : T} (h : σ.Idle a)
    (hs : (if (σ.msgQueues q).len < cap q then σ.commitSend cap cr q msg else some (σ.timeOut cr q)) =
      some σ') : OrderStep σ a σ' := by
  split_ifs at hs with hlt
  · exact h.commitSend hlt hs
  · cases hs
    exact h.frame (Frame.refl _) fun w => rfl

theorem Idle.recvRetry {q : ℕ} (h : σ.Idle a)
    (hs : (if (σ.msgQueues q).len > 0 then σ.commitRecv cap cr q else some (σ.timeOut cr q)) =
      some σ') : OrderStep σ a σ' := by
  split_ifs at hs with hlt
  · exact h.commitRecv hs
  · cases hs
    exact h.frame (Frame.refl _) fun w => rfl

/-! ### Every action -/

theorem OrderStep.call {c : Call T} (hok : (Action.call c).OnWaits) (hcr : σ.kernel.crTid = some cr)
    (hs : σ.call cap cr c = some σ') : OrderStep σ (.call c) σ' := by
  cases c with
  | task c => exact (idle_of_crTid hcr rfl rfl).task hok hs
  | down s => exact (idle_of_crTid hcr rfl rfl).down hs
  | downTimeout s ticks =>
      cases hs
      exact (idle_of_crTid hcr rfl rfl).downTimeout cr s ticks
  | tryDown s =>
      cases hs
      exact (idle_of_crTid hcr rfl rfl).tryDown cr s
  | up s => exact (idle_of_crTid hcr rfl rfl).up hs
  | lock m =>
      unfold System.call at hs
      dsimp only at hs
      split_ifs at hs
      exact OrderStep.lock hcr rfl hs
  | unlock m =>
      unfold System.call at hs
      dsimp only at hs
      split_ifs at hs
      exact OrderStep.unlock hcr rfl hs
  | wait c m =>
      unfold System.call at hs
      dsimp only at hs
      split_ifs at hs
      exact OrderStep.wait hcr rfl hs
  | notify c => exact (idle_of_crTid hcr rfl rfl).notify hs
  | notifyAll c => exact (idle_of_crTid hcr rfl rfl).notifyAll hs
  | send q msg timeout => exact (idle_of_crTid hcr rfl rfl).send hs
  | recv q timeout => exact (idle_of_crTid hcr rfl rfl).recv hs

/-- Only the second half of `CondVar::wait` locks. -/
theorem idle_proceed {pc : Pc T} (hcr : σ.kernel.crTid = some cr) (hpc : σ.pc cr = pc)
    (hne : ∀ c m, pc ≠ .condRelock c m) : σ.Idle .proceed := by
  refine idle_of_crTid hcr ?_ rfl
  unfold System.locking
  dsimp only
  rw [hpc]
  split
  · rename_i c m
    exact absurd rfl (hne c m)
  · rfl

theorem OrderStep.proceed (hcr : σ.kernel.crTid = some cr) (hs : σ.proceed cap cr = some σ') :
    OrderStep σ .proceed σ' := by
  unfold System.proceed at hs
  cases hpc : σ.pc cr with
  | condRelock c m =>
      rw [hpc] at hs
      refine OrderStep.lock hcr ?_ hs
      unfold System.locking
      dsimp only
      rw [hpc]
  | user =>
      rw [hpc] at hs
      cases hs
  | down s =>
      rw [hpc] at hs
      cases hs
      exact (idle_proceed hcr hpc (by simp)).frame (Frame.refl _) fun w => rfl
  | downTimeoutBlock s ticks =>
      rw [hpc] at hs
      exact (idle_proceed hcr hpc (by simp)).downTimeoutBlock hs
  | downTimeoutCheck s =>
      rw [hpc] at hs
      cases hs
      exact (idle_proceed hcr hpc (by simp)).downTimeoutCheck cr s
  | lock m =>
      rw [hpc] at hs
      cases hs
      exact (idle_proceed hcr hpc (by simp)).frame (Frame.refl _) fun w => rfl
  | condUnlocked c m =>
      rw [hpc] at hs
      have hput : OrderStep σ .proceed σ :=
        (idle_proceed hcr hpc (by simp)).frame (Frame.refl _) fun w => rfl
      exact hput.yieldIf hs rfl fun w => rfl
  | sendWait q msg timeout =>
      rw [hpc] at hs
      cases hs
      exact (idle_proceed hcr hpc (by simp)).sendWait cr q _
  | sendDelay q msg timeout =>
      rw [hpc] at hs
      exact (idle_proceed hcr hpc (by simp)).delay hs rfl fun w => rfl
  | sendCheck q msg =>
      rw [hpc] at hs
      cases hs
      exact (idle_proceed hcr hpc (by simp)).sendCheck cr q msg
  | sendRetry q msg =>
      rw [hpc] at hs
      exact (idle_proceed hcr hpc (by simp)).sendRetry hs
  | recvWait q timeout =>
      rw [hpc] at hs
      cases hs
      exact (idle_proceed hcr hpc (by simp)).recvWait cr q _
  | recvDelay q timeout =>
      rw [hpc] at hs
      exact (idle_proceed hcr hpc (by simp)).delay hs rfl fun w => rfl
  | recvCheck q =>
      rw [hpc] at hs
      cases hs
      exact (idle_proceed hcr hpc (by simp)).recvCheck cr q
  | recvRetry q =>
      rw [hpc] at hs
      exact (idle_proceed hcr hpc (by simp)).recvRetry hs

/-- **What a step does to the wait lists.** -/
theorem step_order (hok : a.OnWaits) (hs : σ.step cap a = some σ') : OrderStep σ a σ' := by
  cases a with
  | systick missed =>
      obtain ⟨k, hk, rfl⟩ := Option.map_eq_some_iff.mp hs
      exact (Idle.of_locking (fun _ _ => rfl) rfl).frame (frame_systickTrap hk) fun w => rfl
  | preempt =>
      have hidle : σ.Idle .preempt := Idle.of_locking (fun _ _ => rfl) rfl
      exact (hidle.frame (Frame.refl _) fun w => rfl).yieldIf hs rfl fun w => rfl
  | upFromIsr s =>
      cases hs
      obtain ⟨hf, hev⟩ := up_order (σ.semas s) σ.kernel
      have hput := (Idle.of_locking (a := .upFromIsr s) (fun _ _ => rfl) rfl).sema s
        (r := (σ.semas s).upFromIsr σ.kernel) hf hev
      exact ⟨hput.priority, hput.lists⟩
  | call c =>
      obtain ⟨cr, hcr, hs⟩ := Option.bind_eq_some_iff.mp hs
      split at hs
      · exact OrderStep.call hok hcr hs
      · cases hs
  | proceed =>
      obtain ⟨cr, hcr, hs⟩ := Option.bind_eq_some_iff.mp hs
      exact OrderStep.proceed hcr hs

theorem waitsInOrder_init (k : Kernel) (counts : ℕ → ℤ) : (init k counts : System T).WaitsInOrder := by
  intro w
  cases w <;> exact List.Pairwise.nil

/-! ### Locks and semaphores alone -/

/-- The running task of a run without message queues waits nowhere, so nothing can go wrong but a boost
of an owner that is blocked. -/
theorem Queued.keepsPlaces (h : σ.Queued) (hm : ∀ q, σ.msgQueues q = .new)
    (hb : ∀ p ∈ σ.contended a, σ.kernel.status p.2 ≠ .blocked) : σ.KeepsPlaces a := by
  have hlist : ∀ t, σ.kernel.status t ≠ .blocked → ∀ w, t ∉ (σ.waitList w).tids := by
    intro t ht w hw
    cases w with
    | sema s => exact ht (h.waits (.sema s) t hw).2.1
    | mutex m => exact ht (h.waits (.mutex m) t hw).2.1
    | senders q =>
        replace hw : t ∈ (σ.msgQueues q).senders.tids := hw
        rw [hm q] at hw
        cases hw
    | receivers q =>
        replace hw : t ∈ (σ.msgQueues q).receivers.tids := hw
        rw [hm q] at hw
        cases hw
  constructor
  · intro p hp w
    exact keepsOrder_of_not_mem (hlist p.2 (hb p hp) w)
  · intro p hp w
    apply keepsOrder_of_not_mem
    apply hlist
    intro hblocked
    have hrun := h.running (mem_releasing.mp hp).1
    exact hrun.not_mem_ready hblocked hrun.current_mem

theorem msgQueues_lockStep (hs : LockStep σ a σ') : σ'.msgQueues = σ.msgQueues := by
  cases hs with
  | task hcr hpc hcall hs =>
      obtain ⟨⟨k, new⟩, -, rfl⟩ := Option.map_eq_some_iff.mp hs
      cases new <;> rfl
  | _ => rfl

/-- A run of locks and semaphores that boosts no blocked owner keeps all lists in order. -/
theorem keepsPlaces_run {boots : List BootCall} {k : Kernel} {counts : ℕ → ℤ}
    {tr : List (System T × Action T)} (hl : launchAfter boots = some k)
    (hr : Run (System.step cap) (fun σ a => a.IsLock ∧
      ∀ p ∈ σ.contended a, σ.kernel.status p.2 ≠ .blocked) (init k counts) tr σ) :
    ∀ e ∈ tr, e.1.KeepsPlaces e.2 := by
  have hinv := hr.always (I := fun σ => σ.Queued ∧ ∀ q, σ.msgQueues q = .new)
    ⟨queued_init hl, fun _ => rfl⟩ (by
      rintro σ a σ' ⟨hq, hm⟩ hok hs
      have hls := step_lock hq.pcs hok.1 hs
      refine ⟨(hq.step hls).1, fun q => ?_⟩
      rw [msgQueues_lockStep hls]
      exact hm q)
  intro e he
  exact (hinv.1 e he).1.keepsPlaces (hinv.1 e he).2 (hr.forall_guard e he).2

end System

/-- **When wait queues stay in order.**  In every run of semaphores, mutexes, condition variables, message
queues, `delay`, `yield_task` and interrupts, all wait lists are sorted by the current priorities in all
states, and every waiter taken from the front of a list is one of the most urgent, exactly when no step
gives a task a priority that disagrees with its place on a list. -/
theorem waits_in_order {k : Kernel} {counts : ℕ → ℤ} {tr : List (System T × Action T)}
    (hr : Run (System.step cap) (fun _ a => a.OnWaits) (System.init k counts) tr σ) :
    (Always System.WaitsInOrder tr σ ∧ ∀ e ∈ tr, System.PopsUrgent cap e.1 e.2) ↔
      ∀ e ∈ tr, e.1.KeepsPlaces e.2 := by
  apply hr.forall_iff_steps (I := System.WaitsInOrder) (System.waitsInOrder_init k counts)
  · exact fun σ h => h
  · intro σ a σ' hi hok hs hC
    exact (hi.step_iff hs (System.step_order hok hs)).mp hC
  · intro σ a σ' hi hok hs hl hpop
    exact (hi.step_iff hs (System.step_order hok hs)).mpr ⟨hl, hpop⟩

/-- A task locks a mutex for which two more urgent tasks come to wait, and hands it to the more urgent
one. -/
theorem waits_in_order_run : ∃ k₀ tr, ∃ σ : System Unit,
    launchAfter [.create 5 "l", .create 4 "m", .create 3 "h"] = some k₀ ∧
      Run (System.step fun _ => 0) (fun _ a => a.OnWaits) (System.init k₀ fun _ => 0) tr σ ∧
      (σ.mutexes 0).owner = some 2 ∧ (σ.mutexes 0).waitQueue.tids = [1] ∧
      Always System.WaitsInOrder tr σ ∧ ∀ e ∈ tr, System.PopsUrgent (fun _ => 0) e.1 e.2 := by
  have hsome : (launchAfter [.create 5 "l", .create 4 "m", .create 3 "h"]).isSome = true := by
    decide +kernel
  obtain ⟨k₀, hk₀⟩ := Option.isSome_iff_exists.mp hsome
  have hexec : ((launchAfter [.create 5 "l", .create 4 "m", .create 3 "h"]).bind fun k₀ =>
      exec (System.step fun _ => 0)
        (fun (σ : System Unit) a => a.OnWaits ∧ a.IsLock ∧
          ∀ p ∈ σ.contended a, σ.kernel.status p.2 ≠ .blocked)
        (System.init k₀ fun _ => 0)
        [.call (.task (.delay 3)), .call (.task (.delay 1)), .call (.lock 0), .systick 0,
          .call (.lock 0), .systick 1, .call (.lock 0), .call (.unlock 0)]).any (fun σ =>
            (σ.mutexes 0).owner = some 2 ∧ (σ.mutexes 0).waitQueue.tids = [1]) = true := by
    decide +kernel
  rw [hk₀, Option.bind_some] at hexec
  obtain ⟨tr, σ, hr, hσ⟩ := exists_run_of_exec (fun (σ : System Unit) (a : Action Unit)
    (h : decide (a.OnWaits ∧ a.IsLock ∧ ∀ p ∈ σ.contended a, σ.kernel.status p.2 ≠ .blocked) =
      true) => of_decide_eq_true h) hexec
  obtain ⟨howner, hqueue⟩ := of_decide_eq_true hσ
  have hrun : Run (System.step fun _ => 0) (fun _ a => a.OnWaits) (System.init k₀ fun _ => 0) tr σ :=
    hr.mono fun _ _ h => h.1
  have hplaces := System.keepsPlaces_run hk₀ (hr.mono fun _ _ h => h.2)
  exact ⟨k₀, tr, σ, hk₀, hrun, howner, hqueue, (waits_in_order hrun).mpr hplaces⟩

/-- A task that owns a mutex waits for a semaphore behind a more urgent one and is boosted above it; the
next `up` takes the less urgent of the two. -/
theorem waits_out_of_order : ∃ k₀ tr, ∃ σ : System Unit,
    launchAfter [.create 5 "l", .create 4 "m", .create 3 "h"] = some k₀ ∧
      Run (System.step fun _ => 0) (fun _ a => a.OnWaits) (System.init k₀ fun _ => 0) tr σ ∧
      (σ.semas 0).waitQueue.tids = [1, 0] ∧ σ.kernel.priority 1 = 4 ∧ σ.kernel.priority 0 = 3 ∧
      ¬σ.WaitsInOrder ∧ ¬System.PopsUrgent (fun _ => 0) σ (.upFromIsr 0) := by
  have hsome : (launchAfter [.create 5 "l", .create 4 "m", .create 3 "h"]).isSome = true := by
    decide +kernel
  obtain ⟨k₀, hk₀⟩ := Option.isSome_iff_exists.mp hsome
  have hexec : ((launchAfter [.create 5 "l", .create 4 "m", .create 3 "h"]).bind fun k₀ =>
      exec (System.step fun _ => 0) (fun (_ : System Unit) a => a.OnWaits)
        (System.init k₀ fun _ => 0)
        [.call (.task (.delay 2)), .call (.down 0), .call (.lock 0), .call (.down 0), .systick 1,
          .call (.lock 0)]).any (fun σ => (σ.semas 0).waitQueue.tids = [1, 0] ∧
            σ.kernel.priority 1 = 4 ∧ σ.kernel.priority 0 = 3 ∧
              ((σ.upFromIsr 0).semas 0).waitQueue.tids = [0] ∧
                (σ.upFromIsr 0).kernel.priority 1 = 4 ∧
                  (σ.upFromIsr 0).kernel.priority 0 = 3) = true := by
    decide +kernel
  rw [hk₀, Option.bind_some] at hexec
  obtain ⟨tr, σ, hr, hσ⟩ := exists_run_of_exec (fun (σ : System Unit) (a : Action Unit)
    (h : decide a.OnWaits = true) => of_decide_eq_true h) hexec
  obtain ⟨hqueue, hm, hl, hqueue', hm', hl'⟩ := of_decide_eq_true hσ
  refine ⟨k₀, tr, σ, hk₀, hr, hqueue, hm, hl, fun hord => ?_, fun hpop => ?_⟩
  · have hpair : (σ.semas 0).waitQueue.tids.Pairwise _ := hord (.sema 0)
    rw [hqueue] at hpair
    have hle := List.rel_of_pairwise_cons hpair (List.mem_singleton.mpr rfl)
    omega
  · have hle := hpop (σ.upFromIsr 0) rfl (.sema 0) 1
      (hqueue.trans (congrArg (1 :: ·) hqueue'.symm)) 0 (by
        show (0 : Tid) ∈ ((σ.upFromIsr 0).semas 0).waitQueue.tids
        rw [hqueue']
        exact List.mem_cons_self)
    omega

end MosKernel
