import MosKernel.Task

/-!
# Semaphores, mutexes and condition variables

The critical sections of `kernel/sync.rs`, each as a function of the kernel state, the object and the
running task `cr`.  Its result, a `CsResult`, also says whether the section ends in `yield_task`; the
switch itself is left to the machine, because what the caller does afterwards depends on how it is
resumed.

Both build profiles turn overflow checks off, so counts wrap: `count` is an `i32`, and `recursive_count`
a `u32`, which an unlock of a mutex that nobody has locked turns into `u32::MAX`.
-/

namespace MosKernel

/-- `i32` addition and subtraction wrap. -/
def wrapI32 (n : ℤ) : ℤ := n.bmod (2 ^ 32)

/-- `i32::MAX` -/
abbrev i32Max : ℤ := 2 ^ 31 - 1

/-- The state at the end of a critical section on an object, before its `yield_task` if there is
one. -/
structure CsResult (α : Type*) where
  kernel : Kernel
  inner : α
  yields : Bool

namespace Kernel

/-- `yield_task` at the end of a section that asks for it. -/
def yieldIf (k : Kernel) (yields : Bool) : Option Kernel := if yields then k.yieldTask else some k

/-- `let _ = wait_queue.insert_in_order(tid, |t| TCBS[tid].priority < TCBS[t].priority)`: the kernel,
which counts a discarded `Err`, and the queue. -/
@[simps] def enqueue (k : Kernel) (queue : TaskList) (tid : Tid) : Kernel × TaskList :=
  let r := queue.insertInOrder tid (k.isBefore tid)
  ({ k with lost := k.lost + TaskList.errCount r }, queue.kept r)

/-- `let _ = wait_queue.push_back(tid)` -/
@[simps] def enqueueBack (k : Kernel) (queue : TaskList) (tid : Tid) : Kernel × TaskList :=
  let r := queue.pushBack tid
  ({ k with lost := k.lost + TaskList.errCount r }, queue.kept r)

/-- `!CURRENT_TCB_PTR.is_null() && TCBS[woken].priority < (*CURRENT_TCB_PTR).priority` -/
def outranks (k : Kernel) (woken : Tid) : Bool :=
  match k.currentTcbPtr with
  | some p => k.priority woken < k.priority p
  | none => false

end Kernel

/-! ### Semaphores -/

/-- `SemaInner` -/
structure SemaInner where
  count : ℤ
  waitQueue : TaskList

namespace SemaInner

/-- `Sema::new` -/
def new (initialCount : ℤ) : SemaInner := ⟨initialCount, .new⟩

/-- `Sema::down` up to its `yield_task`. -/
def down (inner : SemaInner) (k : Kernel) (cr : Tid) : CsResult SemaInner :=
  let inner := { inner with count := wrapI32 (inner.count - 1) }
  if inner.count < 0 then
    let r := (k.park cr).enqueue inner.waitQueue cr
    ⟨r.1, { inner with waitQueue := r.2 }, true⟩
  else ⟨k, inner, false⟩

theorem down_of_neg {inner : SemaInner} {k : Kernel} {cr : Tid}
    (h : wrapI32 (inner.count - 1) < 0) :
    inner.down k cr = ⟨((k.park cr).enqueue inner.waitQueue cr).1,
      ⟨wrapI32 (inner.count - 1), ((k.park cr).enqueue inner.waitQueue cr).2⟩, true⟩ :=
  if_pos h

theorem down_of_nonneg {inner : SemaInner} {k : Kernel} {cr : Tid}
    (h : ¬wrapI32 (inner.count - 1) < 0) :
    inner.down k cr = ⟨k, ⟨wrapI32 (inner.count - 1), inner.waitQueue⟩, false⟩ :=
  if_neg h

/-- The task that `Sema::up` and `Sema::up_from_isr` wake, with the rest of the queue. -/
def woken (inner : SemaInner) : Option (Tid × TaskList) :=
  if wrapI32 (inner.count + 1) ≤ 0 then inner.waitQueue.popFront else none

/-- `Sema::up` -/
def up (inner : SemaInner) (k : Kernel) : CsResult SemaInner :=
  let count := wrapI32 (inner.count + 1)
  match inner.woken with
  | some (tid, queue) => ⟨k.wake tid, ⟨count, queue⟩, (k.wake tid).outranks tid⟩
  | none => ⟨k, { inner with count }, false⟩

/-- `Sema::up_from_isr`: the same, without a switch. -/
def upFromIsr (inner : SemaInner) (k : Kernel) : CsResult SemaInner :=
  { inner.up k with yields := false }

/-- `Sema::try_down` -/
def tryDown (inner : SemaInner) : SemaInner × Bool :=
  if inner.count > 0 then ({ inner with count := wrapI32 (inner.count - 1) }, true)
  else (inner, false)

/-- The second critical section of `Sema::down_timeout`: it always blocks. -/
def downTimeoutBlock (inner : SemaInner) (k : Kernel) (cr : Tid) (ticks : BitVec 32) :
    CsResult SemaInner :=
  let inner := { inner with count := wrapI32 (inner.count - 1) }
  let r := (k.park cr).enqueue inner.waitQueue cr
  let k := r.1.setTcb cr fun tcb => { tcb with wakePoint := k.osTicks + ticks }
  ⟨k.sleepingInsert cr, { inner with waitQueue := r.2 }, true⟩

/-- The third critical section of `Sema::down_timeout`: whether the token was acquired. -/
def downTimeoutCheck (inner : SemaInner) (cr : Tid) : SemaInner × Bool :=
  if cr ∈ inner.waitQueue.tids then
    (⟨wrapI32 (inner.count + 1), inner.waitQueue.remove cr⟩, false)
  else (inner, true)

end SemaInner

/-! ### Mutexes -/

/-- `MutexInner` -/
structure MutexInner where
  owner : Option Tid
  recursiveCount : BitVec 32
  waitQueue : TaskList

/-- The priority inheritance of `Mutex::internal_lock`: the owner is raised to `pri`. -/
def Kernel.boost (k : Kernel) (owner : Tid) (pri : ℕ) : Kernel :=
  if pri < k.priority owner then
    let k := k.setTcb owner fun tcb =>
      { tcb with
        subPriority := if tcb.subPriority = priInv then tcb.priority else tcb.subPriority
        priority := pri }
    if k.status owner = .ready then (k.readyRemove owner).readyInsert owner else k
  else k

/-- The end of priority inheritance in `Mutex::internal_unlock`. -/
def Kernel.restore (k : Kernel) (cr : Tid) : Kernel :=
  if (k.tcbs cr).subPriority ≠ priInv then
    k.setTcb cr fun tcb => { tcb with priority := tcb.subPriority, subPriority := priInv }
  else k

namespace MutexInner

/-- `Mutex::new` -/
def new : MutexInner := ⟨none, 0, .new⟩

/-- `Mutex::internal_lock` up to its `yield_task`. -/
def lock (inner : MutexInner) (k : Kernel) (cr : Tid) : CsResult MutexInner :=
  if inner.owner = some cr then
    ⟨k, { inner with recursiveCount := inner.recursiveCount + 1 }, false⟩
  else
    match inner.owner with
    | some owner =>
      let r := ((k.boost owner (k.priority cr)).park cr).enqueue inner.waitQueue cr
      ⟨r.1, { inner with waitQueue := r.2 }, true⟩
    | none => ⟨k, { inner with owner := some cr, recursiveCount := 1 }, false⟩

/-- `Mutex::internal_unlock` up to its `yield_task`. -/
def unlock (inner : MutexInner) (k : Kernel) (cr : Tid) : CsResult MutexInner :=
  let recursiveCount := inner.recursiveCount - 1
  if 0 < recursiveCount then ⟨k, { inner with recursiveCount }, false⟩
  else
    let k := k.restore cr
    match inner.waitQueue.popFront with
    | some (tid, queue) =>
      let k := k.wake tid
      ⟨k, ⟨some tid, 1, queue⟩, k.priority tid < k.priority cr⟩
    | none =>
      ⟨k, ⟨none, recursiveCount, inner.waitQueue⟩,
        k.readyList.front.any fun front => k.priority front < k.priority cr⟩

end MutexInner

/-! ### Condition variables -/

/-- The loop of `CondVar::notify_all`. -/
def Kernel.wakeAll (k : Kernel) : List Tid → Kernel
  | [] => k
  | tid :: tids => (k.wake tid).wakeAll tids

/-- `CondVar::notify` up to its `yield_task`. -/
def condNotify (queue : TaskList) (k : Kernel) : CsResult TaskList :=
  match queue.popFront with
  | some (tid, queue) => ⟨k.wake tid, queue, true⟩
  | none => ⟨k, queue, false⟩

/-- `CondVar::notify_all` up to its `yield_task`. -/
def condNotifyAll (queue : TaskList) (k : Kernel) : CsResult TaskList :=
  ⟨k.wakeAll queue.tids, .new, !queue.isEmpty⟩

end MosKernel
