import MosKernel.TaskList
import Mathlib.Tactic.Simps.Basic
import Mathlib.Logic.Function.Basic

/-!
# Task control blocks and the kernel's global state

The data of `kernel/tcb.rs` and `kernel/global.rs`: the task control blocks, the three scheduler
lists, the tick counter, the identifier bitmap and the pointer to the running task.  Of a control
block the model keeps the fields that kernel code reads; stacks, contexts and closures, which no
modelled function inspects, are left out.  Priorities are `u8` in the source and only ever compared,
so they are plain numbers here; `OS_TICKS` and `wake_point` wrap and are `BitVec 32`.

`lost` is not in the source: it counts the `Err`s that `let _ =` throws away, and no function reads
it.
-/

namespace MosKernel

open OrderedInsert

inductive TaskStatus where
  | terminated
  | ready
  | running
  | blocked
  deriving DecidableEq

/-- `Tcb` -/
structure Tcb where
  tid : Tid
  status : TaskStatus
  priority : ℕ
  /-- the backup of the priority while it is boosted, `priInv` otherwise -/
  subPriority : ℕ
  timeSlice : ℕ
  wakePoint : BitVec 32
  name : String
  deriving DecidableEq

/-- `Tcb::empty` -/
def Tcb.empty (tid : Tid) : Tcb where
  tid := tid
  status := .terminated
  priority := priMin
  subPriority := priInv
  timeSlice := MosKernel.timeSlice
  wakePoint := 0
  name := ""

/-- The `static mut` variables of the kernel. -/
structure Kernel where
  tcbs : Tid → Tcb
  readyList : TaskList
  blockedList : TaskList
  sleepingList : TaskList
  osTicks : BitVec 32
  tidBitmap : BitVec 32
  /-- `CURRENT_TCB_PTR`: which control block it points to, `none` for the null pointer -/
  currentTcbPtr : Option Tid
  schedReady : Bool
  /-- ghost: how many `Err`s have been discarded -/
  lost : ℕ

namespace Kernel

/-- The initial values of the statics: every control block is `Tcb::empty(0)`. -/
def boot : Kernel where
  tcbs := fun _ => .empty 0
  readyList := .new
  blockedList := .new
  sleepingList := .new
  osTicks := 0
  tidBitmap := 0
  currentTcbPtr := none
  schedReady := false
  lost := 0

/-! ### Reading and writing the control blocks -/

/-- `TCBS[t].status` -/
def status (k : Kernel) (t : Tid) : TaskStatus := (k.tcbs t).status

/-- `TCBS[t].priority` -/
def priority (k : Kernel) (t : Tid) : ℕ := (k.tcbs t).priority

/-- `(*CURRENT_TCB_PTR).tid`; `none` models the null dereference. -/
def crTid (k : Kernel) : Option Tid := k.currentTcbPtr.map fun p => (k.tcbs p).tid

/-- Write to one control block. -/
@[simps] def setTcb (k : Kernel) (t : Tid) (f : Tcb → Tcb) : Kernel :=
  { k with tcbs := Function.update k.tcbs t (f (k.tcbs t)) }

/-- `TCBS[t].status = st` -/
def setStatus (k : Kernel) (t : Tid) (st : TaskStatus) : Kernel :=
  k.setTcb t fun tcb => { tcb with status := st }

/-- `CURRENT_TCB_PTR = &mut TCBS[t]` -/
@[simps] def setCurrent (k : Kernel) (t : Tid) : Kernel := { k with currentTcbPtr := some t }

/-! ### The scheduler lists -/

/-- The test that every priority-ordered insertion of `tid` uses. -/
def isBefore (k : Kernel) (tid : Tid) : Tid → Bool := fun t => k.priority tid < k.priority t

/-- `READY_LIST.remove(t)` -/
@[simps] def readyRemove (k : Kernel) (t : Tid) : Kernel := { k with readyList := k.readyList.remove t }

/-- `let _ = READY_LIST.insert_in_order(tid, |t| priority < TCBS[t].priority)` -/
@[simps] def readyInsert (k : Kernel) (tid : Tid) : Kernel :=
  let r := k.readyList.insertInOrder tid (k.isBefore tid)
  { k with readyList := k.readyList.kept r, lost := k.lost + TaskList.errCount r }

/-- `SLEEPING_LIST.remove(t)` -/
@[simps] def sleepingRemove (k : Kernel) (t : Tid) : Kernel :=
  { k with sleepingList := k.sleepingList.remove t }

/-- `let _ = SLEEPING_LIST.insert_in_order(tid, |t| wake_time < TCBS[t].wake_point)`, where
`wake_time` has just been written to `TCBS[tid].wake_point`. -/
@[simps] def sleepingInsert (k : Kernel) (tid : Tid) : Kernel :=
  let r := k.sleepingList.insertInOrder tid fun t => (k.tcbs tid).wakePoint < (k.tcbs t).wakePoint
  { k with sleepingList := k.sleepingList.kept r, lost := k.lost + TaskList.errCount r }

/-- `BLOCKED_LIST.remove(t)` -/
@[simps] def blockedRemove (k : Kernel) (t : Tid) : Kernel :=
  { k with blockedList := k.blockedList.remove t }

/-- `let _ = BLOCKED_LIST.push_back(tid)` -/
@[simps] def blockedPush (k : Kernel) (tid : Tid) : Kernel :=
  let r := k.blockedList.pushBack tid
  { k with blockedList := k.blockedList.kept r, lost := k.lost + TaskList.errCount r }

/-- The two writes with which every primitive takes a task off the processor. -/
def park (k : Kernel) (t : Tid) : Kernel := (k.setStatus t .blocked).readyRemove t

/-- The two writes with which every primitive makes a waiting task ready again. -/
def wake (k : Kernel) (t : Tid) : Kernel := (k.setStatus t .ready).readyInsert t

/-! ### The identifier allocator -/

/-- The test `TID_BITMAP & (1 << tid) == 0`. -/
def tidFree (k : Kernel) (tid : Tid) : Bool := k.tidBitmap &&& (1#32 <<< tid.val) = 0

/-- `alloc_tid`: the first free identifier, with a fresh control block. -/
def allocTid (k : Kernel) : Option (Tid × Kernel) :=
  ((List.finRange taskMax).find? k.tidFree).map fun tid =>
    (tid, { k with
      tidBitmap := k.tidBitmap ||| (1#32 <<< tid.val)
      tcbs := Function.update k.tcbs tid (.empty tid) })

/-- `TID_BITMAP &= !(1 << tid)` -/
@[simps] def clearBit (k : Kernel) (tid : Tid) : Kernel :=
  { k with tidBitmap := k.tidBitmap &&& ~~~(1#32 <<< tid.val) }

/-- `free_tid`; its test `tid < TASK_MAX` holds of every `Tid`. -/
def freeTid (k : Kernel) (tid : Tid) : Kernel := (k.clearBit tid).setStatus tid .terminated

end Kernel

end MosKernel
