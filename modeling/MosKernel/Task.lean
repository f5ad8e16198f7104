import MosKernel.Sched

/-!
# Task operations

`kernel/task.rs`: creation, exit, termination, blocking, resuming and delays, and
`Scheduler::launch`.  Each function is one critical section; where the source calls `yield_task` it
is the last thing the section does, so the result is the state after the switch.
-/

namespace MosKernel

/-- Words of a context frame (`arch/riscv.rs`). -/
abbrev contextWords : ℕ := 32

namespace Kernel

/-- `Task::exit_current` -/
def exitCurrent (k : Kernel) : Option Kernel := do
  let cr ← k.crTid
  ((k.readyRemove cr).freeTid cr).yieldTask

/-- The control block of a new task, put on `READY_LIST`. -/
def addTask (k : Kernel) (tid : Tid) (priority : ℕ) (name : String) : Kernel :=
  (k.setTcb tid fun tcb =>
    { tcb with status := .ready, priority, timeSlice := MosKernel.timeSlice, name }).readyInsert tid

/-- `Task::create` -/
def create (k : Kernel) (priority : ℕ) (name : String) : Option (Kernel × Except String Tid) :=
  match k.allocTid with
  | none => some (k, .error "Task pool is full")
  | some (tid, k) =>
    let k := k.addTask tid priority name
    let k' := match k.schedReady, k.currentTcbPtr with
      | true, some p => if priority < k.priority p then k.yieldTask else some k
      | _, _ => some k
    k'.map fun k => (k, .ok tid)

/-- `Task::create_raw`: panics when the stack cannot hold a context frame, and never yields. -/
def createRaw (k : Kernel) (priority : ℕ) (name : String) (stackSize : ℕ) :
    Option (Kernel × Except String Tid) :=
  let stackWords := stackSize / 4
  match k.allocTid with
  | none => some (k, .error "Task pool is full")
  | some (tid, k) =>
    if stackWords > contextWords then some (k.addTask tid priority name, .ok tid) else none

/-- `Task::find_tid` -/
def findTid (k : Kernel) (name : String) : Option Tid :=
  (List.finRange taskMax).find? fun tid => k.status tid ≠ .terminated && (k.tcbs tid).name = name

/-- `Task::block` -/
def block (k : Kernel) (tid : Tid) : Option Kernel :=
  match k.status tid with
  | .ready | .running => ((k.park tid).blockedPush tid).yieldTask
  | _ => some k

/-- `Task::resume` -/
def resume (k : Kernel) (tid : Tid) : Option Kernel :=
  if k.status tid ≠ .blocked then some k
  else if tid ∉ k.blockedList.tids then some k
  else
    let k := (k.blockedRemove tid).wake tid
    match k.currentTcbPtr with
    | some p => if k.priority tid < k.priority p then k.yieldTask else some k
    | none => some k

/-- `Task::terminate` -/
def terminate (k : Kernel) (tid : Tid) : Option Kernel :=
  if k.status tid = .terminated then some k
  else ((((k.readyRemove tid).sleepingRemove tid).blockedRemove tid).freeTid tid).yieldTask

/-- The writes of `Task::delay` before its `yield_task`. -/
def sleep (k : Kernel) (cr : Tid) (ticks : BitVec 32) : Kernel :=
  let wakeTime := k.osTicks + ticks
  ((k.setTcb cr fun tcb => { tcb with wakePoint := wakeTime }).park cr).sleepingInsert cr

/-- `Task::delay` -/
def delay (k : Kernel) (ticks : BitVec 32) : Option Kernel :=
  if ticks = 0 then some k
  else do
    let cr ← k.crTid
    (k.sleep cr ticks).yieldTask

/-- `Scheduler::launch` up to `start_first_task`. -/
def launch (k : Kernel) : Option Kernel :=
  match k.create priMin "idle" with
  | some (k, .ok _) =>
    k.readyList.front.map fun first =>
      { (k.setStatus first .running).setCurrent first with schedReady := true }
  | _ => none

end Kernel

/-! ### Runs of the task operations -/

/-- A call of `Task`'s interface by the running task. -/
inductive TaskCall where
  | create (priority : ℕ) (name : String)
  | createRaw (priority : ℕ) (name : String) (stackSize : ℕ)
  | exitCurrent
  | block (tid : Tid)
  | resume (tid : Tid)
  | terminate (tid : Tid)
  | delay (ticks : BitVec 32)
  | yieldTask
  deriving DecidableEq

/-- Run a call; the second component is the identifier of a task it has created. -/
def TaskCall.exec (k : Kernel) : TaskCall → Option (Kernel × Option Tid)
  | .create priority name => (k.create priority name).map fun r => (r.1, r.2.toOption)
  | .createRaw priority name size => (k.createRaw priority name size).map fun r => (r.1, r.2.toOption)
  | .exitCurrent => k.exitCurrent.map (·, none)
  | .block tid => (k.block tid).map (·, none)
  | .resume tid => (k.resume tid).map (·, none)
  | .terminate tid => (k.terminate tid).map (·, none)
  | .delay ticks => (k.delay ticks).map (·, none)
  | .yieldTask => k.yieldTask.map (·, none)

/-- What can happen in a kernel without synchronisation objects: a call of the running task, or a
systick interrupt that comes `missed` periods late. -/
inductive TaskAction where
  | call (c : TaskCall)
  | systick (missed : ℕ)
  deriving DecidableEq

/-- One critical section or one interrupt. -/
def TaskAction.step (k : Kernel) : TaskAction → Option Kernel
  | .call c => (c.exec k).map Prod.fst
  | .systick missed => k.systickTrap missed

/-- A creation before `Scheduler::launch`. -/
inductive BootCall where
  | create (priority : ℕ) (name : String)
  | createRaw (priority : ℕ) (name : String) (stackSize : ℕ)
  deriving DecidableEq

def BootCall.exec (k : Kernel) : BootCall → Option Kernel
  | .create priority name => (k.create priority name).map Prod.fst
  | .createRaw priority name size => (k.createRaw priority name size).map Prod.fst

/-- The state in which `Scheduler::launch` starts the first task, after the given creations. -/
def Kernel.launchAfter (boots : List BootCall) : Option Kernel :=
  (boots.foldlM BootCall.exec Kernel.boot).bind Kernel.launch

end MosKernel
