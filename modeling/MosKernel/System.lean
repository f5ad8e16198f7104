import MosKernel.Ipc
import Mathlib.Data.Nat.Notation

/-!
# The system: kernel, objects and tasks

A kernel with any number of semaphores, mutexes, condition variables and message queues, used by
tasks whose calls spread over several critical sections.  `Pc` says which section of which call a
task executes when it runs next; between two sections, and after every switch inside one, interrupts
are enabled, so any action may come in between.

`Action` is everything that can happen: a systick interrupt, a switch requested by another interrupt
handler, an `up_from_isr`, a new call of the running task, or the next section of its pending call.
`System.step` executes one action; it is `none` for an action that is not enabled and where the
kernel panics.

`guards t m` counts the live `MutexGuard`s that task `t` holds on mutex `m`.  Each of them is a reference
in the task's memory, so a task with `2 ^ 32 - 1` of them has no room for one more, and its `lock` is not
enabled; nor is the drop of a guard that it does not have.  `history` is a ghost record of what calls have
done, newest first.
-/

namespace MosKernel

variable {T : Type}

/-- The section of its call that a task executes next. -/
inductive Pc (T : Type) where
  /-- no call pending -/
  | user
  /-- resumed in `Sema::down` -/
  | down (s : ℕ)
  /-- in `Sema::down_timeout`, after its `try_down` failed -/
  | downTimeoutBlock (s : ℕ) (ticks : BitVec 32)
  /-- resumed in `Sema::down_timeout` -/
  | downTimeoutCheck (s : ℕ)
  /-- resumed in `Mutex::internal_lock` -/
  | lock (m : ℕ)
  /-- resumed in the `internal_unlock` of `CondVar::wait` -/
  | condUnlocked (c m : ℕ)
  /-- resumed in `CondVar::wait`, before it locks the mutex again -/
  | condRelock (c m : ℕ)
  /-- in `MsgQueue::send`, before the first section of `wait_on` -/
  | sendWait (q : ℕ) (msg : T) (timeout : BitVec 32)
  /-- before the `Task::delay` of `wait_on` -/
  | sendDelay (q : ℕ) (msg : T) (timeout : BitVec 32)
  /-- before the last section of `wait_on` -/
  | sendCheck (q : ℕ) (msg : T)
  /-- before the second attempt -/
  | sendRetry (q : ℕ) (msg : T)
  | recvWait (q : ℕ) (timeout : BitVec 32)
  | recvDelay (q : ℕ) (timeout : BitVec 32)
  | recvCheck (q : ℕ)
  | recvRetry (q : ℕ)
  deriving DecidableEq

/-- What calls have done. -/
inductive Event (T : Type) where
  /-- an `up` or `up_from_isr` on a semaphore -/
  | upped (s : ℕ)
  /-- `down` has returned, or `try_down` or `down_timeout` has returned `true` -/
  | acquired (s : ℕ) (t : Tid)
  | sendCalled (q : ℕ) (t : Tid) (msg : T)
  | recvCalled (q : ℕ) (t : Tid)
  /-- a `send` has pushed its message -/
  | sent (q : ℕ) (t : Tid) (msg : T)
  /-- a `recv` has popped the message it returns -/
  | received (q : ℕ) (t : Tid) (msg : T)
  /-- a `send` or `recv` has returned `Err(TimeOut)` -/
  | timedOut (q : ℕ) (t : Tid)
  deriving DecidableEq

/-- The kernel, the objects by their numbers, and the tasks. -/
structure System (T : Type) where
  kernel : Kernel
  semas : ℕ → SemaInner
  mutexes : ℕ → MutexInner
  condVars : ℕ → TaskList
  msgQueues : ℕ → MsgQueueInner T
  pc : Tid → Pc T
  guards : Tid → ℕ → ℕ
  history : List (Event T)

/-- A call of the running task. -/
inductive Call (T : Type) where
  | task (c : TaskCall)
  | down (s : ℕ)
  | downTimeout (s : ℕ) (ticks : BitVec 32)
  | tryDown (s : ℕ)
  | up (s : ℕ)
  | lock (m : ℕ)
  /-- drop a guard -/
  | unlock (m : ℕ)
  | wait (c m : ℕ)
  | notify (c : ℕ)
  | notifyAll (c : ℕ)
  | send (q : ℕ) (msg : T) (timeout : BitVec 32)
  | recv (q : ℕ) (timeout : BitVec 32)
  deriving DecidableEq

/-- What can happen next. -/
inductive Action (T : Type) where
  /-- a systick interrupt that comes `missed` periods late -/
  | systick (missed : ℕ)
  /-- an interrupt handler has set `YIELD_FROM_ISR` -/
  | preempt
  | upFromIsr (s : ℕ)
  | call (c : Call T)
  /-- the running task goes on with its pending call -/
  | proceed
  deriving DecidableEq

namespace System

/-- The state in which the launched kernel `k` starts its first task; semaphore `s` was made by
`Sema::new(counts s)`. -/
def init (k : Kernel) (counts : ℕ → ℤ) : System T where
  kernel := k
  semas := fun s => .new (counts s)
  mutexes := fun _ => .new
  condVars := fun _ => .new
  msgQueues := fun _ => .new
  pc := fun _ => .user
  guards := fun _ _ => 0
  history := []

/-! ### Bookkeeping -/

@[simps -fullyApplied] def setPc (σ : System T) (t : Tid) (pc : Pc T) : System T :=
  { σ with pc := Function.update σ.pc t pc }

@[simps -fullyApplied] def log (σ : System T) (e : Event T) : System T := { σ with history := e :: σ.history }

@[simps -fullyApplied] def setGuards (σ : System T) (t : Tid) (m n : ℕ) : System T :=
  { σ with guards := Function.update σ.guards t (Function.update (σ.guards t) m n) }

/-- `lock` has returned a guard to `t`. -/
def acquireGuard (σ : System T) (t : Tid) (m : ℕ) : System T :=
  (σ.setGuards t m (σ.guards t m + 1)).setPc t .user

/-- The kernel and a semaphore after a critical section. -/
@[simps -fullyApplied] def putSema (σ : System T) (s : ℕ) (r : CsResult SemaInner) : System T :=
  { σ with kernel := r.kernel, semas := Function.update σ.semas s r.inner }

@[simps -fullyApplied] def putMutex (σ : System T) (m : ℕ) (r : CsResult MutexInner) : System T :=
  { σ with kernel := r.kernel, mutexes := Function.update σ.mutexes m r.inner }

@[simps -fullyApplied] def putCondVar (σ : System T) (c : ℕ) (r : CsResult TaskList) : System T :=
  { σ with kernel := r.kernel, condVars := Function.update σ.condVars c r.inner }

@[simps -fullyApplied] def putMsgQueue (σ : System T) (q : ℕ) (r : CsResult (MsgQueueInner T)) : System T :=
  { σ with kernel := r.kernel, msgQueues := Function.update σ.msgQueues q r.inner }

@[simps -fullyApplied] def setKernel (σ : System T) (k : Kernel) : System T := { σ with kernel := k }

/-- `yield_task` if the section asks for it. -/
def yieldIf (σ : System T) (yields : Bool) : Option (System T) :=
  (σ.kernel.yieldIf yields).map σ.setKernel

/-- A switch changes nothing but the kernel. -/
theorem yieldIf_eq_some {σ σ' : System T} {b : Bool} (h : σ.yieldIf b = some σ') :
    ∃ k, σ.kernel.yieldIf b = some k ∧ σ' = σ.setKernel k := by
  obtain ⟨k, hk, rfl⟩ := Option.map_eq_some_iff.mp h
  exact ⟨k, hk, rfl⟩

/-! ### The calls of the running task `cr` -/

/-- A call of `Task`'s interface; a new task starts with no call pending and no guards. -/
def task (σ : System T) (c : TaskCall) : Option (System T) :=
  (c.exec σ.kernel).map fun r =>
    match r.2 with
    | some t => { (σ.setKernel r.1).setPc t .user with guards := Function.update σ.guards t fun _ => 0 }
    | none => σ.setKernel r.1

/-- `Sema::down` -/
def down (σ : System T) (cr : Tid) (s : ℕ) : Option (System T) :=
  let r := (σ.semas s).down σ.kernel cr
  let σ := σ.putSema s r
  (if r.yields then σ.setPc cr (.down s) else σ.log (.acquired s cr)).yieldIf r.yields

/-- `Sema::try_down` -/
def tryDown (σ : System T) (cr : Tid) (s : ℕ) : System T :=
  let r := (σ.semas s).tryDown
  let σ := { σ with semas := Function.update σ.semas s r.1 }
  if r.2 then σ.log (.acquired s cr) else σ

/-- `Sema::down_timeout` up to its blocking section. -/
def downTimeout (σ : System T) (cr : Tid) (s : ℕ) (ticks : BitVec 32) : System T :=
  let r := (σ.semas s).tryDown
  let σ := { σ with semas := Function.update σ.semas s r.1 }
  if r.2 then σ.log (.acquired s cr)
  else if ticks = 0 then σ
  else σ.setPc cr (.downTimeoutBlock s ticks)

/-- `Sema::up` -/
def up (σ : System T) (s : ℕ) : Option (System T) :=
  let r := (σ.semas s).up σ.kernel
  ((σ.putSema s r).log (.upped s)).yieldIf r.yields

/-- `Sema::up_from_isr` -/
def upFromIsr (σ : System T) (s : ℕ) : System T :=
  (σ.putSema s ((σ.semas s).upFromIsr σ.kernel)).log (.upped s)

/-- `Mutex::lock` -/
def lock (σ : System T) (cr : Tid) (m : ℕ) : Option (System T) :=
  let r := (σ.mutexes m).lock σ.kernel cr
  let σ := σ.putMutex m r
  (if r.yields then σ.setPc cr (.lock m) else σ.acquireGuard cr m).yieldIf r.yields

/-- The drop of a `MutexGuard`. -/
def unlock (σ : System T) (cr : Tid) (m : ℕ) : Option (System T) :=
  let r := (σ.mutexes m).unlock σ.kernel cr
  ((σ.putMutex m r).setGuards cr m (σ.guards cr m - 1)).yieldIf r.yields

/-- `CondVar::wait` up to the first `yield_task` it executes: the one of `internal_unlock` or, where
that has none, its own. -/
def wait (σ : System T) (cr : Tid) (c m : ℕ) : Option (System T) :=
  let w := σ.kernel.enqueueBack (σ.condVars c) cr
  let r := (σ.mutexes m).unlock (w.1.park cr) cr
  let σ := { σ with condVars := Function.update σ.condVars c w.2 }
  let σ := (σ.putMutex m r).setGuards cr m (σ.guards cr m - 1)
  (σ.setPc cr (if r.yields then .condUnlocked c m else .condRelock c m)).yieldIf true

/-- `CondVar::notify` -/
def notify (σ : System T) (c : ℕ) : Option (System T) :=
  let r := condNotify (σ.condVars c) σ.kernel
  (σ.putCondVar c r).yieldIf r.yields

/-- `CondVar::notify_all` -/
def notifyAll (σ : System T) (c : ℕ) : Option (System T) :=
  let r := condNotifyAll (σ.condVars c) σ.kernel
  (σ.putCondVar c r).yieldIf r.yields

/-- A committing section of `MsgQueue::send`, which then returns `Ok`. -/
def commitSend (cap : ℕ → ℕ) (σ : System T) (cr : Tid) (q : ℕ) (msg : T) : Option (System T) :=
  let r := (σ.msgQueues q).commitSend (cap q) σ.kernel cr msg
  (((σ.putMsgQueue q r).log (.sent q cr msg)).setPc cr .user).yieldIf r.yields

/-- A committing section of `MsgQueue::recv`, which then returns `Ok`. -/
def commitRecv (cap : ℕ → ℕ) (σ : System T) (cr : Tid) (q : ℕ) : Option (System T) :=
  ((σ.msgQueues q).commitRecv (cap q) σ.kernel cr).bind fun (msg, r) =>
    (((σ.putMsgQueue q r).log (.received q cr msg)).setPc cr .user).yieldIf r.yields

/-- `Err(TimeOut)` is returned. -/
def timeOut (σ : System T) (cr : Tid) (q : ℕ) : System T := (σ.log (.timedOut q cr)).setPc cr .user

/-- `MsgQueue::send` up to `wait_on`, whose first test is `timeout_ticks == 0`. -/
def send (cap : ℕ → ℕ) (σ : System T) (cr : Tid) (q : ℕ) (msg : T) (timeout : BitVec 32) :
    Option (System T) :=
  let σ := σ.log (.sendCalled q cr msg)
  if (σ.msgQueues q).len < cap q then σ.commitSend cap cr q msg
  else if timeout = 0 then some (σ.timeOut cr q)
  else some (σ.setPc cr (.sendWait q msg timeout))

/-- `MsgQueue::recv` up to `wait_on`. -/
def recv (cap : ℕ → ℕ) (σ : System T) (cr : Tid) (q : ℕ) (timeout : BitVec 32) :
    Option (System T) :=
  let σ := σ.log (.recvCalled q cr)
  if (σ.msgQueues q).len > 0 then σ.commitRecv cap cr q
  else if timeout = 0 then some (σ.timeOut cr q)
  else some (σ.setPc cr (.recvWait q timeout))

/-- Execute a new call. -/
def call (cap : ℕ → ℕ) (σ : System T) (cr : Tid) : Call T → Option (System T)
  | .task c => σ.task c
  | .down s => σ.down cr s
  | .downTimeout s ticks => some (σ.downTimeout cr s ticks)
  | .tryDown s => some (σ.tryDown cr s)
  | .up s => σ.up s
  | .lock m => if σ.guards cr m + 1 < 2 ^ 32 then σ.lock cr m else none
  | .unlock m => if 0 < σ.guards cr m then σ.unlock cr m else none
  | .wait c m => if 0 < σ.guards cr m then σ.wait cr c m else none
  | .notify c => σ.notify c
  | .notifyAll c => σ.notifyAll c
  | .send q msg timeout => σ.send cap cr q msg timeout
  | .recv q timeout => σ.recv cap cr q timeout

/-! ### The later sections of a call -/

/-- The blocking section of `Sema::down_timeout`. -/
def downTimeoutBlock (σ : System T) (cr : Tid) (s : ℕ) (ticks : BitVec 32) : Option (System T) :=
  let r := (σ.semas s).downTimeoutBlock σ.kernel cr ticks
  ((σ.putSema s r).setPc cr (.downTimeoutCheck s)).yieldIf r.yields

/-- The last section of `Sema::down_timeout`. -/
def downTimeoutCheck (σ : System T) (cr : Tid) (s : ℕ) : System T :=
  let r := (σ.semas s).downTimeoutCheck cr
  let σ := { σ with semas := Function.update σ.semas s r.1 }
  (if r.2 then σ.log (.acquired s cr) else σ).setPc cr .user

/-- Put `cr` on the wait list that `wait_on` was given. -/
def sendWait (σ : System T) (cr : Tid) (q : ℕ) : System T :=
  let r := σ.kernel.enqueue (σ.msgQueues q).senders cr
  σ.putMsgQueue q ⟨r.1, { σ.msgQueues q with senders := r.2 }, false⟩

def recvWait (σ : System T) (cr : Tid) (q : ℕ) : System T :=
  let r := σ.kernel.enqueue (σ.msgQueues q).receivers cr
  σ.putMsgQueue q ⟨r.1, { σ.msgQueues q with receivers := r.2 }, false⟩

/-- The `Task::delay` of `wait_on`. -/
def delay (σ : System T) (timeout : BitVec 32) : Option (System T) :=
  (σ.kernel.delay timeout).map σ.setKernel

/-- The last section of `wait_on` on `senders`: a task that is still on the list has timed out. -/
def sendCheck (σ : System T) (cr : Tid) (q : ℕ) (msg : T) : System T :=
  let senders := (σ.msgQueues q).senders
  if cr ∈ senders.tids then
    (σ.putMsgQueue q ⟨σ.kernel, { σ.msgQueues q with senders := senders.remove cr }, false⟩).timeOut
      cr q
  else σ.setPc cr (.sendRetry q msg)

def recvCheck (σ : System T) (cr : Tid) (q : ℕ) : System T :=
  let receivers := (σ.msgQueues q).receivers
  if cr ∈ receivers.tids then
    (σ.putMsgQueue q ⟨σ.kernel, { σ.msgQueues q with receivers := receivers.remove cr }, false⟩).timeOut
      cr q
  else σ.setPc cr (.recvRetry q)

/-- Execute the next section of the pending call of `cr`. -/
def proceed (cap : ℕ → ℕ) (σ : System T) (cr : Tid) : Option (System T) :=
  match σ.pc cr with
  | .user => none
  | .down s => some ((σ.log (.acquired s cr)).setPc cr .user)
  | .downTimeoutBlock s ticks => σ.downTimeoutBlock cr s ticks
  | .downTimeoutCheck s => some (σ.downTimeoutCheck cr s)
  | .lock m => some (σ.acquireGuard cr m)
  | .condUnlocked c m => (σ.setPc cr (.condRelock c m)).yieldIf true
  | .condRelock _ m => σ.lock cr m
  | .sendWait q msg timeout => some ((σ.sendWait cr q).setPc cr (.sendDelay q msg timeout))
  | .sendDelay q msg timeout => (σ.setPc cr (.sendCheck q msg)).delay timeout
  | .sendCheck q msg => some (σ.sendCheck cr q msg)
  | .sendRetry q msg =>
    if (σ.msgQueues q).len < cap q then σ.commitSend cap cr q msg else some (σ.timeOut cr q)
  | .recvWait q timeout => some ((σ.recvWait cr q).setPc cr (.recvDelay q timeout))
  | .recvDelay q timeout => (σ.setPc cr (.recvCheck q)).delay timeout
  | .recvCheck q => some (σ.recvCheck cr q)
  | .recvRetry q =>
    if (σ.msgQueues q).len > 0 then σ.commitRecv cap cr q else some (σ.timeOut cr q)

/-- Execute one action. -/
def step (cap : ℕ → ℕ) (σ : System T) : Action T → Option (System T)
  | .systick missed => (σ.kernel.systickTrap missed).map σ.setKernel
  | .preempt => σ.yieldIf true
  | .upFromIsr s => some (σ.upFromIsr s)
  | .call c => σ.kernel.crTid.bind fun cr =>
    match σ.pc cr with
    | .user => σ.call cap cr c
    | _ => none
  | .proceed => σ.kernel.crTid.bind fun cr => σ.proceed cap cr

end System

end MosKernel
