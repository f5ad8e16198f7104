import MosKernel.TimerQueue
import Mathlib.Tactic.Simps.Basic

/-!
# The async executor

`kernel/async_rt.rs`: the task pool, the wakers, the timer futures and the executor.  `poll_all` and
`TaskSlot::clear` run outside critical sections, so `ExecutorPc` names every statement of theirs, and
anything may happen between two of them; `spawn`, the wakers and the two sections on `TIMERS` are atomic.

Futures are told apart by numbers.  What the source does with a future does not depend on the
future but through `needs_drop`, so a function pointer is represented by the future whose type it was
made for.  What a future does when it is polled is up to the run: its polls may take any number of
actions and end either way.

`clock` counts the ticks since the boot; `OS_TICKS` is its low word.
-/

namespace MosKernel

/-- A value of a type that implements `Future`. -/
structure Future where
  id : ℕ
  /-- `needs_drop::<F>()` -/
  needsDrop : Bool
  deriving DecidableEq

/-- `TaskSlot` -/
structure TaskSlot where
  pollFn : Option Future
  dropFn : Option Future
  ready : Bool
  storage : Option Future
  deriving DecidableEq

/-- `TaskSlot::empty` -/
def TaskSlot.empty : TaskSlot := ⟨none, none, false, none⟩

/-- `TaskSlot::is_free` -/
def TaskSlot.isFree (slot : TaskSlot) : Bool := slot.pollFn.isNone

/-- `TaskSlot::store` -/
def TaskSlot.store (f : Future) : TaskSlot where
  pollFn := some f
  dropFn := if f.needsDrop then some f else none
  ready := true
  storage := some f

/-- `Timer` -/
structure Timer where
  wakeTick : BitVec 32
  registered : Bool
  /-- ghost: the deadline, in ticks since the boot -/
  deadline : ℕ
  /-- ghost: the future that holds the timer, once it has polled it -/
  owner : Option Future
  /-- ghost: the slot of that future -/
  idx : ℕ
  /-- ghost: a poll has returned `Pending` -/
  pending : Bool
  /-- ghost: not dropped yet -/
  alive : Bool
  deriving DecidableEq

/-- The statement that the executor executes next. -/
inductive ExecutorPc where
  /-- `TIMERS.wake_expired()`, at the start of `poll_all` -/
  | wakeExpired
  /-- `TASK_POOL[idx].is_free()`, or the end of the loop -/
  | testFree (idx : ℕ)
  /-- `!TASK_POOL[idx].ready` -/
  | testReady (idx : ℕ)
  /-- `TASK_POOL[idx].ready = false` -/
  | claim (idx : ℕ)
  /-- `TASK_POOL[idx].poll_fn.unwrap()` -/
  | unwrap (idx : ℕ)
  /-- the call of `poll_fn` -/
  | poll (idx : ℕ) (pollFn : Future)
  /-- in the poll of the future in slot `idx` -/
  | polling (idx : ℕ)
  /-- in `Timer::poll` of timer `j`, before `TIMERS.push` -/
  | push (idx j : ℕ)
  /-- `self.drop_fn.take()`, at the start of `clear` -/
  | takeDropFn (idx : ℕ)
  /-- the call of `drop_fn` -/
  | drop (idx : ℕ) (dropFn : Future)
  /-- `self.poll_fn = None` -/
  | clearPollFn (idx : ℕ)
  /-- `self.ready = false` -/
  | clearReady (idx : ℕ)
  /-- in `Task::delay(1)` of `executor_task` -/
  | delay
  deriving DecidableEq

/-- What has happened to futures. -/
inductive AsyncEvent where
  | stored (idx : ℕ) (f : Future)
  /-- a poll of `f` has begun -/
  | polled (f : Future)
  /-- a poll of `f` has returned `Ready` -/
  | finished (f : Future)
  | dropped (f : Future)
  deriving DecidableEq

/-- The statics of `async_rt.rs`, the executor and the timers of all futures. -/
structure AsyncRt where
  taskPool : ℕ → TaskSlot
  timers : TimerQueue
  pc : ExecutorPc
  didWork : Bool
  timer : ℕ → Timer
  clock : ℕ
  /-- ghost: how many timers and futures there have been -/
  timerCount : ℕ
  futureCount : ℕ
  /-- ghost: slot `i` has been spawned into or woken since its latest poll began -/
  notified : ℕ → Bool
  /-- ghost: slot `i` was live and notified when the pass began and has not been polled since -/
  due : ℕ → Bool
  /-- ghost: when the latest pass began -/
  passClock : ℕ
  /-- ghost: the slots whose wakers `wake_expired` has invoked, with the clock -/
  wakes : List (ℕ × ℕ)
  /-- ghost, newest first -/
  history : List AsyncEvent

/-- What can happen next. -/
inductive AsyncAction where
  /-- the executor executes its next statement -/
  | proceed
  /-- the poll in progress returns -/
  | pollReturns (ready : Bool)
  /-- `AsyncRuntime::spawn`, after `ensure_init` -/
  | spawn (needsDrop : Bool)
  /-- a waker made for slot `idx` is invoked -/
  | wake (idx : ℕ)
  /-- `OS_TICKS` is advanced -/
  | tick
  /-- `AsyncRuntime::delay` -/
  | delay (ms : BitVec 32)
  /-- the future in poll polls the timer `j` that it holds -/
  | pollTimer (j : ℕ)
  | dropTimer (j : ℕ)
  deriving DecidableEq

namespace AsyncRt

/-- The state in which the executor starts. -/
def init : AsyncRt where
  taskPool := fun _ => .empty
  timers := .new
  pc := .wakeExpired
  didWork := false
  timer := fun _ => ⟨0, false, 0, none, 0, false, false⟩
  clock := 0
  timerCount := 0
  futureCount := 0
  notified := fun _ => false
  due := fun _ => false
  passClock := 0
  wakes := []
  history := []

/-- `os_ticks()` -/
def osTicks (σ : AsyncRt) : BitVec 32 := BitVec.ofNat 32 σ.clock

@[simps -fullyApplied] def setPc (σ : AsyncRt) (pc : ExecutorPc) : AsyncRt := { σ with pc }

@[simps -fullyApplied] def setSlot (σ : AsyncRt) (idx : ℕ) (f : TaskSlot → TaskSlot) : AsyncRt :=
  { σ with taskPool := Function.update σ.taskPool idx (f (σ.taskPool idx)) }

@[simps -fullyApplied] def setTimer (σ : AsyncRt) (j : ℕ) (f : Timer → Timer) : AsyncRt :=
  { σ with timer := Function.update σ.timer j (f (σ.timer j)) }

@[simps -fullyApplied] def log (σ : AsyncRt) (e : AsyncEvent) : AsyncRt :=
  { σ with history := e :: σ.history }

@[simps -fullyApplied] def notify (σ : AsyncRt) (idx : ℕ) : AsyncRt :=
  { σ with notified := Function.update σ.notified idx true }

/-! ### Spawning and waking -/

/-- `waker_wake_by_ref` -/
def wake (σ : AsyncRt) (idx : ℕ) : AsyncRt :=
  if idx < asyncPoolMax then (σ.setSlot idx fun slot => { slot with ready := true }).notify idx else σ

/-- The critical section of `AsyncRuntime::spawn`: the first free slot, if there is one, stores the
future; else the future is dropped. -/
def spawn (σ : AsyncRt) (needsDrop : Bool) : AsyncRt :=
  let f : Future := ⟨σ.futureCount, needsDrop⟩
  let σ := { σ with futureCount := σ.futureCount + 1 }
  match (List.range asyncPoolMax).find? fun idx => (σ.taskPool idx).isFree with
  | some idx => ((σ.setSlot idx fun _ => .store f).notify idx).log (.stored idx f)
  | none => σ.log (.dropped f)

/-! ### Timers -/

/-- `AsyncRuntime::delay` -/
def delay (σ : AsyncRt) (ms : BitVec 32) : AsyncRt :=
  { σ.setTimer σ.timerCount fun _ =>
      { wakeTick := σ.osTicks + ms, registered := false, deadline := σ.clock + ms.toNat, owner := none,
        idx := 0, pending := false, alive := true } with
    timerCount := σ.timerCount + 1 }

/-- `Timer::poll` by the future `f` in slot `idx`, up to its critical section if it has one. -/
def pollTimer (σ : AsyncRt) (idx : ℕ) (f : Future) (j : ℕ) : AsyncRt :=
  let σ' := σ.setTimer j fun timer => { timer with owner := some f }
  if expired σ.osTicks (σ.timer j).wakeTick then σ'
  else if (σ.timer j).registered then σ'
  else (σ'.setTimer j fun timer => { timer with registered := true, idx }).setPc (.push idx j)

/-- `TIMERS.push`; then `Timer::poll` returns `Pending`. -/
def pushTimer (σ : AsyncRt) (idx j : ℕ) : AsyncRt :=
  { (σ.setTimer j fun timer => { timer with pending := true }).setPc (.polling idx) with
    timers := σ.timers.push ⟨(σ.timer j).wakeTick, idx, (σ.timer j).deadline⟩ }

/-! ### The executor -/

/-- The wakers of expired entries are invoked. -/
def wakeAll (σ : AsyncRt) (entries : List TimerEntry) : AsyncRt :=
  entries.foldl (fun σ e => { σ.wake e.waker with wakes := (e.waker, σ.clock) :: σ.wakes }) σ

/-- The start of `poll_all`: `TIMERS.wake_expired()` and `did_work = false`. -/
def wakeExpired (σ : AsyncRt) : AsyncRt :=
  let r := σ.timers.popExpired σ.osTicks
  let σ := { σ with timers := r.2 }.wakeAll r.1
  { σ.setPc (.testFree 0) with
    didWork := false
    due := fun idx => !(σ.taskPool idx).isFree && σ.notified idx
    passClock := σ.clock }

/-- The next statement of the executor. -/
def proceed (σ : AsyncRt) : Option AsyncRt :=
  match σ.pc with
  | .wakeExpired => some σ.wakeExpired
  | .testFree idx =>
    some <|
      if idx < asyncPoolMax then
        if (σ.taskPool idx).isFree then σ.setPc (.testFree (idx + 1)) else σ.setPc (.testReady idx)
      else σ.setPc (if σ.didWork then .wakeExpired else .delay)
  | .testReady idx =>
    some (σ.setPc (if (σ.taskPool idx).ready then .claim idx else .testFree (idx + 1)))
  | .claim idx =>
    some { (σ.setSlot idx fun slot => { slot with ready := false }).setPc (.unwrap idx) with
      didWork := true }
  | .unwrap idx => (σ.taskPool idx).pollFn.map fun pollFn => σ.setPc (.poll idx pollFn)
  | .poll idx _ => (σ.taskPool idx).storage.map fun f =>
    { (σ.log (.polled f)).setPc (.polling idx) with
      notified := Function.update σ.notified idx false
      due := Function.update σ.due idx false }
  | .polling _ => none
  | .push idx j => some (σ.pushTimer idx j)
  | .takeDropFn idx =>
    some <| match (σ.taskPool idx).dropFn with
      | some dropFn =>
        (σ.setSlot idx fun slot => { slot with dropFn := none }).setPc (.drop idx dropFn)
      | none => σ.setPc (.clearPollFn idx)
  | .drop idx _ => (σ.taskPool idx).storage.map fun f => (σ.log (.dropped f)).setPc (.clearPollFn idx)
  | .clearPollFn idx =>
    some ((σ.setSlot idx fun slot => { slot with pollFn := none }).setPc (.clearReady idx))
  | .clearReady idx =>
    some ((σ.setSlot idx fun slot => { slot with ready := false }).setPc (.testFree (idx + 1)))
  | .delay => some (σ.setPc .wakeExpired)

/-- The poll in progress returns. -/
def pollReturns (σ : AsyncRt) (ready : Bool) : Option AsyncRt :=
  match σ.pc with
  | .polling idx =>
    if ready then
      (σ.taskPool idx).storage.map fun f => (σ.log (.finished f)).setPc (.takeDropFn idx)
    else some (σ.setPc (.testFree (idx + 1)))
  | _ => none

/-- Execute one action.  A future polls the timers that nobody else has polled; a timer in the middle of
its poll is not dropped. -/
def step (σ : AsyncRt) : AsyncAction → Option AsyncRt
  | .proceed => σ.proceed
  | .pollReturns ready => σ.pollReturns ready
  | .spawn needsDrop => some (σ.spawn needsDrop)
  | .wake idx => some (σ.wake idx)
  | .tick => some { σ with clock := σ.clock + 1 }
  | .delay ms => some (σ.delay ms)
  | .pollTimer j =>
    match σ.pc with
    | .polling idx => (σ.taskPool idx).storage.bind fun f =>
      if (σ.timer j).alive ∧ ((σ.timer j).owner = none ∨ (σ.timer j).owner = some f) then
        some (σ.pollTimer idx f j)
      else none
    | _ => none
  | .dropTimer j =>
    match σ.pc with
    | .push _ j' =>
      if j = j' then none else some (σ.setTimer j fun timer => { timer with alive := false })
    | _ => some (σ.setTimer j fun timer => { timer with alive := false })

end AsyncRt

end MosKernel
