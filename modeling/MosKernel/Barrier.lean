import MosKernel.Mutexes

/-!
# The barrier

`Barrier::wait` of `kernel/sync.rs`, as a client of the mutex and the condition variable of a `System`.
A call is a list of statements; between any two of them, and inside `lock`, `CondVar::wait` and the yields
of the primitives, interrupts and other tasks may come in.  `BarrierPc` is the statement that a task
executes next, once the primitive it is in has returned.

The mutex and the condition variable are private to the barrier, so no other call touches them; everything
else of the system goes on around it.  `completed`, `arrivals`, `own` and `notified` are ghosts: they count
the generations without wrapping and say which one a call belongs to.
-/

namespace MosKernel

variable {T : Type}

/-- `Barrier`: the numbers of its mutex and its condition variable, and `total`. -/
structure Barrier where
  mutex : ℕ
  cv : ℕ
  total : BitVec 32

/-- The next statement of `Barrier::wait`. -/
inductive BarrierPc where
  /-- no call -/
  | idle
  /-- `let my_gen = guard.generation`, after `self.mutex.lock()` -/
  | readGen
  /-- `guard.count += 1` -/
  | increment (myGen : BitVec 32)
  /-- `guard.count == self.total` -/
  | compare (myGen : BitVec 32)
  /-- `guard.count = 0` -/
  | reset
  /-- `guard.generation = guard.generation.wrapping_add(1)` -/
  | advance
  /-- `drop(guard)` -/
  | drop
  /-- `self.cv.notify_all()`, with which the call returns -/
  | notifyAll
  /-- `guard = self.cv.wait(guard)` -/
  | wait (myGen : BitVec 32)
  /-- `guard.generation != my_gen` -/
  | check (myGen : BitVec 32)
  /-- the drop of `guard` at the end of `wait` -/
  | leave
  deriving DecidableEq

/-- A system with a barrier. -/
structure BarrierSystem (T : Type) where
  sys : System T
  /-- `BarrierState::count` -/
  count : BitVec 32
  /-- `BarrierState::generation` -/
  generation : BitVec 32
  stmt : Tid → BarrierPc
  /-- ghost: how many generations have been completed -/
  completed : ℕ
  /-- ghost: how many calls of each generation have arrived -/
  arrivals : ℕ → ℕ
  /-- ghost: the generation of the call of each task -/
  own : Tid → ℕ
  /-- ghost: whether the last arriver of a generation has executed `notify_all` -/
  notified : ℕ → Bool

/-- What can happen next. -/
inductive BarrierAction (T : Type) where
  /-- an interrupt, a call of a task outside the barrier, or the next section of a pending primitive -/
  | sys (a : Action T)
  /-- the running task calls `Barrier::wait` -/
  | enter
  /-- the running task executes the next statement of its call -/
  | next
  deriving DecidableEq

/-- The calls that use the mutex or the condition variable of the barrier. -/
def Call.Touches (b : Barrier) : Call T → Prop
  | .lock m | .unlock m => m = b.mutex
  | .wait c m => c = b.cv ∨ m = b.mutex
  | .notify c | .notifyAll c => c = b.cv
  | _ => False

instance (b : Barrier) : DecidablePred (Call.Touches (T := T) b)
  | .lock _ | .unlock _ | .notify _ | .notifyAll _ => inferInstanceAs (Decidable (_ = _))
  | .wait _ _ => inferInstanceAs (Decidable (_ ∨ _))
  | .task _ | .down _ | .downTimeout _ _ | .tryDown _ | .up _ | .send _ _ _ | .recv _ _ => isFalse id

namespace BarrierSystem

/-- The start of a launched system after `Barrier::new`. -/
def init (k : Kernel) (counts : ℕ → ℤ) : BarrierSystem T where
  sys := .init k counts
  count := 0
  generation := 0
  stmt := fun _ => .idle
  completed := 0
  arrivals := fun _ => 0
  own := fun _ => 0
  notified := fun _ => false

/-- The running task, unless it is inside a primitive. -/
def runner (σ : BarrierSystem T) : Option Tid :=
  σ.sys.kernel.crTid.bind fun cr =>
    match σ.sys.pc cr with
    | .user => some cr
    | _ => none

/-- A task that is in `Barrier::wait` makes no other call, and nobody else touches what is private to the
barrier. -/
def Outside (b : Barrier) (σ : BarrierSystem T) : Action T → Prop
  | .call c => (∀ cr ∈ σ.sys.kernel.crTid, σ.stmt cr = .idle) ∧ ¬c.Touches b
  | _ => True

instance (b : Barrier) (σ : BarrierSystem T) : DecidablePred (Outside b σ)
  | .call _ => inferInstanceAs (Decidable (_ ∧ _))
  | .systick _ | .preempt | .upFromIsr _ | .proceed => isTrue trivial

def goto (σ : BarrierSystem T) (cr : Tid) (st : BarrierPc) : BarrierSystem T :=
  { σ with stmt := Function.update σ.stmt cr st }

/-- Call the primitive `c` and go on with `st` when it returns. -/
def primitive (cap : ℕ → ℕ) (σ : BarrierSystem T) (cr : Tid) (c : Call T) (st : BarrierPc) :
    Option (BarrierSystem T) :=
  (σ.sys.step cap (.call c)).map fun s => { σ.goto cr st with sys := s }

/-- Execute the next statement of the call of `cr`. -/
def next (b : Barrier) (cap : ℕ → ℕ) (σ : BarrierSystem T) (cr : Tid) : Option (BarrierSystem T) :=
  match σ.stmt cr with
  | .idle => none
  | .readGen =>
    some { σ.goto cr (.increment σ.generation) with
      own := Function.update σ.own cr σ.completed }
  | .increment g =>
    some { σ.goto cr (.compare g) with
      count := σ.count + 1
      arrivals := Function.update σ.arrivals (σ.own cr) (σ.arrivals (σ.own cr) + 1) }
  | .compare g => some (σ.goto cr (if σ.count = b.total then .reset else .wait g))
  | .reset => some { σ.goto cr .advance with count := 0 }
  | .advance =>
    some { σ.goto cr .drop with
      generation := σ.generation + 1
      completed := σ.completed + 1 }
  | .drop => σ.primitive cap cr (.unlock b.mutex) .notifyAll
  | .notifyAll =>
    (σ.primitive cap cr (.notifyAll b.cv) .idle).map fun σ' =>
      { σ' with notified := Function.update σ.notified (σ.own cr) true }
  | .wait g => σ.primitive cap cr (.wait b.cv b.mutex) (.check g)
  | .check g => some (σ.goto cr (if σ.generation ≠ g then .leave else .wait g))
  | .leave => σ.primitive cap cr (.unlock b.mutex) .idle

/-- Execute one action. -/
def step (b : Barrier) (cap : ℕ → ℕ) (σ : BarrierSystem T) :
    BarrierAction T → Option (BarrierSystem T)
  | .sys a => if Outside b σ a then (σ.sys.step cap a).map fun s => { σ with sys := s } else none
  | .enter => σ.runner.bind fun cr =>
    if σ.stmt cr = .idle then σ.primitive cap cr (.lock b.mutex) .readGen else none
  | .next => σ.runner.bind fun cr => σ.next b cap cr

end BarrierSystem

end MosKernel
