import MosKernel.Erasure

/-!
# Task handles for the radio stack

`task_create`, `current_task`, `current_task_thread_semaphore` and `schedule_task_deletion` of
`rtos_adapter.rs`.  A handle is the address of a box, kept for its task in `FAT_HANDLES`.  None of these
functions is one critical section: a task may be switched out between any two steps of
`get_or_create_fat_handle`, and `schedule_task_deletion` calls `Task::terminate`, which switches before
`FAT_HANDLES` is cleared.

`Adapter` is the system with the calls in progress.  `handles_identify_tasks` says under which condition no
task is given a handle of an earlier one, and no deletion hits a later one.
-/

namespace MosKernel

open Transition Kernel

variable {T : Type}

/-- A task: its identifier, and how many tasks had been given it when the task was. -/
abbrev TaskId := Tid × ℕ

/-- `FatTaskHandle` -/
structure FatTaskHandle where
  mosTid : Tid
  threadSema : UInt32
  /-- ghost: the task that it was made for -/
  owner : TaskId
  /-- ghost: the task that has written `thread_sema` last -/
  semaBy : Option TaskId
  deriving DecidableEq

/-- What a handle is looked up for. -/
inductive HandleUse where
  /-- the result of `task_create` or `current_task` -/
  | task
  /-- a pointer to its `thread_sema` -/
  | semaphore
  deriving DecidableEq

/-- The step of a function of the adapter that a task executes next. -/
inductive AdapterPc where
  /-- in none of them -/
  | user
  /-- in `get_or_create_fat_handle`, before `FAT_HANDLES[tid].is_null()` -/
  | test (task : TaskId) (use : HandleUse)
  /-- before a new box is put into `FAT_HANDLES[tid]` -/
  | store (task : TaskId) (use : HandleUse)
  /-- before `FAT_HANDLES[tid]` is returned -/
  | read (task : TaskId) (use : HandleUse)
  /-- in `schedule_task_deletion`, resumed after `Task::terminate` -/
  | clear (tid : Tid) (fh : ℕ)
  /-- before the box is dropped -/
  | free (fh : ℕ)
  deriving DecidableEq

/-- The box that a task is about to drop. -/
def AdapterPc.deletes : AdapterPc → Option ℕ
  | .clear _ fh | .free fh => some fh
  | _ => none

/-- The system with the data of the adapter. -/
structure Adapter (T : Type) where
  system : System T
  /-- `FAT_HANDLES`, `none` for the null pointer -/
  fatHandles : Tid → Option ℕ
  /-- the boxes that have not been dropped, by their addresses -/
  heap : ℕ → Option FatTaskHandle
  pc : Tid → AdapterPc
  /-- where the pointer that `current_task_thread_semaphore` has returned last points -/
  threadSema : Tid → Option ℕ
  /-- ghost: how many tasks an identifier has been given to since the start -/
  births : Tid → ℕ
  /-- ghost: whether a box has been passed to `schedule_task_deletion` -/
  passed : ℕ → Bool

/-- A call of the adapter by the running task, the next step of its call, or any other action. -/
inductive AdapterAction (T : Type) where
  | taskCreate (taskStackSize : ℕ)
  | currentTask
  | currentTaskThreadSemaphore
  /-- write through the pointer of `current_task_thread_semaphore` -/
  | setThreadSema (value : UInt32)
  | scheduleTaskDeletion (taskHandle : Option ℕ)
  /-- the next step of the call; a new box is put at `addr` -/
  | proceed (addr : ℕ)
  | other (a : Action T)
  deriving DecidableEq

namespace Adapter

variable {cap : ℕ → ℕ} {σ σ' : Adapter T} {a : AdapterAction T}

/-- The radio stack has not been started. -/
def init (system : System T) : Adapter T where
  system := system
  fatHandles := fun _ => none
  heap := fun _ => none
  pc := fun _ => .user
  threadSema := fun _ => none
  births := fun _ => 0
  passed := fun _ => false

def setPc (σ : Adapter T) (t : Tid) (pc : AdapterPc) : Adapter T :=
  { σ with pc := Function.update σ.pc t pc }

/-- The task that has the identifier `t`, or had it last. -/
def taskId (σ : Adapter T) (t : Tid) : TaskId := (t, σ.births t)

/-- A task has been given the identifier `t`; it starts outside the adapter. -/
def birth (σ : Adapter T) (t : Tid) : Adapter T :=
  { σ.setPc t .user with
    births := Function.update σ.births t (σ.births t + 1)
    threadSema := Function.update σ.threadSema t none }

/-- The call of `Task::create_raw` in `task_create` -/
def createCall (taskStackSize : ℕ) : TaskCall :=
  let stackSize := max taskStackSize 4096
  if taskStackSize ≥ 8192 then .createRaw 4 "blob/tmr" stackSize else .createRaw 2 "blob/ctrl" stackSize

/-- `task_create` up to `get_or_create_fat_handle` -/
def taskCreate (σ : Adapter T) (cr : Tid) (taskStackSize : ℕ) : Option (Adapter T) :=
  let c := createCall taskStackSize
  (σ.system.task c).map fun system =>
    let σ' := { σ with system }
    match c.creates σ.system.kernel with
    | some t => (σ'.birth t).setPc cr (.test ((σ'.birth t).taskId t) .task)
    | none => σ'

/-- `schedule_task_deletion` up to the switch in `Task::terminate`; where the task has ended already, there
is none, and `FAT_HANDLES` is cleared at once. -/
def scheduleTaskDeletion (σ : Adapter T) (cr : Tid) (fh : ℕ) : Option (Adapter T) :=
  (σ.heap fh).bind fun box =>
    let tid := box.mosTid
    (σ.system.task (.terminate tid)).map fun system =>
      let σ' := { σ with system, passed := Function.update σ.passed fh true }
      if σ.system.kernel.status tid = .terminated then
        { σ'.setPc cr (.free fh) with fatHandles := Function.update σ.fatHandles tid none }
      else σ'.setPc cr (.clear tid fh)

/-- `*ptr = value`, where `ptr` points into a box that has not been dropped. -/
def setThreadSema (σ : Adapter T) (cr : Tid) (value : UInt32) : Option (Adapter T) :=
  (σ.threadSema cr).bind fun fh => (σ.heap fh).map fun box =>
    let box := { box with threadSema := value, semaBy := some (σ.taskId cr) }
    { σ with heap := Function.update σ.heap fh (some box) }

/-- Put a new box at an unused address into `FAT_HANDLES`. -/
def storeBox (σ : Adapter T) (task : TaskId) (addr : ℕ) : Option (Adapter T) :=
  if σ.heap addr = none then
    let box : FatTaskHandle := { mosTid := task.1, threadSema := 0, owner := task, semaBy := none }
    some { σ with
      heap := Function.update σ.heap addr (some box)
      fatHandles := Function.update σ.fatHandles task.1 (some addr)
      passed := Function.update σ.passed addr false }
  else none

/-- Drop a box: from then on no pointer into it may be used, and it may not be dropped again. -/
def freeBox (σ : Adapter T) (fh : ℕ) : Option (Adapter T) :=
  (σ.heap fh).map fun _ =>
    { σ with
      heap := Function.update σ.heap fh none
      threadSema := fun c => if σ.threadSema c = some fh then none else σ.threadSema c }

/-- Execute the next step of the call of `cr`. -/
def proceed (σ : Adapter T) (cr : Tid) (addr : ℕ) : Option (Adapter T) :=
  match σ.pc cr with
  | .user => none
  | .test task use =>
    some (σ.setPc cr (if σ.fatHandles task.1 = none then .store task use else .read task use))
  | .store task use => (σ.storeBox task addr).map fun σ' => σ'.setPc cr (.read task use)
  | .read _ .task => some (σ.setPc cr .user)
  | .read task .semaphore =>
    some { σ.setPc cr .user with
      threadSema := Function.update σ.threadSema cr (σ.fatHandles task.1) }
  | .clear tid fh =>
    some { σ.setPc cr (.free fh) with fatHandles := Function.update σ.fatHandles tid none }
  | .free fh => (σ.freeBox fh).map fun σ' => σ'.setPc cr .user

/-- Tasks in the adapter do nothing else; interrupts come at any time. -/
def enabled (σ : Adapter T) : Action T → Bool
  | .call _ | .proceed => σ.system.kernel.crTid.map σ.pc = some .user
  | _ => true

/-- An action outside the adapter. -/
def other (cap : ℕ → ℕ) (σ : Adapter T) (a : Action T) : Option (Adapter T) :=
  (σ.system.step cap a).map fun system =>
    let σ' := { σ with system }
    match a.creates σ.system with
    | some t => σ'.birth t
    | none => σ'

/-- A call of the adapter by the running task. -/
def call (σ : Adapter T) (cr : Tid) : AdapterAction T → Option (Adapter T)
  | .taskCreate taskStackSize => σ.taskCreate cr taskStackSize
  | .currentTask => some (σ.setPc cr (.test (σ.taskId cr) .task))
  | .currentTaskThreadSemaphore => some (σ.setPc cr (.test (σ.taskId cr) .semaphore))
  | .setThreadSema value => σ.setThreadSema cr value
  | .scheduleTaskDeletion none => some σ
  | .scheduleTaskDeletion (some fh) => σ.scheduleTaskDeletion cr fh
  | .proceed _ | .other _ => none

/-- Execute one action. -/
def step (cap : ℕ → ℕ) (σ : Adapter T) : AdapterAction T → Option (Adapter T)
  | .proceed addr => σ.system.kernel.crTid.bind fun cr => σ.proceed cr addr
  | .other a => if σ.enabled a then σ.other cap a else none
  | a => σ.system.kernel.crTid.bind fun cr =>
    match σ.system.pc cr, σ.pc cr with
    | .user, .user => σ.call cr a
    | _, _ => none

/-! ### Handles and tasks -/

/-- The handle that is returned to or for a task was made for it, and nobody else has written its
`thread_sema`, which starts with 0. -/
def Returns (σ : Adapter T) (task : TaskId) : Prop :=
  ∃ fh box, σ.fatHandles task.1 = some fh ∧ σ.heap fh = some box ∧ box.owner = task ∧
    (box.threadSema = 0 ∨ box.semaBy = some task)

/-- A handle that is passed for the first time terminates the task that it was made for, or nobody. -/
def Deletes (σ : Adapter T) (fh : ℕ) : Prop :=
  ∀ box, σ.heap fh = some box → σ.passed fh = false → σ.system.kernel.status box.mosTid ≠ .terminated →
    box.owner = σ.taskId box.mosTid

/-- What is asked of a step. -/
def Identifies (σ : Adapter T) : AdapterAction T → Prop
  | .proceed _ => ∀ cr task use, σ.system.kernel.crTid = some cr → σ.pc cr = .read task use → σ.Returns task
  | .scheduleTaskDeletion (some fh) => σ.Deletes fh
  | _ => True

/-- `get_or_create_fat_handle` is not overtaken: when it stores or returns, its task still has the
identifier, and nobody has filled or cleared the entry since. -/
def Undisturbed (σ : Adapter T) : AdapterPc → Prop
  | .store task _ => σ.fatHandles task.1 = none ∧ σ.taskId task.1 = task
  | .read task _ => σ.fatHandles task.1 ≠ none ∧ σ.taskId task.1 = task
  | _ => True

/-- New tasks are given identifiers with a null entry in `FAT_HANDLES`, no handle is passed twice, and
`get_or_create_fat_handle` is not overtaken. -/
def ClearsFirst (σ : Adapter T) : AdapterAction T → Prop
  | .taskCreate taskStackSize =>
    ∀ t, (createCall taskStackSize).creates σ.system.kernel = some t → σ.fatHandles t = none
  | .other a => ∀ t, a.creates σ.system = some t → σ.fatHandles t = none
  | .scheduleTaskDeletion (some fh) => σ.passed fh = false
  | .proceed _ => ∀ cr, σ.system.kernel.crTid = some cr → σ.Undisturbed (σ.pc cr)
  | _ => True

instance : DecidablePred σ.Undisturbed := fun
  | .store _ _ | .read _ _ => inferInstanceAs (Decidable (_ ∧ _))
  | .user | .test _ _ | .clear _ _ | .free _ => inferInstanceAs (Decidable True)

instance : DecidablePred σ.ClearsFirst := fun
  | .taskCreate _ | .other _ | .proceed _ => inferInstanceAs (Decidable (∀ _ : Tid, _ → _))
  | .scheduleTaskDeletion (some fh) => inferInstanceAs (Decidable (σ.passed fh = false))
  | .scheduleTaskDeletion none | .currentTask | .currentTaskThreadSemaphore | .setThreadSema _ =>
    inferInstanceAs (Decidable True)

/-! ### The entries and the boxes -/

/-- What holds while `c` is at a step of the adapter. -/
def AtStep (σ : Adapter T) (c : Tid) : AdapterPc → Prop
  | .test task .semaphore | .store task .semaphore | .read task .semaphore => task = σ.taskId c
  | .clear t fh => σ.fatHandles t = some fh ∧ σ.heap fh ≠ none ∧ σ.passed fh = true
  | .free fh => (∀ t, σ.fatHandles t ≠ some fh) ∧ σ.heap fh ≠ none ∧ σ.passed fh = true
  | _ => True

/-- Every entry is of the task that has its identifier now, and every box that has not been passed to
`schedule_task_deletion` has its entry. -/
structure Handles (σ : Adapter T) : Prop where
  entry : ∀ t fh, σ.fatHandles t = some fh →
    ∃ box, σ.heap fh = some box ∧ box.mosTid = t ∧ box.owner = σ.taskId t
  kept : ∀ fh box, σ.heap fh = some box → σ.passed fh = false → σ.fatHandles box.mosTid = some fh
  sema : ∀ fh box, σ.heap fh = some box → box.threadSema = 0 ∨ box.semaBy = some box.owner
  ptr : ∀ c fh, σ.threadSema c = some fh → ∃ box, σ.heap fh = some box ∧ box.owner = σ.taskId c
  steps : ∀ c, σ.AtStep c (σ.pc c)
  alone : ∀ c c' fh, (σ.pc c).deletes = some fh → (σ.pc c').deletes = some fh → c = c'

namespace Handles

theorem init (system : System T) : (Adapter.init system).Handles where
  entry := fun _ _ h => nomatch h
  kept := fun _ _ h => nomatch h
  sema := fun _ _ h => nomatch h
  ptr := fun _ _ h => nomatch h
  steps := fun _ => trivial
  alone := fun _ _ _ h => nomatch h

/-- The system is another matter. -/
theorem ofSystem (h : σ.Handles) (system : System T) : ({ σ with system } : Adapter T).Handles :=
  ⟨h.entry, h.kept, h.sema, h.ptr, h.steps, h.alone⟩

/-- The box that a task is about to drop has been passed and is still there. -/
theorem pending {c : Tid} {fh : ℕ} (h : σ.Handles) (hc : (σ.pc c).deletes = some fh) :
    σ.heap fh ≠ none ∧ σ.passed fh = true := by
  have hstep := h.steps c
  cases hpc : σ.pc c with
  | clear t fh' =>
      rw [hpc] at hc hstep
      cases hc
      exact hstep.2
  | free fh' =>
      rw [hpc] at hc hstep
      cases hc
      exact hstep.2
  | _ =>
      rw [hpc] at hc
      cases hc

/-- A task goes to another step. -/
theorem setPc {t : Tid} {pc : AdapterPc} (h : σ.Handles) (hstep : σ.AtStep t pc)
    (halone : ∀ c fh, c ≠ t → pc.deletes = some fh → (σ.pc c).deletes ≠ some fh) :
    (σ.setPc t pc).Handles where
  entry := h.entry
  kept := h.kept
  sema := h.sema
  ptr := h.ptr
  steps := by
    intro c
    show σ.AtStep c (Function.update σ.pc t pc c)
    rw [Function.update_apply]
    split_ifs with hc
    · rw [hc]
      exact hstep
    · exact h.steps c
  alone := by
    intro c c' fh hc hc'
    replace hc : (Function.update σ.pc t pc c).deletes = some fh := hc
    replace hc' : (Function.update σ.pc t pc c').deletes = some fh := hc'
    rw [Function.update_apply] at hc hc'
    split_ifs at hc hc' with heq heq' heq'
    · rw [heq, heq']
    · exact absurd hc' (halone c' fh heq' hc)
    · exact absurd hc (halone c fh heq hc')
    · exact h.alone c c' fh hc hc'

/-- The same for a step that drops nothing. -/
theorem setPc_of_none {t : Tid} {pc : AdapterPc} (h : σ.Handles) (hstep : σ.AtStep t pc)
    (hnone : pc.deletes = none) : (σ.setPc t pc).Handles :=
  h.setPc hstep fun c fh _ hpc => by
    rw [hnone] at hpc
    cases hpc

/-- What tasks are at stays true where boxes and entries in use stay. -/
theorem atStep_of_frame {c : Tid} {pc : AdapterPc} (h : σ.AtStep c pc) (hid : σ'.taskId c = σ.taskId c)
    (hentry : ∀ fh t, pc.deletes = some fh → (σ'.fatHandles t = some fh ↔ σ.fatHandles t = some fh))
    (hbox : ∀ fh, pc.deletes = some fh → σ'.heap fh = none → σ.heap fh = none)
    (hpassed : ∀ fh, pc.deletes = some fh → σ.passed fh = true → σ'.passed fh = true) : σ'.AtStep c pc := by
  cases pc with
  | test task use => cases use with
    | task => trivial
    | semaphore => exact h.trans hid.symm
  | store task use => cases use with
    | task => trivial
    | semaphore => exact h.trans hid.symm
  | read task use => cases use with
    | task => trivial
    | semaphore => exact h.trans hid.symm
  | user => trivial
  | clear t fh =>
      exact ⟨(hentry fh t rfl).mpr h.1, fun hnone => h.2.1 (hbox fh rfl hnone), hpassed fh rfl h.2.2⟩
  | free fh =>
      exact ⟨fun t ht => h.1 t ((hentry fh t rfl).mp ht), fun hnone => h.2.1 (hbox fh rfl hnone),
        hpassed fh rfl h.2.2⟩

theorem taskId_birth_of_ne {t c : Tid} (hc : c ≠ t) : (σ.birth t).taskId c = σ.taskId c := by
  show (c, Function.update σ.births t (σ.births t + 1) c) = (c, σ.births c)
  rw [Function.update_of_ne hc]

/-- **A new task** does not disturb the handles if its entry is null. -/
theorem birth {t : Tid} (h : σ.Handles) (hnull : σ.fatHandles t = none) : (σ.birth t).Handles where
  entry := by
    intro u fh hu
    obtain ⟨box, hbox, htid, howner⟩ := h.entry u fh hu
    refine ⟨box, hbox, htid, ?_⟩
    rw [taskId_birth_of_ne, howner]
    rintro rfl
    rw [show σ.fatHandles u = some fh from hu] at hnull
    cases hnull
  kept := h.kept
  sema := h.sema
  ptr := by
    intro c fh hc
    replace hc : Function.update σ.threadSema t none c = some fh := hc
    rw [Function.update_apply] at hc
    split_ifs at hc with heq
    obtain ⟨box, hbox, howner⟩ := h.ptr c fh hc
    exact ⟨box, hbox, howner.trans (taskId_birth_of_ne heq).symm⟩
  steps := by
    intro c
    show AtStep (σ.birth t) c (Function.update σ.pc t .user c)
    rw [Function.update_apply]
    split_ifs with hc
    · trivial
    · exact atStep_of_frame (h.steps c) (taskId_birth_of_ne hc) (fun _ _ _ => Iff.rfl)
        (fun _ _ hnone => hnone) fun _ _ hp => hp
  alone := by
    have huser : (σ.setPc t .user).Handles := h.setPc_of_none trivial rfl
    exact huser.alone

/-- A box that is in use is not at an unused address. -/
theorem ne_of_pending {c : Tid} {fh addr : ℕ} (h : σ.Handles) (hc : (σ.pc c).deletes = some fh)
    (hfree : σ.heap addr = none) : fh ≠ addr := by
  rintro rfl
  exact (h.pending hc).1 hfree

/-- **A new box** is put into the entry of a task that has none. -/
theorem storeBox {task : TaskId} {addr : ℕ} (h : σ.Handles) (hs : σ.storeBox task addr = some σ')
    (hnull : σ.fatHandles task.1 = none) (htask : σ.taskId task.1 = task) : σ'.Handles := by
  rw [Adapter.storeBox] at hs
  split_ifs at hs with hfree
  cases hs
  have hold : ∀ fh, σ.heap fh ≠ none → fh ≠ addr := by
    rintro fh hne rfl
    exact hne hfree
  constructor
  case entry =>
    intro t fh ht
    replace ht : Function.update σ.fatHandles task.1 (some addr) t = some fh := ht
    rw [Function.update_apply] at ht
    split_ifs at ht with heq
    · cases ht
      refine ⟨_, Function.update_self _ _ _, heq.symm, ?_⟩
      rw [heq]
      exact htask.symm
    · obtain ⟨box, hbox, hown⟩ := h.entry t fh ht
      have hne := hold fh (by simp [hbox])
      exact ⟨box, (Function.update_of_ne hne _ _).trans hbox, hown⟩
  case kept =>
    intro fh box hbox hp
    replace hbox : Function.update σ.heap addr _ fh = some box := hbox
    replace hp : Function.update σ.passed addr false fh = false := hp
    show Function.update σ.fatHandles task.1 (some addr) box.mosTid = some fh
    rw [Function.update_apply] at hbox hp ⊢
    by_cases heq : fh = addr
    · rw [if_pos heq] at hbox
      cases hbox
      rw [if_pos rfl, heq]
    · rw [if_neg heq] at hbox hp
      have hkept := h.kept fh box hbox hp
      rw [if_neg]
      · exact hkept
      · intro htid
        rw [htid, hnull] at hkept
        cases hkept
  case sema =>
    intro fh box hbox
    replace hbox : Function.update σ.heap addr _ fh = some box := hbox
    rw [Function.update_apply] at hbox
    split_ifs at hbox
    · cases hbox
      exact .inl rfl
    · exact h.sema fh box hbox
  case ptr =>
    intro c fh hc
    obtain ⟨box, hbox, howner⟩ := h.ptr c fh hc
    have hne := hold fh (by simp [hbox])
    exact ⟨box, (Function.update_of_ne hne _ _).trans hbox, howner⟩
  case steps =>
    intro c
    refine atStep_of_frame (h.steps c) rfl (fun fh t hd => ?_) (fun fh hd hnone => ?_) fun fh hd hp => ?_
    · -- the entry was null, so nobody is about to clear it
      have hne := h.ne_of_pending hd hfree
      show Function.update σ.fatHandles task.1 (some addr) t = some fh ↔ _
      rw [Function.update_apply]
      split_ifs with heq
      · rw [heq, hnull]
        simp [hne.symm]
      · rfl
    · exact absurd ((Function.update_of_ne (h.ne_of_pending hd hfree) _ _).symm.trans hnone)
        (h.pending hd).1
    · exact (Function.update_of_ne (h.ne_of_pending hd hfree) _ _).trans hp
  case alone => exact h.alone

/-- A box without an entry is dropped, and nobody is about to drop it again. -/
theorem dropBox {fh : ℕ} (h : σ.Handles) (hnoentry : ∀ t, σ.fatHandles t ≠ some fh)
    (hothers : ∀ c, (σ.pc c).deletes ≠ some fh) (hs : σ.freeBox fh = some σ') : σ'.Handles := by
  obtain ⟨box₀, hbox₀, rfl⟩ := Option.map_eq_some_iff.mp hs
  have hkeeps : ∀ fh' box, fh' ≠ fh → σ.heap fh' = some box →
      Function.update σ.heap fh none fh' = some box := by
    intro fh' box hne hbox
    rw [Function.update_of_ne hne]
    exact hbox
  have hfrom : ∀ fh' box, Function.update σ.heap fh none fh' = some box → σ.heap fh' = some box := by
    intro fh' box hbox
    rw [Function.update_apply] at hbox
    split_ifs at hbox
    exact hbox
  constructor
  case entry =>
    intro t fh' ht
    obtain ⟨box, hbox, hown⟩ := h.entry t fh' ht
    refine ⟨box, hkeeps fh' box ?_ hbox, hown⟩
    intro heq
    exact hnoentry t (heq ▸ ht)
  case kept => exact fun fh' box hbox => h.kept fh' box (hfrom fh' box hbox)
  case sema => exact fun fh' box hbox => h.sema fh' box (hfrom fh' box hbox)
  case ptr =>
    intro c fh' hc
    replace hc : (if σ.threadSema c = some fh then none else σ.threadSema c) = some fh' := hc
    split_ifs at hc with hdangling
    obtain ⟨box, hbox, howner⟩ := h.ptr c fh' hc
    refine ⟨box, hkeeps fh' box ?_ hbox, howner⟩
    intro heq
    exact hdangling (heq ▸ hc)
  case steps =>
    intro c
    refine atStep_of_frame (h.steps c) rfl (fun _ _ _ => Iff.rfl) (fun fh' hd hnone => ?_) fun _ _ hp => hp
    have hne : fh' ≠ fh := by
      intro heq
      exact hothers c (heq ▸ hd)
    exact (Function.update_of_ne hne _ _).symm.trans hnone
  case alone => exact h.alone

/-- A task that is about to drop a box is set aside. -/
theorem nobody_deletes {cr : Tid} {fh : ℕ} (hothers : ∀ c, c ≠ cr → (σ.pc c).deletes ≠ some fh) (c : Tid) :
    ((σ.setPc cr .user).pc c).deletes ≠ some fh := by
  show (Function.update σ.pc cr .user c).deletes ≠ some fh
  rw [Function.update_apply]
  split_ifs with hc
  · intro hd
    cases hd
  · exact hothers c hc

/-- **A box is dropped** by the task that has passed it. -/
theorem freeBox {cr : Tid} {fh : ℕ} (h : σ.Handles) (hpc : σ.pc cr = .free fh)
    (hs : σ.freeBox fh = some σ') : (σ'.setPc cr .user).Handles := by
  have hstep := h.steps cr
  rw [hpc] at hstep
  have huser : (σ.setPc cr .user).Handles := h.setPc_of_none trivial rfl
  have hothers : ∀ c, c ≠ cr → (σ.pc c).deletes ≠ some fh := by
    intro c hc hd
    exact hc (h.alone c cr fh hd (by rw [hpc]; rfl))
  obtain ⟨box, hbox, rfl⟩ := Option.map_eq_some_iff.mp hs
  refine huser.dropBox hstep.1 (nobody_deletes hothers) ?_
  show (σ.heap fh).map _ = _
  rw [hbox]
  rfl

/-- The entry of a box that has been passed is cleared, and nobody is about to drop the box. -/
theorem clearEntry {t : Tid} {fh : ℕ} (h : σ.Handles) (hentry : σ.fatHandles t = some fh)
    (hpassed : σ.passed fh = true) (hothers : ∀ c, (σ.pc c).deletes ≠ some fh) :
    ({ σ with fatHandles := Function.update σ.fatHandles t none } : Adapter T).Handles := by
  have hupdate : ∀ u fh', fh' ≠ fh →
      (Function.update σ.fatHandles t none u = some fh' ↔ σ.fatHandles u = some fh') := by
    intro u fh' hne
    rw [Function.update_apply]
    split_ifs with heq
    · rw [heq, hentry]
      simp [hne.symm]
    · rfl
  constructor
  case entry =>
    intro u fh' hu
    replace hu : Function.update σ.fatHandles t none u = some fh' := hu
    rw [Function.update_apply] at hu
    split_ifs at hu
    exact h.entry u fh' hu
  case kept =>
    intro fh' box hbox hp
    refine (hupdate _ _ ?_).mpr (h.kept fh' box hbox hp)
    rintro rfl
    rw [show σ.passed fh' = false from hp] at hpassed
    cases hpassed
  case sema => exact h.sema
  case ptr => exact h.ptr
  case steps =>
    intro c
    refine atStep_of_frame (h.steps c) rfl (fun fh' u hd => ?_) (fun _ _ hnone => hnone) fun _ _ hp => hp
    apply hupdate
    intro heq
    exact hothers c (heq ▸ hd)
  case alone => exact h.alone

/-- **An entry is cleared** by a task that goes on to drop its box. -/
theorem clear {cr t : Tid} {fh : ℕ} (h : σ.Handles) (hentry : σ.fatHandles t = some fh)
    (hpassed : σ.passed fh = true) (hothers : ∀ c, c ≠ cr → (σ.pc c).deletes ≠ some fh) :
    ({ σ.setPc cr (.free fh) with fatHandles := Function.update σ.fatHandles t none } :
      Adapter T).Handles := by
  obtain ⟨box₀, hbox₀, htid₀, -⟩ := h.entry t fh hentry
  have huser : (σ.setPc cr .user).Handles := h.setPc_of_none trivial rfl
  have hnobody := nobody_deletes hothers
  have heq : ({ σ.setPc cr (.free fh) with fatHandles := Function.update σ.fatHandles t none } :
      Adapter T) = ({ σ.setPc cr .user with fatHandles := Function.update σ.fatHandles t none } :
        Adapter T).setPc cr (.free fh) := by
    simp only [Adapter.setPc, Function.update_idem]
  have hlive : σ.heap fh ≠ none := by simp [hbox₀]
  rw [heq]
  refine (huser.clearEntry hentry hpassed hnobody).setPc ⟨fun u hu => ?_, hlive, hpassed⟩
    fun c fh' _ hd => ?_
  · -- only this entry is of the box
    replace hu : Function.update σ.fatHandles t none u = some fh := hu
    rw [Function.update_apply] at hu
    split_ifs at hu with hut
    obtain ⟨box, hbox, htid, -⟩ := h.entry u fh hu
    rw [hbox₀] at hbox
    cases hbox
    exact hut (htid.symm.trans htid₀)
  · cases hd
    exact hnobody c

/-- A box is passed to `schedule_task_deletion`. -/
theorem pass (h : σ.Handles) (fh : ℕ) :
    ({ σ with passed := Function.update σ.passed fh true } : Adapter T).Handles where
  entry := h.entry
  kept := by
    intro fh' box hbox hp
    replace hp : Function.update σ.passed fh true fh' = false := hp
    rw [Function.update_apply] at hp
    split_ifs at hp
    exact h.kept fh' box hbox hp
  sema := h.sema
  ptr := h.ptr
  steps := by
    intro c
    refine atStep_of_frame (h.steps c) rfl (fun _ _ _ => Iff.rfl) (fun _ _ hnone => hnone)
      fun fh' _ hp => ?_
    show Function.update σ.passed fh true fh' = true
    rw [Function.update_apply]
    split_ifs
    · rfl
    · exact hp
  alone := h.alone

theorem scheduleTaskDeletion {cr : Tid} {fh : ℕ} (h : σ.Handles)
    (hs : σ.scheduleTaskDeletion cr fh = some σ') (hp : σ.passed fh = false) : σ'.Handles := by
  obtain ⟨box, hbox, hs⟩ := Option.bind_eq_some_iff.mp hs
  obtain ⟨system, -, rfl⟩ := Option.map_eq_some_iff.mp hs
  have hentry := h.kept fh box hbox hp
  have hpass : ({ σ with system, passed := Function.update σ.passed fh true } : Adapter T).Handles :=
    (h.ofSystem system).pass fh
  have hpassed : Function.update σ.passed fh true fh = true := Function.update_self _ _ _
  -- it has not been passed, so nobody is about to drop it
  have hothers : ∀ c, (σ.pc c).deletes ≠ some fh := by
    intro c hc
    rw [(h.pending hc).2] at hp
    cases hp
  have hlive : σ.heap fh ≠ none := by simp [hbox]
  dsimp only
  split_ifs
  · exact hpass.clear hentry hpassed fun c _ => hothers c
  · refine hpass.setPc ⟨hentry, hlive, hpassed⟩ fun c fh' _ hd => ?_
    cases hd
    exact hothers c

theorem setThreadSema {cr : Tid} {value : UInt32} (h : σ.Handles)
    (hs : σ.setThreadSema cr value = some σ') : σ'.Handles := by
  obtain ⟨fh, hfh, hs⟩ := Option.bind_eq_some_iff.mp hs
  obtain ⟨box₀, hbox₀, rfl⟩ := Option.map_eq_some_iff.mp hs
  obtain ⟨box₁, hbox₁, howner⟩ := h.ptr cr fh hfh
  rw [hbox₀] at hbox₁
  cases hbox₁
  -- the box keeps everything but its semaphore
  have hbox : ∀ fh' box, σ.heap fh' = some box → ∃ box', Function.update σ.heap fh
      (some { box₀ with threadSema := value, semaBy := some (σ.taskId cr) }) fh' = some box' ∧
        box'.mosTid = box.mosTid ∧ box'.owner = box.owner := by
    intro fh' box hbox
    rw [Function.update_apply]
    split_ifs with heq
    · rw [heq, hbox₀] at hbox
      cases hbox
      exact ⟨_, rfl, rfl, rfl⟩
    · exact ⟨box, hbox, rfl, rfl⟩
  constructor
  case entry =>
    intro t fh' ht
    obtain ⟨box, hb, htid, hown⟩ := h.entry t fh' ht
    obtain ⟨box', hb', htid', hown'⟩ := hbox fh' box hb
    exact ⟨box', hb', htid'.trans htid, hown'.trans hown⟩
  case kept =>
    intro fh' box hb hp
    replace hb : Function.update σ.heap fh _ fh' = some box := hb
    rw [Function.update_apply] at hb
    split_ifs at hb with heq
    · cases hb
      rw [heq] at hp ⊢
      exact h.kept fh box₀ hbox₀ hp
    · exact h.kept fh' box hb hp
  case sema =>
    intro fh' box hb
    replace hb : Function.update σ.heap fh _ fh' = some box := hb
    rw [Function.update_apply] at hb
    split_ifs at hb with heq
    · cases hb
      exact .inr (congrArg some howner.symm)
    · exact h.sema fh' box hb
  case ptr =>
    intro c fh' hc
    obtain ⟨box, hb, hown⟩ := h.ptr c fh' hc
    obtain ⟨box', hb', -, hown'⟩ := hbox fh' box hb
    exact ⟨box', hb', hown'.trans hown⟩
  case steps =>
    intro c
    refine atStep_of_frame (h.steps c) rfl (fun _ _ _ => Iff.rfl) (fun fh' _ hnone => ?_) fun _ _ hp => hp
    replace hnone : Function.update σ.heap fh _ fh' = none := hnone
    rw [Function.update_apply] at hnone
    split_ifs at hnone
    exact hnone
  case alone => exact h.alone

/-- A pointer to the `thread_sema` of the running task is returned. -/
theorem readSemaphore {cr : Tid} {task : TaskId} (h : σ.Handles) (hown : task = σ.taskId cr) :
    ({ σ.setPc cr .user with
        threadSema := Function.update σ.threadSema cr (σ.fatHandles task.1) } : Adapter T).Handles := by
  have huser : (σ.setPc cr .user).Handles := h.setPc_of_none trivial rfl
  refine ⟨huser.entry, huser.kept, huser.sema, fun c fh hc => ?_, fun c => ?_, huser.alone⟩
  · replace hc : Function.update σ.threadSema cr (σ.fatHandles task.1) c = some fh := hc
    rw [Function.update_apply] at hc
    split_ifs at hc with heq
    · obtain ⟨box, hbox, -, howner⟩ := h.entry _ fh hc
      refine ⟨box, hbox, howner.trans ?_⟩
      rw [hown, heq]
      rfl
    · exact h.ptr c fh hc
  · exact atStep_of_frame (huser.steps c) rfl (fun _ _ _ => Iff.rfl) (fun _ _ hnone => hnone) fun _ _ hp => hp

theorem proceed {cr : Tid} {addr : ℕ} (h : σ.Handles) (hs : σ.proceed cr addr = some σ')
    (hu : σ.Undisturbed (σ.pc cr)) : σ'.Handles := by
  have hstep := h.steps cr
  rw [Adapter.proceed] at hs
  cases hpc : σ.pc cr with
  | user =>
      rw [hpc] at hs
      cases hs
  | test task use =>
      rw [hpc] at hs hstep
      cases hs
      split_ifs
      · exact h.setPc_of_none (by cases use <;> exact hstep) rfl
      · exact h.setPc_of_none (by cases use <;> exact hstep) rfl
  | store task use =>
      rw [hpc] at hs hu hstep
      obtain ⟨σ₁, hstore, rfl⟩ := Option.map_eq_some_iff.mp hs
      have h₁ := h.storeBox hstore hu.1 hu.2
      have hsame : σ₁.taskId = σ.taskId := by
        rw [Adapter.storeBox] at hstore
        split_ifs at hstore
        cases hstore
        rfl
      refine h₁.setPc_of_none ?_ rfl
      cases use with
      | task => trivial
      | semaphore =>
          show task = σ₁.taskId cr
          rw [hsame]
          exact hstep
  | read task use =>
      rw [hpc] at hs hstep
      cases use with
      | task =>
          cases hs
          exact h.setPc_of_none trivial rfl
      | semaphore =>
          cases hs
          exact h.readSemaphore hstep
  | clear tid fh =>
      rw [hpc] at hs hstep
      cases hs
      refine h.clear hstep.1 hstep.2.2 fun c hc hd => hc ?_
      exact h.alone c cr fh hd (by rw [hpc]; rfl)
  | free fh =>
      rw [hpc] at hs
      obtain ⟨σ₁, hfree, rfl⟩ := Option.map_eq_some_iff.mp hs
      exact h.freeBox hpc hfree

theorem taskCreate {cr : Tid} {taskStackSize : ℕ} (h : σ.Handles)
    (hs : σ.taskCreate cr taskStackSize = some σ') (hC : σ.ClearsFirst (.taskCreate taskStackSize)) :
    σ'.Handles := by
  obtain ⟨system, -, rfl⟩ := Option.map_eq_some_iff.mp hs
  have hsys := h.ofSystem system
  dsimp only
  split
  · rename_i t ht
    exact (hsys.birth (hC t ht)).setPc_of_none trivial rfl
  · exact hsys

theorem other {b : Action T} (h : σ.Handles) (hs : σ.other cap b = some σ')
    (hC : σ.ClearsFirst (.other b)) : σ'.Handles := by
  obtain ⟨system, -, rfl⟩ := Option.map_eq_some_iff.mp hs
  have hsys := h.ofSystem system
  dsimp only
  split
  · rename_i t ht
    exact hsys.birth (hC t ht)
  · exact hsys

/-- A call that comes at the right time keeps handles and tasks together. -/
theorem call {cr : Tid} (h : σ.Handles) (hs : σ.call cr a = some σ') (hC : σ.ClearsFirst a) :
    σ'.Handles := by
  cases a with
  | taskCreate taskStackSize => exact h.taskCreate hs hC
  | currentTask =>
      cases hs
      exact h.setPc_of_none trivial rfl
  | currentTaskThreadSemaphore =>
      cases hs
      exact h.setPc_of_none rfl rfl
  | setThreadSema value => exact h.setThreadSema hs
  | scheduleTaskDeletion taskHandle =>
      cases taskHandle with
      | none =>
          cases hs
          exact h
      | some fh => exact h.scheduleTaskDeletion hs hC
  | proceed addr => cases hs
  | other b => cases hs

/-- **One step.** -/
theorem step (h : σ.Handles) (hs : σ.step cap a = some σ') (hC : σ.ClearsFirst a) : σ'.Handles := by
  have hcall : ∀ {cr : Tid}, (match σ.system.pc cr, σ.pc cr with
      | .user, .user => σ.call cr a
      | _, _ => none) = some σ' → σ'.Handles := by
    intro cr hs
    split at hs
    · exact h.call hs hC
    · cases hs
  cases a with
  | proceed addr =>
      obtain ⟨cr, hcr, hs⟩ := Option.bind_eq_some_iff.mp hs
      exact h.proceed hs (hC cr hcr)
  | other b =>
      change (if σ.enabled b then σ.other cap b else none) = some σ' at hs
      split_ifs at hs
      exact h.other hs hC
  | _ =>
      obtain ⟨cr, -, hs⟩ := Option.bind_eq_some_iff.mp hs
      exact hcall hs

/-- What is returned and what is deleted. -/
theorem identifies (h : σ.Handles) (hC : σ.ClearsFirst a) : σ.Identifies a := by
  cases a with
  | proceed addr =>
      intro cr task use hcr hpc
      have hu := hC cr hcr
      rw [hpc] at hu
      obtain ⟨fh, hfh⟩ := Option.ne_none_iff_exists'.mp hu.1
      obtain ⟨box, hbox, -, howner⟩ := h.entry _ fh hfh
      rw [hu.2] at howner
      refine ⟨fh, box, hfh, hbox, howner, ?_⟩
      rw [← howner]
      exact h.sema fh box hbox
  | scheduleTaskDeletion taskHandle =>
      cases taskHandle with
      | none => trivial
      | some fh =>
          intro box hbox hp _
          obtain ⟨box', hbox', -, howner⟩ := h.entry _ fh (h.kept fh box hbox hp)
          rw [hbox] at hbox'
          cases hbox'
          exact howner
  | _ => trivial

end Handles

/-- **Handles identify tasks.**  In a run where every new task is given an identifier with a null entry in
`FAT_HANDLES`, no handle is passed to `schedule_task_deletion` twice and `get_or_create_fat_handle` is not
overtaken, each handle that is returned was made for the task that it is returned to or for, with a
`thread_sema` that nobody else has written; and each deletion terminates the task that its handle was made
for, or nobody. -/
theorem handles_identify_tasks {system : System T} {tr : List (Adapter T × AdapterAction T)}
    (hr : Run (Adapter.step cap) (fun _ _ => True) (.init system) tr σ)
    (hC : ∀ e ∈ tr, e.1.ClearsFirst e.2) : ∀ e ∈ tr, e.1.Identifies e.2 := by
  have hall := (hr.strengthen hC).always (Handles.init system) fun _ _ _ h hok hs => h.step hs hok.2
  intro e he
  exact (hall.1 e he).identifies (hC e he)

/-- A task of the radio stack sets its semaphore and returns; its handle is deleted before the next task is
created, which gets the same identifier and a new box at the same address. -/
theorem handles_identify_tasks_run : ∃ k₀ tr, ∃ σ : Adapter Unit,
    launchAfter [.create 3 "a"] = some k₀ ∧
      Run (Adapter.step fun _ => 0) (fun _ _ => True) (.init (.init k₀ fun _ => 0)) tr σ ∧
      (∀ e ∈ tr, e.1.Identifies e.2) ∧ σ.births 2 = 2 ∧ σ.fatHandles 2 = some 5 ∧
      (σ.heap 5).map FatTaskHandle.threadSema = some 0 := by
  have hsome : (launchAfter [.create 3 "a"]).isSome = true := by decide +kernel
  obtain ⟨k₀, hk₀⟩ := Option.isSome_iff_exists.mp hsome
  have hexec : ((launchAfter [.create 3 "a"]).bind fun k₀ =>
      exec (Adapter.step fun _ => 0) (fun (σ : Adapter Unit) a => σ.ClearsFirst a)
        (.init (.init k₀ fun _ => 0)) [.taskCreate 4096, .proceed 5, .proceed 5, .proceed 5,
          .other .preempt, .currentTaskThreadSemaphore, .proceed 5, .proceed 5, .setThreadSema 7,
          .other (.call (.task .exitCurrent)), .scheduleTaskDeletion (some 5), .proceed 5,
          .taskCreate 4096, .proceed 5, .proceed 5, .proceed 5]).any (fun σ =>
            σ.births 2 = 2 ∧ σ.fatHandles 2 = some 5 ∧
              (σ.heap 5).map FatTaskHandle.threadSema = some 0) = true := by
    decide +kernel
  rw [hk₀, Option.bind_some] at hexec
  obtain ⟨tr, σ, hr, hσ⟩ := exists_run_of_exec
    (fun (σ : Adapter Unit) (a : AdapterAction Unit) (h : decide (σ.ClearsFirst a) = true) =>
      of_decide_eq_true h) hexec
  have hrun : Run (Adapter.step fun _ => 0) (fun _ _ => True) (.init (.init k₀ fun _ => 0)) tr σ :=
    hr.mono fun _ _ _ => trivial
  exact ⟨k₀, tr, σ, hk₀, hrun, handles_identify_tasks hrun hr.forall_guard, of_decide_eq_true hσ⟩

/-- A task of the radio stack sets its semaphore and returns, without a deletion.  The next task is about to
be given its handle, and its semaphore. -/
theorem handle_of_earlier_task : ∃ k₀ tr, ∃ σ : Adapter Unit,
    launchAfter [.create 3 "a"] = some k₀ ∧
      Run (Adapter.step fun _ => 0) (fun _ _ => True) (.init (.init k₀ fun _ => 0)) tr σ ∧
      σ.system.kernel.crTid = some 0 ∧ σ.pc 0 = .read (2, 2) .task ∧ σ.fatHandles 2 = some 5 ∧
      (σ.heap 5).map FatTaskHandle.owner = some (2, 1) ∧
      (σ.heap 5).map FatTaskHandle.threadSema = some 7 ∧ ¬σ.Identifies (.proceed 0) := by
  have hsome : (launchAfter [.create 3 "a"]).isSome = true := by decide +kernel
  obtain ⟨k₀, hk₀⟩ := Option.isSome_iff_exists.mp hsome
  have hexec : ((launchAfter [.create 3 "a"]).bind fun k₀ =>
      exec (Adapter.step fun _ => 0) (fun (_ : Adapter Unit) _ => true)
        (.init (.init k₀ fun _ => 0)) [.taskCreate 4096, .proceed 5, .proceed 5, .proceed 5,
          .other .preempt, .currentTaskThreadSemaphore, .proceed 5, .proceed 5, .setThreadSema 7,
          .other (.call (.task .exitCurrent)), .taskCreate 4096, .proceed 5]).any (fun σ =>
            σ.system.kernel.crTid = some 0 ∧ σ.pc 0 = .read (2, 2) .task ∧ σ.fatHandles 2 = some 5 ∧
              (σ.heap 5).map FatTaskHandle.owner = some (2, 1) ∧
              (σ.heap 5).map FatTaskHandle.threadSema = some 7) = true := by
    decide +kernel
  rw [hk₀, Option.bind_some] at hexec
  obtain ⟨tr, σ, hr, hσ⟩ := exists_run_of_exec (fun _ _ _ => trivial) hexec
  obtain ⟨hcr, hpc, hentry, howner, hsema⟩ := of_decide_eq_true hσ
  refine ⟨k₀, tr, σ, hk₀, hr, hcr, hpc, hentry, howner, hsema, fun hid => ?_⟩
  obtain ⟨fh, box, hfh, hbox, hbad, -⟩ := hid 0 (2, 2) .task hcr hpc
  rw [hentry] at hfh
  cases hfh
  rw [hbox, Option.map_some, hbad] at howner
  exact absurd howner (by decide)

end Adapter

end MosKernel
