import MosKernel.Erasure

/-!
# How many executors

`ensure_init` of `kernel/async_rt.rs` tests `INIT_FLAG`, creates the executor task and sets the flag, in
three steps that nothing protects.  `Task::create` switches to the executor before it returns, since the
executor outranks its creator, so another task can make the test in between.

`Spawners` is the system with the calls of `ensure_init` in progress.  As long as nobody finds the flag unset
while another call is between its test and its store, the calls that create go one by one (`Serial`), and the
flag stops all but the first: there is one executor (`one_executor`).
-/

namespace MosKernel

open Transition Kernel

variable {T : Type}

/-- The priority of the executor in `ensure_init`. -/
abbrev executorPriority : ℕ := 1

/-- The step of `ensure_init` that a task executes next. -/
inductive InitPc where
  /-- not in `ensure_init` -/
  | user
  /-- has found `INIT_FLAG` unset, before `Task::create` -/
  | create
  /-- the executor has been created, before `INIT_FLAG = true` -/
  | store
  deriving DecidableEq

/-- The system with `INIT_FLAG` and the calls of `ensure_init`. -/
structure Spawners (T : Type) where
  system : System T
  initFlag : Bool
  initPc : Tid → InitPc
  /-- ghost: a call has created an executor, but its task has been replaced before it set `INIT_FLAG` -/
  orphaned : Bool
  /-- ghost: how many tasks that run `executor_task` have been created -/
  executors : ℕ

/-- A step of `ensure_init` by the running task, or any other action. -/
inductive SpawnAction (T : Type) where
  | test
  | create
  | store
  | other (a : Action T)
  deriving DecidableEq

namespace Spawners

variable {cap : ℕ → ℕ} {σ σ' : Spawners T} {a : SpawnAction T}

/-- Nobody has spawned a future yet. -/
def init (system : System T) : Spawners T where
  system := system
  initFlag := false
  initPc := fun _ => .user
  orphaned := false
  executors := 0

def setInitPc (σ : Spawners T) (t : Tid) (pc : InitPc) : Spawners T :=
  { σ with initPc := Function.update σ.initPc t pc }

/-- A new task starts outside `ensure_init`; a call of its predecessor is lost. -/
def newTask (σ : Spawners T) (t : Tid) : Spawners T :=
  { σ.setInitPc t .user with orphaned := σ.orphaned || σ.initPc t = .store }

/-- `if INIT_FLAG { return; }` -/
def test (σ : Spawners T) (cr : Tid) : Spawners T :=
  if σ.initFlag then σ else σ.setInitPc cr .create

/-- `Task::create(executor_task, 1, "async/exec").is_ok()` -/
def create (σ : Spawners T) (cr : Tid) : Option (Spawners T) :=
  let c := TaskCall.create executorPriority "async/exec"
  (σ.system.task c).map fun system =>
    let σ' := { σ with system }
    match c.creates σ.system.kernel with
    | some t => { σ'.setInitPc cr .store with executors := σ.executors + 1 }.newTask t
    | none => σ'.setInitPc cr .user

/-- `INIT_FLAG = true` -/
def store (σ : Spawners T) (cr : Tid) : Spawners T := { σ.setInitPc cr .user with initFlag := true }

/-- Tasks in `ensure_init` do nothing else; interrupts come at any time. -/
def enabled (σ : Spawners T) : Action T → Bool
  | .call _ | .proceed => σ.system.kernel.crTid.map σ.initPc = some .user
  | _ => true

/-- An action outside `ensure_init`. -/
def other (cap : ℕ → ℕ) (σ : Spawners T) (a : Action T) : Option (Spawners T) :=
  (σ.system.step cap a).map fun system =>
    let σ' := { σ with system }
    match a.creates σ.system with
    | some t => σ'.newTask t
    | none => σ'

/-- Execute one action. -/
def step (cap : ℕ → ℕ) (σ : Spawners T) : SpawnAction T → Option (Spawners T)
  | .test => σ.system.kernel.crTid.bind fun cr =>
    match σ.system.pc cr, σ.initPc cr with
    | .user, .user => some (σ.test cr)
    | _, _ => none
  | .create => σ.system.kernel.crTid.bind fun cr => if σ.initPc cr = .create then σ.create cr else none
  | .store => σ.system.kernel.crTid.bind fun cr =>
    if σ.initPc cr = .store then some (σ.store cr) else none
  | .other a => if σ.enabled a then σ.other cap a else none

/-! ### One call after the other -/

/-- Whoever finds `INIT_FLAG` unset finds no other call between its test and its store, whether its task goes
on or has been terminated, and none that is lost with its executor. -/
def TestsAlone (σ : Spawners T) (a : SpawnAction T) : Prop :=
  a = .test → σ.initFlag = false → (∀ t, σ.initPc t = .user) ∧ σ.orphaned = false

instance [DecidableEq T] : Decidable (σ.TestsAlone a) := inferInstanceAs (Decidable (_ → _))

/-- How far the calls have got when they go one by one. -/
inductive Serial (σ : Spawners T) : Prop
  /-- nobody has found the flag unset and is going to create an executor -/
  | idle : σ.initFlag = false → (∀ u, σ.initPc u = .user) → σ.orphaned = false → σ.executors = 0 →
      Serial σ
  /-- `t` has, and nobody else -/
  | tested {t : Tid} : σ.initFlag = false → σ.initPc t = .create → (∀ u, u ≠ t → σ.initPc u = .user) →
      σ.orphaned = false → σ.executors = 0 → Serial σ
  /-- `t` has created the executor -/
  | created {t : Tid} : σ.initFlag = false → σ.initPc t = .store →
      (∀ u, u ≠ t → σ.initPc u = .user) → σ.executors = 1 → Serial σ
  /-- the flag is set, or will never be -/
  | done : σ.initFlag = true ∨ σ.orphaned = true → (∀ u, σ.initPc u = .user) → σ.executors = 1 →
      Serial σ

theorem Serial.init (system : System T) : (Spawners.init system).Serial :=
  .idle rfl (fun _ => rfl) rfl rfl

theorem Serial.executors_le (h : σ.Serial) : σ.executors ≤ 1 := by
  cases h with
  | idle _ _ _ he => omega
  | tested _ _ _ _ he => omega
  | created _ _ _ he => omega
  | done _ _ he => omega

/-- The calls do not change with the system. -/
theorem Serial.putSystem (h : σ.Serial) (system : System T) : Serial { σ with system } := by
  cases h with
  | idle hf hu ho he => exact .idle hf hu ho he
  | tested hf ht hu ho he => exact .tested hf ht hu ho he
  | created hf ht hu he => exact .created hf ht hu he
  | done hf hu he => exact .done hf hu he

@[simp] theorem initPc_setInitPc (σ : Spawners T) (t u : Tid) (pc : InitPc) :
    (σ.setInitPc t pc).initPc u = if u = t then pc else σ.initPc u :=
  Function.update_apply _ _ _ _

@[simp] theorem initPc_newTask (σ : Spawners T) (t u : Tid) :
    (σ.newTask t).initPc u = if u = t then .user else σ.initPc u :=
  Function.update_apply _ _ _ _

/-- Who is in `ensure_init` where only one task is. -/
theorem eq_of_initPc {t cr : Tid} (hu : ∀ u, u ≠ t → σ.initPc u = .user) (hcr : σ.initPc cr ≠ .user) :
    cr = t := by
  by_contra hne
  exact hcr (hu cr hne)

theorem Serial.newTask (h : σ.Serial) (t : Tid) : (σ.newTask t).Serial := by
  have huser : ∀ {s : Tid}, (∀ u, u ≠ s → σ.initPc u = .user) → t = s →
      ∀ u, (σ.newTask t).initPc u = .user := by
    rintro s hu rfl u
    rw [initPc_newTask]
    split_ifs with hut
    · rfl
    · exact hu u hut
  have hkeep : ∀ {s : Tid}, (∀ u, u ≠ s → σ.initPc u = .user) →
      ∀ u, u ≠ s → (σ.newTask t).initPc u = .user := by
    intro s hu u hus
    rw [initPc_newTask, hu u hus, ite_self]
  cases h with
  | idle hf hu ho he =>
      refine .idle hf (huser (fun u _ => hu u) rfl) ?_ he
      simp [Spawners.newTask, ho, hu t]
  | @tested s hf hs hu ho he =>
      by_cases hts : t = s
      · refine .idle hf (huser hu hts) ?_ he
        simp [Spawners.newTask, ho, hts, hs]
      · refine .tested hf ?_ (hkeep hu) ?_ he
        · rw [initPc_newTask, if_neg (Ne.symm hts), hs]
        · simp [Spawners.newTask, ho, hu t hts]
  | @created s hf hs hu he =>
      by_cases hts : t = s
      · refine .done (.inr ?_) (huser hu hts) he
        simp [Spawners.newTask, hts, hs]
      · refine .created hf ?_ (hkeep hu) he
        rw [initPc_newTask, if_neg (Ne.symm hts), hs]
  | done hf hu he =>
      refine .done (hf.imp_right fun ho => ?_) (huser (fun u _ => hu u) rfl) he
      simp [Spawners.newTask, ho]

/-- The test: the flag stops it where an executor exists, and it is alone where none does. -/
theorem Serial.test {cr : Tid} (h : σ.Serial) (hC : σ.TestsAlone .test) : (σ.test cr).Serial := by
  unfold Spawners.test
  split_ifs with hset
  · exact h
  · have hunset : σ.initFlag = false := Bool.eq_false_of_not_eq_true hset
    obtain ⟨halone, hlost⟩ := hC rfl hunset
    cases h with
    | idle hf hu ho he =>
        refine .tested (t := cr) hf ?_ (fun u hu' => ?_) ho he
        · rw [initPc_setInitPc, if_pos rfl]
        · rw [initPc_setInitPc, if_neg hu', hu u]
    | @tested s hf hs hu ho he =>
        rw [halone s] at hs
        cases hs
    | @created s hf hs hu he =>
        rw [halone s] at hs
        cases hs
    | done hf hu he =>
        rcases hf with hf | ho
        · exact absurd hf hset
        · rw [hlost] at ho
          cases ho

/-- `Task::create` is executed by the one call in progress. -/
theorem Serial.create {cr : Tid} (h : σ.Serial) (hpc : σ.initPc cr = .create)
    (hs : σ.create cr = some σ') : σ'.Serial := by
  obtain ⟨hf, hu, ho, he⟩ : σ.initFlag = false ∧ (∀ u, u ≠ cr → σ.initPc u = .user) ∧
      σ.orphaned = false ∧ σ.executors = 0 := by
    have hin : σ.initPc cr ≠ .user := by simp [hpc]
    cases h with
    | idle hf hu ho he => exact absurd (hu cr) hin
    | tested hf ht hu ho he =>
        obtain rfl := eq_of_initPc hu hin
        exact ⟨hf, hu, ho, he⟩
    | created hf ht hu he =>
        obtain rfl := eq_of_initPc hu hin
        rw [hpc] at ht
        cases ht
    | done hf hu he => exact absurd (hu cr) hin
  obtain ⟨system, -, rfl⟩ := Option.map_eq_some_iff.mp hs
  have hothers : ∀ pc, ∀ u, u ≠ cr → (σ.setInitPc cr pc).initPc u = .user := by
    intro pc u huc
    rw [initPc_setInitPc, if_neg huc, hu u huc]
  dsimp only
  split
  · have hone : σ.executors + 1 = 1 := by rw [he]
    have hcreated : Serial { ({ σ with system }.setInitPc cr .store) with executors := σ.executors + 1 } :=
      .created (t := cr) hf (Function.update_self _ _ _) (hothers .store) hone
    exact hcreated.newTask _
  · refine .idle hf (fun u => ?_) ho he
    by_cases huc : u = cr
    · rw [huc]
      exact Function.update_self _ _ _
    · exact hothers .user u huc

/-- `INIT_FLAG` is set by the call that has created the executor. -/
theorem Serial.store {cr : Tid} (h : σ.Serial) (hpc : σ.initPc cr = .store) :
    (σ.store cr).Serial := by
  have hin : σ.initPc cr ≠ .user := by simp [hpc]
  cases h with
  | idle hf hu ho he => exact absurd (hu cr) hin
  | tested hf ht hu ho he =>
      obtain rfl := eq_of_initPc hu hin
      rw [hpc] at ht
      cases ht
  | created hf ht hu he =>
      obtain rfl := eq_of_initPc hu hin
      refine .done (.inl rfl) (fun u => ?_) he
      show (σ.setInitPc cr .user).initPc u = .user
      rw [initPc_setInitPc]
      split_ifs with huc
      · rfl
      · exact hu u huc
  | done hf hu he => exact absurd (hu cr) hin

theorem Serial.other {b : Action T} (h : σ.Serial) (hs : σ.other cap b = some σ') : σ'.Serial := by
  obtain ⟨system, -, rfl⟩ := Option.map_eq_some_iff.mp hs
  dsimp only
  split
  · exact (h.putSystem system).newTask _
  · exact h.putSystem system

/-- **The calls along a step.** -/
theorem Serial.step (h : σ.Serial) (hC : σ.TestsAlone a) (hs : σ.step cap a = some σ') :
    σ'.Serial := by
  cases a with
  | test =>
      obtain ⟨cr, -, hs⟩ := Option.bind_eq_some_iff.mp hs
      split at hs
      · cases hs
        exact h.test hC
      · cases hs
  | create =>
      obtain ⟨cr, -, hs⟩ := Option.bind_eq_some_iff.mp hs
      split_ifs at hs with hpc
      exact h.create hpc hs
  | store =>
      obtain ⟨cr, -, hs⟩ := Option.bind_eq_some_iff.mp hs
      split_ifs at hs with hpc
      cases hs
      exact h.store hpc
  | other b =>
      change (if σ.enabled b then σ.other cap b else none) = some σ' at hs
      split_ifs at hs
      exact h.other hs

end Spawners

/-! ### Runs -/

/-- **At most one executor.**  In every run that starts before the first spawn, whatever happens between the
steps of `ensure_init`: if no call finds `INIT_FLAG` unset while another one is between its test and its
store, or has been lost there after it created its executor, then at most one executor is ever created. -/
theorem one_executor {cap : ℕ → ℕ} {system : System T} {tr : List (Spawners T × SpawnAction T)}
    {σ : Spawners T}
    (hr : Run (Spawners.step cap) (fun σ a => σ.TestsAlone a) (.init system) tr σ) :
    Always (fun σ => σ.executors ≤ 1) tr σ := by
  have hall := hr.always (I := Spawners.Serial) (.init system) fun _ _ _ h hC hs => h.step hC hs
  exact ⟨fun e he => (hall.1 e he).executors_le, hall.2.executors_le⟩

/-- A task spawns; its executor starts and sleeps, and so does the other task.  The first sets the flag,
and the second spawn of each finds it set. -/
theorem one_executor_run : ∃ k₀ tr, ∃ σ : Spawners Unit,
    launchAfter [.create 3 "a", .create 3 "b"] = some k₀ ∧
      Run (Spawners.step fun _ => 0) (fun σ a => σ.TestsAlone a) (.init (.init k₀ fun _ => 0)) tr σ ∧
      σ.executors = 1 ∧ σ.initFlag = true ∧ Always (fun σ => σ.executors ≤ 1) tr σ := by
  have hsome : (launchAfter [.create 3 "a", .create 3 "b"]).isSome = true := by decide +kernel
  obtain ⟨k₀, hk₀⟩ := Option.isSome_iff_exists.mp hsome
  have hexec : ((launchAfter [.create 3 "a", .create 3 "b"]).bind fun k₀ =>
      exec (Spawners.step fun _ => 0) (fun (σ : Spawners Unit) a => σ.TestsAlone a)
        (.init (.init k₀ fun _ => 0)) [.test, .create, .other (.call (.task (.delay 1))),
          .other (.call (.task (.delay 1))), .store, .test,
          .other (.call (.task (.delay 9))), .other (.systick 1), .other (.call (.task (.delay 9))),
          .test]).any (fun σ => σ.executors = 1 ∧ σ.initFlag = true) = true := by
    decide +kernel
  rw [hk₀, Option.bind_some] at hexec
  obtain ⟨tr, σ, hr, hσ⟩ := exists_run_of_exec
    (fun (σ : Spawners Unit) (a : SpawnAction Unit) (h : decide (σ.TestsAlone a) = true) =>
      of_decide_eq_true h) hexec
  obtain ⟨hone, hset⟩ := of_decide_eq_true hσ
  exact ⟨k₀, tr, σ, hk₀, hr, hone, hset, one_executor hr⟩

/-- The first task is switched out inside `Task::create`; its executor sleeps, and the second task, which
runs then, finds the flag still unset. -/
theorem two_executors : ∃ k₀ tr, ∃ σ : Spawners Unit,
    launchAfter [.create 3 "a", .create 3 "b"] = some k₀ ∧
      Run (Spawners.step fun _ => 0) (fun _ _ => True) (.init (.init k₀ fun _ => 0)) tr σ ∧
      σ.system.kernel.status 3 ≠ .terminated ∧ σ.system.kernel.status 4 ≠ .terminated ∧
      σ.executors = 2 := by
  have hsome : (launchAfter [.create 3 "a", .create 3 "b"]).isSome = true := by decide +kernel
  obtain ⟨k₀, hk₀⟩ := Option.isSome_iff_exists.mp hsome
  have hexec : ((launchAfter [.create 3 "a", .create 3 "b"]).bind fun k₀ =>
      exec (Spawners.step fun _ => 0) (fun (_ : Spawners Unit) _ => true)
        (.init (.init k₀ fun _ => 0)) [.test, .create, .other (.call (.task (.delay 1))), .test,
          .create]).any (fun σ => σ.system.kernel.status 3 ≠ .terminated ∧
            σ.system.kernel.status 4 ≠ .terminated ∧ σ.executors = 2) = true := by
    decide +kernel
  rw [hk₀, Option.bind_some] at hexec
  obtain ⟨tr, σ, hr, hσ⟩ := exists_run_of_exec (fun _ _ _ => trivial) hexec
  obtain ⟨hfirst, hsecond, htwo⟩ := of_decide_eq_true hσ
  exact ⟨k₀, tr, σ, hk₀, hr, hfirst, hsecond, htwo⟩

end MosKernel
