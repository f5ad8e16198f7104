import MosKernel.Contexts
import MosKernel.Passes

/-!
# The moves of the machine as steps of the kernel

The models of the scheduler and of the synchronisation objects treat a creation, an `ecall`, a systick
interrupt and the launch as functions of the kernel's statics alone.  `moves_refine_kernel` says that the
machine does just that, through the text of its handler; `traps_unmask` what a trap does to the status bits,
and `launch_window` what happens where `Scheduler::launch` lets an interrupt in.
-/

namespace MosKernel

open ForwardCode SaveArea Transition Kernel

namespace Machine

variable {L : Layout} {m m' : Machine} {cause : BitVec 32} {e : Surroundings} {s : Region 32}

/-! ### Traps -/

/-- The words of the context frame that the dispatch looks at. -/
def trapWords (m : Machine) (cause : BitVec 32) (i : ℕ) : BitVec 32 :=
  (m.trap cause).pushed (m.reg .sp - 128) (m.reg .sp - 128 + BitVec.ofNat 32 (4 * i))

/-- The second half of the handler is a `yield_task` if the dispatch asks for one. -/
theorem map_kernel_switch {f top ret : BitVec 32}
    (hnext : ∀ k, m.kernel.nextTcb = some k → ∃ t, k.currentTcbPtr = some t) :
    (m.switch e f top ret).map kernel = m.kernel.yieldIf (ret ≠ 0) := by
  rw [switch, Kernel.yieldIf, Kernel.yieldTask]
  by_cases hret : ret = 0
  · rw [if_neg fun hc => hc.2 hret, decide_eq_false (not_not.mpr hret)]
    rfl
  · rw [decide_eq_true hret, if_pos rfl]
    by_cases hready : m.kernel.schedReady = true
    · rw [if_pos ⟨hready, hret⟩, if_pos hready, Option.map_bind]
      refine (Option.bind_congr fun k hk => ?_).trans (Option.bind_fun_some _)
      obtain ⟨t, ht⟩ := hnext k hk
      simp only [Function.comp_apply, ht, Option.map_some]
      rfl
    · rw [if_neg fun hc => hready hc.1, if_neg hready]
      rfl

/-- The kernel after a trap: what the dispatch leaves, after a pass if it has asked for one. -/
theorem TrapReady.map_kernel (h : TrapReady L m cause e s) :
    ((m.trap cause).handle e).map kernel =
      (mosTrapDispatch e.outside cause (m.trapWords cause) m.globals).bind fun r =>
        r.globals.kernel.yieldIf (r.ret ≠ 0) := by
  rw [handle, Option.map_bind]
  refine Option.bind_congr fun r hr => ?_
  exact map_kernel_switch fun k hk => (h.switched hr hk).2

/-- An `ecall` is a `yield_task`. -/
theorem TrapReady.ecall (h : TrapReady L m 11 e s) :
    ((m.trap 11).handle e).map kernel = m.kernel.yieldTask := by
  rw [h.map_kernel]
  rfl

/-- A systick interrupt replays the missed ticks and asks for a pass if one of them or the flag
`YIELD_FROM_ISR` does. -/
theorem TrapReady.systick (h : TrapReady L m 0x80000014 e s) :
    ((m.trap 0x80000014).handle e).map kernel =
      (m.kernel.systickReplay (m.globals.devices.systickIsr e.outside.now).2).bind fun r =>
        r.1.yieldIf (m.globals.yieldFromIsr || r.2) := by
  have hdispatch : ∀ words, mosTrapDispatch e.outside 0x80000014 words m.globals =
      (m.globals.interrupt e.outside 0x80000014).map fun r => ⟨r.1, words 0, r.2⟩ := fun _ => rfl
  rw [h.map_kernel, hdispatch, Globals.interrupt, Option.map_map, Option.bind_map]
  dsimp only
  rw [if_pos (by decide), Globals.systickBranch, Option.bind_map]
  refine Option.bind_congr fun r _ => ?_
  simp only [Function.comp_apply]
  cases hflag : m.globals.yieldFromIsr <;> cases r.2 <;> rfl

/-! ### Creations and the launch -/

theorem map_kernel_create (m : Machine) (priority : ℕ) (name : String) :
    (m.addTask priority name L.stack (initStackFrame L m.ram)).map kernel =
      ((TaskCall.create priority name).enter m.kernel).map Prod.fst := by
  rw [addTask, TaskCall.enter]
  cases m.kernel.allocTid with
  | none => rfl
  | some p =>
      dsimp only
      rw [initStackFrame, initStackFrameRaw, if_pos (by decide)]
      rfl

theorem map_kernel_createRaw (m : Machine) (priority stackSize : ℕ) (name : String)
    (base entryAddr param : BitVec 32) :
    (m.addTask priority name (fun _ => rawStack stackSize base) fun _ =>
        initStackFrameRaw m.ram base (stackSize / 4) entryAddr param L.taskExitStub).map kernel =
      ((TaskCall.createRaw priority name stackSize).enter m.kernel).map Prod.fst := by
  rw [addTask, TaskCall.enter]
  cases m.kernel.allocTid with
  | none => rfl
  | some p =>
      dsimp only
      rw [initStackFrameRaw]
      split_ifs <;> rfl

/-- The launch does to the kernel what `Kernel.launch` does, and fails where it does. -/
theorem Sound.map_kernel_launch (hp : L.Proper) (h : m.Sound L) (hready : m.kernel.schedReady = false) :
    (m.launch L e).map Machine.kernel = m.kernel.launch := by
  have hoff := h.currentTcbPtr_eq_none hready
  have hc := h.toPlaced.creationOk_create hp fun c hcur => by
    rw [hoff] at hcur
    cases hcur
  rw [Machine.launch, Kernel.launch, Kernel.create]
  cases ha : m.kernel.allocTid with
  | none => rfl
  | some p =>
      obtain ⟨u, k⟩ := p
      have hcreate := map_kernel_create (L := L) m priMin "idle"
      rw [TaskCall.enter, ha] at hcreate
      obtain ⟨m₁, hm₁, hk₁⟩ := Option.map_eq_some_iff.mp hcreate
      have hsound := h.creation hc hm₁
      replace hk₁ : m₁.kernel = k.addTask u priMin "idle" := hk₁
      have hready₁ : m₁.kernel.schedReady = false := by
        rw [hk₁, (allocTid_eq_some ha).2]
        exact hready
      rw [hm₁, Option.isNone_some, if_neg Bool.false_ne_true, Option.bind_some]
      dsimp only
      rw [← hk₁, hready₁]
      show _ = m₁.kernel.readyList.front.map _
      cases hfront : m₁.kernel.readyList.front with
      | none => rfl
      | some first =>
          obtain ⟨m₂, hm₂, -, hk₂, -⟩ := hsound.start (hsound.currentTcbPtr_eq_none hready₁) hfront e
          rw [Option.bind_some, hm₂, Option.map_some, hk₂]
          rfl

end Machine

/-! ### Every move -/

section

variable {L : Layout} {m₀ m m' : Machine} {tr : List (Machine × Move)}

/-- **The machine refines the kernel's model.**  In every state of every run a creation, the launch, an
`ecall` and a systick interrupt do to the statics of the kernel what the model of that operation does, and
come to an end exactly when the model does not panic. -/
theorem moves_refine_kernel (hp : L.Proper) (h₀ : m₀.Installed L)
    (hr : Run (Move.step L) (Move.Ok L) m₀ tr m) :
    (∀ priority name, ((Move.create priority name).step L m).map Machine.kernel =
      ((TaskCall.create priority name).enter m.kernel).map Prod.fst) ∧
    (∀ priority name stackSize base entryAddr param,
      ((Move.createRaw priority name stackSize base entryAddr param).step L m).map Machine.kernel =
        ((TaskCall.createRaw priority name stackSize).enter m.kernel).map Prod.fst) ∧
    (∀ e, (Move.launch e).Ok L m →
      ((Move.launch e).step L m).map Machine.kernel = m.kernel.launch) ∧
    (∀ slot e, (Move.trap slot 11 e).Ok L m →
      ((Move.trap slot 11 e).step L m).map Machine.kernel = m.kernel.yieldTask) ∧
    ∀ slot e, (Move.trap slot 0x80000014 e).Ok L m → m.mstatus.getLsbD 3 = true →
      ((Move.trap slot 0x80000014 e).step L m).map Machine.kernel =
        let missed := (m.globals.devices.systickIsr e.outside.now).2
        if m.globals.yieldFromIsr then (m.kernel.systickReplay missed).bind fun r => r.1.yieldTask
        else m.kernel.systickTrap missed := by
  have h := sound_of_run hp h₀ hr
  refine ⟨m.map_kernel_create, fun priority name stackSize => m.map_kernel_createRaw priority stackSize name,
    fun e hok => h.map_kernel_launch hp hok, fun slot e hok => ?_, fun slot e hok hmie => ?_⟩
  · obtain ⟨s, hready, -⟩ := h.trapReady hp hok
    rw [Move.step, if_neg (fun hc => Bool.false_ne_true hc.1), hready.runText slot, hready.ecall]
  · obtain ⟨s, hready, -⟩ := h.trapReady hp hok
    have hmie' : ¬ m.mstatus.getLsbD 3 = false := by
      rw [hmie]
      exact Bool.noConfusion
    rw [Move.step, if_neg (fun hc => hmie' hc.2), hready.runText slot, hready.systick]
    cases m.globals.yieldFromIsr <;> rfl

/-- A creation, the launch and a systick, and then all five kinds of moves. -/
theorem moves_refine_kernel_run : ∃ tr m, Run (Move.step .sample) (Move.Ok .sample) .sample tr m ∧
    (m.kernel.currentTcbPtr = some 0 ∧ m.kernel.osTicks ≠ 0) ∧
      ((Move.trap 0 11 .sample).step .sample m).map Machine.kernel = m.kernel.yieldTask ∧
      ((Move.create 2 "b").step .sample m).map Machine.kernel =
        ((TaskCall.create 2 "b").enter m.kernel).map Prod.fst := by
  have hexec : (exec (fun m a => Move.step .sample m (SampleMove.move a)) SampleMove.check .sample
      [.create 3 "a", .launch, .trap 20 0x80000014]).any (fun m =>
        SampleMove.check m (.trap 0 11) && (m.kernel.currentTcbPtr = some 0 && m.kernel.osTicks ≠ 0)) =
      true := by
    decide +kernel
  obtain ⟨tr, m, hr, hm⟩ := exists_run_of_exec (fun _ _ h => SampleMove.ok_of_check h) hexec
  simp only [Bool.and_eq_true, decide_eq_true_eq] at hm
  obtain ⟨hcreate, -, -, hecall, -⟩ :=
    moves_refine_kernel Layout.proper_sample Machine.installed_sample hr.map
  exact ⟨_, m, hr.map, hm.2, hecall 0 .sample (SampleMove.ok_of_check hm.1), hcreate 2 "b"⟩

/-! ### The status bits -/

/-- **A trap unmasks interrupts.**  Whatever the state of the bit `MIE` before a trap, the code that runs
after it has interrupts on and runs in machine mode: a `yield_task` in a critical section comes back with
interrupts on.  A trap that `main` takes before the launch leaves no other trace on its registers. -/
theorem traps_unmask {slot : Fin 32} {cause : BitVec 32} {e : Surroundings} (hp : L.Proper)
    (h₀ : m₀.Installed L) (hr : Run (Move.step L) (Move.Ok L) m₀ tr m) (hok : (Move.trap slot cause e).Ok L m)
    (hs : (Move.trap slot cause e).step L m = some m') :
    m'.mstatus.getLsbD 3 = true ∧ m'.mode = 3 ∧ (m.kernel.currentTcbPtr = none →
      (⟨m'.reg, m'.pc⟩ : Context) = ⟨m.reg, resumePc cause m.pc (m.reg .ra)⟩) := by
  have h := sound_of_run hp h₀ hr
  have hsound := (Move.step_sound hp h hok hs).1
  obtain ⟨s, hready, -⟩ := h.trapReady hp hok
  rw [Move.step] at hs
  split_ifs at hs
  rw [hready.runText slot] at hs
  obtain ⟨-, -, hmie, hmain, -⟩ := hready.trap hs
  exact ⟨hmie, hsound.mode, hmain⟩

/-- Code that only masks interrupts, as `csrci mstatus, 8` does. -/
def Machine.masked (m : Machine) : Machine :=
  { m with mstatus := m.mstatus &&& 0xFFFFFFF7 }

/-- Two tasks and the launch.  The first task masks interrupts and calls `yield_task`; when the second one
runs, they are on. -/
theorem traps_unmask_run : ∃ tr m m', Run (Move.step .sample) (Move.Ok .sample) .sample tr m ∧
    (m.kernel.currentTcbPtr = some 0 ∧ m.mstatus.getLsbD 3 = false) ∧
    (Move.trap 0 11 .sample).step .sample m = some m' ∧
    m'.kernel.currentTcbPtr = some 1 ∧ m'.mstatus.getLsbD 3 = true := by
  have hexec : (exec (fun m a => Move.step .sample m (SampleMove.move a)) SampleMove.check .sample
      [.create 3 "a", .create 3 "b", .launch, .trap 20 0x80000014]).any (fun m =>
        SampleMove.check m.masked (.trap 0 11) &&
          ((m.masked.kernel.currentTcbPtr = some 0 && m.masked.mstatus.getLsbD 3 = false) &&
            ((Move.trap 0 11 .sample).step .sample m.masked).any fun m' =>
              m'.kernel.currentTcbPtr = some 1)) = true := by
    decide +kernel
  obtain ⟨tr, m, hr, hm⟩ := exists_run_of_exec (fun _ _ h => SampleMove.ok_of_check h) hexec
  obtain ⟨hcheck, hm⟩ := Bool.and_eq_true_iff.mp hm
  obtain ⟨hmasked, hm⟩ := Bool.and_eq_true_iff.mp hm
  simp only [Bool.and_eq_true, decide_eq_true_eq] at hmasked
  obtain ⟨m', hm', hcur⟩ := (Option.any_eq_true _ _).mp hm
  have hrun := hr.map
  have hsound := sound_of_run Layout.proper_sample Machine.installed_sample hrun
  -- the code leaves memory and statics alone
  have hcode : (Move.code m.reg m.pc m.masked.mstatus m.ram m.globals).Ok .sample m :=
    ⟨⟨hsound.kernel, rfl, rfl⟩, fun _ _ _ _ _ => rfl⟩
  have hrun' := hrun.next hcode (show _ = some m.masked from rfl)
  have hok := SampleMove.ok_of_check hcheck
  obtain ⟨hmie, -, -⟩ := traps_unmask Layout.proper_sample Machine.installed_sample hrun' hok hm'
  exact ⟨_, m.masked, m', hrun', hmasked, hm', of_decide_eq_true hcur, hmie⟩

/-! ### The launch window -/

/-- `main` after `SCHED_READY = true` and before `start_first_task` has loaded `sp`. -/
def Machine.inLaunch (m : Machine) (L : Layout) (first : Tid) (reg : Reg → BitVec 32)
    (pc mstatus : BitVec 32) : Machine :=
  { m.startTask L first with reg, pc, mstatus }

/-- **An interrupt in the launch.**  `Scheduler::launch` sets `SCHED_READY` and then runs
`start_first_task` with interrupts on.  An interrupt in between saves the frame of `main` as that of the
first task, whose own is lost: from then on the context of the first task is that of `main` in the launch,
and `start_first_task`, unless another task has been switched to, comes back to where it was interrupted. -/
theorem launch_window {first : Tid} {slot : Fin 32} {reg : Reg → BitVec 32} {pc mstatus cause : BitVec 32}
    {e : Surroundings} (hp : L.Proper) (h₀ : m₀.Installed L) (hr : Run (Move.step L) (Move.Ok L) m₀ tr m)
    (hready : m.kernel.schedReady = false) (hfirst : m.kernel.readyList.front = some first)
    (hint : cause.msb = true) (hroom : HasRoom L.mainStack (reg .sp) frameSize)
    (hdepth : ∀ f, e.depth f ≤ isrStackSize) (hout : e.outside.Orderly m.Created)
    (hs : Machine.runText L e (mosTrapHandler.drop slot)
      ((m.inLaunch L first reg pc mstatus).trap cause) = some m') :
    m'.sp first = reg .sp - 128 ∧ m'.contextOf first = ⟨reg, pc⟩ ∧
      (m'.kernel.currentTcbPtr = some first → ∀ reg' pc', ∃ m₂,
        Machine.runText L e startFirstTask { m' with reg := reg', pc := pc' } = some m₂ ∧
          (⟨m₂.reg, m₂.pc⟩ : Context) = ⟨reg, pc⟩) := by
  have h := sound_of_run hp h₀ hr
  obtain ⟨hsound, hcur, hcreated, -, -, hstack⟩ := h.startTask (h.currentTcbPtr_eq_none hready) hfirst
  have heq : (m.startTask L first).Created = m.Created := by
    unfold Machine.Created
    rw [hstack]
  rw [← heq] at hout hcreated
  rw [Machine.inLaunch] at hs
  generalize m.startTask L first = w at hsound hcur hcreated hout hs
  have hw : Machine.Sound L { w with reg, pc, mstatus } :=
    ⟨⟨hsound.stack, hsound.disjoint, hsound.suspended⟩, hsound.kernel, hsound.phase, hsound.isrStackTop,
      hsound.mode⟩
  obtain ⟨hframe, haligned, -, -⟩ := (show HasRoom L.mainStack (reg .sp) (frameSize + 0) from hroom).frame
  -- the trap is taken on the stack of `main`
  have htrap : Machine.TrapReady L { w with reg, pc, mstatus } cause e L.mainStack := by
    refine ⟨hw, hout, hp.main, hframe, haligned, fun t s' _ hs' => (hw.stack t s' hs').main, fun f a ha => ?_⟩
    rw [hint, if_pos rfl, hw.isrStackTop] at ha
    have hisr := below_isrStackTop L (hdepth f) a ha
    exact ⟨fun hf => hp.main.isr a (hframe a hf) hisr,
      fun t s' _ hs' hin => (hw.stack t s' hs').isr a hin hisr⟩
  rw [htrap.runText slot] at hs
  obtain ⟨-, -, -, -, hsp, hctx⟩ := htrap.trap hs
  have hresume : resumePc cause pc (reg .ra) = pc := resumePc_interrupt hint
  have hcur' : ({ w with reg, pc, mstatus } : Machine).kernel.currentTcbPtr = some first := hcur
  obtain ⟨hframes, hsame⟩ := hctx first hcreated
  rw [if_pos hcur', hresume] at hframes
  have hspf := hsp first
  rw [if_pos hcur'] at hspf
  refine ⟨hspf, hsame.trans hframes, fun hrun reg' pc' => ?_⟩
  have hok : L.FrameOk (({ m' with reg := reg', pc := pc' } : Machine).sp first) := by
    show L.FrameOk (m'.sp first)
    rw [hspf]
    exact frameOk_of_within hp.main hframe haligned
  exact ⟨_, Machine.runText_startFirstTask hrun hok, (Machine.context_resumed _ _).trans hframes⟩

/-- A systick between `SCHED_READY = true` and `start_first_task`: the only task never starts. -/
theorem launch_window_run : ∃ tr m m',
    Run (Move.step .sample) (Move.Ok .sample) .sample tr m ∧
    Machine.runText .sample .sample (mosTrapHandler.drop (20 : Fin 32))
      ((m.inLaunch .sample 0 Machine.sample.reg 0x42001234 0x1888).trap 0x80000014) = some m' ∧
    m'.kernel.currentTcbPtr = some 0 ∧ m'.contextOf 0 = ⟨Machine.sample.reg, 0x42001234⟩ := by
  have hexec : (exec (fun m a => Move.step .sample m (SampleMove.move a)) SampleMove.check .sample
      [.create 127 "idle"]).any (fun m => (!m.kernel.schedReady && m.kernel.readyList.front = some 0) &&
        (Machine.runText .sample .sample (mosTrapHandler.drop (20 : Fin 32))
          ((m.inLaunch .sample 0 Machine.sample.reg 0x42001234 0x1888).trap 0x80000014)).any fun m' =>
            m'.kernel.currentTcbPtr = some 0) = true := by
    decide +kernel
  obtain ⟨tr, m, hr, hm⟩ := exists_run_of_exec (fun _ _ h => SampleMove.ok_of_check h) hexec
  obtain ⟨hlaunch, hm⟩ := Bool.and_eq_true_iff.mp hm
  obtain ⟨hready, hfirst⟩ := Bool.and_eq_true_iff.mp hlaunch
  obtain ⟨m', hm', hcur⟩ := (Option.any_eq_true _ _).mp hm
  obtain ⟨-, hctx, -⟩ := launch_window Layout.proper_sample Machine.installed_sample hr.map
    ((Bool.not_eq_true' _).mp hready) (of_decide_eq_true hfirst) rfl (by decide)
    (fun f => show 64 ≤ 8192 by decide) (fun code g hg => ⟨hg, rfl, rfl⟩) hm'
  exact ⟨_, m, m', hr.map, hm', of_decide_eq_true hcur, hctx⟩

end

end MosKernel
