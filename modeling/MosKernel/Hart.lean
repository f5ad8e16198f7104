import MosKernel.Lib.ForwardCode
import MosKernel.Lib.SaveArea
import MosKernel.TrapDispatch

/-!
# The processor and the trap handler

The assembly of `core/src/arch/riscv.rs` as text: the vector table and trap handler `_mos_trap_handler`
and `start_first_task`, over the part of an RV32 processor that they use.  `init_stack_frame` of
`core/src/kernel/tcb.rs` lays out the frame that they load.

Memory is a memory of aligned words; the statics that the text names lie at addresses that the linker has
chosen (`Layout`), where a load or a store works on the value of the static.  The two functions that the text
calls come back as the calling convention has it: with anything in the caller-saved registers and in the
stack below `sp`.
-/

namespace MosKernel

open ForwardCode SaveArea

/-! ### Registers -/

/-- `x1` to `x31` under their names of the calling convention; `x0` is never named. -/
inductive Reg where
  | ra | sp | gp | tp | t0 | t1 | t2 | s0 | s1
  | a0 | a1 | a2 | a3 | a4 | a5 | a6 | a7
  | s2 | s3 | s4 | s5 | s6 | s7 | s8 | s9 | s10 | s11
  | t3 | t4 | t5 | t6
  deriving DecidableEq

/-- The registers that a function need not preserve. -/
def Reg.callerSaved : Reg → Bool
  | .ra | .t0 | .t1 | .t2 | .t3 | .t4 | .t5 | .t6 => true
  | .a0 | .a1 | .a2 | .a3 | .a4 | .a5 | .a6 | .a7 => true
  | _ => false

inductive Csr where
  | mepc
  | mcause
  | mstatus
  deriving DecidableEq

/-! ### Memory -/

/-- The statics that the text names. -/
inductive Symbol where
  | schedReady
  | currentTcbPtr
  | isrStackTop
  deriving DecidableEq

/-- `size_of::<IsrStack>()` -/
abbrev isrStackSize : ℕ := 8192

/-- `PAGE_SIZE` -/
abbrev pageSize : ℕ := 1024

/-- `FRAME_SIZE` -/
abbrev frameSize : ℕ := 128

/-- Where the linker has put the statics, two functions and the stack that `main` starts on.  `sp` is the
first field of a `Tcb`. -/
structure Layout where
  symbol : Symbol → BitVec 32
  tcb : Tid → BitVec 32
  isrStack : BitVec 32
  taskStacks : BitVec 32
  mainStack : Region 32
  closureTrampoline : BitVec 32
  taskExitStub : BitVec 32
  symbol_injective : Function.Injective symbol
  tcb_injective : Function.Injective tcb
  tcb_ne_symbol : ∀ t s, tcb t ≠ symbol s

/-- What lies at an address. -/
inductive Loc where
  | symbol (s : Symbol)
  | sp (t : Tid)
  | ram
  deriving DecidableEq

namespace Layout

def loc (L : Layout) (a : BitVec 32) : Loc :=
  match [Symbol.schedReady, .currentTcbPtr, .isrStackTop].find? fun s => L.symbol s = a with
  | some s => .symbol s
  | none =>
    match (List.finRange taskMax).find? fun t => L.tcb t = a with
    | some t => .sp t
    | none => .ram

/-- An aligned address of plain memory. -/
def IsRam (L : Layout) (a : BitVec 32) : Prop := L.loc a = .ram ∧ a &&& 3 = 0

instance (L : Layout) (a : BitVec 32) : Decidable (L.IsRam a) := instDecidableAnd

/-- `STACKS[t]` -/
def stack (L : Layout) (t : Tid) : Region 32 := ⟨L.taskStacks + BitVec.ofNat 32 (pageSize * t.val), pageSize⟩

/-- `ISR_STACK` -/
def isrRegion (L : Layout) : Region 32 := ⟨L.isrStack, isrStackSize⟩

end Layout

/-! ### The machine -/

structure Machine where
  reg : Reg → BitVec 32
  pc : BitVec 32
  mepc : BitVec 32
  mcause : BitVec 32
  mstatus : BitVec 32
  /-- the privilege mode; 3 is machine mode -/
  mode : BitVec 2
  ram : BitVec 32 → BitVec 32
  /-- `TCBS[t].sp` -/
  sp : Tid → BitVec 32
  /-- the slice that `TCBS[t].sp` was initialised in, of a task that has been created -/
  stack : Tid → Option (Region 32)
  isrStackTop : BitVec 32
  globals : Globals

/-- The functions that the text calls. -/
inductive Callee where
  | mosTrapDispatch
  | nextTcb
  deriving DecidableEq

/-- What a trap meets: the world outside, and what the calls leave in the registers and in the `depth`
bytes of stack that they use. -/
structure Surroundings where
  outside : Outside
  clobbered : Callee → Reg → BitVec 32
  depth : Callee → ℕ
  spilled : Callee → BitVec 32 → BitVec 32

/-- The `n` bytes below `a`. -/
def below (a : BitVec 32) (n : ℕ) : Region 32 := ⟨a - BitVec.ofNat 32 n, n⟩

namespace Machine

variable (L : Layout)

/-- The kernel's statics. -/
abbrev kernel (m : Machine) : Kernel := m.globals.kernel

def setReg (m : Machine) (r : Reg) (v : BitVec 32) : Machine :=
  { m with reg := Function.update m.reg r v }

def csr (m : Machine) : Csr → BitVec 32
  | .mepc => m.mepc
  | .mcause => m.mcause
  | .mstatus => m.mstatus

def setCsr (m : Machine) (c : Csr) (v : BitVec 32) : Machine :=
  match c with
  | .mepc => { m with mepc := v }
  | .mcause => { m with mcause := v }
  | .mstatus => { m with mstatus := v }

/-- The value of the static, as a word. -/
def symbolWord (m : Machine) : Symbol → BitVec 32
  | .schedReady => if m.kernel.schedReady then 1 else 0
  | .currentTcbPtr =>
    match m.kernel.currentTcbPtr with
    | some t => L.tcb t
    | none => 0
  | .isrStackTop => m.isrStackTop

/-- `lw`; a misaligned address faults. -/
def loadWord (m : Machine) (a : BitVec 32) : Option (BitVec 32) :=
  match L.loc a with
  | .symbol s => some (m.symbolWord L s)
  | .sp t => some (m.sp t)
  | .ram => if a &&& 3 = 0 then some (m.ram a) else none

/-- `lbu`, of a `bool` only. -/
def loadByte (m : Machine) (a : BitVec 32) : Option (BitVec 32) :=
  if L.loc a = .symbol .schedReady then some (m.symbolWord L .schedReady) else none

/-- `sw`, to the stack and to the field `sp` only. -/
def storeWord (m : Machine) (a v : BitVec 32) : Option Machine :=
  match L.loc a with
  | .symbol _ => none
  | .sp t => some { m with sp := Function.update m.sp t v }
  | .ram => if a &&& 3 = 0 then some { m with ram := Function.update m.ram a v } else none

/-- A function has returned: it may have written the caller-saved registers and the stack below `sp`. -/
def returned (m : Machine) (env : Surroundings) (f : Callee) : Machine :=
  { m with
    reg := fun r => if r.callerSaved then env.clobbered f r else m.reg r
    ram := fun a => if (below (m.reg .sp) (env.depth f)).Holds a then env.spilled f a else m.ram a }

/-- `call _mos_trap_dispatch` with `a0 = mcause` and `a1` pointing to the frame, and `call next_tcb`. -/
def call (m : Machine) (env : Surroundings) : Callee → Option Machine
  | .mosTrapDispatch =>
    let frame := m.reg .a1
    let words := fun i => m.ram (frame + BitVec.ofNat 32 (4 * i))
    (mosTrapDispatch env.outside (m.reg .a0) words m.globals).map fun r =>
      let m := m.returned env .mosTrapDispatch
      { m with ram := Function.update m.ram frame r.mepc, globals := r.globals }.setReg .a0 r.ret
  | .nextTcb =>
    m.kernel.nextTcb.map fun k =>
      let m := m.returned env .nextTcb
      { m with globals := { m.globals with kernel := k } }

/-- The bits of `mstatus`: `MIE` is bit 3, `MPIE` bit 7 and `MPP` bits 11 and 12. -/
def mstatusOf (mstatus : BitVec 32) (mie mpie : Bool) (mpp : BitVec 2) : BitVec 32 :=
  (mstatus &&& ~~~0x1888#32) ||| (if mie then 0x8 else 0) ||| (if mpie then 0x80 else 0) |||
    (mpp.setWidth 32 <<< 11)

/-- What the hardware does when a trap is taken; the handler's text runs next. -/
def trap (m : Machine) (cause : BitVec 32) : Machine :=
  { m with
    mepc := m.pc
    mcause := cause
    mstatus := mstatusOf m.mstatus false (m.mstatus.getLsbD 3) m.mode
    mode := 3 }

/-- `mret` -/
def mret (m : Machine) : Machine :=
  { m with
    pc := m.mepc
    mstatus := mstatusOf m.mstatus (m.mstatus.getLsbD 7) true 0
    mode := m.mstatus.extractLsb' 11 2 }

end Machine

/-! ### Instructions -/

inductive Op where
  | addi (rd rs : Reg) (imm : BitVec 32)
  | andi (rd rs : Reg) (imm : BitVec 32)
  | ori (rd rs : Reg) (imm : BitVec 32)
  | mv (rd rs : Reg)
  | la (rd : Reg) (s : Symbol)
  | lw (rd : Reg) (off : BitVec 32) (base : Reg)
  | lbu (rd : Reg) (off : BitVec 32) (base : Reg)
  | sw (rs : Reg) (off : BitVec 32) (base : Reg)
  | csrr (rd : Reg) (c : Csr)
  | csrw (c : Csr) (rs : Reg)
  | call (f : Callee)
  | mret

/-- The conditions of `j`, `beqz` and `bgez`. -/
inductive Cond where
  | always
  | eqz (r : Reg)
  | gez (r : Reg)

def Op.exec (L : Layout) (env : Surroundings) : Op → Machine → Option Machine
  | .addi rd rs imm, m => some (m.setReg rd (m.reg rs + imm))
  | .andi rd rs imm, m => some (m.setReg rd (m.reg rs &&& imm))
  | .ori rd rs imm, m => some (m.setReg rd (m.reg rs ||| imm))
  | .mv rd rs, m => some (m.setReg rd (m.reg rs))
  | .la rd s, m => some (m.setReg rd (L.symbol s))
  | .lw rd off base, m => (m.loadWord L (m.reg base + off)).map (m.setReg rd)
  | .lbu rd off base, m => (m.loadByte L (m.reg base + off)).map (m.setReg rd)
  | .sw rs off base, m => m.storeWord L (m.reg base + off) (m.reg rs)
  | .csrr rd c, m => some (m.setReg rd (m.csr c))
  | .csrw c rs, m => some (m.setCsr c (m.reg rs))
  | .call f, m => m.call env f
  | .mret, m => some m.mret

def Cond.test : Cond → Machine → Bool
  | .always, _ => true
  | .eqz r, m => m.reg r = 0
  | .gez r, m => !(m.reg r).msb

/-! ### The text -/

/-- The registers of the context frame with their offsets; `mepc` is at 0 and `mstatus` at 124. -/
def savedRegs : List (Reg × BitVec 32) :=
  [(.ra, 4), (.gp, 8), (.tp, 12), (.t0, 16), (.t1, 20), (.t2, 24), (.s0, 28), (.s1, 32),
    (.a0, 36), (.a1, 40), (.a2, 44), (.a3, 48), (.a4, 52), (.a5, 56), (.a6, 60), (.a7, 64),
    (.s2, 68), (.s3, 72), (.s4, 76), (.s5, 80), (.s6, 84), (.s7, 88), (.s8, 92), (.s9, 96),
    (.s10, 100), (.s11, 104), (.t3, 108), (.t4, 112), (.t5, 116), (.t6, 120)]

/-- `sw x1, 4(sp)` to `sw x31, 120(sp)` -/
def storeContext : List Op := savedRegs.map fun p => .sw p.1 p.2 .sp

/-- `lw x1, 4(sp)` to `lw x31, 120(sp)` -/
def loadContext : List Op := savedRegs.map fun p => .lw p.1 p.2 .sp

/-- From the label `2` of the handler, and the end of `start_first_task`. -/
def restoreContext : List Op :=
  [.lw .t0 124 .sp, .ori .t0 .t0 0x80, .andi .t0 .t0 (-9), .csrw .mstatus .t0,
    .lw .t0 0 .sp, .csrw .mepc .t0] ++ loadContext ++ [.addi .sp .sp 128]

/-- The instructions of a block without labels and branches. -/
def ops (block : List Op) : List (Line Op Cond) := block.map .op

/-- The ends of the frame, and the test of `SCHED_READY`. -/
def storeCsrs : List Op :=
  [.csrr .t0 .mepc, .sw .t0 0 .sp, .csrr .t0 .mstatus, .sw .t0 124 .sp,
    .la .t0 .schedReady, .lbu .t0 0 .t0]

/-- From the label `3`. -/
def saveContext : List Op := .addi .sp .sp (-128) :: (storeContext ++ storeCsrs)

/-- From the label `2`: back to the task whose frame `sp` points to. -/
def handlerResume : List (Line Op Cond) := ops restoreContext ++ [.leave .mret]

/-- The switch to another task, and from the label `8` the way back without one. -/
def handlerSwitch : List (Line Op Cond) :=
  ops [.call .nextTcb, .la .t0 .currentTcbPtr, .lw .t1 0 .t0, .lw .sp 0 .t1] ++
    .branch .always 2 :: .label 8 :: (ops [.mv .sp .s0] ++ .label 2 :: handlerResume)

/-- From the label `6`: the dispatch and what it asks for. -/
def handlerDispatch : List (Line Op Cond) :=
  ops [.mv .a1 .s0, .call .mosTrapDispatch, .la .t0 .schedReady, .lbu .t0 0 .t0] ++
    .branch (.eqz .t0) 8 :: .branch (.eqz .a0) 8 :: handlerSwitch

/-- From the label `1`: an interrupt goes on with its own stack. -/
def handlerStack : List (Line Op Cond) :=
  ops [.mv .s0 .sp, .csrr .a0 .mcause] ++ .branch (.gez .a0) 6 ::
    (ops [.la .t0 .isrStackTop, .lw .sp 0 .t0] ++ .label 6 :: handlerDispatch)

/-- From the label `3`: the frame, and `sp` to the control block. -/
def handlerSave : List (Line Op Cond) :=
  ops saveContext ++ .branch (.eqz .t0) 1 ::
    (ops [.la .t0 .currentTcbPtr, .lw .t1 0 .t0, .sw .sp 0 .t1] ++ .label 1 :: handlerStack)

/-- `_mos_trap_handler`: the vector table, each slot of which is `j 3f`, and the handler. -/
def mosTrapHandler : List (Line Op Cond) :=
  List.replicate 32 (.branch .always 3) ++ .label 3 :: handlerSave

/-- `start_first_task` -/
def startFirstTask : List (Line Op Cond) :=
  ops ([.la .t0 .currentTcbPtr, .lw .t1 0 .t0, .lw .sp 0 .t1] ++ restoreContext) ++ [.leave .mret]

/-! ### The first frame of a task -/

/-- `init_stack_frame_raw` on the slice of `len` words at `base`: the memory and `sp`.  Its assertion fails
when the slice cannot hold a frame. -/
def initStackFrameRaw (ram : BitVec 32 → BitVec 32) (base : BitVec 32) (len : ℕ)
    (entryAddr argv exitAddr : BitVec 32) : Option ((BitVec 32 → BitVec 32) × BitVec 32) :=
  if len > contextWords then
    let frameBase := base + BitVec.ofNat 32 (4 * (len - contextWords))
    let word := fun i => frameBase + BitVec.ofNat 32 (4 * i)
    let ram := write ram ((List.range contextWords).map fun i => (word i, 0))
    some (write ram [(word 0, entryAddr), (word 1, exitAddr), (word 9, argv), (word 31, 0x00001888)],
      frameBase)
  else none

/-- `init_stack_frame` on `STACKS[t]`, as `Task::create` calls it. -/
def initStackFrame (L : Layout) (ram : BitVec 32 → BitVec 32) (t : Tid) :
    Option ((BitVec 32 → BitVec 32) × BitVec 32) :=
  initStackFrameRaw ram (L.stack t).base (pageSize / 4) L.closureTrampoline 0 L.taskExitStub

end MosKernel
