import MosKernel.ContextSwitch
import MosKernel.Erasure

/-!
# Every task has the processor to itself

A run of the whole machine: code of the running task, creations of tasks, and traps, which run the text of
`_mos_trap_handler`.  What a task sees of the processor is its `contextOf`: the registers while it runs,
and the frame on its own stack while it does not.  `contexts_are_private` says that in every run the context
of every task changes by that task's own moves only, as if there were a processor for each task.

The invariant is `Machine.Running`: the stacks lie apart, and every task that is off the processor has its
frame in its stack.
-/

namespace MosKernel

open ForwardCode SaveArea Transition Kernel

/-! ### Words and regions -/

theorem and_three_eq_zero_iff (a : BitVec 32) : a &&& 3 = 0 ↔ a.toNat % 4 = 0 := by
  rw [← BitVec.toNat_inj, BitVec.toNat_and]
  show a.toNat &&& 2 ^ 2 - 1 = 0 ↔ _
  rw [Nat.and_two_pow_sub_one_eq_mod]

theorem aligned_add {a b : BitVec 32} (ha : a &&& 3 = 0) (hb : b &&& 3 = 0) : (a + b) &&& 3 = 0 := by
  rw [and_three_eq_zero_iff] at ha hb ⊢
  rw [BitVec.toNat_add]
  omega

theorem aligned_ofNat {i : ℕ} : BitVec.ofNat 32 (4 * i) &&& 3 = 0 := by
  rw [and_three_eq_zero_iff, BitVec.toNat_ofNat]
  omega

/-- `n` bytes below an address that is at least `n` bytes inside a region. -/
theorem below_within {x : Region 32} {a : BitVec 32} {n : ℕ} (hn : n ≤ (a - x.base).toNat)
    (ha : (a - x.base).toNat ≤ x.len) : (below a n).Within x := by
  refine Region.within_of_le ?_
  have hsplit : a - BitVec.ofNat 32 n - x.base = (a - x.base) - BitVec.ofNat 32 n := by
    rw [BitVec.sub_sub, BitVec.add_comm, ← BitVec.sub_sub]
  have hlt := (a - x.base).isLt
  show (a - BitVec.ofNat 32 n - x.base).toNat + n ≤ x.len
  rw [hsplit, BitVec.toNat_sub, BitVec.toNat_ofNat]
  omega

/-- A region and the bytes below it. -/
theorem disjoint_below {f : BitVec 32} {n d : ℕ} (h : n + d ≤ 2 ^ 32) :
    (⟨f, n⟩ : Region 32).Disjoint (below f d) := by
  intro b hb hb'
  have hsplit : b - (f - BitVec.ofNat 32 d) = (b - f) + BitVec.ofNat 32 d := by
    rw [sub_sub_eq_add_sub, sub_add_eq_add_sub]
  replace hb : (b - f).toNat < n := hb
  replace hb' : (b - (f - BitVec.ofNat 32 d)).toNat < d := hb'
  rw [hsplit, BitVec.toNat_add, BitVec.toNat_ofNat] at hb'
  omega

/-! ### Stacks -/

/-- Plain memory apart from the stack of the interrupts. -/
structure Layout.Plain (L : Layout) (s : Region 32) : Prop where
  isRam : ∀ a, s.Holds a → L.loc a = .ram
  isr : s.Disjoint L.isrRegion

/-- A stack for `t`: apart from the stack of `main` and from the slots of other tasks, too. -/
structure Layout.StackOk (L : Layout) (t : Tid) (s : Region 32) : Prop extends L.Plain s where
  main : s.Disjoint L.mainStack
  slot : ∀ u, u ≠ t → s.Disjoint (L.stack u)

/-- `STACKS` is aligned, and the stacks lie apart. -/
structure Layout.Proper (L : Layout) : Prop where
  aligned : L.taskStacks &&& 3 = 0
  slot : ∀ t, L.Plain (L.stack t)
  slot_main : ∀ t, (L.stack t).Disjoint L.mainStack
  main : L.Plain L.mainStack

theorem Layout.disjoint_stack (L : Layout) {t u : Tid} (h : u ≠ t) :
    (L.stack t).Disjoint (L.stack u) := by
  intro b ht hu
  have hne : t.val ≠ u.val := fun he => h (Fin.ext he.symm)
  have hlt := t.isLt
  have hlu := u.isLt
  have hsplit : ∀ v : Tid, b - (L.stack v).base = (b - L.taskStacks) - BitVec.ofNat 32 (1024 * v.val) := by
    intro v
    show b - (L.taskStacks + BitVec.ofNat 32 (1024 * v.val)) = _
    rw [BitVec.sub_sub]
  replace ht : (b - (L.stack t).base).toNat < 1024 := ht
  replace hu : (b - (L.stack u).base).toNat < 1024 := hu
  have hb := (b - L.taskStacks).isLt
  rw [hsplit, BitVec.toNat_sub, BitVec.toNat_ofNat] at ht hu
  show False
  have h16 : t.val < 16 := hlt
  have h16' : u.val < 16 := hlu
  omega

theorem Layout.Proper.stackOk {L : Layout} (h : L.Proper) (t : Tid) : L.StackOk t (L.stack t) :=
  ⟨h.slot t, h.slot_main t, fun _ hu => L.disjoint_stack hu⟩

/-- The frame at `f` in the stack `s`, which `mret` returns from to machine mode. -/
structure Suspended (ram : BitVec 32 → BitVec 32) (s : Region 32) (f : BitVec 32) : Prop where
  within : (frameRegion f).Within s
  aligned : f &&& 3 = 0
  mpp : mppOf (ram (f + 124#32)) = 3

theorem Suspended.congr {ram ram' : BitVec 32 → BitVec 32} {s : Region 32} {f : BitVec 32}
    (h : Suspended ram s f) (hram : ∀ a, (frameRegion f).Holds a → ram' a = ram a) :
    Suspended ram' s f := by
  refine ⟨h.within, h.aligned, ?_⟩
  rw [hram _ (add_holds_frame f (n := 124) (by decide))]
  exact h.mpp

theorem frameOk_of_within {L : Layout} {s : Region 32} {f : BitVec 32} (hs : L.Plain s)
    (hf : (frameRegion f).Within s) (ha : f &&& 3 = 0) : L.FrameOk f := by
  intro i hi
  have hlt : i < 32 := hi
  exact ⟨hs.isRam _ (hf _ (add_holds_frame f (show 4 * i < 128 by omega))), aligned_add ha aligned_ofNat⟩

/-- The stack pointer is aligned and has `n` bytes of the stack below it. -/
structure HasRoom (s : Region 32) (sp : BitVec 32) (n : ℕ) : Prop where
  aligned : sp &&& 3 = 0
  room : n ≤ (sp - s.base).toNat
  inside : (sp - s.base).toNat ≤ s.len

theorem HasRoom.frame {s : Region 32} {sp : BitVec 32} {d : ℕ} (h : HasRoom s sp (frameSize + d)) :
    (frameRegion (sp - 128)).Within s ∧ (sp - 128) &&& 3 = 0 ∧ (below (sp - 128) d).Within s ∧
      (frameRegion (sp - 128)).Disjoint (below (sp - 128) d) := by
  have hroom : 128 + d ≤ (sp - s.base).toNat := h.room
  have hlt := (sp - s.base).isLt
  have hframe : (sp - 128 - s.base).toNat = (sp - s.base).toNat - 128 := by
    have hsplit : sp - 128#32 - s.base = (sp - s.base) - 128#32 := by
      rw [BitVec.sub_sub, BitVec.add_comm, ← BitVec.sub_sub]
    show (sp - 128#32 - s.base).toNat = _
    rw [hsplit, BitVec.toNat_sub]
    show (2 ^ 32 - 128 + (sp - s.base).toNat) % 2 ^ 32 = _
    omega
  have hwithin := h.inside
  refine ⟨below_within (a := sp) (n := 128) (by omega) hwithin, ?_, below_within ?_ ?_, disjoint_below ?_⟩
  · have ha := h.aligned
    rw [and_three_eq_zero_iff] at ha ⊢
    rw [BitVec.toNat_sub]
    show (2 ^ 32 - 128 + sp.toNat) % 2 ^ 32 % 4 = 0
    omega
  · rw [hframe]
    omega
  · rw [hframe]
    omega
  · show 128 + d ≤ 2 ^ 32
    omega

/-- The bytes below the top of the stack of the interrupts. -/
theorem below_isrStackTop (L : Layout) {d : ℕ} (hd : d ≤ isrStackSize) :
    (below (L.isrStack + 8192#32) d).Within L.isrRegion := by
  have htop : (L.isrStack + 8192#32 - L.isrRegion.base).toNat = 8192 := by
    have hsub : L.isrStack + 8192#32 - L.isrStack = 8192#32 := by
      rw [BitVec.add_comm, BitVec.add_sub_cancel]
    show (L.isrStack + 8192#32 - L.isrStack).toNat = 8192
    rw [hsub]
    rfl
  have hd' : d ≤ 8192 := hd
  refine below_within ?_ ?_
  · rw [htop]
    exact hd'
  · rw [htop]
    exact le_refl 8192

/-! ### The first frame -/

/-- The context in which a task starts, with the stack pointer `top`. -/
def firstContext (entryAddr argv exitAddr top : BitVec 32) : Context where
  reg := Function.update (Function.update (Function.update (fun _ => 0) .ra exitAddr) .a0 argv) .sp top
  pc := entryAddr

/-- Two words of one frame. -/
theorem word_inj {f : BitVec 32} {i j : ℕ} (hi : i < contextWords) (hj : j < contextWords) :
    f + BitVec.ofNat 32 (4 * i) = f + BitVec.ofNat 32 (4 * j) ↔ i = j := by
  constructor
  · intro h
    rw [BitVec.add_right_inj] at h
    have hnat := congrArg BitVec.toNat h
    rw [BitVec.toNat_ofNat, BitVec.toNat_ofNat] at hnat
    have hi' : i < 32 := hi
    have hj' : j < 32 := hj
    omega
  · intro h
    rw [h]

/-- Where the registers of the first frame lie. -/
theorem savedRegs_word : ∀ p ∈ savedRegs, ∃ i < contextWords, p.2 = BitVec.ofNat 32 (4 * i) ∧
    i ≠ 0 ∧ i ≠ 31 ∧ (i = 1 ↔ p.1 = .ra) ∧ (i = 9 ↔ p.1 = .a0) := by
  decide

/-- The memory with the first frame of a task at `f`. -/
def firstFrame (ram : BitVec 32 → BitVec 32) (f entryAddr argv exitAddr : BitVec 32) :
    BitVec 32 → BitVec 32 :=
  let word := fun i => f + BitVec.ofNat 32 (4 * i)
  write (write ram ((List.range contextWords).map fun i => (word i, 0)))
    [(word 0, entryAddr), (word 1, exitAddr), (word 9, argv), (word 31, 0x00001888)]

section

variable {ram ram' : BitVec 32 → BitVec 32} {base f a entryAddr argv exitAddr : BitVec 32} {len : ℕ}

theorem firstFrame_word {i : ℕ} (hi : i < contextWords) :
    firstFrame ram f entryAddr argv exitAddr (f + BitVec.ofNat 32 (4 * i)) =
      if i = 31 then 0x1888 else if i = 9 then argv else if i = 1 then exitAddr
        else if i = 0 then entryAddr else 0 := by
  have hzero : write ram ((List.range contextWords).map fun i =>
      (f + BitVec.ofNat 32 (4 * i), 0)) (f + BitVec.ofNat 32 (4 * i)) = 0#32 := by
    refine write_of_mem ?_ (List.mem_map.mpr ⟨i, List.mem_range.mpr hi, rfl⟩)
    rw [List.map_map]
    refine List.nodup_range.map_on fun x hx y hy hxy => ?_
    exact (word_inj (List.mem_range.mp hx) (List.mem_range.mp hy)).mp hxy
  simp only [firstFrame, write_cons, write_nil, Function.update_apply,
    word_inj hi (show 31 < contextWords by decide), word_inj hi (show 9 < contextWords by decide),
    word_inj hi (show 1 < contextWords by decide), word_inj hi (show 0 < contextWords by decide)]
  rw [hzero]
  rfl

/-- Only the frame is written. -/
theorem firstFrame_of_not_holds (ha : ¬ (frameRegion f).Holds a) :
    firstFrame ram f entryAddr argv exitAddr a = ram a := by
  have hout : ∀ i < contextWords, a ≠ f + BitVec.ofNat 32 (4 * i) := by
    rintro i hi rfl
    have hlt : i < 32 := hi
    exact ha (add_holds_frame f (show 4 * i < 128 by omega))
  rw [firstFrame, write_of_not_mem, write_of_not_mem]
  · simp only [List.map_map, List.mem_map, List.mem_range, not_exists, not_and]
    intro i hi he
    exact hout i hi he.symm
  · simp only [List.map_cons, List.map_nil, List.mem_cons, List.not_mem_nil, or_false, not_or]
    exact ⟨hout 0 (by decide), hout 1 (by decide), hout 9 (by decide), hout 31 (by decide)⟩

theorem frameContext_firstFrame : frameContext (firstFrame ram f entryAddr argv exitAddr) f =
    firstContext entryAddr argv exitAddr (f + 128) := by
  have hreg : Function.update (restore (firstFrame ram f entryAddr argv exitAddr) (frameTable f) fun _ => 0)
      .sp (f + 128) = (firstContext entryAddr argv exitAddr (f + 128)).reg := by
    funext r
    rw [firstContext]
    dsimp only
    by_cases hr : r = .sp
    · rw [hr, Function.update_self, Function.update_self]
    · obtain ⟨⟨r, a⟩, hmem, rfl⟩ := List.mem_map.mp ((mem_frameTable_iff f r).mpr hr)
      obtain ⟨⟨r', off⟩, hp, he⟩ := List.mem_map.mp hmem
      obtain ⟨rfl, rfl⟩ := Prod.mk.inj he
      obtain ⟨i, hi, hoff, h0, h31, hra, ha0⟩ := savedRegs_word _ hp
      dsimp only at hoff hra ha0 hr ⊢
      rw [Function.update_of_ne hr, Function.update_of_ne hr, restore_of_mem (nodup_frameTable f) hmem,
        hoff, firstFrame_word hi, if_neg h31]
      simp only [Function.update_apply, ← hra, ← ha0, if_neg h0]
  have hpc : firstFrame ram f entryAddr argv exitAddr f = entryAddr := by
    have hzero : firstFrame ram f entryAddr argv exitAddr (f + BitVec.ofNat 32 (4 * 0)) = entryAddr :=
      firstFrame_word (by decide)
    rwa [Nat.mul_zero, BitVec.add_zero] at hzero
  rw [frameContext, hreg, hpc]
  rfl

/-- **The first frame**: where it lies, what is left alone, and which context it holds. -/
theorem initStackFrameRaw_eq_some (hlen : 4 * len < 2 ^ 32) (hbase : base &&& 3 = 0)
    (h : initStackFrameRaw ram base len entryAddr argv exitAddr = some (ram', f)) :
    Suspended ram' ⟨base, 4 * len⟩ f ∧ (∀ a, ¬ (frameRegion f).Holds a → ram' a = ram a) ∧
      frameContext ram' f = firstContext entryAddr argv exitAddr (base + BitVec.ofNat 32 (4 * len)) := by
  unfold initStackFrameRaw at h
  split_ifs at h with hbig
  have hbig' : 32 < len := hbig
  obtain ⟨hram, hf⟩ := Prod.mk.inj (Option.some.inj h)
  replace hram : firstFrame ram (base + BitVec.ofNat 32 (4 * (len - contextWords))) entryAddr argv exitAddr =
    ram' := hram
  rw [hf] at hram
  have hsub : f - base = BitVec.ofNat 32 (4 * (len - 32)) := by
    rw [← hf, BitVec.add_comm, BitVec.add_sub_cancel]
  have htop : f + 128 = base + BitVec.ofNat 32 (4 * len) := by
    have hsum : BitVec.ofNat 32 (4 * (len - 32)) + 128#32 = BitVec.ofNat 32 (4 * len) := by
      rw [← BitVec.ofNat_add]
      congr 1
      omega
    rw [← hf, BitVec.add_assoc]
    exact congrArg _ hsum
  rw [← hram]
  refine ⟨⟨Region.within_of_le ?_, ?_, ?_⟩, fun a ha => firstFrame_of_not_holds ha, ?_⟩
  · show (f - base).toNat + 128 ≤ 4 * len
    rw [hsub, BitVec.toNat_ofNat]
    have hle := Nat.mod_le (4 * (len - 32)) (2 ^ 32)
    omega
  · rw [← hf]
    exact aligned_add hbase aligned_ofNat
  · rw [show f + 124#32 = f + BitVec.ofNat 32 (4 * 31) from rfl, firstFrame_word (by decide), if_pos rfl]
    decide
  · rw [frameContext_firstFrame, htop]

end

/-! ### The moves of the machine -/

/-- The context of a task: the registers while it runs, its frame while it does not. -/
def Machine.contextOf (m : Machine) (t : Tid) : Context :=
  if m.kernel.currentTcbPtr = some t then ⟨m.reg, m.pc⟩ else frameContext m.ram (m.sp t)

inductive Move where
  /-- code of the running task, with what it does to the registers, the memory and the statics -/
  | code (reg : Reg → BitVec 32) (pc mstatus : BitVec 32) (ram : BitVec 32 → BitVec 32) (globals : Globals)
  /-- `Task::create` up to its `yield_task` -/
  | create (priority : ℕ) (name : String)
  /-- `Task::create_raw` with the block at `base` for the stack -/
  | createRaw (priority : ℕ) (name : String) (stackSize : ℕ) (base entryAddr param : BitVec 32)
  /-- `Scheduler::launch`, which no interrupt comes into -/
  | launch (e : Surroundings)
  /-- a trap, which enters the vector table at `slot` -/
  | trap (slot : Fin 32) (cause : BitVec 32) (e : Surroundings)

namespace Machine

/-- A new task, with its first frame in the stack `s`. -/
def addTask (m : Machine) (priority : ℕ) (name : String) (s : Tid → Region 32)
    (frame : Tid → Option ((BitVec 32 → BitVec 32) × BitVec 32)) : Option Machine :=
  match m.kernel.allocTid with
  | none => some m
  | some (t, k) => (frame t).map fun r => { m with
      ram := r.1
      sp := Function.update m.sp t r.2
      stack := Function.update m.stack t (some (s t))
      globals := { m.globals with kernel := k.addTask t priority name } }

/-- The task `first` starts to run. -/
def startTask (m : Machine) (L : Layout) (first : Tid) : Machine :=
  { m with
    isrStackTop := L.isrStack + 8192#32
    globals := { m.globals with kernel :=
      { (m.kernel.setStatus first .running).setCurrent first with schedReady := true } } }

/-- `Scheduler::launch` -/
def launch (m : Machine) (L : Layout) (e : Surroundings) : Option Machine :=
  if m.kernel.allocTid.isNone then none
  else (m.addTask priMin "idle" L.stack (initStackFrame L m.ram)).bind fun m =>
    m.kernel.readyList.front.bind fun first => runText L e startFirstTask (m.startTask L first)

/-- The stack of a task that `create_raw` makes. -/
def rawStack (stackSize : ℕ) (base : BitVec 32) : Region 32 := ⟨base, 4 * (stackSize / 4)⟩

/-- The running task has not been freed. -/
def CurrentKept (m : Machine) : Prop := ∀ c, m.kernel.currentTcbPtr = some c → m.kernel.tidFree c = false

/-- The identifiers that have been given out so far. -/
def Created (m : Machine) (t : Tid) : Prop := (m.stack t).isSome

/-- The stack in use: the running task's, or that of `main` before the launch. -/
def stackInUse (m : Machine) (L : Layout) : Option (Region 32) :=
  match m.kernel.currentTcbPtr with
  | some c => m.stack c
  | none => some L.mainStack

end Machine

namespace Move

variable (L : Layout) (m : Machine)

def step : Move → Option Machine
  | .code reg pc mstatus ram globals => some { m with reg, pc, mstatus, ram, globals }
  | .create priority name => m.addTask priority name L.stack (initStackFrame L m.ram)
  | .createRaw priority name stackSize base entryAddr param =>
    m.addTask priority name (fun _ => Machine.rawStack stackSize base) fun _ =>
      initStackFrameRaw m.ram base (stackSize / 4) entryAddr param L.taskExitStub
  | .launch e => m.launch L e
  | .trap slot cause e =>
    if cause.msb ∧ m.mstatus.getLsbD 3 = false then none
    else Machine.runText L e (mosTrapHandler.drop slot) (m.trap cause)

/-- What the model takes from its surroundings.  Code leaves `CURRENT_TCB_PTR`, `SCHED_READY` and the frames
of the tasks that are off the processor alone; the heap gives fresh blocks; a trap finds room for its frame
and for what the calls of the handler use. -/
def Ok : Move → Prop
  | .code _ _ _ ram globals =>
    Undisturbed m.Created m.kernel globals.kernel ∧
      ∀ t, m.Created t → m.kernel.currentTcbPtr ≠ some t →
        ∀ a, (frameRegion (m.sp t)).Holds a → ram a = m.ram a
  | .create _ _ => m.CurrentKept
  | .createRaw _ _ stackSize base _ _ =>
    m.CurrentKept ∧ stackSize < 2 ^ 32 ∧ base &&& 3 = 0 ∧
      (∀ t, L.StackOk t (Machine.rawStack stackSize base)) ∧
      ∀ t s, m.stack t = some s → s.Disjoint (Machine.rawStack stackSize base)
  | .launch _ => m.kernel.schedReady = false
  | .trap _ cause e =>
    e.outside.Orderly m.Created ∧ (∀ f, e.depth f ≤ isrStackSize) ∧
      ∀ s, m.stackInUse L = some s →
        ∀ f, HasRoom s (m.reg .sp) (frameSize + if cause.msb then 0 else e.depth f)

/-- What a move is to the context of the task `t`. -/
def own (t : Tid) (a : Move) (c : Context) : Context :=
  match a with
  | .code reg pc _ _ _ => if m.kernel.currentTcbPtr = some t then ⟨reg, pc⟩ else c
  | .create _ _ | .launch _ =>
    if m.kernel.allocTid.map Prod.fst = some t then
      firstContext L.closureTrampoline 0 L.taskExitStub ((L.stack t).base + 1024)
    else c
  | .createRaw _ _ stackSize base entryAddr param =>
    if m.kernel.allocTid.map Prod.fst = some t then
      firstContext entryAddr param L.taskExitStub (base + BitVec.ofNat 32 (4 * (stackSize / 4)))
    else c
  | .trap _ cause _ =>
    if m.kernel.currentTcbPtr = some t then { c with pc := resumePc cause c.pc (c.reg .ra) } else c

end Move

/-! ### The invariant -/

/-- The stacks lie apart, and the tasks that are off the processor have their frames in them. -/
structure Machine.Placed (L : Layout) (m : Machine) : Prop where
  stack : ∀ t s, m.stack t = some s → L.StackOk t s
  disjoint : ∀ t u s s', m.stack t = some s → m.stack u = some s' → t ≠ u → s.Disjoint s'
  suspended : ∀ t s, m.stack t = some s → m.kernel.currentTcbPtr ≠ some t → Suspended m.ram s (m.sp t)

/-- Between two moves. -/
structure Machine.Sound (L : Layout) (m : Machine) : Prop extends m.Placed L where
  kernel : m.kernel.Mentions m.Created
  phase : m.kernel.InPhase
  isrStackTop : m.isrStackTop = L.isrStack + 8192#32
  mode : m.mode = 3

/-- `main` has called `install_trap_handler` and created nothing yet. -/
structure Machine.Installed (L : Layout) (m : Machine) : Prop where
  kernel : m.kernel = Kernel.boot
  stack : ∀ t, m.stack t = none
  isrStackTop : m.isrStackTop = L.isrStack + 8192#32
  mode : m.mode = 3

namespace Kernel

variable {k k₁ : Kernel} {P : Tid → Prop} {t : Tid}

theorem Mentions.current (h : k.Mentions P) (ht : k.currentTcbPtr = some t) : P t := Within.current h t ht

theorem Mentions.addTask (h : k.Mentions P) (ha : k.allocTid = some (t, k₁)) (p : ℕ) (name : String) :
    (k₁.addTask t p name).Mentions fun u => P u ∨ k.allocTid.map Prod.fst = some u := by
  have hready : ({ k with schedReady := true } : Kernel).allocTid =
      some (t, { k₁ with schedReady := true }) := by
    obtain ⟨t', ht, he⟩ := Option.map_eq_some_iff.mp ha
    cases he
    exact Option.map_eq_some_iff.mpr ⟨t, ht, rfl⟩
  have hadd := Within.addTask h hready p name
  rw [hready] at hadd
  rw [ha]
  exact hadd

/-- The front of the ready list starts to run. -/
theorem Mentions.start (h : k.Mentions P) (ht : k.readyList.front = some t) :
    ({ (k.setStatus t .running).setCurrent t with schedReady := true } : Kernel).Within P := by
  have hp : P t := Within.ready h t (List.mem_of_mem_head? ht)
  have hset := Within.setStatus h hp .running
  refine ⟨hset.alive, hset.ready, hset.sleeping, hset.blocked, hset.tid, rfl, fun u hu => ?_⟩
  cases hu
  exact hp

theorem mentions_boot (hP : ∀ t, ¬ P t) : Kernel.boot.Mentions P := by
  refine ⟨fun t ht => absurd rfl ht, ?_, ?_, ?_, fun t ht => absurd ht (hP t), rfl, ?_⟩ <;>
    · intro t ht
      cases ht

end Kernel

namespace Machine

variable {L : Layout} {m m' : Machine} {t : Tid}

theorem Installed.sound (h : m.Installed L) : m.Sound L := by
  have hnone : ∀ t, ¬ m.Created t := fun t ht => by
    rw [Created, h.stack t] at ht
    cases ht
  refine ⟨⟨fun t s hs => ?_, fun t u s s' hs => ?_, fun t s hs => ?_⟩, ?_, ?_, h.isrStackTop, h.mode⟩
  · rw [h.stack t] at hs
    cases hs
  · rw [h.stack t] at hs
    cases hs
  · rw [h.stack t] at hs
    cases hs
  · rw [h.kernel]
    exact mentions_boot hnone
  · rw [InPhase, h.kernel]
    rfl

/-! ### Code -/

theorem Sound.code {reg : Reg → BitVec 32} {pc mstatus : BitVec 32} {ram : BitVec 32 → BitVec 32}
    {globals : Globals} (h : m.Sound L) (hok : Move.Ok L m (.code reg pc mstatus ram globals)) :
    Sound L { m with reg, pc, mstatus, ram, globals } ∧
      ∀ t, m.Created t → contextOf { m with reg, pc, mstatus, ram, globals } t =
        Move.own L m t (.code reg pc mstatus ram globals) (m.contextOf t) := by
  obtain ⟨⟨hmentions, hcur, hready⟩, hram⟩ := hok
  refine ⟨⟨⟨h.stack, h.disjoint, fun t s hs hne => ?_⟩, hmentions, ?_, h.isrStackTop, h.mode⟩,
    fun t ht => ?_⟩
  · have hne' : m.kernel.currentTcbPtr ≠ some t := fun he => hne (hcur.trans he)
    exact (h.suspended t s hs hne').congr (hram t (Option.isSome_iff_exists.mpr ⟨s, hs⟩) hne')
  · show globals.kernel.schedReady = globals.kernel.currentTcbPtr.isSome
    rw [hready, hcur]
    exact h.phase
  · rw [contextOf, Move.own, contextOf]
    dsimp only
    rw [hcur]
    split_ifs with hc
    · rfl
    · exact frameContext_congr (hram t ht hc)

/-! ### Creations -/

theorem addTask_eq_some {priority : ℕ} {name : String} {st : Tid → Region 32}
    {frame : Tid → Option ((BitVec 32 → BitVec 32) × BitVec 32)}
    (hs : m.addTask priority name st frame = some m') :
    m.kernel.allocTid = none ∧ m' = m ∨ ∃ u k ram f, m.kernel.allocTid = some (u, k) ∧
      frame u = some (ram, f) ∧ m' = { m with
        ram
        sp := Function.update m.sp u f
        stack := Function.update m.stack u (some (st u))
        globals := { m.globals with kernel := k.addTask u priority name } } := by
  unfold addTask at hs
  split at hs
  · rename_i ha
    cases hs
    exact .inl ⟨ha, rfl⟩
  · rename_i u k ha
    obtain ⟨⟨ram, f⟩, hframe, he⟩ := Option.map_eq_some_iff.mp hs
    exact .inr ⟨u, k, ram, f, ha, hframe, he.symm⟩

/-- A new task on the stack `st`, which has its first frame there. -/
theorem Placed.addTask {u : Tid} {k : Kernel} {st : Region 32} {ram : BitVec 32 → BitVec 32} {f : BitVec 32}
    {g : Globals} (h : m.Placed L) (ha : m.kernel.allocTid = some (u, k)) (hkept : m.CurrentKept)
    (hcur : g.kernel.currentTcbPtr = m.kernel.currentTcbPtr) (hst : L.StackOk u st)
    (hapart : ∀ t s, t ≠ u → m.stack t = some s → s.Disjoint st) (hframe : Suspended ram st f)
    (hram : ∀ a, ¬ (frameRegion f).Holds a → ram a = m.ram a) :
    Placed L { m with
        ram, sp := Function.update m.sp u f, stack := Function.update m.stack u (some st), globals := g } ∧
      ∀ t, t ≠ u → m.Created t →
        contextOf { m with
          ram, sp := Function.update m.sp u f, stack := Function.update m.stack u (some st),
          globals := g } t =
        m.contextOf t := by
  have hne : m.kernel.currentTcbPtr ≠ some u := by
    intro hc
    have hfree := (allocTid_eq_some ha).1
    rw [hkept u hc] at hfree
    cases hfree
  -- the frames of the others lie elsewhere
  have hold : ∀ t s, t ≠ u → m.stack t = some s → m.kernel.currentTcbPtr ≠ some t →
      ∀ a, (frameRegion (m.sp t)).Holds a → ram a = m.ram a := by
    intro t s htu hs hoff a ha
    have hin := (h.suspended t s hs hoff).within a ha
    exact hram a fun hf => hapart t s htu hs a hin (hframe.within a hf)
  refine ⟨⟨fun t s hs => ?_, fun t v s s' hs hs' htv => ?_, fun t s hs hoff => ?_⟩, fun t htu ht => ?_⟩
  · dsimp only at hs
    by_cases htu : t = u
    · rw [htu, Function.update_self] at hs
      cases hs
      rw [htu]
      exact hst
    · rw [Function.update_of_ne htu] at hs
      exact h.stack t s hs
  · dsimp only at hs hs'
    by_cases htu : t = u
    · rw [htu, Function.update_self] at hs
      cases hs
      rw [Function.update_of_ne fun hv => htv (htu.trans hv.symm)] at hs'
      exact (hapart v s' (fun hv => htv (htu.trans hv.symm)) hs').symm
    · rw [Function.update_of_ne htu] at hs
      by_cases hvu : v = u
      · rw [hvu, Function.update_self] at hs'
        cases hs'
        exact hapart t s htu hs
      · rw [Function.update_of_ne hvu] at hs'
        exact h.disjoint t v s s' hs hs' htv
  · replace hoff : m.kernel.currentTcbPtr ≠ some t := fun he => hoff (hcur.trans he)
    dsimp only at hs ⊢
    by_cases htu : t = u
    · rw [htu, Function.update_self] at hs ⊢
      cases hs
      exact hframe
    · rw [Function.update_of_ne htu] at hs ⊢
      exact (h.suspended t s hs hoff).congr (hold t s htu hs hoff)
  · obtain ⟨s, hs⟩ := Option.isSome_iff_exists.mp ht
    rw [contextOf, contextOf]
    dsimp only
    rw [hcur, Function.update_of_ne htu]
    split_ifs with hc
    · rfl
    · exact frameContext_congr (hold t s htu hs hc)

/-- The stack and the first frame of a new task, whichever identifier it gets, and the context in the
frame. -/
structure CreationOk (L : Layout) (m : Machine) (st : Tid → Region 32)
    (frame : Tid → Option ((BitVec 32 → BitVec 32) × BitVec 32)) (first : Tid → Context) : Prop where
  kept : m.CurrentKept
  stackOk : ∀ u, L.StackOk u (st u)
  apart : ∀ t u s, t ≠ u → m.stack t = some s → s.Disjoint (st u)
  frame : ∀ u ram f, frame u = some (ram, f) → Suspended ram (st u) f ∧
    (∀ a, ¬ (frameRegion f).Holds a → ram a = m.ram a) ∧ frameContext ram f = first u

theorem Placed.creationOk_create (hp : L.Proper) (h : m.Placed L) (hkept : m.CurrentKept) :
    CreationOk L m L.stack (initStackFrame L m.ram) fun u =>
      firstContext L.closureTrampoline 0 L.taskExitStub ((L.stack u).base + 1024) := by
  refine ⟨hkept, hp.stackOk, fun t u s htu hs => (h.stack t s hs).slot u htu.symm, fun u ram f hu => ?_⟩
  have hbase : (L.stack u).base &&& 3 = 0 := by
    have hoff : pageSize * u.val = 4 * (256 * u.val) := by
      show 1024 * u.val = _
      omega
    show (L.taskStacks + BitVec.ofNat 32 (pageSize * u.val)) &&& 3 = 0
    rw [hoff]
    exact aligned_add hp.aligned aligned_ofNat
  exact initStackFrameRaw_eq_some (by decide) hbase hu

theorem creationOk_createRaw {priority stackSize : ℕ} {name : String} {base entryAddr param : BitVec 32}
    (hok : Move.Ok L m (.createRaw priority name stackSize base entryAddr param)) :
    CreationOk L m (fun _ => rawStack stackSize base)
      (fun _ => initStackFrameRaw m.ram base (stackSize / 4) entryAddr param L.taskExitStub) fun _ =>
      firstContext entryAddr param L.taskExitStub (base + BitVec.ofNat 32 (4 * (stackSize / 4))) := by
  obtain ⟨hkept, hsize, hbase, hst, hapart⟩ := hok
  exact ⟨hkept, hst, fun t _ s _ hs => hapart t s hs, fun u ram f hu =>
    initStackFrameRaw_eq_some (by omega) hbase hu⟩

section

variable {priority : ℕ} {name : String} {st : Tid → Region 32}
  {frame : Tid → Option ((BitVec 32 → BitVec 32) × BitVec 32)} {first : Tid → Context}

/-- A creation puts the new task in its first context and leaves all others in theirs. -/
theorem Placed.creation (h : m.Placed L) (hc : CreationOk L m st frame first)
    (hs : m.addTask priority name st frame = some m') :
    m'.Placed L ∧ (m'.Created = fun v => m.Created v ∨ m.kernel.allocTid.map Prod.fst = some v) ∧
      ∀ t, m'.Created t →
        m'.contextOf t = if m.kernel.allocTid.map Prod.fst = some t then first t else m.contextOf t := by
  rcases addTask_eq_some hs with ⟨ha, rfl⟩ | ⟨u, k, ram, f, ha, hu, rfl⟩
  · refine ⟨h, funext fun v => ?_, fun t _ => ?_⟩
    · simp [ha]
    · rw [ha, if_neg (by simp)]
  obtain ⟨hsus, hram, hfirst⟩ := hc.frame u ram f hu
  have hk : (k.addTask u priority name).currentTcbPtr = m.kernel.currentTcbPtr := by
    rw [(allocTid_eq_some ha).2]
    rfl
  obtain ⟨hplaced, hothers⟩ := h.addTask (g := { m.globals with kernel := k.addTask u priority name })
    ha hc.kept hk (hc.stackOk u) (fun t s htu hs => hc.apart t u s htu hs) hsus hram
  refine ⟨hplaced, funext fun v => ?_, fun t ht => ?_⟩
  · rw [ha, Created, Created]
    by_cases hvu : v = u
    · simp [hvu]
    · simp [Function.update_of_ne hvu, Ne.symm hvu]
  · by_cases htu : t = u
    · have hne : m.kernel.currentTcbPtr ≠ some u := by
        intro hcur
        have hfree := (allocTid_eq_some ha).1
        rw [hc.kept u hcur] at hfree
        cases hfree
      rw [ha, htu, Option.map_some, if_pos rfl, contextOf]
      dsimp only
      rw [hk, if_neg hne, Function.update_self]
      exact hfirst
    · have ht' : m.Created t := by
        rw [Created]
        rw [Created] at ht
        dsimp only at ht
        rwa [Function.update_of_ne htu] at ht
      rw [hothers t htu ht', ha, if_neg]
      exact fun he => htu (Option.some.inj he).symm

theorem Sound.creation (h : m.Sound L) (hc : CreationOk L m st frame first)
    (hs : m.addTask priority name st frame = some m') : m'.Sound L := by
  obtain ⟨hplaced, hcreated, -⟩ := h.toPlaced.creation hc hs
  rcases addTask_eq_some hs with ⟨-, rfl⟩ | ⟨u, k, ram, f, ha, -, rfl⟩
  · exact h
  · refine ⟨hplaced, ?_, ?_, h.isrStackTop, h.mode⟩
    · rw [hcreated]
      exact h.kernel.addTask ha priority name
    · show (k.addTask u priority name).schedReady = (k.addTask u priority name).currentTcbPtr.isSome
      rw [(allocTid_eq_some ha).2]
      exact h.phase

end

/-! ### Traps -/

/-- The bits `MPP` of what the hardware saves. -/
theorem mppOf_mstatusOf (w : BitVec 32) (mie mpie : Bool) (mpp : BitVec 2) :
    mppOf (mstatusOf w mie mpie mpp) = mpp := by
  refine BitVec.eq_of_getLsbD_eq fun i hi => ?_
  have hcases : i = 0 ∨ i = 1 := by omega
  rcases hcases with rfl | rfl <;> cases mie <;> cases mpie <;>
    simp [mppOf, mstatusOf]

/-- What the handler does to the status word leaves `MPP` alone. -/
theorem mppOf_restored (w : BitVec 32) : mppOf ((w ||| 0x80) &&& -9) = mppOf w := by
  refine BitVec.eq_of_getLsbD_eq fun i hi => ?_
  have hcases : i = 0 ∨ i = 1 := by omega
  rcases hcases with rfl | rfl <;> simp [mppOf]

/-- The frame is saved in the control block of the running task, if there is one. -/
theorem savedSp_trap {cause f : BitVec 32} (h : m.Sound L) (t : Tid) :
    (m.trap cause).savedSp f t = if m.kernel.currentTcbPtr = some t then f else m.sp t := by
  have hready : (m.trap cause).kernel.schedReady = m.kernel.currentTcbPtr.isSome := h.phase
  have hcur : (m.trap cause).kernel.currentTcbPtr = m.kernel.currentTcbPtr := rfl
  rw [savedSp, hready, hcur]
  cases hc : m.kernel.currentTcbPtr with
  | none => rfl
  | some c =>
      dsimp only [Option.isSome_some]
      rw [Function.update_apply]
      exact if_congr (by rw [Option.some.injEq, eq_comm]) rfl rfl

theorem nextTcb_current {k k' : Kernel} {c : Tid} (ho : k.OnCpu c) (hk : k.nextTcb = some k') :
    ∃ t, k'.currentTcbPtr = some t := by
  obtain ⟨st, -, rfl⟩ := nextTcb_eq_some ho hk
  refine ⟨st, currentTcbPtr_switchTo ?_⟩
  rw [currentTcbPtr_requeue, currentTcbPtr_wakeUpSleepers, ho.current]

/-- A trap that the machine is ready for: the stack in use is apart from those of the tasks that are off the
processor, and there is room on it for the frame. -/
structure TrapReady (L : Layout) (m : Machine) (cause : BitVec 32) (e : Surroundings) (s : Region 32) :
    Prop where
  sound : m.Sound L
  orderly : e.outside.Orderly m.Created
  plain : L.Plain s
  frame : (frameRegion (m.reg .sp - 128)).Within s
  aligned : (m.reg .sp - 128) &&& 3 = 0
  others : ∀ t s', m.kernel.currentTcbPtr ≠ some t → m.stack t = some s' → s'.Disjoint s
  /-- the calls write neither to the frame nor to the stacks of other tasks -/
  calls : ∀ f a, (below (if cause.msb then m.isrStackTop else m.reg .sp - 128) (e.depth f)).Holds a →
    ¬ (frameRegion (m.reg .sp - 128)).Holds a ∧
      ∀ t s', m.kernel.currentTcbPtr ≠ some t → m.stack t = some s' → ¬ s'.Holds a

theorem Sound.stackInUse (hp : L.Proper) (h : m.Sound L) : ∃ s, m.stackInUse L = some s ∧ L.Plain s ∧
    (∀ t, m.kernel.currentTcbPtr = some t → m.stack t = some s) ∧
      ∀ t s', m.kernel.currentTcbPtr ≠ some t → m.stack t = some s' → s'.Disjoint s := by
  cases hc : m.kernel.currentTcbPtr with
  | none =>
      refine ⟨L.mainStack, ?_, hp.main, fun t ht => ?_, fun t s' _ hs' => (h.stack t s' hs').main⟩
      · rw [Machine.stackInUse, hc]
      · cases ht
  | some c =>
      obtain ⟨s, hs⟩ := Option.isSome_iff_exists.mp (h.kernel.current hc)
      refine ⟨s, ?_, (h.stack c s hs).toPlain, fun t ht => ?_, fun t s' hne hs' => ?_⟩
      · rw [Machine.stackInUse, hc]
        exact hs
      · cases ht
        exact hs
      · exact h.disjoint t c s' s hs' hs fun he => hne (congrArg some he.symm)

theorem Sound.trapReady {slot : Fin 32} {cause : BitVec 32} {e : Surroundings} (hp : L.Proper)
    (h : m.Sound L) (hok : Move.Ok L m (.trap slot cause e)) :
    ∃ s, TrapReady L m cause e s ∧ ∀ t, m.kernel.currentTcbPtr = some t → m.stack t = some s := by
  obtain ⟨hout, hdepth, hroom⟩ := hok
  obtain ⟨s, hs, hplain, hstack, hothers⟩ := h.stackInUse hp
  obtain ⟨hframe, haligned, -, -⟩ := (hroom s hs .mosTrapDispatch).frame
  refine ⟨s, ⟨h, hout, hplain, hframe, haligned, hothers, fun f a ha => ?_⟩, hstack⟩
  cases hmsb : cause.msb with
  | true =>
      -- an interrupt: the calls use the stack of the interrupts
      rw [hmsb, if_pos rfl, h.isrStackTop] at ha
      have hisr := below_isrStackTop L (hdepth f) a ha
      exact ⟨fun hf => hplain.isr a (hframe a hf) hisr,
        fun t s' _ hs' hin => (h.stack t s' hs').isr a hin hisr⟩
  | false =>
      -- an exception: they use the stack of the task, below the frame
      have hroom' := hroom s hs f
      rw [hmsb, if_neg Bool.false_ne_true] at ha hroom'
      obtain ⟨-, -, hbelow, hapart⟩ := hroom'.frame
      exact ⟨fun hf => hapart a hf ha,
        fun t s' ht hs' hin => hothers t s' ht hs' a hin (hbelow a ha)⟩

namespace TrapReady

variable {cause : BitVec 32} {e : Surroundings} {s : Region 32}

theorem dispatched {words : ℕ → BitVec 32} {r : Dispatched} (h : TrapReady L m cause e s)
    (hr : mosTrapDispatch e.outside cause words m.globals = some r) :
    Undisturbed m.Created m.kernel r.globals.kernel :=
  mosTrapDispatch_kernel hr h.orderly h.sound.kernel h.sound.phase

/-- The kernel after a switch. -/
theorem switched {words : ℕ → BitVec 32} {r : Dispatched} {k : Kernel} (h : TrapReady L m cause e s)
    (hr : mosTrapDispatch e.outside cause words m.globals = some r)
    (hk : r.globals.kernel.nextTcb = some k) : k.Within m.Created ∧ ∃ t, k.currentTcbPtr = some t := by
  have hu := h.dispatched hr
  obtain ⟨c, hc, -⟩ := Option.bind_eq_some_iff.mp hk
  obtain ⟨p, hp, -⟩ := Option.map_eq_some_iff.mp hc
  rw [currentTcbPtr_wakeUpSleepers] at hp
  have hready : r.globals.kernel.schedReady = true := by
    rw [hu.schedReady, h.sound.phase, ← hu.current, hp]
    rfl
  have hw := hu.mentions.within hready
  exact ⟨hw.nextTcb hk, nextTcb_current (hw.onCpu hp) hk⟩

/-- The text of the handler does what `handle` says. -/
theorem runText (h : TrapReady L m cause e s) (slot : Fin 32) :
    runText L e (mosTrapHandler.drop slot) (m.trap cause) = (m.trap cause).handle e := by
  have hcur : (m.trap cause).kernel.schedReady = true → ∃ t, (m.trap cause).kernel.currentTcbPtr = some t :=
    fun hr => Option.isSome_iff_exists.mp (h.sound.phase.symm.trans hr)
  refine runText_eq_handle slot.val slot.isLt (frameOk_of_within h.plain h.frame h.aligned) hcur ?_
  intro words r k hr hk
  obtain ⟨hw, t, ht⟩ := h.switched hr hk
  refine ⟨t, ht, ?_⟩
  rw [savedSp_trap h.sound]
  split_ifs with hc
  · exact frameOk_of_within h.plain h.frame h.aligned
  · obtain ⟨s', hs'⟩ := Option.isSome_iff_exists.mp (hw.current t ht)
    have hsus := h.sound.suspended t s' hs' hc
    exact frameOk_of_within (h.sound.stack t s' hs').toPlain hsus.within hsus.aligned

variable {ram : BitVec 32 → BitVec 32} {mepc : BitVec 32}

/-- What the handler leaves in the frame of the interrupted code: its context, with the program counter
where it goes on. -/
theorem ownFrame (h : TrapReady L m cause e s) (hmepc : mepc = resumePc cause m.pc (m.reg .ra))
    (hram : ∀ a, (∀ f, ¬ (below (if cause.msb then m.isrStackTop else m.reg .sp - 128) (e.depth f)).Holds a) →
      ram a = Function.update ((m.trap cause).pushed (m.reg .sp - 128)) (m.reg .sp - 128) mepc a) :
    Suspended ram s (m.reg .sp - 128) ∧
      frameContext ram (m.reg .sp - 128) = ⟨m.reg, resumePc cause m.pc (m.reg .ra)⟩ := by
  have hframe : ∀ a, (frameRegion (m.reg .sp - 128)).Holds a →
      ram a = Function.update ((m.trap cause).pushed (m.reg .sp - 128)) (m.reg .sp - 128) mepc a :=
    fun a ha => hram a fun f hf => (h.calls f a hf).1 ha
  have hzero := add_holds_frame (m.reg .sp - 128) (n := 0) (by decide)
  rw [BitVec.add_zero] at hzero
  have hpc : ram (m.reg .sp - 128) = mepc := (hframe _ hzero).trans (Function.update_self ..)
  refine ⟨⟨h.frame, h.aligned, ?_⟩, ?_⟩
  · have hne : m.reg .sp - 128 + 124#32 ≠ m.reg .sp - 128 := by
      rw [Ne, add_eq_left]
      decide
    rw [hframe _ (add_holds_frame _ (n := 124) (by decide)), Function.update_of_ne hne, pushed_mstatus]
    exact (mppOf_mstatusOf ..).trans h.sound.mode
  · have hsp : (m.trap cause).reg .sp = m.reg .sp - 128 + 128 := (BitVec.sub_add_cancel _ _).symm
    rw [frameContext_pushed hsp fun a ha hne => (hframe a ha).trans (Function.update_of_ne hne ..), hpc,
      hmepc]
    rfl

/-- The frames of the tasks that are off the processor are on other stacks. -/
theorem otherFrame (h : TrapReady L m cause e s)
    (hram : ∀ a, (∀ f, ¬ (below (if cause.msb then m.isrStackTop else m.reg .sp - 128) (e.depth f)).Holds a) →
      ram a = Function.update ((m.trap cause).pushed (m.reg .sp - 128)) (m.reg .sp - 128) mepc a)
    {t : Tid} {s' : Region 32} (hs' : m.stack t = some s') (hne : m.kernel.currentTcbPtr ≠ some t) :
    Suspended ram s' (m.sp t) ∧ frameContext ram (m.sp t) = frameContext m.ram (m.sp t) := by
  have hsus := h.sound.suspended t s' hs' hne
  have hkeep : ∀ a, (frameRegion (m.sp t)).Holds a → ram a = m.ram a := by
    intro a ha
    have hin := hsus.within a ha
    have hout : ¬ (frameRegion (m.reg .sp - 128)).Holds a := fun hf =>
      h.others t s' hne hs' a hin (h.frame a hf)
    have hzero := add_holds_frame (m.reg .sp - 128) (n := 0) (by decide)
    rw [BitVec.add_zero] at hzero
    have hne' : a ≠ m.reg .sp - 128 := fun he => hout (he ▸ hzero)
    rw [hram a fun f hf => (h.calls f a hf).2 t s' hne hs' hin, Function.update_of_ne hne']
    exact pushed_of_not_holds (m := m.trap cause) hout
  exact ⟨hsus.congr hkeep, frameContext_congr hkeep⟩

/-- **A trap**: interrupts are on afterwards, and the interrupted code is where `resumePc` says, be it on the
processor or in its frame; the invariant is kept if the code was on its own stack. -/
theorem trap (h : TrapReady L m cause e s) (hs : (m.trap cause).handle e = some m') :
    ((∀ t, m.kernel.currentTcbPtr = some t → m.stack t = some s) → m'.Sound L) ∧
      m'.stack = m.stack ∧ m'.mstatus.getLsbD 3 = true ∧
      (m.kernel.currentTcbPtr = none →
        (⟨m'.reg, m'.pc⟩ : Context) = ⟨m.reg, resumePc cause m.pc (m.reg .ra)⟩) ∧
      (∀ t, m'.sp t = if m.kernel.currentTcbPtr = some t then m.reg .sp - 128 else m.sp t) ∧
      ∀ t, m.Created t →
        (frameContext m'.ram (m'.sp t) = if m.kernel.currentTcbPtr = some t then
          ⟨m.reg, resumePc cause m.pc (m.reg .ra)⟩ else m.contextOf t) ∧
        m'.contextOf t = frameContext m'.ram (m'.sp t) := by
  obtain ⟨r, ram, k, g, hr, rfl, hram, hk⟩ := handle_eq_some hs
  have hmepc : r.mepc = resumePc cause m.pc (m.reg .ra) := by
    rw [mosTrapDispatch_mepc hr]
    have hzero : (m.trap cause).pushed (m.reg .sp - 128) (m.reg .sp - 128 + BitVec.ofNat 32 (4 * 0)) =
        m.pc := by
      rw [Nat.mul_zero, BitVec.add_zero]
      exact pushed_mepc ..
    have hra : (m.trap cause).pushed (m.reg .sp - 128) (m.reg .sp - 128 + BitVec.ofNat 32 (4 * 1)) =
        m.reg .ra :=
      pushed_of_mem (m := m.trap cause) (r := .ra) (by simp [frameTable, savedRegs])
    exact congrArg₂ (resumePc cause) hzero hra
  have hown := h.ownFrame hmepc hram
  have hother := fun {t} {s'} (hs' : m.stack t = some s') hne => h.otherFrame hram hs' hne
  have hu := h.dispatched hr
  -- the frame that `mret` returns through
  have hnext : k.Mentions m.Created ∧ k.InPhase ∧ mppOf (ram (g + 124#32)) = 3 ∧
      (m.kernel.currentTcbPtr = none → g = m.reg .sp - 128) ∧
      ∀ t, k.currentTcbPtr = some t → g = (m.trap cause).savedSp (m.reg .sp - 128) t := by
    rcases hk with ⟨-, rfl, rfl⟩ | ⟨-, hk, n, hn, rfl⟩
    · refine ⟨hu.mentions, ?_, hown.1.mpp, fun _ => rfl, fun t ht => ?_⟩
      · rw [InPhase, hu.schedReady, hu.current]
        exact h.sound.phase
      · rw [savedSp_trap h.sound, if_pos (hu.current.symm.trans ht)]
        rfl
    · obtain ⟨hw, -⟩ := h.switched hr hk
      have hsaved : mppOf (ram ((m.trap cause).savedSp (m.reg .sp - 128) n + 124#32)) = 3 := by
        rw [savedSp_trap h.sound]
        split_ifs with hc
        · exact hown.1.mpp
        · obtain ⟨s', hs'⟩ := Option.isSome_iff_exists.mp (hw.current n hn)
          exact (hother hs' hc).1.mpp
      refine ⟨hw.mentions, ?_, hsaved, fun hnone => ?_, fun t ht => ?_⟩
      · rw [InPhase, hw.schedReady, hn]
        rfl
      · obtain ⟨c, hc, -⟩ := Option.bind_eq_some_iff.mp hk
        obtain ⟨p, hp, -⟩ := Option.map_eq_some_iff.mp hc
        rw [currentTcbPtr_wakeUpSleepers, hu.current, hnone] at hp
        cases hp
      · rw [Option.some.inj (hn.symm.trans ht)]
        rfl
  obtain ⟨hmentions, hphase, hmpp, hnone, hg⟩ := hnext
  refine ⟨fun hstack => ⟨⟨h.sound.stack, h.sound.disjoint, fun t s' hs' hne => ?_⟩, hmentions, hphase,
    h.sound.isrStackTop, ?_⟩, rfl, ?_, fun hmain => ?_, savedSp_trap h.sound, fun t ht => ⟨?_, ?_⟩⟩
  · show Suspended ram s' ((m.trap cause).savedSp (m.reg .sp - 128) t)
    rw [savedSp_trap h.sound]
    split_ifs with hc
    · rw [Option.some.inj (hs'.symm.trans (hstack t hc))]
      exact hown.1
    · exact (hother hs' hc).1
  · exact (mppOf_restored _).trans hmpp
  · simp [resumed, mret, mstatusOf]
  · rw [context_resumed, hnone hmain]
    exact hown.2
  · obtain ⟨s', hs'⟩ := Option.isSome_iff_exists.mp ht
    show frameContext ram ((m.trap cause).savedSp (m.reg .sp - 128) t) = _
    rw [savedSp_trap h.sound]
    split_ifs with hc
    · exact hown.2
    · rw [(hother hs' hc).2, contextOf, if_neg hc]
  · by_cases htk : k.currentTcbPtr = some t
    · show _ = frameContext ram ((m.trap cause).savedSp (m.reg .sp - 128) t)
      rw [← hg t htk]
      exact (if_pos htk).trans (context_resumed _ _)
    · exact if_neg htk

end TrapReady

/-! ### The launch -/

theorem launch_eq_some {e : Surroundings} (hs : m.launch L e = some m') :
    ∃ m₁ first, m.addTask priMin "idle" L.stack (initStackFrame L m.ram) = some m₁ ∧
      m₁.kernel.readyList.front = some first ∧
      Machine.runText L e startFirstTask (m₁.startTask L first) = some m' := by
  unfold launch at hs
  split_ifs at hs
  obtain ⟨m₁, hm₁, hs⟩ := Option.bind_eq_some_iff.mp hs
  obtain ⟨first, hfirst, hs⟩ := Option.bind_eq_some_iff.mp hs
  exact ⟨m₁, first, hm₁, hfirst, hs⟩

/-- No task runs before the scheduler does. -/
theorem Sound.currentTcbPtr_eq_none (h : m.Sound L) (hready : m.kernel.schedReady = false) :
    m.kernel.currentTcbPtr = none := by
  have hphase := h.phase
  rw [InPhase, hready] at hphase
  exact Option.isNone_iff_eq_none.mp (Option.isSome_eq_false_iff.mp hphase.symm)

/-- What `Scheduler::launch` writes before `start_first_task`. -/
theorem Sound.startTask {first : Tid} (h : m.Sound L) (hoff : m.kernel.currentTcbPtr = none)
    (hfirst : m.kernel.readyList.front = some first) :
    (m.startTask L first).Sound L ∧ (m.startTask L first).kernel.currentTcbPtr = some first ∧
      m.Created first ∧ (m.startTask L first).ram = m.ram ∧ (m.startTask L first).sp = m.sp ∧
      (m.startTask L first).stack = m.stack := by
  have hw : (m.startTask L first).kernel.Within m.Created := h.kernel.start hfirst
  have hnone : ∀ t, m.kernel.currentTcbPtr ≠ some t := fun t => by
    rw [hoff]
    exact (Option.some_ne_none t).symm
  have hram : (m.startTask L first).ram = m.ram := by simp only [Machine.startTask]
  have hsp : (m.startTask L first).sp = m.sp := by simp only [Machine.startTask]
  have hstack : (m.startTask L first).stack = m.stack := by simp only [Machine.startTask]
  have hmode : (m.startTask L first).mode = m.mode := by simp only [Machine.startTask]
  refine ⟨⟨⟨h.stack, h.disjoint, fun t s hs _ => ?_⟩, ?_, rfl, rfl, hmode.trans h.mode⟩, rfl,
    hw.current first rfl, hram, hsp, hstack⟩
  · rw [hram, hsp]
    exact h.suspended t s hs (hnone t)
  · have hcreated : (m.startTask L first).Created = m.Created := by
      unfold Created
      rw [hstack]
    rw [hcreated]
    exact hw.mentions

/-- `start_first_task` puts the first task on the processor, and nobody's context changes. -/
theorem Sound.start {first : Tid} (h : m.Sound L) (hoff : m.kernel.currentTcbPtr = none)
    (hfirst : m.kernel.readyList.front = some first) (e : Surroundings) :
    ∃ m', Machine.runText L e startFirstTask (m.startTask L first) = some m' ∧ m'.Sound L ∧
      m'.kernel = (m.startTask L first).kernel ∧ m'.stack = m.stack ∧ m'.sp = m.sp ∧
      m'.mstatus.getLsbD 3 = true ∧ ∀ t, m'.contextOf t = m.contextOf t := by
  obtain ⟨hsound, hcur, hcreated, hram, hsp, hstack⟩ := h.startTask hoff hfirst
  generalize m.startTask L first = m₂ at hsound hcur hram hsp hstack ⊢
  obtain ⟨s, hs⟩ := Option.isSome_iff_exists.mp hcreated
  have hnone : ∀ t, m.kernel.currentTcbPtr ≠ some t := fun t => by
    rw [hoff]
    exact (Option.some_ne_none t).symm
  have hsus := h.suspended first s hs (hnone first)
  rw [← hram, ← hsp] at hsus
  refine ⟨_, runText_startFirstTask hcur (frameOk_of_within (h.stack first s hs).toPlain hsus.within
    hsus.aligned), ⟨⟨hsound.stack, hsound.disjoint, hsound.suspended⟩, hsound.kernel, hsound.phase,
    hsound.isrStackTop, (mppOf_restored _).trans hsus.mpp⟩, rfl, hstack, hsp, ?_, fun t => ?_⟩
  · simp [resumed, mret, mstatusOf]
  · have hold : m.contextOf t = frameContext m₂.ram (m₂.sp t) := by
      rw [hram, hsp]
      exact if_neg (hnone t)
    rw [hold]
    by_cases ht : first = t
    · rw [← ht]
      exact (if_pos hcur).trans (context_resumed _ _)
    · refine if_neg fun he => ht ?_
      exact Option.some.inj (hcur.symm.trans he)

/-- The launch creates the idle task and starts the front of the ready list. -/
theorem Sound.launched {e : Surroundings} (hp : L.Proper) (h : m.Sound L)
    (hready : m.kernel.schedReady = false) (hs : m.launch L e = some m') :
    CreationOk L m L.stack (initStackFrame L m.ram) (fun u =>
      firstContext L.closureTrampoline 0 L.taskExitStub ((L.stack u).base + 1024)) ∧
    ∃ m₁, m.addTask priMin "idle" L.stack (initStackFrame L m.ram) = some m₁ ∧
      m'.Sound L ∧ m'.stack = m₁.stack ∧ m'.sp = m₁.sp ∧ ∀ t, m'.contextOf t = m₁.contextOf t := by
  have hoff := h.currentTcbPtr_eq_none hready
  have hc := h.toPlaced.creationOk_create hp fun c hcur => by
    rw [hoff] at hcur
    cases hcur
  obtain ⟨m₁, first, hm₁, hfirst, hs⟩ := launch_eq_some hs
  have hoff₁ : m₁.kernel.currentTcbPtr = none := by
    rcases addTask_eq_some hm₁ with ⟨-, rfl⟩ | ⟨u, k, ram, f, ha, -, rfl⟩
    · exact hoff
    · show (k.addTask u priMin "idle").currentTcbPtr = none
      rw [(allocTid_eq_some ha).2]
      exact hoff
  obtain ⟨m₂, hm₂, hsound, -, hstack, hsp, -, hsame⟩ := (h.creation hc hm₁).start hoff₁ hfirst e
  cases hm₂.symm.trans hs
  exact ⟨hc, m₁, hm₁, hsound, hstack, hsp, hsame⟩

theorem Sound.launch {e : Surroundings} (hp : L.Proper) (h : m.Sound L)
    (hready : m.kernel.schedReady = false) (hs : m.launch L e = some m') :
    m'.Sound L ∧ (m'.Created = fun v => m.Created v ∨ m.kernel.allocTid.map Prod.fst = some v) ∧
      ∀ t, m'.Created t → m'.contextOf t = Move.own L m t (.launch e) (m.contextOf t) := by
  obtain ⟨hc, m₁, hm₁, hsound, hstack, -, hsame⟩ := h.launched hp hready hs
  obtain ⟨-, hcreated, hctx⟩ := h.toPlaced.creation hc hm₁
  have hcreated' : m'.Created = m₁.Created := by
    unfold Created
    rw [hstack]
  refine ⟨hsound, hcreated'.trans hcreated, fun t ht => ?_⟩
  rw [hcreated'] at ht
  rw [hsame t, hctx t ht]
  rfl

end Machine

/-! ### Runs -/

section

variable {L : Layout} {m m' : Machine} {a : Move}

/-- **One move**: the invariant is kept, and every context changes as the move says of its task. -/
theorem Move.step_sound (hp : L.Proper) (h : m.Sound L) (hok : a.Ok L m) (hs : a.step L m = some m') :
    m'.Sound L ∧ ∀ t, m'.Created t →
      (m.Created t ∨ ∀ c c', a.own L m t c = a.own L m t c') ∧
        m'.contextOf t = a.own L m t (m.contextOf t) := by
  have hnew : ∀ (first : Tid → Context) {t : Tid}, (m.Created t ∨ m.kernel.allocTid.map Prod.fst = some t) →
      m.Created t ∨ ∀ c c' : Context, (if m.kernel.allocTid.map Prod.fst = some t then first t else c) =
        if m.kernel.allocTid.map Prod.fst = some t then first t else c' :=
    fun _ _ ht => ht.imp_right fun hnew c c' => (if_pos hnew).trans (if_pos hnew).symm
  cases a with
  | code reg pc mstatus ram globals =>
      cases hs
      obtain ⟨hsound, hctx⟩ := h.code hok
      exact ⟨hsound, fun t ht => ⟨.inl ht, hctx t ht⟩⟩
  | create priority name =>
      have hc := h.toPlaced.creationOk_create hp hok
      obtain ⟨-, hcreated, hctx⟩ := h.toPlaced.creation hc hs
      refine ⟨h.creation hc hs, fun t ht => ⟨?_, hctx t ht⟩⟩
      rw [hcreated] at ht
      exact hnew (fun u => firstContext _ _ _ ((L.stack u).base + 1024)) ht
  | createRaw priority name stackSize base entryAddr param =>
      have hc := Machine.creationOk_createRaw hok
      obtain ⟨-, hcreated, hctx⟩ := h.toPlaced.creation hc hs
      refine ⟨h.creation hc hs, fun t ht => ⟨?_, hctx t ht⟩⟩
      rw [hcreated] at ht
      exact hnew (fun _ => firstContext _ _ _ _) ht
  | launch e =>
      obtain ⟨hsound, hcreated, hctx⟩ := h.launch hp hok hs
      refine ⟨hsound, fun t ht => ⟨?_, hctx t ht⟩⟩
      rw [hcreated] at ht
      exact hnew (fun u => firstContext _ _ _ ((L.stack u).base + 1024)) ht
  | trap slot cause e =>
      obtain ⟨s, hready, hown⟩ := h.trapReady hp hok
      unfold Move.step at hs
      dsimp only at hs
      split_ifs at hs
      rw [hready.runText slot] at hs
      obtain ⟨hsound, hstack, -, -, -, hctx⟩ := hready.trap hs
      refine ⟨hsound hown, fun t ht => ?_⟩
      have ht' : m.Created t := by
        rw [Machine.Created, hstack] at ht
        exact ht
      refine ⟨.inl ht', (hctx t ht').2.trans ((hctx t ht').1.trans ?_)⟩
      rw [Move.own]
      split_ifs with hcur
      · rw [show m.contextOf t = ⟨m.reg, m.pc⟩ from if_pos hcur]
      · rfl

/-- The invariant holds in every state that a run from `main` goes through. -/
theorem sound_of_run {m₀ : Machine} {tr : List (Machine × Move)} (hp : L.Proper) (h₀ : m₀.Installed L)
    (hr : Run (Move.step L) (Move.Ok L) m₀ tr m) : m.Sound L :=
  hr.invariant h₀.sound fun _ _ _ h hok hs => (Move.step_sound hp h hok hs).1

/-- **Every task has the processor to itself.**  In every run from `main` through the launch, of code,
creations and traps in any order, through the text of the trap handler, the registers and the program
counter of each task are what its own moves have made of them: its creation, its code, and its own traps, of
which an `ecall` is skipped and an interrupt leaves no trace.  What other tasks do in between does not
show.  The runs meet `Move.Ok`: code, and handlers outside the kernel, leave `CURRENT_TCB_PTR`, `SCHED_READY`
and the saved frames of other tasks alone; a task that creates one has not been freed; the heap gives fresh
blocks; the launch comes once; and a trap finds room on the stack in use for its frame and, unless it is an
interrupt, for the calls of the handler. -/
theorem contexts_are_private {m₀ : Machine} {tr : List (Machine × Move)} (hp : L.Proper)
    (h₀ : m₀.Installed L) (hr : Run (Move.step L) (Move.Ok L) m₀ tr m) :
    m.Sound L ∧ ∀ t, m.Created t →
      m.contextOf t = tr.foldr (fun x c => x.2.own L x.1 t c) (m₀.contextOf t) := by
  induction hr with
  | start => exact ⟨h₀.sound, fun t _ => rfl⟩
  | next hr hok hs ih =>
      obtain ⟨hsound, hctx⟩ := ih
      obtain ⟨hsound', hstep⟩ := Move.step_sound hp hsound hok hs
      refine ⟨hsound', fun t ht => ?_⟩
      obtain ⟨hnew, heq⟩ := hstep t ht
      rw [heq, List.foldr_cons]
      rcases hnew with hold | hnew
      · rw [hctx t hold]
      · exact hnew _ _

end

/-! ### A memory map -/

/-- A region that holds no static. -/
theorem Layout.plain_of {L : Layout} {s : Region 32} (hsym : ∀ x, ¬ s.Holds (L.symbol x))
    (htcb : ∀ t, ¬ s.Holds (L.tcb t)) (hisr : s.Disjoint L.isrRegion) : L.Plain s := by
  refine ⟨fun a ha => Layout.loc_eq_ram (fun x he => hsym x ?_) fun t he => htcb t ?_, hisr⟩
  · rw [he]
    exact ha
  · rw [he]
    exact ha

/-- The statics and the stacks from `0x40800000` on. -/
def Layout.sample : Layout where
  symbol := fun
    | .schedReady => 0x40800000
    | .currentTcbPtr => 0x40800004
    | .isrStackTop => 0x40800008
  tcb := fun t => BitVec.ofNat 32 (0x40800100 + 128 * t.val)
  isrStack := 0x40801000
  taskStacks := 0x40803000
  mainStack := ⟨0x40807000, 0x1000⟩
  closureTrampoline := 0x42000010
  taskExitStub := 0x42000020
  symbol_injective := by
    intro s s' h
    cases s <;> cases s' <;> first | rfl | exact absurd h (by decide)
  tcb_injective := by decide
  tcb_ne_symbol := by
    intro t s
    cases s <;> revert t <;> decide

theorem Layout.proper_sample : Layout.sample.Proper := by
  have hsym : ∀ t x, ¬ (Layout.sample.stack t).Holds (Layout.sample.symbol x) := by
    intro t x
    cases x <;> revert t <;> decide
  have hmain : ∀ x, ¬ Layout.sample.mainStack.Holds (Layout.sample.symbol x) := by
    intro x
    cases x <;> decide
  refine ⟨by decide, fun t => plain_of (hsym t) ?_ ?_, fun t => ?_, plain_of hmain ?_ ?_⟩
  · revert t
    decide
  · exact Region.disjoint_of_le (by revert t; decide) (by revert t; decide)
  · exact Region.disjoint_of_le (by revert t; decide) (by revert t; decide)
  · decide
  · exact Region.disjoint_of_le (by decide) (by decide)

/-- `main` right after `install_trap_handler`. -/
def Machine.sample : Machine where
  reg := fun r => if r = .sp then 0x40807F00 else 7
  pc := 0x42000000
  mepc := 0
  mcause := 0
  mstatus := 0x1888
  mode := 3
  ram := fun _ => 0
  sp := fun _ => 0
  stack := fun _ => none
  isrStackTop := 0x40803000
  globals := ⟨.boot, ⟨0, 0, 0, 0, 0, 0, 0, ⟨0, 0⟩, ⟨0, 0⟩, 0⟩, false, false, 0, 0, 0⟩

/-- Calls that need 64 bytes of stack and leave nothing as it was. -/
def Surroundings.sample : Surroundings where
  outside := ⟨⟨0, 16000⟩, fun _ g => g⟩
  clobbered := fun _ _ => 0xBAD
  depth := fun _ => 64
  spilled := fun _ _ => 0xDEAD

theorem Machine.installed_sample : Machine.sample.Installed Layout.sample := ⟨rfl, fun _ => rfl, rfl, rfl⟩

instance (s : Region 32) (sp : BitVec 32) (n : ℕ) : Decidable (HasRoom s sp n) :=
  decidable_of_iff (sp &&& 3 = 0 ∧ n ≤ (sp - s.base).toNat ∧ (sp - s.base).toNat ≤ s.len)
    ⟨fun h => ⟨h.1, h.2.1, h.2.2⟩, fun h => ⟨h.aligned, h.room, h.inside⟩⟩

/-- Moves with these surroundings. -/
inductive SampleMove where
  | create (priority : ℕ) (name : String)
  | launch
  | trap (slot : Fin 32) (cause : BitVec 32)

namespace SampleMove

def move : SampleMove → Move
  | .create priority name => .create priority name
  | .launch => .launch .sample
  | .trap slot cause => .trap slot cause .sample

/-- Creations come before the launch here, and a trap needs 192 bytes of stack. -/
def check (m : Machine) : SampleMove → Bool
  | .create _ _ => m.kernel.currentTcbPtr.isNone
  | .launch => !m.kernel.schedReady
  | .trap _ _ => (m.stackInUse .sample).all fun s => HasRoom s (m.reg .sp) 192

theorem ok_of_check {m : Machine} {a : SampleMove} (h : a.check m = true) : a.move.Ok .sample m := by
  cases a with
  | create priority name =>
      intro c hc
      rw [check, hc] at h
      cases h
  | launch =>
      show m.kernel.schedReady = false
      rwa [check, Bool.not_eq_true'] at h
  | trap slot cause =>
      refine ⟨fun code g hg => ⟨hg, rfl, rfl⟩, fun f => show 64 ≤ 8192 by decide, fun s hs f => ?_⟩
      rw [check, hs] at h
      have hroom : HasRoom s (m.reg .sp) 192 := of_decide_eq_true h
      have h192 := hroom.room
      refine ⟨hroom.aligned, ?_, hroom.inside⟩
      show 128 + (if cause.msb = true then 0 else 64) ≤ _
      split_ifs <;> omega

end SampleMove

/-- Two tasks, the launch, a systick, and a switch by an `ecall`: the first task is behind its `ecall`. -/
theorem contexts_are_private_run : ∃ tr m, Run (Move.step .sample) (Move.Ok .sample) .sample tr m ∧
    (m.kernel.currentTcbPtr = some 1 ∧ (m.contextOf 0).pc = 0x42000014) ∧
      m.contextOf 0 = tr.foldr (fun x c => x.2.own .sample x.1 0 c) (Machine.sample.contextOf 0) := by
  have hexec : (exec (fun m a => Move.step .sample m (SampleMove.move a)) SampleMove.check .sample
      [.create 3 "a", .create 3 "b", .launch, .trap 20 0x80000014, .trap 0 11]).any (fun m =>
        (m.stack 0).isSome && (m.kernel.currentTcbPtr = some 1 && (m.contextOf 0).pc = 0x42000014)) =
      true := by
    decide +kernel
  obtain ⟨tr, m, hr, hm⟩ := exists_run_of_exec (fun _ _ h => SampleMove.ok_of_check h) hexec
  simp only [Bool.and_eq_true, decide_eq_true_eq] at hm
  obtain ⟨-, hctx⟩ := contexts_are_private Layout.proper_sample Machine.installed_sample hr.map
  exact ⟨_, m, hr.map, hm.2, hctx 0 hm.1⟩

end MosKernel
