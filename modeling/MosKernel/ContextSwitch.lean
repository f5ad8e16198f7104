import MosKernel.Hart

/-!
# What the trap handler does

The text of `Hart` run block by block.  `Machine.handle` says in one definition what the whole handler
does with the frame, the stacks and the kernel, and `runText_eq_handle` that the text does this.
-/

namespace MosKernel

open ForwardCode SaveArea

/-! ### Addresses -/

theorem find?_injective {α β : Type*} [DecidableEq β] {f : α → β} (hf : Function.Injective f) {l : List α}
    {x : α} (hx : x ∈ l) : l.find? (fun y => f y = f x) = some x := by
  induction l with
  | nil => cases hx
  | cons y l ih =>
      by_cases hy : f y = f x
      · rw [List.find?_cons, decide_eq_true hy, hf hy]
      · rw [List.find?_cons, decide_eq_false hy]
        refine ih ((List.mem_cons.mp hx).resolve_left fun h => hy ?_)
        rw [h]

namespace Layout

variable {L : Layout}

theorem loc_symbol (s : Symbol) : L.loc (L.symbol s) = .symbol s := by
  have hmem : s ∈ [Symbol.schedReady, .currentTcbPtr, .isrStackTop] := by
    cases s <;> simp
  rw [loc, find?_injective L.symbol_injective hmem]

theorem loc_tcb (t : Tid) : L.loc (L.tcb t) = .sp t := by
  have hnone : [Symbol.schedReady, .currentTcbPtr, .isrStackTop].find?
      (fun s => L.symbol s = L.tcb t) = none := by
    rw [List.find?_eq_none]
    intro s _
    simpa using (L.tcb_ne_symbol t s).symm
  rw [loc, hnone]
  dsimp only
  rw [find?_injective L.tcb_injective (List.mem_finRange t)]

/-- Everything that is no static is plain memory. -/
theorem loc_eq_ram {a : BitVec 32} (hs : ∀ s, L.symbol s ≠ a) (ht : ∀ t, L.tcb t ≠ a) :
    L.loc a = .ram := by
  have hsym : [Symbol.schedReady, .currentTcbPtr, .isrStackTop].find? (fun s => L.symbol s = a) = none := by
    rw [List.find?_eq_none]
    intro s _
    simpa using hs s
  have htcb : (List.finRange taskMax).find? (fun t => L.tcb t = a) = none := by
    rw [List.find?_eq_none]
    intro t _
    simpa using ht t
  rw [loc, hsym]
  dsimp only
  rw [htcb]

end Layout

/-- The addresses of the registers in the frame at `f`. -/
def frameTable (f : BitVec 32) : List (Reg × BitVec 32) := savedRegs.map fun p => (p.1, f + p.2)

/-- The words of the frame at `f` are plain memory. -/
def Layout.FrameOk (L : Layout) (f : BitVec 32) : Prop :=
  ∀ i < contextWords, L.IsRam (f + BitVec.ofNat 32 (4 * i))

/-- The registers are between the words `mepc` and `mstatus`. -/
theorem savedRegs_offset :
    ∀ p ∈ savedRegs, ∃ i < contextWords, p.2 = BitVec.ofNat 32 (4 * i) ∧ i ≠ 0 ∧ i ≠ 31 := by
  decide

theorem sp_not_mem_savedRegs : Reg.sp ∉ savedRegs.map Prod.fst := by decide

theorem map_fst_frameTable (f : BitVec 32) :
    (frameTable f).map Prod.fst = savedRegs.map Prod.fst := by
  rw [frameTable, List.map_map]
  rfl

theorem nodup_frameTable (f : BitVec 32) : ((frameTable f).map Prod.fst).Nodup := by
  rw [map_fst_frameTable]
  decide

/-- Every register but `sp` is in the frame. -/
theorem mem_frameTable_iff (f : BitVec 32) (r : Reg) :
    r ∈ (frameTable f).map Prod.fst ↔ r ≠ .sp := by
  rw [map_fst_frameTable]
  cases r <;> decide

theorem Layout.FrameOk.isRam {L : Layout} {f : BitVec 32} (h : L.FrameOk f) {p : Reg × BitVec 32}
    (hp : p ∈ savedRegs) : L.IsRam (f + p.2) := by
  obtain ⟨i, hi, he, -⟩ := savedRegs_offset p hp
  rw [he]
  exact h i hi

namespace Machine

variable {L : Layout} {e : Surroundings} {m : Machine} {a v f : BitVec 32}

/-! ### Loads and stores -/

theorem loadWord_symbol (s : Symbol) : m.loadWord L (L.symbol s) = some (m.symbolWord L s) := by
  rw [loadWord, Layout.loc_symbol]

theorem loadWord_tcb (t : Tid) : m.loadWord L (L.tcb t) = some (m.sp t) := by
  rw [loadWord, Layout.loc_tcb]

theorem loadWord_ram (h : L.IsRam a) : m.loadWord L a = some (m.ram a) := by
  rw [loadWord, h.1]
  exact if_pos h.2

theorem loadByte_schedReady :
    m.loadByte L (L.symbol .schedReady) = some (m.symbolWord L .schedReady) := by
  rw [loadByte, if_pos (Layout.loc_symbol _)]

theorem storeWord_tcb (t : Tid) :
    m.storeWord L (L.tcb t) v = some { m with sp := Function.update m.sp t v } := by
  rw [storeWord, Layout.loc_tcb]

theorem storeWord_ram (h : L.IsRam a) :
    m.storeWord L a v = some { m with ram := Function.update m.ram a v } := by
  rw [storeWord, h.1]
  exact if_pos h.2

/-! ### Blocks -/

section

variable (L e)

/-- Run the instructions of a block. -/
def runBlock (block : List Op) (m : Machine) : Option Machine :=
  block.foldlM (fun m i => i.exec L e m) m

/-- Run a piece of text. -/
def runText (code : List (Line Op Cond)) (m : Machine) : Option Machine :=
  run (Op.exec L e) Cond.test code none m

end

theorem runBlock_cons (i : Op) (block : List Op) :
    runBlock L e (i :: block) m = (i.exec L e m).bind (runBlock L e block) :=
  List.foldlM_cons ..

theorem runBlock_append (block block' : List Op) :
    runBlock L e (block ++ block') m = (runBlock L e block m).bind (runBlock L e block') :=
  List.foldlM_append ..

theorem runText_ops (block : List Op) (code : List (Line Op Cond)) :
    runText L e (ops block ++ code) m = (runBlock L e block m).bind (runText L e code) :=
  run_ops block m

theorem runText_label (n : ℕ) (code : List (Line Op Cond)) :
    runText L e (.label n :: code) m = runText L e code m := rfl

/-- A branch that is not taken. -/
theorem runText_branch_of_false {c : Cond} {n : ℕ} {code : List (Line Op Cond)} (h : c.test m = false) :
    runText L e (.branch c n :: code) m = runText L e code m := by
  rw [runText, run_branch, h]
  rfl

/-- A branch that is taken, over text without the label. -/
theorem runText_branch_of_true {c : Cond} {n : ℕ} {p code : List (Line Op Cond)}
    (h : c.test m = true) (hp : p.all fun l => !l.isLabel n) :
    runText L e (.branch c n :: (p ++ .label n :: code)) m = runText L e code m := by
  rw [runText, run_branch, h, if_pos rfl, run_skip hp, run_found]
  rfl

/-- A block of stores relative to `sp`. -/
theorem runBlock_stores {table : List (Reg × BitVec 32)} (h : ∀ p ∈ table, L.IsRam (m.reg .sp + p.2)) :
    runBlock L e (table.map fun p => .sw p.1 p.2 .sp) m =
      some { m with ram := save m.reg (table.map fun p => (p.1, m.reg .sp + p.2)) m.ram } := by
  induction table generalizing m with
  | nil => rfl
  | cons p table ih =>
      rw [List.forall_mem_cons] at h
      have hstep : (Op.sw p.1 p.2 .sp).exec L e m =
          some { m with ram := Function.update m.ram (m.reg .sp + p.2) (m.reg p.1) } :=
        storeWord_ram h.1
      rw [List.map_cons, runBlock_cons, hstep, Option.bind_some]
      exact ih h.2

/-- A block of loads relative to `sp`, which do not load `sp` itself. -/
theorem runBlock_loads {table : List (Reg × BitVec 32)} (hsp : Reg.sp ∉ table.map Prod.fst)
    (h : ∀ p ∈ table, L.IsRam (m.reg .sp + p.2)) :
    runBlock L e (table.map fun p => .lw p.1 p.2 .sp) m =
      some { m with reg := restore m.ram (table.map fun p => (p.1, m.reg .sp + p.2)) m.reg } := by
  induction table generalizing m with
  | nil => rfl
  | cons p table ih =>
      rw [List.forall_mem_cons] at h
      rw [List.map_cons, List.mem_cons, not_or] at hsp
      have hstep : (Op.lw p.1 p.2 .sp).exec L e m =
          some (m.setReg p.1 (m.ram (m.reg .sp + p.2))) := by
        show (m.loadWord L (m.reg .sp + p.2)).map (m.setReg p.1) = _
        rw [loadWord_ram h.1]
        rfl
      have hkeep : (m.setReg p.1 (m.ram (m.reg .sp + p.2))).reg .sp = m.reg .sp :=
        Function.update_of_ne hsp.1 _ _
      rw [List.map_cons, runBlock_cons, hstep, Option.bind_some]
      have htail := ih (m := m.setReg p.1 (m.ram (m.reg .sp + p.2))) hsp.2
        (by rw [hkeep]; exact h.2)
      rw [hkeep] at htail
      exact htail

/-! ### The steps of the handler -/

/-- The memory with the context of the interrupted code in the frame at `f`. -/
def pushed (m : Machine) (f : BitVec 32) : BitVec 32 → BitVec 32 :=
  Function.update (Function.update (save m.reg (frameTable f) m.ram) f m.mepc) (f + 124#32) m.mstatus

/-- `mret` from the frame at `f`. -/
def resumed (m : Machine) (f : BitVec 32) : Machine :=
  { m with
    reg := Function.update (restore m.ram (frameTable f) m.reg) .sp (f + 128)
    mepc := m.ram f
    mstatus := (m.ram (f + 124#32) ||| 0x80) &&& -9 }.mret

/-- A call has written to the stack below `top`. -/
def spill (m : Machine) (e : Surroundings) (c : Callee) (top : BitVec 32) : Machine :=
  { m with ram := fun a => if (below top (e.depth c)).Holds a then e.spilled c a else m.ram a }

/-- The second half of the handler, after the dispatch `r` with the stack pointer `top`. -/
def switch (m : Machine) (e : Surroundings) (f top ret : BitVec 32) : Option Machine :=
  if m.kernel.schedReady ∧ ret ≠ 0 then
    m.kernel.nextTcb.bind fun k =>
      let m := { m.spill e .nextTcb top with globals := { m.globals with kernel := k } }
      k.currentTcbPtr.map fun t => m.resumed (m.sp t)
  else some (m.resumed f)

/-- The fields `sp` with the frame at `f` in the current control block, once the scheduler runs. -/
def savedSp (m : Machine) (f : BitVec 32) : Tid → BitVec 32 :=
  match m.kernel.schedReady, m.kernel.currentTcbPtr with
  | true, some t => Function.update m.sp t f
  | _, _ => m.sp

/-- The whole handler. -/
def handle (m : Machine) (e : Surroundings) : Option Machine :=
  let f := m.reg .sp - 128
  let m := { m with ram := m.pushed f, sp := m.savedSp f }
  let top := if m.mcause.msb then m.isrStackTop else f
  let words := fun i => m.ram (f + BitVec.ofNat 32 (4 * i))
  (mosTrapDispatch e.outside m.mcause words m.globals).bind fun r =>
    let m := m.spill e .mosTrapDispatch top
    { m with ram := Function.update m.ram f r.mepc, globals := r.globals }.switch e f top r.ret

theorem runBlock_storeContext (h : L.FrameOk (m.reg .sp)) :
    runBlock L e storeContext m =
      some { m with ram := save m.reg (frameTable (m.reg .sp)) m.ram } :=
  runBlock_stores fun _ hp => h.isRam hp

theorem runBlock_loadContext (h : L.FrameOk (m.reg .sp)) :
    runBlock L e loadContext m =
      some { m with reg := restore m.ram (frameTable (m.reg .sp)) m.reg } :=
  runBlock_loads sp_not_mem_savedRegs fun _ hp => h.isRam hp

theorem isRam_frame (h : L.FrameOk f) : L.IsRam f ∧ L.IsRam (f + 124#32) := by
  have hzero := h 0 (by decide)
  rw [Nat.mul_zero, BitVec.add_zero] at hzero
  exact ⟨hzero, h 31 (by decide)⟩

/-- `mepc` and `mstatus` go to the ends of the frame. -/
theorem runBlock_storeCsrs (h : L.FrameOk (m.reg .sp)) :
    runBlock L e storeCsrs m =
      some { m with
        reg := Function.update m.reg .t0 (m.symbolWord L .schedReady)
        ram :=
          Function.update (Function.update m.ram (m.reg .sp) m.mepc) (m.reg .sp + 124#32) m.mstatus } := by
  obtain ⟨hzero, hlast⟩ := isRam_frame h
  simp [runBlock, storeCsrs, Op.exec, setReg, csr, storeWord_ram, hzero, hlast, loadByte_schedReady]
  rfl

/-- The context goes to the frame that `sp` points to. -/
theorem runBlock_storeFrame (h : L.FrameOk (m.reg .sp)) :
    runBlock L e (storeContext ++ storeCsrs) m =
      some { m with
        reg := Function.update m.reg .t0 (m.symbolWord L .schedReady)
        ram := m.pushed (m.reg .sp) } := by
  rw [runBlock_append, runBlock_storeContext h, Option.bind_some]
  exact runBlock_storeCsrs (m := { m with ram := save m.reg (frameTable (m.reg .sp)) m.ram }) h

/-- The frame does not hold `sp`. -/
theorem pushed_setReg_sp (m : Machine) (v f : BitVec 32) : (m.setReg .sp v).pushed f = m.pushed f := by
  have hsave : save (m.setReg .sp v).reg (frameTable f) m.ram = save m.reg (frameTable f) m.ram := by
    refine save_congr fun p hp => Function.update_of_ne ?_ _ _
    exact (mem_frameTable_iff f p.1).mp (List.mem_map_of_mem hp)
  unfold pushed
  rw [← hsave]
  rfl

/-- From the label `3`: a frame below the stack pointer. -/
theorem runBlock_saveContext (h : L.FrameOk (m.reg .sp - 128)) :
    ∃ reg, runBlock L e saveContext m =
        some { m with reg, ram := m.pushed (m.reg .sp - 128) } ∧
      reg .sp = m.reg .sp - 128 ∧ reg .t0 = m.symbolWord L .schedReady := by
  have hfirst : (Op.addi .sp .sp (-128)).exec L e m = some (m.setReg .sp (m.reg .sp - 128)) := by
    show some (m.setReg .sp (m.reg .sp + -128)) = _
    rw [← BitVec.sub_eq_add_neg]
  have hsp : (m.setReg .sp (m.reg .sp - 128)).reg .sp = m.reg .sp - 128 := by simp [setReg]
  have hframe := runBlock_storeFrame (e := e) (m := m.setReg .sp (m.reg .sp - 128)) (by rwa [hsp])
  rw [hsp, pushed_setReg_sp] at hframe
  refine ⟨_, ?_, ?_, Function.update_self _ _ (m.setReg .sp (m.reg .sp - 128)).reg⟩
  · rw [saveContext, runBlock_cons, hfirst, Option.bind_some]
    exact hframe
  · rw [Function.update_of_ne (by decide)]
    exact hsp

/-- `mstatus` and `mepc` come from the ends of the frame. -/
theorem runBlock_loadCsrs (h : L.FrameOk (m.reg .sp)) :
    runBlock L e [.lw .t0 124 .sp, .ori .t0 .t0 0x80, .andi .t0 .t0 (-9), .csrw .mstatus .t0,
        .lw .t0 0 .sp, .csrw .mepc .t0] m =
      some { m with
        reg := Function.update m.reg .t0 (m.ram (m.reg .sp))
        mepc := m.ram (m.reg .sp)
        mstatus := (m.ram (m.reg .sp + 124#32) ||| 0x80) &&& -9 } := by
  obtain ⟨hzero, hlast⟩ := isRam_frame h
  simp [runBlock, Op.exec, setReg, setCsr, loadWord_ram, hzero, hlast]

/-- From the label `2` on. -/
theorem runText_handlerResume (h : L.FrameOk (m.reg .sp)) :
    runText L e handlerResume m =
      some (m.resumed (m.reg .sp)) := by
  let m₁ : Machine := { m with
    reg := Function.update m.reg .t0 (m.ram (m.reg .sp))
    mepc := m.ram (m.reg .sp)
    mstatus := (m.ram (m.reg .sp + 124#32) ||| 0x80) &&& -9 }
  have hsp : m₁.reg .sp = m.reg .sp :=
    Function.update_of_ne (show Reg.sp ≠ .t0 by decide) (m.ram (m.reg .sp)) m.reg
  have hloads := runBlock_loadContext (e := e) (m := m₁) (by rwa [hsp])
  -- the register that carried the status words is loaded again
  have hreg : restore m₁.ram (frameTable (m.reg .sp)) m₁.reg =
      restore m.ram (frameTable (m.reg .sp)) m.reg := by
    refine restore_congr_reg (nodup_frameTable _) fun r hr => ?_
    rw [mem_frameTable_iff, not_not] at hr
    rw [hr, hsp]
  have hlast : restore m.ram (frameTable (m.reg .sp)) m.reg .sp = m.reg .sp :=
    restore_of_not_mem fun hmem => (mem_frameTable_iff _ _).mp hmem rfl
  have hfirst : runBlock L e [.lw .t0 124 .sp, .ori .t0 .t0 0x80, .andi .t0 .t0 (-9),
      .csrw .mstatus .t0, .lw .t0 0 .sp, .csrw .mepc .t0] m = some m₁ :=
    runBlock_loadCsrs h
  rw [hsp] at hloads
  rw [handlerResume, runText_ops, restoreContext, runBlock_append, runBlock_append, hfirst,
    Option.bind_some, hloads, hreg, Option.bind_some]
  show some (mret ({ m₁ with reg := restore m.ram (frameTable (m.reg .sp)) m.reg }.setReg .sp
    (restore m.ram (frameTable (m.reg .sp)) m.reg .sp + 128))) = _
  rw [hlast]
  rfl

/-- Whatever the registers held is gone. -/
theorem resumed_reg (m : Machine) (reg : Reg → BitVec 32) (f : BitVec 32) :
    { m with reg }.resumed f = m.resumed f := by
  have hreg : restore m.ram (frameTable f) reg = Function.update (restore m.ram (frameTable f) m.reg) .sp
      (reg .sp) := by
    funext r
    by_cases hr : r = .sp
    · rw [hr, Function.update_self, restore_of_not_mem fun hmem => (mem_frameTable_iff f _).mp hmem rfl]
    · obtain ⟨⟨r', a⟩, hmem, rfl⟩ := List.mem_map.mp ((mem_frameTable_iff f r).mpr hr)
      rw [Function.update_of_ne hr, restore_of_mem (nodup_frameTable f) hmem,
        restore_of_mem (nodup_frameTable f) hmem]
  unfold resumed
  dsimp only
  rw [hreg, Function.update_idem]

theorem switch_reg (m : Machine) (reg : Reg → BitVec 32) (f top ret : BitVec 32) :
    { m with reg }.switch e f top ret = m.switch e f top ret := by
  unfold switch
  refine if_congr Iff.rfl ?_ (congrArg some (resumed_reg m reg f))
  refine Option.bind_congr fun k _ => ?_
  dsimp only
  refine congrArg (fun g => Option.map g k.currentTcbPtr) (funext fun t => ?_)
  exact resumed_reg { m.spill e .nextTcb top with globals := { m.globals with kernel := k } } reg (m.sp t)

/-- The pointer to the current control block is loaded. -/
theorem runBlock_loadCurrent {t : Tid} (ht : m.kernel.currentTcbPtr = some t) :
    runBlock L e [.la .t0 .currentTcbPtr, .lw .t1 0 .t0] m =
      some ((m.setReg .t0 (L.symbol .currentTcbPtr)).setReg .t1 (L.tcb t)) := by
  have hword : (m.setReg .t0 (L.symbol .currentTcbPtr)).symbolWord L .currentTcbPtr = L.tcb t := by
    have hk : (m.setReg .t0 (L.symbol .currentTcbPtr)).kernel.currentTcbPtr = some t := ht
    rw [symbolWord, hk]
  simp [runBlock, Op.exec, setReg] at hword ⊢
  rw [loadWord_symbol]
  simp [hword]

/-- The stack pointer of the current task is loaded. -/
theorem runBlock_loadSp {t : Tid} (ht : m.kernel.currentTcbPtr = some t) :
    ∃ reg, runBlock L e [.la .t0 .currentTcbPtr, .lw .t1 0 .t0, .lw .sp 0 .t1] m =
      some { m with reg } ∧ reg .sp = m.sp t := by
  let m₁ := (m.setReg .t0 (L.symbol .currentTcbPtr)).setReg .t1 (L.tcb t)
  have hload : (Op.lw .sp 0 .t1).exec L e m₁ = some (m₁.setReg .sp (m.sp t)) := by
    simp [m₁, Op.exec, setReg, loadWord_tcb]
  refine ⟨_, ?_, Function.update_self Reg.sp (m.sp t) m₁.reg⟩
  show runBlock L e ([.la .t0 .currentTcbPtr, .lw .t1 0 .t0] ++ [.lw .sp 0 .t1]) m = _
  rw [runBlock_append, runBlock_loadCurrent ht, Option.bind_some, runBlock_cons]
  show ((Op.lw .sp 0 .t1).exec L e m₁).bind _ = _
  rw [hload]
  rfl

/-- The stack pointer goes to the control block of the current task. -/
theorem runBlock_storeSp {t : Tid} (ht : m.kernel.currentTcbPtr = some t) :
    ∃ reg, runBlock L e [.la .t0 .currentTcbPtr, .lw .t1 0 .t0, .sw .sp 0 .t1] m =
      some { m with reg, sp := Function.update m.sp t (m.reg .sp) } ∧ reg .sp = m.reg .sp := by
  let m₁ := (m.setReg .t0 (L.symbol .currentTcbPtr)).setReg .t1 (L.tcb t)
  have hstore : (Op.sw .sp 0 .t1).exec L e m₁ =
      some { m₁ with sp := Function.update m.sp t (m.reg .sp) } := by
    simp [m₁, Op.exec, setReg, storeWord_tcb]
  refine ⟨m₁.reg, ?_, by simp [m₁, setReg]⟩
  show runBlock L e ([.la .t0 .currentTcbPtr, .lw .t1 0 .t0] ++ [.sw .sp 0 .t1]) m = _
  rw [runBlock_append, runBlock_loadCurrent ht, Option.bind_some, runBlock_cons]
  show ((Op.sw .sp 0 .t1).exec L e m₁).bind _ = _
  rw [hstore]
  rfl

/-- `start_first_task` -/
theorem runText_startFirstTask {t : Tid} (ht : m.kernel.currentTcbPtr = some t) (h : L.FrameOk (m.sp t)) :
    runText L e startFirstTask m = some (m.resumed (m.sp t)) := by
  obtain ⟨reg, hload, hsp⟩ := runBlock_loadSp (L := L) (e := e) ht
  have hsplit : startFirstTask =
      ops [.la .t0 .currentTcbPtr, .lw .t1 0 .t0, .lw .sp 0 .t1] ++ handlerResume := by
    rw [startFirstTask, ops, List.map_append, List.append_assoc]
    rfl
  have hresume := runText_handlerResume (L := L) (e := e) (m := { m with reg })
    (show L.FrameOk (reg .sp) by rwa [hsp])
  rw [hsplit, runText_ops, hload, Option.bind_some, hresume]
  dsimp only
  rw [hsp]
  exact congrArg some (resumed_reg m reg (m.sp t))

/-- `beqz` on a register that holds `SCHED_READY`. -/
theorem test_schedReady {n : Machine} {r : Reg} (h : m.reg r = n.symbolWord L .schedReady) :
    (Cond.eqz r).test m = !n.kernel.schedReady := by
  rw [Cond.test, h, symbolWord]
  cases n.kernel.schedReady <;> rfl

/-- From the label `8`. -/
theorem runText_back (h : L.FrameOk (m.reg .s0)) :
    runText L e (ops [.mv .sp .s0] ++ .label 2 :: handlerResume) m = some (m.resumed (m.reg .s0)) := by
  have hsp : (m.setReg .sp (m.reg .s0)).reg .sp = m.reg .s0 := by simp [setReg]
  have hmv : runBlock L e [.mv .sp .s0] m = some (m.setReg .sp (m.reg .s0)) :=
    rfl
  rw [runText_ops, hmv, Option.bind_some, runText_label, runText_handlerResume (by rwa [hsp]), hsp]
  exact congrArg some (resumed_reg m _ _)

/-- The switch. -/
theorem runText_handlerSwitch (h : ∀ k, m.kernel.nextTcb = some k →
      ∃ t, k.currentTcbPtr = some t ∧ L.FrameOk (m.sp t)) :
    runText L e handlerSwitch m =
      m.kernel.nextTcb.bind fun k =>
        let m' := { m.spill e .nextTcb (m.reg .sp) with globals := { m.globals with kernel := k } }
        k.currentTcbPtr.map fun t => m'.resumed (m.sp t) := by
  rw [handlerSwitch, runText_ops, runBlock_cons]
  cases hk : m.kernel.nextTcb with
  | none =>
      have hcall : (Op.call .nextTcb).exec L e m = none := by
        show m.kernel.nextTcb.map _ = none
        rw [hk]
        rfl
      rw [hcall]
      rfl
  | some k =>
      obtain ⟨t, ht, hframe⟩ := h k hk
      let m₁ : Machine := { m.returned e .nextTcb with globals := { m.globals with kernel := k } }
      have hcall : (Op.call .nextTcb).exec L e m = some m₁ := by
        show m.kernel.nextTcb.map _ = _
        rw [hk]
        rfl
      obtain ⟨reg, hload, hsp⟩ := runBlock_loadSp (L := L) (e := e) (m := m₁) ht
      have hbranch : runText L e (.branch .always 2 :: .label 8 ::
          (ops [.mv .sp .s0] ++ .label 2 :: handlerResume)) { m₁ with reg } =
          runText L e handlerResume { m₁ with reg } :=
        runText_branch_of_true (p := .label 8 :: ops [.mv .sp .s0]) rfl rfl
      have hresume := runText_handlerResume (L := L) (e := e) (m := { m₁ with reg })
        (show L.FrameOk (reg .sp) by rwa [hsp])
      rw [hcall, Option.bind_some, hload, Option.bind_some, hbranch, hresume,
        Option.bind_some]
      dsimp only
      rw [ht, Option.map_some, hsp]
      exact congrArg some (resumed_reg { m.spill e .nextTcb (m.reg .sp) with
        globals := { m.globals with kernel := k } } reg (m.sp t))

/-- From the label `1`: the register `s0` keeps the frame, and `sp` is the stack for the dispatch. -/
theorem runText_handlerStack (m : Machine) :
    ∃ reg, runText L e handlerStack m = runText L e handlerDispatch { m with reg } ∧
      reg .s0 = m.reg .sp ∧ reg .a0 = m.mcause ∧
      reg .sp = if m.mcause.msb then m.isrStackTop else m.reg .sp := by
  let m₁ := (m.setReg .s0 (m.reg .sp)).setReg .a0 m.mcause
  have hfirst : runBlock L e [.mv .s0 .sp, .csrr .a0 .mcause] m = some m₁ := rfl
  have ha0 : m₁.reg .a0 = m.mcause := by simp [m₁, setReg]
  have hs0 : m₁.reg .s0 = m.reg .sp := by simp [m₁, setReg]
  have hsp : m₁.reg .sp = m.reg .sp := by simp [m₁, setReg]
  rw [handlerStack, runText_ops, hfirst, Option.bind_some]
  cases hmsb : m.mcause.msb with
  | false =>
      have htest : (Cond.gez .a0).test m₁ = true := by
        rw [Cond.test, ha0, hmsb]
        rfl
      exact ⟨m₁.reg, runText_branch_of_true htest rfl, hs0, ha0, hsp⟩
  | true =>
      have htest : (Cond.gez .a0).test m₁ = false := by
        rw [Cond.test, ha0, hmsb]
        rfl
      let m₂ := (m₁.setReg .t0 (L.symbol .isrStackTop)).setReg .sp m.isrStackTop
      have hblock : runBlock L e [.la .t0 .isrStackTop, .lw .sp 0 .t0] m₁ = some m₂ := by
        simp [runBlock, Op.exec, m₁, m₂, setReg, loadWord_symbol, symbolWord]
      rw [runText_branch_of_false htest, runText_ops, hblock, Option.bind_some, runText_label]
      refine ⟨m₂.reg, rfl, ?_, ?_, ?_⟩
      · simp [m₁, m₂, setReg]
      · simp [m₁, m₂, setReg]
      · simp [m₂, setReg]

/-- From the label `3`. -/
theorem runText_handlerSave (h : L.FrameOk (m.reg .sp - 128))
    (hcur : m.kernel.schedReady = true → ∃ t, m.kernel.currentTcbPtr = some t) :
    ∃ reg, runText L e handlerSave m = runText L e handlerStack { m with
        reg
        ram := m.pushed (m.reg .sp - 128)
        sp := m.savedSp (m.reg .sp - 128) } ∧
      reg .sp = m.reg .sp - 128 := by
  obtain ⟨reg, hblock, hsp, ht0⟩ := runBlock_saveContext (e := e) h
  rw [handlerSave, runText_ops, hblock, Option.bind_some]
  cases hready : m.kernel.schedReady with
  | false =>
      have htest : (Cond.eqz .t0).test { m with reg, ram := m.pushed (m.reg .sp - 128) } = true := by
        rw [test_schedReady (L := L) (n := m) ht0, hready]
        rfl
      have hsaved : m.savedSp (m.reg .sp - 128) = m.sp := by
        rw [savedSp, hready]
      rw [hsaved]
      exact ⟨reg, runText_branch_of_true htest rfl, hsp⟩
  | true =>
      obtain ⟨t, ht⟩ := hcur hready
      have htest : (Cond.eqz .t0).test { m with reg, ram := m.pushed (m.reg .sp - 128) } = false := by
        rw [test_schedReady (L := L) (n := m) ht0, hready]
        rfl
      obtain ⟨reg', hstore, hsp'⟩ := runBlock_storeSp (L := L) (e := e)
        (m := { m with reg, ram := m.pushed (m.reg .sp - 128) }) ht
      have hsaved : m.savedSp (m.reg .sp - 128) = Function.update m.sp t (m.reg .sp - 128) := by
        rw [savedSp, hready, ht]
      rw [runText_branch_of_false htest, runText_ops, hstore, Option.bind_some, runText_label, hsaved]
      refine ⟨reg', ?_, hsp'.trans hsp⟩
      dsimp only
      rw [hsp]

/-- After the dispatch: `s0` holds the frame, `a0` the result and `t0` the value of `SCHED_READY`. -/
theorem runText_decide (hframe : L.FrameOk (m.reg .s0))
    (ht0 : m.reg .t0 = m.symbolWord L .schedReady)
    (hnext : ∀ k, m.kernel.nextTcb = some k → ∃ t, k.currentTcbPtr = some t ∧ L.FrameOk (m.sp t)) :
    runText L e (.branch (.eqz .t0) 8 :: .branch (.eqz .a0) 8 :: handlerSwitch) m =
      m.switch e (m.reg .s0) (m.reg .sp) (m.reg .a0) := by
  have hsplit : handlerSwitch = (ops [.call .nextTcb, .la .t0 .currentTcbPtr, .lw .t1 0 .t0,
      .lw .sp 0 .t1] ++ [.branch .always 2]) ++ .label 8 ::
        (ops [.mv .sp .s0] ++ .label 2 :: handlerResume) := rfl
  have hready := test_schedReady (L := L) (n := m) ht0
  rw [switch]
  cases hr : m.kernel.schedReady with
  | false =>
      rw [hr] at hready
      rw [if_neg (fun h => Bool.false_ne_true h.1), hsplit]
      exact (runText_branch_of_true
        (p := .branch (.eqz .a0) 8 :: (ops [.call .nextTcb, .la .t0 .currentTcbPtr, .lw .t1 0 .t0,
          .lw .sp 0 .t1] ++ [.branch .always 2])) hready rfl).trans (runText_back hframe)
  | true =>
      rw [hr] at hready
      rw [runText_branch_of_false hready]
      by_cases ha0 : m.reg .a0 = 0
      · have htest : (Cond.eqz .a0).test m = true := decide_eq_true ha0
        rw [if_neg (fun h => h.2 ha0), hsplit, runText_branch_of_true htest rfl, runText_back hframe]
      · have htest : (Cond.eqz .a0).test m = false := decide_eq_false ha0
        rw [if_pos ⟨rfl, ha0⟩, runText_branch_of_false htest, runText_handlerSwitch hnext]
        rfl

/-- From the label `6`. -/
theorem runText_handlerDispatch (hframe : L.FrameOk (m.reg .s0))
    (hnext : ∀ r k, mosTrapDispatch e.outside (m.reg .a0)
        (fun i => m.ram (m.reg .s0 + BitVec.ofNat 32 (4 * i))) m.globals = some r →
      r.globals.kernel.nextTcb = some k → ∃ t, k.currentTcbPtr = some t ∧ L.FrameOk (m.sp t)) :
    runText L e handlerDispatch m =
      (mosTrapDispatch e.outside (m.reg .a0)
          (fun i => m.ram (m.reg .s0 + BitVec.ofNat 32 (4 * i))) m.globals).bind fun r =>
        let m' := m.spill e .mosTrapDispatch (m.reg .sp)
        { m' with ram := Function.update m'.ram (m.reg .s0) r.mepc, globals := r.globals }.switch e
          (m.reg .s0) (m.reg .sp) r.ret := by
  let m₁ := m.setReg .a1 (m.reg .s0)
  have hmv : (Op.mv .a1 .s0).exec L e m = some m₁ := rfl
  have ha1 : m₁.reg .a1 = m.reg .s0 := by simp [m₁, setReg]
  have ha0 : m₁.reg .a0 = m.reg .a0 := by simp [m₁, setReg]
  have hcall : (Op.call .mosTrapDispatch).exec L e m₁ = (mosTrapDispatch e.outside (m.reg .a0)
      (fun i => m.ram (m.reg .s0 + BitVec.ofNat 32 (4 * i))) m.globals).map fun r =>
        let m' := m₁.returned e .mosTrapDispatch
        { m' with ram := Function.update m'.ram (m.reg .s0) r.mepc, globals := r.globals }.setReg .a0
          r.ret := by
    rw [← ha1, ← ha0]
    rfl
  rw [handlerDispatch, runText_ops, runBlock_cons, hmv, Option.bind_some, runBlock_cons, hcall]
  cases hr : mosTrapDispatch e.outside (m.reg .a0)
      (fun i => m.ram (m.reg .s0 + BitVec.ofNat 32 (4 * i))) m.globals with
  | none => rfl
  | some r =>
      let m₂ := { m₁.returned e .mosTrapDispatch with
        ram := Function.update (m₁.returned e .mosTrapDispatch).ram (m.reg .s0) r.mepc
        globals := r.globals }.setReg .a0 r.ret
      let m₃ := (m₂.setReg .t0 (L.symbol .schedReady)).setReg .t0 (m₂.symbolWord L .schedReady)
      have hblock : runBlock L e [.la .t0 .schedReady, .lbu .t0 0 .t0] m₂ = some m₃ := by
        simp [runBlock, Op.exec, m₃, setReg, loadByte_schedReady, symbolWord]
      have hs0 : m₃.reg .s0 = m.reg .s0 := by simp [m₃, m₂, m₁, setReg, returned, Reg.callerSaved]
      have hsp : m₃.reg .sp = m.reg .sp := by simp [m₃, m₂, m₁, setReg, returned, Reg.callerSaved]
      have ha0' : m₃.reg .a0 = r.ret := by simp [m₃, m₂, setReg]
      have ht0 : m₃.reg .t0 = m₃.symbolWord L .schedReady := by simp [m₃, setReg, symbolWord]
      have htext := runText_decide (L := L) (e := e) (m := m₃) (by rwa [hs0]) ht0
        (hnext r · hr)
      rw [hs0, hsp, ha0'] at htext
      show ((runBlock L e [.la .t0 .schedReady, .lbu .t0 0 .t0] m₂).bind _) = _
      rw [hblock, Option.bind_some, htext]
      have hspill : (m₁.returned e .mosTrapDispatch).ram =
          (m.spill e .mosTrapDispatch (m.reg .sp)).ram := by
        simp only [returned, spill, m₁, setReg, Function.update_of_ne (show Reg.sp ≠ .a1 by decide)]
      have hm₃ : m₃ = { { m.spill e .mosTrapDispatch (m.reg .sp) with
          ram := Function.update (m.spill e .mosTrapDispatch (m.reg .sp)).ram (m.reg .s0) r.mepc
          globals := r.globals } with reg := m₃.reg } := by
        rw [← hspill]
        rfl
      rw [hm₃, switch_reg, Option.bind_some]

/-- From any slot of the vector table the handler is reached. -/
theorem runText_mosTrapHandler (slot : ℕ) (hslot : slot < 32) (m : Machine) :
    runText L e (mosTrapHandler.drop slot) m = runText L e handlerSave m := by
  obtain ⟨n, hn⟩ : ∃ n, 32 - slot = n + 1 := ⟨31 - slot, by omega⟩
  have htext : (List.replicate n (.branch .always 3) : List (Line Op Cond)).all
      fun l => !l.isLabel 3 := by
    rw [List.all_replicate]
    split <;> rfl
  rw [mosTrapHandler, List.drop_append_of_le_length (by simpa using hslot.le), List.drop_replicate, hn,
    List.replicate_succ, List.cons_append]
  exact runText_branch_of_true rfl htext

/-- **The text does what `handle` says**: from any slot of the vector table, for any trap, in any state whose
frame fits and in which a task that is switched to has its frame in plain memory. -/
theorem runText_eq_handle (slot : ℕ) (hslot : slot < 32) (hframe : L.FrameOk (m.reg .sp - 128))
    (hcur : m.kernel.schedReady = true → ∃ t, m.kernel.currentTcbPtr = some t)
    (hnext : ∀ words r k, mosTrapDispatch e.outside m.mcause words m.globals = some r →
      r.globals.kernel.nextTcb = some k →
      ∃ t, k.currentTcbPtr = some t ∧ L.FrameOk (m.savedSp (m.reg .sp - 128) t)) :
    runText L e (mosTrapHandler.drop slot) m = m.handle e := by
  obtain ⟨reg, hsave, hsp⟩ := runText_handlerSave (e := e) hframe hcur
  obtain ⟨reg', hstack, hs0, ha0, hsp'⟩ := runText_handlerStack (L := L) (e := e) { m with
    reg
    ram := m.pushed (m.reg .sp - 128)
    sp := m.savedSp (m.reg .sp - 128) }
  replace hs0 : reg' .s0 = m.reg .sp - 128 := hs0.trans hsp
  replace hsp' : reg' .sp = if m.mcause.msb then m.isrStackTop else m.reg .sp - 128 := by
    rw [hsp', ← hsp]
  have hdispatch := runText_handlerDispatch (L := L) (e := e) (m := { m with
      reg := reg'
      ram := m.pushed (m.reg .sp - 128)
      sp := m.savedSp (m.reg .sp - 128) })
    (show L.FrameOk (reg' .s0) by rwa [hs0]) fun r k hr hk => by
      replace hr : mosTrapDispatch e.outside (reg' .a0) _ m.globals = some r := hr
      rw [ha0] at hr
      exact hnext _ r k hr hk
  rw [runText_mosTrapHandler slot hslot, hsave, hstack, hdispatch]
  dsimp only
  rw [hs0, ha0, hsp', handle]
  refine Option.bind_congr fun r _ => ?_
  exact switch_reg { ({ m with
      ram := m.pushed (m.reg .sp - 128)
      sp := m.savedSp (m.reg .sp - 128) } : Machine).spill e .mosTrapDispatch
        (if m.mcause.msb then m.isrStackTop else m.reg .sp - 128) with
    ram := _
    globals := r.globals } reg' _ _ _

/-! ### The frame -/

end Machine

/-- What code sees of the processor between traps. -/
structure Context where
  reg : Reg → BitVec 32
  pc : BitVec 32

/-- The context that the frame at `f` holds. -/
def frameContext (ram : BitVec 32 → BitVec 32) (f : BitVec 32) : Context where
  reg := Function.update (restore ram (frameTable f) fun _ => 0) .sp (f + 128)
  pc := ram f

/-- The bits `MPP` of a status word. -/
def mppOf (w : BitVec 32) : BitVec 2 := w.extractLsb' 11 2

/-- The frame at `f`, as a region. -/
def frameRegion (f : BitVec 32) : Region 32 := ⟨f, frameSize⟩

theorem add_holds_frame (f : BitVec 32) {n : ℕ} (hn : n < frameSize) :
    (frameRegion f).Holds (f + BitVec.ofNat 32 n) :=
  Region.holds_add (x := frameRegion f) hn

theorem holds_frame_of_mem {f a : BitVec 32} {r : Reg} (h : (r, a) ∈ frameTable f) :
    (frameRegion f).Holds a ∧ a ≠ f ∧ a ≠ f + 124#32 := by
  obtain ⟨⟨r', off⟩, hp, he⟩ := List.mem_map.mp h
  obtain ⟨rfl, rfl⟩ := Prod.mk.inj he
  obtain ⟨i, hi, hoff, h0, h31⟩ := savedRegs_offset _ hp
  have hlt : i < 32 := hi
  have hnat : (BitVec.ofNat 32 (4 * i)).toNat = 4 * i := by
    rw [BitVec.toNat_ofNat]
    omega
  dsimp only at hoff ⊢
  rw [hoff]
  refine ⟨add_holds_frame f (show 4 * i < 128 by omega), fun he => h0 ?_, fun he => h31 ?_⟩
  · rw [add_eq_left] at he
    have hz := congrArg BitVec.toNat he
    rw [hnat] at hz
    exact (Nat.mul_eq_zero.mp hz).resolve_left (by decide)
  · rw [BitVec.add_right_inj] at he
    have hz := congrArg BitVec.toNat he
    rw [hnat] at hz
    have h124 : 4 * i = 124 := hz
    omega

theorem nodup_frameTable_snd (f : BitVec 32) : ((frameTable f).map Prod.snd).Nodup := by
  have hnd : (savedRegs.map Prod.snd).Nodup := by decide
  rw [frameTable, List.map_map]
  have hmap := hnd.map (f := fun x => f + x) fun x y h => (BitVec.add_right_inj f).mp h
  rwa [List.map_map] at hmap

/-- The context is read off the frame alone. -/
theorem frameContext_congr {ram ram' : BitVec 32 → BitVec 32} {f : BitVec 32}
    (h : ∀ a, (frameRegion f).Holds a → ram a = ram' a) : frameContext ram f = frameContext ram' f := by
  have hrestore : restore ram (frameTable f) (fun _ => 0) = restore ram' (frameTable f) fun _ => 0 :=
    restore_congr fun p hp => h _ (holds_frame_of_mem hp).1
  have hpc : ram f = ram' f := by
    have hzero := add_holds_frame f (n := 0) (by decide)
    rw [BitVec.add_zero] at hzero
    exact h f hzero
  rw [frameContext, frameContext, hrestore, hpc]

namespace Machine

variable {L : Layout} {e : Surroundings} {m m' : Machine} {a f : BitVec 32}

theorem pushed_of_mem {r : Reg} (h : (r, a) ∈ frameTable f) : m.pushed f a = m.reg r := by
  obtain ⟨-, hne, hne'⟩ := holds_frame_of_mem h
  rw [pushed, Function.update_of_ne hne', Function.update_of_ne hne,
    save_of_mem (nodup_frameTable_snd f) h]

theorem pushed_mstatus (m : Machine) (f : BitVec 32) : m.pushed f (f + 124#32) = m.mstatus :=
  Function.update_self ..

theorem pushed_mepc (m : Machine) (f : BitVec 32) : m.pushed f f = m.mepc := by
  have hne : f ≠ f + 124#32 := by
    rw [Ne, left_eq_add]
    decide
  rw [pushed, Function.update_of_ne hne, Function.update_self]

theorem pushed_of_not_holds (h : ¬ (frameRegion f).Holds a) : m.pushed f a = m.ram a := by
  have hne : a ≠ f := by
    rintro rfl
    have hzero := add_holds_frame a (n := 0) (by decide)
    rw [BitVec.add_zero] at hzero
    exact h hzero
  have hne' : a ≠ f + 124#32 := by
    rintro rfl
    exact h (add_holds_frame f (n := 124) (by decide))
  rw [pushed, Function.update_of_ne hne', Function.update_of_ne hne]
  refine save_of_not_mem fun hmem => h ?_
  obtain ⟨⟨r, a⟩, hp, rfl⟩ := List.mem_map.mp hmem
  exact (holds_frame_of_mem hp).1

/-- The frame holds the context of the interrupted code, with a program counter of the dispatch's choice. -/
theorem frameContext_pushed (hsp : m.reg .sp = f + 128) {ram : BitVec 32 → BitVec 32}
    (h : ∀ a, (frameRegion f).Holds a → a ≠ f → ram a = m.pushed f a) :
    frameContext ram f = ⟨m.reg, ram f⟩ := by
  have hreg : Function.update (restore ram (frameTable f) fun _ => 0) .sp (f + 128) = m.reg := by
    funext r
    by_cases hr : r = .sp
    · rw [hr, Function.update_self, hsp]
    · obtain ⟨⟨r, a⟩, hmem, rfl⟩ := List.mem_map.mp ((mem_frameTable_iff f r).mpr hr)
      obtain ⟨hholds, hne, -⟩ := holds_frame_of_mem hmem
      rw [Function.update_of_ne hr, restore_of_mem (nodup_frameTable f) hmem, h a hholds hne,
        pushed_of_mem hmem]
  rw [frameContext, hreg]

theorem context_resumed (m : Machine) (f : BitVec 32) :
    (⟨(m.resumed f).reg, (m.resumed f).pc⟩ : Context) = frameContext m.ram f := by
  rw [← resumed_reg m fun _ => 0]
  rfl

/-- Memory that no call has for its stack. -/
theorem spill_ram {c : Callee} {top : BitVec 32} (h : ¬ (below top (e.depth c)).Holds a) :
    (m.spill e c top).ram a = m.ram a :=
  if_neg h

/-- What the second half of the handler has done: it has switched, or it has not. -/
theorem switch_eq_some {top ret : BitVec 32} (h : m.switch e f top ret = some m') :
    ∃ ram k g,
      m' = { m with ram, globals := { m.globals with kernel := k } }.resumed g ∧
      (∀ a, ¬ (below top (e.depth .nextTcb)).Holds a → ram a = m.ram a) ∧
      (¬ (m.kernel.schedReady ∧ ret ≠ 0) ∧ k = m.kernel ∧ g = f ∨
        (m.kernel.schedReady ∧ ret ≠ 0) ∧ m.kernel.nextTcb = some k ∧
          ∃ t, k.currentTcbPtr = some t ∧ g = m.sp t) := by
  unfold switch at h
  split_ifs at h with hyield
  · obtain ⟨k, hk, hs⟩ := Option.bind_eq_some_iff.mp h
    obtain ⟨t, ht, hm⟩ := Option.map_eq_some_iff.mp hs
    exact ⟨(m.spill e .nextTcb top).ram, k, m.sp t, hm.symm, fun a ha => spill_ram ha,
      .inr ⟨hyield, hk, t, ht, rfl⟩⟩
  · exact ⟨m.ram, m.kernel, f, (Option.some.inj h).symm, fun a _ => rfl, .inl ⟨hyield, rfl, rfl⟩⟩

/-- What the handler has done. -/
theorem handle_eq_some (h : m.handle e = some m') :
    ∃ r ram k g,
      mosTrapDispatch e.outside m.mcause
        (fun i => m.pushed (m.reg .sp - 128) (m.reg .sp - 128 + BitVec.ofNat 32 (4 * i))) m.globals =
          some r ∧
      m' = { m with
        ram
        sp := m.savedSp (m.reg .sp - 128)
        globals := { r.globals with kernel := k } }.resumed g ∧
      (∀ a, (∀ c, ¬ (below (if m.mcause.msb then m.isrStackTop else m.reg .sp - 128)
          (e.depth c)).Holds a) →
        ram a = Function.update (m.pushed (m.reg .sp - 128)) (m.reg .sp - 128) r.mepc a) ∧
      (¬ (r.globals.kernel.schedReady ∧ r.ret ≠ 0) ∧ k = r.globals.kernel ∧ g = m.reg .sp - 128 ∨
        (r.globals.kernel.schedReady ∧ r.ret ≠ 0) ∧ r.globals.kernel.nextTcb = some k ∧
          ∃ t, k.currentTcbPtr = some t ∧ g = m.savedSp (m.reg .sp - 128) t) := by
  obtain ⟨r, hr, hs⟩ := Option.bind_eq_some_iff.mp h
  obtain ⟨ram, k, g, hm, hram, hcases⟩ := switch_eq_some hs
  refine ⟨r, ram, k, g, hr, hm, fun a ha => ?_, hcases⟩
  rw [hram a (ha _)]
  dsimp only
  rw [Function.update_apply, Function.update_apply, spill_ram (ha _)]

end Machine

end MosKernel
