import MosKernel.Devices
import MosKernel.Passes

/-!
# Trap dispatch

`_mos_trap_dispatch` (`boards/esp32c6/src/trap.rs`): what a trap does before the assembly decides about a
context switch.  `Globals` holds the statics and the device registers it works on, `Outside` what it meets
outside the repository: the timer's counter and esp-hal's interrupt handlers, which may change anything.

The handler reads the words of the context frame and writes the first one, `mepc`; a fault it cannot
recover from ends in its `wfi` loop and is `none` here, without the printed diagnostics.
-/

namespace MosKernel

open Repairs Kernel

/-- The statics and the device registers. -/
structure Globals where
  kernel : Kernel
  devices : Devices
  yieldFromIsr : Bool
  inIsr : Bool
  trapIntCount : BitVec 32
  trapLastMcause : BitVec 32
  trapSystickCount : BitVec 32

/-- What a trap meets outside the repository. -/
structure Outside where
  /-- the counter of the system timer -/
  now : WordPair 32
  /-- `handle_interrupts` of esp-hal -/
  handleInterrupts : ℕ → Globals → Globals

/-- What `_mos_trap_dispatch` returns, the word `mepc` of the frame afterwards, and the globals. -/
structure Dispatched where
  ret : BitVec 32
  mepc : BitVec 32
  globals : Globals

/-- `is_esp_hal_cpu_int` -/
def isEspHalCpuInt (code : ℕ) : Bool := code = 1 ∨ code = 2 ∨ code = 5 ∨ code = 6 ∨ 9 ≤ code ∧ code ≤ 19

namespace Globals

/-- The systimer clock and the bit of the interrupt controller, as both foreign branches end. -/
def ensureSystick (g : Globals) : Globals :=
  { g with devices := g.devices.ensureSystimerClock.1.mendMxintEnable.1 }

/-- The branch for the systick interrupt: the value for `ret` and the globals. -/
def systickBranch (out : Outside) (g : Globals) : Option (BitVec 32 × Globals) :=
  let r := g.devices.systickIsr out.now
  (g.kernel.systickReplay r.2).map fun kr =>
    (if kr.2 then 1 else 0, { g with
      kernel := kr.1
      devices := r.1
      trapSystickCount := g.trapSystickCount + BitVec.ofNat 32 (1 + r.2) })

/-- The branch for the interrupts of esp-hal. -/
def espHalBranch (out : Outside) (code : ℕ) (g : Globals) : Globals :=
  (out.handleInterrupts code g).ensureSystick

/-- The branch for an unknown interrupt, which is disabled; `1 << code` shifts modulo 32. -/
def unknownBranch (code : ℕ) (g : Globals) : Globals :=
  { g with devices := { g.devices with
      mxintEnable := g.devices.mxintEnable &&& ~~~(1#32 <<< (code % 32)) } }.ensureSystick

/-- The interrupts. -/
def interrupt (out : Outside) (mcause : BitVec 32) (g : Globals) : Option (BitVec 32 × Globals) :=
  let code := (mcause &&& 0x7FFFFFFF).toNat
  let g := { g with inIsr := true, trapIntCount := g.trapIntCount + 1, trapLastMcause := mcause }
  let branch :=
    if code = systickCpuInt then g.systickBranch out
    else if isEspHalCpuInt code then some (0, g.espHalBranch out code)
    else some (0, g.unknownBranch code)
  branch.map fun r =>
    (if r.2.yieldFromIsr then 1 else r.1, { r.2 with yieldFromIsr := false, inIsr := false })

end Globals

/-- `_mos_trap_dispatch` for the words `frame` of the context frame. -/
def mosTrapDispatch (out : Outside) (mcause : BitVec 32) (frame : ℕ → BitVec 32) (g : Globals) :
    Option Dispatched :=
  let code := (mcause &&& 0x7FFFFFFF).toNat
  if mcause &&& 0x80000000 ≠ 0 then
    (g.interrupt out mcause).map fun r => ⟨r.1, frame 0, r.2⟩
  else if code = 11 then some ⟨1, frame 0 + 4, g⟩
  else if (code = 1 ∨ code = 2) ∧ frame 0 < 0x40000000 then some ⟨0, frame 1, g⟩
  else if code = 1 ∨ code = 2 ∨ code = 5 ∨ code = 7 then
    let r := g.devices.recoverPeripheralClocks (frame 0)
    if r.2 then some ⟨0, frame 0, { g with devices := r.1 }⟩ else none
  else none

/-! ### What a trap does -/

/-- Where the trapped code goes on: after an `ecall`, at its return address after a jump to nowhere, and
else where it was. -/
def resumePc (mcause pc ra : BitVec 32) : BitVec 32 :=
  let code := (mcause &&& 0x7FFFFFFF).toNat
  if mcause &&& 0x80000000 ≠ 0 then pc
  else if code = 11 then pc + 4
  else if (code = 1 ∨ code = 2) ∧ pc < 0x40000000 then ra
  else pc

/-- The code goes on where an interrupt came. -/
theorem resumePc_interrupt {mcause pc ra : BitVec 32} (h : mcause.msb = true) :
    resumePc mcause pc ra = pc := by
  have hne : mcause &&& 0x80000000 ≠ 0 := by
    intro he
    have hmsb := congrArg BitVec.msb he
    rw [BitVec.msb_and, h] at hmsb
    exact absurd hmsb (by decide)
  exact if_pos hne

variable {out : Outside} {mcause : BitVec 32} {frame : ℕ → BitVec 32} {g g' : Globals} {r : Dispatched}

/-- An exception that the dispatch returns from changes the devices only. -/
theorem mosTrapDispatch_exception (h : mosTrapDispatch out mcause frame g = some r)
    (hexc : mcause &&& 0x80000000 = 0) :
    r.ret = (if (mcause &&& 0x7FFFFFFF).toNat = 11 then 1 else 0) ∧
      r.mepc = resumePc mcause (frame 0) (frame 1) ∧
      (r.globals = g ∨
        r.globals = { g with devices := (g.devices.recoverPeripheralClocks (frame 0)).1 }) := by
  unfold mosTrapDispatch at h
  unfold resumePc
  rw [if_neg (not_not.mpr hexc)] at h ⊢
  dsimp only at h ⊢
  split_ifs at h ⊢ with h11 hra hfault hrec
  · cases h
    exact ⟨rfl, rfl, .inl rfl⟩
  · cases h
    exact ⟨rfl, rfl, .inl rfl⟩
  · cases h
    exact ⟨rfl, rfl, .inr rfl⟩

theorem mosTrapDispatch_interrupt (h : mosTrapDispatch out mcause frame g = some r)
    (hint : mcause &&& 0x80000000 ≠ 0) :
    g.interrupt out mcause = some (r.ret, r.globals) ∧ r.mepc = resumePc mcause (frame 0) (frame 1) := by
  unfold mosTrapDispatch at h
  unfold resumePc
  rw [if_pos hint] at h ⊢
  obtain ⟨p, hp, rfl⟩ := Option.map_eq_some_iff.mp h
  exact ⟨hp, rfl⟩

theorem mosTrapDispatch_mepc (h : mosTrapDispatch out mcause frame g = some r) :
    r.mepc = resumePc mcause (frame 0) (frame 1) := by
  by_cases hint : mcause &&& 0x80000000 = 0
  · exact (mosTrapDispatch_exception h hint).2.1
  · exact (mosTrapDispatch_interrupt h hint).2

/-! ### The kernel -/

namespace Kernel

variable {k k' : Kernel} {P : Tid → Prop}

theorem Within.onCpu {c : Tid} (h : k.Within P) (hc : k.currentTcbPtr = some c) : k.OnCpu c :=
  ⟨h.schedReady, hc, h.tid c (h.current c hc)⟩

/-- The bound of `Within`, also before the scheduler runs. -/
def Mentions (k : Kernel) (P : Tid → Prop) : Prop := ({ k with schedReady := true } : Kernel).Within P

theorem Mentions.within (h : k.Mentions P) (hr : k.schedReady = true) : k.Within P := by
  have hk : ({ k with schedReady := true } : Kernel) = k := by rw [← hr]
  rwa [Mentions, hk] at h

theorem Within.mentions (h : k.Within P) : k.Mentions P := by
  have hk : ({ k with schedReady := true } : Kernel) = k := by rw [← h.schedReady]
  rwa [Mentions, hk]

/-- The scheduler runs exactly if there is a running task. -/
def InPhase (k : Kernel) : Prop := k.schedReady = k.currentTcbPtr.isSome

/-- A tick before the scheduler runs. -/
theorem systickReplay_of_not_ready (hr : k.schedReady = false) (missed : ℕ) :
    k.systickReplay missed = some (k, false) := by
  have htick : k.systickTick = some (k, false) := by
    rw [systickTick, hr]
    rfl
  induction missed with
  | zero => exact htick
  | succ missed ih =>
      rw [systickReplay, ih]
      show (k.systickTick.bind fun r => some (r.1, false || r.2)) = _
      rw [htick]
      rfl

/-- What interrupts keep of the kernel. -/
structure Undisturbed (P : Tid → Prop) (k k' : Kernel) : Prop where
  mentions : k'.Mentions P
  current : k'.currentTcbPtr = k.currentTcbPtr
  schedReady : k'.schedReady = k.schedReady

theorem Mentions.systickReplay {missed : ℕ} {b : Bool} (h : k.Mentions P) (hp : k.InPhase)
    (hk : k.systickReplay missed = some (k', b)) : Undisturbed P k k' := by
  cases hr : k.schedReady with
  | false =>
      rw [systickReplay_of_not_ready hr] at hk
      cases hk
      exact ⟨h, rfl, rfl⟩
  | true =>
      obtain ⟨c, hc⟩ := Option.isSome_iff_exists.mp (hp.symm.trans hr)
      have hw := h.within hr
      suffices hkeep : k'.Within P ∧ k'.currentTcbPtr = some c from
        ⟨hkeep.1.mentions, hkeep.2.trans hc.symm, hkeep.1.schedReady.trans hr.symm⟩
      clear h hp hr
      induction missed generalizing k' b with
      | zero =>
          rw [Kernel.systickReplay] at hk
          have htick := hk
          rw [systickTick_ticked (hw.onCpu hc)] at hk
          cases hk
          exact ⟨hw.tick htick, hc⟩
      | succ missed ih =>
          obtain ⟨⟨k₁, b₁⟩, hk₁, hk⟩ := Option.bind_eq_some_iff.mp hk
          obtain ⟨⟨k₂, b₂⟩, hk₂, hk⟩ := Option.bind_eq_some_iff.mp hk
          cases hk
          obtain ⟨hw', hcur⟩ := ih hk₁
          have htick := hk₂
          rw [systickTick_ticked (hw'.onCpu hcur)] at hk₂
          cases hk₂
          exact ⟨hw'.tick htick, hcur⟩

end Kernel

/-- The interrupt handlers of esp-hal mention no new task and leave the running one running. -/
def Outside.Orderly (out : Outside) (P : Tid → Prop) : Prop :=
  ∀ code g, g.kernel.Mentions P → Undisturbed P g.kernel (out.handleInterrupts code g).kernel

namespace Globals

variable {P : Tid → Prop}

/-- The three branches of an interrupt, with the flags that the end of the dispatch looks at. -/
theorem interrupt_eq_some {p : BitVec 32 × Globals} (h : g.interrupt out mcause = some p) :
    ∃ q, (let code := (mcause &&& 0x7FFFFFFF).toNat
        let g := { g with inIsr := true, trapIntCount := g.trapIntCount + 1, trapLastMcause := mcause }
        if code = systickCpuInt then g.systickBranch out
        else if isEspHalCpuInt code then some (0, g.espHalBranch out code)
        else some (0, g.unknownBranch code)) = some q ∧
      p = (if q.2.yieldFromIsr then 1 else q.1, { q.2 with yieldFromIsr := false, inIsr := false }) := by
  obtain ⟨q, hq, rfl⟩ := Option.map_eq_some_iff.mp h
  exact ⟨q, hq, rfl⟩

theorem interrupt_kernel {p : BitVec 32 × Globals} (h : g.interrupt out mcause = some p)
    (hout : out.Orderly P) (hm : g.kernel.Mentions P) (hp : g.kernel.InPhase) :
    Undisturbed P g.kernel p.2.kernel := by
  obtain ⟨q, hq, rfl⟩ := interrupt_eq_some h
  dsimp only at hq ⊢
  split_ifs at hq
  · obtain ⟨⟨k, b⟩, hk, rfl⟩ := Option.map_eq_some_iff.mp hq
    exact hm.systickReplay hp hk
  · cases hq
    exact hout (mcause &&& 0x7FFFFFFF).toNat
      { g with inIsr := true, trapIntCount := g.trapIntCount + 1, trapLastMcause := mcause } hm
  · cases hq
    exact ⟨hm, rfl, rfl⟩

end Globals

/-- The dispatch mentions no new task and leaves the running one running. -/
theorem mosTrapDispatch_kernel {P : Tid → Prop} (h : mosTrapDispatch out mcause frame g = some r)
    (hout : out.Orderly P) (hm : g.kernel.Mentions P) (hp : g.kernel.InPhase) :
    Undisturbed P g.kernel r.globals.kernel := by
  by_cases hint : mcause &&& 0x80000000 = 0
  · rcases (mosTrapDispatch_exception h hint).2.2 with hg | hg
    · rw [hg]
      exact ⟨hm, rfl, rfl⟩
    · rw [hg]
      exact ⟨hm, rfl, rfl⟩
  · exact Globals.interrupt_kernel (mosTrapDispatch_interrupt h hint).1 hout hm hp

/-! ### The tick -/

/-- One trap: its surroundings, `mcause` and the context frame. -/
structure Trap where
  out : Outside
  mcause : BitVec 32
  frame : ℕ → BitVec 32

namespace Trap

/-- The interrupt or exception code. -/
def code (t : Trap) : ℕ := (t.mcause &&& 0x7FFFFFFF).toNat

/-- An interrupt of somebody else's. -/
def IsForeign (t : Trap) : Prop := t.mcause &&& 0x80000000 ≠ 0 ∧ t.code ≠ systickCpuInt

/-- An interrupt that esp-hal knows nothing of. -/
def IsUnknown (t : Trap) : Prop := t.IsForeign ∧ isEspHalCpuInt t.code = false

end Trap

namespace Globals

/-- Traps one after the other. -/
def traps (g : Globals) (l : List Trap) : Option Globals :=
  l.foldlM (fun g t => (mosTrapDispatch t.out t.mcause t.frame g).map Dispatched.globals) g

/-- The system timer runs and its interrupt is enabled. -/
structure TickOn (g : Globals) : Prop where
  systimer : g.devices.SystimerOn
  enabled : g.devices.mxintEnable &&& (1#32 <<< systickCpuInt) ≠ 0

theorem tickOn_ensureSystick (g : Globals) : g.ensureSystick.TickOn := by
  have hkeep : Keeps Devices.mendMxintEnable Devices.systimerClocks := keeps_mendIf fun _ => rfl
  exact ⟨(Devices.mends_ensureSystimerClock.mended g.devices).of_eq (hkeep _),
    Devices.mends_mendMxintEnable.mended _⟩

/-- The line of another interrupt stays as it is. -/
theorem ensureSystick_bit (g : Globals) {code : ℕ} (hcode : code ≠ systickCpuInt) :
    g.ensureSystick.devices.mxintEnable &&& (1#32 <<< code) = g.devices.mxintEnable &&& (1#32 <<< code) := by
  show (Devices.mendMxintEnable g.devices.ensureSystimerClock.1).1.mxintEnable &&& _ = _
  rw [← Devices.ensureSystimerClock_mxintEnable g.devices, Devices.mendMxintEnable, mendIf]
  split_ifs
  · exact BitMask.set_and_of_disjoint (BitMask.bit_and_bit hcode.symm)
  · rfl

/-- An interrupt of somebody else's leaves the tick on, whatever its handler does. -/
theorem interrupt_foreign {p : BitVec 32 × Globals} (h : g.interrupt out mcause = some p)
    (hcode : (mcause &&& 0x7FFFFFFF).toNat ≠ systickCpuInt) : p.2.TickOn := by
  obtain ⟨q, hq, rfl⟩ := interrupt_eq_some h
  dsimp only at hq
  rw [if_neg hcode] at hq
  split_ifs at hq
  · cases hq
    exact ⟨(tickOn_ensureSystick _).systimer, (tickOn_ensureSystick _).enabled⟩
  · cases hq
    exact ⟨(tickOn_ensureSystick _).systimer, (tickOn_ensureSystick _).enabled⟩

/-- The systick interrupt switches the clocks on and leaves the interrupt controller alone. -/
theorem interrupt_systick {p : BitVec 32 × Globals} (h : g.interrupt out mcause = some p)
    (hcode : (mcause &&& 0x7FFFFFFF).toNat = systickCpuInt) :
    p.2.devices.SystimerOn ∧ p.2.devices.mxintEnable = g.devices.mxintEnable := by
  obtain ⟨q, hq, rfl⟩ := interrupt_eq_some h
  dsimp only at hq
  rw [if_pos hcode] at hq
  obtain ⟨⟨k, b⟩, -, rfl⟩ := Option.map_eq_some_iff.mp hq
  obtain ⟨hon, -, -, hmx, -⟩ := Devices.systickIsr_spec g.devices out.now
  exact ⟨hon, hmx⟩

/-- An unknown interrupt is disabled, and all other lines but that of the systick stay as they are. -/
theorem interrupt_unknown {p : BitVec 32 × Globals} {code : ℕ} (h : g.interrupt out mcause = some p)
    (hne : (mcause &&& 0x7FFFFFFF).toNat ≠ systickCpuInt)
    (hesp : isEspHalCpuInt (mcause &&& 0x7FFFFFFF).toNat = false) (hcode : code ≠ systickCpuInt) :
    p.2.devices.mxintEnable &&& (1#32 <<< code) =
      if code = (mcause &&& 0x7FFFFFFF).toNat % 32 then 0#32
      else g.devices.mxintEnable &&& (1#32 <<< code) := by
  obtain ⟨q, hq, rfl⟩ := interrupt_eq_some h
  dsimp only at hq
  rw [if_neg hne, if_neg (Bool.eq_false_iff.mp hesp)] at hq
  cases hq
  refine (ensureSystick_bit _ hcode).trans ?_
  dsimp only
  split_ifs with heq
  · rw [heq]
    exact BitMask.clear_and_clear
  · exact BitMask.clear_and_of_disjoint (BitMask.bit_and_bit (Ne.symm heq))

theorem exception_devices (h : mosTrapDispatch out mcause frame g = some r)
    (hexc : mcause &&& 0x80000000 = 0) :
    (g.devices.SystimerOn → r.globals.devices.SystimerOn) ∧
      r.globals.devices.mxintEnable = g.devices.mxintEnable := by
  rcases (mosTrapDispatch_exception h hexc).2.2 with hg | hg
  · rw [hg]
    exact ⟨id, rfl⟩
  · rw [hg]
    exact ⟨fun _ => (Devices.recoverPeripheralClocks_spec _ _).1.systimer,
      Devices.recoverPeripheralClocks_mxintEnable _ _⟩

/-- No trap switches the tick off. -/
theorem TickOn.dispatch (hon : g.TickOn) (h : mosTrapDispatch out mcause frame g = some r) :
    r.globals.TickOn := by
  by_cases hexc : mcause &&& 0x80000000 = 0
  · obtain ⟨hsys, hmx⟩ := exception_devices h hexc
    refine ⟨hsys hon.systimer, ?_⟩
    rw [hmx]
    exact hon.enabled
  · obtain ⟨hi, -⟩ := mosTrapDispatch_interrupt h hexc
    by_cases hcode : (mcause &&& 0x7FFFFFFF).toNat = systickCpuInt
    · obtain ⟨hsys, hmx⟩ := interrupt_systick hi hcode
      refine ⟨hsys, ?_⟩
      rw [hmx]
      exact hon.enabled
    · exact interrupt_foreign hi hcode

theorem TickOn.traps {l : List Trap} (hon : g.TickOn) (h : g.traps l = some g') : g'.TickOn := by
  induction l generalizing g with
  | nil =>
      cases h
      exact hon
  | cons t l ih =>
      obtain ⟨g₁, hg₁, h⟩ := Option.bind_eq_some_iff.mp h
      obtain ⟨r, hr, rfl⟩ := Option.map_eq_some_iff.mp hg₁
      exact ih (hon.dispatch hr) h

/-- A line that is off stays off without the handlers of esp-hal. -/
theorem mxintEnable_traps {l : List Trap} {code : ℕ} (hcode : code ≠ systickCpuInt)
    (hoff : g.devices.mxintEnable &&& (1#32 <<< code) = 0#32) (hl : ∀ t ∈ l, t.IsForeign → t.IsUnknown)
    (h : g.traps l = some g') : g'.devices.mxintEnable &&& (1#32 <<< code) = 0#32 := by
  induction l generalizing g with
  | nil =>
      cases h
      exact hoff
  | cons t l ih =>
      obtain ⟨g₁, hg₁, h⟩ := Option.bind_eq_some_iff.mp h
      obtain ⟨r, hr, rfl⟩ := Option.map_eq_some_iff.mp hg₁
      rw [List.forall_mem_cons] at hl
      refine ih ?_ hl.2 h
      by_cases hexc : t.mcause &&& 0x80000000 = 0
      · rw [(exception_devices hr hexc).2]
        exact hoff
      · obtain ⟨hi, -⟩ := mosTrapDispatch_interrupt hr hexc
        by_cases htick : t.code = systickCpuInt
        · rw [(interrupt_systick hi htick).2]
          exact hoff
        · have hunknown := hl.1 ⟨hexc, htick⟩
          rw [interrupt_unknown hi htick hunknown.2 hcode, hoff, ite_self]

theorem traps_append {l l' : List Trap} (h : g.traps (l ++ l') = some g') :
    ∃ g₁, g.traps l = some g₁ ∧ g₁.traps l' = some g' := by
  rw [Globals.traps, List.foldlM_append] at h
  exact Option.bind_eq_some_iff.mp h

/-- **The tick survives every sequence of traps**: once it is on, or as soon as an interrupt of somebody
else's has come, it is on at the end, whatever the handlers of esp-hal have done to the registers in
between; and an unknown interrupt that has come is disabled at the end, unless a handler of esp-hal has run
after it, or its code is that of the systick modulo 32. -/
theorem traps_keep_tick (l : List Trap) (h : g.traps l = some g') :
    ((g.TickOn ∨ ∃ t ∈ l, t.IsForeign) → g'.TickOn) ∧
      ∀ pre t post, l = pre ++ t :: post → t.IsUnknown → t.code % 32 ≠ systickCpuInt →
        (∀ u ∈ post, u.IsForeign → u.IsUnknown) →
        g'.devices.mxintEnable &&& (1#32 <<< (t.code % 32)) = 0#32 := by
  have hsplit : ∀ pre t post, l = pre ++ t :: post → ∃ g₁ r,
      mosTrapDispatch t.out t.mcause t.frame g₁ = some r ∧ r.globals.traps post = some g' := by
    intro pre t post hl
    rw [hl] at h
    obtain ⟨g₁, -, h⟩ := traps_append h
    obtain ⟨g₂, hg₂, h⟩ := Option.bind_eq_some_iff.mp h
    obtain ⟨r, hr, rfl⟩ := Option.map_eq_some_iff.mp hg₂
    exact ⟨g₁, r, hr, h⟩
  constructor
  · rintro (hon | ⟨t, ht, hforeign⟩)
    · exact hon.traps h
    · obtain ⟨pre, post, hl⟩ := List.append_of_mem ht
      obtain ⟨g₁, r, hr, hpost⟩ := hsplit pre t post hl
      have hon : r.globals.TickOn :=
        interrupt_foreign (mosTrapDispatch_interrupt hr hforeign.1).1 hforeign.2
      exact hon.traps hpost
  · intro pre t post hl hunknown hline hpost
    obtain ⟨g₁, r, hr, htail⟩ := hsplit pre t post hl
    refine mxintEnable_traps hline ?_ hpost htail
    rw [interrupt_unknown (mosTrapDispatch_interrupt hr hunknown.1.1).1 hunknown.1.2 hunknown.2 hline]
    exact if_pos rfl

/-- A handler that clears every register, an unknown interrupt, and a systick. -/
theorem traps_keep_tick_run :
    let zero : Devices := ⟨0, 0, 0, 0, 0, 0, 0, ⟨0, 0⟩, ⟨0, 0⟩, 0⟩
    let out : Outside := ⟨⟨0, 16000⟩, fun _ g => { g with devices := zero }⟩
    let g : Globals := ⟨.boot, zero, false, false, 0, 0, 0⟩
    ∃ g', g.traps [⟨out, 0x80000001, fun _ => 0⟩, ⟨out, 0x8000001F, fun _ => 0⟩,
        ⟨out, 0x80000014, fun _ => 0⟩] = some g' ∧ g'.TickOn ∧ g'.devices.mxintEnable = 0x100000 := by
  intro zero out g
  have hsome : (g.traps [⟨out, 0x80000001, fun _ => 0⟩, ⟨out, 0x8000001F, fun _ => 0⟩,
      ⟨out, 0x80000014, fun _ => 0⟩]).isSome = true := by decide +kernel
  obtain ⟨g', hg'⟩ := Option.isSome_iff_exists.mp hsome
  have hbits : (g.traps [⟨out, 0x80000001, fun _ => 0⟩, ⟨out, 0x8000001F, fun _ => 0⟩,
      ⟨out, 0x80000014, fun _ => 0⟩]).all fun g' => g'.devices.mxintEnable = 0x100000 := by
    decide +kernel
  refine ⟨g', hg', (traps_keep_tick _ hg').1 (.inr ⟨_, List.mem_cons_self, by decide, by decide⟩), ?_⟩
  rw [hg'] at hbits
  exact of_decide_eq_true hbits

end Globals

end MosKernel
