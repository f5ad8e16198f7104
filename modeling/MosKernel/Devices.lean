import MosKernel.Lib.BitMask
import MosKernel.Lib.Repair
import MosKernel.Systimer
import Mathlib.Data.List.Chain

/-!
# The device registers

The register level of `boards/esp32c6/src/bsp.rs`: the clock gates in the PCR, the enable register of the
interrupt controller and the registers of the system timer.  Code outside the repository may leave any
values in them, so every function here is about all values.

`ensureSystimerClock`, `ensureSystickEnabled` and the first three steps of `recoverPeripheralClocks` are
repairs in the sense of `Lib/Repair`.  The clear registers only acknowledge an interrupt and the latch of
the counter is taken to be ready at once; `fence.i` has no effect on the state, `lastFencedMepc` records
it.
-/

namespace MosKernel

open Repairs

/-- `SYSTICK_CPU_INT` -/
abbrev systickCpuInt : ℕ := 20

/-- The registers, and `LAST_FENCED_MEPC`. -/
structure Devices where
  pcrSystimerConf : BitVec 32
  pcrSystimerFuncClk : BitVec 32
  pcrMspiConf : BitVec 32
  pcrCacheConf : BitVec 32
  mxintEnable : BitVec 32
  conf : BitVec 32
  intEna : BitVec 32
  /-- `TARGET0_HI` and `TARGET0_LO` as they were written last -/
  target0 : WordPair 32
  /-- `REAL_TARGET0_HI` and `REAL_TARGET0_LO`: what `COMP0_LOAD` has loaded last -/
  realTarget0 : WordPair 32
  lastFencedMepc : BitVec 32
  deriving DecidableEq

namespace Devices

/-! ### The registers one by one -/

/-- The write to `PCR_SYSTIMER_CONF`, unless the bus clock is on and not in reset. -/
def mendSystimerConf : Repair Devices :=
  mendIf (fun d => d.pcrSystimerConf &&& 0x1 = 0 ∨ d.pcrSystimerConf &&& 0x2 ≠ 0) fun d =>
    { d with pcrSystimerConf := (d.pcrSystimerConf ||| 0x1) &&& ~~~0x2 }

/-- The write to `PCR_SYSTIMER_FUNC_CLK`, unless the function clock is on. -/
def mendSystimerFuncClk : Repair Devices :=
  mendIf (fun d => d.pcrSystimerFuncClk &&& (1#32 <<< 22) = 0) fun d =>
    { d with pcrSystimerFuncClk := d.pcrSystimerFuncClk ||| (1#32 <<< 22) }

/-- The write to `PCR_MSPI_CONF`, unless both clocks are on and not in reset. -/
def mendMspiConf : Repair Devices :=
  mendIf (fun d => d.pcrMspiConf &&& 0x5 ≠ 0x5 ∨ d.pcrMspiConf &&& 0x2 ≠ 0) fun d =>
    { d with pcrMspiConf := (d.pcrMspiConf ||| 0x5) &&& ~~~0x2 }

/-- The write to `PCR_CACHE_CONF`, unless the clock is on and not in reset. -/
def mendCacheConf : Repair Devices :=
  mendIf (fun d => d.pcrCacheConf &&& 0x1 = 0 ∨ d.pcrCacheConf &&& 0x2 ≠ 0) fun d =>
    { d with pcrCacheConf := (d.pcrCacheConf ||| 0x1) &&& ~~~0x2 }

/-- The write to `MXINT_ENABLE`, unless the systick interrupt is enabled. -/
def mendMxintEnable : Repair Devices :=
  mendIf (fun d => d.mxintEnable &&& (1#32 <<< systickCpuInt) = 0) fun d =>
    { d with mxintEnable := d.mxintEnable ||| (1#32 <<< systickCpuInt) }

/-- The write to `INT_ENA`, unless the interrupt of target 0 is enabled. -/
def mendIntEna : Repair Devices :=
  mendIf (fun d => d.intEna &&& 0x1 = 0) fun d => { d with intEna := d.intEna ||| 0x1 }

/-- `COMP0_LOAD` -/
def comp0Load (d : Devices) : Devices := { d with realTarget0 := d.target0 }

/-- The target `t`, loaded into the comparator of target 0, which is switched on. -/
def startAlarm (t : WordPair 32) (d : Devices) : Devices :=
  let d := { d with target0 := t }.comp0Load
  { d with conf := d.conf ||| (1#32 <<< 24) }

@[simp] theorem startAlarm_intEna (t : WordPair 32) (d : Devices) :
    (startAlarm t d).intEna = d.intEna := rfl

@[simp] theorem startAlarm_mxintEnable (t : WordPair 32) (d : Devices) :
    (startAlarm t d).mxintEnable = d.mxintEnable := rfl

@[simp] theorem startAlarm_realTarget0 (t : WordPair 32) (d : Devices) :
    (startAlarm t d).realTarget0 = t := rfl

/-- A new alarm one period after the counter `now`, unless the comparator of target 0 works. -/
def mendConf (now : WordPair 32) : Repair Devices :=
  mendIf (fun d => d.conf &&& (1#32 <<< 24) = 0) (startAlarm (nextAlarm now))

/-! ### The functions of `bsp.rs` -/

/-- `ensure_systimer_clock` -/
def ensureSystimerClock : Repair Devices := andThen mendSystimerConf mendSystimerFuncClk

/-- The repair that `ensure_systick_enabled` makes, without its last instruction. -/
def mendSystick (now : WordPair 32) : Repair Devices :=
  andThen ensureSystimerClock (andThen mendMxintEnable (andThen mendIntEna (mendConf now)))

/-- `ensure_systick_enabled` when the counter reads `now`, for the registers and `mstatus`; its last
instruction sets the bit `MIE`. -/
def ensureSystickEnabled (now : WordPair 32) (s : Devices × BitVec 32) : (Devices × BitVec 32) × Bool :=
  let r := mendSystick now s.1
  ((r.1, s.2 ||| 0x8), r.2)

/-- `systick_isr` when the counter reads `now`: the registers and the number of missed periods. -/
def systickIsr (d : Devices) (now : WordPair 32) : Devices × ℕ :=
  let d := d.ensureSystimerClock.1
  let d := { d with conf := d.conf &&& ~~~(1#32 <<< 24) }
  let r := MosKernel.systickIsr d.realTarget0 now
  let d := d.startAlarm r.1
  ({ d with intEna := d.intEna ||| 0x1 }, r.2)

/-- The clocks that `recover_peripheral_clocks` repairs. -/
def mendClocks : Repair Devices := andThen ensureSystimerClock (andThen mendMspiConf mendCacheConf)

/-- `in_flash` -/
def inFlash (mepc : BitVec 32) : Bool := mepc ≥ 0x42000000 ∧ mepc < 0x44000000

/-- `recover_peripheral_clocks` -/
def recoverPeripheralClocks (mepc : BitVec 32) (d : Devices) : Devices × Bool :=
  let r := mendClocks d
  if r.2 then ({ r.1 with lastFencedMepc := mepc }, true)
  else if inFlash mepc ∧ r.1.lastFencedMepc ≠ mepc then
    ({ r.1 with lastFencedMepc := mepc }, true)
  else (r.1, false)

/-! ### What is repaired -/

/-- The bus clock and the function clock of the system timer are on. -/
structure SystimerOn (d : Devices) : Prop where
  busClock : d.pcrSystimerConf &&& 0x1 ≠ 0
  noReset : d.pcrSystimerConf &&& 0x2 = 0
  funcClock : d.pcrSystimerFuncClk &&& (1#32 <<< 22) ≠ 0

/-- The systick interrupt can come: clocks, interrupt controller, interrupt enable and comparator. -/
structure SystickOn (d : Devices) : Prop where
  systimer : d.SystimerOn
  enabled : d.mxintEnable &&& (1#32 <<< systickCpuInt) ≠ 0
  intEna : d.intEna &&& 0x1 ≠ 0
  alarm : d.conf &&& (1#32 <<< 24) ≠ 0

/-- The clocks without which the timer, the flash and the instruction cache do not answer. -/
structure ClocksOn (d : Devices) : Prop where
  systimer : d.SystimerOn
  mspi : d.pcrMspiConf &&& 0x5 = 0x5 ∧ d.pcrMspiConf &&& 0x2 = 0
  cache : d.pcrCacheConf &&& 0x1 ≠ 0 ∧ d.pcrCacheConf &&& 0x2 = 0

/-- A test for two masks, as the repairs write it. -/
theorem clock_test (p q : Prop) [Decidable p] [Decidable q] :
    decide (p ∨ ¬ q) = false ↔ ¬ p ∧ q := by
  rw [decide_eq_false_iff_not, not_or, not_not]

theorem bit_set {v m : BitVec 32} (hm : m ≠ 0) : (v ||| m) &&& m ≠ 0 := by
  rw [BitMask.set_and_set]
  exact hm

theorem clock_set {v s c : BitVec 32} (hs : s ≠ 0) (h : c &&& s = 0) :
    ((v ||| s) &&& ~~~c) &&& s ≠ 0 ∧ ((v ||| s) &&& ~~~c) &&& c = 0 := by
  rw [BitMask.set_clear_and_set h]
  exact ⟨hs, BitMask.clear_and_clear⟩

theorem mends_ensureSystimerClock : Mends ensureSystimerClock SystimerOn := by
  have hconf : Mends mendSystimerConf fun d =>
      d.pcrSystimerConf &&& 0x1 ≠ 0 ∧ d.pcrSystimerConf &&& 0x2 = 0 :=
    mends_mendIf (fun d => clock_test _ _) fun d => clock_set (by decide) (by decide)
  have hfunc : Mends mendSystimerFuncClk fun d => d.pcrSystimerFuncClk &&& (1#32 <<< 22) ≠ 0 :=
    mends_mendIf (fun d => decide_eq_false_iff_not) fun d => bit_set (by decide)
  have hkeep : Keeps mendSystimerFuncClk pcrSystimerConf := keeps_mendIf fun _ => rfl
  refine (hconf.andThen hfunc fun d hd => ?_).congr fun d =>
    ⟨fun h => ⟨h.1.1, h.1.2, h.2⟩, fun h => ⟨⟨h.busClock, h.noReset⟩, h.funcClock⟩⟩
  rwa [hkeep]

theorem mends_mendMxintEnable :
    Mends mendMxintEnable fun d => d.mxintEnable &&& (1#32 <<< systickCpuInt) ≠ 0 :=
  mends_mendIf (fun _ => decide_eq_false_iff_not) fun _ => bit_set (by decide)

theorem mends_mendIntEna : Mends mendIntEna fun d => d.intEna &&& 0x1 ≠ 0 :=
  mends_mendIf (fun _ => decide_eq_false_iff_not) fun _ => bit_set (by decide)

theorem mends_mendConf (now : WordPair 32) :
    Mends (mendConf now) fun d => d.conf &&& (1#32 <<< 24) ≠ 0 :=
  mends_mendIf (fun _ => decide_eq_false_iff_not) fun _ => bit_set (by decide)

/-- The two registers that `SystimerOn` is about. -/
def systimerClocks (d : Devices) : BitVec 32 × BitVec 32 := (d.pcrSystimerConf, d.pcrSystimerFuncClk)

@[simp] theorem startAlarm_systimerClocks (t : WordPair 32) (d : Devices) :
    (startAlarm t d).systimerClocks = d.systimerClocks := rfl

theorem SystimerOn.of_eq {d d' : Devices} (h : d.SystimerOn)
    (he : d'.systimerClocks = d.systimerClocks) : d'.SystimerOn := by
  have hconf : d'.pcrSystimerConf = d.pcrSystimerConf := congrArg Prod.fst he
  have hfunc : d'.pcrSystimerFuncClk = d.pcrSystimerFuncClk := congrArg Prod.snd he
  refine ⟨?_, ?_, ?_⟩
  · rw [hconf]
    exact h.busClock
  · rw [hconf]
    exact h.noReset
  · rw [hfunc]
    exact h.funcClock

theorem mends_mendSystick (now : WordPair 32) : Mends (mendSystick now) SystickOn := by
  have htail : Mends (andThen mendIntEna (mendConf now)) fun d =>
      d.intEna &&& 0x1 ≠ 0 ∧ d.conf &&& (1#32 <<< 24) ≠ 0 := by
    refine mends_mendIntEna.andThen (mends_mendConf now) fun d hd => ?_
    have hkeep : Keeps (mendConf now) intEna := keeps_mendIf (startAlarm_intEna _)
    rwa [hkeep]
  have hplic : Mends (andThen mendMxintEnable (andThen mendIntEna (mendConf now))) fun d =>
      d.mxintEnable &&& (1#32 <<< systickCpuInt) ≠ 0 ∧
        d.intEna &&& 0x1 ≠ 0 ∧ d.conf &&& (1#32 <<< 24) ≠ 0 := by
    refine mends_mendMxintEnable.andThen htail fun d hd => ?_
    have hena : Keeps mendIntEna mxintEnable := keeps_mendIf fun _ => rfl
    have hconf : Keeps (mendConf now) mxintEnable := keeps_mendIf (startAlarm_mxintEnable _)
    rwa [hena.andThen hconf]
  have hmx : Keeps mendMxintEnable systimerClocks := keeps_mendIf fun _ => rfl
  have hena : Keeps mendIntEna systimerClocks := keeps_mendIf fun _ => rfl
  have hconf : Keeps (mendConf now) systimerClocks := keeps_mendIf (startAlarm_systimerClocks _)
  have hall := mends_ensureSystimerClock.andThen hplic fun d hd =>
    hd.of_eq (hmx.andThen (hena.andThen hconf) d)
  exact hall.congr fun d => ⟨fun h => ⟨h.1, h.2.1, h.2.2.1, h.2.2.2⟩,
    fun h => ⟨h.systimer, h.enabled, h.intEna, h.alarm⟩⟩

theorem mends_mendClocks : Mends mendClocks ClocksOn := by
  have hmspi : Mends mendMspiConf fun d =>
      d.pcrMspiConf &&& 0x5 = 0x5 ∧ d.pcrMspiConf &&& 0x2 = 0 := by
    refine mends_mendIf (fun d => ?_) fun d => ⟨BitMask.set_clear_and_set (by decide),
      BitMask.clear_and_clear⟩
    rw [decide_eq_false_iff_not, not_or, not_not, not_not]
  have hcache : Mends mendCacheConf fun d =>
      d.pcrCacheConf &&& 0x1 ≠ 0 ∧ d.pcrCacheConf &&& 0x2 = 0 :=
    mends_mendIf (fun d => clock_test _ _) fun d => clock_set (by decide) (by decide)
  have hkeep : Keeps mendCacheConf pcrMspiConf := keeps_mendIf fun _ => rfl
  have htail := hmspi.andThen hcache fun d hd => by rwa [hkeep]
  have hmspi' : Keeps mendMspiConf systimerClocks := keeps_mendIf fun _ => rfl
  have hcache' : Keeps mendCacheConf systimerClocks := keeps_mendIf fun _ => rfl
  have hall := mends_ensureSystimerClock.andThen htail fun d hd =>
    hd.of_eq (hmspi'.andThen hcache' d)
  exact hall.congr fun d => ⟨fun h => ⟨h.1, h.2.1, h.2.2⟩, fun h => ⟨h.systimer, h.mspi, h.cache⟩⟩

/-! ### The system timer -/

theorem ensureSystimerClock_mxintEnable : Keeps ensureSystimerClock mxintEnable := by
  have hconf : Keeps mendSystimerConf mxintEnable := keeps_mendIf fun _ => rfl
  have hfunc : Keeps mendSystimerFuncClk mxintEnable := keeps_mendIf fun _ => rfl
  exact hconf.andThen hfunc

theorem ensureSystimerClock_realTarget0 : Keeps ensureSystimerClock realTarget0 := by
  have hconf : Keeps mendSystimerConf realTarget0 := keeps_mendIf fun _ => rfl
  have hfunc : Keeps mendSystimerFuncClk realTarget0 := keeps_mendIf fun _ => rfl
  exact hconf.andThen hfunc

/-- A comparator that was off gets an alarm one period after the counter. -/
theorem realTarget0_mendSystick {now : WordPair 32} {d : Devices}
    (hoff : d.conf &&& (1#32 <<< 24) = 0) : (mendSystick now d).1.realTarget0 = nextAlarm now := by
  have hsys : Keeps ensureSystimerClock conf := by
    have hconf : Keeps mendSystimerConf conf := keeps_mendIf fun _ => rfl
    have hfunc : Keeps mendSystimerFuncClk conf := keeps_mendIf fun _ => rfl
    exact hconf.andThen hfunc
  have hmx : Keeps mendMxintEnable conf := keeps_mendIf fun _ => rfl
  have hena : Keeps mendIntEna conf := keeps_mendIf fun _ => rfl
  have hkeep := (hsys.andThen (hmx.andThen hena)) d
  have hoff' : ((andThen ensureSystimerClock (andThen mendMxintEnable mendIntEna)) d).1.conf &&&
      (1#32 <<< 24) = 0 := by
    rw [hkeep]
    exact hoff
  show (mendConf now (andThen ensureSystimerClock (andThen mendMxintEnable mendIntEna) d).1).1.realTarget0
    = nextAlarm now
  rw [mendConf, mendIf, if_pos (decide_eq_true hoff'), startAlarm_realTarget0]

/-- **`ensure_systick_enabled` repairs the whole chain**, whatever the registers hold: afterwards the
systick interrupt can come and interrupts are on; it reports `false` exactly when the chain was whole, and
then it has written no device register; a second call, at any later time, finds nothing; and a comparator
that was off gets its alarm one period ahead of the counter. -/
theorem ensure_systick_enabled_spec (now later : WordPair 32) (s : Devices × BitVec 32) :
    (ensureSystickEnabled now s).1.1.SystickOn ∧ (ensureSystickEnabled now s).1.2 &&& 0x8 ≠ 0 ∧
      ((ensureSystickEnabled now s).2 = false ↔ s.1.SystickOn) ∧
      (s.1.SystickOn → (ensureSystickEnabled now s).1.1 = s.1) ∧
      ensureSystickEnabled later (ensureSystickEnabled now s).1 = ((ensureSystickEnabled now s).1, false) ∧
      (s.1.conf &&& (1#32 <<< 24) = 0 → now.val + 16000 < 2 ^ 52 →
        (ensureSystickEnabled now s).1.1.realTarget0.val = now.val + 16000) := by
  have hm := mends_mendSystick now
  refine ⟨hm.mended s.1, bit_set (by decide), hm.report_iff s.1, fun hs => ?_, ?_, fun hoff hwrap => ?_⟩
  · show (mendSystick now s.1).1 = s.1
    rw [hm.quiet s.1 hs]
  · have hquiet := (mends_mendSystick later).quiet _ (hm.mended s.1)
    show (((mendSystick later (mendSystick now s.1).1).1, (s.2 ||| 0x8) ||| 0x8),
      (mendSystick later (mendSystick now s.1).1).2) = _
    rw [hquiet, BitVec.or_assoc, BitVec.or_self]
    rfl
  · show (mendSystick now s.1).1.realTarget0.val = _
    rw [realTarget0_mendSystick hoff, val_nextAlarm hwrap]

/-- What the handler of the systick interrupt leaves in the registers. -/
theorem systickIsr_spec (d : Devices) (now : WordPair 32) :
    (d.systickIsr now).1.SystimerOn ∧ (d.systickIsr now).1.intEna &&& 0x1 ≠ 0 ∧
      (d.systickIsr now).1.conf &&& (1#32 <<< 24) ≠ 0 ∧
      (d.systickIsr now).1.mxintEnable = d.mxintEnable ∧
      (d.systickIsr now).2 = (MosKernel.systickIsr d.realTarget0 now).2 ∧
      (d.systickIsr now).1.realTarget0 = (MosKernel.systickIsr d.realTarget0 now).1 := by
  have hon := mends_ensureSystimerClock.mended d
  refine ⟨hon.of_eq rfl, bit_set (by decide), bit_set (by decide), ensureSystimerClock_mxintEnable d,
    ?_, ?_⟩
  · show (MosKernel.systickIsr d.ensureSystimerClock.1.realTarget0 now).2 = _
    rw [ensureSystimerClock_realTarget0 d]
  · show (MosKernel.systickIsr d.ensureSystimerClock.1.realTarget0 now).1 = _
    rw [ensureSystimerClock_realTarget0 d]

/-! ### Faults -/

theorem mendClocks_lastFencedMepc : Keeps mendClocks lastFencedMepc := by
  have hconf : Keeps mendSystimerConf lastFencedMepc := keeps_mendIf fun _ => rfl
  have hfunc : Keeps mendSystimerFuncClk lastFencedMepc := keeps_mendIf fun _ => rfl
  have hmspi : Keeps mendMspiConf lastFencedMepc := keeps_mendIf fun _ => rfl
  have hcache : Keeps mendCacheConf lastFencedMepc := keeps_mendIf fun _ => rfl
  exact (hconf.andThen hfunc).andThen (hmspi.andThen hcache)

theorem mendClocks_mxintEnable : Keeps mendClocks mxintEnable := by
  have hmspi : Keeps mendMspiConf mxintEnable := keeps_mendIf fun _ => rfl
  have hcache : Keeps mendCacheConf mxintEnable := keeps_mendIf fun _ => rfl
  exact ensureSystimerClock_mxintEnable.andThen (hmspi.andThen hcache)

theorem recoverPeripheralClocks_mxintEnable (mepc : BitVec 32) :
    Keeps (recoverPeripheralClocks mepc) mxintEnable := by
  intro d
  rw [← mendClocks_mxintEnable d, recoverPeripheralClocks]
  dsimp only
  split_ifs <;> rfl

/-- What `recover_peripheral_clocks` reports. -/
theorem recoverPeripheralClocks_report (mepc : BitVec 32) (d : Devices) :
    (recoverPeripheralClocks mepc d).2 = true ↔
      ¬ d.ClocksOn ∨ inFlash mepc = true ∧ d.lastFencedMepc ≠ mepc := by
  have hreport := mends_mendClocks.report_iff d
  rw [recoverPeripheralClocks]
  dsimp only
  rw [mendClocks_lastFencedMepc d]
  by_cases hr : (mendClocks d).2 = true
  · have hoff : ¬ d.ClocksOn := fun h => by
      rw [hreport.mpr h] at hr
      cases hr
    rw [if_pos hr]
    exact iff_of_true rfl (.inl hoff)
  · have hon : d.ClocksOn := hreport.mp (Bool.eq_false_iff.mpr hr)
    rw [if_neg hr, or_iff_right (not_not.mpr hon)]
    by_cases hflash : inFlash mepc = true ∧ d.lastFencedMepc ≠ mepc
    · rw [if_pos hflash]
      exact iff_of_true rfl hflash
    · rw [if_neg hflash]
      exact iff_of_false Bool.false_ne_true hflash

/-- What it leaves behind: the clocks are on, and an address it has recovered from is remembered. -/
theorem recoverPeripheralClocks_spec (mepc : BitVec 32) (d : Devices) :
    (recoverPeripheralClocks mepc d).1.ClocksOn ∧
      ((recoverPeripheralClocks mepc d).2 = true →
        (recoverPeripheralClocks mepc d).1.lastFencedMepc = mepc) := by
  have hon := mends_mendClocks.mended d
  have hfenced : ∀ a, ClocksOn { (mendClocks d).1 with lastFencedMepc := a } := fun a =>
    ⟨hon.systimer.of_eq rfl, hon.mspi, hon.cache⟩
  rw [recoverPeripheralClocks]
  dsimp only
  by_cases hr : (mendClocks d).2 = true
  · rw [if_pos hr]
    exact ⟨hfenced mepc, fun _ => rfl⟩
  · rw [if_neg hr]
    by_cases hflash : inFlash mepc = true ∧ (mendClocks d).1.lastFencedMepc ≠ mepc
    · rw [if_pos hflash]
      exact ⟨hfenced mepc, fun _ => rfl⟩
    · rw [if_neg hflash]
      exact ⟨hon, fun h => absurd h Bool.false_ne_true⟩

/-- A sequence of faults, each given by its address and by what happens to the registers until the next
one: all of them are recovered from. -/
def allRecovered : Devices → List (BitVec 32 × (Devices → Devices)) → Bool
  | _, [] => true
  | d, (mepc, between) :: faults =>
    let r := recoverPeripheralClocks mepc d
    r.2 && allRecovered (between r.1) faults

/-- The registers change, but the clocks stay on. -/
def ClocksStayOn (between : Devices → Devices) : Prop :=
  ∀ d, (between d).lastFencedMepc = d.lastFencedMepc ∧ (d.ClocksOn → (between d).ClocksOn)

/-- Once the clocks are on, a fault is recovered from if it lies in flash and is not where the last
one was. -/
theorem allRecovered_of_clocksOn {d : Devices} {faults : List (BitVec 32 × (Devices → Devices))}
    (hd : d.ClocksOn) (h : ∀ f ∈ faults, ClocksStayOn f.2) :
    allRecovered d faults = true ↔
      (d.lastFencedMepc :: faults.map Prod.fst).IsChain (· ≠ ·) ∧
        ∀ f ∈ faults, inFlash f.1 = true := by
  induction faults generalizing d with
  | nil =>
      refine iff_of_true rfl ⟨List.isChain_singleton _, fun f hf => ?_⟩
      cases hf
  | cons f faults ih =>
      obtain ⟨mepc, between⟩ := f
      rw [List.forall_mem_cons] at h
      have hreport := recoverPeripheralClocks_report mepc d
      rw [or_iff_right (not_not.mpr hd)] at hreport
      obtain ⟨hon, hfenced⟩ := recoverPeripheralClocks_spec mepc d
      have hbetween := h.1 (recoverPeripheralClocks mepc d).1
      rw [allRecovered, Bool.and_eq_true, ih (hbetween.2 hon) h.2, hbetween.1, List.map_cons,
        List.isChain_cons_cons, List.forall_mem_cons]
      constructor
      · rintro ⟨hr, hchain, hall⟩
        rw [hfenced hr] at hchain
        exact ⟨⟨(hreport.mp hr).2, hchain⟩, (hreport.mp hr).1, hall⟩
      · rintro ⟨⟨hne, hchain⟩, hflash, hall⟩
        have hr := hreport.mpr ⟨hflash, hne⟩
        rw [hfenced hr]
        exact ⟨hr, hchain, hall⟩

/-- **A fault is retried once.**  While nobody switches the clocks off again, a sequence of faults is
recovered from exactly when no two successive ones have the same address, all but the first lie in flash,
and the first one either found a clock off or lies in flash at another address than the last recovery.
Any other fault ends in the diagnostics; two flash addresses that fault in turn are retried for ever. -/
theorem all_recovered_iff (d : Devices) (mepc : BitVec 32) (between : Devices → Devices)
    (faults : List (BitVec 32 × (Devices → Devices))) (hfirst : ClocksStayOn between)
    (h : ∀ f ∈ faults, ClocksStayOn f.2) :
    allRecovered d ((mepc, between) :: faults) = true ↔
      (¬ d.ClocksOn ∨ inFlash mepc = true ∧ d.lastFencedMepc ≠ mepc) ∧
        (mepc :: faults.map Prod.fst).IsChain (· ≠ ·) ∧ ∀ f ∈ faults, inFlash f.1 = true := by
  obtain ⟨hon, hfenced⟩ := recoverPeripheralClocks_spec mepc d
  have hbetween := hfirst (recoverPeripheralClocks mepc d).1
  rw [allRecovered, Bool.and_eq_true, ← recoverPeripheralClocks_report,
    allRecovered_of_clocksOn (hbetween.2 hon) h, hbetween.1]
  refine and_congr_right fun hr => ?_
  rw [hfenced hr]

/-- A clock is off: one fault is recovered from, the same one again is not, two in turn are. -/
theorem all_recovered_iff_run :
    let d : Devices := ⟨0, 0, 0, 0, 0, 0, 0, ⟨0, 0⟩, ⟨0, 0⟩, 0⟩
    allRecovered d [(0x42001000, id), (0x42001000, id)] = false ∧
      allRecovered d [(0x40000000, id), (0x42001000, id), (0x42002000, id), (0x42001000, id)] = true := by
  have hid : ClocksStayOn id := fun d => ⟨rfl, id⟩
  have hoff : ¬ ClocksOn ⟨0, 0, 0, 0, 0, 0, 0, ⟨0, 0⟩, ⟨0, 0⟩, 0⟩ := fun h =>
    h.systimer.busClock (by decide)
  refine ⟨?_, ?_⟩
  · refine Bool.eq_false_iff.mpr fun h => ?_
    have hchain := ((all_recovered_iff _ _ _ _ hid (by simpa using hid)).mp h).2.1
    exact absurd rfl (List.isChain_cons_cons.mp hchain).1
  · refine (all_recovered_iff _ _ _ _ hid ?_).mpr ⟨.inl hoff, ?_, ?_⟩
    · simpa using hid
    · simp
    · simp [inFlash]

end Devices

end MosKernel
