import MosKernel.Kernel

/-!
# The scheduler

The definitions of `kernel/sched.rs` and of the part of the trap handler that calls it.  A panic and
a null dereference are `none`.  `yieldTask` is the `ecall` of `arch/riscv.rs`: the trap handler
calls `next_tcb` when `SCHED_READY` is set and otherwise returns to the caller.
-/

namespace MosKernel

namespace Kernel

/-- The body of the loop of `wake_up_sleepers` for a task that is due. -/
def expire (k : Kernel) (tid : Tid) : Kernel :=
  ((k.sleepingRemove tid).setTcb tid fun tcb =>
    { tcb with status := .ready, wakePoint := 0 }).readyInsert tid

/-- The loop of `wake_up_sleepers`: `i` is its counter, `now` the time read before it.  A pass either
shortens the list or advances `i`, so `len - i` passes are enough: `wakeUpSleepersLoop_done`. -/
def wakeUpSleepersLoop (now : BitVec 32) : (fuel i : ℕ) → Kernel → Kernel
  | 0, _, k => k
  | fuel + 1, i, k =>
    match k.sleepingList.tids[i]? with
    | none => k
    | some tid =>
      if now ≥ (k.tcbs tid).wakePoint then wakeUpSleepersLoop now fuel i (k.expire tid)
      else wakeUpSleepersLoop now fuel (i + 1) k

/-- `wake_up_sleepers` -/
def wakeUpSleepers (k : Kernel) : Kernel :=
  wakeUpSleepersLoop k.osTicks k.sleepingList.len 0 k

/-- The first half of `next_tcb`: where the outgoing task goes. -/
def requeue (k : Kernel) (cr : Tid) : Kernel :=
  if k.status cr = .terminated ∨ k.status cr = .blocked then k.readyRemove cr
  else if (k.tcbs cr).timeSlice = 0 ∨ k.status cr = .running then
    let k := k.setTcb cr fun tcb => { tcb with timeSlice := MosKernel.timeSlice, status := .ready }
    (k.readyRemove cr).readyInsert cr
  else k

/-- The second half of `next_tcb`: switch to the front of `READY_LIST`. -/
def switchTo (k : Kernel) (cr st : Tid) : Kernel :=
  if st ≠ cr then
    let k := if k.status cr = .running then k.setStatus cr .ready else k
    (k.setStatus st .running).setCurrent st
  else k

/-- `next_tcb`; `none` is its panic "No ready task (not even idle)". -/
def nextTcb (k : Kernel) : Option Kernel :=
  let k := k.wakeUpSleepers
  k.crTid.bind fun cr =>
    let k := k.requeue cr
    k.readyList.front.map fun st => k.switchTo cr st

/-- `yield_task`: the `ecall` trap, which switches only once the scheduler runs. -/
def yieldTask (k : Kernel) : Option Kernel := if k.schedReady then k.nextTcb else some k

/-- `set_os_ticks(os_ticks().wrapping_add(1))` -/
@[simps] def advanceTicks (k : Kernel) : Kernel := { k with osTicks := k.osTicks + 1 }

/-- `if cur_tcb.time_slice > 0 { cur_tcb.time_slice -= 1; }` -/
def chargeSlice (k : Kernel) (cr : Tid) : Kernel :=
  if (k.tcbs cr).timeSlice > 0 then
    k.setTcb cr fun tcb => { tcb with timeSlice := tcb.timeSlice - 1 }
  else k

/-- `systick_tick`: the new state and whether a context switch is wanted. -/
def systickTick (k : Kernel) : Option (Kernel × Bool) :=
  if !k.schedReady then some (k, false)
  else
    let k := k.advanceTicks
    k.crTid.map fun cr =>
      let k := k.chargeSlice cr
      (k, (k.tcbs cr).timeSlice = 0 || !k.sleepingList.isEmpty)

/-- The replay loop `for _ in 0..=missed { r |= systick_tick() }` of `_mos_trap_dispatch`. -/
def systickReplay : ℕ → Kernel → Option (Kernel × Bool)
  | 0, k => k.systickTick
  | missed + 1, k => do
    let (k, r) ← systickReplay missed k
    let (k, r') ← k.systickTick
    return (k, r || r')

/-- A systick interrupt that comes `missed` periods late: replay the ticks, then `next_tcb` if one of
them asked for it. -/
def systickTrap (k : Kernel) (missed : ℕ) : Option Kernel := do
  let (k, r) ← k.systickReplay missed
  if r then k.yieldTask else return k

end Kernel

end MosKernel
