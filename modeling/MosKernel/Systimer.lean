import MosKernel.Lib.WordPair
import MosKernel.Ticks
import MosKernel.Erasure

/-!
# The system timer

The alarm arithmetic of `systick_isr` (`boards/esp32c6/src/bsp.rs`) and its replay by
`_mos_trap_dispatch`.  Of the timer's registers the model keeps the two-word alarm target and the
two-word counter; clock gating, interrupt flags and the enable bit carry no values.  `REAL_TARGET0`
reads back the target that was programmed last.

`systick_isr_spec` says what one interrupt does; `clock_does_not_drift` adds it up over whole runs: the
target advances by one period for every tick that is counted.
-/

namespace MosKernel

open Transition Kernel

variable {T : Type}

/-- `SYSTIMER_PERIOD` -/
abbrev systimerPeriod : BitVec 32 := 16000

/-- `((hi as u64) << 32) | (lo as u64)` -/
def u64OfPair (x : WordPair 32) : BitVec 64 := x.hi.setWidth 64 <<< 32 ||| x.lo.setWidth 64

/-- One period later: `lo.overflowing_add(SYSTIMER_PERIOD)`, with the carry into the 20 bits of
`hi`. -/
def nextAlarm (target : WordPair 32) : WordPair 32 := target.addLow 20 systimerPeriod

/-- The loop of `systick_isr`: the alarm it ends with and `missed`.  It breaks once `missed > 100`, so
101 passes are enough. -/
def catchUp (curVal : BitVec 64) : (fuel : ℕ) → (next : WordPair 32) → (missed : ℕ) → WordPair 32 × ℕ
  | 0, next, missed => (next, missed)
  | fuel + 1, next, missed =>
    if u64OfPair next > curVal then (next, missed)
    else
      let next := nextAlarm next
      let missed := missed + 1
      if missed > 100 then (next, missed) else catchUp curVal fuel next missed

/-- `systick_isr` for the programmed `target` and the counter `cur`: the new target and the number of
periods that were missed. -/
def systickIsr (target cur : WordPair 32) : WordPair 32 × ℕ :=
  catchUp (u64OfPair cur) 101 (nextAlarm target) 0

theorem toNat_u64OfPair (x : WordPair 32) : (u64OfPair x).toNat = x.val := by
  have hlo := x.lo.isLt
  have hhi := x.hi.isLt
  unfold u64OfPair WordPair.val
  rw [BitVec.toNat_or, BitVec.toNat_shiftLeft, BitVec.toNat_setWidth, BitVec.toNat_setWidth,
    Nat.mod_eq_of_lt (by omega), Nat.mod_eq_of_lt (by omega), Nat.shiftLeft_eq,
    Nat.mod_eq_of_lt (by omega), ← Nat.shiftLeft_eq, ← Nat.shiftLeft_add_eq_or_of_lt hlo,
    Nat.shiftLeft_eq]

theorem val_nextAlarm {target : WordPair 32} (h : target.val + 16000 < 2 ^ 52) :
    (nextAlarm target).val = target.val + 16000 :=
  WordPair.val_addLow (n := 20) (p := systimerPeriod) (by decide) h

/-- The loop counts the periods that have passed, up to 101, and the alarm stays one period ahead. -/
theorem catchUp_spec {target cur : ℕ} {curVal : BitVec 64} (hcur : curVal.toNat = cur)
    (hwrap : target + 16000 * 102 < 2 ^ 52) (fuel : ℕ) (next : WordPair 32) (missed : ℕ)
    (hfuel : fuel + missed = 101) (hmissed : missed ≤ 100)
    (hnext : next.val = target + 16000 * (missed + 1)) (hpassed : target + 16000 * missed ≤ cur) :
    (catchUp curVal fuel next missed).2 = min 101 ((cur - target) / 16000) ∧
      (catchUp curVal fuel next missed).1.val =
        target + 16000 * ((catchUp curVal fuel next missed).2 + 1) ∧
      ((catchUp curVal fuel next missed).2 ≤ 100 →
        cur < (catchUp curVal fuel next missed).1.val) := by
  induction fuel generalizing next missed with
  | zero => omega
  | succ fuel ih =>
      have hgt : u64OfPair next > curVal ↔ cur < next.val := by
        rw [gt_iff_lt, BitVec.lt_def, hcur, toNat_u64OfPair]
      rw [catchUp]
      by_cases hlt : cur < next.val
      · rw [if_pos (hgt.mpr hlt)]
        refine ⟨?_, hnext, fun _ => hlt⟩
        show missed = _
        omega
      · have hstep : (nextAlarm next).val = target + 16000 * (missed + 1 + 1) := by
          rw [val_nextAlarm (by omega), hnext]
          omega
        rw [if_neg (mt hgt.mp hlt)]
        dsimp only
        by_cases hcap : missed + 1 > 100
        · rw [if_pos hcap]
          refine ⟨?_, hstep, fun hle => ?_⟩
          · show missed + 1 = _
            omega
          · have hle' : missed + 1 ≤ 100 := hle
            omega
        · rw [if_neg hcap]
          exact ih (nextAlarm next) (missed + 1) (by omega) (by omega) hstep (by omega)

/-- What one interrupt does, whenever it comes. -/
theorem systick_isr_spec {target cur : WordPair 32} (hle : target.val ≤ cur.val)
    (hwrap : target.val + 16000 * 102 < 2 ^ 52) :
    (systickIsr target cur).2 = min 101 ((cur.val - target.val) / 16000) ∧
      (systickIsr target cur).1.val = target.val + 16000 * ((systickIsr target cur).2 + 1) ∧
      ((systickIsr target cur).2 ≤ 100 → cur.val < (systickIsr target cur).1.val) := by
  have hfirst : (nextAlarm target).val = target.val + 16000 * (0 + 1) := by
    rw [val_nextAlarm (by omega)]
  have hpassed : target.val + 16000 * 0 ≤ cur.val := by omega
  rw [systickIsr]
  exact catchUp_spec (toNat_u64OfPair cur) hwrap 101 (nextAlarm target) 0 (Nat.add_zero 101)
    (Nat.zero_le 100) hfirst hpassed

/-! ### The board -/

/-- The system and the programmed alarm. -/
structure Board (T : Type) where
  system : System T
  alarm : WordPair 32

/-- A systick interrupt whose handler reads `cur` off the counter, or another action. -/
inductive BoardAction (T : Type) where
  | systick (cur : WordPair 32)
  | other (a : Action T)
  deriving DecidableEq

namespace Board

/-- The systick branch of `_mos_trap_dispatch` replays `missed + 1` ticks. -/
def step (cap : ℕ → ℕ) (b : Board T) : BoardAction T → Option (Board T)
  | .systick cur =>
    let r := systickIsr b.alarm cur
    (b.system.step cap (.systick r.2)).map fun σ => ⟨σ, r.1⟩
  | .other a => (b.system.step cap a).map fun σ => ⟨σ, b.alarm⟩

/-- The alarm goes off when the counter has reached the target, and the timer is not about to wrap;
systick interrupts come from the alarm only. -/
def Timely (b : Board T) : BoardAction T → Prop
  | .systick cur => b.alarm.val ≤ cur.val ∧ b.alarm.val + 16000 * 102 < 2 ^ 52
  | .other a => ∀ missed, a ≠ .systick missed

/-- `n` ticks have been counted since the state `b₀`, one for each period. -/
def Counted (b₀ b : Board T) (n : ℕ) : Prop :=
  b.system.kernel.osTicks = b₀.system.kernel.osTicks + BitVec.ofNat 32 n ∧
    b.alarm.val = b₀.alarm.val + 16000 * n

theorem Counted.refl (b : Board T) : Counted b b 0 := by
  refine ⟨(BitVec.add_zero _).symm, ?_⟩
  omega

/-- One action counts as many ticks as the alarm advances by periods. -/
theorem counted_step {cap : ℕ → ℕ} {b b' : Board T} {a : BoardAction T}
    (hready : b.system.kernel.schedReady = true) (hok : b.Timely a)
    (hs : b.step cap a = some b') : ∃ n, Counted b b' n := by
  cases a with
  | systick cur =>
      obtain ⟨σ, hσ, rfl⟩ := Option.map_eq_some_iff.mp hs
      obtain ⟨k, hk, rfl⟩ := Option.map_eq_some_iff.mp hσ
      exact ⟨_, osTicks_systickTrap hready hk, (systick_isr_spec hok.1 hok.2).2.1⟩
  | other a =>
      obtain ⟨σ, hσ, rfl⟩ := Option.map_eq_some_iff.mp hs
      exact ⟨0, (System.osTicks_step hσ hok).trans (BitVec.add_zero _).symm, (Counted.refl b).2⟩

theorem Counted.trans {b₀ b b' : Board T} {m n : ℕ} (h : Counted b₀ b m) (h' : Counted b b' n) :
    Counted b₀ b' (m + n) := by
  refine ⟨?_, ?_⟩
  · rw [h'.1, h.1, BitVec.add_assoc, BitVec.ofNat_add_ofNat]
  · rw [h'.2, h.2]
    omega

/-- A test for the interrupt of `Action`, which leaves the alarm out. -/
def isSystick : Action T → Bool
  | .systick _ => true
  | _ => false

theorem timely_other_iff (b : Board T) (a : Action T) :
    isSystick a = false ↔ b.Timely (.other a) := by
  cases a <;> simp [Timely, isSystick]

instance (b : Board T) : DecidablePred b.Timely
  | .systick _ => instDecidableAnd
  | .other a => decidable_of_iff (isSystick a = false) (timely_other_iff b a)

end Board

/-- **The clock does not drift.**  An interrupt that comes late by any time counts the periods it has
missed, up to 101, and programs the alarm one period past the last tick it has counted.  So in every
state of every run after the launch, with whatever latencies and other actions, `os_ticks` has been
advanced by as many ticks as the alarm target has been advanced by periods. -/
theorem clock_does_not_drift {cap : ℕ → ℕ} {boots : List BootCall} {k₀ : Kernel} {counts : ℕ → ℤ}
    {alarm : WordPair 32} {tr : List (Board T × BoardAction T)} {b : Board T}
    (hl : Kernel.launchAfter boots = some k₀)
    (hr : Run (Board.step cap) Board.Timely ⟨System.init k₀ counts, alarm⟩ tr b) :
    (∀ target cur : WordPair 32, target.val ≤ cur.val → target.val + 16000 * 102 < 2 ^ 52 →
      (systickIsr target cur).2 = min 101 ((cur.val - target.val) / 16000) ∧
        (systickIsr target cur).1.val = target.val + 16000 * ((systickIsr target cur).2 + 1) ∧
        ((systickIsr target cur).2 ≤ 100 → cur.val < (systickIsr target cur).1.val)) ∧
      Always (fun b => ∃ n, Board.Counted ⟨System.init k₀ counts, alarm⟩ b n) tr b := by
  refine ⟨fun target cur => systick_isr_spec, ?_⟩
  have hall := hr.always (I := fun b => (∃ P, b.system.Within P) ∧
      ∃ n, Board.Counted ⟨System.init k₀ counts, alarm⟩ b n)
    ⟨⟨_, System.within_init hl⟩, 0, Board.Counted.refl _⟩ ?_
  · exact ⟨fun e he => (hall.1 e he).2, hall.2.2⟩
  · rintro b a b' ⟨⟨P, hP⟩, n, hn⟩ hok hs
    obtain ⟨m, hm⟩ := Board.counted_step hP.kernel.schedReady hok hs
    refine ⟨?_, n + m, hn.trans hm⟩
    cases a with
    | systick cur =>
        obtain ⟨σ, hσ, rfl⟩ := Option.map_eq_some_iff.mp hs
        exact ⟨_, hP.step hσ⟩
    | other a =>
        obtain ⟨σ, hσ, rfl⟩ := Option.map_eq_some_iff.mp hs
        exact ⟨_, hP.step hσ⟩

/-- A task goes to sleep; one interrupt comes on time, across the carry, and one 249 periods late. -/
theorem clock_does_not_drift_run : ∃ k₀ tr, ∃ b : Board Unit,
    Kernel.launchAfter [.create 3 "a"] = some k₀ ∧
      Run (Board.step fun _ => 0) Board.Timely
        ⟨System.init k₀ fun _ => 0, ⟨7, 0xFFFFFFF0⟩⟩ tr b ∧
      b.system.kernel.osTicks = 103 ∧ b.alarm = ⟨8, 1647984⟩ ∧
      ∃ n, Board.Counted ⟨System.init k₀ fun _ => 0, ⟨7, 0xFFFFFFF0⟩⟩ b n := by
  have hsome : (Kernel.launchAfter [.create 3 "a"]).isSome = true := by decide +kernel
  obtain ⟨k₀, hk₀⟩ := Option.isSome_iff_exists.mp hsome
  have hexec : ((Kernel.launchAfter [.create 3 "a"]).bind fun k₀ =>
      exec (Board.step fun _ => 0) (fun (b : Board Unit) a => b.Timely a)
        ⟨System.init k₀ fun _ => 0, ⟨7, 0xFFFFFFF0⟩⟩
        [.other (.call (.task (.delay 5))), .systick ⟨7, 0xFFFFFFF0⟩, .systick ⟨8, 4000000⟩]).any
      (fun b => b.system.kernel.osTicks = 103 ∧ b.alarm = ⟨8, 1647984⟩) = true := by
    decide +kernel
  rw [hk₀, Option.bind_some] at hexec
  obtain ⟨tr, b, hr, hb⟩ := exists_run_of_exec (fun (b : Board Unit) (a : BoardAction Unit)
    (h : decide (b.Timely a) = true) => of_decide_eq_true h) hexec
  obtain ⟨hticks, halarm⟩ := of_decide_eq_true hb
  exact ⟨k₀, tr, b, hk₀, hr, hticks, halarm, (clock_does_not_drift hk₀ hr).2.2⟩

end MosKernel
