import MosKernel.Ranking

/-!
# Who advances the clock

`OS_TICKS` is written in one place, `systick_tick`.  So a systick interrupt that comes `missed` periods
late advances it by `missed + 1`, and every other action leaves it alone.
-/

namespace MosKernel

open Kernel

variable {T : Type} {cap : ℕ → ℕ} {σ σ' : System T} {a : Action T}

namespace Kernel

variable {k k₁ k' : Kernel} {b : Bool}

/-! ### Scheduling -/

theorem osTicks_requeue (k : Kernel) (c : Tid) : (k.requeue c).osTicks = k.osTicks := by
  unfold requeue
  split_ifs <;> rfl

theorem osTicks_switchTo (k : Kernel) (c t : Tid) : (k.switchTo c t).osTicks = k.osTicks := by
  unfold switchTo
  dsimp only
  split_ifs <;> rfl

theorem osTicks_nextTcb (hk : k.nextTcb = some k') : k'.osTicks = k.osTicks := by
  obtain ⟨c, -, hk⟩ := Option.bind_eq_some_iff.mp hk
  obtain ⟨st, -, rfl⟩ := Option.map_eq_some_iff.mp hk
  rw [osTicks_switchTo, osTicks_requeue, osTicks_wakeUpSleepers]

theorem osTicks_yieldTask (hk : k.yieldTask = some k') : k'.osTicks = k.osTicks := by
  unfold yieldTask at hk
  split_ifs at hk
  · exact osTicks_nextTcb hk
  · cases hk
    rfl

theorem osTicks_yieldIf (hk : k.yieldIf b = some k') : k'.osTicks = k.osTicks := by
  cases b with
  | false =>
      cases hk
      rfl
  | true => exact osTicks_yieldTask hk

/-! ### The tick -/

theorem osTicks_systickTick {r : Bool} (hr : k.schedReady = true)
    (hk : k.systickTick = some (k', r)) :
    k'.osTicks = k.osTicks + 1 ∧ k'.schedReady = true := by
  unfold systickTick at hk
  rw [hr] at hk
  simp only [Bool.not_true, Bool.false_eq_true, if_false] at hk
  obtain ⟨c, -, he⟩ := Option.map_eq_some_iff.mp hk
  cases he
  unfold chargeSlice
  split_ifs
  · exact ⟨rfl, hr⟩
  · exact ⟨rfl, hr⟩

/-- Replaying `missed` ticks after the regular one. -/
theorem osTicks_systickReplay {missed : ℕ} {r : Bool} (hr : k.schedReady = true)
    (hk : k.systickReplay missed = some (k', r)) :
    k'.osTicks = k.osTicks + BitVec.ofNat 32 (missed + 1) ∧ k'.schedReady = true := by
  induction missed generalizing k' r with
  | zero => exact osTicks_systickTick hr hk
  | succ missed ih =>
      obtain ⟨⟨k₁, r₁⟩, hk₁, hk⟩ := Option.bind_eq_some_iff.mp hk
      obtain ⟨⟨k₂, r₂⟩, hk₂, hk⟩ := Option.bind_eq_some_iff.mp hk
      cases hk
      obtain ⟨h₁, hr₁⟩ := ih hk₁
      obtain ⟨h₂, hr₂⟩ := osTicks_systickTick hr₁ hk₂
      refine ⟨?_, hr₂⟩
      rw [h₂, h₁, BitVec.add_assoc]
      exact congrArg (k.osTicks + ·) (BitVec.ofNat_add_ofNat (missed + 1) 1)

theorem osTicks_systickTrap {missed : ℕ} (hr : k.schedReady = true)
    (hk : k.systickTrap missed = some k') :
    k'.osTicks = k.osTicks + BitVec.ofNat 32 (missed + 1) := by
  obtain ⟨⟨k₁, r⟩, hk₁, hk⟩ := Option.bind_eq_some_iff.mp hk
  rw [← (osTicks_systickReplay hr hk₁).1]
  exact osTicks_yieldIf hk

/-! ### `Task` operations -/

theorem osTicks_addTask {t : Tid} (ha : k.allocTid = some (t, k₁)) (p : ℕ) (name : String) :
    (k₁.addTask t p name).osTicks = k.osTicks := by
  obtain ⟨-, rfl⟩ := allocTid_eq_some ha
  rfl

theorem osTicks_create {p : ℕ} {name : String} {r : Except String Tid}
    (hk : k.create p name = some (k', r)) : k'.osTicks = k.osTicks := by
  unfold create at hk
  split at hk
  · cases hk
    rfl
  · rename_i t k₁ ha
    obtain ⟨k₂, hk₂, he⟩ := Option.map_eq_some_iff.mp hk
    cases he
    rw [← osTicks_addTask ha p name]
    split at hk₂
    · split_ifs at hk₂
      · exact osTicks_yieldTask hk₂
      · cases hk₂
        rfl
    · cases hk₂
      rfl

theorem osTicks_createRaw {p size : ℕ} {name : String} {r : Except String Tid}
    (hk : k.createRaw p name size = some (k', r)) : k'.osTicks = k.osTicks := by
  unfold createRaw at hk
  split at hk
  · cases hk
    rfl
  · rename_i t k₁ ha
    dsimp only at hk
    split_ifs at hk
    cases hk
    exact osTicks_addTask ha p name

theorem osTicks_block {t : Tid} (hk : k.block t = some k') : k'.osTicks = k.osTicks := by
  unfold block at hk
  split at hk
  · rw [osTicks_yieldTask hk]
    rfl
  · rw [osTicks_yieldTask hk]
    rfl
  · cases hk
    rfl

theorem osTicks_resume {t : Tid} (hk : k.resume t = some k') : k'.osTicks = k.osTicks := by
  unfold resume at hk
  split_ifs at hk
  · cases hk
    rfl
  · dsimp only at hk
    split at hk
    · split_ifs at hk
      · rw [osTicks_yieldTask hk]
        rfl
      · cases hk
        rfl
    · cases hk
      rfl
  · cases hk
    rfl

theorem osTicks_terminate {t : Tid} (hk : k.terminate t = some k') : k'.osTicks = k.osTicks := by
  unfold terminate at hk
  split_ifs at hk
  · cases hk
    rfl
  · rw [osTicks_yieldTask hk]
    rfl

theorem osTicks_delay {ticks : BitVec 32} (hk : k.delay ticks = some k') :
    k'.osTicks = k.osTicks := by
  unfold delay at hk
  split_ifs at hk
  · cases hk
    rfl
  · obtain ⟨c, -, hk⟩ := Option.bind_eq_some_iff.mp hk
    rw [osTicks_yieldTask hk]
    rfl

theorem osTicks_taskCall {c : TaskCall} {new : Option Tid} (hk : c.exec k = some (k', new)) :
    k'.osTicks = k.osTicks := by
  cases c with
  | create p name =>
      obtain ⟨r, hr, he⟩ := Option.map_eq_some_iff.mp hk
      cases he
      exact osTicks_create hr
  | createRaw p name size =>
      obtain ⟨r, hr, he⟩ := Option.map_eq_some_iff.mp hk
      cases he
      exact osTicks_createRaw hr
  | exitCurrent =>
      obtain ⟨k₁, hk₁, he⟩ := Option.map_eq_some_iff.mp hk
      cases he
      obtain ⟨c, -, hk₁⟩ := Option.bind_eq_some_iff.mp hk₁
      rw [osTicks_yieldTask hk₁]
      rfl
  | block t =>
      obtain ⟨k₁, hk₁, he⟩ := Option.map_eq_some_iff.mp hk
      cases he
      exact osTicks_block hk₁
  | resume t =>
      obtain ⟨k₁, hk₁, he⟩ := Option.map_eq_some_iff.mp hk
      cases he
      exact osTicks_resume hk₁
  | terminate t =>
      obtain ⟨k₁, hk₁, he⟩ := Option.map_eq_some_iff.mp hk
      cases he
      exact osTicks_terminate hk₁
  | delay ticks =>
      obtain ⟨k₁, hk₁, he⟩ := Option.map_eq_some_iff.mp hk
      cases he
      exact osTicks_delay hk₁
  | yieldTask =>
      obtain ⟨k₁, hk₁, he⟩ := Option.map_eq_some_iff.mp hk
      cases he
      exact osTicks_yieldTask hk₁

/-! ### Sections on the objects -/

theorem osTicks_wakeAll (k : Kernel) (ts : List Tid) : (k.wakeAll ts).osTicks = k.osTicks := by
  induction ts generalizing k with
  | nil => rfl
  | cons t ts ih => exact ih (k.wake t)

theorem osTicks_boost (k : Kernel) (o : Tid) (pri : ℕ) : (k.boost o pri).osTicks = k.osTicks := by
  rcases lt_or_ge pri (k.priority o) with hlt | hge
  · rw [boost_of_lt hlt]
    split_ifs <;> rfl
  · rw [boost_of_le hge]

theorem osTicks_restore (k : Kernel) (c : Tid) : (k.restore c).osTicks = k.osTicks := by
  unfold restore
  split_ifs <;> rfl

theorem osTicks_semaDown (i : SemaInner) (k : Kernel) (c : Tid) :
    (i.down k c).kernel.osTicks = k.osTicks := by
  unfold SemaInner.down
  dsimp only
  split_ifs <;> rfl

theorem osTicks_semaUp (i : SemaInner) (k : Kernel) : (i.up k).kernel.osTicks = k.osTicks := by
  unfold SemaInner.up
  split <;> rfl

theorem osTicks_mutexLock (i : MutexInner) (k : Kernel) (c : Tid) :
    (i.lock k c).kernel.osTicks = k.osTicks := by
  unfold MutexInner.lock
  split_ifs
  · rfl
  · split
    · exact osTicks_boost k _ _
    · rfl

theorem osTicks_mutexUnlock (i : MutexInner) (k : Kernel) (c : Tid) :
    (i.unlock k c).kernel.osTicks = k.osTicks := by
  unfold MutexInner.unlock
  dsimp only
  split_ifs
  · rfl
  · split
    · exact osTicks_restore k c
    · exact osTicks_restore k c

theorem osTicks_condNotify (queue : TaskList) (k : Kernel) :
    (condNotify queue k).kernel.osTicks = k.osTicks := by
  unfold condNotify
  split <;> rfl

theorem osTicks_tryWakeUp (waitList : TaskList) (k : Kernel) (c : Tid) :
    (tryWakeUp waitList k c).kernel.osTicks = k.osTicks := by
  unfold tryWakeUp
  split <;> rfl

end Kernel

namespace System

variable {cr : Tid}

theorem osTicks_yieldIf {b : Bool} (hs : σ.yieldIf b = some σ') :
    σ'.kernel.osTicks = σ.kernel.osTicks := by
  obtain ⟨k, hk, rfl⟩ := yieldIf_eq_some hs
  exact Kernel.osTicks_yieldIf hk

theorem osTicks_task {c : TaskCall} (hs : σ.task c = some σ') :
    σ'.kernel.osTicks = σ.kernel.osTicks := by
  obtain ⟨⟨k, new⟩, hr, rfl⟩ := Option.map_eq_some_iff.mp hs
  cases new with
  | none => exact osTicks_taskCall hr
  | some t => exact osTicks_taskCall hr

theorem osTicks_lock {m : ℕ} (hs : σ.lock cr m = some σ') :
    σ'.kernel.osTicks = σ.kernel.osTicks := by
  unfold System.lock at hs
  dsimp only at hs
  rw [osTicks_yieldIf hs]
  split_ifs
  · exact osTicks_mutexLock _ _ _
  · exact osTicks_mutexLock _ _ _

theorem osTicks_delay {ticks : BitVec 32} (hs : σ.delay ticks = some σ') :
    σ'.kernel.osTicks = σ.kernel.osTicks := by
  obtain ⟨k, hk, rfl⟩ := Option.map_eq_some_iff.mp hs
  exact Kernel.osTicks_delay hk

theorem osTicks_commitSend {q : ℕ} {msg : T} (hs : σ.commitSend cap cr q msg = some σ') :
    σ'.kernel.osTicks = σ.kernel.osTicks := by
  rw [osTicks_yieldIf hs]
  exact osTicks_tryWakeUp _ _ _

theorem osTicks_commitRecv {q : ℕ} (hs : σ.commitRecv cap cr q = some σ') :
    σ'.kernel.osTicks = σ.kernel.osTicks := by
  obtain ⟨⟨msg, r⟩, hr, hs⟩ := Option.bind_eq_some_iff.mp hs
  obtain ⟨-, rfl⟩ := MsgQueueInner.commitRecv_eq_some hr
  rw [osTicks_yieldIf hs]
  exact osTicks_tryWakeUp _ _ _

theorem osTicks_call {c : Call T} (hs : σ.call cap cr c = some σ') :
    σ'.kernel.osTicks = σ.kernel.osTicks := by
  cases c with
  | task c => exact osTicks_task hs
  | down s =>
      unfold System.call System.down at hs
      dsimp only at hs
      rw [osTicks_yieldIf hs]
      split_ifs
      · exact osTicks_semaDown _ _ _
      · exact osTicks_semaDown _ _ _
  | downTimeout s ticks =>
      cases hs
      unfold System.downTimeout
      dsimp only
      split_ifs <;> rfl
  | tryDown s =>
      cases hs
      unfold System.tryDown
      dsimp only
      split_ifs <;> rfl
  | up s =>
      rw [osTicks_yieldIf hs]
      exact osTicks_semaUp _ _
  | lock m =>
      unfold System.call at hs
      dsimp only at hs
      split_ifs at hs
      exact osTicks_lock hs
  | unlock m =>
      unfold System.call at hs
      dsimp only at hs
      split_ifs at hs
      rw [osTicks_yieldIf hs]
      exact osTicks_mutexUnlock _ _ _
  | wait c m =>
      unfold System.call at hs
      dsimp only at hs
      split_ifs at hs
      rw [osTicks_yieldIf hs]
      exact osTicks_mutexUnlock _ _ _
  | notify c =>
      rw [osTicks_yieldIf hs]
      exact osTicks_condNotify _ _
  | notifyAll c =>
      rw [osTicks_yieldIf hs]
      exact osTicks_wakeAll _ _
  | send q msg timeout =>
      unfold System.call System.send at hs
      dsimp only at hs
      split_ifs at hs
      · exact (osTicks_commitSend hs).trans rfl
      · cases hs
        rfl
      · cases hs
        rfl
  | recv q timeout =>
      unfold System.call System.recv at hs
      dsimp only at hs
      split_ifs at hs
      · exact (osTicks_commitRecv hs).trans rfl
      · cases hs
        rfl
      · cases hs
        rfl

theorem osTicks_proceed (hs : σ.proceed cap cr = some σ') :
    σ'.kernel.osTicks = σ.kernel.osTicks := by
  unfold System.proceed at hs
  split at hs
  · cases hs
  · cases hs
    rfl
  · exact (osTicks_yieldIf hs).trans rfl
  · cases hs
    unfold System.downTimeoutCheck
    dsimp only
    split_ifs <;> rfl
  · cases hs
    rfl
  · exact (osTicks_yieldIf hs).trans rfl
  · exact osTicks_lock hs
  · cases hs
    rfl
  · exact (osTicks_delay hs).trans rfl
  · cases hs
    unfold System.sendCheck
    dsimp only
    split_ifs <;> rfl
  · split_ifs at hs
    · exact osTicks_commitSend hs
    · cases hs
      rfl
  · cases hs
    rfl
  · exact (osTicks_delay hs).trans rfl
  · cases hs
    unfold System.recvCheck
    dsimp only
    split_ifs <;> rfl
  · split_ifs at hs
    · exact osTicks_commitRecv hs
    · cases hs
      rfl

/-- **Only a systick interrupt advances the clock.** -/
theorem osTicks_step (hs : σ.step cap a = some σ') (ha : ∀ missed, a ≠ .systick missed) :
    σ'.kernel.osTicks = σ.kernel.osTicks := by
  cases a with
  | systick missed => exact absurd rfl (ha missed)
  | preempt => exact osTicks_yieldIf hs
  | upFromIsr s =>
      cases hs
      exact osTicks_semaUp _ _
  | call c =>
      obtain ⟨cr, -, hs⟩ := Option.bind_eq_some_iff.mp hs
      split at hs
      · exact osTicks_call hs
      · cases hs
  | proceed =>
      obtain ⟨cr, -, hs⟩ := Option.bind_eq_some_iff.mp hs
      exact osTicks_proceed hs

end System

end MosKernel
