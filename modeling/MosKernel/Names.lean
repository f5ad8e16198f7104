import MosKernel.Partition

/-!
# Names of tasks

A control block is named when it is allocated to a new task, and nothing else writes the name: `SameNames`
holds of every operation but the creations.  A creation takes an identifier that is free, so a task keeps
its name as long as it lives (`TaskAction.step_name`).
-/

namespace MosKernel

open Transition

namespace Kernel

variable {k k' k'' : Kernel} {t u : Tid} {p : ℕ} {name : String}

/-- No control block is renamed. -/
def SameNames (k k' : Kernel) : Prop := ∀ t, (k'.tcbs t).name = (k.tcbs t).name

theorem SameNames.refl (k : Kernel) : SameNames k k := fun _ => rfl

theorem SameNames.trans (h : SameNames k k') (h' : SameNames k' k'') : SameNames k k'' :=
  fun t => (h' t).trans (h t)

/-- A write to another field. -/
theorem sameNames_setTcb {f : Tcb → Tcb} (hf : (f (k.tcbs t)).name = (k.tcbs t).name) :
    SameNames k (k.setTcb t f) := by
  intro u
  rw [setTcb_tcbs, Function.update_apply]
  split_ifs with hu
  · rw [hf, hu]
  · rfl

theorem sameNames_setStatus (k : Kernel) (t : Tid) (st : TaskStatus) : SameNames k (k.setStatus t st) :=
  sameNames_setTcb rfl

theorem sameNames_expire (k : Kernel) (t : Tid) : SameNames k (k.expire t) := by
  have hset : SameNames (k.sleepingRemove t) ((k.sleepingRemove t).setTcb t fun tcb =>
    { tcb with status := .ready, wakePoint := 0 }) := sameNames_setTcb rfl
  exact hset

theorem sameNames_wakeUpSleepers (k : Kernel) : SameNames k k.wakeUpSleepers :=
  wakeUpSleepers_induct (SameNames.refl k) fun k' t h _ _ => h.trans (sameNames_expire k' t)

theorem sameNames_requeue (k : Kernel) (t : Tid) : SameNames k (k.requeue t) := by
  have hset : SameNames k (k.setTcb t fun tcb => { tcb with
    timeSlice := MosKernel.timeSlice, status := .ready }) := sameNames_setTcb rfl
  rw [requeue]
  split_ifs
  · exact .refl k
  · exact hset
  · exact .refl k

theorem sameNames_switchTo (k : Kernel) (t u : Tid) : SameNames k (k.switchTo t u) := by
  rw [switchTo]
  split_ifs
  · exact (sameNames_setStatus k t .ready).trans (sameNames_setStatus _ u .running)
  · exact sameNames_setStatus k u .running
  · exact .refl k

theorem sameNames_nextTcb (hk : k.nextTcb = some k') : SameNames k k' := by
  obtain ⟨cr, -, hk⟩ := Option.bind_eq_some_iff.mp hk
  obtain ⟨st, -, rfl⟩ := Option.map_eq_some_iff.mp hk
  exact ((sameNames_wakeUpSleepers k).trans (sameNames_requeue _ cr)).trans (sameNames_switchTo _ cr st)

theorem sameNames_yieldTask (hk : k.yieldTask = some k') : SameNames k k' := by
  rw [yieldTask] at hk
  split_ifs at hk
  · exact sameNames_nextTcb hk
  · cases hk
    exact .refl k

/-- A critical section that ends with a yield. -/
theorem SameNames.yieldTask (h : SameNames k k') (hk : k'.yieldTask = some k'') : SameNames k k'' :=
  h.trans (sameNames_yieldTask hk)

/-! ### The operations -/

theorem sameNames_exitCurrent (hk : k.exitCurrent = some k') : SameNames k k' := by
  obtain ⟨cr, -, hk⟩ := Option.bind_eq_some_iff.mp hk
  exact (sameNames_setStatus ((k.readyRemove cr).clearBit cr) cr .terminated).yieldTask hk

theorem sameNames_block (hk : k.block t = some k') : SameNames k k' := by
  have hpark : SameNames k ((k.park t).blockedPush t) := sameNames_setStatus k t .blocked
  rw [block] at hk
  split at hk
  · exact hpark.yieldTask hk
  · exact hpark.yieldTask hk
  · cases hk
    exact .refl k

theorem sameNames_resume (hk : k.resume t = some k') : SameNames k k' := by
  have hwake : SameNames k ((k.blockedRemove t).wake t) := sameNames_setStatus (k.blockedRemove t) t .ready
  rw [resume] at hk
  split at hk
  · cases hk
    exact .refl k
  · split at hk
    · cases hk
      exact .refl k
    · dsimp only at hk
      split at hk
      · split_ifs at hk
        · exact hwake.yieldTask hk
        · cases hk
          exact hwake
      · cases hk
        exact hwake

theorem sameNames_terminate (hk : k.terminate t = some k') : SameNames k k' := by
  rw [terminate] at hk
  split_ifs at hk
  · cases hk
    exact .refl k
  · exact (sameNames_setStatus ((((k.readyRemove t).sleepingRemove t).blockedRemove t).clearBit t) t
      .terminated).yieldTask hk

theorem sameNames_delay {ticks : BitVec 32} (hk : k.delay ticks = some k') : SameNames k k' := by
  rw [delay] at hk
  split_ifs at hk
  · cases hk
    exact .refl k
  · obtain ⟨cr, -, hk⟩ := Option.bind_eq_some_iff.mp hk
    have hpoint : SameNames k (k.setTcb cr fun tcb => { tcb with wakePoint := k.osTicks + ticks }) :=
      sameNames_setTcb rfl
    have hsleep : SameNames k (k.sleep cr ticks) := hpoint.trans (sameNames_setStatus _ cr .blocked)
    exact hsleep.yieldTask hk

theorem sameNames_systickTick {r : Bool} (hk : k.systickTick = some (k', r)) : SameNames k k' := by
  rw [systickTick] at hk
  split_ifs at hk
  · cases hk
    exact .refl k
  · obtain ⟨cr, -, hk⟩ := Option.map_eq_some_iff.mp hk
    cases hk
    rw [chargeSlice]
    split_ifs
    · exact sameNames_setTcb (k := k.advanceTicks) rfl
    · exact .refl k

theorem sameNames_systickReplay {missed : ℕ} {r : Bool} (hk : k.systickReplay missed = some (k', r)) :
    SameNames k k' := by
  induction missed generalizing k' r with
  | zero => exact sameNames_systickTick hk
  | succ missed ih =>
      obtain ⟨⟨k₁, r₁⟩, hk₁, hk⟩ := Option.bind_eq_some_iff.mp hk
      obtain ⟨⟨k₂, r₂⟩, hk₂, hk⟩ := Option.bind_eq_some_iff.mp hk
      cases hk
      exact (ih hk₁).trans (sameNames_systickTick hk₂)

theorem sameNames_systickTrap {missed : ℕ} (hk : k.systickTrap missed = some k') : SameNames k k' := by
  obtain ⟨⟨k₁, r⟩, hk₁, hk⟩ := Option.bind_eq_some_iff.mp hk
  have h₁ := sameNames_systickReplay hk₁
  dsimp only at hk
  split_ifs at hk
  · exact h₁.yieldTask hk
  · cases hk
    exact h₁

/-! ### Creation -/

/-- A new task is not one that lives. -/
theorem Coherent.addTask_name (h : k.Coherent) {k₁ : Kernel} (p : ℕ) (name : String)
    (ha : k.allocTid = some (t, k₁)) (hu : k.status u ≠ .terminated) :
    ((k₁.addTask t p name).tcbs u).name = (k.tcbs u).name := by
  have hadded := h.added p name ha
  rw [hadded.tcbs u (hadded.ne hu)]

theorem Coherent.create_name {r : Except String Tid} (h : k.Coherent) (hk : k.create p name = some (k', r))
    (hu : k.status u ≠ .terminated) : (k'.tcbs u).name = (k.tcbs u).name := by
  rw [create] at hk
  split at hk
  · cases hk
    rfl
  · rename_i t k₁ ha
    rw [← h.addTask_name p name ha hu]
    obtain ⟨k₂, hk₂, he⟩ := Option.map_eq_some_iff.mp hk
    cases he
    split at hk₂
    · split_ifs at hk₂
      · exact sameNames_yieldTask hk₂ u
      · cases hk₂
        rfl
    · cases hk₂
      rfl

theorem Coherent.createRaw_name {size : ℕ} {r : Except String Tid} (h : k.Coherent)
    (hk : k.createRaw p name size = some (k', r)) (hu : k.status u ≠ .terminated) :
    (k'.tcbs u).name = (k.tcbs u).name := by
  rw [createRaw] at hk
  split at hk
  · cases hk
    rfl
  · rename_i t k₁ ha
    split at hk
    · cases hk
      exact h.addTask_name p name ha hu
    · cases hk

end Kernel

open Kernel

/-- **A living task keeps its name** in every step. -/
theorem TaskAction.step_name {k k' : Kernel} {a : TaskAction} {u : Tid} (h : k.Coherent)
    (hs : a.step k = some k') (hu : k.status u ≠ .terminated) : (k'.tcbs u).name = (k.tcbs u).name := by
  cases a with
  | call call =>
      obtain ⟨⟨k₁, r⟩, he, hk⟩ := Option.map_eq_some_iff.mp hs
      cases hk
      cases call with
      | create p name =>
          obtain ⟨⟨k₂, r₂⟩, hk, he⟩ := Option.map_eq_some_iff.mp he
          cases he
          exact h.create_name hk hu
      | createRaw p name size =>
          obtain ⟨⟨k₂, r₂⟩, hk, he⟩ := Option.map_eq_some_iff.mp he
          cases he
          exact h.createRaw_name hk hu
      | exitCurrent =>
          obtain ⟨k₂, hk, he⟩ := Option.map_eq_some_iff.mp he
          cases he
          exact sameNames_exitCurrent hk u
      | block t =>
          obtain ⟨k₂, hk, he⟩ := Option.map_eq_some_iff.mp he
          cases he
          exact sameNames_block hk u
      | resume t =>
          obtain ⟨k₂, hk, he⟩ := Option.map_eq_some_iff.mp he
          cases he
          exact sameNames_resume hk u
      | terminate t =>
          obtain ⟨k₂, hk, he⟩ := Option.map_eq_some_iff.mp he
          cases he
          exact sameNames_terminate hk u
      | delay ticks =>
          obtain ⟨k₂, hk, he⟩ := Option.map_eq_some_iff.mp he
          cases he
          exact sameNames_delay hk u
      | yieldTask =>
          obtain ⟨k₂, hk, he⟩ := Option.map_eq_some_iff.mp he
          cases he
          exact sameNames_yieldTask hk u
  | systick missed => exact sameNames_systickTrap hs u

end MosKernel
