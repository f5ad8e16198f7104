import MosKernel.SystemPasses

/-!
# Preemption by a tick

`Task::create_raw` and `Sema::up_from_isr` put a task on `READY_LIST` without a switch and leave it to the
next `systick_tick` to preempt the running task.  But `systick_tick` looks at the running task's slice and
at `SLEEPING_LIST` only, and never at who is ready.  `tick_preempts` says exactly when it asks for the pass
that a more urgent task waits for, in every state of every run of the system.
-/

namespace MosKernel

open OrderedInsert TaskList Transition Kernel

variable {T : Type} {cap : ℕ → ℕ}

namespace Kernel

variable {k k₁ k' : Kernel} {c t : Tid}

/-- `systick_tick` returns `1`. -/
def AsksForPass (k : Kernel) : Prop := ∃ k₁, k.systickTick = some (k₁, true)

/-- `systick_tick` returns `1`, and `next_tcb` then selects a task that is at least as urgent as `t`. -/
def TickSwitches (k : Kernel) (t : Tid) : Prop :=
  ∃ k₁ k' st, k.systickTick = some (k₁, true) ∧ k₁.nextTcb = some k' ∧ k'.currentTcbPtr = some st ∧
    k.priority st ≤ k.priority t

/-- This tick uses up the slice of `c`, or somebody sleeps. -/
def SliceEnds (k : Kernel) (c : Tid) : Prop := (k.tcbs c).timeSlice ≤ 1 ∨ k.sleepingList.tids ≠ []

instance (k : Kernel) (c : Tid) : Decidable (k.SliceEnds c) := inferInstanceAs (Decidable (_ ∨ _))

instance (k : Kernel) : Decidable k.Sorted :=
  inferInstanceAs (Decidable (k.readyList.tids.Pairwise fun t u => k.priority t ≤ k.priority u))

theorem OnCpu.asksForPass_iff (ho : k.OnCpu c) : k.AsksForPass ↔ k.SliceEnds c := by
  unfold AsksForPass SliceEnds
  rw [systickTick_ticked ho]
  simp [TaskList.isEmpty]

/-! ### A pass over a list in order -/

theorem Sorted.expire (h : k.Sorted) (t : Tid) : (k.expire t).Sorted := by
  refine sorted_readyInsert.mpr (h.congr (List.Sublist.refl _) fun u _ => ?_)
  rw [priority_setTcb]
  split_ifs with hu
  · rw [hu]
    rfl
  · rfl

theorem Sorted.requeue (h : k.Sorted) (c : Tid) : (k.requeue c).Sorted := by
  have hrem : ∀ k₁ : Kernel, k₁.readyList = k.readyList → (∀ u, k₁.priority u = k.priority u) →
      (k₁.readyRemove c).Sorted := by
    intro k₁ hl hp
    refine h.congr ?_ fun u _ => hp u
    rw [readyRemove_readyList, remove_tids, hl]
    exact List.erase_sublist
  unfold Kernel.requeue
  split_ifs
  · exact hrem k rfl fun _ => rfl
  · refine sorted_readyInsert.mpr (hrem _ rfl fun u => ?_)
    rw [priority_setTcb]
    split_ifs with hu
    · rw [hu]
      rfl
    · rfl
  · exact h

theorem mem_requeue_of_mem (ht : t ∈ k.readyList.tids) (htc : t ≠ c) :
    t ∈ (k.requeue c).readyList.tids :=
  List.count_pos_iff.mp ((List.count_pos_iff.mpr ht).trans_le (count_le_requeue k htc))

/-- Whoever is selected is at least as urgent as every other ready task. -/
theorem Sorted.nextTcb_le (h : k.Sorted) (ho : k.OnCpu c) (ht : t ∈ k.readyList.tids) (htc : t ≠ c) :
    ∃ k' st, k.nextTcb = some k' ∧ k'.currentTcbPtr = some st ∧ k.priority st ≤ k.priority t := by
  have hw : k.wakeUpSleepers.Sorted ∧ t ∈ k.wakeUpSleepers.readyList.tids := by
    refine wakeUpSleepers_induct (P := fun k' => k'.Sorted ∧ t ∈ k'.readyList.tids) ⟨h, ht⟩ ?_
    rintro k' u ⟨hs, hm⟩ - -
    exact ⟨hs.expire u, mem_ready_expire_of_mem hm⟩
  have hm := mem_requeue_of_mem hw.2 htc
  have hpri := ((frame_wakeUpSleepers k).trans (frame_requeue _ c)).priority
  obtain ⟨st, l, hlist⟩ := List.exists_cons_of_ne_nil (List.ne_nil_of_mem hm)
  have hfront : (k.wakeUpSleepers.requeue c).readyList.front = some st := by
    rw [TaskList.front, hlist]
    rfl
  have hcr : k.wakeUpSleepers.crTid = some c := by
    rw [Kernel.crTid, currentTcbPtr_wakeUpSleepers, ho.current, Option.map_some,
      (frame_wakeUpSleepers k).tid, ho.tid]
  refine ⟨(k.wakeUpSleepers.requeue c).switchTo c st, st, ?_, ?_, ?_⟩
  · rw [nextTcb, hcr, Option.bind_some]
    dsimp only
    rw [hfront, Option.map_some]
  · refine currentTcbPtr_switchTo ?_
    rw [currentTcbPtr_requeue, currentTcbPtr_wakeUpSleepers, ho.current]
  · rw [← hpri st, ← hpri t]
    exact (hw.1.requeue c).front_le hfront hm

theorem Sorted.tickSwitches_iff (h : k.Sorted) (ho : k.OnCpu c) (ht : t ∈ k.readyList.tids)
    (htc : t ≠ c) : k.TickSwitches t ↔ k.SliceEnds c := by
  rw [← ho.asksForPass_iff]
  constructor
  · rintro ⟨k₁, k', st, htick, -⟩
    exact ⟨k₁, htick⟩
  · rintro ⟨k₁, htick⟩
    have htick' := htick
    rw [systickTick_ticked ho] at htick'
    obtain rfl : k.ticked c 1 = k₁ := (Prod.mk.inj (Option.some.inj htick')).1
    have hpri : ∀ u, (k.ticked c 1).priority u = k.priority u := by
      intro u
      show (k.setTcb c fun tcb => { tcb with timeSlice := tcb.timeSlice - 1 }).priority u = _
      rw [priority_setTcb]
      split_ifs with hu
      · rw [hu]
        rfl
      · rfl
    have hs : (k.ticked c 1).Sorted := h.congr (List.Sublist.refl _) fun u _ => hpri u
    obtain ⟨k', st, hk', hst, hle⟩ := hs.nextTcb_le (ho.ticked 1) ht htc
    rw [hpri, hpri] at hle
    exact ⟨_, k', st, htick, hk', hst, hle⟩

end Kernel

/-- **When a tick preempts.**  In every state of every run of all calls and interrupts from a launch: let
`c` run and a more urgent task `t` be on `READY_LIST`.  Then the next `systick_tick` returns `1` exactly if
it uses up the slice of `c` or somebody sleeps, and, with `READY_LIST` in order, exactly then the pass that
follows hands the processor to a task at least as urgent as `t`. -/
theorem tick_preempts {boots : List BootCall} {k₀ : Kernel} {counts : ℕ → ℤ} {σ : System T}
    {tr : List (System T × Action T)} (hl : launchAfter boots = some k₀)
    (hr : Run (System.step cap) (fun _ _ => True) (.init k₀ counts) tr σ) :
    Always (fun σ => ∀ c t, σ.kernel.currentTcbPtr = some c → t ∈ σ.kernel.readyList.tids →
      σ.kernel.priority t < σ.kernel.priority c →
        (σ.kernel.AsksForPass ↔ σ.kernel.SliceEnds c) ∧
        (σ.kernel.Sorted → (σ.kernel.TickSwitches t ↔ σ.kernel.SliceEnds c))) tr σ := by
  have hwithin : Always (fun σ : System T => ∃ P, σ.Within P) tr σ := by
    refine hr.always ⟨_, System.within_init hl⟩ ?_
    rintro σ a σ' ⟨P, hP⟩ - hs
    exact ⟨_, hP.step hs⟩
  have hstate : ∀ σ : System T, (∃ P, σ.Within P) → ∀ c t, σ.kernel.currentTcbPtr = some c →
      t ∈ σ.kernel.readyList.tids → σ.kernel.priority t < σ.kernel.priority c →
        (σ.kernel.AsksForPass ↔ σ.kernel.SliceEnds c) ∧
        (σ.kernel.Sorted → (σ.kernel.TickSwitches t ↔ σ.kernel.SliceEnds c)) := by
    rintro σ ⟨P, hP⟩ c t hc ht hlt
    have ho : σ.kernel.OnCpu c := ⟨hP.kernel.schedReady, hc, hP.kernel.tid c (hP.kernel.current c hc)⟩
    refine ⟨ho.asksForPass_iff, fun hs => hs.tickSwitches_iff ho ht ?_⟩
    rintro rfl
    exact lt_irrefl _ hlt
  exact ⟨fun e he => hstate e.1 (hwithin.1 e he), hstate σ hwithin.2⟩

/-- While another task sleeps, the tick after a `create_raw` preempts. -/
theorem tick_preempts_run : ∃ k₀ tr, ∃ σ : System Unit,
    launchAfter [.create 1 "s", .create 3 "a"] = some k₀ ∧
    Run (System.step fun _ => 4) (fun _ _ => True) (.init k₀ fun _ => 0) tr σ ∧
    σ.kernel.currentTcbPtr = some 1 ∧ (σ.kernel.tcbs 1).timeSlice = 50 ∧ σ.kernel.TickSwitches 3 := by
  have hsome : (launchAfter [.create 1 "s", .create 3 "a"]).isSome = true := by decide +kernel
  obtain ⟨k₀, hk₀⟩ := Option.isSome_iff_exists.mp hsome
  have hexec : ((launchAfter [.create 1 "s", .create 3 "a"]).bind fun k₀ =>
      exec (System.step fun _ => 4) (fun _ _ => true) (.init k₀ fun _ => 0 : System Unit)
        [.call (.task (.delay 100)), .call (.task (.createRaw 2 "t" 1024))]).any (fun σ =>
          decide (σ.kernel.currentTcbPtr = some 1 ∧ (σ.kernel.tcbs 1).timeSlice = 50 ∧
            3 ∈ σ.kernel.readyList.tids ∧ σ.kernel.priority 3 < σ.kernel.priority 1 ∧
            σ.kernel.Sorted ∧ σ.kernel.SliceEnds 1)) = true := by decide +kernel
  rw [hk₀, Option.bind_some] at hexec
  obtain ⟨tr, σ, hr, hσ⟩ := exists_run_of_exec (fun _ _ _ => trivial) hexec
  obtain ⟨hcur, hslice, hm, hlt, hs, hends⟩ := of_decide_eq_true hσ
  exact ⟨k₀, tr, σ, hk₀, hr, hcur, hslice, (((tick_preempts hk₀ hr).2 1 3 hcur hm hlt).2 hs).mpr hends⟩

/-- With a fresh slice and nobody asleep, the tick after a `create_raw` does not. -/
theorem tick_does_not_preempt : ∃ k₀ tr, ∃ σ : System Unit, launchAfter [.create 3 "a"] = some k₀ ∧
    Run (System.step fun _ => 4) (fun _ _ => True) (.init k₀ fun _ => 0) tr σ ∧
    σ.kernel.currentTcbPtr = some 0 ∧ 2 ∈ σ.kernel.readyList.tids ∧
    σ.kernel.priority 2 < σ.kernel.priority 0 ∧ ¬σ.kernel.AsksForPass := by
  have hsome : (launchAfter [.create 3 "a"]).isSome = true := by decide +kernel
  obtain ⟨k₀, hk₀⟩ := Option.isSome_iff_exists.mp hsome
  have hexec : ((launchAfter [.create 3 "a"]).bind fun k₀ =>
      exec (System.step fun _ => 4) (fun _ _ => true) (.init k₀ fun _ => 0 : System Unit)
        [.call (.task (.createRaw 2 "t" 1024))]).any (fun σ =>
          decide (σ.kernel.currentTcbPtr = some 0 ∧ 2 ∈ σ.kernel.readyList.tids ∧
            σ.kernel.priority 2 < σ.kernel.priority 0) && σ.kernel.systickTick.any fun r => !r.2) =
      true := by decide +kernel
  rw [hk₀, Option.bind_some] at hexec
  obtain ⟨tr, σ, hr, hσ⟩ := exists_run_of_exec (fun _ _ _ => trivial) hexec
  rw [Bool.and_eq_true] at hσ
  obtain ⟨hcur, hm, hlt⟩ := of_decide_eq_true hσ.1
  refine ⟨k₀, tr, σ, hk₀, hr, hcur, hm, hlt, ?_⟩
  rintro ⟨k₁, htick⟩
  rw [htick] at hσ
  simp at hσ

end MosKernel
