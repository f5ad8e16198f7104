import MosKernel.Passes

/-!
# The running task

`next_tcb` marks the outgoing task `Ready` before it looks at the front of `READY_LIST`, and marks the
front `Running` only where that is another task.  So the task that goes on running after a pass is
`Ready`.  `RunsAlone` says that the status field is right: the task that `CURRENT_TCB_PTR` shows is
`Running`, and nobody else is.  `current_task_runs_alone` says that this holds all along a run exactly as
long as every pass finds another task to switch to.
-/

namespace MosKernel

open TaskList Transition Kernel

/-- The current task is the one and only running one. -/
structure Kernel.RunsAlone (k : Kernel) : Prop where
  current : ∃ c, k.currentTcbPtr = some c ∧ k.status c = .running
  others : ∀ t, k.currentTcbPtr ≠ some t → k.status t ≠ .terminated →
    k.status t = .ready ∨ k.status t = .blocked

/-- If the action makes a scheduling pass, the outgoing task gives way in it. -/
def TaskAction.GivesWay (k : Kernel) (a : TaskAction) : Prop :=
  ∀ r ∈ a.enter k, r.2 = true → ∀ c ∈ r.1.currentTcbPtr, r.1.GivesWay c

instance (k : Kernel) (a : TaskAction) : Decidable (a.GivesWay k) :=
  inferInstanceAs (Decidable (∀ r ∈ a.enter k, r.2 = true → ∀ c ∈ r.1.currentTcbPtr, r.1.GivesWay c))

namespace Kernel

variable {k k₁ k' : Kernel} {c : Tid} {b : Bool}

theorem Coherent.runsAlone (h : k.Coherent) (hc : k.currentTcbPtr = some c)
    (hst : k.status c = .running) : k.RunsAlone := by
  refine ⟨⟨c, hc, hst⟩, fun t ht halive => ?_⟩
  have hrun : k.status t ≠ .running := fun hr => ht (h.running t hr)
  cases hs : k.status t with
  | terminated => exact absurd hs halive
  | ready => exact .inl rfl
  | running => exact absurd hs hrun
  | blocked => exact .inr rfl

/-- After a pass the current task is running exactly if it is another one than before. -/
theorem Coherent.nextTcb_running (h : k.Coherent) (ho : k.OnCpu c) (hk : k.nextTcb = some k') :
    k'.RunsAlone ↔ k'.currentTcbPtr ≠ some c := by
  have hco : k'.Coherent := by
    obtain ⟨c', hc'⟩ := (h.nextTcb ho hk).settled
    exact hc'.toCoherent
  obtain ⟨st, -, rfl⟩ := nextTcb_eq_some ho hk
  have hcw : k.wakeUpSleepers.currentTcbPtr = some c :=
    (currentTcbPtr_wakeUpSleepers k).trans ho.current
  obtain ⟨-, -, hnone⟩ := h.wakeUpSleepers.1.requeue hcw
  have hcur : (k.wakeUpSleepers.requeue c).currentTcbPtr = some c :=
    (currentTcbPtr_requeue _ c).trans hcw
  have hsel := currentTcbPtr_switchTo (t := st) hcur
  rw [hsel]
  by_cases hne : st = c
  · subst hne
    refine iff_of_false (fun halone => ?_) fun hne => hne rfl
    obtain ⟨c', hc', hst⟩ := halone.current
    have hsame : (k.wakeUpSleepers.requeue st).switchTo st st = k.wakeUpSleepers.requeue st :=
      if_neg (not_not.mpr rfl)
    rw [hsame] at hst
    exact hnone c' hst
  · refine iff_of_true (hco.runsAlone hsel ?_) fun he => hne (Option.some.inj he)
    unfold Kernel.switchTo
    rw [if_pos hne, status_setCurrent, setStatus, status_setTcb, if_pos rfl]

/-- **One action.**  The status field stays right exactly if the outgoing task gives way. -/
theorem RunsAlone.step_iff {a : TaskAction} (h : k.RunsAlone) (hb : k.Between)
    (hs : a.step k = some k') : k'.RunsAlone ↔ a.GivesWay k := by
  obtain ⟨c, hc⟩ := hb.settled
  rw [TaskAction.step_eq] at hs
  obtain ⟨⟨k₁, b⟩, he, hk⟩ := Option.bind_eq_some_iff.mp hs
  have hent := TaskAction.enters hc hb.ranked he
  have hrun : k.status c = .running := by
    obtain ⟨c', hc', hst⟩ := h.current
    rw [hc.current] at hc'
    cases hc'
    exact hst
  have hgives : a.GivesWay k ↔ (b = true → k₁.GivesWay c) := by
    unfold TaskAction.GivesWay
    rw [he]
    simp only [Option.mem_def, Option.some.injEq, forall_eq', hent.onCpu.current]
  rw [hgives]
  cases b with
  | false =>
      cases hk
      refine iff_of_true (hent.coherent.runsAlone hent.onCpu.current ?_) (by simp)
      rw [hent.status.resolve_right (by simp)]
      exact hrun
  | true =>
      replace hk : k₁.nextTcb = some k' := by
        rw [Kernel.yieldIf, if_pos rfl, yieldTask, if_pos hent.onCpu.ready] at hk
        exact hk
      have hready : k₁.status c ≠ .ready := by
        rcases hent.status with hst | ⟨-, hst | hst⟩ <;> rw [hst]
        · rw [hrun]
          simp
        · simp
        · simp
      have hdue : k₁.status c = .blocked → ∀ t ∈ k₁.sleepingList.tids, t ≠ c →
          k₁.osTicks < (k₁.tcbs t).wakePoint := by
        intro hst
        refine hent.notDue ?_
        rw [hst, hrun]
        simp
      rw [hent.coherent.nextTcb_running hent.onCpu hk,
        hent.coherent.nextTcb_current hent.onCpu hent.inOrder hready hdue hk]
      simp

theorem runsAlone_launchAfter {boots : List BootCall} (h : launchAfter boots = some k) :
    k.RunsAlone := by
  obtain ⟨⟨c, hc⟩, -⟩ := settled_launchAfter h
  obtain ⟨k₀, first, -, -, -, rfl⟩ :=
    launchAfter_induct (P := fun _ => True) trivial (fun _ _ _ _ _ _ _ _ => trivial) h
  refine hc.toCoherent.runsAlone (c := first) rfl ?_
  show ((k₀.setStatus first .running).setCurrent first).status first = .running
  rw [status_setCurrent, setStatus, status_setTcb, if_pos rfl]

end Kernel

/-- **When the current task is the one and only running one.**  In every run of task operations, yields
and late ticks from a launch, the status field is right in all states exactly if in every pass of
`next_tcb` the outgoing task either stops or finds another task, ready or due, that is at least as
urgent. -/
theorem current_task_runs_alone {boots : List BootCall} {k₀ k : Kernel}
    {tr : List (Kernel × TaskAction)} (hl : launchAfter boots = some k₀)
    (hr : Run TaskAction.step (fun _ _ => True) k₀ tr k) :
    Always Kernel.RunsAlone tr k ↔ ∀ e ∈ tr, e.2.GivesWay e.1 := by
  refine hr.forall_iff (I := fun k => k.Between ∧ k.RunsAlone) (C := fun k a => a.GivesWay k)
    ⟨between_launchAfter hl, runsAlone_launchAfter hl⟩ (fun k h => h.2) ?_ ?_
  · rintro k a k' ⟨hb, h⟩ - hs hC
    exact ⟨TaskAction.between hb hs, (h.step_iff hb hs).mpr hC⟩
  · rintro k a k' ⟨hb, h⟩ - hs hP
    exact (h.step_iff hb hs).mp hP

/-- Two equals, a creation and sleepers: every pass switches. -/
theorem current_task_runs_alone_run :
    ∃ k₀ tr k, launchAfter [.create 3 "a", .create 3 "b"] = some k₀ ∧
      Run TaskAction.step (fun _ _ => True) k₀ tr k ∧ k.currentTcbPtr = some 3 ∧
      Always Kernel.RunsAlone tr k := by
  have hsome : (launchAfter [.create 3 "a", .create 3 "b"]).isSome = true := by decide +kernel
  obtain ⟨k₀, hk₀⟩ := Option.isSome_iff_exists.mp hsome
  have hexec : ((launchAfter [.create 3 "a", .create 3 "b"]).bind fun k₀ =>
      exec TaskAction.step (fun k a => decide (a.GivesWay k)) k₀
        [.call .yieldTask, .call (.delay 5), .call (.create 1 "c"), .call (.delay 9), .systick 9]).any
          (fun k => k.currentTcbPtr = some 3) = true := by decide +kernel
  rw [hk₀, Option.bind_some] at hexec
  obtain ⟨tr, k, hr, hk⟩ := exists_run_of_exec (fun (k : Kernel) (a : TaskAction)
    (h : decide (a.GivesWay k) = true) => of_decide_eq_true h) hexec
  have hrun : Run TaskAction.step (fun _ _ => True) k₀ tr k := hr.mono fun _ _ _ => trivial
  exact ⟨k₀, tr, k, hk₀, hrun, of_decide_eq_true hk,
    (current_task_runs_alone hk₀ hrun).mpr hr.forall_guard⟩

/-- With nobody but the idle task, its yield re-selects it, and it goes on as `Ready`. -/
theorem current_task_is_ready :
    ∃ k₀ tr k, launchAfter [] = some k₀ ∧ Run TaskAction.step (fun _ _ => True) k₀ tr k ∧
      k.currentTcbPtr = some 0 ∧ k.status 0 = .ready ∧ ¬Always Kernel.RunsAlone tr k := by
  have hsome : (launchAfter []).isSome = true := by decide +kernel
  obtain ⟨k₀, hk₀⟩ := Option.isSome_iff_exists.mp hsome
  have hexec : ((launchAfter []).bind fun k₀ => exec TaskAction.step (fun _ _ => true) k₀
      [.call .yieldTask]).any (fun k => k.currentTcbPtr = some 0 ∧ k.status 0 = .ready) = true := by
    decide +kernel
  rw [hk₀, Option.bind_some] at hexec
  obtain ⟨tr, k, hr, hk⟩ := exists_run_of_exec (fun _ _ _ => trivial) hexec
  obtain ⟨hcur, hst⟩ := of_decide_eq_true hk
  refine ⟨k₀, tr, k, hk₀, hr, hcur, hst, fun hall => ?_⟩
  obtain ⟨c, hc, hrun⟩ := hall.2.current
  rw [hcur] at hc
  cases hc
  rw [hst] at hrun
  cases hrun

end MosKernel
