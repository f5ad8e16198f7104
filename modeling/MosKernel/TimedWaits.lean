import MosKernel.Lib.Transition
import MosKernel.SemaSteps

/-!
# Timed semaphore waits and the scheduler lists

A task in `Sema::down_timeout` is on a wait queue and on `SLEEPING_LIST` at once.  `up` and
`up_from_isr` take it off the queue and make it ready whatever state it is in: they leave the
sleeping entry behind, and they insert a task that its timeout has already made ready a second time.
`WakesWaiter` says that the task an `up` takes off the queue is blocked and does not sleep;
`timed_waits_keep_lists` says that the scheduler lists stay coherent exactly as long as every step
meets it.

One direction keeps the invariant `Waiting`.  For the other, `Damaged` is what a wrong `up` leaves
behind, and no switch repairs it.
-/

namespace MosKernel

open OrderedInsert TaskList Transition Kernel

variable {T : Type} {cap : ℕ → ℕ} {σ σ' : System T} {a : Action T}

/-- What the scheduler relies on. -/
structure Kernel.ListsOk (k : Kernel) : Prop where
  ready_nodup : k.readyList.tids.Nodup
  sleeping_nodup : k.sleepingList.tids.Nodup
  disjoint : ∀ t ∈ k.readyList.tids, t ∉ k.sleepingList.tids
  not_blocked : ∀ t ∈ k.readyList.tids, k.status t ≠ .blocked
  lost : k.lost = 0

namespace System

/-- The waiter that the action takes off a queue is blocked and does not sleep. -/
def WakesWaiter (σ : System T) (a : Action T) : Prop :=
  ∀ w ∈ σ.woken a, σ.kernel.status w = .blocked ∧ w ∉ σ.kernel.sleepingList.tids

instance : DecidableRel (WakesWaiter (T := T)) := fun σ a =>
  inferInstanceAs (Decidable (∀ w ∈ σ.woken a, _))

/-- The lists are coherent; who waits in `down` is parked, and who is in the timed wait of
`down_timeout` sleeps or is ready. -/
structure Waiting (σ : System T) : Prop where
  settled : ∃ c, σ.kernel.Settled c
  lost : σ.kernel.lost = 0
  blocked : σ.kernel.blockedList.tids = []
  queues : σ.Queues σ.kernel.Parked fun t =>
    ¬σ.kernel.Parked t ∧ σ.kernel.status t ≠ .terminated

theorem Waiting.listsOk (h : σ.Waiting) : σ.kernel.ListsOk := by
  obtain ⟨c, hc⟩ := h.settled
  refine ⟨hc.ready_nodup, hc.sleeping_nodup, fun t ht hs => ?_, fun t ht hb => ?_, h.lost⟩
  · exact hc.not_mem_ready (hc.of_mem_sleeping t hs) ht
  · exact hc.not_mem_ready hb ht

/-- The running task is settled on the processor. -/
theorem Waiting.running (h : σ.Waiting) {cr : Tid} (hcr : σ.kernel.crTid = some cr) :
    σ.kernel.Settled cr := by
  obtain ⟨c, hc⟩ := h.settled
  rw [hc.onCpu.crTid] at hcr
  cases hcr
  exact hc

/-- The running task is on no queue unless it is in the timed wait. -/
theorem Waiting.not_mem (h : σ.Waiting) {cr : Tid} (hcr : σ.kernel.crTid = some cr) {pc : Pc T}
    (hpc : σ.pc cr = pc) (hne : ∀ s, pc ≠ .downTimeoutCheck s) (s : ℕ) :
    cr ∉ (σ.semas s).waitQueue.tids :=
  h.queues.not_mem hpc hne ((h.running hcr).not_parked (h.running hcr).current_mem) s

/-- The safe case of `up`: the waiter it wakes is parked. -/
theorem Waiting.parked_of_blocked (h : σ.Waiting) {w : Tid}
    (hw : σ.kernel.status w = .blocked ∧ w ∉ σ.kernel.sleepingList.tids) : σ.kernel.Parked w :=
  ⟨hw.1, hw.2, by rw [h.blocked]; exact List.not_mem_nil⟩

/-- A step whose effect on the kernel is known: only the running task is parked, by `down`, and only
a waiter that is taken off its queue is made ready. -/
theorem Waiting.of_stepped (h : σ.Waiting) (hs : SemaStep σ a σ') {parks : Tid → Prop}
    (hk : Stepped σ.kernel σ'.kernel parks) (hb : σ'.kernel.blockedList = σ.kernel.blockedList)
    (hparks : ∀ s, ∀ t ∈ (σ.semas s).waitQueue.tids, σ.woken a ≠ some t →
      (parks t ↔ σ.kernel.Parked t))
    (hblock : ∀ cr s, σ.kernel.crTid = some cr → a = .call (.down s) → σ'.pc cr = .down s →
      parks cr)
    (htimed : ∀ cr, σ.kernel.crTid = some cr → a = .proceed → ¬parks cr) : σ'.Waiting := by
  refine ⟨hk.settled, hk.lost.trans h.lost, by rw [hb, h.blocked], h.queues.step hs ?_ ?_ ?_ ?_ ?_⟩
  · intro cr hcr
    exact (h.running hcr).not_parked (h.running hcr).current_mem
  · intro s t ht hw hp
    rw [hk.parked, hparks s t ht hw]
    exact hp
  · intro s t ht hw hp
    rw [hk.parked, hparks s t ht hw, hk.alive]
    exact hp
  · intro cr s hcr ha hpc
    exact (hk.parked cr).mpr (hblock cr s hcr ha hpc)
  · intro cr s hcr ha _
    exact ⟨fun hp => htimed cr hcr ha ((hk.parked cr).mp hp),
      (hk.alive cr).mpr (h.running hcr).alive⟩

/-- A step that blocks and wakes nobody. -/
theorem Waiting.resched (h : σ.Waiting) (hs : SemaStep σ a σ')
    (hk : Stepped σ.kernel σ'.kernel σ.kernel.Parked)
    (hb : σ'.kernel.blockedList = σ.kernel.blockedList)
    (hblock : ∀ cr s, σ.kernel.crTid = some cr → a = .call (.down s) → σ'.pc cr ≠ .down s) :
    σ'.Waiting := by
  refine h.of_stepped hs hk hb (fun _ _ _ _ => Iff.rfl) ?_ ?_
  · intro cr s hcr ha hpc
    exact absurd hpc (hblock cr s hcr ha)
  · intro cr hcr _
    exact (h.running hcr).not_parked (h.running hcr).current_mem

/-- A step that leaves the kernel as it is. -/
theorem Waiting.idle (h : σ.Waiting) (hs : SemaStep σ a σ') (hk : σ'.kernel = σ.kernel)
    (hblock : ∀ cr s, σ.kernel.crTid = some cr → a = .call (.down s) → σ'.pc cr ≠ .down s) :
    σ'.Waiting := by
  obtain ⟨c, hc⟩ := h.settled
  refine h.resched hs ?_ (by rw [hk]) hblock
  rw [hk]
  exact hc.switched.stepped hc.toCoherent

theorem Waiting.step (h : σ.Waiting) (hC : σ.WakesWaiter a) (hs : SemaStep σ a σ') :
    σ'.Waiting := by
  obtain ⟨c, hc⟩ := h.settled
  cases hs with
  | tick hk =>
      exact h.resched (.tick hk) ((systickTrap_switched hc hk).stepped hc.toCoherent)
        (blockedList_systickTrap hc hk) (by rintro cr s - ⟨⟩)
  | switch ha hk =>
      exact h.resched (.switch ha hk)
        ((hc.toCoherent.yieldIf hc.onCpu (by simp) hk).stepped hc.toCoherent)
        (blockedList_yieldIf hc.onCpu hk) (by rcases ha with rfl | rfl <;> rintro cr s - ⟨⟩)
  | delay hk =>
      exact h.resched (.delay hk) ((delay_switched hc hk).stepped hc.toCoherent)
        (blockedList_delay hc.onCpu hk) (by rintro cr s - ⟨⟩)
  | take hcr hpc hcall =>
      refine h.idle (.take hcr hpc hcall) rfl fun cr' s' hcr' _ => ?_
      rw [hcr] at hcr'
      cases hcr'
      show σ.pc _ ≠ _
      rw [hpc]
      simp
  | fail hcall =>
      exact h.idle (.fail hcall) rfl (by rcases hcall with rfl | rfl <;> rintro cr s - ⟨⟩)
  | begin hcr hpc => exact h.idle (.begin hcr hpc) rfl (by rintro cr s - ⟨⟩)
  | @block cr s k hcr hpc hneg hk =>
      have hc := h.running hcr
      have hno := h.not_mem hcr hpc (by simp)
      have hk' := h.queues.park_of_block (hno s) hk
      have hb : k.blockedList = σ.kernel.blockedList :=
        (blockedList_yieldIf (hc.onCpu.park cr) hk').trans rfl
      refine h.of_stepped (.block hcr hpc hneg hk) (hc.park_stepped hk') hb ?_ ?_ (by rintro cr - ⟨⟩)
      · intro s' t ht _
        have htc : t ≠ cr := by
          rintro rfl
          exact hno s' ht
        exact ⟨fun hp => hp.resolve_left htc, .inr⟩
      · intro cr' s' hcr' _ _
        rw [hcr] at hcr'
        cases hcr'
        exact .inl rfl
  | @blockTimed cr s ticks k hcr hpc hk =>
      have hc := h.running hcr
      have hno := h.not_mem hcr hpc (by simp)
      have hk' := h.queues.sleep_of_block (hno s) hk
      have ho := hc.onCpu.of_frame (frame_sleep σ.kernel cr ticks) rfl
      have hb : k.blockedList = σ.kernel.blockedList := (blockedList_yieldIf ho hk').trans rfl
      exact h.resched (.blockTimed hcr hpc hk) (hc.sleep_stepped hk') hb (by rintro cr s - ⟨⟩)
  | @up _ s b k ha hb hk =>
      obtain ⟨hw, hnot⟩ := woken_of_up ha
      have hdown : ∀ cr s', σ.kernel.crTid = some cr → a = .call (.down s') →
          (({ σ with semas := Function.update σ.semas s ((σ.semas s).up σ.kernel).inner }.log
            (.upped s)).setKernel k).pc cr ≠ .down s' := fun _ s' _ ha' => absurd ha' (hnot s')
      rcases σ.up_queue s with ⟨hnone, hker, -⟩ | ⟨w, queue, hsome, hker, -, -⟩
      · have hk' := hk
        rw [hker, hb hnone] at hk'
        cases hk'
        exact h.idle (.up ha hb hk) rfl hdown
      · rw [hker] at hk
        have hp := h.parked_of_blocked (hC w (by rw [hw, hsome]; rfl))
        refine h.of_stepped (.up ha hb (by rw [hker]; exact hk)) (hc.wake_stepped hp hk)
          ((blockedList_yieldIf (hc.onCpu.wake w) hk).trans rfl) ?_ ?_ ?_
        · intro s' t _ ht
          have htw : t ≠ w := by
            rintro rfl
            exact ht (by rw [hw, hsome]; rfl)
          exact ⟨And.right, fun hp => ⟨htw, hp⟩⟩
        · intro cr s' hcr ha' hpc
          exact absurd hpc (hdown cr s' hcr ha')
        · rcases ha with ⟨rfl, -⟩ | ⟨rfl, -⟩ <;> rintro cr - ⟨⟩
  | resume hcr hpc => exact h.idle (.resume hcr hpc) rfl (by rintro cr s - ⟨⟩)
  | timeOut hcr hpc hmem => exact h.idle (.timeOut hcr hpc hmem) rfl (by rintro cr s - ⟨⟩)
  | acquire hcr hpc hmem => exact h.idle (.acquire hcr hpc hmem) rfl (by rintro cr s - ⟨⟩)

end System

/-! ### What a wrong `up` leaves behind -/

/-- Task `w` is on two lists, or twice on one, or an insertion has been rejected. -/
def Kernel.Damaged (k : Kernel) (w : Tid) : Prop :=
  (w ∈ k.sleepingList.tids ∧ w ∈ k.readyList.tids) ∨ 2 ≤ k.readyList.tids.count w ∨ 0 < k.lost

namespace Kernel

variable {k k' : Kernel} {c t w : Tid}

theorem Damaged.not_listsOk (h : k.Damaged w) : ¬k.ListsOk := by
  intro hok
  rcases h with ⟨hs, hr⟩ | hcount | hl
  · exact hok.disjoint w hr hs
  · have := List.nodup_iff_count_le_one.mp hok.ready_nodup w
    omega
  · have := hok.lost
    omega

/-- Making ready a task that sleeps or is ready already. -/
theorem damaged_wake (h : w ∈ k.sleepingList.tids ∨ w ∈ k.readyList.tids) :
    (k.wake w).Damaged w := by
  rcases count_readyInsert (k.setStatus w .ready) w with hcount | hl
  · rcases h with hs | hr
    · refine .inl ⟨hs, List.count_pos_iff.mp ?_⟩
      show 0 < ((k.setStatus w .ready).readyInsert w).readyList.tids.count w
      omega
    · have hpos : 0 < (k.setStatus w .ready).readyList.tids.count w := List.count_pos_iff.mpr hr
      refine .inr (.inl ?_)
      show 2 ≤ ((k.setStatus w .ready).readyInsert w).readyList.tids.count w
      omega
  · refine .inr (.inr ?_)
    show 0 < ((k.setStatus w .ready).readyInsert w).lost
    omega

/-- A sleeper that is due is inserted a second time. -/
theorem Damaged.expire (h : k.Damaged w) (t : Tid) : (k.expire t).Damaged w := by
  have hcount := count_le_readyInsert ((k.sleepingRemove t).setTcb t fun tcb =>
    { tcb with status := .ready, wakePoint := 0 }) t w
  have hlost : k.lost ≤ (k.expire t).lost := Nat.le_add_right _ _
  rcases h with ⟨hs, hr⟩ | h2 | hl
  · have hpos := List.count_pos_iff.mpr hr
    by_cases htw : t = w
    · subst htw
      have hw := count_readyInsert ((k.sleepingRemove t).setTcb t fun tcb =>
        { tcb with status := .ready, wakePoint := 0 }) t
      rcases hw with hw | hw
      · refine .inr (.inl ?_)
        rw [Kernel.expire, hw]
        show 2 ≤ k.readyList.tids.count t + 1
        omega
      · refine .inr (.inr ?_)
        rw [Kernel.expire, hw]
        omega
    · refine .inl ⟨?_, List.count_pos_iff.mp (lt_of_lt_of_le hpos hcount)⟩
      show w ∈ (k.sleepingList.remove t).tids
      rw [remove_tids]
      exact (List.mem_erase_of_ne (Ne.symm htw)).mpr hs
  · exact .inr (.inl (h2.trans hcount))
  · exact .inr (.inr (lt_of_lt_of_le hl hlost))

/-- **No switch of another task repairs the damage.** -/
theorem Damaged.nextTcb (h : k.Damaged w) (ho : k.OnCpu c) (hwc : w ≠ c)
    (hk : k.nextTcb = some k') : k'.Damaged w := by
  obtain ⟨st, -, rfl⟩ := nextTcb_eq_some ho hk
  have hwake : k.wakeUpSleepers.Damaged w :=
    wakeUpSleepers_induct (P := fun k' => k'.Damaged w) h fun _ t hk' _ _ => Damaged.expire hk' t
  have hreq : ((k.wakeUpSleepers).requeue c).Damaged w := by
    have hcount := count_le_requeue k.wakeUpSleepers hwc
    have hsl : (k.wakeUpSleepers.requeue c).sleepingList = k.wakeUpSleepers.sleepingList := by
      unfold requeue
      split_ifs <;> rfl
    have hlost : k.wakeUpSleepers.lost ≤ (k.wakeUpSleepers.requeue c).lost := by
      unfold requeue
      split_ifs
      · exact le_rfl
      · exact Nat.le_add_right _ _
      · exact le_rfl
    rcases hwake with ⟨hs, hr⟩ | h2 | hl
    · refine .inl ⟨by rw [hsl]; exact hs, List.count_pos_iff.mp ?_⟩
      exact lt_of_lt_of_le (List.count_pos_iff.mpr hr) hcount
    · exact .inr (.inl (h2.trans hcount))
    · exact .inr (.inr (lt_of_lt_of_le hl hlost))
  have hsw : ∀ k : Kernel, (k.switchTo c st).sleepingList = k.sleepingList ∧
      (k.switchTo c st).lost = k.lost := by
    intro k
    unfold switchTo
    split_ifs <;> exact ⟨rfl, rfl⟩
  unfold Damaged
  rw [readyList_switchTo, (hsw _).1, (hsw _).2]
  exact hreq

end Kernel

namespace System

/-- The waiter that `up` takes off the queue is parked, or waking it damages the lists. -/
theorem Waiting.parked_or_damaged (h : σ.Waiting) {s : ℕ} {w : Tid}
    (hw : w ∈ (σ.semas s).waitQueue.tids) :
    (σ.kernel.status w = .blocked ∧ w ∉ σ.kernel.sleepingList.tids) ∨
      (σ.pc w = .downTimeoutCheck s ∧ (σ.kernel.wake w).Damaged w) := by
  rcases h.queues.waits s w hw with ⟨-, hp⟩ | ⟨hpc, hnp, halive⟩
  · exact .inl ⟨hp.1, hp.2.1⟩
  · obtain ⟨c, hc⟩ := h.settled
    refine .inr ⟨hpc, damaged_wake ?_⟩
    by_cases hs : w ∈ σ.kernel.sleepingList.tids
    · exact .inl hs
    · right
      have hnb : σ.kernel.status w ≠ .blocked := by
        intro hb
        exact hnp (h.parked_of_blocked ⟨hb, hs⟩)
      rw [hc.mem_ready]
      cases hst : σ.kernel.status w with
      | terminated => exact absurd hst halive
      | blocked => exact absurd hst hnb
      | ready => exact .inl rfl
      | running => exact .inr rfl

/-- A step that damages no list has woken a parked waiter. -/
theorem Waiting.wakesWaiter (h : σ.Waiting) (hs : SemaStep σ a σ') (hok : σ'.kernel.ListsOk) :
    σ.WakesWaiter a := by
  obtain ⟨c, hc⟩ := h.settled
  intro w hw
  cases hs with
  | @up _ s b k ha hb hk =>
      have hwoken : σ.woken a = (σ.semas s).woken.map Prod.fst := by
        rcases ha with ⟨rfl, -⟩ | ⟨rfl, -⟩ <;> rfl
      rw [hwoken] at hw
      rcases σ.up_queue s with ⟨hnone, -, -⟩ | ⟨w', queue, hsome, hker, -, hcons⟩
      · rw [hnone] at hw
        cases hw
      · rw [hsome] at hw
        cases hw
        rcases h.parked_or_damaged (by rw [hcons]; exact List.mem_cons_self) with hp | ⟨hpw, hd⟩
        · exact hp
        · rw [hker] at hk
          cases b with
          | false =>
              cases hk
              exact absurd hok hd.not_listsOk
          | true =>
              -- the caller of `up` is in no other call, so it is not the waiter
              obtain ⟨-, cr, hcr, hpc⟩ := ha.resolve_left (fun h => by cases h.2)
              have hne : w' ≠ cr := by
                rintro rfl
                rw [hpw] at hpc
                cases hpc
              have ho := (h.running hcr).onCpu.wake w'
              rw [Kernel.yieldIf, if_pos rfl, yieldTask, if_pos ho.ready] at hk
              exact absurd hok (hd.nextTcb ho hne hk).not_listsOk
  | switch ha hk => rcases ha with rfl | rfl <;> cases hw
  | take hcr hpc hcall => rcases hcall with ⟨rfl, -⟩ | ⟨rfl | ⟨_, rfl⟩, -⟩ <;> cases hw
  | fail hcall => rcases hcall with rfl | rfl <;> cases hw
  | _ => cases hw

end System

/-! ### Exact conditions for a run -/

theorem System.waiting_init {boots : List BootCall} {k : Kernel} {counts : ℕ → ℤ}
    (h : launchAfter boots = some k) : (init k counts : System T).Waiting := by
  obtain ⟨hs, hl, -, -⟩ := settled_launchAfter h
  exact ⟨hs, hl, blockedList_launchAfter h, queues_init k counts⟩

/-- **When timed waits keep the lists coherent.**  In every run of semaphore calls, delays, yields
and interrupts from a launch, the scheduler lists are coherent and no insertion is rejected in all
states exactly when every waiter that an `up` takes off a queue is blocked and does not sleep. -/
theorem timed_waits_keep_lists {boots : List BootCall} {k : Kernel} {counts : ℕ → ℤ}
    {tr : List (System T × Action T)} (hl : launchAfter boots = some k)
    (hr : Run (System.step cap) (fun _ a => a.IsSema) (System.init k counts) tr σ) :
    Always (fun σ : System T => σ.kernel.ListsOk) tr σ ↔ ∀ e ∈ tr, e.1.WakesWaiter e.2 :=
  hr.forall_iff (System.waiting_init hl) (fun _ h => h.listsOk)
    (fun _ _ _ h ha hs hC => h.step hC (System.step_sema h.queues.pcs ha hs))
    (fun _ _ _ h ha hs hok => h.wakesWaiter (System.step_sema h.queues.pcs ha hs) hok)

/-- A safe run: a timed wait that times out, then a `down` that an interrupt handler's `up` ends. -/
theorem timed_waits_keep_lists_run : ∃ k₀ tr, ∃ σ : System Unit,
    launchAfter [.create 3 "a"] = some k₀ ∧
      Run (System.step fun _ => 0) (fun _ a => a.IsSema) (System.init k₀ fun _ => 0) tr σ ∧
      σ.kernel.crTid = some 0 ∧ Always (fun σ : System Unit => σ.kernel.ListsOk) tr σ := by
  have hsome : (launchAfter [.create 3 "a"]).isSome = true := by decide +kernel
  obtain ⟨k₀, hk₀⟩ := Option.isSome_iff_exists.mp hsome
  have hexec : ((launchAfter [.create 3 "a"]).bind fun k₀ =>
      exec (System.step fun _ => 0) (fun (σ : System Unit) a => a.IsSema ∧ σ.WakesWaiter a)
        (System.init k₀ fun _ => 0)
        [.call (.downTimeout 0 2), .proceed, .systick 1, .proceed, .call (.down 0), .upFromIsr 0,
          .preempt, .proceed]).any (fun σ => σ.kernel.crTid = some 0) = true := by
    decide +kernel
  rw [hk₀, Option.bind_some] at hexec
  obtain ⟨tr, σ, hr, hσ⟩ := exists_run_of_exec (fun (σ : System Unit) a
    (h : decide (a.IsSema ∧ σ.WakesWaiter a) = true) => of_decide_eq_true h) hexec
  have hrun := hr.mono fun _ _ h => h.1
  exact ⟨k₀, tr, σ, hk₀, hrun, of_decide_eq_true hσ,
    (timed_waits_keep_lists hk₀ hrun).mpr fun e he => (hr.forall_guard e he).2⟩

/-- An interrupt handler's `up` ends a timed wait: the task is on `READY_LIST` and still on
`SLEEPING_LIST`. -/
theorem timed_waits_break_lists : ∃ k₀ tr, ∃ σ : System Unit,
    launchAfter [.create 3 "a"] = some k₀ ∧
      Run (System.step fun _ => 0) (fun _ a => a.IsSema) (System.init k₀ fun _ => 0) tr σ ∧
      0 ∈ σ.kernel.readyList.tids ∧ 0 ∈ σ.kernel.sleepingList.tids ∧
      ¬Always (fun σ : System Unit => σ.kernel.ListsOk) tr σ := by
  have hsome : (launchAfter [.create 3 "a"]).isSome = true := by decide +kernel
  obtain ⟨k₀, hk₀⟩ := Option.isSome_iff_exists.mp hsome
  have hexec : ((launchAfter [.create 3 "a"]).bind fun k₀ =>
      exec (System.step fun _ => 0) (fun (_ : System Unit) a => a.IsSema)
        (System.init k₀ fun _ => 0)
        [.call (.downTimeout 0 100), .proceed, .upFromIsr 0]).any
          (fun σ => 0 ∈ σ.kernel.readyList.tids ∧ 0 ∈ σ.kernel.sleepingList.tids) = true := by
    decide +kernel
  rw [hk₀, Option.bind_some] at hexec
  obtain ⟨tr, σ, hr, hσ⟩ := exists_run_of_exec (fun (_ : System Unit) (a : Action Unit)
    (h : decide a.IsSema = true) => of_decide_eq_true h) hexec
  rw [decide_eq_true_eq] at hσ
  exact ⟨k₀, tr, σ, hk₀, hr, hσ.1, hσ.2, fun hall => hall.2.disjoint 0 hσ.1 hσ.2⟩

end MosKernel
