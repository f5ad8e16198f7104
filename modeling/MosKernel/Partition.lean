import MosKernel.Lib.Transition
import MosKernel.TaskSpec

/-!
# The task lists partition the tasks

With the operations of `Task`, yields and ticks alone, every task is in exactly the list its status
names, in every state that any run from `Scheduler::launch` goes through; no discarded insertion
result is ever an `Err`.  The argument is one invariant: the kernel is settled and no task is parked
outside the lists.  `launchAfter_induct` is the induction over the creations before the launch.
-/

namespace MosKernel

open OrderedInsert TaskList Transition Kernel

/-- The priority that a creation asks for. -/
def BootCall.priority : BootCall → ℕ
  | .create p _ | .createRaw p _ _ => p

namespace Kernel

variable {k k' : Kernel} {c t : Tid}

/-! ### Before the launch -/

/-- Only creations have happened so far. -/
structure Booting (k : Kernel) : Prop extends Coherent k where
  schedReady : k.schedReady = false
  currentTcbPtr : k.currentTcbPtr = none
  sleeping : k.sleepingList.tids = []
  lost : k.lost = 0
  parked : ∀ t, ¬k.Parked t

theorem booting_boot : boot.Booting := by
  refine ⟨?_, rfl, rfl, rfl, rfl, fun t ht => ?_⟩
  · constructor <;> simp [boot, status, Tcb.empty, TaskList.new]
  · have := ht.1
    simp [boot, status, Tcb.empty] at this

theorem Added.booting (ha : Added k k' t) (h : k.Booting)
    (hs : k'.sleepingList = k.sleepingList) : k'.Booting where
  toCoherent := ha.coherent
  schedReady := ha.schedReady.trans h.schedReady
  currentTcbPtr := ha.currentTcbPtr.trans h.currentTcbPtr
  sleeping := by rw [hs, h.sleeping]
  lost := ha.lost.trans h.lost
  parked := fun u hu => h.parked u ((ha.parked u).mp hu)

/-- A creation before the launch adds a task or finds the pool full. -/
theorem Booting.create {p : ℕ} {name : String} {r : Except String Tid} (h : k.Booting)
    (hk : k.create p name = some (k', r)) :
    k'.Booting ∧ (k.allocTid = none ∧ k' = k ∨
      ∃ t k₁, k.allocTid = some (t, k₁) ∧ k' = k₁.addTask t p name) := by
  unfold Kernel.create at hk
  split at hk
  · cases hk
    exact ⟨h, .inl ⟨‹_›, rfl⟩⟩
  · rename_i t k₁ hal
    have ha := h.toCoherent.added p name hal
    simp only [ha.schedReady, h.schedReady, Option.map_some, Option.some.injEq,
      Prod.mk.injEq] at hk
    obtain ⟨rfl, -⟩ := hk
    exact ⟨ha.booting h (by rw [(allocTid_eq_some hal).2]; rfl), .inr ⟨t, k₁, hal, rfl⟩⟩

theorem Booting.createRaw {p size : ℕ} {name : String} {r : Except String Tid} (h : k.Booting)
    (hk : k.createRaw p name size = some (k', r)) :
    k'.Booting ∧ (k.allocTid = none ∧ k' = k ∨
      ∃ t k₁, k.allocTid = some (t, k₁) ∧ k' = k₁.addTask t p name) := by
  unfold Kernel.createRaw at hk
  split at hk
  · cases hk
    exact ⟨h, .inl ⟨‹_›, rfl⟩⟩
  · rename_i t k₁ hal
    have ha := h.toCoherent.added p name hal
    dsimp only at hk
    split at hk
    · cases hk
      exact ⟨ha.booting h (by rw [(allocTid_eq_some hal).2]; rfl), .inr ⟨t, k₁, hal, rfl⟩⟩
    · cases hk

theorem Booting.exec {b : BootCall} (h : k.Booting) (hk : b.exec k = some k') :
    k'.Booting ∧ (k.allocTid = none ∧ k' = k ∨
      ∃ t k₁ name, k.allocTid = some (t, k₁) ∧ k' = k₁.addTask t b.priority name) := by
  cases b with
  | create p name =>
      obtain ⟨⟨k₂, r⟩, hk₂, he⟩ := Option.map_eq_some_iff.mp hk
      cases he
      obtain ⟨hb, he | ⟨t, k₁, ha, he⟩⟩ := h.create hk₂
      · exact ⟨hb, .inl he⟩
      · exact ⟨hb, .inr ⟨t, k₁, name, ha, he⟩⟩
  | createRaw p name size =>
      obtain ⟨⟨k₂, r⟩, hk₂, he⟩ := Option.map_eq_some_iff.mp hk
      cases he
      obtain ⟨hb, he | ⟨t, k₁, ha, he⟩⟩ := h.createRaw hk₂
      · exact ⟨hb, .inl he⟩
      · exact ⟨hb, .inr ⟨t, k₁, name, ha, he⟩⟩

/-- The launch adds the idle task, or finds the pool full, and starts the front of the list. -/
theorem Booting.launch (h : k.Booting) (hk : k.launch = some k') :
    ∃ k₁ first, k₁.Booting ∧ (k.allocTid = none ∧ k₁ = k ∨
        ∃ t k₂, k.allocTid = some (t, k₂) ∧ k₁ = k₂.addTask t priMin "idle") ∧
      k₁.readyList.front = some first ∧
      k' = { (k₁.setStatus first .running).setCurrent first with schedReady := true } := by
  unfold Kernel.launch at hk
  split at hk
  · rename_i k₁ t hc
    obtain ⟨first, hf, rfl⟩ := Option.map_eq_some_iff.mp hk
    obtain ⟨hb, he⟩ := h.create hc
    exact ⟨k₁, first, hb, he, hf, rfl⟩
  · cases hk

/-- What the added tasks keep holds before the launch. -/
theorem boots_induct {P : Kernel → Prop} {boots : List BootCall} (hP : P boot)
    (hadd : ∀ k t k₁ p name, k.Booting → P k → k.allocTid = some (t, k₁) →
      P (k₁.addTask t p name)) (h : boots.foldlM BootCall.exec boot = some k') :
    k'.Booting ∧ P k' := by
  have hboots : ∀ (boots : List BootCall) (k k' : Kernel), k.Booting → P k →
      boots.foldlM BootCall.exec k = some k' → k'.Booting ∧ P k' := by
    intro boots
    induction boots with
    | nil =>
        intro k k' hb hp h
        cases h
        exact ⟨hb, hp⟩
    | cons b boots ih =>
        intro k k' hb hp h
        rw [List.foldlM_cons] at h
        obtain ⟨k₁, hk₁, hrest⟩ := Option.bind_eq_some_iff.mp h
        obtain ⟨hb₁, ⟨-, rfl⟩ | ⟨t, k₂, name, ha, rfl⟩⟩ := hb.exec hk₁
        · exact ih _ _ hb hp hrest
        · exact ih _ _ hb₁ (hadd _ _ _ _ _ hb hp ha) hrest
  exact hboots boots boot k' booting_boot hP h

/-- The same for the launched kernel: `launch` itself adds the idle task and then starts the front of
the ready list. -/
theorem launchAfter_induct {P : Kernel → Prop} {boots : List BootCall} (hP : P boot)
    (hadd : ∀ k t k₁ p name, k.Booting → P k → k.allocTid = some (t, k₁) →
      P (k₁.addTask t p name)) (h : launchAfter boots = some k') :
    ∃ k first, k.Booting ∧ P k ∧ k.readyList.front = some first ∧
      k' = { (k.setStatus first .running).setCurrent first with schedReady := true } := by
  obtain ⟨k₀, hk₀, h⟩ := Option.bind_eq_some_iff.mp h
  obtain ⟨hb₀, hp₀⟩ := boots_induct hP hadd hk₀
  obtain ⟨k₁, first, hb₁, he, hf, rfl⟩ := hb₀.launch h
  refine ⟨k₁, first, hb₁, ?_, hf, rfl⟩
  rcases he with ⟨-, rfl⟩ | ⟨t, k₂, ha, rfl⟩
  · exact hp₀
  · exact hadd _ _ _ _ _ hb₀ hp₀ ha

/-- The launched kernel is settled, with nobody parked or asleep and nothing lost. -/
theorem settled_launchAfter {boots : List BootCall} (h : launchAfter boots = some k) :
    (∃ c, k.Settled c) ∧ k.lost = 0 ∧ (∀ t, ¬k.Parked t) ∧ k.sleepingList.tids = [] := by
  obtain ⟨k₀, c, hb, -, hf, rfl⟩ :=
    launchAfter_induct (P := fun _ => True) trivial (fun _ _ _ _ _ _ _ _ => trivial) h
  have hm : c ∈ k₀.readyList.tids := List.mem_of_mem_head? hf
  have hst : ∀ u, ({ (k₀.setStatus c .running).setCurrent c with schedReady := true } :
      Kernel).status u = if u = c then .running else k₀.status u := by
    intro u
    show ((k₀.setStatus c .running).setCurrent c).status u = _
    rw [status_setCurrent, setStatus, status_setTcb]
  have htid : ∀ u, (((k₀.setStatus c .running).tcbs u).tid) = (k₀.tcbs u).tid := by
    intro u
    rw [setStatus, setTcb_tcbs, Function.update_apply]
    grind
  refine ⟨⟨c, ?_, rfl, rfl, hm⟩, hb.lost, fun t ht => ?_, hb.sleeping⟩
  · have hc := hb.currentTcbPtr
    obtain ⟨h1, h2, h3, h4, h5, h6, h7, h8, h9, h10⟩ := hb.toCoherent
    constructor <;> simp only [hst] <;> simp only [setStatus, setCurrent, Kernel.setTcb] at htid ⊢ <;>
      grind
  · rw [Parked, hst] at ht
    refine hb.parked t ⟨?_, ht.2⟩
    have := ht.1
    grind

end Kernel

/-! ### Runs of the task operations -/

/-- Between critical sections, with every blocked task in one of the scheduler lists. -/
structure Listed (k : Kernel) : Prop where
  settled : ∃ c, k.Settled c
  lost : k.lost = 0
  parked : ∀ t, ¬k.Parked t

theorem TaskAction.step_listed {k k' : Kernel} {a : TaskAction} (h : Listed k)
    (hs : a.step k = some k') : Listed k' := by
  obtain ⟨⟨c, hc⟩, hl, hp⟩ := h
  cases a with
  | call call =>
      obtain ⟨⟨k₁, r⟩, he, hk⟩ := Option.map_eq_some_iff.mp hs
      cases hk
      obtain ⟨ho, -⟩ := TaskCall.exec_outcome hc he
      exact ⟨ho.settled, ho.lost.trans hl, fun t ht => hp t ((ho.parked t).mp ht).1⟩
  | systick missed =>
      have ho := systickTrap_switched hc hs
      exact ⟨ho.settled, ho.lost.trans hl, fun t ht => hp t ((ho.parked t).mp ht)⟩

/-- Every identifier is in exactly the list that its status names. -/
structure Partition (k : Kernel) : Prop where
  bit : ∀ t, k.tidBitmap.getLsbD t.val = true ↔ k.status t ≠ .terminated
  tid : ∀ t, k.status t ≠ .terminated → (k.tcbs t).tid = t
  ready_nodup : k.readyList.tids.Nodup
  mem_ready : ∀ t, t ∈ k.readyList.tids ↔ k.status t = .ready ∨ k.status t = .running
  sleeping_nodup : k.sleepingList.tids.Nodup
  blocked_nodup : k.blockedList.tids.Nodup
  disjoint : ∀ t ∈ k.sleepingList.tids, t ∉ k.blockedList.tids
  mem_waiting : ∀ t, t ∈ k.sleepingList.tids ∨ t ∈ k.blockedList.tids ↔ k.status t = .blocked
  terminated : ∀ t, k.status t = .terminated →
    t ∉ k.readyList.tids ∧ t ∉ k.sleepingList.tids ∧ t ∉ k.blockedList.tids
  current : ∃ c, k.currentTcbPtr = some c ∧ k.status c ≠ .terminated ∧ c ∈ k.readyList.tids

theorem Listed.partition {k : Kernel} (h : Listed k) : Partition k := by
  obtain ⟨⟨c, hc⟩, -, hp⟩ := h
  have hcur := hc.alive
  obtain ⟨⟨h1, h2, h3, h4, h5, h6, h7, h8, h9, h10⟩, -, h11, h12⟩ := hc
  refine ⟨h8, h9, h1, h4, h2, h3, h7, fun t => ⟨?_, fun ht => ?_⟩, fun t ht => ?_,
    ⟨c, h11, hcur, h12⟩⟩
  · rintro (ht | ht)
    · exact h5 t ht
    · exact h6 t ht
  · by_contra hno
    rw [not_or] at hno
    exact hp t ⟨ht, hno⟩
  · refine ⟨fun hm => ?_, fun hm => ?_, fun hm => ?_⟩
    · have := (h4 t).mp hm
      grind
    · have := h5 t hm
      grind
    · have := h6 t hm
      grind

/-- **The partition invariant.**  After any creations and the launch, in every state of every run of
task operations, yields and late ticks, the lists partition the tasks and no discarded insertion
result was an `Err`. -/
theorem task_lists_partition {boots : List BootCall} {k₀ k : Kernel}
    {tr : List (Kernel × TaskAction)} (hl : Kernel.launchAfter boots = some k₀)
    (hr : Run TaskAction.step (fun _ _ => True) k₀ tr k) :
    Always (fun k => Partition k ∧ k.lost = 0) tr k := by
  obtain ⟨hs, hlost, hp, -⟩ := settled_launchAfter hl
  have hall := hr.always (I := Listed) ⟨hs, hlost, hp⟩ fun k a k' h _ hs =>
    TaskAction.step_listed h hs
  exact ⟨fun e he => ⟨(hall.1 e he).partition, (hall.1 e he).lost⟩,
    hall.2.partition, hall.2.lost⟩

/-- A boot with two tasks, then a creation, a delay, a block and two late ticks. -/
theorem task_lists_partition_run :
    ∃ k₀ tr k, Kernel.launchAfter [.create 3 "a", .createRaw 2 "b" 4096] = some k₀ ∧
      Run TaskAction.step (fun _ _ => True) k₀ tr k ∧
      Always (fun k => Partition k ∧ k.lost = 0) tr k := by
  have hsome : (Kernel.launchAfter [.create 3 "a", .createRaw 2 "b" 4096]).isSome = true := by
    decide +kernel
  obtain ⟨k₀, hk₀⟩ := Option.isSome_iff_exists.mp hsome
  have hrun : ((Kernel.launchAfter [.create 3 "a", .createRaw 2 "b" 4096]).bind fun k₀ =>
      exec TaskAction.step (fun _ _ => true) k₀ [.call (.create 1 "c"), .call (.delay 5),
        .call (.block 0), .systick 2, .systick 4]).isSome = true := by decide +kernel
  rw [hk₀, Option.bind_some] at hrun
  obtain ⟨k, hk⟩ := Option.isSome_iff_exists.mp hrun
  obtain ⟨tr, hr⟩ : ∃ tr, Run TaskAction.step (fun _ _ => True) k₀ tr k :=
    exists_run_exec (fun _ _ _ => trivial) .start hk
  exact ⟨k₀, tr, k, hk₀, hr, task_lists_partition hk₀ hr⟩

end MosKernel
