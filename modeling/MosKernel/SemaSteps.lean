import MosKernel.SyncSpec

/-!
# Steps of semaphore calls

`SemaStep` says once what a step can do when tasks make only semaphore calls, delays and yields.
`Queues` is what every argument about these steps needs of the wait queues: a queued task is in a
call on that semaphore.  It is stated for two properties of tasks, `still` for those that wait in
`down` and `timed` for those in the timed wait of `down_timeout`, which each argument chooses for
itself.
-/

namespace MosKernel

open OrderedInsert TaskList Kernel

variable {T : Type} {cap : ℕ → ℕ} {σ σ' : System T} {a : Action T}

/-- The calls of semaphores, delays and yields, and all interrupts. -/
def Action.IsSema : Action T → Prop
  | .call (.down _) | .call (.downTimeout _ _) | .call (.tryDown _) | .call (.up _)
  | .call (.task (.delay _)) | .call (.task .yieldTask) => True
  | .call _ => False
  | _ => True

instance : DecidablePred (Action.IsSema (T := T))
  | .call (.down _) | .call (.downTimeout _ _) | .call (.tryDown _) | .call (.up _)
  | .call (.task (.delay _)) | .call (.task .yieldTask)
  | .systick _ | .preempt | .upFromIsr _ | .proceed => isTrue trivial
  | .call (.task (.create _ _)) | .call (.task (.createRaw _ _ _)) | .call (.task .exitCurrent)
  | .call (.task (.block _)) | .call (.task (.resume _)) | .call (.task (.terminate _))
  | .call (.lock _) | .call (.unlock _) | .call (.wait _ _) | .call (.notify _) | .call (.notifyAll _)
  | .call (.send _ _ _) | .call (.recv _ _) => isFalse id

/-- The sections of a semaphore call. -/
def Pc.IsSema : Pc T → Prop
  | .user | .down _ | .downTimeoutBlock _ _ | .downTimeoutCheck _ => True
  | _ => False

/-- What a step can do; `cr` is the running task. -/
inductive SemaStep (σ : System T) : Action T → System T → Prop
  | tick {missed : ℕ} {k : Kernel} : σ.kernel.systickTrap missed = some k →
      SemaStep σ (.systick missed) (σ.setKernel k)
  | switch {a : Action T} {k : Kernel} : a = .preempt ∨ a = .call (.task .yieldTask) →
      σ.kernel.yieldIf true = some k → SemaStep σ a (σ.setKernel k)
  | delay {ticks : BitVec 32} {k : Kernel} : σ.kernel.delay ticks = some k →
      SemaStep σ (.call (.task (.delay ticks))) (σ.setKernel k)
  /-- `down` or `try_down` finds a permit -/
  | take {c : Call T} {cr : Tid} {s : ℕ} : σ.kernel.crTid = some cr → σ.pc cr = .user →
      (c = .down s ∧ ¬wrapI32 ((σ.semas s).count - 1) < 0) ∨
        ((c = .tryDown s ∨ ∃ ticks, c = .downTimeout s ticks) ∧ 0 < (σ.semas s).count) →
      SemaStep σ (.call c) ({ σ with
        semas := Function.update σ.semas s
          ⟨wrapI32 ((σ.semas s).count - 1), (σ.semas s).waitQueue⟩ }.log (.acquired s cr))
  /-- `try_down` fails -/
  | fail {c : Call T} {s : ℕ} : (c = .tryDown s ∨ c = .downTimeout s 0) → SemaStep σ (.call c) σ
  | begin {cr : Tid} {s : ℕ} {ticks : BitVec 32} : σ.kernel.crTid = some cr → σ.pc cr = .user →
      SemaStep σ (.call (.downTimeout s ticks)) (σ.setPc cr (.downTimeoutBlock s ticks))
  | block {cr : Tid} {s : ℕ} {k : Kernel} : σ.kernel.crTid = some cr → σ.pc cr = .user →
      wrapI32 ((σ.semas s).count - 1) < 0 →
      ((σ.kernel.park cr).enqueue (σ.semas s).waitQueue cr).1.yieldIf true = some k →
      SemaStep σ (.call (.down s)) (({ σ with
        semas := Function.update σ.semas s ⟨wrapI32 ((σ.semas s).count - 1),
          ((σ.kernel.park cr).enqueue (σ.semas s).waitQueue cr).2⟩ }.setPc cr (.down s)).setKernel k)
  | blockTimed {cr : Tid} {s : ℕ} {ticks : BitVec 32} {k : Kernel} :
      σ.kernel.crTid = some cr → σ.pc cr = .downTimeoutBlock s ticks →
      ((σ.semas s).downTimeoutBlock σ.kernel cr ticks).kernel.yieldIf true = some k →
      SemaStep σ .proceed (({ σ with
        semas := Function.update σ.semas s ⟨wrapI32 ((σ.semas s).count - 1),
          ((σ.kernel.park cr).enqueue (σ.semas s).waitQueue cr).2⟩ }.setPc cr
            (.downTimeoutCheck s)).setKernel k)
  | up {a : Action T} {s : ℕ} {b : Bool} {k : Kernel} :
      (a = .upFromIsr s ∧ b = false) ∨
        (a = .call (.up s) ∧ ∃ cr, σ.kernel.crTid = some cr ∧ σ.pc cr = .user) →
      ((σ.semas s).woken = none → b = false) →
      ((σ.semas s).up σ.kernel).kernel.yieldIf b = some k →
      SemaStep σ a (({ σ with
        semas := Function.update σ.semas s ((σ.semas s).up σ.kernel).inner }.log
          (.upped s)).setKernel k)
  /-- `down` returns -/
  | resume {cr : Tid} {s : ℕ} : σ.kernel.crTid = some cr → σ.pc cr = .down s →
      SemaStep σ .proceed ((σ.log (.acquired s cr)).setPc cr .user)
  /-- `down_timeout` returns `false` -/
  | timeOut {cr : Tid} {s : ℕ} : σ.kernel.crTid = some cr → σ.pc cr = .downTimeoutCheck s →
      cr ∈ (σ.semas s).waitQueue.tids →
      SemaStep σ .proceed ({ σ with
        semas := Function.update σ.semas s ⟨wrapI32 ((σ.semas s).count + 1),
          (σ.semas s).waitQueue.remove cr⟩ }.setPc cr .user)
  /-- `down_timeout` returns `true` -/
  | acquire {cr : Tid} {s : ℕ} : σ.kernel.crTid = some cr → σ.pc cr = .downTimeoutCheck s →
      cr ∉ (σ.semas s).waitQueue.tids →
      SemaStep σ .proceed ((σ.log (.acquired s cr)).setPc cr .user)

namespace System

/-- Writing back a semaphore that has not changed. -/
theorem semas_update_self (s : ℕ) : { σ with semas := Function.update σ.semas s (σ.semas s) } = σ := by
  rw [Function.update_eq_self]

theorem call_sema {cr : Tid} {c : Call T} (hcr : σ.kernel.crTid = some cr) (hpc : σ.pc cr = .user)
    (ha : (Action.call c).IsSema) (hs : σ.call cap cr c = some σ') : SemaStep σ (.call c) σ' := by
  cases c with
  | task c =>
      obtain ⟨⟨k, r⟩, hr, rfl⟩ := Option.map_eq_some_iff.mp hs
      cases c with
      | delay ticks =>
          obtain ⟨k', hk, he⟩ := Option.map_eq_some_iff.mp hr
          cases he
          exact .delay hk
      | yieldTask =>
          obtain ⟨k', hk, he⟩ := Option.map_eq_some_iff.mp hr
          cases he
          exact .switch (.inr rfl) hk
      | _ => cases ha
  | down s =>
      replace hs : σ.down cr s = some σ' := hs
      by_cases hneg : wrapI32 ((σ.semas s).count - 1) < 0
      · rw [System.down, SemaInner.down_of_neg hneg] at hs
        obtain ⟨k, hk, rfl⟩ := yieldIf_eq_some hs
        exact .block hcr hpc hneg hk
      · rw [System.down, SemaInner.down_of_nonneg hneg] at hs
        obtain ⟨k, hk, rfl⟩ := yieldIf_eq_some hs
        cases hk
        exact .take hcr hpc (.inl ⟨rfl, hneg⟩)
  | downTimeout s ticks =>
      cases hs
      unfold System.downTimeout SemaInner.tryDown
      by_cases hpos : 0 < (σ.semas s).count
      · rw [if_pos hpos]
        exact .take hcr hpc (.inr ⟨.inr ⟨ticks, rfl⟩, hpos⟩)
      · rw [if_neg hpos]
        dsimp only
        rw [semas_update_self, if_neg Bool.false_ne_true]
        split_ifs with ht
        · rw [ht]
          exact .fail (.inr rfl)
        · exact .begin hcr hpc
  | tryDown s =>
      cases hs
      unfold System.tryDown SemaInner.tryDown
      by_cases hpos : 0 < (σ.semas s).count
      · rw [if_pos hpos]
        exact .take hcr hpc (.inr ⟨.inl rfl, hpos⟩)
      · rw [if_neg hpos]
        dsimp only
        rw [semas_update_self, if_neg Bool.false_ne_true]
        exact .fail (.inl rfl)
  | up s =>
      obtain ⟨k, hk, rfl⟩ := yieldIf_eq_some hs
      refine .up (.inr ⟨rfl, cr, hcr, hpc⟩) (fun hn => ?_) hk
      rw [SemaInner.up, hn]
  | _ => cases ha

theorem proceed_sema {cr : Tid} (hcr : σ.kernel.crTid = some cr) (hp : (σ.pc cr).IsSema)
    (hs : σ.proceed cap cr = some σ') : SemaStep σ .proceed σ' := by
  unfold System.proceed at hs
  split at hs
  · cases hs
  · rename_i s hpc
    cases hs
    exact .resume hcr hpc
  · rename_i s ticks hpc
    obtain ⟨k, hk, rfl⟩ := yieldIf_eq_some hs
    exact .blockTimed hcr hpc hk
  · rename_i s hpc
    cases hs
    unfold System.downTimeoutCheck SemaInner.downTimeoutCheck
    by_cases hmem : cr ∈ (σ.semas s).waitQueue.tids
    · rw [if_pos hmem]
      exact .timeOut hcr hpc hmem
    · rw [if_neg hmem]
      dsimp only
      rw [semas_update_self, if_pos rfl]
      exact .acquire hcr hpc hmem
  all_goals
    rename_i hpc
    rw [hpc] at hp
    cases hp

/-- **What a step can do.** -/
theorem step_sema (hp : ∀ t, (σ.pc t).IsSema) (ha : a.IsSema) (hs : σ.step cap a = some σ') :
    SemaStep σ a σ' := by
  cases a with
  | systick missed =>
      obtain ⟨k, hk, rfl⟩ := Option.map_eq_some_iff.mp hs
      exact .tick hk
  | preempt =>
      obtain ⟨k, hk, rfl⟩ := yieldIf_eq_some hs
      exact .switch (.inl rfl) hk
  | upFromIsr s =>
      cases hs
      exact .up (.inl ⟨rfl, rfl⟩) (fun _ => rfl) rfl
  | call c =>
      obtain ⟨cr, hcr, hs⟩ := Option.bind_eq_some_iff.mp hs
      split at hs
      · exact call_sema hcr ‹_› ha hs
      · cases hs
  | proceed =>
      obtain ⟨cr, hcr, hs⟩ := Option.bind_eq_some_iff.mp hs
      exact proceed_sema hcr (hp cr) hs

/-! ### The wait queues -/

/-- The waiter that an action takes off a wait queue. -/
def woken (σ : System T) : Action T → Option Tid
  | .call (.up s) | .upFromIsr s => (σ.semas s).woken.map Prod.fst
  | _ => none

/-- Every task on a wait queue is there once, and in a call on that semaphore. -/
structure Queues (σ : System T) (still timed : Tid → Prop) : Prop where
  nodup : ∀ s, (σ.semas s).waitQueue.tids.Nodup
  waits : ∀ s, ∀ t ∈ (σ.semas s).waitQueue.tids,
    (σ.pc t = .down s ∧ still t) ∨ (σ.pc t = .downTimeoutCheck s ∧ timed t)
  pcs : ∀ t, (σ.pc t).IsSema

variable {still timed still' timed' : Tid → Prop}

theorem queues_init (k : Kernel) (counts : ℕ → ℤ) : (init k counts : System T).Queues still timed where
  nodup := fun _ => List.nodup_nil
  waits := by
    intro s t ht
    exact absurd ht List.not_mem_nil
  pcs := fun _ => trivial

/-- A task is on one queue at most. -/
theorem Queues.unique (h : σ.Queues still timed) {s s' : ℕ} {t : Tid}
    (ht : t ∈ (σ.semas s).waitQueue.tids) (ht' : t ∈ (σ.semas s').waitQueue.tids) : s = s' := by
  rcases h.waits s t ht with ⟨hp, -⟩ | ⟨hp, -⟩
  · rcases h.waits s' t ht' with ⟨hp', -⟩ | ⟨hp', -⟩
    · rw [hp] at hp'
      cases hp'
      rfl
    · rw [hp] at hp'
      cases hp'
  · rcases h.waits s' t ht' with ⟨hp', -⟩ | ⟨hp', -⟩
    · rw [hp] at hp'
      cases hp'
    · rw [hp] at hp'
      cases hp'
      rfl

/-- A task outside the timed wait that is not `still` is on no queue. -/
theorem Queues.not_mem (h : σ.Queues still timed) {t : Tid} {pc : Pc T} (hpc : σ.pc t = pc)
    (hne : ∀ s, pc ≠ .downTimeoutCheck s) (hst : ¬still t) (s : ℕ) :
    t ∉ (σ.semas s).waitQueue.tids := by
  intro hm
  rcases h.waits s t hm with ⟨-, ht⟩ | ⟨hp, -⟩
  · exact hst ht
  · rw [hpc] at hp
    exact hne s hp

/-- A task that blocks on a semaphore is parked before the scheduler runs. -/
theorem Queues.park_of_block (h : σ.Queues still timed) {cr : Tid} {s : ℕ} {k : Kernel}
    (hno : cr ∉ (σ.semas s).waitQueue.tids)
    (hk : ((σ.kernel.park cr).enqueue (σ.semas s).waitQueue cr).1.yieldIf true = some k) :
    (σ.kernel.park cr).yieldIf true = some k := by
  rw [← (enqueue_eq (k := σ.kernel.park cr) (h.nodup s) hno).1]
  exact hk

/-- With a time-out it is put to sleep. -/
theorem Queues.sleep_of_block (h : σ.Queues still timed) {cr : Tid} {s : ℕ} {ticks : BitVec 32} {k : Kernel}
    (hno : cr ∉ (σ.semas s).waitQueue.tids)
    (hk : ((σ.semas s).downTimeoutBlock σ.kernel cr ticks).kernel.yieldIf true = some k) :
    (σ.kernel.sleep cr ticks).yieldIf true = some k := by
  rw [← park_sleepingInsert, ← (enqueue_eq (k := σ.kernel.park cr) (h.nodup s) hno).1]
  exact hk

/-- The two actions that wake a waiter: whom they wake, and that they are no `down`. -/
theorem woken_of_up {s : ℕ} {b : Bool}
    (ha : (a = .upFromIsr s ∧ b = false) ∨
      (a = .call (.up s) ∧ ∃ cr, σ.kernel.crTid = some cr ∧ σ.pc cr = .user)) :
    σ.woken a = (σ.semas s).woken.map Prod.fst ∧ ∀ s', a ≠ .call (.down s') := by
  rcases ha with ⟨rfl, -⟩ | ⟨rfl, -⟩
  · exact ⟨rfl, fun s' h => by cases h⟩
  · exact ⟨rfl, fun s' h => by cases h⟩

/-- Queues only lose tasks, and only a task that is on no queue afterwards moves. -/
theorem Queues.keep (h : σ.Queues still timed)
    (hsub : ∀ s, (σ'.semas s).waitQueue.tids.Sublist (σ.semas s).waitQueue.tids)
    (hstill : ∀ s, ∀ t ∈ (σ'.semas s).waitQueue.tids, still t → still' t)
    (htimed : ∀ s, ∀ t ∈ (σ'.semas s).waitQueue.tids, timed t → timed' t)
    (hpc : σ'.pc = σ.pc ∨ ∃ c pc, (∀ s, c ∉ (σ'.semas s).waitQueue.tids) ∧ Pc.IsSema pc ∧
      σ'.pc = Function.update σ.pc c pc) : σ'.Queues still' timed' := by
  have hstay : ∀ s, ∀ t ∈ (σ'.semas s).waitQueue.tids, σ'.pc t = σ.pc t := by
    intro s t ht
    rcases hpc with hpc | ⟨c, pc, hc, -, hpc⟩
    · rw [hpc]
    · rw [hpc, Function.update_of_ne]
      rintro rfl
      exact hc s ht
  refine ⟨fun s => (h.nodup s).sublist (hsub s), fun s t ht => ?_, fun t => ?_⟩
  · rw [hstay s t ht]
    exact (h.waits s t ((hsub s).subset ht)).imp (And.imp id (hstill s t ht))
      (And.imp id (htimed s t ht))
  · rcases hpc with hpc | ⟨c, pc, -, hp, hpc⟩
    · rw [hpc]
      exact h.pcs t
    · rw [hpc, Function.update_apply]
      split_ifs
      · exact hp
      · exact h.pcs t

/-- The running task puts itself on the queue of semaphore `s`. -/
theorem Queues.enqueue (h : σ.Queues still timed) {c : Tid} {s : ℕ} {i : SemaInner} {k : Kernel}
    {pc : Pc T} (hno : ∀ s, c ∉ (σ.semas s).waitQueue.tids)
    (hi : i.waitQueue = (k.enqueue (σ.semas s).waitQueue c).2)
    (hstill : ∀ s, ∀ t ∈ (σ.semas s).waitQueue.tids, still t → still' t)
    (htimed : ∀ s, ∀ t ∈ (σ.semas s).waitQueue.tids, timed t → timed' t)
    (hself : (pc = .down s ∧ still' c) ∨ (pc = .downTimeoutCheck s ∧ timed' c))
    (hsem : σ'.semas = Function.update σ.semas s i)
    (hpc : σ'.pc = Function.update σ.pc c pc) : σ'.Queues still' timed' := by
  have hold : ∀ s', ∀ t ∈ (σ.semas s').waitQueue.tids,
      (σ'.pc t = .down s' ∧ still' t) ∨ (σ'.pc t = .downTimeoutCheck s' ∧ timed' t) := by
    intro s' t hm
    have htc : t ≠ c := by
      rintro rfl
      exact hno s' hm
    rw [hpc, Function.update_of_ne htc]
    exact (h.waits s' t hm).imp (And.imp id (hstill s' t hm)) (And.imp id (htimed s' t hm))
  refine ⟨fun s' => ?_, fun s' t ht => ?_, fun t => ?_⟩
  · rw [hsem, Function.update_apply]
    split_ifs
    · rw [hi]
      exact nodup_enqueue (h.nodup s) (hno s)
    · exact h.nodup s'
  · rw [hsem, Function.update_apply] at ht
    split_ifs at ht with hss
    · subst hss
      rw [hi, mem_enqueue (h.nodup s') (hno s')] at ht
      rcases ht with rfl | ht
      · rw [hpc, Function.update_self]
        exact hself
      · exact hold s' t ht
    · exact hold s' t ht
  · rw [hpc, Function.update_apply]
    split_ifs
    · rcases hself with ⟨rfl, -⟩ | ⟨rfl, -⟩ <;> exact trivial
    · exact h.pcs t

/-- A write to one semaphore that adds nobody to its queue. -/
theorem sublist_update {s : ℕ} {i : SemaInner}
    (hi : i.waitQueue.tids.Sublist (σ.semas s).waitQueue.tids) (s' : ℕ) :
    (Function.update σ.semas s i s').waitQueue.tids.Sublist (σ.semas s').waitQueue.tids := by
  rw [Function.update_apply]
  split_ifs with hs
  · rw [hs]
    exact hi
  · exact List.Sublist.refl _

/-- `up` takes off its queue the task it wakes, or nobody. -/
theorem up_queue (σ : System T) (s : ℕ) :
    ((σ.semas s).woken = none ∧ ((σ.semas s).up σ.kernel).kernel = σ.kernel ∧
        ((σ.semas s).up σ.kernel).inner.waitQueue = (σ.semas s).waitQueue) ∨
      ∃ w queue, (σ.semas s).woken = some (w, queue) ∧
        ((σ.semas s).up σ.kernel).kernel = σ.kernel.wake w ∧
        ((σ.semas s).up σ.kernel).inner.waitQueue = queue ∧
        (σ.semas s).waitQueue.tids = w :: queue.tids := by
  cases hw : (σ.semas s).woken with
  | none =>
      rw [SemaInner.up, hw]
      exact .inl ⟨rfl, rfl, rfl⟩
  | some r =>
      obtain ⟨w, queue⟩ := r
      rw [SemaInner.up, hw]
      refine .inr ⟨w, queue, rfl, rfl, rfl, ?_⟩
      unfold SemaInner.woken at hw
      split_ifs at hw
      exact popFront_eq_some.mp hw

/-- The first task taken off a queue is on none afterwards. -/
theorem Queues.takeFirst (h : σ.Queues still timed) {s : ℕ} {w : Tid} {i : SemaInner}
    (hcons : (σ.semas s).waitQueue.tids = w :: i.waitQueue.tids) (s' : ℕ) :
    (Function.update σ.semas s i s').waitQueue.tids.Sublist (σ.semas s').waitQueue.tids ∧
      w ∉ (Function.update σ.semas s i s').waitQueue.tids := by
  have hn := h.nodup s
  rw [hcons, List.nodup_cons] at hn
  have hsub : i.waitQueue.tids.Sublist (σ.semas s).waitQueue.tids := by
    rw [hcons]
    exact List.sublist_cons_self w i.waitQueue.tids
  refine ⟨sublist_update hsub s', fun hw => ?_⟩
  have hmem : w ∈ (σ.semas s).waitQueue.tids := by
    rw [hcons]
    exact List.mem_cons_self
  have hss := h.unique hmem ((sublist_update hsub s').subset hw)
  subst hss
  rw [Function.update_self] at hw
  exact hn.1 hw

/-- **The wait queues along a step.**  A queued task that was still or timed may stop being so only by
being taken off its queue; who blocks in the step has to be so. -/
theorem Queues.step (h : σ.Queues still timed) (hs : SemaStep σ a σ')
    (hrun : ∀ cr, σ.kernel.crTid = some cr → ¬still cr)
    (hstill : ∀ s, ∀ t ∈ (σ.semas s).waitQueue.tids, σ.woken a ≠ some t → still t → still' t)
    (htimed : ∀ s, ∀ t ∈ (σ.semas s).waitQueue.tids, σ.woken a ≠ some t → timed t → timed' t)
    (hblock : ∀ cr s, σ.kernel.crTid = some cr → a = .call (.down s) → σ'.pc cr = .down s →
      still' cr)
    (hblockTimed : ∀ cr s, σ.kernel.crTid = some cr → a = .proceed →
      σ'.pc cr = .downTimeoutCheck s → timed' cr) : σ'.Queues still' timed' := by
  -- an action that takes nobody off a queue
  have hkeep : σ.woken a = none →
      (∀ s, ∀ t ∈ (σ.semas s).waitQueue.tids, still t → still' t) ∧
        ∀ s, ∀ t ∈ (σ.semas s).waitQueue.tids, timed t → timed' t := by
    intro hw
    exact ⟨fun s t ht => hstill s t ht (by rw [hw]; simp),
      fun s t ht => htimed s t ht (by rw [hw]; simp)⟩
  cases hs with
  | tick hk =>
      obtain ⟨h1, h2⟩ := hkeep rfl
      exact h.keep (fun _ => List.Sublist.refl _) h1 h2 (.inl rfl)
  | switch ha hk =>
      obtain ⟨h1, h2⟩ := hkeep (by rcases ha with rfl | rfl <;> rfl)
      exact h.keep (fun _ => List.Sublist.refl _) h1 h2 (.inl rfl)
  | delay hk =>
      obtain ⟨h1, h2⟩ := hkeep rfl
      exact h.keep (fun _ => List.Sublist.refl _) h1 h2 (.inl rfl)
  | @take c cr s hcr hpc hc =>
      obtain ⟨h1, h2⟩ := hkeep (by rcases hc with ⟨rfl, -⟩ | ⟨rfl | ⟨_, rfl⟩, -⟩ <;> rfl)
      have hsub := sublist_update (σ := σ) (s := s) (i := ⟨wrapI32 ((σ.semas s).count - 1),
        (σ.semas s).waitQueue⟩) (List.Sublist.refl _)
      exact h.keep hsub (fun s' t ht => h1 s' t ((hsub s').subset ht))
        (fun s' t ht => h2 s' t ((hsub s').subset ht)) (.inl rfl)
  | fail hc =>
      obtain ⟨h1, h2⟩ := hkeep (by rcases hc with rfl | rfl <;> rfl)
      exact h.keep (fun _ => List.Sublist.refl _) h1 h2 (.inl rfl)
  | @begin cr s ticks hcr hpc =>
      obtain ⟨h1, h2⟩ := hkeep rfl
      exact h.keep (fun _ => List.Sublist.refl _) h1 h2
        (.inr ⟨cr, .downTimeoutBlock s ticks, h.not_mem hpc (by simp) (hrun cr hcr), trivial, rfl⟩)
  | @block cr s k hcr hpc hneg hk =>
      obtain ⟨h1, h2⟩ := hkeep rfl
      exact h.enqueue (h.not_mem hpc (by simp) (hrun cr hcr)) rfl h1 h2
        (.inl ⟨rfl, hblock cr s hcr rfl (Function.update_self ..)⟩) rfl rfl
  | @blockTimed cr s ticks k hcr hpc hk =>
      obtain ⟨h1, h2⟩ := hkeep rfl
      exact h.enqueue (h.not_mem hpc (by simp) (hrun cr hcr)) rfl h1 h2
        (.inr ⟨rfl, hblockTimed cr s hcr rfl (Function.update_self ..)⟩) rfl rfl
  | @up _ s b k ha hb hk =>
      obtain ⟨hw, -⟩ := woken_of_up ha
      rcases σ.up_queue s with ⟨hnone, -, hq⟩ | ⟨w, queue, hsome, -, hq, hcons⟩
      · obtain ⟨h1, h2⟩ := hkeep (by rw [hw, hnone]; rfl)
        have hsub := sublist_update (σ := σ) (s := s) (i := ((σ.semas s).up σ.kernel).inner)
          (by rw [hq])
        exact h.keep hsub (fun s' t ht => h1 s' t ((hsub s').subset ht))
          (fun s' t ht => h2 s' t ((hsub s').subset ht)) (.inl rfl)
      · have hfirst := h.takeFirst (i := ((σ.semas s).up σ.kernel).inner) (by rw [hq]; exact hcons)
        have hout : ∀ s', ∀ t ∈ (Function.update σ.semas s ((σ.semas s).up σ.kernel).inner
            s').waitQueue.tids, σ.woken a ≠ some t := by
          intro s' t ht heq
          rw [hw, hsome] at heq
          cases heq
          exact (hfirst s').2 ht
        exact h.keep (fun s' => (hfirst s').1)
          (fun s' t ht => hstill s' t ((hfirst s').1.subset ht) (hout s' t ht))
          (fun s' t ht => htimed s' t ((hfirst s').1.subset ht) (hout s' t ht)) (.inl rfl)
  | @resume cr s hcr hpc =>
      obtain ⟨h1, h2⟩ := hkeep rfl
      exact h.keep (fun _ => List.Sublist.refl _) h1 h2
        (.inr ⟨cr, .user, h.not_mem hpc (by simp) (hrun cr hcr), trivial, rfl⟩)
  | @timeOut cr s hcr hpc hmem =>
      obtain ⟨h1, h2⟩ := hkeep rfl
      have hsub : ∀ s', (Function.update σ.semas s ⟨wrapI32 ((σ.semas s).count + 1),
          (σ.semas s).waitQueue.remove cr⟩ s').waitQueue.tids.Sublist
            (σ.semas s').waitQueue.tids := by
        refine sublist_update ?_
        rw [remove_tids]
        exact List.erase_sublist
      refine h.keep hsub (fun s' t ht => h1 s' t ((hsub s').subset ht))
        (fun s' t ht => h2 s' t ((hsub s').subset ht))
        (.inr ⟨cr, .user, fun s' hm => ?_, trivial, rfl⟩)
      have hss := h.unique hmem ((hsub s').subset hm)
      subst hss
      replace hm : cr ∈ ((Function.update σ.semas s _) s).waitQueue.tids := hm
      rw [Function.update_self, remove_tids] at hm
      exact (h.nodup s).not_mem_erase hm
  | @acquire cr s hcr hpc hmem =>
      obtain ⟨h1, h2⟩ := hkeep rfl
      refine h.keep (fun _ => List.Sublist.refl _) h1 h2
        (.inr ⟨cr, .user, fun s' hm => ?_, trivial, rfl⟩)
      rcases h.waits s' cr hm with ⟨hp, -⟩ | ⟨hp, -⟩
      · rw [hpc] at hp
        cases hp
      · rw [hpc] at hp
        cases hp
        exact hmem hm

end System

end MosKernel
