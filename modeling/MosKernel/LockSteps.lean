import MosKernel.System

/-!
# Steps of locks, condition variables and semaphores

`LockStep` says once what a step can do when tasks call semaphores, mutexes, condition variables and
the operations of `Task` other than `terminate`.  `MutexInner.lock` and `MutexInner.unlock` have three
cases each; `Unlocks` is the one for the latter, which guard drops and `CondVar::wait` share.
-/

namespace MosKernel

open TaskList Kernel

variable {T : Type} {cap : ℕ → ℕ} {σ σ' : System T} {a : Action T}

/-- The operations of mutexes, condition variables and semaphores without time-outs, those of `Task`
without `terminate`, and interrupts. -/
def Action.IsLock : Action T → Prop
  | .call (.task (.terminate _)) => False
  | .call (.downTimeout _ _) | .call (.send _ _ _) | .call (.recv _ _) => False
  | _ => True

instance : DecidablePred (Action.IsLock (T := T))
  | .call (.task (.terminate _))
  | .call (.downTimeout _ _) | .call (.send _ _ _) | .call (.recv _ _) => isFalse id
  | .call (.task (.create _ _)) | .call (.task (.createRaw _ _ _)) | .call (.task .exitCurrent)
  | .call (.task (.block _)) | .call (.task (.resume _)) | .call (.task (.delay _))
  | .call (.task .yieldTask)
  | .call (.down _) | .call (.tryDown _) | .call (.up _)
  | .call (.lock _) | .call (.unlock _) | .call (.wait _ _) | .call (.notify _) | .call (.notifyAll _)
  | .systick _ | .preempt | .upFromIsr _ | .proceed => isTrue trivial

/-- A semaphore operation. -/
def Action.OnSema : Action T → Prop
  | .call (.down _) | .call (.tryDown _) | .call (.up _) | .upFromIsr _ => True
  | _ => False

/-- No call is pending, or one of these. -/
def Pc.IsLock : Pc T → Prop
  | .user | .down _ | .lock _ | .condUnlocked _ _ | .condRelock _ _ => True
  | _ => False

namespace MutexInner

variable {i : MutexInner} {k : Kernel} {cr o : Tid}

theorem lock_of_self (h : i.owner = some cr) :
    i.lock k cr = ⟨k, { i with recursiveCount := i.recursiveCount + 1 }, false⟩ :=
  if_pos h

theorem lock_of_free (h : i.owner = none) :
    i.lock k cr = ⟨k, { i with owner := some cr, recursiveCount := 1 }, false⟩ := by
  rw [lock, if_neg (by rw [h]; simp), h]

theorem lock_of_held (h : i.owner = some o) (hne : o ≠ cr) :
    i.lock k cr = ⟨(((k.boost o (k.priority cr)).park cr).enqueue i.waitQueue cr).1,
      { i with waitQueue := (((k.boost o (k.priority cr)).park cr).enqueue i.waitQueue cr).2 },
      true⟩ := by
  have hno : i.owner ≠ some cr := by
    rw [h]
    exact fun heq => hne (Option.some.inj heq)
  obtain ⟨owner, count, queue⟩ := i
  cases h
  exact if_neg hno

end MutexInner

/-- The three outcomes of `MutexInner.unlock`. -/
inductive Unlocks (i : MutexInner) (k : Kernel) (cr : Tid) : CsResult MutexInner → Prop
  /-- a recursive lock is left, or a mutex that nobody has locked -/
  | leave : i.recursiveCount ≠ 1 →
      Unlocks i k cr ⟨k, { i with recursiveCount := i.recursiveCount - 1 }, false⟩
  /-- the mutex is released; `b` says whether the front of `READY_LIST` is more urgent -/
  | release {b : Bool} : i.recursiveCount = 1 → i.waitQueue.tids = [] →
      b = ((k.restore cr).readyList.front.any fun front =>
        (k.restore cr).priority front < (k.restore cr).priority cr) →
      Unlocks i k cr ⟨k.restore cr, ⟨none, 0, i.waitQueue⟩, b⟩
  /-- the mutex is handed to the first waiter -/
  | handOff {w : Tid} {queue : TaskList} {b : Bool} : i.recursiveCount = 1 →
      i.waitQueue.tids = w :: queue.tids →
      b = decide (((k.restore cr).wake w).priority w < ((k.restore cr).wake w).priority cr) →
      Unlocks i k cr ⟨(k.restore cr).wake w, ⟨some w, 1, queue⟩, b⟩

theorem MutexInner.unlocks (i : MutexInner) (k : Kernel) (cr : Tid) :
    Unlocks i k cr (i.unlock k cr) := by
  have hcount : 0 < i.recursiveCount - 1 ↔ i.recursiveCount ≠ 1 := by bv_omega
  unfold MutexInner.unlock
  dsimp only
  split_ifs with hpos
  · exact .leave (hcount.mp hpos)
  · have hone : i.recursiveCount = 1 := not_not.mp (mt hcount.mpr hpos)
    split
    · rename_i w queue hpop
      exact .handOff hone (popFront_eq_some.mp hpop) rfl
    · rename_i hpop
      rw [hone]
      exact .release hone (popFront_eq_none.mp hpop) rfl

/-- A call of `lock`, with room for one more guard, or the `lock` at the end of `CondVar::wait`. -/
def System.Locks (σ : System T) (a : Action T) (cr : Tid) (m : ℕ) : Prop :=
  (a = .call (.lock m) ∧ σ.pc cr = .user ∧ σ.guards cr m + 1 < 2 ^ 32) ∨
    a = .proceed ∧ ∃ c, σ.pc cr = .condRelock c m

theorem System.Locks.call_eq {c : Call T} {cr : Tid} {m : ℕ} (h : σ.Locks (.call c) cr m) :
    c = .lock m := by
  rcases h with ⟨heq, -⟩ | ⟨hne, -⟩
  · cases heq
    rfl
  · cases hne

/-- What a step can do; `cr` is the running task. -/
inductive LockStep (σ : System T) : Action T → System T → Prop
  | tick {missed : ℕ} {k : Kernel} : σ.kernel.systickTrap missed = some k →
      LockStep σ (.systick missed) (σ.setKernel k)
  | switch {k : Kernel} : σ.kernel.yieldIf true = some k → LockStep σ .preempt (σ.setKernel k)
  | task {cr : Tid} {c : TaskCall} {σ' : System T} : σ.kernel.crTid = some cr →
      σ.pc cr = .user → (∀ t, c ≠ .terminate t) → σ.task c = some σ' →
      LockStep σ (.call (.task c)) σ'
  /-- a semaphore operation that blocks and wakes nobody -/
  | sema {a : Action T} {s : ℕ} {i : SemaInner} {pc : Tid → Pc T} {h : List (Event T)} :
      i.waitQueue = (σ.semas s).waitQueue →
      a.OnSema ∧ pc = σ.pc ∨ (a = .proceed ∧ ∃ cr, σ.kernel.crTid = some cr ∧
        σ.pc cr = .down s ∧ pc = Function.update σ.pc cr .user) →
      LockStep σ a { σ with
        semas := Function.update σ.semas s i
        pc := pc
        history := h }
  | block {cr : Tid} {s : ℕ} {n : ℤ} {k : Kernel} : σ.kernel.crTid = some cr → σ.pc cr = .user →
      ((σ.kernel.park cr).enqueue (σ.semas s).waitQueue cr).1.yieldIf true = some k →
      LockStep σ (.call (.down s)) { σ with
        kernel := k
        semas := Function.update σ.semas s
          ⟨n, ((σ.kernel.park cr).enqueue (σ.semas s).waitQueue cr).2⟩
        pc := Function.update σ.pc cr (.down s) }
  | up {a : Action T} {w : Tid} {s : ℕ} {i : SemaInner} {b : Bool} {k : Kernel}
      {h : List (Event T)} : a.OnSema → (σ.semas s).waitQueue.tids = w :: i.waitQueue.tids →
      (σ.kernel.wake w).yieldIf b = some k →
      LockStep σ a { σ with
        kernel := k
        semas := Function.update σ.semas s i
        history := h }
  /-- a lock that is free or held by the caller -/
  | enter {a : Action T} {cr : Tid} {m : ℕ} {i : MutexInner} : σ.kernel.crTid = some cr →
      σ.Locks a cr m →
      ((σ.mutexes m).owner = some cr ∧
          i = { σ.mutexes m with recursiveCount := (σ.mutexes m).recursiveCount + 1 } ∨
        (σ.mutexes m).owner = none ∧
          i = { σ.mutexes m with owner := some cr, recursiveCount := 1 }) →
      LockStep σ a ({ σ with mutexes := Function.update σ.mutexes m i }.acquireGuard cr m)
  | contend {a : Action T} {cr o : Tid} {m : ℕ} {k : Kernel} : σ.kernel.crTid = some cr →
      σ.Locks a cr m → (σ.mutexes m).owner = some o → o ≠ cr →
      (((σ.kernel.boost o (σ.kernel.priority cr)).park cr).enqueue
        (σ.mutexes m).waitQueue cr).1.yieldIf true = some k →
      LockStep σ a { σ with
        kernel := k
        mutexes := Function.update σ.mutexes m { σ.mutexes m with
          waitQueue := (((σ.kernel.boost o (σ.kernel.priority cr)).park cr).enqueue
            (σ.mutexes m).waitQueue cr).2 }
        pc := Function.update σ.pc cr (.lock m) }
  | resume {cr : Tid} {m : ℕ} : σ.kernel.crTid = some cr → σ.pc cr = .lock m →
      LockStep σ .proceed (σ.acquireGuard cr m)
  | unlock {cr : Tid} {m : ℕ} {r : CsResult MutexInner} {k : Kernel} :
      σ.kernel.crTid = some cr → σ.pc cr = .user → 0 < σ.guards cr m →
      Unlocks (σ.mutexes m) σ.kernel cr r → r.kernel.yieldIf r.yields = some k →
      LockStep σ (.call (.unlock m)) ({ σ with
        kernel := k
        mutexes := Function.update σ.mutexes m r.inner }.setGuards cr m (σ.guards cr m - 1))
  | wait {cr : Tid} {c m : ℕ} {r : CsResult MutexInner} {pc : Pc T} {k : Kernel} :
      σ.kernel.crTid = some cr → σ.pc cr = .user → 0 < σ.guards cr m →
      Unlocks (σ.mutexes m) ((σ.kernel.enqueueBack (σ.condVars c) cr).1.park cr) cr r →
      pc = .condUnlocked c m ∨ pc = .condRelock c m → r.kernel.yieldIf true = some k →
      LockStep σ (.call (.wait c m)) ({ σ with
        kernel := k
        mutexes := Function.update σ.mutexes m r.inner
        condVars := Function.update σ.condVars c (σ.kernel.enqueueBack (σ.condVars c) cr).2
        pc := Function.update σ.pc cr pc }.setGuards cr m (σ.guards cr m - 1))
  /-- the `yield_task` of `CondVar::wait` itself, where `internal_unlock` has yielded already -/
  | condYield {cr : Tid} {c m : ℕ} {k : Kernel} : σ.kernel.crTid = some cr →
      σ.pc cr = .condUnlocked c m → σ.kernel.yieldIf true = some k →
      LockStep σ .proceed { σ with
        kernel := k
        pc := Function.update σ.pc cr (.condRelock c m) }
  | notify {cr w : Tid} {c : ℕ} {queue : TaskList} {k : Kernel} : σ.kernel.crTid = some cr →
      σ.pc cr = .user → (σ.condVars c).tids = w :: queue.tids →
      (σ.kernel.wake w).yieldIf true = some k →
      LockStep σ (.call (.notify c)) { σ with
        kernel := k
        condVars := Function.update σ.condVars c queue }
  | notifyNone {c : ℕ} : (σ.condVars c).tids = [] → LockStep σ (.call (.notify c)) σ
  | notifyAll {cr : Tid} {c : ℕ} {k : Kernel} : σ.kernel.crTid = some cr → σ.pc cr = .user →
      (σ.kernel.wakeAll (σ.condVars c).tids).yieldIf (!(σ.condVars c).isEmpty) = some k →
      LockStep σ (.call (.notifyAll c)) { σ with
        kernel := k
        condVars := Function.update σ.condVars c .new }

namespace System

/-- **The two outcomes of `lock`**: a guard for the caller, or a wait behind the owner. -/
theorem lock_cases {cr : Tid} {m : ℕ} (hs : σ.lock cr m = some σ') :
    (∃ i, ((σ.mutexes m).owner = some cr ∧
          i = { σ.mutexes m with recursiveCount := (σ.mutexes m).recursiveCount + 1 } ∨
        (σ.mutexes m).owner = none ∧ i = { σ.mutexes m with owner := some cr, recursiveCount := 1 }) ∧
        σ' = { σ with mutexes := Function.update σ.mutexes m i }.acquireGuard cr m) ∨
      ∃ o k, (σ.mutexes m).owner = some o ∧ o ≠ cr ∧
        (((σ.kernel.boost o (σ.kernel.priority cr)).park cr).enqueue
          (σ.mutexes m).waitQueue cr).1.yieldIf true = some k ∧
        σ' = { σ with
          kernel := k
          mutexes := Function.update σ.mutexes m { σ.mutexes m with
            waitQueue := (((σ.kernel.boost o (σ.kernel.priority cr)).park cr).enqueue
              (σ.mutexes m).waitQueue cr).2 }
          pc := Function.update σ.pc cr (.lock m) } := by
  unfold System.lock at hs
  dsimp only at hs
  cases ho : (σ.mutexes m).owner with
  | none =>
      rw [MutexInner.lock_of_free ho] at hs
      cases hs
      exact .inl ⟨_, .inr ⟨rfl, rfl⟩, rfl⟩
  | some o =>
      by_cases hne : o = cr
      · subst hne
        rw [MutexInner.lock_of_self ho] at hs
        cases hs
        exact .inl ⟨_, .inl ⟨rfl, rfl⟩, rfl⟩
      · rw [MutexInner.lock_of_held ho hne] at hs
        obtain ⟨k, hk, rfl⟩ := yieldIf_eq_some hs
        exact .inr ⟨o, k, rfl, hne, hk, rfl⟩

theorem lock_step {cr : Tid} {m : ℕ} (hcr : σ.kernel.crTid = some cr) (hl : σ.Locks a cr m)
    (hs : σ.lock cr m = some σ') : LockStep σ a σ' := by
  rcases lock_cases hs with ⟨i, hi, rfl⟩ | ⟨o, k, ho, hne, hk, rfl⟩
  · exact .enter hcr hl hi
  · exact .contend hcr hl ho hne hk

theorem down_step {cr : Tid} {s : ℕ} (hcr : σ.kernel.crTid = some cr) (hpc : σ.pc cr = .user)
    (hs : σ.down cr s = some σ') : LockStep σ (.call (.down s)) σ' := by
  unfold System.down at hs
  dsimp only at hs
  by_cases hneg : wrapI32 ((σ.semas s).count - 1) < 0
  · rw [SemaInner.down_of_neg hneg] at hs
    obtain ⟨k, hk, rfl⟩ := yieldIf_eq_some hs
    exact .block hcr hpc hk
  · rw [SemaInner.down_of_nonneg hneg] at hs
    cases hs
    exact .sema rfl (.inl ⟨trivial, rfl⟩)

theorem tryDown_step (σ : System T) (cr : Tid) (s : ℕ) :
    LockStep σ (.call (.tryDown s)) (σ.tryDown cr s) := by
  unfold System.tryDown SemaInner.tryDown
  by_cases hpos : (σ.semas s).count > 0
  · simp only [if_pos hpos]
    exact .sema rfl (.inl ⟨trivial, rfl⟩)
  · simp only [if_neg hpos]
    exact .sema rfl (.inl ⟨trivial, rfl⟩)

/-- `up` and `up_from_isr`: the latter never switches. -/
theorem up_step {s : ℕ} {b : Bool} {k : Kernel} (ha : a.OnSema)
    (hb : (σ.semas s).woken = none → b = false)
    (hk : ((σ.semas s).up σ.kernel).kernel.yieldIf b = some k) :
    LockStep σ a { σ with
      kernel := k
      semas := Function.update σ.semas s ((σ.semas s).up σ.kernel).inner
      history := .upped s :: σ.history } := by
  cases hw : (σ.semas s).woken with
  | none =>
      rw [hb hw] at hk
      rw [SemaInner.up, hw] at hk ⊢
      cases hk
      exact .sema rfl (.inl ⟨ha, rfl⟩)
  | some r =>
      obtain ⟨w, queue⟩ := r
      rw [SemaInner.up, hw] at hk ⊢
      have hcons : (σ.semas s).waitQueue.tids = w :: queue.tids := by
        unfold SemaInner.woken at hw
        split_ifs at hw
        exact popFront_eq_some.mp hw
      exact .up ha hcons hk

theorem call_lock {cr : Tid} {c : Call T} (hcr : σ.kernel.crTid = some cr)
    (hpc : σ.pc cr = .user) (ha : (Action.call c).IsLock) (hs : σ.call cap cr c = some σ') :
    LockStep σ (.call c) σ' := by
  cases c with
  | task c =>
      refine .task hcr hpc ?_ hs
      rintro t rfl
      exact ha
  | down s => exact down_step hcr hpc hs
  | tryDown s =>
      cases hs
      exact tryDown_step σ cr s
  | up s =>
      obtain ⟨k, hk, rfl⟩ := yieldIf_eq_some hs
      refine up_step trivial (fun hnone => ?_) hk
      rw [SemaInner.up, hnone]
  | lock m =>
      replace hs : (if σ.guards cr m + 1 < 2 ^ 32 then σ.lock cr m else none) = some σ' := hs
      split_ifs at hs with hroom
      exact lock_step hcr (.inl ⟨rfl, hpc, hroom⟩) hs
  | unlock m =>
      replace hs : (if 0 < σ.guards cr m then σ.unlock cr m else none) = some σ' := hs
      split_ifs at hs with hg
      obtain ⟨k, hk, rfl⟩ := yieldIf_eq_some hs
      exact .unlock hcr hpc hg (MutexInner.unlocks _ _ cr) hk
  | wait c m =>
      replace hs : (if 0 < σ.guards cr m then σ.wait cr c m else none) = some σ' := hs
      split_ifs at hs with hg
      obtain ⟨k, hk, rfl⟩ := yieldIf_eq_some hs
      refine .wait hcr hpc hg (MutexInner.unlocks _ _ cr) ?_ hk
      split_ifs
      · exact .inl rfl
      · exact .inr rfl
  | notify c =>
      replace hs : σ.notify c = some σ' := hs
      unfold System.notify condNotify at hs
      cases hpop : (σ.condVars c).popFront with
      | none =>
          rw [hpop] at hs
          cases hs
          have hsame : Function.update σ.condVars c (σ.condVars c) = σ.condVars :=
            Function.update_eq_self c σ.condVars
          show LockStep σ _ { σ with condVars := Function.update σ.condVars c (σ.condVars c) }
          rw [hsame]
          exact .notifyNone (popFront_eq_none.mp hpop)
      | some r =>
          obtain ⟨w, queue⟩ := r
          rw [hpop] at hs
          obtain ⟨k, hk, rfl⟩ := yieldIf_eq_some hs
          exact .notify hcr hpc (popFront_eq_some.mp hpop) hk
  | notifyAll c =>
      obtain ⟨k, hk, rfl⟩ := yieldIf_eq_some hs
      exact .notifyAll hcr hpc hk
  | _ => exact ha.elim

theorem proceed_lock {cr : Tid} (hcr : σ.kernel.crTid = some cr) (hp : (σ.pc cr).IsLock)
    (hs : σ.proceed cap cr = some σ') : LockStep σ .proceed σ' := by
  unfold System.proceed at hs
  split at hs
  case h_1 => cases hs
  case h_2 s hpc =>
    cases hs
    have hsame : Function.update σ.semas s (σ.semas s) = σ.semas :=
      Function.update_eq_self s σ.semas
    have hstep := LockStep.sema (a := .proceed) (s := s) (i := σ.semas s)
      (h := .acquired s cr :: σ.history) rfl (.inr ⟨rfl, cr, hcr, hpc, rfl⟩)
    rw [hsame] at hstep
    exact hstep
  case h_5 m hpc =>
    cases hs
    exact .resume hcr hpc
  case h_6 c m hpc =>
    obtain ⟨k, hk, rfl⟩ := yieldIf_eq_some hs
    exact .condYield hcr hpc hk
  case h_7 c m hpc => exact lock_step hcr (.inr ⟨rfl, c, hpc⟩) hs
  all_goals
    rename_i hpc
    rw [hpc] at hp
    exact hp.elim

/-- **What a step can do.** -/
theorem step_lock (hp : ∀ t, (σ.pc t).IsLock) (ha : a.IsLock) (hs : σ.step cap a = some σ') :
    LockStep σ a σ' := by
  cases a with
  | systick missed =>
      obtain ⟨k, hk, rfl⟩ := Option.map_eq_some_iff.mp hs
      exact .tick hk
  | preempt =>
      obtain ⟨k, hk, rfl⟩ := yieldIf_eq_some hs
      exact .switch hk
  | upFromIsr s =>
      cases hs
      exact up_step trivial (fun _ => rfl) rfl
  | call c =>
      obtain ⟨cr, hcr, hs⟩ := Option.bind_eq_some_iff.mp hs
      split at hs
      · exact call_lock hcr ‹_› ha hs
      · cases hs
  | proceed =>
      obtain ⟨cr, hcr, hs⟩ := Option.bind_eq_some_iff.mp hs
      exact proceed_lock hcr (hp cr) hs

end System

end MosKernel
