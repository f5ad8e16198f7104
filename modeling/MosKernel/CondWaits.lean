import MosKernel.Inheritance

/-!
# Waiting on a condition variable

`CondVar::wait` gives its mutex away with one `internal_unlock` and takes it back with one `lock`.  The
former only counts down where the caller has locked the mutex more than once: then the caller sleeps as its
owner, and nobody can lock the mutex to change the condition.

`MutexStep` is what any action of the system does to mutexes and to the calls on them.  `wait_releases`
follows every `wait` from its call to its return with a ghost, `Waited.waits`; in runs where nothing but
locks and condition variables moves the waiters, the recursion depth decides alone.
-/

namespace MosKernel

open OrderedInsert TaskList Transition Kernel

variable {T : Type} {cap : ℕ → ℕ} {σ σ' : System T} {a : Action T}

/-- The task is in `Mutex::lock`, or in `CondVar::wait`. -/
def Pc.OnMutex : Pc T → Prop
  | .lock _ | .condUnlocked _ _ | .condRelock _ _ => True
  | _ => False

instance : DecidablePred (Pc.OnMutex (T := T))
  | .lock _ | .condUnlocked _ _ | .condRelock _ _ => isTrue trivial
  | .user | .down _ | .downTimeoutBlock _ _ | .downTimeoutCheck _ | .sendWait _ _ _ | .sendDelay _ _ _
  | .sendCheck _ _ | .sendRetry _ _ | .recvWait _ _ | .recvDelay _ _ | .recvCheck _ | .recvRetry _ =>
    isFalse id

/-- The task is in `CondVar::wait` with mutex `m`, and has not called `lock` again. -/
def Pc.Waits (pc : Pc T) (m : ℕ) : Prop := ∃ c, pc = .condUnlocked c m ∨ pc = .condRelock c m

theorem Pc.not_waits {pc : Pc T} {m : ℕ} (hp : ¬pc.OnMutex) : ¬pc.Waits m := by
  rintro ⟨c, rfl | rfl⟩
  · exact hp trivial
  · exact hp trivial

/-! ### What an action does to mutexes -/

/-- What any action does to mutexes and to the calls on them; `cr` is the running task. -/
inductive MutexStep (σ : System T) (a : Action T) (σ' : System T) : Prop
  | other : σ'.mutexes = σ.mutexes →
      (∀ t, σ'.pc t = σ.pc t ∨
        ¬(σ'.pc t).OnMutex ∧ (σ.kernel.crTid = some t → ¬(σ.pc t).OnMutex)) →
      (∀ c m, a ≠ .call (.wait c m)) → MutexStep σ a σ'
  /-- a lock that is free or held by the caller -/
  | enter {cr : Tid} {m : ℕ} {i : MutexInner} : σ.kernel.crTid = some cr → σ.Locks a cr m →
      ((σ.mutexes m).owner = some cr ∧
          i = { σ.mutexes m with recursiveCount := (σ.mutexes m).recursiveCount + 1 } ∨
        (σ.mutexes m).owner = none ∧
          i = { σ.mutexes m with owner := some cr, recursiveCount := 1 }) →
      σ'.mutexes = Function.update σ.mutexes m i → σ'.pc = Function.update σ.pc cr .user →
      MutexStep σ a σ'
  | contend {cr o : Tid} {m : ℕ} {queue : TaskList} : σ.kernel.crTid = some cr → σ.Locks a cr m →
      (σ.mutexes m).owner = some o → o ≠ cr →
      σ'.mutexes = Function.update σ.mutexes m { σ.mutexes m with waitQueue := queue } →
      σ'.pc = Function.update σ.pc cr (.lock m) → MutexStep σ a σ'
  | resume {cr : Tid} {m : ℕ} : a = .proceed → σ.kernel.crTid = some cr → σ.pc cr = .lock m →
      σ'.mutexes = σ.mutexes → σ'.pc = Function.update σ.pc cr .user → MutexStep σ a σ'
  | unlock {cr : Tid} {m : ℕ} {r : CsResult MutexInner} : a = .call (.unlock m) →
      σ.kernel.crTid = some cr → σ.pc cr = .user → Unlocks (σ.mutexes m) σ.kernel cr r →
      σ'.mutexes = Function.update σ.mutexes m r.inner → σ'.pc = σ.pc → MutexStep σ a σ'
  | wait {cr : Tid} {c m : ℕ} {k : Kernel} {r : CsResult MutexInner} {pc : Pc T} :
      a = .call (.wait c m) → σ.kernel.crTid = some cr → σ.pc cr = .user →
      Unlocks (σ.mutexes m) k cr r → pc = .condUnlocked c m ∨ pc = .condRelock c m →
      σ'.mutexes = Function.update σ.mutexes m r.inner → σ'.pc = Function.update σ.pc cr pc →
      MutexStep σ a σ'
  | condYield {cr : Tid} {c m : ℕ} : a = .proceed → σ.kernel.crTid = some cr →
      σ.pc cr = .condUnlocked c m → σ'.mutexes = σ.mutexes →
      σ'.pc = Function.update σ.pc cr (.condRelock c m) → MutexStep σ a σ'

namespace System

variable {cr : Tid}

/-- Only the kernel, other objects and ghosts change. -/
theorem mutexStep_of_eq (hm : σ'.mutexes = σ.mutexes) (hpc : σ'.pc = σ.pc)
    (ha : ∀ c m, a ≠ .call (.wait c m)) : MutexStep σ a σ' :=
  .other hm (fun t => .inl (congrFun hpc t)) ha

/-- The running task goes on with a call that is not on a mutex. -/
theorem mutexStep_of_update {pc : Pc T} (hm : σ'.mutexes = σ.mutexes)
    (hpc : σ'.pc = Function.update σ.pc cr pc) (hp : ¬pc.OnMutex) (hcr : ¬(σ.pc cr).OnMutex)
    (ha : ∀ c m, a ≠ .call (.wait c m)) : MutexStep σ a σ' := by
  refine .other hm (fun t => ?_) ha
  rw [hpc]
  by_cases htc : t = cr
  · rw [htc, Function.update_self]
    exact .inr ⟨hp, fun _ => hcr⟩
  · exact .inl (Function.update_of_ne htc _ _)

theorem lock_mutexStep {m : ℕ} (hcr : σ.kernel.crTid = some cr) (hl : σ.Locks a cr m)
    (hs : σ.lock cr m = some σ') : MutexStep σ a σ' := by
  rcases lock_cases hs with ⟨i, hi, rfl⟩ | ⟨o, k, ho, hne, hk, rfl⟩
  · exact .enter hcr hl hi rfl rfl
  · exact .contend hcr hl ho hne rfl rfl

theorem commitSend_mutexStep {q : ℕ} {msg : T} (hcr : ¬(σ.pc cr).OnMutex)
    (hs : σ.commitSend cap cr q msg = some σ') (ha : ∀ c m, a ≠ .call (.wait c m)) :
    MutexStep σ a σ' := by
  obtain ⟨k, -, rfl⟩ := yieldIf_eq_some hs
  exact mutexStep_of_update rfl rfl id hcr ha

theorem commitRecv_mutexStep {q : ℕ} (hcr : ¬(σ.pc cr).OnMutex)
    (hs : σ.commitRecv cap cr q = some σ') (ha : ∀ c m, a ≠ .call (.wait c m)) :
    MutexStep σ a σ' := by
  obtain ⟨r, -, hs⟩ := Option.bind_eq_some_iff.mp hs
  obtain ⟨k, -, rfl⟩ := yieldIf_eq_some hs
  exact mutexStep_of_update rfl rfl id hcr ha

theorem call_mutexStep {c : Call T} (hcr : σ.kernel.crTid = some cr) (hpc : σ.pc cr = .user)
    (hs : σ.call cap cr c = some σ') : MutexStep σ (.call c) σ' := by
  have hno : ¬(σ.pc cr).OnMutex := by
    rw [hpc]
    exact id
  cases c with
  | task c =>
      have hs : σ.task c = some σ' := hs
      obtain ⟨⟨k, new⟩, -, rfl⟩ := Option.map_eq_some_iff.mp hs
      cases new with
      | none => exact mutexStep_of_eq rfl rfl (by simp)
      | some t₀ =>
          refine .other rfl (fun t => ?_) (by simp)
          show Function.update σ.pc t₀ .user t = σ.pc t ∨
            ¬(Function.update σ.pc t₀ .user t).OnMutex ∧ _
          by_cases ht : t = t₀
          · rw [ht, Function.update_self]
            refine .inr ⟨id, fun hcr' => ?_⟩
            rw [hcr] at hcr'
            cases hcr'
            exact hno
          · exact .inl (Function.update_of_ne ht _ _)
  | down s =>
      replace hs : σ.down cr s = some σ' := hs
      unfold System.down at hs
      dsimp only at hs
      obtain ⟨k, -, rfl⟩ := yieldIf_eq_some hs
      split_ifs
      · exact mutexStep_of_update rfl rfl id hno (by simp)
      · exact mutexStep_of_eq rfl rfl (by simp)
  | downTimeout s ticks =>
      cases hs
      unfold System.downTimeout
      dsimp only
      split_ifs
      · exact mutexStep_of_eq rfl rfl (by simp)
      · exact mutexStep_of_eq rfl rfl (by simp)
      · exact mutexStep_of_update rfl rfl id hno (by simp)
  | tryDown s =>
      cases hs
      unfold System.tryDown
      dsimp only
      split_ifs
      · exact mutexStep_of_eq rfl rfl (by simp)
      · exact mutexStep_of_eq rfl rfl (by simp)
  | up s =>
      obtain ⟨k, -, rfl⟩ := yieldIf_eq_some hs
      exact mutexStep_of_eq rfl rfl (by simp)
  | lock m =>
      replace hs : (if σ.guards cr m + 1 < 2 ^ 32 then σ.lock cr m else none) = some σ' := hs
      split_ifs at hs with hroom
      exact lock_mutexStep hcr (.inl ⟨rfl, hpc, hroom⟩) hs
  | unlock m =>
      replace hs : (if 0 < σ.guards cr m then σ.unlock cr m else none) = some σ' := hs
      split_ifs at hs with hg
      obtain ⟨k, hk, rfl⟩ := yieldIf_eq_some hs
      exact .unlock rfl hcr hpc (MutexInner.unlocks _ _ cr) rfl rfl
  | wait c m =>
      replace hs : (if 0 < σ.guards cr m then σ.wait cr c m else none) = some σ' := hs
      split_ifs at hs with hg
      obtain ⟨k, hk, rfl⟩ := yieldIf_eq_some hs
      refine .wait rfl hcr hpc (MutexInner.unlocks _ _ cr) ?_ rfl rfl
      split_ifs
      · exact .inl rfl
      · exact .inr rfl
  | notify c =>
      obtain ⟨k, -, rfl⟩ := yieldIf_eq_some hs
      exact mutexStep_of_eq rfl rfl (by simp)
  | notifyAll c =>
      obtain ⟨k, -, rfl⟩ := yieldIf_eq_some hs
      exact mutexStep_of_eq rfl rfl (by simp)
  | send q msg timeout =>
      replace hs : σ.send cap cr q msg timeout = some σ' := hs
      unfold System.send at hs
      dsimp only at hs
      split_ifs at hs
      · obtain ⟨k, -, rfl⟩ := yieldIf_eq_some hs
        exact mutexStep_of_update rfl rfl id hno (by simp)
      · cases hs
        exact mutexStep_of_update rfl rfl id hno (by simp)
      · cases hs
        exact mutexStep_of_update rfl rfl id hno (by simp)
  | recv q timeout =>
      replace hs : σ.recv cap cr q timeout = some σ' := hs
      unfold System.recv at hs
      dsimp only at hs
      split_ifs at hs
      · obtain ⟨r, -, hs⟩ := Option.bind_eq_some_iff.mp hs
        obtain ⟨k, -, rfl⟩ := yieldIf_eq_some hs
        exact mutexStep_of_update rfl rfl id hno (by simp)
      · cases hs
        exact mutexStep_of_update rfl rfl id hno (by simp)
      · cases hs
        exact mutexStep_of_update rfl rfl id hno (by simp)

theorem proceed_mutexStep (hcr : σ.kernel.crTid = some cr) (hs : σ.proceed cap cr = some σ') :
    MutexStep σ .proceed σ' := by
  have hwait : ∀ c m, (.proceed : Action T) ≠ .call (.wait c m) := by simp
  unfold System.proceed at hs
  cases hpc : σ.pc cr with
  | user =>
      rw [hpc] at hs
      cases hs
  | down s =>
      rw [hpc] at hs
      cases hs
      exact mutexStep_of_update rfl rfl id (by rw [hpc]; exact id) hwait
  | downTimeoutBlock s ticks =>
      rw [hpc] at hs
      obtain ⟨k, -, rfl⟩ := yieldIf_eq_some hs
      exact mutexStep_of_update rfl rfl id (by rw [hpc]; exact id) hwait
  | downTimeoutCheck s =>
      rw [hpc] at hs
      cases hs
      unfold System.downTimeoutCheck
      dsimp only
      split_ifs
      · exact mutexStep_of_update rfl rfl id (by rw [hpc]; exact id) hwait
      · exact mutexStep_of_update rfl rfl id (by rw [hpc]; exact id) hwait
  | lock m =>
      rw [hpc] at hs
      cases hs
      exact .resume rfl hcr hpc rfl rfl
  | condUnlocked c m =>
      rw [hpc] at hs
      obtain ⟨k, -, rfl⟩ := yieldIf_eq_some hs
      exact .condYield rfl hcr hpc rfl rfl
  | condRelock c m =>
      rw [hpc] at hs
      exact lock_mutexStep hcr (.inr ⟨rfl, c, hpc⟩) hs
  | sendWait q msg timeout =>
      rw [hpc] at hs
      cases hs
      exact mutexStep_of_update rfl rfl id (by rw [hpc]; exact id) hwait
  | sendDelay q msg timeout =>
      rw [hpc] at hs
      obtain ⟨k, -, rfl⟩ := Option.map_eq_some_iff.mp hs
      exact mutexStep_of_update rfl rfl id (by rw [hpc]; exact id) hwait
  | sendCheck q msg =>
      rw [hpc] at hs
      cases hs
      unfold System.sendCheck
      dsimp only
      split_ifs
      · exact mutexStep_of_update rfl rfl id (by rw [hpc]; exact id) hwait
      · exact mutexStep_of_update rfl rfl id (by rw [hpc]; exact id) hwait
  | sendRetry q msg =>
      rw [hpc] at hs
      dsimp only at hs
      split_ifs at hs
      · exact commitSend_mutexStep (by rw [hpc]; exact id) hs hwait
      · cases hs
        exact mutexStep_of_update rfl rfl id (by rw [hpc]; exact id) hwait
  | recvWait q timeout =>
      rw [hpc] at hs
      cases hs
      exact mutexStep_of_update rfl rfl id (by rw [hpc]; exact id) hwait
  | recvDelay q timeout =>
      rw [hpc] at hs
      obtain ⟨k, -, rfl⟩ := Option.map_eq_some_iff.mp hs
      exact mutexStep_of_update rfl rfl id (by rw [hpc]; exact id) hwait
  | recvCheck q =>
      rw [hpc] at hs
      cases hs
      unfold System.recvCheck
      dsimp only
      split_ifs
      · exact mutexStep_of_update rfl rfl id (by rw [hpc]; exact id) hwait
      · exact mutexStep_of_update rfl rfl id (by rw [hpc]; exact id) hwait
  | recvRetry q =>
      rw [hpc] at hs
      dsimp only at hs
      split_ifs at hs
      · exact commitRecv_mutexStep (by rw [hpc]; exact id) hs hwait
      · cases hs
        exact mutexStep_of_update rfl rfl id (by rw [hpc]; exact id) hwait

/-- **What an action does to mutexes.** -/
theorem mutexStep (hs : σ.step cap a = some σ') : MutexStep σ a σ' := by
  cases a with
  | systick missed =>
      obtain ⟨k, -, rfl⟩ := Option.map_eq_some_iff.mp hs
      exact mutexStep_of_eq rfl rfl (by simp)
  | preempt =>
      obtain ⟨k, -, rfl⟩ := yieldIf_eq_some hs
      exact mutexStep_of_eq rfl rfl (by simp)
  | upFromIsr s =>
      cases hs
      exact mutexStep_of_eq rfl rfl (by simp)
  | call c =>
      obtain ⟨cr, hcr, hs⟩ := Option.bind_eq_some_iff.mp hs
      split at hs
      · exact call_mutexStep hcr ‹_› hs
      · cases hs
  | proceed =>
      obtain ⟨cr, hcr, hs⟩ := Option.bind_eq_some_iff.mp hs
      exact proceed_mutexStep hcr hs

/-! ### What waiting relies on -/

/-- The mutex moves only by its owner and to its waiters: whoever unlocks it owns it, the first waiter is
still in `lock`, and whoever is resumed in `lock` owns it. -/
structure Orderly (σ : System T) (a : Action T) : Prop where
  owned : ∀ cr m, σ.kernel.crTid = some cr → a.unlocking = some m → (σ.mutexes m).owner = some cr
  waiting : ∀ w m, a.unlocking = some m → (σ.mutexes m).waitQueue.front = some w → σ.pc w = .lock m
  resumed : ∀ cr m, σ.kernel.crTid = some cr → a = .proceed → σ.pc cr = .lock m →
    (σ.mutexes m).owner = some cr

/-- A `wait` is called by a task that has locked the mutex once. -/
def WaitsOnce (σ : System T) (a : Action T) : Prop :=
  ∀ c m, a = .call (.wait c m) → (σ.mutexes m).recursiveCount = 1

/-- `WaitsOnce` as a test. -/
def waitsOnce (σ : System T) : Action T → Bool
  | .call (.wait _ m) => (σ.mutexes m).recursiveCount = 1
  | _ => true

theorem waitsOnce_spec (h : σ.waitsOnce a = true) : σ.WaitsOnce a := by
  rintro c m rfl
  exact of_decide_eq_true h

/-- Whoever waits does not own its mutex, and whoever has been handed a mutex owns it once. -/
structure Handed (σ : System T) : Prop where
  released : ∀ t m, (σ.pc t).Waits m → (σ.mutexes m).owner ≠ some t
  locking : ∀ t m, σ.pc t = .lock m → (σ.mutexes m).owner = some t →
    (σ.mutexes m).recursiveCount = 1

theorem handed_init (k : Kernel) (counts : ℕ → ℤ) : (init k counts : System T).Handed := by
  constructor
  · rintro t m ⟨c, hpc | hpc⟩ <;> cases hpc
  · rintro t m ⟨⟩

/-- The mutex after an unlock. -/
theorem unlocks_owner {i : MutexInner} {k : Kernel} {r : CsResult MutexInner} (hr : Unlocks i k cr r) :
    (i.recursiveCount ≠ 1 ∧ r.inner.owner = i.owner) ∨
      (i.recursiveCount = 1 ∧ r.inner.owner = i.waitQueue.front ∧
        ∀ w, r.inner.owner = some w → r.inner.recursiveCount = 1) := by
  cases hr with
  | leave hne => exact .inl ⟨hne, rfl⟩
  | release hone hnil hb =>
      refine .inr ⟨hone, ?_, by rintro w ⟨⟩⟩
      rw [TaskList.front, hnil]
      rfl
  | handOff hone hcons hb =>
      refine .inr ⟨hone, ?_, fun _ _ => rfl⟩
      rw [TaskList.front, hcons]
      rfl

/-- Nothing changes but the calls of tasks that leave them. -/
theorem Handed.keep (h : σ.Handed) (hm : σ'.mutexes = σ.mutexes)
    (hwaits : ∀ t m, (σ'.pc t).Waits m → (σ.pc t).Waits m)
    (hlock : ∀ t m, σ'.pc t = .lock m → σ.pc t = .lock m) : σ'.Handed := by
  refine ⟨fun t m ht => ?_, fun t m ht => ?_⟩
  · rw [hm]
    exact h.released t m (hwaits t m ht)
  · rw [hm]
    exact h.locking t m (hlock t m ht)

/-- Mutex `m` changes. -/
theorem Handed.update (h : σ.Handed) {m : ℕ} {i : MutexInner}
    (hm : σ'.mutexes = Function.update σ.mutexes m i)
    (hwaits : ∀ t m', (σ'.pc t).Waits m' → if m' = m then i.owner ≠ some t else (σ.pc t).Waits m')
    (hlock : ∀ t m', σ'.pc t = .lock m' →
      if m' = m then i.owner = some t → i.recursiveCount = 1 else σ.pc t = .lock m') : σ'.Handed := by
  refine ⟨fun t m' ht => ?_, fun t m' ht => ?_⟩
  · have hw := hwaits t m' ht
    rw [hm, Function.update_apply]
    split_ifs at hw ⊢
    · exact hw
    · exact h.released t m' hw
  · have hl := hlock t m' ht
    rw [hm, Function.update_apply]
    split_ifs at hl ⊢
    · exact hl
    · exact h.locking t m' hl

/-- A mutex is unlocked: it goes to the first waiter, or stays with an owner that goes on. -/
theorem Handed.unlocked (h : σ.Handed) (ho : σ.Orderly a) {m : ℕ} {k : Kernel}
    {r : CsResult MutexInner} (ha : a.unlocking = some m) (hcr : σ.kernel.crTid = some cr)
    (hpc : σ.pc cr = .user) (hr : Unlocks (σ.mutexes m) k cr r)
    (hm : σ'.mutexes = Function.update σ.mutexes m r.inner)
    (hpcs : ∀ t, t ≠ cr → σ'.pc t = σ.pc t) (hlock : ∀ m', σ'.pc cr ≠ .lock m')
    (hwaits : ∀ m', (σ'.pc cr).Waits m' → m' = m ∧ (σ.mutexes m).recursiveCount = 1) :
    σ'.Handed := by
  have howner := ho.owned cr m hcr ha
  have hfirst : ∀ t, (σ.mutexes m).waitQueue.front = some t → t ≠ cr ∧ ¬(σ.pc t).Waits m := by
    intro t ht
    have hl := ho.waiting t m ha ht
    refine ⟨?_, ?_⟩
    · rintro rfl
      rw [hpc] at hl
      cases hl
    · rw [hl]
      rintro ⟨c, hc | hc⟩ <;> cases hc
  refine h.update hm (fun t m' ht => ?_) fun t m' ht => ?_
  · by_cases htc : t = cr
    · subst htc
      obtain ⟨rfl, hone⟩ := hwaits m' ht
      rw [if_pos rfl]
      rcases unlocks_owner hr with ⟨hmore, -⟩ | ⟨-, hfront, -⟩
      · exact absurd hone hmore
      · rw [hfront]
        exact fun hf => (hfirst t hf).1 rfl
    · rw [hpcs t htc] at ht
      split_ifs with hmm
      · subst hmm
        rcases unlocks_owner hr with ⟨-, hsame⟩ | ⟨-, hfront, -⟩
        · rw [hsame]
          exact h.released t m' ht
        · rw [hfront]
          exact fun hf => (hfirst t hf).2 ht
      · exact ht
  · have htc : t ≠ cr := by
      rintro rfl
      exact hlock m' ht
    rw [hpcs t htc] at ht
    split_ifs with hmm
    · intro hro
      rcases unlocks_owner hr with ⟨-, hsame⟩ | ⟨-, -, hone⟩
      · rw [hsame, howner] at hro
        exact absurd (Option.some.inj hro).symm htc
      · exact hone t hro
    · exact ht

/-- The running task goes on with its call. -/
theorem Handed.move {pc : Pc T} (h : σ.Handed) (hm : σ'.mutexes = σ.mutexes)
    (hpc : σ'.pc = Function.update σ.pc cr pc) (hwaits : ∀ m, pc.Waits m → (σ.pc cr).Waits m)
    (hlock : ∀ m, pc ≠ .lock m) : σ'.Handed := by
  refine h.keep hm (fun t m ht => ?_) fun t m ht => ?_
  · rw [hpc, Function.update_apply] at ht
    split_ifs at ht with htc
    · rw [htc]
      exact hwaits m ht
    · exact ht
  · rw [hpc, Function.update_apply] at ht
    split_ifs at ht
    · exact absurd ht (hlock m)
    · exact ht

/-- The running task has locked mutex `m`. -/
theorem Handed.entered {m : ℕ} {i : MutexInner} (h : σ.Handed) (howner : i.owner = some cr)
    (hm : σ'.mutexes = Function.update σ.mutexes m i)
    (hpc : σ'.pc = Function.update σ.pc cr .user) : σ'.Handed := by
  have hother : ∀ t, t ≠ cr → i.owner ≠ some t := by
    intro t htc heq
    rw [howner] at heq
    exact htc (Option.some.inj heq).symm
  refine h.update hm (fun t m' ht => ?_) fun t m' ht => ?_
  · rw [hpc, Function.update_apply] at ht
    split_ifs at ht with htc
    · exact absurd ht (Pc.not_waits id)
    · split_ifs
      · exact hother t htc
      · exact ht
  · rw [hpc, Function.update_apply] at ht
    split_ifs at ht with htc
    split_ifs
    · exact fun heq => absurd heq (hother t htc)
    · exact ht

/-- The running task waits for mutex `m`, which somebody else owns. -/
theorem Handed.contended {o : Tid} {m : ℕ} {queue : TaskList} (h : σ.Handed)
    (hown : (σ.mutexes m).owner = some o) (hne : o ≠ cr)
    (hm : σ'.mutexes = Function.update σ.mutexes m { σ.mutexes m with waitQueue := queue })
    (hpc : σ'.pc = Function.update σ.pc cr (.lock m)) : σ'.Handed := by
  refine h.update hm (fun t m' ht => ?_) fun t m' ht => ?_
  · rw [hpc, Function.update_apply] at ht
    split_ifs at ht with htc
    · obtain ⟨c, hc | hc⟩ := ht <;> cases hc
    · split_ifs with hmm
      · rw [hmm] at ht
        exact h.released t m ht
      · exact ht
  · rw [hpc, Function.update_apply] at ht
    split_ifs at ht with htc
    · cases ht
      rw [if_pos rfl, htc]
      intro heq
      rw [show (σ.mutexes m).owner = some cr from heq] at hown
      exact absurd (Option.some.inj hown).symm hne
    · split_ifs with hmm
      · rw [hmm] at ht
        exact h.locking t m ht
      · exact ht

/-- **Who owns the mutexes along a step.** -/
theorem Handed.step (h : σ.Handed) (ho : σ.Orderly a) (hw : σ.WaitsOnce a) (hs : MutexStep σ a σ') :
    σ'.Handed := by
  cases hs with
  | other hm hpc hnot =>
      refine h.keep hm (fun t m ht => ?_) fun t m ht => ?_
      · rcases hpc t with hsame | ⟨hp, -⟩
        · rwa [← hsame]
        · exact absurd ht (Pc.not_waits hp)
      · rcases hpc t with hsame | ⟨hp, -⟩
        · rwa [← hsame]
        · rw [ht] at hp
          exact absurd trivial hp
  | enter hcr hl hi hm hpc =>
      rcases hi with ⟨hown, rfl⟩ | ⟨-, rfl⟩
      · refine h.entered ?_ hm hpc
        exact hown
      · exact h.entered rfl hm hpc
  | contend hcr hl hown hne hm hpc => exact h.contended hown hne hm hpc
  | resume ha hcr hp hm hpc =>
      exact h.move hm hpc (fun m ht => absurd ht (Pc.not_waits id)) (by simp)
  | @unlock cr m r ha hcr hp hr hm hpc =>
      subst ha
      refine h.unlocked ho rfl hcr hp hr hm (fun t _ => by rw [hpc]) (fun m' ht => ?_) fun m' ht => ?_
      · rw [hpc, hp] at ht
        cases ht
      · rw [hpc, hp] at ht
        exact absurd ht (Pc.not_waits id)
  | @wait cr c m k r pc ha hcr hp hr hnext hm hpc =>
      have hone := hw c m ha
      subst ha
      have hself : σ'.pc cr = pc := by rw [hpc, Function.update_self]
      have hmoved : ∀ t, t ≠ cr → σ'.pc t = σ.pc t := by
        intro t htc
        rw [hpc, Function.update_of_ne htc]
      refine h.unlocked ho rfl hcr hp hr hm hmoved (fun m' ht => ?_) fun m' ht => ?_
      · rw [hself] at ht
        rcases hnext with rfl | rfl <;> cases ht
      · refine ⟨?_, hone⟩
        rw [hself] at ht
        obtain ⟨c', hc | hc⟩ := ht
        · rw [hc] at hnext
          rcases hnext with heq | heq <;> cases heq
          rfl
        · rw [hc] at hnext
          rcases hnext with heq | heq <;> cases heq
          rfl
  | @condYield cr c m ha hcr hp hm hpc =>
      refine h.move hm hpc (fun m' ht => ?_) (by simp)
      rw [hp]
      obtain ⟨c', hc | hc⟩ := ht <;> cases hc
      exact ⟨c, .inl rfl⟩

/-- Runs of locks, condition variables and semaphores are orderly. -/
theorem Exclusive.orderly (he : σ.Exclusive) (hq : σ.Queued) (hs : σ.step cap a = some σ') :
    σ.Orderly a := by
  have hok := he.mutexesOk hq
  refine ⟨fun cr m hcr ha => (hok.guarded cr m ?_).1, fun w m _ hw => ?_,
    fun cr m hcr _ hpc => hok.resumed cr m hcr hpc⟩
  · cases a with
    | call c =>
        obtain ⟨cr', hcr', hs⟩ := Option.bind_eq_some_iff.mp hs
        rw [hcr] at hcr'
        cases hcr'
        split at hs
        · cases c with
          | unlock m' =>
              cases ha
              replace hs : (if 0 < σ.guards cr m then σ.unlock cr m else none) = some σ' := hs
              split_ifs at hs with hg
              exact hg
          | wait c m' =>
              cases ha
              replace hs : (if 0 < σ.guards cr m then σ.wait cr c m else none) = some σ' := hs
              split_ifs at hs with hg
              exact hg
          | _ => cases ha
        · cases hs
    | _ => cases ha
  · have hwaits := (hq.waits (.mutex m) w (List.mem_of_mem_head? hw)).1
    cases hpc : σ.pc w with
    | lock m' =>
        rw [hpc] at hwaits
        cases hwaits
        rfl
    | _ =>
        rw [hpc] at hwaits
        cases hwaits

end System

/-! ### From the call of `wait` to its return -/

/-- A system in which, for each task in `CondVar::wait`, the mutex is remembered and the depth at which the
task had locked it. -/
structure Waited (T : Type) where
  system : System T
  waits : Tid → Option (ℕ × BitVec 32)

namespace Waited

variable {s s' : Waited T} {cr t : Tid} {m : ℕ} {d : BitVec 32}

def init (σ : System T) : Waited T := ⟨σ, fun _ => none⟩

/-- The ghost after an action that leads to `σ'`. -/
def nextWaits (s : Waited T) (a : Action T) (σ' : System T) (t : Tid) :
    Option (ℕ × BitVec 32) :=
  match a with
  | .call (.wait _ m) =>
    if s.system.kernel.crTid = some t then some (m, (s.system.mutexes m).recursiveCount) else s.waits t
  | _ => if (σ'.pc t).OnMutex then s.waits t else none

def step (cap : ℕ → ℕ) (s : Waited T) (a : Action T) : Option (Waited T) :=
  (s.system.step cap a).map fun σ' => ⟨σ', s.nextWaits a σ'⟩

theorem system_step (hs : s.step cap a = some s') :
    s.system.step cap a = some s'.system ∧ s'.waits = s.nextWaits a s'.system := by
  obtain ⟨σ', hσ, rfl⟩ := Option.map_eq_some_iff.mp hs
  exact ⟨hσ, rfl⟩

/-- Nobody who waits owns its mutex. -/
def Released (s : Waited T) : Prop :=
  ∀ t m, (s.system.pc t).Waits m → (s.system.mutexes m).owner ≠ some t

/-- What the action does to a wait: a call of `wait` passes the mutex to the first waiter, or frees it,
and a return from `wait` finds the caller its owner, at the depth of the call. -/
structure HandsOver (cap : ℕ → ℕ) (s : Waited T) (a : Action T) : Prop where
  passes : ∀ c m s', a = .call (.wait c m) → s.step cap a = some s' →
    (s'.system.mutexes m).owner = (s.system.mutexes m).waitQueue.front
  returns : ∀ cr m d s', s.system.kernel.crTid = some cr → s.waits cr = some (m, d) →
    s.step cap a = some s' → ¬(s'.system.pc cr).OnMutex →
      (s'.system.mutexes m).owner = some cr ∧ (s'.system.mutexes m).recursiveCount = d

/-- The ghost follows the calls. -/
def Tracks (s : Waited T) : Prop :=
  ∀ t m d, s.waits t = some (m, d) → d = 1 ∧ ((s.system.pc t).Waits m ∨ s.system.pc t = .lock m)

theorem Tracks.onMutex (h : s.Tracks) (hw : s.waits t = some (m, d)) : (s.system.pc t).OnMutex := by
  rcases (h t m d hw).2 with ⟨c, hpc | hpc⟩ | hpc <;> rw [hpc] <;> trivial

theorem nextWaits_of_ne (ha : ∀ c m, a ≠ .call (.wait c m)) (σ' : System T) (t : Tid) :
    s.nextWaits a σ' t = if (σ'.pc t).OnMutex then s.waits t else none := by
  unfold nextWaits
  split
  · exact absurd rfl (ha _ _)
  · rfl

/-- A call of `wait` is one step of the mutex. -/
theorem step_wait {c m : ℕ} {σ σ' : System T} (h : MutexStep σ (.call (.wait c m)) σ') :
    ∃ (cr : Tid) (k : Kernel) (r : CsResult MutexInner) (pc : Pc T), σ.kernel.crTid = some cr ∧
      σ.pc cr = .user ∧ Unlocks (σ.mutexes m) k cr r ∧ pc.OnMutex ∧ pc.Waits m ∧
      σ'.mutexes = Function.update σ.mutexes m r.inner ∧ σ'.pc = Function.update σ.pc cr pc := by
  cases h with
  | other _ _ ha => exact absurd rfl (ha c m)
  | enter _ hl _ _ _ => cases hl.call_eq
  | contend _ hl _ _ _ _ => cases hl.call_eq
  | resume ha _ _ _ _ => cases ha
  | unlock ha _ _ _ _ _ => cases ha
  | condYield ha _ _ _ _ => cases ha
  | @wait cr c' m' k r pc ha hcr hp hr hnext hm hpc =>
      cases ha
      refine ⟨cr, k, r, pc, hcr, hp, hr, ?_, ?_, hm, hpc⟩
      · rcases hnext with rfl | rfl <;> trivial
      · exact ⟨c, hnext⟩

theorem Tracks.step (h : s.Tracks) (hone : s.system.WaitsOnce a) (hs : s.step cap a = some s') :
    s'.Tracks := by
  obtain ⟨hσ, hwaits⟩ := system_step hs
  have hstep := System.mutexStep hσ
  intro t m d hw
  rw [hwaits] at hw
  by_cases ha : ∃ c m, a = .call (.wait c m)
  · obtain ⟨c, m', rfl⟩ := ha
    obtain ⟨cr, k, r, pc, hcr, -, -, -, hpw, -, hpc⟩ := step_wait hstep
    rw [nextWaits, hcr] at hw
    by_cases htc : t = cr
    · subst htc
      rw [if_pos rfl] at hw
      cases hw
      rw [hpc, Function.update_self]
      exact ⟨hone c m rfl, .inl hpw⟩
    · rw [if_neg fun heq => htc (Option.some.inj heq).symm] at hw
      rw [hpc, Function.update_of_ne htc]
      exact h t m d hw
  · have hne : ∀ c m, a ≠ .call (.wait c m) := fun c m heq => ha ⟨c, m, heq⟩
    rw [nextWaits_of_ne hne] at hw
    split_ifs at hw with hon
    obtain ⟨hd, hold⟩ := h t m d hw
    refine ⟨hd, ?_⟩
    have huser : ∀ {cr : Tid}, s'.system.pc = Function.update s.system.pc cr .user → t ≠ cr := by
      rintro cr hpc rfl
      rw [hpc, Function.update_self] at hon
      exact hon
    cases hstep with
    | other hm hpc hnot =>
        rcases hpc t with hsame | ⟨hoff, -⟩
        · rwa [hsame]
        · exact absurd hon hoff
    | enter hcr hl hi hm hpc => rwa [hpc, Function.update_of_ne (huser hpc)]
    | @contend cr o m' queue hcr hl hown hneo hm hpc =>
        by_cases htc : t = cr
        · subst htc
          rw [hpc, Function.update_self]
          rcases hl with ⟨-, hp, -⟩ | ⟨-, c, hp⟩
          · have hmutex := h.onMutex hw
            rw [hp] at hmutex
            exact hmutex.elim
          · rw [hp] at hold
            rcases hold with ⟨c', hc | hc⟩ | hc
            · cases hc
            · cases hc
              exact .inr rfl
            · cases hc
        · rwa [hpc, Function.update_of_ne htc]
    | resume ha hcr hp hm hpc => rwa [hpc, Function.update_of_ne (huser hpc)]
    | unlock ha hcr hp hr hm hpc => rwa [hpc]
    | wait ha hcr hp hr hnext hm hpc => exact absurd ha (hne _ _)
    | @condYield cr c m' ha hcr hp hm hpc =>
        by_cases htc : t = cr
        · subst htc
          rw [hpc, Function.update_self]
          rw [hp] at hold
          rcases hold with ⟨c', hc | hc⟩ | hc
          · cases hc
            exact .inl ⟨c, .inr rfl⟩
          · cases hc
          · cases hc
        · rwa [hpc, Function.update_of_ne htc]

/-- **A return from `wait`.** -/
theorem Tracks.returns (h : s.Tracks) (hh : s.system.Handed) (ho : s.system.Orderly a)
    (hcr : s.system.kernel.crTid = some cr) (hw : s.waits cr = some (m, d))
    (hs : s.step cap a = some s') (hpc : ¬(s'.system.pc cr).OnMutex) :
    (s'.system.mutexes m).owner = some cr ∧ (s'.system.mutexes m).recursiveCount = d := by
  have hon := h.onMutex hw
  obtain ⟨rfl, hold⟩ := h cr m d hw
  have huser : s.system.pc cr ≠ .user := by
    intro hp
    rw [hp] at hon
    exact hon
  have hrun : ∀ {t : Tid}, s.system.kernel.crTid = some t → t = cr := by
    intro t ht
    rw [hcr] at ht
    exact (Option.some.inj ht).symm
  cases System.mutexStep (system_step hs).1 with
  | other hm hpcs hnot =>
      rcases hpcs cr with hsame | ⟨-, hoff⟩
      · rw [hsame] at hpc
        exact absurd hon hpc
      · exact absurd hon (hoff hcr)
  | @enter t m' i ht hl hi hm hpcs =>
      obtain rfl := hrun ht
      obtain ⟨c, hp⟩ : ∃ c, s.system.pc t = .condRelock c m' := by
        rcases hl with ⟨-, hp, -⟩ | ⟨-, hp⟩
        · exact absurd hp huser
        · exact hp
      obtain rfl : m' = m := by
        rw [hp] at hold
        rcases hold with ⟨c', hc | hc⟩ | hc <;> cases hc
        rfl
      rw [hm, Function.update_self]
      rcases hi with ⟨hown, -⟩ | ⟨-, rfl⟩
      · exact absurd hown (hh.released t m' ⟨c, .inr hp⟩)
      · exact ⟨rfl, rfl⟩
  | @contend t o m' queue ht hl hown hne hm hpcs =>
      obtain rfl := hrun ht
      rw [hpcs, Function.update_self] at hpc
      exact absurd trivial hpc
  | @resume t m' ha ht hp hm hpcs =>
      obtain rfl := hrun ht
      obtain rfl : m' = m := by
        rw [hp] at hold
        rcases hold with ⟨c', hc | hc⟩ | hc <;> cases hc
        rfl
      have hown := ho.resumed t m' hcr ha hp
      rw [hm]
      exact ⟨hown, hh.locking t m' hp hown⟩
  | unlock ha ht hp hr hm hpcs =>
      obtain rfl := hrun ht
      exact absurd hp huser
  | wait ha ht hp hr hnext hm hpcs =>
      obtain rfl := hrun ht
      exact absurd hp huser
  | condYield ha ht hp hm hpcs =>
      obtain rfl := hrun ht
      rw [hpcs, Function.update_self] at hpc
      exact absurd trivial hpc

/-- **When waits release the mutex**, in orderly runs. -/
theorem released_iff {σ₀ : System T} {tr : List (Waited T × Action T)} (h₀ : σ₀.Handed)
    (hr : Run (step cap) (fun s a => s.system.Orderly a) (.init σ₀) tr s) :
    (Always Released tr s ∧ ∀ e ∈ tr, e.1.HandsOver cap e.2) ↔ ∀ e ∈ tr, e.1.system.WaitsOnce e.2 := by
  refine hr.forall_iff_steps (I := fun s => s.system.Handed ∧ s.Tracks) (P := Released)
    (Q := HandsOver cap) (C := fun s a => s.system.WaitsOnce a) ⟨h₀, fun t m d hw => ?_⟩
    (fun s h => h.1.released) ?_ ?_
  · cases hw
  · rintro s a s' ⟨hh, ht⟩ ho hs hone
    refine ⟨⟨hh.step ho hone (System.mutexStep (system_step hs).1), ht.step hone hs⟩, ?_, ?_⟩
    · rintro c m s'' rfl hs''
      obtain ⟨cr, k, r, pc, hcr, -, hunlock, -, -, hm, -⟩ :=
        step_wait (System.mutexStep (system_step hs'').1)
      rw [hm, Function.update_self]
      rcases System.unlocks_owner hunlock with ⟨hmore, -⟩ | ⟨-, hfront, -⟩
      · exact absurd (hone c m rfl) hmore
      · exact hfront
    · intro cr m d s'' hcr hw hs'' hpc
      exact ht.returns hh ho hcr hw hs'' hpc
  · rintro s a s' ⟨hh, ht⟩ ho hs hreleased - c m rfl
    obtain ⟨cr, k, r, pc, hcr, -, hunlock, -, hpw, hm, hpc⟩ :=
      step_wait (System.mutexStep (system_step hs).1)
    have hown := ho.owned cr m hcr rfl
    have hnot := hreleased cr m (by rw [hpc, Function.update_self]; exact hpw)
    rw [hm, Function.update_self] at hnot
    rcases System.unlocks_owner hunlock with ⟨-, hsame⟩ | ⟨hcount, -⟩
    · rw [hsame] at hnot
      exact absurd hown hnot
    · exact hcount

end Waited

/-- **When waiting releases the mutex.**  In every run of all calls and interrupts from a launch: whoever is
in `CondVar::wait`, until it locks the mutex again, does not own it; each call of `wait` passes the mutex
to the first waiter or frees it; and each return from `wait` finds its caller the owner, at the depth of
the call.  All this holds if every `wait` is called with the mutex locked once, and the mutex moves only by
its owner and to its waiters.  Where tasks neither time out, nor are terminated, nor exit with guards, it
holds exactly if every `wait` is called with the mutex locked once. -/
theorem wait_releases {boots : List BootCall} {k₀ : Kernel} {counts : ℕ → ℤ} {s : Waited T}
    {tr : List (Waited T × Action T)} (hl : launchAfter boots = some k₀)
    (hr : Run (Waited.step cap) (fun _ _ => True) (.init (.init k₀ counts)) tr s) :
    ((∀ e ∈ tr, e.1.system.WaitsOnce e.2 ∧ e.1.system.Orderly e.2) →
      Always Waited.Released tr s ∧ ∀ e ∈ tr, e.1.HandsOver cap e.2) ∧
    ((∀ e ∈ tr, e.2.IsLock ∧ e.1.system.ExitsFree e.2) →
      ((Always Waited.Released tr s ∧ ∀ e ∈ tr, e.1.HandsOver cap e.2) ↔
        ∀ e ∈ tr, e.1.system.WaitsOnce e.2)) := by
  have h₀ := System.handed_init (T := T) k₀ counts
  constructor
  · intro hall
    have hord : Run (Waited.step cap) (fun s a => s.system.Orderly a) (.init (.init k₀ counts)) tr s :=
      (hr.strengthen fun e he => (hall e he).2).mono fun _ _ h => h.2
    exact (Waited.released_iff h₀ hord).mpr fun e he => (hall e he).1
  · intro hlock
    have hrun := hr.strengthen (C := fun s a => a.IsLock ∧ s.system.ExitsFree a) hlock
    refine Waited.released_iff h₀ (hrun.guard_of_invariant
      (I := fun s => s.system.Queued ∧ s.system.Exclusive)
      ⟨System.queued_init hl, System.exclusive_init k₀ counts⟩ ?_)
    rintro s a s' ⟨hq, he⟩ ⟨-, hlock, hx⟩ hs
    have hσ := (Waited.system_step hs).1
    exact ⟨⟨(hq.step (System.step_lock hq.pcs hlock hσ)).1, he.step hq hlock hx hσ⟩, he.orderly hq hσ⟩

/-- `a` waits while `b` contends for the mutex, which is passed to `b`; `b` notifies `a` and unlocks. -/
theorem wait_releases_run : ∃ k₀ tr, ∃ s : Waited Unit,
    launchAfter [.create 3 "a", .create 4 "b"] = some k₀ ∧
    Run (Waited.step fun _ => 4) (fun _ _ => True) (.init (.init k₀ fun _ => 0)) tr s ∧
    ((s.system.mutexes 0).owner = some 0 ∧ s.system.guards 0 0 = 1 ∧ s.waits 0 = none) ∧
    Always Waited.Released tr s ∧ ∀ e ∈ tr, e.1.HandsOver (fun _ => 4) e.2 := by
  have hsome : (launchAfter [.create 3 "a", .create 4 "b"]).isSome = true := by decide +kernel
  obtain ⟨k₀, hk₀⟩ := Option.isSome_iff_exists.mp hsome
  have hexec : ((launchAfter [.create 3 "a", .create 4 "b"]).bind fun k₀ =>
      exec (Waited.step fun _ => 4)
        (fun s a => decide (a.IsLock ∧ a ≠ .call (.task .exitCurrent)) && s.system.waitsOnce a)
        (.init (.init k₀ fun _ => 0) : Waited Unit)
        [.call (.lock 0), .call (.task (.delay 3)), .call (.lock 0), .systick 2, .call (.wait 0 0),
          .proceed, .call (.notify 0), .proceed, .call (.unlock 0), .proceed]).any (fun s =>
            decide ((s.system.mutexes 0).owner = some 0 ∧ s.system.guards 0 0 = 1 ∧
              s.waits 0 = none)) = true := by decide +kernel
  rw [hk₀, Option.bind_some] at hexec
  obtain ⟨tr, s, hr, hs⟩ := exists_run_of_exec (fun (s : Waited Unit) (a : Action Unit)
    (h : (decide (a.IsLock ∧ a ≠ .call (.task .exitCurrent)) && s.system.waitsOnce a) = true) =>
      (Bool.and_eq_true _ _).mp h) hexec
  have hrun : Run (Waited.step fun _ => 4) (fun _ _ => True) (.init (.init k₀ fun _ => 0)) tr s :=
    hr.mono fun _ _ _ => trivial
  refine ⟨k₀, tr, s, hk₀, hrun, of_decide_eq_true hs,
    ((wait_releases hk₀ hrun).2 fun e he => ?_).mpr fun e he => ?_⟩
  · obtain ⟨hlock, hexit⟩ := of_decide_eq_true (hr.forall_guard e he).1
    exact ⟨hlock, fun heq => absurd heq hexit⟩
  · exact System.waitsOnce_spec (hr.forall_guard e he).2

/-- A task that has locked the mutex twice waits, and owns it in its sleep. -/
theorem nested_lock_is_kept : ∃ k₀ tr, ∃ s : Waited Unit, launchAfter [.create 3 "a"] = some k₀ ∧
    Run (Waited.step fun _ => 4) (fun _ _ => True) (.init (.init k₀ fun _ => 0)) tr s ∧
    0 ∈ (s.system.condVars 0).tids ∧ s.waits 0 = some (0, 2) ∧
    (s.system.mutexes 0).owner = some 0 ∧ ¬Always Waited.Released tr s := by
  have hsome : (launchAfter [.create 3 "a"]).isSome = true := by decide +kernel
  obtain ⟨k₀, hk₀⟩ := Option.isSome_iff_exists.mp hsome
  have hexec : ((launchAfter [.create 3 "a"]).bind fun k₀ =>
      exec (Waited.step fun _ => 4) (fun _ _ => true) (.init (.init k₀ fun _ => 0) : Waited Unit)
        [.call (.lock 0), .call (.lock 0), .call (.wait 0 0)]).any (fun s =>
          decide (0 ∈ (s.system.condVars 0).tids ∧ s.waits 0 = some (0, 2) ∧
            (s.system.mutexes 0).owner = some 0 ∧ s.system.pc 0 = .condRelock 0 0)) = true := by
    decide +kernel
  rw [hk₀, Option.bind_some] at hexec
  obtain ⟨tr, s, hr, hs⟩ := exists_run_of_exec (fun _ _ _ => trivial) hexec
  obtain ⟨hm, hw, ho, hpc⟩ := of_decide_eq_true hs
  exact ⟨k₀, tr, s, hk₀, hr, hm, hw, ho, fun hall => hall.2 0 0 ⟨0, .inr hpc⟩ ho⟩

end MosKernel
