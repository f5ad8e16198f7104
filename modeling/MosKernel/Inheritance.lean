import MosKernel.Lib.WaitFor
import MosKernel.Mutexes

/-!
# Priority inheritance

A task that finds a mutex locked lends its priority to the owner, and the owner drops back to the one
priority it has saved when it leaves any mutex.  `Inherits` is the law: an owner is at least as urgent as
everybody on the wait queue.  `KeepsUrgency` lists what a step must meet for it, and
`owners_inherit` says that the law holds in all states of a run exactly as long as every step meets it:
nothing is lent along a chain of owners, one saved priority serves all mutexes of a task, and the front of
a wait queue need not be its most urgent task.
-/

namespace MosKernel

open TaskList Transition Kernel WaitFor

variable {T : Type} {cap : ℕ → ℕ} {σ σ' : System T} {a : Action T}

namespace Kernel

variable {k k' : Kernel} {c : Tid}

/-- The outermost unlock: the front of the queue is the owner, and the caller has its base priority. -/
theorem unlocks_of_eq_one {i : MutexInner} {r : CsResult MutexInner} (hr : Unlocks i k c r)
    (hone : i.recursiveCount = 1) :
    r.inner.owner = i.waitQueue.tids.head? ∧ r.inner.waitQueue.tids = i.waitQueue.tids.tail ∧
      ∀ t, r.kernel.priority t = if t = c then k.base c else k.priority t := by
  cases hr with
  | leave hne => exact absurd hone hne
  | release _ hnil hb =>
      rw [hnil]
      exact ⟨rfl, rfl, priority_restore k c⟩
  | @handOff w queue b _ hcons hb =>
      rw [hcons]
      refine ⟨rfl, rfl, fun t => ?_⟩
      rw [← priority_restore k c t]
      exact (frame_wake (k.restore c) w).priority t

/-- Any other unlock does nothing of this. -/
theorem unlocks_of_ne_one {i : MutexInner} {r : CsResult MutexInner} (hr : Unlocks i k c r)
    (hne : i.recursiveCount ≠ 1) :
    r.inner.owner = i.owner ∧ r.inner.waitQueue = i.waitQueue ∧ r.kernel = k := by
  cases hr with
  | leave _ => exact ⟨rfl, rfl, rfl⟩
  | release hone hnil hb => exact absurd hone hne
  | handOff hone hcons hb => exact absurd hone hne

end Kernel

/-- The mutex that an action unlocks. -/
def Action.unlocking : Action T → Option ℕ
  | .call (.unlock m) | .call (.wait _ m) => some m
  | _ => none

namespace System

/-- The owner of a mutex is at least as urgent as everybody who waits for it. -/
def Inherits (σ : System T) : Prop :=
  ∀ m o, (σ.mutexes m).owner = some o → ∀ w ∈ (σ.mutexes m).waitQueue.tids,
    σ.kernel.priority o ≤ σ.kernel.priority w

/-- `w` is on the wait queue of a mutex of `o`. -/
def Waits (σ : System T) (w o : Tid) : Prop :=
  ∃ m, w ∈ (σ.mutexes m).waitQueue.tids ∧ (σ.mutexes m).owner = some o

theorem inherits_iff : σ.Inherits ↔ Respects σ.Waits σ.kernel.priority := by
  constructor
  · rintro h w o ⟨m, hw, ho⟩
    exact h m o ho w hw
  · intro h m o ho w hw
    exact h w o ⟨m, hw, ho⟩

/-- A write of one mutex. -/
theorem waits_update {m : ℕ} {i : MutexInner} {w x : Tid}
    (hm : σ'.mutexes = Function.update σ.mutexes m i) :
    σ'.Waits w x ↔ w ∈ i.waitQueue.tids ∧ i.owner = some x ∨
      ∃ m', m' ≠ m ∧ w ∈ (σ.mutexes m').waitQueue.tids ∧ (σ.mutexes m').owner = some x := by
  constructor
  · rintro ⟨m', hw, hx⟩
    rw [hm] at hw hx
    by_cases hmm : m' = m
    · subst hmm
      rw [Function.update_self] at hw hx
      exact .inl ⟨hw, hx⟩
    · rw [Function.update_of_ne hmm] at hw hx
      exact .inr ⟨m', hmm, hw, hx⟩
  · rintro (⟨hw, hx⟩ | ⟨m', hmm, hw, hx⟩)
    · refine ⟨m, ?_, ?_⟩ <;> rw [hm, Function.update_self]
      · exact hw
      · exact hx
    · refine ⟨m', ?_, ?_⟩ <;> rw [hm, Function.update_of_ne hmm]
      · exact hw
      · exact hx

/-- The owner of the mutex for which `w` waits. -/
def holder (σ : System T) (w : Tid) : Option Tid :=
  match σ.pc w with
  | .lock m => if w ∈ (σ.mutexes m).waitQueue.tids then (σ.mutexes m).owner else none
  | _ => none

theorem Queued.lock_of_mem (h : σ.Queued) {m : ℕ} {w : Tid}
    (hw : w ∈ (σ.mutexes m).waitQueue.tids) : σ.pc w = .lock m := by
  have hwait := (h.waits (.mutex m) w hw).1
  cases hpc : σ.pc w with
  | lock m' =>
      rw [hpc] at hwait
      cases hwait
      rfl
  | _ => simp [hpc, Pc.waitsFor] at hwait

theorem Queued.holder_eq (h : σ.Queued) {w o : Tid} : σ.holder w = some o ↔ σ.Waits w o := by
  constructor
  · intro hw
    unfold holder at hw
    split at hw
    · rename_i m hpc
      split_ifs at hw with hm
      exact ⟨m, hm, hw⟩
    · cases hw
  · rintro ⟨m, hm, ho⟩
    unfold holder
    rw [h.lock_of_mem hm]
    exact (if_pos hm).trans ho

/-- The mutex that `cr` locks in this step. -/
def locking (σ : System T) (cr : Tid) : Action T → Option ℕ
  | .call (.lock m) => some m
  | .proceed =>
    match σ.pc cr with
    | .condRelock _ m => some m
    | _ => none
  | _ => none

/-- The running task and another task that owns the mutex it locks in this step. -/
def contended (σ : System T) (a : Action T) : Option (Tid × Tid) := do
  let cr ← σ.kernel.crTid
  let m ← σ.locking cr a
  let o ← (σ.mutexes m).owner
  if o = cr then none else some (cr, o)

/-- The running task and the mutex that it gives up in this step. -/
def releasing (σ : System T) (a : Action T) : Option (Tid × ℕ) := do
  let cr ← σ.kernel.crTid
  let m ← a.unlocking
  if (σ.mutexes m).recursiveCount = 1 then some (cr, m) else none

/-- What a step must meet for priority inheritance. -/
structure KeepsUrgency (σ : System T) (a : Action T) : Prop where
  /-- an owner that is boosted does not wait for a less urgent one -/
  chain : ∀ p ∈ σ.contended a, σ.kernel.priority p.1 < σ.kernel.priority p.2 →
    ∀ o ∈ σ.holder p.2, σ.kernel.priority o ≤ σ.kernel.priority p.1
  /-- nobody more urgent than the base priority waits for another mutex of the task -/
  restore : ∀ p ∈ σ.releasing a, ∀ w, w ∉ (σ.mutexes p.2).waitQueue.tids →
    p.1 ∈ σ.holder w → σ.kernel.base p.1 ≤ σ.kernel.priority w
  /-- the next owner is the most urgent waiter -/
  handOff : ∀ p ∈ σ.releasing a, ∀ v ∈ (σ.mutexes p.2).waitQueue.tids.head?,
    ∀ w ∈ (σ.mutexes p.2).waitQueue.tids, σ.kernel.priority v ≤ σ.kernel.priority w

instance (σ : System T) (a : Action T) : Decidable (σ.KeepsUrgency a) :=
  decidable_of_iff
    ((∀ p ∈ σ.contended a, σ.kernel.priority p.1 < σ.kernel.priority p.2 →
        ∀ o ∈ σ.holder p.2, σ.kernel.priority o ≤ σ.kernel.priority p.1) ∧
      (∀ p ∈ σ.releasing a, ∀ w, w ∉ (σ.mutexes p.2).waitQueue.tids →
        p.1 ∈ σ.holder w → σ.kernel.base p.1 ≤ σ.kernel.priority w) ∧
      ∀ p ∈ σ.releasing a, ∀ v ∈ (σ.mutexes p.2).waitQueue.tids.head?,
        ∀ w ∈ (σ.mutexes p.2).waitQueue.tids, σ.kernel.priority v ≤ σ.kernel.priority w)
    ⟨fun ⟨h1, h2, h3⟩ => ⟨h1, h2, h3⟩, fun h => ⟨h.chain, h.restore, h.handOff⟩⟩

/-! ### Steps -/

theorem mem_contended {p : Tid × Tid} : p ∈ σ.contended a ↔ σ.kernel.crTid = some p.1 ∧
    ∃ m, σ.locking p.1 a = some m ∧ (σ.mutexes m).owner = some p.2 ∧ p.2 ≠ p.1 := by
  obtain ⟨c, o⟩ := p
  constructor
  · intro h
    obtain ⟨cr, hcr, h⟩ := Option.bind_eq_some_iff.mp h
    obtain ⟨m, hm, h⟩ := Option.bind_eq_some_iff.mp h
    obtain ⟨o', ho, h⟩ := Option.bind_eq_some_iff.mp h
    split_ifs at h with hne
    cases h
    exact ⟨hcr, m, hm, ho, hne⟩
  · rintro ⟨hcr, m, hm, ho, hne⟩
    refine Option.bind_eq_some_iff.mpr ⟨c, hcr, Option.bind_eq_some_iff.mpr ⟨m, hm, ?_⟩⟩
    exact Option.bind_eq_some_iff.mpr ⟨o, ho, if_neg hne⟩

theorem mem_releasing {p : Tid × ℕ} : p ∈ σ.releasing a ↔ σ.kernel.crTid = some p.1 ∧
    a.unlocking = some p.2 ∧ (σ.mutexes p.2).recursiveCount = 1 := by
  obtain ⟨c, m⟩ := p
  constructor
  · intro h
    obtain ⟨cr, hcr, h⟩ := Option.bind_eq_some_iff.mp h
    obtain ⟨m', hm, h⟩ := Option.bind_eq_some_iff.mp h
    split_ifs at h with hone
    cases h
    exact ⟨hcr, hm, hone⟩
  · rintro ⟨hcr, hm, hone⟩
    exact Option.bind_eq_some_iff.mpr ⟨c, hcr, Option.bind_eq_some_iff.mpr ⟨m, hm, if_pos hone⟩⟩

theorem Locks.locking {cr : Tid} {m : ℕ} (h : σ.Locks a cr m) : σ.locking cr a = some m := by
  rcases h with ⟨rfl, -⟩ | ⟨rfl, c, hpc⟩
  · rfl
  · unfold System.locking
    rw [hpc]

theorem Locks.unlocking {cr : Tid} {m : ℕ} (h : σ.Locks a cr m) : a.unlocking = none := by
  rcases h with ⟨rfl, -⟩ | ⟨rfl, -⟩ <;> rfl

theorem locking_of_onSema (ha : a.OnSema) (cr : Tid) : σ.locking cr a = none := by
  unfold Action.OnSema at ha
  split at ha
  case h_5 => exact ha.elim
  all_goals rfl

theorem unlocking_of_onSema (ha : a.OnSema) : a.unlocking = none := by
  unfold Action.OnSema at ha
  split at ha
  case h_5 => exact ha.elim
  all_goals rfl

/-- A step that neither contends for a mutex nor gives one up. -/
theorem keepsUrgency_of (hc : σ.contended a = none) (hr : σ.releasing a = none) :
    σ.KeepsUrgency a := by
  constructor <;> intro p hp
  · rw [hc] at hp
    cases hp
  · rw [hr] at hp
    cases hp
  · rw [hr] at hp
    cases hp

theorem contended_eq_none {cr : Tid} (hcr : σ.kernel.crTid = some cr)
    (hl : ∀ m ∈ σ.locking cr a, ∀ o ∈ (σ.mutexes m).owner, o = cr) : σ.contended a = none := by
  refine Option.eq_none_iff_forall_not_mem.mpr fun p hp => ?_
  obtain ⟨hcr', m, hm, ho, hne⟩ := mem_contended.mp hp
  rw [hcr] at hcr'
  cases hcr'
  exact hne (hl m hm _ ho)

theorem releasing_eq_none (hu : ∀ m ∈ a.unlocking, (σ.mutexes m).recursiveCount ≠ 1) :
    σ.releasing a = none := by
  refine Option.eq_none_iff_forall_not_mem.mpr fun p hp => ?_
  obtain ⟨-, hm, hone⟩ := mem_releasing.mp hp
  exact absurd hone (hu _ hm)

/-- A step that gives nobody a new owner to wait for and leaves the priorities of the living alone. -/
theorem Inherits.keep (hi : σ.Inherits) (h : σ.Queued) (he : σ.Exclusive)
    (hw : ∀ w o, σ'.Waits w o → σ.Waits w o)
    (hp : ∀ t, σ.kernel.status t ≠ .terminated → σ'.kernel.priority t = σ.kernel.priority t) :
    σ'.Inherits := by
  refine inherits_iff.mpr ((inherits_iff.mp hi).congr hw fun w o hr => ?_)
  obtain ⟨m, hm, ho⟩ := hw w o hr
  refine ⟨hp o ((he.owned m).held o ho).2.2.1, hp w ?_⟩
  rw [(h.waits (.mutex m) w hm).2.1]
  simp

/-- The running task waits for the owner `o`. -/
theorem Inherits.contend_iff (hi : σ.Inherits) (h : σ.Queued) (he : σ.Exclusive) {cr o : Tid}
    {m : ℕ} (hcr : σ.kernel.crTid = some cr) (hl : σ.Locks a cr m)
    (ho : (σ.mutexes m).owner = some o) (hne : o ≠ cr)
    (hw : ∀ w x, σ'.Waits w x ↔ σ.Waits w x ∨ w = cr ∧ x = o)
    (hp : ∀ t, σ'.kernel.priority t =
      if t = o then min (σ.kernel.priority cr) (σ.kernel.priority o) else σ.kernel.priority t) :
    σ'.Inherits ↔ σ.KeepsUrgency a := by
  have hself : ¬σ.Waits o o := by
    rintro ⟨m', hm', ho'⟩
    exact ((he.owned m').held o ho').2.2.2 hm'
  rw [inherits_iff, (inherits_iff.mp hi).wait_iff hw hp (Ne.symm hne) hself]
  have hmem : (cr, o) ∈ σ.contended a := mem_contended.mpr ⟨hcr, m, hl.locking, ho, hne⟩
  have hnone : σ.releasing a = none := releasing_eq_none (by rw [hl.unlocking]; simp)
  constructor
  · intro hC
    refine ⟨fun p hp => ?_, fun p hp => ?_, fun p hp => ?_⟩
    · rw [Option.mem_unique hp hmem]
      exact fun hlt x hx => hC hlt x (h.holder_eq.mp hx)
    · rw [hnone] at hp
      cases hp
    · rw [hnone] at hp
      cases hp
  · intro hC hlt x hx
    exact hC.chain (cr, o) hmem hlt x (h.holder_eq.mpr hx)

/-- Nobody waits for two mutexes. -/
theorem Queued.mutex_unique (h : σ.Queued) {m m' : ℕ} {w : Tid}
    (hw : w ∈ (σ.mutexes m).waitQueue.tids) (hw' : w ∈ (σ.mutexes m').waitQueue.tids) : m' = m := by
  have heq := (h.lock_of_mem hw').symm.trans (h.lock_of_mem hw)
  cases heq
  rfl

/-- The running task unlocks mutex `m`. -/
theorem Inherits.unlock_iff (hi : σ.Inherits) (h : σ.Queued) (he : σ.Exclusive) {cr : Tid} {m : ℕ}
    {k : Kernel} {r : CsResult MutexInner} (hcr : σ.kernel.crTid = some cr)
    (hl : σ.locking cr a = none) (hu : a.unlocking = some m) (hf : Frame σ.kernel k)
    (hr : Unlocks (σ.mutexes m) k cr r) (hm : σ'.mutexes = Function.update σ.mutexes m r.inner)
    (hp : ∀ t, σ'.kernel.priority t = r.kernel.priority t) : σ'.Inherits ↔ σ.KeepsUrgency a := by
  have hcont : σ.contended a = none := contended_eq_none hcr (by rw [hl]; simp)
  by_cases hone : (σ.mutexes m).recursiveCount = 1
  · obtain ⟨howner, hqueue, hpri⟩ := unlocks_of_eq_one hr hone
    have hmem : (cr, m) ∈ σ.releasing a := mem_releasing.mpr ⟨hcr, hu, hone⟩
    have hwaits : ∀ w x, σ'.Waits w x ↔
        w ∉ (σ.mutexes m).waitQueue.tids ∧ σ.Waits w x ∨
          w ∈ (σ.mutexes m).waitQueue.tids.tail ∧
            (σ.mutexes m).waitQueue.tids.head? = some x := by
      intro w x
      rw [waits_update hm, hqueue, howner]
      constructor
      · rintro (⟨hw, ho⟩ | ⟨m', hmm, hw, ho⟩)
        · exact .inr ⟨hw, ho⟩
        · exact .inl ⟨fun hmw => hmm (h.mutex_unique hmw hw), m', hw, ho⟩
      · rintro (⟨hno, m', hw, ho⟩ | ⟨hw, ho⟩)
        · refine .inr ⟨m', ?_, hw, ho⟩
          rintro rfl
          exact hno hw
        · exact .inl ⟨hw, ho⟩
    have hpri' : ∀ t, σ'.kernel.priority t =
        if t = cr then σ.kernel.base cr else σ.kernel.priority t := by
      intro t
      rw [hp, hpri, hf.base, hf.priority]
    have hfree : ∀ x, ¬σ.Waits cr x := by
      rintro x ⟨m', hw, -⟩
      exact h.not_mem hcr (.mutex m') hw
    rw [inherits_iff, (inherits_iff.mp hi).release_iff hwaits hpri' hfree
      (h.not_mem hcr (.mutex m))]
    constructor
    · rintro ⟨hrest, hfront⟩
      refine ⟨fun p hp => ?_, fun p hp => ?_, fun p hp => ?_⟩
      · rw [hcont] at hp
        cases hp
      · rw [Option.mem_unique hp hmem]
        exact fun w hw hh => hrest w hw (h.holder_eq.mp hh)
      · rw [Option.mem_unique hp hmem]
        exact hfront
    · intro hC
      exact ⟨fun w hw hh => hC.restore (cr, m) hmem w hw (h.holder_eq.mpr hh),
        hC.handOff (cr, m) hmem⟩
  · obtain ⟨howner, hqueue, hk⟩ := unlocks_of_ne_one hr hone
    have hnone : σ.releasing a = none := by
      refine releasing_eq_none fun m' hm' => ?_
      rw [hu] at hm'
      cases hm'
      exact hone
    have hkeep : σ'.Inherits := by
      refine hi.keep h he (fun w x hw => ?_) fun t _ => ?_
      · rw [waits_update hm, hqueue, howner] at hw
        rcases hw with ⟨hw, ho⟩ | ⟨m', -, hw, ho⟩
        · exact ⟨m, hw, ho⟩
        · exact ⟨m', hw, ho⟩
      · rw [hp, hk, hf.priority]
    exact iff_of_true hkeep (keepsUrgency_of hcont hnone)

/-- Who waits for whom once `cr` is on the queue of a mutex that `o` holds. -/
theorem waits_enqueue {m : ℕ} {i : MutexInner} {cr o w x : Tid}
    (hm : σ'.mutexes = Function.update σ.mutexes m i)
    (hmem : ∀ t, t ∈ i.waitQueue.tids ↔ t = cr ∨ t ∈ (σ.mutexes m).waitQueue.tids)
    (ho : (σ.mutexes m).owner = some o) (howner : i.owner = (σ.mutexes m).owner) :
    σ'.Waits w x ↔ σ.Waits w x ∨ w = cr ∧ x = o := by
  rw [waits_update hm, hmem w, howner]
  constructor
  · rintro (⟨rfl | hw, hx⟩ | ⟨m', -, hw, hx⟩)
    · rw [ho] at hx
      cases hx
      exact .inr ⟨rfl, rfl⟩
    · exact .inl ⟨m, hw, hx⟩
    · exact .inl ⟨m', hw, hx⟩
  · rintro (⟨m', hw, hx⟩ | ⟨rfl, rfl⟩)
    · by_cases hmm : m' = m
      · subst hmm
        exact .inl ⟨.inr hw, hx⟩
      · exact .inr ⟨m', hmm, hw, hx⟩
    · exact .inl ⟨.inl rfl, ho⟩

/-- Entering a mutex, one's own or a free one, makes nobody wait. -/
theorem Exclusive.waits_of_enter (he : σ.Exclusive) {m : ℕ} {i : MutexInner} {cr w o : Tid}
    (hi : (σ.mutexes m).owner = some cr ∧
        i = { σ.mutexes m with recursiveCount := (σ.mutexes m).recursiveCount + 1 } ∨
      (σ.mutexes m).owner = none ∧ i = { σ.mutexes m with owner := some cr, recursiveCount := 1 })
    (hm : σ'.mutexes = Function.update σ.mutexes m i) (hw : σ'.Waits w o) : σ.Waits w o := by
  rcases (waits_update hm).mp hw with ⟨hw, ho⟩ | ⟨m', -, hw, ho⟩
  · rcases hi with ⟨-, rfl⟩ | ⟨hfree, rfl⟩
    · exact ⟨m, hw, ho⟩
    · -- nobody waits for a free mutex
      replace hw : w ∈ (σ.mutexes m).waitQueue.tids := hw
      rw [((he.owned m).free hfree).2] at hw
      cases hw
  · exact ⟨m', hw, ho⟩

/-- **Inheritance along a step.** -/
theorem Inherits.step_iff (hi : σ.Inherits) (h : σ.Queued) (he : σ.Exclusive)
    (hs : LockStep σ a σ') : σ'.Inherits ↔ σ.KeepsUrgency a := by
  obtain ⟨c, hc⟩ := h.settled
  -- the steps that touch no mutex and no priority
  have hidle : σ'.mutexes = σ.mutexes →
      (∀ t, σ.kernel.status t ≠ .terminated → σ'.kernel.priority t = σ.kernel.priority t) →
        (∀ cr, σ.kernel.crTid = some cr → σ.locking cr a = none) → a.unlocking = none →
          (σ'.Inherits ↔ σ.KeepsUrgency a) := by
    intro hm hp hl hu
    have hkeep : σ'.Inherits := by
      refine hi.keep h he (fun w o hw => ?_) hp
      rw [Waits, hm] at hw
      exact hw
    refine iff_of_true hkeep (keepsUrgency_of ?_ (releasing_eq_none (by rw [hu]; simp)))
    exact contended_eq_none hc.onCpu.crTid (by rw [hl c hc.onCpu.crTid]; simp)
  have hframe : ∀ {k k' : Kernel} {b : Bool}, Frame σ.kernel k → k.yieldIf b = some k' →
      ∀ t, k'.priority t = σ.kernel.priority t :=
    fun hf hk t => (hf.trans (frame_yieldIf hk)).priority t
  cases hs with
  | tick hk =>
      exact hidle rfl (fun t _ => (systickTrap_switched hc hk).frame.priority t)
        (fun _ _ => rfl) rfl
  | switch hk =>
      exact hidle rfl (fun t _ => hframe (Frame.refl _) hk t) (fun _ _ => rfl) rfl
  | @task cr c₀ _ hcr hpc hcall hs =>
      obtain ⟨⟨k, new⟩, hexec, rfl⟩ := Option.map_eq_some_iff.mp hs
      have ho := (TaskCall.exec_outcome (h.running hcr) hexec).1
      cases new with
      | none => exact hidle rfl ho.priority (fun _ _ => rfl) rfl
      | some t₀ => exact hidle rfl ho.priority (fun _ _ => rfl) rfl
  | @sema _ s i pc hist hq hpc =>
      rcases hpc with ⟨hon, -⟩ | ⟨rfl, cr, hcr, hpc, -⟩
      · exact hidle rfl (fun _ _ => rfl) (fun cr _ => locking_of_onSema hon cr)
          (unlocking_of_onSema hon)
      · refine hidle rfl (fun _ _ => rfl) (fun cr' hcr' => ?_) rfl
        rw [hcr] at hcr'
        cases hcr'
        unfold locking
        rw [hpc]
  | @block cr s n k hcr hpc hk =>
      have hf := (frame_park σ.kernel cr).trans
        (frame_enqueue (σ.kernel.park cr) (σ.semas s).waitQueue cr)
      exact hidle rfl (fun t _ => hframe hf hk t) (fun _ _ => rfl) rfl
  | @up _ w s i b k hist ha hcons hk =>
      exact hidle rfl (fun t _ => hframe (frame_wake _ w) hk t)
        (fun cr _ => locking_of_onSema ha cr) (unlocking_of_onSema ha)
  | @enter _ cr m i hcr hl hi' =>
      refine iff_of_true (hi.keep h he (fun w o => he.waits_of_enter hi' rfl) fun _ _ => rfl)
        (keepsUrgency_of ?_ ?_)
      · refine contended_eq_none hcr fun m' hm' o ho => ?_
        rw [hl.locking] at hm'
        cases hm'
        rcases hi' with ⟨hown, -⟩ | ⟨hown, -⟩
        · rw [hown] at ho
          cases ho
          rfl
        · rw [hown] at ho
          cases ho
      · exact releasing_eq_none (by rw [hl.unlocking]; simp)
  | @contend _ cr o m k hcr hl ho hne hk =>
      set k₁ := (σ.kernel.boost o (σ.kernel.priority cr)).park cr with hk₁
      have hmem : ∀ t, t ∈ (k₁.enqueue (σ.mutexes m).waitQueue cr).2.tids ↔
          t = cr ∨ t ∈ (σ.mutexes m).waitQueue.tids :=
        fun t => mem_enqueue (h.nodup (.mutex m)) (h.not_mem hcr (.mutex m))
      have hf := (frame_park (σ.kernel.boost o (σ.kernel.priority cr)) cr).trans
        (frame_enqueue k₁ (σ.mutexes m).waitQueue cr)
      refine hi.contend_iff h he hcr hl ho hne (fun w x => waits_enqueue rfl hmem ho rfl) fun t => ?_
      rw [← priority_boost σ.kernel o t (σ.kernel.priority cr)]
      exact (hf.trans (frame_yieldIf hk)).priority t
  | @resume cr m hcr hpc =>
      refine hidle rfl (fun _ _ => rfl) (fun cr' hcr' => ?_) rfl
      rw [hcr] at hcr'
      cases hcr'
      unfold locking
      rw [hpc]
  | @unlock cr m r k hcr hpc hg hr hk =>
      exact hi.unlock_iff h he hcr rfl rfl (Frame.refl _) hr rfl
        fun t => (frame_yieldIf hk).priority t
  | @wait cr c' m r pc k hcr hpc hg hr hnext hk =>
      have hf := (frame_enqueueBack σ.kernel (σ.condVars c') cr).trans (frame_park _ cr)
      exact hi.unlock_iff h he hcr rfl rfl hf hr rfl fun t => (frame_yieldIf hk).priority t
  | @condYield cr c' m k hcr hpc hk =>
      refine hidle rfl (fun t _ => hframe (Frame.refl _) hk t) (fun cr' hcr' => ?_) rfl
      rw [hcr] at hcr'
      cases hcr'
      unfold locking
      rw [hpc]
  | @notify cr w c' queue k hcr hpc hcons hk =>
      exact hidle rfl (fun t _ => hframe (frame_wake _ w) hk t)
        (fun _ _ => rfl) rfl
  | notifyNone hnil => exact hidle rfl (fun _ _ => rfl) (fun _ _ => rfl) rfl
  | @notifyAll cr c' k hcr hpc hk =>
      have hf := frame_wakeAll σ.kernel (σ.condVars c').tids
      exact hidle rfl (fun t _ => hframe hf hk t) (fun _ _ => rfl) rfl

theorem inherits_init (k : Kernel) (counts : ℕ → ℤ) : (init k counts : System T).Inherits := by
  rintro m o ⟨⟩

/-- Where the law holds, it holds along chains of owners that wait themselves. -/
theorem Inherits.chain (hi : σ.Inherits) {w o : Tid} (hc : Relation.TransGen σ.Waits w o) :
    σ.kernel.priority o ≤ σ.kernel.priority w :=
  (inherits_iff.mp hi).chain hc

end System

/-- **When owners inherit.**  In every run of locks, guard drops, condition variables, semaphores, `Task`
operations other than `terminate` and interrupts from a launch, in which tasks exit without guards, every
owner is at least as urgent as all its waiters in all states exactly when no step boosts an owner that
waits for a less urgent one, restores a priority while somebody more urgent waits for another mutex of the
task, or hands a mutex to a waiter that is not the most urgent one. -/
theorem owners_inherit {boots : List BootCall} {k : Kernel} {counts : ℕ → ℤ}
    {tr : List (System T × Action T)} (hl : launchAfter boots = some k)
    (hr : Run (System.step cap) (fun σ a => a.IsLock ∧ σ.ExitsFree a) (System.init k counts) tr σ) :
    Always System.Inherits tr σ ↔ ∀ e ∈ tr, e.1.KeepsUrgency e.2 := by
  refine hr.forall_iff (I := fun σ => (σ.Queued ∧ σ.Exclusive) ∧ σ.Inherits)
    ⟨⟨System.queued_init hl, System.exclusive_init k counts⟩, System.inherits_init k counts⟩
    (fun σ h => h.2) ?_ ?_
  · rintro σ a σ' ⟨⟨hq, he⟩, hi⟩ hok hs hC
    have hls := System.step_lock hq.pcs hok.1 hs
    exact ⟨⟨(hq.step hls).1, he.step hq hok.1 hok.2 hs⟩, (hi.step_iff hq he hls).mpr hC⟩
  · rintro σ a σ' ⟨⟨hq, he⟩, hi⟩ hok hs hP
    exact (hi.step_iff hq he (System.step_lock hq.pcs hok.1 hs)).mp hP

/-- A task with two mutexes is boosted by a waiter and leaves the contended mutex first. -/
theorem owners_inherit_run : ∃ k₀ tr, ∃ σ : System Unit,
    launchAfter [.create 5 "l", .create 3 "h"] = some k₀ ∧
      Run (System.step fun _ => 0) (fun σ a => a.IsLock ∧ σ.ExitsFree a)
        (System.init k₀ fun _ => 0) tr σ ∧
      (σ.mutexes 1).owner = some 0 ∧ σ.guards 1 0 = 1 ∧ σ.kernel.priority 0 = 5 ∧
      Always System.Inherits tr σ := by
  have hsome : (launchAfter [.create 5 "l", .create 3 "h"]).isSome = true := by decide +kernel
  obtain ⟨k₀, hk₀⟩ := Option.isSome_iff_exists.mp hsome
  have hexec : ((launchAfter [.create 5 "l", .create 3 "h"]).bind fun k₀ =>
      exec (System.step fun _ => 0)
        (fun (σ : System Unit) a =>
          (a.IsLock ∧ a ≠ .call (.task .exitCurrent)) ∧ σ.KeepsUrgency a)
        (System.init k₀ fun _ => 0)
        [.call (.task (.delay 2)), .call (.lock 0), .call (.lock 1), .systick 1, .call (.lock 0),
          .call (.unlock 0), .proceed]).any (fun σ => (σ.mutexes 1).owner = some 0 ∧
            σ.guards 1 0 = 1 ∧ σ.kernel.priority 0 = 5) = true := by
    decide +kernel
  rw [hk₀, Option.bind_some] at hexec
  obtain ⟨tr, σ, hr, hσ⟩ := exists_run_of_exec (fun (σ : System Unit) (a : Action Unit)
    (h : decide ((a.IsLock ∧ a ≠ .call (.task .exitCurrent)) ∧ σ.KeepsUrgency a) = true) =>
      of_decide_eq_true h) hexec
  obtain ⟨ho, hg, hpri⟩ := of_decide_eq_true hσ
  have hrun : Run (System.step fun _ => 0) (fun σ a => a.IsLock ∧ σ.ExitsFree a)
      (System.init k₀ fun _ => 0) tr σ :=
    hr.mono fun _ _ h => ⟨h.1.1, fun hexit => absurd hexit h.1.2⟩
  exact ⟨k₀, tr, σ, hk₀, hrun, ho, hg, hpri,
    (owners_inherit hk₀ hrun).mpr fun e he => (hr.forall_guard e he).2⟩

/-- A task that holds two mutexes leaves the second one, for which nobody waits, and drops to its base
priority while a more urgent task waits for the first. -/
theorem owners_do_not_inherit : ∃ k₀ tr, ∃ σ : System Unit,
    launchAfter [.create 5 "l", .create 3 "h"] = some k₀ ∧
      Run (System.step fun _ => 0) (fun σ a => a.IsLock ∧ σ.ExitsFree a)
        (System.init k₀ fun _ => 0) tr σ ∧
      (σ.mutexes 0).owner = some 0 ∧ (σ.mutexes 0).waitQueue.tids = [1] ∧
      σ.kernel.priority 1 = 3 ∧ σ.kernel.priority 0 = 5 ∧ ¬Always System.Inherits tr σ := by
  have hsome : (launchAfter [.create 5 "l", .create 3 "h"]).isSome = true := by decide +kernel
  obtain ⟨k₀, hk₀⟩ := Option.isSome_iff_exists.mp hsome
  have hexec : ((launchAfter [.create 5 "l", .create 3 "h"]).bind fun k₀ =>
      exec (System.step fun _ => 0)
        (fun (_ : System Unit) a => a.IsLock ∧ a ≠ .call (.task .exitCurrent))
        (System.init k₀ fun _ => 0)
        [.call (.task (.delay 2)), .call (.lock 0), .call (.lock 1), .systick 1, .call (.lock 0),
          .call (.unlock 1)]).any (fun σ => (σ.mutexes 0).owner = some 0 ∧
            (σ.mutexes 0).waitQueue.tids = [1] ∧ σ.kernel.priority 1 = 3 ∧
              σ.kernel.priority 0 = 5) = true := by
    decide +kernel
  rw [hk₀, Option.bind_some] at hexec
  obtain ⟨tr, σ, hr, hσ⟩ := exists_run_of_exec (fun (_ : System Unit) (a : Action Unit)
    (h : decide (a.IsLock ∧ a ≠ .call (.task .exitCurrent)) = true) => of_decide_eq_true h) hexec
  obtain ⟨ho, hqueue, hpri, hpri'⟩ := of_decide_eq_true hσ
  have hrun : Run (System.step fun _ => 0) (fun σ a => a.IsLock ∧ σ.ExitsFree a)
      (System.init k₀ fun _ => 0) tr σ :=
    hr.mono fun _ _ h => ⟨h.1, fun hexit => absurd hexit h.2⟩
  refine ⟨k₀, tr, σ, hk₀, hrun, ho, hqueue, hpri, hpri', fun hall => ?_⟩
  have hle := hall.2 0 0 ho 1 (by rw [hqueue]; exact List.mem_cons_self)
  omega

end MosKernel
