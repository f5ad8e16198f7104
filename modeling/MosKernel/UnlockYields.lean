import MosKernel.SystemPasses

/-!
# Which unlocks give way

The outermost `internal_unlock` lowers the caller to its base priority and then compares it with one other
task: the first waiter of the mutex or, where nobody waits, the front of `READY_LIST`.  The caller is on
that list itself, in the place of its old priority, so the one task need not be the most urgent one.

`unlock_gives_way` says exactly when an unlock without a switch leaves nobody more urgent on the list, for
the drop of a guard and for the unlock of `CondVar::wait`, in every state of the system.  The one task
misleads the caller in two ways while the list is in order (`misled_iff_of_sorted`), and in a third way
while it is not.
-/

namespace MosKernel

open OrderedInsert TaskList Transition Kernel

variable {T : Type}

/-- A call of `internal_unlock`: the mutex, the kernel when it begins, and the running task. -/
structure Unlocking where
  inner : MutexInner
  kernel : Kernel
  cr : Tid

namespace Unlocking

variable {u : Unlocking} {t : Tid}

/-- The state at its end. -/
def result (u : Unlocking) : CsResult MutexInner := u.inner.unlock u.kernel u.cr

/-- The caller holds the mutex once. -/
def Outermost (u : Unlocking) : Prop := u.inner.recursiveCount = 1

instance (u : Unlocking) : Decidable u.Outermost := inferInstanceAs (Decidable (_ = _))

/-- If it finishes without a switch, nobody on `READY_LIST` is more urgent than the caller, whose boost is
over. -/
def GivesWay (u : Unlocking) : Prop :=
  u.result.yields = false →
    ∀ t ∈ u.result.kernel.readyList.tids, u.result.kernel.priority u.cr ≤ u.result.kernel.priority t

/-- `t` is another task, more urgent than the caller without its boost. -/
def Outranked (u : Unlocking) (t : Tid) : Prop := t ≠ u.cr ∧ u.kernel.priority t < u.kernel.base u.cr

/-- Somebody on `READY_LIST` is. -/
def Pressed (u : Unlocking) : Prop := ∃ t ∈ u.kernel.readyList.tids, u.Outranked t

/-- The caller is compared with somebody else than a task that outranks it: with a first waiter who does not,
with itself because nobody waits and it is in front of `READY_LIST`, or with another task that is in front
although it does not. -/
def Misled (u : Unlocking) : Prop :=
  (∃ w ∈ u.inner.waitQueue.front, ¬u.Outranked w) ∨
    (u.inner.waitQueue.front = none ∧ u.kernel.readyList.front = some u.cr) ∨
    u.inner.waitQueue.front = none ∧
      ∃ v ∈ u.kernel.readyList.front, v ≠ u.cr ∧ u.kernel.base u.cr ≤ u.kernel.priority v

instance (u : Unlocking) (t : Tid) : Decidable (u.Outranked t) := inferInstanceAs (Decidable (_ ∧ _))

instance (u : Unlocking) : Decidable u.Pressed :=
  inferInstanceAs (Decidable (∃ t ∈ u.kernel.readyList.tids, u.Outranked t))

/-- The task that is compared with the caller: the first waiter, and without waiters the front of
`READY_LIST`. -/
def compared (u : Unlocking) : Option Tid := u.inner.waitQueue.front.or u.kernel.readyList.front

/-- Whoever should make the caller give way, the task that is compared does. -/
def Heeds (u : Unlocking) : Prop := u.Pressed → ∃ t ∈ u.compared, u.Outranked t

theorem outranked_iff : u.Outranked t ↔
    (u.kernel.restore u.cr).priority t < (u.kernel.restore u.cr).priority u.cr := by
  rw [priority_restore, priority_restore, if_pos rfl]
  by_cases htc : t = u.cr
  · rw [if_pos htc]
    simp [Outranked, htc]
  · rw [if_neg htc]
    exact and_iff_right htc

/-- Where the task that is compared does not ask for a switch, nobody else may be more urgent. -/
theorem heeds_iff {v : Tid} {l : List Tid} {b : Bool} (hcomp : u.compared = some v)
    (hold : ∀ t ∈ u.kernel.readyList.tids, t ∈ l)
    (hnew : ∀ t ∈ l, t = v ∨ t ∈ u.kernel.readyList.tids) (hb : b = decide (u.Outranked v)) :
    (b = false → ∀ t ∈ l, ¬u.Outranked t) ↔ u.Heeds := by
  unfold Heeds
  rw [hcomp, hb]
  constructor
  · rintro h ⟨t, ht, hout⟩
    refine ⟨v, rfl, ?_⟩
    by_contra hv
    exact h (decide_eq_false hv) t (hold t ht) hout
  · intro h hv t ht hout
    have hno : ¬u.Outranked v := of_decide_eq_false hv
    rcases hnew t ht with rfl | ht
    · exact hno hout
    · obtain ⟨w, hw, hwout⟩ := h ⟨t, ht, hout⟩
      cases hw
      exact hno hwout

/-- An outermost unlock gives way as far as the task that is compared makes it. -/
theorem givesWay_iff_heeds (ho : u.Outermost) : u.GivesWay ↔ u.Heeds := by
  have hlist : (u.kernel.restore u.cr).readyList = u.kernel.readyList := by
    unfold Kernel.restore
    split_ifs <;> rfl
  have hout : ∀ t, (u.kernel.restore u.cr).priority u.cr ≤ (u.kernel.restore u.cr).priority t ↔
      ¬u.Outranked t := fun t => by rw [outranked_iff, not_lt]
  have hr := u.inner.unlocks u.kernel u.cr
  unfold GivesWay result
  generalize u.inner.unlock u.kernel u.cr = r at hr ⊢
  cases hr with
  | leave hne => exact absurd ho hne
  | release _ hnil hb =>
      rw [hlist] at hb
      have hcomp : u.compared = u.kernel.readyList.front := by
        unfold compared
        rw [TaskList.front, hnil]
        rfl
      simp only [hlist, hout]
      cases hfront : u.kernel.readyList.front with
      | none =>
          have hempty : u.kernel.readyList.tids = [] := List.head?_eq_none_iff.mp hfront
          simp [Heeds, Pressed, hempty]
      | some v =>
          refine heeds_iff (hcomp.trans hfront) (fun _ ht => ht) (fun _ ht => .inr ht) ?_
          rw [hb, hfront, Option.any_some]
          exact decide_eq_decide.mpr outranked_iff.symm
  | @handOff w queue b _ hcons hb =>
      have hpri := (frame_wake (u.kernel.restore u.cr) w).priority
      have hcomp : u.compared = some w := by
        unfold compared
        rw [TaskList.front, hcons]
        rfl
      simp only [hpri, hout] at hb ⊢
      refine heeds_iff hcomp (fun t ht => ?_) (fun t ht => ?_) ?_
      · have hle := count_le_readyInsert ((u.kernel.restore u.cr).setStatus w .ready) w t
        refine List.count_pos_iff.mp (lt_of_lt_of_le (List.count_pos_iff.mpr ?_) hle)
        rw [setStatus, setTcb_readyList, hlist]
        exact ht
      · have hm := mem_of_mem_insertInOrder ht
        rw [setStatus, setTcb_readyList, hlist] at hm
        exact hm
      · rw [hb]
        exact decide_eq_decide.mpr outranked_iff.symm

/-- The task that is compared does not outrank the caller. -/
theorem misled_iff (hp : u.Pressed) : u.Misled ↔ ∀ t ∈ u.compared, ¬u.Outranked t := by
  unfold Misled compared
  cases hw : u.inner.waitQueue.front with
  | some w => simp
  | none =>
      obtain ⟨t, ht, -⟩ := hp
      obtain ⟨v, l, hl⟩ := List.exists_cons_of_ne_nil (List.ne_nil_of_mem ht)
      have hfront : u.kernel.readyList.front = some v := by
        rw [TaskList.front, hl]
        rfl
      have hv : ¬u.Outranked v ↔ v = u.cr ∨ v ≠ u.cr ∧ u.kernel.base u.cr ≤ u.kernel.priority v := by
        unfold Outranked
        rw [not_and_or, not_not, not_lt]
        tauto
      simp [hfront, hv]

theorem heeds_iff_misled : u.Heeds ↔ ¬(u.Pressed ∧ u.Misled) := by
  rw [not_and]
  refine forall_congr' fun hp => ?_
  rw [misled_iff hp]
  simp

/-- **When an outermost unlock gives way.** -/
theorem givesWay_iff (ho : u.Outermost) : u.GivesWay ↔ ¬(u.Pressed ∧ u.Misled) :=
  (givesWay_iff_heeds ho).trans heeds_iff_misled

/-- In a list in order, the first waiter is not urgent enough or, without waiters, the caller is itself in
front. -/
theorem misled_iff_of_sorted (hs : u.kernel.Sorted) (hp : u.Pressed) : u.Misled ↔
    (∃ w ∈ u.inner.waitQueue.front, ¬u.Outranked w) ∨
      u.inner.waitQueue.front = none ∧ u.kernel.readyList.front = some u.cr := by
  obtain ⟨t, ht, -, hlt⟩ := hp
  refine or_congr_right (or_iff_left ?_)
  rintro ⟨-, v, hv, -, hbase⟩
  exact absurd (hs.front_le hv ht) (not_le.mpr (hlt.trans_le hbase))

end Unlocking

namespace System

/-- The call of `internal_unlock` in an action: the drop of a guard, or the unlock of `CondVar::wait`. -/
def unlocking (σ : System T) : Action T → Option Unlocking
  | .call (.unlock m) => σ.kernel.crTid.map fun cr => ⟨σ.mutexes m, σ.kernel, cr⟩
  | .call (.wait c m) => σ.kernel.crTid.map fun cr =>
    ⟨σ.mutexes m, (σ.kernel.enqueueBack (σ.condVars c) cr).1.park cr, cr⟩
  | _ => none

/-- What the action writes is the state at the end of that call, with its switch if it makes one. -/
theorem enter_unlocking {cap : ℕ → ℕ} {σ σ' : System T} {a : Action T} {u : Unlocking}
    (hu : u ∈ σ.unlocking a) (hs : σ.step cap a = some σ') :
    ∃ b, σ.enter cap a = some (u.result.kernel, b) ∧ (u.result.yields = true → b = true) := by
  obtain ⟨k₁, b, he, -⟩ := enter_of_step hs
  cases a with
  | call call =>
      cases call with
      | unlock m =>
          obtain ⟨cr, hcr, rfl⟩ := Option.map_eq_some_iff.mp hu
          have he' := he
          rw [enter, hcr, Option.bind_some] at he'
          split at he'
          · simp only [enterCall] at he'
            split_ifs at he'
            cases he'
            exact ⟨_, he, id⟩
          · cases he'
      | wait c m =>
          obtain ⟨cr, hcr, rfl⟩ := Option.map_eq_some_iff.mp hu
          have he' := he
          rw [enter, hcr, Option.bind_some] at he'
          split at he'
          · simp only [enterCall] at he'
            split_ifs at he'
            cases he'
            exact ⟨true, he, fun _ => rfl⟩
          · cases he'
      | _ => cases hu
  | _ => cases hu

end System

/-- **When an unlock gives way.**  In every state of the system, let an action run an outermost
`internal_unlock`.  If that finishes without a switch, then nobody on `READY_LIST` is more urgent than the
caller after its restore: this holds exactly if, before, nobody else on the list is more urgent than the base
priority of the caller, or the caller is not misled by the first waiter, by itself, or by the front of a
list out of order. -/
theorem unlock_gives_way (σ : System T) (a : Action T) :
    ∀ u ∈ σ.unlocking a, u.Outermost → (u.GivesWay ↔ ¬(u.Pressed ∧ u.Misled)) := by
  intro u _ ho
  exact Unlocking.givesWay_iff ho

/-- A caller without a boost, with a less urgent task on the list, unlocks a mutex that nobody waits
for. -/
theorem unlock_gives_way_run : ∃ k₀ tr, ∃ σ : System Unit, ∃ u,
    launchAfter [.create 3 "a", .create 4 "b"] = some k₀ ∧
    Run (System.step fun _ => 4) (fun _ _ => True) (.init k₀ fun _ => 0) tr σ ∧
    u ∈ σ.unlocking (.call (.unlock 0)) ∧ (u.Outermost ∧ u.result.yields = false) ∧ u.GivesWay := by
  have hsome : (launchAfter [.create 3 "a", .create 4 "b"]).isSome = true := by decide +kernel
  obtain ⟨k₀, hk₀⟩ := Option.isSome_iff_exists.mp hsome
  have hexec : ((launchAfter [.create 3 "a", .create 4 "b"]).bind fun k₀ =>
      exec (System.step fun _ => 4) (fun _ _ => true) (.init k₀ fun _ => 0 : System Unit)
        [.call (.lock 0)]).any (fun σ => (σ.unlocking (.call (.unlock 0))).any fun u =>
          decide ((u.Outermost ∧ u.result.yields = false) ∧ ¬u.Pressed)) = true := by decide +kernel
  rw [hk₀, Option.bind_some] at hexec
  obtain ⟨tr, σ, hr, hσ⟩ := exists_run_of_exec (fun _ _ _ => trivial) hexec
  obtain ⟨u, hu, hq⟩ := (Option.any_eq_true _ _).mp hσ
  obtain ⟨⟨ho, hy⟩, hno⟩ := of_decide_eq_true hq
  exact ⟨k₀, tr, σ, u, hk₀, hr, hu, ⟨ho, hy⟩, (unlock_gives_way σ _ u hu ho).mpr fun h => hno h.1⟩

/-- A task that is boosted through mutex 0 unlocks mutex 1 and drops to priority 5: it is itself in front
of `READY_LIST`, and goes on although task 3 is more urgent. -/
theorem boosted_caller_keeps_running : ∃ k₀ tr, ∃ σ : System Unit, ∃ u,
    launchAfter [.create 5 "c"] = some k₀ ∧
    Run (System.step fun _ => 4) (fun _ _ => True) (.init k₀ fun _ => 0) tr σ ∧
    u ∈ σ.unlocking (.call (.unlock 1)) ∧ u.Outermost ∧ u.inner.waitQueue.tids = [] ∧
    3 ∈ u.result.kernel.readyList.tids ∧ ¬u.GivesWay := by
  have hsome : (launchAfter [.create 5 "c"]).isSome = true := by decide +kernel
  obtain ⟨k₀, hk₀⟩ := Option.isSome_iff_exists.mp hsome
  have hexec : ((launchAfter [.create 5 "c"]).bind fun k₀ =>
      exec (System.step fun _ => 4) (fun _ _ => true) (.init k₀ fun _ => 0 : System Unit)
        [.call (.lock 0), .call (.lock 1), .call (.task (.create 1 "h")), .call (.lock 0),
          .call (.task (.create 3 "t"))]).any (fun σ => (σ.unlocking (.call (.unlock 1))).any fun u =>
          decide (u.Outermost ∧ u.inner.waitQueue.tids = [] ∧ u.result.yields = false ∧
            3 ∈ u.result.kernel.readyList.tids ∧
            u.result.kernel.priority 3 < u.result.kernel.priority u.cr)) = true := by decide +kernel
  rw [hk₀, Option.bind_some] at hexec
  obtain ⟨tr, σ, hr, hσ⟩ := exists_run_of_exec (fun _ _ _ => trivial) hexec
  obtain ⟨u, hu, hq⟩ := (Option.any_eq_true _ _).mp hσ
  obtain ⟨ho, hw, hy, hm, hlt⟩ := of_decide_eq_true hq
  refine ⟨k₀, tr, σ, u, hk₀, hr, hu, ho, hw, hm, fun hgives => ?_⟩
  exact absurd hlt (not_lt.mpr (hgives hy 3 hm))

end MosKernel
