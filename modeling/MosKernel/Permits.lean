import MosKernel.Lib.Transition
import MosKernel.System
import MosKernel.Coherence

/-!
# Permits and waiters of a semaphore

A semaphore that never makes a task wait beside a free permit has `max 0 (-count)` tasks in its wait
queue.  `Sema::down_timeout` tests for a permit and commits to waiting in two critical sections, so
an `up` in between breaks this; a queue that stale entries have filled, and a count that overflows,
break it too.  `BlocksWisely` is the condition under which a step is safe, and
`wait_queue_matches_count` says that it is exact, whatever else the system does.

The first part is about a single semaphore, the second about the actions, each of them an operation on
one semaphore or on none (`Balanced.step`).
-/

namespace MosKernel

open OrderedInsert TaskList Transition

variable {T : Type} {cap : ℕ → ℕ} {σ σ' : System T} {a : Action T}

/-! ### One semaphore -/

theorem wrapI32_of_mem {n : ℤ} (h : -2 ^ 31 ≤ n) (h' : n ≤ i32Max) : wrapI32 n = n := by
  unfold i32Max at h'
  exact Int.bmod_eq_of_le (by omega) (by omega)

theorem wrapI32_overflow : wrapI32 (i32Max + 1) = -2 ^ 31 := by decide

/-- No operation takes the count past `i32::MAX`. -/
theorem wrapI32_le (n : ℤ) : wrapI32 n ≤ i32Max := by
  have := Int.bmod_lt (x := n) (m := 2 ^ 32) (by decide)
  unfold wrapI32 i32Max
  omega

namespace SemaInner

variable {i : SemaInner} {k : Kernel} {cr : Tid}

/-- As many waiters as permits are owed. -/
def Balanced (i : SemaInner) : Prop := (i.waitQueue.len : ℤ) = max 0 (-i.count)

instance : DecidablePred Balanced := fun _ => inferInstanceAs (Decidable (_ = _))

/-- Nobody waits while there is a permit. -/
theorem Balanced.queue_empty (h : i.Balanced) (hc : 0 ≤ i.count) : i.waitQueue.tids = [] := by
  unfold Balanced len at h
  exact List.length_eq_zero_iff.mp (by omega)

/-- Waiters are at most `taskMax`, so the count stays far from its lower bound. -/
theorem Balanced.le_count (h : i.Balanced) : -16 ≤ i.count := by
  have hle : i.waitQueue.len ≤ 16 := i.waitQueue.le_cap
  unfold Balanced at h
  omega

theorem length_enqueue {queue : TaskList} (h : queue.len < taskMax) :
    (k.enqueue queue cr).2.len = queue.len + 1 := by
  rw [len, Kernel.enqueue_snd, (insertInOrder_of_lt h).1, length_insertBefore]
  rfl

theorem enqueue_full {queue : TaskList} (h : ¬queue.len < taskMax) :
    (k.enqueue queue cr).2 = queue :=
  (insertInOrder_of_full (le_antisymm queue.le_cap (not_lt.mp h))).1

theorem count_up : (i.up k).inner.count = wrapI32 (i.count + 1) := by
  unfold up
  split <;> rfl

theorem len_up : (i.up k).inner.waitQueue.len =
    if wrapI32 (i.count + 1) ≤ 0 then i.waitQueue.len - 1 else i.waitQueue.len := by
  unfold up woken
  by_cases hc : wrapI32 (i.count + 1) ≤ 0
  · simp only [hc, if_true]
    split
    · rename_i t queue hq
      rw [len, len, popFront_eq_some.mp hq, List.length_cons, Nat.add_sub_cancel]
    · rename_i hq
      rw [len, popFront_eq_none.mp hq]
      rfl
  · simp only [hc, if_false]

/-- An `up` keeps the balance unless the count overflows. -/
theorem Balanced.up_iff (h : i.Balanced) (hc : i.count ≤ i32Max) :
    (i.up k).inner.Balanced ↔ i.count < i32Max := by
  have hge := h.le_count
  unfold Balanced at *
  rw [len_up, count_up]
  rcases lt_or_eq_of_le hc with hlt | heq
  · rw [wrapI32_of_mem (by omega) (by omega)]
    split_ifs <;> omega
  · rw [heq, wrapI32_overflow]
    unfold i32Max at heq
    split_ifs <;> omega

theorem count_up_le : (i.up k).inner.count ≤ i32Max := by
  rw [count_up]
  exact wrapI32_le _

theorem count_down_le : (i.down k cr).inner.count ≤ i32Max := by
  unfold down
  dsimp only
  split_ifs <;> exact wrapI32_le _

theorem count_tryDown_le (h : i.count ≤ i32Max) : i.tryDown.1.count ≤ i32Max := by
  unfold tryDown
  split_ifs
  · exact wrapI32_le _
  · exact h

theorem count_check_le (h : i.count ≤ i32Max) : (i.downTimeoutCheck cr).1.count ≤ i32Max := by
  unfold downTimeoutCheck
  split_ifs
  · exact wrapI32_le _
  · exact h

/-- A `down` keeps the balance unless it has to block on a full queue. -/
theorem Balanced.down_iff (h : i.Balanced) (hc : i.count ≤ i32Max) :
    (i.down k cr).inner.Balanced ↔ (i.count ≤ 0 → i.waitQueue.len < taskMax) := by
  have hge := h.le_count
  have hle := i.waitQueue.le_cap
  unfold Balanced at *
  unfold SemaInner.down
  rw [wrapI32_of_mem (by omega) (by omega)]
  dsimp only
  split_ifs with hneg
  · by_cases hfull : i.waitQueue.len < taskMax
    · dsimp only
      rw [length_enqueue hfull]
      omega
    · dsimp only
      rw [enqueue_full hfull]
      omega
  · dsimp only
    omega

/-- The blocking section of `down_timeout` assumes that there is still no permit. -/
theorem Balanced.block_iff {ticks : BitVec 32} (h : i.Balanced) (hc : i.count ≤ i32Max) :
    (i.downTimeoutBlock k cr ticks).inner.Balanced ↔
      i.count ≤ 0 ∧ i.waitQueue.len < taskMax := by
  have hge := h.le_count
  unfold Balanced at *
  unfold downTimeoutBlock
  rw [wrapI32_of_mem (by omega) (by omega)]
  dsimp only
  have hpos : 0 < taskMax := by decide
  by_cases hfull : i.waitQueue.len < taskMax
  · rw [length_enqueue hfull]
    omega
  · rw [enqueue_full hfull]
    omega

theorem Balanced.tryDown (h : i.Balanced) (hc : i.count ≤ i32Max) : i.tryDown.1.Balanced := by
  unfold Balanced SemaInner.tryDown at *
  split_ifs with hpos
  · rw [wrapI32_of_mem (by omega) (by omega)]
    dsimp only
    omega
  · exact h

/-- A timed-out waiter gives back what it took. -/
theorem Balanced.check (h : i.Balanced) : (i.downTimeoutCheck cr).1.Balanced := by
  have hge := h.le_count
  unfold downTimeoutCheck
  split_ifs with hmem
  · have hpos := List.length_pos_of_mem hmem
    unfold Balanced len at *
    rw [remove_tids, List.length_erase_of_mem hmem]
    rw [wrapI32_of_mem (by omega) (by unfold i32Max; omega)]
    dsimp only
    omega
  · exact h

end SemaInner

/-! ### Exact conditions for a run -/

namespace System

/-- The step keeps the waiters of the semaphore it acts on in step with its count: an `up` does not
overflow the count, a blocking section finds room in the wait queue, and that of `down_timeout`
finds that there is still no permit. -/
def BlocksWisely (σ : System T) : Action T → Prop
  | .call (.up s) | .upFromIsr s => (σ.semas s).count < i32Max
  | .call (.down s) => (σ.semas s).count ≤ 0 → (σ.semas s).waitQueue.len < taskMax
  | .proceed =>
    match σ.kernel.crTid.map σ.pc with
    | some (.downTimeoutBlock s _) =>
      (σ.semas s).count ≤ 0 ∧ (σ.semas s).waitQueue.len < taskMax
    | _ => True
  | _ => True

instance (σ : System T) : DecidablePred σ.BlocksWisely
  | .call (.up _) | .upFromIsr _ => inferInstanceAs (Decidable (_ < _))
  | .call (.down _) => inferInstanceAs (Decidable (_ → _))
  | .proceed => by
      dsimp only [BlocksWisely]
      generalize σ.kernel.crTid.map σ.pc = pc
      exact match pc with
        | some (.downTimeoutBlock _ _) => inferInstanceAs (Decidable (_ ∧ _))
        | none | some .user | some (.down _) | some (.downTimeoutCheck _) | some (.lock _)
        | some (.condUnlocked _ _) | some (.condRelock _ _)
        | some (.sendWait _ _ _) | some (.sendDelay _ _ _) | some (.sendCheck _ _)
        | some (.sendRetry _ _) | some (.recvWait _ _) | some (.recvDelay _ _)
        | some (.recvCheck _) | some (.recvRetry _) => isTrue trivial
  | .call (.task _) | .call (.downTimeout _ _) | .call (.tryDown _)
  | .call (.lock _) | .call (.unlock _) | .call (.wait _ _) | .call (.notify _) | .call (.notifyAll _)
  | .call (.send _ _ _) | .call (.recv _ _) | .systick _ | .preempt => isTrue trivial

/-- Every semaphore is balanced, with a count that fits `i32`. -/
def Balanced (σ : System T) : Prop := ∀ s, (σ.semas s).Balanced ∧ (σ.semas s).count ≤ i32Max

/-- What is shown of each step: counts stay in range, and the balance is kept exactly if the step
blocks wisely. -/
def BalanceStep (σ : System T) (a : Action T) (σ' : System T) : Prop :=
  (∀ s, (σ'.semas s).count ≤ i32Max) ∧ ((∀ s, (σ'.semas s).Balanced) ↔ σ.BlocksWisely a)

theorem Balanced.same (h : σ.Balanced) (hs : σ'.semas = σ.semas) (ha : σ.BlocksWisely a) :
    σ.BalanceStep a σ' := by
  unfold BalanceStep
  rw [hs]
  exact ⟨fun s => (h s).2, fun _ => ha, fun _ s => (h s).1⟩

theorem Balanced.update {s : ℕ} {i : SemaInner} (h : σ.Balanced)
    (hs : σ'.semas = Function.update σ.semas s i) (hc : i.count ≤ i32Max)
    (ha : i.Balanced ↔ σ.BlocksWisely a) : σ.BalanceStep a σ' := by
  unfold BalanceStep
  rw [hs, ← ha]
  refine ⟨fun s' => ?_, fun hall => by simpa using hall s, fun hi s' => ?_⟩
  · rw [Function.update_apply]
    split_ifs
    · exact hc
    · exact (h s').2
  · rw [Function.update_apply]
    split_ifs
    · exact hi
    · exact (h s').1

theorem Balanced.call {cr : Tid} {c : Call T} (hσ : σ.Balanced)
    (h : σ.call cap cr c = some σ') : σ.BalanceStep (.call c) σ' := by
  have same : ∀ {σ₁ : System T} {b : Bool}, σ₁.yieldIf b = some σ' → σ₁.semas = σ.semas →
      σ.BlocksWisely (.call c) → σ.BalanceStep (.call c) σ' := by
    intro σ₁ b hy hs hc
    obtain ⟨k, -, rfl⟩ := yieldIf_eq_some hy
    exact hσ.same hs hc
  cases c with
  | task c =>
      obtain ⟨⟨k, t⟩, -, rfl⟩ := Option.map_eq_some_iff.mp h
      cases t <;> exact hσ.same rfl trivial
  | down s =>
      obtain ⟨k, -, rfl⟩ := yieldIf_eq_some h
      refine hσ.update (s := s) (i := ((σ.semas s).down σ.kernel cr).inner) ?_ SemaInner.count_down_le
        ((hσ s).1.down_iff (hσ s).2)
      split <;> rfl
  | downTimeout s ticks =>
      cases h
      refine hσ.update (s := s) (i := (σ.semas s).tryDown.1) ?_
        (SemaInner.count_tryDown_le (hσ s).2)
        (iff_of_true ((hσ s).1.tryDown (hσ s).2) trivial)
      unfold System.downTimeout
      dsimp only
      split_ifs <;> rfl
  | tryDown s =>
      cases h
      refine hσ.update (s := s) (i := (σ.semas s).tryDown.1) ?_
        (SemaInner.count_tryDown_le (hσ s).2)
        (iff_of_true ((hσ s).1.tryDown (hσ s).2) trivial)
      unfold System.tryDown
      dsimp only
      split <;> rfl
  | up s =>
      obtain ⟨k, -, rfl⟩ := yieldIf_eq_some h
      exact hσ.update (s := s) rfl SemaInner.count_up_le ((hσ s).1.up_iff (hσ s).2)
  | lock m =>
      rw [System.call, Option.ite_none_right_eq_some] at h
      exact same h.2 (by split <;> rfl) trivial
  | unlock m =>
      rw [System.call, Option.ite_none_right_eq_some] at h
      exact same h.2 rfl trivial
  | wait c m =>
      rw [System.call, Option.ite_none_right_eq_some] at h
      exact same h.2 rfl trivial
  | notify c => exact same h rfl trivial
  | notifyAll c => exact same h rfl trivial
  | send q msg timeout =>
      unfold System.call System.send at h
      dsimp only at h
      split_ifs at h
      · exact same h rfl trivial
      · cases h
        exact hσ.same rfl trivial
      · cases h
        exact hσ.same rfl trivial
  | recv q timeout =>
      unfold System.call System.recv at h
      dsimp only at h
      split_ifs at h
      · obtain ⟨⟨msg, r⟩, -, h⟩ := Option.bind_eq_some_iff.mp h
        exact same h rfl trivial
      · cases h
        exact hσ.same rfl trivial
      · cases h
        exact hσ.same rfl trivial

theorem Balanced.proceed {cr : Tid} (hσ : σ.Balanced) (hcr : σ.kernel.crTid = some cr)
    (h : σ.proceed cap cr = some σ') : σ.BalanceStep .proceed σ' := by
  have hC : ∀ pc, σ.pc cr = pc → (σ.BlocksWisely .proceed ↔
      match some pc with
      | some (.downTimeoutBlock s _) =>
        (σ.semas s).count ≤ 0 ∧ (σ.semas s).waitQueue.len < taskMax
      | _ => True) := by
    intro pc hpc
    unfold BlocksWisely
    rw [hcr, Option.map_some, hpc]
  have same : ∀ {σ₁ : System T} {b : Bool}, σ₁.yieldIf b = some σ' → σ₁.semas = σ.semas →
      σ.BlocksWisely .proceed → σ.BalanceStep .proceed σ' := by
    intro σ₁ b hy hs hc
    obtain ⟨k, -, rfl⟩ := yieldIf_eq_some hy
    exact hσ.same hs hc
  unfold System.proceed at h
  split at h
  · cases h
  · rename_i s hpc
    cases h
    exact hσ.same rfl ((hC _ hpc).mpr trivial)
  · rename_i s ticks hpc
    obtain ⟨k, -, rfl⟩ := yieldIf_eq_some h
    exact hσ.update (s := s) rfl (wrapI32_le _)
      (((hσ s).1.block_iff (hσ s).2).trans (hC _ hpc).symm)
  · rename_i s hpc
    cases h
    refine hσ.update (s := s) (i := ((σ.semas s).downTimeoutCheck cr).1) ?_
      (SemaInner.count_check_le (hσ s).2)
      (iff_of_true (hσ s).1.check ((hC _ hpc).mpr trivial))
    unfold System.downTimeoutCheck
    dsimp only
    split <;> rfl
  · rename_i m hpc
    cases h
    exact hσ.same rfl ((hC _ hpc).mpr trivial)
  · rename_i c m hpc
    exact same h rfl ((hC _ hpc).mpr trivial)
  · rename_i c m hpc
    exact same h (by split <;> rfl) ((hC _ hpc).mpr trivial)
  · rename_i q msg timeout hpc
    cases h
    exact hσ.same rfl ((hC _ hpc).mpr trivial)
  · rename_i q msg timeout hpc
    obtain ⟨k, -, rfl⟩ := Option.map_eq_some_iff.mp h
    exact hσ.same rfl ((hC _ hpc).mpr trivial)
  · rename_i q msg hpc
    cases h
    refine hσ.same ?_ ((hC _ hpc).mpr trivial)
    unfold System.sendCheck
    dsimp only
    split <;> rfl
  · rename_i q msg hpc
    split at h
    · exact same h rfl ((hC _ hpc).mpr trivial)
    · cases h
      exact hσ.same rfl ((hC _ hpc).mpr trivial)
  · rename_i q timeout hpc
    cases h
    exact hσ.same rfl ((hC _ hpc).mpr trivial)
  · rename_i q timeout hpc
    obtain ⟨k, -, rfl⟩ := Option.map_eq_some_iff.mp h
    exact hσ.same rfl ((hC _ hpc).mpr trivial)
  · rename_i q hpc
    cases h
    refine hσ.same ?_ ((hC _ hpc).mpr trivial)
    unfold System.recvCheck
    dsimp only
    split <;> rfl
  · rename_i q hpc
    split at h
    · obtain ⟨⟨msg, r⟩, -, h⟩ := Option.bind_eq_some_iff.mp h
      exact same h rfl ((hC _ hpc).mpr trivial)
    · cases h
      exact hσ.same rfl ((hC _ hpc).mpr trivial)

theorem Balanced.step (hσ : σ.Balanced) (h : σ.step cap a = some σ') : σ.BalanceStep a σ' := by
  cases a with
  | systick missed =>
      obtain ⟨k, -, rfl⟩ := Option.map_eq_some_iff.mp h
      exact hσ.same rfl trivial
  | preempt =>
      obtain ⟨k, -, rfl⟩ := yieldIf_eq_some h
      exact hσ.same rfl trivial
  | upFromIsr s =>
      cases h
      exact hσ.update (s := s) rfl SemaInner.count_up_le ((hσ s).1.up_iff (hσ s).2)
  | call c =>
      obtain ⟨cr, hcr, h⟩ := Option.bind_eq_some_iff.mp h
      split at h
      · exact hσ.call h
      · cases h
  | proceed =>
      obtain ⟨cr, hcr, h⟩ := Option.bind_eq_some_iff.mp h
      exact hσ.proceed hcr h

end System

/-- **When permits and waiters agree.**  From semaphores with a non-negative initial count, whatever
the tasks and interrupt handlers do, the wait queue of every semaphore has length `max 0 (-count)`
in all states of a run exactly when every step blocks wisely. -/
theorem wait_queue_matches_count {k : Kernel} {counts : ℕ → ℤ} {tr : List (System T × Action T)}
    (hc : ∀ s, 0 ≤ counts s ∧ counts s ≤ i32Max)
    (hr : Run (System.step cap) (fun _ _ => True) (System.init k counts) tr σ) :
    Always (fun σ : System T => ∀ s, (σ.semas s).Balanced) tr σ ↔
      ∀ e ∈ tr, e.1.BlocksWisely e.2 := by
  refine hr.forall_iff (I := System.Balanced) (fun s => ?_) (fun σ h s => (h s).1) ?_ ?_
  · obtain ⟨h0, h1⟩ := hc s
    refine ⟨?_, h1⟩
    show ((TaskList.new.len : ℕ) : ℤ) = max 0 (-counts s)
    rw [len, new_tids, List.length_nil]
    omega
  · intro σ a σ' h _ hs ha
    exact fun s => ⟨(h.step hs).2.mpr ha s, (h.step hs).1 s⟩
  · intro σ a σ' h _ hs hb
    exact (h.step hs).2.mp hb

/-- A safe run: two tasks wait on a semaphore with one permit, the second with a timeout. -/
theorem wait_queue_matches_count_run : ∃ k₀ tr, ∃ σ : System Unit,
    Kernel.launchAfter [.create 3 "a", .create 4 "b"] = some k₀ ∧
      Run (System.step fun _ => 0) (fun _ _ => True) (System.init k₀ fun _ => 1) tr σ ∧
      (σ.semas 0).waitQueue.tids = [1] ∧
      Always (fun σ : System Unit => ∀ s, (σ.semas s).Balanced) tr σ := by
  have hsome : (Kernel.launchAfter [.create 3 "a", .create 4 "b"]).isSome = true := by
    decide +kernel
  obtain ⟨k₀, hk₀⟩ := Option.isSome_iff_exists.mp hsome
  have hexec : ((Kernel.launchAfter [.create 3 "a", .create 4 "b"]).bind fun k₀ =>
      exec (System.step fun _ => 0) (fun (σ : System Unit) a => σ.BlocksWisely a)
        (System.init k₀ fun _ => 1)
        [.call (.down 0), .call (.down 0), .call (.downTimeout 0 7), .proceed,
          .upFromIsr 0]).any (fun σ => (σ.semas 0).waitQueue.tids = [1]) = true := by
    decide +kernel
  rw [hk₀, Option.bind_some] at hexec
  obtain ⟨tr, σ, hr, hσ⟩ := exists_run_of_exec
    (fun (σ : System Unit) a (h : decide (σ.BlocksWisely a) = true) => of_decide_eq_true h) hexec
  have hrun := hr.mono fun _ _ _ => trivial
  exact ⟨k₀, tr, σ, hk₀, hrun, of_decide_eq_true hσ,
    (wait_queue_matches_count (fun _ => by decide) hrun).mpr hr.forall_guard⟩

/-- The race: between the failed test of `down_timeout` and its blocking section an interrupt
handler's `up` deposits a permit; the task then waits although it has taken that permit. -/
theorem wait_queue_misses_count : ∃ k₀ tr, ∃ σ : System Unit,
    Kernel.launchAfter [.create 3 "a"] = some k₀ ∧
      Run (System.step fun _ => 0) (fun _ _ => True) (System.init k₀ fun _ => 0) tr σ ∧
      (σ.semas 0).count = 0 ∧ (σ.semas 0).waitQueue.tids = [0] ∧
      ¬Always (fun σ : System Unit => ∀ s, (σ.semas s).Balanced) tr σ := by
  have hsome : (Kernel.launchAfter [.create 3 "a"]).isSome = true := by decide +kernel
  obtain ⟨k₀, hk₀⟩ := Option.isSome_iff_exists.mp hsome
  have hexec : ((Kernel.launchAfter [.create 3 "a"]).bind fun k₀ =>
      exec (System.step fun _ => 0) (fun (_ : System Unit) _ => true) (System.init k₀ fun _ => 0)
        [.call (.downTimeout 0 7), .upFromIsr 0, .proceed]).any
          (fun σ => (σ.semas 0).count = 0 ∧ (σ.semas 0).waitQueue.tids = [0]) = true := by
    decide +kernel
  rw [hk₀, Option.bind_some] at hexec
  obtain ⟨tr, σ, hr, hσ⟩ := exists_run_of_exec (fun _ _ _ => trivial) hexec
  rw [decide_eq_true_eq] at hσ
  refine ⟨k₀, tr, σ, hk₀, hr, hσ.1, hσ.2, fun hall => ?_⟩
  have hb := (hall.2 0).queue_empty hσ.1.ge
  rw [hσ.2] at hb
  cases hb

end MosKernel
