import MosKernel.Lib.Transition
import MosKernel.Ranking

/-!
# The most urgent task runs

`internal_unlock` lets a boosted task drop to its base priority and leaves its entry of `READY_LIST` where
it was.  `DropsInPlace` says when the list is sorted after that: nobody behind the entry is more urgent
than the base priority, or the unlock ends in `yield_task` and `next_tcb` moves the entry, which it does
for a task that it has just switched to and for one whose time slice is over.  `highest_priority_runs`
says that `READY_LIST` is sorted in all states of a run, and no ready task more urgent than the one that
`next_tcb` selects, exactly as long as every unlock meets it.
-/

namespace MosKernel

open OrderedInsert TaskList Transition Kernel

variable {T : Type} {cap : ℕ → ℕ} {σ σ' : System T} {a : Action T}

/-- The tasks behind `t` on a list. -/
def TaskList.behind (l : TaskList) (t : Tid) : List Tid := l.tids.drop (l.tids.idxOf t + 1)

theorem TaskList.behind_eq {l : TaskList} {t : Tid} {pre suf : List Tid}
    (hl : l.tids = pre ++ t :: suf) (ht : t ∉ pre) : l.behind t = suf := by
  rw [behind, hl, List.idxOf_append_of_notMem ht, List.idxOf_cons_self, Nat.add_zero,
    List.drop_append]
  simp

/-- `READY_LIST` is sorted by the current priorities, and after `next_tcb` no ready task is more urgent
than the running one. -/
structure Kernel.HighestRuns (k : Kernel) : Prop where
  sorted : k.Sorted
  selected : ∀ k₁ : Kernel, k₁.nextTcb = some k → ∀ c, k.currentTcbPtr = some c →
    ∀ t ∈ k.readyList.tids, k.priority c ≤ k.priority t

namespace Kernel

variable {k k₁ k' : Kernel} {c t w : Tid} {i : MutexInner} {r : CsResult MutexInner}

theorem Sorted.highestRuns (h : k.Sorted) (hc : k.Settled c) : k.HighestRuns := by
  refine ⟨h, fun k₁ hk c' hc' t ht => ?_⟩
  rw [hc.current] at hc'
  cases hc'
  exact h.front_le (front_of_nextTcb hk hc) ht

/-- `next_tcb` moves the entry of a task that is ready. -/
def Requeues (k : Kernel) (c : Tid) : Prop := (k.tcbs c).timeSlice = 0 ∨ k.status c = .running

instance (k : Kernel) (c : Tid) : Decidable (k.Requeues c) :=
  inferInstanceAs (Decidable (_ ∨ _))

/-- What the outermost unlock of a mutex by `c` must meet, where `waiter` is the first task that waits
for it. -/
def DropsInPlace (k : Kernel) (c : Tid) (waiter : Option Tid) : Prop :=
  (∀ t ∈ k.readyList.behind c, k.base c ≤ k.priority t) ∨
    k.Requeues c ∧ (waiter = none → k.readyList.front ≠ some c) ∧
      ∀ w ∈ waiter, k.priority w < k.base c ∧
        ∀ t ∈ k.readyList.behind c, k.priority w ≤ k.priority t

instance (k : Kernel) (c : Tid) (waiter : Option Tid) : Decidable (k.DropsInPlace c waiter) :=
  inferInstanceAs (Decidable (_ ∨ _))

/-! ### When a list is sorted after a step -/

theorem sorted_congr (hl : k₁.readyList = k.readyList)
    (hp : ∀ t ∈ k.readyList.tids, k₁.priority t = k.priority t) : k₁.Sorted ↔ k.Sorted := by
  constructor
  · intro h
    exact h.congr (by rw [hl]) fun t ht => (hp t ht).symm
  · intro h
    exact h.congr (by rw [hl]) fun t ht => hp t (hl ▸ ht)

theorem sorted_switchTo : (k.switchTo c t).Sorted ↔ k.Sorted :=
  sorted_congr (readyList_switchTo k c t) fun u _ => (frame_switchTo k c t).priority u

theorem sorted_setStatus {st : TaskStatus} : (k.setStatus t st).Sorted ↔ k.Sorted := by
  refine sorted_congr rfl fun u _ => ?_
  rw [setStatus, priority_setTcb]
  split_ifs with hu
  · rw [hu]
    rfl
  · rfl

theorem sorted_wake : (k.wake w).Sorted ↔ k.Sorted :=
  sorted_readyInsert.trans sorted_setStatus

/-- With nobody due, `next_tcb` either moves the entry of the running task or leaves the list as it
is. -/
theorem sorted_nextTcb (h : k.NoneDue) (ho : k.OnCpu c)
    (hst : k.status c = .ready ∨ k.status c = .running) (hk : k.nextTcb = some k') :
    k'.Sorted ↔ if k.Requeues c then (k.readyRemove c).Sorted else k.Sorted := by
  obtain ⟨st, -, rfl⟩ := nextTcb_eq_some ho hk
  rw [sorted_switchTo, h.wakeUpSleepers]
  have hno : ¬(k.status c = .terminated ∨ k.status c = .blocked) := by
    rcases hst with hst | hst <;> rw [hst] <;> simp
  unfold requeue
  rw [if_neg hno]
  by_cases hre : k.Requeues c
  · have hor : (k.tcbs c).timeSlice = 0 ∨ k.status c = .running := hre
    rw [if_pos hor, if_pos hre]
    set k₁ := k.setTcb c fun tcb => { tcb with timeSlice := MosKernel.timeSlice, status := .ready }
      with hk₁
    refine sorted_readyInsert.trans (sorted_congr rfl fun t _ => ?_)
    show k₁.priority t = k.priority t
    rw [hk₁, priority_setTcb]
    split_ifs with ht
    · rw [ht]
      rfl
    · rfl
  · have hor : ¬((k.tcbs c).timeSlice = 0 ∨ k.status c = .running) := hre
    rw [if_neg hor, if_neg hre]

theorem readyList_restore (k : Kernel) (c : Tid) : (k.restore c).readyList = k.readyList := by
  unfold restore
  split_ifs <;> rfl

theorem status_restore (k : Kernel) (c t : Tid) : (k.restore c).status t = k.status t :=
  (reorders_restore k c).status t

theorem requeues_restore : (k.restore c).Requeues c ↔ k.Requeues c := by
  have hslice : ((k.restore c).tcbs c).timeSlice = (k.tcbs c).timeSlice := by
    unfold restore
    split_ifs
    · rw [setTcb_tcbs, Function.update_self]
    · rfl
  rw [Requeues, Requeues, hslice, status_restore]

theorem requeues_wake (hw : c ≠ w) : (k.wake w).Requeues c ↔ k.Requeues c := by
  have hslice : ((k.wake w).tcbs c).timeSlice = (k.tcbs c).timeSlice := by
    show (Function.update k.tcbs w _ c).timeSlice = _
    rw [Function.update_of_ne hw]
  have hst : (k.wake w).status c = k.status c := by
    rw [wake, status_readyInsert, setStatus, status_setTcb, if_neg hw]
  rw [Requeues, Requeues, hslice, hst]

theorem InOrder.le_base (h : k.InOrder) (c : Tid) : k.priority c ≤ k.base c := by
  unfold base
  split_ifs with hsub
  · exact (h.saved c hsub).le
  · exact le_rfl

section Unlock

variable {pre suf : List Tid}

/-- The tasks behind the running one are the less urgent ones, those before it the more urgent ones. -/
theorem Sorted.split (h : k.Sorted) (hl : k.readyList.tids = pre ++ c :: suf) :
    (∀ t ∈ pre, k.priority t ≤ k.priority c) ∧ ∀ t ∈ suf, k.priority c ≤ k.priority t := by
  rw [Sorted, hl, List.pairwise_append, List.pairwise_cons] at h
  exact ⟨fun t ht => h.2.2 t ht c List.mem_cons_self, h.2.1.1⟩

/-- The running task drops to its base priority, and its entry stays. -/
theorem InOrder.sorted_restore (h : k.InOrder) (hn : k.readyList.tids.Nodup)
    (hl : k.readyList.tids = pre ++ c :: suf) :
    (k.restore c).Sorted ↔ ∀ t ∈ suf, k.base c ≤ k.priority t := by
  rw [hl, List.nodup_append, List.nodup_cons] at hn
  have hsuf : ∀ t ∈ suf, (k.restore c).priority t = k.priority t := by
    intro t ht
    rw [priority_restore, if_neg]
    rintro rfl
    exact hn.2.1.1 ht
  have hpre : ∀ t ∈ pre, (k.restore c).priority t = k.priority t := by
    intro t ht
    rw [priority_restore, if_neg]
    rintro rfl
    exact hn.2.2 t ht t List.mem_cons_self rfl
  have hc : (k.restore c).priority c = k.base c := by
    rw [priority_restore, if_pos rfl]
  have hs := h.sorted
  rw [Sorted, hl, List.pairwise_append, List.pairwise_cons] at hs
  rw [Sorted, readyList_restore, hl, List.pairwise_append, List.pairwise_cons]
  constructor
  · rintro ⟨-, ⟨hle, -⟩, -⟩ t ht
    rw [← hc, ← hsuf t ht]
    exact hle t ht
  · intro hle
    refine ⟨?_, ⟨fun t ht => ?_, ?_⟩, fun t ht u hu => ?_⟩
    · refine hs.1.imp_of_mem fun {t u} ht hu htu => ?_
      rw [hpre t ht, hpre u hu]
      exact htu
    · rw [hc, hsuf t ht]
      exact hle t ht
    · refine hs.2.1.2.imp_of_mem fun {t u} ht hu htu => ?_
      rw [hsuf t ht, hsuf u hu]
      exact htu
    · rw [hpre t ht]
      rcases List.mem_cons.mp hu with rfl | hu
      · rw [hc]
        exact (hs.2.2 t ht u List.mem_cons_self).trans (h.le_base u)
      · rw [hsuf u hu]
        exact hs.2.2 t ht u (List.mem_cons_of_mem c hu)

/-- Without the entry of the running task the list is sorted whatever its priority. -/
theorem InOrder.sorted_remove_restore (h : k.InOrder) (hn : k.readyList.tids.Nodup) :
    ((k.restore c).readyRemove c).Sorted := by
  refine (h.readyRemove c).sorted.congr ?_ fun t ht => ?_
  · rw [readyRemove_readyList, readyList_restore, readyRemove_readyList]
  · rw [readyRemove_readyList, readyList_restore, remove_tids] at ht
    show (k.restore c).priority t = k.priority t
    rw [priority_restore, if_neg]
    rintro rfl
    exact hn.not_mem_erase ht

/-- A waiter that is more urgent than the running task is inserted in front of its entry; without that
entry the list is sorted where nobody behind it is more urgent than the waiter. -/
theorem sorted_remove_wake (hs : (k.readyRemove c).Sorted) (hn : k.readyList.tids.Nodup)
    (hl : k.readyList.tids = pre ++ c :: suf) (hw : w ∉ k.readyList.tids)
    (hlt : k.priority w < k.priority c) :
    ((k.wake w).readyRemove c).Sorted ↔ ∀ t ∈ suf, k.priority w ≤ k.priority t := by
  have hwc : w ≠ c := by
    rintro rfl
    exact hw (by rw [hl]; simp)
  have hset : ∀ u, (k.setStatus w .ready).priority u = k.priority u := by
    intro u
    rw [setStatus, priority_setTcb]
    split_ifs with hu
    · rw [hu]
      rfl
    · rfl
  have hcpre : c ∉ pre := by
    rw [hl, List.nodup_append] at hn
    exact fun hm => hn.2.2 c hm c List.mem_cons_self rfl
  have hlist : (k.wake w).readyList.tids =
      insertBefore (fun t => decide (k.priority w < k.priority t)) w pre ++ c :: suf := by
    have htids := (readyInsert_tids (k := k.setStatus w .ready) hn hw).1
    have hbefore : (k.setStatus w .ready).isBefore w =
        fun t => decide (k.priority w < k.priority t) := by
      funext t
      rw [isBefore, hset, hset]
    rw [wake, htids, hbefore, setStatus, setTcb_readyList, hl]
    exact insertBefore_append_cons (decide_eq_true hlt)
  have hnot : c ∉ insertBefore (fun t => decide (k.priority w < k.priority t)) w pre := by
    rw [mem_insertBefore, not_or]
    exact ⟨Ne.symm hwc, hcpre⟩
  have herase : ((k.wake w).readyRemove c).readyList.tids =
      insertBefore (fun t => decide (k.priority w < k.priority t)) w pre ++ suf := by
    rw [readyRemove_readyList, remove_tids, hlist, List.erase_append_right _ hnot,
      List.erase_cons_head]
  have hrest : (pre ++ suf).Pairwise fun t u => k.priority t ≤ k.priority u := by
    rw [Sorted, readyRemove_readyList, remove_tids, hl, List.erase_append_right _ hcpre,
      List.erase_cons_head] at hs
    exact hs
  have hpri : ((k.wake w).readyRemove c).priority = k.priority :=
    funext fun t => (frame_wake k w).priority t
  rw [Sorted, herase, hpri]
  exact pairwise_insertBefore_append hrest

end Unlock

/-- A list that is not sorted becomes so where `next_tcb` moves the only misplaced entry. -/
theorem sorted_yieldIf {b : Bool} (hno : ¬k.Sorted) (h : k.NoneDue) (ho : k.OnCpu c)
    (hst : k.status c = .ready ∨ k.status c = .running) (hk : k.yieldIf b = some k') :
    k'.Sorted ↔ b = true ∧ k.Requeues c ∧ (k.readyRemove c).Sorted := by
  unfold yieldIf at hk
  cases b with
  | false =>
      cases hk
      exact iff_of_false hno fun hb => by simp at hb
  | true =>
      replace hk : k.nextTcb = some k' := by
        rw [if_pos rfl, yieldTask, if_pos ho.ready] at hk
        exact hk
      rw [sorted_nextTcb h ho hst hk]
      split_ifs with hre
      · exact ⟨fun hs => ⟨rfl, hre, hs⟩, fun hs => hs.2.2⟩
      · exact iff_of_false hno fun hs => hre hs.2.1

/-- After its priority is restored, the caller is no longer the first by priority unless it is in front of the
list. -/
theorem Sorted.front_before_restored {pre suf : List Tid} (h : k.Sorted)
    (hl : k.readyList.tids = pre ++ c :: suf) (hcpre : c ∉ pre) (hlt : k.priority c < k.base c) :
    ((k.restore c).readyList.front.any fun front =>
        (k.restore c).priority front < (k.restore c).priority c) = true ↔ k.readyList.front ≠ some c := by
  rw [readyList_restore, TaskList.front, hl]
  cases pre with
  | nil => simp
  | cons a pre =>
      have hac : a ≠ c := by
        rintro rfl
        exact hcpre List.mem_cons_self
      have hle := (h.split hl).1 a List.mem_cons_self
      refine iff_of_true ?_ (by simpa using hac)
      show decide ((k.restore c).priority a < (k.restore c).priority c) = true
      rw [decide_eq_true_eq, priority_restore, if_neg hac, priority_restore, if_pos rfl]
      exact lt_of_le_of_lt hle hlt

/-- Without the caller, the list that a waiter has joined is sorted where nobody behind the caller is
passed. -/
theorem Ranked.sorted_handOff_iff {pre suf : List Tid} (h : k.Ranked) (hn : k.readyList.tids.Nodup)
    (hl : k.readyList.tids = pre ++ c :: suf) (hw : w ∉ k.readyList.tids) (hwc : w ≠ c)
    (hover : k.priority w < k.base c) :
    (((k.restore c).wake w).readyRemove c).Sorted ↔ ∀ t ∈ suf, k.priority w ≤ k.priority t := by
  have hpri : ∀ t, t ≠ c → (k.restore c).priority t = k.priority t := by
    intro t ht
    rw [priority_restore, if_neg ht]
  have hself : (k.restore c).priority c = k.base c := by rw [priority_restore, if_pos rfl]
  have hsuf : ∀ t ∈ suf, (k.restore c).priority t = k.priority t := by
    intro t ht
    refine hpri t ?_
    rintro rfl
    rw [hl, List.nodup_append, List.nodup_cons] at hn
    exact hn.2.1.1 ht
  rw [sorted_remove_wake (h.sorted_remove_restore hn) (by rw [readyList_restore]; exact hn)
    (by rw [readyList_restore]; exact hl) (by rw [readyList_restore]; exact hw)
    (by rw [hself, hpri w hwc]; exact hover), hpri w hwc]
  exact forall₂_congr fun t ht => by rw [hsuf t ht]

/-- An unlock leaves the list sorted exactly when the caller drops in place. -/
theorem Ranked.unlock_iff (h : k.Ranked) (hc : k.Settled c)
    (hp : ∀ t ∈ i.waitQueue.tids, k.Parked t) (hr : Unlocks i k c r)
    (hk : r.kernel.yieldIf r.yields = some k') :
    k'.Sorted ↔ (i.recursiveCount = 1 → k.DropsInPlace c i.waitQueue.front) := by
  obtain ⟨pre, suf, hl⟩ := List.append_of_mem hc.current_mem
  have hn := hc.ready_nodup
  have hcpre : c ∉ pre := by
    rw [hl, List.nodup_append] at hn
    exact fun hm => hn.2.2 c hm c List.mem_cons_self rfl
  have hbehind : k.readyList.behind c = suf := behind_eq hl hcpre
  have hsorted := h.toInOrder.sorted_restore hn hl
  have hset := (reorders_restore k c).settled hc
  have hst : (k.restore c).status c = .ready ∨ (k.restore c).status c = .running :=
    (hset.mem_ready c).mp hset.current_mem
  have hdue := h.noneDue.restore c
  have hself : (k.restore c).priority c = k.base c := by rw [priority_restore, if_pos rfl]
  rw [DropsInPlace, hbehind]
  by_cases hB : ∀ t ∈ suf, k.base c ≤ k.priority t
  · -- nobody is passed, so every outcome is sorted
    have hin : (k.restore c).InOrder := ⟨hsorted.mpr hB, fun t => h.saved_restore c⟩
    refine iff_of_true ?_ fun _ => .inl hB
    cases hr with
    | leave hne =>
        cases hk
        exact h.sorted
    | release hone hnil hb => exact (hin.yieldIf hset.onCpu (fun _ => hdue) hk).sorted
    | @handOff w queue b hone hcons hb =>
        exact ((hin.wake w).yieldIf (hset.onCpu.wake w) (fun _ => hdue.wake w) hk).sorted
  · have hno : ¬(k.restore c).Sorted := fun hs => hB (hsorted.mp hs)
    have hlt : k.priority c < k.base c := by
      refine lt_of_le_of_ne (h.le_base c) fun heq => hB fun t ht => ?_
      rw [← heq]
      exact (h.sorted.split hl).2 t ht
    have hremove := h.sorted_remove_restore (c := c) hn
    cases hr with
    | leave hne =>
        cases hk
        exact iff_of_true h.sorted fun hone => absurd hone hne
    | @release b hone hnil hb =>
        have hnone : i.waitQueue.front = none := by rw [TaskList.front, hnil]; rfl
        have hyields : b = true ↔ k.readyList.front ≠ some c := by
          rw [hb]
          exact h.sorted.front_before_restored hl hcpre hlt
        rw [sorted_yieldIf hno hdue hset.onCpu hst hk, requeues_restore, hyields, hnone]
        constructor
        · rintro ⟨hfront, hre, -⟩ -
          exact .inr ⟨hre, fun _ => hfront, fun w hw => by cases hw⟩
        · intro hC
          rcases hC hone with hall | ⟨hre, hfront, -⟩
          · exact absurd hall hB
          · exact ⟨hfront rfl, hre, hremove⟩
    | @handOff w queue b hone hcons hb =>
        have hsome : i.waitQueue.front = some w := by rw [TaskList.front, hcons]; rfl
        have hpark := hp w (by rw [hcons]; exact List.mem_cons_self)
        have hw : w ∉ k.readyList.tids := hc.not_mem_ready hpark.1
        have hwc : w ≠ c := by
          rintro rfl
          exact hw hc.current_mem
        have hstw : ((k.restore c).wake w).status c = .ready ∨
            ((k.restore c).wake w).status c = .running := by
          rw [wake, status_readyInsert, setStatus, status_setTcb, if_neg (Ne.symm hwc)]
          exact hst
        have hyields : b = true ↔ k.priority w < k.base c := by
          rw [hb, decide_eq_true_eq, (frame_wake _ w).priority, (frame_wake _ w).priority, hself,
            priority_restore, if_neg hwc]
        have hnow : ¬((k.restore c).wake w).Sorted := fun hs => hno (sorted_wake.mp hs)
        -- where the waiter overtakes the caller
        have hover := h.sorted_handOff_iff hn hl hw hwc
        rw [sorted_yieldIf hnow (hdue.wake w) (hset.onCpu.wake w) hstw hk,
          requeues_wake (Ne.symm hwc), requeues_restore, hyields, hsome]
        constructor
        · rintro ⟨hwlt, hre, hs⟩ -
          refine .inr ⟨hre, by simp, fun w' hw' => ?_⟩
          cases hw'
          exact ⟨hwlt, (hover hwlt).mp hs⟩
        · intro hC
          rcases hC hone with hall | ⟨hre, -, hall⟩
          · exact absurd hall hB
          · obtain ⟨hwlt, hle⟩ := hall w rfl
            exact ⟨hwlt, hre, (hover hwlt).mpr hle⟩

/-- An unlock that leaves the list sorted keeps the rest. -/
theorem Ranked.unlock (h : k.Ranked) (hc : k.Settled c) (hr : Unlocks i k c r)
    (hk : r.kernel.yieldIf r.yields = some k') (hs : k'.Sorted) : k'.Ranked := by
  have ho := hc.onCpu.unlock hr
  have hf := frame_yieldIf hk
  have hsaved : ∀ t, (r.kernel.tcbs t).subPriority ≠ priInv →
      r.kernel.priority t < (r.kernel.tcbs t).subPriority := by
    intro t
    cases hr with
    | leave hne => exact h.saved t
    | release hone hnil hb => exact h.saved_restore c
    | @handOff w queue b hone hcons hb =>
        rw [(frame_wake _ w).subPriority, (frame_wake _ w).priority]
        exact h.saved_restore c
  have hdue : r.kernel.NoneDue := by
    cases hr with
    | leave hne => exact h.noneDue
    | release hone hnil hb => exact h.noneDue.restore c
    | @handOff w queue b hone hcons hb => exact (h.noneDue.restore c).wake w
  refine ⟨⟨hs, fun t ht => ?_⟩, ?_⟩
  · rw [hf.subPriority] at ht ⊢
    rw [hf.priority]
    exact hsaved t ht
  · unfold yieldIf at hk
    split_ifs at hk
    · rw [yieldTask, if_pos ho.ready] at hk
      exact noneDue_nextTcb ho hk
    · cases hk
      exact hdue

/-- A parked task that unlocks a mutex has no entry to leave behind. -/
theorem InOrder.unlock (h : k.InOrder) (hno : c ∉ k.readyList.tids) (hr : Unlocks i k c r) :
    r.kernel.InOrder := by
  have hres : (k.restore c).InOrder := by
    refine ⟨h.sorted.congr (by rw [readyList_restore]) fun t ht => ?_, fun t => h.saved_restore c⟩
    rw [readyList_restore] at ht
    rw [priority_restore, if_neg]
    rintro rfl
    exact hno ht
  cases hr with
  | leave hne => exact h
  | release hone hnil hb => exact hres
  | @handOff w queue b hone hcons hb => exact hres.wake w

end Kernel

namespace System

/-- The unlock, if the step is one, leaves the caller in its place on `READY_LIST`. -/
def KeepsRank (σ : System T) (a : Action T) : Prop :=
  match a with
  | .call (.unlock m) => (σ.mutexes m).recursiveCount = 1 →
      ∀ cr ∈ σ.kernel.crTid, σ.kernel.DropsInPlace cr (σ.mutexes m).waitQueue.front
  | _ => True

instance (σ : System T) : DecidablePred σ.KeepsRank
  | .call (.unlock _) => inferInstanceAs (Decidable (_ → _))
  | .call (.task _) | .call (.down _) | .call (.downTimeout _ _) | .call (.tryDown _) | .call (.up _)
  | .call (.lock _) | .call (.wait _ _) | .call (.notify _) | .call (.notifyAll _)
  | .call (.send _ _ _) | .call (.recv _ _)
  | .systick _ | .preempt | .upFromIsr _ | .proceed => isTrue trivial

theorem keepsRank_of (h : ∀ m, a ≠ .call (.unlock m)) : σ.KeepsRank a := by
  unfold KeepsRank
  split
  · exact absurd rfl (h _)
  · trivial

/-- Every step but an unlock keeps `READY_LIST` sorted. -/
theorem ranked_step (hq : σ.Queued) (h : σ.kernel.Ranked) (hs : LockStep σ a σ')
    (ha : ∀ m, a ≠ .call (.unlock m)) : σ'.kernel.Ranked := by
  obtain ⟨c, hc⟩ := hq.settled
  have ho := hc.onCpu
  cases hs with
  | tick hk => exact h.systickTrap hc hk
  | switch hk => exact h.toInOrder.yieldIf ho (by simp) hk
  | @task cr call _ hcr hpc hcall hs =>
      obtain ⟨⟨k, new⟩, he, rfl⟩ := Option.map_eq_some_iff.mp hs
      have hk := h.exec hc he
      cases new with
      | none => exact hk
      | some t => exact hk
  | sema hi hpc => exact h
  | @block cr s n k hcr hpc hk =>
      have hf := (frame_park σ.kernel cr).trans
        (frame_enqueue (σ.kernel.park cr) (σ.semas s).waitQueue cr)
      have hin : ((σ.kernel.park cr).enqueue (σ.semas s).waitQueue cr).1.InOrder :=
        (h.toInOrder.park cr).congr (List.Sublist.refl _) (fun _ => rfl) fun _ => rfl
      exact hin.yieldIf (ho.of_frame hf rfl) (by simp) hk
  | @up _ w s i b k hist ha hcons hk =>
      exact (h.toInOrder.wake w).yieldIf (ho.wake w) (fun _ => h.noneDue.wake w) hk
  | enter hcr hl hi => exact h
  | @contend _ cr o m k hcr hl howner hne hk =>
      have hrun := hq.running hcr
      set k₁ := σ.kernel.boost o (σ.kernel.priority cr) with hk₁
      have hf := (frame_park k₁ cr).trans
        (frame_enqueue (k₁.park cr) (σ.mutexes m).waitQueue cr)
      have hboost := (hrun.toCoherent.reorders_boost o (σ.kernel.priority cr)).onCpu hrun.onCpu
      have hpark : (k₁.park cr).InOrder :=
        (h.toInOrder.boost hrun hne (σ.kernel.priority cr)).park cr
      have hin : ((k₁.park cr).enqueue (σ.mutexes m).waitQueue cr).1.InOrder :=
        hpark.congr (List.Sublist.refl _) (fun _ => rfl) fun _ => rfl
      exact hin.yieldIf (hboost.of_frame hf rfl) (by simp) hk
  | resume hcr hpc => exact h
  | @unlock cr m r k hcr hpc hg hr hk => exact absurd rfl (ha m)
  | @wait cr c' m r pc k hcr hpc hg hr hnext hk =>
      have hrun := hq.running hcr
      have hf := (frame_enqueueBack σ.kernel (σ.condVars c') cr).trans (frame_park _ cr)
      have hback : (σ.kernel.enqueueBack (σ.condVars c') cr).1.InOrder :=
        h.toInOrder.congr (List.Sublist.refl _) (fun _ => rfl) fun _ => rfl
      have hno : cr ∉ ((σ.kernel.enqueueBack (σ.condVars c') cr).1.park cr).readyList.tids := by
        rw [park, readyRemove_readyList, remove_tids]
        exact hrun.ready_nodup.not_mem_erase
      have hin := (hback.park cr).unlock hno hr
      exact hin.yieldIf ((hrun.onCpu.of_frame hf rfl).unlock hr) (by simp) hk
  | condYield hcr hpc hk => exact h.toInOrder.yieldIf ho (by simp) hk
  | @notify cr w c' queue k hcr hpc hcons hk =>
      exact (h.toInOrder.wake w).yieldIf (ho.wake w) (by simp) hk
  | notifyNone hnil => exact h
  | @notifyAll cr c' k hcr hpc hk =>
      have hp : ∀ t ∈ (σ.condVars c').tids, σ.kernel.Parked t :=
        fun t ht => (hq.waits (.condVar c') t ht).2
      have ho' := (hc.toCoherent.writes_wakeAll (hq.nodup (.condVar c')) hp).onCpu c ho
      refine (h.toInOrder.wakeAll _).yieldIf ho' (fun hempty => ?_) hk
      have hnil : (σ.condVars c').tids = [] := by
        simpa [TaskList.isEmpty] using hempty
      show (σ.kernel.wakeAll (σ.condVars c').tids).NoneDue
      rw [hnil]
      exact h.noneDue

theorem ranked_unlock (hq : σ.Queued) (h : σ.kernel.Ranked) {m : ℕ}
    (hs : LockStep σ (.call (.unlock m)) σ') :
    (σ'.kernel.Sorted ↔ σ.KeepsRank (.call (.unlock m))) ∧
      (σ'.kernel.Sorted → σ'.kernel.Ranked) := by
  cases hs with
  | @unlock cr _ r k hcr hpc hg hr hk =>
      have hrun := hq.running hcr
      have hp : ∀ t ∈ (σ.mutexes m).waitQueue.tids, σ.kernel.Parked t :=
        fun t ht => (hq.waits (.mutex m) t ht).2
      refine ⟨(h.unlock_iff hrun hp hr hk).trans (forall_congr' fun _ => ?_), h.unlock hrun hr hk⟩
      rw [hcr]
      exact ⟨fun hd c hc => by cases hc; exact hd, fun hd => hd cr rfl⟩
  | sema hi hpc =>
      rcases hpc with ⟨hon, -⟩ | ⟨hne, -⟩
      · exact hon.elim
      · cases hne
  | up hon hcons hk => exact hon.elim
  | enter hcr hl hi => cases hl.call_eq
  | contend hcr hl howner hne hk => cases hl.call_eq

/-- **The order along a step.** -/
theorem ranked_iff (hq : σ.Queued) (h : σ.kernel.Ranked) (hs : LockStep σ a σ') :
    (σ.KeepsRank a → σ'.kernel.Ranked) ∧ (σ'.kernel.Sorted → σ.KeepsRank a) := by
  by_cases ha : ∃ m, a = .call (.unlock m)
  · obtain ⟨m, rfl⟩ := ha
    obtain ⟨hiff, hranked⟩ := ranked_unlock hq h hs
    exact ⟨fun hC => hranked (hiff.mpr hC), hiff.mp⟩
  · rw [not_exists] at ha
    exact ⟨fun _ => ranked_step hq h hs ha, fun _ => keepsRank_of ha⟩

end System

theorem Kernel.ranked_launchAfter {boots : List BootCall} {k : Kernel}
    (h : launchAfter boots = some k) : k.Ranked := by
  have hboot : boot.InOrder := by
    refine ⟨List.Pairwise.nil, fun t ht => absurd rfl ht⟩
  obtain ⟨k₀, first, -, hin, -, rfl⟩ := launchAfter_induct (P := Kernel.InOrder) hboot
    (fun k t k₁ p name hb hin ha => hin.addTask p name hb.toCoherent ha) h
  have hset : (k₀.setStatus first .running).InOrder := hin.setTcb rfl rfl
  refine ⟨hset.congr (List.Sublist.refl _) (fun _ => rfl) fun _ => rfl, fun t ht => ?_⟩
  rw [(settled_launchAfter h).2.2.2] at ht
  cases ht

/-- **When the most urgent task runs.**  In every run of locks, guard drops, condition variables,
semaphores, `Task` operations other than `terminate` and interrupts from a launch, `READY_LIST` is sorted
by the current priorities in all states, and no ready task is more urgent than the one that `next_tcb`
selects, exactly when every outermost unlock leaves the caller in its place on the list. -/
theorem highest_priority_runs {boots : List BootCall} {k : Kernel} {counts : ℕ → ℤ}
    {tr : List (System T × Action T)} (hl : launchAfter boots = some k)
    (hr : Run (System.step cap) (fun _ a => a.IsLock) (System.init k counts) tr σ) :
    Always (fun σ : System T => σ.kernel.HighestRuns) tr σ ↔ ∀ e ∈ tr, e.1.KeepsRank e.2 := by
  refine hr.forall_iff (I := fun σ => σ.Queued ∧ σ.kernel.Ranked)
    ⟨System.queued_init hl, ranked_launchAfter hl⟩ ?_ ?_ ?_
  · rintro σ ⟨hq, h⟩
    obtain ⟨c, hc⟩ := hq.settled
    exact h.sorted.highestRuns hc
  · rintro σ a σ' ⟨hq, h⟩ ha hs hC
    have hls := System.step_lock hq.pcs ha hs
    exact ⟨(hq.step hls).1, (System.ranked_iff hq h hls).1 hC⟩
  · rintro σ a σ' ⟨hq, h⟩ ha hs hP
    exact (System.ranked_iff hq h (System.step_lock hq.pcs ha hs)).2 hP.sorted

/-- A boosted task that has just been switched to unlocks; when the waiter sleeps again, the task between
the two priorities is selected. -/
theorem highest_priority_runs_run : ∃ k₀ tr, ∃ σ : System Unit,
    launchAfter [.create 5 "l", .create 4 "m", .create 3 "h"] = some k₀ ∧
      Run (System.step fun _ => 0) (fun _ a => a.IsLock) (System.init k₀ fun _ => 0) tr σ ∧
      σ.kernel.currentTcbPtr = some 1 ∧ σ.kernel.readyList.tids = [1, 0, 3] ∧
      Always (fun σ : System Unit => σ.kernel.HighestRuns) tr σ := by
  have hsome : (launchAfter [.create 5 "l", .create 4 "m", .create 3 "h"]).isSome = true := by
    decide +kernel
  obtain ⟨k₀, hk₀⟩ := Option.isSome_iff_exists.mp hsome
  have hexec : ((launchAfter [.create 5 "l", .create 4 "m", .create 3 "h"]).bind fun k₀ =>
      exec (System.step fun _ => 0) (fun (σ : System Unit) a => a.IsLock ∧ σ.KeepsRank a)
        (System.init k₀ fun _ => 0)
        [.call (.task (.delay 3)), .call (.task (.delay 3)), .call (.lock 0), .systick 2,
          .call (.lock 0), .call (.unlock 0), .proceed,
          .call (.unlock 0), .call (.task (.delay 9))]).any
            (fun σ => σ.kernel.currentTcbPtr = some 1 ∧ σ.kernel.readyList.tids = [1, 0, 3]) =
              true := by
    decide +kernel
  rw [hk₀, Option.bind_some] at hexec
  obtain ⟨tr, σ, hr, hσ⟩ := exists_run_of_exec (fun (σ : System Unit) (a : Action Unit)
    (h : decide (a.IsLock ∧ σ.KeepsRank a) = true) => of_decide_eq_true h) hexec
  obtain ⟨hcur, hlist⟩ := of_decide_eq_true hσ
  have hrun := hr.mono fun _ _ h => h.1
  exact ⟨k₀, tr, σ, hk₀, hrun, hcur, hlist,
    (highest_priority_runs hk₀ hrun).mpr fun e he => (hr.forall_guard e he).2⟩

/-- A boosted task that `next_tcb` has selected twice in a row is `Ready`, and its entry stays in front of
a more urgent task when it unlocks; when the waiter sleeps again, it is selected once more. -/
theorem lower_priority_runs : ∃ k₀ tr, ∃ σ : System Unit,
    launchAfter [.create 5 "l", .create 4 "m", .create 3 "h"] = some k₀ ∧
      Run (System.step fun _ => 0) (fun _ a => a.IsLock) (System.init k₀ fun _ => 0) tr σ ∧
      σ.kernel.currentTcbPtr = some 0 ∧ σ.kernel.priority 0 = 5 ∧
      σ.kernel.readyList.tids = [0, 1, 3] ∧ σ.kernel.priority 1 = 4 ∧
      ¬Always (fun σ : System Unit => σ.kernel.HighestRuns) tr σ := by
  have hsome : (launchAfter [.create 5 "l", .create 4 "m", .create 3 "h"]).isSome = true := by
    decide +kernel
  obtain ⟨k₀, hk₀⟩ := Option.isSome_iff_exists.mp hsome
  have hexec : ((launchAfter [.create 5 "l", .create 4 "m", .create 3 "h"]).bind fun k₀ =>
      exec (System.step fun _ => 0) (fun (_ : System Unit) a => a.IsLock)
        (System.init k₀ fun _ => 0)
        [.call (.task (.delay 3)), .call (.task (.delay 3)), .call (.lock 0), .systick 2,
          .call (.lock 0), .call (.task .yieldTask), .call (.unlock 0), .proceed,
          .call (.unlock 0), .call (.task (.delay 9))]).any
            (fun σ => σ.kernel.currentTcbPtr = some 0 ∧ σ.kernel.priority 0 = 5 ∧
              σ.kernel.readyList.tids = [0, 1, 3] ∧ σ.kernel.priority 1 = 4) = true := by
    decide +kernel
  rw [hk₀, Option.bind_some] at hexec
  obtain ⟨tr, σ, hr, hσ⟩ := exists_run_of_exec (fun (_ : System Unit) (a : Action Unit)
    (h : decide a.IsLock = true) => of_decide_eq_true h) hexec
  obtain ⟨hcur, hpri, hlist, hpri'⟩ := of_decide_eq_true hσ
  refine ⟨k₀, tr, σ, hk₀, hr, hcur, hpri, hlist, hpri', fun hall => ?_⟩
  have hs := hall.2.sorted
  rw [Sorted, hlist, List.pairwise_cons] at hs
  have hle := hs.1 1 (by simp)
  omega

end MosKernel
