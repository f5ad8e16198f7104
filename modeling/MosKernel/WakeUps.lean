import MosKernel.Coherence
import MosKernel.Ranking
import MosKernel.Lib.StableOrder
import Mathlib.Logic.Relation

/-!
# Which sleepers wake up

`wake_up_sleepers` walks over the list that it takes tasks out of.  `wakePass` is one pass of its loop, and
`passes_expire` says where the passes lead: the loop ends, and it has expired the tasks that were due, one
after the other in the order of `SLEEPING_LIST`.  What these expiries do to the kernel is then an induction
over the tasks.
-/

namespace MosKernel

open OrderedInsert TaskList Relation

namespace Kernel

variable {k : Kernel} {now : BitVec 32} {t u : Tid} {ts : List Tid}

/-- One pass of the loop of `wake_up_sleepers`, on its counter and the kernel; `none` where the loop ends. -/
def wakePass (now : BitVec 32) (s : ℕ × Kernel) : Option (ℕ × Kernel) :=
  s.2.sleepingList.tids[s.1]?.map fun tid =>
    if now ≥ (s.2.tcbs tid).wakePoint then (s.1, s.2.expire tid) else (s.1 + 1, s.2)

theorem wakeUpSleepersLoop_succ (now : BitVec 32) (fuel i : ℕ) (k : Kernel) :
    wakeUpSleepersLoop now (fuel + 1) i k =
      ((wakePass now (i, k)).map fun s => wakeUpSleepersLoop now fuel s.1 s.2).getD k := by
  rw [wakeUpSleepersLoop, wakePass]
  cases k.sleepingList.tids[i]? with
  | none => rfl
  | some tid =>
      dsimp only [Option.map_some, Option.getD_some]
      split_ifs <;> rfl

/-- The sleepers that are due, in the order of `SLEEPING_LIST`. -/
def due (k : Kernel) : List Tid :=
  k.sleepingList.tids.filter fun t => k.osTicks ≥ (k.tcbs t).wakePoint

/-! ### The loop -/

theorem expire_sleeping (k : Kernel) (t : Tid) :
    (k.expire t).sleepingList.tids = k.sleepingList.tids.erase t :=
  remove_tids k.sleepingList t

theorem expire_tcbs (k : Kernel) (t : Tid) : (k.expire t).tcbs =
    Function.update k.tcbs t { k.tcbs t with status := .ready, wakePoint := 0 } :=
  rfl

/-- A pass at the position of `t`: either `t` leaves the list and the counter stays, or the counter passes
it. -/
theorem wakePass_at {pre rest : List Tid} (hk : k.sleepingList.tids = pre ++ t :: rest) :
    wakePass now (pre.length, k) =
      some (if now ≥ (k.tcbs t).wakePoint then (pre.length, k.expire t) else (pre.length + 1, k)) := by
  have hget : k.sleepingList.tids[pre.length]? = some t := by
    rw [hk, List.getElem?_append_right (le_refl _), Nat.sub_self]
    rfl
  rw [wakePass, hget, Option.map_some]

theorem wakePass_end {pre : List Tid} (hk : k.sleepingList.tids = pre ++ []) :
    wakePass now (pre.length, k) = none := by
  rw [wakePass, hk, List.append_nil, List.getElem?_eq_none (le_refl _)]
  rfl

/-- An expiry leaves the wake points of the other tasks. -/
theorem filter_due_expire {rest : List Tid} (ht : t ∉ rest) :
    (rest.filter fun u => now ≥ ((k.expire t).tcbs u).wakePoint) =
      rest.filter fun u => now ≥ (k.tcbs u).wakePoint := by
  refine List.filter_congr fun u hu => ?_
  have hut : u ≠ t := by
    rintro rfl
    exact ht hu
  rw [expire_tcbs, Function.update_of_ne hut]

/-- From a counter behind sleepers that are not due, the passes expire the ones in front that are, until the
loop ends; and so does the loop with enough fuel. -/
theorem passes_expire (now : BitVec 32) (pre rest : List Tid) (hn : (pre ++ rest).Nodup)
    (hk : k.sleepingList.tids = pre ++ rest) {fuel : ℕ} (hfuel : rest.length ≤ fuel) :
    let k' := (rest.filter fun t => now ≥ (k.tcbs t).wakePoint).foldl expire k
    wakeUpSleepersLoop now fuel pre.length k = k' ∧
      ∃ i, ReflTransGen (fun s s' => wakePass now s = some s') (pre.length, k) (i, k') ∧
        wakePass now (i, k') = none := by
  induction rest generalizing pre k fuel with
  | nil =>
      have hend : wakePass now (pre.length, k) = none := wakePass_end hk
      refine ⟨?_, pre.length, .refl, hend⟩
      cases fuel with
      | zero => rfl
      | succ fuel => rw [wakeUpSleepersLoop_succ, hend]; rfl
  | cons t rest ih =>
      obtain ⟨fuel, rfl⟩ : ∃ n, fuel = n + 1 := ⟨fuel - 1, by rw [List.length_cons] at hfuel; omega⟩
      have hfuel' : rest.length ≤ fuel := Nat.le_of_succ_le_succ hfuel
      have hpass : wakePass now (pre.length, k) = _ := wakePass_at hk
      rw [wakeUpSleepersLoop_succ, hpass]
      by_cases hdue : now ≥ (k.tcbs t).wakePoint
      · -- `t` leaves the list, and the next sleeper is at the same counter
        obtain ⟨hnot, hn'⟩ := List.nodup_cons.mp (List.nodup_middle.mp hn)
        rw [List.mem_append, not_or] at hnot
        have hlist : (k.expire t).sleepingList.tids = pre ++ rest := by
          rw [expire_sleeping, hk, List.erase_append_right _ hnot.1, List.erase_cons_head]
        obtain ⟨hloop, i, hsteps, hend⟩ := ih pre hn' hlist hfuel'
        rw [filter_due_expire hnot.2] at hloop hsteps hend
        rw [if_pos hdue] at hpass ⊢
        rw [List.filter_cons, if_pos (decide_eq_true hdue)]
        exact ⟨hloop, i, .head hpass hsteps, hend⟩
      · -- `t` stays behind the counter
        rw [List.append_cons] at hn hk
        obtain ⟨hloop, i, hsteps, hend⟩ := ih (pre ++ [t]) hn hk hfuel'
        rw [List.length_append] at hloop hsteps
        rw [if_neg hdue] at hpass ⊢
        rw [List.filter_cons, if_neg (fun h => hdue (of_decide_eq_true h))]
        exact ⟨hloop, i, .head hpass hsteps, hend⟩

/-- **`wake_up_sleepers` expires the tasks that are due, in their order.** -/
theorem wakeUpSleepers_eq (hn : k.sleepingList.tids.Nodup) : k.wakeUpSleepers = k.due.foldl expire k :=
  (passes_expire k.osTicks [] k.sleepingList.tids hn rfl (le_refl _)).1

/-! ### The expiries -/

theorem priority_expire (k : Kernel) (t : Tid) : (k.expire t).priority = k.priority := by
  funext u
  rw [priority, expire_tcbs, Function.update_apply]
  split_ifs with hu
  · rw [hu]
    rfl
  · rfl

/-- Where there is room, the expired task goes into `READY_LIST` by its priority, no `Err` is thrown away,
and there is room for the others. -/
theorem expire_ready (hroom : k.readyList.tids.length + (t :: ts).length ≤ taskMax) :
    (k.expire t).readyList.tids = insertByKey k.priority t k.readyList.tids ∧ (k.expire t).lost = k.lost ∧
      (k.expire t).readyList.tids.length + ts.length ≤ taskMax := by
  rw [List.length_cons] at hroom
  obtain ⟨htids, herr⟩ := insertInOrder_of_lt (l := k.readyList) (t := t) (p := (k.expire t).isBefore t)
    (by omega)
  have hbefore : (k.expire t).isBefore t = fun u => decide (k.priority t < k.priority u) := by
    funext u
    rw [isBefore, priority_expire]
  have hready : (k.expire t).readyList.tids = insertByKey k.priority t k.readyList.tids :=
    htids.trans (by rw [hbefore])
  refine ⟨hready, congrArg (k.lost + ·) herr, ?_⟩
  rw [hready, length_insertBefore]
  omega

theorem foldl_expire_sleeping (ts : List Tid) (k : Kernel) :
    (ts.foldl expire k).sleepingList.tids = k.sleepingList.tids.diff ts := by
  induction ts generalizing k with
  | nil => rfl
  | cons t ts ih => rw [List.foldl_cons, ih, expire_sleeping, List.diff_cons]

theorem foldl_expire_ready (ts : List Tid) (k : Kernel)
    (hroom : k.readyList.tids.length + ts.length ≤ taskMax) :
    (ts.foldl expire k).readyList.tids =
      ts.foldl (fun l t => insertByKey k.priority t l) k.readyList.tids := by
  induction ts generalizing k with
  | nil => rfl
  | cons t ts ih =>
      obtain ⟨hready, -, hroom'⟩ := expire_ready hroom
      rw [List.foldl_cons, ih _ hroom', priority_expire, hready, List.foldl_cons]

/-- The control blocks of the expired tasks change in two fields; nothing else outside the lists changes. -/
theorem foldl_expire_eq (ts : List Tid) (k : Kernel)
    (hroom : k.readyList.tids.length + ts.length ≤ taskMax) :
    ts.foldl expire k = { k with
      sleepingList := (ts.foldl expire k).sleepingList
      readyList := (ts.foldl expire k).readyList
      tcbs := fun t => if t ∈ ts then { k.tcbs t with status := .ready, wakePoint := 0 } else k.tcbs t } := by
  induction ts generalizing k with
  | nil => rfl
  | cons t ts ih =>
      obtain ⟨-, hlost, hroom'⟩ := expire_ready hroom
      have htcbs : (fun u => if u ∈ ts then { (k.expire t).tcbs u with status := .ready, wakePoint := 0 }
            else (k.expire t).tcbs u) =
          fun u => if u ∈ t :: ts then { k.tcbs u with status := .ready, wakePoint := 0 } else k.tcbs u := by
        funext u
        rw [expire_tcbs, Function.update_apply]
        by_cases hu : u = t
        · subst hu
          rw [if_pos rfl, if_pos List.mem_cons_self, ite_self]
        · simp only [List.mem_cons, hu, if_false, false_or]
      refine (ih _ hroom').trans ?_
      rw [htcbs, hlost]
      rfl

/-! ### The whole pass over `SLEEPING_LIST` -/

/-- What is not due stays, in its order. -/
theorem wakeUpSleepers_sleeping (hn : k.sleepingList.tids.Nodup) : k.wakeUpSleepers.sleepingList.tids =
    k.sleepingList.tids.filter fun t => k.osTicks < (k.tcbs t).wakePoint := by
  rw [wakeUpSleepers_eq hn, foldl_expire_sleeping, hn.sdiff_eq_filter]
  refine List.filter_congr fun t ht => ?_
  rw [decide_eq_decide, due, List.mem_filter, decide_eq_true_iff]
  constructor
  · exact fun h => BitVec.not_le.mp fun hle => h ⟨ht, hle⟩
  · exact fun h hmem => BitVec.not_le.mpr h hmem.2

/-- **`wake_up_sleepers` expires exactly the tasks that are due.** -/
theorem wake_up_sleepers_expires_the_due (k : Kernel) (hn : k.sleepingList.tids.Nodup)
    (hapart : ∀ t ∈ k.sleepingList.tids, t ∉ k.readyList.tids) (hsorted : k.Sorted)
    (hroom : k.readyList.len + k.due.length ≤ taskMax) :
    let k' := k.wakeUpSleepers
    (∃ i, ReflTransGen (fun s s' => wakePass k.osTicks s = some s') (0, k) (i, k') ∧
        wakePass k.osTicks (i, k') = none) ∧
      k'.sleepingList.tids = (k.sleepingList.tids.filter fun t => k.osTicks < (k.tcbs t).wakePoint) ∧
      (∀ t ∈ k.sleepingList.tids, k.osTicks ≥ (k.tcbs t).wakePoint →
        k'.status t = .ready ∧ (k'.tcbs t).wakePoint = 0 ∧ k'.readyList.tids.count t = 1) ∧
      k'.Sorted ∧ k.readyList.tids.Sublist k'.readyList.tids ∧
      (∀ q, (k'.readyList.tids.filter fun t => k.priority t = q) =
        (k.readyList.tids ++ k.due).filter fun t => k.priority t = q) ∧
      k' = { k with
        sleepingList := k'.sleepingList
        readyList := k'.readyList
        tcbs := fun t =>
          if t ∈ k.due then { k.tcbs t with status := .ready, wakePoint := 0 } else k.tcbs t } := by
  intro k'
  have heq : k' = k.due.foldl expire k := wakeUpSleepers_eq hn
  have hkernel := foldl_expire_eq k.due k hroom
  rw [← heq] at hkernel
  have hpriority : k'.priority = k.priority := by
    funext t
    rw [priority, hkernel]
    dsimp only
    split_ifs <;> rfl
  have hready : k'.readyList.tids =
      k.due.foldl (fun l t => insertByKey k.priority t l) k.readyList.tids := by
    rw [heq]
    exact foldl_expire_ready k.due k hroom
  have hstable : StableSorted k.priority (k.readyList.tids ++ k.due) k'.readyList.tids := by
    rw [hready]
    exact (stableSorted_self hsorted).insertAll k.due
  refine ⟨?_, wakeUpSleepers_sleeping hn, ?_, ?_, ?_, hstable.stable, hkernel⟩
  · rw [heq]
    exact (passes_expire k.osTicks [] k.sleepingList.tids hn rfl (le_refl _)).2
  · intro t ht hdue
    have hmem : t ∈ k.due := List.mem_filter.mpr ⟨ht, decide_eq_true hdue⟩
    have htcb : k'.tcbs t = { k.tcbs t with status := .ready, wakePoint := 0 } := by
      rw [hkernel]
      exact if_pos hmem
    have hcount : k'.readyList.tids.count t = 1 := by
      rw [hstable.perm.count_eq, List.count_append, List.count_eq_zero.mpr (hapart t ht),
        List.count_eq_one_of_mem (show k.due.Nodup from hn.filter _) hmem]
    exact ⟨congrArg Tcb.status htcb, congrArg Tcb.wakePoint htcb, hcount⟩
  · rw [Sorted, hpriority]
    exact hstable.sorted
  · rw [hready]
    exact sublist_foldl_insertByKey k.priority k.due k.readyList.tids

/-- Two sleepers next to each other are due, in front of one that is not and behind another. -/
theorem wake_up_sleepers_expires_the_due_run : ∃ k : Kernel, k.sleepingList.tids = [5, 2, 1, 6] ∧
    k.wakeUpSleepers.sleepingList.tids = [5, 6] ∧
    (k.wakeUpSleepers.readyList.tids.filter fun t => k.priority t = 3) = [0, 4, 2, 1] := by
  have h := wake_up_sleepers_expires_the_due
    { boot with
      tcbs := fun t => { Tcb.empty t with status := .blocked, priority := 3, wakePoint := BitVec.ofNat 32 t }
      readyList := ⟨[0, 4], by decide⟩
      sleepingList := ⟨[5, 2, 1, 6], by decide⟩
      osTicks := 3 }
    (by decide) (by simp) (by simp [Sorted, priority]) (by decide)
  exact ⟨_, rfl, h.2.1, h.2.2.2.2.2.1 3⟩

end Kernel

end MosKernel
