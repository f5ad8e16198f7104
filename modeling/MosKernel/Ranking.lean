import MosKernel.LockSpec

/-!
# The order of `READY_LIST`

`InOrder k` says that `READY_LIST` is sorted by the current priorities and that a saved priority is lower
than the current one; `Ranked k` adds that no sleeper is due.  Insertions are ordered and removals keep
the order, so every primitive keeps `InOrder`; `next_tcb` turns it into `Ranked` and leaves the front of
the list running.
-/

namespace MosKernel

open OrderedInsert TaskList

namespace Kernel

variable {k k₁ k' : Kernel} {c o t u w : Tid} {b : Bool}

/-- `READY_LIST` is sorted by the current priorities. -/
def Sorted (k : Kernel) : Prop :=
  k.readyList.tids.Pairwise fun t u => k.priority t ≤ k.priority u

/-- No sleeper is due. -/
def NoneDue (k : Kernel) : Prop :=
  ∀ t ∈ k.sleepingList.tids, k.osTicks < (k.tcbs t).wakePoint

/-- The list is sorted, and boosts are boosts. -/
structure InOrder (k : Kernel) : Prop where
  sorted : k.Sorted
  saved : ∀ t, (k.tcbs t).subPriority ≠ priInv → k.priority t < (k.tcbs t).subPriority

/-- The order between critical sections. -/
structure Ranked (k : Kernel) : Prop extends InOrder k where
  noneDue : k.NoneDue

/-! ### Sleepers -/

theorem NoneDue.congr (h : k.NoneDue) (hs : k₁.sleepingList = k.sleepingList)
    (ho : k₁.osTicks = k.osTicks)
    (hw : ∀ t ∈ k.sleepingList.tids, (k₁.tcbs t).wakePoint = (k.tcbs t).wakePoint) :
    k₁.NoneDue := by
  intro t ht
  rw [hs] at ht
  rw [ho, hw t ht]
  exact h t ht

theorem NoneDue.setTcb {f : Tcb → Tcb} (h : k.NoneDue)
    (hf : (f (k.tcbs t)).wakePoint = (k.tcbs t).wakePoint) : (k.setTcb t f).NoneDue := by
  refine h.congr rfl rfl fun u _ => ?_
  rw [setTcb_tcbs, Function.update_apply]
  split_ifs with hu
  · rw [hu]
    exact hf
  · rfl

theorem NoneDue.wake (h : k.NoneDue) (w : Tid) : (k.wake w).NoneDue :=
  (h.setTcb (t := w) (f := fun tcb => { tcb with status := .ready }) rfl).congr rfl rfl
    fun _ _ => rfl

theorem NoneDue.restore (h : k.NoneDue) (c : Tid) : (k.restore c).NoneDue := by
  unfold Kernel.restore
  split_ifs
  · exact h.setTcb rfl
  · exact h

/-- With nobody due the loop passes over the whole list. -/
theorem NoneDue.wakeUpSleepers (h : k.NoneDue) : k.wakeUpSleepers = k := by
  have hloop : ∀ fuel i, wakeUpSleepersLoop k.osTicks fuel i k = k := by
    intro fuel
    induction fuel with
    | zero => exact fun _ => rfl
    | succ fuel ih =>
        intro i
        unfold wakeUpSleepersLoop
        split
        · rfl
        · rename_i t ht
          rw [if_neg (BitVec.not_le.mpr (h t (List.mem_of_getElem? ht)))]
          exact ih (i + 1)
  exact hloop _ _

theorem osTicks_wakeUpSleepers (k : Kernel) : k.wakeUpSleepers.osTicks = k.osTicks :=
  wakeUpSleepers_induct (P := fun k' => k'.osTicks = k.osTicks) rfl fun _ _ h _ _ => h

theorem NoneDue.requeue (h : k.NoneDue) (c : Tid) : (k.requeue c).NoneDue := by
  unfold Kernel.requeue
  split_ifs
  · exact h
  · exact (h.setTcb (t := c) (f := fun tcb =>
      { tcb with timeSlice := MosKernel.timeSlice, status := .ready }) rfl).congr rfl rfl
        fun _ _ => rfl
  · exact h

theorem NoneDue.switchTo (h : k.NoneDue) (c t : Tid) : (k.switchTo c t).NoneDue := by
  have hset : ∀ (k : Kernel) (u : Tid) (st : TaskStatus), k.NoneDue → (k.setStatus u st).NoneDue :=
    fun k u st h => h.setTcb rfl
  unfold Kernel.switchTo
  dsimp only
  split_ifs
  · exact (hset _ t .running (hset _ c .ready h)).congr rfl rfl fun _ _ => rfl
  · exact (hset _ t .running h).congr rfl rfl fun _ _ => rfl
  · exact h

/-- **After `next_tcb` no sleeper is due.** -/
theorem noneDue_nextTcb (ho : k.OnCpu c) (hk : k.nextTcb = some k') : k'.NoneDue := by
  obtain ⟨st, -, rfl⟩ := nextTcb_eq_some ho hk
  have hdone : k.wakeUpSleepers.NoneDue := by
    intro t ht
    rw [osTicks_wakeUpSleepers]
    exact wakeUpSleepers_done k t ht
  exact (hdone.requeue c).switchTo c st

/-! ### Ready tasks -/

/-- Entries are removed, and the priorities of the others stay. -/
theorem Sorted.congr (h : k.Sorted) (hl : k₁.readyList.tids.Sublist k.readyList.tids)
    (hp : ∀ t ∈ k₁.readyList.tids, k₁.priority t = k.priority t) : k₁.Sorted := by
  refine (List.Pairwise.sublist hl h).imp_of_mem fun {t u} ht hu hle => ?_
  rw [hp t ht, hp u hu]
  exact hle

theorem sorted_readyInsert : (k.readyInsert t).Sorted ↔ k.Sorted := by
  rcases lt_or_eq_of_le k.readyList.le_cap with hl | hl
  · have hlist : (k.readyInsert t).readyList.tids = insertBefore (k.isBefore t) t k.readyList.tids :=
      (insertInOrder_of_lt hl).1
    rw [Sorted, hlist]
    exact pairwise_insertBefore_iff
  · have hlist : (k.readyInsert t).readyList = k.readyList := (insertInOrder_of_full hl).1
    rw [Sorted, hlist]
    exact Iff.rfl

namespace InOrder

theorem congr (h : k.InOrder) (hl : k₁.readyList.tids.Sublist k.readyList.tids)
    (hp : ∀ t, k₁.priority t = k.priority t)
    (hs : ∀ t, (k₁.tcbs t).subPriority = (k.tcbs t).subPriority) : k₁.InOrder :=
  ⟨h.sorted.congr hl fun t _ => hp t, fun t ht => by rw [hp, hs] at *; exact h.saved t ht⟩

/-- Scheduling writes. -/
theorem of_frame (h : k.InOrder) (hf : Frame k k₁)
    (hl : k₁.readyList.tids.Sublist k.readyList.tids) : k₁.InOrder :=
  h.congr hl hf.priority hf.subPriority

theorem readyInsert (h : k.InOrder) (t : Tid) : (k.readyInsert t).InOrder :=
  ⟨sorted_readyInsert.mpr h.sorted, h.saved⟩

theorem setTcb {f : Tcb → Tcb} (h : k.InOrder)
    (hp : (f (k.tcbs t)).priority = (k.tcbs t).priority)
    (hs : (f (k.tcbs t)).subPriority = (k.tcbs t).subPriority) : (k.setTcb t f).InOrder := by
  refine h.congr (List.Sublist.refl _) (fun u => ?_) fun u => ?_
  · rw [priority_setTcb]
    split_ifs with hu
    · rw [hu]
      exact hp
    · rfl
  · rw [setTcb_tcbs, Function.update_apply]
    split_ifs with hu
    · rw [hu]
      exact hs
    · rfl

theorem readyRemove (h : k.InOrder) (t : Tid) : (k.readyRemove t).InOrder := by
  refine h.congr ?_ (fun _ => rfl) fun _ => rfl
  rw [readyRemove_readyList, remove_tids]
  exact List.erase_sublist

theorem park (h : k.InOrder) (t : Tid) : (k.park t).InOrder :=
  InOrder.readyRemove (k := k.setStatus t .blocked) (h.setTcb rfl rfl) t

theorem wake (h : k.InOrder) (t : Tid) : (k.wake t).InOrder :=
  InOrder.readyInsert (k := k.setStatus t .ready) (h.setTcb rfl rfl) t

theorem wakeAll (h : k.InOrder) (ts : List Tid) : (k.wakeAll ts).InOrder := by
  induction ts generalizing k with
  | nil => exact h
  | cons t ts ih => exact ih (h.wake t)

/-- A write of a task that is not on `READY_LIST`. -/
theorem setTcb_of_not_mem {f : Tcb → Tcb} (h : k.InOrder) (ht : t ∉ k.readyList.tids)
    (hs : (f (k.tcbs t)).subPriority ≠ priInv →
      (f (k.tcbs t)).priority < (f (k.tcbs t)).subPriority) : (k.setTcb t f).InOrder := by
  refine ⟨h.sorted.congr (List.Sublist.refl _) fun u hu => ?_, fun u hu => ?_⟩
  · rw [priority_setTcb, if_neg]
    rintro rfl
    exact ht hu
  · rw [setTcb_tcbs, Function.update_apply] at hu
    rw [priority_setTcb, setTcb_tcbs, Function.update_apply]
    split_ifs at hu ⊢ with hut
    · exact hs hu
    · exact h.saved u hu

/-- A ready owner that is raised is put in its new place. -/
theorem boost (h : k.InOrder) (hc : k.Settled c) (hoc : o ≠ c) (pri : ℕ) :
    (k.boost o pri).InOrder := by
  rcases lt_or_ge pri (k.priority o) with hlt | hge
  · have hsaved : (raised pri (k.tcbs o)).subPriority ≠ priInv →
        (raised pri (k.tcbs o)).priority < (raised pri (k.tcbs o)).subPriority := by
      intro hne
      show pri < if (k.tcbs o).subPriority = priInv then (k.tcbs o).priority
        else (k.tcbs o).subPriority
      split_ifs with hsub
      · exact hlt
      · exact hlt.trans (h.saved o hsub)
    rw [boost_of_lt hlt]
    split_ifs with hst
    · have hno : o ∉ (k.readyRemove o).readyList.tids := by
        rw [readyRemove_readyList, remove_tids]
        exact hc.ready_nodup.not_mem_erase
      exact ((h.readyRemove o).setTcb_of_not_mem hno hsaved).readyInsert o
    · refine h.setTcb_of_not_mem (fun hm => ?_) hsaved
      rcases (hc.mem_ready o).mp hm with hready | hrun
      · exact hst hready
      · have hcur := hc.running o hrun
        rw [hc.current] at hcur
        cases hcur
        exact hoc rfl
  · rw [boost_of_le hge]
    exact h

/-- The running task drops to its base priority. -/
theorem saved_restore (h : k.InOrder) (c : Tid)
    (ht : ((k.restore c).tcbs t).subPriority ≠ priInv) :
    (k.restore c).priority t < ((k.restore c).tcbs t).subPriority := by
  unfold Kernel.restore at ht ⊢
  split_ifs at ht ⊢ with hsub
  · rw [setTcb_tcbs, Function.update_apply] at ht ⊢
    rw [priority_setTcb]
    split_ifs at ht ⊢ with htc
    · exact absurd rfl ht
    · exact h.saved t ht
  · exact h.saved t ht

/-! ### Scheduling -/

theorem expire (h : k.InOrder) (t : Tid) : (k.expire t).InOrder := by
  have hrem : (k.sleepingRemove t).InOrder :=
    h.congr (List.Sublist.refl _) (fun _ => rfl) fun _ => rfl
  exact InOrder.readyInsert (k := (k.sleepingRemove t).setTcb t fun tcb =>
    { tcb with status := .ready, wakePoint := 0 }) (hrem.setTcb rfl rfl) t

theorem requeue (h : k.InOrder) (c : Tid) : (k.requeue c).InOrder := by
  unfold Kernel.requeue
  split_ifs
  · exact h.readyRemove c
  · exact ((h.setTcb rfl rfl).readyRemove c).readyInsert c
  · exact h

theorem switchTo (h : k.InOrder) (c t : Tid) : (k.switchTo c t).InOrder := by
  refine h.of_frame (frame_switchTo k c t) ?_
  rw [readyList_switchTo]

/-- **`next_tcb` keeps the order, whoever was due.** -/
theorem nextTcb (h : k.InOrder) (ho : k.OnCpu c) (hk : k.nextTcb = some k') : k'.Ranked := by
  refine ⟨?_, noneDue_nextTcb ho hk⟩
  obtain ⟨st, -, rfl⟩ := nextTcb_eq_some ho hk
  have hw : k.wakeUpSleepers.InOrder := wakeUpSleepers_induct h fun _ t h _ _ => h.expire t
  exact (hw.requeue c).switchTo c st

theorem yieldTask (h : k.InOrder) (ho : k.OnCpu c) (hk : k.yieldTask = some k') : k'.Ranked := by
  rw [Kernel.yieldTask, if_pos ho.ready] at hk
  exact h.nextTcb ho hk

theorem yieldIf (h : k.InOrder) (ho : k.OnCpu c) (hdue : b = false → k.NoneDue)
    (hk : k.yieldIf b = some k') : k'.Ranked := by
  unfold Kernel.yieldIf at hk
  cases b with
  | false =>
      cases hk
      exact ⟨h, hdue rfl⟩
  | true => exact h.yieldTask ho hk

end InOrder

/-- **After `next_tcb` the front of `READY_LIST` runs.** -/
theorem front_of_nextTcb (hk : k₁.nextTcb = some k) (hc : k.Settled c) :
    k.readyList.front = some c := by
  obtain ⟨cr, hcr, hk⟩ := Option.bind_eq_some_iff.mp hk
  obtain ⟨st, hst, rfl⟩ := Option.map_eq_some_iff.mp hk
  rw [readyList_switchTo, hst]
  by_cases hne : st = cr
  · -- the running task goes on, and its control block is the one the pointer shows
    subst hne
    have hsame : (k₁.wakeUpSleepers.requeue st).switchTo st st =
        k₁.wakeUpSleepers.requeue st := if_neg (not_not.mpr rfl)
    rw [hsame] at hc
    obtain ⟨p, hp, htid⟩ := Option.map_eq_some_iff.mp hcr
    have hcur : (k₁.wakeUpSleepers.requeue st).currentTcbPtr = some p := by
      unfold requeue
      split_ifs <;> exact hp
    rw [hc.current] at hcur
    cases hcur
    rw [← (frame_requeue _ st).tid c, hc.onCpu.tid] at htid
    rw [htid]
  · have hcur : ((k₁.wakeUpSleepers.requeue cr).switchTo cr st).currentTcbPtr = some st := by
      unfold switchTo
      rw [if_pos hne]
      rfl
    rw [← hcur, hc.current]

/-- The front of a sorted list is minimal. -/
theorem Sorted.front_le (h : k.Sorted) (hc : k.readyList.front = some c)
    (ht : t ∈ k.readyList.tids) : k.priority c ≤ k.priority t := by
  obtain ⟨rest, hrest⟩ := List.head?_eq_some_iff.mp hc
  rw [Sorted, hrest, List.pairwise_cons] at h
  rw [hrest] at ht
  rcases List.mem_cons.mp ht with rfl | ht
  · exact le_rfl
  · exact h.1 t ht

/-! ### Task operations -/

theorem InOrder.addTask (p : ℕ) (name : String) (h : k.InOrder) (hc : k.Coherent)
    (ha : k.allocTid = some (t, k₁)) : (k₁.addTask t p name).InOrder := by
  have hdead := (hc.added p name ha).fresh
  have hno : t ∉ k.readyList.tids := by
    rw [hc.mem_ready, hdead]
    simp
  obtain ⟨-, rfl⟩ := allocTid_eq_some ha
  have hempty : (k.setTcb t fun _ => .empty t).InOrder :=
    h.setTcb_of_not_mem hno fun hne => absurd rfl hne
  set k₁ : Kernel := { k with
    tidBitmap := k.tidBitmap ||| (1#32 <<< t.val)
    tcbs := Function.update k.tcbs t (.empty t) } with hk₁
  have halloc : k₁.InOrder :=
    hempty.congr (List.Sublist.refl _) (fun _ => rfl) fun _ => rfl
  have hset := halloc.setTcb_of_not_mem (t := t) (f := fun tcb =>
    { tcb with status := .ready, priority := p, timeSlice := MosKernel.timeSlice, name := name })
    hno fun hne => absurd (by simp [hk₁, Tcb.empty]) hne
  exact hset.readyInsert t

theorem NoneDue.addTask (p : ℕ) (name : String) (h : k.NoneDue) (hc : k.Coherent)
    (ha : k.allocTid = some (t, k₁)) : (k₁.addTask t p name).NoneDue := by
  have hadd := hc.added p name ha
  have hsame : (k₁.addTask t p name).sleepingList = k.sleepingList ∧
      (k₁.addTask t p name).osTicks = k.osTicks := by
    obtain ⟨-, rfl⟩ := allocTid_eq_some ha
    exact ⟨rfl, rfl⟩
  refine h.congr hsame.1 hsame.2 fun u hu => ?_
  rw [hadd.tcbs]
  rintro rfl
  have hdead := hadd.fresh
  rw [hc.of_mem_sleeping u hu] at hdead
  cases hdead

namespace Ranked

theorem create {p : ℕ} {name : String} {r : Except String Tid} (h : k.Ranked) (hc : k.Settled c)
    (hk : k.create p name = some (k', r)) : k'.Ranked := by
  unfold Kernel.create at hk
  split at hk
  · cases hk
    exact h
  · rename_i t k₁ hal
    have ha := hc.toCoherent.added p name hal
    have hin := h.toInOrder.addTask p name hc.toCoherent hal
    have hdue := h.noneDue.addTask p name hc.toCoherent hal
    simp only [ha.schedReady, ha.currentTcbPtr, hc.ready, hc.current] at hk
    obtain ⟨k₂, hk₂, he⟩ := Option.map_eq_some_iff.mp hk
    cases he
    split_ifs at hk₂
    · exact hin.yieldTask (ha.settled hc).onCpu hk₂
    · cases hk₂
      exact ⟨hin, hdue⟩

theorem createRaw {p size : ℕ} {name : String} {r : Except String Tid} (h : k.Ranked)
    (hc : k.Settled c) (hk : k.createRaw p name size = some (k', r)) : k'.Ranked := by
  unfold Kernel.createRaw at hk
  split at hk
  · cases hk
    exact h
  · rename_i t k₁ hal
    dsimp only at hk
    split at hk
    · cases hk
      exact ⟨h.toInOrder.addTask p name hc.toCoherent hal,
        h.noneDue.addTask p name hc.toCoherent hal⟩
    · cases hk

/-- Exit and termination. -/
theorem discard (h : k.Ranked) (ho : k.OnCpu c) (hk : (k.discard t).yieldTask = some k') :
    k'.Ranked := by
  have hrem := h.toInOrder.readyRemove t
  have hdis : (k.discard t).InOrder := by
    have hset := hrem.setTcb (t := t) (f := fun tcb => { tcb with status := .terminated }) rfl rfl
    exact hset.congr (List.Sublist.refl _) (fun _ => rfl) fun _ => rfl
  exact hdis.yieldTask (onCpu_discard ho t) hk

theorem block (h : k.Ranked) (ho : k.OnCpu c) (hk : k.block t = some k') : k'.Ranked := by
  have hpark : ((k.park t).blockedPush t).InOrder :=
    (h.toInOrder.park t).congr (List.Sublist.refl _) (fun _ => rfl) fun _ => rfl
  have ho' : ((k.park t).blockedPush t).OnCpu c :=
    ho.of_frame ((frame_park k t).trans (frame_blockedPush (k.park t) t)) rfl
  unfold Kernel.block at hk
  split at hk
  · exact hpark.yieldTask ho' hk
  · exact hpark.yieldTask ho' hk
  · cases hk
    exact h

theorem resume (h : k.Ranked) (ho : k.OnCpu c) (hk : k.resume t = some k') : k'.Ranked := by
  have hrem : (k.blockedRemove t).Ranked :=
    ⟨h.toInOrder.congr (List.Sublist.refl _) (fun _ => rfl) fun _ => rfl,
      h.noneDue.congr rfl rfl fun _ _ => rfl⟩
  have hf := (frame_blockedRemove k t).trans (frame_wake (k.blockedRemove t) t)
  have ho' : ((k.blockedRemove t).wake t).OnCpu c := ho.of_frame hf rfl
  have hin := hrem.toInOrder.wake t
  unfold Kernel.resume at hk
  split_ifs at hk
  · cases hk
    exact h
  · dsimp only at hk
    rw [ho'.current] at hk
    dsimp only at hk
    split_ifs at hk
    · exact hin.yieldTask ho' hk
    · cases hk
      exact ⟨hin, hrem.noneDue.wake t⟩
  · cases hk
    exact h

theorem delay {ticks : BitVec 32} (h : k.Ranked) (ho : k.OnCpu c)
    (hk : k.delay ticks = some k') : k'.Ranked := by
  have hset : (k.setTcb c fun tcb => { tcb with wakePoint := k.osTicks + ticks }).InOrder :=
    h.toInOrder.setTcb rfl rfl
  have hsleep : (k.sleep c ticks).InOrder :=
    (hset.park c).congr (List.Sublist.refl _) (fun _ => rfl) fun _ => rfl
  unfold Kernel.delay at hk
  split_ifs at hk
  · cases hk
    exact h
  · rw [ho.crTid] at hk
    exact hsleep.yieldTask (ho.of_frame (frame_sleep k c ticks) rfl) hk

/-- **The order along a `Task` operation.** -/
theorem exec {call : TaskCall} {r : Option Tid} (h : k.Ranked) (hc : k.Settled c)
    (he : call.exec k = some (k', r)) : k'.Ranked := by
  have ho := hc.onCpu
  cases call with
  | create p name =>
      obtain ⟨⟨k₁, r₁⟩, hk, he⟩ := Option.map_eq_some_iff.mp he
      cases he
      exact h.create hc hk
  | createRaw p name size =>
      obtain ⟨⟨k₁, r₁⟩, hk, he⟩ := Option.map_eq_some_iff.mp he
      cases he
      exact h.createRaw hc hk
  | exitCurrent =>
      obtain ⟨k₁, hk, he⟩ := Option.map_eq_some_iff.mp he
      cases he
      rw [exitCurrent_eq hc] at hk
      exact h.discard ho hk
  | block t =>
      obtain ⟨k₁, hk, he⟩ := Option.map_eq_some_iff.mp he
      cases he
      exact h.block ho hk
  | resume t =>
      obtain ⟨k₁, hk, he⟩ := Option.map_eq_some_iff.mp he
      cases he
      exact h.resume ho hk
  | terminate t =>
      obtain ⟨k₁, hk, he⟩ := Option.map_eq_some_iff.mp he
      cases he
      unfold Kernel.terminate at hk
      split_ifs at hk
      · cases hk
        exact h
      · exact h.discard ho hk
  | delay ticks =>
      obtain ⟨k₁, hk, he⟩ := Option.map_eq_some_iff.mp he
      cases he
      exact h.delay ho hk
  | yieldTask =>
      obtain ⟨k₁, hk, he⟩ := Option.map_eq_some_iff.mp he
      cases he
      exact h.toInOrder.yieldTask ho hk

end Ranked

/-! ### Interrupts -/

theorem InOrder.tick {r : Bool} (h : k.InOrder) (ho : k.OnCpu c)
    (hk : k.systickTick = some (k', r)) :
    k'.InOrder ∧ (r = false → k'.sleepingList.tids = []) := by
  rw [systickTick_eq ho] at hk
  cases hk
  have hadv : k.advanceTicks.InOrder :=
    h.congr (List.Sublist.refl _) (fun _ => rfl) fun _ => rfl
  constructor
  · unfold chargeSlice
    split_ifs
    · exact hadv.setTcb rfl rfl
    · exact hadv
  · intro hr
    rw [Bool.or_eq_false_iff] at hr
    have hempty : k.sleepingList.tids = [] := by
      simpa [TaskList.isEmpty] using hr.2
    unfold chargeSlice
    split_ifs <;> exact hempty

theorem InOrder.systickReplay {missed : ℕ} {r : Bool} (h : k.InOrder) (hc : k.Settled c)
    (hk : k.systickReplay missed = some (k', r)) :
    k'.InOrder ∧ (r = false → k'.sleepingList.tids = []) := by
  induction missed generalizing k' r with
  | zero => exact h.tick hc.onCpu hk
  | succ missed ih =>
      obtain ⟨⟨k₁, r₁⟩, hk₁, hk⟩ := Option.bind_eq_some_iff.mp hk
      obtain ⟨⟨k₂, r₂⟩, hk₂, hk⟩ := Option.bind_eq_some_iff.mp hk
      cases hk
      have hlast := (ih hk₁).1.tick (hc.systickReplay hk₁).1.onCpu hk₂
      refine ⟨hlast.1, fun hr => hlast.2 ?_⟩
      rw [Bool.or_eq_false_iff] at hr
      exact hr.2

/-- A systick either switches or finds nobody asleep. -/
theorem Ranked.systickTrap {missed : ℕ} (h : k.Ranked) (hc : k.Settled c)
    (hk : k.systickTrap missed = some k') : k'.Ranked := by
  obtain ⟨⟨k₁, r⟩, hk₁, hk⟩ := Option.bind_eq_some_iff.mp hk
  obtain ⟨hin, hempty⟩ := h.toInOrder.systickReplay hc hk₁
  refine hin.yieldIf (b := r) (hc.systickReplay hk₁).1.onCpu (fun hr t ht => ?_) hk
  rw [hempty hr] at ht
  cases ht

end Kernel

end MosKernel
