import MosKernel.HighestRuns
import MosKernel.Delays

/-!
# An action up to its scheduling pass

Every action writes to the kernel first and calls `next_tcb`, if at all, last.  `TaskAction.enter` is the
first part, and `TaskAction.step_eq` puts the two together, so that what is true of `next_tcb` in any
state is true of every action.

* `Enters` — what the writes before a pass leave alone;
* `systickReplay_eq` — a late systick in closed form;
* `mem_ready_wakeUpSleepers` — who is ready in a pass: those who were, and the sleepers that are due;
* `Leads` — a task is in front of its equals on `READY_LIST`, as `next_tcb` leaves the one that it selects.
-/

namespace MosKernel

open OrderedInsert TaskList Transition Kernel

/-- The writes of a call up to its `yield_task`, and whether it gets there. -/
def TaskCall.enter (k : Kernel) : TaskCall → Option (Kernel × Bool)
  | .create priority name =>
    match k.allocTid with
    | none => some (k, false)
    | some (tid, k) =>
      let k := k.addTask tid priority name
      some (k, k.schedReady && k.currentTcbPtr.any fun p => priority < k.priority p)
  | .createRaw priority name stackSize =>
    match k.allocTid with
    | none => some (k, false)
    | some (tid, k) =>
      if stackSize / 4 > contextWords then some (k.addTask tid priority name, false) else none
  | .exitCurrent => k.crTid.map fun cr => ((k.readyRemove cr).freeTid cr, true)
  | .block tid =>
    match k.status tid with
    | .ready | .running => some ((k.park tid).blockedPush tid, true)
    | _ => some (k, false)
  | .resume tid =>
    if k.status tid ≠ .blocked then some (k, false)
    else if tid ∉ k.blockedList.tids then some (k, false)
    else
      let k := (k.blockedRemove tid).wake tid
      some (k, k.currentTcbPtr.any fun p => k.priority tid < k.priority p)
  | .terminate tid => if k.status tid = .terminated then some (k, false) else some (k.discard tid, true)
  | .delay ticks => if ticks = 0 then some (k, false) else k.crTid.map fun cr => (k.sleep cr ticks, true)
  | .yieldTask => some (k, true)

/-- The writes of an action up to its scheduling pass, and whether it makes one. -/
def TaskAction.enter (k : Kernel) : TaskAction → Option (Kernel × Bool)
  | .call c => c.enter k
  | .systick missed => k.systickReplay missed

theorem TaskCall.exec_eq (c : TaskCall) (k : Kernel) :
    (c.exec k).map Prod.fst = (c.enter k).bind fun r => r.1.yieldIf r.2 := by
  cases c with
  | create p name =>
      simp only [exec, enter, Kernel.create, Option.map_map]
      cases k.allocTid with
      | none => rfl
      | some r =>
          dsimp only
          cases (r.2.addTask r.1 p name).schedReady with
          | false => rfl
          | true =>
              cases hcur : (r.2.addTask r.1 p name).currentTcbPtr with
              | none => rfl
              | some c =>
                  simp only [Option.map_map, Bool.true_and, Option.any_some, Option.bind_some,
                    Kernel.yieldIf, decide_eq_true_eq]
                  split_ifs <;> simp [Function.comp_def]
  | createRaw p name size =>
      simp only [exec, enter, Kernel.createRaw, Option.map_map]
      cases k.allocTid with
      | none => rfl
      | some r =>
          dsimp only
          split_ifs <;> rfl
  | exitCurrent =>
      simp only [exec, enter, Kernel.exitCurrent, Option.map_map]
      cases k.crTid with
      | none => rfl
      | some c => simp [Function.comp_def, Kernel.yieldIf]
  | block t =>
      simp only [exec, enter, Kernel.block, Option.map_map]
      cases k.status t <;> simp [Function.comp_def, Kernel.yieldIf]
  | resume t =>
      simp only [exec, enter, Kernel.resume, Option.map_map]
      split_ifs
      · rfl
      · cases ((k.blockedRemove t).wake t).currentTcbPtr with
        | none => rfl
        | some c =>
            simp only [Option.any_some, Option.bind_some, Kernel.yieldIf, decide_eq_true_eq]
            split_ifs <;> simp [Function.comp_def]
      · rfl
  | terminate t =>
      simp only [exec, enter, Kernel.terminate, Option.map_map]
      split_ifs <;> simp [Function.comp_def, Kernel.yieldIf, Kernel.discard]
  | delay ticks =>
      simp only [exec, enter, Kernel.delay, Option.map_map]
      split_ifs
      · rfl
      · cases k.crTid with
        | none => rfl
        | some c => simp [Function.comp_def, Kernel.yieldIf]
  | yieldTask => simp [exec, enter, Function.comp_def, Kernel.yieldIf]

/-- **An action is its writes and then its pass.** -/
theorem TaskAction.step_eq (a : TaskAction) (k : Kernel) :
    a.step k = (a.enter k).bind fun r => r.1.yieldIf r.2 := by
  cases a with
  | call c => exact c.exec_eq k
  | systick missed => rfl

namespace Kernel

variable {k k₁ k' : Kernel} {c t u : Tid} {b : Bool}

/-! ### In front of one's equals -/

/-- The tasks in front of `c` on `READY_LIST` are more urgent. -/
def Leads (k : Kernel) (c : Tid) : Prop :=
  ∃ pre suf, k.readyList.tids = pre ++ c :: suf ∧ ∀ t ∈ pre, k.priority t < k.priority c

theorem Leads.congr (h : k.Leads c) (hl : k₁.readyList = k.readyList)
    (hp : ∀ t ∈ k.readyList.tids, k₁.priority t = k.priority t) : k₁.Leads c := by
  obtain ⟨pre, suf, hlist, hpre⟩ := h
  refine ⟨pre, suf, by rw [hl, hlist], fun t ht => ?_⟩
  rw [hp t (by rw [hlist]; simp [ht]), hp c (by rw [hlist]; simp)]
  exact hpre t ht

/-- Whoever is inserted comes before `c` only if it is more urgent. -/
theorem Leads.readyInsert (h : k.Leads c) (t : Tid) : (k.readyInsert t).Leads c := by
  obtain ⟨pre, suf, hlist, hpre⟩ := h
  rcases lt_or_eq_of_le k.readyList.le_cap with hl | hl
  · have htids : (k.readyInsert t).readyList.tids =
        insertBefore (k.isBefore t) t k.readyList.tids := (insertInOrder_of_lt hl).1
    by_cases hlt : k.priority t < k.priority c
    · refine ⟨insertBefore (k.isBefore t) t pre, suf, ?_, fun u hu => ?_⟩
      · rw [htids, hlist]
        exact insertBefore_append_cons (decide_eq_true hlt)
      · rcases mem_insertBefore.mp hu with rfl | hu
        · exact hlt
        · exact hpre u hu
    · refine ⟨pre, insertBefore (k.isBefore t) t suf, ?_, hpre⟩
      have hpass : ∀ u ∈ pre ++ [c], k.isBefore t u = false := by
        intro u hu
        rw [isBefore, decide_eq_false_iff_not]
        rcases List.mem_append.mp hu with hu | hu
        · exact fun htu => hlt (htu.trans (hpre u hu))
        · rw [List.mem_singleton.mp hu]
          exact hlt
      rw [htids, hlist, List.append_cons, insertBefore_append_of_false hpass]
      simp
  · have hsame : (k.readyInsert t).readyList = k.readyList := (insertInOrder_of_full hl).1
    exact ⟨pre, suf, by rw [hsame, hlist], hpre⟩

/-- Another task leaves the list. -/
theorem Leads.readyRemove (h : k.Leads c) (ht : t ≠ c) : (k.readyRemove t).Leads c := by
  obtain ⟨pre, suf, hlist, hpre⟩ := h
  have herase : (k.readyRemove t).readyList.tids = (pre ++ c :: suf).erase t := by
    rw [readyRemove_readyList, remove_tids, hlist]
  by_cases hm : t ∈ pre
  · refine ⟨pre.erase t, suf, ?_, fun u hu => hpre u (List.mem_of_mem_erase hu)⟩
    rw [herase, List.erase_append_left _ hm]
  · refine ⟨pre, suf.erase t, ?_, hpre⟩
    rw [herase, List.erase_append_right _ hm, List.erase_cons_tail]
    simpa using Ne.symm ht

/-- A write of another task, or one that keeps the priority. -/
theorem Leads.setTcb {f : Tcb → Tcb} (h : k.Leads c)
    (hf : (f (k.tcbs t)).priority = (k.tcbs t).priority) : (k.setTcb t f).Leads c := by
  refine h.congr rfl fun u _ => ?_
  rw [priority_setTcb]
  split_ifs with hu
  · rw [hu]
    exact hf
  · rfl

theorem Leads.wake (h : k.Leads c) (t : Tid) : (k.wake t).Leads c :=
  Leads.readyInsert (k := k.setStatus t .ready) (h.setTcb rfl) t

theorem leads_of_front (h : k.readyList.front = some c) : k.Leads c := by
  obtain ⟨suf, hsuf⟩ := List.head?_eq_some_iff.mp h
  exact ⟨[], suf, hsuf, by simp⟩

/-- A task without more urgent ones is in front. -/
theorem Leads.front (h : k.Leads c) (hmost : ∀ t ∈ k.readyList.tids, k.priority c ≤ k.priority t) :
    k.readyList.front = some c := by
  obtain ⟨pre, suf, hlist, hpre⟩ := h
  cases pre with
  | nil =>
      rw [TaskList.front, hlist]
      rfl
  | cons t pre =>
      have hlt := hpre t List.mem_cons_self
      have hle := hmost t (by rw [hlist]; simp)
      omega

/-! ### A late systick -/

/-- `n` ticks while `c` runs: they are counted and charged to its slice. -/
def ticked (k : Kernel) (c : Tid) (n : ℕ) : Kernel :=
  { k.setTcb c fun tcb => { tcb with timeSlice := tcb.timeSlice - n } with
    osTicks := k.osTicks + BitVec.ofNat 32 n }

theorem systickTick_ticked (ho : k.OnCpu c) :
    k.systickTick = some (k.ticked c 1, (k.tcbs c).timeSlice ≤ 1 || !k.sleepingList.isEmpty) := by
  have hcharge : k.advanceTicks.chargeSlice c = k.ticked c 1 := by
    unfold chargeSlice
    split_ifs with hpos
    · rfl
    · have hzero : (k.tcbs c).timeSlice = 0 := Nat.eq_zero_of_not_pos hpos
      have hsame : { k.tcbs c with timeSlice := (k.tcbs c).timeSlice - 1 } = k.tcbs c := by
        rw [hzero, Nat.zero_sub, ← hzero]
      show k.advanceTicks = { k with
        osTicks := k.osTicks + 1
        tcbs := Function.update k.tcbs c { k.tcbs c with timeSlice := (k.tcbs c).timeSlice - 1 } }
      rw [hsame, Function.update_eq_self]
      rfl
  have hslice : ((k.ticked c 1).tcbs c).timeSlice = (k.tcbs c).timeSlice - 1 := by
    show (Function.update k.tcbs c _ c).timeSlice = _
    rw [Function.update_self]
  rw [systickTick_eq ho, hcharge, hslice]
  congr 3
  exact decide_eq_decide.mpr (by omega)

theorem OnCpu.ticked (h : k.OnCpu c) (n : ℕ) : (k.ticked c n).OnCpu c := by
  refine ⟨h.ready, h.current, ?_⟩
  show (Function.update k.tcbs c _ c).tid = c
  rw [Function.update_self]
  exact h.tid

theorem ticked_ticked (m n : ℕ) : (k.ticked c m).ticked c n = k.ticked c (m + n) := by
  have hticks : k.osTicks + BitVec.ofNat 32 m + BitVec.ofNat 32 n =
      k.osTicks + BitVec.ofNat 32 (m + n) := by
    rw [BitVec.ofNat_add, BitVec.add_assoc]
  unfold Kernel.ticked
  simp only [Kernel.setTcb, Function.update_self, Function.update_idem, hticks, Nat.sub_sub]

/-- **A late systick** charges all its ticks, and asks for a pass where they use up the slice or somebody
sleeps. -/
theorem systickReplay_eq (ho : k.OnCpu c) (missed : ℕ) : k.systickReplay missed =
    some (k.ticked c (missed + 1),
      (k.tcbs c).timeSlice ≤ missed + 1 || !k.sleepingList.isEmpty) := by
  induction missed with
  | zero => exact systickTick_ticked ho
  | succ missed ih =>
      have hslice : ((k.ticked c (missed + 1)).tcbs c).timeSlice =
          (k.tcbs c).timeSlice - (missed + 1) := by
        show (Function.update k.tcbs c _ c).timeSlice = _
        rw [Function.update_self]
      have hlist : (k.ticked c (missed + 1)).sleepingList = k.sleepingList := rfl
      rw [systickReplay, ih]
      show ((k.ticked c (missed + 1)).systickTick.bind fun r => some (r.1, _ || r.2)) = _
      rw [systickTick_ticked (ho.ticked _), Option.bind_some, ticked_ticked, hslice, hlist]
      congr 2
      cases k.sleepingList.isEmpty
      · simp
      · simp only [Bool.not_true, Bool.or_false]
        rw [← Bool.decide_or]
        exact decide_eq_decide.mpr (by omega)

/-! ### Who is ready in a pass -/

/-- On `READY_LIST`, or asleep and due. -/
def ReadyOrDue (k : Kernel) (t : Tid) : Prop :=
  t ∈ k.readyList.tids ∨ t ∈ k.sleepingList.tids ∧ (k.tcbs t).wakePoint ≤ k.osTicks

instance (k : Kernel) : DecidablePred k.ReadyOrDue := fun t =>
  inferInstanceAs (Decidable (t ∈ k.readyList.tids ∨
    t ∈ k.sleepingList.tids ∧ (k.tcbs t).wakePoint ≤ k.osTicks))

theorem Coherent.mem_ready_expire (h : k.Coherent) (ht : t ∈ k.sleepingList.tids) :
    u ∈ (k.expire t).readyList.tids ↔ u = t ∨ u ∈ k.readyList.tids := by
  have hno := h.not_mem_ready (h.of_mem_sleeping t ht)
  have hl := readyInsert_tids (t := t) (k := (k.sleepingRemove t).setTcb t fun tcb =>
    { tcb with status := .ready, wakePoint := 0 }) h.ready_nodup hno
  rw [Kernel.expire, hl.1, mem_insertBefore]
  exact Iff.rfl

/-- **Who is ready in a pass:** those who were, and the sleepers that are due. -/
theorem Coherent.mem_ready_wakeUpSleepers (h : k.Coherent) :
    t ∈ k.wakeUpSleepers.readyList.tids ↔ k.ReadyOrDue t := by
  obtain ⟨-, hfrom, hto, hsleep⟩ := wakeUpSleepers_induct (k := k)
    (P := fun k' => k'.Coherent ∧ (∀ u ∈ k'.readyList.tids, k.ReadyOrDue u) ∧
      (∀ u, u ∈ k.readyList.tids ∨ u ∈ k.sleepingList.tids →
        u ∈ k'.readyList.tids ∨ u ∈ k'.sleepingList.tids) ∧
      ∀ u ∈ k'.sleepingList.tids,
        u ∈ k.sleepingList.tids ∧ (k'.tcbs u).wakePoint = (k.tcbs u).wakePoint)
    ⟨h, fun _ hu => .inl hu, fun _ hu => hu, fun _ hu => ⟨hu, rfl⟩⟩ (by
      rintro k' u ⟨hk, hfrom, hto, hsleep⟩ hu hdue
      have herase : ∀ v, v ∈ (k'.expire u).sleepingList.tids ↔
          v ≠ u ∧ v ∈ k'.sleepingList.tids := by
        intro v
        show v ∈ (k'.sleepingList.remove u).tids ↔ _
        rw [remove_tids, hk.sleeping_nodup.mem_erase_iff]
      refine ⟨(hk.expire hu).1, fun v hv => ?_, fun v hv => ?_, fun v hv => ?_⟩
      · rcases (hk.mem_ready_expire hu).mp hv with rfl | hv
        · refine .inr ⟨(hsleep v hu).1, ?_⟩
          rw [← (hsleep v hu).2]
          exact hdue
        · exact hfrom v hv
      · rw [hk.mem_ready_expire hu, herase]
        by_cases hvu : v = u
        · exact .inl (.inl hvu)
        · rcases hto v hv with hv | hv
          · exact .inl (.inr hv)
          · exact .inr ⟨hvu, hv⟩
      · obtain ⟨hvu, hv⟩ := (herase v).mp hv
        have htcb : (k'.expire u).tcbs v = k'.tcbs v := Function.update_of_ne hvu _ _
        rw [htcb]
        exact hsleep v hv)
  constructor
  · exact hfrom t
  · intro ht
    have hlate : t ∉ k.wakeUpSleepers.sleepingList.tids := by
      intro hm
      obtain ⟨hms, hwake⟩ := hsleep t hm
      have hlt := wakeUpSleepers_done k t hm
      rw [hwake] at hlt
      rcases ht with ht | ⟨-, hle⟩
      · exact h.not_mem_ready (h.of_mem_sleeping t hms) ht
      · exact absurd hlt (BitVec.not_lt.mpr hle)
    refine (hto t ?_).resolve_right hlate
    rcases ht with ht | ⟨ht, -⟩
    · exact .inl ht
    · exact .inr ht

/-- The control block of a task that is not asleep stays. -/
theorem tcbs_wakeUpSleepers (ht : t ∉ k.sleepingList.tids) : k.wakeUpSleepers.tcbs t = k.tcbs t := by
  have hkeep : k.wakeUpSleepers.tcbs t = k.tcbs t ∧ t ∉ k.wakeUpSleepers.sleepingList.tids := by
    refine wakeUpSleepers_induct (P := fun k' => k'.tcbs t = k.tcbs t ∧ t ∉ k'.sleepingList.tids)
      ⟨rfl, ht⟩ ?_
    rintro k' u ⟨htcb, hno⟩ hu -
    have htu : t ≠ u := by
      rintro rfl
      exact hno hu
    refine ⟨?_, fun hm => hno ?_⟩
    · rw [← htcb]
      exact Function.update_of_ne htu _ _
    · replace hm : t ∈ (k'.sleepingList.remove u).tids := hm
      rw [remove_tids] at hm
      exact List.mem_of_mem_erase hm
  exact hkeep.1

/-! ### The front of the list -/

/-- Behind a task that is no less urgent nobody gets in front. -/
theorem front_readyInsert_ne (hs : k.Sorted) (ht : t ∈ k.readyList.tids)
    (hle : k.priority t ≤ k.priority c) (hf : k.readyList.front ≠ some c) :
    (k.readyInsert c).readyList.front ≠ some c := by
  rcases lt_or_eq_of_le k.readyList.le_cap with hl | hl
  · have htids : (k.readyInsert c).readyList.tids =
        insertBefore (k.isBefore c) c k.readyList.tids := (insertInOrder_of_lt hl).1
    obtain ⟨a, l, hlist⟩ := List.exists_cons_of_ne_nil (List.ne_nil_of_mem ht)
    have ha : k.readyList.front = some a := by
      rw [TaskList.front, hlist]
      rfl
    have hbefore : k.isBefore c a = false := by
      rw [isBefore, decide_eq_false_iff_not, not_lt]
      exact (hs.front_le ha ht).trans hle
    rw [TaskList.front, htids, hlist, insertBefore_cons, hbefore, if_neg Bool.false_ne_true]
    rw [ha] at hf
    exact hf
  · have hsame : (k.readyInsert c).readyList = k.readyList := (insertInOrder_of_full hl).1
    rw [hsame]
    exact hf

/-- The most urgent task of a sorted list is in front. -/
theorem Sorted.front_eq (hs : k.Sorted) (hc : c ∈ k.readyList.tids)
    (hmost : ∀ t ∈ k.readyList.tids, t ≠ c → k.priority c < k.priority t) :
    k.readyList.front = some c := by
  obtain ⟨a, l, hlist⟩ := List.exists_cons_of_ne_nil (List.ne_nil_of_mem hc)
  have ha : k.readyList.front = some a := by
    rw [TaskList.front, hlist]
    rfl
  by_cases hac : a = c
  · rw [ha, hac]
  · have hlt := hmost a (by rw [hlist]; exact List.mem_cons_self) hac
    exact absurd (hs.front_le ha hc) (not_le.mpr hlt)

/-- The outgoing task goes behind its equals where its entry is moved, and stays behind them where it was
not in front. -/
theorem InOrder.front_requeue_ne (h : k.InOrder) (hn : k.readyList.tids.Nodup)
    (ht : t ∈ k.readyList.tids) (htc : t ≠ c) (hle : k.priority t ≤ k.priority c)
    (hre : k.Requeues c ∨ k.readyList.front ≠ some c) : (k.requeue c).readyList.front ≠ some c := by
  have hrem : ∀ k₁ : Kernel, k₁.readyList = k.readyList → (k₁.readyRemove c).readyList.front ≠ some c := by
    intro k₁ hl hf
    have hm : c ∈ (k₁.readyRemove c).readyList.tids := List.mem_of_mem_head? hf
    rw [readyRemove_readyList, remove_tids, hl] at hm
    exact hn.not_mem_erase hm
  unfold Kernel.requeue
  split_ifs with hst hor
  · exact hrem k rfl
  · set k₁ := k.setTcb c fun tcb => { tcb with timeSlice := MosKernel.timeSlice, status := .ready }
      with hk₁
    have hp : ∀ u, (k₁.readyRemove c).priority u = k.priority u := by
      intro u
      show k₁.priority u = _
      rw [hk₁, priority_setTcb]
      split_ifs with hu
      · rw [hu]
        rfl
      · rfl
    refine front_readyInsert_ne (t := t) ((h.setTcb rfl rfl).readyRemove c).sorted ?_ ?_ (hrem k₁ rfl)
    · rw [readyRemove_readyList, remove_tids]
      exact (List.mem_erase_of_ne htc).mpr ht
    · rw [hp, hp]
      exact hle
  · exact hre.resolve_left hor

/-- If the outgoing task is ready or due itself, another such task is at least as urgent. -/
def GivesWay (k : Kernel) (c : Tid) : Prop :=
  k.ReadyOrDue c → ∃ t, t ≠ c ∧ k.ReadyOrDue t ∧ k.priority t ≤ k.priority c

instance (k : Kernel) (c : Tid) : Decidable (k.GivesWay c) :=
  inferInstanceAs (Decidable (_ → _))

/-- The first half of a pass makes nobody ready. -/
theorem Coherent.mem_ready_of_requeue (h : k.Coherent) (ht : t ∈ (k.requeue c).readyList.tids) :
    t ∈ k.readyList.tids := by
  have herase : t ∈ (k.readyList.remove c).tids → t ∈ k.readyList.tids := by
    rw [remove_tids]
    exact List.mem_of_mem_erase
  unfold Kernel.requeue at ht
  split_ifs at ht with hst hre
  · exact herase ht
  · rcases mem_of_mem_insertInOrder ht with rfl | hm
    · rw [h.mem_ready]
      rw [not_or] at hst
      cases hs : k.status t <;> simp [hs] at hst ⊢
    · exact herase hm
  · exact ht

theorem front_readyInsert (k : Kernel) (t : Tid) : (k.readyInsert t).readyList.front = some t ∨
    (k.readyInsert t).readyList.front = k.readyList.front := by
  rcases lt_or_eq_of_le k.readyList.le_cap with hl | hl
  · have htids : (k.readyInsert t).readyList.tids =
        insertBefore (k.isBefore t) t k.readyList.tids := (insertInOrder_of_lt hl).1
    rw [TaskList.front, htids, TaskList.front]
    cases k.readyList.tids with
    | nil => exact .inl rfl
    | cons a l =>
        rw [insertBefore_cons]
        split_ifs
        · exact .inl rfl
        · exact .inr rfl
  · have hsame : (k.readyInsert t).readyList = k.readyList := (insertInOrder_of_full hl).1
    exact .inr (by rw [hsame])

theorem mem_ready_expire_of_mem (ht : t ∈ k.readyList.tids) : t ∈ (k.expire u).readyList.tids := by
  have hle : k.readyList.tids.count t ≤ (k.expire u).readyList.tids.count t :=
    count_le_readyInsert ((k.sleepingRemove u).setTcb u fun tcb =>
      { tcb with status := .ready, wakePoint := 0 }) u t
  exact List.count_pos_iff.mp ((List.count_pos_iff.mpr ht).trans_le hle)

/-- A sleeper that is woken does not get in front of a ready task that is no less urgent. -/
theorem InOrder.front_expire_ne (h : k.InOrder) (ht : t ∈ k.readyList.tids)
    (hle : k.priority t ≤ k.priority c) (hf : k.readyList.front ≠ some c) :
    (k.expire u).readyList.front ≠ some c := by
  set k₁ := (k.sleepingRemove u).setTcb u fun tcb => { tcb with status := .ready, wakePoint := 0 }
    with hk₁
  have hin : k₁.InOrder :=
    InOrder.setTcb (h.congr (List.Sublist.refl _) (fun _ => rfl) fun _ => rfl) rfl rfl
  have hp : ∀ v, k₁.priority v = k.priority v := (frame_expire k u).priority
  by_cases huc : u = c
  · subst huc
    refine front_readyInsert_ne (k := k₁) hin.sorted ht ?_ hf
    rw [hp, hp]
    exact hle
  · rcases front_readyInsert k₁ u with hnew | hold
    · rw [Kernel.expire, ← hk₁, hnew]
      exact fun he => huc (Option.some.inj he)
    · rw [Kernel.expire, ← hk₁, hold]
      exact hf

/-- **Whom a pass selects.**  `c` stops running exactly if it gives way, given that it is not `Ready` when
the pass begins and that, where it has just stopped, nobody else is due. -/
theorem Coherent.nextTcb_current (h : k.Coherent) (ho : k.OnCpu c) (hin : k.InOrder)
    (hst : k.status c ≠ .ready)
    (hdue : k.status c = .blocked → ∀ t ∈ k.sleepingList.tids, t ≠ c → k.osTicks < (k.tcbs t).wakePoint)
    (hk : k.nextTcb = some k') : k'.currentTcbPtr ≠ some c ↔ k.GivesWay c := by
  obtain ⟨st, hfront, rfl⟩ := nextTcb_eq_some ho hk
  have hcur : (k.wakeUpSleepers.requeue c).currentTcbPtr = some c := by
    rw [currentTcbPtr_requeue, currentTcbPtr_wakeUpSleepers, ho.current]
  have hw := h.wakeUpSleepers.1
  have hwin : k.wakeUpSleepers.InOrder := wakeUpSleepers_induct hin fun _ t h _ _ => h.expire t
  have hr := (hw.requeue ((currentTcbPtr_wakeUpSleepers k).trans ho.current)).1
  have hpri : ∀ t, (k.wakeUpSleepers.requeue c).priority t = k.priority t := fun t =>
    ((frame_wakeUpSleepers k).trans (frame_requeue _ c)).priority t
  rw [currentTcbPtr_switchTo hcur, ← hfront]
  constructor
  · intro hne hc
    by_contra hno
    refine hne ((hwin.requeue c).sorted.front_eq ?_ fun t ht htc => ?_)
    · -- `c` is ready after `wake_up_sleepers`, so it is put back or left alone
      have hcw : k.wakeUpSleepers.Awake c := (hw.mem_ready c).mp (h.mem_ready_wakeUpSleepers.mpr hc)
      exact (hr.mem_ready c).mpr (hcw.requeue c)
    · rw [hpri, hpri, ← not_le]
      intro hle
      exact hno ⟨t, htc, h.mem_ready_wakeUpSleepers.mp (hw.mem_ready_of_requeue ht), hle⟩
  · intro hgives
    by_cases hc : k.ReadyOrDue c
    · obtain ⟨t, htc, ht, hle⟩ := hgives hc
      have hpw := (frame_wakeUpSleepers k).priority
      refine hwin.front_requeue_ne hw.ready_nodup (h.mem_ready_wakeUpSleepers.mpr ht) htc
        (by rw [hpw, hpw]; exact hle) ?_
      rcases hc with hc | ⟨hcs, hcdue⟩
      · have hrun : k.status c = .running := ((h.mem_ready c).mp hc).resolve_left hst
        have hcs : c ∉ k.sleepingList.tids := fun hm => h.not_mem_ready (h.of_mem_sleeping c hm) hc
        refine .inl (.inr ?_)
        rw [Kernel.status, tcbs_wakeUpSleepers hcs]
        exact hrun
      · -- `c` has gone to sleep and is due: whoever is ready is inserted before it
        have hblocked := h.of_mem_sleeping c hcs
        have htr : t ∈ k.readyList.tids := by
          refine ht.resolve_right fun hts => ?_
          exact absurd hts.2 (BitVec.not_le.mpr (hdue hblocked t hts.1 htc))
        have hnc : k.readyList.front ≠ some c := fun hf =>
          h.not_mem_ready hblocked (List.mem_of_mem_head? hf)
        obtain ⟨-, -, -, hne⟩ := wakeUpSleepers_induct (k := k)
          (P := fun k' => k'.InOrder ∧ Frame k k' ∧ t ∈ k'.readyList.tids ∧ k'.readyList.front ≠ some c)
          ⟨hin, .refl k, htr, hnc⟩ (by
            rintro k' u ⟨hin', hf, hm, hne⟩ - -
            refine ⟨hin'.expire u, hf.trans (frame_expire k' u), mem_ready_expire_of_mem hm,
              hin'.front_expire_ne hm ?_ hne⟩
            rw [hf.priority, hf.priority]
            exact hle)
        exact .inr hne
    · intro hf
      have hno : c ∉ k.wakeUpSleepers.readyList.tids := fun hm => hc (h.mem_ready_wakeUpSleepers.mp hm)
      exact hno (hw.mem_ready_of_requeue (List.mem_of_mem_head? hf))

/-! ### The writes before a pass -/

/-- What the writes of the running task `c` leave alone; `b` says whether a pass follows. -/
structure Enters (k k₁ : Kernel) (c : Tid) (b : Bool) : Prop where
  coherent : k₁.Coherent
  onCpu : k₁.OnCpu c
  inOrder : k₁.InOrder
  noneDue : b = false → k₁.NoneDue
  status : k₁.status c = k.status c ∨ b = true ∧ (k₁.status c = .blocked ∨ k₁.status c = .terminated)
  /-- a call that stops `c` leaves the clock alone -/
  notDue : k₁.status c ≠ k.status c → ∀ t ∈ k₁.sleepingList.tids, t ≠ c → k₁.osTicks < (k₁.tcbs t).wakePoint
  leads : k₁.status c = k.status c → k.Leads c → k₁.Leads c

theorem Settled.enters (h : k.Settled c) (hr : k.Ranked) (b : Bool) : Enters k k c b :=
  ⟨h.toCoherent, h.onCpu, hr.toInOrder, fun _ => hr.noneDue, .inl rfl, fun hne => absurd rfl hne,
    fun _ hl => hl⟩

theorem Settled.enters_addTask {p : ℕ} {name : String} (h : k.Settled c) (hr : k.Ranked)
    (ha : k.allocTid = some (t, k₁)) (b : Bool) : Enters k (k₁.addTask t p name) c b := by
  have hadd := h.toCoherent.added p name ha
  have hct := hadd.ne h.alive
  have hst : (k₁.addTask t p name).status c = k.status c := by
    rw [Kernel.status, hadd.tcbs c hct]
    rfl
  refine ⟨hadd.coherent, (hadd.settled h).onCpu, hr.toInOrder.addTask p name h.toCoherent ha,
    fun _ => hr.noneDue.addTask p name h.toCoherent ha, .inl hst, fun hne => absurd hst hne,
    fun _ hl => ?_⟩
  obtain ⟨-, rfl⟩ := allocTid_eq_some ha
  have hfresh : ∀ u ∈ k.readyList.tids, u ≠ t := by
    rintro u hu rfl
    rw [h.mem_ready, hadd.fresh] at hu
    simp at hu
  set k₀ : Kernel := { k with
    tidBitmap := k.tidBitmap ||| (1#32 <<< t.val)
    tcbs := Function.update k.tcbs t (.empty t) }
  have hset : (k₀.setTcb t fun tcb => { tcb with
      status := .ready, priority := p, timeSlice := MosKernel.timeSlice, name := name }).Leads c := by
    refine hl.congr rfl fun u hu => ?_
    rw [priority_setTcb, if_neg (hfresh u hu)]
    show (Function.update k.tcbs t (.empty t) u).priority = k.priority u
    rw [Function.update_of_ne (hfresh u hu)]
    rfl
  exact hset.readyInsert t

theorem Settled.enters_discard (h : k.Settled c) (hr : k.Ranked) (t : Tid) :
    Enters k (k.discard t) c true := by
  have hrem := hr.toInOrder.readyRemove t
  have hset := hrem.setTcb (t := t) (f := fun tcb => { tcb with status := .terminated }) rfl rfl
  refine ⟨h.toCoherent.discard t, onCpu_discard h.onCpu t,
    hset.congr (List.Sublist.refl _) (fun _ => rfl) fun _ => rfl, by simp, ?_, fun _ u hu _ => ?_, ?_⟩
  · rw [status_discard]
    split_ifs
    · exact .inr ⟨rfl, .inr rfl⟩
    · exact .inl rfl
  · have hwake : ((k.discard t).tcbs u).wakePoint = (k.tcbs u).wakePoint := by
      show (Function.update k.tcbs t _ u).wakePoint = _
      rw [Function.update_apply]
      split_ifs with hut
      · rw [hut]
        rfl
      · rfl
    replace hu : u ∈ (k.sleepingList.remove t).tids := hu
    rw [remove_tids] at hu
    rw [hwake]
    exact hr.noneDue u (List.mem_of_mem_erase hu)
  · intro hst hl
    have htc : t ≠ c := by
      rintro rfl
      rw [status_discard, if_pos rfl] at hst
      exact h.alive hst.symm
    have hrem : (k.readyRemove t).Leads c := hl.readyRemove htc
    exact (hrem.setTcb (t := t) (f := fun tcb => { tcb with status := .terminated }) rfl).congr rfl
      fun _ _ => rfl

theorem Settled.enters_block (h : k.Settled c) (hr : k.Ranked) (ht : k.Awake t) :
    Enters k ((k.park t).blockedPush t) c true := by
  have hm := (h.mem_ready t).mpr ht
  have hp := (h.parked_park hm).mpr (.inl rfl : t = t ∨ _)
  have hf := (frame_park k t).trans (frame_blockedPush (k.park t) t)
  have hst : ((k.park t).blockedPush t).status c = if c = t then .blocked else k.status c := by
    rw [status_blockedPush, park, status_readyRemove, setStatus, status_setTcb]
  refine ⟨((h.toCoherent.park hm).blockedPush hp).1, h.onCpu.of_frame hf rfl,
    (hr.toInOrder.park t).congr (List.Sublist.refl _) (fun _ => rfl) fun _ => rfl,
    by simp, ?_, fun _ u hu _ => ?_, ?_⟩
  · rw [hst]
    split_ifs
    · exact .inr ⟨rfl, .inl rfl⟩
    · exact .inl rfl
  · exact hr.noneDue.setTcb (t := t) (f := fun tcb => { tcb with status := .blocked }) rfl u hu
  · intro hsame hl
    have htc : t ≠ c := by
      rintro rfl
      rw [hst, if_pos rfl] at hsame
      exact h.not_mem_ready hsame.symm hm
    have hset : (k.setStatus t .blocked).Leads c := hl.setTcb rfl
    exact (hset.readyRemove htc).congr rfl fun _ _ => rfl

theorem Settled.enters_resume (h : k.Settled c) (hr : k.Ranked) (ht : t ∈ k.blockedList.tids)
    (b : Bool) : Enters k ((k.blockedRemove t).wake t) c b := by
  have hp : (k.blockedRemove t).Parked t := (h.parked_blockedRemove ht).mpr (.inl rfl)
  have hrem : (k.blockedRemove t).Ranked :=
    ⟨hr.toInOrder.congr (List.Sublist.refl _) (fun _ => rfl) fun _ => rfl,
      hr.noneDue.congr rfl rfl fun _ _ => rfl⟩
  have hf := (frame_blockedRemove k t).trans (frame_wake (k.blockedRemove t) t)
  have hct : c ≠ t := by
    rintro rfl
    exact h.not_mem_ready (h.of_mem_blocked c ht) h.current_mem
  have hst : ((k.blockedRemove t).wake t).status c = k.status c := by
    rw [Kernel.wake, status_readyInsert, setStatus, status_setTcb, if_neg hct]
    rfl
  refine ⟨(h.toCoherent.blockedRemove.wake hp).1, h.onCpu.of_frame hf rfl, hrem.toInOrder.wake t,
    fun _ => hrem.noneDue.wake t, .inl hst, fun hne => absurd hst hne, fun _ hl => ?_⟩
  have hrem : (k.blockedRemove t).Leads c := hl.congr rfl fun _ _ => rfl
  exact hrem.wake t

theorem Settled.enters_sleep (h : k.Settled c) (hr : k.Ranked) (ticks : BitVec 32) :
    Enters k (k.sleep c ticks) c true := by
  have hset : (k.setTcb c fun tcb => { tcb with wakePoint := k.osTicks + ticks }).InOrder :=
    hr.toInOrder.setTcb rfl rfl
  have hst : (k.sleep c ticks).status c = .blocked := by
    rw [Kernel.sleep, status_sleepingInsert, park, status_readyRemove, setStatus, status_setTcb,
      if_pos rfl]
  refine ⟨(h.toCoherent.sleep h.current_mem ticks).1, h.onCpu.of_frame (frame_sleep k c ticks) rfl,
    (hset.park c).congr (List.Sublist.refl _) (fun _ => rfl) fun _ => rfl, by simp,
    .inr ⟨rfl, .inl hst⟩, fun _ u hu huc => ?_, fun hsame => ?_⟩
  · have hus : u ∈ k.sleepingList.tids := (mem_of_mem_insertInOrder hu).resolve_left huc
    have htcb : (k.sleep c ticks).tcbs u = k.tcbs u := by
      show Function.update (Function.update k.tcbs c _) c _ u = _
      rw [Function.update_of_ne huc, Function.update_of_ne huc]
    rw [htcb]
    exact hr.noneDue u hus
  · rw [hst] at hsame
    exact absurd h.current_mem (h.not_mem_ready hsame.symm)

theorem Settled.enters_ticked {n : ℕ} (h : k.Settled c) (hr : k.Ranked)
    (hb : b = false → k.sleepingList.tids = []) : Enters k (k.ticked c n) c b := by
  have hco := h.toCoherent.setTcb (t := c) (f := fun tcb => { tcb with timeSlice := tcb.timeSlice - n })
    rfl rfl
  have hin := hr.toInOrder.setTcb (t := c) (f := fun tcb => { tcb with timeSlice := tcb.timeSlice - n })
    rfl rfl
  have hticked : (k.ticked c n).Coherent := by
    obtain ⟨h1, h2, h3, h4, h5, h6, h7, h8, h9, h10⟩ := hco
    exact ⟨h1, h2, h3, h4, h5, h6, h7, h8, h9, h10⟩
  have hst : (k.ticked c n).status c = k.status c := by
    show (k.setTcb c fun tcb => { tcb with timeSlice := tcb.timeSlice - n }).status c = k.status c
    rw [status_setTcb, if_pos rfl]
    rfl
  refine ⟨hticked, h.onCpu.ticked n, hin.congr (List.Sublist.refl _) (fun _ => rfl) fun _ => rfl,
    fun hf t ht => ?_, .inl hst, fun hne => absurd hst hne, fun _ hl => ?_⟩
  · replace ht : t ∈ k.sleepingList.tids := ht
    rw [hb hf] at ht
    cases ht
  · exact (hl.setTcb (t := c) (f := fun tcb => { tcb with timeSlice := tcb.timeSlice - n }) rfl).congr rfl
      fun _ _ => rfl

end Kernel

/-- **What an action has done when its pass begins.** -/
theorem TaskAction.enters {k k₁ : Kernel} {c : Tid} {a : TaskAction} {b : Bool} (h : k.Settled c)
    (hr : k.Ranked) (he : a.enter k = some (k₁, b)) : Enters k k₁ c b := by
  cases a with
  | systick missed =>
      replace he : k.systickReplay missed = some (k₁, b) := he
      rw [systickReplay_eq h.onCpu] at he
      cases he
      refine h.enters_ticked hr fun hb => ?_
      rw [Bool.or_eq_false_iff] at hb
      simpa [TaskList.isEmpty] using hb.2
  | call call =>
      replace he : call.enter k = some (k₁, b) := he
      cases call with
      | create p name =>
          simp only [TaskCall.enter] at he
          split at he
          · cases he
            exact h.enters hr false
          · cases he
            exact h.enters_addTask hr ‹_› _
      | createRaw p name size =>
          simp only [TaskCall.enter] at he
          split at he
          · cases he
            exact h.enters hr false
          · split_ifs at he
            cases he
            exact h.enters_addTask hr ‹_› false
      | exitCurrent =>
          replace he : (k.crTid.map fun cr => ((k.readyRemove cr).freeTid cr, true)) = some (k₁, b) := he
          rw [h.onCpu.crTid, Option.map_some, exit_eq_discard h] at he
          cases he
          exact h.enters_discard hr c
      | block t =>
          simp only [TaskCall.enter] at he
          split at he
          · rename_i hst
            cases he
            exact h.enters_block hr (.inl hst)
          · rename_i hst
            cases he
            exact h.enters_block hr (.inr hst)
          · cases he
            exact h.enters hr false
      | resume t =>
          simp only [TaskCall.enter] at he
          split_ifs at he with hst hm
          · cases he
            exact h.enters hr false
          · cases he
            exact h.enters_resume hr hm _
          · cases he
            exact h.enters hr false
      | terminate t =>
          simp only [TaskCall.enter] at he
          split_ifs at he
          · cases he
            exact h.enters hr false
          · cases he
            exact h.enters_discard hr t
      | delay ticks =>
          simp only [TaskCall.enter] at he
          split_ifs at he
          · cases he
            exact h.enters hr false
          · rw [h.onCpu.crTid, Option.map_some] at he
            cases he
            exact h.enters_sleep hr ticks
      | yieldTask =>
          cases he
          exact h.enters hr true

/-- Between actions of a run from a launch. -/
structure Kernel.Between (k : Kernel) : Prop where
  settled : ∃ c, k.Settled c
  ranked : k.Ranked

theorem Kernel.Enters.between {k k₁ k' : Kernel} {c : Tid} {b : Bool} (he : Enters k k₁ c b)
    (h : k.Settled c) (hk : k₁.yieldIf b = some k') : k'.Between := by
  cases b with
  | false =>
      cases hk
      have hst : k₁.status c = k.status c := he.status.resolve_right (by simp)
      have hmem : c ∈ k₁.readyList.tids := by
        rw [he.coherent.mem_ready, hst]
        exact (h.mem_ready c).mp h.current_mem
      exact ⟨⟨c, he.coherent, he.onCpu.ready, he.onCpu.current, hmem⟩, he.inOrder, he.noneDue rfl⟩
  | true => exact ⟨(he.coherent.yieldTask he.onCpu hk).settled, he.inOrder.yieldTask he.onCpu hk⟩

theorem Kernel.between_launchAfter {boots : List BootCall} {k : Kernel}
    (h : launchAfter boots = some k) : k.Between := ⟨(settled_launchAfter h).1, ranked_launchAfter h⟩

theorem TaskAction.between {k k' : Kernel} {a : TaskAction} (h : k.Between) (hs : a.step k = some k') :
    k'.Between := by
  obtain ⟨c, hc⟩ := h.settled
  rw [step_eq] at hs
  obtain ⟨⟨k₁, b⟩, he, hk⟩ := Option.bind_eq_some_iff.mp hs
  exact (enters hc h.ranked he).between hc hk

end MosKernel
