import MosKernel.SystemPasses
import MosKernel.Yields
import Mathlib.Data.List.TakeWhile

/-!
# Time slices

`systick_tick` charges every tick to the slice of the running task, and asks for a scheduling pass where
the slice is used up or somebody sleeps.  `next_tcb` cannot tell such a pass from a yield: it moves the
running task behind its equals, with a new slice, wherever that task is `Running`.

`Metered` adds to a system, for each task, the number of ticks charged to it since its slice was last
filled; `counted_step` says that the kernel's own field is what is left.  `Stays` is the condition under
which a pass that finds something of the slice left re-selects the running task, and
`full_slice_is_honoured` follows a task that does nothing but run through any passes that meet it.
-/

namespace MosKernel

open OrderedInsert TaskList Transition Kernel

variable {T : Type} {cap : ℕ → ℕ}

/-! ### What an action does to the slices -/

namespace Kernel

variable {k k₀ k₁ k' : Kernel} {c t u : Tid} {b : Bool}

/-- `next_tcb` moves the entry of `t`, with a new slice, if it runs when the pass begins. -/
def Refills (k : Kernel) (t : Tid) : Prop :=
  ¬(k.status t = .terminated ∨ k.status t = .blocked) ∧ k.Requeues t

instance (k : Kernel) (t : Tid) : Decidable (k.Refills t) := inferInstanceAs (Decidable (_ ∧ _))

theorem timeSlice_setTcb {f : Tcb → Tcb} (hf : (f (k.tcbs u)).timeSlice = (k.tcbs u).timeSlice)
    (t : Tid) : ((k.setTcb u f).tcbs t).timeSlice = (k.tcbs t).timeSlice := by
  rw [setTcb_tcbs, Function.update_apply]
  split_ifs with htu
  · rw [htu]
    exact hf
  · rfl

theorem timeSlice_wakeUpSleepers (k : Kernel) (t : Tid) :
    (k.wakeUpSleepers.tcbs t).timeSlice = (k.tcbs t).timeSlice := by
  refine wakeUpSleepers_induct (P := fun k' => (k'.tcbs t).timeSlice = (k.tcbs t).timeSlice) rfl ?_
  intro k' u h _ _
  rw [← h]
  exact timeSlice_setTcb (k := k'.sleepingRemove u) (f := fun tcb =>
    { tcb with status := .ready, wakePoint := 0 }) rfl t

theorem timeSlice_requeue (k : Kernel) (c t : Tid) : ((k.requeue c).tcbs t).timeSlice =
    if t = c ∧ k.Refills c then MosKernel.timeSlice else (k.tcbs t).timeSlice := by
  unfold requeue Refills Requeues
  by_cases hst : k.status c = .terminated ∨ k.status c = .blocked
  · rw [if_pos hst, if_neg fun h => h.2.1 hst]
    rfl
  · rw [if_neg hst]
    by_cases hre : (k.tcbs c).timeSlice = 0 ∨ k.status c = .running
    · rw [if_pos hre]
      show (Function.update k.tcbs c _ t).timeSlice = _
      rw [Function.update_apply]
      by_cases htc : t = c
      · rw [if_pos htc, if_pos ⟨htc, hst, hre⟩]
      · rw [if_neg htc, if_neg fun h => htc h.1]
    · rw [if_neg hre, if_neg fun h => hre h.2.2]

theorem timeSlice_switchTo (k : Kernel) (c u t : Tid) :
    ((k.switchTo c u).tcbs t).timeSlice = (k.tcbs t).timeSlice := by
  have hset : ∀ (k : Kernel) (u : Tid) (st : TaskStatus),
      ((k.setStatus u st).tcbs t).timeSlice = (k.tcbs t).timeSlice := fun k u st =>
    timeSlice_setTcb (f := fun tcb => { tcb with status := st }) rfl t
  unfold switchTo
  dsimp only
  split_ifs
  · exact (hset _ u .running).trans (hset k c .ready)
  · exact hset k u .running
  · rfl

/-- **The slices after a pass.** -/
theorem timeSlice_nextTcb (ho : k.OnCpu c) (hk : k.nextTcb = some k') (t : Tid) :
    (k'.tcbs t).timeSlice =
      if t = c ∧ k.wakeUpSleepers.Refills c then MosKernel.timeSlice else (k.tcbs t).timeSlice := by
  obtain ⟨st, -, rfl⟩ := nextTcb_eq_some ho hk
  rw [timeSlice_switchTo, timeSlice_requeue, timeSlice_wakeUpSleepers]

theorem current_yieldIf (ho : k.OnCpu c) (hk : k.yieldIf b = some k') :
    ∃ st, k'.currentTcbPtr = some st := by
  cases b with
  | false =>
      cases hk
      exact ⟨c, ho.current⟩
  | true =>
      rw [yieldIf, if_pos rfl, yieldTask, if_pos ho.ready] at hk
      obtain ⟨st, -, rfl⟩ := nextTcb_eq_some ho hk
      refine ⟨st, currentTcbPtr_switchTo ?_⟩
      rw [currentTcbPtr_requeue, currentTcbPtr_wakeUpSleepers, ho.current]

/-! ### A pass that finds something of the slice left -/

/-- An entry of `SLEEPING_LIST` whose time is over. -/
def Due (k : Kernel) (t : Tid) : Prop := t ∈ k.sleepingList.tids ∧ (k.tcbs t).wakePoint ≤ k.osTicks

instance (k : Kernel) (t : Tid) : Decidable (k.Due t) := inferInstanceAs (Decidable (_ ∧ _))

/-- What `wake_up_sleepers` does to a task, in any state. -/
theorem wakeUpSleepers_cases (k : Kernel) (t : Tid) :
    (k.wakeUpSleepers.tcbs t = k.tcbs t ∨ k.Due t ∧ k.wakeUpSleepers.status t = .ready) ∧
      (t ∈ k.wakeUpSleepers.readyList.tids → k.ReadyOrDue t) := by
  obtain ⟨-, hcases, hready⟩ := wakeUpSleepers_induct (k := k)
    (P := fun k' => (∀ t, t ∈ k'.sleepingList.tids → t ∈ k.sleepingList.tids) ∧
      (∀ t, k'.tcbs t = k.tcbs t ∨ k.Due t ∧ k'.status t = .ready) ∧
      ∀ t, t ∈ k'.readyList.tids → k.ReadyOrDue t)
    ⟨fun _ ht => ht, fun _ => .inl rfl, fun _ ht => .inl ht⟩ (by
      rintro k' u ⟨hsleep, hcases, hready⟩ hu hdue
      have hudue : k.Due u := by
        rcases hcases u with hsame | hold
        · exact ⟨hsleep u hu, hsame ▸ hdue⟩
        · exact hold.1
      refine ⟨fun t ht => hsleep t ?_, fun t => ?_, fun t ht => ?_⟩
      · replace ht : t ∈ (k'.sleepingList.remove u).tids := ht
        rw [remove_tids] at ht
        exact List.mem_of_mem_erase ht
      · by_cases htu : t = u
        · refine .inr ⟨htu ▸ hudue, ?_⟩
          rw [expire, status_readyInsert, status_setTcb, if_pos htu]
        · rw [expire, status_readyInsert, status_setTcb, if_neg htu, readyInsert_tcbs, setTcb_tcbs,
            Function.update_of_ne htu]
          exact hcases t
      · rcases mem_of_mem_insertInOrder ht with rfl | ht
        · exact .inr hudue
        · exact hready t ht)
  exact ⟨hcases t, hready t⟩

/-- A task that is `Running` after `wake_up_sleepers` was so before, and was not due. -/
theorem running_of_wakeUpSleepers (hst : k.wakeUpSleepers.status c = .running) :
    k.status c = .running ∧ ¬k.Due c := by
  have hsame : k.wakeUpSleepers.tcbs c = k.tcbs c := by
    refine (wakeUpSleepers_cases k c).1.resolve_right fun h => ?_
    rw [hst] at h
    cases h.2
  refine ⟨?_, fun hdue => ?_⟩
  · rw [Kernel.status, hsame] at hst
    exact hst
  · rcases wakeUpSleepers_of_mem hdue.1 with hm | hready
    · have hlt := wakeUpSleepers_done k c hm
      rw [hsame] at hlt
      exact absurd hlt (BitVec.not_lt.mpr hdue.2)
    · rw [hst] at hready
      cases hready

theorem front_readyInsert_of_lt (hl : k.readyList.tids.length < taskMax)
    (hless : ∀ t ∈ k.readyList.tids, t ≠ c → k.priority c < k.priority t) :
    (k.readyInsert c).readyList.front = some c := by
  have htids : (k.readyInsert c).readyList.tids =
      insertBefore (k.isBefore c) c k.readyList.tids := (insertInOrder_of_lt hl).1
  rw [TaskList.front, htids]
  cases hlist : k.readyList.tids with
  | nil => rfl
  | cons a l =>
      rw [insertBefore_cons]
      by_cases hac : a = c
      · rw [hac]
        split_ifs <;> rfl
      · have hlt := hless a (by rw [hlist]; exact List.mem_cons_self) hac
        have hbefore : k.isBefore c a = true := decide_eq_true hlt
        rw [if_pos hbefore]
        rfl

/-- The running task is re-selected: where the pass moves its entry it has no equal that is ready or due,
and elsewhere its entry is in front of its equals. -/
structure Stays (k : Kernel) (c : Tid) : Prop where
  equals : k.status c = .running → ¬k.Due c →
    ∀ t, t ≠ c → k.ReadyOrDue t → k.priority t ≠ k.priority c
  leads : k.status c = .ready ∨ k.Due c → k.Leads c

theorem leads_iff : k.Leads c ↔ c ∈ k.readyList.tids ∧
    ∀ t ∈ k.readyList.tids.takeWhile (· ≠ c), k.priority t < k.priority c := by
  constructor
  · rintro ⟨pre, suf, hlist, hpre⟩
    refine ⟨by rw [hlist]; simp, fun t ht => hpre t ?_⟩
    have hne : ∀ u ∈ pre, decide (u ≠ c) = true := by
      intro u hu
      rw [decide_eq_true_eq]
      rintro rfl
      exact lt_irrefl _ (hpre u hu)
    rw [hlist, List.takeWhile_append_of_pos hne, List.takeWhile_cons_of_neg (by simp),
      List.append_nil] at ht
    exact ht
  · rintro ⟨hm, hpre⟩
    refine ⟨_, (k.readyList.tids.dropWhile (· ≠ c)).tail, ?_, hpre⟩
    have hne : k.readyList.tids.dropWhile (· ≠ c) ≠ [] := by
      intro hnil
      have hall := List.dropWhile_eq_nil_iff.mp hnil c hm
      simp at hall
    have hhead : (k.readyList.tids.dropWhile (· ≠ c)).head hne = c := by
      have hnot := List.head_dropWhile_not (· ≠ c) hne
      simpa using hnot
    have hcons := List.cons_head_tail hne
    rw [hhead] at hcons
    rw [hcons, List.takeWhile_append_dropWhile]

instance (k : Kernel) : DecidablePred k.Leads := fun _ => decidable_of_iff' _ leads_iff

theorem stays_iff : k.Stays c ↔ (k.status c = .running → ¬k.Due c →
    ∀ t, t ≠ c → k.ReadyOrDue t → k.priority t ≠ k.priority c) ∧
      (k.status c = .ready ∨ k.Due c → k.Leads c) :=
  ⟨fun h => ⟨h.equals, h.leads⟩, fun h => ⟨h.1, h.2⟩⟩

instance (k : Kernel) : DecidablePred k.Stays := fun _ => decidable_of_iff' _ stays_iff

/-- **A pass that finds something of the slice left** and nobody more urgent. -/
theorem Stays.nextTcb (h : k.Stays c) (ho : k.OnCpu c) (hm : c ∈ k.readyList.tids) (hst : k.Awake c)
    (hslice : 0 < (k.tcbs c).timeSlice)
    (hmost : ∀ t, k.ReadyOrDue t → k.priority c ≤ k.priority t) (hk : k.nextTcb = some k') :
    k'.currentTcbPtr = some c := by
  obtain ⟨st, hfront, rfl⟩ := nextTcb_eq_some ho hk
  set w := k.wakeUpSleepers with hw
  have hcases := (wakeUpSleepers_cases k c).1
  have hready : ∀ t ∈ w.readyList.tids, k.ReadyOrDue t := fun t => (wakeUpSleepers_cases k t).2
  have hpri := (frame_wakeUpSleepers k).priority
  have hcur : (w.requeue c).currentTcbPtr = some c := by
    rw [currentTcbPtr_requeue, currentTcbPtr_wakeUpSleepers, ho.current]
  have hmw : c ∈ w.readyList.tids :=
    wakeUpSleepers_induct (P := fun k' => c ∈ k'.readyList.tids) hm
      fun _ _ hm _ _ => mem_ready_expire_of_mem hm
  have haw : w.Awake c := by
    rcases hcases with hsame | hdue
    · rw [Awake, Kernel.status, hsame]
      exact hst
    · exact .inl hdue.2
  rw [currentTcbPtr_switchTo hcur, ← hfront]
  rcases haw with hwst | hwst
  · -- the entry stays where it is
    have hlead : w.Leads c := by
      have hk : k.Leads c := by
        refine h.leads ?_
        rcases hcases with hsame | hdue
        · rw [Kernel.status, hsame] at hwst
          exact .inl hwst
        · exact .inr hdue.1
      refine wakeUpSleepers_induct (P := fun k' => k'.Leads c) hk fun k' u hl _ _ => ?_
      have hrem : (k'.sleepingRemove u).Leads c := hl.congr rfl fun _ _ => rfl
      exact (hrem.setTcb (t := u) (f := fun tcb => { tcb with status := .ready, wakePoint := 0 })
        rfl).readyInsert u
    have hre : ¬w.Requeues c := by
      rw [Requeues, hw, timeSlice_wakeUpSleepers, ← hw, hwst]
      simp [hslice.ne']
    rw [requeue_of_not_requeues (.inl hwst) hre]
    refine hlead.front fun t ht => ?_
    rw [hpri, hpri]
    exact hmost t (hready t ht)
  · -- the entry is moved, and nobody is as urgent
    obtain ⟨hrun, hdue⟩ := running_of_wakeUpSleepers hwst
    rw [requeue_of_requeues (.inr hwst) (.inr hwst)]
    set k₁ := w.setTcb c fun tcb => { tcb with timeSlice := MosKernel.timeSlice, status := .ready }
      with hk₁
    have hp : ∀ t, (k₁.readyRemove c).priority t = k.priority t := by
      intro t
      rw [← hpri t]
      show k₁.priority t = w.priority t
      rw [hk₁, priority_setTcb]
      split_ifs with htc
      · rw [htc]
        rfl
      · rfl
    have herase : (k₁.readyRemove c).readyList.tids = w.readyList.tids.erase c := by
      rw [readyRemove_readyList, remove_tids]
      rfl
    refine front_readyInsert_of_lt ?_ fun t ht htc => ?_
    · have hpos := List.length_pos_of_mem hmw
      have hcap := w.readyList.le_cap
      rw [herase, List.length_erase_of_mem hmw]
      omega
    · rw [herase] at ht
      have hrd := hready t (List.mem_of_mem_erase ht)
      rw [hp, hp]
      exact lt_of_le_of_ne (hmost t hrd) (Ne.symm (h.equals hrun hdue t htc hrd))

/-- In coherent states with the list in order the condition is exact. -/
theorem Coherent.nextTcb_stays_iff (h : k.Coherent) (ho : k.OnCpu c) (hin : k.InOrder) (hl : k.Leads c)
    (hst : k.Awake c) (hslice : 0 < (k.tcbs c).timeSlice)
    (hmost : ∀ t, k.ReadyOrDue t → k.priority c ≤ k.priority t) (hk : k.nextTcb = some k') :
    k'.currentTcbPtr = some c ↔ k.Stays c := by
  have hm := (h.mem_ready c).mpr hst
  constructor
  · intro hcur
    refine ⟨fun hrun _ t htc ht heq => ?_, fun _ => hl⟩
    have hgives := h.nextTcb_current ho hin (by rw [hrun]; simp) (by rw [hrun]; simp) hk
    exact hgives.mpr (fun _ => ⟨t, htc, ht, heq.le⟩) hcur
  · intro hstays
    exact hstays.nextTcb ho hm hst hslice hmost hk

/-! ### The writes before a pass -/

theorem timeSlice_ticked (k : Kernel) (c t : Tid) (n : ℕ) : ((k.ticked c n).tcbs t).timeSlice =
    (k.tcbs t).timeSlice - if t = c then n else 0 := by
  show (Function.update k.tcbs c _ t).timeSlice = _
  rw [Function.update_apply]
  split_ifs with htc
  · rw [htc]
  · rfl

theorem timeSlice_addTask {p : ℕ} {name : String} (ha : k.allocTid = some (u, k₀)) (t : Tid) :
    ((k₀.addTask u p name).tcbs t).timeSlice =
      if u = t then MosKernel.timeSlice else (k.tcbs t).timeSlice := by
  obtain ⟨-, rfl⟩ := allocTid_eq_some ha
  show (Function.update (Function.update k.tcbs u (.empty u)) u _ t).timeSlice = _
  rw [Function.update_apply, Function.update_apply]
  by_cases htu : t = u
  · rw [if_pos htu, if_pos htu.symm]
  · rw [if_neg htu, if_neg htu, if_neg (Ne.symm htu)]

theorem OnCpu.addTask {p : ℕ} {name : String} (ho : k.OnCpu c) (ha : k.allocTid = some (u, k₀)) :
    (k₀.addTask u p name).OnCpu c := by
  obtain ⟨-, rfl⟩ := allocTid_eq_some ha
  refine ⟨ho.ready, ho.current, ?_⟩
  show (Function.update (Function.update k.tcbs u (.empty u)) u _ c).tid = c
  by_cases hcu : c = u
  · rw [hcu, Function.update_self]
    show (Function.update k.tcbs u (.empty u) u).tid = u
    rw [Function.update_self]
    rfl
  · rw [Function.update_of_ne hcu, Function.update_of_ne hcu]
    exact ho.tid

theorem timeSlice_launchAfter {boots : List BootCall} (h : launchAfter boots = some k) (t : Tid) :
    (k.tcbs t).timeSlice = MosKernel.timeSlice := by
  have hadd : ∀ (k : Kernel) (u : Tid) (k₁ : Kernel) (p : ℕ) (name : String), k.Booting →
      (k.tcbs t).timeSlice = MosKernel.timeSlice → k.allocTid = some (u, k₁) →
      ((k₁.addTask u p name).tcbs t).timeSlice = MosKernel.timeSlice := by
    intro k u k₁ p name _ hk ha
    rw [timeSlice_addTask ha, hk, ite_self]
  obtain ⟨k₁, first, -, hslice, -, rfl⟩ :=
    launchAfter_induct (P := fun k => (k.tcbs t).timeSlice = MosKernel.timeSlice) rfl hadd h
  rw [← hslice]
  exact timeSlice_setTcb (k := k₁) (u := first) (f := fun tcb => { tcb with status := .running }) rfl t

end Kernel

namespace System

variable {σ σ' : System T} {a : Action T} {c : Tid} {k₁ : Kernel} {b : Bool}

theorem onCpu_enter (ho : σ.kernel.OnCpu c) (he : σ.enter cap a = some (k₁, b)) : k₁.OnCpu c := by
  by_cases hticks : a.ticks = 0
  · cases hnew : a.creates σ with
    | none => exact (keeps_enter he hticks hnew).onCpu ho
    | some u =>
        obtain ⟨k₀, p, name, ha, rfl⟩ := enter_creates he hnew
        exact ho.addTask ha
  · cases a with
    | systick missed =>
        replace he : σ.kernel.systickReplay missed = some (k₁, b) := he
        rw [systickReplay_eq ho] at he
        cases he
        exact ho.ticked _
    | _ => exact absurd rfl hticks

/-- **The slices when the pass begins.** -/
theorem timeSlice_enter (ho : σ.kernel.OnCpu c) (he : σ.enter cap a = some (k₁, b)) (t : Tid) :
    (k₁.tcbs t).timeSlice = if a.creates σ = some t then timeSlice
      else (σ.kernel.tcbs t).timeSlice - if t = c then a.ticks else 0 := by
  by_cases hticks : a.ticks = 0
  · have hzero : (σ.kernel.tcbs t).timeSlice - (if t = c then a.ticks else 0) =
        (σ.kernel.tcbs t).timeSlice := by
      rw [hticks, ite_self, Nat.sub_zero]
    rw [hzero]
    cases hnew : a.creates σ with
    | none =>
        rw [if_neg (by simp)]
        exact (keeps_enter he hticks hnew).timeSlice t
    | some u =>
        obtain ⟨k₀, p, name, ha, rfl⟩ := enter_creates he hnew
        rw [timeSlice_addTask ha]
        simp only [Option.some.injEq]
  · cases a with
    | systick missed =>
        replace he : σ.kernel.systickReplay missed = some (k₁, b) := he
        rw [systickReplay_eq ho] at he
        cases he
        exact timeSlice_ticked σ.kernel c t (missed + 1)
    | _ => exact absurd rfl hticks

end System

/-! ### The ticks charged since a slice was filled -/

/-- The action is an interrupt. -/
def Action.interrupts : Action T → Bool
  | .call _ => false
  | .proceed => false
  | _ => true

/-- How many ticks an action charges to the running task: none where the slice is over. -/
def Action.charges (k : Kernel) (a : Action T) : ℕ :=
  (k.crTid.map fun c => min (k.tcbs c).timeSlice a.ticks).getD 0

namespace System

/-- The action makes the task `t`, or a pass in which `next_tcb` moves its entry. -/
def Fills (cap : ℕ → ℕ) (σ : System T) (a : Action T) (t : Tid) : Prop :=
  a.creates σ = some t ∨
    ∃ r ∈ σ.enter cap a, r.2 = true ∧ r.1.crTid = some t ∧ r.1.wakeUpSleepers.Refills t

instance (cap : ℕ → ℕ) (σ : System T) (a : Action T) : DecidablePred (σ.Fills cap a) := fun t =>
  inferInstanceAs (Decidable (a.creates σ = some t ∨
    ∃ r ∈ σ.enter cap a, r.2 = true ∧ r.1.crTid = some t ∧ r.1.wakeUpSleepers.Refills t))

end System

/-- A system with the number of ticks charged to each task since its slice was last filled. -/
structure Metered (T : Type) where
  system : System T
  charged : Tid → ℕ

namespace Metered

variable {s s' : Metered T} {a : Action T} {c t : Tid}

def init (σ : System T) : Metered T := ⟨σ, fun _ => 0⟩

def step (cap : ℕ → ℕ) (s : Metered T) (a : Action T) : Option (Metered T) :=
  (s.system.step cap a).map fun σ => ⟨σ, fun t =>
    if s.system.Fills cap a t then 0
    else s.charged t + if s.system.kernel.crTid = some t then a.charges s.system.kernel else 0⟩

theorem system_step (hs : s.step cap a = some s') : s.system.step cap a = some s'.system := by
  obtain ⟨σ, hσ, rfl⟩ := Option.map_eq_some_iff.mp hs
  exact hσ

/-- The kernel's own field is what is left of the slice. -/
structure Counted (s : Metered T) : Prop where
  within : ∃ P, s.system.Within P
  onCpu : ∃ c, s.system.kernel.OnCpu c
  left : ∀ t, s.charged t + (s.system.kernel.tcbs t).timeSlice = timeSlice

theorem counted_init {boots : List BootCall} {k₀ : Kernel} {counts : ℕ → ℤ}
    (hl : launchAfter boots = some k₀) : Counted (.init (.init k₀ counts) : Metered T) := by
  obtain ⟨⟨c, hc⟩, -⟩ := settled_launchAfter hl
  refine ⟨⟨_, System.within_init hl⟩, ⟨c, hc.onCpu⟩, fun t => ?_⟩
  rw [init, Nat.zero_add]
  exact timeSlice_launchAfter hl t

theorem Counted.step (h : s.Counted) (hs : s.step cap a = some s') : s'.Counted := by
  obtain ⟨σ', hσ, rfl⟩ := Option.map_eq_some_iff.mp hs
  obtain ⟨P, hP⟩ := h.within
  obtain ⟨c, ho⟩ := h.onCpu
  obtain ⟨k₁, b, he, hk⟩ := System.enter_of_step hσ
  have ho₁ := System.onCpu_enter ho he
  have hP' := (hP.step hσ).kernel
  obtain ⟨c', hc'⟩ := current_yieldIf ho₁ hk
  refine ⟨⟨_, hP.step hσ⟩, ⟨c', hP'.schedReady, hc', hP'.tid c' (hP'.current c' hc')⟩, fun t => ?_⟩
  have hslice := System.timeSlice_enter ho he t
  have ht := h.left t
  have hcharges : a.charges s.system.kernel = min (s.system.kernel.tcbs c).timeSlice a.ticks := by
    rw [Action.charges, ho.crTid, Option.map_some, Option.getD_some]
  have hfills : s.system.Fills cap a t ↔
      a.creates s.system = some t ∨ b = true ∧ c = t ∧ k₁.wakeUpSleepers.Refills t := by
    unfold System.Fills
    rw [he]
    simp [ho₁.crTid]
  show (if s.system.Fills cap a t then 0
    else s.charged t + if s.system.kernel.crTid = some t then a.charges s.system.kernel else 0) +
      (σ'.kernel.tcbs t).timeSlice = timeSlice
  rw [ho.crTid, hcharges]
  simp only [hfills, Option.some.injEq]
  -- the slice after the pass, if there is one
  have hpass : (σ'.kernel.tcbs t).timeSlice =
      if b = true ∧ c = t ∧ k₁.wakeUpSleepers.Refills t then timeSlice
      else (k₁.tcbs t).timeSlice := by
    cases b with
    | false =>
        cases hk
        rw [if_neg fun h => by cases h.1]
    | true =>
        rw [yieldIf, if_pos rfl, yieldTask, if_pos ho₁.ready] at hk
        rw [timeSlice_nextTcb ho₁ hk]
        refine if_congr ⟨fun hc => ⟨rfl, hc.1.symm, hc.1 ▸ hc.2⟩, fun hc => ⟨hc.2.1.symm, hc.2.1 ▸ hc.2.2⟩⟩
          rfl rfl
  rw [hpass]
  by_cases hfill : b = true ∧ c = t ∧ k₁.wakeUpSleepers.Refills t
  · rw [if_pos (.inr hfill), if_pos hfill, Nat.zero_add]
  · rw [if_neg hfill, hslice]
    by_cases hnew : a.creates s.system = some t
    · rw [if_pos (.inl hnew), if_pos hnew, Nat.zero_add]
    · rw [if_neg (not_or.mpr ⟨hnew, hfill⟩), if_neg hnew]
      by_cases htc : t = c
      · subst htc
        rw [if_pos rfl, if_pos rfl]
        omega
      · rw [if_neg (Ne.symm htc), if_neg htc]
        omega

/-! ### A task that only runs -/

/-- While `c` runs it neither yields nor blocks, nobody more urgent is ready or due, and after the action
fewer than `TIME_SLICE` ticks have been charged to it. -/
structure Undisturbed (cap : ℕ → ℕ) (c : Tid) (s : Metered T) (a : Action T) : Prop where
  /-- only an interrupt makes a pass -/
  keeps : ∀ r ∈ s.system.enter cap a, r.2 = true → a.interrupts = true
  runs : ∀ r ∈ s.system.enter cap a, c ∈ r.1.readyList.tids ∧ r.1.Awake c
  most : ∀ r ∈ s.system.enter cap a, ∀ t, r.1.ReadyOrDue t → r.1.priority c ≤ r.1.priority t
  left : s.charged c + a.charges s.system.kernel < timeSlice

theorem undisturbed_iff : Undisturbed cap c s a ↔
    (∀ r ∈ s.system.enter cap a, r.2 = true → a.interrupts = true) ∧
    (∀ r ∈ s.system.enter cap a, c ∈ r.1.readyList.tids ∧ r.1.Awake c) ∧
    (∀ r ∈ s.system.enter cap a, ∀ t, r.1.ReadyOrDue t → r.1.priority c ≤ r.1.priority t) ∧
    s.charged c + a.charges s.system.kernel < timeSlice :=
  ⟨fun h => ⟨h.keeps, h.runs, h.most, h.left⟩, fun h => ⟨h.1, h.2.1, h.2.2.1, h.2.2.2⟩⟩

instance (cap : ℕ → ℕ) (c : Tid) (s : Metered T) (a : Action T) : Decidable (Undisturbed cap c s a) :=
  decidable_of_iff' _ undisturbed_iff

/-- In the pass of the action, if it makes one, `c` is re-selected. -/
def Stays (cap : ℕ → ℕ) (c : Tid) (s : Metered T) (a : Action T) : Prop :=
  ∀ r ∈ s.system.enter cap a, r.2 = true → r.1.Stays c

instance (cap : ℕ → ℕ) (c : Tid) (s : Metered T) (a : Action T) : Decidable (Stays cap c s a) :=
  inferInstanceAs (Decidable (∀ r ∈ s.system.enter cap a, r.2 = true → r.1.Stays c))

theorem Counted.stays (h : s.Counted) (hc : s.system.kernel.currentTcbPtr = some c)
    (hu : Undisturbed cap c s a) (hst : Stays cap c s a) (hs : s.step cap a = some s') :
    s'.system.kernel.currentTcbPtr = some c := by
  have hσ := system_step hs
  obtain ⟨c', ho⟩ := h.onCpu
  obtain rfl : c' = c := Option.some.inj (ho.current.symm.trans hc)
  obtain ⟨k₁, b, he, hk⟩ := System.enter_of_step hσ
  have ho₁ := System.onCpu_enter ho he
  cases b with
  | false =>
      obtain rfl : k₁ = s'.system.kernel := Option.some.inj hk
      exact ho₁.current
  | true =>
      obtain ⟨hm, hawake⟩ := hu.runs _ he
      have hint : a.interrupts = true := hu.keeps _ he rfl
      have hnew : a.creates s.system ≠ some c' := by
        cases a with
        | call call => cases hint
        | _ => simp [Action.creates]
      have hslice := System.timeSlice_enter ho he c'
      rw [if_neg hnew, if_pos rfl] at hslice
      have hleft : 0 < (k₁.tcbs c').timeSlice := by
        have hcount := h.left c'
        have hcharge := hu.left
        rw [Action.charges, ho.crTid, Option.map_some, Option.getD_some] at hcharge
        omega
      rw [yieldIf, if_pos rfl, yieldTask, if_pos ho₁.ready] at hk
      exact (hst _ he rfl).nextTcb ho₁ hm hawake hleft (hu.most _ he) hk

end Metered

/-- **When a full time slice is honoured.**  Take any run of all calls and interrupts from a launch to a
state in which `c` runs, and go on from there while `c` neither yields nor blocks, nobody more urgent is
ready or due and the slice of `c` is not used up.  If in every pass on the way `c`, where it is `Running`,
has no equal that is ready or due and, where it is `Ready`, is in front of its equals on `READY_LIST`, then
`c` runs in every state. -/
theorem full_slice_is_honoured {boots : List BootCall} {k₀ : Kernel} {counts : ℕ → ℤ}
    {s₀ s : Metered T} {tr₀ tr : List (Metered T × Action T)} {c : Tid}
    (hl : launchAfter boots = some k₀)
    (h₀ : Run (Metered.step cap) (fun _ _ => True) (.init (.init k₀ counts)) tr₀ s₀)
    (hc : s₀.system.kernel.currentTcbPtr = some c)
    (hr : Run (Metered.step cap) (Metered.Undisturbed cap c) s₀ tr s)
    (hst : ∀ e ∈ tr, Metered.Stays cap c e.1 e.2) :
    Always (fun s => s.system.kernel.currentTcbPtr = some c) tr s := by
  have hcount : s₀.Counted := by
    refine h₀.invariant (I := Metered.Counted) (Metered.counted_init hl) ?_
    intro s a s' h _ hs
    exact h.step hs
  have hboth : Always (fun s => s.Counted ∧ s.system.kernel.currentTcbPtr = some c) tr s := by
    refine (hr.strengthen hst).always ⟨hcount, hc⟩ ?_
    rintro s a s' ⟨h, hc⟩ ⟨hu, hst⟩ hs
    exact ⟨h.step hs, h.stays hc hu hst hs⟩
  exact ⟨fun e he => (hboth.1 e he).2, hboth.2.2⟩

/-- A task that was alone at its last yield is `Ready`, and keeps the processor for 24 ticks and a request
of an interrupt handler, with an equal that is ready and another task asleep. -/
theorem full_slice_is_honoured_run : ∃ k₀ tr₀ tr, ∃ s₀ s : Metered Unit,
    launchAfter [.create 2 "s", .create 3 "a"] = some k₀ ∧
    Run (Metered.step fun _ => 4) (fun _ _ => True) (.init (.init k₀ fun _ => 0)) tr₀ s₀ ∧
    Run (Metered.step fun _ => 4) (Metered.Undisturbed (fun _ => 4) 1) s₀ tr s ∧
    (s.charged 1 = 24 ∧ s.system.kernel.readyList.tids = [1, 3, 2] ∧
      s.system.kernel.sleepingList.tids = [0] ∧ s.system.kernel.priority 3 = s.system.kernel.priority 1) ∧
    Always (fun s => s.system.kernel.currentTcbPtr = some 1) tr s := by
  have hsome : (launchAfter [.create 2 "s", .create 3 "a"]).isSome = true := by decide +kernel
  obtain ⟨k₀, hk₀⟩ := Option.isSome_iff_exists.mp hsome
  have hexec : ((launchAfter [.create 2 "s", .create 3 "a"]).bind fun k₀ =>
      exec (Metered.step fun _ => 4) (fun _ _ => true)
        (.init (.init k₀ fun _ => 0) : Metered Unit)
        [.call (.task (.delay 100)), .call (.task .yieldTask), .call (.task (.create 3 "b"))]).any
      (fun s₀ => decide (s₀.system.kernel.currentTcbPtr = some 1) &&
        (exec (Metered.step fun _ => 4) (fun s a => decide (Metered.Undisturbed (fun _ => 4) 1 s a ∧
          Metered.Stays (fun _ => 4) 1 s a)) s₀
          [.systick 0, .systick 2, .preempt, .systick 19]).any fun s =>
            decide (s.charged 1 = 24 ∧ s.system.kernel.readyList.tids = [1, 3, 2] ∧
              s.system.kernel.sleepingList.tids = [0] ∧
              s.system.kernel.priority 3 = s.system.kernel.priority 1)) = true := by decide +kernel
  rw [hk₀, Option.bind_some] at hexec
  obtain ⟨tr₀, s₀, hr₀, hs₀⟩ := exists_run_of_exec (fun _ _ _ => trivial) hexec
  rw [Bool.and_eq_true] at hs₀
  obtain ⟨tr, s, hr, hs⟩ := exists_run_of_exec (fun (s : Metered Unit) (a : Action Unit)
    (h : decide (Metered.Undisturbed (fun _ => 4) 1 s a ∧ Metered.Stays (fun _ => 4) 1 s a) = true) =>
      of_decide_eq_true h) hs₀.2
  have hrun : Run (Metered.step fun _ => 4) (Metered.Undisturbed (fun _ => 4) 1) s₀ tr s :=
    hr.mono fun _ _ h => h.1
  exact ⟨k₀, tr₀, tr, s₀, s, hk₀, hr₀, hrun, of_decide_eq_true hs,
    full_slice_is_honoured hk₀ hr₀ (of_decide_eq_true hs₀.1) hrun fun e he => (hr.forall_guard e he).2⟩

/-- While a task sleeps, the first tick of a new slice rotates the running task behind its equal. -/
theorem slice_is_cut_short : ∃ k₀ tr₀ tr, ∃ s₀ s : Metered Unit,
    launchAfter [.create 2 "s", .create 3 "a", .create 3 "b"] = some k₀ ∧
    Run (Metered.step fun _ => 4) (fun _ _ => True) (.init (.init k₀ fun _ => 0)) tr₀ s₀ ∧
    s₀.system.kernel.currentTcbPtr = some 1 ∧ s₀.charged 1 = 0 ∧
    Run (Metered.step fun _ => 4) (Metered.Undisturbed (fun _ => 4) 1) s₀ tr s ∧ tr.length = 1 ∧
    ¬Always (fun s => s.system.kernel.currentTcbPtr = some 1) tr s := by
  have hsome : (launchAfter [.create 2 "s", .create 3 "a", .create 3 "b"]).isSome = true := by
    decide +kernel
  obtain ⟨k₀, hk₀⟩ := Option.isSome_iff_exists.mp hsome
  have hexec : ((launchAfter [.create 2 "s", .create 3 "a", .create 3 "b"]).bind fun k₀ =>
      exec (Metered.step fun _ => 4) (fun _ _ => true)
        (.init (.init k₀ fun _ => 0) : Metered Unit) [.call (.task (.delay 100))]).any
      (fun s₀ => decide (s₀.system.kernel.currentTcbPtr = some 1 ∧ s₀.charged 1 = 0 ∧
          Metered.Undisturbed (fun _ => 4) 1 s₀ (.systick 0)) &&
        (s₀.step (fun _ => 4) (.systick 0)).any fun s =>
          decide (s.system.kernel.currentTcbPtr = some 2)) = true := by decide +kernel
  rw [hk₀, Option.bind_some] at hexec
  obtain ⟨tr₀, s₀, hr₀, hs₀⟩ := exists_run_of_exec (fun _ _ _ => trivial) hexec
  rw [Bool.and_eq_true] at hs₀
  obtain ⟨hcur, hcharged, hu⟩ := of_decide_eq_true hs₀.1
  obtain ⟨s, hs, hq⟩ := (Option.any_eq_true _ _).mp hs₀.2
  refine ⟨k₀, tr₀, _, s₀, s, hk₀, hr₀, hcur, hcharged, .next .start hu hs, rfl, fun hall => ?_⟩
  rw [hall.2] at hq
  cases of_decide_eq_true hq

end MosKernel
