import MosKernel.Permits
import MosKernel.SemaSteps
import Mathlib.Algebra.BigOperators.Group.Finset.Basic
import Mathlib.Algebra.BigOperators.Group.Finset.Piecewise
import Mathlib.Data.Fintype.Basic

/-!
# Tokens of a semaphore

Every token that a semaphore was made with or has been given is free, or has been granted to a call;
a waiter has been granted one as soon as an `up` takes it off the queue.  `System.granted` counts the
grants and `tokens_conserved` is the balance.

`Sema::down` trusts that it was resumed by an `up`.  A timed wait that was ended by an `up` leaves
entries on the scheduler lists which can resume a later `down` of the same task, so the lists cannot
be assumed coherent here: all that is needed of them is `Off`, a waiter that is on no list and cannot
run.  `BlocksCleanly` says that a `down` that blocks gets there.
-/

namespace MosKernel

open OrderedInsert TaskList Transition Kernel

/-! ### Switches on lists that may be damaged -/

namespace Kernel

variable {k k' : Kernel} {c t u w : Tid}

/-- Task `t` cannot run: it is not running, and nothing but a wake-up makes it ready. -/
structure Off (k : Kernel) (t : Tid) : Prop where
  ready : t ∉ k.readyList.tids
  sleeping : t ∉ k.sleepingList.tids
  current : k.currentTcbPtr ≠ some t

/-- The tasks on the scheduler lists know their own identifiers. -/
def Named (k : Kernel) : Prop :=
  ∀ t, t ∈ k.readyList.tids ∨ t ∈ k.sleepingList.tids → (k.tcbs t).tid = t

/-- Some task runs, the lists name tasks, and who was off still is. -/
structure Kept (k k' : Kernel) : Prop where
  onCpu : ∃ c, k'.OnCpu c
  named : k'.Named
  tid : ∀ t, (k'.tcbs t).tid = (k.tcbs t).tid
  off : ∀ t, k.Off t → k'.Off t

/-- `wake_up_sleepers` moves tasks from one list to the other. -/
theorem mem_wakeUpSleepers (k : Kernel) :
    (∀ t ∈ k.wakeUpSleepers.readyList.tids, t ∈ k.readyList.tids ∨ t ∈ k.sleepingList.tids) ∧
      ∀ t ∈ k.wakeUpSleepers.sleepingList.tids, t ∈ k.sleepingList.tids := by
  refine wakeUpSleepers_induct
    (P := fun k' => (∀ t ∈ k'.readyList.tids, t ∈ k.readyList.tids ∨ t ∈ k.sleepingList.tids) ∧
      ∀ t ∈ k'.sleepingList.tids, t ∈ k.sleepingList.tids) ⟨fun _ => .inl, fun _ => id⟩ ?_
  rintro k' t ⟨hr, hs⟩ ht -
  constructor
  · intro u hu
    rcases mem_of_mem_readyInsert hu with rfl | hu
    · exact .inr (hs u ht)
    · exact hr u hu
  · intro u hu
    have hu' : u ∈ (k'.sleepingList.remove t).tids := hu
    rw [remove_tids] at hu'
    exact hs u (List.mem_of_mem_erase hu')

/-- A switch runs a task from `READY_LIST`, and puts on the lists only the outgoing task and tasks
that are on them already. -/
theorem nextTcb_lists (ho : k.OnCpu c) (hk : k.nextTcb = some k') :
    (∃ st ∈ k'.readyList.tids, k'.currentTcbPtr = some st) ∧
      (∀ t ∈ k'.readyList.tids, t = c ∨ t ∈ k.readyList.tids ∨ t ∈ k.sleepingList.tids) ∧
      ∀ t ∈ k'.sleepingList.tids, t ∈ k.sleepingList.tids := by
  obtain ⟨st, hst, rfl⟩ := nextTcb_eq_some ho hk
  obtain ⟨hwr, hws⟩ := mem_wakeUpSleepers k
  rw [readyList_switchTo, sleepingList_switchTo, sleepingList_requeue]
  refine ⟨⟨st, List.mem_of_mem_head? hst, ?_⟩, fun t ht => ?_, hws⟩
  · refine currentTcbPtr_switchTo ?_
    rw [currentTcbPtr_requeue, currentTcbPtr_wakeUpSleepers, ho.current]
  · rcases mem_of_mem_requeue ht with rfl | ht
    · exact .inl rfl
    · exact .inr (hwr t ht)

/-- **A switch resumes nobody who is off.** -/
theorem nextTcb_kept (ho : k.OnCpu c) (hn : k.Named) (hk : k.nextTcb = some k') : Kept k k' := by
  have hf := frame_nextTcb hk
  obtain ⟨⟨st, hst, hcur⟩, hr, hs⟩ := nextTcb_lists ho hk
  have hname : ∀ t, t ∈ k'.readyList.tids ∨ t ∈ k'.sleepingList.tids → (k'.tcbs t).tid = t := by
    rintro t (ht | ht)
    · rw [hf.tid]
      rcases hr t ht with rfl | ht
      · exact ho.tid
      · exact hn t ht
    · rw [hf.tid]
      exact hn t (.inr (hs t ht))
  refine ⟨⟨st, hf.schedReady.trans ho.ready, hcur, hname st (.inl hst)⟩, hname, hf.tid,
    fun t ht => ?_⟩
  have hready : t ∉ k'.readyList.tids := by
    intro hm
    rcases hr t hm with rfl | hm | hm
    · exact ht.current ho.current
    · exact ht.ready hm
    · exact ht.sleeping hm
  refine ⟨hready, fun hm => ht.sleeping (hs t hm), ?_⟩
  rw [hcur]
  rintro h
  cases h
  exact hready hst

theorem Kept.trans {k₁ : Kernel} (h : Kept k k₁) (h' : Kept k₁ k') : Kept k k' :=
  ⟨h'.onCpu, h'.named, fun t => (h'.tid t).trans (h.tid t), fun t ht => h'.off t (h.off t ht)⟩

theorem OnCpu.kept (ho : k.OnCpu c) (hn : k.Named) : Kept k k :=
  ⟨⟨c, ho⟩, hn, fun _ => rfl, fun _ => id⟩

theorem yieldIf_kept {b : Bool} (ho : k.OnCpu c) (hn : k.Named) (hk : k.yieldIf b = some k') :
    Kept k k' := by
  unfold Kernel.yieldIf at hk
  split_ifs at hk
  · rw [yieldTask, if_pos ho.ready] at hk
    exact nextTcb_kept ho hn hk
  · cases hk
    exact ho.kept hn

/-- A tick touches no list. -/
theorem tick_kept {r : Bool} (ho : k.OnCpu c) (hn : k.Named) (hk : k.systickTick = some (k', r)) :
    k'.OnCpu c ∧ Kept k k' := by
  rw [systickTick_eq ho] at hk
  cases hk
  have hf := (frame_advanceTicks k).trans (frame_chargeSlice k.advanceTicks c)
  have hsame : (k.advanceTicks.chargeSlice c).currentTcbPtr = k.currentTcbPtr ∧
      (k.advanceTicks.chargeSlice c).readyList = k.readyList ∧
      (k.advanceTicks.chargeSlice c).sleepingList = k.sleepingList := by
    unfold chargeSlice
    split_ifs <;> exact ⟨rfl, rfl, rfl⟩
  obtain ⟨hc, hr, hs⟩ := hsame
  have ho' := ho.of_frame hf hc
  refine ⟨ho', ⟨c, ho'⟩, fun t ht => ?_, hf.tid, fun t ht => ?_⟩
  · rw [hf.tid]
    rw [hr, hs] at ht
    exact hn t ht
  · exact ⟨by rw [hr]; exact ht.ready, by rw [hs]; exact ht.sleeping, by rw [hc]; exact ht.current⟩

theorem systickReplay_kept {missed : ℕ} {r : Bool} (ho : k.OnCpu c) (hn : k.Named)
    (hk : k.systickReplay missed = some (k', r)) : k'.OnCpu c ∧ Kept k k' := by
  induction missed generalizing k' r with
  | zero => exact tick_kept ho hn hk
  | succ missed ih =>
      obtain ⟨⟨k₁, r₁⟩, hk₁, hk⟩ := Option.bind_eq_some_iff.mp hk
      obtain ⟨⟨k₂, r₂⟩, hk₂, hk⟩ := Option.bind_eq_some_iff.mp hk
      cases hk
      obtain ⟨ho₁, hkept⟩ := ih hk₁
      obtain ⟨ho₂, hkept'⟩ := tick_kept ho₁ hkept.named hk₂
      exact ⟨ho₂, hkept.trans hkept'⟩

theorem systickTrap_kept {missed : ℕ} (ho : k.OnCpu c) (hn : k.Named)
    (hk : k.systickTrap missed = some k') : Kept k k' := by
  obtain ⟨⟨k₁, r⟩, hk₁, hk⟩ := Option.bind_eq_some_iff.mp hk
  obtain ⟨ho₁, hkept⟩ := systickReplay_kept ho hn hk₁
  exact hkept.trans (yieldIf_kept ho₁ hkept.named hk)

/-- Waking a task `w` that knows its identifier. -/
theorem wake_named (hn : k.Named) (hw : (k.tcbs w).tid = w) : (k.wake w).Named := by
  intro t ht
  rw [(frame_wake k w).tid]
  rcases ht with ht | ht
  · rcases mem_of_mem_readyInsert ht with rfl | ht
    · exact hw
    · exact hn t (.inl ht)
  · exact hn t (.inr ht)

theorem Off.wake (h : k.Off t) (htw : t ≠ w) : (k.wake w).Off t := by
  refine ⟨fun hm => ?_, h.sleeping, h.current⟩
  rcases mem_of_mem_readyInsert hm with rfl | hm
  · exact htw rfl
  · exact h.ready hm

theorem park_kept (ho : k.OnCpu c) (hn : k.Named) : Kept k (k.park c) := by
  have hsub : ∀ t ∈ (k.park c).readyList.tids, t ∈ k.readyList.tids := by
    intro t ht
    have ht' : t ∈ (k.readyList.remove c).tids := ht
    rw [remove_tids] at ht'
    exact List.mem_of_mem_erase ht'
  refine ⟨⟨c, ho.park c⟩, fun t ht => ?_, (frame_park k c).tid, fun t ht => ?_⟩
  · rw [(frame_park k c).tid]
    exact hn t (ht.imp (hsub t) id)
  · exact ⟨fun hm => ht.ready (hsub t hm), ht.sleeping, ht.current⟩

/-- Going to sleep adds the running task to `SLEEPING_LIST`. -/
theorem sleep_kept {ticks : BitVec 32} (ho : k.OnCpu c) (hn : k.Named) :
    Kept k (k.sleep c ticks) := by
  have hready : ∀ t ∈ (k.sleep c ticks).readyList.tids, t ∈ k.readyList.tids := by
    intro t ht
    have ht' : t ∈ (k.readyList.remove c).tids := ht
    rw [remove_tids] at ht'
    exact List.mem_of_mem_erase ht'
  have hsleep : ∀ t ∈ (k.sleep c ticks).sleepingList.tids, t = c ∨ t ∈ k.sleepingList.tids :=
    fun t ht => mem_of_mem_insertInOrder ht
  have hf := frame_sleep k c ticks
  refine ⟨⟨c, ho.of_frame hf rfl⟩, fun t ht => ?_, hf.tid, fun t ht => ?_⟩
  · rw [hf.tid]
    rcases ht with ht | ht
    · exact hn t (.inl (hready t ht))
    · rcases hsleep t ht with rfl | ht
      · exact ho.tid
      · exact hn t (.inr ht)
  · refine ⟨fun hm => ht.ready (hready t hm), fun hm => ?_, ht.current⟩
    rcases hsleep t hm with rfl | hm
    · exact ht.current ho.current
    · exact ht.sleeping hm

theorem delay_kept {ticks : BitVec 32} (ho : k.OnCpu c) (hn : k.Named)
    (hk : k.delay ticks = some k') : Kept k k' := by
  unfold delay at hk
  split_ifs at hk
  · cases hk
    exact ho.kept hn
  · rw [ho.crTid] at hk
    have hs : Kept k (k.sleep c ticks) := sleep_kept ho hn
    have hy : (k.sleep c ticks).yieldIf true = some k' := hk
    exact hs.trans (yieldIf_kept (ho.of_frame (frame_sleep k c ticks) rfl) hs.named hy)

/-- **Blocking cleanly.**  A running task that does not sleep and has at most two entries on
`READY_LIST` is off once it has blocked: it removes one entry itself, and `next_tcb` the other. -/
theorem off_of_park (ho : k.OnCpu c) (hs : c ∉ k.sleepingList.tids)
    (hcount : k.readyList.tids.count c ≤ 2) (hk : (k.park c).yieldIf true = some k') :
    k'.Off c := by
  have ho₁ := ho.park c
  rw [Kernel.yieldIf, if_pos rfl, yieldTask, if_pos ho₁.ready] at hk
  obtain ⟨st, hst, rfl⟩ := nextTcb_eq_some ho₁ hk
  obtain ⟨⟨st', hst', hcur⟩, -, hsl⟩ := nextTcb_lists ho₁ hk
  -- waking other tasks adds no entry of `c` and leaves it blocked
  have hwake : (k.park c).wakeUpSleepers.status c = .blocked ∧
      (k.park c).wakeUpSleepers.readyList.tids.count c ≤ 1 ∧
      c ∉ (k.park c).wakeUpSleepers.sleepingList.tids := by
    refine wakeUpSleepers_induct (P := fun k' => k'.status c = .blocked ∧
      k'.readyList.tids.count c ≤ 1 ∧ c ∉ k'.sleepingList.tids) ⟨?_, ?_, hs⟩ ?_
    · rw [Kernel.park, status_readyRemove, setStatus, status_setTcb, if_pos rfl]
    · show (k.readyList.remove c).tids.count c ≤ 1
      rw [remove_tids, List.count_erase_self]
      omega
    · rintro k' t ⟨hb, hc, hns⟩ ht -
      have htc : c ≠ t := by
        rintro rfl
        exact hns ht
      refine ⟨?_, ?_, ?_⟩
      · rw [Kernel.expire, status_readyInsert, status_setTcb, if_neg htc]
        exact hb
      · rw [Kernel.expire, count_readyInsert_of_ne _ htc]
        exact hc
      · show c ∉ (k'.sleepingList.remove t).tids
        rw [remove_tids]
        exact fun hm => hns (List.mem_of_mem_erase hm)
  obtain ⟨hb, hc, hns⟩ := hwake
  have hready : c ∉ ((k.park c).wakeUpSleepers.requeue c).readyList.tids := by
    rw [requeue, if_pos (.inr hb), readyRemove_readyList, remove_tids, ← List.count_pos_iff,
      List.count_erase_self]
    omega
  refine ⟨?_, fun hm => hs (hsl c hm), ?_⟩
  · rw [readyList_switchTo]
    exact hready
  · rw [hcur]
    rintro h
    cases h
    rw [readyList_switchTo] at hst'
    exact hready hst'

end Kernel

/-! ### Counting -/

variable {T : Type} {cap : ℕ → ℕ} {σ σ' : System T} {a : Action T} {counts : ℕ → ℤ}

/-- How often `up` and `up_from_isr` have been called on semaphore `s`. -/
def ups (s : ℕ) (history : List (Event T)) : ℕ :=
  history.countP fun
    | .upped s' => s' = s
    | _ => false

/-- How many calls on semaphore `s` have returned with a token. -/
def acquisitions (s : ℕ) (history : List (Event T)) : ℕ :=
  history.countP fun
    | .acquired s' _ => s' = s
    | _ => false

/-- The task is blocked in a call on semaphore `s`, or has been resumed in it and not yet returned. -/
def Pc.OnSema (s : ℕ) : Pc T → Prop
  | .down s' | .downTimeoutCheck s' => s' = s
  | _ => False

instance (s : ℕ) : DecidablePred (Pc.OnSema (T := T) s)
  | .down _ | .downTimeoutCheck _ => inferInstanceAs (Decidable (_ = _))
  | .user | .downTimeoutBlock _ _ | .lock _ | .condUnlocked _ _ | .condRelock _ _
  | .sendWait _ _ _ | .sendDelay _ _ _ | .sendCheck _ _ | .sendRetry _ _
  | .recvWait _ _ | .recvDelay _ _ | .recvCheck _ | .recvRetry _ => isFalse id

namespace System

/-- An `up` has taken task `t` off the queue of semaphore `s`, and its call has not returned yet. -/
def Owed (σ : System T) (s : ℕ) (t : Tid) : Prop :=
  (σ.pc t).OnSema s ∧ t ∉ (σ.semas s).waitQueue.tids

instance (σ : System T) (s : ℕ) : DecidablePred (σ.Owed s) := fun _ =>
  inferInstanceAs (Decidable (_ ∧ _))

/-- The acquisitions granted so far: the calls that have returned with a token, and the waiters that
an `up` has taken off the queue and that have not returned yet. -/
def granted (σ : System T) (s : ℕ) : ℕ :=
  acquisitions s σ.history + (Finset.univ.filter fun t => σ.Owed s t).card

/-- A change to one task changes the number of owed tasks by what that task contributes. -/
theorem card_owed {s : ℕ} (t : Tid) (h : ∀ u, u ≠ t → (σ'.Owed s u ↔ σ.Owed s u)) :
    (Finset.univ.filter fun u => σ'.Owed s u).card + (if σ.Owed s t then 1 else 0) =
      (Finset.univ.filter fun u => σ.Owed s u).card + if σ'.Owed s t then 1 else 0 := by
  rw [Finset.card_filter, Finset.card_filter, ← Finset.add_sum_erase _ _ (Finset.mem_univ t),
    ← Finset.add_sum_erase _ (fun u => if σ.Owed s u then 1 else 0) (Finset.mem_univ t)]
  have hsum : ∑ u ∈ Finset.univ.erase t, (if σ'.Owed s u then 1 else 0) =
      ∑ u ∈ Finset.univ.erase t, if σ.Owed s u then 1 else 0 := by
    refine Finset.sum_congr rfl fun u hu => ?_
    rw [if_congr (h u (Finset.ne_of_mem_erase hu)) rfl rfl]
  omega

/-- The action raises no count past `i32::MAX`. -/
def InRange (σ : System T) : Action T → Prop
  | .call (.up s) | .upFromIsr s => (σ.semas s).count < i32Max
  | .proceed =>
    match σ.kernel.crTid.map σ.pc with
    | some (.downTimeoutCheck s) => (σ.semas s).count < i32Max
    | _ => True
  | _ => True

instance (σ : System T) : DecidablePred σ.InRange
  | .call (.up _) | .upFromIsr _ => inferInstanceAs (Decidable (_ < _))
  | .proceed => by
      dsimp only [InRange]
      generalize σ.kernel.crTid.map σ.pc = pc
      exact match pc with
        | some (.downTimeoutCheck _) => inferInstanceAs (Decidable (_ < _))
        | none | some .user | some (.down _) | some (.downTimeoutBlock _ _) | some (.lock _)
        | some (.condUnlocked _ _) | some (.condRelock _ _)
        | some (.sendWait _ _ _) | some (.sendDelay _ _ _) | some (.sendCheck _ _)
        | some (.sendRetry _ _) | some (.recvWait _ _) | some (.recvDelay _ _)
        | some (.recvCheck _) | some (.recvRetry _) => isTrue trivial
  | .call (.task _) | .call (.down _) | .call (.downTimeout _ _) | .call (.tryDown _)
  | .call (.lock _) | .call (.unlock _) | .call (.wait _ _) | .call (.notify _) | .call (.notifyAll _)
  | .call (.send _ _ _) | .call (.recv _ _) | .systick _ | .preempt => isTrue trivial

/-- A `down` that blocks is made by a task that has no entry on `SLEEPING_LIST` and at most two on
`READY_LIST`. -/
def BlocksCleanly (σ : System T) : Action T → Prop
  | .call (.down s) => (σ.semas s).count ≤ 0 → ∀ cr ∈ σ.kernel.crTid,
      cr ∉ σ.kernel.sleepingList.tids ∧ σ.kernel.readyList.tids.count cr ≤ 2
  | _ => True

instance (σ : System T) : DecidablePred σ.BlocksCleanly
  | .call (.down _) => inferInstanceAs (Decidable (_ → _))
  | .call (.task _) | .call (.downTimeout _ _) | .call (.tryDown _) | .call (.up _)
  | .call (.lock _) | .call (.unlock _) | .call (.wait _ _) | .call (.notify _) | .call (.notifyAll _)
  | .call (.send _ _ _) | .call (.recv _ _)
  | .systick _ | .preempt | .upFromIsr _ | .proceed => isTrue trivial

/-- The books of semaphore `s`: no more waiters are missing than were counted, and every token is
free, owed by the count, or granted. -/
structure Books (σ : System T) (initial : ℤ) (s : ℕ) : Prop where
  range : (σ.semas s).count ≤ i32Max
  covered : 0 ≤ (σ.semas s).count + (σ.semas s).waitQueue.len
  balance : (σ.granted s : ℤ) =
    initial + ups s σ.history - (σ.semas s).count - (σ.semas s).waitQueue.len

/-- Waiters in `down` cannot run, and the books of every semaphore are in order. -/
structure Conserves (counts : ℕ → ℤ) (σ : System T) : Prop where
  onCpu : ∃ c, σ.kernel.OnCpu c
  named : σ.kernel.Named
  queues : σ.Queues (fun t => σ.kernel.Off t ∧ (σ.kernel.tcbs t).tid = t)
    fun t => (σ.kernel.tcbs t).tid = t
  books : ∀ s, σ.Books (counts s) s

theorem Conserves.running (h : σ.Conserves counts) {cr : Tid} (hcr : σ.kernel.crTid = some cr) :
    σ.kernel.OnCpu cr := by
  obtain ⟨c, hc⟩ := h.onCpu
  rw [hc.crTid] at hcr
  cases hcr
  exact hc

theorem Conserves.not_mem (h : σ.Conserves counts) {cr : Tid} (hcr : σ.kernel.crTid = some cr)
    {pc : Pc T} (hpc : σ.pc cr = pc) (hne : ∀ s, pc ≠ .downTimeoutCheck s) (s : ℕ) :
    cr ∉ (σ.semas s).waitQueue.tids :=
  h.queues.not_mem hpc hne (fun hoff => hoff.1.current (h.running hcr).current) s

theorem Books.count_ge {initial : ℤ} {s : ℕ} (h : σ.Books initial s) : -16 ≤ (σ.semas s).count := by
  have hle : (σ.semas s).waitQueue.len ≤ 16 := (σ.semas s).waitQueue.le_cap
  have := h.covered
  omega

/-! ### The books along a step -/

theorem acquisitions_cons (s : ℕ) (e : Event T) (history : List (Event T)) :
    acquisitions s (e :: history) = acquisitions s history +
      match e with
      | .acquired s' _ => if s' = s then 1 else 0
      | _ => 0 := by
  unfold acquisitions
  rw [List.countP_cons]
  cases e <;> simp

theorem ups_cons (s : ℕ) (e : Event T) (history : List (Event T)) :
    ups s (e :: history) = ups s history +
      match e with
      | .upped s' => if s' = s then 1 else 0
      | _ => 0 := by
  unfold ups
  rw [List.countP_cons]
  cases e <;> simp

/-- The books of a semaphore that the step does not touch. -/
theorem Books.other {initial : ℤ} {s : ℕ} (h : σ.Books initial s) (hsem : σ'.semas s = σ.semas s)
    (hacq : acquisitions s σ'.history = acquisitions s σ.history)
    (hups : ups s σ'.history = ups s σ.history)
    (hpc : ∀ t, (σ'.pc t).OnSema s ↔ (σ.pc t).OnSema s) : σ'.Books initial s := by
  obtain ⟨h1, h2, h3⟩ := h
  refine ⟨by rw [hsem]; exact h1, by rw [hsem]; exact h2, ?_⟩
  have howed : ∀ t, σ'.Owed s t ↔ σ.Owed s t := by
    intro t
    unfold Owed
    rw [hpc, hsem]
  unfold granted at h3 ⊢
  rw [Finset.filter_congr fun t _ => howed t, hacq, hups, hsem]
  exact h3

/-- The books of a semaphore for which only task `t` changes its place. -/
theorem Books.change {initial : ℤ} {s : ℕ} (h : σ.Books initial s) (t : Tid)
    (hother : ∀ u, u ≠ t → (σ'.Owed s u ↔ σ.Owed s u)) (hrange : (σ'.semas s).count ≤ i32Max)
    (hcov : 0 ≤ (σ'.semas s).count + (σ'.semas s).waitQueue.len)
    (hbal : (acquisitions s σ'.history : ℤ) + (if σ'.Owed s t then 1 else 0) +
        (σ'.semas s).count + (σ'.semas s).waitQueue.len - ups s σ'.history =
      acquisitions s σ.history + (if σ.Owed s t then 1 else 0) +
        (σ.semas s).count + (σ.semas s).waitQueue.len - ups s σ.history) :
    σ'.Books initial s := by
  refine ⟨hrange, hcov, ?_⟩
  have hcard := card_owed t hother
  have hb := h.balance
  unfold granted at hb ⊢
  by_cases h1 : σ.Owed s t
  · by_cases h2 : σ'.Owed s t
    · simp only [h1, h2, if_true] at hcard hbal
      omega
    · simp only [h1, h2, if_true, if_false] at hcard hbal
      omega
  · by_cases h2 : σ'.Owed s t
    · simp only [h1, h2, if_true, if_false] at hcard hbal
      omega
    · simp only [h1, h2, if_false] at hcard hbal
      omega

/-- A step that only moves the running task between places outside the wait for `s`. -/
theorem onSema_update {s : ℕ} {c : Tid} {pc : Pc T} (h : pc.OnSema s ↔ (σ.pc c).OnSema s) (t : Tid) :
    (Function.update σ.pc c pc t).OnSema s ↔ (σ.pc t).OnSema s := by
  rw [Function.update_apply]
  split_ifs with ht
  · rw [ht]
    exact h
  · exact Iff.rfl

/-- The running task joins the queue of `s` and the count is lowered. -/
theorem Books.enqueue {initial : ℤ} {s : ℕ} (h : σ.Books initial s) {c : Tid} {k : Kernel}
    {pc : Pc T} (hn : (σ.semas s).waitQueue.tids.Nodup) (hc : c ∉ (σ.semas s).waitQueue.tids)
    (hpc : ¬(σ.pc c).OnSema s)
    (hsem : σ'.semas s = ⟨wrapI32 ((σ.semas s).count - 1), (k.enqueue (σ.semas s).waitQueue c).2⟩)
    (hpc' : σ'.pc = Function.update σ.pc c pc) (hh : σ'.history = σ.history) :
    σ'.Books initial s := by
  have hge := h.count_ge
  have hr := h.range
  have hcov := h.covered
  have hlen : (k.enqueue (σ.semas s).waitQueue c).2.len = (σ.semas s).waitQueue.len + 1 :=
    SemaInner.length_enqueue (length_lt_of_not_mem hn hc)
  have hin : ¬σ'.Owed s c := by
    intro ho
    refine ho.2 ?_
    rw [hsem]
    exact (mem_enqueue hn hc).mpr (.inl rfl)
  have hout : ¬σ.Owed s c := fun ho => hpc ho.1
  refine h.change c (fun u hu => ?_) ?_ ?_ ?_
  · unfold Owed
    rw [hsem, hpc', Function.update_of_ne hu]
    show _ ∧ u ∉ (k.enqueue (σ.semas s).waitQueue c).2.tids ↔ _
    rw [mem_enqueue hn hc, or_iff_right hu]
  · rw [hsem]
    exact wrapI32_le _
  · rw [hsem, hlen, wrapI32_of_mem (by omega) (by omega)]
    push_cast
    omega
  · rw [if_neg hin, if_neg hout, hsem, hh, hlen, wrapI32_of_mem (by omega) (by omega)]
    push_cast
    omega

/-- The running task takes a permit. -/
theorem Books.take {initial : ℤ} {s : ℕ} (h : σ.Books initial s) {c : Tid}
    (hpos : 0 < (σ.semas s).count)
    (hsem : σ'.semas s = ⟨wrapI32 ((σ.semas s).count - 1), (σ.semas s).waitQueue⟩)
    (hpc : σ'.pc = σ.pc) (hh : σ'.history = .acquired s c :: σ.history) : σ'.Books initial s := by
  have hr := h.range
  have howed : ∀ u, σ'.Owed s u ↔ σ.Owed s u := by
    intro u
    unfold Owed
    rw [hsem, hpc]
  refine h.change c (fun u _ => howed u) ?_ ?_ ?_
  · rw [hsem]
    exact wrapI32_le _
  · rw [hsem, wrapI32_of_mem (by omega) (by omega)]
    dsimp only
    omega
  · rw [if_congr (howed c) rfl rfl, hsem, hh, acquisitions_cons, ups_cons,
      wrapI32_of_mem (by omega) (by omega)]
    simp only [if_true]
    push_cast
    omega

/-- An `up` raises the count, and grants the token to the first waiter if there is one. -/
theorem Books.up {initial : ℤ} {s : ℕ} (h : σ.Books initial s)
    (hn : (σ.semas s).waitQueue.tids.Nodup)
    (hon : ∀ t ∈ (σ.semas s).waitQueue.tids, (σ.pc t).OnSema s)
    (hmax : (σ.semas s).count < i32Max)
    (hsem : σ'.semas s = ((σ.semas s).up σ.kernel).inner) (hpc : σ'.pc = σ.pc)
    (hh : σ'.history = .upped s :: σ.history) : σ'.Books initial s := by
  have hge := h.count_ge
  have hcov := h.covered
  have hwrap : wrapI32 ((σ.semas s).count + 1) = (σ.semas s).count + 1 :=
    wrapI32_of_mem (by omega) (by omega)
  have hcount : (σ'.semas s).count = (σ.semas s).count + 1 := by
    rw [hsem, SemaInner.count_up, hwrap]
  rcases σ.up_queue s with ⟨hnone, -, hq⟩ | ⟨w, queue, hsome, -, hq, hcons⟩
  · -- nobody is woken: the queue is empty, or the count says that it should be
    have howed : ∀ u, σ'.Owed s u ↔ σ.Owed s u := by
      intro u
      unfold Owed
      rw [hsem, hpc, hq]
    refine h.change 0 (fun u _ => howed u) ?_ ?_ ?_
    · omega
    · rw [hcount, hsem, hq]
      omega
    · rw [if_congr (howed 0) rfl rfl, hcount, hsem, hq, hh, acquisitions_cons, ups_cons]
      simp only [if_true]
      push_cast
      omega
  · have hw : w ∈ (σ.semas s).waitQueue.tids := by
      rw [hcons]
      exact List.mem_cons_self
    rw [hcons, List.nodup_cons] at hn
    have hlen : (σ.semas s).waitQueue.len = queue.len + 1 := by
      rw [len, hcons, List.length_cons]
      rfl
    have hin : σ'.Owed s w := by
      refine ⟨by rw [hpc]; exact hon w hw, ?_⟩
      rw [hsem, hq]
      exact hn.1
    have hout : ¬σ.Owed s w := fun ho => ho.2 hw
    refine h.change w (fun u hu => ?_) ?_ ?_ ?_
    · unfold Owed
      rw [hsem, hpc, hq, hcons, List.mem_cons, or_iff_right hu]
    · omega
    · rw [hcount, hsem, hq]
      omega
    · rw [if_pos hin, if_neg hout, hcount, hsem, hq, hlen, hh, acquisitions_cons, ups_cons]
      simp only [if_true]
      push_cast
      omega

/-- A timed-out waiter leaves the queue and gives its place back. -/
theorem Books.leave {initial : ℤ} {s : ℕ} (h : σ.Books initial s) {c : Tid}
    (hc : c ∈ (σ.semas s).waitQueue.tids)
    (hsem : σ'.semas s = ⟨wrapI32 ((σ.semas s).count + 1), (σ.semas s).waitQueue.remove c⟩)
    (hmax : (σ.semas s).count < i32Max)
    (hpc : σ'.pc = Function.update σ.pc c .user) (hh : σ'.history = σ.history) :
    σ'.Books initial s := by
  have hge := h.count_ge
  have hcov := h.covered
  have hpos := List.length_pos_of_mem hc
  have hlen : ((σ.semas s).waitQueue.remove c).len = (σ.semas s).waitQueue.len - 1 := by
    rw [len, remove_tids, List.length_erase_of_mem hc]
    rfl
  have hin : ¬σ'.Owed s c := by
    intro ho
    have := ho.1
    rw [hpc, Function.update_self] at this
    exact this
  have hout : ¬σ.Owed s c := fun ho => ho.2 hc
  replace hpos : 0 < (σ.semas s).waitQueue.len := hpos
  refine h.change c (fun u hu => ?_) ?_ ?_ ?_
  · unfold Owed
    rw [hsem, hpc, Function.update_of_ne hu]
    show _ ∧ u ∉ ((σ.semas s).waitQueue.remove c).tids ↔ _
    rw [remove_tids, List.mem_erase_of_ne hu]
  · rw [hsem]
    exact wrapI32_le _
  · rw [hsem, hlen, wrapI32_of_mem (by omega) (by omega)]
    dsimp only
    omega
  · rw [if_neg hin, if_neg hout, hsem, hlen, hh, wrapI32_of_mem (by omega) (by omega)]
    dsimp only
    omega

/-- The running task returns with the token that an `up` has given it. -/
theorem Books.return {initial : ℤ} {s : ℕ} (h : σ.Books initial s) {c : Tid}
    (hpc : (σ.pc c).OnSema s) (hc : c ∉ (σ.semas s).waitQueue.tids) :
    ((σ.log (.acquired s c)).setPc c .user).Books initial s := by
  have hin : σ.Owed s c := ⟨hpc, hc⟩
  have hout : ¬((σ.log (.acquired s c)).setPc c .user).Owed s c := by
    intro ho
    have := ho.1
    rw [setPc_pc, Function.update_self] at this
    exact this
  refine h.change c (fun u hu => ?_) h.range h.covered ?_
  · unfold Owed
    rw [setPc_pc, Function.update_of_ne hu]
    exact Iff.rfl
  · rw [if_pos hin, if_neg hout, setPc_history, log_history, acquisitions_cons, ups_cons]
    simp only [if_true, setPc_semas, log_semas]
    push_cast
    omega

/-- Every step keeps the books. -/
theorem Conserves.step_books (h : σ.Conserves counts) (hs : SemaStep σ a σ')
    (hC : σ.InRange a) (s : ℕ) : σ'.Books (counts s) s := by
  have hb := h.books s
  cases hs with
  | tick hk => exact hb.other rfl rfl rfl fun _ => Iff.rfl
  | switch ha hk => exact hb.other rfl rfl rfl fun _ => Iff.rfl
  | delay hk => exact hb.other rfl rfl rfl fun _ => Iff.rfl
  | fail hc => exact hb
  | begin hcr hpc => exact hb.other rfl rfl rfl (onSema_update (by rw [hpc]; exact Iff.rfl))
  | @take c cr s' hcr hpc hc =>
      by_cases hss : s' = s
      · subst hss
        refine hb.take (c := cr) ?_ (Function.update_self ..) rfl rfl
        have hge := hb.count_ge
        have hr := hb.range
        rcases hc with ⟨-, hc⟩ | ⟨-, hc⟩
        · rw [wrapI32_of_mem (by omega) (by omega)] at hc
          omega
        · exact hc
      · refine hb.other (Function.update_of_ne (Ne.symm hss) _ _) ?_ ?_ fun _ => Iff.rfl
        · rw [log_history, acquisitions_cons]
          simp [hss]
        · rw [log_history, ups_cons]
          rfl
  | @block cr s' k hcr hpc hneg hk =>
      have hno := h.not_mem hcr hpc (by simp)
      by_cases hss : s' = s
      · subst hss
        exact hb.enqueue (h.queues.nodup s') (hno s') (by rw [hpc]; exact id)
          (Function.update_self ..) rfl rfl
      · refine hb.other (Function.update_of_ne (Ne.symm hss) _ _) rfl rfl (onSema_update ?_)
        rw [hpc]
        exact iff_of_false hss id
  | @blockTimed cr s' ticks k hcr hpc hk =>
      have hno := h.not_mem hcr hpc (by simp)
      by_cases hss : s' = s
      · subst hss
        exact hb.enqueue (h.queues.nodup s') (hno s') (by rw [hpc]; exact id)
          (Function.update_self ..) rfl rfl
      · refine hb.other (Function.update_of_ne (Ne.symm hss) _ _) rfl rfl (onSema_update ?_)
        rw [hpc]
        exact iff_of_false hss id
  | @up _ s' b k ha hb' hk =>
      by_cases hss : s' = s
      · subst hss
        refine hb.up (h.queues.nodup s') (fun t ht => ?_) ?_ (Function.update_self ..) rfl rfl
        · rcases h.queues.waits s' t ht with ⟨hp, -⟩ | ⟨hp, -⟩
          · rw [hp]
            rfl
          · rw [hp]
            rfl
        · rcases ha with ⟨rfl, -⟩ | ⟨rfl, -⟩ <;> exact hC
      · refine hb.other (Function.update_of_ne (Ne.symm hss) _ _) ?_ ?_ fun _ => Iff.rfl
        · rw [setKernel_history, log_history, acquisitions_cons]
          rfl
        · rw [setKernel_history, log_history, ups_cons]
          simp [hss]
  | @resume cr s' hcr hpc =>
      by_cases hss : s' = s
      · subst hss
        exact hb.return (by rw [hpc]; rfl) (h.not_mem hcr hpc (by simp) s')
      · refine hb.other rfl ?_ ?_ (onSema_update ?_)
        · rw [setPc_history, log_history, acquisitions_cons]
          simp [hss]
        · rw [setPc_history, log_history, ups_cons]
          rfl
        · rw [log_pc, hpc]
          exact iff_of_false id hss
  | @timeOut cr s' hcr hpc hmem =>
      by_cases hss : s' = s
      · subst hss
        refine hb.leave hmem (Function.update_self ..) ?_ rfl rfl
        unfold InRange at hC
        rw [hcr, Option.map_some, hpc] at hC
        exact hC
      · refine hb.other (Function.update_of_ne (Ne.symm hss) _ _) rfl rfl (onSema_update ?_)
        rw [hpc]
        exact iff_of_false id hss
  | @acquire cr s' hcr hpc hmem =>
      by_cases hss : s' = s
      · subst hss
        exact hb.return (by rw [hpc]; rfl) hmem
      · refine hb.other rfl ?_ ?_ (onSema_update ?_)
        · rw [setPc_history, log_history, acquisitions_cons]
          simp [hss]
        · rw [setPc_history, log_history, ups_cons]
          rfl
        · rw [log_pc, hpc]
          exact iff_of_false id hss

/-- A step whose effect on the kernel is known: nobody but a task taken off its queue comes back on
the lists, and a `down` that blocks is off. -/
theorem Conserves.of_kept (h : σ.Conserves counts) (hs : SemaStep σ a σ') (hC : σ.InRange a)
    (hcpu : ∃ c, σ'.kernel.OnCpu c) (hn : σ'.kernel.Named)
    (htid : ∀ t, (σ'.kernel.tcbs t).tid = (σ.kernel.tcbs t).tid)
    (hoff : ∀ t, σ.woken a ≠ some t → σ.kernel.Off t → σ'.kernel.Off t)
    (hblock : ∀ cr s, σ.kernel.crTid = some cr → a = .call (.down s) → σ'.pc cr = .down s →
      σ'.kernel.Off cr) : σ'.Conserves counts := by
  refine ⟨hcpu, hn, h.queues.step hs ?_ ?_ ?_ ?_ ?_, h.step_books hs hC⟩
  · intro cr hcr hoff
    exact hoff.1.current (h.running hcr).current
  · intro s t _ hw ht
    exact ⟨hoff t hw ht.1, (htid t).trans ht.2⟩
  · intro s t _ _ ht
    exact (htid t).trans ht
  · intro cr s hcr ha hpc
    exact ⟨hblock cr s hcr ha hpc, (htid cr).trans (h.running hcr).tid⟩
  · intro cr s hcr _ _
    exact (htid cr).trans (h.running hcr).tid

theorem Conserves.resched (h : σ.Conserves counts) (hs : SemaStep σ a σ') (hC : σ.InRange a)
    (hk : Kept σ.kernel σ'.kernel)
    (hblock : ∀ cr s, σ.kernel.crTid = some cr → a = .call (.down s) → σ'.pc cr ≠ .down s) :
    σ'.Conserves counts := by
  refine h.of_kept hs hC hk.onCpu hk.named hk.tid (fun t _ => hk.off t) ?_
  intro cr s hcr ha hpc
  exact absurd hpc (hblock cr s hcr ha)

theorem Conserves.idle (h : σ.Conserves counts) (hs : SemaStep σ a σ') (hC : σ.InRange a)
    (hk : σ'.kernel = σ.kernel)
    (hblock : ∀ cr s, σ.kernel.crTid = some cr → a = .call (.down s) → σ'.pc cr ≠ .down s) :
    σ'.Conserves counts := by
  obtain ⟨c, hc⟩ := h.onCpu
  refine h.resched hs hC ?_ hblock
  rw [hk]
  exact hc.kept h.named

theorem Conserves.step (h : σ.Conserves counts) (hs : SemaStep σ a σ') (hC : σ.InRange a)
    (hB : σ.BlocksCleanly a) : σ'.Conserves counts := by
  obtain ⟨c, hc⟩ := h.onCpu
  cases hs with
  | tick hk => exact h.resched (.tick hk) hC (systickTrap_kept hc h.named hk) (by rintro cr s - ⟨⟩)
  | switch ha hk =>
      exact h.resched (.switch ha hk) hC (yieldIf_kept hc h.named hk)
        (by rcases ha with rfl | rfl <;> rintro cr s - ⟨⟩)
  | delay hk => exact h.resched (.delay hk) hC (delay_kept hc h.named hk) (by rintro cr s - ⟨⟩)
  | take hcr hpc hcall =>
      refine h.idle (.take hcr hpc hcall) hC rfl fun cr' s' hcr' _ => ?_
      rw [hcr] at hcr'
      cases hcr'
      show σ.pc _ ≠ _
      rw [hpc]
      simp
  | fail hcall =>
      exact h.idle (.fail hcall) hC rfl (by rcases hcall with rfl | rfl <;> rintro cr s - ⟨⟩)
  | begin hcr hpc => exact h.idle (.begin hcr hpc) hC rfl (by rintro cr s - ⟨⟩)
  | @block cr s k hcr hpc hneg hk =>
      have hc := h.running hcr
      have hno := h.not_mem hcr hpc (by simp)
      have hk' := h.queues.park_of_block (hno s) hk
      have hpark := park_kept hc h.named
      have hkept := hpark.trans (yieldIf_kept (hc.park cr) hpark.named hk')
      refine h.of_kept (.block hcr hpc hneg hk) hC hkept.onCpu hkept.named hkept.tid
        (fun t _ => hkept.off t) fun cr' s' hcr' _ _ => ?_
      rw [hcr] at hcr'
      cases hcr'
      have hge := (h.books s).count_ge
      have hr := (h.books s).range
      rw [wrapI32_of_mem (by omega) (by omega)] at hneg
      obtain ⟨hsleep, hcount⟩ := hB (by omega) cr hcr
      exact off_of_park hc hsleep hcount hk'
  | @blockTimed cr s ticks k hcr hpc hk =>
      have hc := h.running hcr
      have hno := h.not_mem hcr hpc (by simp)
      have hk' := h.queues.sleep_of_block (hno s) hk
      have hsleep : Kept σ.kernel (σ.kernel.sleep cr ticks) := sleep_kept hc h.named
      have ho := hc.of_frame (frame_sleep σ.kernel cr ticks) rfl
      exact h.resched (.blockTimed hcr hpc hk) hC
        (hsleep.trans (yieldIf_kept ho hsleep.named hk')) (by rintro cr s - ⟨⟩)
  | @up _ s b k ha hb hk =>
      obtain ⟨hw, hnot⟩ := woken_of_up ha
      have hdown : ∀ cr s', σ.kernel.crTid = some cr → a = .call (.down s') →
          (({ σ with semas := Function.update σ.semas s ((σ.semas s).up σ.kernel).inner }.log
            (.upped s)).setKernel k).pc cr ≠ .down s' := fun _ s' _ ha' => absurd ha' (hnot s')
      rcases σ.up_queue s with ⟨hnone, hker, -⟩ | ⟨w, queue, hsome, hker, -, hcons⟩
      · have hk' := hk
        rw [hker, hb hnone] at hk'
        cases hk'
        exact h.idle (.up ha hb hk) hC rfl hdown
      · have hk' := hk
        rw [hker] at hk'
        have hname : (σ.kernel.tcbs w).tid = w := by
          rcases h.queues.waits s w (by rw [hcons]; exact List.mem_cons_self) with ⟨-, ht⟩ | ⟨-, ht⟩
          · exact ht.2
          · exact ht
        have hkept := yieldIf_kept (hc.wake w) (wake_named h.named hname) hk'
        refine h.of_kept (.up ha hb hk) hC hkept.onCpu hkept.named
          (fun t => (hkept.tid t).trans ((frame_wake σ.kernel w).tid t)) (fun t ht hoff => ?_) ?_
        · have htw : t ≠ w := by
            rintro rfl
            exact ht (by rw [hw, hsome]; rfl)
          exact hkept.off t (hoff.wake htw)
        · intro cr s' hcr ha' hpc
          exact absurd hpc (hdown cr s' hcr ha')
  | resume hcr hpc => exact h.idle (.resume hcr hpc) hC rfl (by rintro cr s - ⟨⟩)
  | timeOut hcr hpc hmem => exact h.idle (.timeOut hcr hpc hmem) hC rfl (by rintro cr s - ⟨⟩)
  | acquire hcr hpc hmem => exact h.idle (.acquire hcr hpc hmem) hC rfl (by rintro cr s - ⟨⟩)

/-! ### Runs -/

theorem conserves_init {boots : List BootCall} {k : Kernel}
    (hc : ∀ s, 0 ≤ counts s ∧ counts s ≤ i32Max) (h : launchAfter boots = some k) :
    (init k counts : System T).Conserves counts := by
  obtain ⟨⟨c, hset⟩, -, -, hsleep⟩ := settled_launchAfter h
  refine ⟨⟨c, hset.onCpu⟩, fun t ht => ?_, queues_init k counts, fun s => ⟨(hc s).2, ?_, ?_⟩⟩
  · refine hset.tid_eq t ?_
    rcases ht with ht | ht
    · have := (hset.mem_ready t).mp ht
      intro hdead
      rw [show k.status t = .terminated from hdead] at this
      simp at this
    · replace ht : t ∈ k.sleepingList.tids := ht
      rw [hsleep] at ht
      cases ht
  · exact add_nonneg (hc s).1 (Int.natCast_nonneg _)
  · have howed : ∀ t : Tid, ¬(init k counts : System T).Owed s t := fun t ho => ho.1
    rw [granted, Finset.filter_false_of_mem fun t _ => howed t]
    show ((0 + 0 : ℕ) : ℤ) = counts s + (0 : ℕ) - counts s - ((0 : ℕ) : ℤ)
    omega

/-- What the users of a semaphore rely on: the grants balance the tokens, nobody is resumed in
`down` without a grant, and only tasks in a call on the semaphore are on its queue. -/
structure Conserved (counts : ℕ → ℤ) (σ : System T) : Prop where
  balance : ∀ s, (σ.granted s : ℤ) =
    counts s + ups s σ.history - (σ.semas s).count - (σ.semas s).waitQueue.len
  bounded : ∀ s, (σ.granted s : ℤ) ≤ counts s + ups s σ.history
  resumed : ∀ cr s, σ.kernel.crTid = some cr → σ.pc cr = .down s →
    cr ∉ (σ.semas s).waitQueue.tids
  queued : ∀ s, ∀ t ∈ (σ.semas s).waitQueue.tids, (σ.pc t).OnSema s

theorem Conserves.conserved (h : σ.Conserves counts) : σ.Conserved counts where
  balance := fun s => (h.books s).balance
  bounded := by
    intro s
    have := (h.books s).balance
    have := (h.books s).covered
    omega
  resumed := fun cr s hcr hpc => h.not_mem hcr hpc (by simp) s
  queued := by
    intro s t ht
    rcases h.queues.waits s t ht with ⟨hp, -⟩ | ⟨hp, -⟩
    · rw [hp]
      rfl
    · rw [hp]
      rfl

end System

/-- **Tokens are conserved.**  In every run of semaphore calls, delays, yields and interrupts from a
launch in which every `down` that blocks blocks cleanly: at every point the acquisitions granted on a
semaphore are its initial tokens and `up`s that are not in its count or owed to its queue. -/
theorem tokens_conserved {boots : List BootCall} {k : Kernel} {tr : List (System T × Action T)}
    (hc : ∀ s, 0 ≤ counts s ∧ counts s ≤ i32Max) (hl : launchAfter boots = some k)
    (hr : Run (System.step cap) (fun σ a => a.IsSema ∧ σ.InRange a) (System.init k counts) tr σ)
    (hC : ∀ e ∈ tr, e.1.BlocksCleanly e.2) : Always (System.Conserved counts) tr σ := by
  have hall := (hr.strengthen hC).always (System.conserves_init hc hl) fun σ a σ' h hok hs =>
    h.step (System.step_sema h.queues.pcs hok.1.1 hs) hok.1.2 hok.2
  exact ⟨fun e he => (hall.1 e he).conserved, hall.2.conserved⟩

/-- A run with a token taken, a waiter served by an interrupt handler, and a timed wait that times
out. -/
theorem tokens_conserved_run : ∃ k₀ tr, ∃ σ : System Unit,
    launchAfter [.create 3 "a"] = some k₀ ∧
      Run (System.step fun _ => 0) (fun σ a => a.IsSema ∧ System.InRange σ a)
        (System.init k₀ fun _ => 1) tr σ ∧
      σ.granted 0 = 2 ∧ Always (System.Conserved fun _ => 1) tr σ := by
  have hsome : (launchAfter [.create 3 "a"]).isSome = true := by decide +kernel
  obtain ⟨k₀, hk₀⟩ := Option.isSome_iff_exists.mp hsome
  have hexec : ((launchAfter [.create 3 "a"]).bind fun k₀ =>
      exec (System.step fun _ => 0)
        (fun (σ : System Unit) a => (a.IsSema ∧ σ.InRange a) ∧ σ.BlocksCleanly a)
        (System.init k₀ fun _ => 1)
        [.call (.down 0), .call (.downTimeout 0 2), .proceed, .systick 1, .proceed, .call (.down 0),
          .upFromIsr 0, .preempt, .proceed]).any (fun σ => σ.granted 0 = 2) = true := by
    decide +kernel
  rw [hk₀, Option.bind_some] at hexec
  obtain ⟨tr, σ, hr, hσ⟩ := exists_run_of_exec (fun (σ : System Unit) a
    (h : decide ((a.IsSema ∧ σ.InRange a) ∧ σ.BlocksCleanly a) = true) => of_decide_eq_true h) hexec
  have hrun := hr.mono fun _ _ h => h.1
  exact ⟨k₀, tr, σ, hk₀, hrun, of_decide_eq_true hσ,
    tokens_conserved (fun _ => by decide) hk₀ hrun fun e he => (hr.forall_guard e he).2⟩

/-- One token, two acquisitions: an interrupt handler's `up` ends a timed wait and leaves its sleeping
entry behind; when the entry expires, the task returns from a later `down` that nobody has
served. -/
theorem tokens_not_conserved : ∃ k₀ tr, ∃ σ : System Unit,
    launchAfter [.create 3 "a"] = some k₀ ∧
      Run (System.step fun _ => 0) (fun σ a => a.IsSema ∧ System.InRange σ a)
        (System.init k₀ fun _ => 0) tr σ ∧
      acquisitions 0 σ.history = 2 ∧ ups 0 σ.history = 1 ∧
      ¬Always (System.Conserved fun _ => 0) tr σ := by
  have hsome : (launchAfter [.create 3 "a"]).isSome = true := by decide +kernel
  obtain ⟨k₀, hk₀⟩ := Option.isSome_iff_exists.mp hsome
  have hexec : ((launchAfter [.create 3 "a"]).bind fun k₀ =>
      exec (System.step fun _ => 0) (fun (σ : System Unit) a => a.IsSema ∧ σ.InRange a)
        (System.init k₀ fun _ => 0)
        [.call (.downTimeout 0 3), .proceed, .upFromIsr 0, .preempt, .proceed, .call (.down 0),
          .systick 2, .proceed]).any
      (fun σ => acquisitions 0 σ.history = 2 ∧ ups 0 σ.history = 1) = true := by
    decide +kernel
  rw [hk₀, Option.bind_some] at hexec
  obtain ⟨tr, σ, hr, hσ⟩ := exists_run_of_exec (fun (σ : System Unit) a
    (h : decide (a.IsSema ∧ σ.InRange a) = true) => of_decide_eq_true h) hexec
  rw [decide_eq_true_eq] at hσ
  refine ⟨k₀, tr, σ, hk₀, hr, hσ.1, hσ.2, fun hall => ?_⟩
  have hb := hall.2.bounded 0
  have hle : acquisitions 0 σ.history ≤ σ.granted 0 := Nat.le_add_right _ _
  omega

end MosKernel
