import MosKernel.MsgSteps
import MosKernel.TimeSlices

/-!
# When message calls time out

`send` and `recv` return `Err(TimeOut)` in two places: where a task comes back from the `Task::delay` of
`wait_on` and is still on its wait list, and where its second attempt fails.  The first comes in time as
long as the task really sleeps until then.  The second knows nothing about the clock: it fails as soon as
a third task has taken the slot or the message that the caller was woken for.

`Timed` adds to a system, for each task, the time-out of its last message call and the ticks since that
call.  `Asleep` is what holds of a task on its way through `Task::delay`, on lists that may be damaged;
`SleepsOut` says of a step that it lets every such task sleep.
-/

namespace MosKernel

open OrderedInsert TaskList Transition Kernel

variable {T : Type} {cap : ℕ → ℕ} {σ σ' : System T} {a : Action T}

namespace Kernel

variable {k k' : Kernel} {c t u : Tid} {b : Bool}

/-- `t` is neither ready nor running. -/
structure Dormant (k : Kernel) (t : Tid) : Prop where
  ready : t ∉ k.readyList.tids
  current : k.currentTcbPtr ≠ some t

theorem wakePoint_setTcb {f : Tcb → Tcb} (hf : (f (k.tcbs u)).wakePoint = (k.tcbs u).wakePoint)
    (t : Tid) : ((k.setTcb u f).tcbs t).wakePoint = (k.tcbs t).wakePoint := by
  rw [setTcb_tcbs, Function.update_apply]
  split_ifs with htu
  · rw [htu]
    exact hf
  · rfl

theorem wakePoint_requeue (k : Kernel) (c t : Tid) :
    ((k.requeue c).tcbs t).wakePoint = (k.tcbs t).wakePoint := by
  unfold requeue
  split_ifs
  · rfl
  · exact wakePoint_setTcb (f := fun tcb =>
      { tcb with timeSlice := MosKernel.timeSlice, status := .ready }) rfl t
  · rfl

theorem wakePoint_switchTo (k : Kernel) (c u t : Tid) :
    ((k.switchTo c u).tcbs t).wakePoint = (k.tcbs t).wakePoint := by
  have hset : ∀ (k : Kernel) (u : Tid) (st : TaskStatus),
      ((k.setStatus u st).tcbs t).wakePoint = (k.tcbs t).wakePoint := fun k u st =>
    wakePoint_setTcb (f := fun tcb => { tcb with status := st }) rfl t
  unfold switchTo
  dsimp only
  split_ifs
  · exact (hset _ u .running).trans (hset k c .ready)
  · exact hset k u .running
  · rfl

/-- The second half of a switch away from `c` leaves `t` dormant if `t` is not ready by then. -/
theorem dormant_switchTo {k : Kernel} {st : Tid} (hc : k.currentTcbPtr = some c)
    (ht : t ∉ k.readyList.tids) (hst : k.readyList.front = some st) : (k.switchTo c st).Dormant t := by
  constructor
  · rw [readyList_switchTo]
    exact ht
  · rw [currentTcbPtr_switchTo hc]
    intro heq
    cases heq
    exact ht (List.mem_of_mem_head? hst)

/-- **A pass wakes nobody before its time.** -/
theorem Dormant.yieldIf (h : k.Dormant t) (ho : k.OnCpu c) (hdue : ¬k.Due t)
    (hk : k.yieldIf b = some k') : k'.Dormant t ∧ (k'.tcbs t).wakePoint = (k.tcbs t).wakePoint := by
  have htc : t ≠ c := by
    rintro rfl
    exact h.current ho.current
  cases b with
  | false =>
      cases hk
      exact ⟨h, rfl⟩
  | true =>
      rw [Kernel.yieldIf, if_pos rfl, yieldTask, if_pos ho.ready] at hk
      obtain ⟨st, hfront, rfl⟩ := nextTcb_eq_some ho hk
      obtain ⟨hcases, hready⟩ := wakeUpSleepers_cases k t
      have hsame : k.wakeUpSleepers.tcbs t = k.tcbs t := hcases.resolve_right fun hd => hdue hd.1
      have hcur : (k.wakeUpSleepers.requeue c).currentTcbPtr = some c := by
        rw [currentTcbPtr_requeue, currentTcbPtr_wakeUpSleepers, ho.current]
      have hnot : t ∉ (k.wakeUpSleepers.requeue c).readyList.tids := by
        intro hm
        rcases mem_of_mem_requeue hm with heq | hm
        · exact htc heq
        · exact (hready hm).elim h.ready hdue
      refine ⟨dormant_switchTo hcur hnot hfront, ?_⟩
      rw [wakePoint_switchTo, wakePoint_requeue, hsame]

/-- **Falling asleep.**  A running task with at most two entries on `READY_LIST` is dormant after its
`Task::delay`: it removes one entry itself, and `next_tcb` the other. -/
theorem OnCpu.dormant_sleep {ticks : BitVec 32} (ho : k.OnCpu c) (hcount : k.readyList.tids.count c ≤ 2)
    (hlt : k.osTicks < k.osTicks + ticks) (hk : (k.sleep c ticks).yieldIf true = some k') :
    k'.Dormant c ∧ (k'.tcbs c).wakePoint = k.osTicks + ticks := by
  have ho₁ : (k.sleep c ticks).OnCpu c := ho.of_frame (frame_sleep k c ticks) rfl
  rw [Kernel.yieldIf, if_pos rfl, yieldTask, if_pos ho₁.ready] at hk
  obtain ⟨st, hfront, rfl⟩ := nextTcb_eq_some ho₁ hk
  -- waking others adds no entry of `c` and leaves it blocked
  obtain ⟨hb, hone, hpoint⟩ : (k.sleep c ticks).wakeUpSleepers.status c = .blocked ∧
      (k.sleep c ticks).wakeUpSleepers.readyList.tids.count c ≤ 1 ∧
      ((k.sleep c ticks).wakeUpSleepers.tcbs c).wakePoint = k.osTicks + ticks := by
    refine wakeUpSleepers_induct (P := fun k' => k'.status c = .blocked ∧
      k'.readyList.tids.count c ≤ 1 ∧ (k'.tcbs c).wakePoint = k.osTicks + ticks) ⟨?_, ?_, ?_⟩ ?_
    · show ((k.setTcb c _).park c).status c = .blocked
      rw [Kernel.park, status_readyRemove, setStatus, status_setTcb, if_pos rfl]
    · show (k.readyList.remove c).tids.count c ≤ 1
      rw [remove_tids, List.count_erase_self]
      omega
    · simp [Kernel.sleep, Kernel.park, setStatus]
    · rintro k' t ⟨hb, hone, hpoint⟩ - hdue
      have hct : c ≠ t := by
        rintro rfl
        rw [hpoint] at hdue
        exact absurd hlt (BitVec.not_lt.mpr hdue)
      refine ⟨?_, ?_, ?_⟩
      · rw [Kernel.expire, status_readyInsert, status_setTcb, if_neg hct]
        exact hb
      · rw [Kernel.expire, count_readyInsert_of_ne _ hct]
        exact hone
      · show (Function.update k'.tcbs t _ c).wakePoint = _
        rw [Function.update_of_ne hct]
        exact hpoint
  have hcur : ((k.sleep c ticks).wakeUpSleepers.requeue c).currentTcbPtr = some c := by
    rw [currentTcbPtr_requeue, currentTcbPtr_wakeUpSleepers]
    exact ho₁.current
  have hnot : c ∉ ((k.sleep c ticks).wakeUpSleepers.requeue c).readyList.tids := by
    rw [requeue, if_pos (.inr hb), readyRemove_readyList, remove_tids, ← List.count_pos_iff,
      List.count_erase_self]
    omega
  refine ⟨dormant_switchTo hcur hnot hfront, ?_⟩
  rw [wakePoint_switchTo, wakePoint_requeue, hpoint]

end Kernel

/-- The wait list on which a task may be after the `Task::delay` of `wait_on`. -/
def Pc.checks (pc : Pc T) : Option (ℕ × Side) :=
  match pc.msg with
  | some (q, side, .check) => some (q, side)
  | _ => none

theorem Pc.onList_of_checks {pc : Pc T} {e : ℕ × Side} (h : pc.checks = some e) : pc.onList = some e := by
  unfold Pc.checks at h
  split at h
  · rename_i hm
    cases h
    exact Pc.onList_check hm
  · cases h

/-- The task to which `Err(TimeOut)` has been returned. -/
def Event.timesOut : Event T → Option Tid
  | .timedOut _ t => some t
  | _ => none

namespace System

variable {cr t : Tid} {k₁ : Kernel} {b : Bool}

/-! ### The sections of a message call -/

/-- The task that calls `send` or `recv`, with its time-out. -/
def begins (σ : System T) : Action T → Option (Tid × BitVec 32)
  | .call (.send _ _ timeout) => σ.kernel.crTid.map (·, timeout)
  | .call (.recv _ timeout) => σ.kernel.crTid.map (·, timeout)
  | _ => none

/-- The task that calls the `Task::delay` of `wait_on`, with its time-out. -/
def dozes (σ : System T) : Action T → Option (Tid × BitVec 32)
  | .proceed => σ.kernel.crTid.bind fun cr =>
    match (σ.pc cr).msg with
    | some (_, _, .delay timeout) => some (cr, timeout)
    | _ => none
  | _ => none

/-- The task whose second attempt fails. -/
def givesUp (cap : ℕ → ℕ) (σ : System T) : Action T → Option Tid
  | .proceed => σ.kernel.crTid.bind fun cr =>
    match (σ.pc cr).msg with
    | some (q, side, .retry) => if (σ.msgQueues q).avail (cap q) side = 0 then some cr else none
    | _ => none
  | _ => none

/-- `t` has called the `Task::delay` of `wait_on`, and is still on its wait list. -/
def Listed (σ : System T) (t : Tid) : Prop :=
  ∃ e ∈ (σ.pc t).checks, t ∈ ((σ.msgQueues e.1).waitList e.2).tids

instance (σ : System T) : DecidablePred σ.Listed := fun t =>
  inferInstanceAs (Decidable (∃ e ∈ (σ.pc t).checks, t ∈ ((σ.msgQueues e.1).waitList e.2).tids))

/-- The task to which the step has returned `Err(TimeOut)`: the newest event says so. -/
def timedOut (σ σ' : System T) : Option Tid :=
  if σ'.history.length = σ.history.length then none else σ'.history.head?.bind Event.timesOut

/-- The task to which a step returns `Err(TimeOut)`, by the section it executes. -/
def timesOut (cap : ℕ → ℕ) (σ : System T) : Action T → Option Tid
  | .call (.send q _ timeout) => σ.kernel.crTid.bind fun cr =>
    if (σ.msgQueues q).len < cap q then none else if timeout = 0 then some cr else none
  | .call (.recv q timeout) => σ.kernel.crTid.bind fun cr =>
    if (σ.msgQueues q).len > 0 then none else if timeout = 0 then some cr else none
  | .proceed => σ.kernel.crTid.bind fun cr =>
    match (σ.pc cr).msg with
    | some (q, side, .check) =>
      if cr ∈ ((σ.msgQueues q).waitList side).tids then some cr else none
    | some (q, side, .retry) => if (σ.msgQueues q).avail (cap q) side = 0 then some cr else none
    | _ => none
  | _ => none

theorem timedOut_of_eq (h : σ'.history = σ.history) : σ.timedOut σ' = none := by
  rw [timedOut, if_pos (by rw [h])]

theorem timedOut_of_append {e : Event T} {l : List (Event T)}
    (h : σ'.history = e :: (l ++ σ.history)) : σ.timedOut σ' = e.timesOut := by
  rw [timedOut, h, if_neg, List.head?_cons, Option.bind_some]
  rw [List.length_cons, List.length_append]
  omega

theorem timedOut_cons {e : Event T} (h : σ'.history = e :: σ.history) :
    σ.timedOut σ' = e.timesOut :=
  timedOut_of_append (l := []) h

theorem timedOut_commitSend {q : ℕ} {msg : T} {l : List (Event T)}
    (hs : commitSend cap { σ with history := l ++ σ.history } cr q msg = some σ') :
    σ.timedOut σ' = none := by
  obtain ⟨k, -, rfl⟩ := yieldIf_eq_some hs
  exact timedOut_of_append (e := .sent q cr msg) rfl

theorem timedOut_commitRecv {q : ℕ} {l : List (Event T)}
    (hs : commitRecv cap { σ with history := l ++ σ.history } cr q = some σ') :
    σ.timedOut σ' = none := by
  obtain ⟨⟨msg, r⟩, -, hs⟩ := Option.bind_eq_some_iff.mp hs
  obtain ⟨k, -, rfl⟩ := yieldIf_eq_some hs
  exact timedOut_of_append (e := .received q cr msg) rfl

/-- What a section outside message calls leaves alone. -/
structure Apart (σ σ' : System T) : Prop where
  msgQueues : σ'.msgQueues = σ.msgQueues
  pcs : ∀ t, σ'.pc t = σ.pc t ∨ (σ'.pc t).msg = none
  timedOut : σ.timedOut σ' = none

theorem pcs_of_eq (hpc : σ'.pc = σ.pc) (t : Tid) : σ'.pc t = σ.pc t ∨ (σ'.pc t).msg = none :=
  .inl (congrFun hpc t)

theorem pcs_update (pc : Pc T) (hpc : σ'.pc = Function.update σ.pc cr pc) (hm : pc.msg = none) (t : Tid) :
    σ'.pc t = σ.pc t ∨ (σ'.pc t).msg = none := by
  rw [hpc, Function.update_apply]
  split_ifs
  · exact .inr hm
  · exact .inl rfl

theorem lock_apart {m : ℕ} (hs : σ.lock cr m = some σ') : σ.Apart σ' := by
  obtain ⟨k, -, rfl⟩ := yieldIf_eq_some hs
  split_ifs
  · exact ⟨rfl, pcs_update (.lock m) rfl rfl, timedOut_of_eq rfl⟩
  · exact ⟨rfl, pcs_update .user rfl rfl, timedOut_of_eq rfl⟩

theorem call_apart {c : Call T} (hsend : ∀ q msg timeout, c ≠ .send q msg timeout)
    (hrecv : ∀ q timeout, c ≠ .recv q timeout) (hs : σ.call cap cr c = some σ') : σ.Apart σ' := by
  cases c with
  | task c =>
      obtain ⟨⟨k, new⟩, -, rfl⟩ := Option.map_eq_some_iff.mp hs
      cases new with
      | none => exact ⟨rfl, pcs_of_eq rfl, timedOut_of_eq rfl⟩
      | some u => exact ⟨rfl, pcs_update .user rfl rfl, timedOut_of_eq rfl⟩
  | down s =>
      obtain ⟨k, -, rfl⟩ := yieldIf_eq_some hs
      split_ifs
      · exact ⟨rfl, pcs_update (.down s) rfl rfl, timedOut_of_eq rfl⟩
      · exact ⟨rfl, pcs_of_eq rfl, timedOut_cons (e := .acquired s cr) rfl⟩
  | downTimeout s ticks =>
      cases hs
      unfold downTimeout
      dsimp only
      split_ifs
      · exact ⟨rfl, pcs_of_eq rfl, timedOut_cons (e := .acquired s cr) rfl⟩
      · exact ⟨rfl, pcs_of_eq rfl, timedOut_of_eq rfl⟩
      · exact ⟨rfl, pcs_update (.downTimeoutBlock s ticks) rfl rfl, timedOut_of_eq rfl⟩
  | tryDown s =>
      cases hs
      unfold tryDown
      dsimp only
      split_ifs
      · exact ⟨rfl, pcs_of_eq rfl, timedOut_cons (e := .acquired s cr) rfl⟩
      · exact ⟨rfl, pcs_of_eq rfl, timedOut_of_eq rfl⟩
  | up s =>
      obtain ⟨k, -, rfl⟩ := yieldIf_eq_some hs
      exact ⟨rfl, pcs_of_eq rfl, timedOut_cons (e := .upped s) rfl⟩
  | lock m =>
      replace hs : (if σ.guards cr m + 1 < 2 ^ 32 then σ.lock cr m else none) = some σ' := hs
      split_ifs at hs
      exact lock_apart hs
  | unlock m =>
      replace hs : (if 0 < σ.guards cr m then σ.unlock cr m else none) = some σ' := hs
      split_ifs at hs
      obtain ⟨k, -, rfl⟩ := yieldIf_eq_some hs
      exact ⟨rfl, pcs_of_eq rfl, timedOut_of_eq rfl⟩
  | wait c m =>
      replace hs : (if 0 < σ.guards cr m then σ.wait cr c m else none) = some σ' := hs
      split_ifs at hs
      obtain ⟨k, -, rfl⟩ := yieldIf_eq_some hs
      refine ⟨rfl, pcs_update _ rfl ?_, timedOut_of_eq rfl⟩
      split_ifs <;> rfl
  | notify c =>
      obtain ⟨k, -, rfl⟩ := yieldIf_eq_some hs
      exact ⟨rfl, pcs_of_eq rfl, timedOut_of_eq rfl⟩
  | notifyAll c =>
      obtain ⟨k, -, rfl⟩ := yieldIf_eq_some hs
      exact ⟨rfl, pcs_of_eq rfl, timedOut_of_eq rfl⟩
  | send q msg timeout => exact absurd rfl (hsend q msg timeout)
  | recv q timeout => exact absurd rfl (hrecv q timeout)

theorem proceed_apart (hm : (σ.pc cr).msg = none) (hs : σ.proceed cap cr = some σ') : σ.Apart σ' := by
  unfold System.proceed at hs
  cases hpc : σ.pc cr with
  | user =>
      rw [hpc] at hs
      cases hs
  | down s =>
      rw [hpc] at hs
      cases hs
      exact ⟨rfl, pcs_update .user rfl rfl, timedOut_cons (e := .acquired s cr) rfl⟩
  | downTimeoutBlock s ticks =>
      rw [hpc] at hs
      obtain ⟨k, -, rfl⟩ := yieldIf_eq_some hs
      exact ⟨rfl, pcs_update (.downTimeoutCheck s) rfl rfl, timedOut_of_eq rfl⟩
  | downTimeoutCheck s =>
      rw [hpc] at hs
      cases hs
      unfold System.downTimeoutCheck
      dsimp only
      split_ifs
      · exact ⟨rfl, pcs_update .user rfl rfl, timedOut_cons (e := .acquired s cr) rfl⟩
      · exact ⟨rfl, pcs_update .user rfl rfl, timedOut_of_eq rfl⟩
  | lock m =>
      rw [hpc] at hs
      cases hs
      exact ⟨rfl, pcs_update .user rfl rfl, timedOut_of_eq rfl⟩
  | condUnlocked c m =>
      rw [hpc] at hs
      obtain ⟨k, -, rfl⟩ := yieldIf_eq_some hs
      exact ⟨rfl, pcs_update (.condRelock c m) rfl rfl, timedOut_of_eq rfl⟩
  | condRelock c m =>
      rw [hpc] at hs
      exact lock_apart hs
  | _ =>
      rw [hpc] at hm
      cases hm

theorem timedOut_call {c : Call T} (hcr : σ.kernel.crTid = some cr) (hs : σ.call cap cr c = some σ') :
    σ.timedOut σ' = σ.timesOut cap (.call c) := by
  cases c with
  | send q msg timeout =>
      replace hs : σ.send cap cr q msg timeout = some σ' := hs
      rw [timesOut, hcr, Option.bind_some]
      rw [System.send, log_msgQueues] at hs
      split_ifs at hs with hlt ht
      · rw [if_pos hlt]
        exact timedOut_commitSend (l := [.sendCalled q cr msg]) hs
      · rw [if_neg hlt, if_pos ht]
        cases hs
        exact timedOut_of_append (e := .timedOut q cr) (l := [.sendCalled q cr msg]) rfl
      · rw [if_neg hlt, if_neg ht]
        cases hs
        exact timedOut_cons (e := .sendCalled q cr msg) rfl
  | recv q timeout =>
      replace hs : σ.recv cap cr q timeout = some σ' := hs
      rw [timesOut, hcr, Option.bind_some]
      rw [System.recv, log_msgQueues] at hs
      split_ifs at hs with hpos ht
      · rw [if_pos hpos]
        exact timedOut_commitRecv (l := [.recvCalled q cr]) hs
      · rw [if_neg hpos, if_pos ht]
        cases hs
        exact timedOut_of_append (e := .timedOut q cr) (l := [.recvCalled q cr]) rfl
      · rw [if_neg hpos, if_neg ht]
        cases hs
        exact timedOut_cons (e := .recvCalled q cr) rfl
  | _ => exact (call_apart (by simp) (by simp) hs).timedOut

theorem timedOut_proceed (hcr : σ.kernel.crTid = some cr) (hs : σ.proceed cap cr = some σ') :
    σ.timedOut σ' = σ.timesOut cap .proceed := by
  rw [timesOut, hcr, Option.bind_some]
  by_cases hm : (σ.pc cr).msg = none
  · rw [hm]
    exact (proceed_apart hm hs).timedOut
  · unfold System.proceed at hs
    cases hpc : σ.pc cr with
    | sendWait q msg timeout =>
        rw [hpc] at hs
        cases hs
        exact timedOut_of_eq rfl
    | sendDelay q msg timeout =>
        rw [hpc] at hs
        obtain ⟨k, -, rfl⟩ := Option.map_eq_some_iff.mp hs
        exact timedOut_of_eq rfl
    | sendCheck q msg =>
        rw [hpc] at hs
        cases hs
        show _ = if cr ∈ (σ.msgQueues q).senders.tids then some cr else none
        unfold System.sendCheck
        dsimp only
        split_ifs
        · exact timedOut_cons (e := .timedOut q cr) rfl
        · exact timedOut_of_eq rfl
    | sendRetry q msg =>
        rw [hpc] at hs
        show _ = if cap q - (σ.msgQueues q).len = 0 then some cr else none
        dsimp only at hs
        split_ifs at hs with hlt
        · rw [if_neg (Nat.sub_ne_zero_of_lt hlt)]
          exact timedOut_commitSend (l := []) hs
        · rw [if_pos (Nat.sub_eq_zero_of_le (not_lt.mp hlt))]
          cases hs
          exact timedOut_cons (e := .timedOut q cr) rfl
    | recvWait q timeout =>
        rw [hpc] at hs
        cases hs
        exact timedOut_of_eq rfl
    | recvDelay q timeout =>
        rw [hpc] at hs
        obtain ⟨k, -, rfl⟩ := Option.map_eq_some_iff.mp hs
        exact timedOut_of_eq rfl
    | recvCheck q =>
        rw [hpc] at hs
        cases hs
        show _ = if cr ∈ (σ.msgQueues q).receivers.tids then some cr else none
        unfold System.recvCheck
        dsimp only
        split_ifs
        · exact timedOut_cons (e := .timedOut q cr) rfl
        · exact timedOut_of_eq rfl
    | recvRetry q =>
        rw [hpc] at hs
        show _ = if (σ.msgQueues q).len = 0 then some cr else none
        dsimp only at hs
        split_ifs at hs with hpos
        · rw [if_neg hpos.ne']
          exact timedOut_commitRecv (l := []) hs
        · rw [if_pos (Nat.eq_zero_of_not_pos hpos)]
          cases hs
          exact timedOut_cons (e := .timedOut q cr) rfl
    | _ =>
        rw [hpc] at hm
        exact absurd rfl hm

/-- **Which sections return `Err(TimeOut)`.** -/
theorem timedOut_step (hs : σ.step cap a = some σ') : σ.timedOut σ' = σ.timesOut cap a := by
  cases a with
  | systick missed =>
      obtain ⟨k, -, rfl⟩ := Option.map_eq_some_iff.mp hs
      exact timedOut_of_eq rfl
  | preempt =>
      obtain ⟨k, -, rfl⟩ := yieldIf_eq_some hs
      exact timedOut_of_eq rfl
  | upFromIsr s =>
      cases hs
      exact timedOut_cons (e := .upped s) rfl
  | call c =>
      obtain ⟨cr, hcr, hs⟩ := Option.bind_eq_some_iff.mp hs
      split at hs
      · exact timedOut_call hcr hs
      · cases hs
  | proceed =>
      obtain ⟨cr, hcr, hs⟩ := Option.bind_eq_some_iff.mp hs
      exact timedOut_proceed hcr hs

/-- An action that is no section of a message call. -/
structure Elsewhere (cap : ℕ → ℕ) (σ : System T) (a : Action T) (σ' : System T) : Prop where
  msgQueues : σ'.msgQueues = σ.msgQueues
  pcs : ∀ t, σ'.pc t = σ.pc t ∨ (σ'.pc t).msg = none
  begins : σ.begins a = none
  dozes : σ.dozes a = none
  committing : σ.committing cap a = none
  givesUp : σ.givesUp cap a = none
  timesOut : σ.timesOut cap a = none

/-- **An action is a section of a message call, or leaves queues and their callers alone.** -/
theorem msgStep_or_elsewhere (hle : ∀ q, (σ.msgQueues q).len ≤ cap q)
    (hp : ∀ t, (σ.pc t).msg ≠ none → (σ.pc t).IsMsg) (hs : σ.step cap a = some σ') :
    MsgStep cap σ a σ' ∨ Elsewhere cap σ a σ' := by
  cases a with
  | systick missed =>
      obtain ⟨k, -, rfl⟩ := Option.map_eq_some_iff.mp hs
      exact .inr ⟨rfl, fun _ => .inl rfl, rfl, rfl, rfl, rfl, rfl⟩
  | preempt =>
      obtain ⟨k, -, rfl⟩ := yieldIf_eq_some hs
      exact .inr ⟨rfl, fun _ => .inl rfl, rfl, rfl, rfl, rfl, rfl⟩
  | upFromIsr s =>
      cases hs
      exact .inr ⟨rfl, fun _ => .inl rfl, rfl, rfl, rfl, rfl, rfl⟩
  | call c =>
      obtain ⟨cr, hcr, hs⟩ := Option.bind_eq_some_iff.mp hs
      split at hs
      · rename_i hpc
        cases c with
        | send q msg timeout => exact .inl (call_msg hcr hpc hle trivial hs)
        | recv q timeout => exact .inl (call_msg hcr hpc hle trivial hs)
        | _ =>
            obtain ⟨hmq, hpcs, -⟩ := call_apart (by simp) (by simp) hs
            exact .inr ⟨hmq, hpcs, rfl, rfl, rfl, rfl, rfl⟩
      · cases hs
  | proceed =>
      obtain ⟨cr, hcr, hs⟩ := Option.bind_eq_some_iff.mp hs
      by_cases hm : (σ.pc cr).msg = none
      · obtain ⟨hmq, hpcs, -⟩ := proceed_apart hm hs
        refine .inr ⟨hmq, hpcs, rfl, ?_, ?_, ?_, ?_⟩
        · rw [dozes, hcr, Option.bind_some, hm]
        · rw [committing, hcr, Option.bind_some, hm]
        · rw [givesUp, hcr, Option.bind_some, hm]
        · rw [timesOut, hcr, Option.bind_some, hm]
      · exact .inl (proceed_msg hcr (hp cr hm) hle hs)

/-- A task that is created is in no call. -/
theorem pc_of_creates (hs : σ.step cap a = some σ') (hnew : a.creates σ = some t) :
    σ'.pc t = .user := by
  cases a with
  | call c =>
      cases c with
      | task c =>
          obtain ⟨cr, -, hs⟩ := Option.bind_eq_some_iff.mp hs
          split at hs
          · obtain ⟨⟨k, new⟩, he, rfl⟩ := Option.map_eq_some_iff.mp hs
            have hnew' : new = some t := by
              cases c with
              | create p name =>
                  obtain ⟨⟨u, k₀⟩, ha, rfl⟩ := Option.map_eq_some_iff.mp hnew
                  obtain ⟨r, hr, hpair⟩ := Option.map_eq_some_iff.mp he
                  unfold Kernel.create at hr
                  simp only [ha] at hr
                  obtain ⟨k', -, rfl⟩ := Option.map_eq_some_iff.mp hr
                  cases hpair
                  rfl
              | createRaw p name size =>
                  obtain ⟨⟨u, k₀⟩, ha, rfl⟩ := Option.map_eq_some_iff.mp hnew
                  obtain ⟨r, hr, hpair⟩ := Option.map_eq_some_iff.mp he
                  unfold Kernel.createRaw at hr
                  simp only [ha] at hr
                  split_ifs at hr
                  cases hr
                  cases hpair
                  rfl
              | _ => cases hnew
            subst hnew'
            exact Function.update_self t .user σ.pc
          · cases hs
      | _ => cases hnew
  | _ => cases hnew

/-! ### What the writes do to a task that does not run -/

theorem osTicks_enter {c : Tid} (ho : σ.kernel.OnCpu c) (he : σ.enter cap a = some (k₁, b)) :
    k₁.osTicks = σ.kernel.osTicks + BitVec.ofNat 32 a.ticks := by
  by_cases hticks : a.ticks = 0
  · rw [hticks, BitVec.add_zero]
    cases hnew : a.creates σ with
    | none => exact (keeps_enter he hticks hnew).osTicks
    | some u =>
        obtain ⟨k₀, p, name, ha, rfl⟩ := enter_creates he hnew
        exact osTicks_addTask ha p name
  · cases a with
    | systick missed =>
        replace he : σ.kernel.systickReplay missed = some (k₁, b) := he
        rw [systickReplay_eq ho] at he
        cases he
        rfl
    | _ => exact absurd rfl hticks

/-- A wake point that is not of the running task comes no nearer. -/
theorem wakePoint_enter {c : Tid} (ho : σ.kernel.OnCpu c) (he : σ.enter cap a = some (k₁, b))
    (htc : t ≠ c) (hnew : a.creates σ ≠ some t) :
    (σ.kernel.tcbs t).wakePoint ≤ (k₁.tcbs t).wakePoint := by
  by_cases hticks : a.ticks = 0
  · cases hcreates : a.creates σ with
    | none =>
        refine (keeps_enter he hticks hcreates).wakePoint t ?_
        rw [ho.crTid]
        exact fun heq => htc (Option.some.inj heq).symm
    | some u =>
        obtain ⟨k₀, p, name, ha, rfl⟩ := enter_creates he hcreates
        have htu : t ≠ u := by
          rintro rfl
          exact hnew hcreates
        obtain ⟨-, rfl⟩ := allocTid_eq_some ha
        show _ ≤ (Function.update (Function.update σ.kernel.tcbs u (.empty u)) u _ t).wakePoint
        rw [Function.update_of_ne htu, Function.update_of_ne htu]
        exact BitVec.le_refl _
  · cases a with
    | systick missed =>
        replace he : σ.kernel.systickReplay missed = some (k₁, b) := he
        rw [systickReplay_eq ho] at he
        cases he
        show _ ≤ (Function.update σ.kernel.tcbs c _ t).wakePoint
        rw [Function.update_of_ne htc]
        exact BitVec.le_refl _
    | _ => exact absurd rfl hticks

/-! ### Who is on a wait list after a step -/

/-- A commit takes `t` off the wait list of its call. -/
def TakesOff (cap : ℕ → ℕ) (σ : System T) (a : Action T) (t : Tid) : Prop :=
  ∃ e ∈ (σ.pc t).checks, σ.committing cap a = some (e.1, e.2.other) ∧
    ((σ.msgQueues e.1).waitList e.2).front = some t ∧
    ((σ.msgQueues e.1).waitList e.2).tids.count t = 1

instance (cap : ℕ → ℕ) (σ : System T) (a : Action T) : DecidablePred (σ.TakesOff cap a) := fun t =>
  inferInstanceAs (Decidable (∃ e ∈ (σ.pc t).checks, σ.committing cap a = some (e.1, e.2.other) ∧
    ((σ.msgQueues e.1).waitList e.2).front = some t ∧
    ((σ.msgQueues e.1).waitList e.2).tids.count t = 1))

theorem not_takesOff (h : σ.committing cap a = none) (t : Tid) : ¬σ.TakesOff cap a t := by
  rintro ⟨e, -, hcom, -⟩
  rw [h] at hcom
  cases hcom

theorem Listed.of_subset (h : σ'.Listed t) (hpc : σ'.pc t = σ.pc t)
    (hsub : ∀ q side, t ∈ ((σ'.msgQueues q).waitList side).tids →
      t ∈ ((σ.msgQueues q).waitList side).tids) : σ.Listed t := by
  obtain ⟨e, he, ht⟩ := h
  rw [hpc] at he
  exact ⟨e, he, hsub e.1 e.2 ht⟩

/-- The running task moves to a section that is not the last one of `wait_on`. -/
theorem Listed.ne {pc : Pc T} (hpc : σ'.pc = Function.update σ.pc cr pc) (hc : pc.checks = none)
    (h : σ'.Listed t) : t ≠ cr := by
  rintro rfl
  obtain ⟨e, he, -⟩ := h
  rw [hpc, Function.update_self, hc] at he
  cases he

/-- **Who is on a wait list after a step** was so before, and is not taken off by it, or has just called
`Task::delay`. -/
theorem listed_before (hstep : MsgStep cap σ a σ' ∨ Elsewhere cap σ a σ') (h : σ'.Listed t) :
    (σ.Listed t ∧ ¬σ.TakesOff cap a t) ∨ ∃ q side timeout, σ.kernel.crTid = some t ∧
      (σ.pc t).msg = some (q, side, .delay timeout) ∧ a = .proceed ∧
      σ.kernel.delay timeout = some σ'.kernel := by
  rcases hstep with hstep | hstep
  · cases hstep with
    | tick hk => exact .inl ⟨h, not_takesOff rfl t⟩
    | switch hsw hk =>
        refine .inl ⟨h, not_takesOff ?_ t⟩
        rcases hsw with rfl | rfl <;> rfl
    | delay hcr hpc hk => exact .inl ⟨h, not_takesOff rfl t⟩
    | @commit _ cr q side j k hist hcr hpc hcom hj havail havail' hk =>
        have htc : t ≠ cr := h.ne rfl rfl
        have hsub := tryWakeUp_sublist ((σ.msgQueues q).waitList side.other) σ.kernel cr
        refine .inl ⟨h.of_subset (Function.update_of_ne htc .user σ.pc) fun q' side' ht => ?_, ?_⟩
        · exact mem_waitList_of_update hj (hsub.subset ·) ht
        · -- the task at the front has no second entry
          rintro ⟨e, he, hcom', hfront, hone⟩
          rw [hcom] at hcom'
          cases hcom'
          obtain ⟨e', he', ht⟩ := h
          replace he' : e' ∈ (Function.update σ.pc cr .user t).checks := he'
          rw [Function.update_of_ne htc, Option.mem_def.mp he] at he'
          cases he'
          have hother : e.2.other.other = e.2 := by
            cases e.2 <;> rfl
          rw [hother] at ht
          rw [waitList_update hj, if_pos ⟨rfl, rfl⟩] at ht
          rcases tryWakeUp_cases ((σ.msgQueues e.1).waitList e.2) σ.kernel cr with
            ⟨hnil, -⟩ | ⟨w, l, hcons, he⟩
          · rw [TaskList.front, hnil] at hfront
            cases hfront
          · rw [he] at ht
            rw [TaskList.front, hcons] at hfront
            cases hfront
            rw [hcons, List.count_cons_self] at hone
            have hpos : 0 < l.tids.count t := List.count_pos_iff.mpr ht
            omega
    | @start c cr q side pc hist hcr hpc hcom havail hnext =>
        have hc : pc.checks = none := by
          rcases hnext with rfl | ⟨timeout, -, hm⟩
          · rfl
          · rw [Pc.checks, hm]
        exact .inl ⟨h.of_subset (Function.update_of_ne (h.ne rfl hc) pc σ.pc) fun _ _ => id,
          not_takesOff hcom t⟩
    | @enlist cr q side timeout pc hcr hpc hnext =>
        have htc : t ≠ cr := h.ne rfl (by rw [Pc.checks, hnext])
        refine .inl ⟨h.of_subset (Function.update_of_ne htc pc σ.pc) fun q' side' ht => ?_,
          not_takesOff (committing_proceed hcr hpc (by simp)) t⟩
        refine mem_waitList_of_update (fun _ => rfl) (fun htl => ?_) ht
        exact (mem_of_mem_insertInOrder htl).resolve_left htc
    | @sleep cr q side timeout pc k hcr hpc hnext hk =>
        by_cases htc : t = cr
        · subst htc
          exact .inr ⟨q, side, timeout, hcr, hpc, rfl, hk⟩
        · exact .inl ⟨h.of_subset (Function.update_of_ne htc pc σ.pc) fun _ _ => id,
            not_takesOff (committing_proceed hcr hpc (by simp)) t⟩
    | @timeOut cr q side hist hcr hpc hmem =>
        have htc : t ≠ cr := h.ne rfl rfl
        refine .inl ⟨h.of_subset (Function.update_of_ne htc .user σ.pc) fun q' side' ht => ?_,
          not_takesOff (committing_proceed hcr hpc (by simp)) t⟩
        refine mem_waitList_of_update (fun _ => rfl) (fun htl => ?_) ht
        rw [remove_tids] at htl
        exact List.mem_of_mem_erase htl
    | @wake cr q side pc hcr hpc hmem hnext =>
        have htc : t ≠ cr := h.ne rfl (by rw [Pc.checks, hnext])
        exact .inl ⟨h.of_subset (Function.update_of_ne htc pc σ.pc) fun _ _ => id,
          not_takesOff (committing_proceed hcr hpc (by simp)) t⟩
    | @giveUp cr q side hist hcr hpc havail =>
        exact .inl ⟨h.of_subset (Function.update_of_ne (h.ne rfl rfl) .user σ.pc) fun _ _ => id,
          not_takesOff ((committing_retry hcr hpc).trans (if_neg havail.not_gt)) t⟩
  · refine .inl ⟨?_, not_takesOff hstep.committing t⟩
    rcases hstep.pcs t with hpc | hm
    · refine h.of_subset hpc fun q side ht => ?_
      rwa [hstep.msgQueues] at ht
    · obtain ⟨e, he, -⟩ := h
      rw [Pc.checks, hm] at he
      cases he

/-! ### What time-outs rely on -/

/-- The wake point of a task that goes to sleep in `wait_on` does not wrap. -/
def NoWrap (σ : System T) (a : Action T) : Prop :=
  ∀ e ∈ σ.dozes a, σ.kernel.osTicks.toNat + e.2.toNat < 2 ^ 32

instance (σ : System T) : DecidablePred σ.NoWrap := fun a =>
  -- named, for `∀ e` alone would be decided by trying all `2 ^ 32` numbers of ticks
  Option.decidableForallMem (σ.dozes a)

/-- Whoever goes to sleep in `wait_on` has at most two entries on `READY_LIST`, and who is made ready on
its wait list is taken off it. -/
structure SleepsOut (cap : ℕ → ℕ) (σ : System T) (a : Action T) : Prop where
  count : ∀ e ∈ σ.dozes a, σ.kernel.readyList.tids.count e.1 ≤ 2
  takes : ∀ r ∈ σ.enter cap a, ∀ t ∈ r.1.readyList.tids, t ∉ σ.kernel.readyList.tids →
    σ.Listed t → σ.TakesOff cap a t

theorem sleepsOut_iff : σ.SleepsOut cap a ↔
    (∀ e ∈ σ.dozes a, σ.kernel.readyList.tids.count e.1 ≤ 2) ∧
    ∀ r ∈ σ.enter cap a, ∀ t ∈ r.1.readyList.tids, t ∉ σ.kernel.readyList.tids →
      σ.Listed t → σ.TakesOff cap a t :=
  ⟨fun h => ⟨h.count, h.takes⟩, fun h => ⟨h.1, h.2⟩⟩

instance (cap : ℕ → ℕ) (σ : System T) (a : Action T) : Decidable (σ.SleepsOut cap a) :=
  @decidable_of_iff' _ _ sleepsOut_iff
    (@instDecidableAnd _ _ (Option.decidableForallMem _) (Option.decidableForallMem _))

/-- `try_wake_up` makes nobody ready but the front of its list. -/
theorem mem_ready_tryWakeUp {l : TaskList} {k : Kernel}
    (ht : t ∈ (tryWakeUp l k cr).kernel.readyList.tids) : t ∈ k.readyList.tids ∨ l.front = some t := by
  rcases tryWakeUp_cases l k cr with ⟨-, he⟩ | ⟨w, l', hcons, he⟩
  · rw [he] at ht
    exact .inl ht
  · rw [he] at ht
    rcases mem_of_mem_readyInsert ht with heq | hready
    · right
      rw [TaskList.front, hcons, heq]
      rfl
    · exact .inl hready

theorem mem_ready_delay {k : Kernel} {timeout : BitVec 32}
    (he : TaskCall.enter k (.delay timeout) = some (k₁, b)) (ht : t ∈ k₁.readyList.tids) :
    t ∈ k.readyList.tids := by
  simp only [TaskCall.enter] at he
  split_ifs at he
  · cases he
    exact ht
  · obtain ⟨cr, -, he⟩ := Option.map_eq_some_iff.mp he
    cases he
    replace ht : t ∈ (k.readyList.remove cr).tids := ht
    rw [remove_tids] at ht
    exact List.mem_of_mem_erase ht

/-- A commit makes nobody ready but its peer. -/
theorem mem_ready_commit {q : ℕ} {side : Side} (hcom : σ.committing cap a = some (q, side))
    (ht : t ∈ (tryWakeUp ((σ.msgQueues q).waitList side.other) σ.kernel cr).kernel.readyList.tids) :
    t ∈ σ.kernel.readyList.tids ∨ σ.peer cap a = some t := by
  rw [peer, hcom, Option.bind_some]
  exact mem_ready_tryWakeUp ht

theorem mem_ready_enterCall {c : Call T} (ha : (Action.call c).IsMsg)
    (he : σ.enterCall cap cr c = some (k₁, b)) (ht : t ∈ k₁.readyList.tids) :
    t ∈ σ.kernel.readyList.tids ∨ σ.peer cap (.call c) = some t := by
  cases c with
  | task c =>
      cases c with
      | delay ticks => exact .inl (mem_ready_delay he ht)
      | yieldTask =>
          cases he
          exact .inl ht
      | _ => cases ha
  | send q msg timeout =>
      simp only [enterCall] at he
      split_ifs at he with hlt
      · cases he
        rw [MsgQueueInner.commitSend_of_lt hlt] at ht
        exact mem_ready_commit (if_pos (Nat.sub_pos_of_lt hlt)) ht
      · cases he
        exact .inl ht
  | recv q timeout =>
      simp only [enterCall] at he
      split_ifs at he with hpos
      · obtain ⟨r, hrecv, he⟩ := Option.map_eq_some_iff.mp he
        cases he
        rw [(MsgQueueInner.commitRecv_eq_some hrecv).2] at ht
        exact mem_ready_commit (if_pos hpos) ht
      · cases he
        exact .inl ht
  | _ => cases ha

theorem mem_ready_enterProceed (hcr : σ.kernel.crTid = some cr) (hp : (σ.pc cr).IsMsg)
    (he : σ.enterProceed cap cr = some (k₁, b)) (ht : t ∈ k₁.readyList.tids) :
    t ∈ σ.kernel.readyList.tids ∨ σ.peer cap .proceed = some t := by
  unfold enterProceed at he
  cases hpc : σ.pc cr with
  | user =>
      rw [hpc] at he
      cases he
  | sendWait q msg timeout =>
      rw [hpc] at he
      cases he
      exact .inl ht
  | sendDelay q msg timeout =>
      rw [hpc] at he
      exact .inl (mem_ready_delay he ht)
  | sendCheck q msg =>
      rw [hpc] at he
      cases he
      exact .inl ht
  | sendRetry q msg =>
      rw [hpc] at he
      dsimp only at he
      have hm : (σ.pc cr).msg = some (q, .senders, .retry) := by rw [hpc]; rfl
      split_ifs at he with hlt
      · cases he
        rw [MsgQueueInner.commitSend_of_lt hlt] at ht
        exact mem_ready_commit ((committing_retry hcr hm).trans (if_pos (Nat.sub_pos_of_lt hlt))) ht
      · cases he
        exact .inl ht
  | recvWait q timeout =>
      rw [hpc] at he
      cases he
      exact .inl ht
  | recvDelay q timeout =>
      rw [hpc] at he
      exact .inl (mem_ready_delay he ht)
  | recvCheck q =>
      rw [hpc] at he
      cases he
      exact .inl ht
  | recvRetry q =>
      rw [hpc] at he
      dsimp only at he
      have hm : (σ.pc cr).msg = some (q, .receivers, .retry) := by rw [hpc]; rfl
      split_ifs at he with hpos
      · obtain ⟨r, hrecv, he⟩ := Option.map_eq_some_iff.mp he
        cases he
        rw [(MsgQueueInner.commitRecv_eq_some hrecv).2] at ht
        exact mem_ready_commit ((committing_retry hcr hm).trans (if_pos hpos)) ht
      · cases he
        exact .inl ht
  | _ =>
      rw [hpc] at hp
      rcases hp with hp | ⟨_, _, _, hm, -⟩
      · cases hp
      · cases hm

/-- **Who is made ready** where tasks make only message calls, delays and yields: the peer of a commit. -/
theorem mem_ready_enter {c : Tid} (hp : ∀ t, (σ.pc t).IsMsg) (ha : a.IsMsg) (ho : σ.kernel.OnCpu c)
    (he : σ.enter cap a = some (k₁, b)) (ht : t ∈ k₁.readyList.tids) :
    t ∈ σ.kernel.readyList.tids ∨ σ.peer cap a = some t := by
  cases a with
  | systick missed =>
      replace he : σ.kernel.systickReplay missed = some (k₁, b) := he
      rw [systickReplay_eq ho] at he
      cases he
      exact .inl ht
  | preempt =>
      cases he
      exact .inl ht
  | upFromIsr s => cases ha
  | call c =>
      obtain ⟨cr, hcr, he⟩ := Option.bind_eq_some_iff.mp he
      split at he
      · exact mem_ready_enterCall ha he ht
      · cases he
  | proceed =>
      obtain ⟨cr, hcr, he⟩ := Option.bind_eq_some_iff.mp he
      exact mem_ready_enterProceed hcr (hp cr) he ht

/-- The peer of a commit is taken off the one wait list that it is on. -/
theorem Waiters.takesOff_of_peer (h : σ.Waiters cap) (hpeer : σ.peer cap a = some t)
    (hL : σ.Listed t) : σ.TakesOff cap a t := by
  obtain ⟨⟨q, side⟩, hcom, hfront⟩ := Option.bind_eq_some_iff.mp hpeer
  have hmem : t ∈ ((σ.msgQueues q).waitList side.other).tids := List.mem_of_mem_head? hfront
  obtain ⟨e, he, -⟩ := hL
  obtain rfl : (q, side.other) = e := by
    have hlist := Pc.onList_of_checks he
    rw [h.waits q side.other t hmem] at hlist
    exact Option.some.inj hlist
  refine ⟨_, he, ?_, hfront, List.count_eq_one_of_mem (h.nodup q side.other) hmem⟩
  rw [hcom]
  cases side <;> rfl

/-- Where tasks make only message calls, delays and yields, a commit takes the task that it makes ready
off the wait list it is on. -/
theorem Waiters.takes {c : Tid} (h : σ.Waiters cap) (ha : a.IsMsg) (ho : σ.kernel.OnCpu c) :
    ∀ r ∈ σ.enter cap a, ∀ t ∈ r.1.readyList.tids, t ∉ σ.kernel.readyList.tids →
      σ.Listed t → σ.TakesOff cap a t := by
  intro r hr t ht hnot hL
  rcases mem_ready_enter h.pcs ha ho hr ht with hready | hpeer
  · exact absurd hready hnot
  · exact h.takesOff_of_peer hpeer hL

/-- The time-out of a call that is going to wait. -/
theorem wait_of_call {c : Call T} {q : ℕ} {side : Side} {stage : MsgStage}
    (hcr : σ.kernel.crTid = some cr) (hpc : σ.pc cr = .user) (hs : σ.call cap cr c = some σ')
    (hm : (σ'.pc cr).msg = some (q, side, stage)) :
    ∃ timeout ≠ 0, stage = .wait timeout ∧ σ.begins (.call c) = some (cr, timeout) := by
  have huser : ∀ {σ₁ : System T} {b : Bool}, (σ₁.setPc cr .user).yieldIf b = some σ' → False := by
    intro σ₁ b hs
    obtain ⟨k, -, rfl⟩ := yieldIf_eq_some hs
    replace hm : (Function.update σ₁.pc cr .user cr).msg = _ := hm
    rw [Function.update_self] at hm
    cases hm
  cases c with
  | send q' msg timeout =>
      replace hs : σ.send cap cr q' msg timeout = some σ' := hs
      rw [System.send, log_msgQueues] at hs
      split_ifs at hs with hlt ht
      · exact (huser hs).elim
      · cases hs
        replace hm : (Function.update σ.pc cr .user cr).msg = _ := hm
        rw [Function.update_self] at hm
        cases hm
      · cases hs
        replace hm : (Function.update σ.pc cr (.sendWait q' msg timeout) cr).msg = _ := hm
        rw [Function.update_self] at hm
        cases hm
        exact ⟨timeout, ht, rfl, by rw [begins, hcr]; rfl⟩
  | recv q' timeout =>
      replace hs : σ.recv cap cr q' timeout = some σ' := hs
      rw [System.recv, log_msgQueues] at hs
      split_ifs at hs with hlt ht
      · obtain ⟨r, -, hs⟩ := Option.bind_eq_some_iff.mp hs
        exact (huser hs).elim
      · cases hs
        replace hm : (Function.update σ.pc cr .user cr).msg = _ := hm
        rw [Function.update_self] at hm
        cases hm
      · cases hs
        replace hm : (Function.update σ.pc cr (.recvWait q' timeout) cr).msg = _ := hm
        rw [Function.update_self] at hm
        cases hm
        exact ⟨timeout, ht, rfl, by rw [begins, hcr]; rfl⟩
  | _ =>
      rcases (call_apart (by simp) (by simp) hs).pcs cr with hsame | hnone
      · rw [hsame, hpc] at hm
        cases hm
      · rw [hnone] at hm
        cases hm

theorem crTid_of_begins {e : Tid × BitVec 32} (h : σ.begins a = some e) : σ.kernel.crTid = some e.1 := by
  cases a with
  | call c =>
      cases c with
      | send q msg timeout =>
          obtain ⟨cr, hcr, rfl⟩ := Option.map_eq_some_iff.mp h
          exact hcr
      | recv q timeout =>
          obtain ⟨cr, hcr, rfl⟩ := Option.map_eq_some_iff.mp h
          exact hcr
      | _ => cases h
  | _ => cases h

theorem user_of_begins {e : Tid × BitVec 32} (hs : σ.step cap a = some σ') (h : σ.begins a = some e) :
    σ.pc e.1 = .user := by
  cases a with
  | call c =>
      obtain ⟨cr, hcr, hs⟩ := Option.bind_eq_some_iff.mp hs
      have hcr' := crTid_of_begins h
      rw [hcr] at hcr'
      cases hcr'
      split at hs
      · rename_i hpc
        exact hpc
      · cases hs
  | _ => cases h

theorem timesOut_of_givesUp (h : σ.givesUp cap a = some t) : σ.timesOut cap a = some t := by
  cases a with
  | proceed =>
      obtain ⟨cr, hcr, h⟩ := Option.bind_eq_some_iff.mp h
      rw [timesOut, hcr, Option.bind_some]
      split at h
      · rename_i hpc
        rw [hpc]
        exact h
      · cases h
  | _ => cases h

/-- The three places that return `Err(TimeOut)`. -/
theorem timesOut_cases (h : σ.timesOut cap a = some t) :
    (σ.givesUp cap a = none ∧ σ.begins a = some (t, 0)) ∨
    (σ.givesUp cap a = none ∧ a = .proceed ∧ σ.kernel.crTid = some t ∧ σ.Listed t) ∨
    (σ.givesUp cap a = some t ∧ a = .proceed) := by
  cases a with
  | call c =>
      left
      cases c with
      | send q msg timeout =>
          obtain ⟨cr, hcr, h⟩ := Option.bind_eq_some_iff.mp h
          split_ifs at h with hlt ht
          cases h
          rw [begins, hcr, ht]
          exact ⟨rfl, rfl⟩
      | recv q timeout =>
          obtain ⟨cr, hcr, h⟩ := Option.bind_eq_some_iff.mp h
          split_ifs at h with hlt ht
          cases h
          rw [begins, hcr, ht]
          exact ⟨rfl, rfl⟩
      | _ => cases h
  | proceed =>
      right
      obtain ⟨cr, hcr, h⟩ := Option.bind_eq_some_iff.mp h
      split at h
      · rename_i q side hpc
        split_ifs at h with hmem
        cases h
        refine .inl ⟨?_, rfl, hcr, (q, side), ?_, hmem⟩
        · rw [givesUp, hcr, Option.bind_some, hpc]
        · rw [Pc.checks, hpc]
          rfl
      · rename_i q side hpc
        refine .inr ⟨?_, rfl⟩
        rw [givesUp, hcr, Option.bind_some, hpc]
        exact h
      · cases h
  | _ => cases h

theorem ticks_of_begins {e : Tid × BitVec 32} (h : σ.begins a = some e) : a.ticks = 0 := by
  cases a with
  | systick missed => cases h
  | _ => rfl

end System

/-- A system in which, for each task, the time-out of its last message call is remembered and the ticks
since that call, and for each `Err(TimeOut)` that has been returned these two numbers. -/
structure Timed (T : Type) where
  system : System T
  timeout : Tid → BitVec 32
  waited : Tid → ℕ
  timeOuts : List (BitVec 32 × ℕ)

namespace Timed

variable {s s' : Timed T} {c t : Tid}

def init (σ : System T) : Timed T := ⟨σ, fun _ => 0, fun _ => 0, []⟩

def nextTimeout (s : Timed T) (a : Action T) (t : Tid) : BitVec 32 :=
  match s.system.begins a with
  | some (u, timeout) => if t = u then timeout else s.timeout t
  | none => s.timeout t

def nextWaited (s : Timed T) (a : Action T) (t : Tid) : ℕ :=
  match s.system.begins a with
  | some (u, _) => if t = u then 0 else s.waited t
  | none => s.waited t + a.ticks

def step (cap : ℕ → ℕ) (s : Timed T) (a : Action T) : Option (Timed T) :=
  (s.system.step cap a).map fun σ =>
    { system := σ
      timeout := s.nextTimeout a
      waited := s.nextWaited a
      timeOuts := match s.system.timedOut σ with
        | some t => (s.nextTimeout a t, s.nextWaited a t) :: s.timeOuts
        | none => s.timeOuts }

/-- As many ticks have passed since the call of `t` as its time-out says. -/
def Elapsed (s : Timed T) (t : Tid) : Prop := (s.timeout t).toNat ≤ s.waited t

instance (s : Timed T) : DecidablePred s.Elapsed := fun _ => Nat.decLe _ _

/-- **No call times out early.** -/
def InTime (s : Timed T) : Prop := ∀ r ∈ s.timeOuts, r.1.toNat ≤ r.2

/-- A second attempt that fails comes when the time is up. -/
def FailsInTime (cap : ℕ → ℕ) (s : Timed T) (a : Action T) : Prop :=
  ∀ t ∈ s.system.givesUp cap a, s.Elapsed t

instance (cap : ℕ → ℕ) (s : Timed T) : DecidablePred (s.FailsInTime cap) := fun a =>
  Option.decidableForallMem (s.system.givesUp cap a)

/-- `t` does not run before its wake point, which comes when its time is up. -/
structure Asleep (s : Timed T) (t : Tid) : Prop where
  dormant : s.system.kernel.Dormant t
  point : s.system.kernel.osTicks.toNat + (s.timeout t).toNat ≤
    (s.system.kernel.tcbs t).wakePoint.toNat + s.waited t

theorem nextTimeout_of_ne (h : ∀ e, s.system.begins a = some e → e.1 ≠ t) :
    s.nextTimeout a t = s.timeout t := by
  unfold nextTimeout
  split
  · rename_i u d hb
    exact if_neg (Ne.symm (h _ hb))
  · rfl

theorem nextWaited_of_ne (h : ∀ e, s.system.begins a = some e → e.1 ≠ t) :
    s.nextWaited a t = s.waited t + a.ticks := by
  unfold nextWaited
  split
  · rename_i u d hb
    rw [if_neg (Ne.symm (h _ hb)), System.ticks_of_begins hb, Nat.add_zero]
  · rfl

theorem system_step (hs : s.step cap a = some s') : s.system.step cap a = some s'.system ∧
    s'.timeout = s.nextTimeout a ∧ s'.waited = s.nextWaited a ∧
    s'.timeOuts = match s.system.timesOut cap a with
      | some t => (s.nextTimeout a t, s.nextWaited a t) :: s.timeOuts
      | none => s.timeOuts := by
  obtain ⟨σ, hσ, rfl⟩ := Option.map_eq_some_iff.mp hs
  rw [← System.timedOut_step hσ]
  exact ⟨hσ, rfl, rfl, rfl⟩

/-- **Sleeping on.**  A task that is asleep and not made ready stays so until its time is up. -/
theorem Asleep.step (h : s.Asleep t) (ho : s.system.kernel.OnCpu c) (hs : s.step cap a = some s')
    (hnew : a.creates s.system ≠ some t)
    (hready : ∀ r ∈ s.system.enter cap a, t ∉ r.1.readyList.tids) : s'.Elapsed t ∨ s'.Asleep t := by
  obtain ⟨hσ, htimeout, hwaited, -⟩ := system_step hs
  have htc : t ≠ c := by
    rintro rfl
    exact h.dormant.current ho.current
  have hbegins : ∀ e, s.system.begins a = some e → e.1 ≠ t := by
    intro e he heq
    have hcr := System.crTid_of_begins he
    rw [ho.crTid, heq] at hcr
    exact htc (Option.some.inj hcr).symm
  obtain ⟨k₁, b, he, hk⟩ := System.enter_of_step hσ
  have ho₁ := System.onCpu_enter ho he
  have hpoint := System.wakePoint_enter ho he htc hnew
  have hticks := System.osTicks_enter ho he
  have hdormant : k₁.Dormant t := by
    refine ⟨hready _ he, ?_⟩
    rw [ho₁.current]
    exact fun heq => htc (Option.some.inj heq).symm
  have hclock : k₁.osTicks.toNat ≤ s.system.kernel.osTicks.toNat + a.ticks := by
    rw [hticks, BitVec.toNat_add, BitVec.toNat_ofNat]
    omega
  have hold := h.point
  rw [BitVec.le_def] at hpoint
  by_cases hdue : k₁.Due t
  · left
    have hle := hdue.2
    rw [BitVec.le_def] at hle
    unfold Elapsed
    rw [htimeout, hwaited, nextTimeout_of_ne hbegins, nextWaited_of_ne hbegins]
    omega
  · right
    obtain ⟨hd, hp⟩ := hdormant.yieldIf ho₁ hdue hk
    refine ⟨hd, ?_⟩
    rw [htimeout, hwaited, nextTimeout_of_ne hbegins, nextWaited_of_ne hbegins, hp,
      osTicks_yieldIf hk]
    omega

/-- Pending calls remember their time-outs, and whoever is still on its wait list is asleep, or its time is
up. -/
structure Punctual (cap : ℕ → ℕ) (s : Timed T) : Prop where
  delivers : s.system.Delivers cap
  within : ∃ P, s.system.Within P
  onCpu : ∃ c, s.system.kernel.OnCpu c
  pending : ∀ t q side stage, (s.system.pc t).msg = some (q, side, stage) →
    ∀ timeout, stage.timeout = some timeout → timeout = s.timeout t ∧ timeout ≠ 0
  asleep : ∀ t, s.system.Listed t → s.Elapsed t ∨ s.Asleep t

theorem Punctual.isMsg (h : s.Punctual cap) (t : Tid) (hm : (s.system.pc t).msg ≠ none) :
    (s.system.pc t).IsMsg := by
  obtain ⟨⟨q, side, stage⟩, hm⟩ := Option.ne_none_iff_exists'.mp hm
  exact .of_msg hm fun ht => (h.pending t q side stage hm 0 ht).2 rfl

theorem Punctual.msgStep (h : s.Punctual cap) {σ' : System T} (hσ : s.system.step cap a = some σ') :
    MsgStep cap s.system a σ' ∨ System.Elsewhere cap s.system a σ' :=
  System.msgStep_or_elsewhere (fun q => (h.delivers.fifo q).indices.len_le) h.isMsg hσ

theorem Punctual.running (h : s.Punctual cap) {cr : Tid} (hcr : s.system.kernel.crTid = some cr) :
    s.system.kernel.OnCpu cr := by
  obtain ⟨P, hP⟩ := h.within
  exact (hP.kernel.crTid hcr).2

theorem Punctual.pending_step (h : s.Punctual cap) (hs : s.step cap a = some s') :
    ∀ t q side stage, (s'.system.pc t).msg = some (q, side, stage) →
      ∀ timeout, stage.timeout = some timeout → timeout = s'.timeout t ∧ timeout ≠ 0 := by
  obtain ⟨hσ, htimeout, -, -⟩ := system_step hs
  intro t q side stage hm timeout ht
  rw [htimeout]
  -- a task that stays where it is
  have hstay : s'.system.pc t = s.system.pc t →
      (∀ e, s.system.begins a = some e → e.1 ≠ t) → timeout = s.nextTimeout a t ∧ timeout ≠ 0 := by
    intro hpc hne
    rw [nextTimeout_of_ne hne]
    rw [hpc] at hm
    exact h.pending t q side stage hm timeout ht
  have hothers : ∀ {cr : Tid}, s.system.kernel.crTid = some cr → t ≠ cr →
      ∀ e, s.system.begins a = some e → e.1 ≠ t := by
    intro cr hcr htc e he heq
    have hcr' := System.crTid_of_begins he
    rw [hcr, heq] at hcr'
    exact htc (Option.some.inj hcr').symm
  -- a task that moves is in a section without a time-out, or has its own
  have hmove : ∀ {cr : Tid} {pc : Pc T}, s'.system.pc = Function.update s.system.pc cr pc →
      s.system.kernel.crTid = some cr →
      (t = cr → pc.msg = some (q, side, stage) → timeout = s.nextTimeout a t ∧ timeout ≠ 0) →
      timeout = s.nextTimeout a t ∧ timeout ≠ 0 := by
    intro cr pc hpc hcr hself
    by_cases htc : t = cr
    · rw [hpc, htc, Function.update_self] at hm
      exact hself htc hm
    · exact hstay (by rw [hpc, Function.update_of_ne htc]) (hothers hcr htc)
  rcases h.msgStep hσ with hstep | hstep
  · generalize s'.system = σ' at hσ hm hstay hmove hstep
    cases hstep with
    | tick hk => exact hstay rfl fun e he => by cases he
    | switch hsw hk =>
        refine hstay rfl fun e he => ?_
        rcases hsw with rfl | rfl <;> cases he
    | delay hcr hpc hk => exact hstay rfl fun e he => by cases he
    | commit hcr hpc hcom hj havail havail' hk =>
        refine hmove rfl hcr fun _ hnone => ?_
        cases hnone
    | @start c cr q' side' pc hist hcr hpc hcom havail hnext =>
        refine hmove rfl hcr fun htc _ => ?_
        obtain ⟨cr', hcr', hs'⟩ := Option.bind_eq_some_iff.mp hσ
        rw [hcr] at hcr'
        cases hcr'
        rw [hpc] at hs'
        subst htc
        obtain ⟨d, hne, rfl, hb⟩ := System.wait_of_call hcr hpc hs' hm
        cases ht
        refine ⟨?_, hne⟩
        rw [nextTimeout, hb]
        exact (if_pos rfl).symm
    | @enlist cr q' side' d pc hcr hpc hnext =>
        refine hmove rfl hcr fun htc hsome => ?_
        rw [hnext] at hsome
        cases hsome
        cases ht
        subst htc
        rw [nextTimeout_of_ne fun e he => by cases he]
        exact h.pending t q side (.wait timeout) hpc timeout rfl
    | sleep hcr hpc hnext hk =>
        refine hmove rfl hcr fun _ hsome => ?_
        rw [hnext] at hsome
        cases hsome
        cases ht
    | timeOut hcr hpc hmem =>
        refine hmove rfl hcr fun _ hnone => ?_
        cases hnone
    | wake hcr hpc hmem hnext =>
        refine hmove rfl hcr fun _ hsome => ?_
        rw [hnext] at hsome
        cases hsome
        cases ht
    | giveUp hcr hpc havail =>
        refine hmove rfl hcr fun _ hnone => ?_
        cases hnone
  · rcases hstep.pcs t with hpc | hnone
    · refine hstay hpc fun e he => ?_
      rw [hstep.begins] at he
      cases he
    · rw [hnone] at hm
      cases hm

/-- The call of `Task::delay` in `wait_on`. -/
theorem Punctual.falls_asleep (h : s.Punctual cap) {q : ℕ} {side : Side} {timeout : BitVec 32}
    (hcr : s.system.kernel.crTid = some t) (hpc : (s.system.pc t).msg = some (q, side, .delay timeout))
    (hk : s.system.kernel.delay timeout = some s'.system.kernel) (hrange : s.system.NoWrap .proceed)
    (hC : s.system.SleepsOut cap .proceed) (hs : s.step cap .proceed = some s') : s'.Asleep t := by
  obtain ⟨-, htimeout, -, -⟩ := system_step hs
  obtain ⟨heq, hne⟩ := h.pending t q side (.delay timeout) hpc timeout rfl
  have hdozes : s.system.dozes .proceed = some (t, timeout) := by
    rw [System.dozes, hcr, Option.bind_some, hpc]
  have hnowrap : s.system.kernel.osTicks.toNat + timeout.toNat < 2 ^ 32 := hrange _ hdozes
  have hlt : s.system.kernel.osTicks < s.system.kernel.osTicks + timeout := by
    refine (lt_add_iff_not_wrap (Nat.pos_of_ne_zero fun hzero => hne ?_)).mpr hnowrap
    exact BitVec.eq_of_toNat_eq hzero
  have hticks := osTicks_delay hk
  rw [delay, if_neg hne, hcr] at hk
  have hy : (s.system.kernel.sleep t timeout).yieldIf true = some s'.system.kernel := hk
  obtain ⟨hd, hp⟩ := (h.running hcr).dormant_sleep (hC.count _ hdozes) hlt hy
  refine ⟨hd, ?_⟩
  rw [hp, hticks, htimeout, nextTimeout_of_ne (fun e he => by cases he), ← heq, BitVec.toNat_add,
    Nat.mod_eq_of_lt hnowrap]
  omega

theorem Elapsed.step (h : s.Elapsed t) (hbegins : ∀ e, s.system.begins a = some e → e.1 ≠ t)
    (hs : s.step cap a = some s') : s'.Elapsed t := by
  obtain ⟨-, htimeout, hwaited, -⟩ := system_step hs
  unfold Elapsed
  rw [htimeout, hwaited, nextTimeout_of_ne hbegins, nextWaited_of_ne hbegins]
  exact Nat.le_add_right_of_le h

theorem Punctual.step (h : s.Punctual cap) (hrange : s.system.NoWrap a)
    (hC : s.system.SleepsOut cap a) (hs : s.step cap a = some s') : s'.Punctual cap := by
  obtain ⟨hσ, -⟩ := system_step hs
  obtain ⟨P, hP⟩ := h.within
  obtain ⟨c, ho⟩ := h.onCpu
  obtain ⟨k₁, b, he, hk⟩ := System.enter_of_step hσ
  have hP' := hP.step hσ
  obtain ⟨c', hc'⟩ := current_yieldIf (System.onCpu_enter ho he) hk
  refine ⟨h.delivers.step hσ, ⟨_, hP'⟩,
    ⟨c', hP'.kernel.schedReady, hc', hP'.kernel.tid c' (hP'.kernel.current c' hc')⟩, h.pending_step hs,
    fun t hL => ?_⟩
  rcases System.listed_before (h.msgStep hσ) hL with ⟨hold, hkeeps⟩ | ⟨q, side, timeout, hcr, hpc, rfl, hd⟩
  · -- the task was listed before, in the middle of a call
    have hnew : a.creates s.system ≠ some t := by
      intro hnew
      obtain ⟨e, he, -⟩ := hL
      rw [System.pc_of_creates hσ hnew] at he
      cases he
    have hbegins : ∀ e, s.system.begins a = some e → e.1 ≠ t := by
      rintro e he rfl
      obtain ⟨f, hf, -⟩ := hold
      rw [System.user_of_begins hσ he] at hf
      cases hf
    rcases h.asleep t hold with hup | hasleep
    · exact .inl (hup.step hbegins hs)
    · refine hasleep.step ho hs hnew fun r hr hm => ?_
      exact hkeeps (hC.takes r hr t hm hasleep.dormant.ready hold)
  · exact .inr (h.falls_asleep hcr hpc hd hrange hC hs)

/-- **Which step times out early**: only a second attempt that fails. -/
theorem Punctual.inTime_iff (h : s.Punctual cap) (hin : s.InTime) (hs : s.step cap a = some s') :
    s'.InTime ↔ s.FailsInTime cap a := by
  obtain ⟨-, -, -, houts⟩ := system_step hs
  unfold InTime
  rw [houts]
  cases ht : s.system.timesOut cap a with
  | none =>
      refine iff_of_true hin fun t hg => ?_
      rw [System.timesOut_of_givesUp hg] at ht
      cases ht
  | some t =>
      rw [List.forall_mem_cons, and_iff_left (show ∀ r ∈ s.timeOuts, r.1.toNat ≤ r.2 from hin)]
      rcases System.timesOut_cases ht with ⟨hg, hb⟩ | ⟨hg, rfl, hcr, hL⟩ | ⟨hg, rfl⟩
      · refine iff_of_true ?_ fun u hu => ?_
        · show (s.nextTimeout a t).toNat ≤ s.nextWaited a t
          have hzero : s.nextTimeout a t = 0 := by
            rw [nextTimeout, hb]
            exact if_pos rfl
          rw [hzero]
          exact Nat.zero_le _
        · rw [hg] at hu
          cases hu
      · refine iff_of_true ?_ fun u hu => ?_
        · have hup : s.Elapsed t := by
            refine (h.asleep t hL).resolve_right fun hasleep => ?_
            exact hasleep.dormant.current (h.running hcr).current
          exact hup
        · rw [hg] at hu
          cases hu
      · refine ⟨fun hle u hu => ?_, fun hfails => hfails t hg⟩
        rw [hg] at hu
        cases hu
        exact hle

theorem punctual_init {boots : List BootCall} {k₀ : Kernel} {now : BitVec 32} {counts : ℕ → ℤ}
    (hl : launchAfter boots = some k₀) :
    Punctual cap (.init (.init (k₀.setClock now) counts) : Timed T) := by
  obtain ⟨⟨c, hc⟩, -⟩ := settled_launchAfter hl
  have hP : (k₀.setClock now).Within fun t => k₀.status t ≠ .terminated := (hc.setClock now).within
  refine ⟨System.delivers_init _ counts, ⟨_, hP, fun s t ht => ?_, fun m => ⟨fun t ht => ?_, fun t ht => ?_⟩,
    fun c t ht => ?_, fun q => ⟨fun t ht => ?_, fun t ht => ?_⟩⟩, ⟨c, (hc.setClock now).onCpu⟩,
    fun t q side stage hm => ?_, fun t hL => ?_⟩
  all_goals try cases ht
  · cases hm
  · obtain ⟨e, he, -⟩ := hL
    cases he

end Timed

/-- **When message calls time out in time.**  Take any run of all calls and interrupts from a launch with any
clock value, in which the wake points of waiting senders and receivers do not wrap.  If whoever goes to sleep
in `wait_on` has at most two entries on `READY_LIST`, and whoever is made ready on its wait list is taken off
it, then every `Err(TimeOut)` comes at least its time-out after the call, in every state of the run, exactly
when every second attempt that fails does.  In runs of message calls, delays, yields and interrupts alone,
whoever is made ready on its wait list is always taken off it. -/
theorem message_calls_time_out_in_time {boots : List BootCall} {k₀ : Kernel} {now : BitVec 32}
    {counts : ℕ → ℤ} {s : Timed T} {tr : List (Timed T × Action T)} (hl : launchAfter boots = some k₀)
    (hr : Run (Timed.step cap) (fun s a => s.system.NoWrap a)
      (.init (.init (k₀.setClock now) counts)) tr s) :
    ((∀ e ∈ tr, e.1.system.SleepsOut cap e.2) →
      (Always Timed.InTime tr s ↔ ∀ e ∈ tr, e.1.FailsInTime cap e.2)) ∧
    ((∀ e ∈ tr, e.2.IsMsg ∧
        ∀ d ∈ e.1.system.dozes e.2, e.1.system.kernel.readyList.tids.count d.1 ≤ 2) →
      (Always Timed.InTime tr s ↔ ∀ e ∈ tr, e.1.FailsInTime cap e.2)) := by
  have hiff : (∀ e ∈ tr, e.1.system.SleepsOut cap e.2) →
      (Always Timed.InTime tr s ↔ ∀ e ∈ tr, e.1.FailsInTime cap e.2) := by
    intro hC
    have hrun := hr.strengthen (C := fun s a => s.system.SleepsOut cap a) hC
    refine hrun.forall_iff (I := fun s => s.Punctual cap ∧ s.InTime)
      ⟨Timed.punctual_init hl, ?_⟩ (fun _ h => h.2) ?_ ?_
    · rintro r ⟨⟩
    · rintro s a s' ⟨h, hin⟩ ⟨hrange, hout⟩ hs hfails
      exact ⟨h.step hrange hout hs, (h.inTime_iff hin hs).mpr hfails⟩
    · rintro s a s' ⟨h, hin⟩ - hs hin'
      exact (h.inTime_iff hin hs).mp hin'
  refine ⟨hiff, fun hmsg => hiff ?_⟩
  have hrun := hr.strengthen (C := fun s a => a.IsMsg ∧
    ∀ d ∈ s.system.dozes a, s.system.kernel.readyList.tids.count d.1 ≤ 2) hmsg
  have hout : Run (Timed.step cap) (fun s a => s.system.SleepsOut cap a)
      (.init (.init (k₀.setClock now) counts)) tr s := by
    refine hrun.guard_of_invariant (I := fun s => s.Punctual cap ∧ s.system.Waiters cap)
      ⟨Timed.punctual_init hl, System.waiters_init _ counts⟩ ?_
    rintro s a s' ⟨h, hw⟩ ⟨hrange, ha, hcount⟩ hs
    obtain ⟨c, ho⟩ := h.onCpu
    have hC : s.system.SleepsOut cap a := ⟨hcount, hw.takes ha ho⟩
    exact ⟨⟨h.step hrange hC hs, hw.step ha (Timed.system_step hs).1⟩, hC⟩
  exact hout.forall_guard

/-- A `recv` that times out after its 3 ticks; the next one is woken by a sender and receives. -/
theorem message_calls_time_out_in_time_run : ∃ k₀ tr, ∃ s : Timed ℕ,
    launchAfter [.create 3 "r", .create 4 "s"] = some k₀ ∧
    Run (Timed.step fun _ => 1) (fun s a => s.system.NoWrap a)
      (.init (.init (k₀.setClock 1000) fun _ => 0)) tr s ∧
    (s.timeOuts = [(3, 3)] ∧ s.system.history = [.received 0 0 7, .sent 0 1 7, .sendCalled 0 1 7,
      .recvCalled 0 0, .timedOut 0 0, .recvCalled 0 0]) ∧
    Always Timed.InTime tr s := by
  have hsome : (launchAfter [.create 3 "r", .create 4 "s"]).isSome = true := by decide +kernel
  obtain ⟨k₀, hk₀⟩ := Option.isSome_iff_exists.mp hsome
  have hexec : ((launchAfter [.create 3 "r", .create 4 "s"]).bind fun k₀ =>
      exec (Timed.step fun _ => 1) (fun s a => decide (s.system.NoWrap a ∧
          s.system.SleepsOut (fun _ => 1) a ∧ s.FailsInTime (fun _ => 1) a))
        (.init (.init (k₀.setClock 1000) fun _ => 0) : Timed ℕ)
        [.call (.recv 0 3), .proceed, .proceed, .systick 0, .systick 1, .proceed, .call (.recv 0 100),
          .proceed, .proceed, .call (.send 0 7 0), .proceed, .proceed]).any (fun s =>
            decide (s.timeOuts = [(3, 3)] ∧ s.system.history = [.received 0 0 7, .sent 0 1 7,
              .sendCalled 0 1 7, .recvCalled 0 0, .timedOut 0 0, .recvCalled 0 0])) = true := by
    decide +kernel
  rw [hk₀, Option.bind_some] at hexec
  obtain ⟨tr, s, hr, hs⟩ := exists_run_of_exec (fun (s : Timed ℕ) (a : Action ℕ)
    (h : decide (s.system.NoWrap a ∧ s.system.SleepsOut (fun _ => 1) a ∧
      s.FailsInTime (fun _ => 1) a) = true) => of_decide_eq_true h) hexec
  have hrun : Run (Timed.step fun _ => 1) (fun s a => s.system.NoWrap a)
      (.init (.init (k₀.setClock 1000) fun _ => 0)) tr s := hr.mono fun _ _ h => h.1
  exact ⟨k₀, tr, s, hk₀, hrun, of_decide_eq_true hs,
    ((message_calls_time_out_in_time hk₀ hrun).1 fun e he => (hr.forall_guard e he).2.1).mpr
      fun e he => (hr.forall_guard e he).2.2⟩

/-- A sender wakes a receiver, a more urgent task takes the message before the receiver runs, and the
receiver reports a time-out of 100 ticks after 2. -/
theorem message_is_taken_by_a_third_task : ∃ k₀ tr, ∃ s : Timed ℕ,
    launchAfter [.create 2 "h", .create 2 "s", .create 3 "r"] = some k₀ ∧
    Run (Timed.step fun _ => 1) (fun s a => s.system.NoWrap a)
      (.init (.init (k₀.setClock 1000) fun _ => 0)) tr s ∧
    (∀ e ∈ tr, e.2.IsMsg) ∧ s.timeOuts = [(100, 2)] ∧
    s.system.history = [.timedOut 0 2, .received 0 0 7, .recvCalled 0 0, .sent 0 1 7, .sendCalled 0 1 7,
      .recvCalled 0 2] ∧
    ¬Always Timed.InTime tr s := by
  have hsome : (launchAfter [.create 2 "h", .create 2 "s", .create 3 "r"]).isSome = true := by
    decide +kernel
  obtain ⟨k₀, hk₀⟩ := Option.isSome_iff_exists.mp hsome
  have hexec : ((launchAfter [.create 2 "h", .create 2 "s", .create 3 "r"]).bind fun k₀ =>
      exec (Timed.step fun _ => 1) (fun s a => decide (s.system.NoWrap a ∧ a.IsMsg))
        (.init (.init (k₀.setClock 1000) fun _ => 0) : Timed ℕ)
        [.call (.task (.delay 2)), .call (.task (.delay 2)), .call (.recv 0 100), .proceed, .proceed,
          .systick 1, .call (.task .yieldTask), .call (.send 0 7 0), .call (.task .yieldTask),
          .call (.recv 0 0), .call (.task (.delay 50)), .call (.task (.delay 50)), .proceed,
          .proceed]).any (fun s => decide (s.timeOuts = [(100, 2)] ∧ s.system.history =
            [.timedOut 0 2, .received 0 0 7, .recvCalled 0 0, .sent 0 1 7, .sendCalled 0 1 7,
              .recvCalled 0 2])) = true := by
    decide +kernel
  rw [hk₀, Option.bind_some] at hexec
  obtain ⟨tr, s, hr, hs⟩ := exists_run_of_exec (fun (s : Timed ℕ) (a : Action ℕ)
    (h : decide (s.system.NoWrap a ∧ a.IsMsg) = true) => of_decide_eq_true h) hexec
  obtain ⟨houts, hhist⟩ := of_decide_eq_true hs
  refine ⟨k₀, tr, s, hk₀, hr.mono fun _ _ h => h.1, fun e he => (hr.forall_guard e he).2, houts, hhist,
    fun hall => ?_⟩
  have hin : (100 : BitVec 32).toNat ≤ 2 := hall.2 (100, 2) (by rw [houts]; exact List.mem_singleton_self _)
  exact absurd hin (by decide)

end MosKernel
