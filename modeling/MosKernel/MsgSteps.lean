import MosKernel.SyncSpec
import MosKernel.Fifo

/-!
# Steps of message calls

`send` and `recv` mirror each other.  `Side` names the wait list a call waits on, `MsgStage` the
section of `wait_on` it has reached, and `MsgStep` says once, for both sides, what a step can do when
tasks make only message calls, delays and yields.
-/

namespace MosKernel

open OrderedInsert TaskList Kernel

variable {T : Type} {cap : ℕ → ℕ} {σ σ' : System T} {a : Action T}

/-- The calls of message queues, delays and yields, and ticks. -/
def Action.IsMsg : Action T → Prop
  | .call (.send _ _ _) | .call (.recv _ _) => True
  | .call (.task (.delay _)) | .call (.task .yieldTask) => True
  | .systick _ | .preempt | .proceed => True
  | _ => False

instance : DecidablePred (Action.IsMsg (T := T))
  | .call (.send _ _ _) | .call (.recv _ _)
  | .call (.task (.delay _)) | .call (.task .yieldTask)
  | .systick _ | .preempt | .proceed => isTrue trivial
  | .call (.task (.create _ _)) | .call (.task (.createRaw _ _ _)) | .call (.task .exitCurrent)
  | .call (.task (.block _)) | .call (.task (.resume _)) | .call (.task (.terminate _))
  | .call (.down _) | .call (.downTimeout _ _) | .call (.tryDown _) | .call (.up _)
  | .call (.lock _) | .call (.unlock _) | .call (.wait _ _) | .call (.notify _) | .call (.notifyAll _)
  | .upFromIsr _ => isFalse id

/-- Who waits: `send` calls for a free slot, `recv` calls for a message. -/
inductive Side where
  | senders
  | receivers
  deriving DecidableEq

/-- The side that a commit of this side wakes. -/
def Side.other : Side → Side
  | .senders => .receivers
  | .receivers => .senders

theorem Side.other_ne (side : Side) : side.other ≠ side := by
  cases side <;> simp [Side.other]

/-- The section of a waiting call that is next. -/
inductive MsgStage where
  /-- the insertion into the wait list -/
  | wait (timeout : BitVec 32)
  /-- the `Task::delay` -/
  | delay (timeout : BitVec 32)
  /-- the last section of `wait_on` -/
  | check
  /-- the second attempt -/
  | retry
  deriving DecidableEq

/-- The queue, the side and the stage of a waiting call. -/
def Pc.msg : Pc T → Option (ℕ × Side × MsgStage)
  | .sendWait q _ timeout => some (q, .senders, .wait timeout)
  | .sendDelay q _ timeout => some (q, .senders, .delay timeout)
  | .sendCheck q _ => some (q, .senders, .check)
  | .sendRetry q _ => some (q, .senders, .retry)
  | .recvWait q timeout => some (q, .receivers, .wait timeout)
  | .recvDelay q timeout => some (q, .receivers, .delay timeout)
  | .recvCheck q => some (q, .receivers, .check)
  | .recvRetry q => some (q, .receivers, .retry)
  | _ => none

/-- The wait list that a task may be on: it is put there before its `Task::delay` and taken off in
the last section of `wait_on` at the latest. -/
def Pc.onList (pc : Pc T) : Option (ℕ × Side) :=
  match pc.msg with
  | some (q, side, .delay _) | some (q, side, .check) => some (q, side)
  | _ => none

theorem Pc.onList_delay {pc : Pc T} {q : ℕ} {side : Side} {timeout : BitVec 32}
    (h : pc.msg = some (q, side, .delay timeout)) : pc.onList = some (q, side) := by
  rw [onList, h]

theorem Pc.onList_check {pc : Pc T} {q : ℕ} {side : Side}
    (h : pc.msg = some (q, side, .check)) : pc.onList = some (q, side) := by
  rw [onList, h]

theorem Pc.onList_wait {pc : Pc T} {q : ℕ} {side : Side} {timeout : BitVec 32}
    (h : pc.msg = some (q, side, .wait timeout)) : pc.onList = none := by
  rw [onList, h]

theorem Pc.onList_retry {pc : Pc T} {q : ℕ} {side : Side}
    (h : pc.msg = some (q, side, .retry)) : pc.onList = none := by
  rw [onList, h]

/-- The time-out that is still to be used. -/
def MsgStage.timeout : MsgStage → Option (BitVec 32)
  | .wait timeout | .delay timeout => some timeout
  | _ => none

/-- No call is pending, or a message call that may wait. -/
def Pc.IsMsg (pc : Pc T) : Prop :=
  pc = .user ∨ ∃ q side stage, pc.msg = some (q, side, stage) ∧ stage.timeout ≠ some 0

theorem Pc.IsMsg.of_msg {pc : Pc T} {q : ℕ} {side : Side} {stage : MsgStage}
    (h : pc.msg = some (q, side, stage)) (ht : stage.timeout ≠ some 0) : pc.IsMsg :=
  .inr ⟨q, side, stage, h, ht⟩

theorem Pc.IsMsg.timeout_ne {pc : Pc T} {q : ℕ} {side : Side} {stage : MsgStage} (hp : pc.IsMsg)
    (h : pc.msg = some (q, side, stage)) : stage.timeout ≠ some 0 := by
  rcases hp with rfl | ⟨q', side', stage', hm, ht⟩
  · cases h
  · rw [h] at hm
    cases hm
    exact ht

namespace MsgQueueInner

/-- `senders` or `receivers` -/
def waitList (i : MsgQueueInner T) : Side → TaskList
  | .senders => i.senders
  | .receivers => i.receivers

def setWaitList (i : MsgQueueInner T) (side : Side) (l : TaskList) : MsgQueueInner T :=
  match side with
  | .senders => { i with senders := l }
  | .receivers => { i with receivers := l }

/-- What the side waits for: free slots of a queue with `n` slots, or messages. -/
def avail (i : MsgQueueInner T) (n : ℕ) : Side → ℕ
  | .senders => n - i.len
  | .receivers => i.len

@[simp] theorem waitList_setWaitList (i : MsgQueueInner T) (side : Side) (l : TaskList) :
    (i.setWaitList side l).waitList side = l := by
  cases side <;> rfl

theorem waitList_setWaitList_of_ne (i : MsgQueueInner T) {side side' : Side} (l : TaskList)
    (h : side' ≠ side) : (i.setWaitList side l).waitList side' = i.waitList side' := by
  cases side <;> cases side' <;> first | rfl | exact absurd rfl h

theorem avail_setWaitList (i : MsgQueueInner T) (n : ℕ) (side side' : Side) (l : TaskList) :
    (i.setWaitList side l).avail n side' = i.avail n side' := by
  cases side <;> cases side' <;> rfl

end MsgQueueInner

namespace System

/-- The queue on which the action commits, and the side of the call. -/
def committing (cap : ℕ → ℕ) (σ : System T) : Action T → Option (ℕ × Side)
  | .call (.send q _ _) => if 0 < (σ.msgQueues q).avail (cap q) .senders then some (q, .senders) else none
  | .call (.recv q _) =>
    if 0 < (σ.msgQueues q).avail (cap q) .receivers then some (q, .receivers) else none
  | .proceed => σ.kernel.crTid.bind fun cr =>
    match (σ.pc cr).msg with
    | some (q, side, .retry) =>
      if 0 < (σ.msgQueues q).avail (cap q) side then some (q, side) else none
    | _ => none
  | _ => none

/-- The waiter that `try_wake_up` takes off a wait list in this step. -/
def peer (cap : ℕ → ℕ) (σ : System T) (a : Action T) : Option Tid :=
  (σ.committing cap a).bind fun e => ((σ.msgQueues e.1).waitList e.2.other).front

theorem committing_retry {cr : Tid} {q : ℕ} {side : Side} (hcr : σ.kernel.crTid = some cr)
    (hpc : (σ.pc cr).msg = some (q, side, .retry)) : σ.committing cap .proceed =
      if 0 < (σ.msgQueues q).avail (cap q) side then some (q, side) else none := by
  rw [committing, hcr, Option.bind_some, hpc]

/-- No other section of a waiting call commits. -/
theorem committing_proceed {cr : Tid} {q : ℕ} {side : Side} {stage : MsgStage}
    (hcr : σ.kernel.crTid = some cr) (hpc : (σ.pc cr).msg = some (q, side, stage))
    (hne : stage ≠ .retry) : σ.committing cap .proceed = none := by
  rw [committing, hcr, Option.bind_some, hpc]
  cases stage with
  | retry => exact absurd rfl hne
  | _ => rfl

end System

/-- What a step can do; `cr` is the running task.  The history is of no concern here. -/
inductive MsgStep (cap : ℕ → ℕ) (σ : System T) : Action T → System T → Prop
  | tick {missed : ℕ} {k : Kernel} : σ.kernel.systickTrap missed = some k →
      MsgStep cap σ (.systick missed) (σ.setKernel k)
  | switch {a : Action T} {k : Kernel} : a = .preempt ∨ a = .call (.task .yieldTask) →
      σ.kernel.yieldIf true = some k → MsgStep cap σ a (σ.setKernel k)
  | delay {cr : Tid} {ticks : BitVec 32} {k : Kernel} : σ.kernel.crTid = some cr →
      σ.pc cr = .user → σ.kernel.delay ticks = some k →
      MsgStep cap σ (.call (.task (.delay ticks))) (σ.setKernel k)
  /-- a commit on queue `q` by a call of `side`, the first attempt or the second -/
  | commit {a : Action T} {cr : Tid} {q : ℕ} {side : Side} {j : MsgQueueInner T} {k : Kernel}
      {h : List (Event T)} : σ.kernel.crTid = some cr →
      σ.pc cr = .user ∨ (σ.pc cr).msg = some (q, side, .retry) →
      σ.committing cap a = some (q, side) →
      (∀ side', j.waitList side' = (σ.msgQueues q).waitList side') →
      j.avail (cap q) side + 1 = (σ.msgQueues q).avail (cap q) side →
      j.avail (cap q) side.other = (σ.msgQueues q).avail (cap q) side.other + 1 →
      (tryWakeUp ((σ.msgQueues q).waitList side.other) σ.kernel cr).kernel.yieldIf
        (tryWakeUp ((σ.msgQueues q).waitList side.other) σ.kernel cr).yields = some k →
      MsgStep cap σ a { σ with
        kernel := k
        msgQueues := Function.update σ.msgQueues q (j.setWaitList side.other
          (tryWakeUp ((σ.msgQueues q).waitList side.other) σ.kernel cr).inner)
        pc := Function.update σ.pc cr .user
        history := h }
  /-- a call that does not commit at its first attempt: it times out or is going to wait -/
  | start {c : Call T} {cr : Tid} {q : ℕ} {side : Side} {pc : Pc T} {h : List (Event T)} :
      σ.kernel.crTid = some cr → σ.pc cr = .user →
      σ.committing cap (.call c) = none → (σ.msgQueues q).avail (cap q) side = 0 →
      pc = .user ∨ (∃ timeout ≠ 0, pc.msg = some (q, side, .wait timeout)) →
      MsgStep cap σ (.call c) { σ with pc := Function.update σ.pc cr pc, history := h }
  | enlist {cr : Tid} {q : ℕ} {side : Side} {timeout : BitVec 32} {pc : Pc T} :
      σ.kernel.crTid = some cr → (σ.pc cr).msg = some (q, side, .wait timeout) →
      pc.msg = some (q, side, .delay timeout) →
      MsgStep cap σ .proceed { σ with
        kernel := (σ.kernel.enqueue ((σ.msgQueues q).waitList side) cr).1
        msgQueues := Function.update σ.msgQueues q ((σ.msgQueues q).setWaitList side
          (σ.kernel.enqueue ((σ.msgQueues q).waitList side) cr).2)
        pc := Function.update σ.pc cr pc }
  | sleep {cr : Tid} {q : ℕ} {side : Side} {timeout : BitVec 32} {pc : Pc T} {k : Kernel} :
      σ.kernel.crTid = some cr → (σ.pc cr).msg = some (q, side, .delay timeout) →
      pc.msg = some (q, side, .check) → σ.kernel.delay timeout = some k →
      MsgStep cap σ .proceed { σ with kernel := k, pc := Function.update σ.pc cr pc }
  | timeOut {cr : Tid} {q : ℕ} {side : Side} {h : List (Event T)} :
      σ.kernel.crTid = some cr → (σ.pc cr).msg = some (q, side, .check) →
      cr ∈ ((σ.msgQueues q).waitList side).tids →
      MsgStep cap σ .proceed { σ with
        msgQueues := Function.update σ.msgQueues q ((σ.msgQueues q).setWaitList side
          (((σ.msgQueues q).waitList side).remove cr))
        pc := Function.update σ.pc cr .user
        history := h }
  | wake {cr : Tid} {q : ℕ} {side : Side} {pc : Pc T} :
      σ.kernel.crTid = some cr → (σ.pc cr).msg = some (q, side, .check) →
      cr ∉ ((σ.msgQueues q).waitList side).tids → pc.msg = some (q, side, .retry) →
      MsgStep cap σ .proceed { σ with pc := Function.update σ.pc cr pc }
  /-- the second attempt fails -/
  | giveUp {cr : Tid} {q : ℕ} {side : Side} {h : List (Event T)} :
      σ.kernel.crTid = some cr → (σ.pc cr).msg = some (q, side, .retry) →
      (σ.msgQueues q).avail (cap q) side = 0 →
      MsgStep cap σ .proceed { σ with
        pc := Function.update σ.pc cr .user, history := h }

namespace System

theorem commitSend_msg {cr : Tid} {q : ℕ} {msg : T} {h : List (Event T)}
    (hcr : σ.kernel.crTid = some cr)
    (hpc : σ.pc cr = .user ∨ (σ.pc cr).msg = some (q, .senders, .retry))
    (hcom : σ.committing cap a = some (q, .senders)) (hlt : (σ.msgQueues q).len < cap q)
    (hs : commitSend cap { σ with history := h } cr q msg = some σ') : MsgStep cap σ a σ' := by
  rw [System.commitSend, MsgQueueInner.commitSend_of_lt hlt] at hs
  obtain ⟨k, hk, rfl⟩ := yieldIf_eq_some hs
  refine .commit (j := { σ.msgQueues q with
      buffer := Function.update (σ.msgQueues q).buffer (σ.msgQueues q).tail (some msg)
      tail := ((σ.msgQueues q).tail + 1) % cap q
      len := (σ.msgQueues q).len + 1 }) hcr hpc hcom ?_ ?_ ?_ hk
  · intro side
    cases side <;> rfl
  · show cap q - ((σ.msgQueues q).len + 1) + 1 = cap q - (σ.msgQueues q).len
    omega
  · rfl

theorem commitRecv_msg {cr : Tid} {q : ℕ} {h : List (Event T)}
    (hcr : σ.kernel.crTid = some cr)
    (hpc : σ.pc cr = .user ∨ (σ.pc cr).msg = some (q, .receivers, .retry))
    (hcom : σ.committing cap a = some (q, .receivers)) (hpos : 0 < (σ.msgQueues q).len)
    (hle : (σ.msgQueues q).len ≤ cap q)
    (hs : commitRecv cap { σ with history := h } cr q = some σ') : MsgStep cap σ a σ' := by
  obtain ⟨⟨msg, r⟩, hr, hs⟩ := Option.bind_eq_some_iff.mp hs
  obtain ⟨-, hr⟩ := MsgQueueInner.commitRecv_eq_some hr
  cases hr
  obtain ⟨k, hk, rfl⟩ := yieldIf_eq_some hs
  refine .commit (j := { σ.msgQueues q with
      head := ((σ.msgQueues q).head + 1) % cap q
      len := (σ.msgQueues q).len - 1 }) hcr hpc hcom ?_ ?_ ?_ hk
  · intro side
    cases side <;> rfl
  · show (σ.msgQueues q).len - 1 + 1 = (σ.msgQueues q).len
    omega
  · show cap q - ((σ.msgQueues q).len - 1) = cap q - (σ.msgQueues q).len + 1
    omega

theorem call_msg {cr : Tid} {c : Call T} (hcr : σ.kernel.crTid = some cr) (hpc : σ.pc cr = .user)
    (hle : ∀ q, (σ.msgQueues q).len ≤ cap q) (ha : (Action.call c).IsMsg)
    (hs : σ.call cap cr c = some σ') : MsgStep cap σ (.call c) σ' := by
  cases c with
  | task c =>
      obtain ⟨⟨k, r⟩, hr, rfl⟩ := Option.map_eq_some_iff.mp hs
      cases c with
      | delay ticks =>
          obtain ⟨k', hk, he⟩ := Option.map_eq_some_iff.mp hr
          cases he
          exact .delay hcr hpc hk
      | yieldTask =>
          obtain ⟨k', hk, he⟩ := Option.map_eq_some_iff.mp hr
          cases he
          exact .switch (.inr rfl) hk
      | _ => cases ha
  | send q msg timeout =>
      replace hs : σ.send cap cr q msg timeout = some σ' := hs
      unfold System.send at hs
      dsimp only at hs
      split_ifs at hs with hlt ht
      · exact commitSend_msg hcr (.inl hpc) (if_pos (Nat.sub_pos_of_lt hlt)) hlt hs
      · have havail : (σ.msgQueues q).avail (cap q) .senders = 0 :=
          Nat.sub_eq_zero_of_le (not_lt.mp hlt)
        cases hs
        exact .start hcr hpc (if_neg havail.not_gt) havail (.inl rfl)
      · have havail : (σ.msgQueues q).avail (cap q) .senders = 0 :=
          Nat.sub_eq_zero_of_le (not_lt.mp hlt)
        cases hs
        exact .start hcr hpc (if_neg havail.not_gt) havail (.inr ⟨timeout, ht, rfl⟩)
  | recv q timeout =>
      replace hs : σ.recv cap cr q timeout = some σ' := hs
      unfold System.recv at hs
      dsimp only at hs
      split_ifs at hs with hpos ht
      · exact commitRecv_msg hcr (.inl hpc) (if_pos hpos) hpos (hle q) hs
      · have havail : (σ.msgQueues q).avail (cap q) .receivers = 0 := Nat.eq_zero_of_not_pos hpos
        cases hs
        exact .start hcr hpc (if_neg havail.not_gt) havail (.inl rfl)
      · have havail : (σ.msgQueues q).avail (cap q) .receivers = 0 := Nat.eq_zero_of_not_pos hpos
        cases hs
        exact .start hcr hpc (if_neg havail.not_gt) havail (.inr ⟨timeout, ht, rfl⟩)
  | _ => cases ha

theorem proceed_msg {cr : Tid} (hcr : σ.kernel.crTid = some cr) (hp : (σ.pc cr).IsMsg)
    (hle : ∀ q, (σ.msgQueues q).len ≤ cap q) (hs : σ.proceed cap cr = some σ') :
    MsgStep cap σ .proceed σ' := by
  unfold System.proceed at hs
  split at hs
  case h_1 => cases hs
  case h_8 q msg timeout hpc =>
    have hm : (σ.pc cr).msg = some (q, .senders, .wait timeout) := by rw [hpc]; rfl
    cases hs
    exact .enlist hcr hm rfl
  case h_9 q msg timeout hpc =>
    have hm : (σ.pc cr).msg = some (q, .senders, .delay timeout) := by rw [hpc]; rfl
    obtain ⟨k, hk, rfl⟩ := Option.map_eq_some_iff.mp hs
    exact .sleep hcr hm rfl hk
  case h_10 q msg hpc =>
    have hm : (σ.pc cr).msg = some (q, .senders, .check) := by rw [hpc]; rfl
    cases hs
    unfold System.sendCheck
    dsimp only
    by_cases hmem : cr ∈ ((σ.msgQueues q).waitList .senders).tids
    · rw [if_pos (show cr ∈ (σ.msgQueues q).senders.tids from hmem)]
      exact .timeOut hcr hm hmem
    · rw [if_neg (show cr ∉ (σ.msgQueues q).senders.tids from hmem)]
      exact .wake hcr hm hmem rfl
  case h_11 q msg hpc =>
    have hm : (σ.pc cr).msg = some (q, .senders, .retry) := by rw [hpc]; rfl
    by_cases hlt : (σ.msgQueues q).len < cap q
    · rw [if_pos hlt] at hs
      have hcom : σ.committing cap .proceed = some (q, .senders) :=
        (committing_retry hcr hm).trans (if_pos (Nat.sub_pos_of_lt hlt))
      exact commitSend_msg hcr (.inr hm) hcom hlt hs
    · rw [if_neg hlt] at hs
      cases hs
      exact .giveUp hcr hm (Nat.sub_eq_zero_of_le (not_lt.mp hlt))
  case h_12 q timeout hpc =>
    have hm : (σ.pc cr).msg = some (q, .receivers, .wait timeout) := by rw [hpc]; rfl
    cases hs
    exact .enlist hcr hm rfl
  case h_13 q timeout hpc =>
    have hm : (σ.pc cr).msg = some (q, .receivers, .delay timeout) := by rw [hpc]; rfl
    obtain ⟨k, hk, rfl⟩ := Option.map_eq_some_iff.mp hs
    exact .sleep hcr hm rfl hk
  case h_14 q hpc =>
    have hm : (σ.pc cr).msg = some (q, .receivers, .check) := by rw [hpc]; rfl
    cases hs
    unfold System.recvCheck
    dsimp only
    by_cases hmem : cr ∈ ((σ.msgQueues q).waitList .receivers).tids
    · rw [if_pos (show cr ∈ (σ.msgQueues q).receivers.tids from hmem)]
      exact .timeOut hcr hm hmem
    · rw [if_neg (show cr ∉ (σ.msgQueues q).receivers.tids from hmem)]
      exact .wake hcr hm hmem rfl
  case h_15 q hpc =>
    have hm : (σ.pc cr).msg = some (q, .receivers, .retry) := by rw [hpc]; rfl
    by_cases hpos : (σ.msgQueues q).len > 0
    · rw [if_pos hpos] at hs
      have hcom : σ.committing cap .proceed = some (q, .receivers) :=
        (committing_retry hcr hm).trans (if_pos hpos)
      exact commitRecv_msg hcr (.inr hm) hcom hpos (hle q) hs
    · rw [if_neg hpos] at hs
      cases hs
      exact .giveUp hcr hm (Nat.eq_zero_of_not_pos hpos)
  all_goals
    rename_i hpc
    rw [hpc] at hp
    rcases hp with hp | ⟨_, _, _, hm, -⟩
    · cases hp
    · cases hm

/-- **What a step can do.** -/
theorem step_msg (hp : ∀ t, (σ.pc t).IsMsg) (hle : ∀ q, (σ.msgQueues q).len ≤ cap q)
    (ha : a.IsMsg) (hs : σ.step cap a = some σ') : MsgStep cap σ a σ' := by
  cases a with
  | systick missed =>
      obtain ⟨k, hk, rfl⟩ := Option.map_eq_some_iff.mp hs
      exact .tick hk
  | preempt =>
      obtain ⟨k, hk, rfl⟩ := yieldIf_eq_some hs
      exact .switch (.inl rfl) hk
  | upFromIsr s => cases ha
  | call c =>
      obtain ⟨cr, hcr, hs⟩ := Option.bind_eq_some_iff.mp hs
      split at hs
      · exact call_msg hcr ‹_› hle ha hs
      · cases hs
  | proceed =>
      obtain ⟨cr, hcr, hs⟩ := Option.bind_eq_some_iff.mp hs
      exact proceed_msg hcr (hp cr) hle hs

/-! ### The wait lists along a run -/

/-- A listed task is in a waiting call on that list, and on no list twice. -/
structure Waiters (cap : ℕ → ℕ) (σ : System T) : Prop where
  delivers : σ.Delivers cap
  pcs : ∀ t, (σ.pc t).IsMsg
  nodup : ∀ q side, ((σ.msgQueues q).waitList side).tids.Nodup
  waits : ∀ q side, ∀ t ∈ ((σ.msgQueues q).waitList side).tids, (σ.pc t).onList = some (q, side)

theorem waiters_init (k : Kernel) (counts : ℕ → ℤ) : (init k counts : System T).Waiters cap where
  delivers := delivers_init k counts
  pcs := fun _ => .inl rfl
  nodup := by
    intro q side
    cases side <;> exact List.nodup_nil
  waits := by
    intro q side t ht
    cases side <;> cases ht

theorem Waiters.len_le (h : σ.Waiters cap) (q : ℕ) : (σ.msgQueues q).len ≤ cap q :=
  (h.delivers.fifo q).indices.len_le

theorem Waiters.msgStep (h : σ.Waiters cap) (ha : a.IsMsg) (hs : σ.step cap a = some σ') :
    MsgStep cap σ a σ' :=
  step_msg h.pcs h.len_le ha hs

theorem Waiters.not_mem (h : σ.Waiters cap) {t : Tid} (ht : (σ.pc t).onList = none) (q : ℕ)
    (side : Side) : t ∉ ((σ.msgQueues q).waitList side).tids := by
  intro hm
  have := h.waits q side t hm
  rw [ht] at this
  cases this

/-- The wait lists after a write to one of them. -/
theorem waitList_update {q q' : ℕ} {side side' : Side} {j : MsgQueueInner T} {l : TaskList}
    (hj : ∀ side', j.waitList side' = (σ.msgQueues q).waitList side') :
    ((Function.update σ.msgQueues q (j.setWaitList side l)) q').waitList side' =
      if q' = q ∧ side' = side then l else (σ.msgQueues q').waitList side' := by
  by_cases hq : q' = q
  · subst hq
    rw [Function.update_self]
    by_cases hside : side' = side
    · subst hside
      rw [MsgQueueInner.waitList_setWaitList, if_pos ⟨rfl, rfl⟩]
    · rw [MsgQueueInner.waitList_setWaitList_of_ne _ _ hside, hj, if_neg (hside ·.2)]
  · rw [Function.update_of_ne hq, if_neg (hq ·.1)]

/-- A write to one wait list adds nobody elsewhere. -/
theorem mem_waitList_of_update {q q' : ℕ} {side side' : Side} {j : MsgQueueInner T} {l : TaskList} {u : Tid}
    (hj : ∀ side', j.waitList side' = (σ.msgQueues q).waitList side')
    (hl : u ∈ l.tids → u ∈ ((σ.msgQueues q).waitList side).tids)
    (hu : u ∈ ((Function.update σ.msgQueues q (j.setWaitList side l) q').waitList side').tids) :
    u ∈ ((σ.msgQueues q').waitList side').tids := by
  rw [waitList_update hj] at hu
  split_ifs at hu with heq
  · obtain ⟨rfl, rfl⟩ := heq
    exact hl hu
  · exact hu

/-- One task moves; the lists lose tasks, and gain at most this one on the list it moves to. -/
theorem Waiters.move (h : σ.Waiters cap) (hd : σ'.Delivers cap) {c : Tid} {pc : Pc T}
    (hpc : σ'.pc = Function.update σ.pc c pc) (hp : pc.IsMsg)
    (hn : ∀ q side, ((σ'.msgQueues q).waitList side).tids.Nodup)
    (hold : ∀ q side, ∀ t ∈ ((σ'.msgQueues q).waitList side).tids, t ≠ c →
      t ∈ ((σ.msgQueues q).waitList side).tids)
    (hself : ∀ q side, c ∈ ((σ'.msgQueues q).waitList side).tids → pc.onList = some (q, side)) :
    σ'.Waiters cap := by
  refine ⟨hd, fun t => ?_, hn, fun q side t ht => ?_⟩
  · rw [hpc, Function.update_apply]
    split_ifs
    · exact hp
    · exact h.pcs t
  · by_cases htc : t = c
    · subst htc
      rw [hpc, Function.update_self]
      exact hself q side ht
    · rw [hpc, Function.update_of_ne htc]
      exact h.waits q side t (hold q side t ht htc)

/-- One task moves and one list is written. -/
theorem Waiters.moveOn (h : σ.Waiters cap) (hd : σ'.Delivers cap) {c : Tid} {pc : Pc T} {q : ℕ}
    {side : Side} {j : MsgQueueInner T} {l : TaskList}
    (hj : ∀ side', j.waitList side' = (σ.msgQueues q).waitList side')
    (hmq : σ'.msgQueues = Function.update σ.msgQueues q (j.setWaitList side l))
    (hpc : σ'.pc = Function.update σ.pc c pc) (hp : pc.IsMsg) (hn : l.tids.Nodup)
    (hl : ∀ t ∈ l.tids, t ≠ c → t ∈ ((σ.msgQueues q).waitList side).tids)
    (hself : c ∈ l.tids → pc.onList = some (q, side))
    (hother : ∀ q' side', ¬(q' = q ∧ side' = side) →
      c ∉ ((σ.msgQueues q').waitList side').tids) : σ'.Waiters cap := by
  refine h.move hd hpc hp (fun q' side' => ?_) (fun q' side' t ht htc => ?_)
    (fun q' side' ht => ?_)
  · rw [hmq, waitList_update hj]
    split_ifs
    · exact hn
    · exact h.nodup q' side'
  · rw [hmq] at ht
    exact mem_waitList_of_update hj (hl t · htc) ht
  · rw [hmq, waitList_update hj] at ht
    split_ifs at ht with heq
    · obtain ⟨rfl, rfl⟩ := heq
      exact hself ht
    · exact absurd ht (hother q' side' heq)

/-- The rest of a wait list after `try_wake_up`. -/
theorem tryWakeUp_cases (l : TaskList) (k : Kernel) (cr : Tid) :
    (l.tids = [] ∧ tryWakeUp l k cr = ⟨k, l, false⟩) ∨ ∃ w l', l.tids = w :: l'.tids ∧
      tryWakeUp l k cr = ⟨k.rouse w, l', (k.rouse w).priority w < (k.rouse w).priority cr⟩ := by
  cases hl : l.popFront with
  | none =>
      rw [tryWakeUp, hl]
      exact .inl ⟨popFront_eq_none.mp hl, rfl⟩
  | some r =>
      obtain ⟨w, l'⟩ := r
      rw [tryWakeUp, hl]
      exact .inr ⟨w, l', popFront_eq_some.mp hl, rfl⟩

theorem tryWakeUp_sublist (l : TaskList) (k : Kernel) (cr : Tid) :
    (tryWakeUp l k cr).inner.tids.Sublist l.tids := by
  rcases tryWakeUp_cases l k cr with ⟨-, he⟩ | ⟨w, l', hl, he⟩
  · rw [he]
  · rw [he, hl]
    exact List.sublist_cons_self w l'.tids

/-- **The wait lists along a step.** -/
theorem Waiters.step (h : σ.Waiters cap) (ha : a.IsMsg) (hs : σ.step cap a = some σ') :
    σ'.Waiters cap := by
  have hd := h.delivers.step hs
  cases h.msgStep ha hs with
  | tick hk => exact ⟨hd, h.pcs, h.nodup, h.waits⟩
  | switch hsw hk => exact ⟨hd, h.pcs, h.nodup, h.waits⟩
  | delay hcr hpc hk => exact ⟨hd, h.pcs, h.nodup, h.waits⟩
  | @commit _ cr q side j k hist hcr hpc hcom hj havail havail' hk =>
      have hno : (σ.pc cr).onList = none := by
        rcases hpc with hpc | hpc
        · rw [hpc]
          rfl
        · exact Pc.onList_retry hpc
      have hsub := tryWakeUp_sublist ((σ.msgQueues q).waitList side.other) σ.kernel cr
      refine h.moveOn hd hj rfl rfl (.inl rfl) ((h.nodup q side.other).sublist hsub)
        (fun t ht _ => hsub.subset ht) (fun ht => ?_) (fun q' side' _ => h.not_mem hno q' side')
      exact absurd (hsub.subset ht) (h.not_mem hno q side.other)
  | @start c cr q side pc hist hcr hpc hcom havail hnext =>
      have hno : (σ.pc cr).onList = none := by rw [hpc]; rfl
      have hp : pc.IsMsg := by
        rcases hnext with rfl | ⟨timeout, hne, hm⟩
        · exact .inl rfl
        · exact .of_msg hm fun heq => hne (Option.some.inj heq)
      exact h.move hd rfl hp h.nodup (fun _ _ _ ht _ => ht)
        fun q' side' ht => absurd ht (h.not_mem hno q' side')
  | @enlist cr q side timeout pc hcr hpc hnext =>
      have hno := h.not_mem (Pc.onList_wait hpc)
      have hne : (MsgStage.wait timeout).timeout ≠ some 0 := (h.pcs cr).timeout_ne hpc
      refine h.moveOn hd (fun _ => rfl) rfl rfl (.of_msg hnext hne)
        (nodup_enqueue (h.nodup q side) (hno q side)) (fun t ht htc => ?_)
        (fun _ => Pc.onList_delay hnext) (fun q' side' _ => hno q' side')
      exact ((mem_enqueue (h.nodup q side) (hno q side)).mp ht).resolve_left htc
  | @sleep cr q side timeout pc k hcr hpc hnext hk =>
      refine h.move hd rfl (.of_msg hnext (by simp [MsgStage.timeout])) h.nodup (fun _ _ _ ht _ => ht) ?_
      intro q' side' ht
      rw [Pc.onList_check hnext, ← Pc.onList_delay hpc]
      exact h.waits q' side' cr ht
  | @timeOut cr q side hist hcr hpc hmem =>
      have hmem' : ∀ t, t ∈ (((σ.msgQueues q).waitList side).remove cr).tids →
          t ∈ ((σ.msgQueues q).waitList side).tids ∧ t ≠ cr := by
        intro t ht
        rw [remove_tids, (h.nodup q side).mem_erase_iff] at ht
        exact ht.symm
      refine h.moveOn hd (fun _ => rfl) rfl rfl (.inl rfl) ?_ (fun t ht _ => (hmem' t ht).1)
        (fun ht => absurd rfl (hmem' cr ht).2) ?_
      · rw [remove_tids]
        exact (h.nodup q side).erase cr
      · intro q' side' hne ht
        have heq := (h.waits q' side' cr ht).symm.trans (Pc.onList_check hpc)
        cases heq
        exact hne ⟨rfl, rfl⟩
  | @wake cr q side pc hcr hpc hmem hnext =>
      refine h.move hd rfl (.of_msg hnext (by simp [MsgStage.timeout])) h.nodup (fun _ _ _ ht _ => ht) ?_
      intro q' side' ht
      have heq := (h.waits q' side' cr ht).symm.trans (Pc.onList_check hpc)
      cases heq
      exact absurd ht hmem
  | @giveUp cr q side hist hcr hpc havail =>
      exact h.move hd rfl (.inl rfl) h.nodup (fun _ _ _ ht _ => ht)
        fun q' side' ht => absurd ht (h.not_mem (Pc.onList_retry hpc) q' side')

end System

end MosKernel
