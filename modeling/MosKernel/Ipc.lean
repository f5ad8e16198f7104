import MosKernel.Sync

/-!
# Message queues

The ring buffer and the critical sections of `kernel/ipc.rs`, for messages of any type `T` and any
capacity `n`.  The buffer is a function from indices to slots, `none` for uninitialised memory;
reading such a slot is undefined behaviour in the source and stops the model.
-/

namespace MosKernel

variable {T : Type}

/-- `MsgQueueInner` -/
structure MsgQueueInner (T : Type) where
  buffer : ℕ → Option T
  head : ℕ
  tail : ℕ
  len : ℕ
  senders : TaskList
  receivers : TaskList

/-- The writes with which `MsgQueue::try_wake_up` makes a waiting task ready. -/
def Kernel.rouse (k : Kernel) (tid : Tid) : Kernel :=
  ((k.setTcb tid fun tcb =>
    { tcb with wakePoint := 0xFFFFFFFF, status := .ready }).sleepingRemove tid).readyInsert tid

/-- `MsgQueue::try_wake_up` on the wait list of a queue. -/
def tryWakeUp (waitList : TaskList) (k : Kernel) (cr : Tid) : CsResult TaskList :=
  match waitList.popFront with
  | some (tid, waitList) =>
    ⟨k.rouse tid, waitList, (k.rouse tid).priority tid < (k.rouse tid).priority cr⟩
  | none => ⟨k, waitList, false⟩

namespace MsgQueueInner

/-- `MsgQueueInner::new` -/
def new : MsgQueueInner T := ⟨fun _ => none, 0, 0, 0, .new, .new⟩

/-- `MsgQueueInner::push` -/
def push (inner : MsgQueueInner T) (n : ℕ) (msg : T) : MsgQueueInner T :=
  if inner.len < n then
    { inner with
      buffer := Function.update inner.buffer inner.tail (some msg)
      tail := (inner.tail + 1) % n
      len := inner.len + 1 }
  else inner

/-- `MsgQueueInner::pop` where `len > 0`; `none` is the read of an uninitialised slot. -/
def pop (inner : MsgQueueInner T) (n : ℕ) : Option (T × MsgQueueInner T) :=
  (inner.buffer inner.head).map fun msg =>
    (msg, { inner with head := (inner.head + 1) % n, len := inner.len - 1 })

/-- The committing section of `MsgQueue::send` where `len < n`. -/
def commitSend (inner : MsgQueueInner T) (n : ℕ) (k : Kernel) (cr : Tid) (msg : T) :
    CsResult (MsgQueueInner T) :=
  let inner := inner.push n msg
  let r := tryWakeUp inner.receivers k cr
  ⟨r.kernel, { inner with receivers := r.inner }, r.yields⟩

/-- The committing section of `MsgQueue::recv` where `len > 0`. -/
def commitRecv (inner : MsgQueueInner T) (n : ℕ) (k : Kernel) (cr : Tid) :
    Option (T × CsResult (MsgQueueInner T)) :=
  (inner.pop n).map fun (msg, inner) =>
    let r := tryWakeUp inner.senders k cr
    (msg, ⟨r.kernel, { inner with senders := r.inner }, r.yields⟩)

theorem commitSend_of_lt {inner : MsgQueueInner T} {n : ℕ} {k : Kernel} {cr : Tid} {msg : T}
    (h : inner.len < n) : inner.commitSend n k cr msg =
      ⟨(tryWakeUp inner.receivers k cr).kernel,
        { inner with
          buffer := Function.update inner.buffer inner.tail (some msg)
          tail := (inner.tail + 1) % n
          len := inner.len + 1
          receivers := (tryWakeUp inner.receivers k cr).inner },
        (tryWakeUp inner.receivers k cr).yields⟩ := by
  rw [commitSend, push, if_pos h]

theorem commitRecv_eq_some {inner : MsgQueueInner T} {n : ℕ} {k : Kernel} {cr : Tid}
    {r : T × CsResult (MsgQueueInner T)} (h : inner.commitRecv n k cr = some r) :
    inner.buffer inner.head = some r.1 ∧ r.2 =
      ⟨(tryWakeUp inner.senders k cr).kernel,
        { inner with
          head := (inner.head + 1) % n
          len := inner.len - 1
          senders := (tryWakeUp inner.senders k cr).inner },
        (tryWakeUp inner.senders k cr).yields⟩ := by
  obtain ⟨⟨msg, j⟩, hpop, rfl⟩ := Option.map_eq_some_iff.mp h
  obtain ⟨msg', hbuf, he⟩ := Option.map_eq_some_iff.mp hpop
  cases he
  exact ⟨hbuf, rfl⟩

end MsgQueueInner

end MosKernel
