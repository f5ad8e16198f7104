import MosKernel.Lib.Ring
import MosKernel.Lib.Transition
import MosKernel.System

/-!
# Message queues are bounded FIFOs

Whatever tasks and interrupt handlers do, the values that `recv` has returned followed by those in
the ring are the values that `send` has committed, in order.  The history records the commits;
`Fifo` relates it to the ring of one queue.  `Bracketed` says that each event which ends a call
comes, among the events of its task, directly after the event that opened the call: a call that
times out has neither sent nor received.

Only the two commits touch a ring, so all other steps are instances of one lemma
(`Delivers.quiet`).
-/

namespace MosKernel

open Transition

variable {T : Type}

/-! ### Reading the history -/

namespace Event

/-- The task whose call the event belongs to. -/
def task : Event T → Option Tid
  | .upped _ => none
  | .acquired _ t | .sendCalled _ t _ | .recvCalled _ t | .sent _ t _ | .received _ t _
  | .timedOut _ t => some t

/-- The value that the event adds to queue `q`. -/
def sentTo (q : ℕ) : Event T → Option T
  | .sent q' _ msg => if q' = q then some msg else none
  | _ => none

/-- The value that the event takes from queue `q`. -/
def receivedFrom (q : ℕ) : Event T → Option T
  | .received q' _ msg => if q' = q then some msg else none
  | _ => none

/-- Neither a commit nor a time-out. -/
def Quiet : Event T → Prop
  | .sent .. | .received .. | .timedOut .. => False
  | _ => True

end Event

/-- The values of a history, which lists its newest event first, in the order of the commits. -/
def valuesOf (f : Event T → Option T) (history : List (Event T)) : List T :=
  (history.filterMap f).reverse

/-- The newest event of task `t`. -/
def lastOf (t : Tid) (history : List (Event T)) : Option (Event T) :=
  history.find? fun e => e.task = some t

/-- An event that ends a call follows the one that opened it. -/
def Event.Closes (history : List (Event T)) : Event T → Prop
  | .sent q t msg => lastOf t history = some (.sendCalled q t msg)
  | .received q t _ => lastOf t history = some (.recvCalled q t)
  | .timedOut q t => lastOf t history = some (.recvCalled q t) ∨
      ∃ msg, lastOf t history = some (.sendCalled q t msg)
  | _ => True

/-- In the whole history calls end where they have begun. -/
def Bracketed : List (Event T) → Prop
  | [] => True
  | e :: history => e.Closes history ∧ Bracketed history

/-- The event that opened the pending `send` or `recv` of task `t`. -/
def Pc.opening (t : Tid) : Pc T → Option (Event T)
  | .sendWait q msg _ | .sendDelay q msg _ | .sendCheck q msg | .sendRetry q msg =>
    some (.sendCalled q t msg)
  | .recvWait q _ | .recvDelay q _ | .recvCheck q | .recvRetry q => some (.recvCalled q t)
  | _ => none

theorem valuesOf_cons (f : Event T → Option T) (e : Event T) (history : List (Event T)) :
    valuesOf f (e :: history) = valuesOf f history ++ (f e).toList := by
  unfold valuesOf
  cases he : f e <;> simp [he]

theorem lastOf_cons_self {t : Tid} {e : Event T} {history : List (Event T)}
    (h : e.task = some t) : lastOf t (e :: history) = some e := by
  simp [lastOf, h]

theorem lastOf_cons_of_ne {t : Tid} {e : Event T} {history : List (Event T)}
    (h : e.task ≠ some t) : lastOf t (e :: history) = lastOf t history := by
  simp [lastOf, h]

/-! ### One queue -/

namespace MsgQueueInner

variable {i : MsgQueueInner T} {n : ℕ} {k : Kernel} {cr : Tid} {msg : T} {sent received : List T}

/-- The values in the ring, from `head` on. -/
def buffered (i : MsgQueueInner T) (n : ℕ) : List (Option T) :=
  Ring.window i.buffer n i.head i.len

/-- The indices fit together, and what was sent is what was received and what is buffered. -/
structure Fifo (i : MsgQueueInner T) (n : ℕ) (sent received : List T) : Prop where
  indices : Ring.Indices n i.head i.tail i.len
  values : ∃ vs : List T, i.buffered n = vs.map some ∧ sent = received ++ vs

/-- The part of a queue that `push` and `pop` work on. -/
def ring (i : MsgQueueInner T) : (ℕ → Option T) × ℕ × ℕ × ℕ := (i.buffer, i.head, i.tail, i.len)

theorem Fifo.congr {j : MsgQueueInner T} (h : i.Fifo n sent received) (hr : j.ring = i.ring) :
    j.Fifo n sent received := by
  obtain ⟨h1, h2⟩ := h
  simp only [ring, Prod.mk.injEq] at hr
  obtain ⟨hb, hh, ht, hl⟩ := hr
  refine ⟨?_, ?_⟩
  · rw [hh, ht, hl]
    exact h1
  · unfold buffered at h2 ⊢
    rw [hb, hh, hl]
    exact h2

theorem Fifo.new (n : ℕ) : (new : MsgQueueInner T).Fifo n [] [] :=
  ⟨.empty n, [], rfl, rfl⟩

theorem Fifo.push (h : i.Fifo n sent received) (hlt : i.len < n) (msg : T) :
    (i.push n msg).Fifo n (sent ++ [msg]) received := by
  obtain ⟨hi, vs, hvs, hs⟩ := h
  unfold MsgQueueInner.push
  rw [if_pos hlt]
  refine ⟨hi.push hlt, vs ++ [msg], ?_, ?_⟩
  · show Ring.window _ n i.head (i.len + 1) = _
    rw [Ring.window_push hi hlt, List.map_append, ← hvs]
    rfl
  · rw [hs, List.append_assoc]

/-- The next value to be received was sent first, and the slot it is read from is initialised. -/
theorem Fifo.pop (h : i.Fifo n sent received) (hpos : 0 < i.len) :
    ∃ msg j, i.pop n = some (msg, j) ∧ j.Fifo n sent (received ++ [msg]) := by
  obtain ⟨hi, vs, hvs, hs⟩ := h
  rw [buffered, Ring.window_pop hi hpos] at hvs
  cases vs with
  | nil => cases hvs
  | cons msg vs =>
      rw [List.map_cons, List.cons.injEq] at hvs
      obtain ⟨hmsg, hvs⟩ := hvs
      refine ⟨msg, { i with head := (i.head + 1) % n, len := i.len - 1 }, ?_,
        ⟨hi.pop hpos, vs, hvs, ?_⟩⟩
      · rw [MsgQueueInner.pop, hmsg]
        rfl
      · rw [hs, List.append_assoc]
        rfl

end MsgQueueInner

/-! ### The whole system -/

namespace System

variable {cap : ℕ → ℕ} {σ σ' : System T} {cr : Tid} {a : Action T}

/-- Every queue delivers what was sent, in order, and calls end where they have begun. -/
structure Delivers (cap : ℕ → ℕ) (σ : System T) : Prop where
  fifo : ∀ q, (σ.msgQueues q).Fifo (cap q) (valuesOf (Event.sentTo q) σ.history)
    (valuesOf (Event.receivedFrom q) σ.history)
  opened : ∀ t, ∀ e ∈ (σ.pc t).opening t, lastOf t σ.history = some e
  bracketed : Bracketed σ.history

theorem delivers_init (k : Kernel) (counts : ℕ → ℤ) : (init k counts : System T).Delivers cap where
  fifo := fun q => MsgQueueInner.Fifo.new (cap q)
  opened := by
    intro t e he
    cases he
  bracketed := trivial

/-- A step that commits nothing: it may log a quiet event, and every task stays where it was, opens a
call with that event, or leaves its call. -/
theorem Delivers.quiet (h : σ.Delivers cap) (hring : ∀ q, (σ'.msgQueues q).ring = (σ.msgQueues q).ring)
    {l : List (Event T)} (hl : ∀ e ∈ l, e.Quiet) (hh : σ'.history = l ++ σ.history)
    (hpc : ∀ t, ((σ'.pc t).opening t = (σ.pc t).opening t ∧ ∀ e ∈ l, e.task ≠ some t) ∨
      ∀ e ∈ (σ'.pc t).opening t, lastOf t (l ++ σ.history) = some e) :
    σ'.Delivers cap := by
  have hvals : ∀ f : Event T → Option T, (∀ e : Event T, e.Quiet → f e = none) →
      valuesOf f (l ++ σ.history) = valuesOf f σ.history := by
    intro f hf
    have hnone : l.filterMap f = [] := by
      rw [List.filterMap_eq_nil_iff]
      exact fun e he => hf e (hl e he)
    rw [valuesOf, List.filterMap_append, hnone, List.nil_append]
    rfl
  refine ⟨fun q => ?_, fun t e he => ?_, ?_⟩
  · rw [hh, hvals _ (fun e he => by cases e <;> first | rfl | cases he),
      hvals _ (fun e he => by cases e <;> first | rfl | cases he)]
    exact (h.fifo q).congr (hring q)
  · rw [hh]
    rcases hpc t with ⟨hsame, hother⟩ | hopen
    · rw [hsame] at he
      rw [← h.opened t e he, lastOf, List.find?_append, List.find?_eq_none.mpr, Option.none_or]
      · rfl
      · intro e' he'
        simpa using hother e' he'
    · exact hopen e he
  · rw [hh]
    clear hh hpc hvals
    induction l with
    | nil => exact h.bracketed
    | cons e l ih =>
        refine ⟨?_, ih fun e' he' => hl e' (List.mem_cons_of_mem _ he')⟩
        have hq := hl e List.mem_cons_self
        cases e <;> first | exact trivial | cases hq

/-- A step that ends a call on queue `q` with the event `e`. -/
theorem Delivers.close (h : σ.Delivers cap) {q : ℕ} {e : Event T} {j : MsgQueueInner T}
    (htask : e.task = some cr) (hclose : e.Closes σ.history)
    (hother : ∀ q', q' ≠ q → e.sentTo q' = none ∧ e.receivedFrom q' = none)
    (hj : j.Fifo (cap q) (valuesOf (Event.sentTo q) (e :: σ.history))
      (valuesOf (Event.receivedFrom q) (e :: σ.history)))
    (hm : σ'.msgQueues = Function.update σ.msgQueues q j) (hh : σ'.history = e :: σ.history)
    (hpc : σ'.pc = Function.update σ.pc cr .user) : σ'.Delivers cap := by
  refine ⟨fun q' => ?_, fun t e' he' => ?_, ?_⟩
  · rw [hm, hh]
    by_cases hq : q' = q
    · subst hq
      rw [Function.update_self]
      exact hj
    · rw [Function.update_of_ne hq, valuesOf_cons, valuesOf_cons, (hother q' hq).1,
        (hother q' hq).2, Option.toList_none, List.append_nil, List.append_nil]
      exact h.fifo q'
  · rw [hpc] at he'
    by_cases ht : t = cr
    · subst ht
      rw [Function.update_self] at he'
      cases he'
    · rw [Function.update_of_ne ht] at he'
      have hne : e.task ≠ some t := by
        rw [htask]
        intro hcr
        exact ht (Option.some.inj hcr).symm
      rw [hh, lastOf_cons_of_ne hne]
      exact h.opened t e' he'
  · rw [hh]
    exact ⟨hclose, h.bracketed⟩

theorem Delivers.commitSend (h : σ.Delivers cap) {q : ℕ} {msg : T}
    (hlt : (σ.msgQueues q).len < cap q)
    (hlast : lastOf cr σ.history = some (.sendCalled q cr msg))
    (hs : σ.commitSend cap cr q msg = some σ') : σ'.Delivers cap := by
  obtain ⟨k, -, rfl⟩ := yieldIf_eq_some hs
  have hpush := (h.fifo q).push hlt msg
  refine h.close (q := q) (e := .sent q cr msg) rfl hlast ?_ ?_ rfl rfl rfl
  · intro q' hq
    exact ⟨if_neg (Ne.symm hq), rfl⟩
  · simp only [valuesOf_cons, Event.sentTo, Event.receivedFrom, if_true, Option.toList_some,
      Option.toList_none, List.append_nil]
    exact hpush.congr rfl

theorem Delivers.commitRecv (h : σ.Delivers cap) {q : ℕ} (hpos : 0 < (σ.msgQueues q).len)
    (hlast : lastOf cr σ.history = some (.recvCalled q cr))
    (hs : σ.commitRecv cap cr q = some σ') : σ'.Delivers cap := by
  obtain ⟨msg, j, hpop, hj⟩ := (h.fifo q).pop hpos
  rw [System.commitRecv, MsgQueueInner.commitRecv, hpop, Option.map_some, Option.bind_some] at hs
  obtain ⟨k, -, rfl⟩ := yieldIf_eq_some hs
  refine h.close (q := q) (e := .received q cr msg) rfl hlast ?_ ?_ rfl rfl rfl
  · intro q' hq
    exact ⟨rfl, if_neg (Ne.symm hq)⟩
  · simp only [valuesOf_cons, Event.sentTo, Event.receivedFrom, if_true, Option.toList_some,
      Option.toList_none, List.append_nil]
    exact hj.congr rfl

/-- The queue is left alone when a call times out, apart from its wait lists. -/
theorem Delivers.timeOut (h : σ.Delivers cap) {q : ℕ} {j : MsgQueueInner T}
    (hj : j.ring = (σ.msgQueues q).ring)
    (hlast : lastOf cr σ.history = some (.recvCalled q cr) ∨
      ∃ msg, lastOf cr σ.history = some (.sendCalled q cr msg)) (k : Kernel) :
    ((σ.putMsgQueue q ⟨k, j, false⟩).timeOut cr q).Delivers cap := by
  refine h.close (q := q) (e := .timedOut q cr) rfl hlast (fun _ _ => ⟨rfl, rfl⟩) ?_ rfl rfl rfl
  simp only [valuesOf_cons, Event.sentTo, Event.receivedFrom, Option.toList_none, List.append_nil]
  exact (h.fifo q).congr hj

/-- A call that does not get into a wait times out at once. -/
theorem Delivers.timeOut_now (h : σ.Delivers cap) {q : ℕ}
    (hlast : lastOf cr σ.history = some (.recvCalled q cr) ∨
      ∃ msg, lastOf cr σ.history = some (.sendCalled q cr msg)) : (σ.timeOut cr q).Delivers cap := by
  refine h.close (q := q) (e := .timedOut q cr) rfl hlast (fun _ _ => ⟨rfl, rfl⟩) (h.fifo q) ?_ rfl rfl
  exact (Function.update_eq_self q _).symm

/-- The running task goes on to a place in the call that it opened last. -/
theorem Delivers.wait (h : σ.Delivers cap) (pc : Pc T)
    (hlast : ∀ e ∈ pc.opening cr, lastOf cr σ.history = some e) : (σ.setPc cr pc).Delivers cap := by
  refine h.quiet (fun _ => rfl) (l := []) (by simp) rfl fun t => ?_
  by_cases ht : t = cr
  · subst ht
    refine .inr fun e he => ?_
    rw [setPc_pc, Function.update_self] at he
    exact hlast e he
  · exact .inl ⟨by rw [setPc_pc, Function.update_of_ne ht], by simp⟩

/-- Wait lists may change without touching a ring. -/
theorem ring_putMsgQueue {q : ℕ} {r : CsResult (MsgQueueInner T)}
    (hr : r.inner.ring = (σ.msgQueues q).ring) (q' : ℕ) :
    ((σ.putMsgQueue q r).msgQueues q').ring = (σ.msgQueues q').ring := by
  rw [putMsgQueue_msgQueues, Function.update_apply]
  split_ifs with hq
  · rw [hr, hq]
  · rfl

/-- The running task moves on inside its call. -/
theorem Delivers.advance (h : σ.Delivers cap) (pc : Pc T) (hp : pc.opening cr = (σ.pc cr).opening cr)
    (hring : ∀ q, (σ'.msgQueues q).ring = (σ.msgQueues q).ring) (hh : σ'.history = σ.history)
    (hpc : σ'.pc = Function.update σ.pc cr pc) : σ'.Delivers cap := by
  refine h.quiet hring (l := []) (by simp) hh fun t => .inl ⟨?_, by simp⟩
  rw [hpc, Function.update_apply]
  split_ifs with ht
  · rw [ht]
    exact hp
  · rfl

/-- A step of a call that is no `send` or `recv`: it logs at most an event of the running task,
which has no message call pending afterwards. -/
theorem Delivers.other (h : σ.Delivers cap) (cr : Tid)
    (hring : ∀ q, (σ'.msgQueues q).ring = (σ.msgQueues q).ring) (pc : Pc T)
    (hp : pc.opening cr = none) (hpc : σ'.pc = σ.pc ∨ σ'.pc = Function.update σ.pc cr pc)
    (hh : σ'.history = σ.history ∨ ∃ e : Event T, σ'.history = e :: σ.history ∧ e.Quiet ∧
      (e.task = none ∨ e.task = some cr ∧ (σ'.pc cr).opening cr = none)) : σ'.Delivers cap := by
  have hopen : ∀ t, t ≠ cr → (σ'.pc t).opening t = (σ.pc t).opening t := by
    intro t ht
    rcases hpc with hpc | hpc
    · rw [hpc]
    · rw [hpc, Function.update_of_ne ht]
  have hself : (σ'.pc cr).opening cr = (σ.pc cr).opening cr ∨ (σ'.pc cr).opening cr = none := by
    rcases hpc with hpc | hpc
    · exact .inl (by rw [hpc])
    · rw [hpc, Function.update_self]
      exact .inr hp
  rcases hh with hh | ⟨e, hh, hq, ht⟩
  · refine h.quiet hring (l := []) (by simp) hh fun t => ?_
    by_cases htc : t = cr
    · subst htc
      rcases hself with hs | hs
      · exact .inl ⟨hs, by simp⟩
      · exact .inr (by simp [hs])
    · exact .inl ⟨hopen t htc, by simp⟩
  · refine h.quiet hring (l := [e]) (by simpa using hq) hh fun t => ?_
    rcases ht with ht | ⟨ht, hnone⟩
    · by_cases htc : t = cr
      · subst htc
        rcases hself with hs | hs
        · exact .inl ⟨hs, by simp [ht]⟩
        · exact .inr (by simp [hs])
      · exact .inl ⟨hopen t htc, by simp [ht]⟩
    · by_cases htc : t = cr
      · subst htc
        exact .inr (by simp [hnone])
      · exact .inl ⟨hopen t htc, by simp [ht, Ne.symm htc]⟩

theorem Delivers.call {c : Call T} (h : σ.Delivers cap) (hpc : σ.pc cr = .user)
    (hs : σ.call cap cr c = some σ') : σ'.Delivers cap := by
  have hcr : (σ.pc cr).opening cr = none := by rw [hpc]; rfl
  cases c with
  | task c =>
      obtain ⟨⟨k, r⟩, -, rfl⟩ := Option.map_eq_some_iff.mp hs
      cases r with
      | none => exact h.other cr (fun _ => rfl) .user rfl (.inl rfl) (.inl rfl)
      | some t => exact h.other t (fun _ => rfl) .user rfl (.inr rfl) (.inl rfl)
  | down s =>
      obtain ⟨k, -, rfl⟩ := yieldIf_eq_some hs
      split
      · exact h.other cr (fun _ => rfl) (.down s) rfl (.inr rfl) (.inl rfl)
      · exact h.other cr (fun _ => rfl) .user rfl (.inl rfl)
          (.inr ⟨_, rfl, trivial, .inr ⟨rfl, hcr⟩⟩)
  | downTimeout s ticks =>
      cases hs
      unfold System.downTimeout
      dsimp only
      split_ifs
      · exact h.other cr (fun _ => rfl) .user rfl (.inl rfl)
          (.inr ⟨_, rfl, trivial, .inr ⟨rfl, hcr⟩⟩)
      · exact h.other cr (fun _ => rfl) .user rfl (.inl rfl) (.inl rfl)
      · exact h.other cr (fun _ => rfl) (.downTimeoutBlock s ticks) rfl (.inr rfl) (.inl rfl)
  | tryDown s =>
      cases hs
      unfold System.tryDown
      dsimp only
      split_ifs
      · exact h.other cr (fun _ => rfl) .user rfl (.inl rfl)
          (.inr ⟨_, rfl, trivial, .inr ⟨rfl, hcr⟩⟩)
      · exact h.other cr (fun _ => rfl) .user rfl (.inl rfl) (.inl rfl)
  | up s =>
      obtain ⟨k, -, rfl⟩ := yieldIf_eq_some hs
      exact h.other cr (fun _ => rfl) .user rfl (.inl rfl) (.inr ⟨_, rfl, trivial, .inl rfl⟩)
  | lock m =>
      rw [System.call, Option.ite_none_right_eq_some] at hs
      obtain ⟨k, -, rfl⟩ := yieldIf_eq_some hs.2
      split
      · exact h.other cr (fun _ => rfl) (.lock m) rfl (.inr rfl) (.inl rfl)
      · exact h.other cr (fun _ => rfl) .user rfl (.inr rfl) (.inl rfl)
  | unlock m =>
      rw [System.call, Option.ite_none_right_eq_some] at hs
      obtain ⟨k, -, rfl⟩ := yieldIf_eq_some hs.2
      exact h.other cr (fun _ => rfl) .user rfl (.inl rfl) (.inl rfl)
  | wait c m =>
      rw [System.call, Option.ite_none_right_eq_some] at hs
      obtain ⟨k, -, rfl⟩ := yieldIf_eq_some hs.2
      refine h.other cr (fun _ => rfl) _ ?_ (.inr rfl) (.inl rfl)
      split <;> rfl
  | notify c =>
      obtain ⟨k, -, rfl⟩ := yieldIf_eq_some hs
      exact h.other cr (fun _ => rfl) .user rfl (.inl rfl) (.inl rfl)
  | notifyAll c =>
      obtain ⟨k, -, rfl⟩ := yieldIf_eq_some hs
      exact h.other cr (fun _ => rfl) .user rfl (.inl rfl) (.inl rfl)
  | send q msg timeout =>
      have hcall : (σ.log (.sendCalled q cr msg)).Delivers cap :=
        h.other cr (fun _ => rfl) .user rfl (.inl rfl) (.inr ⟨_, rfl, trivial, .inr ⟨rfl, hcr⟩⟩)
      have hlast : lastOf cr (σ.log (.sendCalled q cr msg)).history =
          some (.sendCalled q cr msg) := lastOf_cons_self rfl
      unfold System.call System.send at hs
      dsimp only at hs
      split_ifs at hs with hlt
      · exact hcall.commitSend hlt hlast hs
      · cases hs
        exact hcall.timeOut_now (.inr ⟨msg, hlast⟩)
      · cases hs
        exact hcall.wait _ fun e he => hlast.trans he
  | recv q timeout =>
      have hcall : (σ.log (.recvCalled q cr)).Delivers cap :=
        h.other cr (fun _ => rfl) .user rfl (.inl rfl) (.inr ⟨_, rfl, trivial, .inr ⟨rfl, hcr⟩⟩)
      have hlast : lastOf cr (σ.log (.recvCalled q cr)).history = some (.recvCalled q cr) :=
        lastOf_cons_self rfl
      unfold System.call System.recv at hs
      dsimp only at hs
      split_ifs at hs with hlt
      · exact hcall.commitRecv hlt hlast hs
      · cases hs
        exact hcall.timeOut_now (.inl hlast)
      · cases hs
        exact hcall.wait _ fun e he => hlast.trans he

theorem Delivers.proceed (h : σ.Delivers cap) (hs : σ.proceed cap cr = some σ') :
    σ'.Delivers cap := by
  unfold System.proceed at hs
  split at hs
  · cases hs
  · cases hs
    exact h.other cr (fun _ => rfl) .user rfl (.inr rfl)
      (.inr ⟨_, rfl, trivial, .inr ⟨rfl, by simp [Pc.opening]⟩⟩)
  · rename_i s ticks hpc
    obtain ⟨k, -, rfl⟩ := yieldIf_eq_some hs
    exact h.other cr (fun _ => rfl) (.downTimeoutCheck s) rfl (.inr rfl) (.inl rfl)
  · rename_i s hpc
    cases hs
    unfold System.downTimeoutCheck
    dsimp only
    split
    · exact h.other cr (fun _ => rfl) .user rfl (.inr rfl)
        (.inr ⟨_, rfl, trivial, .inr ⟨rfl, by simp [Pc.opening]⟩⟩)
    · exact h.other cr (fun _ => rfl) .user rfl (.inr rfl) (.inl rfl)
  · cases hs
    exact h.other cr (fun _ => rfl) .user rfl (.inr rfl) (.inl rfl)
  · rename_i c m hpc
    obtain ⟨k, -, rfl⟩ := yieldIf_eq_some hs
    exact h.other cr (fun _ => rfl) (.condRelock c m) rfl (.inr rfl) (.inl rfl)
  · rename_i c m hpc
    obtain ⟨k, -, rfl⟩ := yieldIf_eq_some hs
    split
    · exact h.other cr (fun _ => rfl) (.lock m) rfl (.inr rfl) (.inl rfl)
    · exact h.other cr (fun _ => rfl) .user rfl (.inr rfl) (.inl rfl)
  · rename_i q msg timeout hpc
    cases hs
    refine h.advance (.sendDelay q msg timeout) (by rw [hpc]; rfl) (fun q' => ?_) rfl rfl
    exact ring_putMsgQueue rfl q'
  · rename_i q msg timeout hpc
    obtain ⟨k, -, rfl⟩ := Option.map_eq_some_iff.mp hs
    exact h.advance (.sendCheck q msg) (by rw [hpc]; rfl) (fun _ => rfl) rfl rfl
  · rename_i q msg hpc
    have hlast := h.opened cr _ (by rw [hpc]; rfl)
    cases hs
    unfold System.sendCheck
    dsimp only
    split
    · exact h.timeOut (by rfl) (.inr ⟨msg, hlast⟩) _
    · exact h.advance (.sendRetry q msg) (by rw [hpc]; rfl) (fun _ => rfl) rfl rfl
  · rename_i q msg hpc
    have hlast := h.opened cr _ (by rw [hpc]; rfl)
    split at hs
    · exact h.commitSend ‹_› hlast hs
    · cases hs
      exact h.timeOut_now (.inr ⟨msg, hlast⟩)
  · rename_i q timeout hpc
    cases hs
    refine h.advance (.recvDelay q timeout) (by rw [hpc]; rfl) (fun q' => ?_) rfl rfl
    exact ring_putMsgQueue rfl q'
  · rename_i q timeout hpc
    obtain ⟨k, -, rfl⟩ := Option.map_eq_some_iff.mp hs
    exact h.advance (.recvCheck q) (by rw [hpc]; rfl) (fun _ => rfl) rfl rfl
  · rename_i q hpc
    have hlast := h.opened cr _ (by rw [hpc]; rfl)
    cases hs
    unfold System.recvCheck
    dsimp only
    split
    · exact h.timeOut (by rfl) (.inl hlast) _
    · exact h.advance (.recvRetry q) (by rw [hpc]; rfl) (fun _ => rfl) rfl rfl
  · rename_i q hpc
    have hlast := h.opened cr _ (by rw [hpc]; rfl)
    split at hs
    · exact h.commitRecv ‹_› hlast hs
    · cases hs
      exact h.timeOut_now (.inl hlast)

theorem Delivers.step (h : σ.Delivers cap) (hs : σ.step cap a = some σ') : σ'.Delivers cap := by
  cases a with
  | systick missed =>
      obtain ⟨k, -, rfl⟩ := Option.map_eq_some_iff.mp hs
      exact h.other 0 (fun _ => rfl) .user rfl (.inl rfl) (.inl rfl)
  | preempt =>
      obtain ⟨k, -, rfl⟩ := yieldIf_eq_some hs
      exact h.other 0 (fun _ => rfl) .user rfl (.inl rfl) (.inl rfl)
  | upFromIsr s =>
      cases hs
      exact h.other 0 (fun _ => rfl) .user rfl (.inl rfl)
        (.inr ⟨_, rfl, trivial, .inl rfl⟩)
  | call c =>
      obtain ⟨cr, -, hs⟩ := Option.bind_eq_some_iff.mp hs
      split at hs
      · exact h.call ‹_› hs
      · cases hs
  | proceed =>
      obtain ⟨cr, -, hs⟩ := Option.bind_eq_some_iff.mp hs
      exact h.proceed hs

end System

/-- **Message queues are bounded FIFOs.**  In every state of every run of the system, for every queue
of any capacity: what `recv` calls have returned followed by what is in the ring is what `send` calls
have committed, in order; the indices of the ring fit its capacity; and every commit or time-out ends
the call that its task has begun last, so that a call that times out has committed nothing. -/
theorem msg_queue_is_fifo {cap : ℕ → ℕ} {k : Kernel} {counts : ℕ → ℤ} {σ : System T}
    {tr : List (System T × Action T)}
    (hr : Run (System.step cap) (fun _ _ => True) (System.init k counts) tr σ) :
    Always (fun σ : System T => (∀ q, (σ.msgQueues q).Fifo (cap q)
      (valuesOf (Event.sentTo q) σ.history) (valuesOf (Event.receivedFrom q) σ.history)) ∧
        Bracketed σ.history) tr σ := by
  have hall := hr.always (System.delivers_init k counts) fun _ _ _ h _ hs => h.step hs
  exact ⟨fun e he => ⟨(hall.1 e he).fifo, (hall.1 e he).bracketed⟩, hall.2.fifo, hall.2.bracketed⟩

/-- A sender that waits for a full ring of one slot, its second attempt, and a `recv` that times
out. -/
theorem msg_queue_is_fifo_run : ∃ k₀ tr, ∃ σ : System ℕ,
    Kernel.launchAfter [.create 3 "a", .create 4 "b"] = some k₀ ∧
      Run (System.step fun _ => 1) (fun _ _ => True) (System.init k₀ fun _ => 0) tr σ ∧
      valuesOf (Event.receivedFrom 0) σ.history = [7, 8] ∧
      (∀ q, (σ.msgQueues q).Fifo 1
        (valuesOf (Event.sentTo q) σ.history) (valuesOf (Event.receivedFrom q) σ.history)) ∧
      Bracketed σ.history := by
  have hsome : (Kernel.launchAfter [.create 3 "a", .create 4 "b"]).isSome = true := by
    decide +kernel
  obtain ⟨k₀, hk₀⟩ := Option.isSome_iff_exists.mp hsome
  have hexec : ((Kernel.launchAfter [.create 3 "a", .create 4 "b"]).bind fun k₀ =>
      exec (System.step fun _ => 1) (fun (_ : System ℕ) _ => true) (System.init k₀ fun _ => 0)
        [.call (.send 0 7 0), .call (.send 0 8 5), .proceed, .proceed, .call (.recv 0 3),
          .proceed, .proceed, .call (.task (.delay 9)), .call (.recv 0 3), .call (.recv 0 0)]).any
      (fun σ => valuesOf (Event.receivedFrom 0) σ.history = [7, 8]) = true := by
    decide +kernel
  rw [hk₀, Option.bind_some] at hexec
  obtain ⟨tr, σ, hr, hσ⟩ := exists_run_of_exec (fun _ _ _ => trivial) hexec
  exact ⟨k₀, tr, σ, hk₀, hr, of_decide_eq_true hσ, (msg_queue_is_fifo hr).2⟩

end MosKernel
