import MosKernel.Lib.Refinement
import MosKernel.Lib.Ring

/-!
# Queues

`Queue<T, N>` of `data_type/queue.rs`: a ring of `N` slots of uninitialised memory, for elements of any type.
`head`, `tail` and `len` never exceed `N`, so their arithmetic does not overflow.

`Holds` says which list a queue stands for; it is carried through every call by one lemma for each.
-/

namespace MosKernel

open Refinement

/-- `Queue<T, N>`; a slot without a value is uninitialised. -/
structure Queue (T : Type) (N : ℕ) where
  data : ℕ → Option T
  head : ℕ
  tail : ℕ
  len : ℕ

namespace Queue

variable {T σ : Type} {N : ℕ}

/-- `Queue::new` -/
def new : Queue T N := ⟨fun _ => none, 0, 0, 0⟩

/-- `Queue::size` -/
def size (q : Queue T N) : ℕ := q.len

/-- `Queue::full` -/
def full (q : Queue T N) : Bool := N ≤ q.len

/-- `Queue::empty` -/
def empty (q : Queue T N) : Bool := q.len = 0

/-- `Queue::clear` -/
def clear (q : Queue T N) : Queue T N := { q with head := 0, tail := 0, len := 0 }

/-- The value in `self.data[i]`; `none` is a panic or the read of an uninitialised slot. -/
def slot (q : Queue T N) (i : ℕ) : Option T := if i < N then q.data i else none

/-- The storage after `self.data[i] = MaybeUninit::new(val)`, a panic if there is no such slot. -/
def write (q : Queue T N) (i : ℕ) (val : T) : Option (ℕ → Option T) :=
  if i < N then some (Function.update q.data i (some val)) else none

/-- `(i + 1) % N`, a panic for `N = 0`. -/
def next (N i : ℕ) : Option ℕ := if N = 0 then none else some ((i + 1) % N)

/-- `Queue::front` -/
def front (q : Queue T N) : Option (Option T) :=
  if q.empty then some none else (q.slot q.head).map some

/-- `Queue::back` -/
def back (q : Queue T N) : Option (Option T) :=
  if q.empty then some none
  else
    let idx := if q.tail = 0 then N - 1 else q.tail - 1
    (q.slot idx).map some

/-- `Queue::push` -/
def push (q : Queue T N) (val : T) : Option (Queue T N × Bool) :=
  if q.full then some (q, false)
  else do
    let data ← q.write q.tail val
    let tail ← next N q.tail
    some (⟨data, q.head, tail, q.len + 1⟩, true)

/-- `Queue::pop` -/
def pop (q : Queue T N) : Option (Queue T N × Bool) :=
  if q.empty then some (q, false)
  else do
    let head ← next N q.head
    some (⟨q.data, head, q.tail, q.len - 1⟩, true)

/-- `Queue::serve` -/
def serve (q : Queue T N) : Option (Queue T N × Option T) :=
  if q.empty then some (q, none)
  else do
    let val ← q.slot q.head
    let head ← next N q.head
    some (⟨q.data, head, q.tail, q.len - 1⟩, some val)

/-- The passes of the loop of `Queue::iter`, with the state of the closure. -/
def iterLoop (q : Queue T N) (f : σ → T → σ) : ℕ → ℕ → σ → Option σ
  | 0, _, s => some s
  | passes + 1, i, s => do
      let val ← q.slot i
      let i ← next N i
      q.iterLoop f passes i (f s val)

/-- `Queue::iter` -/
def iter (q : Queue T N) (f : σ → T → σ) (s : σ) : Option σ :=
  if q.empty then some s else q.iterLoop f q.len q.head s

/-! ### The list that a queue stands for -/

variable {q : Queue T N} {L : List T} {x : T}

/-- The elements of `L` are in the slots from `head` on. -/
structure Holds (q : Queue T N) (L : List T) : Prop where
  indices : Ring.Indices N q.head q.tail q.len
  window : Ring.window q.data N q.head q.len = L.map some

theorem holds_new : (new : Queue T N).Holds [] :=
  ⟨Ring.Indices.empty N, rfl⟩

theorem holds_clear (q : Queue T N) : q.clear.Holds [] :=
  ⟨Ring.Indices.empty N, rfl⟩

theorem Holds.len_eq (h : q.Holds L) : q.len = L.length := by
  have hlen := congrArg List.length h.window
  rwa [Ring.window, List.length_map, List.length_range, List.length_map] at hlen

theorem Holds.full_iff (h : q.Holds L) : q.full = true ↔ N ≤ L.length := by
  rw [full, decide_eq_true_iff, h.len_eq]

theorem Holds.empty_iff (h : q.Holds L) : q.empty = true ↔ L = [] := by
  rw [empty, decide_eq_true_iff, h.len_eq, List.length_eq_zero_iff]

theorem Holds.nonempty (h : q.Holds (x :: L)) : q.empty ≠ true :=
  fun he => List.cons_ne_nil x L (h.empty_iff.mp he)

theorem next_of_pos (hN : 0 < N) (i : ℕ) : next N i = some ((i + 1) % N) :=
  if_neg hN.ne'

/-- A queue with an element: `head` is the slot of the first one, and the rest lies behind it. -/
theorem Holds.cons (h : q.Holds (x :: L)) : 0 < N ∧ q.slot q.head = some x ∧
    Ring.window q.data N ((q.head + 1) % N) (q.len - 1) = L.map some := by
  have hpos : 0 < q.len := by rw [h.len_eq]; exact Nat.zero_lt_succ _
  have hN : 0 < N := hpos.trans_le h.indices.len_le
  have hwindow := h.window
  rw [Ring.window_pop h.indices hpos, List.map_cons, List.cons.injEq] at hwindow
  exact ⟨hN, by rw [slot, if_pos (h.indices.head_lt hN), hwindow.1], hwindow.2⟩

theorem Holds.tail (h : q.Holds (x :: L)) :
    (⟨q.data, (q.head + 1) % N, q.tail, q.len - 1⟩ : Queue T N).Holds L :=
  ⟨h.indices.pop (by rw [h.len_eq]; exact Nat.zero_lt_succ _), h.cons.2.2⟩

/-- The slot of the first element is none of the slots behind it. -/
theorem Holds.tail_slots (h : q.Holds (x :: L)) :
    ∀ i < q.len - 1, ((q.head + 1) % N + i) % N ≠ q.head := by
  intro i hi heq
  have hle := h.indices.len_le
  have hne : (q.head + 0) % N ≠ (q.head + (i + 1)) % N := Ring.add_mod_ne (Nat.zero_lt_succ i) (by omega)
  apply hne
  calc (q.head + 0) % N = q.head := Nat.mod_eq_of_lt (h.indices.head_lt h.cons.1)
    _ = ((q.head + 1) % N + i) % N := heq.symm
    _ = (q.head + (i + 1)) % N := by rw [Nat.mod_add_mod, Nat.add_assoc, Nat.add_comm 1 i]

/-! ### The calls -/

theorem Holds.front (h : q.Holds L) : q.front = some L.head? := by
  cases L with
  | nil => exact if_pos (h.empty_iff.mpr rfl)
  | cons x L => rw [Queue.front, if_neg h.nonempty, h.cons.2.1]; rfl

/-- Stepping `tail` back across the end of the storage finds the last element. -/
theorem Holds.back (h : q.Holds L) : q.back = some L.getLast? := by
  rcases List.eq_nil_or_concat' L with rfl | ⟨L, x, rfl⟩
  · exact if_pos (h.empty_iff.mpr rfl)
  · have hlen : q.len = L.length + 1 := by rw [h.len_eq, List.length_append]; rfl
    have hne : q.empty ≠ true := fun he => by simpa using h.empty_iff.mp he
    have hindices := h.indices
    have hwindow := h.window
    rw [hlen] at hindices hwindow
    rw [Ring.window_concat, List.map_append] at hwindow
    have hlast := (List.append_inj' hwindow rfl).2
    have hN : 0 < N := (Nat.zero_lt_succ _).trans_le hindices.len_le
    rw [Queue.back, if_neg hne]
    dsimp only
    rw [hindices.last_slot, slot, if_pos (Nat.mod_lt _ hN), List.singleton_inj.mp hlast,
      List.getLast?_concat]
    rfl

theorem Holds.push (h : q.Holds L) (val : T) :
    ∃ q', q.push val = some (q', decide (L.length < N)) ∧
      q'.Holds (if L.length < N then L ++ [val] else L) := by
  rcases Nat.lt_or_ge L.length N with hlt | hge
  · have hN : 0 < N := by omega
    have hnot : q.full ≠ true := fun hf => absurd (h.full_iff.mp hf) (by omega)
    have hlen : q.len < N := by rw [h.len_eq]; exact hlt
    refine ⟨⟨Function.update q.data q.tail (some val), q.head, (q.tail + 1) % N, q.len + 1⟩, ?_, ?_⟩
    · rw [Queue.push, if_neg hnot, write, if_pos (h.indices.tail_lt hN), next_of_pos hN,
        decide_eq_true hlt]
      rfl
    · rw [if_pos hlt]
      refine ⟨h.indices.push hlen, ?_⟩
      rw [Ring.window_push h.indices hlen, h.window, List.map_append]
      rfl
  · refine ⟨q, ?_, ?_⟩
    · rw [Queue.push, if_pos (h.full_iff.mpr hge), decide_eq_false (by omega)]
    · rwa [if_neg (by omega)]

theorem Holds.pop (h : q.Holds L) : ∃ q', q.pop = some (q', !L.isEmpty) ∧ q'.Holds L.tail ∧
    ∀ i < q'.len, (q'.head + i) % N ≠ q.head := by
  cases L with
  | nil => exact ⟨q, if_pos (h.empty_iff.mpr rfl), h, fun i hi => absurd hi (by simp [h.len_eq])⟩
  | cons x L =>
      refine ⟨_, ?_, h.tail, h.tail_slots⟩
      rw [Queue.pop, if_neg h.nonempty, next_of_pos h.cons.1]
      rfl

theorem Holds.serve (h : q.Holds L) : ∃ q', q.serve = some (q', L.head?) ∧ q'.Holds L.tail ∧
    ∀ i < q'.len, (q'.head + i) % N ≠ q.head := by
  cases L with
  | nil => exact ⟨q, if_pos (h.empty_iff.mpr rfl), h, fun i hi => absurd hi (by simp [h.len_eq])⟩
  | cons x L =>
      refine ⟨_, ?_, h.tail, h.tail_slots⟩
      rw [Queue.serve, if_neg h.nonempty, h.cons.2.1, next_of_pos h.cons.1]
      rfl

/-- The loop of `iter` on the slots of a window. -/
theorem iterLoop_eq (f : σ → T → σ) (L : List T) (i : ℕ) (hi : i < N)
    (hw : Ring.window q.data N i L.length = L.map some) (s : σ) :
    q.iterLoop f L.length i s = some (L.foldl f s) := by
  induction L generalizing i s with
  | nil => rfl
  | cons x L ih =>
      have hN : 0 < N := by omega
      rw [List.length_cons, Ring.window_succ hi, List.map_cons, List.cons.injEq] at hw
      rw [List.length_cons, iterLoop, slot, if_pos hi, hw.1, next_of_pos hN]
      exact ih _ (Nat.mod_lt _ hN) hw.2 (f s x)

theorem Holds.iter (h : q.Holds L) (f : σ → T → σ) (s : σ) : q.iter f s = some (L.foldl f s) := by
  cases L with
  | nil => exact if_pos (h.empty_iff.mpr rfl)
  | cons x L =>
      have hwindow := h.window
      rw [h.len_eq] at hwindow
      rw [Queue.iter, if_neg h.nonempty, h.len_eq]
      exact iterLoop_eq f (x :: L) q.head (h.indices.head_lt h.cons.1) hwindow s

end Queue

/-- A call that changes a queue. -/
inductive QueueOp (T : Type)
  | push (val : T)
  | pop
  | serve
  | clear

/-- What such a call returns. -/
inductive QueueReply (T : Type)
  | changed (ok : Bool)
  | served (val : Option T)
  | cleared

/-- The queue with some slots uninitialised again. -/
def Queue.forget {T : Type} {N : ℕ} (q : Queue T N) (gone : ℕ → Bool) : Queue T N :=
  { q with data := fun i => if gone i then none else q.data i }

namespace QueueOp

variable {T : Type} {N : ℕ}

/-- What a call does to the queue. -/
def run (q : Queue T N) : QueueOp T → Option (Queue T N × QueueReply T)
  | push val => (q.push val).map fun (q, ok) => (q, .changed ok)
  | pop => q.pop.map fun (q, ok) => (q, .changed ok)
  | serve => q.serve.map fun (q, val) => (q, .served val)
  | clear => some (q.clear, .cleared)

/-- The slots whose elements leave the queue with a call. -/
def drops (q : Queue T N) : QueueOp T → ℕ → Bool
  | push _, _ => false
  | pop, i => i = q.head
  | serve, i => i = q.head
  | clear, _ => true

/-- A call.  With `forgetful` a slot is uninitialised again once its element has left the queue, so that
only slots written since can be read. -/
def call (forgetful : Bool) (q : Queue T N) (op : QueueOp T) : Option (Queue T N × QueueReply T) :=
  (op.run q).map fun (q', reply) => (if forgetful then q'.forget (op.drops q) else q', reply)

/-- What a call does to a list of at most `N` elements. -/
def apply (N : ℕ) (L : List T) : QueueOp T → List T × QueueReply T
  | push val => (if L.length < N then L ++ [val] else L, .changed (decide (L.length < N)))
  | pop => (L.tail, .changed (!L.isEmpty))
  | serve => (L.tail, .served L.head?)
  | clear => ([], .cleared)

end QueueOp

namespace Queue

variable {T : Type} {N : ℕ} {q : Queue T N} {L : List T}

theorem Holds.forget {gone : ℕ → Bool} (h : q.Holds L)
    (hgone : ∀ i < q.len, gone ((q.head + i) % N) = false) : (q.forget gone).Holds L := by
  refine ⟨h.indices, Eq.trans (Ring.window_congr fun i hi => ?_) h.window⟩
  exact if_neg (Bool.eq_false_iff.mp (hgone i hi))

/-- The queue goes on to stand for the list, and the slots that a call drops are out of the window. -/
theorem Holds.run (h : q.Holds L) (op : QueueOp T) :
    ∃ q', op.run q = some (q', (op.apply N L).2) ∧ q'.Holds (op.apply N L).1 ∧
      ∀ i < q'.len, op.drops q ((q'.head + i) % N) = false := by
  cases op with
  | push val =>
      obtain ⟨q', hrun, hq'⟩ := h.push val
      exact ⟨q', by rw [QueueOp.run, hrun]; rfl, hq', fun _ _ => rfl⟩
  | pop =>
      obtain ⟨q', hrun, hq', hne⟩ := h.pop
      exact ⟨q', by rw [QueueOp.run, hrun]; rfl, hq', fun i hi => decide_eq_false (hne i hi)⟩
  | serve =>
      obtain ⟨q', hrun, hq', hne⟩ := h.serve
      exact ⟨q', by rw [QueueOp.run, hrun]; rfl, hq', fun i hi => decide_eq_false (hne i hi)⟩
  | clear => exact ⟨q.clear, rfl, holds_clear q, fun i hi => absurd hi (Nat.not_lt_zero i)⟩

/-- One call. -/
theorem Holds.call (h : q.Holds L) (forgetful : Bool) (op : QueueOp T) :
    ∃ q', op.call forgetful q = some (q', (op.apply N L).2) ∧ q'.Holds (op.apply N L).1 := by
  obtain ⟨q', hrun, hq', hgone⟩ := h.run op
  refine ⟨_, by rw [QueueOp.call, hrun]; rfl, ?_⟩
  split
  · exact hq'.forget hgone
  · exact hq'

/-- **A queue is a bounded list.**  Any calls on a new queue of any capacity run through, without a panic or
the read of a slot that was not written since its last element left, and return what they return on a list.
The queue then answers every question as the list does, and `iter` visits its elements in order. -/
theorem queue_is_a_bounded_list (N : ℕ) (forgetful : Bool) (ops : List (QueueOp T)) :
    ∃ q : Queue T N,
      runCalls (QueueOp.call forgetful) new ops = some (q, (specCalls (QueueOp.apply N) [] ops).2) ∧
      let L := (specCalls (QueueOp.apply N) [] ops).1
      q.size = L.length ∧ (q.full = true ↔ N ≤ L.length) ∧ (q.empty = true ↔ L = []) ∧
        q.front = some L.head? ∧ q.back = some L.getLast? ∧
        ∀ {σ : Type} (f : σ → T → σ) (s : σ), q.iter f s = some (L.foldl f s) := by
  have hall : AllOk (QueueOp.apply N) (fun (_ : List T) _ => True) [] ops :=
    allOk_of_forall (fun _ _ => trivial) [] ops
  obtain ⟨q, hrun, h⟩ :=
    runCalls_refines (fun _ _ op hq _ => hq.call forgetful op) (holds_new (N := N)) hall
  exact ⟨q, hrun, h.len_eq, h.full_iff, h.empty_iff, h.front, h.back, fun f s => h.iter f s⟩

end Queue

end MosKernel
