import MosKernel.Lib.Refinement

/-!
# Buffers

`Buffer<T, N>` of `data_type/buffer.rs`: an array of `N` elements, which `MaybeUninit::zeroed` fills, and
the length of the part that counts.  `pop` and `clear` leave the elements where they are.

`Holds` says which list a buffer stands for.  No call reads an element behind it, so what was popped never
comes back, and no index is out of range.
-/

namespace MosKernel

open Refinement

/-- `Buffer<T, N>` -/
structure Buffer (T : Type) (N : ℕ) where
  raw : Vector T N
  len : ℕ

namespace Buffer

variable {T : Type} {N : ℕ}

/-- `Buffer::new`, with the element that all zeros stand for. -/
def new (zero : T) : Buffer T N := ⟨Vector.replicate N zero, 0⟩

/-- `Buffer::full` -/
def full (b : Buffer T N) : Bool := N ≤ b.len

/-- `Buffer::empty` -/
def empty (b : Buffer T N) : Bool := b.len = 0

/-- `Buffer::push`; `none` is a panic, here and below. -/
def push (b : Buffer T N) (data : T) : Option (Buffer T N) :=
  if b.full then some b
  else if h : b.len < N then some ⟨b.raw.set b.len data h, b.len + 1⟩ else none

/-- `Buffer::back` -/
def back (b : Buffer T N) : Option (Option T) :=
  if b.empty then some none
  else if h : b.len - 1 < N then some (some b.raw[b.len - 1]) else none

/-- `Buffer::pop` -/
def pop (b : Buffer T N) : Buffer T N := if b.empty then b else { b with len := b.len - 1 }

/-- `Buffer::clear` -/
def clear (b : Buffer T N) : Buffer T N := { b with len := 0 }

/-- `Buffer::as_slice`; `Buffer::iter` goes through the same slice. -/
def asSlice (b : Buffer T N) : Option (List T) := if b.len ≤ N then some (b.raw.toList.take b.len) else none

/-! ### The list that a buffer stands for -/

variable {b : Buffer T N} {L : List T} {x : T}

/-- The elements of `L` are the first ones of the array. -/
structure Holds (b : Buffer T N) (L : List T) : Prop where
  len_le : b.len ≤ N
  take : b.raw.toList.take b.len = L

theorem holds_new (zero : T) : (new zero : Buffer T N).Holds [] := ⟨Nat.zero_le N, List.take_zero⟩

theorem holds_clear (b : Buffer T N) : b.clear.Holds [] := ⟨Nat.zero_le N, List.take_zero⟩

theorem Holds.len_eq (h : b.Holds L) : b.len = L.length := by
  have hlen := congrArg List.length h.take
  rw [List.length_take, Vector.length_toList, Nat.min_eq_left h.len_le] at hlen
  exact hlen

theorem Holds.full_eq (h : b.Holds L) : b.full = decide (N ≤ L.length) := by
  rw [full, h.len_eq]

theorem Holds.empty_eq (h : b.Holds L) : b.empty = L.isEmpty := by
  rw [empty, h.len_eq]
  cases L with
  | nil => rfl
  | cons x L => rfl

/-- The new element comes behind the others, over what was popped. -/
theorem Holds.push (h : b.Holds L) (data : T) :
    ∃ b', b.push data = some b' ∧ b'.Holds (if L.length < N then L ++ [data] else L) := by
  have hlen := h.len_eq
  by_cases hlt : L.length < N
  · have hroom : b.len < N := by omega
    refine ⟨⟨b.raw.set b.len data hroom, b.len + 1⟩, ?_, hroom, ?_⟩
    · rw [Buffer.push, if_neg (by rw [h.full_eq, decide_eq_true_iff]; omega), dif_pos hroom]
    · rw [if_pos hlt, Vector.toList_set, List.take_add_one, List.take_set_of_le (Nat.le_refl b.len), h.take]
      congr 1
      rw [List.getElem?_set_self (by rwa [Vector.length_toList])]
      rfl
  · refine ⟨b, ?_, ?_⟩
    · rw [Buffer.push, if_pos (by rw [h.full_eq, decide_eq_true_iff]; omega)]
    · rwa [if_neg hlt]

/-- The last element stays in the array, behind the list. -/
theorem Holds.pop (h : b.Holds L) : b.pop.Holds L.dropLast := by
  have hle := Nat.sub_le b.len 1
  rw [Buffer.pop, h.empty_eq]
  cases L with
  | nil => exact h
  | cons x L =>
      refine ⟨Nat.le_trans hle h.len_le, ?_⟩
      show b.raw.toList.take (b.len - 1) = _
      rw [List.dropLast_eq_take, ← h.len_eq, ← h.take, List.take_take, Nat.min_eq_left hle]

/-- `len - 1` is the index of the last element. -/
theorem Holds.back (h : b.Holds L) : b.back = some L.getLast? := by
  have hle := h.len_le
  have hlen := h.len_eq
  rw [Buffer.back, h.empty_eq]
  cases L with
  | nil => rfl
  | cons x L =>
      rw [List.length_cons] at hlen
      have hlt : b.len - 1 < N := by omega
      rw [List.isEmpty_cons, if_neg Bool.false_ne_true, dif_pos hlt, List.getLast?_eq_getElem?, ← h.len_eq,
        ← h.take, List.getElem?_take_of_lt (by omega), Vector.getElem?_toList, Vector.getElem?_eq_getElem hlt]

theorem Holds.asSlice (h : b.Holds L) : b.asSlice = some L := by
  rw [Buffer.asSlice, if_pos h.len_le, h.take]

end Buffer

inductive BufferOp (T : Type)
  | push (data : T)
  | pop
  | clear
  | full
  | empty
  | len
  | back
  | asSlice

/-- What a call returns. -/
inductive BufferReply (T : Type)
  | unit
  | flag (b : Bool)
  | size (n : ℕ)
  | last (x : Option T)
  | slice (L : List T)

namespace BufferOp

variable {T : Type} {N : ℕ}

/-- A call. -/
def call (b : Buffer T N) : BufferOp T → Option (Buffer T N × BufferReply T)
  | push data => (b.push data).map fun b => (b, .unit)
  | pop => some (b.pop, .unit)
  | clear => some (b.clear, .unit)
  | full => some (b, .flag b.full)
  | empty => some (b, .flag b.empty)
  | len => some (b, .size b.len)
  | back => b.back.map fun x => (b, .last x)
  | asSlice => b.asSlice.map fun L => (b, .slice L)

/-- The same call on a list of at most `N` elements. -/
def apply (N : ℕ) (L : List T) : BufferOp T → List T × BufferReply T
  | push data => (if L.length < N then L ++ [data] else L, .unit)
  | pop => (L.dropLast, .unit)
  | clear => ([], .unit)
  | full => (L, .flag (decide (N ≤ L.length)))
  | empty => (L, .flag L.isEmpty)
  | len => (L, .size L.length)
  | back => (L, .last L.getLast?)
  | asSlice => (L, .slice L)

end BufferOp

namespace Buffer

variable {T : Type} {N : ℕ} {b : Buffer T N} {L : List T}

/-- One call. -/
theorem Holds.call (h : b.Holds L) (op : BufferOp T) :
    ∃ b', op.call b = some (b', (op.apply N L).2) ∧ b'.Holds (op.apply N L).1 := by
  cases op with
  | push data =>
      obtain ⟨b', hpush, hb'⟩ := h.push data
      exact ⟨b', by rw [BufferOp.call, hpush]; rfl, hb'⟩
  | pop => exact ⟨b.pop, rfl, h.pop⟩
  | clear => exact ⟨b.clear, rfl, holds_clear b⟩
  | full => exact ⟨b, by rw [BufferOp.call, h.full_eq]; rfl, h⟩
  | empty => exact ⟨b, by rw [BufferOp.call, h.empty_eq]; rfl, h⟩
  | len => exact ⟨b, by rw [BufferOp.call, h.len_eq]; rfl, h⟩
  | back => exact ⟨b, by rw [BufferOp.call, h.back]; rfl, h⟩
  | asSlice => exact ⟨b, by rw [BufferOp.call, h.asSlice]; rfl, h⟩

/-- **A buffer is a bounded stack.**  Any calls on a new buffer of any capacity run through without a panic,
and each returns what it returns on a list that `push` extends while there is room and `pop` shortens; what
was popped or cleared is never seen again. -/
theorem buffer_is_a_bounded_stack (N : ℕ) (zero : T) (ops : List (BufferOp T)) :
    ∃ b : Buffer T N, runCalls (fun b (op : BufferOp T) => op.call b) (new zero) ops =
        some (b, (specCalls (fun L (op : BufferOp T) => op.apply N L) [] ops).2) ∧
      b.Holds (specCalls (fun L (op : BufferOp T) => op.apply N L) [] ops).1 := by
  have hall : AllOk (fun L (op : BufferOp T) => op.apply N L) (fun _ _ => True) [] ops :=
    allOk_of_forall (fun _ _ => trivial) [] ops
  exact runCalls_refines (fun _ _ op hb _ => hb.call op) (holds_new zero) hall

end Buffer

end MosKernel
