import MosKernel.Lib.OrderedInsert
import Mathlib.Algebra.Order.Ring.Int
import Mathlib.Algebra.Order.Ring.Nat
import Mathlib.Data.List.Nodup
import Mathlib.Data.Fintype.Card
import Mathlib.Data.Fintype.Prod

/-!
# Task lists

`TaskList` (`kernel/list.rs`) is a `heapless::Vec<usize, TASK_MAX>` of task identifiers.  The bound
on its length is a field of the structure, as the vector type enforces it.  Task identifiers index
the array `TCBS`, so they are elements of `Fin taskMax`.

The insertions return the rejected identifier when the list is full.  Almost every caller discards
that result with `let _ =`; `TaskList.kept` is the list after such a call and `TaskList.errCount`
says whether an `Err` was thrown away.
-/

namespace MosKernel

open OrderedInsert

/-! ### Configuration (`config.rs`) -/

abbrev taskMax : ℕ := 16
abbrev timeSlice : ℕ := 50
abbrev priMax : ℕ := 0
abbrev priMin : ℕ := 127
abbrev priInv : ℕ := 255
abbrev pageSizeWords : ℕ := 1024 / 4

/-- A task identifier: an index into `TCBS`. -/
abbrev Tid := Fin taskMax

instance : NeZero taskMax := ⟨by decide⟩

instance (t : Tid) (l : List Tid) : Decidable (t ∈ l) := inferInstance

/-- `TaskList`: at most `taskMax` identifiers in a fixed buffer. -/
structure TaskList where
  tids : List Tid
  le_cap : tids.length ≤ taskMax
  deriving DecidableEq

namespace TaskList

variable {l : TaskList} {t u : Tid} {p : Tid → Bool}

@[ext] theorem ext {l l' : TaskList} (h : l.tids = l'.tids) : l = l' := by
  cases l
  cases l'
  cases h
  rfl

/-- `TaskList::new` -/
def new : TaskList := ⟨[], Nat.zero_le _⟩

/-- `TaskList::is_empty` -/
def isEmpty (l : TaskList) : Bool := l.tids.isEmpty

/-- `TaskList::len` -/
def len (l : TaskList) : ℕ := l.tids.length

/-- `TaskList::front` -/
def front (l : TaskList) : Option Tid := l.tids.head?

/-- `TaskList::push_back`: `Err(tid)` when the vector is full. -/
def pushBack (l : TaskList) (tid : Tid) : Except Tid TaskList :=
  if h : l.tids.length < taskMax then
    .ok ⟨l.tids ++ [tid], by simp only [List.length_append, List.length_singleton]; omega⟩
  else .error tid

/-- `TaskList::remove`: drops the first occurrence of `tid`, if there is one. -/
def remove (l : TaskList) (tid : Tid) : TaskList :=
  match l.tids.idxOf? tid with
  | some pos => ⟨l.tids.eraseIdx pos, (List.length_eraseIdx_le _ _).trans l.le_cap⟩
  | none => l

/-- `TaskList::pop_front` -/
def popFront (l : TaskList) : Option (Tid × TaskList) :=
  match h : l.tids with
  | [] => none
  | t :: ts => some (t, ⟨ts, by have := l.le_cap; rw [h, List.length_cons] at this; omega⟩)

/-- `TaskList::insert_in_order`: in front of the first element with `is_before`, or at the end. -/
def insertInOrder (l : TaskList) (tid : Tid) (isBefore : Tid → Bool) : Except Tid TaskList :=
  if h : l.tids.length < taskMax then
    .ok ⟨insertBefore isBefore tid l.tids, by rw [length_insertBefore]; omega⟩
  else .error tid

/-- The list after a call whose result is discarded: an `Err` leaves it as it was. -/
def kept (l : TaskList) : Except Tid TaskList → TaskList
  | .ok l' => l'
  | .error _ => l

/-- How many `Err`s a discarded result hides. -/
def errCount : Except Tid TaskList → ℕ
  | .ok _ => 0
  | .error _ => 1

@[simp] theorem new_tids : new.tids = [] := rfl

@[simp] theorem remove_tids (l : TaskList) (t : Tid) : (l.remove t).tids = l.tids.erase t := by
  rw [remove, List.erase_eq_eraseIdx]
  cases l.tids.idxOf? t <;> rfl

theorem popFront_eq_some {l l' : TaskList} {t : Tid} :
    l.popFront = some (t, l') ↔ l.tids = t :: l'.tids := by
  unfold popFront
  split
  · rename_i h
    simp [h]
  · rename_i u ts h
    simp only [h, Option.some.injEq, Prod.mk.injEq, List.cons.injEq, TaskList.ext_iff]

theorem popFront_eq_none : l.popFront = none ↔ l.tids = [] := by
  unfold popFront
  split
  · rename_i h
    simp [h]
  · rename_i u ts h
    simp [h]

/-- There is room for a task that is not in a list without duplicates. -/
theorem length_lt_of_not_mem (hn : l.tids.Nodup) (ht : t ∉ l.tids) : l.tids.length < taskMax := by
  have h := (List.nodup_cons.mpr ⟨ht, hn⟩).length_le_card
  rw [List.length_cons, Fintype.card_fin] at h
  omega

theorem insertInOrder_of_lt (h : l.tids.length < taskMax) :
    (l.kept (l.insertInOrder t p)).tids = insertBefore p t l.tids ∧
      errCount (l.insertInOrder t p) = 0 := by
  simp [insertInOrder, h, kept, errCount]

theorem insertInOrder_of_full (h : l.tids.length = taskMax) :
    l.kept (l.insertInOrder t p) = l ∧ errCount (l.insertInOrder t p) = 1 := by
  simp [insertInOrder, h, kept, errCount]

theorem pushBack_of_lt (h : l.tids.length < taskMax) :
    (l.kept (l.pushBack t)).tids = l.tids ++ [t] ∧ errCount (l.pushBack t) = 0 := by
  simp [pushBack, h, kept, errCount]

/-- Whether or not there is room, nothing but the new task is added. -/
theorem mem_of_mem_insertInOrder (h : u ∈ (l.kept (l.insertInOrder t p)).tids) :
    u = t ∨ u ∈ l.tids := by
  rcases lt_or_eq_of_le l.le_cap with hl | hl
  · rw [(insertInOrder_of_lt hl).1] at h
    exact mem_insertBefore.mp h
  · rw [(insertInOrder_of_full hl).1] at h
    exact .inr h

/-- The new task is on the list if there was room, or if it was on it already. -/
theorem mem_insertInOrder_self : t ∈ (l.kept (l.insertInOrder t p)).tids ↔
    t ∈ l.tids ∨ l.tids.length < taskMax := by
  rcases lt_or_eq_of_le l.le_cap with hl | hl
  · rw [(insertInOrder_of_lt hl).1, mem_insertBefore]
    simp [hl]
  · rw [(insertInOrder_of_full hl).1]
    simp [hl]

/-- Whether or not there is room, nothing is removed. -/
theorem count_le_insertInOrder : l.tids.count u ≤ (l.kept (l.insertInOrder t p)).tids.count u := by
  rcases lt_or_eq_of_le l.le_cap with hl | hl
  · rw [(insertInOrder_of_lt hl).1, count_insertBefore]
    omega
  · rw [(insertInOrder_of_full hl).1]

end TaskList

end MosKernel
