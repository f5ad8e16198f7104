import Mathlib.Data.List.InsertIdx
import Mathlib.Tactic.Common

/-!
# Vectors of a fixed capacity

`FixedVec α cap` is a vector in a buffer of `cap` elements.  `push` and `insert` hand the element back when
the buffer is full; `insert` and `remove` shift the elements behind the index, and an index out of range
stops the program, which is `none` here.
-/

/-- At most `cap` elements, in their order. -/
structure FixedVec (α : Type) (cap : ℕ) where
  elems : List α
  length_le : elems.length ≤ cap

namespace FixedVec

variable {α : Type} {cap i : ℕ} {v v' : FixedVec α cap} {x : α}

@[ext] theorem ext (h : v.elems = v'.elems) : v = v' := by
  cases v
  cases v'
  cases h
  rfl

def empty : FixedVec α cap := ⟨[], Nat.zero_le cap⟩

def isFull (v : FixedVec α cap) : Bool := v.elems.length = cap

theorem length_insertIdx_le (v : FixedVec α cap) (h : v.isFull ≠ true) (i : ℕ) (x : α) :
    (v.elems.insertIdx i x).length ≤ cap := by
  have hne : v.elems.length ≠ cap := fun he => h (decide_eq_true he)
  have hle := v.length_le
  have hins : (v.elems.insertIdx i x).length ≤ v.elems.length + 1 := List.length_insertIdx_le_succ
  omega

theorem length_concat_le (v : FixedVec α cap) (h : v.isFull ≠ true) (x : α) :
    (v.elems ++ [x]).length ≤ cap := by
  have hne : v.elems.length ≠ cap := fun he => h (decide_eq_true he)
  have hle := v.length_le
  rw [List.length_append, List.length_singleton]
  omega

theorem length_eraseIdx_le (v : FixedVec α cap) (i : ℕ) : (v.elems.eraseIdx i).length ≤ cap :=
  Nat.le_trans (List.length_eraseIdx_le v.elems i) v.length_le

/-- Append at the end; a full vector stays as it is and hands the element back. -/
def push (v : FixedVec α cap) (x : α) : FixedVec α cap × Except α Unit :=
  if h : v.isFull then (v, .error x) else (⟨v.elems ++ [x], v.length_concat_le h x⟩, .ok ())

/-- Insert at an index, shifting what is behind it. -/
def insert (v : FixedVec α cap) (i : ℕ) (x : α) : Option (FixedVec α cap × Except α Unit) :=
  if v.elems.length < i then none
  else if h : v.isFull then some (v, .error x)
  else some (⟨v.elems.insertIdx i x, v.length_insertIdx_le h i x⟩, .ok ())

/-- Take out the element at an index, shifting what is behind it. -/
def remove (v : FixedVec α cap) (i : ℕ) : Option (FixedVec α cap × α) :=
  v.elems[i]?.map fun x => (⟨v.elems.eraseIdx i, v.length_eraseIdx_le i⟩, x)

theorem isFull_iff : v.isFull = true ↔ v.elems.length = cap := decide_eq_true_iff

theorem isFull_of_lt (h : v.elems.length < cap) : v.isFull ≠ true :=
  fun hfull => Nat.ne_of_lt h (isFull_iff.mp hfull)

theorem push_spec (h : v.elems.length < cap) (x : α) :
    ∃ v', v.push x = (v', .ok ()) ∧ v'.elems = v.elems ++ [x] :=
  ⟨_, dif_neg (isFull_of_lt h), rfl⟩

theorem insert_spec (hi : i ≤ v.elems.length) (h : v.elems.length < cap) (x : α) :
    ∃ v', v.insert i x = some (v', .ok ()) ∧ v'.elems = v.elems.insertIdx i x :=
  ⟨_, by rw [insert, if_neg (by omega), dif_neg (isFull_of_lt h)], rfl⟩

theorem remove_spec (h : v.elems[i]? = some x) :
    ∃ v', v.remove i = some (v', x) ∧ v'.elems = v.elems.eraseIdx i :=
  ⟨_, by rw [remove, h, Option.map_some], rfl⟩

end FixedVec
