import Mathlib.Data.List.Range
import Mathlib.Data.Nat.ModEq
import Mathlib.Logic.Function.Basic
import Mathlib.Tactic.Common

/-!
# Ring buffers

A ring of `n` slots holds `len` elements from the slot `head` on, wrapping around; `tail` is the next
free slot.  `window` reads the elements off the ring in order.  Writing at `tail` appends to the
window (`window_push`) and advancing `head` drops its first element (`window_pop`), so a ring with
these two operations is a queue.
-/

namespace Ring

variable {α : Type*} {buf : ℕ → α} {x : α} {n head tail len : ℕ}

/-- The elements from `head` on. -/
def window (buf : ℕ → α) (n head len : ℕ) : List α :=
  (List.range len).map fun i => buf ((head + i) % n)

/-- The indices of a ring of `n` slots agree with each other. -/
structure Indices (n head tail len : ℕ) : Prop where
  len_le : len ≤ n
  head_lt : 0 < n → head < n
  tail_lt : 0 < n → tail < n
  tail_eq : 0 < n → tail = (head + len) % n

theorem Indices.empty (n : ℕ) : Indices n 0 0 0 :=
  ⟨Nat.zero_le n, id, id, fun _ => (Nat.zero_mod n).symm⟩

theorem Indices.push (h : Indices n head tail len) (hlt : len < n) :
    Indices n head ((tail + 1) % n) (len + 1) := by
  have hn : 0 < n := by omega
  refine ⟨hlt, h.head_lt, fun _ => Nat.mod_lt _ hn, fun _ => ?_⟩
  rw [h.tail_eq hn, Nat.mod_add_mod, Nat.add_assoc]

theorem Indices.pop (h : Indices n head tail len) (hpos : 0 < len) :
    Indices n ((head + 1) % n) tail (len - 1) := by
  have hle := h.len_le
  have hn : 0 < n := by omega
  refine ⟨by omega, fun _ => Nat.mod_lt _ hn, h.tail_lt, fun _ => ?_⟩
  rw [h.tail_eq hn, Nat.mod_add_mod]
  congr 1
  omega

/-- `head` advances by several slots. -/
theorem Indices.advance {k : ℕ} (h : Indices n head tail len) (hk : k ≤ len) :
    Indices n ((head + k) % n) tail (len - k) := by
  have hle := h.len_le
  refine ⟨by omega, fun hn => Nat.mod_lt _ hn, h.tail_lt, fun hn => ?_⟩
  rw [h.tail_eq hn, Nat.mod_add_mod]
  congr 1
  omega

/-- Two slots of the window differ. -/
theorem add_mod_ne {i j : ℕ} (hi : i < j) (hj : j < n) : (head + i) % n ≠ (head + j) % n := by
  intro h
  have hij : i % n = j % n := Nat.ModEq.add_left_cancel' head h
  rw [Nat.mod_eq_of_lt (hi.trans hj), Nat.mod_eq_of_lt hj] at hij
  omega

/-- **Writing the free slot appends.** -/
theorem window_push (h : Indices n head tail len) (hlt : len < n) :
    window (Function.update buf tail x) n head (len + 1) = window buf n head len ++ [x] := by
  rw [h.tail_eq (by omega)]
  have hold : ∀ i ∈ List.range len,
      Function.update buf ((head + len) % n) x ((head + i) % n) = buf ((head + i) % n) := by
    intro i hi
    exact Function.update_of_ne (add_mod_ne (List.mem_range.mp hi) hlt) x buf
  rw [window, List.range_succ, List.map_append, List.map_congr_left hold, List.map_singleton,
    Function.update_self]
  rfl

/-- The first element is in the slot `head`. -/
theorem window_succ (h : head < n) :
    window buf n head (len + 1) = buf head :: window buf n ((head + 1) % n) len := by
  have hshift : ∀ i ∈ List.range len,
      buf ((head + (i + 1)) % n) = buf (((head + 1) % n + i) % n) := by
    intro i _
    rw [Nat.mod_add_mod]
    congr 2
    omega
  rw [window, List.range_succ_eq_map, List.map_cons, List.map_map, Nat.add_zero, Nat.mod_eq_of_lt h]
  exact congrArg _ (List.map_congr_left hshift)

/-- A window falls into its first elements and the rest. -/
theorem window_add (k m : ℕ) : window buf n head (k + m) =
    window buf n head k ++ window buf n ((head + k) % n) m := by
  have hshift : ∀ i ∈ List.range m, buf ((head + (k + i)) % n) = buf (((head + k) % n + i) % n) := by
    intro i _
    rw [Nat.mod_add_mod, Nat.add_assoc]
  rw [window, List.range_add, List.map_append, List.map_map]
  exact congrArg _ (List.map_congr_left hshift)

/-- The last element is `len` slots behind the first one. -/
theorem window_concat : window buf n head (len + 1) = window buf n head len ++ [buf ((head + len) % n)] := by
  rw [window, List.range_succ, List.map_append]
  rfl

/-- The window reads its own slots only. -/
theorem window_congr {buf' : ℕ → α} (h : ∀ i < len, buf ((head + i) % n) = buf' ((head + i) % n)) :
    window buf n head len = window buf' n head len :=
  List.map_congr_left fun i hi => h i (List.mem_range.mp hi)

/-- **Advancing `head` drops the first element.** -/
theorem window_pop (h : Indices n head tail len) (hpos : 0 < len) :
    window buf n head len = buf head :: window buf n ((head + 1) % n) (len - 1) := by
  have hle := h.len_le
  obtain ⟨m, rfl⟩ : ∃ m, len = m + 1 := ⟨len - 1, by omega⟩
  exact window_succ (h.head_lt (by omega))

/-- The slot before `tail` holds the last element. -/
theorem Indices.last_slot (h : Indices n head tail (len + 1)) :
    (if tail = 0 then n - 1 else tail - 1) = (head + len) % n := by
  have hle := h.len_le
  have hn : 0 < n := by omega
  have htail : tail = ((head + len) % n + 1) % n := by
    rw [h.tail_eq hn, Nat.mod_add_mod, Nat.add_assoc]
  have hlast := Nat.mod_lt (head + len) hn
  rcases Nat.lt_or_ge ((head + len) % n + 1) n with hlt | hge
  · rw [Nat.mod_eq_of_lt hlt] at htail
    rw [if_neg (by omega), htail, Nat.add_sub_cancel]
  · have heq : (head + len) % n + 1 = n := by omega
    rw [heq, Nat.mod_self] at htail
    rw [if_pos htail]
    omega

end Ring
