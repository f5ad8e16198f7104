import Mathlib.Data.BitVec
import Mathlib.Data.List.Nodup
import Mathlib.Logic.Function.Basic
import Mathlib.Tactic.Common

/-!
# Save areas

A context switch stores registers to memory by a table of registers and addresses, and loads them back
by the same table.  `save` and `restore` are the two directions for any types of registers, addresses and
words; what one has stored is what the other loads, as long as the memory in between is left alone at
the addresses of the table (`save_of_mem`, `restore_of_mem`, `restore_congr`).

A `Region` of a memory with addresses `BitVec w` is a base and a length; it may wrap around.
-/

namespace SaveArea

variable {A B R W : Type*}

/-! ### Tables of writes -/

section Tables

variable [DecidableEq A]

/-- Write the entries of a table, in order. -/
def write (f : A → B) (table : List (A × B)) : A → B :=
  table.foldl (fun f p => Function.update f p.1 p.2) f

theorem write_nil (f : A → B) : write f [] = f := rfl

theorem write_cons (f : A → B) (p : A × B) (table : List (A × B)) :
    write f (p :: table) = write (Function.update f p.1 p.2) table := rfl

theorem write_of_not_mem {f : A → B} {table : List (A × B)} {a : A}
    (h : a ∉ table.map Prod.fst) : write f table a = f a := by
  induction table generalizing f with
  | nil => rfl
  | cons p table ih =>
      rw [List.map_cons, List.mem_cons, not_or] at h
      rw [write_cons, ih h.2, Function.update_of_ne h.1]

theorem write_of_mem {f : A → B} {table : List (A × B)} {a : A} {b : B}
    (hnd : (table.map Prod.fst).Nodup) (h : (a, b) ∈ table) : write f table a = b := by
  induction table generalizing f with
  | nil => cases h
  | cons p table ih =>
      rw [List.map_cons, List.nodup_cons] at hnd
      rw [write_cons]
      rcases List.mem_cons.mp h with rfl | h
      · rw [write_of_not_mem hnd.1, Function.update_self]
      · exact ih hnd.2 h

end Tables

/-! ### Saving and restoring -/

/-- Store the registers of the table. -/
def save [DecidableEq A] (reg : R → W) (table : List (R × A)) (mem : A → W) : A → W :=
  write mem (table.map fun p => (p.2, reg p.1))

/-- Load the registers of the table. -/
def restore [DecidableEq R] (mem : A → W) (table : List (R × A)) (reg : R → W) : R → W :=
  write reg (table.map fun p => (p.1, mem p.2))

variable {reg reg' : R → W} {mem mem' : A → W} {table : List (R × A)} {r : R} {a : A}

theorem save_of_mem [DecidableEq A] (hnd : (table.map Prod.snd).Nodup) (h : (r, a) ∈ table) :
    save reg table mem a = reg r := by
  refine write_of_mem ?_ (List.mem_map.mpr ⟨(r, a), h, rfl⟩)
  rwa [List.map_map]

theorem save_of_not_mem [DecidableEq A] (h : a ∉ table.map Prod.snd) : save reg table mem a = mem a := by
  refine write_of_not_mem ?_
  rwa [List.map_map]

theorem restore_of_mem [DecidableEq R] (hnd : (table.map Prod.fst).Nodup) (h : (r, a) ∈ table) :
    restore mem table reg r = mem a := by
  refine write_of_mem ?_ (List.mem_map.mpr ⟨(r, a), h, rfl⟩)
  rwa [List.map_map]

theorem restore_of_not_mem [DecidableEq R] (h : r ∉ table.map Prod.fst) :
    restore mem table reg r = reg r := by
  refine write_of_not_mem ?_
  rwa [List.map_map]

/-- Saving reads the registers of the table only. -/
theorem save_congr [DecidableEq A] (h : ∀ p ∈ table, reg p.1 = reg' p.1) :
    save reg table mem = save reg' table mem := by
  rw [save, save, List.map_congr_left fun p hp => by rw [h p hp]]

/-- Restoring reads the memory at the addresses of the table only. -/
theorem restore_congr [DecidableEq R] (h : ∀ p ∈ table, mem p.2 = mem' p.2) :
    restore mem table reg = restore mem' table reg := by
  rw [restore, restore, List.map_congr_left fun p hp => by rw [h p hp]]

/-- The registers of the table are overwritten whatever they held. -/
theorem restore_congr_reg [DecidableEq R] (hnd : (table.map Prod.fst).Nodup)
    (h : ∀ r ∉ table.map Prod.fst, reg r = reg' r) :
    restore mem table reg = restore mem table reg' := by
  funext r
  by_cases hr : r ∈ table.map Prod.fst
  · obtain ⟨⟨r, a⟩, hmem, rfl⟩ := List.mem_map.mp hr
    rw [restore_of_mem hnd hmem, restore_of_mem hnd hmem]
  · rw [restore_of_not_mem hr, restore_of_not_mem hr, h r hr]

/-! ### Regions -/

/-- The `len` bytes from `base` on. -/
structure Region (w : ℕ) where
  base : BitVec w
  len : ℕ
  deriving DecidableEq

namespace Region

variable {w : ℕ} {x y : Region w} {b : BitVec w}

def Holds (x : Region w) (b : BitVec w) : Prop := (b - x.base).toNat < x.len

instance (x : Region w) (b : BitVec w) : Decidable (x.Holds b) := Nat.decLt _ _

/-- No address lies in both. -/
def Disjoint (x y : Region w) : Prop := ∀ b, x.Holds b → ¬ y.Holds b

/-- Every address of `x` lies in `y`. -/
def Within (x y : Region w) : Prop := ∀ b, x.Holds b → y.Holds b

theorem Disjoint.symm (h : x.Disjoint y) : y.Disjoint x := fun b hy hx => h b hx hy

/-- An offset below the length is inside. -/
theorem holds_add {n : ℕ} (hn : n < x.len) : x.Holds (x.base + BitVec.ofNat w n) := by
  have hsub : x.base + BitVec.ofNat w n - x.base = BitVec.ofNat w n := by
    rw [BitVec.add_comm, BitVec.add_sub_cancel]
  rw [Holds, hsub, BitVec.toNat_ofNat]
  exact (Nat.mod_le _ _).trans_lt hn

/-- What starts inside a region and is short enough stays inside. -/
theorem within_of_le (h : (y.base - x.base).toNat + y.len ≤ x.len) : y.Within x := by
  intro b hb
  have hsplit : b - x.base = (b - y.base) + (y.base - x.base) :=
    (sub_add_sub_cancel b y.base x.base).symm
  have hlt := hb
  unfold Holds at hlt ⊢
  rw [hsplit, BitVec.toNat_add]
  exact (Nat.mod_le _ _).trans_lt (by omega)

/-- What lies in a region that is not the whole memory does not reach over its end. -/
theorem le_of_within {b : BitVec w} {n : ℕ} (hn : 0 < n) (hx : x.len < 2 ^ w)
    (h : (⟨b, n⟩ : Region w).Within x) : (b - x.base).toNat + n ≤ x.len := by
  have hzero : (b - x.base).toNat < x.len := by
    have hin := h _ (holds_add (x := ⟨b, n⟩) hn)
    rwa [Holds, BitVec.add_zero] at hin
  by_contra hover
  -- the first address behind the end
  have hin := h _ (holds_add (x := ⟨b, n⟩) (show x.len - (b - x.base).toNat < n by omega))
  have hsplit : b + BitVec.ofNat w (x.len - (b - x.base).toNat) - x.base =
      (b - x.base) + BitVec.ofNat w (x.len - (b - x.base).toNat) :=
    add_sub_right_comm ..
  rw [Holds, hsplit, BitVec.toNat_add, BitVec.toNat_ofNat, Nat.add_mod_mod, Nat.add_sub_of_le hzero.le,
    Nat.mod_eq_of_lt hx] at hin
  exact lt_irrefl _ hin

/-- Two regions neither of which reaches the other's base. -/
theorem disjoint_of_le (hx : x.len ≤ (y.base - x.base).toNat) (hy : y.len ≤ (x.base - y.base).toNat) :
    x.Disjoint y := by
  intro b hb hb'
  have hsplit : b - x.base = (b - y.base) + (y.base - x.base) :=
    (sub_add_sub_cancel b y.base x.base).symm
  have hneg : x.base - y.base = 0#w - (y.base - x.base) := by
    rw [BitVec.zero_sub]
    exact (neg_sub _ _).symm
  have hd := (y.base - x.base).isLt
  unfold Holds at hb hb'
  rw [hneg, BitVec.toNat_sub, BitVec.toNat_ofNat, Nat.zero_mod, Nat.add_zero] at hy
  rw [hsplit, BitVec.toNat_add] at hb
  rcases Nat.eq_zero_or_pos (y.base - x.base).toNat with hz | hpos
  · omega
  · rw [Nat.mod_eq_of_lt (by omega)] at hy
    rw [Nat.mod_eq_of_lt (by omega)] at hb
    omega

end Region

end SaveArea
