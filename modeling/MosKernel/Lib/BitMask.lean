import Mathlib.Data.BitVec
import Mathlib.Tactic.Common

/-!
# Setting and clearing bits of a register

`(v ||| s) &&& ~~~c` sets the bits of the mask `s` and clears those of the mask `c`.  The lemmas read the
two masks back, and say that a bit outside them keeps its value.
-/

namespace BitMask

variable {w : ℕ} {v s c m : BitVec w}

theorem clear_and_clear : (v &&& ~~~c) &&& c = 0#w := by
  rw [BitVec.and_assoc, BitVec.not_and_self]
  exact BitVec.and_zero

theorem set_and_set : (v ||| s) &&& s = s := by
  refine BitVec.eq_of_getLsbD_eq fun i _ => ?_
  rw [BitVec.getLsbD_and, BitVec.getLsbD_or]
  cases s.getLsbD i with
  | false => rw [Bool.and_false]
  | true => rw [Bool.or_true, Bool.true_and]

/-- Setting `s` does not change the bits of a mask apart from `s`. -/
theorem set_and_of_disjoint (h : s &&& m = 0#w) : (v ||| s) &&& m = v &&& m := by
  refine BitVec.eq_of_getLsbD_eq fun i _ => ?_
  have hbit : (s.getLsbD i && m.getLsbD i) = false := by
    rw [← BitVec.getLsbD_and, h, BitVec.getLsbD_zero]
  rw [BitVec.getLsbD_and, BitVec.getLsbD_or, BitVec.getLsbD_and, Bool.and_or_distrib_right, hbit,
    Bool.or_false]

/-- Clearing `c` does not change the bits of a mask apart from `c`. -/
theorem clear_and_of_disjoint (h : c &&& m = 0#w) : (v &&& ~~~c) &&& m = v &&& m := by
  refine BitVec.eq_of_getLsbD_eq fun i hi => ?_
  have hbit : (c.getLsbD i && m.getLsbD i) = false := by
    rw [← BitVec.getLsbD_and, h, BitVec.getLsbD_zero]
  simp only [BitVec.getLsbD_and, BitVec.getLsbD_not, decide_eq_true hi, Bool.true_and]
  cases hm : m.getLsbD i with
  | false => rw [Bool.and_false, Bool.and_false]
  | true =>
      rw [hm, Bool.and_true] at hbit
      rw [hbit]
      simp

theorem set_clear_and_set (h : c &&& s = 0#w) : ((v ||| s) &&& ~~~c) &&& s = s :=
  (clear_and_of_disjoint h).trans set_and_set

/-- Two different bits. -/
theorem bit_and_bit {i j : ℕ} (h : i ≠ j) : (1#w <<< i) &&& (1#w <<< j) = 0#w := by
  refine BitVec.eq_of_getLsbD_eq fun n hn => ?_
  simp only [BitVec.getLsbD_and, BitVec.getLsbD_shiftLeft, BitVec.getLsbD_one, BitVec.getLsbD_zero,
    Bool.and_eq_false_imp, Bool.and_eq_true, Bool.not_eq_true', decide_eq_true_eq, decide_eq_false_iff_not]
  omega

end BitMask
