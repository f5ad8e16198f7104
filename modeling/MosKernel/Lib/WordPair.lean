import Mathlib.Algebra.Order.Ring.Nat
import Mathlib.Tactic.Common

/-!
# Counters in two words

A counter of `w + n` bits is kept as a low word of `w` bits and the `n` low bits of a high word of the
same width.  `addLow` adds a word to it by hand: the low words are added, a carry goes to the high
word, and the high word is masked to its `n` bits.  Below the wrap of the whole counter this is the
addition of numbers (`val_addLow`).
-/

/-- A high and a low word. -/
structure WordPair (w : ℕ) where
  hi : BitVec w
  lo : BitVec w
  deriving DecidableEq

namespace WordPair

variable {w n : ℕ} {x : WordPair w} {p : BitVec w}

/-- The number that the two words stand for. -/
def val (x : WordPair w) : ℕ := x.hi.toNat * 2 ^ w + x.lo.toNat

/-- Add `p` to the low word and carry into the high word, which has `n` bits. -/
def addLow (n : ℕ) (x : WordPair w) (p : BitVec w) : WordPair w :=
  { lo := x.lo + p
    hi := if BitVec.uaddOverflow x.lo p then (x.hi + 1) &&& BitVec.ofNat w (2 ^ n - 1) else x.hi }

theorem val_addLow (hn : n ≤ w) (h : x.val + p.toNat < 2 ^ (w + n)) :
    (x.addLow n p).val = x.val + p.toNat := by
  have hp := p.isLt
  have hlo := x.lo.isLt
  by_cases hc : x.lo.toNat + p.toNat ≥ 2 ^ w
  · have hnext : (x.hi.toNat + 1) * 2 ^ w ≤ x.val + p.toNat := by
      rw [val, Nat.succ_mul]
      omega
    have hlt : x.hi.toNat + 1 < 2 ^ n := by
      rw [Nat.pow_add, Nat.mul_comm (2 ^ w)] at h
      exact lt_of_mul_lt_mul_right (hnext.trans_lt h) (Nat.zero_le _)
    have hpow : 2 ^ n ≤ 2 ^ w := Nat.pow_le_pow_right Nat.two_pos hn
    have hover : x.lo.uaddOverflow p = true := decide_eq_true hc
    have hmask : ((x.hi + 1) &&& BitVec.ofNat w (2 ^ n - 1)).toNat = x.hi.toNat + 1 := by
      have hone : (1 : BitVec w).toNat = 1 := by
        show 1 % 2 ^ w = 1
        exact Nat.mod_eq_of_lt (by omega)
      rw [BitVec.toNat_and, BitVec.toNat_add, BitVec.toNat_ofNat, hone,
        Nat.mod_eq_of_lt (hlt.trans_le hpow), Nat.mod_eq_of_lt (by omega),
        Nat.and_two_pow_sub_one_eq_mod, Nat.mod_eq_of_lt hlt]
    have hwrap : (x.lo + p).toNat = x.lo.toNat + p.toNat - 2 ^ w := by
      rw [BitVec.toNat_add, Nat.mod_eq_sub_mod hc, Nat.mod_eq_of_lt (by omega)]
    simp only [addLow, val, hover, if_true, hmask, hwrap, Nat.succ_mul]
    omega
  · have hover : x.lo.uaddOverflow p = false := decide_eq_false hc
    have hsum : (x.lo + p).toNat = x.lo.toNat + p.toNat := by
      rw [BitVec.toNat_add, Nat.mod_eq_of_lt (by omega)]
    simp only [addLow, val, hover, Bool.false_eq_true, if_false, hsum]
    omega

end WordPair
