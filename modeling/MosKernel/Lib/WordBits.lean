import Mathlib.Algebra.BigOperators.Intervals
import Mathlib.Data.List.Range
import Mathlib.Order.Bounds.Basic
import Mathlib.Order.Lattice.Nat

/-!
# Bits of an array of words

The bits of the words `f 0, f 1, …` of `w` bits are numbered from the most significant bit of `f 0` on.
`search` looks for the first word that is not zero and counts its leading zeros: it finds the least bit that
is set (`search_eq_some_iff`).  The population counts of the words add up to the number of bits that are set
(`sum_cpop`).
-/

namespace WordBits

variable {w : ℕ} {x : BitVec w} {f : ℕ → BitVec w} {i j n p words : ℕ}

/-- The bit at position `p`. -/
def bit (f : ℕ → BitVec w) (p : ℕ) : Bool := (f (p / w)).getMsbD (p % w)

theorem bit_at (hj : j < w) : bit f (i * w + j) = (f i).getMsbD j := by
  rw [bit, Nat.mul_comm, Nat.mul_add_div (by omega), Nat.div_eq_of_lt hj, Nat.mul_add_mod,
    Nat.mod_eq_of_lt hj, Nat.add_zero]

/-! ### One word -/

theorem clz_lt (hx : x ≠ 0#w) : x.clz.toNat < w := by
  have hlt := BitVec.lt_def.mp (BitVec.clz_lt_iff_ne_zero.mpr hx)
  rw [BitVec.natCast_eq_ofNat, BitVec.toNat_ofNat, Nat.mod_eq_of_lt Nat.lt_two_pow_self] at hlt
  exact hlt

theorem getMsbD_clz (hx : x ≠ 0#w) : x.getMsbD x.clz.toNat = true := by
  have hlt := clz_lt hx
  rw [BitVec.getMsbD_eq_getLsbD, BitVec.getLsbD_true_clz_of_ne_zero (by omega) hx, Bool.and_true]
  exact decide_eq_true hlt

theorem getMsbD_of_lt_clz (hi : i < x.clz.toNat) : x.getMsbD i = false := by
  have hle : x.clz.toNat ≤ w := by
    have hclz := BitVec.le_def.mp (BitVec.clz_le (x := x))
    rwa [BitVec.natCast_eq_ofNat, BitVec.toNat_ofNat, Nat.mod_eq_of_lt Nat.lt_two_pow_self] at hclz
  have hlt : x.toNat < 2 ^ (w - 1 - i) :=
    BitVec.toNat_lt_two_pow_sub_clz.trans_le (Nat.pow_le_pow_right (by decide) (by omega))
  rw [BitVec.getMsbD_eq_getLsbD, ← BitVec.testBit_toNat, Nat.testBit_lt_two_pow hlt, Bool.and_false]

/-- The word with the one bit `i`. -/
theorem getMsbD_one_shiftLeft (hi : i < w) : (1#w <<< (w - 1 - i)).getMsbD j = decide (j = i) := by
  rw [BitVec.getMsbD_shiftLeft, BitVec.getMsbD_one, decide_eq_true (show 0 < w by omega), Bool.and_true]
  exact decide_eq_decide.mpr (by omega)

/-- Masking a word with one bit tells whether it is set. -/
theorem and_one_shiftLeft_ne_zero (hi : i < w) :
    x &&& 1#w <<< (w - 1 - i) ≠ 0#w ↔ x.getMsbD i = true := by
  have hbits : ∀ j, (x &&& 1#w <<< (w - 1 - i)).getMsbD j = (x.getMsbD j && decide (j = i)) := by
    intro j
    rw [BitVec.getMsbD_and, getMsbD_one_shiftLeft hi]
  constructor
  · intro hne
    by_contra hoff
    rw [Bool.not_eq_true] at hoff
    refine hne (BitVec.eq_of_getMsbD_eq fun j _ => ?_)
    rw [hbits, BitVec.getMsbD_zero]
    by_cases hj : j = i
    · rw [hj, hoff, Bool.false_and]
    · rw [decide_eq_false hj, Bool.and_false]
  · intro hon hzero
    have hbit := hbits i
    rw [hzero, BitVec.getMsbD_zero, hon, decide_eq_true rfl] at hbit
    cases hbit

/-- The population count adds up the bits. -/
theorem toNat_cpop_eq_sum (x : BitVec w) :
    x.cpop.toNat = ∑ i ∈ Finset.range w, (x.getMsbD i).toNat := by
  have hrec : ∀ n, x.cpopNatRec n 0 = ∑ i ∈ Finset.range n, (x.getLsbD i).toNat := by
    intro n
    induction n with
    | zero => rfl
    | succ n ih => rw [BitVec.cpopNatRec_succ, BitVec.cpopNatRec_eq, ih, Finset.sum_range_succ, Nat.zero_add]
  rw [BitVec.toNat_cpop, hrec, ← Finset.sum_range_reflect]
  refine Finset.sum_congr rfl fun i hi => ?_
  rw [BitVec.getMsbD_eq_getLsbD, decide_eq_true (Finset.mem_range.mp hi), Bool.true_and]

/-! ### All words -/

/-- **The population counts add up** to the number of bits that are set. -/
theorem sum_cpop (f : ℕ → BitVec w) (words : ℕ) : ∑ i ∈ Finset.range words, (f i).cpop.toNat =
    ((Finset.range (words * w)).filter fun p => bit f p = true).card := by
  rw [Finset.card_filter]
  induction words with
  | zero => rw [Nat.zero_mul]; rfl
  | succ words ih =>
      rw [Finset.sum_range_succ, ih, Nat.succ_mul, Finset.sum_range_add, toNat_cpop_eq_sum]
      congr 1
      refine Finset.sum_congr rfl fun j hj => ?_
      rw [bit_at (Finset.mem_range.mp hj)]
      cases (f words).getMsbD j <;> rfl

/-- The set bits below `n` of the first words. -/
def ones (f : ℕ → BitVec w) (n words : ℕ) : Set ℕ := {p | p < n ∧ p < words * w ∧ bit f p = true}

/-- Word by word, the leading zeros of the first one that is not zero. -/
def search (f : ℕ → BitVec w) (n words : ℕ) : Option ℕ :=
  (List.range words).findSome? fun i =>
    if f i ≠ 0#w ∧ i * w + (f i).clz.toNat < n then some (i * w + (f i).clz.toNat) else none

/-- A set bit that is not in the words before is in the next one, behind its leading zeros. -/
theorem clz_le_of_mem (hp : p ∈ ones f n (words + 1)) (hnew : words * w ≤ p) :
    f words ≠ 0#w ∧ words * w + (f words).clz.toNat ≤ p := by
  obtain ⟨-, hlt, hbit⟩ := hp
  obtain ⟨j, rfl⟩ := Nat.exists_eq_add_of_le hnew
  rw [Nat.succ_mul] at hlt
  rw [bit_at (by omega)] at hbit
  constructor
  · intro hzero
    rw [hzero, BitVec.getMsbD_zero] at hbit
    cases hbit
  · by_contra hlt'
    rw [getMsbD_of_lt_clz (by omega)] at hbit
    cases hbit

theorem search_spec (f : ℕ → BitVec w) (n words : ℕ) :
    (∃ p, search f n words = some p ∧ IsLeast (ones f n words) p) ∨
      search f n words = none ∧ ones f n words = ∅ := by
  induction words with
  | zero =>
      refine .inr ⟨rfl, Set.eq_empty_of_forall_notMem fun p hp => ?_⟩
      have hlt := hp.2.1
      omega
  | succ words ih =>
      have hstep : search f n (words + 1) = (search f n words).or
          (if f words ≠ 0#w ∧ words * w + (f words).clz.toNat < n then
            some (words * w + (f words).clz.toNat) else none) := by
        rw [search, List.range_succ, List.findSome?_append, List.findSome?_singleton]
        rfl
      have hgrows : words * w ≤ (words + 1) * w := Nat.mul_le_mul_right w (Nat.le_succ words)
      rcases ih with ⟨p, hp, ⟨hpn, hpw, hbit⟩, hleast⟩ | ⟨hnone, hempty⟩
      · -- found before
        refine .inl ⟨p, by rw [hstep, hp]; rfl, ⟨hpn, hpw.trans_le hgrows, hbit⟩, fun q hq => ?_⟩
        by_cases hold : q < words * w
        · exact hleast ⟨hq.1, hold, hq.2.2⟩
        · omega
      · have hnew : ∀ q ∈ ones f n (words + 1), words * w ≤ q := by
          intro q hq
          by_contra hold
          have hmem : q ∈ ones f n words := ⟨hq.1, not_le.mp hold, hq.2.2⟩
          rw [hempty] at hmem
          exact hmem
        rw [hstep, hnone, Option.none_or]
        by_cases hfound : f words ≠ 0#w ∧ words * w + (f words).clz.toNat < n
        · have hclz := clz_lt hfound.1
          refine .inl ⟨_, if_pos hfound, ⟨hfound.2, ?_, ?_⟩, fun q hq => (clz_le_of_mem hq (hnew q hq)).2⟩
          · rw [Nat.succ_mul]
            omega
          · rw [bit_at hclz]
            exact getMsbD_clz hfound.1
        · refine .inr ⟨if_neg hfound, Set.eq_empty_of_forall_notMem fun q hq => hfound ?_⟩
          obtain ⟨hne, hle⟩ := clz_le_of_mem hq (hnew q hq)
          exact ⟨hne, hle.trans_lt hq.1⟩

/-- **The search finds the least set bit.** -/
theorem search_eq_some_iff : search f n words = some p ↔ IsLeast (ones f n words) p := by
  rcases search_spec f n words with ⟨q, hq, hleast⟩ | ⟨hnone, hempty⟩
  · rw [hq, Option.some.injEq]
    exact ⟨fun h => h ▸ hleast, fun h => hleast.unique h⟩
  · rw [hnone, hempty]
    exact iff_of_false (by simp) fun h => h.1

theorem search_eq_none_iff : search f n words = none ↔ ones f n words = ∅ := by
  rcases search_spec f n words with ⟨q, hq, hleast⟩ | ⟨hnone, hempty⟩
  · rw [hq]
    exact iff_of_false (by simp) (Set.Nonempty.ne_empty ⟨q, hleast.1⟩)
  · exact iff_of_true hnone hempty

end WordBits
