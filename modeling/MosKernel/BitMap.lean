import MosKernel.Lib.WordBits

/-!
# Bitmaps

`BitMap<N, W>` of `data_type/bitmap.rs` keeps `N` bits in `W` words of 32 bits, most significant bit first.
`bitmap_type!` makes `W` the number of words that `N` bits need.

`Represents` says that the bits of the words are the elements of a set; the bits behind `N` are in no set.
-/

namespace MosKernel

open WordBits

/-- `BitMap<N, W>` -/
structure BitMap (N W : ℕ) where
  data : ℕ → BitVec 32

/-- The number of words of `bitmap_type!(n)`. -/
abbrev bitmapWords (n : ℕ) : ℕ := (n + 31) / 32

namespace BitMap

variable {N W : ℕ} {m m' : BitMap N W} {S : Finset ℕ} {pos : ℕ}

/-- `BitMap::new` -/
def new : BitMap N W := ⟨fun _ => 0#32⟩

/-- `self.data[index]`, a panic if there is no such word. -/
def word (m : BitMap N W) (index : ℕ) : Option (BitVec 32) :=
  if index < W then some (m.data index) else none

/-- `BitMap::set` -/
def set (m : BitMap N W) (pos : ℕ) : Option (BitMap N W) :=
  if pos < N then
    let index := pos / 32
    let bit := 31 - pos % 32
    (m.word index).map fun word => ⟨Function.update m.data index (word ||| 1#32 <<< bit)⟩
  else some m

/-- `BitMap::reset` -/
def reset (m : BitMap N W) (pos : ℕ) : Option (BitMap N W) :=
  if pos < N then
    let index := pos / 32
    let bit := 31 - pos % 32
    (m.word index).map fun word => ⟨Function.update m.data index (word &&& ~~~(1#32 <<< bit))⟩
  else some m

/-- `BitMap::test` -/
def test (m : BitMap N W) (pos : ℕ) : Option Bool :=
  if pos < N then
    let index := pos / 32
    let bit := 31 - pos % 32
    (m.word index).map fun word => word &&& 1#32 <<< bit ≠ 0#32
  else some false

/-- `BitMap::first_zero` -/
def firstZero (m : BitMap N W) : Option ℕ :=
  (List.range W).findSome? fun i =>
    if m.data i ≠ ~~~0#32 then
      let bit := (~~~m.data i).clz.toNat
      let pos := i * 32 + bit
      if pos < N then some pos else none
    else none

/-- `BitMap::first_one` -/
def firstOne (m : BitMap N W) : Option ℕ :=
  (List.range W).findSome? fun i =>
    if m.data i ≠ 0#32 then
      let bit := (m.data i).clz.toNat
      let pos := i * 32 + bit
      if pos < N then some pos else none
    else none

/-- `BitMap::count_ones` -/
def countOnes (m : BitMap N W) : ℕ :=
  (List.range W).foldl (fun total i => total + (m.data i).cpop.toNat) 0

/-- `BitMap::count_zeros`; `none` if the subtraction underflows. -/
def countZeros (m : BitMap N W) : Option ℕ :=
  if m.countOnes ≤ N then some (N - m.countOnes) else none

/-! ### The set that a bitmap stands for -/

/-- The bits are the elements of `S`, and `S` is a set of positions below `N`. -/
structure Represents (m : BitMap N W) (S : Finset ℕ) : Prop where
  sub : ∀ p ∈ S, p < N
  bits : ∀ p < W * 32, bit m.data p = decide (p ∈ S)

theorem represents_new : (new : BitMap N W).Represents ∅ where
  sub := fun p hp => absurd hp (Finset.notMem_empty p)
  bits := fun _ _ => BitVec.getMsbD_zero

theorem word_eq (hN : N ≤ W * 32) (hpos : pos < N) : m.word (pos / 32) = some (m.data (pos / 32)) :=
  if_pos (Nat.div_lt_of_lt_mul (by omega))

/-- A bit of the word of `pos`. -/
theorem Represents.word (h : m.Represents S) (hN : N ≤ W * 32) (hpos : pos < N) {j : ℕ} (hj : j < 32) :
    (m.data (pos / 32)).getMsbD j = decide (pos / 32 * 32 + j ∈ S) := by
  rw [← bit_at hj]
  have hlt : pos / 32 < W := Nat.div_lt_of_lt_mul (by omega)
  exact h.bits _ (by omega)

/-- One word changes. -/
theorem Represents.update {S' : Finset ℕ} {index : ℕ} {x : BitVec 32} (h : m.Represents S)
    (hsub : ∀ p ∈ S', p < N) (hx : ∀ j < 32, x.getMsbD j = decide (index * 32 + j ∈ S'))
    (hother : ∀ p, p / 32 ≠ index → (p ∈ S' ↔ p ∈ S)) :
    (⟨Function.update m.data index x⟩ : BitMap N W).Represents S' := by
  refine ⟨hsub, fun p hp => ?_⟩
  show (Function.update m.data index x (p / 32)).getMsbD (p % 32) = _
  rw [Function.update_apply]
  split_ifs with hword
  · have hpos : index * 32 + p % 32 = p := by omega
    rw [hx _ (Nat.mod_lt p (by decide)), hpos]
  · exact (h.bits p hp).trans (decide_eq_decide.mpr (hother p hword).symm)

/-- `set` inserts its position, if there is such a bit. -/
theorem Represents.set (h : m.Represents S) (hN : N ≤ W * 32) (pos : ℕ) : ∃ m', m.set pos = some m' ∧
    m'.Represents (if pos < N then insert pos S else S) := by
  rw [BitMap.set]
  split_ifs with hpos
  · dsimp only
    rw [word_eq hN hpos]
    refine ⟨_, rfl, h.update (fun p hp => ?_) (fun j hj => ?_) fun p hword => ?_⟩
    · rcases Finset.mem_insert.mp hp with rfl | hp
      · exact hpos
      · exact h.sub p hp
    · rw [BitVec.getMsbD_or, h.word hN hpos hj, getMsbD_one_shiftLeft (Nat.mod_lt pos (by decide)),
        ← Bool.decide_or, decide_eq_decide, Finset.mem_insert, or_comm]
      exact or_congr_left' fun _ => by omega
    · rw [Finset.mem_insert, or_iff_right fun heq => hword (by rw [heq])]
  · exact ⟨m, rfl, h⟩

/-- `reset` erases its position. -/
theorem Represents.reset (h : m.Represents S) (hN : N ≤ W * 32) (pos : ℕ) : ∃ m', m.reset pos = some m' ∧
    m'.Represents (if pos < N then S.erase pos else S) := by
  rw [BitMap.reset]
  split_ifs with hpos
  · dsimp only
    rw [word_eq hN hpos]
    refine ⟨_, rfl, h.update (fun p hp => h.sub p (Finset.mem_of_mem_erase hp)) (fun j hj => ?_)
      fun p hword => ?_⟩
    · rw [BitVec.getMsbD_and, BitVec.getMsbD_not, h.word hN hpos hj,
        getMsbD_one_shiftLeft (Nat.mod_lt pos (by decide)), decide_eq_true hj, Bool.true_and,
        ← decide_not, ← Bool.decide_and, decide_eq_decide, Finset.mem_erase, and_comm]
      exact and_congr_left' (by omega)
    · rw [Finset.mem_erase, and_iff_right fun heq => hword (by rw [heq])]
  · exact ⟨m, rfl, h⟩

/-- `test` tells whether its position is in the set. -/
theorem Represents.test (h : m.Represents S) (hN : N ≤ W * 32) (pos : ℕ) :
    m.test pos = some (decide (pos ∈ S)) := by
  rw [BitMap.test]
  split_ifs with hpos
  · dsimp only
    have hmod : pos % 32 < 32 := Nat.mod_lt pos (by decide)
    have hdiv : pos / 32 * 32 + pos % 32 = pos := by omega
    rw [word_eq hN hpos, Option.map_some, Option.some.injEq, decide_eq_decide]
    rw [and_one_shiftLeft_ne_zero hmod, h.word hN hpos hmod, hdiv, decide_eq_true_iff]
  · rw [decide_eq_false fun hmem => hpos (h.sub pos hmem)]

/-! ### Searches and counts -/

/-- `first_one` is the search for a set bit. -/
theorem firstOne_eq_search (m : BitMap N W) : m.firstOne = search m.data N W := by
  rw [firstOne, search]
  congr 1
  funext i
  rw [← ite_and]

/-- `first_zero` is the search for a set bit of the complement. -/
theorem firstZero_eq_search (m : BitMap N W) : m.firstZero = search (fun i => ~~~m.data i) N W := by
  rw [firstZero, search]
  congr 1
  funext i
  have hne : m.data i ≠ ~~~0#32 ↔ ~~~m.data i ≠ 0#32 :=
    not_congr ⟨fun h => by rw [h, BitVec.not_not], fun h => by rw [← h, BitVec.not_not]⟩
  rw [if_congr hne rfl rfl]
  dsimp only
  rw [← ite_and]

theorem Represents.ones (h : m.Represents S) (hN : N ≤ W * 32) : ones m.data N W = {p | p ∈ S} := by
  ext p
  constructor
  · rintro ⟨-, hlt, hbit⟩
    rw [h.bits p hlt] at hbit
    exact of_decide_eq_true hbit
  · intro hp
    have hlt := h.sub p hp
    exact ⟨hlt, by omega, by rw [h.bits p (by omega)]; exact decide_eq_true hp⟩

theorem Represents.zeros (h : m.Represents S) (hN : N ≤ W * 32) :
    WordBits.ones (fun i => ~~~m.data i) N W = {p | p < N ∧ p ∉ S} := by
  have hnot : ∀ p, bit (fun i => ~~~m.data i) p = !bit m.data p := by
    intro p
    rw [bit, BitVec.getMsbD_not, decide_eq_true (Nat.mod_lt p (by decide)), Bool.true_and]
    rfl
  ext p
  constructor
  · rintro ⟨hpN, hlt, hbit⟩
    rw [hnot, h.bits p hlt, ← decide_not] at hbit
    exact ⟨hpN, of_decide_eq_true hbit⟩
  · rintro ⟨hpN, hp⟩
    exact ⟨hpN, by omega, by rw [hnot, h.bits p (by omega), ← decide_not]; exact decide_eq_true hp⟩

/-- `count_ones` counts the elements. -/
theorem Represents.countOnes (h : m.Represents S) (hN : N ≤ W * 32) : m.countOnes = S.card := by
  have hsum : ∀ n, (List.range n).foldl (fun total i => total + (m.data i).cpop.toNat) 0 =
      ∑ i ∈ Finset.range n, (m.data i).cpop.toNat := by
    intro n
    induction n with
    | zero => rfl
    | succ n ih => rw [List.range_succ, List.foldl_append, ih, Finset.sum_range_succ]; rfl
  rw [BitMap.countOnes, hsum, sum_cpop]
  congr 1
  ext p
  rw [Finset.mem_filter, Finset.mem_range]
  constructor
  · rintro ⟨hlt, hbit⟩
    rw [h.bits p hlt] at hbit
    exact of_decide_eq_true hbit
  · intro hp
    have hlt := h.sub p hp
    exact ⟨by omega, by rw [h.bits p (by omega)]; exact decide_eq_true hp⟩

theorem Represents.card_le (h : m.Represents S) : S.card ≤ N := by
  have hsub : S ⊆ Finset.range N := fun p hp => Finset.mem_range.mpr (h.sub p hp)
  exact (Finset.card_le_card hsub).trans_eq (Finset.card_range N)

end BitMap

/-- A call that changes a bitmap. -/
inductive BitOp
  | set (pos : ℕ)
  | reset (pos : ℕ)
  deriving DecidableEq

namespace BitOp

variable {N W : ℕ}

/-- What a call does to the bitmap. -/
def run (m : BitMap N W) : BitOp → Option (BitMap N W)
  | set pos => m.set pos
  | reset pos => m.reset pos

/-- What it does to the set of positions below `N`. -/
def apply (N : ℕ) (S : Finset ℕ) : BitOp → Finset ℕ
  | set pos => if pos < N then insert pos S else S
  | reset pos => if pos < N then S.erase pos else S

/-- The calls one after the other. -/
def runAll (m : BitMap N W) : List BitOp → Option (BitMap N W)
  | [] => some m
  | op :: ops => (op.run m).bind fun m => runAll m ops

end BitOp

namespace BitMap

variable {N W : ℕ} {m : BitMap N W} {S : Finset ℕ}

theorem Represents.runAll (h : m.Represents S) (hN : N ≤ W * 32) (ops : List BitOp) :
    ∃ m', BitOp.runAll m ops = some m' ∧ m'.Represents (ops.foldl (BitOp.apply N) S) := by
  induction ops generalizing m S with
  | nil => exact ⟨m, rfl, h⟩
  | cons op ops ih =>
      have hstep : ∃ m', op.run m = some m' ∧ m'.Represents (op.apply N S) := by
        cases op with
        | set pos => exact h.set hN pos
        | reset pos => exact h.reset hN pos
      obtain ⟨m₁, hrun, h₁⟩ := hstep
      obtain ⟨m', hrest, h'⟩ := ih h₁
      exact ⟨m', by rw [BitOp.runAll, hrun, Option.bind_some, hrest], h'⟩

/-- **A bitmap is a set of positions.**  After any calls of `set` and `reset` on a new bitmap, at any
positions below `N` or not, the bitmap behaves as the set `S` that the same calls make: no call and no
question panics, `test` is membership, the searches find the least position in `S` and the least one below
`N` outside it, and the counts are the sizes of `S` and of its complement. -/
theorem bitmap_is_a_set (N : ℕ) (ops : List BitOp) : ∃ m : BitMap N (bitmapWords N),
    BitOp.runAll new ops = some m ∧
    let S := ops.foldl (BitOp.apply N) ∅
    (∀ pos, m.test pos = some (decide (pos ∈ S))) ∧
    (∀ pos, m.firstOne = some pos ↔ IsLeast {p | p ∈ S} pos) ∧ (m.firstOne = none ↔ S = ∅) ∧
    (∀ pos, m.firstZero = some pos ↔ IsLeast {p | p < N ∧ p ∉ S} pos) ∧
    (m.firstZero = none ↔ S = Finset.range N) ∧
    m.countOnes = S.card ∧ m.countZeros = some (N - S.card) := by
  have hN : N ≤ bitmapWords N * 32 := by
    rw [bitmapWords]
    omega
  obtain ⟨m, hrun, h⟩ := represents_new.runAll hN ops
  refine ⟨m, hrun, h.test hN, ?_, ?_, ?_, ?_, h.countOnes hN, ?_⟩
  · intro pos
    rw [firstOne_eq_search, search_eq_some_iff, h.ones hN]
  · rw [firstOne_eq_search, search_eq_none_iff, h.ones hN, Set.eq_empty_iff_forall_notMem,
      Finset.eq_empty_iff_forall_notMem]
    rfl
  · intro pos
    rw [firstZero_eq_search, search_eq_some_iff, h.zeros hN]
  · rw [firstZero_eq_search, search_eq_none_iff, h.zeros hN, Set.eq_empty_iff_forall_notMem]
    constructor
    · intro hall
      ext p
      rw [Finset.mem_range]
      exact ⟨h.sub p, fun hp => by_contra fun hmem => hall p ⟨hp, hmem⟩⟩
    · rintro heq p ⟨hp, hmem⟩
      rw [heq, Finset.mem_range] at hmem
      exact hmem hp
  · rw [countZeros, h.countOnes hN, if_pos h.card_le]

end BitMap

end MosKernel
