import Mathlib.Algebra.Order.Ring.Nat
import Mathlib.Data.Multiset.Range
import Mathlib.Logic.Equiv.Basic
import Mathlib.Tactic.Common

/-!
# Binary heaps in an array

The entries of a heap are the first `len` slots of an array; the children of slot `i` are the slots
`2 * i + 1` and `2 * i + 2`.  `siftUp` and `siftDown` move one entry by exchanging it with its parent or
with the smaller of its children, as the comparison `less` says.

Both only rearrange the entries (`siftUp_rearranges`, `siftDown_rearranges`) and read and write none but
the first `len` slots (`siftUpChecked_eq`, `siftDownChecked_eq`), whatever `less` is.  Where
`less` compares keys of a linear order, both repair a heap with one entry out of place
(`ordered_siftUp`, `ordered_siftDown`), and the front of an ordered heap has the least key
(`Ordered.front_le`).
-/

namespace BinaryHeap

variable {α β : Type*} {less : α → α → Bool} {d d' : ℕ → α} {i j idx len : ℕ}

/-! ### The slots -/

def parent (i : ℕ) : ℕ := (i - 1) / 2

@[simp] theorem parent_left (i : ℕ) : parent (2 * i + 1) = i := by
  unfold parent
  omega

@[simp] theorem parent_right (i : ℕ) : parent (2 * i + 2) = i := by
  unfold parent
  omega

theorem parent_lt (h : 0 < i) : parent i < i := by
  unfold parent
  omega

/-- Every slot but the front is the left or the right child of its parent. -/
theorem eq_child_of_parent (h : 0 < i) : i = 2 * parent i + 1 ∨ i = 2 * parent i + 2 := by
  unfold parent
  omega

/-! ### The two moves -/

/-- Exchange two entries. -/
def swap (d : ℕ → α) (i j : ℕ) : ℕ → α := Function.update (Function.update d i (d j)) j (d i)

/-- Exchange the entry in `idx` with its parent until it is no less than its parent. -/
def siftUp (less : α → α → Bool) (d : ℕ → α) (idx : ℕ) : ℕ → α :=
  if _h : 0 < idx then
    if less (d idx) (d (parent idx)) then siftUp less (swap d idx (parent idx)) (parent idx) else d
  else d
termination_by idx
decreasing_by exact parent_lt ‹_›

/-- The least of the entry in `idx` and its children. -/
def smallest (less : α → α → Bool) (d : ℕ → α) (len idx : ℕ) : ℕ :=
  let left := 2 * idx + 1
  let right := 2 * idx + 2
  let s := if left < len ∧ less (d left) (d idx) then left else idx
  if right < len ∧ less (d right) (d s) then right else s

theorem smallest_cases (less : α → α → Bool) (d : ℕ → α) (len idx : ℕ) :
    smallest less d len idx = idx ∨
      idx < smallest less d len idx ∧ smallest less d len idx < len ∧
        parent (smallest less d len idx) = idx := by
  unfold smallest
  dsimp only
  split_ifs with hleft hright hright
  · exact .inr ⟨by omega, hright.1, parent_right idx⟩
  · exact .inr ⟨by omega, hleft.1, parent_left idx⟩
  · exact .inr ⟨by omega, hright.1, parent_right idx⟩
  · exact .inl rfl

/-- Exchange the entry in `idx` with the smaller of its children until it is no greater than them. -/
def siftDown (less : α → α → Bool) (d : ℕ → α) (len idx : ℕ) : ℕ → α :=
  if _h : smallest less d len idx ≠ idx then
    siftDown less (swap d idx (smallest less d len idx)) len (smallest less d len idx)
  else d
termination_by len - idx
decreasing_by
  have := (smallest_cases less d len idx).resolve_left ‹_›
  omega

/-! ### Rearrangements -/

/-- `d'` has the entries of `d` in another order. -/
def Rearranges (len : ℕ) (d d' : ℕ → α) : Prop :=
  ∃ e : Equiv.Perm ℕ, (∀ i, e i < len ↔ i < len) ∧ d' = d ∘ e

theorem Rearranges.refl (len : ℕ) (d : ℕ → α) : Rearranges len d d :=
  ⟨Equiv.refl ℕ, fun _ => Iff.rfl, rfl⟩

theorem Rearranges.trans {d'' : ℕ → α} (h : Rearranges len d d') (h' : Rearranges len d' d'') :
    Rearranges len d d'' := by
  obtain ⟨e, he, rfl⟩ := h
  obtain ⟨e', he', rfl⟩ := h'
  exact ⟨e'.trans e, fun i => (he _).trans (he' i), rfl⟩

theorem rearranges_swap (d : ℕ → α) (hi : i < len) (hj : j < len) : Rearranges len d (swap d i j) := by
  refine ⟨Equiv.swap j i, fun k => ?_, ?_⟩
  · rw [Equiv.swap_apply_def]
    split_ifs <;> omega
  · rw [Equiv.comp_swap_eq_update]
    rfl

/-- A rearrangement has the same entries. -/
theorem Rearranges.exists_iff (h : Rearranges len d d') (P : α → Prop) :
    (∃ i < len, P (d' i)) ↔ ∃ i < len, P (d i) := by
  obtain ⟨e, he, rfl⟩ := h
  constructor
  · rintro ⟨i, hi, hp⟩
    exact ⟨e i, (he i).mpr hi, hp⟩
  · rintro ⟨i, hi, hp⟩
    refine ⟨e.symm i, ?_, ?_⟩
    · rw [← he, Equiv.apply_symm_apply]
      exact hi
    · show P (d (e (e.symm i)))
      rw [Equiv.apply_symm_apply]
      exact hp

theorem siftUp_rearranges (hidx : idx < len) : Rearranges len d (siftUp less d idx) := by
  induction d, idx using siftUp.induct less with
  | case1 d idx hpos hless ih =>
      have hp := (parent_lt hpos).trans hidx
      rw [siftUp, dif_pos hpos, if_pos hless]
      exact (rearranges_swap d hidx hp).trans (ih hp)
  | case2 d idx hpos hless =>
      rw [siftUp, dif_pos hpos, if_neg hless]
      exact .refl len d
  | case3 d idx hpos =>
      rw [siftUp, dif_neg hpos]
      exact .refl len d

theorem siftDown_rearranges (hidx : idx < len) : Rearranges len d (siftDown less d len idx) := by
  induction d, idx using siftDown.induct less len with
  | case1 d idx hne ih =>
      have hs := ((smallest_cases less d len idx).resolve_left hne).2.1
      rw [siftDown, dif_pos hne]
      exact (rearranges_swap d hidx hs).trans (ih hs)
  | case2 d idx hne =>
      rw [siftDown, dif_neg hne]
      exact .refl len d

/-- A rearrangement has every entry as often. -/
theorem Rearranges.map_range (h : Rearranges len d d') :
    (Multiset.range len).map d' = (Multiset.range len).map d := by
  obtain ⟨e, he, rfl⟩ := h
  have hperm : (Multiset.range len).map e = Multiset.range len := by
    apply (Multiset.Nodup.ext ((Multiset.nodup_range len).map e.injective)
      (Multiset.nodup_range len)).mpr
    intro i
    rw [Multiset.mem_map, Multiset.mem_range]
    constructor
    · rintro ⟨j, hj, rfl⟩
      exact (he j).mpr (Multiset.mem_range.mp hj)
    · intro hi
      refine ⟨e.symm i, ?_, e.apply_symm_apply i⟩
      rw [Multiset.mem_range, ← he, Equiv.apply_symm_apply]
      exact hi
  rw [← Multiset.map_map, hperm]

/-! ### Bounds

The two moves once more, with every access checked to be to one of the first `len` slots. -/

def readSlot (len : ℕ) (d : ℕ → α) (i : ℕ) : Option α := if i < len then some (d i) else none

def writeSlot (len : ℕ) (d : ℕ → α) (i : ℕ) (a : α) : Option (ℕ → α) :=
  if i < len then some (Function.update d i a) else none

theorem readSlot_of_lt (h : i < len) : readSlot len d i = some (d i) := if_pos h

theorem writeSlot_of_lt {a : α} (h : i < len) : writeSlot len d i a = some (Function.update d i a) :=
  if_pos h

def swapChecked (len : ℕ) (d : ℕ → α) (i j : ℕ) : Option (ℕ → α) :=
  (readSlot len d i).bind fun a => (readSlot len d j).bind fun b =>
    (writeSlot len d i b).bind fun d => writeSlot len d j a

theorem swapChecked_eq (hi : i < len) (hj : j < len) : swapChecked len d i j = some (swap d i j) := by
  simp only [swapChecked, readSlot_of_lt hi, readSlot_of_lt hj, writeSlot_of_lt hi, writeSlot_of_lt hj,
    Option.bind_some]
  rfl

def siftUpChecked (less : α → α → Bool) (len : ℕ) (d : ℕ → α) (idx : ℕ) : Option (ℕ → α) :=
  if _h : 0 < idx then
    (readSlot len d idx).bind fun a => (readSlot len d (parent idx)).bind fun p =>
      if less a p then
        (swapChecked len d idx (parent idx)).bind fun d => siftUpChecked less len d (parent idx)
      else some d
  else some d
termination_by idx
decreasing_by exact parent_lt ‹_›

/-- `siftUp` from a slot below `len` stays below `len`. -/
theorem siftUpChecked_eq (hidx : idx < len) :
    siftUpChecked less len d idx = some (siftUp less d idx) := by
  induction d, idx using siftUp.induct less with
  | case1 d idx hpos hless ih =>
      have hp := (parent_lt hpos).trans hidx
      rw [siftUpChecked, dif_pos hpos, readSlot_of_lt hidx, readSlot_of_lt hp, siftUp, dif_pos hpos,
        if_pos hless]
      show (if less (d idx) (d (parent idx)) then _ else _) = _
      rw [if_pos hless, swapChecked_eq hidx hp]
      exact ih hp
  | case2 d idx hpos hless =>
      have hp := (parent_lt hpos).trans hidx
      rw [siftUpChecked, dif_pos hpos, readSlot_of_lt hidx, readSlot_of_lt hp, siftUp, dif_pos hpos,
        if_neg hless]
      show (if less (d idx) (d (parent idx)) then _ else _) = _
      rw [if_neg hless]
  | case3 d idx hpos =>
      rw [siftUpChecked, dif_neg hpos, siftUp, dif_neg hpos]

/-- The slot `child` instead of `s` if it is in use and has the lesser entry. -/
def lesserChecked (less : α → α → Bool) (len : ℕ) (d : ℕ → α) (s child : ℕ) : Option ℕ :=
  if child < len then
    (readSlot len d s).bind fun a => (readSlot len d child).bind fun c =>
      some (if less c a then child else s)
  else some s

theorem lesserChecked_eq {s child : ℕ} (hs : s < len) : lesserChecked less len d s child =
    some (if child < len ∧ less (d child) (d s) then child else s) := by
  by_cases hc : child < len
  · rw [lesserChecked, if_pos hc, readSlot_of_lt hs, readSlot_of_lt hc]
    simp [hc]
  · rw [lesserChecked, if_neg hc, if_neg fun h => hc h.1]

def smallestChecked (less : α → α → Bool) (len : ℕ) (d : ℕ → α) (idx : ℕ) : Option ℕ :=
  (lesserChecked less len d idx (2 * idx + 1)).bind fun s =>
    lesserChecked less len d s (2 * idx + 2)

theorem smallestChecked_eq (hidx : idx < len) :
    smallestChecked less len d idx = some (smallest less d len idx) := by
  have hleft : (if 2 * idx + 1 < len ∧ less (d (2 * idx + 1)) (d idx) then 2 * idx + 1 else idx) < len := by
    split_ifs with hc
    · exact hc.1
    · exact hidx
  rw [smallestChecked, lesserChecked_eq hidx]
  exact lesserChecked_eq hleft

theorem lesserChecked_cases {s s' child : ℕ} (h : lesserChecked less len d s child = some s') :
    s' = s ∨ s' = child ∧ child < len := by
  by_cases hc : child < len
  · rw [lesserChecked, if_pos hc] at h
    obtain ⟨a, -, h⟩ := Option.bind_eq_some_iff.mp h
    obtain ⟨c, -, h⟩ := Option.bind_eq_some_iff.mp h
    replace h := Option.some.inj h
    split_ifs at h
    · exact .inr ⟨h.symm, hc⟩
    · exact .inl h.symm
  · rw [lesserChecked, if_neg hc] at h
    exact .inl (Option.some.inj h).symm

theorem smallestChecked_cases {s : ℕ} (h : smallestChecked less len d idx = some s) :
    s = idx ∨ idx < s ∧ s < len := by
  obtain ⟨l, hl, hs⟩ := Option.bind_eq_some_iff.mp h
  have hleft := lesserChecked_cases hl
  have hright := lesserChecked_cases hs
  omega

def siftDownChecked (less : α → α → Bool) (len : ℕ) (d : ℕ → α) (idx : ℕ) : Option (ℕ → α) :=
  match _h : smallestChecked less len d idx with
  | none => none
  | some s =>
    if _hs : s ≠ idx then (swapChecked len d idx s).bind fun d => siftDownChecked less len d s
    else some d
termination_by len - idx
decreasing_by
  have := (smallestChecked_cases ‹_›).resolve_left ‹_›
  omega

/-- `siftDown` from a slot below `len` stays below `len`. -/
theorem siftDownChecked_eq (hidx : idx < len) :
    siftDownChecked less len d idx = some (siftDown less d len idx) := by
  induction d, idx using siftDown.induct less len with
  | case1 d idx hne ih =>
      have hs := ((smallest_cases less d len idx).resolve_left hne).2.1
      rw [siftDownChecked, siftDown, dif_pos hne]
      split
      · next hsm =>
          rw [smallestChecked_eq hidx] at hsm
          cases hsm
      · next s hsm =>
          rw [smallestChecked_eq hidx, Option.some.injEq] at hsm
          subst hsm
          rw [dif_pos hne, swapChecked_eq hidx hs]
          exact ih hs
  | case2 d idx hne =>
      rw [siftDownChecked, siftDown, dif_neg hne]
      split
      · next hsm =>
          rw [smallestChecked_eq hidx] at hsm
          cases hsm
      · next s hsm =>
          rw [smallestChecked_eq hidx, Option.some.injEq] at hsm
          subst hsm
          rw [dif_neg hne]

/-! ### Order -/

section Order

variable [LinearOrder β] {key : α → β}

/-- No entry has a smaller key than its parent. -/
def Ordered (key : α → β) (d : ℕ → α) (len : ℕ) : Prop :=
  ∀ i, 0 < i → i < len → key (d (parent i)) ≤ key (d i)

/-- On the entries of `d`, `less` compares keys. -/
def Compares (less : α → α → Bool) (key : α → β) (d : ℕ → α) (len : ℕ) : Prop :=
  ∀ i < len, ∀ j < len, less (d i) (d j) = true ↔ key (d i) < key (d j)

/-- The children of `idx` are in order with the parent of `idx`. -/
def Bridged (key : α → β) (d : ℕ → α) (len idx : ℕ) : Prop :=
  0 < idx → ∀ i, 0 < i → i < len → parent i = idx → key (d (parent idx)) ≤ key (d i)

theorem Compares.rearranges (h : Compares less key d len) (hr : Rearranges len d d') :
    Compares less key d' len := by
  obtain ⟨e, he, rfl⟩ := hr
  intro i hi j hj
  exact h (e i) ((he i).mpr hi) (e j) ((he j).mpr hj)

/-- The front of an ordered heap has the least key. -/
theorem Ordered.front_le (h : Ordered key d len) (hi : i < len) : key (d 0) ≤ key (d i) := by
  induction i using Nat.strongRecOn with
  | ind i ih =>
      by_cases hpos : 0 < i
      · have hp := parent_lt hpos
        exact (ih (parent i) hp (hp.trans hi)).trans (h i hpos hi)
      · rw [Nat.eq_zero_of_not_pos hpos]

theorem swap_left (d : ℕ → α) (i j : ℕ) (h : i ≠ j) : swap d i j i = d j := by
  rw [swap, Function.update_of_ne h, Function.update_self]

theorem swap_right (d : ℕ → α) (i j : ℕ) : swap d i j j = d i := Function.update_self _ _ _

theorem swap_of_ne {k : ℕ} (d : ℕ → α) (hi : k ≠ i) (hj : k ≠ j) : swap d i j k = d k := by
  rw [swap, Function.update_of_ne hj, Function.update_of_ne hi]

/-- The heap is in order but for the entry in `idx`, which may belong further up. -/
structure UpOrder (key : α → β) (d : ℕ → α) (len idx : ℕ) : Prop where
  except : ∀ i, 0 < i → i < len → i ≠ idx → key (d (parent i)) ≤ key (d i)
  bridged : Bridged key d len idx

/-- Exchanging an entry with its greater parent moves the place that is out of order up. -/
theorem UpOrder.swap (h : UpOrder key d len idx) (hpos : 0 < idx) (hidx : idx < len)
    (hlt : key (d idx) < key (d (parent idx))) :
    UpOrder key (BinaryHeap.swap d idx (parent idx)) len (parent idx) := by
  have hp : parent idx < idx := parent_lt hpos
  have hleft := swap_left d idx (parent idx) hp.ne'
  have hright := swap_right d idx (parent idx)
  constructor
  · intro i hi hil hip
    by_cases hidx' : i = idx
    · rw [hidx', hleft, hright]
      exact hlt.le
    · have hkey : BinaryHeap.swap d idx (parent idx) i = d i := swap_of_ne d hidx' hip
      have hup := h.except i hi hil hidx'
      rw [hkey]
      by_cases hchild : parent i = idx
      · rw [hchild, hleft]
        exact h.bridged hpos i hi hil hchild
      · by_cases hsib : parent i = parent idx
        · rw [hsib] at hup ⊢
          rw [hright]
          exact hlt.le.trans hup
        · rw [swap_of_ne d hchild hsib]
          exact hup
  · intro hpp i hi hil hip
    have hgrand : parent (parent idx) < parent idx := parent_lt hpp
    have htop := h.except (parent idx) hpp (hp.trans hidx) hp.ne
    rw [swap_of_ne d (by omega) hgrand.ne]
    by_cases hidx' : i = idx
    · rw [hidx', hleft]
      exact htop
    · have hup := h.except i hi hil hidx'
      have hne : i ≠ parent idx := by
        rintro rfl
        omega
      rw [swap_of_ne d hidx' hne]
      rw [hip] at hup
      exact htop.trans hup

/-- A new entry behind a heap. -/
theorem Ordered.append (h : Ordered key d len) (a : α) :
    UpOrder key (Function.update d len a) (len + 1) len := by
  constructor
  · intro i hi hil hne
    have hp := parent_lt hi
    rw [Function.update_of_ne (by omega), Function.update_of_ne hne]
    exact h i hi (by omega)
  · intro _ i hi hil hp
    have hlt := parent_lt hi
    omega

theorem ordered_siftUp (hless : Compares less key d len) (h : UpOrder key d len idx)
    (hidx : idx < len) : Ordered key (siftUp less d idx) len := by
  induction d, idx using siftUp.induct less with
  | case1 d idx hpos hlt ih =>
      have hp := (parent_lt hpos).trans hidx
      rw [siftUp, dif_pos hpos, if_pos hlt]
      exact ih (hless.rearranges (rearranges_swap d hidx hp))
        (h.swap hpos hidx ((hless idx hidx _ hp).mp hlt)) hp
  | case2 d idx hpos hlt =>
      rw [siftUp, dif_pos hpos, if_neg hlt]
      have hp := (parent_lt hpos).trans hidx
      rw [hless idx hidx _ hp, not_lt] at hlt
      intro i hi hil
      by_cases he : i = idx
      · rw [he]
        exact hlt
      · exact h.except i hi hil he
  | case3 d idx hpos =>
      rw [siftUp, dif_neg hpos]
      intro i hi hil
      exact h.except i hi hil (by omega)

/-- The heap is in order but for the entry in `idx`, which may belong further down. -/
structure DownOrder (key : α → β) (d : ℕ → α) (len idx : ℕ) : Prop where
  except : ∀ i, 0 < i → i < len → parent i ≠ idx → key (d (parent i)) ≤ key (d i)
  bridged : Bridged key d len idx

/-- The last entry of a heap in the place of the front. -/
theorem Ordered.moveLast (h : Ordered key d len) :
    DownOrder key (Function.update d 0 (d (len - 1))) (len - 1) 0 := by
  constructor
  · intro i hi hil hp
    rw [Function.update_of_ne hp, Function.update_of_ne hi.ne']
    exact h i hi (by omega)
  · intro hpos
    exact absurd hpos (Nat.lt_irrefl 0)

/-- `smallest` has the least key of the three. -/
theorem smallest_le (hless : Compares less key d len) (hidx : idx < len) :
    key (d (smallest less d len idx)) ≤ key (d idx) ∧
      ∀ i, 0 < i → i < len → parent i = idx → key (d (smallest less d len idx)) ≤ key (d i) := by
  set s := if 2 * idx + 1 < len ∧ less (d (2 * idx + 1)) (d idx) then 2 * idx + 1 else idx with hs
  have hslen : s < len := by
    rw [hs]
    split_ifs with hc
    · exact hc.1
    · exact hidx
  have hsidx : key (d s) ≤ key (d idx) := by
    rw [hs]
    split_ifs with hc
    · exact ((hless _ hc.1 _ hidx).mp hc.2).le
    · exact le_rfl
  have hsleft : 2 * idx + 1 < len → key (d s) ≤ key (d (2 * idx + 1)) := by
    intro hl
    rw [hs]
    split_ifs with hc
    · exact le_rfl
    · rw [not_and, hless _ hl _ hidx, not_lt] at hc
      exact hc hl
  have hsm : smallest less d len idx =
      if 2 * idx + 2 < len ∧ less (d (2 * idx + 2)) (d s) then 2 * idx + 2 else s := rfl
  have hms : key (d (smallest less d len idx)) ≤ key (d s) := by
    rw [hsm]
    split_ifs with hc
    · exact ((hless _ hc.1 _ hslen).mp hc.2).le
    · exact le_rfl
  have hmright : 2 * idx + 2 < len → key (d (smallest less d len idx)) ≤ key (d (2 * idx + 2)) := by
    intro hl
    rw [hsm]
    split_ifs with hc
    · exact le_rfl
    · rw [not_and, hless _ hl _ hslen, not_lt] at hc
      exact hc hl
  refine ⟨hms.trans hsidx, fun i hi hil hp => ?_⟩
  rcases eq_child_of_parent hi with he | he
  · rw [hp] at he
    rw [he] at hil ⊢
    exact hms.trans (hsleft hil)
  · rw [hp] at he
    rw [he] at hil ⊢
    exact hmright hil

/-- Exchanging an entry with its least child moves the place that is out of order down. -/
theorem DownOrder.swap {s : ℕ} (h : DownOrder key d len idx) (hlt : idx < s) (hp : parent s = idx)
    (hs : s < len) (hle : key (d s) ≤ key (d idx))
    (hmin : ∀ i, 0 < i → i < len → parent i = idx → key (d s) ≤ key (d i)) :
    DownOrder key (BinaryHeap.swap d idx s) len s := by
  have hleft := swap_left d idx s hlt.ne
  have hright := swap_right d idx s
  constructor
  · intro i hi hil hne
    by_cases hchild : parent i = idx
    · rw [hchild, hleft]
      by_cases his : i = s
      · rw [his, hright]
        exact hle
      · have hup := parent_lt hi
        rw [swap_of_ne d (by omega) his]
        exact hmin i hi hil hchild
    · rw [swap_of_ne d hchild hne]
      by_cases hidx : i = idx
      · rw [hidx, hleft]
        rw [hidx] at hi
        exact h.bridged hi s (by omega) hs hp
      · have his : i ≠ s := by
          rintro rfl
          exact hchild hp
        rw [swap_of_ne d hidx his]
        exact h.except i hi hil hchild
  · intro _ i hi hil hip
    have hup := parent_lt hi
    rw [hp, hleft, swap_of_ne d (by omega) (by omega), ← hip]
    exact h.except i hi hil (by omega)

theorem ordered_siftDown (hless : Compares less key d len) (h : DownOrder key d len idx)
    (hidx : idx < len) : Ordered key (siftDown less d len idx) len := by
  induction d, idx using siftDown.induct less len with
  | case1 d idx hne ih =>
      obtain ⟨hlt, hs, hp⟩ := (smallest_cases less d len idx).resolve_left hne
      obtain ⟨hle, hmin⟩ := smallest_le hless hidx
      rw [siftDown, dif_pos hne]
      exact ih (hless.rearranges (rearranges_swap d hidx hs)) (h.swap hlt hp hs hle hmin) hs
  | case2 d idx hne =>
      rw [siftDown, dif_neg hne]
      have hmin := (smallest_le hless hidx).2
      rw [not_not.mp hne] at hmin
      intro i hi hil
      by_cases hchild : parent i = idx
      · rw [hchild]
        exact hmin i hi hil hchild
      · exact h.except i hi hil hchild

end Order

end BinaryHeap
