import MosKernel.Lib.OrderedInsert
import Mathlib.Data.List.Nodup

/-!
# Stable priority lists

`StableSorted key arrivals l` says that `l` is the list `arrivals`, sorted by a key without moving elements
of equal key past each other.  Insertion in order is an arrival at the end, a removal is a removal from
both, and the head of `l` is the first arrival with the least key: a list kept so is a stable priority
queue.
-/

namespace OrderedInsert

variable {α β : Type*} [LinearOrder β] {key : α → β} {x : α} {l arrivals : List α}

/-- `l` is sorted, and elements of equal key have the order in which they arrived. -/
structure StableSorted (key : α → β) (arrivals l : List α) : Prop where
  sorted : l.Pairwise fun a b => key a ≤ key b
  stable : ∀ q, (l.filter fun a => key a = q) = arrivals.filter fun a => key a = q

/-- Put `x` in front of the first element with a greater key, or at the end. -/
abbrev insertByKey (key : α → β) (x : α) (l : List α) : List α :=
  insertBefore (fun a => decide (key x < key a)) x l

/-- The first element with the least key. -/
def firstLeast (key : α → β) (l : List α) : Option α :=
  l.find? fun a => l.all fun b => key a ≤ key b

theorem stableSorted_self (h : l.Pairwise fun a b => key a ≤ key b) : StableSorted key l l :=
  ⟨h, fun _ => rfl⟩

/-- The new element comes last among those of its key. -/
theorem filter_insertByKey (h : l.Pairwise fun a b => key a ≤ key b) (q : β) :
    ((insertByKey key x l).filter fun a => key a = q) =
      (l.filter fun a => key a = q) ++ [x].filter fun a => key a = q := by
  induction l with
  | nil => rfl
  | cons b l ih =>
      rw [List.pairwise_cons] at h
      rw [insertByKey, insertBefore_cons]
      by_cases hb : key x < key b
      · -- everything from `b` on has a greater key than `x`
        rw [if_pos (decide_eq_true hb)]
        by_cases hq : key x = q
        · have hnone : (b :: l).filter (fun a => key a = q) = [] := by
            rw [List.filter_eq_nil_iff]
            intro a ha
            rw [decide_eq_true_iff]
            rcases List.mem_cons.mp ha with rfl | ha
            · exact fun he => (hq ▸ he ▸ hb).false
            · exact fun he => (hb.trans_le ((h.1 a ha).trans_eq (he.trans hq.symm))).false
          rw [List.filter_cons, if_pos (decide_eq_true hq), hnone, List.filter_cons,
            if_pos (decide_eq_true hq)]
          rfl
        · have hx : ¬decide (key x = q) = true := fun he => hq (of_decide_eq_true he)
          rw [List.filter_cons, if_neg hx, List.filter_singleton, decide_eq_false hq, cond_false,
            List.append_nil]
      · rw [if_neg (fun he => hb (of_decide_eq_true he)), List.filter_cons, List.filter_cons, ih h.2]
        split_ifs <;> rfl

/-- In a sorted list the new element goes behind everything with a key up to its own. -/
theorem insertByKey_eq_append (h : l.Pairwise fun a b => key a ≤ key b) (x : α) :
    ∃ xs ys, l = xs ++ ys ∧ insertByKey key x l = xs ++ x :: ys ∧
      (∀ a ∈ xs, key a ≤ key x) ∧ ∀ a ∈ ys, key x < key a := by
  induction l with
  | nil => exact ⟨[], [], rfl, rfl, List.forall_mem_nil _, List.forall_mem_nil _⟩
  | cons b l ih =>
      rw [List.pairwise_cons] at h
      rw [insertByKey, insertBefore_cons]
      by_cases hb : key x < key b
      · rw [if_pos (decide_eq_true hb)]
        refine ⟨[], b :: l, rfl, rfl, List.forall_mem_nil _, List.forall_mem_cons.mpr ⟨hb, fun a ha => ?_⟩⟩
        exact hb.trans_le (h.1 a ha)
      · rw [if_neg (fun he => hb (of_decide_eq_true he))]
        obtain ⟨xs, ys, rfl, hins, hxs, hys⟩ := ih h.2
        refine ⟨b :: xs, ys, rfl, ?_, List.forall_mem_cons.mpr ⟨not_lt.mp hb, hxs⟩, hys⟩
        exact congrArg (b :: ·) hins

/-- Insertions do not move the old elements. -/
theorem sublist_foldl_insertByKey (key : α → β) (xs l : List α) :
    l.Sublist (xs.foldl (fun l x => insertByKey key x l) l) := by
  induction xs generalizing l with
  | nil => exact List.Sublist.refl l
  | cons x xs ih => exact (sublist_insertBefore _ x l).trans (ih _)

namespace StableSorted

/-- **An insertion is an arrival.** -/
theorem insert (h : StableSorted key arrivals l) (x : α) :
    StableSorted key (arrivals ++ [x]) (insertByKey key x l) :=
  ⟨pairwise_insertBefore h.sorted, fun q => by
    rw [filter_insertByKey h.sorted, h.stable, List.filter_append]⟩

theorem insertAll (h : StableSorted key arrivals l) (xs : List α) :
    StableSorted key (arrivals ++ xs) (xs.foldl (fun l x => insertByKey key x l) l) := by
  induction xs generalizing arrivals l with
  | nil => rwa [List.append_nil]
  | cons x xs ih =>
      have hrest := ih (h.insert x)
      rwa [List.append_assoc, List.singleton_append] at hrest

variable [DecidableEq α]

theorem perm (h : StableSorted key arrivals l) : l.Perm arrivals := by
  rw [List.perm_iff_count]
  intro a
  have hcount : ∀ xs : List α, xs.count a = (xs.filter fun b => key b = key a).count a :=
    fun xs => (List.count_filter (by simp)).symm
  rw [hcount l, h.stable, ← hcount arrivals]

/-- **A removal is a removal of the arrival.** -/
theorem erase (h : StableSorted key arrivals l) (hn : l.Nodup) (x : α) :
    StableSorted key (arrivals.erase x) (l.erase x) := by
  refine ⟨h.sorted.sublist List.erase_sublist, fun q => ?_⟩
  rw [hn.erase_eq_filter, (h.perm.nodup_iff.mp hn).erase_eq_filter, List.filter_comm, h.stable,
    List.filter_comm]

/-- **The head is the first arrival with the least key.** -/
theorem head?_eq (h : StableSorted key arrivals l) : l.head? = firstLeast key arrivals := by
  cases l with
  | nil =>
      rw [List.nil_perm.mp h.perm]
      rfl
  | cons x l =>
      have hleast : ∀ a ∈ arrivals, key x ≤ key a := by
        intro a ha
        rcases List.mem_cons.mp (h.perm.mem_iff.mpr ha) with rfl | hal
        · exact le_rfl
        · exact (List.pairwise_cons.mp h.sorted).1 a hal
      have hx : x ∈ arrivals := h.perm.mem_iff.mp List.mem_cons_self
      have htest : ∀ a ∈ arrivals,
          (arrivals.all fun b => decide (key a ≤ key b)) = decide (key a = key x) := by
        intro a ha
        rw [Bool.eq_iff_iff, List.all_eq_true, decide_eq_true_iff]
        constructor
        · intro hall
          exact le_antisymm (of_decide_eq_true (hall x hx)) (hleast a ha)
        · intro heq b hb
          exact decide_eq_true (heq ▸ hleast b hb)
      rw [firstLeast, ← List.head?_filter, List.filter_congr htest, ← h.stable (key x),
        List.filter_cons, if_pos (decide_eq_true rfl)]
      rfl

/-- **Taking the head is removing the first arrival with the least key.** -/
theorem tail (h : StableSorted key arrivals l) (hn : l.Nodup) :
    StableSorted key ((firstLeast key arrivals).elim arrivals arrivals.erase) l.tail := by
  rw [← h.head?_eq]
  cases l with
  | nil => exact h
  | cons x l =>
      have herase := h.erase hn x
      rwa [List.erase_cons_head] at herase

end StableSorted

end OrderedInsert
