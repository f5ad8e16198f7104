import Mathlib.Data.List.InsertIdx
import Mathlib.Order.Lattice
import Mathlib.Tactic.Common

/-!
# Insertion before the first element that satisfies a test

`insertBefore p x l` puts `x` in front of the first element of `l` with `p`, or at the end.  With
the test `key x < key ·` this is the insertion of a stable priority queue.  Membership, length,
multiplicities and the order of the old elements are read off `perm_insertBefore` and
`sublist_insertBefore`; `pairwise_insertBefore` keeps a list sorted by a key, and `KeepsOrder` says
when it stays sorted although one key changes.
-/

namespace OrderedInsert

variable {α β : Type*} {p : α → Bool} {x a : α} {l : List α}

/-- Put `x` in front of the first element that satisfies `p`, or at the end. -/
def insertBefore (p : α → Bool) (x : α) (l : List α) : List α := l.insertIdx (l.findIdx p) x

theorem insertBefore_nil (p : α → Bool) (x : α) : insertBefore p x [] = [x] := rfl

theorem insertBefore_cons (p : α → Bool) (x a : α) (l : List α) :
    insertBefore p x (a :: l) = if p a then x :: a :: l else a :: insertBefore p x l := by
  by_cases h : p a <;> simp [insertBefore, List.findIdx_cons, h]

theorem perm_insertBefore (p : α → Bool) (x : α) (l : List α) :
    (insertBefore p x l).Perm (x :: l) :=
  List.perm_insertIdx x l List.findIdx_le_length

theorem sublist_insertBefore (p : α → Bool) (x : α) (l : List α) :
    l.Sublist (insertBefore p x l) :=
  List.sublist_insertIdx l _ x

@[simp] theorem length_insertBefore (p : α → Bool) (x : α) (l : List α) :
    (insertBefore p x l).length = l.length + 1 :=
  (perm_insertBefore p x l).length_eq

@[simp] theorem mem_insertBefore : a ∈ insertBefore p x l ↔ a = x ∨ a ∈ l := by
  rw [(perm_insertBefore p x l).mem_iff, List.mem_cons]

theorem nodup_insertBefore : (insertBefore p x l).Nodup ↔ x ∉ l ∧ l.Nodup := by
  rw [(perm_insertBefore p x l).nodup_iff, List.nodup_cons]

theorem count_insertBefore [DecidableEq α] :
    (insertBefore p x l).count a = l.count a + if x = a then 1 else 0 := by
  rw [(perm_insertBefore p x l).count_eq, List.count_cons]
  simp

/-- Nothing behind an element that satisfies the test moves. -/
theorem insertBefore_append_cons {b : α} {xs ys : List α} (hb : p b = true) :
    insertBefore p x (xs ++ b :: ys) = insertBefore p x xs ++ b :: ys := by
  induction xs with
  | nil => simp [insertBefore_cons, insertBefore_nil, hb]
  | cons c xs ih =>
      rw [List.cons_append, insertBefore_cons, insertBefore_cons, ih]
      split_ifs <;> rfl

/-- The elements that fail the test are passed. -/
theorem insertBefore_append_of_false {xs ys : List α} (h : ∀ a ∈ xs, p a = false) :
    insertBefore p x (xs ++ ys) = xs ++ insertBefore p x ys := by
  induction xs with
  | nil => rfl
  | cons a xs ih =>
      rw [List.cons_append, insertBefore_cons, h a List.mem_cons_self, if_neg Bool.false_ne_true,
        ih fun b hb => h b (List.mem_cons_of_mem a hb), List.cons_append]

/-- Where everything satisfies the test, the insertion is at the front. -/
theorem insertBefore_of_forall (h : ∀ a ∈ l, p a = true) : insertBefore p x l = x :: l := by
  cases l with
  | nil => rfl
  | cons a l => rw [insertBefore_cons, h a List.mem_cons_self, if_pos rfl]

section Sorted

variable [LinearOrder β] {key : α → β}

/-- **Insertion keeps a list sorted.** -/
theorem pairwise_insertBefore (h : l.Pairwise fun a b => key a ≤ key b) :
    (insertBefore (fun t => decide (key x < key t)) x l).Pairwise fun a b => key a ≤ key b := by
  induction l with
  | nil => simp [insertBefore_nil]
  | cons b l ih =>
      rw [List.pairwise_cons] at h
      rw [insertBefore_cons]
      by_cases hb : key x < key b
      · simp only [hb, decide_true, if_true, List.pairwise_cons, List.mem_cons]
        refine ⟨?_, h.1, h.2⟩
        rintro c (rfl | hc)
        · exact hb.le
        · exact hb.le.trans (h.1 c hc)
      · simp only [hb, decide_false, Bool.false_eq_true, if_false, List.pairwise_cons,
          mem_insertBefore]
        refine ⟨?_, ih h.2⟩
        rintro c (rfl | hc)
        · exact not_lt.mp hb
        · exact h.1 c hc

/-- A list that is not sorted stays so. -/
theorem pairwise_insertBefore_iff :
    ((insertBefore (fun t => decide (key x < key t)) x l).Pairwise fun a b => key a ≤ key b) ↔
      l.Pairwise fun a b => key a ≤ key b :=
  ⟨fun h => h.sublist (sublist_insertBefore _ x l), pairwise_insertBefore⟩

/-- Insertion into the first part of a sorted list, whatever the second part holds. -/
theorem pairwise_insertBefore_append {xs ys : List α}
    (h : (xs ++ ys).Pairwise fun a b => key a ≤ key b) :
    ((insertBefore (fun t => decide (key x < key t)) x xs ++ ys).Pairwise
      fun a b => key a ≤ key b) ↔ ∀ b ∈ ys, key x ≤ key b := by
  rw [List.pairwise_append] at h ⊢
  constructor
  · rintro ⟨-, -, hle⟩ b hb
    exact hle x (mem_insertBefore.mpr (.inl rfl)) b hb
  · intro hle
    refine ⟨pairwise_insertBefore h.1, h.2.1, fun a ha b hb => ?_⟩
    rcases mem_insertBefore.mp ha with rfl | ha
    · exact hle b hb
    · exact h.2.2 a ha b hb

/-- In a sorted list the elements with the least key come first. -/
theorem filter_append_filter_of_pairwise {q : β} (h : l.Pairwise fun a b => key a ≤ key b)
    (hq : ∀ a ∈ l, q ≤ key a) :
    (l.filter fun a => key a = q) ++ l.filter (fun a => key a ≠ q) = l := by
  induction l with
  | nil => rfl
  | cons a l ih =>
      rw [List.pairwise_cons] at h
      have hq' : ∀ b ∈ l, q ≤ key b := fun b hb => hq b (List.mem_cons_of_mem a hb)
      by_cases ha : key a = q
      · rw [List.filter_cons_of_pos (by simpa using ha), List.filter_cons_of_neg (by simpa using ha),
          List.cons_append, ih h.2 hq']
      · have hlt : q < key a := lt_of_le_of_ne (hq a List.mem_cons_self) (Ne.symm ha)
        have hne : ∀ b ∈ a :: l, key b ≠ q := by
          intro b hb
          rcases List.mem_cons.mp hb with rfl | hb
          · exact ha
          · exact (hlt.trans_le (h.1 b hb)).ne'
        rw [List.filter_eq_nil_iff.mpr (by simpa using hne), List.filter_eq_self.mpr (by simpa using hne),
          List.nil_append]

/-- In `l`, the new key `q` of `x` agrees with the order: no greater key before `x`, no smaller one
behind it. -/
def KeepsOrder (key : α → β) (x : α) (q : β) (l : List α) : Prop :=
  l.Pairwise fun a b => (a ≠ x → b = x → key a ≤ q) ∧ (a = x → b ≠ x → q ≤ key b)

instance [DecidableEq α] [DecidableLE β] (key : α → β) (x : α) (q : β) (l : List α) :
    Decidable (KeepsOrder key x q l) :=
  inferInstanceAs (Decidable (List.Pairwise _ l))

theorem keepsOrder_of_not_mem {q : β} (hx : x ∉ l) : KeepsOrder key x q l := by
  induction l with
  | nil => exact List.Pairwise.nil
  | cons b l ih =>
      rw [List.mem_cons, not_or] at hx
      refine List.Pairwise.cons (fun c hc => ⟨fun _ hcx => ?_, fun hbx => ?_⟩) (ih hx.2)
      · exact absurd (hcx ▸ hc) hx.2
      · exact absurd hbx.symm hx.1

/-- **One key changes.**  A sorted list stays sorted exactly when the new key agrees with the order. -/
theorem pairwise_update_iff [DecidableEq α] {q : β} (h : l.Pairwise fun a b => key a ≤ key b) :
    (l.Pairwise fun a b => Function.update key x q a ≤ Function.update key x q b) ↔
      KeepsOrder key x q l := by
  constructor
  · intro h'
    refine (h.and h').imp fun {a b} hab => ⟨fun ha hb => ?_, fun ha hb => ?_⟩
    · simpa [ha, hb] using hab.2
    · simpa [ha, hb] using hab.2
  · intro h'
    refine (h.and h').imp fun {a b} hab => ?_
    rcases eq_or_ne a x with ha | ha
    · rcases eq_or_ne b x with hb | hb
      · simp [ha, hb]
      · simpa [ha, hb] using hab.2.2 ha hb
    · rcases eq_or_ne b x with hb | hb
      · simpa [ha, hb] using hab.2.1 ha hb
      · simpa [ha, hb] using hab.1

end Sorted

end OrderedInsert
