import Mathlib.Data.List.Induction
import Mathlib.Tactic.Common

/-!
# Lines cut into chunks

`wrap w nl text` splits a text at `nl` and cuts every line into chunks of `w` elements, the last one shorter;
an empty line is one empty chunk.  A text grows at its end: `splitOnP_snoc`, `chunks_snoc` and `wrap_snoc` say
how its lines and chunks go on with one more element.
-/

namespace TextWrap

variable {α : Type*} {w : ℕ} {c nl : α} {l text : List α} {rows : List (List α)}

/-- Cut a line into chunks of `w` elements. -/
def chunks (w : ℕ) (l : List α) : List (List α) :=
  if 0 < w ∧ w < l.length then l.take w :: chunks w (l.drop w) else [l]
termination_by l.length
decreasing_by
  rw [List.length_drop]
  omega

theorem chunks_of_le (h : l.length ≤ w) : chunks w l = [l] := by
  rw [chunks, if_neg (by omega)]

theorem chunks_of_lt (hw : 0 < w) (h : w < l.length) :
    chunks w l = l.take w :: chunks w (l.drop w) := by
  rw [chunks, if_pos ⟨hw, h⟩]

/-- The last chunk of a line, and how the line goes on. -/
theorem chunks_snoc (hw : 0 < w) (l : List α) : ∃ (pre : List (List α)) (last : List α),
    chunks w l = pre ++ [last] ∧ last.length ≤ w ∧
      ∀ c, chunks w (l ++ [c]) = if last.length < w then pre ++ [last ++ [c]] else pre ++ [last, [c]] := by
  induction l using chunks.induct w with
  | case1 l h ih =>
      obtain ⟨pre, last, heq, hle, hgoes⟩ := ih
      refine ⟨l.take w :: pre, last, ?_, hle, fun c => ?_⟩
      · rw [chunks_of_lt hw h.2, heq, List.cons_append]
      · have hle' : w ≤ l.length := Nat.le_of_lt h.2
        have hlen : w < (l ++ [c]).length := by
          rw [List.length_append]
          omega
        rw [chunks_of_lt hw hlen, List.take_append_of_le_length hle', List.drop_append_of_le_length hle',
          hgoes]
        split_ifs <;> rfl
  | case2 l h =>
      have hle : l.length ≤ w := by omega
      refine ⟨[], l, chunks_of_le hle, hle, fun c => ?_⟩
      split_ifs with hlt
      · refine chunks_of_le ?_
        rw [List.length_append, List.length_singleton]
        omega
      · have hfull : l.length = w := by omega
        have hlen : w < (l ++ [c]).length := by
          rw [List.length_append, List.length_singleton]
          omega
        rw [chunks_of_lt hw hlen, ← hfull, List.take_left, List.drop_left,
          chunks_of_le (by rw [List.length_singleton]; omega)]
        rfl

/-! ### Lines -/

/-- The last line of a text, and how the text goes on. -/
theorem splitOnP_snoc (p : α → Bool) (text : List α) : ∃ (pre : List (List α)) (last : List α),
    text.splitOnP p = pre ++ [last] ∧
      ∀ c, (text ++ [c]).splitOnP p = if p c then pre ++ [last, []] else pre ++ [last ++ [c]] := by
  induction text with
  | nil =>
      refine ⟨[], [], List.splitOnP_nil, fun c => ?_⟩
      rw [List.nil_append, List.splitOnP_cons_eq_if_modifyHead, List.splitOnP_nil]
      rfl
  | cons x text ih =>
      obtain ⟨pre, last, heq, hgoes⟩ := ih
      simp only [List.cons_append, List.splitOnP_cons_eq_if_modifyHead, heq, hgoes]
      by_cases hx : p x = true
      · refine ⟨[] :: pre, last, if_pos hx, fun c => ?_⟩
        rw [if_pos hx]
        split_ifs <;> rfl
      · cases pre with
        | nil =>
            refine ⟨[], x :: last, if_neg hx, fun c => ?_⟩
            rw [if_neg hx]
            split_ifs <;> rfl
        | cons line pre =>
            refine ⟨(x :: line) :: pre, last, if_neg hx, fun c => ?_⟩
            rw [if_neg hx]
            split_ifs <;> rfl

/-- The last line is empty where the text has not begun, or ends with a separator. -/
theorem splitOnP_last_nil_iff {p : α → Bool} {pre : List (List α)} {last : List α}
    (h : text.splitOnP p = pre ++ [last]) : last = [] ↔ ∀ c, text.getLast? = some c → p c = true := by
  have hget := (congrArg List.getLast? h).trans List.getLast?_concat
  induction text using List.reverseRecOn with
  | nil =>
      rw [List.splitOnP_nil] at hget
      cases hget
      exact iff_of_true rfl fun c hc => by cases hc
  | append_singleton text c _ =>
      obtain ⟨pre', last', -, hgoes⟩ := splitOnP_snoc p text
      rw [hgoes] at hget
      simp only [List.getLast?_concat, Option.some.injEq, forall_eq']
      split_ifs at hget with hc
      · rw [← List.singleton_append, ← List.append_assoc, List.getLast?_concat] at hget
        cases hget
        exact iff_of_true rfl hc
      · rw [List.getLast?_concat] at hget
        cases hget
        exact iff_of_false (List.append_ne_nil_of_right_ne_nil _ (List.cons_ne_nil c [])) hc

/-- Elements that do not split go to the last line. -/
theorem splitOnP_append {p : α → Bool} {pre : List (List α)} {last : List α}
    (h : text.splitOnP p = pre ++ [last]) (hl : ∀ c ∈ l, p c = false) :
    (text ++ l).splitOnP p = pre ++ [last ++ l] := by
  induction l generalizing text last with
  | nil => rw [List.append_nil, List.append_nil, h]
  | cons c l ih =>
      rw [List.forall_mem_cons] at hl
      obtain ⟨pre', last', heq, hgoes⟩ := splitOnP_snoc p text
      obtain ⟨rfl, hlast⟩ := List.append_inj' (heq.symm.trans h) rfl
      cases hlast
      have hc : (text ++ [c]).splitOnP p = pre' ++ [last ++ [c]] := by
        rw [hgoes, hl.1, if_neg Bool.false_ne_true]
      have hrest := ih hc hl.2
      rw [List.append_assoc, List.append_assoc] at hrest
      exact hrest

variable [DecidableEq α]

/-- The chunks of the lines of a text. -/
def wrap (w : ℕ) (nl : α) (text : List α) : List (List α) := (text.splitOn nl).flatMap (chunks w)

theorem wrap_nil (w : ℕ) (nl : α) : wrap w nl [] = [[]] := by
  rw [wrap, List.splitOn_nil, List.flatMap_singleton, chunks_of_le (Nat.zero_le w)]

/-- **How a wrapped text goes on**: a newline starts an empty chunk, whatever the last one is; another
element goes to the last chunk, or to a new one if that is full. -/
theorem wrap_snoc (hw : 0 < w) (nl : α) (text : List α) : ∃ (pre : List (List α)) (last : List α),
    wrap w nl text = pre ++ [last] ∧ last.length ≤ w ∧ wrap w nl (text ++ [nl]) = pre ++ [last, []] ∧
      ∀ c, c ≠ nl → wrap w nl (text ++ [c]) =
        if last.length < w then pre ++ [last ++ [c]] else pre ++ [last, [c]] := by
  simp only [wrap, List.splitOn_eq_splitOnP]
  obtain ⟨lines, line, heq, hgoes⟩ := splitOnP_snoc (· == nl) text
  obtain ⟨pre, last, hchunks, hle, hgoes'⟩ := chunks_snoc hw line
  refine ⟨lines.flatMap (chunks w) ++ pre, last, ?_, hle, ?_, fun c hc => ?_⟩
  · rw [heq, List.flatMap_append, List.flatMap_singleton, hchunks, List.append_assoc]
  · rw [hgoes, if_pos (beq_self_eq_true nl), List.flatMap_append, List.flatMap_cons, List.flatMap_singleton,
      hchunks, chunks_of_le (Nat.zero_le w), List.append_assoc, List.append_assoc]
    rfl
  · rw [hgoes, if_neg (by rw [beq_iff_eq]; exact hc), List.flatMap_append, List.flatMap_singleton, hgoes']
    split_ifs
    · rw [List.append_assoc]
    · rw [List.append_assoc]

end TextWrap
