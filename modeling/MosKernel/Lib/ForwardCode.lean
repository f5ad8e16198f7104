import Mathlib.Tactic.Common

/-!
# Assembly text with forward branches

Assembly whose local numeric labels are only referred to forwards (`beqz a0, 8f`): a branch to `n`
skips the text up to the next line `n:`.  So a run only ever moves forward, and `run` is a recursion on
the text that remains, with the label that is being looked for.

* `run_ops` — a straight-line block runs as the fold of its instructions;
* `run_skip` — a block without the label is skipped;
* `run_branch` — a branch skips to its label or falls through.
-/

namespace ForwardCode

/-- A line: a local label, an instruction that falls through, a branch to the next label `n` if a
condition holds, or an instruction that leaves the text. -/
inductive Line (I C : Type*) where
  | label (n : ℕ)
  | op (i : I)
  | branch (c : C) (n : ℕ)
  | leave (i : I)

variable {I C S : Type*}

/-- The line is the label `n`. -/
def Line.isLabel (n : ℕ) : Line I C → Bool
  | .label m => m = n
  | _ => false

/-- Run the text in state `s`, or skip to the label `n` first when the second argument is `some n`.
`none` is an instruction that faults, a label that is missing, or the end of the text. -/
def run (exec : I → S → Option S) (test : C → S → Bool) : List (Line I C) → Option ℕ → S → Option S
  | [], _, _ => none
  | l :: code, some n, s => run exec test code (if l.isLabel n then none else some n) s
  | .label _ :: code, none, s => run exec test code none s
  | .op i :: code, none, s => (exec i s).bind (run exec test code none)
  | .branch c n :: code, none, s => run exec test code (if test c s then some n else none) s
  | .leave i :: _, none, s => exec i s

variable {exec : I → S → Option S} {test : C → S → Bool} {code : List (Line I C)}

theorem run_branch (c : C) (n : ℕ) (s : S) :
    run exec test (.branch c n :: code) none s =
      run exec test code (if test c s then some n else none) s := rfl

/-- A straight-line block runs as the fold of its instructions. -/
theorem run_ops (block : List I) (s : S) :
    run exec test (block.map .op ++ code) none s =
      (block.foldlM (fun s i => exec i s) s).bind (run exec test code none) := by
  induction block generalizing s with
  | nil => rfl
  | cons i block ih =>
      show (exec i s).bind (run exec test (block.map .op ++ code) none) = _
      rw [List.foldlM_cons]
      cases exec i s with
      | none => rfl
      | some s => exact ih s

/-- Text without the label is skipped. -/
theorem run_skip {n : ℕ} {text : List (Line I C)} (h : text.all fun l => !l.isLabel n) (s : S) :
    run exec test (text ++ code) (some n) s = run exec test code (some n) s := by
  induction text with
  | nil => rfl
  | cons l text ih =>
      rw [List.all_cons, Bool.and_eq_true] at h
      have hl : l.isLabel n = false := by simpa using h.1
      show run exec test (text ++ code) (if l.isLabel n then none else some n) s = _
      rw [hl]
      exact ih h.2

/-- The label that was looked for. -/
theorem run_found (n : ℕ) (s : S) :
    run exec test (.label n :: code) (some n) s = run exec test code none s := by
  show run exec test code (if decide (n = n) then none else some n) s = _
  rw [decide_eq_true rfl, if_pos rfl]

end ForwardCode
