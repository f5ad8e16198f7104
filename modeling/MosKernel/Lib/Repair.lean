import Mathlib.Tactic.Common

/-!
# Repairs

A repair looks at a state, puts right what it finds wrong and reports whether there was anything to put
right.  `Mends f P` says that `f` does this for the property `P`: afterwards `P` holds, a state with `P`
is left as it is, and the report says which of the two it was.

* `mendIf` — repair by one test and one write;
* `andThen` — one repair after the other, which mends both properties if the second keeps the first
  (`Mends.andThen`).
-/

namespace Repairs

variable {σ : Type*}

/-- The repaired state, and whether anything was wrong. -/
abbrev Repair (σ : Type*) := σ → σ × Bool

/-- `if bad { fix; fixed = true }` -/
def mendIf (bad : σ → Bool) (fix : σ → σ) : Repair σ := fun s =>
  if bad s then (fix s, true) else (s, false)

/-- One repair after the other, with the reports joined. -/
def andThen (f g : Repair σ) : Repair σ := fun s => ((g (f s).1).1, (f s).2 || (g (f s).1).2)

/-- `f` repairs what violates `P`, and nothing else. -/
structure Mends (f : Repair σ) (P : σ → Prop) : Prop where
  mended : ∀ s, P (f s).1
  quiet : ∀ s, P s → f s = (s, false)
  loud : ∀ s, ¬ P s → (f s).2 = true

variable {f g : Repair σ} {P Q : σ → Prop}

/-- The report, as a test of the property. -/
theorem Mends.report_iff (hf : Mends f P) (s : σ) : (f s).2 = false ↔ P s := by
  constructor
  · intro h
    by_contra hP
    rw [hf.loud s hP] at h
    cases h
  · intro h
    rw [hf.quiet s h]

theorem Mends.congr (hf : Mends f P) (h : ∀ s, P s ↔ Q s) : Mends f Q :=
  ⟨fun s => (h _).mp (hf.mended s), fun s hs => hf.quiet s ((h s).mpr hs),
    fun s hs => hf.loud s (mt (h s).mp hs)⟩

/-- A test and a write mend what the test is for, if the write establishes it. -/
theorem mends_mendIf {bad : σ → Bool} {fix : σ → σ} (hbad : ∀ s, bad s = false ↔ P s)
    (hfix : ∀ s, P (fix s)) : Mends (mendIf bad fix) P := by
  refine ⟨fun s => ?_, fun s hs => ?_, fun s hs => ?_⟩
  · by_cases h : bad s
    · rw [mendIf, if_pos h]
      exact hfix s
    · rw [mendIf, if_neg h]
      exact (hbad s).mp (Bool.eq_false_iff.mpr h)
  · rw [mendIf, if_neg (Bool.eq_false_iff.mp ((hbad s).mpr hs))]
  · rw [mendIf, if_pos (Bool.of_not_eq_false (mt (hbad s).mp hs))]

/-- **Repairs compose** when the second does not undo the first. -/
theorem Mends.andThen (hf : Mends f P) (hg : Mends g Q) (hkeep : ∀ s, P s → P (g s).1) :
    Mends (andThen f g) fun s => P s ∧ Q s := by
  refine ⟨fun s => ⟨hkeep _ (hf.mended s), hg.mended _⟩, fun s hs => ?_, fun s hs => ?_⟩
  · show ((g (f s).1).1, (f s).2 || (g (f s).1).2) = _
    rw [hf.quiet s hs.1]
    show ((g s).1, false || (g s).2) = _
    rw [hg.quiet s hs.2]
    rfl
  · show ((f s).2 || (g (f s).1).2) = true
    by_cases hP : P s
    · have hQ : ¬ Q s := fun hQ => hs ⟨hP, hQ⟩
      rw [hf.quiet s hP]
      exact hg.loud s hQ
    · rw [hf.loud s hP, Bool.true_or]

/-! ### What a repair leaves alone -/

/-- `f` does not change `v`. -/
def Keeps {α : Type*} (f : Repair σ) (v : σ → α) : Prop := ∀ s, v (f s).1 = v s

theorem Keeps.andThen {α : Type*} {v : σ → α} (hf : Keeps f v) (hg : Keeps g v) :
    Keeps (andThen f g) v :=
  fun s => (hg (f s).1).trans (hf s)

theorem keeps_mendIf {α : Type*} {v : σ → α} {bad : σ → Bool} {fix : σ → σ}
    (h : ∀ s, v (fix s) = v s) : Keeps (mendIf bad fix) v := by
  intro s
  by_cases hbad : bad s
  · rw [mendIf, if_pos hbad]
    exact h s
  · rw [mendIf, if_neg hbad]

end Repairs
