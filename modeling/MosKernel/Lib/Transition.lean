import Mathlib.Tactic.Common

/-!
# Guarded runs of partial transition functions

A machine is a partial step `step : σ → α → Option σ` (`none` for an action that is not enabled or
that halts the machine) with a guard `ok : σ → α → Prop` saying which actions a run may take.

* `Run step ok s₀ tr s` — `s` is reached from `s₀`; the trace `tr` lists, newest first, every state
  the run went through with the action taken there;
* `Run.invariant` — the induction rule: a property of the start kept by every guarded step holds
  at the end of every run;
* `Run.forall_iff`, `Run.forall_iff_steps` — the rules for exact conditions: when a condition on the
  steps is what keeps a property, the property holds in all states of a run if and only if all its
  steps meet the condition;
* `exec` / `exists_run_of_exec` — runs found by evaluation.
-/

namespace Transition

variable {σ α : Type*} {step : σ → α → Option σ} {ok : σ → α → Prop} {s₀ s : σ}
  {tr : List (σ × α)}

/-- `s` is reached from `s₀` by guarded steps; `tr` is the trace, newest entry first. -/
inductive Run (step : σ → α → Option σ) (ok : σ → α → Prop) (s₀ : σ) : List (σ × α) → σ → Prop
  | start : Run step ok s₀ [] s₀
  | next {tr : List (σ × α)} {s s' : σ} {a : α} : Run step ok s₀ tr s → ok s a →
      step s a = some s' → Run step ok s₀ ((s, a) :: tr) s'

/-- The property `P` holds in every state the run goes through, its last one included. -/
def Always (P : σ → Prop) (tr : List (σ × α)) (s : σ) : Prop := (∀ e ∈ tr, P e.1) ∧ P s

/-- The induction rule for runs. -/
theorem Run.invariant {I : σ → Prop} (hr : Run step ok s₀ tr s) (h₀ : I s₀)
    (hstep : ∀ s a s', I s → ok s a → step s a = some s' → I s') : I s := by
  induction hr with
  | start => exact h₀
  | next _ hok hs ih => exact hstep _ _ _ ih hok hs

/-- An invariant holds in every state of the run, not only in its last one. -/
theorem Run.always {I : σ → Prop} (hr : Run step ok s₀ tr s) (h₀ : I s₀)
    (hstep : ∀ s a s', I s → ok s a → step s a = some s' → I s') : Always I tr s := by
  refine ⟨?_, hr.invariant h₀ hstep⟩
  induction hr with
  | start => simp
  | next hr _ _ ih =>
      intro e he
      rcases List.mem_cons.mp he with rfl | he
      · exact hr.invariant h₀ hstep
      · exact ih e he

/-- What holds all along a run holds where it starts. -/
theorem Run.start_of_always {P : σ → Prop} (hr : Run step ok s₀ tr s) (h : Always P tr s) : P s₀ := by
  induction hr with
  | start => exact h.2
  | next _ _ _ ih =>
      have hall := List.forall_mem_cons.mp h.1
      exact ih ⟨hall.2, hall.1⟩

/-- A run under a guard is a run under every weaker guard. -/
theorem Run.mono {ok' : σ → α → Prop} (hr : Run step ok s₀ tr s)
    (h : ∀ s a, ok s a → ok' s a) : Run step ok' s₀ tr s := by
  induction hr with
  | start => exact .start
  | next _ hok hs ih => exact .next ih (h _ _ hok) hs

/-- A guard that follows from an invariant of the run may be put in the place of its own. -/
theorem Run.guard_of_invariant {I : σ → Prop} {ok' : σ → α → Prop} (hr : Run step ok s₀ tr s) (h₀ : I s₀)
    (hstep : ∀ s a s', I s → ok s a → step s a = some s' → I s' ∧ ok' s a) : Run step ok' s₀ tr s := by
  induction hr with
  | start => exact .start
  | next hr hok hs ih =>
      have hI := hr.invariant h₀ fun s a s' hi hok hs => (hstep s a s' hi hok hs).1
      exact .next ih (hstep _ _ _ hI hok hs).2 hs

/-- Every step of a run meets the guard. -/
theorem Run.forall_guard (hr : Run step ok s₀ tr s) : ∀ e ∈ tr, ok e.1 e.2 := by
  induction hr with
  | start => simp
  | next _ hok _ ih => exact List.forall_mem_cons.mpr ⟨hok, ih⟩

/-- A condition met at every step of the trace may be moved into the guard. -/
theorem Run.strengthen {C : σ → α → Prop} (hr : Run step ok s₀ tr s)
    (hC : ∀ e ∈ tr, C e.1 e.2) : Run step (fun s a => ok s a ∧ C s a) s₀ tr s := by
  induction hr with
  | start => exact .start
  | next _ hok hs ih =>
      rw [List.forall_mem_cons] at hC
      exact .next (ih hC.2) ⟨hok, hC.1⟩ hs

/-- **Exact conditions.**  Let the condition `C` on steps keep the invariant `I`, which implies `P`, and
give `Q` at the step; and let a step from `I` into `P` that has `Q` meet `C`.  Then `P` holds all along a
run and `Q` at all its steps exactly when all steps meet `C`. -/
theorem Run.forall_iff_steps {I P : σ → Prop} {Q C : σ → α → Prop} (hr : Run step ok s₀ tr s)
    (h₀ : I s₀) (hP : ∀ s, I s → P s)
    (hkeep : ∀ s a s', I s → ok s a → step s a = some s' → C s a → I s' ∧ Q s a)
    (hneed : ∀ s a s', I s → ok s a → step s a = some s' → P s' → Q s a → C s a) :
    (Always P tr s ∧ ∀ e ∈ tr, Q e.1 e.2) ↔ ∀ e ∈ tr, C e.1 e.2 := by
  have hI : ∀ {tr s}, Run step ok s₀ tr s → (∀ e ∈ tr, C e.1 e.2) → I s := fun hr hC =>
    (hr.strengthen hC).invariant h₀ fun s a s' hi hok hs => (hkeep s a s' hi hok.1 hs hok.2).1
  induction hr with
  | start => simpa [Always] using hP _ h₀
  | @next tr s s' a hr hok hs ih =>
      simp only [List.forall_mem_cons, Always]
      constructor
      · rintro ⟨⟨hall, hlast⟩, hQa, hQ⟩
        have hC := ih.mp ⟨⟨hall.2, hall.1⟩, hQ⟩
        exact ⟨hneed _ _ _ (hI hr hC) hok hs hlast hQa, hC⟩
      · rintro ⟨hCa, hC⟩
        obtain ⟨hall, hQ⟩ := ih.mpr hC
        obtain ⟨hi, hQa⟩ := hkeep _ _ _ (hI hr hC) hok hs hCa
        exact ⟨⟨⟨hall.2, hall.1⟩, hP _ hi⟩, hQa, hQ⟩

/-- The same where nothing is asked of the steps themselves. -/
theorem Run.forall_iff {I P : σ → Prop} {C : σ → α → Prop} (hr : Run step ok s₀ tr s)
    (h₀ : I s₀) (hP : ∀ s, I s → P s)
    (hkeep : ∀ s a s', I s → ok s a → step s a = some s' → C s a → I s')
    (hneed : ∀ s a s', I s → ok s a → step s a = some s' → P s' → C s a) :
    Always P tr s ↔ ∀ e ∈ tr, C e.1 e.2 := by
  rw [← hr.forall_iff_steps (Q := fun _ _ => True) h₀ hP
    (fun s a s' hi hok hs hC => ⟨hkeep s a s' hi hok hs hC, trivial⟩)
    fun s a s' hi hok hs hp _ => hneed s a s' hi hok hs hp]
  simp

/-- A run whose actions are named by another type, in every state in its own way. -/
theorem Run.map {β : Type*} {f : σ → β → α} {tr : List (σ × β)}
    (hr : Run (fun s b => step s (f s b)) (fun s b => ok s (f s b)) s₀ tr s) :
    Run step ok s₀ (tr.map fun x => (x.1, f x.1 x.2)) s := by
  induction hr with
  | start => exact .start
  | next _ hok hs ih => exact .next ih hok hs

/-- Take the listed actions one after the other, stopping where one fails its guard. -/
def exec (step : σ → α → Option σ) (okb : σ → α → Bool) : σ → List α → Option σ
  | s, [] => some s
  | s, a :: as => if okb s a then (step s a).bind fun s' => exec step okb s' as else none

theorem exists_run_exec {okb : σ → α → Bool} (hok : ∀ s a, okb s a = true → ok s a) {as : List α} :
    ∀ {tr : List (σ × α)} {s s' : σ}, Run step ok s₀ tr s → exec step okb s as = some s' →
      ∃ tr', Run step ok s₀ tr' s' := by
  induction as with
  | nil =>
      intro tr s s' hr h
      cases h
      exact ⟨tr, hr⟩
  | cons a as ih =>
      intro tr s s' hr h
      rw [exec] at h
      split at h
      · rename_i hb
        obtain ⟨s₁, hs, h⟩ := Option.bind_eq_some_iff.mp h
        exact ih (.next hr (hok _ _ hb) hs) h
      · cases h

/-- A run to a state with the property `Q`, found by evaluating a list of actions. -/
theorem exists_run_of_exec {okb : σ → α → Bool} (hok : ∀ s a, okb s a = true → ok s a)
    {as : List α} {Q : σ → Bool} (h : (exec step okb s₀ as).any Q = true) :
    ∃ tr s, Run step ok s₀ tr s ∧ Q s = true := by
  cases he : exec step okb s₀ as with
  | none => simp [he] at h
  | some s =>
      obtain ⟨tr, hr⟩ := exists_run_exec hok .start he
      exact ⟨tr, s, hr, by simpa [he] using h⟩

end Transition
