import Mathlib.Tactic.Common

/-!
# Calls with replies

A component is a partial function `call` from a state and a call to the next state and the reply, `none`
where the call stops the program.  Its meaning is a total function `spec` of the same kind on an abstract
state.

* `runCalls`, `specCalls` — the calls of a list one after the other, with their replies;
* `AllOk` — every call is one that the user may make in the abstract state it comes to;
* `runCalls_refines` — a relation between the states that every call keeps, with equal replies, is kept by
  every run, with equal replies.
-/

namespace Refinement

variable {σ τ α ρ : Type} {call : σ → α → Option (σ × ρ)} {spec : τ → α → τ × ρ} {ok : τ → α → Prop}
  {R : σ → τ → Prop} {s : σ} {t : τ}

/-- Run the calls. -/
def runCalls (call : σ → α → Option (σ × ρ)) (s : σ) : List α → Option (σ × List ρ)
  | [] => some (s, [])
  | a :: as => do
      let (s, reply) ← call s a
      let (s, replies) ← runCalls call s as
      some (s, reply :: replies)

/-- Run them on the abstract state. -/
def specCalls (spec : τ → α → τ × ρ) (t : τ) : List α → τ × List ρ
  | [] => (t, [])
  | a :: as =>
      let rest := specCalls spec (spec t a).1 as
      (rest.1, (spec t a).2 :: rest.2)

/-- Every call is allowed when it is made. -/
def AllOk (spec : τ → α → τ × ρ) (ok : τ → α → Prop) (t : τ) : List α → Prop
  | [] => True
  | a :: as => ok t a ∧ AllOk spec ok (spec t a).1 as

instance decidableAllOk [∀ t a, Decidable (ok t a)] (t : τ) : (as : List α) → Decidable (AllOk spec ok t as)
  | [] => .isTrue trivial
  | a :: as =>
      have := decidableAllOk (spec t a).1 as
      inferInstanceAs (Decidable (ok t a ∧ AllOk spec ok (spec t a).1 as))

/-- Where nothing is asked of a call, every list of calls is allowed. -/
theorem allOk_of_forall (h : ∀ t a, ok t a) (t : τ) (as : List α) : AllOk spec ok t as := by
  induction as generalizing t with
  | nil => trivial
  | cons a as ih => exact ⟨h t a, ih _⟩

/-- **What every call keeps, every run keeps.** -/
theorem runCalls_refines {as : List α}
    (hstep : ∀ s t a, R s t → ok t a → ∃ s', call s a = some (s', (spec t a).2) ∧ R s' (spec t a).1)
    (h : R s t) (hok : AllOk spec ok t as) :
    ∃ s', runCalls call s as = some (s', (specCalls spec t as).2) ∧ R s' (specCalls spec t as).1 := by
  induction as generalizing s t with
  | nil => exact ⟨s, rfl, h⟩
  | cons a as ih =>
      obtain ⟨s₁, hcall, h₁⟩ := hstep s t a h hok.1
      obtain ⟨s', hrest, h'⟩ := ih h₁ hok.2
      refine ⟨s', ?_, h'⟩
      simp only [runCalls, hcall, Option.bind_eq_bind, Option.bind_some, hrest, specCalls]

end Refinement
