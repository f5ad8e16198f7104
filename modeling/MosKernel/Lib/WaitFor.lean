import Mathlib.Logic.Function.Basic
import Mathlib.Logic.Relation
import Mathlib.Order.Lattice
import Mathlib.Tactic.Common

/-!
# Priority inheritance along a wait-for relation

`R w o` says that `w` waits for something that `o` holds, and `p` assigns urgencies, the smaller the more
urgent.  `Respects R p` is the law of priority inheritance: nobody waits for a less urgent holder.  Two
moves change both: a task starts to wait and lends its urgency to the holder alone
(`Respects.wait_iff`), and a holder gives something up, falls back to another urgency and passes what it
held to the front of a queue (`Respects.release_iff`).  Each lemma says exactly when the law survives.
-/

namespace WaitFor

variable {τ β : Type*} [LinearOrder β] {R R' : τ → τ → Prop} {p p' : τ → β} {b : β} {c o : τ}
  {queue : List τ}

/-- Nobody waits for a holder that is less urgent. -/
def Respects (R : τ → τ → Prop) (p : τ → β) : Prop := ∀ w o, R w o → p o ≤ p w

/-- The law reaches along chains of holders that wait themselves. -/
theorem Respects.chain (h : Respects R p) {w : τ} (hc : Relation.TransGen R w o) : p o ≤ p w := by
  induction hc with
  | single hr => exact h w _ hr
  | tail _ hr ih => exact (h _ _ hr).trans ih

theorem Respects.congr (h : Respects R p) (hR : ∀ w x, R' w x → R w x)
    (hp : ∀ w x, R' w x → p' x = p x ∧ p' w = p w) : Respects R' p' := by
  intro w x hr
  rw [(hp w x hr).1, (hp w x hr).2]
  exact h w x (hR w x hr)

variable [DecidableEq τ]

/-- **Waiting.**  `c` starts to wait for `o` and lends it its urgency.  The law survives exactly when
those for which `o` itself waits are urgent enough already, for nothing is passed on to them. -/
theorem Respects.wait_iff (h : Respects R p) (hR : ∀ w x, R' w x ↔ R w x ∨ w = c ∧ x = o)
    (hp : ∀ t, p' t = if t = o then min (p c) (p o) else p t) (hco : c ≠ o) (hoo : ¬R o o) :
    Respects R' p' ↔ (p c < p o → ∀ x, R o x → p x ≤ p c) := by
  have hle : ∀ t, p' t ≤ p t := by
    intro t
    rw [hp]
    split_ifs with ht
    · rw [ht]
      exact min_le_right _ _
    · exact le_rfl
  constructor
  · intro h' hlt x hx
    have hxo : x ≠ o := by
      rintro rfl
      exact hoo hx
    have hle' := h' o x ((hR o x).mpr (.inl hx))
    rw [hp, hp, if_neg hxo, if_pos rfl, min_eq_left hlt.le] at hle'
    exact hle'
  · intro hC w x hr
    rcases (hR w x).mp hr with hr | ⟨rfl, rfl⟩
    · by_cases hw : w = o
      · subst hw
        rw [hp w, if_pos rfl]
        refine (hle x).trans ?_
        rcases lt_or_ge (p c) (p w) with hlt | hge
        · rw [min_eq_left hlt.le]
          exact hC hlt x hr
        · rw [min_eq_right hge]
          exact h w x hr
      · rw [hp w, if_neg hw]
        exact (hle x).trans (h w x hr)
    · rw [hp x, if_pos rfl, hp w, if_neg hco]
      exact min_le_left _ _

/-- **Releasing.**  `c`, which waits for nobody, gives up what the tasks in `queue` wait for, falls back
to `b`, and the front of the queue becomes the holder.  The law survives exactly when no other waiter of
`c` is more urgent than `b`, and the front of the queue is its most urgent task. -/
theorem Respects.release_iff (h : Respects R p)
    (hR : ∀ w x, R' w x ↔ w ∉ queue ∧ R w x ∨ w ∈ queue.tail ∧ queue.head? = some x)
    (hp : ∀ t, p' t = if t = c then b else p t) (hc : ∀ x, ¬R c x) (hcq : c ∉ queue) :
    Respects R' p' ↔
      (∀ w, w ∉ queue → R w c → b ≤ p w) ∧ ∀ v ∈ queue.head?, ∀ w ∈ queue, p v ≤ p w := by
  have hpq : ∀ w ∈ queue, p' w = p w := by
    intro w hw
    rw [hp, if_neg]
    rintro rfl
    exact hcq hw
  have hpR : ∀ w x, R w x → p' w = p w := by
    intro w x hr
    rw [hp, if_neg]
    rintro rfl
    exact hc x hr
  constructor
  · intro h'
    constructor
    · intro w hw hr
      have hle := h' w c ((hR w c).mpr (.inl ⟨hw, hr⟩))
      rw [hpR w c hr, hp c, if_pos rfl] at hle
      exact hle
    · intro v hv w hw
      have hv' : queue.head? = some v := hv
      obtain ⟨rest, rfl⟩ := List.head?_eq_some_iff.mp hv'
      rcases List.mem_cons.mp hw with rfl | hw
      · exact le_rfl
      · have hle := h' w v ((hR w v).mpr (.inr ⟨hw, hv'⟩))
        rw [hpq w (List.mem_of_mem_tail hw), hpq v (List.mem_of_mem_head? hv')] at hle
        exact hle
  · rintro ⟨hrest, hfront⟩ w x hr
    rcases (hR w x).mp hr with ⟨hw, hr⟩ | ⟨hw, hx⟩
    · rw [hpR w x hr, hp x]
      split_ifs with hx
      · subst hx
        exact hrest w hw hr
      · exact h w x hr
    · have hw' := List.mem_of_mem_tail hw
      rw [hpq w hw', hpq x (List.mem_of_mem_head? hx)]
      exact hfront x hx w hw'

end WaitFor
