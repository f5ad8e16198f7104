import MosKernel.Contexts
import MosKernel.Shell

/-!
# Stack use

`ls` reads how much of its stack a task uses off `stack_bottom` and `sp` of its control block.  `Housed`
says that the saved stack pointer, also that of the running task, leaves a frame on the stack of its own
task; it is kept by every move of `Contexts`.  So the figure of `ls` is exact for the stacks of the pool,
and the additions in it do not wrap.  `ls` takes every stack for one of the pool: of a larger one it counts
the lowest kilobyte only.
-/

namespace MosKernel

open Transition SaveArea

/-- The saved stack pointers point to frames on the stacks of their tasks; `ls` reads them for all tasks. -/
def Machine.Housed (m : Machine) : Prop := ∀ t s, m.stack t = some s → (frameRegion (m.sp t)).Within s

namespace Machine

variable {L : Layout} {m m' : Machine} {a : Move} {t : Tid} {s : Region 32}

theorem Installed.housed (h : m.Installed L) : m.Housed := by
  intro t s hs
  rw [h.stack t] at hs
  cases hs

/-- A new task has its first frame, and nobody else's stack pointer changes. -/
theorem Housed.creation {priority : ℕ} {name : String} {st : Tid → Region 32}
    {frame : Tid → Option ((BitVec 32 → BitVec 32) × BitVec 32)} {first : Tid → Context} (h : m.Housed)
    (hc : CreationOk L m st frame first) (hs : m.addTask priority name st frame = some m') : m'.Housed := by
  rcases addTask_eq_some hs with ⟨-, rfl⟩ | ⟨u, k, ram, f, -, hf, rfl⟩
  · exact h
  · intro t s hst
    dsimp only at hst ⊢
    by_cases htu : t = u
    · rw [htu, Function.update_self] at hst ⊢
      cases hst
      exact (hc.frame u ram f hf).1.within
    · rw [Function.update_of_ne htu] at hst ⊢
      exact h t s hst

/-- A trap saves the stack pointer of the interrupted task, below which it has put its frame. -/
theorem Housed.trap {slot : Fin 32} {cause : BitVec 32} {e : Surroundings} (hp : L.Proper) (hm : m.Sound L)
    (h : m.Housed) (hok : Move.Ok L m (.trap slot cause e))
    (hs : Move.step L m (.trap slot cause e) = some m') :
    m'.Housed := by
  obtain ⟨s₀, hready, hown⟩ := hm.trapReady hp hok
  unfold Move.step at hs
  dsimp only at hs
  split_ifs at hs
  rw [hready.runText slot] at hs
  obtain ⟨-, hstack, -, -, hsp, -⟩ := hready.trap hs
  intro t s hst
  rw [hstack] at hst
  rw [hsp]
  split_ifs with hcur
  · rw [hown t hcur] at hst
    cases hst
    exact hready.frame
  · exact h t s hst

/-- **One move.** -/
theorem Housed.step (hp : L.Proper) (hm : m.Sound L) (h : m.Housed) (hok : a.Ok L m)
    (hs : a.step L m = some m') :
    m'.Housed := by
  cases a with
  | code reg pc mstatus ram globals =>
      cases hs
      exact h
  | create priority name => exact h.creation (hm.toPlaced.creationOk_create hp hok) hs
  | createRaw priority name stackSize base entryAddr param => exact h.creation (creationOk_createRaw hok) hs
  | launch e =>
      -- the idle task is created, and `start_first_task` saves nothing
      obtain ⟨hc, m₁, hm₁, -, hstack, hsp, -⟩ := hm.launched hp hok hs
      have h₁ := h.creation hc hm₁
      intro t s hst
      rw [hstack] at hst
      rw [hsp]
      exact h₁ t s hst
  | trap slot cause e => exact h.trap hp hm hok hs

end Machine

/-! ### The figure -/

/-- The figure for a stack pointer that leaves a frame on the stack `s`: nothing in it wraps, and the cap at
100 is never reached from above. -/
theorem stackPercent_of_within {s : Region 32} {sp : BitVec 32} (h : (frameRegion sp).Within s)
    (hend : s.base.toNat + max s.len 1024 < 2 ^ 32) :
    frameSize ≤ s.base.toNat + s.len - sp.toNat ∧ s.base.toNat + s.len - sp.toNat ≤ s.len ∧
      stackPercent s.base sp = (s.base.toNat + s.len - sp.toNat + 1024 - s.len) / 4 * 100 / 256 := by
  have hfit : (sp - s.base).toNat + 128 ≤ s.len := Region.le_of_within (by decide) (by omega) h
  have hsp : sp.toNat = s.base.toNat + (sp - s.base).toNat := by
    have hsum : sp = s.base + (sp - s.base) := (add_sub_cancel s.base sp).symm
    have hnat := congrArg BitVec.toNat hsum
    rwa [BitVec.toNat_add, Nat.mod_eq_of_lt (by omega)] at hnat
  refine ⟨?_, by omega, ?_⟩
  · show 128 ≤ _
    omega
  · have htop : min (s.base.toNat + 256 * 4) (2 ^ 32 - 1) = s.base.toNat + 1024 := by omega
    have hused : s.base.toNat + s.len - sp.toNat + 1024 - s.len = s.base.toNat + 1024 - sp.toNat := by omega
    show min ((min (s.base.toNat + 256 * 4) (2 ^ 32 - 1) - sp.toNat) / 4 * 100 % 2 ^ 32 / 256) 100 = _
    rw [htop, hused, Nat.mod_eq_of_lt (by omega)]
    omega

/-- **What `ls` shows of the stacks.**  In every state of every run, a row of `ls` is about a task whose
saved stack pointer leaves a whole frame on its own stack, whose base is its `stack_bottom`.  Below
`2 ^ 32`, where the stack has `used` bytes above the pointer, the row shows how much of the lowest kilobyte
of the stack they take.  On a stack of the pool this is all of the stack, so the row shows its use, which is
at least a frame; on a larger one it shows `0` until the kilobyte is reached. -/
theorem ls_shows_stack_use {L : Layout} {m₀ m : Machine} {tr : List (Machine × Move)} (hp : L.Proper)
    (h₀ : m₀.Installed L) (hr : Run (Move.step L) (Move.Ok L) m₀ tr m) {t : Tid}
    (ht : (m.kernel.tcbs t).status ≠ .terminated) :
    ∃ s, m.stack t = some s ∧ (frameRegion (m.sp t)).Within s ∧ (s.base.toNat + max s.len 1024 < 2 ^ 32 →
      let used := s.base.toNat + s.len - (m.sp t).toNat
      let percent := stackPercent s.base (m.sp t)
      frameSize ≤ used ∧ used ≤ s.len ∧ percent = (used + 1024 - s.len) / 4 * 100 / 256 ∧
        (s.len = 1024 → 12 ≤ percent ∧ percent ≤ 100) ∧ (percent = 0 ↔ used + 1012 < s.len)) := by
  obtain ⟨hsound, hhoused⟩ : m.Sound L ∧ m.Housed :=
    hr.invariant (I := fun m => m.Sound L ∧ m.Housed) ⟨h₀.sound, h₀.housed⟩ fun _ _ _ h hok hs =>
      ⟨(Move.step_sound hp h.1 hok hs).1, h.2.step hp h.1 hok hs⟩
  obtain ⟨s, hs⟩ := Option.isSome_iff_exists.mp (hsound.kernel.alive t ht)
  refine ⟨s, hs, hhoused t s hs, fun hend => ?_⟩
  obtain ⟨hframe, hle, hpercent⟩ := stackPercent_of_within (hhoused t s hs) hend
  refine ⟨hframe, hle, hpercent, fun hlen => ?_, ?_⟩
  all_goals
    have h128 : 128 ≤ s.base.toNat + s.len - (m.sp t).toNat := hframe
    rw [hpercent]
    omega

/-- The first task was interrupted at once: its frame is all that it uses. -/
theorem ls_shows_stack_use_run : ∃ tr m, Run (Move.step .sample) (Move.Ok .sample) .sample tr m ∧
    ∃ s, m.stack 0 = some s ∧ s = Layout.sample.stack 0 ∧ (frameRegion (m.sp 0)).Within s ∧
      stackPercent s.base (m.sp 0) = 12 ∧ stackPercent s.base (m.sp 0) =
        (s.base.toNat + s.len - (m.sp 0).toNat + 1024 - s.len) / 4 * 100 / 256 := by
  have hexec : (exec (fun m a => Move.step .sample m (SampleMove.move a)) SampleMove.check .sample
      [.create 3 "a", .create 3 "b", .launch, .trap 20 0x80000014, .trap 0 11]).any (fun m =>
        decide (m.kernel.status 0 ≠ .terminated) && (decide (m.stack 0 = some (Layout.sample.stack 0)) &&
          decide (stackPercent (Layout.sample.stack 0).base (m.sp 0) = 12))) = true := by
    decide +kernel
  obtain ⟨tr, m, hr, hm⟩ := exists_run_of_exec (fun _ _ h => SampleMove.ok_of_check h) hexec
  simp only [Bool.and_eq_true, decide_eq_true_eq] at hm
  obtain ⟨halive, hstack, hpercent⟩ := hm
  obtain ⟨s, hs, hwithin, hshown⟩ :=
    ls_shows_stack_use Layout.proper_sample Machine.installed_sample hr.map halive
  cases hs.symm.trans hstack
  obtain ⟨-, -, hexact, -⟩ := hshown (by decide)
  exact ⟨_, m, hr.map, _, hs, rfl, hwithin, hpercent, hexact⟩

end MosKernel
