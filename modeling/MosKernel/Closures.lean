import MosKernel.Contexts

/-!
# The closures of tasks

`Task::create` puts a closure into the control block of the new task, and the task starts at
`closure_trampoline`, which takes the closure of whatever task is running and calls it.  `Closures` is the
machine of `Contexts` with these slots; the closures are numbered in the order of their creation.

That the trampoline finds the right closure rests on the isolation of the contexts: only a task that has not
run yet is at the trampoline.  `closures_run_once` says that every closure is called at most once, by the
task that it was given to, and that such a task has called it as soon as it is past the trampoline.
-/

namespace MosKernel

open Transition

/-- The machine with the slots of the control blocks: `slot` is `closure_storage` together with
`closure_invoker`.  The other fields only record: `owner` the closure that a task was created with, `made`
how many there have been, and `ran` those that have been called. -/
structure Closures where
  machine : Machine
  slot : Tid → Option ℕ
  owner : Tid → Option ℕ
  made : ℕ
  ran : List ℕ

/-- A move of the machine, or `closure_trampoline` of the running task, with the code of the closure up to its
next move. -/
inductive ClosureMove where
  | plain (a : Move)
  | trampoline (reg : Reg → BitVec 32) (pc mstatus : BitVec 32) (ram : BitVec 32 → BitVec 32)
    (globals : Globals)

namespace Closures

variable {L : Layout} {s s' : Closures} {a : ClosureMove} {m m' : Machine} {t u : Tid} {n : ℕ}

/-- `Task::create` writes the closure into the slot of the new task. -/
def give (s : Closures) (t : Tid) : Closures :=
  { s with
    slot := Function.update s.slot t (some s.made)
    owner := Function.update s.owner t (some s.made)
    made := s.made + 1 }

/-- The slot of a task that `create_raw` makes is that of `Tcb::empty`. -/
def clear (s : Closures) (t : Tid) : Closures :=
  { s with slot := Function.update s.slot t none, owner := Function.update s.owner t none }

/-- What a move does to the slots. -/
def store (s : Closures) (a : Move) : Closures :=
  match a, s.machine.kernel.allocTid with
  | .create _ _, some (t, _) => s.give t
  | .launch _, some (t, _) => s.give t
  | .createRaw _ _ _ _ _ _, some (t, _) => s.clear t
  | _, _ => s

theorem store_none {b : Move} (ha : s.machine.kernel.allocTid = none) : s.store b = s := by
  cases b <;> simp [store, ha]

theorem store_create {k : Kernel} {priority : ℕ} {name : String}
    (ha : s.machine.kernel.allocTid = some (u, k)) :
    s.store (.create priority name) = s.give u := by
  simp [store, ha]

theorem store_launch {k : Kernel} {e : Surroundings} (ha : s.machine.kernel.allocTid = some (u, k)) :
    s.store (.launch e) = s.give u := by
  simp [store, ha]

theorem store_createRaw {k : Kernel} {priority stackSize : ℕ} {name : String}
    {base entryAddr param : BitVec 32} (ha : s.machine.kernel.allocTid = some (u, k)) :
    s.store (.createRaw priority name stackSize base entryAddr param) = s.clear u := by
  simp [store, ha]

def step (L : Layout) (s : Closures) : ClosureMove → Option Closures
  | .plain a => (a.step L s.machine).map fun machine => { s.store a with machine }
  | .trampoline reg pc mstatus ram globals =>
    s.machine.kernel.currentTcbPtr.bind fun c =>
      ((Move.code reg pc mstatus ram globals).step L s.machine).map fun machine =>
        { s with machine, slot := Function.update s.slot c none, ran := (s.slot c).toList ++ s.ran }

/-- The moves of the machine under their conditions.  Nothing but a first context leads to the trampoline, and
there is no way out of it but through it.  Its address stands for all of it up to the `take`. -/
def Ok (L : Layout) (s : Closures) : ClosureMove → Prop
  | .plain a => a.Ok L s.machine ∧
    match a with
    | .code _ pc _ _ _ => s.machine.pc ≠ L.closureTrampoline ∧ pc ≠ L.closureTrampoline
    | .createRaw _ _ _ _ entryAddr _ => entryAddr ≠ L.closureTrampoline
    | .trap _ cause _ =>
      resumePc cause s.machine.pc (s.machine.reg .ra) = L.closureTrampoline ↔
        s.machine.pc = L.closureTrampoline
    | _ => True
  | .trampoline reg pc mstatus ram globals =>
    (Move.code reg pc mstatus ram globals).Ok L s.machine ∧ s.machine.pc = L.closureTrampoline ∧
      pc ≠ L.closureTrampoline

/-- `main` before it creates anything. -/
structure Installed (L : Layout) (s : Closures) : Prop where
  machine : s.machine.Installed L
  owner : ∀ t, s.owner t = none
  ran : s.ran = []

/-- The task `t` is at the trampoline, on the processor or off it. -/
def AtTrampoline (L : Layout) (m : Machine) (t : Tid) : Prop := (m.contextOf t).pc = L.closureTrampoline

/-- A closure that has not been called lies in the slot of its task, and this task is at the trampoline. -/
structure Inv (L : Layout) (s : Closures) : Prop where
  sound : s.machine.Sound L
  waits : ∀ t n, s.machine.Created t → s.owner t = some n → n ∉ s.ran →
    s.slot t = some n ∧ AtTrampoline L s.machine t
  due : ∀ t, s.machine.Created t → AtTrampoline L s.machine t → ∃ n, s.owner t = some n ∧ n ∉ s.ran
  lt : ∀ t n, s.owner t = some n → n < s.made
  inj : ∀ t u n, s.owner t = some n → s.owner u = some n → t = u
  nodup : s.ran.Nodup
  ran_lt : ∀ n ∈ s.ran, n < s.made

theorem Installed.inv (h : s.Installed L) : s.Inv L := by
  have hnone : ∀ t, ¬ s.machine.Created t := fun t ht => by
    rw [Machine.Created, h.machine.stack t] at ht
    cases ht
  refine ⟨h.machine.sound, fun t n ht => absurd ht (hnone t), fun t ht => absurd ht (hnone t),
    fun t n ho => ?_, fun t u n ho => ?_, by rw [h.ran]; exact List.nodup_nil, fun n hn => ?_⟩
  · rw [h.owner t] at ho
    cases ho
  · rw [h.owner t] at ho
    cases ho
  · rw [h.ran] at hn
    cases hn

/-! ### Creations -/

/-- A move that puts the new task into its first context and leaves the others in theirs. -/
structure Creates (L : Layout) (m m' : Machine) (first : Tid → Context) : Prop where
  sound : m'.Sound L
  context : ∀ t, m'.Created t → (m.Created t ∨ m.kernel.allocTid.map Prod.fst = some t) ∧
    m'.contextOf t = if m.kernel.allocTid.map Prod.fst = some t then first t else m.contextOf t

/-- Two contexts differ, so a move that forgets the context of a task is its creation. -/
theorem created_or_fresh {p : Prop} [Decidable p] {first : Context}
    (h : m.Created t ∨ ∀ c c' : Context, (if p then first else c) = if p then first else c') :
    m.Created t ∨ p := by
  refine h.imp_right fun hall => ?_
  by_contra hp
  have heq := hall ⟨fun _ => 0, 0⟩ ⟨fun _ => 0, 1⟩
  rw [if_neg hp, if_neg hp] at heq
  exact absurd (congrArg Context.pc heq) (by decide)

theorem creates_of_step {b : Move} {first : Tid → Context} (hp : L.Proper) (h : m.Sound L) (hok : b.Ok L m)
    (hs : b.step L m = some m')
    (hown : ∀ t c, b.own L m t c = if m.kernel.allocTid.map Prod.fst = some t then first t else c) :
    Creates L m m' first := by
  obtain ⟨hsound, hctx⟩ := Move.step_sound hp h hok hs
  refine ⟨hsound, fun t ht => ?_⟩
  obtain ⟨hnew, heq⟩ := hctx t ht
  simp only [hown] at hnew heq
  exact ⟨created_or_fresh hnew, heq⟩

/-- The new task is in its first context, the others are as they were. -/
theorem Creates.split {first : Tid → Context} {k : Kernel} (hc : Creates L m m' first)
    (ha : m.kernel.allocTid = some (u, k)) :
    (∀ t, m'.Created t → t ≠ u → m.Created t ∧ m'.contextOf t = m.contextOf t) ∧
      (m'.Created u → m'.contextOf u = first u) := by
  refine ⟨fun t ht htu => ?_, fun hu => ?_⟩
  · have hne : ¬ (m.kernel.allocTid.map Prod.fst = some t) := by
      rw [ha]
      exact fun he => htu (Option.some.inj he).symm
    obtain ⟨hnew, heq⟩ := hc.context t ht
    rw [if_neg hne] at heq
    exact ⟨hnew.resolve_right hne, heq⟩
  · have heq := (hc.context u hu).2
    rwa [ha, Option.map_some, if_pos rfl] at heq

/-- The pool is full: nothing happens. -/
theorem Inv.creates_none {first : Tid → Context} (h : s.Inv L) (hc : Creates L s.machine m' first)
    (ha : s.machine.kernel.allocTid = none) : Inv L { s with machine := m' } := by
  have hold : ∀ t, m'.Created t → s.machine.Created t ∧ m'.contextOf t = s.machine.contextOf t := by
    intro t ht
    obtain ⟨hnew, heq⟩ := hc.context t ht
    rw [ha, Option.map_none] at hnew heq
    rw [if_neg (Option.some_ne_none t).symm] at heq
    exact ⟨hnew.resolve_right (Option.some_ne_none t).symm, heq⟩
  refine ⟨hc.sound, fun t n ht ho hn => ?_, fun t ht hat => ?_, h.lt, h.inj, h.nodup, h.ran_lt⟩
  · obtain ⟨hslot, hat⟩ := h.waits t n (hold t ht).1 ho hn
    exact ⟨hslot, (congrArg Context.pc (hold t ht).2).trans hat⟩
  · exact h.due t (hold t ht).1 ((congrArg Context.pc (hold t ht).2).symm.trans hat)

/-- **A task with a closure**: its slot is its own, and nobody else's changes. -/
theorem Inv.give {first : Tid → Context} {k : Kernel} (h : s.Inv L) (hc : Creates L s.machine m' first)
    (ha : s.machine.kernel.allocTid = some (u, k)) (hfirst : ∀ t, (first t).pc = L.closureTrampoline) :
    Inv L { s.give u with machine := m' } := by
  obtain ⟨hold, hfresh⟩ := hc.split ha
  have hmade : s.made ∉ s.ran := fun hr => absurd (h.ran_lt _ hr) (lt_irrefl _)
  have hat : m'.Created u → AtTrampoline L m' u := by
    intro hu
    rw [AtTrampoline, hfresh hu]
    exact hfirst u
  refine ⟨hc.sound, fun t n ht ho hn => ?_, fun t ht hpc => ?_, fun t n ho => ?_, fun t v n ho hv => ?_,
    h.nodup, fun n hn => (h.ran_lt n hn).trans (Nat.lt_succ_self _)⟩
  all_goals simp only [Closures.give, Function.update_apply] at *
  · split_ifs at ho ⊢ with htu
    · exact ⟨ho, htu ▸ hat (htu ▸ ht)⟩
    · obtain ⟨hslot, hpc⟩ := h.waits t n (hold t ht htu).1 ho hn
      exact ⟨hslot, (congrArg Context.pc (hold t ht htu).2).trans hpc⟩
  · split_ifs with htu
    · exact ⟨s.made, rfl, hmade⟩
    · exact h.due t (hold t ht htu).1 ((congrArg Context.pc (hold t ht htu).2).symm.trans hpc)
  · split_ifs at ho
    · cases ho
      exact Nat.lt_succ_self _
    · exact (h.lt t n ho).trans (Nat.lt_succ_self _)
  · split_ifs at ho hv with htu hvu hvu
    · rw [htu, hvu]
    · cases ho
      exact absurd (h.lt v _ hv) (lt_irrefl _)
    · cases hv
      exact absurd (h.lt t _ ho) (lt_irrefl _)
    · exact h.inj t v n ho hv

/-- **A task without one** does not start at the trampoline. -/
theorem Inv.clear {first : Tid → Context} {k : Kernel} (h : s.Inv L) (hc : Creates L s.machine m' first)
    (ha : s.machine.kernel.allocTid = some (u, k)) (hfirst : ∀ t, (first t).pc ≠ L.closureTrampoline) :
    Inv L { s.clear u with machine := m' } := by
  obtain ⟨hold, hfresh⟩ := hc.split ha
  have hout : m'.Created u → ¬ AtTrampoline L m' u := by
    intro hu hpc
    rw [AtTrampoline, hfresh hu] at hpc
    exact hfirst u hpc
  refine ⟨hc.sound, fun t n ht ho hn => ?_, fun t ht hpc => ?_, fun t n ho => ?_, fun t v n ho hv => ?_,
    h.nodup, h.ran_lt⟩
  all_goals simp only [Closures.clear, Function.update_apply] at *
  · split_ifs at ho ⊢ with htu
    obtain ⟨hslot, hpc⟩ := h.waits t n (hold t ht htu).1 ho hn
    exact ⟨hslot, (congrArg Context.pc (hold t ht htu).2).trans hpc⟩
  · split_ifs with htu
    · exact absurd hpc (htu ▸ hout (htu ▸ ht))
    · exact h.due t (hold t ht htu).1 ((congrArg Context.pc (hold t ht htu).2).symm.trans hpc)
  · split_ifs at ho
    exact h.lt t n ho
  · split_ifs at ho hv
    exact h.inj t v n ho hv

/-! ### Code and traps -/

/-- A move that brings nobody to the trampoline and nobody away from it. -/
theorem Inv.keeps (h : s.Inv L) (hsound : m'.Sound L)
    (hold : ∀ t, m'.Created t → s.machine.Created t ∧ (AtTrampoline L m' t ↔ AtTrampoline L s.machine t)) :
    Inv L { s with machine := m' } := by
  refine ⟨hsound, fun t n ht ho hn => ?_, fun t ht hat => ?_, h.lt, h.inj, h.nodup, h.ran_lt⟩
  · obtain ⟨hcreated, hiff⟩ := hold t ht
    obtain ⟨hslot, hat⟩ := h.waits t n hcreated ho hn
    exact ⟨hslot, hiff.mpr hat⟩
  · obtain ⟨hcreated, hiff⟩ := hold t ht
    exact h.due t hcreated (hiff.mp hat)

/-- The running task is where the processor is. -/
theorem atTrampoline_current (ht : m.kernel.currentTcbPtr = some t) :
    AtTrampoline L m t ↔ m.pc = L.closureTrampoline := by
  rw [AtTrampoline, Machine.contextOf, if_pos ht]

theorem code_step {reg : Reg → BitVec 32} {pc mstatus : BitVec 32} {ram : BitVec 32 → BitVec 32}
    {globals : Globals} (hp : L.Proper) (h : m.Sound L) (hok : (Move.code reg pc mstatus ram globals).Ok L m)
    (hs : (Move.code reg pc mstatus ram globals).step L m = some m') : m'.Sound L ∧ ∀ t, m'.Created t →
      m.Created t ∧
        m'.contextOf t = if m.kernel.currentTcbPtr = some t then ⟨reg, pc⟩ else m.contextOf t := by
  obtain ⟨hsound, hctx⟩ := Move.step_sound hp h hok hs
  refine ⟨hsound, fun t ht => ⟨?_, (hctx t ht).2⟩⟩
  cases hs
  exact ht

theorem trap_step {slot : Fin 32} {cause : BitVec 32} {e : Surroundings} (hp : L.Proper) (h : m.Sound L)
    (hok : (Move.trap slot cause e).Ok L m) (hs : (Move.trap slot cause e).step L m = some m') :
    m'.Sound L ∧ ∀ t, m'.Created t → m.Created t ∧ (m'.contextOf t).pc =
      if m.kernel.currentTcbPtr = some t then resumePc cause m.pc (m.reg .ra) else (m.contextOf t).pc := by
  obtain ⟨hsound, hctx⟩ := Move.step_sound hp h hok hs
  refine ⟨hsound, fun t ht => ?_⟩
  obtain ⟨hnew, heq⟩ := hctx t ht
  constructor
  · refine hnew.resolve_right fun hall => ?_
    -- the registers come through a trap, so the context is not forgotten
    have h01 : (0 : BitVec 32) = 1 := by
      have hreg := congrArg (fun c : Context => c.reg .ra) (hall ⟨fun _ => 0, 0⟩ ⟨fun _ => 1, 0⟩)
      simp only [Move.own] at hreg
      split_ifs at hreg
      · exact hreg
      · exact hreg
    exact absurd h01 (by decide)
  · rw [heq, Move.own]
    split_ifs with hcur
    · rw [show m.contextOf t = ⟨m.reg, m.pc⟩ from if_pos hcur]
    · rfl

/-- **The trampoline** finds the closure of its own task, which has not been called, and calls it. -/
theorem Inv.trampoline {reg : Reg → BitVec 32} {pc mstatus : BitVec 32} {ram : BitVec 32 → BitVec 32}
    {globals : Globals} (hp : L.Proper) (h : s.Inv L) (hok : s.Ok L (.trampoline reg pc mstatus ram globals))
    (hs : s.step L (.trampoline reg pc mstatus ram globals) = some s') :
    ∃ c n, s.machine.kernel.currentTcbPtr = some c ∧ s.owner c = some n ∧ s.slot c = some n ∧ n ∉ s.ran ∧
      s'.ran = n :: s.ran ∧ s'.Inv L := by
  obtain ⟨hcode, hpc, hpc'⟩ := hok
  obtain ⟨c, hc, hs⟩ := Option.bind_eq_some_iff.mp hs
  obtain ⟨m', hm, rfl⟩ := Option.map_eq_some_iff.mp hs
  obtain ⟨hsound, hctx⟩ := code_step hp h.sound hcode hm
  have hcreated : s.machine.Created c := h.sound.kernel.current hc
  obtain ⟨n, ho, hn⟩ := h.due c hcreated ((atTrampoline_current hc).mpr hpc)
  obtain ⟨hslot, -⟩ := h.waits c n hcreated ho hn
  have hran : (s.slot c).toList ++ s.ran = n :: s.ran := by
    rw [hslot]
    rfl
  have hold : ∀ t, m'.Created t → t ≠ c → s.machine.Created t ∧ m'.contextOf t = s.machine.contextOf t := by
    intro t ht htc
    obtain ⟨hcreated, heq⟩ := hctx t ht
    rw [hc, if_neg fun he => htc (Option.some.inj he).symm] at heq
    exact ⟨hcreated, heq⟩
  have hout : m'.Created c → ¬ AtTrampoline L m' c := by
    intro ht hat
    rw [AtTrampoline, (hctx c ht).2, if_pos hc] at hat
    exact hpc' hat
  refine ⟨c, n, hc, ho, hslot, hn, hran, hsound, fun t n' ht ho' hn' => ?_, fun t ht hat => ?_, h.lt, h.inj,
    ?_, ?_⟩
  all_goals simp only [hran] at *
  · have htc : t ≠ c := by
      rintro rfl
      rw [ho] at ho'
      cases ho'
      exact hn' List.mem_cons_self
    obtain ⟨hslot', hat⟩ := h.waits t n' (hold t ht htc).1 ho' fun hm => hn' (List.mem_cons_of_mem _ hm)
    rw [Function.update_of_ne htc]
    exact ⟨hslot', (congrArg Context.pc (hold t ht htc).2).trans hat⟩
  · have htc : t ≠ c := fun he => hout (he ▸ ht) (he ▸ hat)
    obtain ⟨n', ho', hn'⟩ :=
      h.due t (hold t ht htc).1 ((congrArg Context.pc (hold t ht htc).2).symm.trans hat)
    refine ⟨n', ho', fun hm => ?_⟩
    rcases List.mem_cons.mp hm with rfl | hm
    · exact htc (h.inj t c n' ho' ho)
    · exact hn' hm
  · exact List.nodup_cons.mpr ⟨hn, h.nodup⟩
  · intro n' hn'
    rcases List.mem_cons.mp hn' with rfl | hn'
    · exact h.lt c n' ho
    · exact h.ran_lt n' hn'

/-- **One move.** -/
theorem Inv.step (hp : L.Proper) (h : s.Inv L) (hok : s.Ok L a) (hs : s.step L a = some s') : s'.Inv L := by
  cases a with
  | trampoline reg pc mstatus ram globals =>
      obtain ⟨-, -, -, -, -, -, -, hinv⟩ := h.trampoline hp hok hs
      exact hinv
  | plain b =>
      obtain ⟨hmove, hpc⟩ := hok
      obtain ⟨m', hm, rfl⟩ := Option.map_eq_some_iff.mp hs
      cases b with
      | code reg pc mstatus ram globals =>
          obtain ⟨hsound, hctx⟩ := code_step hp h.sound hmove hm
          refine h.keeps hsound fun t ht => ⟨(hctx t ht).1, ?_⟩
          rw [AtTrampoline, (hctx t ht).2]
          split_ifs with hcur
          · rw [atTrampoline_current hcur]
            exact iff_of_false hpc.2 hpc.1
          · rfl
      | create priority name =>
          have hc := creates_of_step hp h.sound hmove hm fun t c => rfl
          cases ha : s.machine.kernel.allocTid with
          | none =>
              rw [store_none ha]
              exact h.creates_none hc ha
          | some r =>
              obtain ⟨u, k⟩ := r
              rw [store_create ha]
              exact h.give hc ha fun _ => rfl
      | createRaw priority name stackSize base entryAddr param =>
          have hc := creates_of_step hp h.sound hmove hm fun t c => rfl
          cases ha : s.machine.kernel.allocTid with
          | none =>
              rw [store_none ha]
              exact h.creates_none hc ha
          | some r =>
              obtain ⟨u, k⟩ := r
              rw [store_createRaw ha]
              exact h.clear hc ha fun _ => hpc
      | launch e =>
          have hc := creates_of_step hp h.sound hmove hm fun t c => rfl
          cases ha : s.machine.kernel.allocTid with
          | none =>
              rw [store_none ha]
              exact h.creates_none hc ha
          | some r =>
              obtain ⟨u, k⟩ := r
              rw [store_launch ha]
              exact h.give hc ha fun _ => rfl
      | trap slot cause e =>
          obtain ⟨hsound, hctx⟩ := trap_step hp h.sound hmove hm
          refine h.keeps hsound fun t ht => ⟨(hctx t ht).1, ?_⟩
          rw [AtTrampoline, (hctx t ht).2]
          split_ifs with hcur
          · rw [atTrampoline_current hcur]
            exact hpc
          · rfl

/-- **Closures are called once.**  In every run from `main` of creations, the launch, code and traps: no
closure is called twice; where the running task is at the trampoline, it calls the closure that it was created
with; and a task that was created with a closure has called it as soon as it is past the trampoline.  The runs
meet the conditions of the machine (code leaves the statics of the scheduler and the saved frames of other
tasks alone, a task that creates one has not been freed, heap blocks are fresh, a trap finds room on the
stack), and nothing but a first context leads to the trampoline. -/
theorem closures_run_once {s₀ : Closures} {tr : List (Closures × ClosureMove)} (hp : L.Proper)
    (h₀ : s₀.Installed L) (hr : Run (Closures.step L) (Closures.Ok L) s₀ tr s) :
    s.ran.Nodup ∧
      (∀ t, s.machine.kernel.currentTcbPtr = some t → s.machine.pc = L.closureTrampoline →
        ∃ n, s.owner t = some n ∧ s.slot t = some n ∧ n ∉ s.ran) ∧
      ∀ t n, s.machine.Created t → s.owner t = some n → (n ∈ s.ran ↔ ¬ AtTrampoline L s.machine t) := by
  have h : s.Inv L := hr.invariant h₀.inv fun _ _ _ h hok hs => h.step hp hok hs
  refine ⟨h.nodup, fun t ht hpc => ?_, fun t n ht ho => ⟨fun hn hat => ?_, fun hat => ?_⟩⟩
  · have hcreated : s.machine.Created t := h.sound.kernel.current ht
    obtain ⟨n, ho, hn⟩ := h.due t hcreated ((atTrampoline_current ht).mpr hpc)
    exact ⟨n, ho, (h.waits t n hcreated ho hn).1, hn⟩
  · obtain ⟨n', ho', hn'⟩ := h.due t ht hat
    rw [ho] at ho'
    cases ho'
    exact hn' hn
  · by_contra hn
    exact hat (h.waits t n ht ho hn).2

def sample : Closures := ⟨.sample, fun _ => none, fun _ => none, 0, []⟩

theorem installed_sample : sample.Installed .sample := ⟨Machine.installed_sample, fun _ => rfl, rfl⟩

/-- A sample move, or the trampoline to an empty closure. -/
def sampleMove (s : Closures) : Option SampleMove → ClosureMove
  | some a => .plain a.move
  | none => .trampoline s.machine.reg (s.machine.pc + 4) s.machine.mstatus s.machine.ram s.machine.globals

def sampleCheck (s : Closures) : Option SampleMove → Bool
  | some a => a.check s.machine &&
      match a with
      | .trap _ cause => decide (resumePc cause s.machine.pc (s.machine.reg .ra) = 0x42000010 ↔
          s.machine.pc = 0x42000010)
      | _ => true
  | none => s.machine.pc = 0x42000010

theorem ok_of_sampleCheck {a : Option SampleMove} (hi : s.Inv .sample) (h : s.sampleCheck a = true) :
    s.Ok .sample (s.sampleMove a) := by
  cases a with
  | none =>
      have hpc : s.machine.pc = 0x42000010 := of_decide_eq_true h
      refine ⟨⟨⟨hi.sound.kernel, rfl, rfl⟩, fun _ _ _ _ _ => rfl⟩, hpc, ?_⟩
      rw [hpc]
      decide
  | some a =>
      obtain ⟨hcheck, hpc⟩ := Bool.and_eq_true_iff.mp h
      refine ⟨SampleMove.ok_of_check hcheck, ?_⟩
      cases a with
      | create priority name => trivial
      | launch => trivial
      | trap slot cause =>
          have hiff : resumePc cause s.machine.pc (s.machine.reg .ra) = 0x42000010 ↔
            s.machine.pc = 0x42000010 := of_decide_eq_true hpc
          exact hiff

/-- Two tasks and a third one, which comes while the second is at the trampoline. -/
theorem closures_run_once_run : ∃ tr s, Run (Closures.step .sample) (Closures.Ok .sample) sample tr s ∧
    s.ran = [1, 0] ∧ s.ran.Nodup ∧ ∀ t n, s.machine.Created t → s.owner t = some n →
      (n ∈ s.ran ↔ ¬ AtTrampoline .sample s.machine t) := by
  have hexec : (exec (fun s a => Closures.step .sample s (s.sampleMove a)) sampleCheck sample
      [some (.create 3 "a"), some (.create 3 "b"), some .launch, none, some (.trap 0 11),
        some (.trap 20 0x80000014), none]).any (fun s => s.ran = [1, 0]) = true := by
    decide +kernel
  obtain ⟨tr, s, hchecked, hran⟩ : ∃ tr s, Run (fun s a => Closures.step .sample s (s.sampleMove a))
      (fun s a => s.sampleCheck a = true) sample tr s ∧ decide (s.ran = [1, 0]) = true :=
    exists_run_of_exec (fun _ _ h => h) hexec
  have hr := hchecked.guard_of_invariant (I := Inv .sample) installed_sample.inv fun s a s' hi hc hs =>
    have hok := ok_of_sampleCheck hi hc
    ⟨hi.step Layout.proper_sample hok hs, hok⟩
  obtain ⟨hnodup, -, hiff⟩ := closures_run_once Layout.proper_sample installed_sample hr.map
  exact ⟨_, s, hr.map, of_decide_eq_true hran, hnodup, hiff⟩

end Closures

end MosKernel
