import MosKernel.Lib.Transition
import MosKernel.AsyncRt

/-!
# No spawn and no wake is lost

A slot of the task pool is live while its `poll_fn` is set.  `Intact` says what the pool, the executor's
position and the history of the futures have to do with each other, at every statement of `poll_all` and
`clear`; every action keeps it.  So no future is polled again after `Ready`, or dropped twice, and no two
live futures share a slot.

A live slot that has been notified stays `ready` until it is claimed, except in one case: `clear` unsets
`poll_fn`, which frees the slot for `spawn`, before it unsets `ready`.  `no_wake_is_lost` says that this
case is the only one.
-/

namespace MosKernel

open Transition

namespace ExecutorPc

/-- The live slot that the executor deals with. -/
def held : ExecutorPc → Option ℕ
  | .testReady i | .claim i | .unwrap i | .poll i _ | .polling i | .push i _ | .takeDropFn i
  | .drop i _ | .clearPollFn i => some i
  | _ => none

/-- The slot that has been claimed and whose poll has not begun. -/
def claimed : ExecutorPc → Option ℕ
  | .unwrap i | .poll i _ => some i
  | _ => none

/-- The slot whose future has returned `Ready`. -/
def finishing : ExecutorPc → Option ℕ
  | .takeDropFn i | .drop i _ | .clearPollFn i => some i
  | _ => none

/-- The slot whose `drop_fn` has been taken. -/
def taken : ExecutorPc → Option ℕ
  | .drop i _ | .clearPollFn i => some i
  | _ => none

/-- The first slot that the pass may still poll. -/
def next : ExecutorPc → ℕ
  | .testFree i | .testReady i | .claim i | .unwrap i | .poll i _ => i
  | .polling i | .push i _ | .takeDropFn i | .drop i _ | .clearPollFn i | .clearReady i => i + 1
  | .wakeExpired | .delay => asyncPoolMax

theorem held_of_finishing {pc : ExecutorPc} {i : ℕ} (h : pc.finishing = some i) : pc.held = some i := by
  cases pc <;> first | exact h | cases h

theorem finishing_of_taken {pc : ExecutorPc} {i : ℕ} (h : pc.taken = some i) :
    pc.finishing = some i := by
  cases pc <;> first | exact h | cases h

theorem taken_eq_none {pc : ExecutorPc} (h : pc.finishing = none) : pc.taken = none := by
  cases ht : pc.taken with
  | none => rfl
  | some i =>
      rw [finishing_of_taken ht] at h
      cases h

theorem finishing_eq_none {pc : ExecutorPc} (h : pc.held = none) : pc.finishing = none := by
  cases hf : pc.finishing with
  | none => rfl
  | some i =>
      rw [held_of_finishing hf] at h
      cases h

end ExecutorPc

def AsyncEvent.future : AsyncEvent → Future
  | .stored _ f | .polled f | .finished f | .dropped f => f

namespace AsyncRt

variable {σ σ' : AsyncRt} {a : AsyncAction} {f g : Future} {i j : ℕ}

/-! ### Futures -/

/-- The future has returned `Ready` and, if it needs to, has been dropped. -/
def Over (σ : AsyncRt) (f : Future) : Prop :=
  .finished f ∈ σ.history ∧ (f.needsDrop = true → .dropped f ∈ σ.history)

/-- `f` has been stored in slot `i` and is not over. -/
def LivesIn (σ : AsyncRt) (i : ℕ) (f : Future) : Prop := .stored i f ∈ σ.history ∧ ¬σ.Over f

/-- What the task pool, the executor and the history have to do with each other. -/
structure Intact (σ : AsyncRt) : Prop where
  small : ∀ i f, (σ.taskPool i).pollFn = some f → i < asyncPoolMax
  storage : ∀ i f, (σ.taskPool i).pollFn = some f → (σ.taskPool i).storage = some f
  stored : ∀ i f, (σ.taskPool i).pollFn = some f → .stored i f ∈ σ.history
  fresh : ∀ e ∈ σ.history, e.future.id < σ.futureCount
  storedOnce : ∀ i j f, .stored i f ∈ σ.history → .stored j f ∈ σ.history → i = j
  held : ∀ i, σ.pc.held = some i → (σ.taskPool i).pollFn ≠ none
  finished : ∀ i f, (σ.taskPool i).pollFn = some f →
    (.finished f ∈ σ.history ↔ σ.pc.finishing = some i)
  taken : ∀ i, σ.pc.taken = some i → (σ.taskPool i).dropFn = none
  willDrop : ∀ i f, (σ.taskPool i).pollFn = some f → f.needsDrop = true →
    (σ.taskPool i).dropFn = some f ∨ (∃ g, σ.pc = .drop i g) ∨ .dropped f ∈ σ.history
  dropped : ∀ i f, (σ.taskPool i).pollFn = some f → .dropped f ∈ σ.history → σ.pc = .clearPollFn i
  settled : ∀ i f, .stored i f ∈ σ.history → (σ.taskPool i).pollFn = some f ∨ σ.Over f
  notified : ∀ i, σ.pc = .clearReady i → (σ.taskPool i).pollFn ≠ none → σ.notified i = true
  repolled : σ.history.Pairwise fun later earlier => ∀ f, later = .polled f → earlier ≠ .finished f
  droppedOnce : ∀ f, σ.history.count (.dropped f) ≤ 1

theorem Intact.init : init.Intact := by
  constructor <;> simp [AsyncRt.init, TaskSlot.empty, ExecutorPc.held, ExecutorPc.taken]

/-- Nothing that `Intact` speaks of has changed, but for more notifications. -/
structure Keeps (σ σ' : AsyncRt) : Prop where
  pollFn : ∀ i, (σ'.taskPool i).pollFn = (σ.taskPool i).pollFn
  dropFn : ∀ i, (σ'.taskPool i).dropFn = (σ.taskPool i).dropFn
  storage : ∀ i, (σ'.taskPool i).storage = (σ.taskPool i).storage
  pc : σ'.pc = σ.pc
  history : σ'.history = σ.history
  futureCount : σ'.futureCount = σ.futureCount
  notified : ∀ i, σ.notified i = true → σ'.notified i = true

theorem Intact.keeps (h : σ.Intact) (hk : σ.Keeps σ') : σ'.Intact := by
  obtain ⟨hpoll, hdrop, hstorage, hpc, hhist, hcount, hnot⟩ := hk
  constructor
  · simpa only [hpoll] using h.small
  · simpa only [hpoll, hstorage] using h.storage
  · simpa only [hpoll, hhist] using h.stored
  · simpa only [hhist, hcount] using h.fresh
  · simpa only [hhist] using h.storedOnce
  · simpa only [hpoll, hpc] using h.held
  · simpa only [hpoll, hpc, hhist] using h.finished
  · simpa only [hdrop, hpc] using h.taken
  · simpa only [hpoll, hdrop, hpc, hhist] using h.willDrop
  · simpa only [hpoll, hpc, hhist] using h.dropped
  · simpa only [hpoll, hhist, Over] using h.settled
  · intro i hi hfree
    rw [hpc] at hi
    rw [hpoll] at hfree
    exact hnot i (h.notified i hi hfree)
  · simpa only [hhist] using h.repolled
  · simpa only [hhist] using h.droppedOnce

/-- A step of the clock, of the timers or of the pass. -/
theorem Keeps.of_eq (hpool : σ'.taskPool = σ.taskPool) (hpc : σ'.pc = σ.pc)
    (hhist : σ'.history = σ.history) (hcount : σ'.futureCount = σ.futureCount)
    (hnot : σ'.notified = σ.notified) : σ.Keeps σ' where
  pollFn := fun i => by rw [hpool]
  dropFn := fun i => by rw [hpool]
  storage := fun i => by rw [hpool]
  pc := hpc
  history := hhist
  futureCount := hcount
  notified := fun i hi => by rw [hnot]; exact hi

theorem Keeps.refl (σ : AsyncRt) : σ.Keeps σ := .of_eq rfl rfl rfl rfl rfl

theorem Keeps.trans {σ'' : AsyncRt} (h : σ.Keeps σ') (h' : σ'.Keeps σ'') : σ.Keeps σ'' where
  pollFn := fun i => (h'.pollFn i).trans (h.pollFn i)
  dropFn := fun i => (h'.dropFn i).trans (h.dropFn i)
  storage := fun i => (h'.storage i).trans (h.storage i)
  pc := h'.pc.trans h.pc
  history := h'.history.trans h.history
  futureCount := h'.futureCount.trans h.futureCount
  notified := fun i hi => h'.notified i (h.notified i hi)

theorem taskPool_setReady (σ : AsyncRt) (i : ℕ) (b : Bool) (j : ℕ) :
    (σ.setSlot i fun slot => { slot with ready := b }).taskPool j =
      { σ.taskPool j with ready := if j = i then b else (σ.taskPool j).ready } := by
  rw [setSlot_taskPool, Function.update_apply]
  split_ifs with hj
  · rw [hj]
  · rfl

theorem keeps_setReady (σ : AsyncRt) (i : ℕ) (b : Bool) :
    σ.Keeps (σ.setSlot i fun slot => { slot with ready := b }) where
  pollFn := fun j => by rw [taskPool_setReady]
  dropFn := fun j => by rw [taskPool_setReady]
  storage := fun j => by rw [taskPool_setReady]
  pc := rfl
  history := rfl
  futureCount := rfl
  notified := fun _ h => h

theorem keeps_wake (σ : AsyncRt) (i : ℕ) : σ.Keeps (σ.wake i) := by
  unfold wake
  split_ifs
  · apply (keeps_setReady σ i true).trans
    refine ⟨fun _ => rfl, fun _ => rfl, fun _ => rfl, rfl, rfl, rfl, fun j hj => ?_⟩
    show Function.update σ.notified i true j = true
    rw [Function.update_apply]
    split_ifs
    · rfl
    · exact hj
  · exact .refl σ

theorem keeps_wakeAll (σ : AsyncRt) (entries : List TimerEntry) : σ.Keeps (σ.wakeAll entries) := by
  induction entries generalizing σ with
  | nil => exact .refl σ
  | cons e entries ih =>
      obtain ⟨hpoll, hdrop, hstorage, hpc, hhist, hcount, hnot⟩ := keeps_wake σ e.waker
      have hk : σ.Keeps { σ.wake e.waker with wakes := (e.waker, σ.clock) :: σ.wakes } :=
        ⟨hpoll, hdrop, hstorage, hpc, hhist, hcount, hnot⟩
      exact hk.trans (ih _)

theorem keeps_setTimer (σ : AsyncRt) (j : ℕ) (u : Timer → Timer) : σ.Keeps (σ.setTimer j u) :=
  .of_eq rfl rfl rfl rfl rfl

/-- The executor goes on to a statement outside `clear`, or from a poll to the start of `clear`. -/
theorem Intact.setPc (h : σ.Intact) (pc : ExecutorPc)
    (hheld : ∀ i, pc.held = some i → (σ.taskPool i).pollFn ≠ none)
    (hfinishing : pc.finishing = σ.pc.finishing) (hbefore : σ.pc.taken = none)
    (htaken : ∀ i, pc.taken = some i → (σ.taskPool i).dropFn = none)
    (hclear : ∀ i, pc ≠ .clearReady i) : (σ.setPc pc).Intact where
  small := h.small
  storage := h.storage
  stored := h.stored
  fresh := h.fresh
  storedOnce := h.storedOnce
  held := hheld
  finished := by
    intro i f hf
    show _ ↔ pc.finishing = some i
    rw [hfinishing]
    exact h.finished i f hf
  taken := htaken
  willDrop := by
    intro i f hf hneeds
    rcases h.willDrop i f hf hneeds with hdrop | ⟨g, hpc⟩ | hdropped
    · exact .inl hdrop
    · rw [hpc] at hbefore
      cases hbefore
    · exact .inr (.inr hdropped)
  dropped := by
    intro i f hf hdropped
    have hpc := h.dropped i f hf hdropped
    rw [hpc] at hbefore
    cases hbefore
  settled := h.settled
  notified := fun i hi => absurd hi (hclear i)
  repolled := h.repolled
  droppedOnce := h.droppedOnce

/-- A future that has not been spawned yet appears nowhere. -/
theorem Intact.unseen (h : σ.Intact) (hnew : f.id = σ.futureCount) {e : AsyncEvent}
    (he : e ∈ σ.history) : e.future ≠ f := by
  rintro rfl
  exact absurd (h.fresh e he) (by omega)

/-- The executor deals with the future in the storage of its slot. -/
theorem Intact.live (h : σ.Intact) (hheld : σ.pc.held = some i)
    (hf : (σ.taskPool i).storage = some f) : (σ.taskPool i).pollFn = some f := by
  obtain ⟨f', hf'⟩ := Option.ne_none_iff_exists'.mp (h.held i hheld)
  rw [h.storage i f' hf'] at hf
  rw [hf', hf]

/-- Only a poll has to be later than no `Ready`. -/
theorem Intact.repolled_cons (h : σ.Intact) {e : AsyncEvent} (he : ∀ f, e ≠ .polled f) :
    (e :: σ.history).Pairwise fun later earlier => ∀ f, later = .polled f → earlier ≠ .finished f :=
  List.pairwise_cons.mpr ⟨fun _ _ f hf => absurd hf (he f), h.repolled⟩

theorem Intact.droppedOnce_cons (h : σ.Intact) (hf : .dropped f ∉ σ.history) :
    ∀ g, (AsyncEvent.dropped f :: σ.history).count (.dropped g) ≤ 1 := by
  intro g
  have hle := h.droppedOnce g
  have hzero := List.count_eq_zero_of_not_mem hf
  rw [List.count_cons]
  by_cases hg : f = g
  · rw [hg] at hzero
    rw [hzero]
    split_ifs <;> omega
  · have hne : ¬AsyncEvent.dropped f == .dropped g := by
      rw [beq_iff_eq]
      rintro ⟨⟩
      exact hg rfl
    rw [if_neg hne]
    exact hle

/-- `spawn` finds a free slot or none. -/
theorem spawn_cases (σ : AsyncRt) (b : Bool) :
    (∃ i < asyncPoolMax, (σ.taskPool i).pollFn = none ∧ σ.spawn b =
      { ((σ.setSlot i fun _ => .store ⟨σ.futureCount, b⟩).notify i).log
          (.stored i ⟨σ.futureCount, b⟩) with futureCount := σ.futureCount + 1 }) ∨
    σ.spawn b = { σ.log (.dropped ⟨σ.futureCount, b⟩) with futureCount := σ.futureCount + 1 } := by
  unfold spawn
  dsimp only
  split
  · rename_i i hfind
    have hfree : (σ.taskPool i).isFree = true := by
      have := List.find?_some hfind
      exact this
    have hmem : i < asyncPoolMax := List.mem_range.mp (List.mem_of_find?_eq_some hfind)
    exact .inl ⟨i, hmem, Option.isNone_iff_eq_none.mp hfree, rfl⟩
  · exact .inr rfl

/-- A new future is stored in a free slot. -/
theorem Intact.store (h : σ.Intact) (hi : i < asyncPoolMax) (hfree : (σ.taskPool i).pollFn = none)
    (hnew : f.id = σ.futureCount)
    (hslot : ∀ j, σ'.taskPool j = if j = i then .store f else σ.taskPool j) (hpc : σ'.pc = σ.pc)
    (hhist : σ'.history = .stored i f :: σ.history) (hcount : σ'.futureCount = σ.futureCount + 1)
    (hnot : ∀ j, σ'.notified j = if j = i then true else σ.notified j) : σ'.Intact := by
  have hother : ∀ j, σ.pc.held = some j → j ≠ i := by
    rintro j hj rfl
    exact h.held j hj hfree
  have hfin : ∀ j, σ.pc.finishing = some j → j ≠ i := fun j hj =>
    hother j (ExecutorPc.held_of_finishing hj)
  have htak : ∀ j, σ.pc.taken = some j → j ≠ i := fun j hj =>
    hfin j (ExecutorPc.finishing_of_taken hj)
  have hunseen : ∀ e ∈ σ.history, e.future ≠ f := fun e he => h.unseen hnew he
  have hpoll : ∀ j, (σ'.taskPool j).pollFn = if j = i then some f else (σ.taskPool j).pollFn := by
    intro j
    rw [hslot]
    split_ifs <;> rfl
  constructor <;> simp only [hpoll, hpc, hhist, hcount, hnot]
  · have := h.small
    grind
  · have := h.storage
    grind [TaskSlot.store]
  · have := h.stored
    grind
  · have := h.fresh
    grind [AsyncEvent.future]
  · have := h.storedOnce
    grind [AsyncEvent.future]
  · have := h.held
    grind
  · have := h.finished
    grind [AsyncEvent.future]
  · have := h.taken
    grind
  · have := h.willDrop
    grind [TaskSlot.store]
  · have := h.dropped
    grind [AsyncEvent.future]
  · have := h.settled
    grind [Over]
  · have := h.notified
    grind
  · exact h.repolled_cons (by simp)
  · have := h.droppedOnce
    grind

/-- The pool is full, and `spawn` drops the future. -/
theorem Intact.refuse (h : σ.Intact) (hnew : f.id = σ.futureCount) (hpool : σ'.taskPool = σ.taskPool)
    (hpc : σ'.pc = σ.pc) (hhist : σ'.history = .dropped f :: σ.history)
    (hcount : σ'.futureCount = σ.futureCount + 1) (hnot : σ'.notified = σ.notified) : σ'.Intact := by
  have hunseen : ∀ e ∈ σ.history, e.future ≠ f := fun e he => h.unseen hnew he
  constructor <;> simp only [hpool, hpc, hhist, hcount, hnot]
  · exact h.small
  · exact h.storage
  · have := h.stored
    grind
  · have := h.fresh
    grind [AsyncEvent.future]
  · have := h.storedOnce
    grind
  · exact h.held
  · have := h.finished
    grind
  · exact h.taken
  · have := h.willDrop
    grind
  · have := h.dropped
    have := h.stored
    grind [AsyncEvent.future]
  · have := h.settled
    grind [Over]
  · exact h.notified
  · exact h.repolled_cons (by simp)
  · exact h.droppedOnce_cons fun hf => hunseen _ hf rfl

/-- The executor polls the future in the slot it has claimed. -/
theorem Intact.poll (h : σ.Intact) (hat : σ.pc = .poll i g) (hf : (σ.taskPool i).storage = some f)
    (hpool : σ'.taskPool = σ.taskPool) (hpc : σ'.pc = .polling i)
    (hhist : σ'.history = .polled f :: σ.history) (hcount : σ'.futureCount = σ.futureCount) :
    σ'.Intact := by
  have hlive : (σ.taskPool i).pollFn = some f := h.live (by rw [hat]; rfl) hf
  have hunfinished : .finished f ∉ σ.history := by
    rw [h.finished i f hlive, hat]
    rintro ⟨⟩
  constructor <;> simp only [hpool, hpc, hhist, hcount]
  · exact h.small
  · exact h.storage
  · have := h.stored
    grind
  · have := h.fresh
    have := h.stored
    grind [AsyncEvent.future]
  · have := h.storedOnce
    grind
  · have := h.held
    grind [ExecutorPc.held]
  · have := h.finished
    grind [ExecutorPc.finishing]
  · have := h.taken
    grind [ExecutorPc.taken]
  · have := h.willDrop
    grind
  · have := h.dropped
    grind
  · have := h.settled
    grind [Over]
  · grind
  · refine List.pairwise_cons.mpr ⟨fun e he f' hpolled hfin => ?_, h.repolled⟩
    cases hpolled
    rw [hfin] at he
    exact hunfinished he
  · have := h.droppedOnce
    grind

/-- The poll returns `Ready`. -/
theorem Intact.finish (h : σ.Intact) (hat : σ.pc = .polling i) (hf : (σ.taskPool i).storage = some f)
    (hpool : σ'.taskPool = σ.taskPool) (hpc : σ'.pc = .takeDropFn i)
    (hhist : σ'.history = .finished f :: σ.history) (hcount : σ'.futureCount = σ.futureCount) :
    σ'.Intact := by
  have hlive : (σ.taskPool i).pollFn = some f := h.live (by rw [hat]; rfl) hf
  constructor <;> simp only [hpool, hpc, hhist, hcount]
  · exact h.small
  · exact h.storage
  · have := h.stored
    grind
  · have := h.fresh
    have := h.stored
    grind [AsyncEvent.future]
  · have := h.storedOnce
    grind
  · have := h.held
    grind [ExecutorPc.held]
  · have := h.finished
    have := h.stored
    have := h.storedOnce
    grind [ExecutorPc.finishing]
  · grind [ExecutorPc.taken]
  · have := h.willDrop
    grind
  · have := h.dropped
    grind
  · have := h.settled
    grind [Over]
  · grind
  · exact h.repolled_cons (by simp)
  · have := h.droppedOnce
    grind

/-- `clear` takes the drop function. -/
theorem Intact.takeDropFn (h : σ.Intact) (hat : σ.pc = .takeDropFn i)
    (hslot : ∀ j, σ'.taskPool j =
      if j = i then { σ.taskPool i with dropFn := none } else σ.taskPool j)
    (hpc : σ'.pc = .drop i g) (hhist : σ'.history = σ.history)
    (hcount : σ'.futureCount = σ.futureCount) : σ'.Intact := by
  have hpoll : ∀ j, (σ'.taskPool j).pollFn = (σ.taskPool j).pollFn := by
    intro j
    rw [hslot]
    split_ifs with hj
    · rw [hj]
    · rfl
  have hstorage : ∀ j, (σ'.taskPool j).storage = (σ.taskPool j).storage := by
    intro j
    rw [hslot]
    split_ifs with hj
    · rw [hj]
    · rfl
  constructor <;> simp only [hpoll, hstorage, hpc, hhist, hcount]
  · exact h.small
  · exact h.storage
  · exact h.stored
  · exact h.fresh
  · exact h.storedOnce
  · have := h.held
    grind [ExecutorPc.held]
  · have := h.finished
    grind [ExecutorPc.finishing]
  · grind [ExecutorPc.taken]
  · have := h.willDrop
    grind
  · have := h.dropped
    grind
  · have := h.settled
    grind [Over]
  · grind
  · exact h.repolled
  · exact h.droppedOnce

/-- `clear` drops the future. -/
theorem Intact.drop (h : σ.Intact) (hat : σ.pc = .drop i g) (hf : (σ.taskPool i).storage = some f)
    (hpool : σ'.taskPool = σ.taskPool) (hpc : σ'.pc = .clearPollFn i)
    (hhist : σ'.history = .dropped f :: σ.history) (hcount : σ'.futureCount = σ.futureCount) :
    σ'.Intact := by
  have hlive : (σ.taskPool i).pollFn = some f := h.live (by rw [hat]; rfl) hf
  have hundropped : .dropped f ∉ σ.history := by
    intro hdropped
    have hpc' := h.dropped i f hlive hdropped
    rw [hat] at hpc'
    cases hpc'
  constructor <;> simp only [hpool, hpc, hhist, hcount]
  · exact h.small
  · exact h.storage
  · have := h.stored
    grind
  · have := h.fresh
    have := h.stored
    grind [AsyncEvent.future]
  · have := h.storedOnce
    grind
  · have := h.held
    grind [ExecutorPc.held]
  · have := h.finished
    grind [ExecutorPc.finishing]
  · have := h.taken
    grind [ExecutorPc.taken]
  · have := h.willDrop
    grind
  · have := h.dropped
    have := h.stored
    have := h.storedOnce
    grind
  · have := h.settled
    grind [Over]
  · grind
  · exact h.repolled_cons (by simp)
  · exact h.droppedOnce_cons hundropped

/-- `clear` frees the slot. -/
theorem Intact.clearPollFn (h : σ.Intact) (hat : σ.pc = .clearPollFn i)
    (hslot : ∀ j, σ'.taskPool j =
      if j = i then { σ.taskPool i with pollFn := none } else σ.taskPool j)
    (hpc : σ'.pc = .clearReady i) (hhist : σ'.history = σ.history)
    (hcount : σ'.futureCount = σ.futureCount) : σ'.Intact := by
  have hold : ∀ j f, (σ'.taskPool j).pollFn = some f → j ≠ i ∧ σ'.taskPool j = σ.taskPool j := by
    intro j f hf
    have hj := hslot j
    split_ifs at hj with he
    · rw [hj] at hf
      cases hf
    · exact ⟨he, hj⟩
  constructor
  · intro j f hf
    obtain ⟨-, he⟩ := hold j f hf
    rw [he] at hf
    exact h.small j f hf
  · intro j f hf
    obtain ⟨-, he⟩ := hold j f hf
    rw [he] at hf ⊢
    exact h.storage j f hf
  · intro j f hf
    obtain ⟨-, he⟩ := hold j f hf
    rw [he] at hf
    rw [hhist]
    exact h.stored j f hf
  · simpa only [hhist, hcount] using h.fresh
  · simpa only [hhist] using h.storedOnce
  · rw [hpc]
    rintro j ⟨⟩
  · intro j f hf
    obtain ⟨hne, he⟩ := hold j f hf
    rw [he] at hf
    rw [hhist, hpc, h.finished j f hf, hat]
    constructor
    · rintro ⟨⟩
      exact absurd rfl hne
    · rintro ⟨⟩
  · rw [hpc]
    rintro j ⟨⟩
  · intro j f hf hneeds
    obtain ⟨-, he⟩ := hold j f hf
    rw [he] at hf
    rw [he, hhist]
    rcases h.willDrop j f hf hneeds with hdrop | ⟨g, hg⟩ | hdropped
    · exact .inl hdrop
    · rw [hat] at hg
      cases hg
    · exact .inr (.inr hdropped)
  · intro j f hf hdropped
    obtain ⟨hne, he⟩ := hold j f hf
    rw [he] at hf
    rw [hhist] at hdropped
    have hat' := h.dropped j f hf hdropped
    rw [hat] at hat'
    cases hat'
    exact absurd rfl hne
  · -- the future of slot `i` is over
    intro j f hstored
    rw [hhist] at hstored
    unfold Over
    rw [hhist]
    rcases h.settled j f hstored with hf | hover
    · by_cases hj : j = i
      · rw [hj] at hf
        have hfinished : .finished f ∈ σ.history := by
          rw [h.finished i f hf, hat]
          rfl
        refine .inr ⟨hfinished, fun hneeds => ?_⟩
        have htaken : (σ.taskPool i).dropFn = none := h.taken i (by rw [hat]; rfl)
        rcases h.willDrop i f hf hneeds with hdrop | ⟨g, hg⟩ | hdropped
        · rw [htaken] at hdrop
          cases hdrop
        · rw [hat] at hg
          cases hg
        · exact hdropped
      · rw [hslot, if_neg hj]
        exact .inl hf
    · exact .inr hover
  · intro j hj hlive
    rw [hpc] at hj
    cases hj
    rw [hslot, if_pos rfl] at hlive
    exact absurd rfl hlive
  · simpa only [hhist] using h.repolled
  · simpa only [hhist] using h.droppedOnce

/-! ### Steps -/

theorem Intact.spawn {b : Bool} (h : σ.Intact) : (σ.spawn b).Intact := by
  rcases spawn_cases σ b with ⟨i, hi, hfree, he⟩ | he
  · rw [he]
    exact h.store hi hfree rfl (fun j => Function.update_apply _ _ _ _) rfl rfl rfl
      fun j => Function.update_apply _ _ _ _
  · rw [he]
    exact h.refuse rfl rfl rfl rfl rfl rfl

theorem Intact.wakeExpired (h : σ.Intact) (hat : σ.pc = .wakeExpired) : σ.wakeExpired.Intact := by
  have hk := keeps_wakeAll { σ with timers := (σ.timers.popExpired σ.osTicks).2 }
    (σ.timers.popExpired σ.osTicks).1
  have hq : Intact { σ with timers := (σ.timers.popExpired σ.osTicks).2 } :=
    h.keeps (.of_eq rfl rfl rfl rfl rfl)
  have hpc := hk.pc.trans hat
  have hset := (hq.keeps hk).setPc (.testFree 0) (by rintro i ⟨⟩) (by rw [hpc]; rfl) (by rw [hpc]; rfl)
    (by rintro i ⟨⟩) (by rintro i ⟨⟩)
  exact hset.keeps (.of_eq rfl rfl rfl rfl rfl)

/-- The executor leaves a slot whose future has not returned `Ready`, or none. -/
theorem Intact.setPc_none (h : σ.Intact) (pc : ExecutorPc) (hheld : pc.held = none)
    (hbefore : σ.pc.finishing = none) (hclear : ∀ i, pc ≠ .clearReady i) : (σ.setPc pc).Intact := by
  have hfinishing := ExecutorPc.finishing_eq_none hheld
  apply h.setPc pc
  · intro i hi
    rw [hheld] at hi
    cases hi
  · rw [hfinishing, hbefore]
  · exact ExecutorPc.taken_eq_none hbefore
  · intro i hi
    rw [ExecutorPc.taken_eq_none hfinishing] at hi
    cases hi
  · exact hclear

/-- The executor goes on with the live slot `i`, before its future has returned `Ready`. -/
theorem Intact.setPc_held (h : σ.Intact) (pc : ExecutorPc) (hlive : (σ.taskPool i).pollFn ≠ none)
    (hheld : pc.held = some i) (hbefore : σ.pc.finishing = none) (hfinishing : pc.finishing = none)
    (hclear : ∀ i, pc ≠ .clearReady i) : (σ.setPc pc).Intact := by
  apply h.setPc pc
  · intro j hj
    rw [hheld] at hj
    cases hj
    exact hlive
  · rw [hfinishing, hbefore]
  · exact ExecutorPc.taken_eq_none hbefore
  · intro i hi
    rw [ExecutorPc.taken_eq_none hfinishing] at hi
    cases hi
  · exact hclear

/-- **Every statement of the executor keeps the pool intact.** -/
theorem Intact.proceed (h : σ.Intact) (hs : σ.proceed = some σ') : σ'.Intact := by
  unfold AsyncRt.proceed at hs
  split at hs
  · rename_i hat
    cases hs
    exact h.wakeExpired hat
  · rename_i idx hat
    have hbefore : σ.pc.finishing = none := by rw [hat]; rfl
    cases hs
    split_ifs with hidx hfree
    · exact h.setPc_none _ rfl hbefore (by rintro i ⟨⟩)
    · exact h.setPc_held _ (fun hn => hfree (Option.isNone_iff_eq_none.mpr hn)) rfl hbefore rfl
        (by rintro i ⟨⟩)
    · exact h.setPc_none _ rfl hbefore (by rintro i ⟨⟩)
    · exact h.setPc_none _ rfl hbefore (by rintro i ⟨⟩)
  · rename_i idx hat
    have hbefore : σ.pc.finishing = none := by rw [hat]; rfl
    have hlive := h.held idx (by rw [hat]; rfl)
    cases hs
    split_ifs
    · exact h.setPc_held _ hlive rfl hbefore rfl (by rintro i ⟨⟩)
    · exact h.setPc_none _ rfl hbefore (by rintro i ⟨⟩)
  · rename_i idx hat
    have hbefore : σ.pc.finishing = none := by rw [hat]; rfl
    have hk := keeps_setReady σ idx false
    have hlive : ((σ.setSlot idx fun slot => { slot with ready := false }).taskPool idx).pollFn ≠ none := by
      rw [hk.pollFn]
      exact h.held idx (by rw [hat]; rfl)
    cases hs
    have hset := (h.keeps hk).setPc_held (.unwrap idx) hlive rfl hbefore rfl (by rintro i ⟨⟩)
    exact hset.keeps (.of_eq rfl rfl rfl rfl rfl)
  · rename_i idx hat
    have hbefore : σ.pc.finishing = none := by rw [hat]; rfl
    obtain ⟨pollFn, -, rfl⟩ := Option.map_eq_some_iff.mp hs
    exact h.setPc_held _ (h.held idx (by rw [hat]; rfl)) rfl hbefore rfl (by rintro i ⟨⟩)
  · rename_i idx pollFn hat
    obtain ⟨f, hf, rfl⟩ := Option.map_eq_some_iff.mp hs
    exact h.poll hat hf rfl rfl rfl rfl
  · cases hs
  · rename_i idx j hat
    have hbefore : σ.pc.finishing = none := by rw [hat]; rfl
    cases hs
    have hset := (h.keeps (keeps_setTimer σ j fun timer => { timer with pending := true })).setPc_held
      (.polling idx) (h.held idx (by rw [hat]; rfl)) rfl hbefore rfl (by rintro i ⟨⟩)
    exact hset.keeps (.of_eq rfl rfl rfl rfl rfl)
  · rename_i idx hat
    cases hs
    split
    · exact h.takeDropFn hat (fun j => Function.update_apply _ _ _ _) rfl rfl rfl
    · rename_i hnone
      apply h.setPc
      · rintro i ⟨⟩
        exact h.held idx (by rw [hat]; rfl)
      · rw [hat]
        rfl
      · rw [hat]
        rfl
      · rintro i ⟨⟩
        exact hnone
      · rintro i ⟨⟩
  · rename_i idx dropFn hat
    obtain ⟨f, hf, rfl⟩ := Option.map_eq_some_iff.mp hs
    exact h.drop hat hf rfl rfl rfl rfl
  · rename_i idx hat
    cases hs
    exact h.clearPollFn hat (fun j => Function.update_apply _ _ _ _) rfl rfl rfl
  · rename_i idx hat
    have hbefore : σ.pc.finishing = none := by rw [hat]; rfl
    cases hs
    exact (h.keeps (keeps_setReady σ idx false)).setPc_none _ rfl hbefore (by rintro i ⟨⟩)
  · rename_i hat
    have hbefore : σ.pc.finishing = none := by rw [hat]; rfl
    cases hs
    exact h.setPc_none _ rfl hbefore (by rintro i ⟨⟩)

theorem Intact.pollReturns {ready : Bool} (h : σ.Intact) (hs : σ.pollReturns ready = some σ') :
    σ'.Intact := by
  unfold AsyncRt.pollReturns at hs
  split at hs
  · rename_i idx hat
    split_ifs at hs
    · obtain ⟨f, hf, rfl⟩ := Option.map_eq_some_iff.mp hs
      exact h.finish hat hf rfl rfl rfl rfl
    · cases hs
      exact h.setPc_none _ rfl (by rw [hat]; rfl) (by rintro i ⟨⟩)
  · cases hs

theorem Intact.pollTimer (h : σ.Intact) (hat : σ.pc = .polling i) :
    (σ.pollTimer i f j).Intact := by
  have hown := h.keeps (keeps_setTimer σ j fun timer => { timer with owner := some f })
  unfold AsyncRt.pollTimer
  dsimp only
  split_ifs
  · exact hown
  · exact hown
  · have hreg := hown.keeps (keeps_setTimer _ j fun timer => { timer with registered := true, idx := i })
    have hbefore : σ.pc.finishing = none := by rw [hat]; rfl
    exact hreg.setPc_held _ (h.held i (by rw [hat]; rfl)) rfl hbefore rfl (by rintro i ⟨⟩)

/-- **Every action keeps the pool intact.** -/
theorem Intact.step (h : σ.Intact) (hs : σ.step a = some σ') : σ'.Intact := by
  cases a with
  | proceed => exact h.proceed hs
  | pollReturns ready => exact h.pollReturns hs
  | spawn needsDrop =>
      cases hs
      exact h.spawn
  | wake idx =>
      cases hs
      exact h.keeps (keeps_wake σ idx)
  | tick =>
      cases hs
      exact h.keeps (.of_eq rfl rfl rfl rfl rfl)
  | delay ms =>
      cases hs
      exact h.keeps (.of_eq rfl rfl rfl rfl rfl)
  | pollTimer j =>
      unfold AsyncRt.step at hs
      dsimp only at hs
      split at hs
      · rename_i idx hat
        obtain ⟨f, -, hs⟩ := Option.bind_eq_some_iff.mp hs
        split_ifs at hs
        cases hs
        exact h.pollTimer hat
      · cases hs
  | dropTimer j =>
      unfold AsyncRt.step at hs
      dsimp only at hs
      split at hs
      · split_ifs at hs
        cases hs
        exact h.keeps (keeps_setTimer σ j _)
      · cases hs
        exact h.keeps (keeps_setTimer σ j _)

/-! ### Notified slots -/

/-- A live slot that has been notified is `ready` or has just been claimed, and a slot that was so when
the pass began is still ahead of the executor. -/
structure Armed (σ : AsyncRt) : Prop where
  woken : ∀ i, (σ.taskPool i).pollFn ≠ none → σ.notified i = true →
    (σ.taskPool i).ready = true ∨ σ.pc.claimed = some i
  due : ∀ i, σ.due i = true →
    σ.pc.next ≤ i ∧ i < asyncPoolMax ∧ (σ.taskPool i).pollFn ≠ none ∧ σ.notified i = true

theorem Armed.init : init.Armed := by
  constructor
  · intro i hi
    exact absurd rfl hi
  · rintro i ⟨⟩

theorem Armed.keeps (h : σ.Armed) (hk : σ.Keeps σ') (hdue : σ'.due = σ.due)
    (hready : ∀ i, σ'.notified i = true → (σ'.taskPool i).ready = true ∨
      σ.notified i = true ∧ (σ'.taskPool i).ready = (σ.taskPool i).ready) : σ'.Armed where
  woken := by
    intro i hlive hnot
    rw [hk.pollFn] at hlive
    rw [hk.pc]
    rcases hready i hnot with hr | ⟨hn, hr⟩
    · exact .inl hr
    · rw [hr]
      exact h.woken i hlive hn
  due := by
    intro i hi
    rw [hdue] at hi
    obtain ⟨hnext, hlt, hlive, hnot⟩ := h.due i hi
    rw [hk.pc, hk.pollFn]
    exact ⟨hnext, hlt, hlive, hk.notified i hnot⟩

theorem Armed.setPc (h : σ.Armed) (pc : ExecutorPc) (hclaimed : pc.claimed = σ.pc.claimed)
    (hnext : ∀ i, σ.due i = true → pc.next ≤ i) : (σ.setPc pc).Armed where
  woken := by
    intro i hlive hnot
    show _ ∨ pc.claimed = some i
    rw [hclaimed]
    exact h.woken i hlive hnot
  due := fun i hi => ⟨hnext i hi, (h.due i hi).2⟩

/-- The executor goes on with the same slot. -/
theorem Armed.setPc_same (h : σ.Armed) (pc : ExecutorPc) (hclaimed : pc.claimed = σ.pc.claimed)
    (hnext : pc.next = σ.pc.next) : (σ.setPc pc).Armed := by
  apply h.setPc pc hclaimed
  intro i hi
  rw [hnext]
  exact (h.due i hi).1

theorem Armed.wake (h : σ.Armed) (i : ℕ) : (σ.wake i).Armed := by
  refine h.keeps (keeps_wake σ i) ?_ ?_
  · unfold AsyncRt.wake
    split_ifs <;> rfl
  · intro j hj
    unfold AsyncRt.wake at hj ⊢
    split_ifs at hj ⊢
    · show ((σ.setSlot i fun slot => { slot with ready := true }).taskPool j).ready = true ∨ _ ∧
        ((σ.setSlot i fun slot => { slot with ready := true }).taskPool j).ready = _
      replace hj : Function.update σ.notified i true j = true := hj
      rw [taskPool_setReady]
      rw [Function.update_apply] at hj
      by_cases hji : j = i
      · exact .inl (if_pos hji)
      · rw [if_neg hji] at hj
        exact .inr ⟨hj, if_neg hji⟩
    · exact .inr ⟨hj, rfl⟩

theorem Armed.wakeAll (h : σ.Armed) (entries : List TimerEntry) : (σ.wakeAll entries).Armed := by
  induction entries generalizing σ with
  | nil => exact h
  | cons e entries ih =>
      have hw := h.wake e.waker
      have hlog : Armed { σ.wake e.waker with wakes := (e.waker, σ.clock) :: σ.wakes } :=
        ⟨hw.woken, hw.due⟩
      exact ih hlog

theorem Armed.spawn {b : Bool} (h : σ.Armed) : (σ.spawn b).Armed := by
  rcases spawn_cases σ b with ⟨i, hi, hfree, he⟩ | he
  · rw [he]
    constructor
    · intro j hlive hnot
      replace hlive : (Function.update σ.taskPool i (.store ⟨σ.futureCount, b⟩) j).pollFn ≠ none := hlive
      replace hnot : Function.update σ.notified i true j = true := hnot
      show (Function.update σ.taskPool i (.store ⟨σ.futureCount, b⟩) j).ready = true ∨ _
      rw [Function.update_apply] at hlive hnot ⊢
      split_ifs at hlive hnot ⊢
      · exact .inl rfl
      · exact h.woken j hlive hnot
    · intro j hj
      obtain ⟨hnext, hlt, hlive, hnot⟩ := h.due j hj
      have hne : j ≠ i := by
        rintro rfl
        exact hlive hfree
      refine ⟨hnext, hlt, ?_, ?_⟩
      · show (Function.update σ.taskPool i (.store ⟨σ.futureCount, b⟩) j).pollFn ≠ none
        rw [Function.update_of_ne hne]
        exact hlive
      · show Function.update σ.notified i true j = true
        rw [Function.update_of_ne hne]
        exact hnot
  · rw [he]
    exact ⟨h.woken, h.due⟩

/-- `clear` unsets `ready` in a slot that is still free. -/
def ClearsFree (σ : AsyncRt) (a : AsyncAction) : Prop :=
  a = .proceed → ∀ i, σ.pc = .clearReady i → (σ.taskPool i).isFree = true

theorem Armed.wakeExpired (h : σ.Armed) (hi : σ.Intact) (hat : σ.pc = .wakeExpired) :
    σ.wakeExpired.Armed := by
  have hk := keeps_wakeAll { σ with timers := (σ.timers.popExpired σ.osTicks).2 }
    (σ.timers.popExpired σ.osTicks).1
  have hq : Armed { σ with timers := (σ.timers.popExpired σ.osTicks).2 } := ⟨h.woken, h.due⟩
  have hw := (hq.wakeAll (σ.timers.popExpired σ.osTicks).1).woken
  constructor
  · intro i hlive hnot
    refine .inl ((hw i hlive hnot).resolve_right ?_)
    rw [hk.pc]
    show σ.pc.claimed ≠ some i
    rw [hat]
    rintro ⟨⟩
  · intro i hdue
    obtain ⟨hbusy, hnot⟩ := Bool.and_eq_true_iff.mp hdue
    have hlive : ((AsyncRt.wakeAll { σ with timers := (σ.timers.popExpired σ.osTicks).2 }
        (σ.timers.popExpired σ.osTicks).1).taskPool i).pollFn ≠ none := by
      intro hn
      rw [TaskSlot.isFree, hn] at hbusy
      cases hbusy
    refine ⟨Nat.zero_le i, ?_, hlive, hnot⟩
    rw [hk.pollFn] at hlive
    obtain ⟨f, hf⟩ := Option.ne_none_iff_exists'.mp hlive
    exact hi.small i f hf

/-- The executor claims the slot. -/
theorem Armed.claim {idx : ℕ} (h : σ.Armed) (hat : σ.pc = .claim idx) :
    Armed ((σ.setSlot idx fun slot => { slot with ready := false }).setPc (.unwrap idx)) where
  woken := by
    intro i hlive hnot
    show ((σ.setSlot idx fun slot => { slot with ready := false }).taskPool i).ready = true ∨
      ExecutorPc.claimed (.unwrap idx) = some i
    rw [taskPool_setReady]
    by_cases hidx : i = idx
    · rw [hidx]
      exact .inr rfl
    · replace hlive : ((σ.setSlot idx fun slot => { slot with ready := false }).taskPool i).pollFn ≠ none :=
        hlive
      rw [taskPool_setReady] at hlive
      have hready := (h.woken i hlive hnot).resolve_right (by rw [hat]; rintro ⟨⟩)
      rw [if_neg hidx]
      exact .inl hready
  due := by
    intro i hdue
    obtain ⟨hnext, hlt, hlive, hnot⟩ := h.due i hdue
    rw [hat] at hnext
    refine ⟨hnext, hlt, ?_, hnot⟩
    rw [← (keeps_setReady σ idx false).pollFn] at hlive
    exact hlive

/-- A poll takes the notification. -/
theorem Armed.poll {idx : ℕ} {e : AsyncEvent} (h : σ.Armed) (hat : σ.pc = .poll idx g) :
    Armed { (σ.log e).setPc (.polling idx) with
      notified := Function.update σ.notified idx false
      due := Function.update σ.due idx false } where
  woken := by
    intro i hlive hnot
    replace hnot : Function.update σ.notified idx false i = true := hnot
    rw [Function.update_apply] at hnot
    split_ifs at hnot with hidx
    refine .inl ((h.woken i hlive hnot).resolve_right ?_)
    rw [hat]
    rintro ⟨⟩
    exact hidx rfl
  due := by
    intro i hdue
    replace hdue : Function.update σ.due idx false i = true := hdue
    rw [Function.update_apply] at hdue
    split_ifs at hdue with hidx
    obtain ⟨hnext, hlt, hlive, hnot⟩ := h.due i hdue
    rw [hat] at hnext
    refine ⟨?_, hlt, hlive, ?_⟩
    · exact Nat.succ_le_of_lt (lt_of_le_of_ne hnext fun he => hidx he.symm)
    · show Function.update σ.notified idx false i = true
      rw [Function.update_of_ne hidx]
      exact hnot

/-- `clear` takes the drop function. -/
theorem Armed.takeDropFn {idx : ℕ} (h : σ.Armed) (hat : σ.pc = .takeDropFn idx) :
    Armed ((σ.setSlot idx fun slot => { slot with dropFn := none }).setPc (.drop idx g)) := by
  have hslot : ∀ i, (σ.setSlot idx fun slot => { slot with dropFn := none }).taskPool i =
      { σ.taskPool i with dropFn := if i = idx then none else (σ.taskPool i).dropFn } := by
    intro i
    rw [setSlot_taskPool, Function.update_apply]
    split_ifs with hi
    · rw [hi]
    · rfl
  have hset : Armed (σ.setSlot idx fun slot => { slot with dropFn := none }) := by
    constructor
    · intro i hlive hnot
      rw [hslot] at hlive ⊢
      exact h.woken i hlive hnot
    · intro i hdue
      rw [hslot]
      exact h.due i hdue
  exact hset.setPc_same _ (by rw [setSlot_pc, hat]; rfl) (by rw [setSlot_pc, hat]; rfl)

/-- `clear` makes the slot free. -/
theorem Armed.clearPollFn {idx : ℕ} (h : σ.Armed) (hat : σ.pc = .clearPollFn idx) :
    Armed ((σ.setSlot idx fun slot => { slot with pollFn := none }).setPc (.clearReady idx)) := by
  have hslot : ∀ i, i ≠ idx → (σ.setSlot idx fun slot => { slot with pollFn := none }).taskPool i =
      σ.taskPool i := fun i hne => Function.update_of_ne hne _ _
  have hfree : ((σ.setSlot idx fun slot => { slot with pollFn := none }).taskPool idx).pollFn = none := by
    rw [setSlot_taskPool, Function.update_self]
  constructor
  · intro i hlive hnot
    have hne : i ≠ idx := by
      rintro rfl
      exact hlive hfree
    replace hlive : ((σ.setSlot idx fun slot => { slot with pollFn := none }).taskPool i).pollFn ≠ none :=
      hlive
    rw [hslot i hne] at hlive
    have hready := (h.woken i hlive hnot).resolve_right (by rw [hat]; rintro ⟨⟩)
    rw [← hslot i hne] at hready
    exact .inl hready
  · intro i hdue
    obtain ⟨hnext, hlt, hlive, hnot⟩ := h.due i hdue
    rw [hat] at hnext
    have hne : i ≠ idx := (Nat.lt_of_succ_le hnext).ne'
    rw [← hslot i hne] at hlive
    exact ⟨hnext, hlt, hlive, hnot⟩

/-- `clear` has unset `ready`: nobody is woken in the slot if it is still free. -/
theorem Armed.clearReady {idx : ℕ} (h : σ.Armed) (hat : σ.pc = .clearReady idx)
    (hfree : (σ.taskPool idx).isFree = true) :
    Armed ((σ.setSlot idx fun slot => { slot with ready := false }).setPc (.testFree (idx + 1))) where
  woken := by
    intro i hlive hnot
    replace hlive : ((σ.setSlot idx fun slot => { slot with ready := false }).taskPool i).pollFn ≠ none :=
      hlive
    rw [taskPool_setReady] at hlive
    have hne : i ≠ idx := by
      rintro rfl
      exact hlive (Option.isNone_iff_eq_none.mp hfree)
    have hready := (h.woken i hlive hnot).resolve_right (by rw [hat]; rintro ⟨⟩)
    show ((σ.setSlot idx fun slot => { slot with ready := false }).taskPool i).ready = true ∨ _
    rw [taskPool_setReady, if_neg hne]
    exact .inl hready
  due := by
    intro i hdue
    obtain ⟨hnext, hlt, hlive, hnot⟩ := h.due i hdue
    rw [hat] at hnext
    rw [← (keeps_setReady σ idx false).pollFn] at hlive
    exact ⟨hnext, hlt, hlive, hnot⟩

/-- A statement of the executor keeps the slots armed, `self.ready = false` if the slot is still free. -/
theorem Armed.proceed (h : σ.Armed) (hi : σ.Intact) (hs : σ.proceed = some σ')
    (hC : σ.ClearsFree .proceed) : σ'.Armed := by
  unfold AsyncRt.proceed at hs
  split at hs
  · rename_i hat
    cases hs
    exact h.wakeExpired hi hat
  · rename_i idx hat
    have hahead : ∀ i, σ.due i = true → idx ≤ i := by
      intro i hdue
      have hnext := (h.due i hdue).1
      rw [hat] at hnext
      exact hnext
    cases hs
    split_ifs with hidx hfree
    · apply h.setPc (.testFree (idx + 1)) (by rw [hat]; rfl)
      intro i hdue
      have hne : idx ≠ i := by
        rintro rfl
        exact (h.due idx hdue).2.2.1 (Option.isNone_iff_eq_none.mp hfree)
      exact Nat.succ_le_of_lt (lt_of_le_of_ne (hahead i hdue) hne)
    · exact h.setPc_same _ (by rw [hat]; rfl) (by rw [hat]; rfl)
    · apply h.setPc _ (by rw [hat]; rfl)
      intro i hdue
      exact absurd ((hahead i hdue).trans_lt (h.due i hdue).2.1) hidx
    · apply h.setPc _ (by rw [hat]; rfl)
      intro i hdue
      exact absurd ((hahead i hdue).trans_lt (h.due i hdue).2.1) hidx
  · rename_i idx hat
    cases hs
    split_ifs with hready
    · exact h.setPc_same _ (by rw [hat]; rfl) (by rw [hat]; rfl)
    · apply h.setPc (.testFree (idx + 1)) (by rw [hat]; rfl)
      intro i hdue
      obtain ⟨hnext, -, hlive, hnot⟩ := h.due i hdue
      rw [hat] at hnext
      -- a slot that is due is ready, so the executor does not pass it
      have hne : idx ≠ i := by
        rintro rfl
        exact hready ((h.woken idx hlive hnot).resolve_right (by rw [hat]; rintro ⟨⟩))
      exact Nat.succ_le_of_lt (lt_of_le_of_ne hnext hne)
  · rename_i idx hat
    cases hs
    have hclaim := h.claim hat
    exact ⟨hclaim.woken, hclaim.due⟩
  · rename_i idx hat
    obtain ⟨pollFn, -, rfl⟩ := Option.map_eq_some_iff.mp hs
    exact h.setPc_same _ (by rw [hat]; rfl) (by rw [hat]; rfl)
  · rename_i idx pollFn hat
    obtain ⟨f, -, rfl⟩ := Option.map_eq_some_iff.mp hs
    exact h.poll hat
  · cases hs
  · rename_i idx j hat
    cases hs
    have hset := h.setPc_same (.polling idx) (by rw [hat]; rfl) (by rw [hat]; rfl)
    exact ⟨hset.woken, hset.due⟩
  · rename_i idx hat
    cases hs
    split
    · rename_i dropFn _
      exact h.takeDropFn hat
    · exact h.setPc_same _ (by rw [hat]; rfl) (by rw [hat]; rfl)
  · rename_i idx dropFn hat
    obtain ⟨f, -, rfl⟩ := Option.map_eq_some_iff.mp hs
    have hset := h.setPc_same (.clearPollFn idx) (by rw [hat]; rfl) (by rw [hat]; rfl)
    exact ⟨hset.woken, hset.due⟩
  · rename_i idx hat
    cases hs
    exact h.clearPollFn hat
  · rename_i idx hat
    cases hs
    exact h.clearReady hat (hC rfl idx hat)
  · rename_i hat
    cases hs
    exact h.setPc_same _ (by rw [hat]; rfl) (by rw [hat]; rfl)

theorem Armed.pollReturns {ready : Bool} (h : σ.Armed) (hs : σ.pollReturns ready = some σ') :
    σ'.Armed := by
  unfold AsyncRt.pollReturns at hs
  split at hs
  · rename_i idx hat
    split_ifs at hs
    · obtain ⟨f, -, rfl⟩ := Option.map_eq_some_iff.mp hs
      have hset := h.setPc_same (.takeDropFn idx) (by rw [hat]; rfl) (by rw [hat]; rfl)
      exact ⟨hset.woken, hset.due⟩
    · cases hs
      exact h.setPc_same _ (by rw [hat]; rfl) (by rw [hat]; rfl)
  · cases hs

theorem Armed.setTimer (h : σ.Armed) (j : ℕ) (u : Timer → Timer) : (σ.setTimer j u).Armed :=
  ⟨h.woken, h.due⟩

theorem Armed.pollTimer {idx : ℕ} (h : σ.Armed) (hat : σ.pc = .polling idx) :
    (σ.pollTimer idx f j).Armed := by
  have hown := h.setTimer j fun timer => { timer with owner := some f }
  unfold AsyncRt.pollTimer
  dsimp only
  split_ifs
  · exact hown
  · exact hown
  · exact (hown.setTimer j _).setPc_same _ (by show _ = σ.pc.claimed; rw [hat]; rfl)
      (by show _ = σ.pc.next; rw [hat]; rfl)

/-- **Every action keeps the slots armed**, `self.ready = false` if the slot is still free. -/
theorem Armed.step (h : σ.Armed) (hi : σ.Intact) (hs : σ.step a = some σ') (hC : σ.ClearsFree a) :
    σ'.Armed := by
  cases a with
  | proceed => exact h.proceed hi hs hC
  | pollReturns ready => exact h.pollReturns hs
  | spawn needsDrop =>
      cases hs
      exact h.spawn
  | wake idx =>
      cases hs
      exact h.wake idx
  | tick =>
      cases hs
      exact ⟨h.woken, h.due⟩
  | delay ms =>
      cases hs
      exact ⟨h.woken, h.due⟩
  | pollTimer j =>
      unfold AsyncRt.step at hs
      dsimp only at hs
      split at hs
      · rename_i idx hat
        obtain ⟨f, -, hs⟩ := Option.bind_eq_some_iff.mp hs
        split_ifs at hs
        cases hs
        exact h.pollTimer hat
      · cases hs
  | dropTimer j =>
      unfold AsyncRt.step at hs
      dsimp only at hs
      split at hs
      · split_ifs at hs
        cases hs
        exact h.setTimer j _
      · cases hs
        exact h.setTimer j _

/-! ### Runs -/

/-- Notified slots are not forgotten, futures are polled and dropped as they should be and do not share
slots, and a pass leaves nobody out who was live and notified when it began. -/
structure NothingLost (σ : AsyncRt) : Prop where
  woken : ∀ i, (σ.taskPool i).isFree = false → σ.notified i = true →
    (σ.taskPool i).ready = true ∨ σ.pc.claimed = some i
  repolled : σ.history.Pairwise fun later earlier => ∀ f, later = .polled f → earlier ≠ .finished f
  droppedOnce : ∀ f, σ.history.count (.dropped f) ≤ 1
  unshared : ∀ i f g, σ.LivesIn i f → σ.LivesIn i g → f = g
  selected : σ.pc = .wakeExpired ∨ σ.pc = .delay → ∀ i, σ.due i = false

theorem Armed.nothingLost (h : σ.Armed) (hi : σ.Intact) : σ.NothingLost where
  woken := by
    intro i hbusy hnot
    refine h.woken i (fun hn => ?_) hnot
    rw [TaskSlot.isFree, hn] at hbusy
    cases hbusy
  repolled := hi.repolled
  droppedOnce := hi.droppedOnce
  unshared := by
    intro i f g hf hg
    have hf' := (hi.settled i f hf.1).resolve_right hf.2
    have hg' := (hi.settled i g hg.1).resolve_right hg.2
    rw [hf'] at hg'
    exact Option.some.inj hg'
  selected := by
    intro hpc i
    rw [← Bool.not_eq_true]
    intro hdue
    obtain ⟨hnext, hlt, -⟩ := h.due i hdue
    have hend : σ.pc.next = asyncPoolMax := by
      rcases hpc with hpc | hpc <;> rw [hpc] <;> rfl
    omega

/-- If nothing is lost when `ready` has been unset, the slot was still free. -/
theorem Intact.clearsFree (h : σ.Intact) (hs : σ.step a = some σ') (hP : σ'.NothingLost) :
    σ.ClearsFree a := by
  rintro rfl i hat
  by_contra hbusy
  rw [Bool.not_eq_true] at hbusy
  have hlive : (σ.taskPool i).pollFn ≠ none := by
    intro hn
    rw [TaskSlot.isFree, hn] at hbusy
    cases hbusy
  have hnot := h.notified i hat hlive
  have hs' : σ' = (σ.setSlot i fun slot => { slot with ready := false }).setPc (.testFree (i + 1)) := by
    unfold AsyncRt.step AsyncRt.proceed at hs
    rw [hat] at hs
    exact (Option.some.inj hs).symm
  rw [hs'] at hP
  have hslot := taskPool_setReady σ i false i
  rcases hP.woken i (by rw [TaskSlot.isFree, setPc_taskPool, hslot]; exact hbusy) hnot with hready | hclaimed
  · rw [setPc_taskPool, hslot, if_pos rfl] at hready
    cases hready
  · cases hclaimed

end AsyncRt

/-- **No spawn and no wake is lost.**  In a run of the executor with any spawns, wakes, timers and ticks,
nothing is ever lost if and only if every `self.ready = false` of `clear` finds the slot still free. -/
theorem no_wake_is_lost {tr : List (AsyncRt × AsyncAction)} {σ : AsyncRt}
    (hr : Run AsyncRt.step (fun _ _ => True) .init tr σ) :
    Always AsyncRt.NothingLost tr σ ↔ ∀ e ∈ tr, e.1.ClearsFree e.2 := by
  apply hr.forall_iff (I := fun σ => σ.Intact ∧ σ.Armed)
  · exact ⟨.init, .init⟩
  · exact fun _ h => h.2.nothingLost h.1
  · exact fun _ _ _ h _ hs hC => ⟨h.1.step hs, h.2.step h.1 hs hC⟩
  · exact fun _ _ _ h _ hs hP => h.1.clearsFree hs hP

/-- The condition as a test. -/
def AsyncRt.clearsFree (σ : AsyncRt) : AsyncAction → Bool
  | .proceed => match σ.pc with
    | .clearReady i => (σ.taskPool i).isFree
    | _ => true
  | _ => true

theorem AsyncRt.clearsFree_spec (σ : AsyncRt) (a : AsyncAction) (h : σ.clearsFree a = true) :
    σ.ClearsFree a := by
  rintro rfl i hat
  unfold clearsFree at h
  dsimp only at h
  rw [hat] at h
  exact h

/-- A future is spawned, wakes itself in its first poll, returns `Ready` from its second, is dropped, and
leaves its slot to the next one. -/
theorem no_wake_is_lost_run : ∃ tr σ, Run AsyncRt.step (fun _ _ => True) .init tr σ ∧
    .dropped ⟨0, true⟩ ∈ σ.history ∧ .stored 0 ⟨1, false⟩ ∈ σ.history ∧
    (σ.taskPool 0).ready = true ∧ Always AsyncRt.NothingLost tr σ := by
  have hexec : (exec AsyncRt.step AsyncRt.clearsFree .init
      ([.spawn true] ++ List.replicate 6 .proceed ++ [.wake 0, .pollReturns false] ++
        List.replicate 22 .proceed ++ [.pollReturns true] ++ List.replicate 4 .proceed ++
        [.spawn false])).any (fun σ => .dropped ⟨0, true⟩ ∈ σ.history ∧
          .stored 0 ⟨1, false⟩ ∈ σ.history ∧ (σ.taskPool 0).ready = true) = true := by
    decide +kernel
  obtain ⟨tr, σ, hr, hσ⟩ := exists_run_of_exec AsyncRt.clearsFree_spec hexec
  obtain ⟨hdropped, hstored, hready⟩ := of_decide_eq_true hσ
  have hrun : Run AsyncRt.step (fun _ _ => True) .init tr σ := hr.mono fun _ _ _ => trivial
  exact ⟨tr, σ, hrun, hdropped, hstored, hready, (no_wake_is_lost hrun).mpr hr.forall_guard⟩

/-- The executor has unset `poll_fn` in `clear` when another task spawns into the slot: `clear` then
unsets the `ready` of the new future. -/
theorem spawned_future_is_lost : ∃ tr σ, Run AsyncRt.step (fun _ _ => True) .init tr σ ∧
    .stored 0 ⟨1, false⟩ ∈ σ.history ∧ .polled ⟨1, false⟩ ∉ σ.history ∧
    (σ.taskPool 0).pollFn = some ⟨1, false⟩ ∧ (σ.taskPool 0).ready = false ∧
    σ.pc = .testFree 1 ∧ ¬Always AsyncRt.NothingLost tr σ := by
  have hexec : (exec AsyncRt.step (fun _ _ => true) .init
      ([.spawn false] ++ List.replicate 6 .proceed ++ [.pollReturns true] ++
        List.replicate 2 .proceed ++ [.spawn false, .proceed])).any (fun σ =>
          (.stored 0 ⟨1, false⟩ ∈ σ.history ∧ .polled ⟨1, false⟩ ∉ σ.history ∧
            (σ.taskPool 0).pollFn = some ⟨1, false⟩ ∧ (σ.taskPool 0).ready = false ∧
            σ.pc = .testFree 1) ∧ σ.notified 0 = true) = true := by
    decide +kernel
  obtain ⟨tr, σ, hr, hσ⟩ := exists_run_of_exec (fun _ _ _ => trivial) hexec
  obtain ⟨⟨hstored, hpolled, hlive, hready, hpc⟩, hnot⟩ := of_decide_eq_true hσ
  refine ⟨tr, σ, hr, hstored, hpolled, hlive, hready, hpc, fun hall => ?_⟩
  rcases hall.2.woken 0 (by rw [TaskSlot.isFree, hlive]; rfl) hnot with hr | hc
  · rw [hready] at hr
    cases hr
  · rw [hpc] at hc
    cases hc

end MosKernel
