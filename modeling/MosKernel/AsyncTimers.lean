import MosKernel.Lib.Transition
import MosKernel.AsyncRt

/-!
# Which async timers fire

A `Timer` registers itself in `TIMERS` in the first of its polls that returns `Pending`, and never again.
`TIMERS` has room for `asyncPoolMax` entries, those of dropped timers included, and compares wake ticks
as a wrapping clock does.

`timers_fire` says exactly when every pending timer has its entry, and that a timer is woken in the first
pass at or after its deadline as long as the deadlines in the queue lie close together and the executor
comes in time.
-/

namespace MosKernel

open Transition

namespace AsyncRt

variable {σ σ' : AsyncRt} {a : AsyncAction} {f : Future} {i j : ℕ}

/-! ### What a step does to the timers -/

/-- Nothing that timers speak of has changed, and no timer has come to its push. -/
structure SameTimers (σ σ' : AsyncRt) : Prop where
  timers : σ'.timers = σ.timers
  timer : σ'.timer = σ.timer
  clock : σ'.clock = σ.clock
  timerCount : σ'.timerCount = σ.timerCount
  passClock : σ'.passClock = σ.passClock
  wakes : σ'.wakes = σ.wakes
  pc : ∀ i j, σ'.pc = .push i j → σ.pc = .push i j

/-- The steps that matter to timers, and all others. -/
inductive TimerStep (σ : AsyncRt) : AsyncAction → AsyncRt → Prop
  | wakeExpired : σ.pc = .wakeExpired → TimerStep σ .proceed σ.wakeExpired
  | push (i j : ℕ) : σ.pc = .push i j → TimerStep σ .proceed (σ.pushTimer i j)
  | tick : TimerStep σ .tick { σ with clock := σ.clock + 1 }
  | delay (ms : BitVec 32) : TimerStep σ (.delay ms) (σ.delay ms)
  | poll (i : ℕ) (f : Future) (j : ℕ) : σ.pc = .polling i → (σ.timer j).alive = true →
      TimerStep σ (.pollTimer j) (σ.pollTimer i f j)
  | drop (j : ℕ) : (∀ i, σ.pc ≠ .push i j) →
      TimerStep σ (.dropTimer j) (σ.setTimer j fun timer => { timer with alive := false })
  | other {a : AsyncAction} {σ' : AsyncRt} : SameTimers σ σ' → TimerStep σ a σ'

theorem sameTimers_setPc {pc : ExecutorPc} (hpc : ∀ i j, pc ≠ .push i j) :
    σ.SameTimers (σ.setPc pc) :=
  ⟨rfl, rfl, rfl, rfl, rfl, rfl, fun i j h => absurd h (hpc i j)⟩

theorem sameTimers_wake (σ : AsyncRt) (i : ℕ) : σ.SameTimers (σ.wake i) := by
  unfold wake
  split_ifs
  · exact ⟨rfl, rfl, rfl, rfl, rfl, rfl, fun _ _ h => h⟩
  · exact ⟨rfl, rfl, rfl, rfl, rfl, rfl, fun _ _ h => h⟩

theorem sameTimers_spawn (σ : AsyncRt) (b : Bool) : σ.SameTimers (σ.spawn b) := by
  unfold spawn
  dsimp only
  split
  · exact ⟨rfl, rfl, rfl, rfl, rfl, rfl, fun _ _ h => h⟩
  · exact ⟨rfl, rfl, rfl, rfl, rfl, rfl, fun _ _ h => h⟩

theorem timerStep_proceed (hs : σ.proceed = some σ') : TimerStep σ .proceed σ' := by
  unfold AsyncRt.proceed at hs
  split at hs
  · rename_i hat
    cases hs
    exact .wakeExpired hat
  · cases hs
    split_ifs <;> exact .other (sameTimers_setPc (by rintro i j ⟨⟩))
  · cases hs
    split_ifs <;> exact .other (sameTimers_setPc (by rintro i j ⟨⟩))
  · cases hs
    exact .other ⟨rfl, rfl, rfl, rfl, rfl, rfl, by rintro i j ⟨⟩⟩
  · obtain ⟨pollFn, -, rfl⟩ := Option.map_eq_some_iff.mp hs
    exact .other (sameTimers_setPc (by rintro i j ⟨⟩))
  · obtain ⟨f, -, rfl⟩ := Option.map_eq_some_iff.mp hs
    exact .other ⟨rfl, rfl, rfl, rfl, rfl, rfl, by rintro i j ⟨⟩⟩
  · cases hs
  · rename_i i j hat
    cases hs
    exact .push i j hat
  · cases hs
    split
    · exact .other ⟨rfl, rfl, rfl, rfl, rfl, rfl, by rintro i j ⟨⟩⟩
    · exact .other (sameTimers_setPc (by rintro i j ⟨⟩))
  · obtain ⟨f, -, rfl⟩ := Option.map_eq_some_iff.mp hs
    exact .other ⟨rfl, rfl, rfl, rfl, rfl, rfl, by rintro i j ⟨⟩⟩
  · cases hs
    exact .other ⟨rfl, rfl, rfl, rfl, rfl, rfl, by rintro i j ⟨⟩⟩
  · cases hs
    exact .other ⟨rfl, rfl, rfl, rfl, rfl, rfl, by rintro i j ⟨⟩⟩
  · cases hs
    exact .other (sameTimers_setPc (by rintro i j ⟨⟩))

theorem timerStep (hs : σ.step a = some σ') : TimerStep σ a σ' := by
  cases a with
  | proceed => exact timerStep_proceed hs
  | pollReturns ready =>
      change σ.pollReturns ready = some σ' at hs
      unfold AsyncRt.pollReturns at hs
      split at hs
      · split_ifs at hs
        · obtain ⟨f, -, rfl⟩ := Option.map_eq_some_iff.mp hs
          exact .other ⟨rfl, rfl, rfl, rfl, rfl, rfl, by rintro i j ⟨⟩⟩
        · cases hs
          exact .other (sameTimers_setPc (by rintro i j ⟨⟩))
      · cases hs
  | spawn needsDrop =>
      cases hs
      exact .other (sameTimers_spawn σ needsDrop)
  | wake idx =>
      cases hs
      exact .other (sameTimers_wake σ idx)
  | tick =>
      cases hs
      exact .tick
  | delay ms =>
      cases hs
      exact .delay ms
  | pollTimer j =>
      unfold AsyncRt.step at hs
      dsimp only at hs
      split at hs
      · rename_i idx hat
        obtain ⟨f, -, hs⟩ := Option.bind_eq_some_iff.mp hs
        split_ifs at hs with halive
        cases hs
        exact .poll idx f j hat halive.1
      · cases hs
  | dropTimer j =>
      unfold AsyncRt.step at hs
      dsimp only at hs
      split at hs
      · rename_i idx j' hat
        split_ifs at hs with hj
        cases hs
        refine .drop j fun i hpc => ?_
        rw [hat] at hpc
        cases hpc
        exact hj rfl
      · rename_i hno
        cases hs
        exact .drop j fun i hpc => hno i j hpc

/-- What the wakers of expired entries do to the timers. -/
theorem wakeAll_frame (σ : AsyncRt) (entries : List TimerEntry) :
    (σ.wakeAll entries).timers = σ.timers ∧ (σ.wakeAll entries).timer = σ.timer ∧
      (σ.wakeAll entries).clock = σ.clock ∧ (σ.wakeAll entries).timerCount = σ.timerCount ∧
      ∀ w, w ∈ (σ.wakeAll entries).wakes ↔
        w ∈ σ.wakes ∨ ∃ e ∈ entries, w = (e.waker, σ.clock) := by
  induction entries generalizing σ with
  | nil => simp [wakeAll]
  | cons e entries ih =>
      have hw := sameTimers_wake σ e.waker
      obtain ⟨htimers, htimer, hclock, hcount, hwakes⟩ :=
        ih { σ.wake e.waker with wakes := (e.waker, σ.clock) :: σ.wakes }
      refine ⟨htimers.trans hw.timers, htimer.trans hw.timer, hclock.trans hw.clock,
        hcount.trans hw.timerCount, fun w => ?_⟩
      apply (hwakes w).trans
      show w ∈ (e.waker, σ.clock) :: σ.wakes ∨ (∃ e' ∈ entries, w = (e'.waker, (σ.wake e.waker).clock)) ↔ _
      simp only [hw.clock, List.mem_cons, exists_eq_or_imp]
      tauto

/-- What the start of a pass does to the timers. -/
theorem wakeExpired_frame (σ : AsyncRt) :
    σ.wakeExpired.timers = (σ.timers.popExpired σ.osTicks).2 ∧ σ.wakeExpired.timer = σ.timer ∧
      σ.wakeExpired.clock = σ.clock ∧ σ.wakeExpired.timerCount = σ.timerCount ∧
      σ.wakeExpired.passClock = σ.clock ∧ ∀ w, w ∈ σ.wakeExpired.wakes ↔
        w ∈ σ.wakes ∨ ∃ e ∈ (σ.timers.popExpired σ.osTicks).1, w = (e.waker, σ.clock) := by
  obtain ⟨htimers, htimer, hclock, hcount, hwakes⟩ :=
    wakeAll_frame { σ with timers := (σ.timers.popExpired σ.osTicks).2 }
      (σ.timers.popExpired σ.osTicks).1
  exact ⟨htimers, htimer, hclock, hcount, hclock, hwakes⟩

/-! ### Deadlines -/

/-- Wake ticks are deadlines on the wrapping clock, less than `2 ^ 31` ahead. -/
structure Clocked (σ : AsyncRt) : Prop where
  wakeTick : ∀ j, (σ.timer j).wakeTick = BitVec.ofNat 32 (σ.timer j).deadline
  soon : ∀ j, (σ.timer j).deadline < σ.clock + 2 ^ 31
  unmade : ∀ j, σ.timerCount ≤ j → (σ.timer j).alive = false
  pending : ∀ j, (σ.timer j).pending = true → (σ.timer j).registered = true
  pushing : ∀ i j, σ.pc = .push i j → (σ.timer j).registered = true ∧ (σ.timer j).idx = i ∧
    (σ.timer j).alive = true

/-- `AsyncRuntime::delay` is called with less than `2 ^ 31` ms. -/
def DelaysInRange (a : AsyncAction) : Prop := ∀ ms, a = .delay ms → ms.toNat < 2 ^ 31

theorem Clocked.init : init.Clocked where
  wakeTick := fun _ => rfl
  soon := fun _ => Nat.two_pow_pos 31
  unmade := fun _ _ => rfl
  pending := by rintro j ⟨⟩
  pushing := by rintro i j ⟨⟩

@[simp] theorem timer_setTimer (σ : AsyncRt) (j : ℕ) (u : Timer → Timer) (j' : ℕ) :
    (σ.setTimer j u).timer j' = if j' = j then u (σ.timer j) else σ.timer j' :=
  Function.update_apply _ _ _ _

/-- `Timer::poll` registers the timer if it is neither expired nor registered. -/
theorem pollTimer_cases (σ : AsyncRt) (i : ℕ) (f : Future) (j : ℕ) :
    σ.pollTimer i f j = σ.setTimer j (fun timer => { timer with owner := some f }) ∨
    expired σ.osTicks (σ.timer j).wakeTick = false ∧ (σ.timer j).registered = false ∧
      σ.pollTimer i f j = (σ.setTimer j fun timer =>
        { timer with owner := some f, registered := true, idx := i }).setPc (.push i j) := by
  unfold pollTimer
  dsimp only
  split_ifs with hexp hreg
  · exact .inl rfl
  · exact .inl rfl
  · refine .inr ⟨Bool.not_eq_true _ ▸ hexp, Bool.not_eq_true _ ▸ hreg, ?_⟩
    simp only [setTimer, Function.update_self, Function.update_idem]

/-- Steps that leave the deadlines alone keep the clock conditions. -/
theorem Clocked.of_timer (h : σ.Clocked) (hc : σ.clock ≤ σ'.clock) (hn : σ.timerCount ≤ σ'.timerCount)
    (ht : ∀ j, (σ'.timer j).wakeTick = (σ.timer j).wakeTick ∧
      (σ'.timer j).deadline = (σ.timer j).deadline ∧
      ((σ'.timer j).alive = true → (σ.timer j).alive = true) ∧
      ((σ'.timer j).pending = true → (σ'.timer j).registered = true))
    (hp : ∀ i j, σ'.pc = .push i j → (σ'.timer j).registered = true ∧ (σ'.timer j).idx = i ∧
      (σ'.timer j).alive = true) : σ'.Clocked where
  wakeTick := by
    intro j
    rw [(ht j).1, (ht j).2.1]
    exact h.wakeTick j
  soon := by
    intro j
    have := h.soon j
    rw [(ht j).2.1]
    omega
  unmade := by
    intro j hj
    rw [← Bool.not_eq_true]
    intro halive
    have hdead := h.unmade j (hn.trans hj)
    rw [(ht j).2.2.1 halive] at hdead
    cases hdead
  pending := fun j => (ht j).2.2.2
  pushing := hp

theorem Clocked.same (h : σ.Clocked) (hs : σ.SameTimers σ') : σ'.Clocked := by
  apply h.of_timer hs.clock.ge hs.timerCount.ge
  · intro j
    rw [hs.timer]
    exact ⟨rfl, rfl, id, h.pending j⟩
  · intro i j hpc
    rw [hs.timer]
    exact h.pushing i j (hs.pc i j hpc)

theorem timer_delay (σ : AsyncRt) (ms : BitVec 32) (j : ℕ) :
    (σ.delay ms).timer j = if j = σ.timerCount then
      { wakeTick := σ.osTicks + ms, registered := false, deadline := σ.clock + ms.toNat, owner := none,
        idx := 0, pending := false, alive := true } else σ.timer j :=
  Function.update_apply _ _ _ _

theorem Clocked.delay {ms : BitVec 32} (h : σ.Clocked) (hms : ms.toNat < 2 ^ 31) :
    (σ.delay ms).Clocked := by
  have hticks : σ.osTicks + ms = BitVec.ofNat 32 (σ.clock + ms.toNat) := by
    rw [BitVec.ofNat_add, BitVec.ofNat_toNat, BitVec.setWidth_eq]
    rfl
  constructor
  · intro j
    rw [timer_delay]
    split_ifs
    · exact hticks
    · exact h.wakeTick j
  · intro j
    show _ < σ.clock + 2 ^ 31
    rw [timer_delay]
    split_ifs
    · exact Nat.add_lt_add_left hms _
    · exact h.soon j
  · intro j hj
    replace hj : σ.timerCount + 1 ≤ j := hj
    rw [timer_delay, if_neg (by omega)]
    exact h.unmade j (by omega)
  · intro j
    rw [timer_delay]
    split_ifs
    · rintro ⟨⟩
    · exact h.pending j
  · intro i j hpc
    have hpush := h.pushing i j hpc
    have hne : j ≠ σ.timerCount := by
      rintro rfl
      rw [h.unmade _ le_rfl] at hpush
      cases hpush.2.2
    rw [timer_delay, if_neg hne]
    exact hpush

theorem Clocked.wakeExpired (h : σ.Clocked) : σ.wakeExpired.Clocked := by
  obtain ⟨-, htimer, hclock, hcount, -⟩ := wakeExpired_frame σ
  apply h.of_timer
  · exact hclock.ge
  · exact hcount.ge
  · intro j
    rw [htimer]
    exact ⟨rfl, rfl, id, h.pending j⟩
  · rintro i j ⟨⟩

theorem Clocked.pushTimer (h : σ.Clocked) (hat : σ.pc = .push i j) : (σ.pushTimer i j).Clocked := by
  have htimer : ∀ j', (σ.pushTimer i j).timer j' =
      if j' = j then { σ.timer j with pending := true } else σ.timer j' := fun j' =>
    Function.update_apply _ _ _ _
  apply h.of_timer
  · exact le_rfl
  · exact le_rfl
  · intro j'
    rw [htimer]
    split_ifs with hj
    · rw [hj]
      exact ⟨rfl, rfl, id, fun _ => (h.pushing i j hat).1⟩
    · exact ⟨rfl, rfl, id, h.pending j'⟩
  · rintro i' j' ⟨⟩

theorem Clocked.pollTimer (h : σ.Clocked) (hat : σ.pc = .polling i) (halive : (σ.timer j).alive = true) :
    (σ.pollTimer i f j).Clocked := by
  rcases pollTimer_cases σ i f j with he | ⟨-, -, he⟩
  · rw [he]
    apply h.of_timer
    · exact le_rfl
    · exact le_rfl
    · intro j'
      rw [timer_setTimer]
      split_ifs with hj
      · rw [hj]
        exact ⟨rfl, rfl, id, h.pending j⟩
      · exact ⟨rfl, rfl, id, h.pending j'⟩
    · intro i' j' hpc
      rw [setTimer_pc, hat] at hpc
      cases hpc
  · rw [he]
    apply h.of_timer
    · exact le_rfl
    · exact le_rfl
    · intro j'
      rw [setPc_timer, timer_setTimer]
      split_ifs with hj
      · rw [hj]
        exact ⟨rfl, rfl, id, fun _ => rfl⟩
      · exact ⟨rfl, rfl, id, h.pending j'⟩
    · rintro i' j' ⟨⟩
      rw [setPc_timer, timer_setTimer, if_pos rfl]
      exact ⟨rfl, rfl, halive⟩

theorem Clocked.dropTimer (h : σ.Clocked) (hno : ∀ i, σ.pc ≠ .push i j) :
    (σ.setTimer j fun timer => { timer with alive := false }).Clocked := by
  apply h.of_timer
  · exact le_rfl
  · exact le_rfl
  · intro j'
    rw [timer_setTimer]
    split_ifs with hj
    · rw [hj]
      exact ⟨rfl, rfl, by rintro ⟨⟩, h.pending j⟩
    · exact ⟨rfl, rfl, id, h.pending j'⟩
  · intro i' j' hpc
    have hne : j' ≠ j := by
      rintro rfl
      exact hno i' hpc
    rw [timer_setTimer, if_neg hne]
    exact h.pushing i' j' hpc

theorem Clocked.step (h : σ.Clocked) (hd : DelaysInRange a) (hs : TimerStep σ a σ') : σ'.Clocked := by
  cases hs with
  | wakeExpired hat => exact h.wakeExpired
  | push i j hat => exact h.pushTimer hat
  | tick => exact ⟨h.wakeTick, fun j => (h.soon j).trans (by show _ < σ.clock + 1 + 2 ^ 31; omega),
      h.unmade, h.pending, h.pushing⟩
  | delay ms => exact h.delay (hd ms rfl)
  | poll i f j hat halive => exact h.pollTimer hat halive
  | drop j hno => exact h.dropTimer hno
  | other hsame => exact h.same hsame

/-! ### Entries -/

/-- Every pending timer whose deadline has not passed has an entry for the task that polled it. -/
def HasEntries (σ : AsyncRt) : Prop :=
  ∀ j, (σ.timer j).pending = true → (σ.timer j).alive = true → σ.clock < (σ.timer j).deadline →
    ∃ e ∈ σ.timers, e.wakeTick = (σ.timer j).wakeTick ∧ e.waker = (σ.timer j).idx

/-- `TIMERS` has room for timer `j`, or has an equal entry. -/
def HasRoom (σ : AsyncRt) (i j : ℕ) : Prop :=
  σ.timers.len < asyncPoolMax ∨ ∃ e ∈ σ.timers, e.wakeTick = (σ.timer j).wakeTick ∧ e.waker = i

/-- A timer whose deadline has not passed finds room. -/
def Fits (σ : AsyncRt) (a : AsyncAction) : Prop :=
  a = .proceed → ∀ i j, σ.pc = .push i j → σ.clock < (σ.timer j).deadline → σ.HasRoom i j

/-- The same for all pending timers, dropped or not. -/
def Entered (σ : AsyncRt) : Prop :=
  ∀ j, (σ.timer j).pending = true → σ.clock < (σ.timer j).deadline →
    ∃ e ∈ σ.timers, e.wakeTick = (σ.timer j).wakeTick ∧ e.waker = (σ.timer j).idx

theorem Entered.init : init.Entered := by
  rintro j ⟨⟩

/-- Steps under which entries stay and pending timers do not change. -/
theorem Entered.of_timer (h : σ.Entered) (hc : σ.clock ≤ σ'.clock)
    (ht : ∀ j, (σ'.timer j).pending = true → (σ.timer j).pending = true ∧
      (σ'.timer j).wakeTick = (σ.timer j).wakeTick ∧ (σ'.timer j).deadline = (σ.timer j).deadline ∧
      (σ'.timer j).idx = (σ.timer j).idx)
    (he : ∀ e ∈ σ.timers, ∀ j, e.wakeTick = (σ.timer j).wakeTick → σ.clock < (σ.timer j).deadline →
      e ∈ σ'.timers) : σ'.Entered := by
  intro j hpending hlt
  obtain ⟨hp, hw, hd, hi⟩ := ht j hpending
  rw [hd] at hlt
  obtain ⟨e, hmem, hwake, hwaker⟩ := h j hp (hc.trans_lt hlt)
  rw [hw, hi]
  exact ⟨e, he e hmem j hwake (hc.trans_lt hlt), hwake, hwaker⟩

/-- A pass takes no entry whose deadline has not passed. -/
theorem Entered.wakeExpired (h : σ.Entered) (hk : σ.Clocked) : σ.wakeExpired.Entered := by
  obtain ⟨htimers, htimer, hclock, -⟩ := wakeExpired_frame σ
  apply h.of_timer
  · exact hclock.ge
  · intro j hj
    rw [htimer] at hj ⊢
    exact ⟨hj, rfl, rfl, rfl⟩
  · intro e he j hwake hlt
    rw [htimers]
    obtain ⟨hmem, hexp⟩ := TimerQueue.mem_popExpired σ.osTicks σ.timers e
    refine (hmem.mp he).resolve_left fun hpop => ?_
    have hsoon := hk.soon j
    have hpast : (σ.timer j).deadline ≤ σ.clock := by
      have hexp' := hexp hpop
      rw [hwake, hk.wakeTick] at hexp'
      exact (TimerQueue.expired_ofNat (by omega) (by omega)).mp hexp'
    omega

theorem timer_pushTimer (σ : AsyncRt) (i j j' : ℕ) : (σ.pushTimer i j).timer j' =
    if j' = j then { σ.timer j with pending := true } else σ.timer j' :=
  Function.update_apply _ _ _ _

/-- The entry that `Timer::poll` of timer `j` in slot `i` pushes. -/
def entryOf (σ : AsyncRt) (i j : ℕ) : TimerEntry := ⟨(σ.timer j).wakeTick, i, (σ.timer j).deadline⟩

/-- After a push with room, the timer has its entry; no entry is lost. -/
theorem mem_pushTimer {e : TimerEntry} (he : e ∈ σ.timers) : e ∈ (σ.pushTimer i j).timers := by
  show e ∈ σ.timers.push (σ.entryOf i j)
  by_cases hlt : σ.timers.len < asyncPoolMax
  · exact (TimerQueue.mem_push hlt).mpr (.inr he)
  · rw [TimerQueue.push_of_full (not_lt.mp hlt)]
    exact he

theorem HasRoom.entry (h : σ.HasRoom i j) : ∃ e ∈ (σ.pushTimer i j).timers,
    e.wakeTick = (σ.timer j).wakeTick ∧ e.waker = i := by
  rcases h with hlt | ⟨e, he, hentry⟩
  · exact ⟨σ.entryOf i j, (TimerQueue.mem_push hlt).mpr (.inl rfl), rfl, rfl⟩
  · exact ⟨e, mem_pushTimer he, hentry⟩

/-- Where there is no room, the push leaves no entry. -/
theorem hasRoom_of_entry (h : ∃ e ∈ (σ.pushTimer i j).timers,
    e.wakeTick = (σ.timer j).wakeTick ∧ e.waker = i) : σ.HasRoom i j := by
  by_cases hlt : σ.timers.len < asyncPoolMax
  · exact .inl hlt
  · obtain ⟨e, he, hentry⟩ := h
    replace he : e ∈ σ.timers.push (σ.entryOf i j) := he
    rw [TimerQueue.push_of_full (not_lt.mp hlt)] at he
    exact .inr ⟨e, he, hentry⟩

theorem Entered.pushTimer (h : σ.Entered) (hk : σ.Clocked) (hat : σ.pc = .push i j)
    (hroom : σ.clock < (σ.timer j).deadline → σ.HasRoom i j) : (σ.pushTimer i j).Entered := by
  intro j' hpending hlt
  rw [timer_pushTimer] at hpending hlt ⊢
  split_ifs at hpending hlt ⊢ with hj
  · obtain ⟨e, he, hwake, hwaker⟩ := (hroom hlt).entry
    exact ⟨e, he, hwake, hwaker.trans (hk.pushing i j hat).2.1.symm⟩
  · obtain ⟨e, he, hentry⟩ := h j' hpending hlt
    exact ⟨e, mem_pushTimer he, hentry⟩

theorem Entered.pollTimer (h : σ.Entered) (hk : σ.Clocked) : (σ.pollTimer i f j).Entered := by
  rcases pollTimer_cases σ i f j with he | ⟨-, hreg, he⟩
  · rw [he]
    apply h.of_timer
    · exact le_rfl
    · intro j' hj'
      rw [timer_setTimer] at hj' ⊢
      split_ifs at hj' ⊢ with hj
      · rw [hj]
        exact ⟨hj', rfl, rfl, rfl⟩
      · exact ⟨hj', rfl, rfl, rfl⟩
    · exact fun e he _ _ _ => he
  · rw [he]
    apply h.of_timer
    · exact le_rfl
    · intro j' hj'
      rw [setPc_timer, timer_setTimer] at hj' ⊢
      split_ifs at hj' ⊢ with hj
      · -- a timer that registers is not pending yet
        have hregistered := hk.pending j hj'
        rw [hreg] at hregistered
        cases hregistered
      · exact ⟨hj', rfl, rfl, rfl⟩
    · exact fun e he _ _ _ => he

theorem Entered.step (h : σ.Entered) (hk : σ.Clocked) (hs : TimerStep σ a σ') (hC : σ.Fits a) :
    σ'.Entered := by
  cases hs with
  | wakeExpired hat => exact h.wakeExpired hk
  | push i j hat => exact h.pushTimer hk hat (hC rfl i j hat)
  | tick =>
      intro j hpending hlt
      exact h j hpending ((Nat.lt_succ_self _).trans hlt)
  | delay ms =>
      apply h.of_timer
      · exact le_rfl
      · intro j hj
        rw [timer_delay] at hj ⊢
        split_ifs at hj ⊢
        exact ⟨hj, rfl, rfl, rfl⟩
      · exact fun e he _ _ _ => he
  | poll i f j hat halive => exact h.pollTimer hk
  | drop j hno =>
      apply h.of_timer
      · exact le_rfl
      · intro j' hj'
        rw [timer_setTimer] at hj' ⊢
        split_ifs at hj' ⊢ with hj
        · rw [hj]
          exact ⟨hj', rfl, rfl, rfl⟩
        · exact ⟨hj', rfl, rfl, rfl⟩
      · exact fun e he _ _ _ => he
  | other hsame =>
      apply h.of_timer hsame.clock.ge
      · intro j hj
        rw [hsame.timer] at hj ⊢
        exact ⟨hj, rfl, rfl, rfl⟩
      · intro e he _ _ _
        rw [hsame.timers]
        exact he

theorem Entered.hasEntries (h : σ.Entered) : σ.HasEntries := fun j hpending _ hlt => h j hpending hlt

/-- If the pushed timer has an entry, there was room. -/
theorem Clocked.fits (h : σ.Clocked) (hs : σ.step a = some σ') (hP : σ'.HasEntries) : σ.Fits a := by
  rintro rfl i j hat hlt
  have hs' : σ' = σ.pushTimer i j := by
    unfold AsyncRt.step AsyncRt.proceed at hs
    rw [hat] at hs
    exact (Option.some.inj hs).symm
  rw [hs'] at hP
  have htimer : (σ.pushTimer i j).timer j = { σ.timer j with pending := true } := by
    rw [timer_pushTimer, if_pos rfl]
  obtain ⟨-, hidx, halive⟩ := h.pushing i j hat
  obtain ⟨e, he, hwake, hwaker⟩ := hP j (by rw [htimer]) (by rw [htimer]; exact halive)
    (by rw [htimer]; exact hlt)
  rw [htimer] at hwake hwaker
  exact hasRoom_of_entry ⟨e, he, hwake, hwaker.trans hidx⟩

/-! ### Waking in time -/

/-- Every pending timer whose deadline was not later than the latest pass has been woken in a pass at or
after its deadline. -/
def WokenInTime (σ : AsyncRt) : Prop :=
  ∀ j, (σ.timer j).pending = true → (σ.timer j).deadline ≤ σ.passClock →
    ∃ c, (σ.timer j).deadline ≤ c ∧ c ≤ σ.passClock ∧ ((σ.timer j).idx, c) ∈ σ.wakes

/-- A pushed entry finds room and is less than `2 ^ 31` ticks away from the others; no timer is polled and
no entry is left `2 ^ 31` ticks or more after its deadline. -/
structure InTime (σ : AsyncRt) (a : AsyncAction) : Prop where
  room : a = .proceed → ∀ i j, σ.pc = .push i j → σ.HasRoom i j
  near : a = .proceed → ∀ i j, σ.pc = .push i j → ∀ e ∈ σ.timers,
    e.deadline < (σ.timer j).deadline + 2 ^ 31 ∧ (σ.timer j).deadline < e.deadline + 2 ^ 31
  pass : a = .proceed → σ.pc = .wakeExpired → ∀ e ∈ σ.timers, σ.clock < e.deadline + 2 ^ 31
  poll : ∀ j, a = .pollTimer j → σ.clock < (σ.timer j).deadline + 2 ^ 31

theorem InTime.fits (h : σ.InTime a) : σ.Fits a := fun ha i j hat _ => h.room ha i j hat

/-- Between two passes: the entries are in order and after the latest pass, and every pending timer has
its entry or has been woken. -/
structure Scheduled (σ : AsyncRt) : Prop where
  inOrder : σ.timers.InOrder
  soon : ∀ e ∈ σ.timers, e.deadline < σ.clock + 2 ^ 31
  later : ∀ e ∈ σ.timers, σ.passClock < e.deadline
  passed : σ.passClock ≤ σ.clock
  pushing : ∀ i j, σ.pc = .push i j → σ.passClock < (σ.timer j).deadline
  entry : ∀ j, (σ.timer j).pending = true →
    (∃ e ∈ σ.timers, e.deadline = (σ.timer j).deadline ∧ e.waker = (σ.timer j).idx) ∨
    ∃ c, (σ.timer j).deadline ≤ c ∧ c ≤ σ.passClock ∧ ((σ.timer j).idx, c) ∈ σ.wakes

theorem Scheduled.init : init.Scheduled where
  inOrder := .new
  soon := fun e he => absurd he (TimerQueue.not_mem_new e)
  later := fun e he => absurd he (TimerQueue.not_mem_new e)
  passed := le_rfl
  pushing := by rintro i j ⟨⟩
  entry := by rintro j ⟨⟩

theorem Scheduled.wokenInTime (h : σ.Scheduled) : σ.WokenInTime := by
  intro j hpending hle
  refine (h.entry j hpending).resolve_left ?_
  rintro ⟨e, he, hd, -⟩
  have := h.later e he
  omega

/-- Steps that touch neither the queue nor the deadlines of pending timers. -/
theorem Scheduled.of_timer (h : σ.Scheduled) (hq : σ'.timers = σ.timers) (hc : σ.clock ≤ σ'.clock)
    (hpass : σ'.passClock = σ.passClock) (hw : σ'.wakes = σ.wakes)
    (hp : ∀ i j, σ'.pc = .push i j → σ.passClock < (σ'.timer j).deadline)
    (ht : ∀ j, (σ'.timer j).pending = true → (σ.timer j).pending = true ∧
      (σ'.timer j).deadline = (σ.timer j).deadline ∧ (σ'.timer j).idx = (σ.timer j).idx) :
    σ'.Scheduled where
  inOrder := by
    rw [hq]
    exact h.inOrder
  soon := by
    intro e he
    rw [hq] at he
    have := h.soon e he
    omega
  later := by
    rw [hq, hpass]
    exact h.later
  passed := by
    rw [hpass]
    exact h.passed.trans hc
  pushing := by
    rw [hpass]
    exact hp
  entry := by
    intro j hj
    obtain ⟨hpending, hd, hi⟩ := ht j hj
    rw [hq, hpass, hw, hd, hi]
    exact h.entry j hpending

/-- A pass wakes the timers whose deadlines have come and leaves the others. -/
theorem Scheduled.wakeExpired (h : σ.Scheduled)
    (hpass : ∀ e ∈ σ.timers, σ.clock < e.deadline + 2 ^ 31) : σ.wakeExpired.Scheduled := by
  obtain ⟨htimers, htimer, hclock, -, hpassed, hwakes⟩ := wakeExpired_frame σ
  have hmem := TimerQueue.mem_popExpired σ.osTicks σ.timers
  have hleft : ∀ e ∈ σ.wakeExpired.timers, e ∈ σ.timers := by
    intro e he
    rw [htimers] at he
    exact (hmem e).1.mpr (.inr he)
  constructor
  · rw [htimers]
    exact h.inOrder.popExpired σ.osTicks
  · intro e he
    rw [hclock]
    exact h.soon e (hleft e he)
  · intro e he
    rw [hpassed]
    rw [htimers] at he
    exact h.inOrder.not_expired hpass (fun e he => (h.soon e he).le) e he
  · rw [hpassed, hclock]
  · rintro i j ⟨⟩
  · intro j hj
    rw [htimer] at hj ⊢
    rw [hpassed]
    rcases h.entry j hj with ⟨e, he, hd, hw⟩ | ⟨c, hle, hc, hwoken⟩
    · rcases (hmem e).1.mp he with hpop | hstay
      · -- its deadline has come, for it is not `2 ^ 31` ticks ahead
        have hexp := (hmem e).2 hpop
        have hsoon := h.soon e he
        rw [h.inOrder.wakeTick e he] at hexp
        have hpast := (TimerQueue.expired_ofNat (hpass e he) (by omega)).mp hexp
        rw [hd] at hpast
        exact .inr ⟨σ.clock, hpast, le_rfl, (hwakes _).mpr (.inr ⟨e, hpop, by rw [hw]⟩)⟩
      · rw [htimers]
        exact .inl ⟨e, hstay, hd, hw⟩
    · exact .inr ⟨c, hle, hc.trans h.passed, (hwakes _).mpr (.inl hwoken)⟩

theorem Scheduled.pushTimer (h : σ.Scheduled) (hk : σ.Clocked) (hat : σ.pc = .push i j)
    (hroom : σ.HasRoom i j) (hnear : ∀ e ∈ σ.timers,
      e.deadline < (σ.timer j).deadline + 2 ^ 31 ∧ (σ.timer j).deadline < e.deadline + 2 ^ 31) :
    (σ.pushTimer i j).Scheduled := by
  have hmem : ∀ e ∈ (σ.pushTimer i j).timers, e = σ.entryOf i j ∨ e ∈ σ.timers := by
    intro e he
    replace he : e ∈ σ.timers.push (σ.entryOf i j) := he
    by_cases hlt : σ.timers.len < asyncPoolMax
    · exact (TimerQueue.mem_push hlt).mp he
    · rw [TimerQueue.push_of_full (not_lt.mp hlt)] at he
      exact .inr he
  -- an equal entry has the same deadline, since it is near
  have hentry : ∃ e ∈ (σ.pushTimer i j).timers, e.deadline = (σ.timer j).deadline ∧ e.waker = i := by
    rcases hroom with hlt | ⟨e, he, hwake, hwaker⟩
    · exact ⟨σ.entryOf i j, (TimerQueue.mem_push hlt).mpr (.inl rfl), rfl, rfl⟩
    · refine ⟨e, mem_pushTimer he, ?_, hwaker⟩
      rw [h.inOrder.wakeTick e he, hk.wakeTick] at hwake
      have hmod := congrArg BitVec.toNat hwake
      rw [BitVec.toNat_ofNat, BitVec.toNat_ofNat] at hmod
      have := hnear e he
      omega
  constructor
  · exact h.inOrder.push (hk.wakeTick j) hnear
  · intro e he
    rcases hmem e he with rfl | he
    · exact hk.soon j
    · exact h.soon e he
  · intro e he
    rcases hmem e he with rfl | he
    · exact h.pushing i j hat
    · exact h.later e he
  · exact h.passed
  · rintro i' j' ⟨⟩
  · intro j' hj'
    rw [timer_pushTimer] at hj' ⊢
    split_ifs at hj' ⊢ with hj
    · obtain ⟨e, he, hd, hw⟩ := hentry
      exact .inl ⟨e, he, hd, hw.trans (hk.pushing i j hat).2.1.symm⟩
    · rcases h.entry j' hj' with ⟨e, he, hd, hw⟩ | hwoken
      · exact .inl ⟨e, mem_pushTimer he, hd, hw⟩
      · exact .inr hwoken

theorem Scheduled.pollTimer (h : σ.Scheduled) (hk : σ.Clocked) (hat : σ.pc = .polling i)
    (hlate : σ.clock < (σ.timer j).deadline + 2 ^ 31) : (σ.pollTimer i f j).Scheduled := by
  rcases pollTimer_cases σ i f j with he | ⟨hexp, hreg, he⟩
  · rw [he]
    apply h.of_timer
    · rfl
    · exact le_rfl
    · rfl
    · rfl
    · intro i' j' hpc
      rw [setTimer_pc, hat] at hpc
      cases hpc
    · intro j' hj'
      rw [timer_setTimer] at hj' ⊢
      split_ifs at hj' ⊢ with hj
      · rw [hj]
        exact ⟨hj', rfl, rfl⟩
      · exact ⟨hj', rfl, rfl⟩
  · rw [he]
    apply h.of_timer
    · rfl
    · exact le_rfl
    · rfl
    · rfl
    · rintro i' j' ⟨⟩
      rw [setPc_timer, timer_setTimer, if_pos rfl]
      have hsoon := hk.soon j
      have hpassed := h.passed
      rw [hk.wakeTick, ← Bool.not_eq_true] at hexp
      have hahead := mt (TimerQueue.expired_ofNat hlate (by omega)).mpr hexp
      show σ.passClock < (σ.timer j).deadline
      omega
    · intro j' hj'
      rw [setPc_timer, timer_setTimer] at hj' ⊢
      split_ifs at hj' ⊢ with hj
      · have hregistered := hk.pending j hj'
        rw [hreg] at hregistered
        cases hregistered
      · exact ⟨hj', rfl, rfl⟩

theorem Scheduled.step (h : σ.Scheduled) (hk : σ.Clocked) (hs : TimerStep σ a σ') (hC : σ.InTime a) :
    σ'.Scheduled := by
  cases hs with
  | wakeExpired hat => exact h.wakeExpired (hC.pass rfl hat)
  | push i j hat => exact h.pushTimer hk hat (hC.room rfl i j hat) (hC.near rfl i j hat)
  | tick =>
      apply h.of_timer
      · rfl
      · exact Nat.le_succ _
      · rfl
      · rfl
      · exact h.pushing
      · exact fun j hj => ⟨hj, rfl, rfl⟩
  | delay ms =>
      apply h.of_timer
      · rfl
      · exact le_rfl
      · rfl
      · rfl
      · intro i j hpc
        have halive := (hk.pushing i j hpc).2.2
        have hne : j ≠ σ.timerCount := by
          rintro rfl
          rw [hk.unmade _ le_rfl] at halive
          cases halive
        rw [timer_delay, if_neg hne]
        exact h.pushing i j hpc
      · intro j hj
        rw [timer_delay] at hj ⊢
        split_ifs at hj ⊢
        exact ⟨hj, rfl, rfl⟩
  | poll i f j hat halive => exact h.pollTimer hk hat (hC.poll j rfl)
  | drop j hno =>
      apply h.of_timer
      · rfl
      · exact le_rfl
      · rfl
      · rfl
      · intro i' j' hpc
        have hne : j' ≠ j := by
          rintro rfl
          exact hno i' hpc
        rw [timer_setTimer, if_neg hne]
        exact h.pushing i' j' hpc
      · intro j' hj'
        rw [timer_setTimer] at hj' ⊢
        split_ifs at hj' ⊢ with hj
        · rw [hj]
          exact ⟨hj', rfl, rfl⟩
        · exact ⟨hj', rfl, rfl⟩
  | other hsame =>
      apply h.of_timer
      · exact hsame.timers
      · exact hsame.clock.ge
      · exact hsame.passClock
      · exact hsame.wakes
      · intro i j hpc
        rw [hsame.timer]
        exact h.pushing i j (hsame.pc i j hpc)
      · intro j hj
        rw [hsame.timer] at hj ⊢
        exact ⟨hj, rfl, rfl⟩

end AsyncRt

/-- **Which timers fire.**  In a run of the executor with delays of less than `2 ^ 31` ms, every pending
timer whose deadline has not passed has its entry if and only if every such timer finds room when it is
pushed.  If pushed entries find room and lie close to the others, and timers and passes come in time, then
every pending timer is also woken in the first pass at or after its deadline. -/
theorem timers_fire {tr : List (AsyncRt × AsyncAction)} {σ : AsyncRt}
    (hr : Run AsyncRt.step (fun _ a => AsyncRt.DelaysInRange a) .init tr σ) :
    (Always AsyncRt.HasEntries tr σ ↔ ∀ e ∈ tr, e.1.Fits e.2) ∧
      ((∀ e ∈ tr, e.1.InTime e.2) →
        Always (fun σ => σ.HasEntries ∧ σ.WokenInTime) tr σ) := by
  have hentries : Always AsyncRt.HasEntries tr σ ↔ ∀ e ∈ tr, e.1.Fits e.2 := by
    apply hr.forall_iff (I := fun σ => σ.Clocked ∧ σ.Entered)
    · exact ⟨.init, .init⟩
    · exact fun _ h => h.2.hasEntries
    · intro σ a σ' h hd hs hC
      have hst := AsyncRt.timerStep hs
      exact ⟨h.1.step hd hst, h.2.step h.1 hst hC⟩
    · exact fun _ _ _ h _ hs hP => h.1.fits hs hP
  refine ⟨hentries, fun hC => ?_⟩
  have hall := hentries.mpr fun e he => (hC e he).fits
  have hscheduled := (hr.strengthen hC).always (I := fun σ => σ.Clocked ∧ σ.Scheduled)
    ⟨.init, .init⟩ fun σ a σ' h hok hs =>
      ⟨h.1.step hok.1 (AsyncRt.timerStep hs), h.2.step h.1 (AsyncRt.timerStep hs) hok.2⟩
  exact ⟨fun e he => ⟨hall.1 e he, (hscheduled.1 e he).2.wokenInTime⟩,
    hall.2, hscheduled.2.2.wokenInTime⟩

instance (a : AsyncAction) : Decidable (AsyncRt.DelaysInRange a) :=
  match a with
  | .delay ms => decidable_of_iff (ms.toNat < 2 ^ 31) ⟨by rintro h _ ⟨⟩; exact h, fun h => h ms rfl⟩
  | .proceed | .pollReturns _ | .spawn _ | .wake _ | .tick | .pollTimer _ | .dropTimer _ =>
    .isTrue (by rintro _ ⟨⟩)

/-- A test that is enough for the conditions. -/
def AsyncRt.inTime (σ : AsyncRt) : AsyncAction → Bool
  | .proceed => match σ.pc with
    | .push _ j => σ.timers.len < asyncPoolMax ∧ ∀ k < σ.timers.len,
        (σ.timers.data k).deadline < (σ.timer j).deadline + 2 ^ 31 ∧
          (σ.timer j).deadline < (σ.timers.data k).deadline + 2 ^ 31
    | .wakeExpired => decide (∀ k < σ.timers.len, σ.clock < (σ.timers.data k).deadline + 2 ^ 31)
    | _ => true
  | .pollTimer j => σ.clock < (σ.timer j).deadline + 2 ^ 31
  | .delay ms => ms.toNat < 2 ^ 31
  | _ => true

theorem AsyncRt.inTime_spec (σ : AsyncRt) (a : AsyncAction) (h : σ.inTime a = true) :
    AsyncRt.DelaysInRange a ∧ σ.InTime a := by
  refine ⟨?_, ?_, ?_, ?_, ?_⟩
  · rintro ms rfl
    exact of_decide_eq_true h
  · rintro rfl i j hat
    unfold AsyncRt.inTime at h
    dsimp only at h
    rw [hat] at h
    exact .inl (of_decide_eq_true h).1
  · rintro rfl i j hat e ⟨k, hk, rfl⟩
    unfold AsyncRt.inTime at h
    dsimp only at h
    rw [hat] at h
    exact (of_decide_eq_true h).2 k hk
  · rintro rfl hat e ⟨k, hk, rfl⟩
    unfold AsyncRt.inTime at h
    dsimp only at h
    rw [hat] at h
    exact of_decide_eq_true h k hk
  · rintro j rfl
    exact of_decide_eq_true h

/-- A future polls two timers and drops the second; the first wakes it in the pass at its deadline. -/
theorem timers_fire_run : ∃ tr σ,
    Run AsyncRt.step (fun _ a => AsyncRt.DelaysInRange a) .init tr σ ∧
      (σ.timer 0).pending = true ∧ (σ.timer 0).deadline = 5 ∧ σ.passClock = 5 ∧ (0, 5) ∈ σ.wakes ∧
      Always (fun σ => σ.HasEntries ∧ σ.WokenInTime) tr σ := by
  have hexec : (exec AsyncRt.step AsyncRt.inTime .init
      ([.spawn false] ++ List.replicate 6 .proceed ++ [.delay 5, .pollTimer 0, .proceed] ++
        [.delay 3, .pollTimer 1, .proceed, .dropTimer 1, .pollReturns false] ++
        List.replicate 5 .tick ++ List.replicate 17 .proceed)).any (fun σ =>
          (σ.timer 0).pending = true ∧ (σ.timer 0).deadline = 5 ∧ σ.passClock = 5 ∧
            (0, 5) ∈ σ.wakes) = true := by
    decide +kernel
  obtain ⟨tr, σ, hr, hσ⟩ := exists_run_of_exec AsyncRt.inTime_spec hexec
  obtain ⟨hpending, hdeadline, hpass, hwakes⟩ := of_decide_eq_true hσ
  have hrun : Run AsyncRt.step (fun _ a => AsyncRt.DelaysInRange a) .init tr σ :=
    hr.mono fun _ _ h => h.1
  exact ⟨tr, σ, hrun, hpending, hdeadline, hpass, hwakes,
    (timers_fire hrun).2 fun e he => (hr.forall_guard e he).2⟩

/-- One future polls and drops sixteen timers of a second each, one after the other.  Its next timer, the
only one alive, finds `TIMERS` full and is left without an entry. -/
theorem timer_is_lost : ∃ tr σ,
    Run AsyncRt.step (fun _ a => AsyncRt.DelaysInRange a) .init tr σ ∧
      (∀ j < 16, (σ.timer j).alive = false) ∧ (σ.timer 16).pending = true ∧
      (σ.timer 16).alive = true ∧ σ.clock < (σ.timer 16).deadline ∧
      (∀ e ∈ σ.timers, e.wakeTick ≠ (σ.timer 16).wakeTick) ∧ ¬Always AsyncRt.HasEntries tr σ := by
  have hexec : (exec AsyncRt.step (fun _ a => AsyncRt.DelaysInRange a) .init
      ([.spawn false] ++ List.replicate 6 .proceed ++
        (List.range 16).flatMap (fun j => [.delay 1000, .pollTimer j, .proceed, .dropTimer j]) ++
        [.delay 5, .pollTimer 16, .proceed, .pollReturns false])).any (fun σ =>
          (∀ j < 16, (σ.timer j).alive = false) ∧ (σ.timer 16).pending = true ∧
            (σ.timer 16).alive = true ∧ σ.clock < (σ.timer 16).deadline ∧
            ∀ k < σ.timers.len, (σ.timers.data k).wakeTick ≠ (σ.timer 16).wakeTick) = true := by
    decide +kernel
  obtain ⟨tr, σ, hr, hσ⟩ := exists_run_of_exec (fun (_ : AsyncRt) (a : AsyncAction)
    (h : decide (AsyncRt.DelaysInRange a) = true) => of_decide_eq_true h) hexec
  obtain ⟨hdropped, hpending, halive, hclock, hno⟩ := of_decide_eq_true hσ
  have hentry : ∀ e ∈ σ.timers, e.wakeTick ≠ (σ.timer 16).wakeTick := by
    rintro e ⟨k, hk, rfl⟩
    exact hno k hk
  refine ⟨tr, σ, hr, hdropped, hpending, halive, hclock, hentry, fun hall => ?_⟩
  obtain ⟨e, he, hwake, -⟩ := hall.2 16 hpending halive hclock
  exact hentry e he hwake

end MosKernel
