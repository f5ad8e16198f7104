import MosKernel.Barrier

/-!
# Generations of a barrier

The last arriver of a generation publishes the next one, drops the mutex and only then notifies, so other
tasks may enter, wait and even complete a generation in between.  `Housed` says where a task at each
statement of `Barrier::wait` is in the mutex and the condition variable; `Counting` ties `count` and
`generation` to the calls that have arrived.  `barrier_separates` is what follows for every run: no call
returns before `total` calls of its own generation have arrived, a notified generation leaves nobody behind,
and a call that is woken too early waits again, unless its generation is complete by then.
-/

namespace MosKernel

open TaskList Transition Kernel

variable {T : Type} {b : Barrier} {cap : ℕ → ℕ}

/-! ### Where a call is -/

/-- The sections of a primitive that concern the barrier. -/
def Pc.Touches (b : Barrier) : Pc T → Prop
  | .lock m => m = b.mutex
  | .condUnlocked c m | .condRelock c m => c = b.cv ∨ m = b.mutex
  | _ => False

/-- The place of a task in its primitive and its guards on the mutex, by its next statement. -/
def Placed (b : Barrier) (pc : Pc T) (guards : ℕ) : BarrierPc → Prop
  | .idle => ¬pc.Touches b ∧ guards = 0
  | .readGen => pc = .lock b.mutex ∧ guards = 0 ∨ pc = .user ∧ guards = 1
  | .check _ => (pc = .lock b.mutex ∨ pc = .condUnlocked b.cv b.mutex ∨
      pc = .condRelock b.cv b.mutex) ∧ guards = 0 ∨ pc = .user ∧ guards = 1
  | .notifyAll => pc = .user ∧ guards = 0
  | _ => pc = .user ∧ guards = 1

namespace Placed

variable {pc : Pc T} {n m c s : ℕ} {st : BarrierPc}

/-- Only a task outside the barrier can be in another primitive. -/
theorem idle_of (h : Placed b pc n st) (hu : pc ≠ .user) (ht : ¬pc.Touches b) : st = .idle := by
  cases st with
  | idle => rfl
  | readGen =>
      rcases h with ⟨rfl, -⟩ | ⟨rfl, -⟩
      · exact absurd rfl ht
      · exact absurd rfl hu
  | check g =>
      rcases h with ⟨rfl | rfl | rfl, -⟩ | ⟨rfl, -⟩
      · exact absurd rfl ht
      · exact absurd (.inl rfl) ht
      · exact absurd (.inl rfl) ht
      · exact absurd rfl hu
  | _ => exact absurd h.1 hu

theorem down (h : Placed b (.down s : Pc T) n st) : Placed b (.user : Pc T) n st := by
  have hst := h.idle_of (by simp) id
  subst hst
  exact ⟨id, h.2⟩

/-- `internal_lock` returns its guard. -/
theorem locked (h : Placed b (.lock m : Pc T) n st) :
    Placed b (.user : Pc T) (if m = b.mutex then n + 1 else n) st := by
  by_cases hm : m = b.mutex
  · subst hm
    rw [if_pos rfl]
    cases st with
    | idle => exact absurd rfl h.1
    | readGen =>
        rcases h with ⟨-, rfl⟩ | ⟨hu, -⟩
        · exact .inr ⟨rfl, rfl⟩
        · cases hu
    | check g =>
        rcases h with ⟨-, rfl⟩ | ⟨hu, -⟩
        · exact .inr ⟨rfl, rfl⟩
        · cases hu
    | _ => cases h.1
  · rw [if_neg hm]
    have hst := h.idle_of (by simp) hm
    subst hst
    exact ⟨id, h.2⟩

/-- `CondVar::wait` gets to its own yield. -/
theorem unlocked (h : Placed b (.condUnlocked c m : Pc T) n st) :
    Placed b (.condRelock c m : Pc T) n st := by
  cases st with
  | idle => exact h
  | readGen => rcases h with ⟨hl, -⟩ | ⟨hu, -⟩ <;> contradiction
  | check g =>
      rcases h with ⟨hl | hl | hl, hn⟩ | ⟨hu, -⟩
      · cases hl
      · cases hl
        exact .inl ⟨.inr (.inr rfl), hn⟩
      · cases hl
      · cases hu
  | _ => cases h.1

/-- `CondVar::wait` locks the mutex again. -/
theorem relocks (h : Placed b (.condRelock c m : Pc T) n st) : Placed b (.lock m : Pc T) n st := by
  cases st with
  | idle => exact ⟨fun hm => h.1 (.inr hm), h.2⟩
  | readGen => rcases h with ⟨hl, -⟩ | ⟨hu, -⟩ <;> contradiction
  | check g =>
      rcases h with ⟨hl | hl | hl, hn⟩ | ⟨hu, -⟩
      · cases hl
      · cases hl
      · cases hl
        exact .inl ⟨.inl rfl, hn⟩
      · cases hu
  | _ => cases h.1

/-- Between two primitives, a statement that needs the mutex has its guard. -/
theorem guards_eq_one (h : Placed b (.user : Pc T) n st) (hi : st ≠ .idle)
    (hn : st ≠ .notifyAll) : n = 1 := by
  cases st with
  | idle => exact absurd rfl hi
  | notifyAll => exact absurd rfl hn
  | readGen =>
      rcases h with ⟨hl, -⟩ | ⟨-, h⟩
      · cases hl
      · exact h
  | check g =>
      rcases h with ⟨hl | hl | hl, -⟩ | ⟨-, h⟩
      · cases hl
      · cases hl
      · cases hl
      · exact h
  | _ => exact h.2

end Placed

namespace System

variable {σ σ' : System T} {a : Action T} {cr : Tid}

/-- The guards on the mutex of the barrier after one has been got. -/
theorem guards_acquireGuard (σ : System T) (cr : Tid) (m : ℕ) (t : Tid) :
    (σ.acquireGuard cr m).guards t b.mutex =
      if t = cr then if m = b.mutex then σ.guards t b.mutex + 1 else σ.guards t b.mutex
      else σ.guards t b.mutex := by
  by_cases hm : m = b.mutex
  · subst hm
    show (σ.setGuards cr b.mutex (σ.guards cr b.mutex + 1)).guards t b.mutex = _
    rw [setGuards_self, Function.update_apply, if_pos rfl]
    split_ifs with ht
    · rw [ht]
    · rfl
  · show (σ.setGuards cr m (σ.guards cr m + 1)).guards t b.mutex = _
    rw [setGuards_of_ne σ cr _ (Ne.symm hm), if_neg hm, ite_self]

/-- One task moves. -/
theorem placed_update (cr : Tid) {stmt : Tid → BarrierPc} {pc : Pc T} {guards : Tid → ℕ}
    (h : ∀ t, Placed b (σ.pc t) (σ.guards t b.mutex) (stmt t))
    (hg : ∀ t, t ≠ cr → guards t = σ.guards t b.mutex)
    (hcr : Placed b pc (guards cr) (stmt cr)) (t : Tid) :
    Placed b (Function.update σ.pc cr pc t) (guards t) (stmt t) := by
  by_cases ht : t = cr
  · subst ht
    rw [Function.update_self]
    exact hcr
  · rw [Function.update_of_ne ht, hg t ht]
    exact h t

/-- **Steps that are no statement of `Barrier::wait`** keep every call in its place. -/
theorem placed_step {stmt : Tid → BarrierPc} (hq : σ.Queued)
    (h : ∀ t, Placed b (σ.pc t) (σ.guards t b.mutex) (stmt t))
    (halive : ∀ t, stmt t ≠ .idle → σ.kernel.status t ≠ .terminated)
    (hout : ∀ c, a = .call c → (∀ cr ∈ σ.kernel.crTid, stmt cr = .idle) ∧ ¬c.Touches b)
    (hs : LockStep σ a σ') : ∀ t, Placed b (σ'.pc t) (σ'.guards t b.mutex) (stmt t) := by
  cases hs with
  | @task cr c _ hcr hpc hcall hs =>
      obtain ⟨⟨k, new⟩, hexec, rfl⟩ := Option.map_eq_some_iff.mp hs
      cases new with
      | none => exact h
      | some t₀ =>
          have hdead : σ.kernel.status t₀ = .terminated :=
            ((TaskCall.exec_outcome (hq.running hcr) hexec).2 t₀ rfl).1
          have hidle : stmt t₀ = .idle := by
            by_contra hne
            exact halive t₀ hne hdead
          show ∀ t, Placed b (Function.update σ.pc t₀ .user t)
            (Function.update σ.guards t₀ (fun _ => 0) t b.mutex) (stmt t)
          refine placed_update t₀ h (fun u hu => ?_) ?_
          · rw [Function.update_of_ne hu]
          · rw [hidle, Function.update_self]
            exact ⟨id, rfl⟩
  | @sema _ s i pc hist hi hpc =>
      rcases hpc with ⟨-, rfl⟩ | ⟨-, cr, hcr, hpc, rfl⟩
      · exact h
      · refine placed_update cr h (fun u hu => rfl) ?_
        have hplace := h cr
        rw [hpc] at hplace
        exact hplace.down
  | @block cr s n k hcr hpc hk =>
      refine placed_update cr h (fun u hu => rfl) ?_
      have hplace := h cr
      have hidle := (hout _ rfl).1 cr hcr
      rw [hidle] at hplace ⊢
      exact ⟨id, hplace.2⟩
  | @enter _ cr m i hcr hl hi =>
      have hguards := guards_acquireGuard (b := b)
        { σ with mutexes := Function.update σ.mutexes m i } cr m
      show ∀ t, Placed b (Function.update σ.pc cr .user t) _ (stmt t)
      refine placed_update cr h (fun u hu => ?_) ?_
      · rw [hguards, if_neg hu]
      · rw [hguards, if_pos rfl]
        have hplace := h cr
        rcases hl with ⟨rfl, hpc⟩ | ⟨rfl, c, hpc⟩
        · obtain ⟨hidle, htouch⟩ := hout _ rfl
          have hm : m ≠ b.mutex := htouch
          rw [hidle cr hcr] at hplace ⊢
          rw [if_neg hm]
          exact ⟨id, hplace.2⟩
        · rw [hpc] at hplace
          exact hplace.relocks.locked
  | @contend _ cr o m k hcr hl ho hne hk =>
      refine placed_update cr h (fun u hu => rfl) ?_
      have hplace := h cr
      rcases hl with ⟨rfl, hpc⟩ | ⟨rfl, c, hpc⟩
      · obtain ⟨hidle, hm⟩ := hout _ rfl
        rw [hidle cr hcr] at hplace ⊢
        exact ⟨hm, hplace.2⟩
      · rw [hpc] at hplace
        exact hplace.relocks
  | @resume cr m hcr hpc =>
      have hguards := guards_acquireGuard (b := b) σ cr m
      show ∀ t, Placed b (Function.update σ.pc cr .user t) _ (stmt t)
      refine placed_update cr h (fun u hu => ?_) ?_
      · rw [hguards, if_neg hu]
      · rw [hguards, if_pos rfl]
        have hplace := h cr
        rw [hpc] at hplace
        exact hplace.locked
  | @unlock cr m r k hcr hpc hg hr hk =>
      have hm : b.mutex ≠ m := Ne.symm (hout _ rfl).2
      intro t
      show Placed b (σ.pc t) ((σ.setGuards cr m (σ.guards cr m - 1)).guards t b.mutex) (stmt t)
      rw [setGuards_of_ne σ cr _ hm]
      exact h t
  | @wait cr c m r pc k hcr hpc hg hr hnext hk =>
      obtain ⟨hidle, htouch⟩ := hout _ rfl
      have hm : b.mutex ≠ m := fun hm => htouch (.inr hm.symm)
      refine placed_update cr h (fun u hu => setGuards_of_ne σ cr _ hm u) ?_
      show Placed b pc ((σ.setGuards cr m (σ.guards cr m - 1)).guards cr b.mutex) (stmt cr)
      rw [setGuards_of_ne σ cr _ hm]
      have hplace := h cr
      rw [hidle cr hcr] at hplace ⊢
      refine ⟨?_, hplace.2⟩
      rcases hnext with rfl | rfl
      · exact htouch
      · exact htouch
  | @condYield cr c m k hcr hpc hk =>
      refine placed_update cr h (fun u hu => rfl) ?_
      have hplace := h cr
      rw [hpc] at hplace
      exact hplace.unlocked
  | _ => exact h

/-- They leave its condition variable alone. -/
theorem condVars_step (hout : ∀ c, a = .call c → ¬c.Touches b) (hs : LockStep σ a σ') :
    σ'.condVars b.cv = σ.condVars b.cv := by
  cases hs with
  | task hcr hpc hcall hs =>
      obtain ⟨⟨k, new⟩, -, rfl⟩ := Option.map_eq_some_iff.mp hs
      cases new <;> rfl
  | wait hcr hpc hg hr hnext hk =>
      exact Function.update_of_ne (fun hc => hout _ rfl (.inl hc.symm)) _ _
  | notify hcr hpc hcons hk =>
      exact Function.update_of_ne (fun hc => hout _ rfl hc.symm) _ _
  | notifyAll hcr hpc hk =>
      exact Function.update_of_ne (fun hc => hout _ rfl hc.symm) _ _
  | _ => rfl

/-! ### The primitives of `Barrier::wait` -/

variable {m c : ℕ}

/-- `lock` returns its guard or waits in `internal_lock`. -/
theorem lock_effect (hcr : σ.kernel.crTid = some cr) (hs : LockStep σ (.call (.lock m)) σ') :
    (∀ t, t ≠ cr → σ'.pc t = σ.pc t ∧ σ'.guards t m = σ.guards t m) ∧
      σ'.condVars = σ.condVars ∧
      (σ'.pc cr = .lock m ∧ σ'.guards cr m = σ.guards cr m ∨
        σ'.pc cr = .user ∧ σ'.guards cr m = σ.guards cr m + 1) := by
  cases hs with
  | sema hi hpc =>
      rcases hpc with ⟨hon, -⟩ | ⟨hne, -⟩
      · exact hon.elim
      · cases hne
  | up hon => exact hon.elim
  | @enter _ cr' m' i hcr' hl hi =>
      rw [hcr] at hcr'
      cases hcr'
      cases hl.call_eq
      refine ⟨fun t ht => ⟨?_, ?_⟩, rfl, .inr ⟨?_, ?_⟩⟩
      · exact Function.update_of_ne ht _ _
      · exact (setGuards_self σ cr m _ t).trans (Function.update_of_ne ht _ _)
      · exact Function.update_self _ _ _
      · exact (setGuards_self σ cr m _ cr).trans (Function.update_self _ _ _)
  | @contend _ cr' o m' k hcr' hl ho hne hk =>
      rw [hcr] at hcr'
      cases hcr'
      cases hl.call_eq
      refine ⟨fun t ht => ⟨?_, rfl⟩, rfl, .inl ⟨?_, rfl⟩⟩
      · exact Function.update_of_ne ht _ _
      · exact Function.update_self _ _ _

/-- A guard is dropped. -/
theorem unlock_effect (hcr : σ.kernel.crTid = some cr) (hs : LockStep σ (.call (.unlock m)) σ') :
    σ'.pc = σ.pc ∧ (∀ t, t ≠ cr → σ'.guards t m = σ.guards t m) ∧
      σ'.condVars = σ.condVars ∧ σ'.guards cr m = σ.guards cr m - 1 := by
  cases hs with
  | sema hi hpc =>
      rcases hpc with ⟨hon, -⟩ | ⟨hne, -⟩
      · exact hon.elim
      · cases hne
  | up hon => exact hon.elim
  | enter hcr' hl hi => cases hl.call_eq
  | contend hcr' hl ho hne hk => cases hl.call_eq
  | @unlock cr' m' r k hcr' hpc hg hr hk =>
      rw [hcr] at hcr'
      cases hcr'
      refine ⟨rfl, fun t ht => ?_, rfl, ?_⟩
      · exact (setGuards_self σ cr m _ t).trans (Function.update_of_ne ht _ _)
      · exact (setGuards_self σ cr m _ cr).trans (Function.update_self _ _ _)

/-- `CondVar::wait` puts the caller on the queue before it drops the guard. -/
theorem wait_effect (hcr : σ.kernel.crTid = some cr) (hs : LockStep σ (.call (.wait c m)) σ') :
    (∀ t, t ≠ cr → σ'.pc t = σ.pc t ∧ σ'.guards t m = σ.guards t m) ∧
      σ'.condVars c = (σ.kernel.enqueueBack (σ.condVars c) cr).2 ∧
      (σ'.pc cr = .condUnlocked c m ∨ σ'.pc cr = .condRelock c m) ∧
      σ'.guards cr m = σ.guards cr m - 1 := by
  cases hs with
  | sema hi hpc =>
      rcases hpc with ⟨hon, -⟩ | ⟨hne, -⟩
      · exact hon.elim
      · cases hne
  | up hon => exact hon.elim
  | enter hcr' hl hi => cases hl.call_eq
  | contend hcr' hl ho hne hk => cases hl.call_eq
  | @wait cr' c' m' r pc k hcr' hpc hg hr hnext hk =>
      rw [hcr] at hcr'
      cases hcr'
      refine ⟨fun t ht => ⟨?_, ?_⟩, Function.update_self _ _ _, ?_, ?_⟩
      · exact Function.update_of_ne ht _ _
      · exact (setGuards_self σ cr m _ t).trans (Function.update_of_ne ht _ _)
      · show Function.update σ.pc cr pc cr = _ ∨ Function.update σ.pc cr pc cr = _
        rw [Function.update_self]
        exact hnext
      · exact (setGuards_self σ cr m _ cr).trans (Function.update_self _ _ _)

/-- `notify_all` empties the queue. -/
theorem notifyAll_effect (hs : LockStep σ (.call (.notifyAll c)) σ') :
    σ'.pc = σ.pc ∧ σ'.guards = σ.guards ∧ σ'.condVars c = .new := by
  cases hs with
  | sema hi hpc =>
      rcases hpc with ⟨hon, -⟩ | ⟨hne, -⟩
      · exact hon.elim
      · cases hne
  | up hon => exact hon.elim
  | enter hcr' hl hi => cases hl.call_eq
  | contend hcr' hl ho hne hk => cases hl.call_eq
  | notifyAll hcr' hpc hk => exact ⟨rfl, rfl, Function.update_self _ _ _⟩

end System

/-! ### The mutex and the condition variable -/

namespace BarrierSystem

variable {σ σ' : BarrierSystem T} {a : BarrierAction T} {cr t : Tid}

/-- A task in `Barrier::wait` is where its next statement says, and it does not end. -/
structure Housed (b : Barrier) (σ : BarrierSystem T) : Prop where
  queued : σ.sys.Queued
  exclusive : σ.sys.Exclusive
  placed : ∀ t, Placed b (σ.sys.pc t) (σ.sys.guards t b.mutex) (σ.stmt t)
  alive : ∀ t, σ.stmt t ≠ .idle → σ.sys.kernel.status t ≠ .terminated

theorem housed_init {boots : List BootCall} {k : Kernel} {counts : ℕ → ℤ}
    (hl : launchAfter boots = some k) : (init k counts : BarrierSystem T).Housed b where
  queued := System.queued_init hl
  exclusive := System.exclusive_init k counts
  placed := fun _ => ⟨id, rfl⟩
  alive := fun _ h => absurd rfl h

theorem runner_eq_some (h : σ.runner = some cr) :
    σ.sys.kernel.crTid = some cr ∧ σ.sys.pc cr = .user := by
  obtain ⟨cr', hcr, h⟩ := Option.bind_eq_some_iff.mp h
  split at h
  · rename_i hpc
    cases h
    exact ⟨hcr, hpc⟩
  · cases h

theorem primitive_eq_some {c : Call T} {st : BarrierPc} (h : σ.primitive cap cr c st = some σ') :
    ∃ s, σ.sys.step cap (.call c) = some s ∧ σ' = { σ.goto cr st with sys := s } := by
  obtain ⟨s, hs, rfl⟩ := Option.map_eq_some_iff.mp h
  exact ⟨s, hs, rfl⟩

/-- Only one task has guards on the mutex. -/
theorem Housed.alone (h : σ.Housed b) (hg : 0 < σ.sys.guards cr b.mutex) (ht : t ≠ cr) :
    σ.sys.guards t b.mutex = 0 := by
  have hex := h.exclusive.owned b.mutex
  have howner := hex.owner_of_guards hg
  have hne : (σ.sys.mutexes b.mutex).owner ≠ some t := by
    rw [howner]
    exact fun heq => ht (Option.some.inj heq).symm
  exact (hex.others t hne).1

/-- A step that is no statement of `Barrier::wait`. -/
theorem Housed.sys {x : Action T} {s : System T} (h : σ.Housed b) (hx : x.IsLock)
    (hexit : σ.sys.ExitsFree x) (hout : Outside b σ x) (hs : σ.sys.step cap x = some s) :
    ({ σ with sys := s } : BarrierSystem T).Housed b := by
  have hls := System.step_lock h.queued.pcs hx hs
  have hcall : ∀ c, x = .call c →
      (∀ cr ∈ σ.sys.kernel.crTid, σ.stmt cr = .idle) ∧ ¬c.Touches b := by
    rintro c rfl
    exact hout
  have hstep := h.queued.step hls
  refine ⟨hstep.1, h.exclusive.step h.queued hx hexit hs,
    System.placed_step h.queued h.placed h.alive hcall hls, fun t ht => ?_⟩
  apply hstep.2 t (h.alive t ht)
  intro hx hcr
  exact ht ((hcall _ hx).1 t hcr)

/-- The running task is alive, and so is every other task in `Barrier::wait`. -/
theorem Housed.alive_update (h : σ.Housed b) {st : BarrierPc} (hcr : σ.sys.kernel.crTid = some cr)
    (ht : Function.update σ.stmt cr st t ≠ .idle) : σ.sys.kernel.status t ≠ .terminated := by
  by_cases htc : t = cr
  · subst htc
    exact (h.queued.running hcr).alive
  · apply h.alive t
    rw [Function.update_of_ne htc] at ht
    exact ht

/-- A statement that only computes. -/
theorem Housed.goto (h : σ.Housed b) {st : BarrierPc} (hcr : σ.sys.kernel.crTid = some cr)
    (hst : Placed b (σ.sys.pc cr) (σ.sys.guards cr b.mutex) st) (hsys : σ'.sys = σ.sys)
    (hstmt : σ'.stmt = Function.update σ.stmt cr st) : σ'.Housed b := by
  have hplaced : ∀ t, Placed b (σ.sys.pc t) (σ.sys.guards t b.mutex)
      (Function.update σ.stmt cr st t) := by
    intro t
    by_cases htc : t = cr
    · subst htc
      rw [Function.update_self]
      exact hst
    · rw [Function.update_of_ne htc]
      exact h.placed t
  constructor
  · rw [hsys]
    exact h.queued
  · rw [hsys]
    exact h.exclusive
  · rw [hsys, hstmt]
    exact hplaced
  · rw [hsys, hstmt]
    exact fun t ht => h.alive_update hcr ht

/-- A statement that calls a primitive. -/
theorem Housed.primitive (h : σ.Housed b) {c : Call T} {st : BarrierPc} {s : System T}
    (hcr : σ.sys.kernel.crTid = some cr) (hs : σ.sys.step cap (.call c) = some s)
    (hc : (Action.call c).IsLock) (hne : c ≠ .task .exitCurrent)
    (hothers : ∀ t, t ≠ cr → s.pc t = σ.sys.pc t ∧
      s.guards t b.mutex = σ.sys.guards t b.mutex)
    (hst : Placed b (s.pc cr) (s.guards cr b.mutex) st) :
    ({ σ.goto cr st with sys := s } : BarrierSystem T).Housed b := by
  have hls := System.step_lock h.queued.pcs hc hs
  have hstep := h.queued.step hls
  have hx : ∀ x : Call T, x ≠ .task .exitCurrent →
      (Action.call x : Action T) ≠ .call (.task .exitCurrent) := by
    intro x hx heq
    cases heq
    exact hx rfl
  refine ⟨hstep.1, h.exclusive.step h.queued hc (fun he => absurd he (hx c hne)) hs,
    fun t => ?_, fun t ht => ?_⟩
  · show Placed b (s.pc t) (s.guards t b.mutex) (Function.update σ.stmt cr st t)
    by_cases htc : t = cr
    · subst htc
      rw [Function.update_self]
      exact hst
    · rw [Function.update_of_ne htc, (hothers t htc).1, (hothers t htc).2]
      exact h.placed t
  · exact hstep.2 t (h.alive_update hcr ht) (fun he => absurd he (hx c hne))

end BarrierSystem

/-! ### Counting -/

namespace BarrierPc

/-- The call belongs to a generation. -/
def Called : BarrierPc → Prop
  | .idle | .readGen => False
  | _ => True

instance : DecidablePred Called
  | .idle | .readGen => isFalse id
  | .increment _ | .compare _ | .reset | .advance | .drop | .notifyAll | .wait _ | .check _ | .leave =>
    isTrue trivial

/-- Between `guard.count += 1` and the end of the arrival. -/
def Arriving : BarrierPc → Prop
  | .compare _ | .reset | .advance => True
  | _ => False

/-- The last arriver of a generation, before its `notify_all`. -/
def Last : BarrierPc → Prop
  | .drop | .notifyAll => True
  | _ => False

/-- The generation `own` of a call, and what it has read of it, at its next statement. -/
def Dated (completed own : ℕ) : BarrierPc → Prop
  | .idle | .readGen => True
  | .increment g | .compare g | .wait g => g = BitVec.ofNat 32 own ∧ own = completed
  | .reset | .advance => own = completed
  | .check g => g = BitVec.ofNat 32 own ∧ own ≤ completed
  | .drop | .notifyAll | .leave => own < completed

/-- `count` against the arrivals of the current generation, where a task arrives, and elsewhere. -/
def Tally (count arrivals total : ℕ) : BarrierPc → Prop
  | .compare _ => count = arrivals ∧ arrivals ≤ total
  | .reset => arrivals = total
  | .advance => count = 0 ∧ arrivals = total
  | _ => count = arrivals ∧ arrivals < total

theorem tally_of_not_arriving {count arrivals total : ℕ} {st : BarrierPc} (h : ¬st.Arriving) :
    st.Tally count arrivals total ↔ count = arrivals ∧ arrivals < total := by
  cases st with
  | compare g => exact absurd trivial h
  | reset => exact absurd trivial h
  | advance => exact absurd trivial h
  | _ => exact Iff.rfl

theorem Dated.own_le {completed own : ℕ} {st : BarrierPc} (h : st.Dated completed own)
    (hc : st.Called) : own ≤ completed := by
  cases st with
  | idle => exact hc.elim
  | readGen => exact hc.elim
  | increment g => exact h.2.le
  | compare g => exact h.2.le
  | wait g => exact h.2.le
  | reset => exact Nat.le_of_eq h
  | advance => exact Nat.le_of_eq h
  | check g => exact h.2
  | drop => exact Nat.le_of_lt h
  | notifyAll => exact Nat.le_of_lt h
  | leave => exact Nat.le_of_lt h

end BarrierPc

namespace BarrierSystem

variable {σ σ' : BarrierSystem T} {a : BarrierAction T} {cr t : Tid}

/-- `count` counts the arrivals of the current generation, which are fewer than `total` unless a task
is arriving. -/
structure Tallied (b : Barrier) (σ : BarrierSystem T) : Prop where
  quiet : (∀ t, ¬(σ.stmt t).Arriving) →
    σ.count.toNat = σ.arrivals σ.completed ∧ σ.arrivals σ.completed < b.total.toNat
  busy : ∀ t, (σ.stmt t).Arriving →
    (σ.stmt t).Tally σ.count.toNat (σ.arrivals σ.completed) b.total.toNat

/-- Where only `cr` can be arriving, its statement says it all. -/
theorem tallied_iff (halone : ∀ t, t ≠ cr → ¬(σ.stmt t).Arriving) :
    σ.Tallied b ↔ (σ.stmt cr).Tally σ.count.toNat (σ.arrivals σ.completed) b.total.toNat := by
  constructor
  · intro h
    by_cases hcr : (σ.stmt cr).Arriving
    · exact h.busy cr hcr
    · apply (BarrierPc.tally_of_not_arriving hcr).mpr
      apply h.quiet
      intro t
      by_cases ht : t = cr
      · subst ht
        exact hcr
      · exact halone t ht
  · intro h
    refine ⟨fun hquiet => (BarrierPc.tally_of_not_arriving (hquiet cr)).mp h, fun t ht => ?_⟩
    have htc : t = cr := by
      by_contra hne
      exact halone t hne ht
    rw [htc]
    exact h

theorem tallied_of_tally {st : BarrierPc} (hstmt : σ'.stmt = Function.update σ.stmt cr st)
    (halone : ∀ t, t ≠ cr → ¬(σ.stmt t).Arriving)
    (h : st.Tally σ'.count.toNat (σ'.arrivals σ'.completed) b.total.toNat) : σ'.Tallied b := by
  have halone' : ∀ t, t ≠ cr → ¬(σ'.stmt t).Arriving := by
    intro t ht
    rw [hstmt, Function.update_of_ne ht]
    exact halone t ht
  apply (tallied_iff halone').mpr
  rw [hstmt, Function.update_self]
  exact h

/-- Every generation has one last arriver, and it is not notified before. -/
structure LastArrivers (σ : BarrierSystem T) : Prop where
  silent : ∀ t, (σ.stmt t).Last → σ.notified (σ.own t) = false
  unique : ∀ t u, (σ.stmt t).Last → (σ.stmt u).Last → σ.own t = σ.own u → t = u

/-- A step that makes no last arriver and notifies nobody. -/
theorem LastArrivers.keep {st : BarrierPc} (h : σ.LastArrivers)
    (hstmt : σ'.stmt = Function.update σ.stmt cr st) (hst : st.Last → (σ.stmt cr).Last)
    (hown : ∀ t, (σ.stmt t).Last → σ'.own t = σ.own t) (hn : σ'.notified = σ.notified) :
    σ'.LastArrivers := by
  have hlast : ∀ t, (σ'.stmt t).Last → (σ.stmt t).Last := by
    intro t ht
    rw [hstmt] at ht
    by_cases htc : t = cr
    · subst htc
      rw [Function.update_self] at ht
      exact hst ht
    · rw [Function.update_of_ne htc] at ht
      exact ht
  constructor
  · intro t ht
    rw [hn, hown t (hlast t ht)]
    exact h.silent t (hlast t ht)
  · intro t u ht hu heq
    rw [hown t (hlast t ht), hown u (hlast u hu)] at heq
    exact h.unique t u (hlast t ht) (hlast u hu) heq

/-- Generations, arrivals and the calls outstanding. -/
structure Counting (b : Barrier) (σ : BarrierSystem T) : Prop where
  generation : σ.generation = BitVec.ofNat 32 σ.completed
  past : ∀ g < σ.completed, σ.arrivals g = b.total.toNat
  future : ∀ g > σ.completed, σ.arrivals g = 0
  dated : ∀ t, (σ.stmt t).Dated σ.completed (σ.own t)
  recent : ∀ t, (σ.stmt t).Called → σ.completed < σ.own t + 2 ^ 32
  tallied : σ.Tallied b
  notified : ∀ g, σ.notified g = true → g < σ.completed
  queue : ∀ t ∈ (σ.sys.condVars b.cv).tids, σ.notified (σ.own t) = false
  last : σ.LastArrivers

theorem counting_init {k : Kernel} {counts : ℕ → ℤ} (ht : 0 < b.total.toNat) :
    (init k counts : BarrierSystem T).Counting b where
  generation := rfl
  past := fun _ hg => absurd hg (Nat.not_lt_zero _)
  future := fun _ _ => rfl
  dated := fun _ => trivial
  recent := fun _ h => h.elim
  tallied := ⟨fun _ => ⟨rfl, ht⟩, fun _ h => h.elim⟩
  notified := fun _ h => by cases h
  queue := fun _ h => by cases h
  last := ⟨fun _ h => h.elim, fun _ _ h => h.elim⟩

/-- Nobody else arrives while a task has a guard. -/
theorem Housed.not_arriving (h : σ.Housed b) (hg : 0 < σ.sys.guards cr b.mutex) (ht : t ≠ cr) :
    ¬(σ.stmt t).Arriving := by
  have hzero := h.alone hg ht
  have hplace := h.placed t
  rw [hzero] at hplace
  intro harr
  cases hst : σ.stmt t with
  | compare g =>
      rw [hst] at hplace
      exact absurd hplace.2 (by decide)
  | reset =>
      rw [hst] at hplace
      exact absurd hplace.2 (by decide)
  | advance =>
      rw [hst] at hplace
      exact absurd hplace.2 (by decide)
  | _ =>
      rw [hst] at harr
      exact harr

/-- A task that does not arrive moves to a statement where it does not arrive either. -/
theorem Tallied.move {st : BarrierPc} (h : σ.Tallied b) (hcr : ¬(σ.stmt cr).Arriving)
    (hst : ¬st.Arriving) : (σ.goto cr st).Tallied b := by
  have hiff : ∀ t, (Function.update σ.stmt cr st t).Arriving ↔ (σ.stmt t).Arriving := by
    intro t
    by_cases ht : t = cr
    · subst ht
      rw [Function.update_self]
      exact iff_of_false hst hcr
    · rw [Function.update_of_ne ht]
  refine ⟨fun hquiet => h.quiet fun t ht => hquiet t ((hiff t).mpr ht), fun t ht => ?_⟩
  have htc : t ≠ cr := by
    rintro rfl
    exact hcr ((hiff t).mp ht)
  show (Function.update σ.stmt cr st t).Tally _ _ _
  rw [Function.update_of_ne htc]
  exact h.busy t ((hiff t).mp ht)

/-- The generation of a call that is outstanding, read back. -/
theorem Counting.generation_eq_iff (h : σ.Counting b) (hc : (σ.stmt t).Called) :
    σ.generation = BitVec.ofNat 32 (σ.own t) ↔ σ.own t = σ.completed := by
  have hle := (h.dated t).own_le hc
  have hlt := h.recent t hc
  rw [h.generation]
  constructor
  · intro heq
    have hmod := congrArg BitVec.toNat heq
    rw [BitVec.toNat_ofNat, BitVec.toNat_ofNat] at hmod
    omega
  · intro heq
    rw [heq]

/-! ### The statements -/

theorem dated_update {completed : ℕ} {own : Tid → ℕ} {stmt : Tid → BarrierPc} {st : BarrierPc}
    (h : ∀ t, t ≠ cr → (stmt t).Dated completed (own t)) (hst : st.Dated completed (own cr))
    (t : Tid) : (Function.update stmt cr st t).Dated completed (own t) := by
  by_cases ht : t = cr
  · subst ht
    rw [Function.update_self]
    exact hst
  · rw [Function.update_of_ne ht]
    exact h t ht

/-- A bound on all outstanding calls after one has moved. -/
theorem recent_update {completed : ℕ} {own : Tid → ℕ} {stmt : Tid → BarrierPc} {st : BarrierPc}
    (h : ∀ t, (stmt t).Called → completed < own t + 2 ^ 32)
    (hst : st.Called → completed < own cr + 2 ^ 32) (t : Tid)
    (ht : (Function.update stmt cr st t).Called) : completed < own t + 2 ^ 32 := by
  by_cases htc : t = cr
  · subst htc
    rw [Function.update_self] at ht
    exact hst ht
  · rw [Function.update_of_ne htc] at ht
    exact h t ht

/-- A statement outside the arrival. -/
theorem Counting.move (h : σ.Counting b) {st : BarrierPc} {s : System T}
    (hcr : ¬(σ.stmt cr).Arriving) (hst : ¬st.Arriving) (hd : st.Dated σ.completed (σ.own cr))
    (hc : st.Called → (σ.stmt cr).Called) (hl : st.Last → (σ.stmt cr).Last)
    (hq : ∀ t ∈ (s.condVars b.cv).tids, σ.notified (σ.own t) = false) :
    ({ σ.goto cr st with sys := s } : BarrierSystem T).Counting b where
  generation := h.generation
  past := h.past
  future := h.future
  dated := dated_update (fun t _ => h.dated t) hd
  recent := recent_update h.recent fun hcalled => h.recent cr (hc hcalled)
  tallied := ⟨(h.tallied.move hcr hst).quiet, (h.tallied.move hcr hst).busy⟩
  notified := h.notified
  queue := hq
  last := h.last.keep rfl hl (fun _ _ => rfl) rfl

/-- `let my_gen = guard.generation` -/
theorem Counting.readGen (h : σ.Counting b) (hst : σ.stmt cr = .readGen)
    (hout : cr ∉ (σ.sys.condVars b.cv).tids) :
    ({ σ.goto cr (.increment σ.generation) with
      own := Function.update σ.own cr σ.completed } : BarrierSystem T).Counting b := by
  have hown : ∀ t, t ≠ cr → Function.update σ.own cr σ.completed t = σ.own t :=
    fun t ht => Function.update_of_ne ht _ _
  have hself : Function.update σ.own cr σ.completed cr = σ.completed := Function.update_self _ _ _
  have hmove : (σ.goto cr (.increment σ.generation)).Tallied b := by
    apply h.tallied.move
    · rw [hst]
      exact id
    · exact id
  refine ⟨h.generation, h.past, h.future, ?_, ?_, ⟨hmove.quiet, hmove.busy⟩, h.notified, ?_, ?_⟩
  · apply dated_update
    · intro t ht
      show (σ.stmt t).Dated σ.completed (Function.update σ.own cr σ.completed t)
      rw [hown t ht]
      exact h.dated t
    · show σ.generation = BitVec.ofNat 32 (Function.update σ.own cr σ.completed cr) ∧
        Function.update σ.own cr σ.completed cr = σ.completed
      rw [hself]
      exact ⟨h.generation, rfl⟩
  · intro t ht
    show σ.completed < Function.update σ.own cr σ.completed t + 2 ^ 32
    by_cases htc : t = cr
    · rw [htc, hself]
      omega
    · rw [hown t htc]
      replace ht : (Function.update σ.stmt cr _ t).Called := ht
      rw [Function.update_of_ne htc] at ht
      exact h.recent t ht
  · intro t ht
    have htc : t ≠ cr := by
      rintro rfl
      exact hout ht
    show σ.notified (Function.update σ.own cr σ.completed t) = false
    rw [hown t htc]
    exact h.queue t ht
  · refine h.last.keep rfl (fun hl => hl.elim) (fun t ht => ?_) rfl
    apply hown t
    rintro rfl
    rw [hst] at ht
    exact ht

/-- `guard.count += 1` -/
theorem Counting.increment (h : σ.Counting b) {g : BitVec 32} (hst : σ.stmt cr = .increment g)
    (halone : ∀ t, t ≠ cr → ¬(σ.stmt t).Arriving) :
    ({ σ.goto cr (.compare g) with
      count := σ.count + 1
      arrivals := Function.update σ.arrivals (σ.own cr) (σ.arrivals (σ.own cr) + 1) } :
        BarrierSystem T).Counting b := by
  have hd := h.dated cr
  rw [hst] at hd
  have htally := (tallied_iff halone).mp h.tallied
  rw [hst] at htally
  obtain ⟨hcount, hlt⟩ := htally
  have hwrap : (σ.count + 1).toNat = σ.count.toNat + 1 := by
    have htotal := b.total.isLt
    rw [BitVec.toNat_add]
    show (σ.count.toNat + 1) % 2 ^ 32 = _
    omega
  have hother : ∀ x, x ≠ σ.completed →
      Function.update σ.arrivals (σ.own cr) (σ.arrivals (σ.own cr) + 1) x = σ.arrivals x := by
    intro x hx
    rw [hd.2]
    exact Function.update_of_ne hx _ _
  refine ⟨h.generation, fun x hx => ?_, fun x hx => ?_, ?_, ?_, ?_, h.notified, h.queue,
    h.last.keep rfl False.elim (fun _ _ => rfl) rfl⟩
  · exact (hother x (Nat.ne_of_lt hx)).trans (h.past x hx)
  · exact (hother x (Nat.ne_of_gt hx)).trans (h.future x hx)
  · exact dated_update (fun t _ => h.dated t) hd
  · apply recent_update h.recent
    intro _
    apply h.recent cr
    rw [hst]
    trivial
  · apply tallied_of_tally rfl halone
    show (σ.count + 1).toNat =
        Function.update σ.arrivals (σ.own cr) (σ.arrivals (σ.own cr) + 1) σ.completed ∧
      Function.update σ.arrivals (σ.own cr) (σ.arrivals (σ.own cr) + 1) σ.completed ≤ _
    rw [hd.2, Function.update_self, hwrap, hcount]
    exact ⟨rfl, hlt⟩

/-- `guard.count == self.total` -/
theorem Counting.compare (h : σ.Counting b) {g : BitVec 32} (hst : σ.stmt cr = .compare g)
    (halone : ∀ t, t ≠ cr → ¬(σ.stmt t).Arriving) :
    (σ.goto cr (if σ.count = b.total then .reset else .wait g)).Counting b := by
  have hd := h.dated cr
  rw [hst] at hd
  have hcalled : (σ.stmt cr).Called := by
    rw [hst]
    trivial
  have htally := (tallied_iff halone).mp h.tallied
  rw [hst] at htally
  obtain ⟨hcount, hle⟩ := htally
  by_cases hfull : σ.count = b.total
  · rw [if_pos hfull]
    refine ⟨h.generation, h.past, h.future, dated_update (fun t _ => h.dated t) hd.2,
      recent_update h.recent fun _ => h.recent cr hcalled, tallied_of_tally rfl halone ?_,
      h.notified, h.queue, h.last.keep rfl False.elim (fun _ _ => rfl) rfl⟩
    show σ.arrivals σ.completed = b.total.toNat
    rw [← hcount, hfull]
  · rw [if_neg hfull]
    refine ⟨h.generation, h.past, h.future, dated_update (fun t _ => h.dated t) hd,
      recent_update h.recent fun _ => h.recent cr hcalled, tallied_of_tally rfl halone ?_,
      h.notified, h.queue, h.last.keep rfl False.elim (fun _ _ => rfl) rfl⟩
    refine ⟨hcount, lt_of_le_of_ne hle fun heq => hfull ?_⟩
    exact BitVec.eq_of_toNat_eq (hcount.trans heq)

/-- `guard.generation != my_gen` -/
theorem Counting.check (h : σ.Counting b) {g : BitVec 32} (hst : σ.stmt cr = .check g) :
    (σ.goto cr (if σ.generation ≠ g then .leave else .wait g)).Counting b := by
  have hd := h.dated cr
  rw [hst] at hd
  have hcalled : (σ.stmt cr).Called := by
    rw [hst]
    trivial
  have hiff := h.generation_eq_iff hcalled
  rw [← hd.1] at hiff
  apply h.move (s := σ.sys)
  · rw [hst]
    exact id
  · split_ifs
    · exact id
    · exact id
  · split_ifs with hgen
    · exact lt_of_le_of_ne hd.2 fun heq => hgen (hiff.mpr heq)
    · exact ⟨hd.1, hiff.mp (not_not.mp hgen)⟩
  · exact fun _ => hcalled
  · split_ifs
    · exact False.elim
    · exact False.elim
  · exact h.queue

/-- `guard.count = 0` -/
theorem Counting.reset (h : σ.Counting b) (hst : σ.stmt cr = .reset)
    (halone : ∀ t, t ≠ cr → ¬(σ.stmt t).Arriving) :
    ({ σ.goto cr .advance with count := 0 } : BarrierSystem T).Counting b := by
  have hd := h.dated cr
  rw [hst] at hd
  have hcalled : (σ.stmt cr).Called := by
    rw [hst]
    trivial
  have htally := (tallied_iff halone).mp h.tallied
  rw [hst] at htally
  exact ⟨h.generation, h.past, h.future, dated_update (fun t _ => h.dated t) hd,
    recent_update h.recent fun _ => h.recent cr hcalled, tallied_of_tally rfl halone ⟨rfl, htally⟩,
    h.notified, h.queue, h.last.keep rfl False.elim (fun _ _ => rfl) rfl⟩

/-- The generation may advance under a call that does not hold the mutex. -/
theorem Housed.dated_succ (h : σ.Housed b) (hg : 0 < σ.sys.guards cr b.mutex) (ht : t ≠ cr)
    {completed own : ℕ} (hd : (σ.stmt t).Dated completed own) :
    (σ.stmt t).Dated (completed + 1) own := by
  have hzero := h.alone hg ht
  have hplace := h.placed t
  rw [hzero] at hplace
  cases hst : σ.stmt t with
  | idle => trivial
  | readGen => trivial
  | check g =>
      rw [hst] at hd
      exact ⟨hd.1, Nat.le_succ_of_le hd.2⟩
  | notifyAll =>
      rw [hst] at hd
      exact Nat.lt_succ_of_lt hd
  | _ =>
      rw [hst] at hplace
      exact absurd hplace.2 (by decide)

/-- The task that completes a generation is its last arriver. -/
theorem Counting.last_advance (h : σ.Counting b) (hst : σ.stmt cr = .advance) :
    ({ σ.goto cr .drop with
      generation := σ.generation + 1
      completed := σ.completed + 1 } : BarrierSystem T).LastArrivers := by
  have hown : σ.own cr = σ.completed := by
    have hd := h.dated cr
    rw [hst] at hd
    exact hd
  have hlt : ∀ t, (σ.stmt t).Last → σ.own t < σ.completed := by
    intro t ht
    have hd := h.dated t
    cases hst' : σ.stmt t with
    | drop =>
        rw [hst'] at hd
        exact hd
    | notifyAll =>
        rw [hst'] at hd
        exact hd
    | _ =>
        rw [hst'] at ht
        exact ht.elim
  have hlast : ∀ t, (Function.update σ.stmt cr .drop t).Last → t = cr ∨ (σ.stmt t).Last := by
    intro t ht
    by_cases htc : t = cr
    · exact .inl htc
    · rw [Function.update_of_ne htc] at ht
      exact .inr ht
  constructor
  · intro t ht
    rcases hlast t ht with rfl | hlt
    · show σ.notified (σ.own t) = false
      by_contra hne
      have hn := h.notified _ (Bool.eq_true_of_not_eq_false hne)
      omega
    · exact h.last.silent t hlt
  · intro t u ht hu heq
    replace heq : σ.own t = σ.own u := heq
    rcases hlast t ht with htc | htl
    · rcases hlast u hu with huc | hul
      · exact htc.trans huc.symm
      · have hless := hlt u hul
        rw [htc] at heq
        omega
    · rcases hlast u hu with huc | hul
      · have hless := hlt t htl
        rw [huc] at heq
        omega
      · exact h.last.unique t u htl hul heq

/-- `guard.generation = guard.generation.wrapping_add(1)` -/
theorem Counting.advance (h : σ.Counting b) (hh : σ.Housed b) (hst : σ.stmt cr = .advance)
    (hg : 0 < σ.sys.guards cr b.mutex) (htotal : 0 < b.total.toNat)
    (hrecent : ∀ t, (σ.stmt t).Called → σ.completed + 1 < σ.own t + 2 ^ 32) :
    ({ σ.goto cr .drop with
      generation := σ.generation + 1
      completed := σ.completed + 1 } : BarrierSystem T).Counting b := by
  have hd := h.dated cr
  rw [hst] at hd
  have halone : ∀ t, t ≠ cr → ¬(σ.stmt t).Arriving := fun t ht => hh.not_arriving hg ht
  have htally := (tallied_iff halone).mp h.tallied
  rw [hst] at htally
  obtain ⟨hcount, hfull⟩ := htally
  refine ⟨?_, fun x hx => ?_, fun x hx => h.future x (Nat.lt_of_succ_lt hx), ?_, ?_, ?_,
    fun x hx => Nat.lt_succ_of_lt (h.notified x hx), h.queue, ?_⟩
  · show σ.generation + 1 = BitVec.ofNat 32 (σ.completed + 1)
    rw [h.generation]
    exact (BitVec.ofNat_add σ.completed 1).symm
  · rcases Nat.lt_succ_iff_lt_or_eq.mp hx with hx | hx
    · exact h.past x hx
    · rw [hx]
      exact hfull
  · apply dated_update
    · exact fun t ht => hh.dated_succ hg ht (h.dated t)
    · show σ.own cr < σ.completed + 1
      exact Nat.lt_succ_of_le (Nat.le_of_eq hd)
  · apply recent_update hrecent
    intro _
    apply hrecent cr
    rw [hst]
    trivial
  · apply tallied_of_tally rfl halone
    show σ.count.toNat = σ.arrivals (σ.completed + 1) ∧ σ.arrivals (σ.completed + 1) < _
    rw [h.future _ (Nat.lt_succ_self _)]
    exact ⟨hcount, htotal⟩
  · exact h.last_advance hst

/-! ### Every action -/

/-- No `terminate`, tasks exit without guards, and fewer than `2 ^ 32` generations are completed while a
call is outstanding. -/
def Allowed (σ : BarrierSystem T) : BarrierAction T → Prop
  | .sys a => a.IsLock ∧ σ.sys.ExitsFree a
  | .enter => True
  | .next => ∀ cr ∈ σ.runner, σ.stmt cr = .advance →
      ∀ t, (σ.stmt t).Called → σ.completed + 1 < σ.own t + 2 ^ 32

/-- The invariant. -/
structure Separated (b : Barrier) (σ : BarrierSystem T) : Prop extends Housed b σ, Counting b σ

theorem Separated.sys {x : Action T} {s : System T} (h : σ.Separated b) (hx : x.IsLock)
    (hexit : σ.sys.ExitsFree x) (hout : Outside b σ x) (hs : σ.sys.step cap x = some s) :
    ({ σ with sys := s } : BarrierSystem T).Separated b := by
  have hls := System.step_lock h.queued.pcs hx hs
  have hcv : s.condVars b.cv = σ.sys.condVars b.cv := by
    apply System.condVars_step _ hls
    rintro c rfl
    exact hout.2
  refine ⟨h.toHoused.sys hx hexit hout hs, h.generation, h.past, h.future, h.dated, h.recent,
    ⟨h.tallied.quiet, h.tallied.busy⟩, h.notified, ?_, ⟨h.last.silent, h.last.unique⟩⟩
  show ∀ t ∈ (s.condVars b.cv).tids, _
  rw [hcv]
  exact h.queue

/-- `self.mutex.lock()` -/
theorem Separated.enter (h : σ.Separated b) (hcr : σ.runner = some cr) (hst : σ.stmt cr = .idle)
    (hs : σ.primitive cap cr (.lock b.mutex) .readGen = some σ') : σ'.Separated b := by
  obtain ⟨hrun, hpc⟩ := runner_eq_some hcr
  obtain ⟨s, hstep, rfl⟩ := primitive_eq_some hs
  obtain ⟨hothers, hcv, hend⟩ :=
    System.lock_effect hrun (System.step_lock h.queued.pcs trivial hstep)
  have hplace := h.placed cr
  rw [hst] at hplace
  refine ⟨h.toHoused.primitive hrun hstep trivial (by simp) hothers ?_, ?_⟩
  · rcases hend with ⟨hlock, hg⟩ | ⟨huser, hg⟩
    · rw [hlock, hg]
      exact .inl ⟨rfl, hplace.2⟩
    · rw [huser, hg]
      exact .inr ⟨rfl, congrArg (· + 1) hplace.2⟩
  · apply h.toCounting.move
    · rw [hst]
      exact id
    · exact id
    · trivial
    · exact False.elim
    · exact False.elim
    · rw [hcv]
      exact h.queue

/-- A guard drop. -/
theorem Separated.unlock {st : BarrierPc} (h : σ.Separated b) (hcr : σ.runner = some cr)
    (hs : σ.primitive cap cr (.unlock b.mutex) st = some σ')
    (hg : σ.sys.guards cr b.mutex = 1) (harr : ¬(σ.stmt cr).Arriving) (harr' : ¬st.Arriving)
    (hplace : Placed b (.user : Pc T) 0 st) (hd : st.Dated σ.completed (σ.own cr))
    (hc : st.Called → (σ.stmt cr).Called) (hl : st.Last → (σ.stmt cr).Last) :
    σ'.Separated b := by
  obtain ⟨hrun, hpc⟩ := runner_eq_some hcr
  obtain ⟨s, hstep, rfl⟩ := primitive_eq_some hs
  obtain ⟨hpcs, hothers, hcv, hend⟩ :=
    System.unlock_effect hrun (System.step_lock h.queued.pcs trivial hstep)
  refine ⟨h.toHoused.primitive hrun hstep trivial (by simp) (fun t ht => ?_) ?_,
    h.toCounting.move harr harr' hd hc hl ?_⟩
  · exact ⟨congrFun hpcs t, hothers t ht⟩
  · rw [hpcs, hpc, hend, hg]
    exact hplace
  · rw [hcv]
    exact h.queue

/-- `guard = self.cv.wait(guard)` -/
theorem Separated.wait {g : BitVec 32} (h : σ.Separated b) (hcr : σ.runner = some cr)
    (hst : σ.stmt cr = .wait g)
    (hs : σ.primitive cap cr (.wait b.cv b.mutex) (.check g) = some σ') :
    σ'.Separated b ∧ cr ∈ (σ'.sys.condVars b.cv).tids := by
  obtain ⟨hrun, hpc⟩ := runner_eq_some hcr
  obtain ⟨s, hstep, rfl⟩ := primitive_eq_some hs
  obtain ⟨hothers, hcv, hend, hg⟩ :=
    System.wait_effect hrun (System.step_lock h.queued.pcs trivial hstep)
  have hplace := h.placed cr
  have hd := h.dated cr
  rw [hst] at hplace hd
  have hqueue : (s.condVars b.cv).tids = (σ.sys.condVars b.cv).tids ++ [cr] := by
    rw [hcv]
    exact (enqueueBack_eq (h.queued.nodup (.condVar b.cv))
      (h.queued.not_mem hrun (.condVar b.cv))).2
  refine ⟨⟨h.toHoused.primitive hrun hstep trivial (by simp) hothers ?_, ?_⟩, ?_⟩
  · rw [hg, hplace.2]
    exact .inl ⟨.inr hend, rfl⟩
  · apply h.toCounting.move
    · rw [hst]
      exact id
    · exact id
    · exact ⟨hd.1, Nat.le_of_eq hd.2⟩
    · intro _
      rw [hst]
      trivial
    · exact False.elim
    · intro t ht
      rw [hqueue, List.mem_append, List.mem_singleton] at ht
      rcases ht with ht | rfl
      · exact h.queue t ht
      · -- the caller's generation is not complete, so it has not been notified
        by_contra hne
        have hlt := h.notified _ (Bool.eq_true_of_not_eq_false hne)
        have hown := hd.2
        omega
  · show cr ∈ (s.condVars b.cv).tids
    rw [hqueue]
    exact List.mem_append_right _ (List.mem_singleton.mpr rfl)

/-- `self.cv.notify_all()` -/
theorem Separated.notifyAll (h : σ.Separated b) (hcr : σ.runner = some cr)
    (hst : σ.stmt cr = .notifyAll)
    (hs : σ.primitive cap cr (.notifyAll b.cv) .idle = some σ') :
    ({ σ' with notified := Function.update σ.notified (σ.own cr) true } :
      BarrierSystem T).Separated b := by
  obtain ⟨hrun, hpc⟩ := runner_eq_some hcr
  obtain ⟨s, hstep, rfl⟩ := primitive_eq_some hs
  obtain ⟨hpcs, hguards, hcv⟩ :=
    System.notifyAll_effect (System.step_lock h.queued.pcs trivial hstep)
  have hplace := h.placed cr
  have hd := h.dated cr
  rw [hst] at hplace hd
  have hhoused : ({ σ.goto cr .idle with sys := s } : BarrierSystem T).Housed b := by
    apply h.toHoused.primitive hrun hstep trivial (by simp)
    · intro t _
      exact ⟨congrFun hpcs t, by rw [hguards]⟩
    · rw [hpcs, hpc, hguards, hplace.2]
      exact ⟨id, rfl⟩
  have hcount : ({ σ.goto cr .idle with sys := s } : BarrierSystem T).Counting b := by
    apply h.toCounting.move
    · rw [hst]
      exact id
    · exact id
    · trivial
    · exact False.elim
    · exact False.elim
    · rw [hcv]
      intro t ht
      cases ht
  refine ⟨⟨hhoused.queued, hhoused.exclusive, hhoused.placed, hhoused.alive⟩, hcount.generation,
    hcount.past, hcount.future, hcount.dated, hcount.recent,
    ⟨hcount.tallied.quiet, hcount.tallied.busy⟩, fun x hx => ?_, ?_, ?_⟩
  · by_cases hxo : x = σ.own cr
    · rw [hxo]
      exact hd
    · replace hx : Function.update σ.notified (σ.own cr) true x = true := hx
      rw [Function.update_of_ne hxo] at hx
      exact h.notified x hx
  · show ∀ t ∈ (s.condVars b.cv).tids, _
    rw [hcv]
    intro t ht
    cases ht
  · have hne : ∀ t, (Function.update σ.stmt cr .idle t).Last → t ≠ cr ∧ (σ.stmt t).Last := by
      intro t ht
      by_cases htc : t = cr
      · subst htc
        rw [Function.update_self] at ht
        exact ht.elim
      · rw [Function.update_of_ne htc] at ht
        exact ⟨htc, ht⟩
    refine ⟨fun t ht => ?_, fun t u ht hu => h.last.unique t u (hne t ht).2 (hne u hu).2⟩
    show Function.update σ.notified (σ.own cr) true (σ.own t) = false
    rw [Function.update_of_ne]
    · exact h.last.silent t (hne t ht).2
    · intro heq
      apply (hne t ht).1
      apply h.last.unique t cr (hne t ht).2 _ heq
      rw [hst]
      trivial

/-- **The next statement of a call.** -/
theorem Separated.next (h : σ.Separated b) (htotal : 0 < b.total.toNat) (hcr : σ.runner = some cr)
    (hok : σ.stmt cr = .advance →
      ∀ t, (σ.stmt t).Called → σ.completed + 1 < σ.own t + 2 ^ 32)
    (hs : σ.next b cap cr = some σ') : σ'.Separated b := by
  obtain ⟨hrun, hpc⟩ := runner_eq_some hcr
  have hplace := h.placed cr
  have hd := h.dated cr
  rw [hpc] at hplace
  have hone := hplace.guards_eq_one
  have halone : 0 < σ.sys.guards cr b.mutex → ∀ t, t ≠ cr → ¬(σ.stmt t).Arriving :=
    fun hg t ht => h.not_arriving hg ht
  have hgoto : ∀ (st : BarrierPc) {σ₁ : BarrierSystem T},
      Placed b (.user : Pc T) (σ.sys.guards cr b.mutex) st → σ₁.sys = σ.sys →
        σ₁.stmt = Function.update σ.stmt cr st → σ₁.Housed b := by
    intro st σ₁ hst
    apply h.toHoused.goto hrun
    rw [hpc]
    exact hst
  unfold BarrierSystem.next at hs
  cases hst : σ.stmt cr with
  | idle =>
      rw [hst] at hs
      cases hs
  | readGen =>
      rw [hst] at hs hone
      cases hs
      have hg := hone (by simp) (by simp)
      exact ⟨hgoto (.increment σ.generation) ⟨rfl, hg⟩ rfl rfl,
        h.toCounting.readGen hst (h.queued.not_mem hrun (.condVar b.cv))⟩
  | increment g =>
      rw [hst] at hs hone
      cases hs
      have hg := hone (by simp) (by simp)
      exact ⟨hgoto (.compare g) ⟨rfl, hg⟩ rfl rfl,
        h.toCounting.increment hst (halone (by omega))⟩
  | compare g =>
      rw [hst] at hs hone
      cases hs
      have hg := hone (by simp) (by simp)
      refine ⟨hgoto _ ?_ rfl rfl, h.toCounting.compare hst (halone (by omega))⟩
      split_ifs
      · exact ⟨rfl, hg⟩
      · exact ⟨rfl, hg⟩
  | reset =>
      rw [hst] at hs hone
      cases hs
      have hg := hone (by simp) (by simp)
      exact ⟨hgoto .advance ⟨rfl, hg⟩ rfl rfl,
        h.toCounting.reset hst (halone (by omega))⟩
  | advance =>
      rw [hst] at hs hone
      cases hs
      have hg := hone (by simp) (by simp)
      exact ⟨hgoto .drop ⟨rfl, hg⟩ rfl rfl,
        h.toCounting.advance h.toHoused hst (by omega) htotal (hok hst)⟩
  | drop =>
      rw [hst] at hs hone hd
      refine h.unlock hcr hs (hone (by simp) (by simp)) ?_ id ⟨rfl, rfl⟩ hd (fun _ => ?_) fun _ => ?_
      · rw [hst]
        exact id
      · rw [hst]
        trivial
      · rw [hst]
        trivial
  | notifyAll =>
      rw [hst] at hs
      obtain ⟨σ₁, hprim, rfl⟩ := Option.map_eq_some_iff.mp hs
      exact h.notifyAll hcr hst hprim
  | wait g =>
      rw [hst] at hs
      exact (h.wait hcr hst hs).1
  | check g =>
      rw [hst] at hs hone
      cases hs
      have hg := hone (by simp) (by simp)
      refine ⟨hgoto _ ?_ rfl rfl, h.toCounting.check hst⟩
      split_ifs
      · exact ⟨rfl, hg⟩
      · exact ⟨rfl, hg⟩
  | leave =>
      rw [hst] at hs hone
      refine h.unlock hcr hs (hone (by simp) (by simp)) ?_ id ⟨id, rfl⟩ trivial
        (fun hc => hc.elim) fun hl => hl.elim
      rw [hst]
      exact id

/-- **Generations along a step.** -/
theorem Separated.step (h : σ.Separated b) (htotal : 0 < b.total.toNat) (hok : σ.Allowed a)
    (hs : σ.step b cap a = some σ') : σ'.Separated b := by
  cases a with
  | sys x =>
      replace hs : (if Outside b σ x then
        (σ.sys.step cap x).map fun s => { σ with sys := s } else none) = some σ' := hs
      split_ifs at hs with hout
      obtain ⟨s, hstep, rfl⟩ := Option.map_eq_some_iff.mp hs
      exact h.sys hok.1 hok.2 hout hstep
  | enter =>
      obtain ⟨cr, hcr, hs⟩ := Option.bind_eq_some_iff.mp hs
      split_ifs at hs with hst
      exact h.enter hcr hst hs
  | next =>
      obtain ⟨cr, hcr, hs⟩ := Option.bind_eq_some_iff.mp hs
      exact h.next htotal hcr (hok cr hcr) hs

/-! ### What the invariant says -/

/-- The outstanding call of `t` belongs to generation `g`. -/
def Belongs (σ : BarrierSystem T) (t : Tid) (g : ℕ) : Prop := (σ.stmt t).Called ∧ σ.own t = g

/-- Generations in a state. -/
structure Generations (b : Barrier) (σ : BarrierSystem T) : Prop where
  /-- a complete generation has had `total` arrivals -/
  complete : ∀ g < σ.completed, σ.arrivals g = b.total.toNat
  /-- nobody arrives in a later generation -/
  later : ∀ g > σ.completed, σ.arrivals g = 0
  /-- `count` counts the arrivals of the current one -/
  counted : (∀ t, ¬(σ.stmt t).Arriving) → σ.count.toNat = σ.arrivals σ.completed
  /-- no call of a notified generation is on the queue -/
  flushed : ∀ g t, σ.notified g = true → σ.Belongs t g → t ∉ (σ.sys.condVars b.cv).tids
  /-- and one that holds the mutex is about to read `guard.generation`, or to return -/
  resumed : ∀ g t, σ.notified g = true → σ.Belongs t g → 0 < σ.sys.guards t b.mutex →
    (∃ x, σ.stmt t = .check x) ∨ σ.stmt t = .leave

/-- The statement that a call executes next. -/
structure Proceeds (b : Barrier) (cap : ℕ → ℕ) (σ : BarrierSystem T) (t : Tid) : Prop where
  /-- the statements with which a call returns -/
  returns : σ.stmt t = .leave ∨ σ.stmt t = .notifyAll → ∀ σ' ∈ σ.step b cap .next,
    σ'.stmt t = .idle
  /-- they come after `total` arrivals in its own generation -/
  arrived : σ.stmt t = .leave ∨ σ.stmt t = .notifyAll → σ.arrivals (σ.own t) = b.total.toNat
  /-- a call of a notified generation does not wait again -/
  notified : ∀ x, σ.stmt t = .check x → σ.notified (σ.own t) = true →
    ∀ σ' ∈ σ.step b cap .next, σ'.stmt t = .leave
  /-- a call whose generation is not complete waits again -/
  early : ∀ x, σ.stmt t = .check x → σ.own t = σ.completed →
    ∀ σ' ∈ σ.step b cap .next, σ'.stmt t = .wait x
  /-- one whose generation is complete does not -/
  late : ∀ x, σ.stmt t = .check x → σ.own t ≠ σ.completed →
    ∀ σ' ∈ σ.step b cap .next, σ'.stmt t = .leave
  /-- who waits is on the queue -/
  queued : ∀ x, σ.stmt t = .wait x →
    ∀ σ' ∈ σ.step b cap .next, t ∈ (σ'.sys.condVars b.cv).tids

theorem Separated.generations (h : σ.Separated b) : σ.Generations b := by
  refine ⟨h.past, h.future, fun hquiet => (h.tallied.quiet hquiet).1, ?_, ?_⟩
  · rintro g t hn ⟨hc, rfl⟩ ht
    rw [h.queue t ht] at hn
    cases hn
  · rintro g t hn ⟨hc, rfl⟩ hg
    have hlt := h.notified _ hn
    have hd := h.dated t
    have hplace := h.placed t
    cases hst : σ.stmt t with
    | check x => exact .inl ⟨x, rfl⟩
    | leave => exact .inr rfl
    | idle =>
        rw [hst] at hc
        exact hc.elim
    | readGen =>
        rw [hst] at hc
        exact hc.elim
    | notifyAll =>
        rw [hst] at hplace
        rw [hplace.2] at hg
        exact absurd hg (Nat.lt_irrefl 0)
    | drop =>
        have hsilent := h.last.silent t (by
          rw [hst]
          trivial)
        rw [hn] at hsilent
        cases hsilent
    | reset =>
        rw [hst] at hd
        exact absurd hd (Nat.ne_of_lt hlt)
    | advance =>
        rw [hst] at hd
        exact absurd hd (Nat.ne_of_lt hlt)
    | _ =>
        rw [hst] at hd
        exact absurd hd.2 (Nat.ne_of_lt hlt)

theorem next_of_step (hcr : σ.runner = some cr) (hs : σ' ∈ σ.step b cap .next) :
    σ.next b cap cr = some σ' := by
  replace hs : σ.runner.bind (fun cr => σ.next b cap cr) = some σ' := hs
  rw [hcr] at hs
  exact hs

theorem stmt_of_primitive {c : Call T} {st : BarrierPc} (hs : σ.primitive cap cr c st = some σ') :
    σ'.stmt cr = st := by
  obtain ⟨s, -, rfl⟩ := primitive_eq_some hs
  exact Function.update_self _ _ _

theorem Separated.proceeds (h : σ.Separated b) (hcr : σ.runner = some t) : σ.Proceeds b cap t := by
  have hd := h.dated t
  have hcheck : ∀ x, σ.stmt t = .check x → ∀ σ' ∈ σ.step b cap .next,
      σ'.stmt t = if σ.generation ≠ x then .leave else .wait x := by
    intro x hst σ' hs
    have hnext := next_of_step hcr hs
    unfold BarrierSystem.next at hnext
    rw [hst] at hnext
    cases hnext
    exact Function.update_self _ _ _
  have hgen : ∀ x, σ.stmt t = .check x → (σ.generation = x ↔ σ.own t = σ.completed) := by
    intro x hst
    rw [hst] at hd
    rw [hd.1]
    apply h.toCounting.generation_eq_iff
    rw [hst]
    trivial
  have hlate : ∀ x, σ.stmt t = .check x → σ.own t ≠ σ.completed →
      ∀ σ' ∈ σ.step b cap .next, σ'.stmt t = .leave := by
    intro x hst hne σ' hs
    rw [hcheck x hst σ' hs, if_pos]
    exact fun heq => hne ((hgen x hst).mp heq)
  constructor
  · rintro (hst | hst) σ' hs
    · have hnext := next_of_step hcr hs
      unfold BarrierSystem.next at hnext
      rw [hst] at hnext
      exact stmt_of_primitive hnext
    · have hnext := next_of_step hcr hs
      unfold BarrierSystem.next at hnext
      rw [hst] at hnext
      obtain ⟨σ₁, hprim, rfl⟩ := Option.map_eq_some_iff.mp hnext
      have hidle := stmt_of_primitive hprim
      exact hidle
  · rintro (hst | hst)
    · rw [hst] at hd
      exact h.past _ hd
    · rw [hst] at hd
      exact h.past _ hd
  · intro x hst hn
    exact hlate x hst (Nat.ne_of_lt (h.notified _ hn))
  · intro x hst heq σ' hs
    rw [hcheck x hst σ' hs, if_neg]
    exact fun hne => hne ((hgen x hst).mpr heq)
  · exact hlate
  · intro x hst σ' hs
    have hnext := next_of_step hcr hs
    unfold BarrierSystem.next at hnext
    rw [hst] at hnext
    exact (h.wait hcr hst hnext).2

end BarrierSystem

/-- **Generations stay apart.**  For every `total ≥ 1`, in every state of every run of `Barrier::wait` calls
of any tasks, with locks, semaphores, condition variables and `Task` operations other than `terminate` around
them and interrupts anywhere, in which fewer than `2 ^ 32` generations are completed while a call is
outstanding: a complete generation has had exactly `total` arrivals of its own and a later one none; a call
returns only when its generation is complete; no call of a notified generation is on the queue, and when one
holds the mutex it goes on to return; a call that holds the mutex again while its generation is not complete
waits again, and otherwise returns. -/
theorem barrier_separates {boots : List BootCall} {k : Kernel} {counts : ℕ → ℤ}
    {σ : BarrierSystem T} {tr : List (BarrierSystem T × BarrierAction T)}
    (htotal : 0 < b.total.toNat) (hl : launchAfter boots = some k)
    (hr : Run (BarrierSystem.step b cap) BarrierSystem.Allowed (.init k counts) tr σ) :
    Always (fun σ => σ.Generations b ∧ ∀ t ∈ σ.runner, σ.Proceeds b cap t) tr σ := by
  have hinv := hr.always (I := BarrierSystem.Separated b)
    ⟨BarrierSystem.housed_init hl, BarrierSystem.counting_init htotal⟩
    fun σ a σ' h hok hs => h.step htotal hok hs
  exact ⟨fun e he => ⟨(hinv.1 e he).generations, fun t ht => (hinv.1 e he).proceeds ht⟩,
    hinv.2.generations, fun t ht => hinv.2.proceeds ht⟩

/-- Where the actions are statements, interrupts and pending primitives. -/
theorem allowed_of_test (σ : BarrierSystem Unit) (a : BarrierAction Unit)
    (h : (a = .sys .preempt ∨ a = .sys .proceed ∨ a = .enter ∨ a = .next) ∧
      ∀ t, (σ.stmt t).Called → σ.completed + 1 < σ.own t + 2 ^ 32) : σ.Allowed a := by
  obtain ⟨rfl | rfl | rfl | rfl, hrecent⟩ := h
  · exact ⟨trivial, fun hexit => by cases hexit⟩
  · exact ⟨trivial, fun hexit => by cases hexit⟩
  · trivial
  · exact fun _ _ _ => hrecent

/-- Two generations of a barrier for two, used by three tasks. -/
theorem barrier_separates_run : ∃ k₀ tr, ∃ σ : BarrierSystem Unit,
    launchAfter [.create 3 "a", .create 3 "b", .create 3 "c"] = some k₀ ∧
      Run (BarrierSystem.step ⟨0, 0, 2⟩ fun _ => 0) BarrierSystem.Allowed
        (.init k₀ fun _ => 0) tr σ ∧
      σ.completed = 2 ∧
      Always (fun σ => σ.Generations ⟨0, 0, 2⟩ ∧
        ∀ t ∈ σ.runner, σ.Proceeds ⟨0, 0, 2⟩ (fun _ => 0) t) tr σ := by
  have hsome : (launchAfter [.create 3 "a", .create 3 "b", .create 3 "c"]).isSome = true := by
    decide +kernel
  obtain ⟨k₀, hk₀⟩ := Option.isSome_iff_exists.mp hsome
  have hexec : ((launchAfter [.create 3 "a", .create 3 "b", .create 3 "c"]).bind fun k₀ =>
      exec (BarrierSystem.step ⟨0, 0, 2⟩ fun _ => 0)
        (fun (σ : BarrierSystem Unit) a =>
          (a = .sys .preempt ∨ a = .sys .proceed ∨ a = .enter ∨ a = .next) ∧
            ∀ t, (σ.stmt t).Called → σ.completed + 1 < σ.own t + 2 ^ 32)
        (.init k₀ fun _ => 0)
        [.enter, .next, .next, .next, .next, .enter, .next, .next, .next, .next, .next, .next,
          .sys .preempt, .enter, .next, .next, .next, .next, .next, .sys .proceed, .next, .next,
          .enter, .next, .next, .next, .next, .next]).any (fun σ => σ.completed = 2) = true := by
    decide +kernel
  rw [hk₀, Option.bind_some] at hexec
  obtain ⟨tr, σ, hr, hσ⟩ := exists_run_of_exec
    (fun σ a h => allowed_of_test σ a (of_decide_eq_true h)) hexec
  exact ⟨k₀, tr, σ, hk₀, hr, of_decide_eq_true hσ, barrier_separates (by decide) hk₀ hr⟩

/-- A call of generation 1 is on the queue when the last arriver of generation 0 executes `notify_all`.
Before it holds the mutex again, its own generation is completed, and its next statement leaves the loop
although generation 1 has not been notified. -/
theorem woken_early_and_returns : ∃ k₀ tr₁ tr₂, ∃ σ₁ σ : BarrierSystem Unit,
    launchAfter [.create 3 "a", .create 3 "b", .create 3 "c"] = some k₀ ∧
      Run (BarrierSystem.step ⟨0, 0, 2⟩ fun _ => 0) BarrierSystem.Allowed
        (.init k₀ fun _ => 0) tr₁ σ₁ ∧
      (σ₁.runner = some 1 ∧ σ₁.stmt 1 = .notifyAll ∧ σ₁.own 1 = 0 ∧
        2 ∈ (σ₁.sys.condVars 0).tids ∧ σ₁.own 2 = 1) ∧
      Run (BarrierSystem.step ⟨0, 0, 2⟩ fun _ => 0)
        (fun σ a => σ.Allowed a ∧ (a = .next → σ.runner ≠ some 2)) σ₁ tr₂ σ ∧
      (σ.runner = some 2 ∧ σ.stmt 2 = .check 1 ∧ σ.own 2 = 1 ∧ σ.notified 0 = true ∧
        σ.notified 1 = false) ∧
      ∃ σ' ∈ σ.step ⟨0, 0, 2⟩ (fun _ => 0) .next, σ'.stmt 2 = .leave := by
  have hsome : (launchAfter [.create 3 "a", .create 3 "b", .create 3 "c"]).isSome = true := by
    decide +kernel
  obtain ⟨k₀, hk₀⟩ := Option.isSome_iff_exists.mp hsome
  have hexec : ((launchAfter [.create 3 "a", .create 3 "b", .create 3 "c"]).bind fun k₀ =>
      exec (BarrierSystem.step ⟨0, 0, 2⟩ fun _ => 0)
        (fun (σ : BarrierSystem Unit) a =>
          (a = .sys .preempt ∨ a = .sys .proceed ∨ a = .enter ∨ a = .next) ∧
            ∀ t, (σ.stmt t).Called → σ.completed + 1 < σ.own t + 2 ^ 32)
        (.init k₀ fun _ => 0)
        [.enter, .next, .next, .next, .next, .enter, .next, .next, .next, .next, .next, .next,
          .sys .preempt, .enter, .next, .next, .next, .next]).any (fun σ₁ =>
        decide (σ₁.runner = some 1 ∧ σ₁.stmt 1 = .notifyAll ∧ σ₁.own 1 = 0 ∧
          2 ∈ (σ₁.sys.condVars 0).tids ∧ σ₁.own 2 = 1) &&
        (exec (BarrierSystem.step ⟨0, 0, 2⟩ fun _ => 0)
          (fun (σ : BarrierSystem Unit) a =>
            ((a = .sys .preempt ∨ a = .sys .proceed ∨ a = .enter ∨ a = .next) ∧
              ∀ t, (σ.stmt t).Called → σ.completed + 1 < σ.own t + 2 ^ 32) ∧
                (a = .next → σ.runner ≠ some 2))
          σ₁ [.next, .sys .proceed, .next, .next, .enter, .next, .next, .next, .next, .next, .next,
            .sys .preempt, .sys .proceed]).any fun σ =>
          decide (σ.runner = some 2 ∧ σ.stmt 2 = .check 1 ∧ σ.own 2 = 1 ∧ σ.notified 0 = true ∧
            σ.notified 1 = false) &&
          (σ.step ⟨0, 0, 2⟩ (fun _ => 0) .next).any fun σ' => σ'.stmt 2 = .leave) = true := by
    decide +kernel
  rw [hk₀, Option.bind_some] at hexec
  obtain ⟨tr₁, σ₁, hr₁, hσ₁⟩ := exists_run_of_exec
    (fun σ a h => allowed_of_test σ a (of_decide_eq_true h)) hexec
  obtain ⟨hat₁, hexec₂⟩ := Bool.and_eq_true_iff.mp hσ₁
  obtain ⟨tr₂, σ, hr₂, hσ⟩ := exists_run_of_exec (fun σ a h => of_decide_eq_true h) hexec₂
  have hallowed := hr₂.mono fun σ a h => And.imp_left (allowed_of_test σ a) h
  obtain ⟨hat, hnext⟩ := Bool.and_eq_true_iff.mp hσ
  obtain ⟨σ', hs, hleave⟩ := (Option.any_eq_true _ _).mp hnext
  exact ⟨k₀, tr₁, tr₂, σ₁, σ, hk₀, hr₁, of_decide_eq_true hat₁, hallowed, of_decide_eq_true hat, σ', hs,
    of_decide_eq_true hleave⟩

end MosKernel
