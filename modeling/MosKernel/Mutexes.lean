import MosKernel.Lib.Transition
import MosKernel.LockSpec

/-!
# Mutual exclusion

`MutexInner.Owned` relates one mutex to the live guards and the pending `lock` calls of all tasks: the
owner's guards, and the one it is about to get, are counted; nobody else has any; and whoever else is
pending is on the wait queue.  A task that is resumed in `internal_lock` is on no queue, so the mutex is
its own, although the source does not look again.
-/

namespace MosKernel

open OrderedInsert TaskList Transition Kernel

variable {T : Type} {cap : ℕ → ℕ} {σ σ' : System T} {a : Action T}

namespace MutexInner

variable {i j : MutexInner} {guards guards' pending pending' : Tid → ℕ} {alive alive' : Tid → Prop}
  {c w : Tid}

/-- `guards t` counts the live guards of `t` on this mutex, and `pending t` is 1 where `t` is in
`internal_lock`, and 0 elsewhere. -/
structure Owned (i : MutexInner) (guards pending : Tid → ℕ) (alive : Tid → Prop) : Prop where
  free : i.owner = none → i.recursiveCount = 0 ∧ i.waitQueue.tids = []
  held : ∀ o, i.owner = some o → i.recursiveCount.toNat = guards o + pending o ∧
    0 < i.recursiveCount.toNat ∧ alive o ∧ o ∉ i.waitQueue.tids
  others : ∀ t, i.owner ≠ some t → guards t = 0 ∧ (pending t ≠ 0 → t ∈ i.waitQueue.tids)
  waiting : ∀ t, pending t ≠ 0 → pending t = 1 ∧ guards t = 0

theorem owned_new (alive : Tid → Prop) : new.Owned (fun _ => 0) (fun _ => 0) alive where
  free := fun _ => ⟨rfl, rfl⟩
  held := by rintro o ⟨⟩
  others := fun _ _ => ⟨rfl, fun h => absurd rfl h⟩
  waiting := fun _ h => absurd rfl h

/-- The mutex is not concerned. -/
theorem Owned.congr (h : i.Owned guards pending alive) (hg : ∀ t, guards' t = guards t)
    (hp : ∀ t, pending' t = pending t) (ha : ∀ t, i.owner = some t → alive t → alive' t) :
    i.Owned guards' pending' alive' := by
  have hg' : guards' = guards := funext hg
  have hp' : pending' = pending := funext hp
  rw [hg', hp']
  exact ⟨h.free, fun o ho => ⟨(h.held o ho).1, (h.held o ho).2.1, ha o ho (h.held o ho).2.2.1,
    (h.held o ho).2.2.2⟩, h.others, h.waiting⟩

/-- Who has a guard owns the mutex. -/
theorem Owned.owner_of_guards (h : i.Owned guards pending alive) (hc : 0 < guards c) :
    i.owner = some c := by
  by_contra hne
  have := (h.others c hne).1
  omega

/-- The owner locks the mutex once more. -/
theorem Owned.again (h : i.Owned guards pending alive) (ho : i.owner = some c)
    (hp : pending c = 0) (hroom : guards c + 1 < 2 ^ 32) :
    ({ i with recursiveCount := i.recursiveCount + 1 } : MutexInner).Owned
      (Function.update guards c (guards c + 1)) pending alive := by
  obtain ⟨hcount, hpos, halive, hnot⟩ := h.held c ho
  refine ⟨fun hnone => ?_, fun o ho' => ?_, fun t ht => ?_, fun t ht => ?_⟩
  · rw [show i.owner = none from hnone] at ho
    cases ho
  · rw [show i.owner = some o from ho'] at ho
    cases ho
    have hcount' : (i.recursiveCount + 1).toNat = guards c + 1 + pending c := by bv_omega
    refine ⟨?_, ?_, halive, hnot⟩
    · rw [Function.update_self]
      exact hcount'
    · show 0 < (i.recursiveCount + 1).toNat
      omega
  · have htc : t ≠ c := by
      rintro rfl
      exact ht ho
    rw [Function.update_of_ne htc]
    exact h.others t ht
  · have htc : t ≠ c := by
      rintro rfl
      exact ht hp
    rw [Function.update_of_ne htc]
    exact h.waiting t ht

/-- A free mutex is taken. -/
theorem Owned.take (h : i.Owned guards pending alive) (ho : i.owner = none) (hp : pending c = 0)
    (hc : alive c) : ({ i with owner := some c, recursiveCount := 1 } : MutexInner).Owned
      (Function.update guards c (guards c + 1)) pending alive := by
  have hall : ∀ t, guards t = 0 ∧ pending t = 0 := by
    intro t
    obtain ⟨hg, hq⟩ := h.others t (by rw [ho]; simp)
    refine ⟨hg, ?_⟩
    by_contra hne
    have hmem := hq hne
    rw [(h.free ho).2] at hmem
    cases hmem
  refine ⟨by rintro ⟨⟩, fun o ho' => ?_, fun t ht => ?_, fun t ht => absurd (hall t).2 ht⟩
  · cases ho'
    refine ⟨?_, Nat.one_pos, hc, ?_⟩
    · rw [Function.update_self, (hall c).1, (hall c).2]
      rfl
    · show c ∉ i.waitQueue.tids
      rw [(h.free ho).2]
      exact List.not_mem_nil
  · have htc : t ≠ c := by
      rintro rfl
      exact ht rfl
    rw [Function.update_of_ne htc]
    exact ⟨(hall t).1, fun hne => absurd (hall t).2 hne⟩

/-- A task joins the queue of a mutex that another owns. -/
theorem Owned.contend {queue : TaskList} (h : i.Owned guards pending alive) {o : Tid}
    (ho : i.owner = some o) (hne : o ≠ c)
    (hq : ∀ t, t ∈ queue.tids ↔ t = c ∨ t ∈ i.waitQueue.tids) :
    ({ i with waitQueue := queue } : MutexInner).Owned guards (Function.update pending c 1)
      alive := by
  refine ⟨fun hnone => ?_, fun o' ho' => ?_, fun t ht => ⟨(h.others t ht).1, fun hp => ?_⟩,
    fun t ht => ?_⟩
  · rw [show i.owner = none from hnone] at ho
    cases ho
  · rw [show i.owner = some o' from ho'] at ho
    cases ho
    obtain ⟨hcount, hpos, halive, hnot⟩ := h.held o ho'
    rw [Function.update_of_ne hne]
    refine ⟨hcount, hpos, halive, fun hm => ?_⟩
    rcases (hq o).mp hm with rfl | hm
    · exact hne rfl
    · exact hnot hm
  · rw [Function.update_apply] at hp
    rw [hq]
    split_ifs at hp with htc
    · exact .inl htc
    · exact .inr ((h.others t ht).2 hp)
  · rw [Function.update_apply] at ht ⊢
    split_ifs with htc
    · subst htc
      refine ⟨rfl, (h.others t ?_).1⟩
      rw [ho]
      exact fun heq => hne (Option.some.inj heq)
    · rw [if_neg htc] at ht
      exact h.waiting t ht

/-- A task that is pending but not queued has been handed the mutex: it gets its guard. -/
theorem Owned.resume (h : i.Owned guards pending alive) (hp : pending c ≠ 0)
    (hc : c ∉ i.waitQueue.tids) :
    i.owner = some c ∧
      i.Owned (Function.update guards c (guards c + 1)) (Function.update pending c 0) alive := by
  have ho : i.owner = some c := by
    by_contra hne
    exact hc ((h.others c hne).2 hp)
  obtain ⟨hcount, hpos, halive, hnot⟩ := h.held c ho
  obtain ⟨hone, hzero⟩ := h.waiting c hp
  refine ⟨ho, h.free, fun o ho' => ?_, fun t ht => ?_, fun t ht => ?_⟩
  · rw [ho] at ho'
    cases ho'
    rw [Function.update_self, Function.update_self]
    exact ⟨by omega, hpos, halive, hnot⟩
  · have htc : t ≠ c := by
      rintro rfl
      exact ht ho
    rw [Function.update_of_ne htc, Function.update_of_ne htc]
    exact h.others t ht
  · have htc : t ≠ c := by
      rintro rfl
      rw [Function.update_self] at ht
      exact ht rfl
    rw [Function.update_of_ne htc] at ht ⊢
    rw [Function.update_of_ne htc]
    exact h.waiting t ht

/-- A guard is dropped: the mutex stays with the owner, becomes free, or goes to the first waiter. -/
theorem Owned.unlock {k : Kernel} {r : CsResult MutexInner} (h : i.Owned guards pending alive)
    (hn : i.waitQueue.tids.Nodup) (hg : 0 < guards c) (hp : pending c = 0)
    (hq : ∀ t ∈ i.waitQueue.tids, pending t ≠ 0 ∧ alive t) (hr : Unlocks i k c r) :
    r.inner.Owned (Function.update guards c (guards c - 1)) pending alive := by
  have ho := h.owner_of_guards hg
  obtain ⟨hcount, hpos, halive, hnot⟩ := h.held c ho
  have hne : ∀ t, pending t ≠ 0 → t ≠ c := by
    rintro t ht rfl
    exact ht hp
  have hwaiting : ∀ t, pending t ≠ 0 →
      pending t = 1 ∧ Function.update guards c (guards c - 1) t = 0 := by
    intro t ht
    rw [Function.update_of_ne (hne t ht)]
    exact h.waiting t ht
  have hother : ∀ t, t ≠ c → i.owner ≠ some t := by
    intro t htc heq
    rw [ho] at heq
    exact htc (Option.some.inj heq).symm
  cases hr with
  | leave hmore =>
      refine ⟨fun hnone => ?_, fun o ho' => ?_, fun t ht => ?_, hwaiting⟩
      · rw [show i.owner = none from hnone] at ho
        cases ho
      · rw [show i.owner = some o from ho'] at ho
        cases ho
        rw [Function.update_self]
        have hless : (i.recursiveCount - 1).toNat = guards c - 1 + pending c := by bv_omega
        refine ⟨hless, ?_, halive, hnot⟩
        show 0 < (i.recursiveCount - 1).toNat
        bv_omega
      · have htc : t ≠ c := by
          rintro rfl
          exact ht ho
        rw [Function.update_of_ne htc]
        exact h.others t ht
  | release hone hnil hb =>
      refine ⟨fun _ => ⟨rfl, hnil⟩, by rintro o ⟨⟩, fun t _ => ?_, hwaiting⟩
      by_cases htc : t = c
      · subst htc
        rw [Function.update_self]
        exact ⟨by bv_omega, fun hpt => absurd hp hpt⟩
      · rw [Function.update_of_ne htc]
        exact h.others t (hother t htc)
  | @handOff w queue b hone hcons hb =>
      rw [hcons, List.nodup_cons] at hn
      obtain ⟨hpw, haw⟩ := hq w (by rw [hcons]; exact List.mem_cons_self)
      refine ⟨by rintro ⟨⟩, fun o ho' => ?_, fun t ht => ?_, hwaiting⟩
      · cases ho'
        obtain ⟨hpw', hgw⟩ := hwaiting w hpw
        exact ⟨by rw [hpw', hgw]; rfl, Nat.one_pos, haw, hn.1⟩
      · have htw : t ≠ w := by
          rintro rfl
          exact ht rfl
        by_cases htc : t = c
        · subst htc
          rw [Function.update_self]
          exact ⟨by bv_omega, fun hpt => absurd hp hpt⟩
        · rw [Function.update_of_ne htc]
          obtain ⟨hgt, hqt⟩ := h.others t (hother t htc)
          refine ⟨hgt, fun hpt => ?_⟩
          have hm := hqt hpt
          rw [hcons, List.mem_cons] at hm
          exact hm.resolve_left htw

end MutexInner

/-- Whether the task is in `internal_lock` of mutex `m`, as a number. -/
def Pc.pending (pc : Pc T) (m : ℕ) : ℕ :=
  match pc with
  | .lock m' => if m' = m then 1 else 0
  | _ => 0

theorem Pc.pending_of_waitsFor {pc : Pc T} {m : ℕ} (h : pc.waitsFor = some (.mutex m)) :
    pc.pending m ≠ 0 := by
  cases pc with
  | lock m' =>
      cases h
      simp [pending]
  | _ => cases h

/-- Whether the pending call will return a guard on mutex `m`, as a number. -/
def Pc.due (pc : Pc T) (m : ℕ) : ℕ :=
  match pc with
  | .lock m' | .condUnlocked _ m' | .condRelock _ m' => if m' = m then 1 else 0
  | _ => 0

namespace System

/-- Every mutex is owned by the task that has its guards. -/
def Owned (σ : System T) : Prop := ∀ m, (σ.mutexes m).Owned (fun t => σ.guards t m)
  (fun t => (σ.pc t).pending m) fun t => σ.kernel.status t ≠ .terminated

/-- A task exits without guards. -/
def ExitsFree (σ : System T) (a : Action T) : Prop :=
  a = .call (.task .exitCurrent) → ∀ cr, σ.kernel.crTid = some cr → ∀ m, σ.guards cr m = 0

/-- The number of pending calls after one task has moved. -/
theorem pending_update {c : Tid} {pc : Pc T} {m : ℕ} (h : pc.pending m = (σ.pc c).pending m)
    (t : Tid) : (Function.update σ.pc c pc t).pending m = (σ.pc t).pending m := by
  by_cases htc : t = c
  · subst htc
    rw [Function.update_self, h]
  · rw [Function.update_of_ne htc]

theorem setGuards_self (σ : System T) (c : Tid) (m n : ℕ) (t : Tid) :
    (σ.setGuards c m n).guards t m = Function.update (fun t => σ.guards t m) c n t := by
  rw [setGuards_guards]
  by_cases htc : t = c
  · subst htc
    rw [Function.update_self, Function.update_self, Function.update_self]
  · rw [Function.update_of_ne htc, Function.update_of_ne htc]

theorem setGuards_of_ne (σ : System T) (c : Tid) {m m' : ℕ} (n : ℕ) (hm : m' ≠ m) (t : Tid) :
    (σ.setGuards c m n).guards t m' = σ.guards t m' := by
  rw [setGuards_guards]
  by_cases htc : t = c
  · subst htc
    rw [Function.update_self, Function.update_of_ne hm]
  · rw [Function.update_of_ne htc]

/-- A call is made with no other call pending. -/
theorem user_of_call {c : Call T} {cr : Tid} (hs : σ.step cap (.call c) = some σ')
    (hcr : σ.kernel.crTid = some cr) : σ.pc cr = .user := by
  obtain ⟨cr', hcr', hs⟩ := Option.bind_eq_some_iff.mp hs
  rw [hcr] at hcr'
  cases hcr'
  split at hs
  · assumption
  · cases hs

/-- The owner of a mutex survives the step: it does not exit, because it has a guard or will get
one. -/
theorem Owned.owner_alive (he : σ.Owned) (hsurv : Survives σ a σ') (hx : σ.ExitsFree a)
    (hs : σ.step cap a = some σ') {m : ℕ} {o : Tid} (ho : (σ.mutexes m).owner = some o)
    (halive : σ.kernel.status o ≠ .terminated) : σ'.kernel.status o ≠ .terminated := by
  refine hsurv o halive fun hexit hcr => ?_
  have hg := hx hexit o hcr m
  subst hexit
  have hpc := user_of_call hs hcr
  obtain ⟨hcount, hpos, -, -⟩ := (he m).held o ho
  rw [hpc, hg] at hcount
  have hzero : (σ.mutexes m).recursiveCount.toNat = 0 := hcount
  omega

/-- A step that leaves all mutexes and guards as they are. -/
theorem Owned.keep (he : σ.Owned) (hm : σ'.mutexes = σ.mutexes)
    (hg : σ'.guards = σ.guards) (hp : ∀ m t, (σ'.pc t).pending m = (σ.pc t).pending m)
    (ha : ∀ m t, (σ.mutexes m).owner = some t → σ.kernel.status t ≠ .terminated →
      σ'.kernel.status t ≠ .terminated) : σ'.Owned := by
  intro m
  rw [hm]
  exact (he m).congr (fun t => by rw [hg]) (hp m) (ha m)

/-- A step on mutex `m` by the running task. -/
theorem Owned.update (he : σ.Owned) {m : ℕ} {i : MutexInner} {c : Tid} (pc : Pc T)
    (hm : σ'.mutexes = Function.update σ.mutexes m i)
    (hg : ∀ m' ≠ m, ∀ t, σ'.guards t m' = σ.guards t m')
    (hpc : σ'.pc = Function.update σ.pc c pc)
    (hp : ∀ m' ≠ m, pc.pending m' = (σ.pc c).pending m')
    (ha : ∀ m t, (σ.mutexes m).owner = some t → σ.kernel.status t ≠ .terminated →
      σ'.kernel.status t ≠ .terminated)
    (hi : i.Owned (fun t => σ'.guards t m) (fun t => (σ'.pc t).pending m)
      fun t => σ'.kernel.status t ≠ .terminated) : σ'.Owned := by
  intro m'
  rw [hm]
  by_cases hmm : m' = m
  · subst hmm
    rw [Function.update_self]
    exact hi
  · rw [Function.update_of_ne hmm]
    refine (he m').congr (hg m' hmm) (fun t => ?_) (ha m')
    rw [hpc]
    exact pending_update (hp m' hmm) t

/-- A `Task` operation: a new task has no guards, and its predecessor left none. -/
theorem Owned.task (he : σ.Owned) (h : σ.Queued) {cr : Tid} {c : TaskCall}
    (hcr : σ.kernel.crTid = some cr) (hs : σ.task c = some σ')
    (ha : ∀ m t, (σ.mutexes m).owner = some t → σ.kernel.status t ≠ .terminated →
      σ'.kernel.status t ≠ .terminated) : σ'.Owned := by
  obtain ⟨⟨k, new⟩, hexec, rfl⟩ := Option.map_eq_some_iff.mp hs
  cases new with
  | none => exact he.keep rfl rfl (fun _ _ => rfl) ha
  | some t₀ =>
      have hdead : σ.kernel.status t₀ = .terminated :=
        ((TaskCall.exec_outcome (h.running hcr) hexec).2 t₀ rfl).1
      intro m
      have hno : (σ.mutexes m).owner ≠ some t₀ := fun ho => ((he m).held t₀ ho).2.2.1 hdead
      obtain ⟨hg, hq⟩ := (he m).others t₀ hno
      refine (he m).congr (fun t => ?_) (fun t => ?_) (ha m)
      · show Function.update σ.guards t₀ (fun _ => 0) t m = σ.guards t m
        by_cases ht : t = t₀
        · subst ht
          rw [Function.update_self]
          exact hg.symm
        · rw [Function.update_of_ne ht]
      · refine pending_update (Eq.symm ?_) t
        by_contra hne
        have hp := (h.waits (.mutex m) t₀ (hq hne)).2.1
        rw [hdead] at hp
        cases hp

/-- The running task gets a guard. -/
theorem Owned.acquire (he : σ.Owned) {m : ℕ} {i : MutexInner} {c : Tid}
    (hp : ∀ m' ≠ m, (σ.pc c).pending m' = 0)
    (hi : i.Owned (Function.update (fun t => σ.guards t m) c (σ.guards c m + 1))
      (Function.update (fun t => (σ.pc t).pending m) c 0) fun t => σ.kernel.status t ≠ .terminated) :
    ({ σ with mutexes := Function.update σ.mutexes m i }.acquireGuard c m).Owned := by
  refine he.update .user rfl (fun m' hm t => setGuards_of_ne _ c _ hm t) rfl
    (fun m' hm => (hp m' hm).symm) (fun _ _ _ => id)
    (hi.congr (setGuards_self _ c m _) (fun t => ?_) fun _ _ => id)
  show (Function.update σ.pc c .user t).pending m = _
  by_cases htc : t = c
  · subst htc
    rw [Function.update_self, Function.update_self]
    rfl
  · rw [Function.update_of_ne htc, Function.update_of_ne htc]

theorem Locks.pending {cr : Tid} {m : ℕ} (h : σ.Locks a cr m) (m' : ℕ) :
    (σ.pc cr).pending m' = 0 := by
  rcases h with ⟨-, hpc, -⟩ | ⟨-, c, hpc⟩ <;> rw [hpc] <;> rfl

/-- The tasks on the wait queue of a mutex are in its `internal_lock`, and alive. -/
theorem Queued.pending (h : σ.Queued) {m : ℕ} {t : Tid} (ht : t ∈ (σ.mutexes m).waitQueue.tids) :
    (σ.pc t).pending m ≠ 0 ∧ σ.kernel.status t ≠ .terminated := by
  obtain ⟨hw, hp⟩ := h.waits (.mutex m) t ht
  exact ⟨Pc.pending_of_waitsFor hw, by rw [hp.1]; simp⟩

/-- The running task gives up a guard. -/
theorem Owned.giveUp (he : σ.Owned) (h : σ.Queued) {cr : Tid} {m : ℕ} {k : Kernel}
    {r : CsResult MutexInner} (pc : Pc T) (hpc : σ.pc cr = .user) (hg : 0 < σ.guards cr m)
    (hr : Unlocks (σ.mutexes m) k cr r) (hp : ∀ m', pc.pending m' = 0)
    (hm : σ'.mutexes = Function.update σ.mutexes m r.inner)
    (hguards : σ'.guards = (σ.setGuards cr m (σ.guards cr m - 1)).guards)
    (hpc' : σ'.pc = Function.update σ.pc cr pc)
    (ha : ∀ t, σ.kernel.status t ≠ .terminated → σ'.kernel.status t ≠ .terminated) : σ'.Owned := by
  have hsame : ∀ m', pc.pending m' = (σ.pc cr).pending m' := by
    intro m'
    rw [hp, hpc]
    rfl
  have hunlock := (he m).unlock (h.nodup (.mutex m)) hg (by rw [hpc]; rfl) (fun t => h.pending) hr
  refine he.update pc hm (fun m' hmm t => ?_) hpc' (fun m' _ => hsame m') (fun _ t _ => ha t)
    (hunlock.congr (fun t => ?_) (fun t => ?_) fun t _ => ha t)
  · rw [hguards]
    exact setGuards_of_ne _ cr _ hmm t
  · rw [hguards]
    exact setGuards_self _ cr m _ t
  · rw [hpc']
    exact pending_update (hsame m) t

/-! ### The number of guards -/

/-- No task has, or waits to get, more guards on a mutex than `recursive_count` can count. -/
def GuardsFit (σ : System T) : Prop := ∀ t m, σ.guards t m + (σ.pc t).due m < 2 ^ 32

/-- No task gets more guards than it was due, or there is room for them. -/
theorem GuardsFit.of_le (h : σ.GuardsFit) (hle : ∀ t m,
    σ'.guards t m + (σ'.pc t).due m ≤ σ.guards t m + (σ.pc t).due m ∨
      σ'.guards t m + (σ'.pc t).due m < 2 ^ 32) : σ'.GuardsFit := fun t m =>
  (hle t m).elim (fun hle => hle.trans_lt (h t m)) id

/-- Only `cr` gets guards, or goes on with its call. -/
theorem GuardsFit.move (h : σ.GuardsFit) (cr : Tid) (pc : Pc T)
    (hpc : σ'.pc = Function.update σ.pc cr pc) (hg : ∀ t, t ≠ cr → σ'.guards t = σ.guards t)
    (hcr : ∀ m, σ'.guards cr m + pc.due m ≤ σ.guards cr m + (σ.pc cr).due m ∨
      σ'.guards cr m + pc.due m < 2 ^ 32) : σ'.GuardsFit := by
  refine h.of_le fun t m => ?_
  by_cases htc : t = cr
  · rw [htc, hpc, Function.update_self]
    exact hcr m
  · rw [hpc, Function.update_of_ne htc, hg t htc]
    exact .inl le_rfl

/-- A lock has room for its guard: `CondVar::wait` has given one up. -/
theorem Locks.room {cr : Tid} {m : ℕ} (hl : σ.Locks a cr m) (h : σ.GuardsFit) :
    σ.guards cr m + 1 < 2 ^ 32 := by
  rcases hl with ⟨-, -, hroom⟩ | ⟨-, c, hpc⟩
  · exact hroom
  · have hfit := h cr m
    rw [hpc, Pc.due, if_pos rfl] at hfit
    exact hfit

/-- `cr` gets its guard. -/
theorem GuardsFit.acquire {cr : Tid} {m : ℕ} (h : σ.GuardsFit)
    (hroom : σ.guards cr m + 1 < 2 ^ 32) : (σ.acquireGuard cr m).GuardsFit := by
  refine h.move cr .user rfl (fun t htc => Function.update_of_ne htc _ _) fun m' => ?_
  show Function.update σ.guards cr _ cr m' + 0 ≤ _ ∨ Function.update σ.guards cr _ cr m' + 0 < 2 ^ 32
  rw [Function.update_self]
  by_cases hmm : m' = m
  · rw [hmm, Function.update_self]
    exact .inr hroom
  · rw [Function.update_of_ne hmm]
    exact .inl (Nat.le_add_right _ _)

/-- `cr` gives up a guard, and may go on to wait for it. -/
theorem GuardsFit.drop {cr : Tid} {m : ℕ} (h : σ.GuardsFit) (pc : Pc T) (hg : 0 < σ.guards cr m)
    (hpc : σ'.pc = Function.update σ.pc cr pc)
    (hguards : σ'.guards = (σ.setGuards cr m (σ.guards cr m - 1)).guards)
    (hdue : ∀ m', pc.due m' ≤ if m' = m then 1 else (σ.pc cr).due m') : σ'.GuardsFit := by
  refine h.move cr pc hpc (fun t htc => ?_) fun m' => .inl ?_
  · rw [hguards]
    exact Function.update_of_ne htc _ _
  · have hle := hdue m'
    rw [hguards, setGuards_guards, Function.update_self]
    split_ifs at hle with hmm
    · rw [hmm, Function.update_self]
      rw [hmm] at hle
      omega
    · rw [Function.update_of_ne hmm]
      omega

/-- **Guards along a step.** -/
theorem GuardsFit.step (h : σ.GuardsFit) (hs : LockStep σ a σ') : σ'.GuardsFit := by
  have hdue : ∀ {cr : Tid} {pc : Pc T}, (∀ m, pc.due m ≤ (σ.pc cr).due m) →
      ∀ {s : System T}, s.guards = σ.guards → s.pc = Function.update σ.pc cr pc → s.GuardsFit := by
    intro cr pc hle s hg hpc
    refine h.move cr pc hpc (fun t _ => by rw [hg]) fun m => .inl ?_
    rw [hg]
    exact Nat.add_le_add_left (hle m) _
  cases hs with
  | tick hk => exact h
  | switch hk => exact h
  | task hcr hpc hcall hs =>
      obtain ⟨⟨k, new⟩, -, rfl⟩ := Option.map_eq_some_iff.mp hs
      cases new with
      | none => exact h
      | some t₀ =>
          refine h.move t₀ .user rfl (fun t htc => Function.update_of_ne htc _ _)
            fun m => .inl ?_
          show Function.update σ.guards t₀ (fun _ => 0) t₀ m + 0 ≤ _
          rw [Function.update_self]
          exact Nat.zero_le _
  | @sema _ s i pc hist hi hpc =>
      rcases hpc with ⟨-, rfl⟩ | ⟨-, cr, hcr, hpc, rfl⟩
      · exact h
      · exact hdue (fun m => Nat.zero_le _) rfl rfl
  | block hcr hpc hk => exact hdue (fun m => Nat.zero_le _) rfl rfl
  | up ha hcons hk => exact h
  | @enter _ cr m i hcr hl hi => exact GuardsFit.acquire (σ := { σ with mutexes := _ }) h (hl.room h)
  | @contend _ cr o m k hcr hl ho hne hk =>
      refine h.move cr (.lock m) rfl (fun _ _ => rfl) fun m' => ?_
      rw [Pc.due]
      split_ifs with hmm
      · rw [← hmm]
        exact .inr (hl.room h)
      · exact .inl (Nat.le_add_right _ _)
  | @resume cr m hcr hpc =>
      refine h.acquire ?_
      have hfit := h cr m
      rw [hpc, Pc.due, if_pos rfl] at hfit
      exact hfit
  | @unlock cr m r k hcr hpc hg hr hk =>
      refine h.drop (σ.pc cr) hg (Function.update_eq_self cr σ.pc).symm rfl fun m' => ?_
      rw [hpc]
      exact Nat.zero_le _
  | @wait cr c m r pc k hcr hpc hg hr hnext hk =>
      refine h.drop pc hg rfl rfl fun m' => ?_
      have hpcdue : pc.due m' = if m = m' then 1 else 0 := by
        rcases hnext with rfl | rfl <;> rfl
      rw [hpcdue]
      split_ifs with hmm hmm'
      · exact le_rfl
      · exact absurd hmm.symm hmm'
      · exact Nat.zero_le _
      · exact Nat.zero_le _
  | @condYield cr c' m k hcr hpc hk =>
      refine hdue (fun m' => ?_) rfl rfl
      rw [hpc]
      exact le_rfl
  | notify hcr hpc hcons hk => exact h
  | notifyNone hnil => exact h
  | notifyAll hcr hpc hk => exact h

/-- A lock of a mutex that is free or the caller's. -/
theorem Owned.enter (he : σ.Owned) (hf : σ.GuardsFit) (h : σ.Queued) {cr : Tid} {m : ℕ}
    {i : MutexInner} (hcr : σ.kernel.crTid = some cr) (hl : σ.Locks a cr m)
    (hi : (σ.mutexes m).owner = some cr ∧
        i = { σ.mutexes m with recursiveCount := (σ.mutexes m).recursiveCount + 1 } ∨
      (σ.mutexes m).owner = none ∧
        i = { σ.mutexes m with owner := some cr, recursiveCount := 1 }) :
    ({ σ with mutexes := Function.update σ.mutexes m i }.acquireGuard cr m).Owned := by
  have hp := hl.pending
  have hsame : Function.update (fun t => (σ.pc t).pending m) cr 0 = fun t => (σ.pc t).pending m := by
    rw [← hp m]
    exact Function.update_eq_self cr _
  refine he.acquire (fun m' _ => hp m') ?_
  rw [hsame]
  rcases hi with ⟨ho, rfl⟩ | ⟨ho, rfl⟩
  · exact (he m).again ho (hp m) (hl.room hf)
  · exact (he m).take ho (hp m) (h.running hcr).alive

/-- A task in `internal_lock` goes on with the mutex that it has been handed. -/
theorem Owned.resume (he : σ.Owned) (h : σ.Queued) {cr : Tid} {m : ℕ}
    (hcr : σ.kernel.crTid = some cr) (hpc : σ.pc cr = .lock m) : (σ.acquireGuard cr m).Owned := by
  have hp : (σ.pc cr).pending m ≠ 0 := by
    rw [hpc]
    exact Pc.pending_of_waitsFor rfl
  have hresume := ((he m).resume hp (h.not_mem hcr (.mutex m))).2
  have hself : Function.update σ.mutexes m (σ.mutexes m) = σ.mutexes :=
    Function.update_eq_self m σ.mutexes
  have hstep := he.acquire (i := σ.mutexes m) (c := cr) (fun m' hm => ?_) hresume
  · rw [hself] at hstep
    exact hstep
  · rw [hpc]
    exact if_neg (Ne.symm hm)

/-- **Ownership along a step.** -/
theorem Owned.step (he : σ.Owned) (hf : σ.GuardsFit) (h : σ.Queued) (ha : a.IsLock)
    (hx : σ.ExitsFree a) (hs : σ.step cap a = some σ') : σ'.Owned := by
  have hls := step_lock h.pcs ha hs
  have hsurv := (h.step hls).2
  have halive : ∀ m t, (σ.mutexes m).owner = some t → σ.kernel.status t ≠ .terminated →
      σ'.kernel.status t ≠ .terminated := fun m t ho => he.owner_alive hsurv hx hs ho
  cases hls with
  | tick hk => exact he.keep rfl rfl (fun _ _ => rfl) halive
  | switch hk => exact he.keep rfl rfl (fun _ _ => rfl) halive
  | task hcr hpc hcall hs => exact he.task h hcr hs halive
  | @sema _ s i pc hist hi hpc =>
      refine he.keep rfl rfl (fun m t => ?_) halive
      rcases hpc with ⟨-, rfl⟩ | ⟨-, cr, hcr, hpc, rfl⟩
      · rfl
      · exact pending_update (by rw [hpc]; rfl) t
  | @block cr s n k hcr hpc hk =>
      exact he.keep rfl rfl (fun m t => pending_update (by rw [hpc]; rfl) t) halive
  | up ha hcons hk => exact he.keep rfl rfl (fun _ _ => rfl) halive
  | enter hcr hl hi => exact he.enter hf h hcr hl hi
  | @contend _ cr o m k hcr hl ho hne hk =>
      have hno := h.not_mem hcr (.mutex m)
      have hcontend := (he m).contend ho hne
        (fun t => mem_enqueue (k := (σ.kernel.boost o (σ.kernel.priority cr)).park cr) (u := t)
          (h.nodup (.mutex m)) hno)
      refine he.update (.lock m) rfl (fun _ _ _ => rfl) rfl (fun m' hm => ?_) halive
        (hcontend.congr (fun _ => rfl) (fun t => ?_) fun t ht => halive m t ht)
      · rw [hl.pending]
        exact if_neg (Ne.symm hm)
      · show (Function.update σ.pc cr (.lock m) t).pending m = _
        by_cases htc : t = cr
        · subst htc
          rw [Function.update_self, Function.update_self]
          exact if_pos rfl
        · rw [Function.update_of_ne htc, Function.update_of_ne htc]
  | resume hcr hpc => exact he.resume h hcr hpc
  | @unlock cr m r k hcr hpc hg hr hk =>
      exact he.giveUp h (σ.pc cr) hpc hg hr (fun m' => by rw [hpc]; rfl) rfl rfl
        (Function.update_eq_self cr σ.pc).symm fun t ht => hsurv t ht (by rintro ⟨⟩)
  | @wait cr c m r pc k hcr hpc hg hr hnext hk =>
      have hp : ∀ m', pc.pending m' = 0 := by
        intro m'
        rcases hnext with rfl | rfl <;> rfl
      exact he.giveUp h pc hpc hg hr hp rfl rfl rfl fun t ht => hsurv t ht (by rintro ⟨⟩)
  | @condYield cr c' m k hcr hpc hk =>
      exact he.keep rfl rfl (fun m t => pending_update (by rw [hpc]; rfl) t) halive
  | notify hcr hpc hcons hk => exact he.keep rfl rfl (fun _ _ => rfl) halive
  | notifyNone hnil => exact he
  | notifyAll hcr hpc hk => exact he.keep rfl rfl (fun _ _ => rfl) halive

/-- The invariant of mutual exclusion. -/
structure Exclusive (σ : System T) : Prop where
  owned : σ.Owned
  fits : σ.GuardsFit

theorem Exclusive.step (he : σ.Exclusive) (h : σ.Queued) (ha : a.IsLock) (hx : σ.ExitsFree a)
    (hs : σ.step cap a = some σ') : σ'.Exclusive :=
  ⟨he.owned.step he.fits h ha hx hs, he.fits.step (step_lock h.pcs ha hs)⟩

/-- What a guard means. -/
structure MutexesOk (σ : System T) : Prop where
  guarded : ∀ t m, 0 < σ.guards t m →
    (σ.mutexes m).owner = some t ∧ (σ.mutexes m).recursiveCount.toNat = σ.guards t m
  free : ∀ m, (σ.mutexes m).owner = none →
    (σ.mutexes m).recursiveCount = 0 ∧ (σ.mutexes m).waitQueue.tids = []
  resumed : ∀ cr m, σ.kernel.crTid = some cr → σ.pc cr = .lock m →
    (σ.mutexes m).owner = some cr

theorem Exclusive.mutexesOk (he : σ.Exclusive) (h : σ.Queued) : σ.MutexesOk := by
  refine ⟨fun t m hg => ?_, fun m => (he.owned m).free, fun cr m hcr hpc => ?_⟩
  · have ho := (he.owned m).owner_of_guards hg
    refine ⟨ho, ?_⟩
    have hp : (σ.pc t).pending m = 0 := by
      by_contra hne
      have := ((he.owned m).waiting t hne).2
      omega
    have hcount := ((he.owned m).held t ho).1
    rw [hp] at hcount
    exact hcount
  · refine ((he.owned m).resume ?_ (h.not_mem hcr (.mutex m))).1
    rw [hpc]
    exact Pc.pending_of_waitsFor rfl

theorem exclusive_init (k : Kernel) (counts : ℕ → ℤ) : (init k counts : System T).Exclusive where
  owned := fun _ => MutexInner.owned_new _
  fits := fun _ _ => by
    show 0 + 0 < 2 ^ 32
    omega

end System

/-- **Mutual exclusion.**  In every state of every run of locks, guard drops, condition variables,
semaphores, `Task` operations other than `terminate` and interrupts from a launch, in which tasks exit
without guards: who has guards on a mutex is its owner, and the mutex counts them; a mutex without an
owner has count 0 and nobody waits for it; and who runs in `internal_lock` owns the mutex. -/
theorem mutex_excludes {boots : List BootCall} {k : Kernel} {counts : ℕ → ℤ}
    {tr : List (System T × Action T)} (hl : launchAfter boots = some k)
    (hr : Run (System.step cap) (fun σ a => a.IsLock ∧ σ.ExitsFree a) (System.init k counts) tr σ) :
    Always System.MutexesOk tr σ := by
  have hall := hr.always (I := fun σ => σ.Queued ∧ σ.Exclusive)
    ⟨System.queued_init hl, System.exclusive_init k counts⟩ fun σ a σ' h hok hs =>
      ⟨(h.1.step (System.step_lock h.1.pcs hok.1 hs)).1, h.2.step h.1 hok.1 hok.2 hs⟩
  exact ⟨fun e he => (hall.1 e he).2.mutexesOk (hall.1 e he).1, hall.2.2.mutexesOk hall.2.1⟩

/-- A recursive lock, a contended one that is handed over in both directions, and a `CondVar::wait`. -/
theorem mutex_excludes_run : ∃ k₀ tr, ∃ σ : System Unit,
    launchAfter [.create 3 "a", .create 4 "b"] = some k₀ ∧
      Run (System.step fun _ => 0) (fun σ a => a.IsLock ∧ σ.ExitsFree a)
        (System.init k₀ fun _ => 0) tr σ ∧
      σ.guards 1 0 = 1 ∧ (σ.mutexes 0).owner = some 1 ∧ Always System.MutexesOk tr σ := by
  have hsome : (launchAfter [.create 3 "a", .create 4 "b"]).isSome = true := by decide +kernel
  obtain ⟨k₀, hk₀⟩ := Option.isSome_iff_exists.mp hsome
  have hexec : ((launchAfter [.create 3 "a", .create 4 "b"]).bind fun k₀ =>
      exec (System.step fun _ => 0)
        (fun (_ : System Unit) a => a.IsLock ∧ a ≠ .call (.task .exitCurrent))
        (System.init k₀ fun _ => 0)
        [.call (.lock 0), .call (.lock 0), .call (.task (.delay 3)), .call (.lock 0), .systick 2,
          .call (.unlock 0), .call (.unlock 0), .call (.lock 0), .proceed, .call (.wait 0 0),
          .proceed, .call (.notify 0), .call (.unlock 0), .call (.task (.delay 9)), .proceed,
          .proceed]).any (fun σ => σ.guards 1 0 = 1) = true := by
    decide +kernel
  rw [hk₀, Option.bind_some] at hexec
  obtain ⟨tr, σ, hr, hσ⟩ := exists_run_of_exec (fun (_ : System Unit) (a : Action Unit)
    (h : decide (a.IsLock ∧ a ≠ .call (.task .exitCurrent)) = true) => of_decide_eq_true h) hexec
  have hguards : σ.guards 1 0 = 1 := of_decide_eq_true hσ
  have hrun : Run (System.step fun _ => 0) (fun σ a => a.IsLock ∧ σ.ExitsFree a)
      (System.init k₀ fun _ => 0) tr σ :=
    hr.mono fun _ _ h => ⟨h.1, fun hexit => absurd hexit h.2⟩
  have hall := mutex_excludes hk₀ hrun
  exact ⟨k₀, tr, σ, hk₀, hrun, hguards, (hall.2.guarded 1 0 (by omega)).1, hall⟩

end MosKernel
