import MosKernel.Lib.Transition
import MosKernel.MsgSteps

/-!
# Peers woken by message queues and `READY_LIST`

`try_wake_up` makes the task at the front of a wait list ready.  That task may be ready already: it is
listed before it sleeps, and it stays listed after its timeout until it has run again.  `WakesPeer`
says that a commit finds its peer blocked, or `READY_LIST` full, so that the second insertion is
rejected; `peer_wakes_keep_ready_list` says that `READY_LIST` has no duplicates and no blocked task
exactly as long as every step meets it.
-/

namespace MosKernel

open OrderedInsert TaskList Transition Kernel

variable {T : Type} {cap : ℕ → ℕ} {σ σ' : System T} {a : Action T}

/-- No task is on `READY_LIST` twice, and no blocked task is on it. -/
structure Kernel.ReadyOk (k : Kernel) : Prop where
  nodup : k.readyList.tids.Nodup
  not_blocked : ∀ t ∈ k.readyList.tids, k.status t ≠ .blocked

namespace Kernel

variable {k k' : Kernel} {c w : Tid}

theorem frame_rouse (k : Kernel) (w : Tid) : Frame k (k.rouse w) := by
  constructor <;> simp [rouse, Kernel.priority, Function.update_apply] <;> grind

theorem OnCpu.rouse (h : k.OnCpu c) (w : Tid) : (k.rouse w).OnCpu c :=
  h.of_frame (frame_rouse k w) rfl

/-- A blocked peer becomes ready, whether it sleeps or not. -/
theorem Coherent.rouse (h : k.Coherent) (hb : k.status w = .blocked)
    (hbl : w ∉ k.blockedList.tids) : (k.rouse w).Coherent := by
  have hl := readyInsert_tids (t := w) (k := (k.setTcb w fun tcb =>
    { tcb with wakePoint := 0xFFFFFFFF, status := .ready }).sleepingRemove w) h.ready_nodup
      (h.not_mem_ready hb)
  obtain ⟨h1, h2, h3, h4, h5, h6, h7, h8, h9, h10⟩ := h
  constructor <;> simp only [Kernel.rouse, hl.1, nodup_insertBefore, mem_insertBefore] <;>
    simp [Function.update_apply] <;> grind

/-- Where `READY_LIST` is full, a ready peer stays ready. -/
theorem Coherent.rouse_of_full (h : k.Coherent) (hw : k.status w = .ready)
    (hfull : k.readyList.tids.length = taskMax) : (k.rouse w).Coherent := by
  have hset : (k.setTcb w fun tcb =>
      { tcb with wakePoint := 0xFFFFFFFF, status := .ready }).Coherent := h.setTcb hw.symm rfl
  have hl : (k.rouse w).readyList = k.readyList := (insertInOrder_of_full hfull).1
  have hrem := hset.sleepingRemove (t := w)
  refine ⟨?_, hrem.sleeping_nodup, hrem.blocked_nodup, ?_, hrem.of_mem_sleeping,
    hrem.of_mem_blocked, hrem.disjoint, hrem.bit, hrem.tid_eq, hrem.running⟩
  · rw [hl]
    exact h.ready_nodup
  · rw [hl]
    exact hrem.mem_ready

/-- A peer that is ready already is inserted again. -/
theorem two_le_count_rouse (hw : w ∈ k.readyList.tids)
    (hlt : k.readyList.tids.length ≠ taskMax) : 2 ≤ (k.rouse w).readyList.tids.count w := by
  have hpos : 0 < k.readyList.tids.count w := List.count_pos_iff.mpr hw
  have hlt' : k.readyList.tids.length < taskMax := lt_of_le_of_ne k.readyList.le_cap hlt
  have hlist : (k.rouse w).readyList.tids = insertBefore _ w k.readyList.tids :=
    (insertInOrder_of_lt hlt').1
  rw [hlist, count_insertBefore, if_pos rfl]
  omega

end Kernel

namespace System

/-- The peer that the step makes ready is blocked, or the insertion into `READY_LIST` is rejected. -/
def WakesPeer (cap : ℕ → ℕ) (σ : System T) (a : Action T) : Prop :=
  ∀ w ∈ σ.peer cap a,
    σ.kernel.status w = .blocked ∨ σ.kernel.readyList.tids.length = taskMax

instance (a : Action T) : Decidable (WakesPeer cap σ a) :=
  inferInstanceAs (Decidable (∀ w ∈ σ.peer cap a, _))

/-- The lists are coherent, and the wait lists hold live tasks. -/
structure Serving (cap : ℕ → ℕ) (σ : System T) : Prop where
  settled : ∃ c, σ.kernel.Settled c
  blocked : σ.kernel.blockedList.tids = []
  waiters : σ.Waiters cap
  alive : ∀ t, (σ.pc t).onList ≠ none → σ.kernel.status t ≠ .terminated

theorem Serving.readyOk (h : σ.Serving cap) : σ.kernel.ReadyOk := by
  obtain ⟨c, hc⟩ := h.settled
  refine ⟨hc.ready_nodup, fun t ht hb => ?_⟩
  exact hc.not_mem_ready hb ht

theorem Serving.running (h : σ.Serving cap) {cr : Tid} (hcr : σ.kernel.crTid = some cr) :
    σ.kernel.Settled cr := by
  obtain ⟨c, hc⟩ := h.settled
  rw [hc.onCpu.crTid] at hcr
  cases hcr
  exact hc

/-- A step that ends in a settled kernel with the same live tasks. -/
theorem Serving.of_switched (h : σ.Serving cap) (ha : a.IsMsg) (hs : σ.step cap a = some σ')
    {k : Kernel} (hco : k.Coherent) (hf : Frame σ.kernel k)
    (hbl : k.blockedList = σ.kernel.blockedList) (hk : Switched k σ'.kernel)
    (hbl' : σ'.kernel.blockedList = k.blockedList)
    (hpc : ∀ t, (σ'.pc t).onList ≠ none → (σ.pc t).onList ≠ none ∨ σ.kernel.crTid = some t) :
    σ'.Serving cap := by
  refine ⟨hk.settled, by rw [hbl', hbl, h.blocked], h.waiters.step ha hs, fun t ht => ?_⟩
  obtain ⟨c, hc⟩ := h.settled
  obtain ⟨c', hc'⟩ := hk.settled
  have halive := (hco.alive_iff hc'.toCoherent hk.frame t).trans
    (hc.toCoherent.alive_iff hco hf t)
  rw [halive]
  rcases hpc t ht with ht | ht
  · exact h.alive t ht
  · exact (h.running ht).alive

/-- A step that leaves the kernel as it is. -/
theorem Serving.idle (h : σ.Serving cap) (ha : a.IsMsg) (hs : σ.step cap a = some σ')
    (hk : σ'.kernel = σ.kernel)
    (hpc : ∀ t, (σ'.pc t).onList ≠ none → (σ.pc t).onList ≠ none ∨ σ.kernel.crTid = some t) :
    σ'.Serving cap := by
  obtain ⟨c, hc⟩ := h.settled
  refine h.of_switched ha hs hc.toCoherent (Frame.refl _) rfl ?_ (by rw [hk]) hpc
  rw [hk]
  exact hc.switched

/-- Only the running task moves. -/
theorem onList_update {cr : Tid} {pc : Pc T} (hcr : σ.kernel.crTid = some cr) (t : Tid)
    (ht : (Function.update σ.pc cr pc t).onList ≠ none) :
    (σ.pc t).onList ≠ none ∨ σ.kernel.crTid = some t := by
  by_cases htc : t = cr
  · subst htc
    exact .inr hcr
  · rw [Function.update_of_ne htc] at ht
    exact .inl ht

/-- A waiter that is not blocked is ready, and another task than the one that commits. -/
theorem Serving.peer_cases (h : σ.Serving cap) {cr w : Tid} {q q' : ℕ} {side side' : Side}
    (hcr : σ.kernel.crTid = some cr)
    (hpc : σ.pc cr = .user ∨ (σ.pc cr).msg = some (q, side, .retry))
    (hw : w ∈ ((σ.msgQueues q').waitList side').tids) :
    w ≠ cr ∧ (σ.kernel.status w = .blocked ∨ σ.kernel.status w = .ready) := by
  have hlist := h.waiters.waits q' side' w hw
  have hne : w ≠ cr := by
    rintro rfl
    have hno : (σ.pc w).onList = none := by
      rcases hpc with hpc | hpc
      · rw [hpc]
        rfl
      · exact Pc.onList_retry hpc
    rw [hno] at hlist
    cases hlist
  refine ⟨hne, ?_⟩
  have hc := h.running hcr
  cases hst : σ.kernel.status w with
  | terminated => exact absurd hst (h.alive w (by rw [hlist]; simp))
  | blocked => exact .inl rfl
  | ready => exact .inr rfl
  | running =>
      have hcur := hc.running w hst
      rw [hc.current] at hcur
      cases hcur
      exact absurd rfl hne

theorem Serving.step (h : σ.Serving cap) (ha : a.IsMsg) (hs : σ.step cap a = some σ')
    (hC : σ.WakesPeer cap a) : σ'.Serving cap := by
  obtain ⟨c, hc⟩ := h.settled
  cases h.waiters.msgStep ha hs with
  | tick hk =>
      exact h.of_switched ha hs hc.toCoherent (Frame.refl _) rfl (systickTrap_switched hc hk)
        (blockedList_systickTrap hc hk) fun t ht => .inl ht
  | switch hsw hk =>
      exact h.of_switched ha hs hc.toCoherent (Frame.refl _) rfl
        (hc.toCoherent.yieldIf hc.onCpu (by simp) hk) (blockedList_yieldIf hc.onCpu hk)
        fun t ht => .inl ht
  | delay hcr hpc hk =>
      exact h.of_switched ha hs hc.toCoherent (Frame.refl _) rfl (delay_switched hc hk)
        (blockedList_delay hc.onCpu hk) fun t ht => .inl ht
  | @commit _ cr q side j k hist hcr hpc hcom hj havail havail' hk =>
      have hc := h.running hcr
      rcases tryWakeUp_cases ((σ.msgQueues q).waitList side.other) σ.kernel cr with
        ⟨-, he⟩ | ⟨w, l, hl, he⟩
      · rw [he] at hk
        cases hk
        exact h.idle ha hs rfl (onList_update hcr)
      · rw [he] at hk
        have hmem : w ∈ ((σ.msgQueues q).waitList side.other).tids := by
          rw [hl]
          exact List.mem_cons_self
        have hpeer : σ.peer cap a = some w := by
          rw [peer, hcom, Option.bind_some]
          show ((σ.msgQueues q).waitList side.other).tids.head? = some w
          rw [hl]
          rfl
        obtain ⟨hne, hst⟩ := h.peer_cases hcr hpc hmem
        have hco : (σ.kernel.rouse w).Coherent := by
          rcases hst with hb | hr
          · exact hc.toCoherent.rouse hb (by rw [h.blocked]; exact List.not_mem_nil)
          · refine hc.toCoherent.rouse_of_full hr ((hC w hpeer).resolve_left ?_)
            rw [hr]
            simp
        have ho := hc.onCpu.rouse w
        -- the task that commits is still ready
        have hstay : cr ∈ (σ.kernel.rouse w).readyList.tids := by
          rw [hco.mem_ready]
          have hcr' := (hc.mem_ready cr).mp hc.current_mem
          rw [Kernel.rouse, status_readyInsert, status_sleepingRemove, status_setTcb,
            if_neg (Ne.symm hne)]
          exact hcr'
        exact h.of_switched ha hs hco (frame_rouse σ.kernel w) rfl
          (hco.yieldIf ho (fun _ => hstay) hk) (blockedList_yieldIf ho hk) (onList_update hcr)
  | start hcr hpc hcom havail hnext => exact h.idle ha hs rfl (onList_update hcr)
  | @enlist cr q side timeout pc hcr hpc hnext =>
      have hno := h.waiters.not_mem (Pc.onList_wait hpc) q side
      exact h.idle ha hs (enqueue_eq (h.waiters.nodup q side) hno).1 (onList_update hcr)
  | sleep hcr hpc hnext hk =>
      exact h.of_switched ha hs hc.toCoherent (Frame.refl _) rfl (delay_switched hc hk)
        (blockedList_delay hc.onCpu hk) (onList_update hcr)
  | timeOut hcr hpc hmem => exact h.idle ha hs rfl (onList_update hcr)
  | wake hcr hpc hmem hnext => exact h.idle ha hs rfl (onList_update hcr)
  | giveUp hcr hpc havail => exact h.idle ha hs rfl (onList_update hcr)

/-- A step that keeps `READY_LIST` free of duplicates has met the condition: no switch takes a second
entry of the peer away. -/
theorem Serving.wakesPeer (h : σ.Serving cap) (ha : a.IsMsg) (hs : σ.step cap a = some σ')
    (hok : σ'.kernel.ReadyOk) : σ.WakesPeer cap a := by
  intro w hw
  obtain ⟨⟨q, side⟩, hcom, hfront⟩ := Option.bind_eq_some_iff.mp hw
  have hnone : σ.committing cap a ≠ none := by
    rw [hcom]
    simp
  cases h.waiters.msgStep ha hs with
  | tick hk => exact absurd rfl hnone
  | switch hsw hk => rcases hsw with rfl | rfl <;> exact absurd rfl hnone
  | delay hcr hpc hk => exact absurd rfl hnone
  | @commit _ cr q' side' j k hist hcr hpc hcom' hj havail havail' hk =>
      rw [hcom'] at hcom
      cases hcom
      by_contra hneg
      rw [not_or] at hneg
      have hc := h.running hcr
      have hmem : w ∈ ((σ.msgQueues q).waitList side.other).tids := List.mem_of_mem_head? hfront
      obtain ⟨hne, hst⟩ := h.peer_cases hcr hpc hmem
      have hready : w ∈ σ.kernel.readyList.tids :=
        (hc.mem_ready w).mpr (.inl (hst.resolve_left hneg.1))
      have htwo := two_le_count_rouse hready hneg.2
      rcases tryWakeUp_cases ((σ.msgQueues q).waitList side.other) σ.kernel cr with
        ⟨hnil, -⟩ | ⟨w', l, hl, he⟩
      · rw [hnil] at hmem
        cases hmem
      · replace hfront : ((σ.msgQueues q).waitList side.other).tids.head? = some w := hfront
        rw [hl] at hfront
        cases hfront
        rw [he] at hk
        have ho := hc.onCpu.rouse w
        have htwo' : 2 ≤ k.readyList.tids.count w := by
          unfold Kernel.yieldIf at hk
          split_ifs at hk
          · rw [yieldTask, if_pos ho.ready] at hk
            exact htwo.trans (count_le_nextTcb ho hne hk)
          · cases hk
            exact htwo
        have hone := List.nodup_iff_count_le_one.mp hok.nodup w
        have hone' : k.readyList.tids.count w ≤ 1 := hone
        omega
  | start hcr hpc hcom' havail hnext => exact absurd hcom' hnone
  | enlist hcr hpc hnext => exact absurd (committing_proceed hcr hpc (by simp)) hnone
  | sleep hcr hpc hnext hk => exact absurd (committing_proceed hcr hpc (by simp)) hnone
  | timeOut hcr hpc hmem => exact absurd (committing_proceed hcr hpc (by simp)) hnone
  | wake hcr hpc hmem hnext => exact absurd (committing_proceed hcr hpc (by simp)) hnone
  | giveUp hcr hpc havail =>
      exact absurd ((committing_retry hcr hpc).trans (if_neg havail.not_gt)) hnone

theorem serving_init {boots : List BootCall} {k : Kernel} {counts : ℕ → ℤ}
    (h : launchAfter boots = some k) : (init k counts : System T).Serving cap := by
  obtain ⟨hs, -, -, -⟩ := settled_launchAfter h
  exact ⟨hs, blockedList_launchAfter h, waiters_init k counts, fun t ht => absurd rfl ht⟩

end System

/-- **When peer wake-ups keep `READY_LIST` coherent.**  In every run of `send` and `recv` calls, delays,
yields and interrupts from a launch, no task is on `READY_LIST` twice and no blocked task is on it in
all states exactly when every peer that a commit takes off a wait list is blocked, or `READY_LIST` is
full. -/
theorem peer_wakes_keep_ready_list {boots : List BootCall} {k : Kernel} {counts : ℕ → ℤ}
    {tr : List (System T × Action T)} (hl : launchAfter boots = some k)
    (hr : Run (System.step cap) (fun _ a => a.IsMsg) (System.init k counts) tr σ) :
    Always (fun σ : System T => σ.kernel.ReadyOk) tr σ ↔ ∀ e ∈ tr, e.1.WakesPeer cap e.2 :=
  hr.forall_iff (System.serving_init hl) (fun _ h => h.readyOk)
    (fun _ _ _ h ha hs hC => h.step ha hs hC) (fun _ _ _ h ha hs hok => h.wakesPeer ha hs hok)

/-- A safe run: a receiver sleeps, a sender wakes it, and it receives the message. -/
theorem peer_wakes_keep_ready_list_run : ∃ k₀ tr, ∃ σ : System ℕ,
    launchAfter [.create 3 "a", .create 3 "b"] = some k₀ ∧
      Run (System.step fun _ => 1) (fun _ a => a.IsMsg) (System.init k₀ fun _ => 0) tr σ ∧
      σ.history = [.received 0 0 7, .sent 0 1 7, .sendCalled 0 1 7, .recvCalled 0 0] ∧
      Always (fun σ : System ℕ => σ.kernel.ReadyOk) tr σ := by
  have hsome : (launchAfter [.create 3 "a", .create 3 "b"]).isSome = true := by decide +kernel
  obtain ⟨k₀, hk₀⟩ := Option.isSome_iff_exists.mp hsome
  have hexec : ((launchAfter [.create 3 "a", .create 3 "b"]).bind fun k₀ =>
      exec (System.step fun _ => 1)
        (fun (σ : System ℕ) a => a.IsMsg ∧ σ.WakesPeer (fun _ => 1) a) (System.init k₀ fun _ => 0)
        [.call (.recv 0 5), .proceed, .proceed, .call (.send 0 7 0), .preempt, .proceed,
          .proceed]).any (fun σ => σ.history =
            [.received 0 0 7, .sent 0 1 7, .sendCalled 0 1 7, .recvCalled 0 0]) = true := by
    decide +kernel
  rw [hk₀, Option.bind_some] at hexec
  obtain ⟨tr, σ, hr, hσ⟩ := exists_run_of_exec (fun (σ : System ℕ) a
    (h : decide (a.IsMsg ∧ σ.WakesPeer (fun _ => 1) a) = true) => of_decide_eq_true h) hexec
  have hrun := hr.mono fun _ _ h => h.1
  exact ⟨k₀, tr, σ, hk₀, hrun, of_decide_eq_true hσ,
    (peer_wakes_keep_ready_list hk₀ hrun).mpr fun e he => (hr.forall_guard e he).2⟩

/-- A receiver that is preempted between the wait list and its `Task::delay` is ready; a sender makes it
ready a second time. -/
theorem peer_wakes_break_ready_list : ∃ k₀ tr, ∃ σ : System Unit,
    launchAfter [.create 3 "a", .create 3 "b"] = some k₀ ∧
      Run (System.step fun _ => 1) (fun _ a => a.IsMsg) (System.init k₀ fun _ => 0) tr σ ∧
      σ.kernel.readyList.tids.count 0 = 2 ∧
      ¬Always (fun σ : System Unit => σ.kernel.ReadyOk) tr σ := by
  have hsome : (launchAfter [.create 3 "a", .create 3 "b"]).isSome = true := by decide +kernel
  obtain ⟨k₀, hk₀⟩ := Option.isSome_iff_exists.mp hsome
  have hexec : ((launchAfter [.create 3 "a", .create 3 "b"]).bind fun k₀ =>
      exec (System.step fun _ => 1) (fun (_ : System Unit) a => a.IsMsg)
        (System.init k₀ fun _ => 0)
        [.call (.recv 0 5), .proceed, .systick 49, .call (.send 0 () 0)]).any
          (fun σ => σ.kernel.readyList.tids.count 0 = 2) = true := by
    decide +kernel
  rw [hk₀, Option.bind_some] at hexec
  obtain ⟨tr, σ, hr, hσ⟩ := exists_run_of_exec (fun (_ : System Unit) (a : Action Unit)
    (h : decide a.IsMsg = true) => of_decide_eq_true h) hexec
  rw [decide_eq_true_eq] at hσ
  refine ⟨k₀, tr, σ, hk₀, hr, hσ, fun hall => ?_⟩
  have hone := List.nodup_iff_count_le_one.mp hall.2.nodup 0
  omega

end MosKernel
