import MosKernel.RunningTask
import Mathlib.Data.List.Rotate

/-!
# Repeated yields

Between two actions the running task is in front of its equals on `READY_LIST` (`Leads`).  When it yields,
`next_tcb` moves its entry behind them only where it is `Running` or its time slice is over; a task that
an earlier pass has re-selected is `Ready` and keeps the processor.  `yields_are_fair` says that repeated
yields go round among the equals exactly where `next_tcb` moves the first yielder.
-/

namespace MosKernel

open OrderedInsert TaskList Transition Kernel

namespace Kernel

variable {k k₁ k' : Kernel} {c t : Tid} {l rest : List Tid}

/-- `n` yields of whoever runs. -/
def yields : ℕ → Kernel → Option Kernel
  | 0, k => some k
  | n + 1, k => k.yieldTask.bind (yields n)

/-- The other tasks on `READY_LIST` with the priority of `c`. -/
def peers (k : Kernel) (c : Tid) : List Tid :=
  k.readyList.tids.filter fun t => t ≠ c ∧ k.priority t = k.priority c

/-- Repeated yields let every peer of `c` run once, in the order of `READY_LIST`, and then `c`. -/
structure TakesTurns (k : Kernel) (c : Tid) : Prop where
  peer : ∀ i (h : i < (k.peers c).length),
    (k.yields (i + 1)).bind currentTcbPtr = some ((k.peers c).get ⟨i, h⟩)
  back : (k.yields ((k.peers c).length + 1)).bind currentTcbPtr = some c

/-! ### The running task is in front of its equals -/

theorem leads_nextTcb (hk : k.nextTcb = some k') (hc : k'.Settled c) : k'.Leads c :=
  leads_of_front (front_of_nextTcb hk hc)

theorem Enters.leads_step {b : Bool} (he : Enters k k₁ c b) (hl : k.Leads c)
    (hk : k₁.yieldIf b = some k') (hc : k'.Settled t) : k'.Leads t := by
  cases b with
  | false =>
      cases hk
      have htc : t = c := by
        have hcur := he.onCpu.current
        rw [hc.current] at hcur
        exact Option.some.inj hcur
      rw [htc]
      exact he.leads (he.status.resolve_right (by simp)) hl
  | true =>
      rw [yieldIf, if_pos rfl, yieldTask, if_pos he.onCpu.ready] at hk
      exact leads_nextTcb hk hc

/-- Between actions the running task leads. -/
structure Leading (k : Kernel) : Prop extends Between k where
  leads : ∀ c, k.Settled c → k.Leads c

theorem leading_launchAfter {boots : List BootCall} (h : launchAfter boots = some k) : k.Leading := by
  refine ⟨between_launchAfter h, fun c hc => ?_⟩
  obtain ⟨k₀, first, -, -, hfront, rfl⟩ :=
    launchAfter_induct (P := fun _ => True) trivial (fun _ _ _ _ _ _ _ _ => trivial) h
  have hcur : some first = some c := hc.current
  cases hcur
  exact leads_of_front hfront

theorem Leading.step {a : TaskAction} (h : k.Leading) (hs : a.step k = some k') : k'.Leading := by
  refine ⟨TaskAction.between h.toBetween hs, fun t ht => ?_⟩
  obtain ⟨c, hc⟩ := h.settled
  rw [TaskAction.step_eq] at hs
  obtain ⟨⟨k₁, b⟩, he, hk⟩ := Option.bind_eq_some_iff.mp hs
  exact (TaskAction.enters hc h.ranked he).leads_step (h.leads c hc) hk ht

/-! ### One yield -/

/-- The running task, if `next_tcb` moves its entry, followed by its peers and the less urgent tasks. -/
structure Turn (k : Kernel) (l rest : List Tid) : Prop where
  between : k.Between
  tids : k.readyList.tids = l ++ rest
  equal : ∀ t ∈ l, ∀ u ∈ l, k.priority t = k.priority u
  lower : ∀ t ∈ l, ∀ u ∈ rest, k.priority t < k.priority u
  runs : ∀ c ∈ l.head?, k.currentTcbPtr = some c ∧ k.Requeues c

theorem requeue_of_requeues (hst : k.Awake c) (hre : k.Requeues c) : k.requeue c =
    ((k.setTcb c fun tcb => { tcb with timeSlice := MosKernel.timeSlice, status := .ready }).readyRemove
      c).readyInsert c := by
  have hno : ¬(k.status c = .terminated ∨ k.status c = .blocked) := by
    rcases hst with hst | hst <;> rw [hst] <;> simp
  rw [requeue, if_neg hno]
  exact if_pos hre

theorem requeue_of_not_requeues (hst : k.Awake c) (hre : ¬k.Requeues c) : k.requeue c = k := by
  have hno : ¬(k.status c = .terminated ∨ k.status c = .blocked) := by
    rcases hst with hst | hst <;> rw [hst] <;> simp
  rw [requeue, if_neg hno]
  exact if_neg hre

/-- The list after the yielder's entry has been moved. -/
theorem Turn.tids_requeue (h : k.Turn (c :: l) rest) (hn : k.readyList.tids.Nodup) (hst : k.Awake c)
    (hre : k.Requeues c) : (k.requeue c).readyList.tids = l ++ c :: rest := by
  set k₁ := (k.setTcb c fun tcb =>
    { tcb with timeSlice := MosKernel.timeSlice, status := .ready }).readyRemove c with hk₁
  have herase : k₁.readyList.tids = l ++ rest := by
    rw [hk₁, readyRemove_readyList, remove_tids, setTcb_readyList, h.tids, List.cons_append,
      List.erase_cons_head]
  have hp : ∀ t, k₁.priority t = k.priority t := by
    intro t
    show (k.setTcb c fun tcb =>
      { tcb with timeSlice := MosKernel.timeSlice, status := .ready }).priority t = _
    rw [priority_setTcb]
    split_ifs with ht
    · rw [ht]
      rfl
    · rfl
  have hno : c ∉ k₁.readyList.tids := by
    rw [hk₁, readyRemove_readyList, remove_tids, setTcb_readyList]
    exact hn.not_mem_erase
  have hnd : k₁.readyList.tids.Nodup := by
    rw [hk₁, readyRemove_readyList, remove_tids, setTcb_readyList]
    exact hn.erase c
  have hpass : ∀ t ∈ l, k₁.isBefore c t = false := by
    intro t ht
    rw [isBefore, hp, hp, decide_eq_false_iff_not, not_lt]
    exact (h.equal t (List.mem_cons_of_mem c ht) c List.mem_cons_self).le
  have hstop : ∀ t ∈ rest, k₁.isBefore c t = true := by
    intro t ht
    rw [isBefore, hp, hp, decide_eq_true_eq]
    exact h.lower c List.mem_cons_self t ht
  rw [requeue_of_requeues hst hre, (readyInsert_tids hnd hno).1, herase,
    insertBefore_append_of_false hpass, insertBefore_of_forall hstop]

/-- The yielder goes behind its peers, and the first of them runs. -/
theorem Turn.yieldTask (h : k.Turn (c :: l) rest) (hl : l ≠ []) :
    ∃ k', k.yieldTask = some k' ∧ k'.Turn (l ++ [c]) rest := by
  obtain ⟨t, ts, rfl⟩ := List.exists_cons_of_ne_nil hl
  obtain ⟨hcur, hre⟩ := h.runs c rfl
  obtain ⟨c', hc⟩ := h.between.settled
  obtain rfl : c' = c := Option.some.inj (hc.current.symm.trans hcur)
  have hr := h.between.ranked
  have hlist := h.tids_requeue hc.ready_nodup ((hc.mem_ready c').mp hc.current_mem) hre
  have hnext : k.nextTcb = some ((k.requeue c').switchTo c' t) := by
    rw [nextTcb, hr.noneDue.wakeUpSleepers, hc.onCpu.crTid, Option.bind_some]
    have hfront : (k.requeue c').readyList.front = some t := by
      rw [TaskList.front, hlist]
      rfl
    dsimp only
    rw [hfront, Option.map_some]
  have hy : k.yieldTask = some ((k.requeue c').switchTo c' t) := by
    rw [Kernel.yieldTask, if_pos hc.ready, hnext]
  have hb : ((k.requeue c').switchTo c' t).Between := (hc.enters hr true).between hc hy
  have hpri := (frame_nextTcb hnext).priority
  have hcur' : ((k.requeue c').switchTo c' t).currentTcbPtr = some t :=
    currentTcbPtr_switchTo ((currentTcbPtr_requeue k c').trans hc.current)
  have htc : t ≠ c' := by
    have hn := hc.ready_nodup
    rw [h.tids] at hn
    rintro rfl
    simp at hn
  have hrun : ((k.requeue c').switchTo c' t).status t = .running := by
    have halone := (hc.toCoherent.nextTcb_running hc.onCpu hnext).mpr (by
      rw [hcur']
      exact fun he => htc (Option.some.inj he))
    obtain ⟨u, hu, hst⟩ := halone.current
    rw [hcur'] at hu
    cases hu
    exact hst
  have hmem : ∀ u, u ∈ t :: ts ++ [c'] ↔ u ∈ c' :: t :: ts := by
    intro u
    rw [List.mem_append, List.mem_singleton, List.mem_cons (a := u) (b := c'), or_comm]
  refine ⟨_, hy, hb, ?_, fun u hu v hv => ?_, fun u hu v hv => ?_, fun u hu => ?_⟩
  · rw [readyList_switchTo, hlist]
    simp
  · rw [hpri, hpri]
    exact h.equal u ((hmem u).mp hu) v ((hmem v).mp hv)
  · rw [hpri, hpri]
    exact h.lower u ((hmem u).mp hu) v hv
  · cases hu
    exact ⟨hcur', .inr hrun⟩

/-- **Repeated yields** rotate the equals. -/
theorem Turn.yields {n : ℕ} (h : k.Turn l rest) (hl : 2 ≤ l.length) :
    ∃ k', k.yields n = some k' ∧ k'.Turn (l.rotate n) rest := by
  induction n generalizing k l with
  | zero =>
      rw [List.rotate_zero]
      exact ⟨k, rfl, h⟩
  | succ n ih =>
      cases l with
      | nil => simp at hl
      | cons c l =>
          have hne : l ≠ [] := by
            rintro rfl
            simp at hl
          obtain ⟨k₁, hk₁, h₁⟩ := h.yieldTask hne
          obtain ⟨k', hk', h'⟩ := ih h₁ (by simpa using hl)
          rw [List.rotate_cons_succ]
          refine ⟨k', ?_, h'⟩
          rw [Kernel.yields, hk₁, Option.bind_some]
          exact hk'

/-- After `n` yields the `n`-th of the equals runs. -/
theorem Turn.current_yields {n : ℕ} (h : k.Turn l rest) (hl : 2 ≤ l.length) (hn : n < l.length) :
    (k.yields n).bind currentTcbPtr = l[n]? := by
  obtain ⟨k', hk', h'⟩ := h.yields hl (n := n)
  have hhead := List.head?_rotate hn
  obtain ⟨t, ht⟩ : ∃ t, l[n]? = some t := ⟨l[n], List.getElem?_eq_getElem hn⟩
  rw [ht] at hhead
  rw [hk', Option.bind_some, ht]
  exact (h'.runs t hhead).1

/-! ### The equals of the running task -/

/-- The list of the running task when nobody is more urgent. -/
theorem Leading.turn (h : k.Leading) (hc : k.Settled c) (hre : k.Requeues c)
    (hmost : ∀ t ∈ k.readyList.tids, k.priority c ≤ k.priority t) :
    ∃ rest, k.Turn (c :: k.peers c) rest := by
  obtain ⟨suf, hlist⟩ := List.head?_eq_some_iff.mp ((h.leads c hc).front hmost)
  have hn := hc.ready_nodup
  rw [hlist, List.nodup_cons] at hn
  have hsorted := h.ranked.sorted
  rw [Sorted, hlist, List.pairwise_cons] at hsorted
  have hpeers : k.peers c = suf.filter fun t => k.priority t = k.priority c := by
    rw [peers, hlist, List.filter_cons_of_neg (by simp)]
    refine List.filter_congr fun t ht => ?_
    have htc : t ≠ c := by
      rintro rfl
      exact hn.1 ht
    simp [htc]
  have hle : ∀ t ∈ suf, k.priority c ≤ k.priority t := hsorted.1
  have hsplit := filter_append_filter_of_pairwise hsorted.2 hle
  have heq : ∀ t ∈ c :: k.peers c, k.priority t = k.priority c := by
    intro t ht
    rcases List.mem_cons.mp ht with rfl | ht
    · rfl
    · rw [hpeers, List.mem_filter] at ht
      exact of_decide_eq_true ht.2
  refine ⟨suf.filter fun t => k.priority t ≠ k.priority c, h.toBetween, ?_, fun t ht u hu => ?_,
    fun t ht u hu => ?_, fun t ht => ?_⟩
  · rw [hlist, hpeers, List.cons_append, hsplit]
  · rw [heq t ht, heq u hu]
  · rw [List.mem_filter] at hu
    rw [heq t ht]
    exact lt_of_le_of_ne (hle u hu.1) (Ne.symm (of_decide_eq_true hu.2))
  · cases ht
    exact ⟨hc.current, hre⟩

/-- A running task whose entry stays where it is keeps the processor. -/
theorem Leading.yield_stays (h : k.Leading) (hc : k.Settled c) (hre : ¬k.Requeues c)
    (hmost : ∀ t ∈ k.readyList.tids, k.priority c ≤ k.priority t) : k.yieldTask = some k := by
  have hsame := requeue_of_not_requeues ((hc.mem_ready c).mp hc.current_mem) hre
  rw [Kernel.yieldTask, if_pos hc.ready, nextTcb, h.ranked.noneDue.wakeUpSleepers, hc.onCpu.crTid,
    Option.bind_some]
  dsimp only
  rw [hsame, (h.leads c hc).front hmost, Option.map_some]
  exact congrArg some (if_neg (not_not.mpr rfl))

/-- **One yield among equals.** -/
theorem Leading.takesTurns_iff (h : k.Leading) (hc : k.Settled c) (hpeers : k.peers c ≠ [])
    (hmost : ∀ t ∈ k.readyList.tids, k.priority c ≤ k.priority t) :
    k.TakesTurns c ↔ k.Requeues c := by
  have hlen : 2 ≤ (c :: k.peers c).length := by
    have hpos := List.length_pos_of_ne_nil hpeers
    rw [List.length_cons]
    omega
  constructor
  · intro hturns
    by_contra hre
    have hpos := List.length_pos_of_ne_nil hpeers
    have hfirst := hturns.peer 0 hpos
    rw [yields, h.yield_stays hc hre hmost, Option.bind_some] at hfirst
    replace hfirst : k.currentTcbPtr = some ((k.peers c).get ⟨0, hpos⟩) := hfirst
    have hmem := List.get_mem (k.peers c) ⟨0, hpos⟩
    rw [Option.some.inj (hfirst.symm.trans hc.current)] at hmem
    simp [peers] at hmem
  · intro hre
    obtain ⟨rest, hturn⟩ := h.turn hc hre hmost
    refine ⟨fun i hi => ?_, ?_⟩
    · rw [hturn.current_yields hlen (Nat.succ_lt_succ hi), List.getElem?_cons_succ,
        List.getElem?_eq_getElem hi]
      rfl
    · obtain ⟨k', hk', h'⟩ := hturn.yields hlen (n := (k.peers c).length + 1)
      rw [← List.length_cons (a := c), List.rotate_length] at h'
      rw [hk', Option.bind_some]
      exact (h'.runs c rfl).1

end Kernel

/-- **When yielding is fair among equals.**  In every state of every run of task operations, yields and
late ticks from a launch: let `c` run, with nobody ready who is more urgent and at least one other ready
task of its priority.  Then repeated yields run each of these tasks once, in the order of `READY_LIST`,
and then `c` again, exactly if `c` is `Running` or its time slice is over. -/
theorem yields_are_fair {boots : List BootCall} {k₀ k : Kernel} {tr : List (Kernel × TaskAction)} {c : Tid}
    (hl : launchAfter boots = some k₀) (hr : Run TaskAction.step (fun _ _ => True) k₀ tr k)
    (hc : k.currentTcbPtr = some c) (hpeers : k.peers c ≠ [])
    (hmost : ∀ t ∈ k.readyList.tids, k.priority c ≤ k.priority t) :
    k.TakesTurns c ↔ k.Requeues c := by
  have hlead : k.Leading := by
    refine hr.invariant (I := Leading) (leading_launchAfter hl) ?_
    intro k a k' h _ hs
    exact h.step hs
  obtain ⟨c', hset⟩ := hlead.settled
  obtain rfl : c' = c := Option.some.inj (hset.current.symm.trans hc)
  exact hlead.takesTurns_iff hset hpeers hmost

/-- Three equals right after the launch. -/
theorem yields_are_fair_run : ∃ k₀,
    launchAfter [.create 3 "a", .create 3 "b", .create 3 "c"] = some k₀ ∧ k₀.peers 0 = [1, 2] ∧
      k₀.TakesTurns 0 := by
  have hsome : (launchAfter [.create 3 "a", .create 3 "b", .create 3 "c"]).any (fun k₀ =>
      k₀.currentTcbPtr = some 0 ∧ k₀.peers 0 = [1, 2] ∧ k₀.Requeues 0 ∧
        ∀ t ∈ k₀.readyList.tids, k₀.priority 0 ≤ k₀.priority t) = true := by decide +kernel
  obtain ⟨k₀, hk₀, hq⟩ := (Option.any_eq_true _ _).mp hsome
  obtain ⟨hcur, hpeers, hre, hmost⟩ := of_decide_eq_true hq
  refine ⟨k₀, hk₀, hpeers, (yields_are_fair hk₀ .start hcur ?_ hmost).mpr hre⟩
  rw [hpeers]
  simp

/-- A task that has yielded alone creates an equal: its next yield re-selects it. -/
theorem yielder_keeps_running : ∃ k₀ tr k, launchAfter [.create 3 "a"] = some k₀ ∧
    Run TaskAction.step (fun _ _ => True) k₀ tr k ∧ k.currentTcbPtr = some 0 ∧ k.peers 0 = [2] ∧
      (∀ t ∈ k.readyList.tids, k.priority 0 ≤ k.priority t) ∧
      (k.yields 1).bind currentTcbPtr = some 0 ∧ ¬k.TakesTurns 0 := by
  have hsome : (launchAfter [.create 3 "a"]).isSome = true := by decide +kernel
  obtain ⟨k₀, hk₀⟩ := Option.isSome_iff_exists.mp hsome
  have hexec : ((launchAfter [.create 3 "a"]).bind fun k₀ => exec TaskAction.step (fun _ _ => true) k₀
      [.call .yieldTask, .call (.create 3 "b")]).any (fun k => k.currentTcbPtr = some 0 ∧
        k.peers 0 = [2] ∧ (∀ t ∈ k.readyList.tids, k.priority 0 ≤ k.priority t) ∧
        (k.yields 1).bind currentTcbPtr = some 0) = true := by decide +kernel
  rw [hk₀, Option.bind_some] at hexec
  obtain ⟨tr, k, hr, hk⟩ := exists_run_of_exec (fun _ _ _ => trivial) hexec
  obtain ⟨hcur, hpeers, hmost, hyield⟩ := of_decide_eq_true hk
  refine ⟨k₀, tr, k, hk₀, hr, hcur, hpeers, hmost, hyield, fun h => ?_⟩
  have hpos : 0 < (k.peers 0).length := by
    rw [hpeers]
    simp
  have hfirst := h.peer 0 hpos
  rw [Nat.zero_add, hyield] at hfirst
  have hmem := List.get_mem (k.peers 0) ⟨0, hpos⟩
  rw [← Option.some.inj hfirst, hpeers] at hmem
  simp at hmem

end MosKernel
