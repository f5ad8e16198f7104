import MosKernel.Inheritance

/-!
# Boosts are given back

A boosted owner keeps its old priority in `sub_priority`, the one field that several boosts and several
unlocks write.  `GivenBack` relates both fields of every task to the priority it was created with, which
`creations` reads off a run; `boosts_are_given_back` says that a task which owns no mutex has its creation
priority, in all states of all runs.
-/

namespace MosKernel

open TaskList Transition Kernel

variable {T : Type} {cap : ℕ → ℕ} {σ σ' : System T} {a : Action T} {creation : Tid → ℕ}

/-! ### Creation priorities -/

/-- The creation priorities after a creation with priority `p`. -/
def Kernel.noteCreation (k : Kernel) (p : ℕ) (creation : Tid → ℕ) : Tid → ℕ :=
  match k.allocTid with
  | some (t, _) => Function.update creation t p
  | none => creation

/-- The creation priorities after a `Task` operation. -/
def TaskCall.noteCreation (k : Kernel) (creation : Tid → ℕ) : TaskCall → Tid → ℕ
  | .create p _ | .createRaw p _ _ => k.noteCreation p creation
  | _ => creation

/-- Priorities are in `PRI_MAX..=PRI_MIN`. -/
def TaskCall.ValidPriority : TaskCall → Prop
  | .create p _ | .createRaw p _ _ => priMax ≤ p ∧ p ≤ priMin
  | _ => True

def BootCall.ValidPriority (b : BootCall) : Prop := priMax ≤ b.priority ∧ b.priority ≤ priMin

def Action.ValidPriority : Action T → Prop
  | .call (.task c) => c.ValidPriority
  | _ => True

instance : DecidablePred TaskCall.ValidPriority
  | .create _ _ | .createRaw _ _ _ => inferInstanceAs (Decidable (_ ∧ _))
  | .exitCurrent | .block _ | .resume _ | .terminate _ | .delay _ | .yieldTask => isTrue trivial

instance : DecidablePred (Action.ValidPriority (T := T))
  | .call (.task c) => inferInstanceAs (Decidable c.ValidPriority)
  | .call (.down _) | .call (.downTimeout _ _) | .call (.tryDown _) | .call (.up _)
  | .call (.lock _) | .call (.unlock _) | .call (.wait _ _) | .call (.notify _) | .call (.notifyAll _)
  | .call (.send _ _ _) | .call (.recv _ _)
  | .systick _ | .preempt | .upFromIsr _ | .proceed => isTrue trivial

/-- The creation priorities after one action. -/
def System.noteCreation (σ : System T) (creation : Tid → ℕ) : Action T → Tid → ℕ
  | .call (.task c) => c.noteCreation σ.kernel creation
  | _ => creation

/-- The creation priorities at the end of a run, from those at its start. -/
def System.creations (creation : Tid → ℕ) : List (System T × Action T) → Tid → ℕ
  | [] => creation
  | (σ, a) :: tr => σ.noteCreation (creations creation tr) a

/-- The creation priorities after the given creations and the launch, which creates the idle task. -/
def Kernel.bootCreations : List BootCall → Kernel → (Tid → ℕ) → Tid → ℕ
  | [], k, creation => k.noteCreation priMin creation
  | b :: boots, k, creation =>
    match b.exec k with
    | some k' => bootCreations boots k' (k.noteCreation b.priority creation)
    | none => creation

namespace Kernel

variable {k k₁ k' : Kernel} {c t : Tid}

theorem noteCreation_of_alloc (h : k.allocTid = some (t, k₁)) (p : ℕ) :
    k.noteCreation p creation = Function.update creation t p := by
  rw [noteCreation, h]

theorem noteCreation_of_none (h : k.allocTid = none) (p : ℕ) :
    k.noteCreation p creation = creation := by
  rw [noteCreation, h]

/-- Every living task has the priority it was created with, and no backup. -/
def AsCreated (k : Kernel) (creation : Tid → ℕ) : Prop :=
  ∀ t, k.status t ≠ .terminated →
    (k.tcbs t).subPriority = priInv ∧ k.priority t = creation t ∧ creation t ≤ priMin

theorem addTask_self (ha : k.allocTid = some (t, k₁)) (p : ℕ) (name : String) :
    ((k₁.addTask t p name).tcbs t).subPriority = priInv ∧
      (k₁.addTask t p name).priority t = p := by
  obtain ⟨-, rfl⟩ := allocTid_eq_some ha
  simp [addTask, Kernel.priority, Tcb.empty]

theorem AsCreated.addTask (h : k.AsCreated creation) (hc : k.Coherent)
    (ha : k.allocTid = some (t, k₁)) {p : ℕ} (hp : p ≤ priMin) (name : String) :
    (k₁.addTask t p name).AsCreated (k.noteCreation p creation) := by
  have hadd := hc.added p name ha
  intro u hu
  rw [noteCreation_of_alloc ha]
  by_cases hut : u = t
  · subst hut
    rw [Function.update_self]
    exact ⟨(addTask_self ha p name).1, (addTask_self ha p name).2, hp⟩
  · rw [Kernel.status, hadd.tcbs u hut] at hu
    rw [Function.update_of_ne hut, Kernel.priority, hadd.tcbs u hut]
    exact h u hu

end Kernel

/-- A living task was alive before the call, or the call has just created it. -/
theorem TaskCall.exec_live {k k' : Kernel} {c : Tid} {call : TaskCall} {new : Option Tid}
    (h : k.Settled c) (he : call.exec k = some (k', new)) {t : Tid}
    (ht : k'.status t ≠ .terminated) :
    k.status t ≠ .terminated ∧ call.noteCreation k creation t = creation t ∨
      (k'.tcbs t).subPriority = priInv ∧ k'.priority t = call.noteCreation k creation t ∧
        (call.ValidPriority → call.noteCreation k creation t ≤ priMin) := by
  -- the two creations
  have hcreate : ∀ {p : ℕ} {name : String}, (k.allocTid = none ∧ k' = k ∧ new = none ∨
      ∃ t k₁, k.allocTid = some (t, k₁) ∧ new = some t ∧ Switched (k₁.addTask t p name) k') →
      k.status t ≠ .terminated ∧ k.noteCreation p creation t = creation t ∨
        (k'.tcbs t).subPriority = priInv ∧ k'.priority t = k.noteCreation p creation t ∧
          k.noteCreation p creation t = p := by
    rintro p name (⟨hnone, rfl, -⟩ | ⟨t₀, k₁, hal, -, hs⟩)
    · exact .inl ⟨ht, by rw [noteCreation_of_none hnone]⟩
    · have ha := h.toCoherent.added p name hal
      obtain ⟨c', hc'⟩ := hs.settled
      rw [ha.coherent.alive_iff hc'.toCoherent hs.frame] at ht
      rw [noteCreation_of_alloc hal]
      by_cases htt : t = t₀
      · subst htt
        rw [Function.update_self, hs.frame.subPriority, hs.frame.priority]
        exact .inr ⟨(addTask_self hal p name).1, (addTask_self hal p name).2, rfl⟩
      · rw [Kernel.status, ha.tcbs t htt] at ht
        exact .inl ⟨ht, Function.update_of_ne htt _ _⟩
  have hkeep : Switched k k' → k.status t ≠ .terminated := by
    intro hs
    obtain ⟨c', hc'⟩ := hs.settled
    exact (h.toCoherent.alive_iff hc'.toCoherent hs.frame t).mp ht
  have hdiscard : ∀ {u : Tid}, (k.discard u).yieldTask = some k' → k.status t ≠ .terminated := by
    intro u hk
    have hs := (h.toCoherent.discard u).yieldTask (onCpu_discard h.onCpu u) hk
    obtain ⟨c', hc'⟩ := hs.settled
    rw [(h.toCoherent.discard u).alive_iff hc'.toCoherent hs.frame] at ht
    intro hdead
    refine ht ?_
    rw [status_discard]
    split_ifs
    · rfl
    · exact hdead
  cases call with
  | create p name =>
      obtain ⟨⟨k₁, r₁⟩, hk, he⟩ := Option.map_eq_some_iff.mp he
      cases he
      rcases hcreate (create_cases h hk) with hold | ⟨hsub, hpri, hp⟩
      · exact .inl hold
      · exact .inr ⟨hsub, hpri, fun hvalid => hp.le.trans hvalid.2⟩
  | createRaw p name size =>
      obtain ⟨⟨k₁, r₁⟩, hk, he⟩ := Option.map_eq_some_iff.mp he
      cases he
      rcases hcreate (createRaw_cases h hk) with hold | ⟨hsub, hpri, hp⟩
      · exact .inl hold
      · exact .inr ⟨hsub, hpri, fun hvalid => hp.le.trans hvalid.2⟩
  | exitCurrent =>
      obtain ⟨k₁, hk, he⟩ := Option.map_eq_some_iff.mp he
      cases he
      rw [exitCurrent_eq h] at hk
      exact .inl ⟨hdiscard hk, rfl⟩
  | block u =>
      obtain ⟨k₁, hk, he⟩ := Option.map_eq_some_iff.mp he
      cases he
      exact .inl ⟨hkeep (block_switched h hk), rfl⟩
  | resume u =>
      obtain ⟨k₁, hk, he⟩ := Option.map_eq_some_iff.mp he
      cases he
      exact .inl ⟨hkeep (resume_switched h hk), rfl⟩
  | terminate u =>
      obtain ⟨k₁, hk, he⟩ := Option.map_eq_some_iff.mp he
      cases he
      unfold Kernel.terminate at hk
      split_ifs at hk
      · cases hk
        exact .inl ⟨ht, rfl⟩
      · exact .inl ⟨hdiscard hk, rfl⟩
  | delay ticks =>
      obtain ⟨k₁, hk, he⟩ := Option.map_eq_some_iff.mp he
      cases he
      exact .inl ⟨hkeep (delay_switched h hk), rfl⟩
  | yieldTask =>
      obtain ⟨k₁, hk, he⟩ := Option.map_eq_some_iff.mp he
      cases he
      exact .inl ⟨hkeep (h.toCoherent.yieldTask h.onCpu hk), rfl⟩

namespace Kernel

variable {k k₁ k' : Kernel} {c o t : Tid}

theorem subPriority_boost (k : Kernel) (o t : Tid) (pri : ℕ) :
    ((k.boost o pri).tcbs t).subPriority =
      if t = o ∧ pri < k.priority o ∧ (k.tcbs o).subPriority = priInv then k.priority o
      else (k.tcbs t).subPriority := by
  rcases lt_or_ge pri (k.priority o) with hlt | hge
  · have hset : ((k.setTcb o (raised pri)).tcbs t).subPriority =
        if t = o ∧ pri < k.priority o ∧ (k.tcbs o).subPriority = priInv then k.priority o
        else (k.tcbs t).subPriority := by
      rw [setTcb_tcbs]
      by_cases hto : t = o
      · subst hto
        rw [Function.update_self]
        show (if (k.tcbs t).subPriority = priInv then (k.tcbs t).priority
          else (k.tcbs t).subPriority) = _
        by_cases hsub : (k.tcbs t).subPriority = priInv
        · rw [if_pos hsub, if_pos ⟨rfl, hlt, hsub⟩]
          rfl
        · rw [if_neg hsub, if_neg fun h => hsub h.2.2]
      · rw [Function.update_of_ne hto, if_neg fun h => hto h.1]
    rw [boost_of_lt hlt, ← hset]
    split_ifs <;> rfl
  · rw [boost_of_le hge, if_neg fun h => absurd h.2.1 (not_lt.mpr hge)]

theorem subPriority_restore (k : Kernel) (c t : Tid) :
    ((k.restore c).tcbs t).subPriority = if t = c then priInv else (k.tcbs t).subPriority := by
  unfold restore
  by_cases htc : t = c
  · subst htc
    rw [if_pos rfl]
    split_ifs with hsub
    · rw [setTcb_tcbs, Function.update_self]
    · exact not_not.mp hsub
  · rw [if_neg htc]
    split_ifs
    · rw [setTcb_tcbs, Function.update_of_ne htc]
    · rfl

/-- The fields of one task: not boosted, or boosted and the owner of a mutex. -/
def GivenBack (k : Kernel) (creation : ℕ) (owns : Prop) (t : Tid) : Prop :=
  (k.tcbs t).subPriority = priInv ∧ k.priority t = creation ∨
    (k.tcbs t).subPriority = creation ∧ owns

theorem GivenBack.congr {creation : ℕ} {owns owns' : Prop} (h : k.GivenBack creation owns t)
    (hs : (k₁.tcbs t).subPriority = (k.tcbs t).subPriority) (hp : k₁.priority t = k.priority t)
    (ho : owns → owns') : k₁.GivenBack creation owns' t := by
  rw [GivenBack, hs, hp]
  exact h.imp_right fun hlost => ⟨hlost.1, ho hlost.2⟩

/-- The owner of a mutex is boosted: its creation priority is saved once. -/
theorem GivenBack.boost {creation : ℕ} {owns : Prop} (h : k.GivenBack creation owns t)
    (hvalid : creation ≤ priMin) (ho : t = o → owns) (pri : ℕ) :
    (k.boost o pri).GivenBack creation owns t := by
  rw [GivenBack, subPriority_boost, priority_boost]
  by_cases hto : t = o
  · subst hto
    by_cases hlt : pri < k.priority t
    · refine .inr ⟨?_, ho rfl⟩
      rcases h with ⟨hsub, hpri⟩ | ⟨hsub, -⟩
      · rw [if_pos ⟨rfl, hlt, hsub⟩, hpri]
      · have hne : (k.tcbs t).subPriority ≠ priInv := by
          rw [hsub]
          intro heq
          rw [heq] at hvalid
          exact absurd hvalid (by decide)
        rw [if_neg fun h => hne h.2.2, hsub]
    · rw [if_neg fun h => hlt h.2.1, if_pos rfl, min_eq_right (not_lt.mp hlt)]
      exact h
  · rw [if_neg fun h => hto h.1, if_neg hto]
    exact h

/-- After the outermost unlock the caller has its creation priority, whatever it still owns. -/
theorem GivenBack.restore {creation : ℕ} {owns owns' : Prop} (h : k.GivenBack creation owns t)
    (hvalid : creation ≤ priMin) (ho : t ≠ c → owns → owns') :
    (k.restore c).GivenBack creation owns' t := by
  rw [GivenBack, subPriority_restore, priority_restore]
  by_cases htc : t = c
  · subst htc
    refine .inl ⟨if_pos rfl, ?_⟩
    rw [if_pos rfl, base]
    rcases h with ⟨hsub, hpri⟩ | ⟨hsub, -⟩
    · rw [if_neg (not_not.mpr hsub), hpri]
    · rw [hsub, if_pos]
      intro heq
      rw [heq] at hvalid
      exact absurd hvalid (by decide)
  · rw [if_neg htc, if_neg htc]
    exact h.imp_right fun hlost => ⟨hlost.1, ho htc hlost.2⟩

end Kernel

namespace System

/-- The task owns a mutex. -/
def Owns (σ : System T) (t : Tid) : Prop := ∃ m, (σ.mutexes m).owner = some t

/-- Every living task has its creation priority, or owns a mutex and has saved it. -/
structure GivenBack (σ : System T) (creation : Tid → ℕ) : Prop where
  fields : ∀ t, σ.kernel.status t ≠ .terminated →
    σ.kernel.GivenBack (creation t) (σ.Owns t) t
  valid : ∀ t, σ.kernel.status t ≠ .terminated → creation t ≤ priMin

theorem noteCreation_of_ne (ha : ∀ c, a ≠ .call (.task c)) : σ.noteCreation creation a = creation := by
  unfold noteCreation
  split
  · exact absurd rfl (ha _)
  · rfl

/-- A step that starts and ends no task. -/
theorem GivenBack.of_bitmap (h : σ.GivenBack creation) (hq : σ.Queued) (hq' : σ'.Queued)
    (hb : σ'.kernel.tidBitmap = σ.kernel.tidBitmap)
    (hg : ∀ t, σ.kernel.status t ≠ .terminated →
      σ'.kernel.GivenBack (creation t) (σ'.Owns t) t) : σ'.GivenBack creation := by
  obtain ⟨c, hc⟩ := hq.settled
  obtain ⟨c', hc'⟩ := hq'.settled
  have halive : ∀ t, σ'.kernel.status t ≠ .terminated → σ.kernel.status t ≠ .terminated := by
    intro t ht
    rw [← hc'.bit, hb, hc.bit] at ht
    exact ht
  exact ⟨fun t ht => hg t (halive t ht), fun t ht => h.valid t (halive t ht)⟩

/-- A write of mutex `m` that takes it from nobody but `c`. -/
theorem owns_update {m : ℕ} {i : MutexInner} {t : Tid}
    (hm : σ'.mutexes = Function.update σ.mutexes m i)
    (hi : (σ.mutexes m).owner = some t → i.owner = some t) (h : σ.Owns t) : σ'.Owns t := by
  obtain ⟨m', ho⟩ := h
  refine ⟨m', ?_⟩
  rw [hm]
  by_cases hmm : m' = m
  · subst hmm
    rw [Function.update_self]
    exact hi ho
  · rw [Function.update_of_ne hmm]
    exact ho

/-- The running task unlocks mutex `m`. -/
theorem GivenBack.unlock (h : σ.GivenBack creation) (hq : σ.Queued) (hq' : σ'.Queued) {cr : Tid}
    {m : ℕ} {k : Kernel} {r : CsResult MutexInner} (hf : Frame σ.kernel k)
    (hown : (σ.mutexes m).owner = some cr) (hr : Unlocks (σ.mutexes m) k cr r)
    (hm : σ'.mutexes = Function.update σ.mutexes m r.inner) (hf' : Frame r.kernel σ'.kernel) :
    σ'.GivenBack creation := by
  have hother : ∀ t, t ≠ cr → σ.Owns t → σ'.Owns t := by
    intro t ht hot
    refine owns_update hm (fun ho => ?_) hot
    rw [hown] at ho
    exact absurd (Option.some.inj ho).symm ht
  have hk : ∀ t, σ.kernel.status t ≠ .terminated →
      k.GivenBack (creation t) (σ.Owns t) t :=
    fun t ht => (h.fields t ht).congr (hf.subPriority t) (hf.priority t) id
  have hres : ∀ t, σ.kernel.status t ≠ .terminated →
      (k.restore cr).GivenBack (creation t) (σ'.Owns t) t :=
    fun t ht => (hk t ht).restore (h.valid t ht) (hother t)
  have hrb : (k.restore cr).tidBitmap = k.tidBitmap := (reorders_restore k cr).tidBitmap
  cases hr with
  | leave hne =>
      refine h.of_bitmap hq hq' (hf'.tidBitmap.trans hf.tidBitmap) fun t ht => ?_
      exact (hk t ht).congr (hf'.subPriority t) (hf'.priority t) (owns_update hm id)
  | release hone hnil hb =>
      refine h.of_bitmap hq hq' (hf'.tidBitmap.trans (hrb.trans hf.tidBitmap)) fun t ht => ?_
      exact (hres t ht).congr (hf'.subPriority t) (hf'.priority t) id
  | @handOff w queue b hone hcons hb =>
      have hw := (frame_wake (k.restore cr) w).trans hf'
      refine h.of_bitmap hq hq' (hw.tidBitmap.trans (hrb.trans hf.tidBitmap)) fun t ht => ?_
      exact (hres t ht).congr (hw.subPriority t) (hw.priority t) id

/-- **Backups along a step.** -/
theorem GivenBack.step (h : σ.GivenBack creation) (hq : σ.Queued) (he : σ.Exclusive)
    (hv : a.ValidPriority) (hs : LockStep σ a σ') : σ'.GivenBack (σ.noteCreation creation a) := by
  obtain ⟨c, hc⟩ := hq.settled
  have hq' := (hq.step hs).1
  -- the steps that write no priority
  have hidle : Frame σ.kernel σ'.kernel → (∀ t, σ.Owns t → σ'.Owns t) → σ'.GivenBack creation := by
    intro hf hown
    refine h.of_bitmap hq hq' hf.tidBitmap fun t ht => ?_
    exact (h.fields t ht).congr (hf.subPriority t) (hf.priority t) (hown t)
  cases hs with
  | tick hk => exact hidle (systickTrap_switched hc hk).frame fun _ => id
  | switch hk => exact hidle (frame_yieldIf hk) fun _ => id
  | @task cr call _ hcr hpc hcall hs =>
      have hrun := hq.running hcr
      obtain ⟨⟨k, new⟩, hexec, rfl⟩ := Option.map_eq_some_iff.mp hs
      have hout := (TaskCall.exec_outcome hrun hexec).1
      have hlive : ∀ t, k.status t ≠ .terminated →
          k.GivenBack (call.noteCreation σ.kernel creation t) (σ.Owns t) t ∧
            call.noteCreation σ.kernel creation t ≤ priMin := by
        intro t ht
        rcases TaskCall.exec_live hrun hexec ht with ⟨hold, hcreation⟩ | ⟨hsub, hpri, hvalid⟩
        · rw [hcreation]
          exact ⟨(h.fields t hold).congr (hout.subPriority t hold) (hout.priority t hold) id,
            h.valid t hold⟩
        · exact ⟨.inl ⟨hsub, hpri⟩, hvalid hv⟩
      cases new with
      | none => exact ⟨fun t ht => (hlive t ht).1, fun t ht => (hlive t ht).2⟩
      | some t₀ => exact ⟨fun t ht => (hlive t ht).1, fun t ht => (hlive t ht).2⟩
  | @sema _ s i pc hist hi hpc =>
      rw [noteCreation_of_ne]
      · exact hidle (Frame.refl _) fun _ => id
      · rintro c' rfl
        rcases hpc with ⟨hon, -⟩ | ⟨hne, -⟩
        · exact hon.elim
        · cases hne
  | @block cr s n k hcr hpc hk =>
      have hf := (frame_park σ.kernel cr).trans
        (frame_enqueue (σ.kernel.park cr) (σ.semas s).waitQueue cr)
      exact hidle (hf.trans (frame_yieldIf hk)) fun _ => id
  | @up _ w s i b k hist ha hcons hk =>
      rw [noteCreation_of_ne]
      · exact hidle ((frame_wake _ w).trans (frame_yieldIf hk)) fun _ => id
      · rintro c' rfl
        exact ha.elim
  | @enter _ cr m i hcr hl hi =>
      rw [noteCreation_of_ne]
      · refine hidle (Frame.refl _) fun t => owns_update rfl fun hown => ?_
        rcases hi with ⟨hself, rfl⟩ | ⟨hfree, rfl⟩
        · exact hown
        · rw [hfree] at hown
          cases hown
      · rintro c' rfl
        cases hl.call_eq
  | @contend _ cr o m k hcr hl hown hne hk =>
      rw [noteCreation_of_ne]
      · set k₁ := σ.kernel.boost o (σ.kernel.priority cr) with hk₁
        have hre := hc.toCoherent.reorders_boost o (σ.kernel.priority cr)
        have hf := (frame_park k₁ cr).trans
          (frame_enqueue (k₁.park cr) (σ.mutexes m).waitQueue cr)
        have hf' := hf.trans (frame_yieldIf hk)
        refine h.of_bitmap hq hq' (hf'.tidBitmap.trans hre.tidBitmap) fun t ht => ?_
        have hboost := (h.fields t ht).boost (h.valid t ht) (fun hto => ⟨m, hto ▸ hown⟩)
          (o := o) (σ.kernel.priority cr)
        exact hboost.congr (hf'.subPriority t) (hf'.priority t) (owns_update rfl id)
      · rintro c' rfl
        cases hl.call_eq
  | resume hcr hpc => exact hidle (Frame.refl _) fun _ => id
  | @unlock cr m r k hcr hpc hg hr hk =>
      exact h.unlock hq hq' (Frame.refl _) ((he.owned m).owner_of_guards hg) hr rfl
        (frame_yieldIf hk)
  | @wait cr c' m r pc k hcr hpc hg hr hnext hk =>
      have hf := (frame_enqueueBack σ.kernel (σ.condVars c') cr).trans (frame_park _ cr)
      exact h.unlock hq hq' hf ((he.owned m).owner_of_guards hg) hr rfl
        (frame_yieldIf hk)
  | condYield hcr hpc hk => exact hidle (frame_yieldIf hk) fun _ => id
  | @notify cr w c' queue k hcr hpc hcons hk =>
      exact hidle ((frame_wake _ w).trans (frame_yieldIf hk)) fun _ => id
  | notifyNone hnil => exact hidle (Frame.refl _) fun _ => id
  | @notifyAll cr c' k hcr hpc hk =>
      exact hidle ((frame_wakeAll _ _).trans (frame_yieldIf hk)) fun _ => id

end System

theorem Kernel.asCreated_launchAfter {boots : List BootCall} {k : Kernel}
    (hv : ∀ b ∈ boots, b.ValidPriority) (h : launchAfter boots = some k) :
    k.AsCreated (bootCreations boots boot fun _ => 0) := by
  have hadd : ∀ {k₀ k : Kernel} {creation : Tid → ℕ} {p : ℕ} {name : String}, k₀.Booting →
      k₀.AsCreated creation → p ≤ priMin → (k₀.allocTid = none ∧ k = k₀ ∨
        ∃ t k₁, k₀.allocTid = some (t, k₁) ∧ k = k₁.addTask t p name) →
          k.AsCreated (k₀.noteCreation p creation) := by
    rintro k₀ k creation p name hb hc hp (⟨hnone, rfl⟩ | ⟨t, k₁, ha, rfl⟩)
    · rw [noteCreation_of_none hnone]
      exact hc
    · exact hc.addTask hb.toCoherent ha hp name
  have hboots : ∀ (boots : List BootCall) (k₀ k₁ : Kernel) (creation : Tid → ℕ), k₀.Booting →
      k₀.AsCreated creation → (∀ b ∈ boots, b.ValidPriority) →
        boots.foldlM BootCall.exec k₀ = some k₁ → k₁.launch = some k →
          k.AsCreated (bootCreations boots k₀ creation) := by
    intro boots
    induction boots with
    | nil =>
        intro k₀ k₁ creation hb hc _ hfold hlaunch
        cases hfold
        obtain ⟨k₂, first, hb₂, he, hfirst, rfl⟩ := hb.launch hlaunch
        have hidle := hadd hb hc le_rfl he
        intro t ht
        have hfields : ((k₂.setStatus first .running).tcbs t).subPriority =
            (k₂.tcbs t).subPriority ∧ (k₂.setStatus first .running).priority t = k₂.priority t := by
          rw [setStatus, priority_setTcb, setTcb_tcbs, Function.update_apply]
          split_ifs with htf
          · rw [htf]
            exact ⟨rfl, rfl⟩
          · exact ⟨rfl, rfl⟩
        have hlive : k₂.status t ≠ .terminated := by
          replace ht : (k₂.setStatus first .running).status t ≠ .terminated := ht
          rw [setStatus, status_setTcb] at ht
          split_ifs at ht with htf
          · rcases (hb₂.mem_ready t).mp (htf ▸ List.mem_of_mem_head? hfirst) with hst | hst <;>
              rw [hst] <;> simp
          · exact ht
        obtain ⟨hsub, hpri, hle⟩ := hidle t hlive
        exact ⟨hfields.1.trans hsub, hfields.2.trans hpri, hle⟩
    | cons b boots ih =>
        intro k₀ k₁ creation hb hc hvalid hfold hlaunch
        rw [List.foldlM_cons] at hfold
        obtain ⟨k₂, hk₂, hfold⟩ := Option.bind_eq_some_iff.mp hfold
        obtain ⟨hb₂, he⟩ := hb.exec hk₂
        rw [List.forall_mem_cons] at hvalid
        have hc₂ : k₂.AsCreated (k₀.noteCreation b.priority creation) := by
          rcases he with ⟨hnone, rfl⟩ | ⟨t, k₃, name, ha, rfl⟩
          · rw [noteCreation_of_none hnone]
            exact hc
          · exact hc.addTask hb.toCoherent ha hvalid.1.2 name
        rw [bootCreations, hk₂]
        exact ih k₂ k₁ _ hb₂ hc₂ hvalid.2 hfold hlaunch
  obtain ⟨k₁, hfold, hlaunch⟩ := Option.bind_eq_some_iff.mp h
  refine hboots boots boot k₁ _ booting_boot (fun t ht => ?_) hv hfold hlaunch
  exact absurd rfl ht

/-- **Boosts are given back.**  In every run of locks, guard drops, condition variables, semaphores,
`Task` operations other than `terminate` and interrupts from a launch, with priorities in
`PRI_MAX..=PRI_MIN` and tasks that exit without guards, every living task has the priority it was created
with and no backup, or has saved that priority and owns a mutex; without a mutex it has its creation
priority. -/
theorem boosts_are_given_back {boots : List BootCall} {k : Kernel} {counts : ℕ → ℤ}
    {tr : List (System T × Action T)} (hv : ∀ b ∈ boots, b.ValidPriority)
    (hl : launchAfter boots = some k)
    (hr : Run (System.step cap)
      (fun σ a => (a.IsLock ∧ σ.ExitsFree a) ∧ a.ValidPriority) (System.init k counts) tr σ)
    (t : Tid) (ht : σ.kernel.status t ≠ .terminated) :
    let creation := System.creations (bootCreations boots boot fun _ => 0) tr t
    ((σ.kernel.tcbs t).subPriority = priInv ∧ σ.kernel.priority t = creation ∨
        (σ.kernel.tcbs t).subPriority = creation ∧ ∃ m, (σ.mutexes m).owner = some t) ∧
      ((∀ m, (σ.mutexes m).owner ≠ some t) → σ.kernel.priority t = creation) := by
  have hall : (σ.Queued ∧ σ.Exclusive) ∧
      σ.GivenBack (System.creations (bootCreations boots boot fun _ => 0) tr) := by
    clear ht
    induction hr with
    | start =>
        have hc := asCreated_launchAfter hv hl
        exact ⟨⟨System.queued_init hl, System.exclusive_init k counts⟩,
          fun t ht => .inl ⟨(hc t ht).1, (hc t ht).2.1⟩, fun t ht => (hc t ht).2.2⟩
    | @next tr σ σ' a hr hok hs ih =>
        obtain ⟨⟨hq, he⟩, hg⟩ := ih
        have hls := System.step_lock hq.pcs hok.1.1 hs
        exact ⟨⟨(hq.step hls).1, he.step hq hok.1.1 hok.1.2 hs⟩, hg.step hq he hok.2 hls⟩
  have hfields := hall.2.fields t ht
  refine ⟨hfields, fun hno => ?_⟩
  rcases hfields with ⟨-, hpri⟩ | ⟨-, m, ho⟩
  · exact hpri
  · exact absurd ho (hno m)

/-- An owner of two mutexes that has been boosted twice. -/
theorem boosts_are_given_back_run : ∃ k₀ tr, ∃ σ : System Unit,
    launchAfter [.create 5 "l", .create 4 "m", .create 3 "h"] = some k₀ ∧
      Run (System.step fun _ => 0) (fun σ a => (a.IsLock ∧ σ.ExitsFree a) ∧ a.ValidPriority)
        (System.init k₀ fun _ => 0) tr σ ∧
      σ.kernel.priority 0 = 3 ∧ (σ.mutexes 0).owner = some 0 ∧ (σ.mutexes 1).owner = some 0 ∧
      let creation := System.creations
        (bootCreations [.create 5 "l", .create 4 "m", .create 3 "h"] boot fun _ => 0) tr 0
      ((σ.kernel.tcbs 0).subPriority = priInv ∧ σ.kernel.priority 0 = creation ∨
          (σ.kernel.tcbs 0).subPriority = creation ∧ ∃ m, (σ.mutexes m).owner = some 0) ∧
        ((∀ m, (σ.mutexes m).owner ≠ some 0) → σ.kernel.priority 0 = creation) := by
  have hsome : (launchAfter [.create 5 "l", .create 4 "m", .create 3 "h"]).isSome = true := by
    decide +kernel
  obtain ⟨k₀, hk₀⟩ := Option.isSome_iff_exists.mp hsome
  have hexec : ((launchAfter [.create 5 "l", .create 4 "m", .create 3 "h"]).bind fun k₀ =>
      exec (System.step fun _ => 0) (fun (_ : System Unit) a =>
          (a.IsLock ∧ a ≠ .call (.task .exitCurrent)) ∧ a.ValidPriority)
        (System.init k₀ fun _ => 0)
        [.call (.task (.delay 5)), .call (.task (.delay 3)), .call (.lock 0), .call (.lock 1),
          .systick 2, .call (.lock 0), .systick 1, .call (.lock 1)]).any
            (fun σ => σ.kernel.status 0 ≠ .terminated ∧ σ.kernel.priority 0 = 3 ∧
              (σ.mutexes 0).owner = some 0 ∧ (σ.mutexes 1).owner = some 0) = true := by
    decide +kernel
  rw [hk₀, Option.bind_some] at hexec
  obtain ⟨tr, σ, hr, hσ⟩ := exists_run_of_exec (fun (_ : System Unit) (a : Action Unit)
    (h : decide ((a.IsLock ∧ a ≠ .call (.task .exitCurrent)) ∧ a.ValidPriority) = true) =>
      of_decide_eq_true h) hexec
  obtain ⟨halive, hpri, ho, ho'⟩ := of_decide_eq_true hσ
  have hrun : Run (System.step fun _ => 0)
      (fun σ a => (a.IsLock ∧ σ.ExitsFree a) ∧ a.ValidPriority) (System.init k₀ fun _ => 0) tr σ :=
    hr.mono fun _ _ h => ⟨⟨h.1.1, fun hexit => absurd hexit h.1.2⟩, h.2⟩
  have hvalid : ∀ b ∈ [BootCall.create 5 "l", .create 4 "m", .create 3 "h"], b.ValidPriority := by
    intro b hb
    simp only [List.mem_cons, List.not_mem_nil, or_false] at hb
    rcases hb with rfl | rfl | rfl <;> exact ⟨Nat.zero_le _, by decide⟩
  exact ⟨k₀, tr, σ, hk₀, hrun, hpri, ho, ho',
    boosts_are_given_back hvalid hk₀ hrun 0 halive⟩

end MosKernel
