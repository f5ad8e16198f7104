import MosKernel.TaskList
import MosKernel.Lib.FixedVec
import MosKernel.Lib.Refinement
import MosKernel.Lib.StableOrder

/-!
# Task lists as priority queues

`TidList` is the `TaskList` of `kernel/list.rs` once more, for identifiers of any type and any capacity: its
functions never look into `TCBS`, so the identifiers need not be tasks.  The search of `insert_in_order` is
the loop of the source, and a panic of the vector is `none`.  `TaskList.toTidList` says that the lists of
the kernel are these at `Tid` and `taskMax`.

Under insertions by a fixed key the list is the list of its arrivals, stably sorted.
-/

namespace MosKernel

open OrderedInsert Refinement

/-- `TaskList`; the source has `usize` and `TASK_MAX`. -/
structure TidList (α : Type) (cap : ℕ) where
  tids : FixedVec α cap

namespace TidList

variable {α β : Type} {cap : ℕ} {l l' : TidList α cap} {tid : α} {isBefore : α → Bool}

@[ext] theorem ext (h : l.tids.elems = l'.tids.elems) : l = l' :=
  congrArg mk (FixedVec.ext h)

/-- `TaskList::new` -/
def new : TidList α cap := ⟨.empty⟩

/-- `TaskList::push_back` -/
def pushBack (l : TidList α cap) (tid : α) : TidList α cap × Except α Unit :=
  let (tids, r) := l.tids.push tid
  (⟨tids⟩, r)

/-- `TaskList::remove` -/
def remove [DecidableEq α] (l : TidList α cap) (tid : α) : Option (TidList α cap) :=
  match l.tids.elems.idxOf? tid with
  | some pos => (l.tids.remove pos).map fun (tids, _) => ⟨tids⟩
  | none => some l

/-- `TaskList::pop_front` -/
def popFront (l : TidList α cap) : Option (TidList α cap × Option α) :=
  if l.tids.elems.isEmpty then some (l, none)
  else (l.tids.remove 0).map fun (tids, tid) => (⟨tids⟩, some tid)

/-- The search loop of `insert_in_order`: from index `i` on, with `insertPos` as found so far. -/
def searchLoop (isBefore : α → Bool) (insertPos : ℕ) : ℕ → List α → ℕ
  | _, [] => insertPos
  | i, currentTid :: rest => if isBefore currentTid then i else searchLoop isBefore insertPos (i + 1) rest

/-- `TaskList::insert_in_order` -/
def insertInOrder (l : TidList α cap) (tid : α) (isBefore : α → Bool) :
    Option (TidList α cap × Except α Unit) :=
  if l.tids.isFull then some (l, .error tid)
  else
    let insertPos := searchLoop isBefore l.tids.elems.length 0 l.tids.elems
    (l.tids.insert insertPos tid).map fun (tids, _) => (⟨tids⟩, .ok ())

/-! ### What the calls do to the list of identifiers -/

/-- The loop finds the first identifier with `is_before`, or the end. -/
theorem searchLoop_eq (isBefore : α → Bool) (i : ℕ) (xs : List α) :
    searchLoop isBefore (i + xs.length) i xs = i + xs.findIdx isBefore := by
  induction xs generalizing i with
  | nil => rfl
  | cons x xs ih =>
      rw [searchLoop, List.findIdx_cons]
      cases isBefore x with
      | true => rfl
      | false =>
          have hshift : i + (x :: xs).length = i + 1 + xs.length := by rw [List.length_cons]; omega
          rw [if_neg Bool.false_ne_true, hshift, ih, cond_false]
          omega

theorem insertInOrder_of_lt (h : l.tids.elems.length < cap) (tid : α) (isBefore : α → Bool) :
    ∃ l', l.insertInOrder tid isBefore = some (l', .ok ()) ∧
      l'.tids.elems = insertBefore isBefore tid l.tids.elems := by
  have hsearch := searchLoop_eq isBefore 0 l.tids.elems
  rw [Nat.zero_add, Nat.zero_add] at hsearch
  obtain ⟨v, hins, hv⟩ :=
    FixedVec.insert_spec (v := l.tids) (List.findIdx_le_length (p := isBefore)) h tid
  refine ⟨⟨v⟩, ?_, hv⟩
  rw [insertInOrder, if_neg (FixedVec.isFull_of_lt h), hsearch]
  dsimp only
  rw [hins]
  rfl

theorem insertInOrder_of_full (h : l.tids.elems.length = cap) (tid : α) (isBefore : α → Bool) :
    l.insertInOrder tid isBefore = some (l, .error tid) :=
  if_pos (FixedVec.isFull_iff.mpr h)

theorem popFront_spec (l : TidList α cap) :
    ∃ l', l.popFront = some (l', l.tids.elems.head?) ∧ l'.tids.elems = l.tids.elems.tail := by
  cases h : l.tids.elems with
  | nil => exact ⟨l, by rw [popFront, h]; rfl, h⟩
  | cons t ts =>
      have hget : l.tids.elems[0]? = some t := by rw [h]; rfl
      obtain ⟨v, hrem, hv⟩ := FixedVec.remove_spec hget
      refine ⟨⟨v⟩, ?_, by rw [hv, h]; rfl⟩
      rw [popFront, h, hrem]
      rfl

theorem remove_spec [DecidableEq α] (l : TidList α cap) (tid : α) :
    ∃ l', l.remove tid = some l' ∧ l'.tids.elems = l.tids.elems.erase tid := by
  rw [remove, List.erase_eq_eraseIdx]
  cases h : l.tids.elems.idxOf? tid with
  | none => exact ⟨l, rfl, rfl⟩
  | some pos =>
      obtain ⟨hlt, hpos, -⟩ := List.idxOf?_eq_some_iff.mp h
      have hget : l.tids.elems[pos]? = some tid := by rw [List.getElem?_eq_getElem hlt, hpos]
      obtain ⟨v, hrem, hv⟩ := FixedVec.remove_spec hget
      refine ⟨⟨v⟩, ?_, hv⟩
      dsimp only
      rw [hrem]
      rfl

end TidList

/-! ### The lists of the kernel -/

namespace TaskList

variable (l : TaskList) (tid : Tid)

/-- The list with the capacity of the vector in its type. -/
def toTidList : TidList Tid taskMax := ⟨⟨l.tids, l.le_cap⟩⟩

theorem toTidList_pushBack : l.toTidList.pushBack tid =
    ((l.kept (l.pushBack tid)).toTidList, (l.pushBack tid).map fun _ => ()) := by
  rcases Nat.lt_or_ge l.tids.length taskMax with hlt | hge
  · obtain ⟨v, hpush, hv⟩ := FixedVec.push_spec (v := l.toTidList.tids) hlt tid
    rw [TidList.pushBack, hpush, pushBack, dif_pos hlt]
    exact congrArg (·, Except.ok ()) (TidList.ext hv)
  · have hfull : l.toTidList.tids.isFull := FixedVec.isFull_iff.mpr (Nat.le_antisymm l.le_cap hge)
    rw [TidList.pushBack, FixedVec.push, dif_pos hfull, pushBack, dif_neg (by omega)]
    rfl

theorem toTidList_remove : l.toTidList.remove tid = some (l.remove tid).toTidList := by
  obtain ⟨l', hrem, hl'⟩ := TidList.remove_spec l.toTidList tid
  rw [hrem]
  exact congrArg some (TidList.ext (hl'.trans (l.remove_tids tid).symm))

theorem toTidList_popFront : l.toTidList.popFront =
    some ((l.popFront.elim l Prod.snd).toTidList, l.popFront.map Prod.fst) := by
  obtain ⟨l', hpop, hl'⟩ := TidList.popFront_spec l.toTidList
  rw [hpop]
  cases h : l.popFront with
  | none =>
      have hnil : l.toTidList.tids.elems = [] := popFront_eq_none.mp h
      rw [hnil] at hl' ⊢
      exact congrArg (fun x => some (x, none)) (TidList.ext (hl'.trans hnil.symm))
  | some r =>
      have hcons : l.toTidList.tids.elems = r.1 :: r.2.tids := popFront_eq_some.mp h
      rw [hcons] at hl' ⊢
      exact congrArg (fun x => some (x, some r.1)) (TidList.ext hl')

theorem toTidList_insertInOrder (isBefore : Tid → Bool) : l.toTidList.insertInOrder tid isBefore =
    some ((l.kept (l.insertInOrder tid isBefore)).toTidList,
      (l.insertInOrder tid isBefore).map fun _ => ()) := by
  rcases Nat.lt_or_ge l.tids.length taskMax with hlt | hge
  · obtain ⟨l', hins, hl'⟩ := TidList.insertInOrder_of_lt (l := l.toTidList) hlt tid isBefore
    rw [hins, insertInOrder, dif_pos hlt]
    exact congrArg (fun x => some (x, Except.ok ())) (TidList.ext hl')
  · rw [TidList.insertInOrder_of_full (Nat.le_antisymm l.le_cap hge), insertInOrder, dif_neg (by omega)]
    rfl

end TaskList

/-- A call on a list that is kept in the order of a key. -/
inductive TidOp (α : Type)
  | insertInOrder (tid : α)
  | remove (tid : α)
  | popFront

/-- What such a call returns. -/
inductive TidReply (α : Type)
  | inserted (r : Except α Unit)
  | removed
  | popped (tid : Option α)

namespace TidOp

variable {α β : Type} {cap : ℕ} [DecidableEq α] [LinearOrder β]

/-- What a call does to the list. -/
def call (key : α → β) (l : TidList α cap) : TidOp α → Option (TidList α cap × TidReply α)
  | insertInOrder tid =>
      (l.insertInOrder tid fun t => key tid < key t).map fun (l, r) => (l, .inserted r)
  | remove tid => (l.remove tid).map fun l => (l, .removed)
  | popFront => l.popFront.map fun (l, tid) => (l, .popped tid)

/-- What it does to the identifiers in the order in which they were inserted: the first of those with the
least key is popped. -/
def apply (key : α → β) (cap : ℕ) (arrivals : List α) : TidOp α → List α × TidReply α
  | insertInOrder tid =>
      if arrivals.length < cap then (arrivals ++ [tid], .inserted (.ok ()))
      else (arrivals, .inserted (.error tid))
  | remove tid => (arrivals.erase tid, .removed)
  | popFront =>
      let first := firstLeast key arrivals
      (first.elim arrivals arrivals.erase, .popped first)

/-- The call does not insert what is there. -/
def Fresh (arrivals : List α) : TidOp α → Prop
  | insertInOrder tid => tid ∉ arrivals
  | _ => True

instance (arrivals : List α) : (op : TidOp α) → Decidable (op.Fresh arrivals)
  | insertInOrder tid => inferInstanceAs (Decidable (tid ∉ arrivals))
  | remove _ => .isTrue trivial
  | popFront => .isTrue trivial

end TidOp

namespace TidList

variable {α β : Type} {cap : ℕ} [DecidableEq α] [LinearOrder β] {key : α → β} {l l' : TidList α cap}
  {arrivals : List α}

/-- The list holds the arrivals, stably sorted and without duplicates. -/
structure Holds (key : α → β) (l : TidList α cap) (arrivals : List α) : Prop where
  nodup : l.tids.elems.Nodup
  stableSorted : StableSorted key arrivals l.tids.elems

theorem Holds.length_eq (h : l.Holds key arrivals) : l.tids.elems.length = arrivals.length :=
  h.stableSorted.perm.length_eq

theorem Holds.insert (h : l.Holds key arrivals) {tid : α} (hnew : tid ∉ arrivals)
    (hl' : l'.tids.elems = insertByKey key tid l.tids.elems) : l'.Holds key (arrivals ++ [tid]) := by
  have hnot : tid ∉ l.tids.elems := fun hmem => hnew (h.stableSorted.perm.mem_iff.mp hmem)
  refine ⟨?_, ?_⟩
  · rw [hl']
    exact nodup_insertBefore.mpr ⟨hnot, h.nodup⟩
  · rw [hl']
    exact h.stableSorted.insert tid

theorem Holds.erase (h : l.Holds key arrivals) {tid : α} (hl' : l'.tids.elems = l.tids.elems.erase tid) :
    l'.Holds key (arrivals.erase tid) := by
  refine ⟨?_, ?_⟩
  · rw [hl']
    exact h.nodup.erase tid
  · rw [hl']
    exact h.stableSorted.erase h.nodup tid

theorem Holds.tail (h : l.Holds key arrivals) (hl' : l'.tids.elems = l.tids.elems.tail) :
    l'.Holds key ((firstLeast key arrivals).elim arrivals arrivals.erase) := by
  refine ⟨?_, ?_⟩
  · rw [hl']
    exact h.nodup.tail
  · rw [hl']
    exact h.stableSorted.tail h.nodup

/-- One call. -/
theorem Holds.call (h : l.Holds key arrivals) (op : TidOp α) (hfresh : op.Fresh arrivals) :
    ∃ l', op.call key l = some (l', (op.apply key cap arrivals).2) ∧
      l'.Holds key (op.apply key cap arrivals).1 := by
  cases op with
  | insertInOrder tid =>
      rcases Nat.lt_or_ge l.tids.elems.length cap with hlt | hge
      · obtain ⟨l', hins, hl'⟩ := insertInOrder_of_lt hlt tid fun t => key tid < key t
        rw [TidOp.call, hins, TidOp.apply, if_pos (h.length_eq ▸ hlt)]
        exact ⟨l', rfl, h.insert hfresh hl'⟩
      · have hfull := Nat.le_antisymm l.tids.length_le hge
        rw [TidOp.call, insertInOrder_of_full hfull, TidOp.apply, if_neg (by rw [← h.length_eq]; omega)]
        exact ⟨l, rfl, h⟩
  | remove tid =>
      obtain ⟨l', hrem, hl'⟩ := remove_spec l tid
      exact ⟨l', by rw [TidOp.call, hrem]; rfl, h.erase hl'⟩
  | popFront =>
      obtain ⟨l', hpop, hl'⟩ := popFront_spec l
      exact ⟨l', by rw [TidOp.call, hpop, h.stableSorted.head?_eq]; rfl, h.tail hl'⟩

/-- **A task list is a stable priority queue.**  In a list without duplicates that is sorted by a key, an
identifier is inserted behind every member with a key up to its own and in front of the others, which stay
where they are; a full list hands it back and does not change.  Under any insertions of new identifiers,
removals and pops, the identifier popped is always the one that was inserted first among those with the
least key. -/
theorem task_list_is_a_stable_priority_queue (key : α → β) (l : TidList α cap) (hn : l.tids.elems.Nodup)
    (hs : l.tids.elems.Pairwise fun t u => key t ≤ key u) :
    (∀ tid, tid ∉ l.tids.elems → l.tids.elems.length < cap →
      ∃ l', l.insertInOrder tid (fun t => key tid < key t) = some (l', .ok ()) ∧ l'.tids.elems.Nodup ∧
        (l'.tids.elems.Pairwise fun t u => key t ≤ key u) ∧
        ∃ xs ys, l.tids.elems = xs ++ ys ∧ l'.tids.elems = xs ++ tid :: ys ∧
          (∀ t ∈ xs, key t ≤ key tid) ∧ ∀ t ∈ ys, key tid < key t) ∧
      (∀ tid, l.tids.elems.length = cap →
        l.insertInOrder tid (fun t => key tid < key t) = some (l, .error tid)) ∧
      ∀ ops, AllOk (TidOp.apply key cap) TidOp.Fresh l.tids.elems ops →
        let spec := specCalls (TidOp.apply key cap) l.tids.elems ops
        ∃ l', runCalls (TidOp.call key) l ops = some (l', spec.2) ∧ l'.tids.elems.Nodup ∧
          StableSorted key spec.1 l'.tids.elems := by
  refine ⟨?_, fun tid hfull => insertInOrder_of_full hfull tid _, ?_⟩
  · intro tid hnot hlt
    obtain ⟨l', hins, hl'⟩ := insertInOrder_of_lt hlt tid fun t => key tid < key t
    obtain ⟨xs, ys, hl, hsplit, hxs, hys⟩ := insertByKey_eq_append hs tid
    refine ⟨l', hins, ?_, ?_, xs, ys, hl, hl'.trans hsplit, hxs, hys⟩
    · rw [hl']
      exact nodup_insertBefore.mpr ⟨hnot, hn⟩
    · rw [hl']
      exact pairwise_insertBefore hs
  · intro ops hfresh
    have h : l.Holds key l.tids.elems := ⟨hn, stableSorted_self hs⟩
    obtain ⟨l', hrun, h'⟩ := runCalls_refines (fun _ _ op hl hop => hl.call op hop) h hfresh
    exact ⟨l', hrun, h'.nodup, h'.stableSorted⟩

/-- Three members of equal key leave in the order of their insertion, with one removed and inserted again. -/
theorem task_list_is_a_stable_priority_queue_run : ∃ l : TidList ℕ 3,
    runCalls (TidOp.call fun t => t / 10) l
      [.insertInOrder 15, .remove 12, .insertInOrder 12, .insertInOrder 3,
        .popFront, .popFront, .popFront, .popFront] =
      some (new, [.inserted (.ok ()), .removed, .inserted (.ok ()), .inserted (.error 3),
        .popped (some 11), .popped (some 15), .popped (some 12), .popped none]) := by
  have h := task_list_is_a_stable_priority_queue (fun t => t / 10) (⟨⟨[11, 12], by decide⟩⟩ : TidList ℕ 3)
    (by decide) (by decide)
  obtain ⟨l', hrun, -, hl'⟩ := h.2.2 [.insertInOrder 15, .remove 12, .insertInOrder 12, .insertInOrder 3,
    .popFront, .popFront, .popFront, .popFront] (by decide)
  have hnew : l' = new := TidList.ext (List.perm_nil.mp hl'.perm)
  exact ⟨_, hnew ▸ hrun⟩

end TidList

end MosKernel
