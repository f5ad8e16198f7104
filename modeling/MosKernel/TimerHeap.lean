import MosKernel.TimerQueue
import MosKernel.Lib.Transition

/-!
# The timer queue over any sequence of calls

`TimerQueue::push` and `TimerQueue::wake_expired` in any order and at any clock values.  Nothing is said
about deadlines on a clock that does not wrap: all that is asked is that at each call the wake ticks in the
queue and the new tick lie in one window of fewer than `2 ^ 31` ticks, wherever it begins (`Within b`).

* `popExpired_spec` — one call of `wake_expired`: which entries it wakes, in which order, and which it
  leaves;
* `pushChecked_eq`, `wakeExpiredChecked_eq` — no access is to a slot behind the entries;
* `timers_in_order` — every sequence of calls.
-/

namespace MosKernel

open BinaryHeap Transition

/-- The tick is one of the `2 ^ 31` ticks from `b` on. -/
def Within (b tick : BitVec 32) : Prop := (tick - b).toNat < 2 ^ 31

/-- Where in the window from `b` on the entry wakes. -/
def TimerEntry.offset (b : BitVec 32) (e : TimerEntry) : ℕ := (e.wakeTick - b).toNat

/-- The entry's wake tick is at or before `now` in the window from `b` on. -/
def TimerEntry.Due (b now : BitVec 32) (e : TimerEntry) : Prop := e.offset b ≤ (now - b).toNat

instance (b now : BitVec 32) : DecidablePred (TimerEntry.Due b now) := fun e =>
  inferInstanceAs (Decidable (e.offset b ≤ (now - b).toNat))

variable {b now x y : BitVec 32} {a e entry : TimerEntry} {q : TimerQueue}

/-- Within a window the wrapping difference is the difference of the places in it. -/
theorem toInt_sub_within (hx : Within b x) (hy : Within b y) :
    (x - y).toInt = ((x - b).toNat : ℤ) - (y - b).toNat := by
  have hsub : x - y =
      BitVec.ofNat 32 (x - b).toNat - BitVec.ofNat 32 (y - b).toNat := by
    rw [BitVec.ofNat_toNat, BitVec.ofNat_toNat, BitVec.setWidth_eq, BitVec.setWidth_eq]
    bv_omega
  have hxlt : (x - b).toNat < 2 ^ 31 := hx
  have hylt : (y - b).toNat < 2 ^ 31 := hy
  rw [hsub]
  apply TimerQueue.toInt_sub_ofNat
  · omega
  · omega

theorem before_iff_offset (ha : Within b a.wakeTick) (he : Within b e.wakeTick) :
    a.before e = true ↔ a.offset b < e.offset b := by
  rw [TimerEntry.before, toInt_sub_within ha he, decide_eq_true_eq]
  show _ ↔ (a.wakeTick - b).toNat < (e.wakeTick - b).toNat
  omega

theorem expired_iff_due (hn : Within b now) (he : Within b e.wakeTick) :
    expired now e.wakeTick = true ↔ e.Due b now := by
  rw [expired, toInt_sub_within hn he, decide_eq_true_eq]
  show _ ↔ (e.wakeTick - b).toNat ≤ (now - b).toNat
  omega

namespace TimerQueue

/-- All wake ticks in the queue lie in the window from `b` on. -/
def AllWithin (b : BitVec 32) (q : TimerQueue) : Prop := ∀ e ∈ q, Within b e.wakeTick

/-- No entry is before its parent in the wrapping comparison. -/
def MinHeap (q : TimerQueue) : Prop :=
  ∀ i, 0 < i → i < q.len → (q.data i).before (q.data (parent i)) = false

/-- The entries of the queue, each as often as it is queued. -/
def entries (q : TimerQueue) : Multiset TimerEntry := (Multiset.range q.len).map q.data

/-! ### The entries of the operations -/

theorem mem_entries : e ∈ q.entries ↔ e ∈ q := by
  rw [entries, Multiset.mem_map]
  apply exists_congr
  intro i
  rw [Multiset.mem_range]

theorem entries_rearranges {len : ℕ} {d d' : ℕ → TimerEntry} (h : Rearranges len d d') :
    (TimerQueue.mk d' len).entries = (TimerQueue.mk d len).entries := h.map_range

theorem entries_append : (q.append entry).entries = entry ::ₘ q.entries := by
  show (Multiset.range (q.len + 1)).map (Function.update q.data q.len entry) = _
  rw [Multiset.range_succ, Multiset.map_cons, Function.update_self, entries]
  apply congrArg (entry ::ₘ ·)
  apply Multiset.map_congr rfl
  intro i hi
  exact Function.update_of_ne (Multiset.mem_range.mp hi).ne _ _

theorem entries_push (h : q.len < asyncPoolMax) : (q.push entry).entries = entry ::ₘ q.entries := by
  rw [push_of_lt h, entries_rearranges (siftUp_rearranges (Nat.lt_succ_self _))]
  exact entries_append

/-- The entries from the second on, in a list. -/
theorem entries_succ {d : ℕ → TimerEntry} (len : ℕ) :
    (TimerQueue.mk d (len + 1)).entries = d 0 ::ₘ ((List.range len).map fun i => d (i + 1)) := by
  show ((List.range (len + 1) : Multiset ℕ)).map d = _
  rw [List.range_succ_eq_map]
  simp [Function.comp_def]

theorem entries_moveLast (h : 1 < q.len) : q.entries = q.data 0 ::ₘ q.moveLast.entries := by
  obtain ⟨len, hlen⟩ : ∃ len, q.len = len + 2 := ⟨q.len - 2, by omega⟩
  have hq : q = ⟨q.data, len + 1 + 1⟩ := by rw [← hlen]
  have hmove : q.moveLast = ⟨Function.update q.data 0 (q.data (len + 1)), len + 1⟩ := by
    rw [moveLast, hlen]
    rfl
  rw [hmove, hq, entries_succ, entries_succ, List.range_succ, List.map_append, Function.update_self]
  apply congrArg (q.data 0 ::ₘ ·)
  rw [← Multiset.coe_add, Multiset.add_comm]
  simp

theorem entries_popFront (h : 0 < q.len) : q.entries = q.popFront.1 ::ₘ q.popFront.2.entries := by
  by_cases hlen : 1 < q.len
  · have hpos : 0 < q.len - 1 := by omega
    rw [popFront_of_lt hlen, entries_rearranges (siftDown_rearranges hpos)]
    exact entries_moveLast hlen
  · have hone : q.len = 1 := by omega
    have hpop : q.popFront.2.len = 0 := by
      show q.len - 1 = 0
      omega
    rw [entries, entries, hpop, hone]
    rfl

/-! ### The heap of the operations -/

theorem MinHeap.ordered (h : q.MinHeap) (hq : q.AllWithin b) :
    Ordered (TimerEntry.offset b) q.data q.len := by
  intro i hpos hi
  have hp := (parent_lt hpos).trans hi
  have hless := h i hpos hi
  rw [← Bool.not_eq_true, before_iff_offset (hq _ ⟨i, hi, rfl⟩) (hq _ ⟨_, hp, rfl⟩), not_lt] at hless
  exact hless

theorem minHeap_of_ordered (h : Ordered (TimerEntry.offset b) q.data q.len) (hq : q.AllWithin b) :
    q.MinHeap := by
  intro i hpos hi
  have hp := (parent_lt hpos).trans hi
  rw [← Bool.not_eq_true, before_iff_offset (hq _ ⟨i, hi, rfl⟩) (hq _ ⟨_, hp, rfl⟩), not_lt]
  exact h i hpos hi

theorem AllWithin.compares (hq : q.AllWithin b) :
    Compares TimerEntry.before (TimerEntry.offset b) q.data q.len := by
  intro i hi j hj
  exact before_iff_offset (hq _ ⟨i, hi, rfl⟩) (hq _ ⟨j, hj, rfl⟩)

theorem AllWithin.push (hq : q.AllWithin b) (he : Within b entry.wakeTick)
    (hlen : q.len < asyncPoolMax) : (q.push entry).AllWithin b := by
  intro e hmem
  rcases (mem_push hlen).mp hmem with hnew | hold
  · rw [hnew]
    exact he
  · exact hq e hold

theorem AllWithin.popFront (hq : q.AllWithin b) (hlen : 0 < q.len) : q.popFront.2.AllWithin b := by
  intro e hmem
  exact hq e ((mem_popFront hlen).mpr (.inr hmem))

theorem MinHeap.push (h : q.MinHeap) (hq : q.AllWithin b) (he : Within b entry.wakeTick)
    (hlen : q.len < asyncPoolMax) : (q.push entry).MinHeap := by
  have happ : (q.append entry).AllWithin b := by
    intro e hmem
    exact hq.push he hlen e ((mem_push hlen).mpr (mem_append.mp hmem))
  apply minHeap_of_ordered (b := b) _ (hq.push he hlen)
  rw [push_of_lt hlen]
  exact ordered_siftUp happ.compares ((h.ordered hq).append entry) (Nat.lt_succ_self _)

theorem MinHeap.popFront (h : q.MinHeap) (hq : q.AllWithin b) (hlen : 0 < q.len) :
    q.popFront.2.MinHeap := by
  apply minHeap_of_ordered (b := b) _ (hq.popFront hlen)
  by_cases hlt : 1 < q.len
  · have hmove : q.moveLast.AllWithin b := by
      intro e hmem
      exact hq e ((mem_moveLast hlen).mpr (.inr hmem))
    rw [popFront_of_lt hlt]
    exact ordered_siftDown hmove.compares (h.ordered hq).moveLast (by omega)
  · intro i hi hil
    replace hil : i < q.len - 1 := hil
    omega

/-- What a call of `wake_expired` at `now` does to a queue in the window from `b` on. -/
structure WakesDue (b now : BitVec 32) (q : TimerQueue) (r : List TimerEntry × TimerQueue) : Prop where
  woken : (r.1 : Multiset TimerEntry) = q.entries.filter (TimerEntry.Due b now)
  kept : r.2.entries = q.entries.filter fun e => ¬e.Due b now
  inOrder : r.1.Pairwise fun e e' => e.offset b ≤ e'.offset b
  noneExpired : ∀ e ∈ r.2, expired now e.wakeTick = false
  minHeap : r.2.MinHeap

/-- In a heap whose front is not due, nobody is. -/
theorem WakesDue.of_front (h : q.MinHeap) (hq : q.AllWithin b) (hn : Within b now)
    (hfront : 0 < q.len → ¬(q.data 0).Due b now) : WakesDue b now q ([], q) := by
  have hnone : ∀ e ∈ q, ¬e.Due b now := by
    rintro e ⟨i, hi, rfl⟩ hdue
    exact hfront (Nat.zero_lt_of_lt hi) (((h.ordered hq).front_le hi).trans hdue)
  refine ⟨?_, ?_, .nil, ?_, h⟩
  · show 0 = _
    rw [eq_comm, Multiset.filter_eq_nil]
    intro e he
    exact hnone e (mem_entries.mp he)
  · show _ = Multiset.filter _ _
    rw [eq_comm, Multiset.filter_eq_self]
    intro e he
    exact hnone e (mem_entries.mp he)
  · intro e he
    rw [← Bool.not_eq_true, expired_iff_due hn (hq e he)]
    exact hnone e he

/-- A due front is taken first, and then the rest is due as before. -/
theorem WakesDue.cons {r : List TimerEntry × TimerQueue} (h : q.MinHeap) (hq : q.AllWithin b)
    (hlen : 0 < q.len) (hdue : (q.data 0).Due b now) (hr : WakesDue b now q.popFront.2 r) :
    WakesDue b now q (q.popFront.1 :: r.1, r.2) := by
  have hfirst : q.popFront.1.Due b now := hdue
  refine ⟨?_, ?_, ?_, hr.noneExpired, hr.minHeap⟩
  · rw [entries_popFront hlen, Multiset.filter_cons_of_pos _ hfirst, ← hr.woken]
    rfl
  · rw [entries_popFront hlen, Multiset.filter_cons_of_neg (p := fun e : TimerEntry => ¬e.Due b now) _
      (not_not.mpr hfirst)]
    exact hr.kept
  · apply List.Pairwise.cons _ hr.inOrder
    intro e he
    have hmem : e ∈ q.popFront.2 := by
      apply mem_entries.mp
      apply Multiset.mem_of_mem_filter (p := TimerEntry.Due b now)
      rw [← hr.woken]
      exact he
    obtain ⟨i, hi, rfl⟩ := (mem_popFront hlen).mpr (.inr hmem)
    exact (h.ordered hq).front_le hi

/-- **One call of `wake_expired`.** -/
theorem popExpired_spec (h : q.MinHeap) (hq : q.AllWithin b) (hn : Within b now) :
    WakesDue b now q (q.popExpired now) := by
  induction q using popExpired.induct now with
  | case1 q hlen hexp ih =>
      rw [popExpired, dif_pos hlen, if_pos hexp]
      rw [expired_iff_due hn (hq _ ⟨0, hlen, rfl⟩)] at hexp
      exact .cons h hq hlen hexp (ih (h.popFront hq hlen) (hq.popFront hlen))
  | case2 q hlen hexp =>
      rw [popExpired, dif_pos hlen, if_neg hexp]
      rw [expired_iff_due hn (hq _ ⟨0, hlen, rfl⟩)] at hexp
      exact .of_front h hq hn fun _ => hexp
  | case3 q hlen =>
      rw [popExpired, dif_neg hlen]
      exact .of_front h hq hn fun hpos => absurd hpos hlen

theorem popExpired_len_le (now : BitVec 32) (q : TimerQueue) : (q.popExpired now).2.len ≤ q.len := by
  induction q using popExpired.induct now with
  | case1 q hlen hexp ih =>
      rw [popExpired, dif_pos hlen, if_pos hexp]
      exact ih.trans (Nat.sub_le _ _)
  | case2 q hlen hexp => rw [popExpired, dif_pos hlen, if_neg hexp]
  | case3 q hlen => rw [popExpired, dif_neg hlen]

/-! ### The slots the operations access -/

/-- `push` where every access is checked to be to a slot of the queue with the new entry. -/
def pushChecked (q : TimerQueue) (entry : TimerEntry) : Option TimerQueue :=
  if q.len ≥ asyncPoolMax then some q
  else (writeSlot (q.len + 1) q.data q.len entry).bind fun data =>
    (siftUpChecked TimerEntry.before (q.len + 1) data q.len).map fun data => ⟨data, q.len + 1⟩

/-- `pop_front` where every access is checked to be to a slot of the queue, and while it sifts to a slot of
the queue without the entry taken. -/
def popFrontChecked (q : TimerQueue) : Option (TimerEntry × TimerQueue) :=
  (readSlot q.len q.data 0).bind fun top =>
    let len := q.len - 1
    if len > 0 then
      (readSlot q.len q.data len).bind fun last => (writeSlot len q.data 0 last).bind fun data =>
        (siftDownChecked TimerEntry.before len data 0).map fun data => (top, ⟨data, len⟩)
    else some (top, ⟨q.data, len⟩)

theorem pushChecked_eq (q : TimerQueue) (entry : TimerEntry) :
    q.pushChecked entry = some (q.push entry) := by
  by_cases hfull : q.len ≥ asyncPoolMax
  · rw [pushChecked, if_pos hfull, push_of_full hfull]
  · have hlast : q.len < q.len + 1 := Nat.lt_succ_self _
    rw [pushChecked, if_neg hfull, writeSlot_of_lt hlast, Option.bind_some, siftUpChecked_eq hlast,
      Option.map_some, push_of_lt (not_le.mp hfull)]
    rfl

theorem popFrontChecked_eq (h : 0 < q.len) : q.popFrontChecked = some q.popFront := by
  rw [popFrontChecked, readSlot_of_lt h, Option.bind_some]
  by_cases hlen : q.len - 1 > 0
  · have hlast : q.len - 1 < q.len := by omega
    have hlt : 1 < q.len := by omega
    dsimp only
    rw [if_pos hlen, readSlot_of_lt hlast, Option.bind_some, writeSlot_of_lt hlen, Option.bind_some,
      siftDownChecked_eq hlen, Option.map_some, popFront_of_lt hlt]
    rfl
  · dsimp only
    rw [if_neg hlen, popFront, if_neg hlen]

theorem popFrontChecked_len {r : TimerEntry × TimerQueue} (h : q.popFrontChecked = some r) :
    r.2.len < q.len := by
  by_cases hlen : 0 < q.len
  · rw [popFrontChecked_eq hlen, Option.some.injEq] at h
    rw [← h]
    exact Nat.sub_lt hlen Nat.one_pos
  · rw [popFrontChecked, readSlot, if_neg hlen] at h
    cases h

/-- `wake_expired` where every access is checked to be to a slot of the queue. -/
def wakeExpiredChecked (now : BitVec 32) (q : TimerQueue) : Option (List TimerEntry × TimerQueue) :=
  if 0 < q.len then
    (readSlot q.len q.data 0).bind fun top =>
      if expired now top.wakeTick then
        match _h : q.popFrontChecked with
        | none => none
        | some r => (wakeExpiredChecked now r.2).map fun r' => (r.1 :: r'.1, r'.2)
      else some ([], q)
  else some ([], q)
termination_by q.len
decreasing_by exact popFrontChecked_len ‹_›

theorem wakeExpiredChecked_eq (now : BitVec 32) (q : TimerQueue) :
    q.wakeExpiredChecked now = some (q.popExpired now) := by
  induction q using popExpired.induct now with
  | case1 q hlen hexp ih =>
      rw [wakeExpiredChecked, if_pos hlen, readSlot_of_lt hlen, Option.bind_some, if_pos hexp, popExpired,
        dif_pos hlen, if_pos hexp]
      split
      · next hpop =>
          rw [popFrontChecked_eq hlen] at hpop
          cases hpop
      · next r hpop =>
          rw [popFrontChecked_eq hlen, Option.some.injEq] at hpop
          rw [← hpop, ih, Option.map_some]
  | case2 q hlen hexp =>
      rw [wakeExpiredChecked, if_pos hlen, readSlot_of_lt hlen, Option.bind_some, if_neg hexp, popExpired,
        dif_pos hlen, if_neg hexp]
  | case3 q hlen => rw [wakeExpiredChecked, if_neg hlen, popExpired, dif_neg hlen]

end TimerQueue

/-! ### Any sequence of calls -/

/-- The timer queue with what went in and what came out so far; `woken` is in the order of waking. -/
structure TimerLog where
  queue : TimerQueue
  pushed : Multiset TimerEntry
  woken : List TimerEntry

inductive TimerCall
  | push (entry : TimerEntry)
  | wakeExpired (now : BitVec 32)

namespace TimerLog

def init : TimerLog := ⟨.new, 0, []⟩

def step (s : TimerLog) : TimerCall → Option TimerLog
  | .push entry => some ⟨s.queue.push entry, entry ::ₘ s.pushed, s.woken⟩
  | .wakeExpired now =>
    let r := s.queue.popExpired now
    some ⟨r.2, s.pushed, s.woken ++ r.1⟩

/-- There is room to push, and the queued wake ticks lie in one window with the new tick. -/
def Fits (s : TimerLog) : TimerCall → Prop
  | .push entry => s.queue.len < asyncPoolMax ∧ ∃ b, Within b entry.wakeTick ∧ s.queue.AllWithin b
  | .wakeExpired now => ∃ b, Within b now ∧ s.queue.AllWithin b

/-- A heap, of no more entries than there are slots, with all that was pushed and not yet woken. -/
structure Sound (s : TimerLog) : Prop where
  minHeap : s.queue.MinHeap
  len_le : s.queue.len ≤ asyncPoolMax
  balance : s.pushed = s.woken + s.queue.entries

/-- What a call does beyond keeping `Sound`: `wake_expired` wakes what is due in any window the queue and
the clock are in, in order; both calls do the same with every access checked. -/
def Serves (s : TimerLog) : TimerCall → Prop
  | .push entry => s.queue.pushChecked entry = some (s.queue.push entry)
  | .wakeExpired now =>
    s.queue.wakeExpiredChecked now = some (s.queue.popExpired now) ∧
      ∀ b, Within b now → s.queue.AllWithin b → TimerQueue.WakesDue b now s.queue (s.queue.popExpired now)

theorem sound_init : init.Sound where
  minHeap := by
    intro i _ hi
    exact absurd hi (Nat.not_lt_zero i)
  len_le := Nat.zero_le _
  balance := rfl

theorem Sound.step {s s' : TimerLog} {c : TimerCall} (h : s.Sound) (hfit : s.Fits c)
    (hs : s.step c = some s') : s'.Sound := by
  cases c with
  | push entry =>
      cases hs
      obtain ⟨hlen, b, he, hq⟩ := hfit
      refine ⟨h.minHeap.push hq he hlen, ?_, ?_⟩
      · show (s.queue.push entry).len ≤ asyncPoolMax
        rw [TimerQueue.push_of_lt hlen]
        exact hlen
      · show entry ::ₘ s.pushed = s.woken + (s.queue.push entry).entries
        rw [TimerQueue.entries_push hlen, h.balance, Multiset.add_cons]
  | wakeExpired now =>
      cases hs
      obtain ⟨b, hn, hq⟩ := hfit
      have hspec := TimerQueue.popExpired_spec h.minHeap hq hn
      refine ⟨hspec.minHeap, (TimerQueue.popExpired_len_le now s.queue).trans h.len_le, ?_⟩
      show s.pushed = ((s.woken ++ (s.queue.popExpired now).1 : List TimerEntry) : Multiset TimerEntry) +
        (s.queue.popExpired now).2.entries
      rw [← Multiset.coe_add, hspec.woken, hspec.kept, Multiset.add_assoc, Multiset.filter_add_not]
      exact h.balance

theorem Sound.serves {s : TimerLog} (h : s.Sound) (c : TimerCall) : s.Serves c := by
  cases c with
  | push entry => exact TimerQueue.pushChecked_eq s.queue entry
  | wakeExpired now =>
      refine ⟨TimerQueue.wakeExpiredChecked_eq now s.queue, fun b hn hq => ?_⟩
      exact TimerQueue.popExpired_spec h.minHeap hq hn

/-- **The timer queue fires every deadline in order.**  In every sequence of calls in which at each call the
queued wake ticks and the new tick lie in one window shorter than `2 ^ 31` ticks, the slots are a heap for
the wrapping comparison and hold what was pushed and not yet woken; `wake_expired` wakes the entries that
are due, in the order of their deadlines, and leaves none that has expired; no call accesses a slot behind
the entries. -/
theorem timers_in_order {tr : List (TimerLog × TimerCall)} {s : TimerLog}
    (hr : Run TimerLog.step Fits init tr s) : Always Sound tr s ∧ ∀ e ∈ tr, e.1.Serves e.2 := by
  have hall : Always Sound tr s := by
    apply hr.always sound_init
    intro s c s' h hfit hs
    exact h.step hfit hs
  exact ⟨hall, fun e he => (hall.1 e he).serves e.2⟩

/-- `Fits` in the window from a given tick on. -/
def fitsFrom (b : BitVec 32) (s : TimerLog) : TimerCall → Bool
  | .push entry => decide (s.queue.len < asyncPoolMax ∧ (entry.wakeTick - b).toNat < 2 ^ 31 ∧
      ∀ i < s.queue.len, ((s.queue.data i).wakeTick - b).toNat < 2 ^ 31)
  | .wakeExpired now => decide ((now - b).toNat < 2 ^ 31 ∧
      ∀ i < s.queue.len, ((s.queue.data i).wakeTick - b).toNat < 2 ^ 31)

theorem fits_of_fitsFrom {b : BitVec 32} (s : TimerLog) (c : TimerCall) (h : s.fitsFrom b c = true) :
    s.Fits c := by
  cases c with
  | push entry =>
      obtain ⟨hlen, he, hq⟩ := of_decide_eq_true h
      refine ⟨hlen, b, he, ?_⟩
      rintro e ⟨i, hi, rfl⟩
      exact hq i hi
  | wakeExpired now =>
      obtain ⟨hn, hq⟩ := of_decide_eq_true h
      refine ⟨b, hn, ?_⟩
      rintro e ⟨i, hi, rfl⟩
      exact hq i hi

/-- Three deadlines on both sides of the wrap, pushed in the wrong order; the clock wraps before it passes
the second. -/
theorem timers_in_order_wrap : ∃ tr s, Run TimerLog.step Fits init tr s ∧
    (s.woken.map TimerEntry.waker = [2, 1] ∧ s.queue.len = 1) ∧
    Always Sound tr s ∧ ∀ e ∈ tr, e.1.Serves e.2 := by
  have hexec : (exec TimerLog.step (fitsFrom 0xFFFFFF00) init
      [.push ⟨9, 0, 0⟩, .push ⟨2, 1, 0⟩, .push ⟨0xFFFFFFF0, 2, 0⟩, .wakeExpired 4]).any (fun s =>
        decide (s.woken.map TimerEntry.waker = [2, 1] ∧ s.queue.len = 1)) = true := by decide +kernel
  obtain ⟨tr, s, hr, hq⟩ := exists_run_of_exec fits_of_fitsFrom hexec
  exact ⟨tr, s, hr, of_decide_eq_true hq, timers_in_order hr⟩

end TimerLog

end MosKernel
