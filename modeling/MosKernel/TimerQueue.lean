import MosKernel.Lib.BinaryHeap
import Mathlib.Data.Nat.Notation

/-!
# The timer queue of the executor

`TimerQueue` of `kernel/async_rt.rs`: a binary heap of at most `asyncPoolMax` entries that compares the
wake ticks of its entries as a wrapping clock does.  A waker is the index it was made for.

An entry also carries its deadline on a clock that does not wrap.  Where all deadlines lie within
`2 ^ 31` of each other, comparing wake ticks is comparing deadlines; on such queues `push` keeps the heap
in order (`InOrder.push`) and `popExpired` leaves no entry behind whose deadline has passed
(`InOrder.not_expired`).
-/

namespace MosKernel

open BinaryHeap

/-- `ASYNC_POOL_MAX` -/
abbrev asyncPoolMax : ℕ := 16

/-- `TimerEntry` -/
structure TimerEntry where
  wakeTick : BitVec 32
  waker : ℕ
  /-- ghost: the deadline, in ticks since the boot -/
  deadline : ℕ
  deriving DecidableEq

/-- `(now.wrapping_sub(wake_tick) as i32) >= 0` -/
def expired (now wakeTick : BitVec 32) : Bool := 0 ≤ (now - wakeTick).toInt

/-- `(a.wake_tick.wrapping_sub(b.wake_tick) as i32) < 0` -/
def TimerEntry.before (a b : TimerEntry) : Bool := (a.wakeTick - b.wakeTick).toInt < 0

/-- `TimerQueue`; the slots from `len` on are uninitialised and never read. -/
structure TimerQueue where
  data : ℕ → TimerEntry
  len : ℕ

namespace TimerQueue

def new : TimerQueue := ⟨fun _ => ⟨0, 0, 0⟩, 0⟩

/-- `TimerQueue::push` drops the entry when the queue is full. -/
def push (q : TimerQueue) (entry : TimerEntry) : TimerQueue :=
  if q.len ≥ asyncPoolMax then q
  else ⟨siftUp TimerEntry.before (Function.update q.data q.len entry) q.len, q.len + 1⟩

/-- `TimerQueue::pop_front` where `len > 0`. -/
def popFront (q : TimerQueue) : TimerEntry × TimerQueue :=
  let len := q.len - 1
  let data := if len > 0 then siftDown TimerEntry.before (Function.update q.data 0 (q.data len)) len 0
    else q.data
  (q.data 0, ⟨data, len⟩)

/-- The loop of `TimerQueue::wake_expired`: the entries whose wakers it invokes, in this order. -/
def popExpired (now : BitVec 32) (q : TimerQueue) : List TimerEntry × TimerQueue :=
  if _h : 0 < q.len then
    if expired now (q.data 0).wakeTick then
      let r := popExpired now q.popFront.2
      (q.popFront.1 :: r.1, r.2)
    else ([], q)
  else ([], q)
termination_by q.len
decreasing_by
  show q.len - 1 < q.len
  omega

variable {q : TimerQueue} {entry e : TimerEntry} {now : BitVec 32}

/-! ### Entries -/

instance : Membership TimerEntry TimerQueue := ⟨fun q e => ∃ i < q.len, q.data i = e⟩

theorem push_of_full (h : q.len ≥ asyncPoolMax) : q.push entry = q := if_pos h

/-- `push` before it sifts. -/
def append (q : TimerQueue) (entry : TimerEntry) : TimerQueue :=
  ⟨Function.update q.data q.len entry, q.len + 1⟩

theorem push_of_lt (h : q.len < asyncPoolMax) : q.push entry =
    ⟨siftUp TimerEntry.before (q.append entry).data q.len, q.len + 1⟩ := if_neg (not_le.mpr h)

/-- `pop_front` before it sifts. -/
def moveLast (q : TimerQueue) : TimerQueue :=
  ⟨Function.update q.data 0 (q.data (q.len - 1)), q.len - 1⟩

theorem popFront_of_lt (h : 1 < q.len) : q.popFront =
    (q.data 0, ⟨siftDown TimerEntry.before q.moveLast.data (q.len - 1) 0, q.len - 1⟩) := by
  have hlen : q.len - 1 > 0 := by omega
  show (q.data 0, TimerQueue.mk (if _ then _ else _) _) = _
  rw [if_pos hlen]
  rfl

theorem mem_of_rearranges {len : ℕ} {d d' : ℕ → TimerEntry} (h : Rearranges len d d') :
    e ∈ TimerQueue.mk d' len ↔ e ∈ TimerQueue.mk d len := h.exists_iff (· = e)

theorem mem_append : e ∈ q.append entry ↔ e = entry ∨ e ∈ q := by
  constructor
  · rintro ⟨i, hi, he⟩
    replace hi : i < q.len + 1 := hi
    replace he : Function.update q.data q.len entry i = e := he
    by_cases hlast : i = q.len
    · rw [hlast, Function.update_self] at he
      exact .inl he.symm
    · rw [Function.update_of_ne hlast] at he
      exact .inr ⟨i, by omega, he⟩
  · rintro (rfl | ⟨i, hi, he⟩)
    · exact ⟨q.len, Nat.lt_succ_self _, Function.update_self _ _ _⟩
    · exact ⟨i, Nat.lt_succ_of_lt hi, (Function.update_of_ne hi.ne _ _).trans he⟩

theorem mem_push (h : q.len < asyncPoolMax) : e ∈ q.push entry ↔ e = entry ∨ e ∈ q := by
  rw [push_of_lt h, mem_of_rearranges (siftUp_rearranges (Nat.lt_succ_self _))]
  exact mem_append

theorem mem_moveLast (h : 0 < q.len) : e ∈ q ↔ e = q.data 0 ∨ e ∈ q.moveLast := by
  constructor
  · rintro ⟨i, hi, rfl⟩
    by_cases hzero : i = 0
    · rw [hzero]
      exact .inl rfl
    · by_cases hlast : i = q.len - 1
      · have hupd : q.moveLast.data 0 = q.data i := by
          show Function.update q.data 0 (q.data (q.len - 1)) 0 = q.data i
          rw [Function.update_self, hlast]
        exact .inr ⟨0, show 0 < q.len - 1 by omega, hupd⟩
      · have hupd : q.moveLast.data i = q.data i := Function.update_of_ne hzero _ _
        exact .inr ⟨i, show i < q.len - 1 by omega, hupd⟩
  · rintro (rfl | ⟨i, hi, he⟩)
    · exact ⟨0, h, rfl⟩
    · replace hi : i < q.len - 1 := hi
      replace he : Function.update q.data 0 (q.data (q.len - 1)) i = e := he
      by_cases hzero : i = 0
      · rw [hzero, Function.update_self] at he
        exact ⟨q.len - 1, by omega, he⟩
      · rw [Function.update_of_ne hzero] at he
        exact ⟨i, by omega, he⟩

/-- After the front has been taken, the other entries are left. -/
theorem mem_popFront (h : 0 < q.len) : e ∈ q ↔ e = q.popFront.1 ∨ e ∈ q.popFront.2 := by
  by_cases hlen : 1 < q.len
  · have hpos : 0 < q.len - 1 := by omega
    rw [popFront_of_lt hlen, mem_of_rearranges (siftDown_rearranges hpos)]
    exact mem_moveLast h
  · have hone : q.len = 1 := by omega
    rw [mem_moveLast h]
    apply or_congr Iff.rfl
    constructor
    · rintro ⟨i, hi, -⟩
      replace hi : i < q.len - 1 := hi
      omega
    · rintro ⟨i, hi, -⟩
      replace hi : i < q.len - 1 := hi
      omega

/-- `wake_expired` takes expired entries only and leaves all others. -/
theorem mem_popExpired (now : BitVec 32) (q : TimerQueue) (e : TimerEntry) :
    (e ∈ q ↔ e ∈ (q.popExpired now).1 ∨ e ∈ (q.popExpired now).2) ∧
      (e ∈ (q.popExpired now).1 → expired now e.wakeTick = true) := by
  induction q using popExpired.induct now with
  | case1 q hlen hexp ih =>
      rw [popExpired, dif_pos hlen, if_pos hexp]
      constructor
      · rw [mem_popFront hlen, ih.1, List.mem_cons, or_assoc]
      · intro he
        rcases List.mem_cons.mp he with rfl | he
        · exact hexp
        · exact ih.2 he
  | case2 q hlen hexp =>
      rw [popExpired, dif_pos hlen, if_neg hexp]
      simp
  | case3 q hlen =>
      rw [popExpired, dif_neg hlen]
      simp

/-! ### Order -/

/-- The deadlines lie close together, the wake ticks are the deadlines on the wrapping clock, and the heap
is in order. -/
structure InOrder (q : TimerQueue) : Prop where
  wakeTick : ∀ e ∈ q, e.wakeTick = BitVec.ofNat 32 e.deadline
  near : ∀ e ∈ q, ∀ e' ∈ q, e.deadline < e'.deadline + 2 ^ 31
  ordered : Ordered TimerEntry.deadline q.data q.len

/-- Wrapping differences are differences on the range of `i32`. -/
theorem toInt_sub_ofNat {a b : ℕ} (h : a < b + 2 ^ 31) (h' : b ≤ a + 2 ^ 31) :
    (BitVec.ofNat 32 a - BitVec.ofNat 32 b).toInt = (a : ℤ) - b := by
  rw [BitVec.toInt_sub, BitVec.toInt_ofNat', BitVec.toInt_ofNat', Int.bmod_sub_bmod, Int.sub_bmod_bmod]
  apply Int.bmod_eq_of_le <;> omega

theorem expired_ofNat {now wake : ℕ} (h : now < wake + 2 ^ 31) (h' : wake ≤ now + 2 ^ 31) :
    expired (BitVec.ofNat 32 now) (BitVec.ofNat 32 wake) = true ↔ wake ≤ now := by
  rw [expired, toInt_sub_ofNat h h', decide_eq_true_eq]
  omega

theorem before_iff {a b : TimerEntry} (ha : a.wakeTick = BitVec.ofNat 32 a.deadline)
    (hb : b.wakeTick = BitVec.ofNat 32 b.deadline) (h : a.deadline < b.deadline + 2 ^ 31)
    (h' : b.deadline < a.deadline + 2 ^ 31) : a.before b = true ↔ a.deadline < b.deadline := by
  rw [TimerEntry.before, ha, hb, toInt_sub_ofNat h h'.le, decide_eq_true_eq]
  omega

theorem compares (hw : ∀ e ∈ q, e.wakeTick = BitVec.ofNat 32 e.deadline)
    (hn : ∀ e ∈ q, ∀ e' ∈ q, e.deadline < e'.deadline + 2 ^ 31) :
    Compares TimerEntry.before TimerEntry.deadline q.data q.len := by
  intro i hi j hj
  have hi' : q.data i ∈ q := ⟨i, hi, rfl⟩
  have hj' : q.data j ∈ q := ⟨j, hj, rfl⟩
  exact before_iff (hw _ hi') (hw _ hj') (hn _ hi' _ hj') (hn _ hj' _ hi')

theorem not_mem_new (e : TimerEntry) : e ∉ TimerQueue.new := by
  rintro ⟨i, hi, -⟩
  exact Nat.not_lt_zero i hi

theorem InOrder.new : TimerQueue.new.InOrder where
  wakeTick := fun e he => absurd he (not_mem_new e)
  near := fun e he => absurd he (not_mem_new e)
  ordered := by
    intro i _ hi
    exact absurd hi (Nat.not_lt_zero i)

theorem InOrder.push (h : q.InOrder) (hw : entry.wakeTick = BitVec.ofNat 32 entry.deadline)
    (hn : ∀ e ∈ q, e.deadline < entry.deadline + 2 ^ 31 ∧ entry.deadline < e.deadline + 2 ^ 31) :
    (q.push entry).InOrder := by
  by_cases hfull : q.len ≥ asyncPoolMax
  · rw [push_of_full hfull]
    exact h
  · have hlt := not_le.mp hfull
    have hwake : ∀ e ∈ q.append entry, e.wakeTick = BitVec.ofNat 32 e.deadline := by
      intro e he
      rcases mem_append.mp he with rfl | he
      · exact hw
      · exact h.wakeTick e he
    have hnear : ∀ e ∈ q.append entry, ∀ e' ∈ q.append entry,
        e.deadline < e'.deadline + 2 ^ 31 := by
      intro e he e' he'
      rcases mem_append.mp he with hnew | hold <;> rcases mem_append.mp he' with hnew' | hold'
      · rw [hnew, hnew']
        omega
      · rw [hnew]
        exact (hn e' hold').2
      · rw [hnew']
        exact (hn e hold).1
      · exact h.near e hold e' hold'
    have hmem : ∀ e, e ∈ q.push entry ↔ e ∈ q.append entry := fun e =>
      (mem_push hlt).trans mem_append.symm
    refine ⟨fun e he => hwake e ((hmem e).mp he),
      fun e he e' he' => hnear e ((hmem e).mp he) e' ((hmem e').mp he'), ?_⟩
    rw [push_of_lt hlt]
    exact ordered_siftUp (compares hwake hnear) (h.ordered.append entry) (Nat.lt_succ_self _)

theorem InOrder.popFront (h : q.InOrder) (hlen : 0 < q.len) : q.popFront.2.InOrder := by
  have hsub : ∀ e, e ∈ q.popFront.2 → e ∈ q := fun e he => (mem_popFront hlen).mpr (.inr he)
  refine ⟨fun e he => h.wakeTick e (hsub e he),
    fun e he e' he' => h.near e (hsub e he) e' (hsub e' he'), ?_⟩
  by_cases hlt : 1 < q.len
  · have hsub' : ∀ e, e ∈ q.moveLast → e ∈ q := fun e he => (mem_moveLast hlen).mpr (.inr he)
    have hless := compares (q := q.moveLast) (fun e he => h.wakeTick e (hsub' e he))
      fun e he e' he' => h.near e (hsub' e he) e' (hsub' e' he')
    rw [popFront_of_lt hlt]
    exact ordered_siftDown hless h.ordered.moveLast (by omega)
  · intro i hi hil
    replace hil : i < q.len - 1 := hil
    omega

theorem InOrder.popExpired (h : q.InOrder) (now : BitVec 32) : (q.popExpired now).2.InOrder := by
  induction q using TimerQueue.popExpired.induct now with
  | case1 q hlen hexp ih =>
      rw [TimerQueue.popExpired, dif_pos hlen, if_pos hexp]
      exact ih (h.popFront hlen)
  | case2 q hlen hexp =>
      rw [TimerQueue.popExpired, dif_pos hlen, if_neg hexp]
      exact h
  | case3 q hlen =>
      rw [TimerQueue.popExpired, dif_neg hlen]
      exact h

/-- In a queue in order, `wake_expired` leaves nobody behind whose deadline has passed, unless it is
`2 ^ 31` ticks late. -/
theorem InOrder.not_expired {clock : ℕ} (h : q.InOrder)
    (hlate : ∀ e ∈ q, clock < e.deadline + 2 ^ 31) (hsoon : ∀ e ∈ q, e.deadline ≤ clock + 2 ^ 31) :
    ∀ e ∈ (q.popExpired (BitVec.ofNat 32 clock)).2, clock < e.deadline := by
  induction q using TimerQueue.popExpired.induct (BitVec.ofNat 32 clock) with
  | case1 q hlen hexp ih =>
      have hsub : ∀ e, e ∈ q.popFront.2 → e ∈ q := fun e he => (mem_popFront hlen).mpr (.inr he)
      rw [TimerQueue.popExpired, dif_pos hlen, if_pos hexp]
      exact ih (h.popFront hlen) (fun e he => hlate e (hsub e he)) fun e he => hsoon e (hsub e he)
  | case2 q hlen hexp =>
      rw [TimerQueue.popExpired, dif_pos hlen, if_neg hexp]
      have hfront : q.data 0 ∈ q := ⟨0, hlen, rfl⟩
      rw [h.wakeTick _ hfront, expired_ofNat (hlate _ hfront) (hsoon _ hfront), not_le] at hexp
      rintro e ⟨i, hi, rfl⟩
      exact hexp.trans_le (h.ordered.front_le hi)
  | case3 q hlen =>
      rw [TimerQueue.popExpired, dif_neg hlen]
      rintro e ⟨i, hi, -⟩
      exact absurd hi fun hpos => hlen (Nat.zero_lt_of_lt hpos)

end TimerQueue

end MosKernel
