import MosKernel.Lib.Ring
import MosKernel.Lib.TextWrap
import MosKernel.Lib.Transition
import Mathlib.Data.List.Zip
import Mathlib.Logic.Function.Iterate

/-!
# The input ring of the shell

A BLE write puts its bytes and a newline into a ring of 256 bytes (`shell_push_input` of `shell.rs`), and the
shell takes them out one by one.  A full ring drops bytes, the newline as well.  Then the line of that write
stays open, and what the ring takes of the next write goes to the same line.

`ShellInput` follows each byte with the number of the write it comes from.  `KeepsApart` says of a write
that it does not add to an open line.
-/

namespace MosKernel

open Ring Transition

variable {β : Type}

abbrev inputBufSize : ℕ := 256

/-- `InputRing`, with the bytes left open: the shell's ring is an `InputRing UInt8`. -/
structure InputRing (β : Type) where
  buf : ℕ → β
  head : ℕ
  tail : ℕ
  len : ℕ

namespace InputRing

variable {r : InputRing β} {c : β} {l : List β}

/-- `InputRing::new` -/
def new (zero : β) : InputRing β := ⟨fun _ => zero, 0, 0, 0⟩

/-- `InputRing::push` -/
def push (r : InputRing β) (c : β) : InputRing β :=
  if r.len < inputBufSize then
    { r with
      buf := Function.update r.buf r.tail c
      tail := (r.tail + 1) % inputBufSize
      len := r.len + 1 }
  else r

/-- `InputRing::pop` -/
def pop (r : InputRing β) : Option β × InputRing β :=
  if r.len = 0 then (none, r)
  else (some (r.buf r.head), { r with head := (r.head + 1) % inputBufSize, len := r.len - 1 })

/-- `shell_push_input` -/
def pushInput (r : InputRing β) (data : List β) (newline : β) : InputRing β :=
  (data.foldl push r).push newline

/-- What is in the ring, oldest first. -/
def contents (r : InputRing β) : List β := window r.buf inputBufSize r.head r.len

/-- The indices are in range and agree with each other. -/
def Sound (r : InputRing β) : Prop := Indices inputBufSize r.head r.tail r.len

theorem length_contents (r : InputRing β) : r.contents.length = r.len := by
  rw [contents, window, List.length_map, List.length_range]

/-- What `push` does: it adds the byte, or drops it when the ring is full. -/
theorem push_spec (h : r.Sound) (c : β) : (r.push c).Sound ∧ (r.push c).head = r.head ∧
    (r.push c).contents = r.contents ++ [c].take (inputBufSize - r.len) := by
  rw [push]
  by_cases hlt : r.len < inputBufSize
  · rw [if_pos hlt]
    refine ⟨Indices.push h hlt, rfl, ?_⟩
    rw [List.take_of_length_le (by rw [List.length_singleton]; omega)]
    exact window_push h hlt
  · rw [if_neg hlt, show inputBufSize - r.len = 0 by omega, List.take_zero, List.append_nil]
    exact ⟨h, rfl, rfl⟩

/-- A list of bytes is taken up to the free room. -/
theorem foldl_push_spec (h : r.Sound) (l : List β) : (l.foldl push r).Sound ∧
    (l.foldl push r).head = r.head ∧
    (l.foldl push r).contents = r.contents ++ l.take (inputBufSize - r.len) := by
  induction l generalizing r with
  | nil => exact ⟨h, rfl, by rw [List.take_nil, List.append_nil]; rfl⟩
  | cons c l ih =>
      obtain ⟨hs, hhead, hc⟩ := push_spec h c
      obtain ⟨hs', hhead', hc'⟩ := ih hs
      have hlen := congrArg List.length hc
      rw [length_contents, List.length_append, length_contents, List.length_take,
        List.length_singleton] at hlen
      refine ⟨hs', hhead'.trans hhead, hc'.trans ?_⟩
      have hle := h.len_le
      rw [hc, List.append_assoc, hlen]
      congr 1
      by_cases hroom : r.len = inputBufSize
      · simp [hroom]
      · obtain ⟨m, hm⟩ : ∃ m, inputBufSize - r.len = m + 1 := ⟨inputBufSize - r.len - 1, by omega⟩
        rw [show inputBufSize - (r.len + min (inputBufSize - r.len) 1) = m by omega, hm,
          List.take_succ_cons, List.take_succ_cons, List.take_nil]
        rfl

theorem pushInput_spec (h : r.Sound) (data : List β) (newline : β) : (r.pushInput data newline).Sound ∧
    (r.pushInput data newline).head = r.head ∧ (r.pushInput data newline).contents =
      r.contents ++ (data ++ [newline]).take (inputBufSize - r.len) := by
  have hspec := foldl_push_spec h (data ++ [newline])
  rw [List.foldl_append] at hspec
  exact hspec

/-- `pop` takes the oldest byte. -/
theorem pop_spec (h : r.Sound) : (r.contents = [] ∧ r.pop = (none, r)) ∨
    ∃ r', r.pop = (some (r.buf r.head), r') ∧ r'.Sound ∧ r'.head = (r.head + 1) % inputBufSize ∧
      r.contents = r.buf r.head :: r'.contents := by
  rw [pop]
  by_cases hzero : r.len = 0
  · rw [if_pos hzero]
    exact .inl ⟨List.length_eq_zero_iff.mp (by rw [length_contents, hzero]), rfl⟩
  · rw [if_neg hzero]
    have hpos : 0 < r.len := by omega
    exact .inr ⟨_, rfl, Indices.pop h hpos, rfl, window_pop h hpos⟩

end InputRing

/-- The input of the shell: the ring, and the bytes taken from it, oldest first.  The other fields only
record: `writes` the data of all writes, `origins` the number of the write of each byte in the ring, and the
number next to each popped byte is that of its write. -/
structure ShellInput where
  ring : InputRing UInt8
  origins : InputRing ℕ
  writes : List (List UInt8)
  popped : List (UInt8 × ℕ)

/-- What happens to the input: a BLE write, or the shell looks for a byte. -/
inductive InputEvent
  | write (data : List UInt8)
  | getchar
  deriving DecidableEq

namespace ShellInput

variable {s s' : ShellInput} {a : InputEvent} {data : List UInt8}

def new : ShellInput := ⟨.new 0, .new 0, [], []⟩

/-- `shell_push_input` -/
def write (s : ShellInput) (data : List UInt8) : ShellInput :=
  { s with
    ring := s.ring.pushInput data 0x0A
    origins := s.origins.pushInput (data.map fun _ => s.writes.length) s.writes.length
    writes := s.writes ++ [data] }

/-- `shell_getchar_nonblock` -/
def getchar (s : ShellInput) : ShellInput :=
  match s.ring.pop with
  | (none, _) => s
  | (some c, ring) =>
    { s with
      ring := ring
      origins := s.origins.pop.2
      popped := s.popped ++ [(c, s.origins.buf s.origins.head)] }

def step (s : ShellInput) : InputEvent → Option ShellInput
  | .write data => some (s.write data)
  | .getchar => some s.getchar

/-- The shell takes everything there is. -/
def drain (s : ShellInput) : ShellInput := getchar^[s.ring.len] s

def isNewline (p : UInt8 × ℕ) : Bool := p.1 == 0x0A

/-- The line is a first part of one write. -/
def OfOneWrite (writes : List (List UInt8)) (line : List (UInt8 × ℕ)) : Prop :=
  line = [] ∨ ∃ n data, writes[n]? = some data ∧ (∀ p ∈ line, p.2 = n) ∧ line.map Prod.fst <+: data

/-- No line of the popped bytes holds bytes of two writes. -/
def Unspliced (s : ShellInput) : Prop := ∀ line ∈ s.popped.splitOnP isNewline, OfOneWrite s.writes line

/-- The last byte that the ring has taken, popped or not. -/
def lastTaken (s : ShellInput) : Option UInt8 := (s.popped.map Prod.fst ++ s.ring.contents).getLast?

/-- A write with data finds the ring full, or behind a newline. -/
def KeepsApart (s : ShellInput) : InputEvent → Prop
  | .write data => data ≠ [] → s.ring.len < inputBufSize → s.lastTaken = none ∨ s.lastTaken = some 0x0A
  | .getchar => True

instance (s : ShellInput) : DecidablePred s.KeepsApart
  | .write data => inferInstanceAs (Decidable (data ≠ [] → s.ring.len < inputBufSize →
      s.lastTaken = none ∨ s.lastTaken = some 0x0A))
  | .getchar => .isTrue trivial

/-- The data of a write holds no end of line. -/
def IsLine : InputEvent → Prop
  | .write data => ∀ c ∈ data, c ≠ 0x0A ∧ c ≠ 0x0D
  | .getchar => True

instance : DecidablePred IsLine
  | .write data => List.decidableBAll (fun c => c ≠ 0x0A ∧ c ≠ 0x0D) data
  | .getchar => .isTrue trivial

/-! ### The bytes that the ring takes -/

/-- Every byte that the ring has taken, popped or not, with the number of its write. -/
def stream (s : ShellInput) : List (UInt8 × ℕ) := s.popped ++ s.ring.contents.zip s.origins.contents

/-- The numbers of the writes lie in a ring of their own, beside the bytes. -/
structure Aligned (s : ShellInput) : Prop where
  ring : s.ring.Sound
  origins : s.origins.Sound
  len : s.origins.len = s.ring.len

theorem aligned_new : new.Aligned := ⟨.empty _, .empty _, rfl⟩

theorem Aligned.length_contents (h : s.Aligned) : s.ring.contents.length = s.origins.contents.length := by
  rw [InputRing.length_contents, InputRing.length_contents, h.len]

theorem zip_map_const (l : List UInt8) (n : ℕ) : l.zip (l.map fun _ => n) = l.map fun c => (c, n) := by
  induction l with
  | nil => rfl
  | cons c l ih => rw [List.map_cons, List.zip_cons_cons, List.map_cons, ih]

/-- **A write** goes to the end of the stream, as far as there is room. -/
theorem Aligned.write (h : s.Aligned) (data : List UInt8) : (s.write data).Aligned ∧
    (s.write data).stream = s.stream ++ ((data ++ [0x0A]).take (inputBufSize - s.ring.len)).map
      fun c => (c, s.writes.length) := by
  obtain ⟨hs, -, hc⟩ := InputRing.pushInput_spec h.ring data 0x0A
  obtain ⟨hs', -, hc'⟩ :=
    InputRing.pushInput_spec h.origins (data.map fun _ => s.writes.length) s.writes.length
  have hmap : (data.map fun _ => s.writes.length) ++ [s.writes.length] =
      (data ++ [0x0A]).map fun _ => s.writes.length := by
    rw [List.map_append]
    rfl
  rw [hmap, h.len, ← List.map_take] at hc'
  have hlen := congrArg List.length hc
  have hlen' := congrArg List.length hc'
  rw [List.length_append, InputRing.length_contents] at hlen hlen'
  refine ⟨⟨hs, hs', ?_⟩, ?_⟩
  · rw [List.length_map, ← h.length_contents] at hlen'
    exact hlen'.trans hlen.symm
  · show s.popped ++ (s.ring.pushInput data 0x0A).contents.zip
      (s.origins.pushInput (data.map fun _ => s.writes.length) s.writes.length).contents = _
    rw [hc, hc', List.zip_append h.length_contents, zip_map_const, stream, List.append_assoc]

/-- **A pop** moves a byte from the ring to the popped bytes. -/
theorem Aligned.getchar (h : s.Aligned) : s.getchar.Aligned ∧ s.getchar.stream = s.stream ∧
    s.getchar.ring.len = s.ring.len - 1 ∧ s.getchar.writes = s.writes := by
  rw [ShellInput.getchar]
  rcases InputRing.pop_spec h.ring with ⟨hnil, hpop⟩ | ⟨r, hpop, hs, -, hc⟩
  · have hzero : s.ring.len = 0 := by
      rw [← InputRing.length_contents, hnil, List.length_nil]
    rw [hpop]
    exact ⟨h, rfl, by rw [hzero], rfl⟩
  · have hlen := h.length_contents
    rcases InputRing.pop_spec h.origins with ⟨hnil', -⟩ | ⟨r', hpop', hs', -, hc'⟩
    · rw [hc, hnil'] at hlen
      cases hlen
    · rw [hpop]
      dsimp only
      rw [hpop']
      have hl := congrArg List.length hc
      have hl' := congrArg List.length hc'
      rw [List.length_cons, InputRing.length_contents, InputRing.length_contents] at hl hl'
      have halign := h.len
      refine ⟨⟨hs, hs', show r'.len = r.len by omega⟩, ?_, show r.len = s.ring.len - 1 by omega, rfl⟩
      show (s.popped ++ [_]) ++ r.contents.zip r'.contents = _
      rw [stream, hc, hc', List.append_assoc]
      rfl

theorem Aligned.drain (h : s.Aligned) : s.drain.popped = s.stream ∧ s.drain.writes = s.writes := by
  rw [ShellInput.drain]
  induction hn : s.ring.len generalizing s with
  | zero =>
      have hnil : s.ring.contents = [] :=
        List.length_eq_zero_iff.mp (by rw [InputRing.length_contents, hn])
      refine ⟨?_, rfl⟩
      rw [Function.iterate_zero_apply, stream, hnil, List.zip_nil_left, List.append_nil]
  | succ n ih =>
      obtain ⟨halign, hstream, hlen, hwrites⟩ := h.getchar
      obtain ⟨hpopped, hwrites'⟩ := ih halign (by omega)
      rw [Function.iterate_succ_apply]
      exact ⟨hpopped.trans hstream, hwrites'.trans hwrites⟩

theorem Aligned.lastTaken (h : s.Aligned) : s.lastTaken = s.stream.getLast?.map Prod.fst := by
  rw [← List.getLast?_map, stream, List.map_append, List.map_fst_zip h.length_contents.le]
  rfl

/-! ### Lines of one write -/

/-- Every line of `stream` is a first part of one write. -/
def LinesApart (writes : List (List UInt8)) (stream : List (UInt8 × ℕ)) : Prop :=
  ∀ line ∈ stream.splitOnP isNewline, OfOneWrite writes line

theorem OfOneWrite.of_append {writes : List (List UInt8)} {l l' : List (UInt8 × ℕ)}
    (h : OfOneWrite writes (l ++ l')) : OfOneWrite writes l := by
  rcases h with hnil | ⟨n, data, hn, htags, hpre⟩
  · exact .inl (List.append_eq_nil_iff.mp hnil).1
  · refine .inr ⟨n, data, hn, fun p hp => htags p (List.mem_append_left _ hp), ?_⟩
    rw [List.map_append] at hpre
    exact (List.prefix_append _ _).trans hpre

theorem OfOneWrite.snoc {writes : List (List UInt8)} {l : List (UInt8 × ℕ)} (h : OfOneWrite writes l)
    (data : List UInt8) : OfOneWrite (writes ++ [data]) l := by
  rcases h with hnil | ⟨n, data', hn, htags, hpre⟩
  · exact .inl hnil
  · obtain ⟨hlt, -⟩ := List.getElem?_eq_some_iff.mp hn
    exact .inr ⟨n, data', by rw [List.getElem?_append_left hlt, hn], htags, hpre⟩

/-- What the ring takes of a new write is a first part of it. -/
theorem ofOneWrite_new (writes : List (List UInt8)) (data : List UInt8) (k : ℕ) :
    OfOneWrite (writes ++ [data]) ((data.take k).map fun c => (c, writes.length)) := by
  refine .inr ⟨writes.length, data, ?_, fun p hp => ?_, ?_⟩
  · rw [List.getElem?_append_right le_rfl, Nat.sub_self]
    rfl
  · obtain ⟨b, -, rfl⟩ := List.mem_map.mp hp
    rfl
  · rw [List.map_map]
    show List.map id _ <+: data
    rw [List.map_id]
    exact List.take_prefix _ _

/-- A line with bytes of an old write and bytes of the new one is of no single write. -/
theorem OfOneWrite.not_append_new {writes writes' : List (List UInt8)} {last : List (UInt8 × ℕ)}
    {new : List UInt8} (h : OfOneWrite writes last) (hlast : last ≠ []) (hnew : new ≠ []) :
    ¬OfOneWrite writes' (last ++ new.map fun c => (c, writes.length)) := by
  rcases h with hnil | ⟨n, data, hn, htags, -⟩
  · exact absurd hnil hlast
  · rintro (hnil | ⟨m, data', -, htags', -⟩)
    · exact hlast (List.append_eq_nil_iff.mp hnil).1
    · obtain ⟨hlt, -⟩ := List.getElem?_eq_some_iff.mp hn
      obtain ⟨p, l, rfl⟩ := List.exists_cons_of_ne_nil hlast
      obtain ⟨c, rest, rfl⟩ := List.exists_cons_of_ne_nil hnew
      have hp := htags p List.mem_cons_self
      have hp' := htags' p (List.mem_append_left _ List.mem_cons_self)
      have hc := htags' (c, writes.length) (List.mem_append_right _ List.mem_cons_self)
      dsimp only at hc
      omega

/-- What is popped first is apart if everything is. -/
theorem LinesApart.of_append {writes : List (List UInt8)} {l l' : List (UInt8 × ℕ)}
    (h : LinesApart writes (l ++ l')) : LinesApart writes l := by
  induction l' using List.reverseRecOn with
  | nil => rwa [List.append_nil] at h
  | append_singleton l' p ih =>
      refine ih fun line hline => ?_
      rw [← List.append_assoc] at h
      obtain ⟨pre, last, heq, hgoes⟩ := TextWrap.splitOnP_snoc isNewline (l ++ l')
      rw [heq, List.mem_append, List.mem_singleton] at hline
      rcases hline with hpre | rfl
      · refine h line ?_
        rw [hgoes]
        split_ifs <;> exact List.mem_append_left _ hpre
      · have hline' : OfOneWrite writes (line ++ if isNewline p then [] else [p]) := by
          refine h _ ?_
          rw [hgoes]
          split_ifs <;> simp
        exact hline'.of_append

/-- The lines after a write: the last one takes the data that fits, and if all of it does, an empty one
follows. -/
theorem mem_lines_write {stream : List (UInt8 × ℕ)} {pre : List (List (UInt8 × ℕ))}
    {last : List (UInt8 × ℕ)} {data : List UInt8} (line : List (UInt8 × ℕ)) (n k : ℕ)
    (hdata : ∀ c ∈ data, c ≠ 0x0A) (h : stream.splitOnP isNewline = pre ++ [last]) :
    line ∈ (stream ++ ((data ++ [0x0A]).take k).map fun c => (c, n)).splitOnP isNewline ↔
      line ∈ pre ∨ line = last ++ (data.take k).map (fun c => (c, n)) ∨ data.length < k ∧ line = [] := by
  have hplain : ∀ p ∈ (data.take k).map fun c => (c, n), isNewline p = false := by
    intro p hp
    obtain ⟨c, hc, rfl⟩ := List.mem_map.mp hp
    exact beq_eq_false_iff_ne.mpr (hdata c (List.mem_of_mem_take hc))
  have hlines := TextWrap.splitOnP_append h hplain
  by_cases hk : data.length < k
  · have htake : (data ++ [0x0A]).take k = data.take k ++ [0x0A] := by
      rw [List.take_of_length_le hk.le, List.take_of_length_le]
      rw [List.length_append, List.length_singleton]
      omega
    rw [htake, List.map_append, ← List.append_assoc]
    obtain ⟨pre', last', heq, hgoes⟩ :=
      TextWrap.splitOnP_snoc isNewline (stream ++ (data.take k).map fun c => (c, n))
    obtain ⟨rfl, hlast⟩ := List.append_inj' (heq.symm.trans hlines) rfl
    cases hlast
    have hnl : isNewline ((0x0A : UInt8), n) = true := rfl
    rw [List.map_singleton, hgoes, if_pos hnl]
    simp [hk]
  · rw [List.take_append_of_le_length (by omega), hlines]
    simp [hk]

/-- **When a write keeps lines apart.** -/
theorem Aligned.linesApart_write_iff (h : s.Aligned) (hapart : LinesApart s.writes s.stream)
    (hdata : ∀ c ∈ data, c ≠ 0x0A) :
    LinesApart (s.write data).writes (s.write data).stream ↔ s.KeepsApart (.write data) := by
  obtain ⟨pre, last, heq, -⟩ := TextWrap.splitOnP_snoc isNewline s.stream
  have hlast := TextWrap.splitOnP_last_nil_iff heq
  have hclosed : last = [] ↔ s.lastTaken = none ∨ s.lastTaken = some 0x0A := by
    rw [hlast, h.lastTaken]
    cases s.stream.getLast? with
    | none => simp
    | some p => simp [isNewline]
  have hmem := fun line => mem_lines_write line s.writes.length (inputBufSize - s.ring.len) hdata heq
  have hlast_apart : OfOneWrite s.writes last := hapart last (by rw [heq]; simp)
  rw [(h.write data).2, LinesApart]
  simp only [hmem]
  show (∀ line, _ → OfOneWrite (s.writes ++ [data]) line) ↔ _
  have hle : s.ring.len ≤ inputBufSize := h.ring.len_le
  by_cases hnone : data.take (inputBufSize - s.ring.len) = []
  · -- nothing goes to the open line
    refine iff_of_true ?_ fun hne hlt => ?_
    · rintro line (hline | rfl | ⟨-, rfl⟩)
      · exact (hapart line (by rw [heq]; exact List.mem_append_left _ hline)).snoc data
      · rw [hnone, List.map_nil, List.append_nil]
        exact hlast_apart.snoc data
      · exact .inl rfl
    · rcases List.take_eq_nil_iff.mp hnone with hzero | hnil
      · omega
      · exact absurd hnil hne
  · have hne : data ≠ [] := fun hnil => hnone (by rw [hnil, List.take_nil])
    have hlt : s.ring.len < inputBufSize := by
      by_contra hfull
      exact hnone (by rw [show inputBufSize - s.ring.len = 0 by omega, List.take_zero])
    have hkeeps : s.KeepsApart (.write data) ↔ last = [] := by
      rw [hclosed]
      exact ⟨fun hk => hk hne hlt, fun hk _ _ => hk⟩
    rw [hkeeps]
    constructor
    · intro hall
      by_contra hopen
      exact hlast_apart.not_append_new hopen hnone (hall _ (.inr (.inl rfl)))
    · rintro rfl line (hline | rfl | ⟨-, rfl⟩)
      · exact (hapart line (by rw [heq]; exact List.mem_append_left _ hline)).snoc data
      · exact ofOneWrite_new s.writes data _
      · exact .inl rfl

theorem Aligned.unspliced_drain_iff (h : s.Aligned) :
    s.drain.Unspliced ↔ LinesApart s.writes s.stream := by
  obtain ⟨hpopped, hwrites⟩ := h.drain
  rw [Unspliced, hpopped, hwrites]
  rfl

theorem Aligned.step (h : s.Aligned) (hs : s.step a = some s') : s'.Aligned := by
  cases a with
  | write data =>
      cases hs
      exact (h.write data).1
  | getchar =>
      cases hs
      exact h.getchar.1

theorem Aligned.linesApart_step_iff (h : s.Aligned) (hapart : LinesApart s.writes s.stream) (ha : IsLine a)
    (hs : s.step a = some s') : LinesApart s'.writes s'.stream ↔ s.KeepsApart a := by
  cases a with
  | write data =>
      cases hs
      exact h.linesApart_write_iff hapart fun c hc => (ha c hc).1
  | getchar =>
      cases hs
      obtain ⟨-, hstream, -, hwrites⟩ := h.getchar
      rw [hstream, hwrites]
      exact iff_of_true hapart trivial

theorem linesApart_new : LinesApart new.writes new.stream := by
  intro line hline
  have hnil : new.stream.splitOnP isNewline = [[]] := List.splitOnP_nil
  rw [hnil, List.mem_singleton] at hline
  exact .inl hline

/-- **When commands are not spliced.**  In any run of BLE writes and pops, where the data of a write holds
no end of line: every line of the popped bytes is a first part of one write, in every state and also if
everything left in the ring is popped there, exactly when every write with data finds the ring full or
behind a newline.  In particular the lines popped so far are then first parts of one write each. -/
theorem commands_are_not_spliced {tr : List (ShellInput × InputEvent)}
    (hr : Run step (fun _ a => IsLine a) new tr s) :
    (Always (fun s => s.drain.Unspliced) tr s ↔ ∀ e ∈ tr, e.1.KeepsApart e.2) ∧
    ((∀ e ∈ tr, e.1.KeepsApart e.2) → Always Unspliced tr s) := by
  constructor
  · refine hr.forall_iff (I := fun s => s.Aligned ∧ LinesApart s.writes s.stream)
      ⟨aligned_new, linesApart_new⟩ (fun s h => h.1.unspliced_drain_iff.mpr h.2) ?_ ?_
    · rintro s a s' ⟨h, hapart⟩ ha hs hkeeps
      exact ⟨h.step hs, (h.linesApart_step_iff hapart ha hs).mpr hkeeps⟩
    · rintro s a s' ⟨h, hapart⟩ ha hs hdrain
      exact (h.linesApart_step_iff hapart ha hs).mp ((h.step hs).unspliced_drain_iff.mp hdrain)
  · intro hkeeps
    have hrun := hr.strengthen hkeeps
    have hall : Always (fun s => s.Aligned ∧ LinesApart s.writes s.stream) tr s := by
      refine hrun.always ⟨aligned_new, linesApart_new⟩ ?_
      rintro s a s' ⟨h, hapart⟩ ⟨ha, hkeep⟩ hs
      exact ⟨h.step hs, (h.linesApart_step_iff hapart ha hs).mpr hkeep⟩
    exact ⟨fun e he => (hall.1 e he).2.of_append, hall.2.2.of_append⟩

/-- Two commands, the second written while the first is read. -/
theorem commands_are_not_spliced_run : ∃ tr s, Run step (fun _ a => IsLine a) new tr s ∧
    s.popped.map Prod.fst = [0x6C, 0x73, 0x0A, 0x68, 0x0A] ∧ Always Unspliced tr s := by
  have hexec : (exec step (fun s a => decide (IsLine a ∧ s.KeepsApart a)) new
      [.write [0x6C, 0x73], .getchar, .write [0x68], .getchar, .getchar, .getchar, .getchar, .getchar]).any
      (fun s => decide (s.popped.map Prod.fst = [0x6C, 0x73, 0x0A, 0x68, 0x0A])) = true := by
    decide +kernel
  obtain ⟨tr, s, hr, hs⟩ := exists_run_of_exec (fun (s : ShellInput) (a : InputEvent)
    (h : decide (IsLine a ∧ s.KeepsApart a) = true) => of_decide_eq_true h) hexec
  have hrun : Run step (fun _ a => IsLine a) new tr s := hr.mono fun _ _ h => h.1
  exact ⟨tr, s, hrun, of_decide_eq_true hs,
    (commands_are_not_spliced hrun).2 fun e he => (hr.forall_guard e he).2⟩

/-- A write of 256 bytes fills the ring and loses its newline; the next write ends its line. -/
theorem full_ring_splices : ∃ tr s, Run step (fun _ a => IsLine a) new tr s ∧
    s.popped.map Prod.fst = List.replicate 256 0x61 ++ [0x62, 0x0A] ∧ ¬Always Unspliced tr s := by
  have hexec : (exec step (fun _ a => decide (IsLine a)) new
      (.write (List.replicate 256 0x61) :: List.replicate 256 .getchar ++
        [.write [0x62], .getchar, .getchar])).any
      (fun s => decide (s.popped = List.replicate 256 (0x61, 0) ++ [(0x62, 1), (0x0A, 1)])) = true := by
    decide +kernel
  obtain ⟨tr, s, hr, hs⟩ := exists_run_of_exec (fun (_ : ShellInput) (a : InputEvent)
    (h : decide (IsLine a) = true) => of_decide_eq_true h) hexec
  have hpopped := of_decide_eq_true hs
  refine ⟨tr, s, hr, by rw [hpopped, List.map_append, List.map_replicate]; rfl, fun h => ?_⟩
  have hline : List.replicate 256 (0x61, 0) ++ [(0x62, 1)] ∈ s.popped.splitOnP isNewline := by
    have hnl : isNewline (0x0A, 1) = true := rfl
    have hsplit := List.splitOnP_append_cons (List.replicate 256 (0x61, 0) ++ [(0x62, 1)]) [] hnl
    have hplain : ∀ p ∈ List.replicate 256 ((0x61 : UInt8), 0) ++ [(0x62, 1)], isNewline p = false := by
      intro p hp
      rcases List.mem_append.mp hp with hp | hp
      · rw [List.eq_of_mem_replicate hp]
        rfl
      · rw [List.mem_singleton.mp hp]
        rfl
    rw [hpopped, List.append_cons, hsplit, List.splitOnP_eq_singleton hplain]
    exact List.mem_append_left _ (List.mem_singleton_self _)
  rcases h.2 _ hline with hnil | ⟨n, data, -, htags, -⟩
  · cases hnil
  · have hfirst := htags (0x61, 0) (List.mem_append_left _ (List.mem_replicate.mpr ⟨by decide, rfl⟩))
    have hlast := htags (0x62, 1) (List.mem_append_right _ (List.mem_singleton_self _))
    exact absurd (hfirst.trans hlast.symm) (by decide)

end ShellInput

end MosKernel
