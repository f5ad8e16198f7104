import MosKernel.Lcd
import MosKernel.Lib.Ring
import MosKernel.TerminalText

/-!
# The output ring in front of the LCD task

`lcd_putchar` puts bytes into a ring of 2048, from any task and at any time; a full ring drops them.  The
loop of `lcd_task` drains up to 128 bytes in a critical section and then feeds and refreshes outside of it,
so bytes come in meanwhile.

The bytes that the ring has taken are never reordered, doubled or lost: they have been fed, or are drained
and about to be, or lie in the ring (`InOrder`).  Between two drains the panel shows the terminal that all
fed bytes make, however they were cut into batches, since no operation of the terminal reads its dirty marks
(`feedAll_clearDirty`).
-/

namespace MosKernel

open Ring Transition

/-! ### Dirty marks are not read -/

namespace Terminal

variable {t t' : Terminal} {c : UInt8}

/-- An operation that ignores the marks may follow one that does. -/
theorem map_bind_clearDirty {f : Option Terminal} {g : Terminal → Option Terminal}
    (hg : ∀ t : Terminal, (g t.clearDirty).map clearDirty = (g t).map clearDirty) :
    ((f.map clearDirty).bind g).map clearDirty = (f.bind g).map clearDirty := by
  cases f with
  | none => rfl
  | some t => exact hg t

theorem touch_clearDirty (t : Terminal) : t.clearDirty.touch.map clearDirty = t.touch.map clearDirty := by
  rw [touch, touch]
  by_cases h : t.cursorRow < termRows
  · rw [if_pos h, if_pos (show t.clearDirty.cursorRow < termRows from h)]
    rfl
  · rw [if_neg h, if_neg (show ¬t.clearDirty.cursorRow < termRows from h)]

theorem write_clearDirty (t : Terminal) (c : UInt8) : t.clearDirty.write c = (t.write c).map clearDirty := by
  rw [write, write]
  by_cases h : t.cursorRow < termRows ∧ t.cursorCol < termCols
  · rw [if_pos h, if_pos (show t.clearDirty.cursorRow < termRows ∧ t.clearDirty.cursorCol < termCols from h)]
    rfl
  · rw [if_neg h,
      if_neg (show ¬(t.clearDirty.cursorRow < termRows ∧ t.clearDirty.cursorCol < termCols) from h)]
    rfl

theorem scrollUp_clearDirty (t : Terminal) : t.clearDirty.scrollUp = t.scrollUp := by
  rw [scrollUp, scrollUp, scroll_loop, scroll_loop]
  rfl

theorem newline_clearDirty (t : Terminal) :
    t.clearDirty.newline.map clearDirty = t.newline.map clearDirty := by
  rw [newline, newline]
  by_cases h : t.cursorRow < termRows - 1
  · rw [if_pos h, if_pos (show t.clearDirty.cursorRow < termRows - 1 from h)]
    exact touch_clearDirty { t with cursorCol := 0, cursorRow := t.cursorRow + 1 }
  · rw [if_neg h, if_neg (show ¬t.clearDirty.cursorRow < termRows - 1 from h)]
    exact congrArg (fun u : Terminal => u.touch.map clearDirty)
      (scrollUp_clearDirty { t with cursorCol := 0 })

/-- How `put_char` and `backspace` end. -/
theorem cutIf_touch_clearDirty (t : Terminal) (p : Prop) [Decidable p] :
    (if p then t.clearDirty.cut else t.clearDirty).touch.map clearDirty =
      (if p then t.cut else t).touch.map clearDirty := by
  split_ifs
  · exact touch_clearDirty t.cut
  · exact touch_clearDirty t

theorem putCell_clearDirty (t : Terminal) (c : UInt8) :
    (t.clearDirty.putCell c).map clearDirty = (t.putCell c).map clearDirty := by
  rw [putCell, putCell, write_clearDirty]
  refine map_bind_clearDirty fun t => ?_
  exact cutIf_touch_clearDirty { t with cursorCol := t.cursorCol + 1 } _

theorem putChar_clearDirty (t : Terminal) (c : UInt8) :
    (t.clearDirty.putChar c).map clearDirty = (t.putChar c).map clearDirty := by
  rw [putChar, putChar]
  by_cases h : t.cursorCol ≥ termCols
  · rw [if_pos h, if_pos (show t.clearDirty.cursorCol ≥ termCols from h)]
    rw [← map_bind_clearDirty (f := t.clearDirty.newline) (putCell_clearDirty · c), newline_clearDirty,
      map_bind_clearDirty (putCell_clearDirty · c)]
  · rw [if_neg h, if_neg (show ¬t.clearDirty.cursorCol ≥ termCols from h)]
    exact putCell_clearDirty t c

theorem backspace_clearDirty (t : Terminal) :
    t.clearDirty.backspace.map clearDirty = t.backspace.map clearDirty := by
  rw [backspace, backspace]
  by_cases h : t.cursorCol > 0
  · rw [if_pos h, if_pos (show t.clearDirty.cursorCol > 0 from h)]
    have hwrite := write_clearDirty { t with cursorCol := t.cursorCol - 1 } 0x20
    exact (congrArg (fun o : Option Terminal => (o.bind fun t =>
      (if t.cursorCol < (t.lens t.cursorRow).toNat then t.cut else t).touch).map clearDirty) hwrite).trans
        (map_bind_clearDirty fun t => cutIf_touch_clearDirty t _)
  · rw [if_neg h, if_neg (show ¬t.clearDirty.cursorCol > 0 from h)]
    rfl

theorem feed_clearDirty (t : Terminal) (c : UInt8) :
    (t.clearDirty.feed c).map clearDirty = (t.feed c).map clearDirty := by
  rw [feed, feed]
  split_ifs
  · exact newline_clearDirty t
  · rfl
  · exact backspace_clearDirty t
  · exact putChar_clearDirty t c
  · rfl

/-- **The screen does not depend on the marks.** -/
theorem feedAll_clearDirty (t : Terminal) (batch : List UInt8) :
    (t.clearDirty.feedAll batch).map clearDirty = (t.feedAll batch).map clearDirty := by
  induction batch generalizing t with
  | nil => rfl
  | cons c batch ih =>
      rw [feedAll, feedAll, ← map_bind_clearDirty ih, feed_clearDirty, map_bind_clearDirty ih]

end Terminal

/-! ### The ring -/

abbrev charBufSize : ℕ := 2048

abbrev drainBufSize : ℕ := 128

/-- `CharRing` -/
structure CharRing where
  buf : ℕ → UInt8
  head : ℕ
  tail : ℕ
  len : ℕ

namespace CharRing

variable {r : CharRing}

/-- `CharRing::new` -/
def new : CharRing := ⟨fun _ => 0, 0, 0, 0⟩

/-- `CharRing::push` -/
def push (r : CharRing) (c : UInt8) : CharRing :=
  if r.len < charBufSize then
    { r with
      buf := Function.update r.buf r.tail c
      tail := (r.tail + 1) % charBufSize
      len := r.len + 1 }
  else r

/-- The loop of `drain`: the bytes copied so far, and `head`. -/
def copyOut (buf : ℕ → UInt8) (head : ℕ) : ℕ → List UInt8 × ℕ
  | 0 => ([], head)
  | i + 1 =>
      let (out, head) := copyOut buf head i
      (out ++ [buf head], (head + 1) % charBufSize)

/-- `CharRing::drain`, into a slice of `room` bytes. -/
def drain (r : CharRing) (room : ℕ) : List UInt8 × CharRing :=
  let n := min r.len room
  let (out, head) := copyOut r.buf r.head n
  (out, { r with head, len := r.len - n })

/-- What is in the ring, oldest first. -/
def contents (r : CharRing) : List UInt8 := window r.buf charBufSize r.head r.len

/-- The indices are in range and agree with each other. -/
def Sound (r : CharRing) : Prop := Indices charBufSize r.head r.tail r.len

theorem length_contents (r : CharRing) : r.contents.length = r.len := by
  rw [contents, window, List.length_map, List.length_range]

/-- **A byte** goes to the end, or nowhere when the ring is full. -/
theorem push_spec (h : r.Sound) (c : UInt8) : (r.push c).Sound ∧
    (r.push c).contents = if r.len < charBufSize then r.contents ++ [c] else r.contents := by
  rw [push]
  by_cases hlt : r.len < charBufSize
  · rw [if_pos hlt, if_pos hlt]
    exact ⟨Indices.push h hlt, window_push h hlt⟩
  · rw [if_neg hlt, if_neg hlt]
    exact ⟨h, rfl⟩

theorem copyOut_eq (buf : ℕ → UInt8) {head : ℕ} (hhead : head < charBufSize) (n : ℕ) :
    copyOut buf head n = (window buf charBufSize head n, (head + n) % charBufSize) := by
  induction n with
  | zero => rw [copyOut, Nat.add_zero, Nat.mod_eq_of_lt hhead]; rfl
  | succ n ih =>
      rw [copyOut, ih, window_concat]
      dsimp only
      rw [Nat.mod_add_mod, Nat.add_assoc]

/-- **Draining** takes the oldest bytes, as many as there is room for. -/
theorem drain_spec (h : r.Sound) (room : ℕ) : (r.drain room).1 = r.contents.take room ∧
    (r.drain room).2.Sound ∧ (r.drain room).2.contents = r.contents.drop room := by
  have hhead : r.head < charBufSize := h.head_lt (by decide)
  have hle : min r.len room ≤ r.len := Nat.min_le_left _ _
  have hsplit : window r.buf charBufSize r.head (min r.len room + (r.len - min r.len room)) = _ :=
    window_add (min r.len room) (r.len - min r.len room)
  have hlen : (window r.buf charBufSize r.head (min r.len room)).length = min r.len room := by
    rw [window, List.length_map, List.length_range]
  rw [Nat.add_sub_cancel' hle] at hsplit
  have hmin : r.contents.take room = r.contents.take (min r.len room) ∧
      r.contents.drop room = r.contents.drop (min r.len room) := by
    rcases Nat.le_total r.len room with hroom | hroom
    · have hall : r.contents.length ≤ r.len := r.length_contents.le
      rw [Nat.min_eq_left hroom, List.take_of_length_le hall, List.take_of_length_le (hall.trans hroom),
        List.drop_of_length_le hall, List.drop_of_length_le (hall.trans hroom)]
      exact ⟨rfl, rfl⟩
    · rw [Nat.min_eq_right hroom]
      exact ⟨rfl, rfl⟩
  rw [hmin.1, hmin.2, drain, copyOut_eq r.buf hhead, contents, hsplit, List.take_left' hlen,
    List.drop_left' hlen]
  exact ⟨rfl, h.advance hle, rfl⟩

end CharRing

/-! ### The ring and the task -/

/-- `CHAR_RING` and the LCD task.  `batch` is what the loop has drained and not fed yet; it is `none` where
the loop begins. -/
structure LcdOutput where
  ring : CharRing
  task : LcdTask
  batch : Option (List UInt8)

/-- What happens to the output: some task prints a byte, or the LCD task goes on. -/
inductive OutputEvent
  | putchar (c : UInt8)
  | lcd
  deriving DecidableEq

namespace LcdOutput

variable {text : DrawText} {s s' : LcdOutput} {a : OutputEvent} {tr : List (LcdOutput × OutputEvent)}
  {panel : Panel} {bytes fed : List UInt8}

/-- `lcd_task` before its loop. -/
def start (panel : Panel) : LcdOutput := ⟨.new, .start panel, none⟩

/-- `lcd_putchar` -/
def putchar (s : LcdOutput) (c : UInt8) : LcdOutput := { s with ring := s.ring.push c }

/-- The critical section of the loop. -/
def drain (s : LcdOutput) : LcdOutput :=
  let (batch, ring) := s.ring.drain drainBufSize
  { s with ring, batch := some batch }

def step (text : DrawText) (s : LcdOutput) : OutputEvent → Option LcdOutput
  | .putchar c => some (s.putchar c)
  | .lcd =>
      match s.batch with
      | none => some s.drain
      | some batch => (s.task.round text batch).map fun task => { s with task, batch := none }

/-- The byte that the ring takes in a step. -/
def taken (e : LcdOutput × OutputEvent) : Option UInt8 :=
  match e.2 with
  | .putchar c => if e.1.ring.len < charBufSize then some c else none
  | .lcd => none

/-- The bytes that the ring has taken in a run, oldest first. -/
def accepted (tr : List (LcdOutput × OutputEvent)) : List UInt8 := tr.reverse.filterMap taken

/-- The panel shows the terminal that the bytes make. -/
structure Displays (text : DrawText) (s : LcdOutput) (bytes : List UInt8) : Prop where
  term : ∃ t, Terminal.new.feedAll bytes = some t ∧ s.task.term = t.clearDirty
  fb : s.task.fb = picture text s.task.term
  panel : Shows s.task.fb s.task.panel

/-- What has been taken was fed, or was drained, or waits. -/
structure InOrder (text : DrawText) (s : LcdOutput) (fed bytes : List UInt8) : Prop where
  ring : s.ring.Sound
  stream : fed ++ s.batch.getD [] ++ s.ring.contents = bytes
  task : s.task.UpToDate text
  term : ∃ t, Terminal.new.feedAll fed = some t ∧ s.task.term = t.clearDirty

theorem accepted_cons (e : LcdOutput × OutputEvent) (tr : List (LcdOutput × OutputEvent)) :
    accepted (e :: tr) = accepted tr ++ (taken e).toList := by
  rw [accepted, List.reverse_cons, List.filterMap_append]
  cases h : taken e with
  | none => rw [List.filterMap_cons_none h]; rfl
  | some c => rw [List.filterMap_cons_some h]; rfl

theorem InOrder.displays (h : s.InOrder text fed bytes) : s.Displays text fed :=
  ⟨h.term, h.task.fb, h.task.panel⟩

theorem inOrder_start (text : DrawText) (panel : Panel) : (start panel).InOrder text [] [] where
  ring := .empty _
  stream := rfl
  task := LcdTask.upToDate_start text panel
  term := ⟨.new, rfl, rfl⟩

/-- An iteration of the task's loop feeds its batch. -/
theorem InOrder.round (hstrip : DrawsInStrip text) (h : s.InOrder text fed bytes) (batch : List UInt8) :
    ∃ task t, s.task.round text batch = some task ∧ task.UpToDate text ∧
      Terminal.new.feedAll (fed ++ batch) = some t ∧ task.term = t.clearDirty := by
  obtain ⟨task, hround, htask⟩ := h.task.round hstrip batch
  obtain ⟨t, ht, hterm⟩ := h.term
  refine ⟨task, ?_⟩
  rw [LcdTask.round] at hround
  rw [Terminal.feedAll_append, ht, Option.bind_some]
  by_cases hnil : batch = []
  · rw [if_pos hnil] at hround
    cases hround
    exact ⟨t, by rw [LcdTask.round, if_pos hnil], htask, by rw [hnil]; rfl, hterm⟩
  · -- the task's terminal is the fed one without its marks, so it makes the same of the batch
    rw [if_neg hnil] at hround
    obtain ⟨u, hu, hrest⟩ := Option.bind_eq_some_iff.mp hround
    obtain ⟨image, himage, rfl⟩ := Option.map_eq_some_iff.mp hrest
    have hsame := Terminal.feedAll_clearDirty t batch
    rw [← hterm, hu] at hsame
    obtain ⟨t', ht', hclear⟩ := Option.map_eq_some_iff.mp hsame.symm
    refine ⟨t', ?_, htask, ht', hclear.symm⟩
    rw [LcdTask.round, if_neg hnil, hu, Option.bind_some, himage, Option.map_some]

/-- **One step.** -/
theorem InOrder.step (hstrip : DrawsInStrip text) (h : s.InOrder text fed bytes) (a : OutputEvent) :
    ∃ s' fed', s.step text a = some s' ∧ s'.InOrder text fed' (bytes ++ (taken (s, a)).toList) := by
  cases a with
  | putchar c =>
      obtain ⟨hsound, hcontents⟩ := CharRing.push_spec h.ring c
      refine ⟨_, fed, rfl, hsound, ?_, h.task, h.term⟩
      show _ ++ (s.ring.push c).contents = _
      rw [hcontents, ← h.stream, taken]
      dsimp only
      split_ifs
      · exact (List.append_assoc _ _ _).symm
      · exact (List.append_nil _).symm
  | lcd =>
      rw [show bytes ++ (taken (s, .lcd)).toList = bytes from List.append_nil _]
      rw [LcdOutput.step]
      cases hbatch : s.batch with
      | none =>
          obtain ⟨hout, hsound, hrest⟩ := CharRing.drain_spec h.ring drainBufSize
          refine ⟨_, fed, rfl, hsound, ?_, h.task, h.term⟩
          have hstream := h.stream
          rw [hbatch] at hstream
          show fed ++ (s.ring.drain drainBufSize).1 ++ (s.ring.drain drainBufSize).2.contents = bytes
          rw [hout, hrest, List.append_assoc, List.take_append_drop, ← hstream]
          exact congrArg (· ++ _) (List.append_nil fed).symm
      | some batch =>
          obtain ⟨task, t, hround, htask, hfeed, hterm⟩ := h.round hstrip batch
          refine ⟨{ s with task, batch := none }, fed ++ batch, by dsimp only; rw [hround]; rfl,
            h.ring, ?_, htask, t, hfeed, hterm⟩
          have hstream := h.stream
          rw [hbatch] at hstream
          rw [← hstream]
          exact congrArg (· ++ s.ring.contents) (List.append_nil (fed ++ batch))

theorem inOrder_of_run (hstrip : DrawsInStrip text)
    (hr : Run (step text) (fun _ _ => True) (start panel) tr s) :
    ∃ fed, s.InOrder text fed (accepted tr) := by
  induction hr with
  | start => exact ⟨[], inOrder_start text panel⟩
  | @next tr s s' a _ _ hs ih =>
      obtain ⟨fed, h⟩ := ih
      obtain ⟨s₁, fed', hs₁, h'⟩ := h.step hstrip a
      rw [hs] at hs₁
      cases hs₁
      rw [accepted_cons]
      exact ⟨fed', h'⟩

/-- **Output in order.**  In every run, however bytes and iterations of the LCD task interleave: the bytes
that the ring has taken are those the panel displays, then those of the batch in hand, then those in the
ring, and the next step goes through, whatever it is. -/
theorem panel_displays_output (hstrip : DrawsInStrip text)
    (hr : Run (step text) (fun _ _ => True) (start panel) tr s) :
    (∃ fed, accepted tr = fed ++ s.batch.getD [] ++ s.ring.contents ∧ s.Displays text fed) ∧
      ∀ a, (s.step text a).isSome = true := by
  obtain ⟨fed, h⟩ := inOrder_of_run hstrip hr
  refine ⟨⟨fed, h.stream.symm, h.displays⟩, fun a => ?_⟩
  obtain ⟨s', fed', hs', -⟩ := h.step hstrip a
  rw [hs', Option.isSome_some]

/-! ### Catching up -/

/-- How many times the LCD task has to go on until it has fed everything, at most. -/
def behind (s : LcdOutput) : ℕ :=
  2 * ((s.ring.len + (drainBufSize - 1)) / drainBufSize) + if s.batch.isSome = true then 1 else 0

/-- Nothing is left to feed. -/
def Idle (s : LcdOutput) : Prop := s.ring.len = 0 ∧ s.batch.getD [] = []

theorem InOrder.displays_of_idle (h : s.InOrder text fed bytes) (hidle : s.Idle) :
    s.Displays text bytes := by
  have hnil : s.ring.contents = [] :=
    List.length_eq_zero_iff.mp (s.ring.length_contents.trans hidle.1)
  have hstream := h.stream
  rw [hidle.2, hnil, List.append_nil, List.append_nil] at hstream
  rw [← hstream]
  exact h.displays

/-- The LCD task goes on: it comes nearer, or has nothing to do. -/
theorem InOrder.lcd (hstrip : DrawsInStrip text) (h : s.InOrder text fed bytes) :
    ∃ s' fed', s.step text .lcd = some s' ∧ s'.InOrder text fed' bytes ∧
      (s.Idle → s'.Idle) ∧ (¬s.Idle → s'.behind < s.behind) := by
  obtain ⟨s', fed', hs, h'⟩ := h.step hstrip .lcd
  rw [show bytes ++ (taken (s, .lcd)).toList = bytes from List.append_nil _] at h'
  refine ⟨s', fed', hs, h', ?_⟩
  rw [LcdOutput.step] at hs
  cases hbatch : s.batch with
  | none =>
      rw [hbatch] at hs
      cases hs
      obtain ⟨hout, -, hrest⟩ := CharRing.drain_spec h.ring drainBufSize
      have hlen := congrArg List.length hrest
      rw [CharRing.length_contents, List.length_drop, CharRing.length_contents] at hlen
      constructor
      · intro hidle
        have hnil : s.ring.contents = [] :=
          List.length_eq_zero_iff.mp (s.ring.length_contents.trans hidle.1)
        refine ⟨hlen.trans (by rw [hidle.1, Nat.zero_sub]), ?_⟩
        show (s.ring.drain drainBufSize).1 = []
        rw [hout, hnil, List.take_nil]
      · intro hidle
        have hpos : s.ring.len ≠ 0 := fun hzero => hidle ⟨hzero, by rw [hbatch]; rfl⟩
        have hbehind : s.drain.behind =
            2 * ((s.ring.len - drainBufSize + (drainBufSize - 1)) / drainBufSize) + 1 :=
          congrArg (fun n => 2 * ((n + (drainBufSize - 1)) / drainBufSize) + 1) hlen
        rw [hbehind, behind, hbatch]
        simp only [drainBufSize, Option.isSome_none, Bool.false_eq_true, if_false]
        omega
  | some batch =>
      rw [hbatch] at hs
      obtain ⟨task, -, rfl⟩ := Option.map_eq_some_iff.mp hs
      refine ⟨fun hidle => ⟨hidle.1, rfl⟩, fun _ => ?_⟩
      rw [behind, behind, hbatch]
      exact Nat.lt_succ_self _

theorem idle_of_behind (h : s.behind ≤ 0) : s.Idle := by
  rw [behind] at h
  cases hbatch : s.batch with
  | none =>
      refine ⟨?_, by rw [hbatch]; rfl⟩
      simp only [drainBufSize] at h
      omega
  | some batch =>
      rw [hbatch] at h
      simp at h

/-- A full ring with a batch in hand is the most there can be. -/
theorem InOrder.behind_le (h : s.InOrder text fed bytes) : s.behind ≤ 33 := by
  have hlen : s.ring.len ≤ charBufSize := h.ring.len_le
  rw [behind]
  simp only [charBufSize, drainBufSize] at hlen ⊢
  split_ifs <;> omega

theorem InOrder.catches_up (hstrip : DrawsInStrip text) (h : s.InOrder text fed bytes) {n : ℕ}
    (hn : s.Idle ∨ s.behind ≤ n) :
    ∃ s', (List.replicate n OutputEvent.lcd).foldlM (LcdOutput.step text) s = some s' ∧
      s'.Displays text bytes := by
  induction n generalizing s fed with
  | zero => exact ⟨s, rfl, h.displays_of_idle (hn.elim id idle_of_behind)⟩
  | succ n ih =>
      obtain ⟨s₁, fed', hs, h₁, hkeeps, hnearer⟩ := h.lcd hstrip
      rw [List.replicate_succ, List.foldlM_cons, hs]
      refine ih h₁ ?_
      by_cases hidle : s.Idle
      · exact .inl (hkeeps hidle)
      · have hle := hn.resolve_left hidle
        have hlt := hnearer hidle
        exact .inr (by omega)

/-- **The panel catches up.**  When no more bytes come in, the LCD task displays everything that the ring has
taken once it has gone on `behind` times, which is never more than 33, and then it stays so. -/
theorem panel_catches_up (hstrip : DrawsInStrip text)
    (hr : Run (step text) (fun _ _ => True) (start panel) tr s) :
    s.behind ≤ 33 ∧ ∀ n, s.behind ≤ n →
      ∃ s', (List.replicate n OutputEvent.lcd).foldlM (step text) s = some s' ∧
        s'.Displays text (accepted tr) := by
  obtain ⟨fed, h⟩ := inOrder_of_run hstrip hr
  exact ⟨h.behind_le, fun n hn => h.catches_up hstrip (.inr hn)⟩

/-- The dash of the font, printed while the LCD task looks for bytes. -/
def dashFont : BitmapFont where
  bitmap := fun p => p.2 == 5 && 78 ≤ p.1 && p.1 ≤ 82
  charPerRow := 16
  glyphMapping := fun c => c.toNat - 32

/-- Two bytes, the second one while the first is in the batch. -/
theorem run_dash : ∃ tr s, Run (step dashFont.drawString) (fun _ _ => True) (start fun _ => black) tr s ∧
    accepted tr = [0x2D, 0x0A] ∧ s.batch = some [0x2D] ∧ s.ring.contents = [0x0A] := by
  have hr : Run (step dashFont.drawString) (fun _ _ => True) (start fun _ => black) _ _ :=
    ((Run.start.next trivial (show step _ _ (.putchar 0x2D) = some _ from rfl)).next trivial
      (show step _ _ .lcd = some _ from rfl)).next trivial (show step _ _ (.putchar 0x0A) = some _ from rfl)
  exact ⟨_, _, hr, rfl, rfl, rfl⟩

theorem panel_displays_output_dash : ∃ s : LcdOutput, s.ring.contents = [0x0A] ∧
    ∃ fed, [0x2D, 0x0A] = fed ++ s.batch.getD [] ++ s.ring.contents ∧ s.Displays dashFont.drawString fed := by
  obtain ⟨tr, s, hr, haccepted, -, hring⟩ := run_dash
  have hmain := (panel_displays_output (BitmapFont.drawsInStrip dashFont) hr).1
  rw [haccepted] at hmain
  exact ⟨s, hring, hmain⟩

theorem panel_catches_up_dash : ∃ s' : LcdOutput, s'.Displays dashFont.drawString [0x2D, 0x0A] := by
  obtain ⟨tr, s, hr, haccepted, -, -⟩ := run_dash
  obtain ⟨hle, hmain⟩ := panel_catches_up (BitmapFont.drawsInStrip dashFont) hr
  obtain ⟨s', -, hdisplays⟩ := hmain 33 hle
  rw [haccepted] at hdisplays
  exact ⟨s', hdisplays⟩

end LcdOutput

end MosKernel
