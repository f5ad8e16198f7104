import Mathlib.Data.List.Range
import Mathlib.Logic.Function.Basic
import Mathlib.Tactic.Common

/-!
# The LCD terminal

`Terminal` of `lcd.rs`: a matrix of bytes, the length of each row, a cursor and a dirty mark for each row.
An index out of range is a panic, `none`.

`Sound` is the invariant of a terminal that is fed: its indices are in range, and no cell holds a control
character.  `Marks` says that a row without a dirty mark has not changed; every operation marks what it
changes (`feed_spec`).
-/

namespace MosKernel

/-! ### Layout -/

abbrev fontW : ℕ := 6
abbrev fontH : ℕ := 12

abbrev lcdWidth : ℕ := 320
abbrev lcdHeight : ℕ := 172

abbrev rowH : ℕ := 14
abbrev marginLeft : ℕ := 10
abbrev marginTop : ℕ := 10

abbrev termCols : ℕ := (lcdWidth - marginLeft) / fontW
abbrev termRows : ℕ := (lcdHeight - marginTop) / rowH

theorem termRows_eq : termRows = 11 := rfl

structure Terminal where
  screen : ℕ → ℕ → UInt8
  lens : ℕ → UInt8
  cursorRow : ℕ
  cursorCol : ℕ
  dirty : ℕ → Bool

namespace Terminal

variable {t t' t'' : Terminal} {c : UInt8} {row : ℕ}

/-- `Terminal::new` -/
def new : Terminal where
  screen := fun _ _ => 0x20
  lens := fun _ => 0
  cursorRow := 0
  cursorCol := 0
  dirty := fun _ => false

/-! ### The operations -/

/-- `self.dirty[self.cursor_row] = true` -/
def touch (t : Terminal) : Option Terminal :=
  if t.cursorRow < termRows then some { t with dirty := Function.update t.dirty t.cursorRow true }
  else none

/-- `self.screen[self.cursor_row][self.cursor_col] = c` -/
def write (t : Terminal) (c : UInt8) : Option Terminal :=
  if t.cursorRow < termRows ∧ t.cursorCol < termCols then
    let cells := Function.update (t.screen t.cursorRow) t.cursorCol c
    some { t with screen := Function.update t.screen t.cursorRow cells }
  else none

/-- `self.lens[self.cursor_row] = self.cursor_col as u8` -/
def cut (t : Terminal) : Terminal :=
  { t with lens := Function.update t.lens t.cursorRow (UInt8.ofNat t.cursorCol) }

/-- `Terminal::scroll_up` -/
def scrollUp (t : Terminal) : Terminal :=
  let t := (List.range (termRows - 1)).foldl (fun t i =>
    { t with
      screen := Function.update t.screen i (t.screen (i + 1))
      lens := Function.update t.lens i (t.lens (i + 1)) }) t
  { t with
    screen := Function.update t.screen (termRows - 1) fun _ => 0x20
    lens := Function.update t.lens (termRows - 1) 0
    dirty := fun _ => true }

/-- `Terminal::newline` -/
def newline (t : Terminal) : Option Terminal :=
  let t := { t with cursorCol := 0 }
  let t := if t.cursorRow < termRows - 1 then { t with cursorRow := t.cursorRow + 1 } else t.scrollUp
  t.touch

/-- `Terminal::put_char` after its `newline`. -/
def putCell (t : Terminal) (c : UInt8) : Option Terminal :=
  (t.write c).bind fun t =>
    let t := { t with cursorCol := t.cursorCol + 1 }
    let t := if t.cursorCol > (t.lens t.cursorRow).toNat then t.cut else t
    t.touch

/-- `Terminal::put_char` -/
def putChar (t : Terminal) (c : UInt8) : Option Terminal :=
  (if t.cursorCol ≥ termCols then t.newline else some t).bind (putCell · c)

/-- `Terminal::backspace` -/
def backspace (t : Terminal) : Option Terminal :=
  if t.cursorCol > 0 then
    let t := { t with cursorCol := t.cursorCol - 1 }
    (t.write 0x20).bind fun t =>
      let t := if t.cursorCol < (t.lens t.cursorRow).toNat then t.cut else t
      t.touch
  else some t

/-- `Terminal::feed` -/
def feed (t : Terminal) (c : UInt8) : Option Terminal :=
  if c = 0x0A then t.newline
  else if c = 0x0D then some { t with cursorCol := 0 }
  else if c = 0x08 ∨ c = 0x7F then t.backspace
  else if 0x20 ≤ c then t.putChar c
  else some t

/-- Feed a batch of bytes. -/
def feedAll (t : Terminal) : List UInt8 → Option Terminal
  | [] => some t
  | c :: cs => (t.feed c).bind (feedAll · cs)

/-- `Terminal::dirty_count` -/
def dirtyCount (t : Terminal) : ℕ := (List.range termRows).countP t.dirty

/-- `Terminal::clear_dirty` -/
def clearDirty (t : Terminal) : Terminal := { t with dirty := fun _ => false }

/-- `&self.screen[row][..self.lens[row] as usize]` -/
def line (t : Terminal) (row : ℕ) : Option (List UInt8) :=
  if row < termRows ∧ (t.lens row).toNat ≤ termCols then
    some ((List.range (t.lens row).toNat).map (t.screen row))
  else none

/-! ### What holds of a terminal -/

/-- The cursor and the lengths are in range, and the cells hold no control characters. -/
structure Sound (t : Terminal) : Prop where
  row : t.cursorRow < termRows
  col : t.cursorCol ≤ termCols
  lens : ∀ r, (t.lens r).toNat ≤ termCols
  cells : ∀ r c, 0x20 ≤ t.screen r c

/-- Every row that has changed has a dirty mark, and no mark is lost. -/
def Marks (t t' : Terminal) : Prop :=
  ∀ r, t'.dirty r = false → t.dirty r = false ∧ t'.screen r = t.screen r ∧ t'.lens r = t.lens r

theorem Marks.refl (t : Terminal) : Marks t t := fun _ h => ⟨h, rfl, rfl⟩

theorem Marks.trans (h : Marks t t') (h' : Marks t' t'') : Marks t t'' := by
  intro r hr
  obtain ⟨hd, hs, hl⟩ := h' r hr
  obtain ⟨hd', hs', hl'⟩ := h r hd
  exact ⟨hd', hs.trans hs', hl.trans hl'⟩

theorem sound_new : new.Sound where
  row := by decide
  col := Nat.zero_le _
  lens := fun _ => Nat.zero_le _
  cells := fun _ _ => UInt8.le_refl _

/-- The row of the cursor is marked last, so what was done there needs no mark of its own. -/
theorem touch_spec (h : t'.Sound) (hrest : ∀ r, r ≠ t'.cursorRow → t'.dirty r = false →
      t.dirty r = false ∧ t'.screen r = t.screen r ∧ t'.lens r = t.lens r) :
    ∃ t₁, t'.touch = some t₁ ∧ t₁.Sound ∧ Marks t t₁ ∧ t₁.cursorCol = t'.cursorCol := by
  refine ⟨_, if_pos h.row, ⟨h.row, h.col, h.lens, h.cells⟩, fun r hr => ?_, rfl⟩
  replace hr : Function.update t'.dirty t'.cursorRow true r = false := hr
  rw [Function.update_apply] at hr
  split_ifs at hr with hrow
  exact hrest r hrow hr

/-- The loop of `scroll_up` moves the rows that it has come to. -/
theorem scroll_loop (t : Terminal) (n : ℕ) :
    (List.range n).foldl (fun t i =>
      { t with
        screen := Function.update t.screen i (t.screen (i + 1))
        lens := Function.update t.lens i (t.lens (i + 1)) }) t =
      { t with
        screen := fun r => if r < n then t.screen (r + 1) else t.screen r
        lens := fun r => if r < n then t.lens (r + 1) else t.lens r } := by
  induction n with
  | zero => simp
  | succ n ih =>
      have hmoved : ∀ {β : Type} (f : ℕ → β),
          Function.update (fun r => if r < n then f (r + 1) else f r) n (f (n + 1)) =
            fun r => if r < n + 1 then f (r + 1) else f r := by
        intro β f
        funext r
        rw [Function.update_apply]
        by_cases hr : r = n
        · rw [if_pos hr, if_pos (by omega), hr]
        · rw [if_neg hr]
          exact if_congr (by omega) rfl rfl
      rw [List.range_succ, List.foldl_append, ih]
      simp only [List.foldl_cons, List.foldl_nil, Nat.not_lt_of_gt (Nat.lt_succ_self n), if_false]
      rw [hmoved, hmoved]

theorem scrollUp_screen (t : Terminal) (r : ℕ) : t.scrollUp.screen r =
    if r = termRows - 1 then fun _ => 0x20
    else if r < termRows - 1 then t.screen (r + 1) else t.screen r := by
  rw [scrollUp, scroll_loop]
  exact Function.update_apply _ _ _ _

theorem scrollUp_lens (t : Terminal) (r : ℕ) : t.scrollUp.lens r =
    if r = termRows - 1 then 0
    else if r < termRows - 1 then t.lens (r + 1) else t.lens r := by
  rw [scrollUp, scroll_loop]
  exact Function.update_apply _ _ _ _

theorem scrollUp_cursor (t : Terminal) :
    t.scrollUp.cursorRow = t.cursorRow ∧ t.scrollUp.cursorCol = t.cursorCol := by
  rw [scrollUp, scroll_loop]
  exact ⟨rfl, rfl⟩

theorem scrollUp_dirty (t : Terminal) (r : ℕ) : t.scrollUp.dirty r = true := rfl

theorem Sound.scrollUp (h : t.Sound) : t.scrollUp.Sound where
  row := by
    rw [(scrollUp_cursor t).1]
    exact h.row
  col := by
    rw [(scrollUp_cursor t).2]
    exact h.col
  lens := by
    intro r
    rw [scrollUp_lens]
    split_ifs
    · exact Nat.zero_le _
    · exact h.lens (r + 1)
    · exact h.lens r
  cells := by
    intro r c
    rw [scrollUp_screen]
    split_ifs
    · exact UInt8.le_refl _
    · exact h.cells (r + 1) c
    · exact h.cells r c

/-! ### What the operations do -/

theorem newline_spec (h : t.Sound) :
    ∃ t', t.newline = some t' ∧ t'.Sound ∧ Marks t t' ∧ t'.cursorCol = 0 := by
  have h₀ : Sound { t with cursorCol := 0 } := ⟨h.row, Nat.zero_le _, h.lens, h.cells⟩
  rw [newline]
  by_cases hlast : t.cursorRow < termRows - 1
  · -- the rows stay, and the next one is marked
    rw [if_pos hlast]
    have h₁ : Sound { t with cursorCol := 0, cursorRow := t.cursorRow + 1 } :=
      ⟨show t.cursorRow + 1 < termRows by omega, Nat.zero_le _, h.lens, h.cells⟩
    exact touch_spec h₁ fun r _ hd => ⟨hd, rfl, rfl⟩
  · -- every row is marked
    rw [if_neg hlast]
    obtain ⟨t', ht, hs, hm, hcol⟩ := touch_spec (t := t) h₀.scrollUp fun r _ hd => by
      rw [scrollUp_dirty] at hd
      exact absurd hd (by decide)
    exact ⟨t', ht, hs, hm, hcol.trans (scrollUp_cursor _).2⟩

/-- A cell that is written is in the row of the cursor. -/
theorem write_spec (h : t.Sound) (hcol : t.cursorCol < termCols) (hc : 0x20 ≤ c) :
    ∃ t', t.write c = some t' ∧ t'.Sound ∧ t'.cursorRow = t.cursorRow ∧
      t'.cursorCol = t.cursorCol ∧ t'.lens = t.lens ∧ t'.dirty = t.dirty ∧
      ∀ r, r ≠ t.cursorRow → t'.screen r = t.screen r := by
  refine ⟨_, if_pos ⟨h.row, hcol⟩, ⟨h.row, h.col, h.lens, fun r i => ?_⟩, rfl, rfl, rfl, rfl,
    fun r hr => Function.update_of_ne hr _ _⟩
  show 0x20 ≤ Function.update t.screen t.cursorRow _ r i
  rw [Function.update_apply]
  split_ifs
  · rw [Function.update_apply]
    split_ifs
    · exact hc
    · exact h.cells _ i
  · exact h.cells r i

/-- The length that `cut` writes fits a byte. -/
theorem toNat_cursorCol (h : t.Sound) : (UInt8.ofNat t.cursorCol).toNat = t.cursorCol := by
  rw [UInt8.toNat_ofNat']
  exact Nat.mod_eq_of_lt (lt_of_le_of_lt h.col (by decide))

theorem Sound.cut (h : t.Sound) : t.cut.Sound where
  row := h.row
  col := h.col
  lens := by
    intro r
    show (Function.update t.lens t.cursorRow _ r).toNat ≤ termCols
    rw [Function.update_apply]
    split_ifs
    · rw [toNat_cursorCol h]
      exact h.col
    · exact h.lens r
  cells := h.cells

theorem cut_lens_of_ne {r : ℕ} (hr : r ≠ t.cursorRow) : t.cut.lens r = t.lens r :=
  Function.update_of_ne hr _ _

/-- How `put_char` and `backspace` end, with the length taken over or not. -/
theorem cutIf_touch_spec {p : Prop} [Decidable p] (h : t'.Sound) (hd : t'.dirty = t.dirty)
    (hl : t'.lens = t.lens) (hrest : ∀ r, r ≠ t'.cursorRow → t'.screen r = t.screen r) :
    ∃ t₁, (if p then t'.cut else t').touch = some t₁ ∧ t₁.Sound ∧ Marks t t₁ := by
  have hends : ∃ t₁, (if p then t'.cut else t').touch = some t₁ ∧ t₁.Sound ∧ Marks t t₁ ∧
      t₁.cursorCol = (if p then t'.cut else t').cursorCol := by
    by_cases hp : p
    · rw [if_pos hp]
      refine touch_spec h.cut fun r hr hdr => ⟨hd ▸ hdr, hrest r hr, ?_⟩
      rw [← hl]
      exact cut_lens_of_ne hr
    · rw [if_neg hp]
      exact touch_spec h fun r hr hdr => ⟨hd ▸ hdr, hrest r hr, by rw [hl]⟩
  obtain ⟨t₁, ht, hs, hm, -⟩ := hends
  exact ⟨t₁, ht, hs, hm⟩

theorem putCell_spec (h : t.Sound) (hcol : t.cursorCol < termCols) (hc : 0x20 ≤ c) :
    ∃ t', t.putCell c = some t' ∧ t'.Sound ∧ Marks t t' := by
  obtain ⟨t₁, hw, hs, hrow, hcol', hlens, hdirty, hrest⟩ := write_spec h hcol hc
  have h₁ : Sound { t₁ with cursorCol := t₁.cursorCol + 1 } :=
    ⟨hs.row, by
      show t₁.cursorCol + 1 ≤ termCols
      omega, hs.lens, hs.cells⟩
  rw [putCell, hw, Option.bind_some]
  exact cutIf_touch_spec h₁ hdirty hlens (hrow ▸ hrest)

theorem putChar_spec (h : t.Sound) (hc : 0x20 ≤ c) :
    ∃ t', t.putChar c = some t' ∧ t'.Sound ∧ Marks t t' := by
  rw [putChar]
  split_ifs with hfull
  · obtain ⟨t₁, hn, hs, hm, hzero⟩ := newline_spec h
    obtain ⟨t', hp, hs', hm'⟩ := putCell_spec hs (by rw [hzero]; decide) hc
    rw [hn, Option.bind_some]
    exact ⟨t', hp, hs', hm.trans hm'⟩
  · exact putCell_spec h (by omega) hc

theorem backspace_spec (h : t.Sound) :
    ∃ t', t.backspace = some t' ∧ t'.Sound ∧ Marks t t' := by
  rw [backspace]
  split_ifs with hpos
  · have hcol := h.col
    have h₀ : Sound { t with cursorCol := t.cursorCol - 1 } :=
      ⟨h.row, show t.cursorCol - 1 ≤ termCols by omega, h.lens, h.cells⟩
    obtain ⟨t₁, hw, hs, hrow, -, hlens, hdirty, hrest⟩ :=
      write_spec h₀ (show t.cursorCol - 1 < termCols by omega) (UInt8.le_refl 0x20)
    dsimp only
    rw [hw, Option.bind_some]
    exact cutIf_touch_spec hs hdirty hlens (hrow ▸ hrest)
  · exact ⟨t, rfl, h, .refl t⟩

theorem feed_spec (h : t.Sound) (c : UInt8) :
    ∃ t', t.feed c = some t' ∧ t'.Sound ∧ Marks t t' := by
  rw [feed]
  split_ifs with _ _ _ hc
  · obtain ⟨t', hn, hs, hm, -⟩ := newline_spec h
    exact ⟨t', hn, hs, hm⟩
  · exact ⟨_, rfl, ⟨h.row, Nat.zero_le _, h.lens, h.cells⟩, .refl t⟩
  · exact backspace_spec h
  · exact putChar_spec h hc
  · exact ⟨t, rfl, h, .refl t⟩

/-- **Any bytes can be fed**, and each row that they change is marked. -/
theorem feedAll_spec (h : t.Sound) (batch : List UInt8) :
    ∃ t', t.feedAll batch = some t' ∧ t'.Sound ∧ Marks t t' := by
  induction batch generalizing t with
  | nil => exact ⟨t, rfl, h, .refl t⟩
  | cons c batch ih =>
      obtain ⟨t₁, hf, hs, hm⟩ := feed_spec h c
      obtain ⟨t', hb, hs', hm'⟩ := ih hs
      refine ⟨t', ?_, hs', hm.trans hm'⟩
      rw [feedAll, hf, Option.bind_some]
      exact hb

theorem Sound.clearDirty (h : t.Sound) : t.clearDirty.Sound :=
  ⟨h.row, h.col, h.lens, h.cells⟩

/-- What a row shows can be read, and it holds no control characters. -/
theorem Sound.line_eq (h : t.Sound) (hrow : row < termRows) :
    t.line row = some ((List.range (t.lens row).toNat).map (t.screen row)) :=
  if_pos ⟨hrow, h.lens row⟩

end Terminal

end MosKernel
