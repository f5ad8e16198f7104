import MosKernel.Terminal
import MosKernel.Lib.Transition
import MosKernel.Lib.Utf8

/-!
# What a row of the terminal hides

A row is rendered up to its length, so what is written must stay in front of it.  `put_char` moves the length
behind what it writes, but `backspace` cuts it at the cursor wherever the cursor stands: after a carriage
return, what is left behind the cursor is no longer shown.  `FindsBlank` says of a byte that it is not such a
backspace.
-/

namespace MosKernel

open Transition

namespace Terminal

variable {t t' : Terminal} {c : UInt8}

/-- Every cell behind the length of its row is blank. -/
def AllShown (t : Terminal) : Prop :=
  ∀ r < termRows, ∀ i < termCols, (t.lens r).toNat ≤ i → t.screen r i = 0x20

instance : DecidablePred AllShown := fun t =>
  inferInstanceAs (Decidable (∀ r < termRows, ∀ i < termCols, (t.lens r).toNat ≤ i → t.screen r i = 0x20))

/-- What is rendered at a cell: its byte, if the row is that long. -/
def displayed (t : Terminal) (r i : ℕ) : UInt8 := if i < (t.lens r).toNat then t.screen r i else 0x20

/-- The bytes that `feed` takes for a backspace. -/
def IsErase (c : UInt8) : Prop := c = 0x08 ∨ c = 0x7F

instance : DecidablePred IsErase := fun c => inferInstanceAs (Decidable (c = 0x08 ∨ c = 0x7F))

/-- A backspace erases what is displayed before the cursor, and nothing else. -/
def ErasesOne (t : Terminal) (c : UInt8) : Prop :=
  IsErase c → ∀ t', t.feed c = some t' → ∀ r < termRows, ∀ i < termCols,
    t'.displayed r i = if r = t.cursorRow ∧ i + 1 = t.cursorCol then 0x20 else t.displayed r i

/-- Behind the character that a backspace erases, its row is blank. -/
def FindsBlank (t : Terminal) (c : UInt8) : Prop :=
  IsErase c → 0 < t.cursorCol → ∀ i < termCols, t.cursorCol ≤ i → t.screen t.cursorRow i = 0x20

instance (t : Terminal) : DecidablePred t.FindsBlank := fun c =>
  inferInstanceAs (Decidable (IsErase c → 0 < t.cursorCol → ∀ i < termCols, t.cursorCol ≤ i →
    t.screen t.cursorRow i = 0x20))

theorem AllShown.displayed_eq (h : t.AllShown) {r i : ℕ} (hr : r < termRows) (hi : i < termCols) :
    t.displayed r i = t.screen r i := by
  rw [displayed]
  split_ifs with hlen
  · rfl
  · exact (h r hr i hi (by omega)).symm

theorem allShown_new : new.AllShown := fun _ _ _ _ _ => rfl

/-! ### The rows after each operation -/

theorem touch_rows (ht : t.touch = some t') : t'.screen = t.screen ∧ t'.lens = t.lens := by
  rw [touch] at ht
  split_ifs at ht
  cases ht
  exact ⟨rfl, rfl⟩

theorem newline_rows (ht : t.newline = some t') : (t'.screen = t.screen ∧ t'.lens = t.lens) ∨
    (t'.screen = t.scrollUp.screen ∧ t'.lens = t.scrollUp.lens) := by
  rw [newline] at ht
  by_cases hlast : t.cursorRow < termRows - 1
  · rw [if_pos hlast] at ht
    obtain ⟨hscreen, hlens⟩ := touch_rows ht
    exact .inl ⟨hscreen, hlens⟩
  · rw [if_neg hlast] at ht
    obtain ⟨hscreen, hlens⟩ := touch_rows ht
    refine .inr ⟨hscreen.trans ?_, hlens.trans ?_⟩
    · funext r
      rw [scrollUp_screen, scrollUp_screen]
    · funext r
      rw [scrollUp_lens, scrollUp_lens]

/-- The length of the row of the cursor, taken over under a condition. -/
theorem cutIf_rows {p : Prop} [Decidable p] (hcol : t.cursorCol ≤ termCols)
    (ht : (if p then t.cut else t).touch = some t') : t'.screen = t.screen ∧
      ∀ r, (t'.lens r).toNat = if r = t.cursorRow ∧ p then t.cursorCol else (t.lens r).toNat := by
  by_cases hp : p
  · rw [if_pos hp] at ht
    obtain ⟨hscreen, hlens⟩ := touch_rows ht
    refine ⟨hscreen, fun r => ?_⟩
    rw [hlens]
    show (Function.update t.lens t.cursorRow (UInt8.ofNat t.cursorCol) r).toNat = _
    rw [Function.update_apply]
    by_cases hr : r = t.cursorRow
    · rw [if_pos hr, if_pos ⟨hr, hp⟩, UInt8.toNat_ofNat']
      exact Nat.mod_eq_of_lt (lt_of_le_of_lt hcol (by decide))
    · rw [if_neg hr, if_neg fun h => hr h.1]
  · rw [if_neg hp] at ht
    obtain ⟨hscreen, hlens⟩ := touch_rows ht
    refine ⟨hscreen, fun r => ?_⟩
    rw [hlens, if_neg fun h => hp h.2]

/-- One cell is written, and its row is at least that long. -/
theorem putCell_rows (h : t.Sound) (hcol : t.cursorCol < termCols) (ht : t.putCell c = some t') :
    t'.screen = Function.update t.screen t.cursorRow
        (Function.update (t.screen t.cursorRow) t.cursorCol c) ∧
      ∀ r, (t'.lens r).toNat =
        if r = t.cursorRow then max (t.cursorCol + 1) (t.lens r).toNat else (t.lens r).toNat := by
  rw [putCell, write, if_pos ⟨h.row, hcol⟩, Option.bind_some] at ht
  obtain ⟨hscreen, hlens⟩ := cutIf_rows (Nat.succ_le_of_lt hcol) ht
  refine ⟨hscreen, fun r => (hlens r).trans ?_⟩
  by_cases hr : r = t.cursorRow
  · subst hr
    rw [if_pos rfl]
    dsimp only
    split_ifs <;> omega
  · rw [if_neg hr]
    exact if_neg fun h => hr h.1

/-- The cell before the cursor is blanked, and its row is no longer than that. -/
theorem backspace_rows (h : t.Sound) (hpos : 0 < t.cursorCol) (ht : t.backspace = some t') :
    t'.screen = Function.update t.screen t.cursorRow
        (Function.update (t.screen t.cursorRow) (t.cursorCol - 1) 0x20) ∧
      ∀ r, (t'.lens r).toNat =
        if r = t.cursorRow then min (t.cursorCol - 1) (t.lens r).toNat else (t.lens r).toNat := by
  have hcol := h.col
  have hle : t.cursorCol - 1 ≤ termCols := by omega
  rw [backspace, if_pos hpos] at ht
  dsimp only at ht
  rw [write, if_pos ⟨h.row, show t.cursorCol - 1 < termCols by omega⟩, Option.bind_some] at ht
  obtain ⟨hscreen, hlens⟩ := cutIf_rows hle ht
  refine ⟨hscreen, fun r => (hlens r).trans ?_⟩
  by_cases hr : r = t.cursorRow
  · subst hr
    rw [if_pos rfl]
    dsimp only
    split_ifs <;> omega
  · rw [if_neg hr]
    exact if_neg fun h => hr h.1

/-! ### What a step hides -/

theorem AllShown.newline (h : t.AllShown) (ht : t.newline = some t') : t'.AllShown := by
  intro r hr i hi hlen
  rcases newline_rows ht with ⟨hscreen, hlens⟩ | ⟨hscreen, hlens⟩
  · rw [hlens] at hlen
    rw [hscreen]
    exact h r hr i hi hlen
  · rw [hlens, scrollUp_lens] at hlen
    rw [hscreen, scrollUp_screen]
    split_ifs at hlen ⊢ with hlast hmoves
    · rfl
    · exact h (r + 1) (by omega) i hi hlen
    · exact h r hr i hi hlen

theorem AllShown.putCell (h : t.AllShown) (hs : t.Sound) (hcol : t.cursorCol < termCols)
    (ht : t.putCell c = some t') : t'.AllShown := by
  obtain ⟨hscreen, hlens⟩ := putCell_rows hs hcol ht
  intro r hr i hi hlen
  rw [hlens] at hlen
  rw [hscreen, Function.update_apply]
  split_ifs at hlen ⊢ with hrow
  · rw [Function.update_of_ne (by omega)]
    exact h _ hs.row i hi (by rw [← hrow]; omega)
  · exact h r hr i hi hlen

theorem AllShown.putChar (h : t.AllShown) (hs : t.Sound) (ht : t.putChar c = some t') : t'.AllShown := by
  rw [Terminal.putChar] at ht
  split_ifs at ht with hfull
  · obtain ⟨t₁, hn, hs₁, -, hzero⟩ := newline_spec hs
    rw [hn, Option.bind_some] at ht
    exact (h.newline hn).putCell hs₁ (by rw [hzero]; decide) ht
  · exact h.putCell hs (by omega) ht

/-- A backspace hides what stands behind the cursor. -/
theorem AllShown.backspace_iff (h : t.AllShown) (hs : t.Sound) (hpos : 0 < t.cursorCol)
    (ht : t.backspace = some t') :
    t'.AllShown ↔ ∀ i < termCols, t.cursorCol ≤ i → t.screen t.cursorRow i = 0x20 := by
  obtain ⟨hscreen, hlens⟩ := backspace_rows hs hpos ht
  have hcell : ∀ i, t.cursorCol ≤ i → t'.screen t.cursorRow i = t.screen t.cursorRow i := by
    intro i hi
    rw [hscreen, Function.update_self, Function.update_of_ne (by omega)]
  constructor
  · intro h' i hi hbehind
    rw [← hcell i hbehind]
    exact h' _ hs.row i hi (by rw [hlens, if_pos rfl]; omega)
  · intro hblank r hr i hi hlen
    rw [hlens] at hlen
    split_ifs at hlen with hrow
    · subst hrow
      by_cases hbehind : t.cursorCol ≤ i
      · rw [hcell i hbehind]
        exact hblank i hi hbehind
      · -- the erased cell, or one that was behind the length already
        rw [hscreen, Function.update_self, Function.update_apply]
        split_ifs with herased
        · rfl
        · exact h _ hs.row i hi (by omega)
    · rw [hscreen, Function.update_of_ne hrow]
      exact h r hr i hi hlen

theorem feed_of_isErase (hc : IsErase c) : t.feed c = t.backspace := by
  have hnl : c ≠ 0x0A ∧ c ≠ 0x0D := by
    rcases hc with rfl | rfl <;> decide
  rw [feed, if_neg hnl.1, if_neg hnl.2]
  exact if_pos hc

theorem AllShown.feed_iff (h : t.AllShown) (hs : t.Sound) (ht : t.feed c = some t') :
    t'.AllShown ↔ t.FindsBlank c := by
  by_cases hc : IsErase c
  · rw [feed_of_isErase hc] at ht
    by_cases hpos : 0 < t.cursorCol
    · rw [h.backspace_iff hs hpos ht]
      exact ⟨fun hblank _ _ => hblank, fun hblank => hblank hc hpos⟩
    · rw [backspace, if_neg hpos] at ht
      cases ht
      exact iff_of_true h fun _ hpos' => absurd hpos' hpos
  · refine iff_of_true ?_ fun hc' => absurd hc' hc
    rw [Terminal.feed] at ht
    split_ifs at ht with hnl hcr herase hprint
    · exact h.newline ht
    · cases ht
      exact h
    · exact absurd herase hc
    · exact h.putChar hs ht
    · cases ht
      exact h

/-- Where everything is shown before and after it, a backspace erases one character. -/
theorem AllShown.erasesOne (h : t.AllShown) (hs : t.Sound) (hblank : t.FindsBlank c) : t.ErasesOne c := by
  intro hc t' ht r hr i hi
  have h' : t'.AllShown := (h.feed_iff hs ht).mpr hblank
  rw [h'.displayed_eq hr hi, h.displayed_eq hr hi]
  rw [feed_of_isErase hc] at ht
  by_cases hpos : 0 < t.cursorCol
  · rw [(backspace_rows hs hpos ht).1, Function.update_apply]
    split_ifs with hrow herased herased
    · rw [← herased.2, Nat.add_sub_cancel, Function.update_self]
    · rw [Function.update_of_ne fun heq => herased ⟨hrow, by omega⟩, hrow]
    · exact absurd herased.1 hrow
    · rfl
  · rw [backspace, if_neg hpos] at ht
    cases ht
    rw [if_neg (by omega)]

/-! ### Rows that can be read -/

/-- Every row can be read as text. -/
def Readable (t : Terminal) : Prop :=
  ∀ r < termRows, ∃ bytes line, t.line r = some bytes ∧ String.fromUTF8? bytes.toByteArray = some line

theorem forall_update_cell {P : UInt8 → Prop} {screen : ℕ → ℕ → UInt8} (hc : P c)
    (h : ∀ r i, P (screen r i)) (row col r i : ℕ) :
    P (Function.update screen row (Function.update (screen row) col c) r i) := by
  rw [Function.update_apply]
  split_ifs
  · rw [Function.update_apply]
    split_ifs
    · exact hc
    · exact h row i
  · exact h r i

/-- What the cells hold was blank or was fed. -/
theorem feed_cells {P : UInt8 → Prop} (hs : t.Sound) (hblank : P 0x20) (hc : P c)
    (h : ∀ r i, P (t.screen r i)) (ht : t.feed c = some t') (r i : ℕ) : P (t'.screen r i) := by
  have hnewline : ∀ {t₁}, t.newline = some t₁ → ∀ r i, P (t₁.screen r i) := by
    intro t₁ hn r i
    rcases newline_rows hn with ⟨hscreen, -⟩ | ⟨hscreen, -⟩
    · rw [hscreen]
      exact h r i
    · rw [hscreen, scrollUp_screen]
      split_ifs
      · exact hblank
      · exact h (r + 1) i
      · exact h r i
  have hput : ∀ {t₁ : Terminal}, t₁.Sound → t₁.cursorCol < termCols → (∀ r i, P (t₁.screen r i)) →
      t₁.putCell c = some t' → P (t'.screen r i) := by
    intro t₁ hs₁ hcol h₁ hp
    rw [(putCell_rows hs₁ hcol hp).1]
    exact forall_update_cell hc h₁ _ _ r i
  rw [feed] at ht
  split_ifs at ht
  · exact hnewline ht r i
  · cases ht
    exact h r i
  · by_cases hpos : 0 < t.cursorCol
    · rw [(backspace_rows hs hpos ht).1]
      exact forall_update_cell hblank h _ _ r i
    · rw [backspace, if_neg hpos] at ht
      cases ht
      exact h r i
  · rw [putChar] at ht
    split_ifs at ht with hfull
    · obtain ⟨t₁, hn, hs₁, -, hzero⟩ := newline_spec hs
      rw [hn, Option.bind_some] at ht
      exact hput hs₁ (by rw [hzero]; decide) (hnewline hn) ht
    · exact hput hs (by omega) h ht
  · cases ht
    exact h r i

theorem Sound.readable (hs : t.Sound) (h : ∀ r i, t.screen r i < 0x80) : t.Readable := by
  intro r hr
  have hascii : ∀ b ∈ (List.range (t.lens r).toNat).map (t.screen r), b < 0x80 := by
    intro b hb
    obtain ⟨i, -, rfl⟩ := List.mem_map.mp hb
    exact h r i
  exact ⟨_, _, hs.line_eq hr, dif_pos (Utf8.isValidUTF8_of_ascii hascii)⟩

/-- **When everything on the terminal is shown.**  Feed any bytes to a new terminal.  Every row is blank
behind its length in every state, and every backspace erases what is displayed before the cursor and nothing
else, exactly when every backspace finds its row blank from the cursor on.  If the bytes are all below
`0x80`, every row is text that can be rendered. -/
theorem nothing_is_hidden {t : Terminal} {tr : List (Terminal × UInt8)}
    (hr : Run feed (fun _ _ => True) new tr t) :
    ((Always AllShown tr t ∧ ∀ e ∈ tr, e.1.ErasesOne e.2) ↔ ∀ e ∈ tr, e.1.FindsBlank e.2) ∧
    ((∀ e ∈ tr, e.2 < 0x80) → Always Readable tr t) := by
  have hsound : ∀ {t c t'}, Sound t → t.feed c = some t' → Sound t' := by
    intro t c t' hs ht
    obtain ⟨t₁, h₁, hs₁, -⟩ := feed_spec hs c
    rw [ht] at h₁
    cases h₁
    exact hs₁
  constructor
  · refine hr.forall_iff_steps (I := fun t => t.Sound ∧ t.AllShown) ⟨sound_new, allShown_new⟩
      (fun _ h => h.2) ?_ ?_
    · rintro t c t' ⟨hs, h⟩ - ht hblank
      exact ⟨⟨hsound hs ht, (h.feed_iff hs ht).mpr hblank⟩, h.erasesOne hs hblank⟩
    · rintro t c t' ⟨hs, h⟩ - ht h' -
      exact (h.feed_iff hs ht).mp h'
  · intro hascii
    have hrun := hr.strengthen (C := fun _ c => c < 0x80) hascii
    have hall : Always (fun t => t.Sound ∧ ∀ r i, t.screen r i < 0x80) tr t := by
      refine hrun.always ⟨sound_new, fun _ _ => show (0x20 : UInt8) < 0x80 by decide⟩ ?_
      rintro t c t' ⟨hs, h⟩ ⟨-, hc⟩ ht
      exact ⟨hsound hs ht, feed_cells (P := fun b => b < 0x80) hs (by decide) hc h ht⟩
    exact ⟨fun e he => (hall.1 e he).1.readable (hall.1 e he).2, hall.2.1.readable hall.2.2⟩

/-- A correction at the end of a line. -/
theorem nothing_is_hidden_run : ∃ tr t, Run feed (fun _ _ => True) new tr t ∧
    t.screen 0 1 = 0x63 ∧ (t.lens 0).toNat = 2 ∧ Always AllShown tr t := by
  have hexec : (exec feed (fun t c => decide (t.FindsBlank c)) new [0x61, 0x62, 0x08, 0x63]).any
      (fun t => decide (t.screen 0 1 = 0x63 ∧ (t.lens 0).toNat = 2)) = true := by
    decide +kernel
  obtain ⟨tr, t, hr, ht⟩ := exists_run_of_exec
    (fun (t : Terminal) (c : UInt8) (h : decide (t.FindsBlank c) = true) => of_decide_eq_true h) hexec
  obtain ⟨hcell, hlen⟩ := of_decide_eq_true ht
  have hrun : Run feed (fun _ _ => True) new tr t := hr.mono fun _ _ _ => trivial
  exact ⟨tr, t, hrun, hcell, hlen, ((nothing_is_hidden hrun).1.mpr hr.forall_guard).1⟩

/-- A carriage return, one character and a backspace hide the rest of the line. -/
theorem backspace_hides_a_line : ∃ tr t, Run feed (fun _ _ => True) new tr t ∧
    t.screen 0 1 = 0x62 ∧ t.lens 0 = 0 ∧ ¬Always AllShown tr t := by
  have hexec : (exec feed (fun _ _ => true) new [0x61, 0x62, 0x0D, 0x63, 0x08]).any
      (fun t => decide (t.screen 0 1 = 0x62 ∧ t.lens 0 = 0)) = true := by
    decide +kernel
  obtain ⟨tr, t, hr, ht⟩ := exists_run_of_exec
    (fun (_ : Terminal) (_ : UInt8) (_ : true = true) => trivial) hexec
  obtain ⟨hcell, hlen⟩ := of_decide_eq_true ht
  refine ⟨tr, t, hr, hcell, hlen, fun h => ?_⟩
  have hblank := h.2 0 (by decide) 1 (by decide) (by rw [hlen]; exact Nat.zero_le _)
  rw [hcell] at hblank
  exact absurd hblank (by decide)

end Terminal

end MosKernel
