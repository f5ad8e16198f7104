import MosKernel.Terminal
import MosKernel.Lib.TextWrap

/-!
# What the terminal shows

Text without carriage returns and backspaces is shown as it reads: the rows are the last `TERM_ROWS` chunks of
its lines (`shows_tail`).  `Shows` relates a terminal to the chunks fed so far; `newline` starts a chunk and
`put_char` extends the last one or starts another, as `TextWrap.wrap_snoc` has it.
-/

namespace MosKernel

open TextWrap

namespace Terminal

variable {t t' : Terminal} {c : UInt8} {rows pre : List (List UInt8)} {last : List UInt8} {r : ℕ}

/-- What row `r` shows when there is room for the last `termRows` of `rows`. -/
def rowText (rows : List (List UInt8)) (r : ℕ) : List UInt8 :=
  (rows.drop (rows.length - termRows)).getD r []

/-- The terminal shows the end of `rows`, and the cursor stands behind the last of them. -/
structure Shows (t : Terminal) (rows : List (List UInt8)) : Prop where
  row : t.cursorRow + 1 = min rows.length termRows
  col : t.cursorCol = (rows.getLastD []).length
  lens : ∀ r < termRows, (t.lens r).toNat = (rowText rows r).length
  cells : ∀ r < termRows, ∀ c < termCols, t.screen r c = (rowText rows r).getD c 0x20

theorem rowText_eq (rows : List (List UInt8)) (r : ℕ) :
    rowText rows r = rows.getD (rows.length - termRows + r) [] := by
  rw [rowText, List.getD_eq_getElem?_getD, List.getElem?_drop, ← List.getD_eq_getElem?_getD]

/-- While there is room, an empty row is not seen. -/
theorem rowText_snoc_nil (h : rows.length < termRows) (r : ℕ) :
    rowText (rows ++ [[]]) r = rowText rows r := by
  have hlen : rows.length + 1 - termRows = rows.length - termRows := by omega
  rw [rowText_eq, rowText_eq, List.length_append, List.length_singleton, hlen]
  simp only [List.getD_eq_getElem?_getD, List.getElem?_append]
  split_ifs with hr
  · rfl
  · rw [List.getElem?_eq_none (l := rows) (by omega)]
    cases rows.length - termRows + r - rows.length <;> rfl

/-- Without room, everything moves up by a row. -/
theorem rowText_snoc (h : termRows ≤ rows.length) (x : List UInt8) (hr : r < termRows) :
    rowText (rows ++ [x]) r = if r = termRows - 1 then x else rowText rows (r + 1) := by
  have hlen : rows.length + 1 - termRows + r = rows.length - termRows + (r + 1) := by omega
  rw [rowText_eq, rowText_eq, List.length_append, List.length_singleton, hlen]
  simp only [List.getD_eq_getElem?_getD, List.getElem?_append]
  split_ifs with hin hlast hlast
  · omega
  · rfl
  · rw [show rows.length - termRows + (r + 1) - rows.length = 0 by omega]
    rfl
  · omega

/-- The last chunk is where the cursor is. -/
theorem rowText_last (pre : List (List UInt8)) (last last' : List UInt8) (hr : r < termRows) :
    rowText (pre ++ [last']) r =
      if r + 1 = min (pre.length + 1) termRows then last' else rowText (pre ++ [last]) r := by
  simp only [rowText_eq, List.length_append, List.length_singleton, List.getD_eq_getElem?_getD,
    List.getElem?_append]
  split_ifs with hin hlast hlast
  · omega
  · rfl
  · rw [show pre.length + 1 - termRows + r - pre.length = 0 by omega]
    rfl
  · rw [List.getElem?_eq_none (by rw [List.length_singleton]; omega),
      List.getElem?_eq_none (by rw [List.length_singleton]; omega)]

theorem shows_new : new.Shows [[]] where
  row := rfl
  col := rfl
  lens := by decide
  cells := by
    intro r hr c hc
    have hblank : rowText [[]] r = [] := by
      cases r <;> rfl
    rw [hblank]
    rfl

/-- The dirty marks are not shown. -/
theorem Shows.touch (h : t.Shows rows) (ht : t.touch = some t') : t'.Shows rows := by
  rw [Terminal.touch] at ht
  split_ifs at ht
  cases ht
  exact ⟨h.row, h.col, h.lens, h.cells⟩

theorem Shows.newline (h : t.Shows rows) (ht : t.newline = some t') : t'.Shows (rows ++ [[]]) := by
  rw [Terminal.newline] at ht
  have hrow := h.row
  by_cases hlast : t.cursorRow < termRows - 1
  · rw [if_pos hlast] at ht
    have hroom : rows.length < termRows := by omega
    refine Shows.touch ⟨?_, ?_, fun r hr => ?_, fun r hr c hc => ?_⟩ ht
    · show t.cursorRow + 1 + 1 = min (rows ++ [[]]).length termRows
      rw [List.length_append, List.length_singleton]
      omega
    · rw [List.getLastD_concat]
      rfl
    · rw [rowText_snoc_nil hroom]
      exact h.lens r hr
    · rw [rowText_snoc_nil hroom]
      exact h.cells r hr c hc
  · rw [if_neg hlast] at ht
    have hfull : termRows ≤ rows.length := by omega
    refine Shows.touch ⟨?_, ?_, fun r hr => ?_, fun r hr c hc => ?_⟩ ht
    · rw [(scrollUp_cursor _).1, List.length_append, List.length_singleton]
      show t.cursorRow + 1 = _
      omega
    · rw [(scrollUp_cursor _).2, List.getLastD_concat]
      rfl
    · rw [scrollUp_lens, rowText_snoc hfull [] hr]
      split_ifs with hr' hr'
      · rfl
      · exact h.lens (r + 1) (by omega)
      · omega
    · rw [scrollUp_screen, rowText_snoc hfull [] hr]
      split_ifs with hr' hr'
      · rfl
      · exact h.cells (r + 1) (by omega) c hc
      · omega

theorem Shows.cursorRow_lt (h : t.Shows (pre ++ [last])) : t.cursorRow < termRows := by
  have hrow := h.row
  rw [List.length_append, List.length_singleton] at hrow
  omega

theorem Shows.cursorCol_eq (h : t.Shows (pre ++ [last])) : t.cursorCol = last.length := by
  rw [h.col, List.getLastD_concat]

/-- The row of the cursor is that of the last chunk. -/
theorem Shows.at_cursor (h : t.Shows (pre ++ [last])) (last' : List UInt8) (hr : r < termRows) :
    rowText (pre ++ [last']) r = if r = t.cursorRow then last' else rowText (pre ++ [last]) r := by
  have hrow := h.row
  rw [List.length_append, List.length_singleton] at hrow
  rw [rowText_last pre last last' hr]
  exact if_congr (by omega) rfl rfl

theorem Shows.lens_cursorRow (h : t.Shows (pre ++ [last])) : (t.lens t.cursorRow).toNat = last.length := by
  rw [h.lens _ h.cursorRow_lt, h.at_cursor last h.cursorRow_lt, if_pos rfl]

theorem getD_snoc (l : List UInt8) (c d : UInt8) (n : ℕ) :
    (l ++ [c]).getD n d = if n = l.length then c else l.getD n d := by
  simp only [List.getD_eq_getElem?_getD, List.getElem?_append]
  split_ifs with hlt heq heq
  · omega
  · rfl
  · rw [heq, Nat.sub_self]
    rfl
  · rw [List.getElem?_eq_none (by rw [List.length_singleton]; omega), List.getElem?_eq_none (by omega)]

/-- A character that fits goes to the end of the last row. -/
theorem Shows.putCell (h : t.Shows (pre ++ [last])) (hfit : last.length < termCols)
    (ht : t.putCell c = some t') : t'.Shows (pre ++ [last ++ [c]]) := by
  have hcol := h.cursorCol_eq
  have hgrows : t.cursorCol + 1 > (t.lens t.cursorRow).toNat := by
    rw [h.lens_cursorRow, hcol]
    exact Nat.lt_succ_self _
  rw [Terminal.putCell, write, if_pos ⟨h.cursorRow_lt, hcol ▸ hfit⟩, Option.bind_some] at ht
  dsimp only at ht
  rw [if_pos hgrows] at ht
  refine Shows.touch ⟨?_, ?_, fun r hr => ?_, fun r hr i hi => ?_⟩ ht
  · show t.cursorRow + 1 = _
    rw [h.row, List.length_append, List.length_append]
    rfl
  · show t.cursorCol + 1 = _
    rw [List.getLastD_concat, List.length_append, hcol]
    rfl
  · show (Function.update t.lens t.cursorRow (UInt8.ofNat (t.cursorCol + 1)) r).toNat = _
    rw [h.at_cursor _ hr, Function.update_apply]
    split_ifs
    · rw [UInt8.toNat_ofNat', hcol, List.length_append]
      exact Nat.mod_eq_of_lt (lt_of_le_of_lt (Nat.succ_le_of_lt hfit) (by decide))
    · exact h.lens r hr
  · show Function.update t.screen t.cursorRow (Function.update (t.screen t.cursorRow) t.cursorCol c) r i = _
    rw [h.at_cursor _ hr, Function.update_apply]
    split_ifs with hrow
    · rw [Function.update_apply, getD_snoc, hcol]
      refine if_congr Iff.rfl rfl ?_
      rw [h.cells _ h.cursorRow_lt i hi, h.at_cursor last h.cursorRow_lt, if_pos rfl]
    · exact h.cells r hr i hi

/-- `put_char` on a terminal that shows a text: the wrap is that of the chunks. -/
theorem Shows.putChar (h : t.Shows (pre ++ [last])) (hs : t.Sound) (hle : last.length ≤ termCols)
    (ht : t.putChar c = some t') :
    t'.Shows (if last.length < termCols then pre ++ [last ++ [c]] else pre ++ [last, [c]]) := by
  have hcol := h.cursorCol_eq
  rw [Terminal.putChar] at ht
  by_cases hfit : last.length < termCols
  · rw [if_neg (by omega), Option.bind_some] at ht
    rw [if_pos hfit]
    exact h.putCell hfit ht
  · rw [if_pos (by omega)] at ht
    rw [if_neg hfit]
    obtain ⟨t₁, hn, -⟩ := newline_spec hs
    rw [hn, Option.bind_some] at ht
    have h₁ : t₁.Shows ((pre ++ [last]) ++ [[]]) := h.newline hn
    have h₂ := h₁.putCell (by decide) ht
    rw [List.append_assoc] at h₂
    exact h₂

/-- A byte of text: printable, or a newline. -/
def IsText (c : UInt8) : Prop := c = 0x0A ∨ 0x20 ≤ c ∧ c ≠ 0x7F

instance : DecidablePred IsText := fun c => inferInstanceAs (Decidable (c = 0x0A ∨ 0x20 ≤ c ∧ c ≠ 0x7F))

/-- What a byte of text does to what is shown. -/
theorem Shows.feed {text : List UInt8} (h : t.Shows (wrap termCols 0x0A text)) (hs : t.Sound) (hc : IsText c)
    (ht : t.feed c = some t') : t'.Shows (wrap termCols 0x0A (text ++ [c])) := by
  obtain ⟨pre, last, heq, hle, hnl, hgoes⟩ := wrap_snoc (w := termCols) (by decide) 0x0A text
  rw [heq] at h
  rw [Terminal.feed] at ht
  rcases hc with rfl | ⟨hprint, hdel⟩
  · rw [if_pos rfl] at ht
    have h' := h.newline ht
    rw [List.append_assoc] at h'
    rw [hnl]
    exact h'
  · have hne : ∀ d : UInt8, d < 0x20 → c ≠ d := by
      rintro d hd rfl
      exact absurd hprint (UInt8.not_le.mpr hd)
    rw [if_neg (hne 0x0A (by decide)), if_neg (hne 0x0D (by decide)),
      if_neg (not_or.mpr ⟨hne 0x08 (by decide), hdel⟩), if_pos hprint] at ht
    rw [hgoes c (hne 0x0A (by decide))]
    exact h.putChar hs hle ht

theorem feedAll_append (t : Terminal) (cs ds : List UInt8) :
    t.feedAll (cs ++ ds) = (t.feedAll cs).bind (feedAll · ds) := by
  induction cs generalizing t with
  | nil => rfl
  | cons c cs ih =>
      rw [List.cons_append, feedAll, feedAll]
      cases t.feed c with
      | none => rfl
      | some t' => exact ih t'

theorem shows_feedAll {text : List UInt8} (htext : ∀ c ∈ text, IsText c) (ht : new.feedAll text = some t) :
    t.Shows (wrap termCols 0x0A text) := by
  induction text using List.reverseRecOn generalizing t with
  | nil =>
      cases ht
      rw [wrap_nil]
      exact shows_new
  | append_singleton text c ih =>
      rw [feedAll_append] at ht
      obtain ⟨t₁, h₁, hf⟩ := Option.bind_eq_some_iff.mp ht
      obtain ⟨t₂, h₂, hs, -⟩ := feedAll_spec sound_new text
      rw [h₁] at h₂
      cases h₂
      have hshown := ih (fun d hd => htext d (List.mem_append_left _ hd)) h₁
      rw [feedAll] at hf
      obtain ⟨t₃, h₃, hf⟩ := Option.bind_eq_some_iff.mp hf
      cases hf
      exact hshown.feed hs (htext c (List.mem_append_right _ (List.mem_singleton_self c))) h₃

/-- **The terminal shows the tail of the text.**  Any bytes can be fed to a new terminal, and its cursor
stays in range.  After printable bytes and newlines, the rows are the last chunks of the lines of the text,
each with its length and blank behind it, the rows below are empty, and the cursor is at the end of the last
chunk. -/
theorem shows_tail (text : List UInt8) : ∃ t, new.feedAll text = some t ∧
    t.cursorRow < termRows ∧ t.cursorCol ≤ termCols ∧
    ((∀ c ∈ text, IsText c) →
      let rows := wrap termCols 0x0A text
      let tail := rows.drop (rows.length - termRows)
      tail.length = min termRows rows.length ∧
      (∀ r < termRows, (t.lens r).toNat = (tail.getD r []).length ∧
        ∀ c < termCols, t.screen r c = (tail.getD r []).getD c 0x20) ∧
      t.cursorRow = tail.length - 1 ∧ t.cursorCol = (tail.getLastD []).length) := by
  obtain ⟨t, ht, hs, -⟩ := feedAll_spec sound_new text
  refine ⟨t, ht, hs.row, hs.col, fun htext => ?_⟩
  have h := shows_feedAll htext ht
  intro rows tail
  have hlen : tail.length = min termRows rows.length := by
    rw [List.length_drop]
    omega
  have hrow : t.cursorRow + 1 = min rows.length termRows := h.row
  refine ⟨hlen, fun r hr => ⟨h.lens r hr, h.cells r hr⟩, by omega, ?_⟩
  have hlast : tail.getLastD [] = rows.getLastD [] := by
    rw [List.getLastD_eq_getLast?, List.getLast?_drop, if_neg (by omega), List.getLastD_eq_getLast?]
  rw [hlast]
  exact h.col

/-- A line of `termCols` bytes and its newline take one row. -/
theorem shows_tail_full_line : ∃ t,
    new.feedAll (List.replicate termCols 0x78 ++ [0x0A, 0x61]) = some t ∧
      (t.lens 0).toNat = termCols ∧ (t.lens 1).toNat = 1 ∧ t.screen 1 0 = 0x61 ∧ t.cursorRow = 1 := by
  have hrows : wrap termCols 0x0A (List.replicate termCols 0x78 ++ [0x0A, 0x61]) =
      [List.replicate termCols (0x78 : UInt8), [0x61]] := by
    rw [wrap, List.splitOn_append_cons_self_of_not_mem (by decide), List.splitOn_eq_singleton (by decide),
      List.flatMap_cons, List.flatMap_singleton, chunks_of_le (by decide), chunks_of_le (by decide)]
    rfl
  obtain ⟨t, ht, -, -, h⟩ := shows_tail (List.replicate termCols 0x78 ++ [0x0A, 0x61])
  obtain ⟨-, hshown, hrow, -⟩ := h (by decide +kernel)
  rw [hrows] at hshown hrow
  refine ⟨t, ht, ?_, ?_, ?_, hrow⟩
  · exact (hshown 0 (by decide)).1
  · exact (hshown 1 (by decide)).1
  · exact (hshown 1 (by decide)).2 0 (by decide)

end Terminal

end MosKernel
