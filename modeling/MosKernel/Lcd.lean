import MosKernel.Lib.Raster
import MosKernel.Lib.Transition
import MosKernel.Terminal

/-!
# The LCD task

`render_row`, `render_full`, `flush_row`, `flush_full` and the loop of `lcd_task`.  The frame buffer is an
image of 16-bit colours; the panel is the memory of the display.  The library call that draws a string is a
parameter, `DrawText`; `drawString` is what the crate of the font does for it.

`picture` is what a terminal looks like.  A full pass produces it, and so does a pass over the rows with a
dirty mark, since the others look as before (`Showing.refreshRows`).
-/

namespace MosKernel

open Raster Transition

/-- `Rgb565` as `RawU16` -/
abbrev Rgb565 := UInt16

/-- `Rgb565::BLACK` -/
def black : Rgb565 := 0

/-- `Rgb565::new(30, 40, 5)` -/
def termTextColor : Rgb565 := (30 : Rgb565) <<< 11 ||| (40 : Rgb565) <<< 5 ||| 5

abbrev FrameBuf := Fin (lcdWidth * lcdHeight) → Rgb565

abbrev Panel := ℕ × ℕ → Rgb565

/-- `Text::draw` with `Baseline::Top`: the pixels of a string at a point, `true` for `BinaryColor::On`. -/
abbrev DrawText := String → ℕ × ℕ → List ((ℕ × ℕ) × Bool)

/-- Strings that fit a row, without control characters, set pixels in the strip of their row. -/
def DrawsInStrip (text : DrawText) : Prop :=
  ∀ (bytes : List UInt8) (line : String) (y : ℕ), String.fromUTF8? bytes.toByteArray = some line →
    bytes.length ≤ termCols → (∀ b ∈ bytes, 0x20 ≤ b) → ∀ p ∈ text line (marginLeft, y), p.2 = true →
      p.1.1 < lcdWidth ∧ y ≤ p.1.2 ∧ p.1.2 < y + fontH

/-! ### The font -/

/-- `BitmapFont` with characters of `fontW` and `fontH`, one pixel for each of theirs. -/
structure BitmapFont where
  bitmap : ℕ × ℕ → Bool
  charPerRow : ℕ
  glyphMapping : Char → ℕ

namespace BitmapFont

/-- `BitmapFont::draw_glyph` -/
def drawGlyph (font : BitmapFont) (idx : ℕ) (pos : ℕ × ℕ) : List ((ℕ × ℕ) × Bool) :=
  let row := idx / font.charPerRow
  let charX := (idx - row * font.charPerRow) * fontW
  let charY := row * fontH
  ((rectangle 0 0 fontW fontH).filter fun p => font.bitmap (charX + p.1, charY + p.2)).map
    fun p => ((p.1 + pos.1, p.2 + pos.2), true)

/-- `TextStyle::draw_string` -/
def drawChars (font : BitmapFont) : List Char → ℕ × ℕ → List ((ℕ × ℕ) × Bool)
  | [], _ => []
  | c :: cs, pos =>
      drawGlyph font (font.glyphMapping c) pos ++ drawChars font cs (pos.1 + fontW, pos.2)

def drawString (font : BitmapFont) : DrawText := fun line pos => font.drawChars line.toList pos

variable {font : BitmapFont}

theorem mem_drawGlyph {idx : ℕ} {pos : ℕ × ℕ} {p : (ℕ × ℕ) × Bool} (hp : p ∈ font.drawGlyph idx pos) :
    (pos.1 ≤ p.1.1 ∧ p.1.1 < pos.1 + fontW) ∧ pos.2 ≤ p.1.2 ∧ p.1.2 < pos.2 + fontH := by
  obtain ⟨q, hq, rfl⟩ := List.mem_map.mp hp
  have hcell := mem_rectangle.mp (List.mem_filter.mp hq).1
  dsimp only
  omega

theorem mem_drawChars {cs : List Char} {pos : ℕ × ℕ} {p : (ℕ × ℕ) × Bool} (hp : p ∈ font.drawChars cs pos) :
    p.1.1 < pos.1 + cs.length * fontW ∧ pos.2 ≤ p.1.2 ∧ p.1.2 < pos.2 + fontH := by
  induction cs generalizing pos with
  | nil => exact absurd hp List.not_mem_nil
  | cons c cs ih =>
      rw [List.length_cons, Nat.add_one_mul]
      rcases List.mem_append.mp hp with hp | hp
      · obtain ⟨⟨_, hx⟩, hy⟩ := mem_drawGlyph hp
        exact ⟨by omega, hy⟩
      · obtain ⟨hx, hy⟩ := ih hp
        dsimp only at hx hy
        exact ⟨by omega, hy⟩

theorem length_le_utf8ByteSize (line : String) : line.toList.length ≤ line.utf8ByteSize := by
  induction line using String.push_induction with
  | empty => simp
  | push line c ih =>
      have hc := Char.utf8Size_pos c
      rw [String.utf8ByteSize_push, String.toList_push, List.length_append, List.length_singleton]
      omega

/-- **The font keeps to the strip.** -/
theorem drawsInStrip (font : BitmapFont) : DrawsInStrip font.drawString := by
  intro bytes line y hline hlen _ p hp _
  obtain ⟨hx, hy⟩ := mem_drawChars hp
  have hsize : line.utf8ByteSize = bytes.length := by
    rw [String.fromUTF8?] at hline
    split_ifs at hline
    cases hline
    exact List.size_toByteArray
  have hchars := length_le_utf8ByteSize line
  have hcols : line.toList.length * fontW ≤ termCols * fontW := Nat.mul_le_mul_right _ (by omega)
  refine ⟨lt_of_lt_of_le hx ?_, hy⟩
  dsimp only
  exact le_trans (Nat.add_le_add_left hcols _) (by decide)

end BitmapFont

/-! ### Rendering -/

/-- `BinaryToRgb::draw_iter`: what is off is dropped. -/
def binaryToRgb (color : Rgb565) (pixels : List ((ℕ × ℕ) × Bool)) : List ((ℕ × ℕ) × Rgb565) :=
  pixels.filterMap fun p => if p.2 = true then some (p.1, color) else none

/-- The first line of pixels of a row. -/
def rowY (row : ℕ) : ℕ := marginTop + row * rowH

/-- Draw the text of a row over what is there. -/
def drawText (text : DrawText) (t : Terminal) (fb : FrameBuf) (row : ℕ) : Option FrameBuf :=
  if (t.lens row).toNat = 0 then some fb
  else (t.line row).bind fun bytes =>
    match String.fromUTF8? bytes.toByteArray with
    | some line =>
        let pixels := text line (marginLeft, rowY row + (rowH - fontH) / 2)
        some (draw lcdWidth lcdHeight fb (binaryToRgb termTextColor pixels))
    | none => some fb

/-- `Terminal::render_row` -/
def renderRow (text : DrawText) (t : Terminal) (row : ℕ) (fb : FrameBuf) : Option FrameBuf :=
  let band := rectangle 0 (rowY row) lcdWidth rowH
  drawText text t (draw lcdWidth lcdHeight fb (band.map (·, black))) row

/-- `Terminal::render_full` -/
def renderFull (text : DrawText) (t : Terminal) (_fb : FrameBuf) : Option FrameBuf :=
  (List.range termRows).foldlM (drawText text t) fun _ => black

/-! ### Flushing -/

def hardwareYOffset : ℕ := 34

/-- `flush_full` -/
def flushFull (fb : FrameBuf) (panel : Panel) : Panel :=
  setPixels 0 hardwareYOffset (lcdWidth - 1) (lcdHeight - 1 + hardwareYOffset) (List.ofFn fb) panel

/-- `flush_row` -/
def flushRow (fb : FrameBuf) (row : ℕ) (panel : Panel) : Panel :=
  let yStartFb := rowY row
  let yEndFb := yStartFb + rowH - 1
  if yEndFb ≥ lcdHeight then panel
  else
    let startIdx := yStartFb * lcdWidth
    let endIdx := (yEndFb + 1) * lcdWidth
    if endIdx ≤ lcdWidth * lcdHeight then
      setPixels 0 (yStartFb + hardwareYOffset) (lcdWidth - 1) (yEndFb + hardwareYOffset)
        (slice fb startIdx endIdx) panel
    else panel

/-! ### The task -/

structure LcdTask where
  term : Terminal
  fb : FrameBuf
  panel : Panel

/-- `lcd_task` up to its loop, on a panel that shows anything. -/
def LcdTask.start (panel : Panel) : LcdTask where
  term := .new
  fb := fun _ => black
  panel := flushFull (fun _ => black) panel

/-- What the loop does for one row. -/
def refreshRow (text : DrawText) (t : Terminal) (image : FrameBuf × Panel) (row : ℕ) :
    Option (FrameBuf × Panel) :=
  if t.dirty row = true then
    (renderRow text t row image.1).map fun fb => (fb, flushRow fb row image.2)
  else some image

/-- Full rendering where many rows are dirty, the dirty rows one by one otherwise. -/
def refresh (text : DrawText) (t : Terminal) (image : FrameBuf × Panel) : Option (FrameBuf × Panel) :=
  if t.dirtyCount > termRows / 2 then
    (renderFull text t image.1).map fun fb => (fb, flushFull fb image.2)
  else (List.range termRows).foldlM (refreshRow text t) image

/-- One iteration of the loop of `lcd_task`, with the bytes that were drained. -/
def LcdTask.round (text : DrawText) (s : LcdTask) (batch : List UInt8) : Option LcdTask :=
  if batch = [] then some s
  else (s.term.feedAll batch).bind fun t =>
    (refresh text t (s.fb, s.panel)).map fun image =>
      { term := t.clearDirty, fb := image.1, panel := image.2 }

/-! ### What a terminal looks like -/

section Picture

variable {text : DrawText} {t t' : Terminal} {fb : FrameBuf} {panel : Panel} {row : ℕ}

/-- Where the text of a row is. -/
def rowPoints (text : DrawText) (t : Terminal) (row : ℕ) : List (ℕ × ℕ) :=
  if (t.lens row).toNat = 0 then []
  else
    match (t.line row).bind fun bytes => String.fromUTF8? bytes.toByteArray with
    | some line =>
        ((text line (marginLeft, rowY row + (rowH - fontH) / 2)).filter (·.2)).map Prod.fst
    | none => []

/-- Text on black, row by row. -/
def picture (text : DrawText) (t : Terminal) : FrameBuf := fun i =>
  if position lcdWidth i ∈ (List.range termRows).flatMap (rowPoints text t) then termTextColor else black

/-- The lines of pixels of a row. -/
def InBand (row : ℕ) (p : ℕ × ℕ) : Prop := rowY row ≤ p.2 ∧ p.2 < rowY row + rowH

instance (row : ℕ) (p : ℕ × ℕ) : Decidable (InBand row p) :=
  inferInstanceAs (Decidable (_ ∧ _))

theorem binaryToRgb_eq (color : Rgb565) (pixels : List ((ℕ × ℕ) × Bool)) :
    binaryToRgb color pixels = ((pixels.filter (·.2)).map Prod.fst).map (·, color) := by
  induction pixels with
  | nil => rfl
  | cons p pixels ih =>
      unfold binaryToRgb at ih ⊢
      rcases hp : p.2 <;> simp [hp, ih]

/-- Drawing a row adds its points. -/
theorem drawText_eq (h : t.Sound) (hrow : row < termRows) : drawText text t fb row =
    some (draw lcdWidth lcdHeight fb ((rowPoints text t row).map (·, termTextColor))) := by
  unfold drawText rowPoints
  by_cases hlen : (t.lens row).toNat = 0
  · rw [if_pos hlen, if_pos hlen]
    rfl
  · rw [if_neg hlen, if_neg hlen, h.line_eq hrow]
    simp only [Option.bind_some]
    rcases String.fromUTF8? _ with _ | line
    · rfl
    · simp only [binaryToRgb_eq]

/-- The points of a row are in its band. -/
theorem inBand_of_mem (hstrip : DrawsInStrip text) (h : t.Sound) (hrow : row < termRows) {p : ℕ × ℕ}
    (hp : p ∈ rowPoints text t row) : InBand row p := by
  rw [rowPoints] at hp
  split_ifs at hp with hlen
  · exact absurd hp List.not_mem_nil
  · rw [h.line_eq hrow, Option.bind_some] at hp
    split at hp
    · rename_i line hline
      obtain ⟨q, hq, rfl⟩ := List.mem_map.mp hp
      obtain ⟨hq, hon⟩ := List.mem_filter.mp hq
      have hlens := h.lens row
      obtain ⟨_, hlow, hhigh⟩ := hstrip _ line _ hline
        (by simpa using hlens) (by
          intro b hb
          obtain ⟨c, _, rfl⟩ := List.mem_map.mp hb
          exact h.cells row c) q hq hon
      constructor
      · exact le_trans (Nat.le_add_right _ _) hlow
      · have hfit : (rowH - fontH) / 2 + fontH ≤ rowH := by decide
        omega
    · exact absurd hp List.not_mem_nil

/-- The bands of two rows have no point in common. -/
theorem InBand.eq {row' : ℕ} {p : ℕ × ℕ} (h : InBand row p) (h' : InBand row' p) : row = row' := by
  unfold InBand rowY marginTop rowH at h h'
  omega

/-! ### Rendering produces the picture -/

theorem drawTexts_eq (h : t.Sound) (rows : List ℕ) (hrows : ∀ row ∈ rows, row < termRows) (fb : FrameBuf) :
    rows.foldlM (drawText text t) fb = some (draw lcdWidth lcdHeight fb
      ((rows.flatMap (rowPoints text t)).map (·, termTextColor))) := by
  induction rows generalizing fb with
  | nil => rfl
  | cons row rows ih =>
      obtain ⟨hrow, hrest⟩ := List.forall_mem_cons.mp hrows
      rw [List.foldlM_cons, drawText_eq h hrow]
      show rows.foldlM (drawText text t) _ = _
      rw [ih hrest, List.flatMap_cons, List.map_append, draw_append]

/-- **Full rendering** produces the picture, whatever was in the frame buffer. -/
theorem renderFull_eq (h : t.Sound) (fb : FrameBuf) : renderFull text t fb = some (picture text t) := by
  rw [renderFull, drawTexts_eq h _ fun _ => List.mem_range.mp]
  congr 1
  funext i
  exact draw_apply _ _ _ i

/-- **Rendering a row** produces the band of the row, and leaves the rest. -/
theorem renderRow_spec (hstrip : DrawsInStrip text) (h : t.Sound) (hrow : row < termRows) (fb : FrameBuf) :
    ∃ fb', renderRow text t row fb = some fb' ∧
      ∀ i : Fin (lcdWidth * lcdHeight),
        fb' i = if InBand row (position lcdWidth i) then picture text t i else fb i := by
  refine ⟨_, drawText_eq h hrow, fun i => ?_⟩
  have hwidth := (position_lt i).1
  rw [draw_apply, draw_apply]
  by_cases hband : InBand row (position lcdWidth i)
  · have hmem : position lcdWidth i ∈ rectangle 0 (rowY row) lcdWidth rowH :=
      mem_rectangle.mpr ⟨⟨Nat.zero_le _, by omega⟩, hband⟩
    rw [if_pos hmem, if_pos hband]
    refine if_congr ⟨fun hp => ?_, fun hp => ?_⟩ rfl rfl
    · exact List.mem_flatMap.mpr ⟨row, List.mem_range.mpr hrow, hp⟩
    · -- a point of the picture in this band is a point of this row
      obtain ⟨row', hrow', hp⟩ := List.mem_flatMap.mp hp
      have heq := (inBand_of_mem hstrip h (List.mem_range.mp hrow') hp).eq hband
      rw [← heq]
      exact hp
  · rw [if_neg hband, if_neg fun hp => hband (inBand_of_mem hstrip h hrow hp), if_neg]
    intro hmem
    exact hband (mem_rectangle.mp hmem).2

/-! ### What the panel shows -/

/-- The window of the panel shows the frame buffer. -/
def Shows (fb : FrameBuf) (panel : Panel) : Prop :=
  ∀ (x y : ℕ) (hx : x < lcdWidth) (hy : y < lcdHeight),
    panel (x, y + hardwareYOffset) = fb ⟨index lcdWidth (x, y), index_lt hx hy⟩

theorem shows_flushFull (fb : FrameBuf) (panel : Panel) : Shows fb (flushFull fb panel) := by
  intro x y hx hy
  have hall : List.ofFn fb = slice fb (0 * lcdWidth) ((lcdHeight - 1 + 1) * lcdWidth) := by
    rw [slice, Nat.zero_mul, List.drop_zero, List.take_of_length_le]
    rw [List.length_ofFn]
    decide
  have hcopy := setPixels_slice 0 (lcdHeight - 1) hardwareYOffset fb panel hx hy
  rw [Nat.zero_add, if_pos ⟨Nat.zero_le _, by omega⟩] at hcopy
  rw [flushFull, hall, hcopy]

/-- A panel that shows the frame buffer is left as it is by `flush_full`. -/
theorem Shows.flushFull_eq (h : Shows fb panel) : flushFull fb panel = panel := by
  funext p
  by_cases hp : (0 ≤ p.1 ∧ p.1 ≤ lcdWidth - 1) ∧
      hardwareYOffset ≤ p.2 ∧ p.2 ≤ lcdHeight - 1 + hardwareYOffset
  · obtain ⟨x, y⟩ := p
    obtain ⟨y, rfl⟩ := Nat.exists_eq_add_of_le' hp.2.1
    have hx : x < lcdWidth := lt_of_le_of_lt hp.1.2 (by decide)
    have hy : y < lcdHeight := by
      have hle := hp.2.2
      dsimp only at hle
      unfold lcdHeight at hle ⊢
      omega
    rw [shows_flushFull fb panel x y hx hy, h x y hx hy]
  · exact if_neg hp

theorem flushRow_apply (fb : FrameBuf) (panel : Panel) (hrow : row < termRows) {x y : ℕ} (hx : x < lcdWidth)
    (hy : y < lcdHeight) : flushRow fb row panel (x, y + hardwareYOffset) =
      if InBand row (x, y) then fb ⟨index lcdWidth (x, y), index_lt hx hy⟩
      else panel (x, y + hardwareYOffset) := by
  have hend : rowY row + rowH - 1 < lcdHeight := by
    rw [termRows_eq] at hrow
    unfold rowY marginTop rowH lcdHeight
    omega
  have hsize : (rowY row + rowH - 1 + 1) * lcdWidth ≤ lcdWidth * lcdHeight := by
    rw [Nat.mul_comm lcdWidth]
    exact Nat.mul_le_mul_right _ hend
  rw [flushRow, if_neg (Nat.not_le.mpr hend), if_pos hsize, setPixels_slice _ _ _ fb panel hx hy]
  refine if_congr ?_ rfl rfl
  unfold InBand rowH
  omega

/-- Rendering a row and flushing it keeps the panel up to date. -/
theorem Shows.flushRow (h : Shows fb panel) (hrow : row < termRows) {fb' : FrameBuf}
    (hfb : ∀ i : Fin (lcdWidth * lcdHeight), ¬InBand row (position lcdWidth i) → fb' i = fb i) :
    Shows fb' (flushRow fb' row panel) := by
  intro x y hx hy
  rw [flushRow_apply fb' panel hrow hx hy]
  split_ifs with hband
  · rfl
  · rw [h x y hx hy]
    refine (hfb _ ?_).symm
    show ¬InBand row (position lcdWidth (index lcdWidth (x, y)))
    rw [position_index hx]
    exact hband

/-! ### One pass -/

/-- After the rows below `n`, only the bands of dirty rows from `n` on may be out of date. -/
structure Refreshed (text : DrawText) (t : Terminal) (n : ℕ) (image : FrameBuf × Panel) : Prop where
  shows : Shows image.1 image.2
  drawn : ∀ i : Fin (lcdWidth * lcdHeight),
    (∀ row, n ≤ row → row < termRows → t.dirty row = true → ¬InBand row (position lcdWidth i)) →
      image.1 i = picture text t i

variable {n : ℕ} {image : FrameBuf × Panel}

theorem Refreshed.refreshRow (hstrip : DrawsInStrip text) (h : t.Sound) (hn : n < termRows)
    (hr : Refreshed text t n image) :
    ∃ image', refreshRow text t image n = some image' ∧ Refreshed text t (n + 1) image' := by
  by_cases hdirty : t.dirty n = true
  · obtain ⟨fb', hrender, hfb⟩ := renderRow_spec hstrip h hn image.1
    refine ⟨_, by rw [MosKernel.refreshRow, if_pos hdirty, hrender, Option.map_some], ?_, fun i hi => ?_⟩
    · apply hr.shows.flushRow hn
      intro i hband
      show fb' i = image.1 i
      rw [hfb, if_neg hband]
    · show fb' i = _
      rw [hfb]
      split_ifs with hband
      · rfl
      · apply hr.drawn
        intro row hle hlt hd
        rcases Nat.eq_or_lt_of_le hle with rfl | hlt'
        · exact hband
        · exact hi row hlt' hlt hd
  · refine ⟨image, by rw [MosKernel.refreshRow, if_neg hdirty], hr.shows, fun i hi => ?_⟩
    apply hr.drawn
    intro row hle hlt hd
    rcases Nat.eq_or_lt_of_le hle with rfl | hlt'
    · exact absurd hd hdirty
    · exact hi row hlt' hlt hd

/-- The rows one after the other. -/
theorem Refreshed.refreshRows (hstrip : DrawsInStrip text) (h : t.Sound) (hr : Refreshed text t 0 image)
    (hn : n ≤ termRows) :
    ∃ image', (List.range n).foldlM (MosKernel.refreshRow text t) image = some image' ∧
      Refreshed text t n image' := by
  induction n with
  | zero => exact ⟨image, rfl, hr⟩
  | succ n ih =>
      obtain ⟨image₁, hrows, hr₁⟩ := ih (by omega)
      obtain ⟨image', hrow, hr'⟩ := hr₁.refreshRow hstrip h hn
      refine ⟨image', ?_, hr'⟩
      rw [List.range_succ, List.foldlM_append, hrows]
      show (List.foldlM (MosKernel.refreshRow text t) image₁ [n]) = _
      rw [List.foldlM_cons, hrow]
      rfl

/-- **Either path** leaves the picture in the frame buffer and on the panel. -/
theorem refresh_spec (hstrip : DrawsInStrip text) (h : t.Sound) (hr : Refreshed text t 0 image) :
    ∃ image', refresh text t image = some image' ∧ image'.1 = picture text t ∧ Shows image'.1 image'.2 := by
  rw [refresh]
  split_ifs
  · refine ⟨_, by rw [renderFull_eq h, Option.map_some], rfl, shows_flushFull _ _⟩
  · obtain ⟨image', hrows, hr'⟩ := hr.refreshRows hstrip h le_rfl
    refine ⟨image', hrows, funext fun i => hr'.drawn i fun row hle hlt => ?_, hr'.shows⟩
    exact absurd hlt (Nat.not_lt.mpr hle)

/-- What a row shows depends on its cells and its length. -/
theorem rowPoints_congr (hs : t'.screen row = t.screen row) (hl : t'.lens row = t.lens row) :
    rowPoints text t' row = rowPoints text t row := by
  unfold rowPoints Terminal.line
  rw [hs, hl]

/-- Outside the bands of the dirty rows the picture has not changed. -/
theorem picture_congr (hstrip : DrawsInStrip text) (h : t.Sound) (h' : t'.Sound) (hm : t.Marks t')
    (i : Fin (lcdWidth * lcdHeight))
    (hi : ∀ row, row < termRows → t'.dirty row = true → ¬InBand row (position lcdWidth i)) :
    picture text t' i = picture text t i := by
  refine if_congr ?_ rfl rfl
  simp only [List.mem_flatMap, List.mem_range]
  refine exists_congr fun row => and_congr_right fun hrow => ?_
  by_cases hd : t'.dirty row = true
  · have hout := hi row hrow hd
    exact iff_of_false (fun hp => hout (inBand_of_mem hstrip h' hrow hp))
      fun hp => hout (inBand_of_mem hstrip h hrow hp)
  · obtain ⟨_, hs, hl⟩ := hm row (by simpa using hd)
    rw [rowPoints_congr hs hl]

end Picture

/-! ### Every sequence of batches -/

namespace LcdTask

variable {text : DrawText} {s s' : LcdTask} {batch : List UInt8}

/-- Between two iterations. -/
structure UpToDate (text : DrawText) (s : LcdTask) : Prop where
  sound : s.term.Sound
  fb : s.fb = picture text s.term
  panel : Shows s.fb s.panel

theorem upToDate_start (text : DrawText) (panel : Panel) : UpToDate text (start panel) where
  sound := Terminal.sound_new
  fb := by
    have hnone : (List.range termRows).flatMap (rowPoints text .new) = [] :=
      List.flatMap_eq_nil_iff.mpr fun row _ => if_pos rfl
    funext i
    show black = picture text .new i
    rw [picture, hnone, if_neg List.not_mem_nil]
  panel := shows_flushFull _ _

theorem UpToDate.round (hstrip : DrawsInStrip text) (h : s.UpToDate text) (batch : List UInt8) :
    ∃ s', s.round text batch = some s' ∧ s'.UpToDate text := by
  rw [LcdTask.round]
  split_ifs
  · exact ⟨s, rfl, h⟩
  · obtain ⟨t, hfeed, hsound, hmarks⟩ := Terminal.feedAll_spec h.sound batch
    have hr : Refreshed text t 0 (s.fb, s.panel) := ⟨h.panel, fun i hi => by
      rw [picture_congr hstrip h.sound hsound hmarks i fun row => hi row (Nat.zero_le row)]
      exact congrFun h.fb i⟩
    obtain ⟨image, hrefresh, hpicture, hpanel⟩ := refresh_spec hstrip hsound hr
    refine ⟨_, by rw [hfeed, Option.bind_some, hrefresh, Option.map_some], hsound.clearDirty, ?_, hpanel⟩
    exact hpicture

/-- **Refreshing agrees with redrawing** after every iteration: rendering the terminal in full gives the
frame buffer, flushing it in full leaves the panel as it is, and the next iteration goes through. -/
theorem refresh_agrees_with_redraw (hstrip : DrawsInStrip text) {panel : Panel}
    {tr : List (LcdTask × List UInt8)}
    (hr : Run (LcdTask.round text) (fun _ _ => True) (start panel) tr s) :
    Always (fun s => (∀ fb, renderFull text s.term fb = some s.fb) ∧ flushFull s.fb s.panel = s.panel ∧
      ∀ batch, (s.round text batch).isSome = true) tr s := by
  have hall : Always (UpToDate text) tr s :=
    hr.always (upToDate_start text panel) fun s batch s' h _ hs => by
      obtain ⟨s₁, hs₁, h₁⟩ := h.round hstrip batch
      rw [hs] at hs₁
      cases hs₁
      exact h₁
  have hagree : ∀ s, UpToDate text s → (∀ fb, renderFull text s.term fb = some s.fb) ∧
      flushFull s.fb s.panel = s.panel ∧ ∀ batch, (s.round text batch).isSome = true := by
    intro s h
    refine ⟨fun fb => ?_, h.panel.flushFull_eq, fun batch => ?_⟩
    · rw [renderFull_eq h.sound, h.fb]
    · obtain ⟨s', hs', _⟩ := h.round hstrip batch
      rw [hs', Option.isSome_some]
  exact ⟨fun e he => hagree _ (hall.1 e he), hagree _ hall.2⟩

/-- The dash of the font, printed on a black panel and followed by a new line. -/
theorem refresh_agrees_with_redraw_dash :
    let font : BitmapFont :=
      { bitmap := fun p => p.2 == 5 && 78 ≤ p.1 && p.1 ≤ 82
        charPerRow := 16
        glyphMapping := fun c => c.toNat - 32 }
    ∃ tr s, Run (LcdTask.round font.drawString) (fun _ _ => True) (start fun _ => black) tr s ∧
      tr.map Prod.snd = [[0x0A], [0x2D]] ∧ (∀ fb, renderFull font.drawString s.term fb = some s.fb) ∧
        flushFull s.fb s.panel = s.panel := by
  intro font
  have hgo : ∀ {tr s} (batch : List UInt8),
      Run (LcdTask.round font.drawString) (fun _ _ => True) (start fun _ => black) tr s →
        ∃ s', s.round font.drawString batch = some s' := fun batch hr =>
    Option.isSome_iff_exists.mp
      ((refresh_agrees_with_redraw (BitmapFont.drawsInStrip font) hr).2.2.2 batch)
  obtain ⟨s₁, hs₁⟩ := hgo [0x2D] .start
  have hr₁ : Run (LcdTask.round font.drawString) (fun _ _ => True) (start fun _ => black) _ s₁ :=
    .next .start trivial hs₁
  obtain ⟨s₂, hs₂⟩ := hgo [0x0A] hr₁
  have hr₂ : Run (LcdTask.round font.drawString) (fun _ _ => True) (start fun _ => black) _ s₂ :=
    .next hr₁ trivial hs₂
  have hlast := (refresh_agrees_with_redraw (BitmapFont.drawsInStrip font) hr₂).2
  exact ⟨_, s₂, hr₂, rfl, hlast.1, hlast.2.1⟩

end LcdTask

end MosKernel
