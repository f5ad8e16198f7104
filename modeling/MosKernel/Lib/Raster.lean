import Mathlib.Data.List.FinRange
import Mathlib.Data.List.OfFn
import Mathlib.Data.List.Range
import Mathlib.Data.Nat.ModEq
import Mathlib.Logic.Function.Basic
import Mathlib.Tactic.Common

/-!
# Raster images

An image of width `w` and height `h` is stored row by row, in a function on `w * h` indices.  `draw` sets
pixels one after the other and drops those outside; where all have one colour, `draw_apply` says what is
left in each place.

`setPixels` writes a stream of colours to a window of a two-dimensional memory, row by row; with the rows
of an image as the stream and a window as wide as the image it copies these rows (`setPixels_slice`).
-/

namespace Raster

variable {α : Type*} {n w h : ℕ}

/-! ### Rows and columns -/

/-- Where the pixel `p` is stored. -/
def index (w : ℕ) (p : ℕ × ℕ) : ℕ := p.2 * w + p.1

/-- Which pixel is stored at `i`. -/
def position (w i : ℕ) : ℕ × ℕ := (i % w, i / w)

theorem index_position (w i : ℕ) : index w (position w i) = i := by
  show i / w * w + i % w = i
  rw [Nat.mul_comm]
  exact Nat.div_add_mod i w

theorem position_index {p : ℕ × ℕ} (hx : p.1 < w) : position w (index w p) = p := by
  have hw : 0 < w := by omega
  apply Prod.ext
  · show (p.2 * w + p.1) % w = p.1
    rw [Nat.mul_add_mod_self_right, Nat.mod_eq_of_lt hx]
  · show (p.2 * w + p.1) / w = p.2
    rw [Nat.mul_comm, Nat.mul_add_div hw, Nat.div_eq_of_lt hx, Nat.add_zero]

theorem index_lt {p : ℕ × ℕ} (hx : p.1 < w) (hy : p.2 < h) : index w p < w * h := by
  have hrow : (p.2 + 1) * w ≤ h * w := Nat.mul_le_mul_right w hy
  rw [Nat.add_one_mul, Nat.mul_comm h] at hrow
  show p.2 * w + p.1 < w * h
  omega

theorem position_lt (i : Fin (w * h)) : (position w i).1 < w ∧ (position w i).2 < h := by
  have hi := i.isLt
  have hw : 0 < w := Nat.pos_of_ne_zero fun hzero => by simp [hzero] at hi
  exact ⟨Nat.mod_lt _ hw, Nat.div_lt_of_lt_mul hi⟩

/-! ### Drawing -/

/-- Write one element; an index outside is ignored. -/
def set (image : Fin n → α) (i : ℕ) (c : α) : Fin n → α :=
  if hi : i < n then Function.update image ⟨i, hi⟩ c else image

/-- Set the pixels of a list, one after the other; a pixel outside is dropped. -/
def draw (w h : ℕ) (image : Fin (w * h) → α) (pixels : List ((ℕ × ℕ) × α)) : Fin (w * h) → α :=
  pixels.foldl (fun image p =>
    if p.1.1 < w ∧ p.1.2 < h then set image (index w p.1) p.2 else image) image

theorem set_apply (image : Fin (w * h) → α) {p : ℕ × ℕ} (hx : p.1 < w) (hy : p.2 < h) (c : α)
    (i : Fin (w * h)) : set image (index w p) c i = if position w i = p then c else image i := by
  rw [set, dif_pos (index_lt hx hy), Function.update_apply]
  refine if_congr ⟨fun heq => ?_, fun heq => ?_⟩ rfl rfl
  · rw [heq]
    exact position_index hx
  · apply Fin.ext
    show i.val = index w p
    rw [← heq, index_position]

theorem draw_append (image : Fin (w * h) → α) (pixels pixels' : List ((ℕ × ℕ) × α)) :
    draw w h image (pixels ++ pixels') = draw w h (draw w h image pixels) pixels' :=
  List.foldl_append

/-- **What is drawn in one colour** is left in its places. -/
theorem draw_apply (image : Fin (w * h) → α) (points : List (ℕ × ℕ)) (c : α) (i : Fin (w * h)) :
    draw w h image (points.map (·, c)) i = if position w i ∈ points then c else image i := by
  induction points generalizing image with
  | nil => rfl
  | cons p points ih =>
      show draw w h (if p.1 < w ∧ p.2 < h then set image (index w p) c else image)
        (points.map (·, c)) i = _
      rw [ih]
      by_cases hm : position w i ∈ points
      · rw [if_pos hm, if_pos (List.mem_cons_of_mem p hm)]
      · rw [if_neg hm]
        by_cases hp : p.1 < w ∧ p.2 < h
        · rw [if_pos hp, set_apply image hp.1 hp.2]
          refine if_congr ?_ rfl rfl
          rw [List.mem_cons, or_iff_left hm]
        · rw [if_neg hp, if_neg]
          intro hmem
          rcases List.mem_cons.mp hmem with heq | hmem
          · rw [← heq] at hp
            exact hp (position_lt i)
          · exact hm hmem

/-- The points of a rectangle. -/
def rectangle (x y width height : ℕ) : List (ℕ × ℕ) :=
  (List.range height).flatMap fun j => (List.range width).map fun i => (x + i, y + j)

theorem mem_rectangle {x y width height : ℕ} {p : ℕ × ℕ} : p ∈ rectangle x y width height ↔
    (x ≤ p.1 ∧ p.1 < x + width) ∧ y ≤ p.2 ∧ p.2 < y + height := by
  unfold rectangle
  simp only [List.mem_flatMap, List.mem_range, List.mem_map]
  constructor
  · rintro ⟨j, hj, i, hi, rfl⟩
    dsimp only
    omega
  · rintro ⟨⟨hx, hx'⟩, hy, hy'⟩
    refine ⟨p.2 - y, by omega, p.1 - x, by omega, Prod.ext ?_ ?_⟩
    · show x + (p.1 - x) = p.1
      omega
    · show y + (p.2 - y) = p.2
      omega

/-! ### Windows -/

/-- The elements of an image from `first` up to `last`, without it. -/
def slice (image : Fin n → α) (first last : ℕ) : List α :=
  ((List.ofFn image).drop first).take (last - first)

theorem getElem?_slice {image : Fin n → α} {first last i : ℕ} (hi : first + i < last)
    (hlt : first + i < n) : (slice image first last)[i]? = some (image ⟨first + i, hlt⟩) := by
  rw [slice, List.getElem?_take_of_lt (by omega), List.getElem?_drop, List.getElem?_ofFn, dif_pos hlt]

/-- Write a stream of colours to the window between two corners, row by row. -/
def setPixels (sx sy ex ey : ℕ) (colors : List α) (memory : ℕ × ℕ → α) : ℕ × ℕ → α := fun p =>
  if (sx ≤ p.1 ∧ p.1 ≤ ex) ∧ sy ≤ p.2 ∧ p.2 ≤ ey then
    (colors[(p.2 - sy) * (ex - sx + 1) + (p.1 - sx)]?).getD (memory p)
  else memory p

/-- **Whole rows of an image** go to the same columns, and to rows shifted by the offset. -/
theorem setPixels_slice (first last offset : ℕ) {x y : ℕ} (image : Fin (w * h) → α)
    (memory : ℕ × ℕ → α) (hx : x < w) (hy : y < h) :
    setPixels 0 (first + offset) (w - 1) (last + offset) (slice image (first * w) ((last + 1) * w))
      memory (x, y + offset) =
        if first ≤ y ∧ y ≤ last then image ⟨index w (x, y), index_lt hx hy⟩ else memory (x, y + offset) := by
  have hwidth : w - 1 - 0 + 1 = w := by omega
  unfold setPixels
  dsimp only
  by_cases hrows : first ≤ y ∧ y ≤ last
  · have hindex : index w (x, y) = first * w + ((y + offset - (first + offset)) * w + (x - 0)) := by
      obtain ⟨d, rfl⟩ := Nat.exists_eq_add_of_le hrows.1
      have hd : first + d + offset - (first + offset) = d := by omega
      rw [hd, Nat.sub_zero]
      show (first + d) * w + x = _
      rw [Nat.add_mul, Nat.add_assoc]
    have hlast : index w (x, y) < (last + 1) * w := by
      rw [Nat.mul_comm]
      exact index_lt hx (Nat.lt_succ_of_le hrows.2)
    rw [if_pos ⟨⟨Nat.zero_le _, by omega⟩, by omega, by omega⟩, if_pos hrows, hwidth,
      getElem?_slice (hindex ▸ hlast) (hindex ▸ index_lt hx hy), Option.getD_some]
    congr 1
    exact Fin.ext hindex.symm
  · rw [if_neg (by omega), if_neg hrows]

end Raster
