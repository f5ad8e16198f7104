import MosKernel.Lib.Utf8
import Mathlib.Data.List.Infix
import Mathlib.Data.List.Induction
import Mathlib.Logic.Function.Basic

/-!
# The line editor of the shell

`LineEditor` of `shell.rs` collects bytes up to a newline and passes the line to `parse_and_run` if it is
UTF-8.  A backspace takes one byte off the line, so a character of several bytes is left in part, and the line
is no longer UTF-8.

`edited` is what the typist has left on the line.  `ErasesAscii` says that no backspace meets a character of
several bytes.
-/

namespace MosKernel

open Utf8

abbrev shellBufSize : ℕ := 32

theorem shellBufSize_pos : 0 < shellBufSize := by decide

/-- `char::is_whitespace`: the property `White_Space` of Unicode. -/
def isWhitespace (c : Char) : Bool :=
  decide (0x09 ≤ c.toNat ∧ c.toNat ≤ 0x0D ∨ c.toNat = 0x20 ∨ c.toNat = 0x85 ∨ c.toNat = 0xA0 ∨
    c.toNat = 0x1680 ∨ 0x2000 ≤ c.toNat ∧ c.toNat ≤ 0x200A ∨ c.toNat = 0x2028 ∨ c.toNat = 0x2029 ∨
    c.toNat = 0x202F ∨ c.toNat = 0x205F ∨ c.toNat = 0x3000)

/-- `str::trim` -/
def trim (line : List Char) : List Char :=
  ((line.dropWhile isWhitespace).reverse.dropWhile isWhitespace).reverse

/-- `LineEditor`; the last byte of the buffer is never used. -/
structure LineEditor where
  buf : ℕ → UInt8
  len : ℕ
  len_lt : len < shellBufSize

namespace LineEditor

variable {e : LineEditor} {b : UInt8} {l : List UInt8}

/-- `LineEditor::new` -/
def new : LineEditor := ⟨fun _ => 0, 0, shellBufSize_pos⟩

/-- `&self.buf[..self.len]` -/
def line (e : LineEditor) : List UInt8 := (List.range e.len).map e.buf

/-- `LineEditor::feed`: the editor after a byte, and the line for `parse_and_run`, if it is complete. -/
def feed (e : LineEditor) (c : UInt8) : LineEditor × Option (List Char) :=
  if c = 0x0D ∨ c = 0x0A then
    (⟨e.buf, 0, shellBufSize_pos⟩, (decode e.line).map trim)
  else if c = 0x08 ∨ c = 0x7F then
    (⟨e.buf, e.len - 1, (Nat.sub_le _ _).trans_lt e.len_lt⟩, none)
  else if h : 0x20 ≤ c ∧ e.len < shellBufSize - 1 then
    (⟨Function.update e.buf e.len c, e.len + 1, Nat.add_lt_of_lt_sub h.2⟩, none)
  else (e, none)

/-- Feed bytes one by one, and collect the lines passed to `parse_and_run`. -/
def feedAll (e : LineEditor) : List UInt8 → LineEditor × List (List Char)
  | [] => (e, [])
  | c :: cs =>
    let rest := (e.feed c).1.feedAll cs
    (rest.1, (e.feed c).2.toList ++ rest.2)

theorem length_line (e : LineEditor) : e.line.length = e.len := by
  rw [line, List.length_map, List.length_range]

theorem feedAll_append (e : LineEditor) (cs ds : List UInt8) : e.feedAll (cs ++ ds) =
    (((e.feedAll cs).1.feedAll ds).1, (e.feedAll cs).2 ++ ((e.feedAll cs).1.feedAll ds).2) := by
  induction cs generalizing e with
  | nil => rfl
  | cons c cs ih =>
      rw [List.cons_append, feedAll, feedAll, ih]
      simp only [List.append_assoc]

/-- A byte that is not a control byte goes to the end of the line, if there is room. -/
theorem feed_printable (hb : 0x20 ≤ b) (hdel : b ≠ 0x7F) (hroom : e.len < shellBufSize - 1) :
    (e.feed b).1.line = e.line ++ [b] ∧ (e.feed b).2 = none := by
  have hne : ∀ d : UInt8, d < 0x20 → b ≠ d := fun d hd heq =>
    UInt8.not_le.mpr hd (heq ▸ hb)
  rw [feed, if_neg (not_or.mpr ⟨hne 0x0D (by decide), hne 0x0A (by decide)⟩),
    if_neg (not_or.mpr ⟨hne 0x08 (by decide), hdel⟩), dif_pos ⟨hb, hroom⟩]
  refine ⟨?_, rfl⟩
  have hold : ∀ i ∈ List.range e.len, Function.update e.buf e.len b i = e.buf i := by
    intro i hi
    exact Function.update_of_ne (List.mem_range.mp hi).ne _ _
  show (List.range (e.len + 1)).map (Function.update e.buf e.len b) = _
  rw [List.range_succ, List.map_append, List.map_congr_left hold, List.map_singleton,
    Function.update_self]
  rfl

/-- A backspace takes the last byte. -/
theorem feed_erase (hb : b = 0x08 ∨ b = 0x7F) :
    (e.feed b).1.line = e.line.dropLast ∧ (e.feed b).2 = none := by
  have hnl : ¬(b = 0x0D ∨ b = 0x0A) := by
    rcases hb with rfl | rfl <;> decide
  rw [feed, if_neg hnl, if_pos hb]
  refine ⟨?_, rfl⟩
  show (List.range (e.len - 1)).map e.buf = ((List.range e.len).map e.buf).dropLast
  rw [← List.map_dropLast]
  congr 1
  cases e.len with
  | zero => rfl
  | succ n => rw [List.range_succ, List.dropLast_concat, Nat.add_sub_cancel]

/-- A newline passes the line on if it is text, and clears it. -/
theorem feed_newline : (e.feed 0x0A).1.len = 0 ∧ (e.feed 0x0A).2 = (decode e.line).map trim := by
  rw [feed, if_pos (.inr rfl)]
  exact ⟨rfl, rfl⟩

end LineEditor

/-- What is typed: a character, or one of the two bytes that erase. -/
inductive Key
  | type (c : Char)
  | backspace
  | delete
  deriving DecidableEq

namespace Key

/-- The bytes of a key. -/
def bytes : Key → List UInt8
  | type c => String.utf8EncodeChar c
  | backspace => [0x08]
  | delete => [0x7F]

/-- The character can be typed into a line. -/
def Printable : Key → Prop
  | type c => 0x20 ≤ c.toNat ∧ c.toNat ≠ 0x7F
  | _ => True

instance : DecidablePred Printable
  | type c => inferInstanceAs (Decidable (0x20 ≤ c.toNat ∧ c.toNat ≠ 0x7F))
  | backspace => .isTrue trivial
  | delete => .isTrue trivial

def Erases : Key → Prop
  | type _ => False
  | _ => True

instance : DecidablePred Erases
  | type _ => .isFalse id
  | backspace => .isTrue trivial
  | delete => .isTrue trivial

/-- What a key does to the text of the line. -/
def edit (text : List Char) : Key → List Char
  | type c => text ++ [c]
  | _ => text.dropLast

end Key

namespace LineEditor

variable {e : LineEditor} {k : Key} {ks : List Key} {text : List Char}

/-- The bytes of all keys. -/
def typed (ks : List Key) : List UInt8 := ks.flatMap Key.bytes

/-- What the typist has left on the line. -/
def edited (ks : List Key) : List Char := ks.foldl Key.edit []

/-- A newline after the keys calls `parse_and_run` once, with the edited text, and leaves an empty line. -/
def Delivers (e : LineEditor) (ks : List Key) : Prop :=
  (e.feedAll (typed ks ++ [0x0A])).2 = [trim (edited ks)] ∧ (e.feedAll (typed ks ++ [0x0A])).1.len = 0

/-- The edited text is never longer than the line. -/
def Fits (ks : List Key) : Prop := ∀ p, p <+: ks → (encode (edited p)).length ≤ shellBufSize - 1

/-- Every backspace meets a character of one byte, or an empty line. -/
def ErasesAscii (ks : List Key) : Prop :=
  ∀ p k, p ++ [k] <+: ks → k.Erases → ∀ c, (edited p).getLast? = some c → c.utf8Size = 1

theorem typed_snoc (ks : List Key) (k : Key) : typed (ks ++ [k]) = typed ks ++ k.bytes := by
  rw [typed, List.flatMap_append, List.flatMap_singleton]
  rfl

theorem edited_snoc (ks : List Key) (k : Key) : edited (ks ++ [k]) = k.edit (edited ks) :=
  List.foldl_append

/-- The bytes of a printable character go to the end of the line. -/
theorem feedAll_printable {bs : List UInt8} (hb : ∀ b ∈ bs, 0x20 ≤ b ∧ b ≠ 0x7F)
    (hroom : e.len + bs.length ≤ shellBufSize - 1) :
    (e.feedAll bs).1.line = e.line ++ bs ∧ (e.feedAll bs).2 = [] := by
  induction bs generalizing e with
  | nil => exact ⟨(List.append_nil _).symm, rfl⟩
  | cons b bs ih =>
      rw [List.forall_mem_cons] at hb
      rw [List.length_cons] at hroom
      obtain ⟨hline, hcall⟩ := feed_printable hb.1.1 hb.1.2 (e := e) (by omega)
      have hlen := congrArg List.length hline
      rw [length_line, List.length_append, length_line, List.length_singleton] at hlen
      obtain ⟨hline', hcalls⟩ := ih (e := (e.feed b).1) hb.2 (by omega)
      rw [feedAll, hcall]
      refine ⟨?_, hcalls⟩
      show ((e.feed b).1.feedAll bs).1.line = _
      rw [hline', hline, List.append_assoc]
      rfl

/-- The bytes of a printable character are neither control bytes nor a delete. -/
theorem printable_bytes {c : Char} (hc : (Key.type c).Printable) :
    ∀ b ∈ String.utf8EncodeChar c, 0x20 ≤ b ∧ b ≠ 0x7F := by
  intro b hb
  by_cases hsize : c.utf8Size = 1
  · rw [String.utf8EncodeChar_eq_singleton hsize, List.mem_singleton] at hb
    have hval := UInt32.le_iff_toNat_le.mp (Char.utf8Size_eq_one_iff.mp hsize)
    have hnat : b.toNat = c.toNat := by
      rw [hb, UInt32.toNat_toUInt8]
      exact Nat.mod_eq_of_lt (lt_of_le_of_lt hval (by decide))
    refine ⟨?_, fun hdel => hc.2 ?_⟩
    · rw [UInt8.le_iff_toNat_le, hnat]
      exact hc.1
    · rw [← hnat, hdel]
      rfl
  · have hhigh := le_of_mem_utf8EncodeChar hsize hb
    refine ⟨UInt8.le_trans (by decide) hhigh, ?_⟩
    rintro rfl
    exact absurd hhigh (by decide)

/-- An erasing key takes the last byte of the line. -/
theorem feedAll_erase (hk : k.Erases) :
    (e.feedAll k.bytes).1.line = e.line.dropLast ∧ (e.feedAll k.bytes).2 = [] := by
  cases k with
  | type c => exact hk.elim
  | backspace =>
      obtain ⟨hline, hcall⟩ := feed_erase (e := e) (.inl rfl : (0x08 : UInt8) = 0x08 ∨ _)
      refine ⟨hline, ?_⟩
      rw [Key.bytes, feedAll, hcall]
      rfl
  | delete =>
      obtain ⟨hline, hcall⟩ := feed_erase (e := e) (.inr rfl : (0x7F : UInt8) = 0x08 ∨ _)
      refine ⟨hline, ?_⟩
      rw [Key.bytes, feedAll, hcall]
      rfl

/-- After the keys the line holds the bytes of the edited text, and nothing has been passed on. -/
def Holds (e : LineEditor) (ks : List Key) : Prop :=
  (e.feedAll (typed ks)).1.line = encode (edited ks) ∧ (e.feedAll (typed ks)).2 = []

theorem holds_nil (he : e.len = 0) : e.Holds [] :=
  ⟨List.length_eq_zero_iff.mp ((length_line e).trans he), rfl⟩

/-- The line after one more key. -/
theorem feedAll_typed_snoc (h : e.Holds ks) :
    (e.feedAll (typed (ks ++ [k]))).1.line = ((e.feedAll (typed ks)).1.feedAll k.bytes).1.line ∧
      (e.feedAll (typed (ks ++ [k]))).2 = ((e.feedAll (typed ks)).1.feedAll k.bytes).2 := by
  rw [typed_snoc, feedAll_append, h.2]
  exact ⟨rfl, List.nil_append _⟩

/-- What a newline does then. -/
theorem delivers_iff (hcalls : (e.feedAll (typed ks)).2 = []) : e.Delivers ks ↔
    (decode (e.feedAll (typed ks)).1.line).map trim = some (trim (edited ks)) := by
  obtain ⟨hlen, hcall⟩ := feed_newline (e := (e.feedAll (typed ks)).1)
  have hcalls' : (e.feedAll (typed ks ++ [0x0A])).2 =
      ((decode (e.feedAll (typed ks)).1.line).map trim).toList := by
    rw [feedAll_append, hcalls, feedAll, feedAll, hcall, List.nil_append, List.append_nil]
  have hlen' : (e.feedAll (typed ks ++ [0x0A])).1.len = 0 := by
    rw [feedAll_append]
    exact hlen
  rw [Delivers, hcalls', and_iff_left hlen']
  cases (decode (e.feedAll (typed ks)).1.line).map trim with
  | none => simp
  | some line => simp

theorem Holds.delivers (h : e.Holds ks) : e.Delivers ks := by
  rw [delivers_iff h.2, h.1, decode_encode]
  rfl

theorem dropLast_encode_snoc (text : List Char) (c : Char) :
    (encode (text ++ [c])).dropLast = encode text ++ (String.utf8EncodeChar c).dropLast := by
  rw [encode_append, encode_singleton, List.dropLast_append_of_ne_nil String.utf8EncodeChar_ne_nil]

/-- **One more key**, if it is not a backspace on a character of several bytes. -/
theorem Holds.snoc (h : e.Holds ks) (hk : k.Printable)
    (hfits : (encode (edited (ks ++ [k]))).length ≤ shellBufSize - 1)
    (hascii : k.Erases → ∀ c, (edited ks).getLast? = some c → c.utf8Size = 1) : e.Holds (ks ++ [k]) := by
  obtain ⟨hline, hcalls⟩ := feedAll_typed_snoc (k := k) h
  rw [edited_snoc] at hfits
  rw [Holds, hline, hcalls, edited_snoc]
  have hlen := congrArg List.length h.1
  rw [length_line] at hlen
  have herase : k.Erases → k.edit (edited ks) = (edited ks).dropLast →
      ((e.feedAll (typed ks)).1.feedAll k.bytes).1.line = encode (k.edit (edited ks)) ∧
        ((e.feedAll (typed ks)).1.feedAll k.bytes).2 = [] := by
    intro hk' hedit
    obtain ⟨hline', hcalls'⟩ := feedAll_erase (e := (e.feedAll (typed ks)).1) hk'
    refine ⟨?_, hcalls'⟩
    rw [hline', h.1, hedit]
    rcases List.eq_nil_or_concat' (edited ks) with hnil | ⟨text, c, heq⟩
    · rw [hnil]
      rfl
    · have hsize := hascii hk' c (by rw [heq, List.getLast?_concat])
      rw [heq, dropLast_encode_snoc, List.dropLast_concat, String.utf8EncodeChar_eq_singleton hsize]
      exact List.append_nil _
  cases k with
  | type c =>
      rw [Key.edit, length_encode_append, encode_singleton] at hfits
      rw [Key.edit, encode_append, encode_singleton, ← h.1]
      exact feedAll_printable (printable_bytes hk) (by rw [hlen]; exact hfits)
  | backspace => exact herase trivial rfl
  | delete => exact herase trivial rfl

/-- A backspace on a character of several bytes leaves a line that is not text. -/
theorem Holds.not_delivers {c : Char} (h : e.Holds ks) (hk : k.Erases)
    (hc : (edited ks).getLast? = some c) (hsize : c.utf8Size ≠ 1) : ¬e.Delivers (ks ++ [k]) := by
  obtain ⟨hline, hcalls⟩ := feedAll_typed_snoc (k := k) h
  obtain ⟨hline', hcalls'⟩ := feedAll_erase (e := (e.feedAll (typed ks)).1) hk
  obtain ⟨text, heq⟩ := List.getLast?_eq_some_iff.mp hc
  have hpart : decode (e.feedAll (typed (ks ++ [k]))).1.line = none := by
    have hlen := String.length_utf8EncodeChar c
    have hpos := c.utf8Size_pos
    have hdrop : (String.utf8EncodeChar c).dropLast.length = (String.utf8EncodeChar c).length - 1 :=
      List.length_dropLast
    rw [hline, hline', h.1, heq, dropLast_encode_snoc]
    refine decode_part text (List.dropLast_prefix _) (fun hnil => ?_) (by omega)
    rw [hnil, List.length_nil] at hdrop
    omega
  rw [delivers_iff (hcalls.trans hcalls'), hpart]
  simp

theorem Fits.of_prefix {p : List Key} (h : Fits ks) (hp : p <+: ks) : Fits p :=
  fun _ hq => h _ (hq.trans hp)

theorem ErasesAscii.of_prefix {p : List Key} (h : ErasesAscii ks) (hp : p <+: ks) : ErasesAscii p :=
  fun q k hq => h q k (hq.trans hp)

theorem ErasesAscii.holds (hascii : ErasesAscii ks) (he : e.len = 0) (hks : ∀ k ∈ ks, k.Printable)
    (hfits : Fits ks) : e.Holds ks := by
  induction ks using List.reverseRecOn with
  | nil => exact holds_nil he
  | append_singleton ks k ih =>
      have hpre : ks <+: ks ++ [k] := List.prefix_append _ _
      have hinit : e.Holds ks := ih (hascii.of_prefix hpre)
        (fun k hk => hks k (List.mem_append_left _ hk)) (hfits.of_prefix hpre)
      exact hinit.snoc (hks k (List.mem_append_right _ (List.mem_singleton_self k)))
        (hfits _ (List.prefix_refl _)) (hascii ks k (List.prefix_refl _))

/-- **When the line editor delivers what was typed.**  Take any keys, complete characters and backspaces,
whose edited text always fits, typed into an editor with an empty line.  After every first part of them a
newline calls `parse_and_run` once, with the edited text, and leaves an empty line, exactly when no backspace
meets a character of several bytes. -/
theorem typed_lines_are_delivered (he : e.len = 0) (hks : ∀ k ∈ ks, k.Printable) (hfits : Fits ks) :
    (∀ p, p <+: ks → e.Delivers p) ↔ ErasesAscii ks := by
  constructor
  · intro hdelivers
    induction ks using List.reverseRecOn with
    | nil =>
        intro p k hp
        exact absurd (List.prefix_nil.mp hp) (List.concat_ne_nil k p)
    | append_singleton ks k ih =>
        have hpre : ks <+: ks ++ [k] := List.prefix_append _ _
        have hks' : ∀ k ∈ ks, k.Printable := fun k hk => hks k (List.mem_append_left _ hk)
        have hascii : ErasesAscii ks :=
          ih hks' (hfits.of_prefix hpre) fun p hp => hdelivers p (hp.trans hpre)
        intro p k' hp hk' c hc
        rcases List.prefix_concat_iff.mp hp with heq | hp
        · -- the last key: a newline right after it would find a part of a character
          obtain ⟨rfl, hkk⟩ := List.append_inj' heq rfl
          cases hkk
          by_contra hsize
          exact (hascii.holds he hks' (hfits.of_prefix hpre)).not_delivers hk' hc hsize
            (hdelivers _ (List.prefix_refl _))
        · exact hascii p k' hp hk' c hc
  · intro hascii p hp
    exact ((hascii.of_prefix hp).holds he (fun k hk => hks k (hp.subset hk)) (hfits.of_prefix hp)).delivers

/-- The two conditions on all first parts of the keys, read off the list of them. -/
theorem fits_of_inits (h : ∀ p ∈ ks.inits, (encode (edited p)).length ≤ shellBufSize - 1) : Fits ks :=
  fun p hp => h p ((List.mem_inits p ks).mpr hp)

theorem erasesAscii_of_inits (h : ∀ p ∈ ks.inits, p.getLast?.any (fun k => decide k.Erases) = true →
    (edited p.dropLast).getLast?.all (fun c => c.utf8Size == 1) = true) : ErasesAscii ks := by
  intro p k hp hk c hc
  have hlast := h (p ++ [k]) ((List.mem_inits _ ks).mpr hp)
  rw [List.getLast?_concat, List.dropLast_concat, hc] at hlast
  exact beq_iff_eq.mp (hlast (decide_eq_true hk))

/-- A typing error, corrected, before an accent. -/
theorem typed_lines_are_delivered_run :
    new.Delivers [.type 'l', .type 'x', .backspace, .type 's', .type ' ', .type 'é'] := by
  have hfits : Fits [.type 'l', .type 'x', .backspace, .type 's', .type ' ', .type 'é'] :=
    fits_of_inits (by decide +kernel)
  have hascii : ErasesAscii [.type 'l', .type 'x', .backspace, .type 's', .type ' ', .type 'é'] :=
    erasesAscii_of_inits (by decide +kernel)
  exact (typed_lines_are_delivered rfl (by decide +kernel) hfits).mpr hascii _ (List.prefix_refl _)

/-- One backspace on an accent, and the line is lost. -/
theorem backspace_loses_a_line :
    (∀ k ∈ [Key.type 'l', .type 's', .type 'é', .backspace], k.Printable) ∧
      Fits [.type 'l', .type 's', .type 'é', .backspace] ∧
      ¬new.Delivers [.type 'l', .type 's', .type 'é', .backspace] := by
  have hascii : ErasesAscii [.type 'l', .type 's', .type 'é'] := erasesAscii_of_inits (by decide +kernel)
  have hholds : new.Holds [.type 'l', .type 's', .type 'é'] :=
    hascii.holds rfl (by decide +kernel) (fits_of_inits (by decide +kernel))
  refine ⟨by decide +kernel, fits_of_inits (by decide +kernel), ?_⟩
  exact hholds.not_delivers trivial rfl (by decide : 'é'.utf8Size ≠ 1)

end LineEditor

end MosKernel
