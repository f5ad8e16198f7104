import Mathlib.Data.List.Basic
import Mathlib.Tactic.Common

/-!
# Bytes of text

`encode` is the UTF-8 encoding of characters as a list of bytes, `decode` reads such a list back and fails on
anything else.  A character of which only some bytes are left cannot be read, whatever stands before it
(`decode_part`), so a text that is cut can be read only if the cut is between two characters (`decode_take`).
-/

namespace Utf8

variable {l : List Char} {c : Char} {b : UInt8} {bytes : List UInt8}

/-- The bytes of a text. -/
def encode (l : List Char) : List UInt8 := l.flatMap String.utf8EncodeChar

/-- The text of some bytes, if they are UTF-8. -/
def decode (bytes : List UInt8) : Option (List Char) :=
  (String.fromUTF8? bytes.toByteArray).map String.toList

theorem encode_append (l l' : List Char) : encode (l ++ l') = encode l ++ encode l' :=
  List.flatMap_append

theorem encode_singleton (c : Char) : encode [c] = String.utf8EncodeChar c :=
  List.flatMap_singleton _ c

theorem length_encode_append (l l' : List Char) :
    (encode (l ++ l')).length = (encode l).length + (encode l').length := by
  rw [encode_append, List.length_append]

theorem decode_encode (l : List Char) : decode (encode l) = some l := by
  have hvalid : (encode l).toByteArray.IsValidUTF8 := ByteArray.isValidUTF8_utf8Encode (l := l)
  rw [decode, String.fromUTF8?, dif_pos hvalid, Option.map_some]
  exact congrArg some String.toList_ofList

/-- What stands before the bytes of a text can be read if the rest can. -/
theorem isValidUTF8_encode_append :
    (encode l ++ bytes).toByteArray.IsValidUTF8 ↔ bytes.toByteArray.IsValidUTF8 := by
  induction l with
  | nil => rfl
  | cons c l ih =>
      have hcons : (encode (c :: l) ++ bytes).toByteArray =
          [c].utf8Encode ++ (encode l ++ bytes).toByteArray := by
        rw [List.utf8Encode_singleton, ← List.toByteArray_append, ← List.append_assoc]
        rfl
      rw [hcons, ByteArray.isValidUTF8_utf8Encode_singleton_append_iff, ih]

theorem or_ge (a b : UInt8) : b ≤ a ||| b := by
  rw [UInt8.le_iff_toNat_le, UInt8.toNat_or]
  exact Nat.right_le_or

/-- The bytes of a character that takes more than one are not ASCII. -/
theorem le_of_mem_utf8EncodeChar (hc : c.utf8Size ≠ 1) (hb : b ∈ String.utf8EncodeChar c) : 0x80 ≤ b := by
  have hor : ∀ a d : UInt8, 0x80 ≤ d → 0x80 ≤ a ||| d := fun a d hd => UInt8.le_trans hd (or_ge a d)
  rcases c.utf8Size_eq with h | h | h | h
  · exact absurd h hc
  · rw [String.utf8EncodeChar_eq_cons_cons h] at hb
    simp only [List.mem_cons, List.not_mem_nil, or_false] at hb
    rcases hb with rfl | rfl <;> exact hor _ _ (by decide)
  · rw [String.utf8EncodeChar_eq_cons_cons_cons h] at hb
    simp only [List.mem_cons, List.not_mem_nil, or_false] at hb
    rcases hb with rfl | rfl | rfl <;> exact hor _ _ (by decide)
  · rw [String.utf8EncodeChar_eq_cons_cons_cons_cons h] at hb
    simp only [List.mem_cons, List.not_mem_nil, or_false] at hb
    rcases hb with rfl | rfl | rfl | rfl <;> exact hor _ _ (by decide)

/-- No character begins another one. -/
theorem not_proper_part {part rest : List UInt8} {d : Char} (hpart : part <+: String.utf8EncodeChar c)
    (hlt : part.length < c.utf8Size) (hd : part = String.utf8EncodeChar d ++ rest) : False := by
  obtain ⟨rest', hrest⟩ := hpart
  -- both begin with a character that can be decoded
  have hc : (String.utf8EncodeChar c).toByteArray.utf8DecodeChar? 0 = some c := by
    have happ := ByteArray.utf8DecodeChar?_utf8EncodeChar_append (b := ByteArray.empty) (c := c)
    rwa [ByteArray.append_empty] at happ
  rw [← hrest, hd, List.append_assoc, List.toByteArray_append,
    ByteArray.utf8DecodeChar?_utf8EncodeChar_append] at hc
  cases hc
  have hlen := congrArg List.length hd
  rw [List.length_append, String.length_utf8EncodeChar] at hlen
  omega

/-- **A part of a character cannot be read**, alone or before ASCII bytes. -/
theorem decode_part_append {part tail : List UInt8} (l : List Char) (hpart : part <+: String.utf8EncodeChar c)
    (hne : part ≠ []) (hlt : part.length < c.utf8Size) (htail : ∀ b ∈ tail, b < 0x80) :
    decode (encode l ++ (part ++ tail)) = none := by
  have hinvalid : ¬(encode l ++ (part ++ tail)).toByteArray.IsValidUTF8 := by
    rw [isValidUTF8_encode_append]
    rintro ⟨chars, hchars⟩
    cases chars with
    | nil => exact hne (List.append_eq_nil_iff.mp (List.toByteArray_inj.mp hchars)).1
    | cons d chars =>
        have hd : part ++ tail = String.utf8EncodeChar d ++ encode chars := List.toByteArray_inj.mp hchars
        rcases List.append_eq_append_iff.mp hd with ⟨rest, hrest, htl⟩ | ⟨rest, hrest, -⟩
        · -- the first character goes on into the ASCII bytes, or ends with the part
          by_cases hnil : rest = []
          · rw [hnil, List.append_nil] at hrest
            have hwhole : part = String.utf8EncodeChar d ++ [] := by rw [List.append_nil, hrest]
            exact not_proper_part hpart hlt hwhole
          · have hsize : d.utf8Size ≠ 1 := by
              have hlen := congrArg List.length hrest
              rw [String.length_utf8EncodeChar, List.length_append] at hlen
              have hpos := List.length_pos_iff.mpr hne
              have hpos' := List.length_pos_iff.mpr hnil
              omega
            obtain ⟨b, hb⟩ := List.exists_mem_of_ne_nil rest hnil
            have hhigh := le_of_mem_utf8EncodeChar hsize (hrest ▸ List.mem_append_right part hb)
            exact absurd (htail b (htl ▸ List.mem_append_left _ hb)) (UInt8.not_lt.mpr hhigh)
        · exact not_proper_part hpart hlt hrest
  rw [decode, String.fromUTF8?, dif_neg hinvalid, Option.map_none]

theorem decode_part {part : List UInt8} (l : List Char) (hpart : part <+: String.utf8EncodeChar c)
    (hne : part ≠ []) (hlt : part.length < c.utf8Size) : decode (encode l ++ part) = none := by
  have h : decode (encode l ++ (part ++ [])) = none := decode_part_append l hpart hne hlt (by simp)
  rwa [List.append_nil] at h

/-- What can be read is what was written. -/
theorem decode_eq_some {l : List Char} (h : decode bytes = some l) : bytes = encode l := by
  rw [decode, String.fromUTF8?] at h
  split_ifs at h with hvalid
  · cases h
    have hbytes : (String.ofList (String.fromUTF8 bytes.toByteArray hvalid).toList).toByteArray =
        (encode (String.fromUTF8 bytes.toByteArray hvalid).toList).toByteArray := rfl
    rw [String.ofList_toList] at hbytes
    exact List.toByteArray_inj.mp hbytes
  · cases h

/-! ### A text cut to a number of bytes -/

/-- The characters whose bytes fit into `n`. -/
def fitting : ℕ → List Char → List Char
  | _, [] => []
  | n, c :: l => if c.utf8Size ≤ n then c :: fitting (n - c.utf8Size) l else []

/-- The first bytes of a text are those of the characters that fit, and a part of the next one. -/
theorem take_encode (n : ℕ) (l : List Char) : ∃ part, (encode l).take n = encode (fitting n l) ++ part ∧
    (part ≠ [] → ∃ c, part <+: String.utf8EncodeChar c ∧ part.length < c.utf8Size) := by
  induction l generalizing n with
  | nil => exact ⟨[], List.take_nil, fun h => absurd rfl h⟩
  | cons c l ih =>
      have hcons : encode (c :: l) = String.utf8EncodeChar c ++ encode l := List.flatMap_cons
      have hlen := String.length_utf8EncodeChar c
      rw [hcons, fitting]
      split_ifs with hfits
      · obtain ⟨part, htake, hpart⟩ := ih (n - c.utf8Size)
        refine ⟨part, ?_, hpart⟩
        rw [List.take_append, List.take_of_length_le (by omega), hlen, htake, ← List.append_assoc]
        rfl
      · refine ⟨(String.utf8EncodeChar c).take n, ?_, fun _ => ⟨c, List.take_prefix _ _, ?_⟩⟩
        · rw [List.take_append_of_le_length (by omega)]
          rfl
        · rw [List.length_take]
          omega

/-- **A text that is cut** can be read if the cut is between two characters, also before ASCII bytes. -/
theorem decode_take (n : ℕ) (l tail : List Char) (htail : ∀ c ∈ tail, c.utf8Size = 1) :
    decode ((encode l).take n ++ encode tail) =
      if (encode (fitting n l)).length = min n (encode l).length then some (fitting n l ++ tail)
      else none := by
  obtain ⟨part, htake, hpart⟩ := take_encode n l
  have hlen := congrArg List.length htake
  rw [List.length_take, List.length_append] at hlen
  rw [htake, List.append_assoc]
  by_cases hnil : part = []
  · rw [hnil, List.length_nil] at hlen
    rw [if_pos (by omega), hnil, List.nil_append, ← encode_append, decode_encode]
  · obtain ⟨c, hprefix, hlt⟩ := hpart hnil
    have hpos := List.length_pos_iff.mpr hnil
    rw [if_neg (by omega)]
    refine decode_part_append _ hprefix hnil hlt fun b hb => ?_
    obtain ⟨d, hd, hb⟩ := List.mem_flatMap.mp hb
    rw [String.utf8EncodeChar_eq_singleton (htail d hd), List.mem_singleton] at hb
    have hval := Char.utf8Size_eq_one_iff.mp (htail d hd)
    rw [hb, UInt8.lt_iff_toNat_lt, UInt32.toNat_toUInt8]
    exact Nat.lt_of_le_of_lt (Nat.mod_le _ _) (Nat.lt_succ_of_le (UInt32.le_iff_toNat_le.mp hval))

/-- ASCII bytes are text. -/
theorem isValidUTF8_of_ascii (h : ∀ b ∈ bytes, b < 0x80) : bytes.toByteArray.IsValidUTF8 := by
  induction bytes with
  | nil => exact ByteArray.isValidUTF8_empty
  | cons b bytes ih =>
      rw [List.forall_mem_cons] at h
      have hb := UInt8.lt_iff_toNat_lt.mp h.1
      have hsize : (Char.ofUInt8 b).utf8Size = 1 := by
        rw [Char.utf8Size_eq_one_iff, UInt32.le_iff_toNat_le]
        exact Nat.le_of_lt_succ hb
      have hchar : String.utf8EncodeChar (Char.ofUInt8 b) = [b] := by
        rw [String.utf8EncodeChar_eq_singleton hsize]
        exact congrArg (fun d => [d]) (UInt8.toUInt8_toUInt32 b)
      rw [← List.singleton_append, List.toByteArray_append, ← hchar]
      exact Char.isValidUTF8_toByteArray_utf8EncodeChar.append (ih h.2)

end Utf8
