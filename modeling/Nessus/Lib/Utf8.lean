import Mathlib.Data.List.Basic
import Mathlib.Data.Nat.Notation

/-!
# UTF-8

The bytes of a text, and bytes as the characters of a program that has no other.

* `utf8` — the bytes;
* `utf8_cons_of_lt`, `le_of_mem_utf8EncodeChar` — an ASCII character is one byte, and no byte of another is ASCII;
* `utf8_inj` — **texts with the same bytes are the same**.
-/

namespace Nessus.Lib

def utf8 (t : List Char) : List UInt8 := t.flatMap String.utf8EncodeChar

/-- The character with the code of a byte. -/
def charOf (b : UInt8) : Char := Char.ofNat b.toNat

/-- The byte of an ASCII character. -/
def byteOf (c : Char) : UInt8 := .ofNat c.toNat

section Utf8

variable {c : Char} {b : UInt8} {s t : List Char}

theorem toNat_charOf (b : UInt8) : (charOf b).toNat = b.toNat := by
  have hb : b.toNat < 2 ^ 8 := b.toNat_lt
  have hv : b.toNat.isValidChar := .inl (by omega)
  show (if h : b.toNat.isValidChar then Char.ofNatAux b.toNat h else _).toNat = _
  rw [dif_pos hv]
  rfl

/-- A byte of a character that is not ASCII is no ASCII character. -/
theorem charOf_ne (hb : 128 ≤ b.toNat) (hc : c.toNat < 128) : charOf b ≠ c := by
  rintro rfl
  rw [toNat_charOf] at hc
  omega

@[simp] theorem utf8_nil : utf8 [] = [] := rfl

theorem utf8_cons (c : Char) (t : List Char) : utf8 (c :: t) = String.utf8EncodeChar c ++ utf8 t := rfl

@[simp] theorem utf8_append (s t : List Char) : utf8 (s ++ t) = utf8 s ++ utf8 t := List.flatMap_append

theorem utf8EncodeChar_of_lt (h : c.toNat < 128) : String.utf8EncodeChar c = [byteOf c] := by
  have h : c.val.toNat < 128 := h
  rw [String.utf8EncodeChar, if_pos (by omega)]
  rfl

theorem utf8_cons_of_lt (h : c.toNat < 128) (t : List Char) : utf8 (c :: t) = byteOf c :: utf8 t := by
  rw [utf8_cons, utf8EncodeChar_of_lt h]
  rfl

theorem charOf_byteOf (h : c.toNat < 128) : charOf (byteOf c) = c := by
  rw [charOf, byteOf, UInt8.toNat_ofNat_of_lt' (by simp only [UInt8.size]; omega), Char.ofNat_toNat]

/-- No byte of a character that is not ASCII is ASCII. -/
theorem le_of_mem_utf8EncodeChar (h : 128 ≤ c.toNat) (hb : b ∈ String.utf8EncodeChar c) : 128 ≤ b.toNat := by
  have h : 128 ≤ c.val.toNat := h
  rw [String.utf8EncodeChar, if_neg (by omega)] at hb
  split_ifs at hb
  all_goals
    simp only [List.mem_cons, List.not_mem_nil, or_false] at hb
    rcases hb with rfl | rfl | rfl | rfl <;> rw [UInt8.toNat_ofNat'] <;> omega

theorem length_utf8EncodeChar_le (c : Char) : (String.utf8EncodeChar c).length ≤ 4 := by
  rw [String.utf8EncodeChar]
  split_ifs <;> simp only [List.length_cons, List.length_nil] <;> omega

theorem length_le_utf8 (t : List Char) : t.length ≤ (utf8 t).length := by
  induction t with
  | nil => exact Nat.le_refl _
  | cons c t ih =>
    rw [utf8_cons, List.length_append, List.length_cons, String.length_utf8EncodeChar]
    have := c.utf8Size_pos
    omega

/-- **Texts with the same bytes are the same.** -/
theorem utf8_inj : utf8 s = utf8 t ↔ s = t := by
  refine ⟨fun h => ?_, fun h => congrArg utf8 h⟩
  have hbytes : s.utf8Encode = t.utf8Encode := congrArg List.toByteArray h
  rw [← String.toByteArray_ofList, ← String.toByteArray_ofList] at hbytes
  have := congrArg String.toList (String.toByteArray_inj.1 hbytes)
  rwa [String.toList_ofList, String.toList_ofList] at this

end Utf8

end Nessus.Lib
