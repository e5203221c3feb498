import Mathlib.Algebra.Group.Nat.Defs
import Mathlib.Data.Nat.Notation
import Mathlib.Logic.Function.Basic
import Mathlib.Tactic.Cases
import Nessus.Lib.ByteOrder
import Nessus.Lib.Words

/-!
# GUIDs

`guid`, and `meta::to_array`: the bytes of a number, most significant first, which determine the number
(`toArrayBigEndian_inj`, `toArray_injective`); the text of a `guid`, and the `guid` that a text is read as.
-/

namespace Nessus.Abi

open Nessus.Lib

structure Guid where
  data1 : UInt32
  data2 : UInt16
  data3 : UInt16
  data4 : Vector UInt8 8
  deriving DecidableEq, Repr

/-- The GUID of `unknown_object`, `00000000-0000-0000-C000-000000000046`. -/
def Guid.unknownObject : Guid := ⟨0, 0, 0, #v[0xC0, 0, 0, 0, 0, 0, 0, 0x46]⟩

/-! ## Bytes -/

/-- `meta::make_number`, big-endian. -/
def makeNumberBigEndian (data : List UInt8) : ℕ := data.foldl (fun n b => n * 256 + b.toNat) 0

/-- `meta::to_array` of a number of `size` bytes, big-endian. -/
def toArrayBigEndian : ℕ → ℕ → List UInt8
  | 0, _ => []
  | size + 1, number => UInt8.ofNat (number / 256 ^ size) :: toArrayBigEndian size number

@[simp] theorem length_toArrayBigEndian (size number : ℕ) : (toArrayBigEndian size number).length = size := by
  induction size with
  | zero => rfl
  | succ size ih => rw [toArrayBigEndian, List.length_cons, ih]

theorem toArrayBigEndian_eq (size number : ℕ) : toArrayBigEndian size number = (littleEndian size number).reverse := by
  induction size with
  | zero => rfl
  | succ size ih =>
    rw [littleEndian_succ, List.reverse_append, List.reverse_singleton, List.singleton_append, ← ih, toArrayBigEndian]

theorem makeNumberBigEndian_eq (data : List UInt8) : makeNumberBigEndian data = ofLittleEndian data.reverse := by
  induction data using List.reverseRecOn with
  | nil => rfl
  | append_singleton data byte ih =>
    rw [List.reverse_append, List.reverse_singleton, List.singleton_append, ofLittleEndian_cons, ← ih, makeNumberBigEndian,
      makeNumberBigEndian, List.foldl_append, List.foldl_cons, List.foldl_nil, Nat.mul_comm, Nat.add_comm]

theorem makeNumberBigEndian_toArrayBigEndian {size number : ℕ} (h : number < 256 ^ size) :
    makeNumberBigEndian (toArrayBigEndian size number) = number := by
  rw [makeNumberBigEndian_eq, toArrayBigEndian_eq, List.reverse_reverse, ofLittleEndian_littleEndian, Nat.mod_eq_of_lt h]

theorem toArrayBigEndian_inj {size m n : ℕ} (hm : m < 256 ^ size) (hn : n < 256 ^ size)
    (h : toArrayBigEndian size m = toArrayBigEndian size n) : m = n := by
  have hnumber := congrArg makeNumberBigEndian h
  rwa [makeNumberBigEndian_toArrayBigEndian hm, makeNumberBigEndian_toArrayBigEndian hn] at hnumber

/-- `meta::to_array` of a `std::size_t`, big-endian. -/
def toArray (number : UInt64) : Vector UInt8 8 :=
  #v[(number >>> 56).toUInt8, (number >>> 48).toUInt8, (number >>> 40).toUInt8, (number >>> 32).toUInt8,
    (number >>> 24).toUInt8, (number >>> 16).toUInt8, (number >>> 8).toUInt8, number.toUInt8]

/-- The number whose bytes these are. -/
def ofBytes (bytes : Vector UInt8 8) : ℕ :=
  bytes.toList.foldl (fun n b => n * 256 + b.toNat) 0

theorem toList_toArray (number : UInt64) : (toArray number).toList = toArrayBigEndian 8 number.toNat := by
  have hbyte (size : ℕ) (h : size < 8) :
      UInt8.ofNat (number.toNat / 256 ^ size) = (number >>> UInt64.ofNat (8 * size)).toUInt8 := by
    rw [← UInt8.toNat_inj, UInt64.toNat_toUInt8, UInt64.toNat_shiftRight, toNat_ofNat_mod (by omega), UInt8.toNat_ofNat',
      Nat.shiftRight_eq_div_pow, Nat.pow_mul]
  have hlast : number >>> UInt64.ofNat (8 * 0) = number := UInt64.shiftRight_zero
  simp (disch := omega) only [toArrayBigEndian, hbyte]
  rw [hlast]
  rfl

theorem ofBytes_toArray (n : UInt64) : ofBytes (toArray n) = n.toNat := by
  rw [ofBytes, toList_toArray]
  exact makeNumberBigEndian_toArrayBigEndian n.toNat_lt

theorem toArray_injective : Function.Injective toArray := by
  intro m n h
  have := congrArg ofBytes h
  rwa [ofBytes_toArray, ofBytes_toArray, UInt64.toNat_inj] at this

/-! ## Texts -/

def fromHexadecimalCharacter (character : Char) : Option ℕ :=
  if '0' ≤ character ∧ character ≤ '9' then some (character.toNat - '0'.toNat)
  else if 'A' ≤ character ∧ character ≤ 'F' then some (character.toNat - 'A'.toNat + 0xA)
  else if 'a' ≤ character ∧ character ≤ 'f' then some (character.toNat - 'a'.toNat + 0xA)
  else none

/-- The loop of `meta::to_number`: `size` bytes are read; a character that is no digit gives zero in all. -/
def readHex : ℕ → List Char → Option ℕ
  | 0, _ => some 0
  | size + 1, first :: second :: str =>
    match fromHexadecimalCharacter first, fromHexadecimalCharacter second, readHex size str with
    | some high, some low, some rest => some ((high * 16 + low) * 256 ^ size + rest)
    | _, _, _ => none
  | _ + 1, _ => none

/-- `meta::to_number` for a number of `size` bytes. -/
def toNumber (size : ℕ) (str : List Char) : ℕ :=
  if str.length / 2 < size then 0 else (readHex size str).getD 0

/-- `guid::guid(std::string_view)`: what is too short is the zero `guid`, and the characters between the numbers are
not looked at.  The source reads the bytes of the text, and so each character here stands for one byte. -/
def Guid.ofString (str : List Char) : Guid :=
  if str.length < 36 then ⟨0, 0, 0, Vector.replicate 8 0⟩
  else
    let number (offset size : ℕ) := toNumber size ((str.drop offset).take (2 * size))
    ⟨UInt32.ofNat (number 0 4), UInt16.ofNat (number 9 2), UInt16.ofNat (number 14 2),
      Vector.ofFn fun i => UInt8.ofNat (number (if i.val < 2 then 19 + 2 * i.val else 24 + 2 * (i.val - 2)) 1)⟩

/-- `hexadecimal_characters`. -/
def hexadecimalCharacter (n : ℕ) : Char :=
  ['0', '1', '2', '3', '4', '5', '6', '7', '8', '9', 'A', 'B', 'C', 'D', 'E', 'F'].getD n '0'

/-- `meta::to_char_array` of a number of `size` bytes. -/
def toCharArray : ℕ → ℕ → List Char
  | 0, _ => []
  | size + 1, number =>
    hexadecimalCharacter (number / 256 ^ size % 256 / 16) :: hexadecimalCharacter (number / 256 ^ size % 16) ::
      toCharArray size number

def Guid.toString (id : Guid) : String :=
  let data4 := id.data4.toList.map fun b => toCharArray 1 b.toNat
  String.ofList (toCharArray 4 id.data1.toNat ++ '-' :: toCharArray 2 id.data2.toNat ++ '-' ::
    toCharArray 2 id.data3.toNat ++ '-' :: (data4.take 2).flatten ++ '-' :: (data4.drop 2).flatten)

end Nessus.Abi
