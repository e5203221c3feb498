import Mathlib.Tactic.Ring
import Nessus.Abi.Sha3Sponge
import Nessus.Lib.ByteOrder
import Nessus.Lib.Words
import Nessus.Lib.Writes

/-!
# Numbers and bytes

`make_number`, `split_number`, `to_array` and `swap_endian`, for integral types of up to 64 bits.

* `Number` — an integral type; `toUintmax`, `ofUintmax` convert its values to the type in which bytes are moved, and back;
* `numberMoveBitsHelper` — by how many bits a byte is moved, in either order;
* `makeNumber`, `splitNumber`, `swapEndian` — the functions, where an index or a shift that is not in range is undefined.
-/

namespace Nessus.Meta

open Nessus.Lib Outcome

variable {ε : Type}

def byteBits : ℕ := 8

/-! ## Integral types -/

/-- `Number`: an integral type of `size` bytes. -/
structure Number where
  size : ℕ
  signed : Bool
  size_pos : 0 < size
  size_le : size ≤ 8
  deriving DecidableEq, Repr

namespace Number

abbrev Value (N : Number) : Type := BitVec (8 * N.size)

def toInt (N : Number) (number : N.Value) : ℤ := if N.signed then number.toInt else number.toNat

/-- `static_cast<std::uintmax_t>(number)`. -/
def toUintmax (N : Number) (number : N.Value) : BitVec 64 := BitVec.ofInt 64 (N.toInt number)

/-- `static_cast<Number>(bits)`. -/
def ofUintmax (N : Number) (bits : BitVec 64) : N.Value := BitVec.ofNat (8 * N.size) bits.toNat

/-- `std::int16_t`. -/
def int16 : Number := ⟨2, true, by decide, by decide⟩

/-- `std::uint32_t`. -/
def uint32 : Number := ⟨4, false, by decide, by decide⟩

/-- `std::uint64_t`. -/
def uint64 : Number := ⟨8, false, by decide, by decide⟩

end Number

/-! ## Functions -/

/-- `data[index]`. -/
def byteAt (data : List UInt8) (index : ℕ) : Outcome ε UInt8 :=
  if h : index < data.length then .ok (data.get ⟨index, h⟩) else .undefined

/-- `number_move_bits_helper`: the indexes with the bits, for the first `count` of them. -/
def numberMoveBitsHelper (N : Number) (count : ℕ) (bigEndian : Bool) : List (ℕ × ℤ) :=
  let totalBits := N.size * byteBits
  let maxMoveBits := totalBits - byteBits
  let baselineMoveBits : ℤ := if bigEndian then maxMoveBits else 0
  let sign : ℤ := if bigEndian then -1 else 1
  (List.range count).map fun index => (index, baselineMoveBits + sign * (index * byteBits : ℕ))

def makeNumber (N : Number) (data : Vector UInt8 N.size) (bigEndian : Bool) : Outcome ε N.Value :=
  (numberMoveBitsHelper N N.size bigEndian).mapM (fun part => byteAt data.toList part.1 >>= fun byte =>
    shiftLeft (byte.toBitVec.setWidth 64) part.2) >>= fun bits => .ok (N.ofUintmax bits.sum)

/-- `split_number`: the bytes that are given to the handler. -/
def splitNumber (N : Number) (number : N.Value) (bigEndian : Bool) (truncateSize : ℕ) : Outcome ε (List UInt8) :=
  (numberMoveBitsHelper N (min truncateSize N.size) bigEndian).mapM fun part =>
    shiftRight (N.toUintmax number) part.2 >>= fun bits => .ok ⟨(bits &&& 0xFF).setWidth 8⟩

/-- `std::array<T, size>{ items... }`: the rest is zero. -/
def arrayOf {α : Type} [Zero α] (size : ℕ) (items : List α) : Vector α size := Vector.ofFn fun i => items.getD i 0

def toArray (N : Number) (number : N.Value) (bigEndian : Bool) : Outcome ε (Vector UInt8 N.size) :=
  splitNumber N number bigEndian N.size >>= fun bytes => .ok (arrayOf N.size bytes)

/-- `((number >> source_offset) & 0xFF) << destination_offset`, in the type itself, or in `int` where it is promoted. -/
def moveByte {w : ℕ} (number : BitVec w) (sourceOffset destinationOffset : ℤ) : Outcome ε (BitVec w) :=
  if 32 ≤ w then shiftRight number sourceOffset >>= fun bits => shiftLeft (bits &&& 0xFF) destinationOffset
  else if 0 ≤ sourceOffset ∧ sourceOffset < 32 ∧ 0 ≤ destinationOffset ∧ destinationOffset < 32 then
    intNat ((number.toNat >>> sourceOffset.toNat &&& 0xFF) <<< destinationOffset.toNat) >>= fun byte =>
    .ok (BitVec.ofNat w byte)
  else .undefined

def swapEndian (N : Number) (number : N.Value) : Outcome ε N.Value :=
  let numericBits := 8 * N.size
  forTo N.size (fun i result =>
    let sourceOffset : ℤ := (byteBits * i : ℕ)
    let destinationOffset : ℤ := numericBits - sourceOffset - byteBits
    moveByte number sourceOffset destinationOffset >>= fun byte => .ok (result ||| byte)) 0

/-! ## What they compute -/

section Spec

variable (N : Number)

theorem two_pow_eq : 2 ^ (8 * N.size) = 256 ^ N.size := by rw [Nat.pow_mul]

theorem toNat_lt {N : Number} (number : N.Value) : number.toNat < 256 ^ N.size := two_pow_eq N ▸ number.isLt

theorem ofLittleEndian_bytes {N : Number} (number : N.Value) :
    BitVec.ofNat (8 * N.size) (ofLittleEndian (littleEndian N.size number.toNat)) = number := by
  rw [ofLittleEndian_littleEndian, Nat.mod_eq_of_lt (toNat_lt number), BitVec.ofNat_toNat, BitVec.setWidth_eq]

theorem bytes_ofLittleEndian {bytes : List UInt8} (hlen : bytes.length = N.size) :
    littleEndian N.size (BitVec.ofNat (8 * N.size) (ofLittleEndian bytes)).toNat = bytes := by
  have hlt := ofLittleEndian_lt bytes
  rw [hlen, ← two_pow_eq] at hlt
  rw [BitVec.toNat_ofNat, Nat.mod_eq_of_lt hlt, littleEndian_ofLittleEndian hlen]

theorem toInt_emod (number : N.Value) : N.toInt number % (256 ^ N.size : ℕ) = number.toNat := by
  have hlt : ((number.toNat : ℤ)) < (256 ^ N.size : ℕ) := by exact_mod_cast toNat_lt number
  rw [Number.toInt]
  split
  · rw [BitVec.toInt_eq_toNat_bmod, two_pow_eq, Int.bmod_emod]
    exact Int.emod_eq_of_lt (Int.natCast_nonneg _) hlt
  · exact Int.emod_eq_of_lt (Int.natCast_nonneg _) hlt

/-- The lower bytes are the ones of the number, whatever the sign makes of the others. -/
theorem toNat_toUintmax_mod (number : N.Value) : (N.toUintmax number).toNat % 256 ^ N.size = number.toNat := by
  have hdvd : ((256 ^ N.size : ℕ) : ℤ) ∣ (2 ^ 64 : ℕ) := by
    rw [← two_pow_eq]
    exact Int.natCast_dvd_natCast.2 (Nat.pow_dvd_pow 2 (Nat.mul_le_mul_left 8 N.size_le))
  have hbits : ((N.toUintmax number).toNat : ℤ) = N.toInt number % (2 ^ 64 : ℕ) := by
    rw [Number.toUintmax, BitVec.toNat_ofInt, Int.toNat_of_nonneg (Int.emod_nonneg _ (by decide))]
  rw [← Int.natCast_inj, Int.natCast_emod, hbits, Int.emod_emod_of_dvd _ hdvd, toInt_emod]

theorem numberMoveBitsHelper_eq {count : ℕ} (hcount : count ≤ N.size) (e : Bool) :
    numberMoveBitsHelper N count e = (List.range count).map fun i => (i, ((8 * place e N.size i : ℕ) : ℤ)) := by
  refine List.map_congr_left fun i hi => ?_
  have hi := List.mem_range.1 hi
  rw [place, byteBits]
  cases e <;> simp <;> omega

theorem lowestByte_eq (bits : BitVec 64) : (⟨(bits &&& 0xFF).setWidth 8⟩ : UInt8) = UInt8.ofNat bits.toNat := by
  rw [← UInt8.toNat_inj, UInt8.toNat_ofNat']
  show ((bits &&& 0xFF).setWidth 8).toNat = _
  rw [BitVec.toNat_setWidth, BitVec.toNat_and, show (0xFF : BitVec 64).toNat = 0xFF from rfl, and_0xFF, Nat.mod_mod]

/-- **`split_number`** gives the bytes in the order. -/
theorem splitNumber_eq (number : N.Value) (e : Bool) {count : ℕ} (hcount : count ≤ N.size) :
    (splitNumber N number e count : Outcome ε (List UInt8)) = .ok ((List.range count).map fun i =>
      UInt8.ofNat ((N.toUintmax number).toNat / 256 ^ place e N.size i)) := by
  have hsize := N.size_le
  rw [splitNumber, Nat.min_eq_left hcount, numberMoveBitsHelper_eq N hcount, mapM_of_ok (g := fun part =>
    UInt8.ofNat ((N.toUintmax number).toNat / 2 ^ part.2.toNat)), List.map_map]
  · refine congrArg _ (List.map_congr_left fun i hi => ?_)
    rw [Function.comp_apply, Int.toNat_natCast, Nat.pow_mul]
  · intro part hpart
    obtain ⟨i, hi, rfl⟩ := List.mem_map.1 hpart
    have hplace := place_lt e (lt_of_lt_of_le (List.mem_range.1 hi) hcount)
    rw [shiftRight_natCast (by omega), ok_bind, lowestByte_eq, BitVec.toNat_ushiftRight, Nat.shiftRight_eq_div_pow,
      Int.toNat_natCast]

theorem splitNumber_size (number : N.Value) (e : Bool) :
    (splitNumber N number e N.size : Outcome ε (List UInt8)) = .ok (inOrder e (littleEndian N.size number.toNat)) := by
  rw [splitNumber_eq N number e le_rfl,
    map_place e N.size fun i => UInt8.ofNat ((N.toUintmax number).toNat / 256 ^ i), ← littleEndian, ← littleEndian_mod,
    toNat_toUintmax_mod]

/-- **`to_array`** stores the bytes in the order. -/
theorem toArray_eq (number : N.Value) (e : Bool) :
    (toArray N number e : Outcome ε (Vector UInt8 N.size)) =
      .ok (arrayOf N.size (inOrder e (littleEndian N.size number.toNat))) := by
  rw [toArray, splitNumber_size, ok_bind]

theorem toList_arrayOf {size : ℕ} {items : List UInt8} (hlen : items.length = size) :
    (arrayOf size items).toList = items := by
  subst hlen
  refine List.ext_getElem (by simp) fun i hi hi' => ?_
  simp [arrayOf]

theorem arrayOf_toList {size : ℕ} (data : Vector UInt8 size) : arrayOf size data.toList = data :=
  Vector.toList_inj.1 (toList_arrayOf Vector.length_toList)

theorem byteAt_of_lt {data : List UInt8} {index : ℕ} (h : index < data.length) :
    (byteAt data index : Outcome ε UInt8) = .ok (data.getD index 0) := by
  rw [byteAt, dif_pos h, List.getD_eq_getElem?_getD, List.getElem?_eq_getElem h, Option.getD_some, List.get_eq_getElem]

theorem shiftLeft_byte (byte : UInt8) (n : ℕ) :
    byte.toBitVec.setWidth 64 <<< n = BitVec.ofNat 64 (byte.toNat * 2 ^ n) := by
  have hbyte : byte.toNat % 2 ^ 64 = byte.toNat := Nat.mod_eq_of_lt (lt_trans byte.toNat_lt (by decide))
  apply BitVec.eq_of_toNat_eq
  rw [BitVec.toNat_shiftLeft, BitVec.toNat_setWidth, UInt8.toNat_toBitVec, hbyte, BitVec.toNat_ofNat, Nat.shiftLeft_eq]

theorem ofUintmax_sum (l : List ℕ) : N.ofUintmax (l.map (BitVec.ofNat 64)).sum = BitVec.ofNat (8 * N.size) l.sum := by
  have hsum : (l.map (BitVec.ofNat 64)).sum = BitVec.ofNat 64 l.sum := by
    induction l with
    | nil => rfl
    | cons n l ih => rw [List.map_cons, List.sum_cons, List.sum_cons, ih, BitVec.ofNat_add]
  have hdvd : 2 ^ (8 * N.size) ∣ 2 ^ 64 := Nat.pow_dvd_pow 2 (Nat.mul_le_mul_left 8 N.size_le)
  rw [hsum, Number.ofUintmax, BitVec.toNat_ofNat]
  apply BitVec.eq_of_toNat_eq
  rw [BitVec.toNat_ofNat, BitVec.toNat_ofNat, Nat.mod_mod_of_dvd _ hdvd]

/-- **`make_number`** reads the bytes in the order. -/
theorem makeNumber_eq (data : Vector UInt8 N.size) (e : Bool) :
    (makeNumber N data e : Outcome ε N.Value) = .ok (BitVec.ofNat _ (ofLittleEndian (inOrder e data.toList))) := by
  have hsize := N.size_le
  have hlen : data.toList.length = N.size := Vector.length_toList
  rw [makeNumber, numberMoveBitsHelper_eq N le_rfl, mapM_of_ok (g := fun part =>
    BitVec.ofNat 64 ((data.toList.getD part.1 0).toNat * 2 ^ part.2.toNat)), ok_bind, List.map_map,
    ofLittleEndian_inOrder, ← ofUintmax_sum, List.map_map, hlen]
  · refine congrArg (fun l => Outcome.ok (N.ofUintmax l.sum)) (List.map_congr_left fun i hi => ?_)
    rw [Function.comp_apply, Function.comp_apply, Int.toNat_natCast, Nat.pow_mul]
  · intro part hpart
    obtain ⟨i, hi, rfl⟩ := List.mem_map.1 hpart
    have hi := List.mem_range.1 hi
    have hplace := place_lt e hi
    rw [byteAt_of_lt (hlen.symm ▸ hi), ok_bind, shiftLeft_natCast (by omega), shiftLeft_byte, Int.toNat_natCast]

theorem moveByte_eq {N : Number} (number : N.Value) {i : ℕ} (hi : i < N.size) :
    (moveByte number (8 * i : ℕ) (8 * (N.size - 1 - i) : ℕ) : Outcome ε N.Value) =
      .ok (BitVec.ofNat _ (number.toNat / 256 ^ i % 256 * 256 ^ (N.size - 1 - i))) := by
  have hsize := N.size_le
  have hbyte : number.toNat >>> (8 * i) &&& 0xFF = number.toNat / 256 ^ i % 256 := by
    rw [and_0xFF, Nat.shiftRight_eq_div_pow, Nat.pow_mul]
  have hmoved : (number.toNat >>> (8 * i) &&& 0xFF) <<< (8 * (N.size - 1 - i)) =
      number.toNat / 256 ^ i % 256 * 256 ^ (N.size - 1 - i) := by
    rw [hbyte, Nat.shiftLeft_eq, Nat.pow_mul]
  rw [moveByte]
  split
  · next hwide =>
    have hmask : (0xFF : N.Value).toNat = 255 :=
      Nat.mod_eq_of_lt (lt_of_lt_of_le (by decide) (Nat.pow_le_pow_right (by decide) hwide))
    rw [shiftRight_natCast (by omega), ok_bind, shiftLeft_natCast (by omega), ← hmoved]
    refine congrArg _ (BitVec.eq_of_toNat_eq ?_)
    rw [BitVec.toNat_shiftLeft, BitVec.toNat_and, BitVec.toNat_ushiftRight, hmask, BitVec.toNat_ofNat]
  · next hshort =>
    have hlt : number.toNat / 256 ^ i % 256 * 256 ^ (N.size - 1 - i) < 2 ^ 31 := by
      calc number.toNat / 256 ^ i % 256 * 256 ^ (N.size - 1 - i)
          < 256 * 256 ^ (N.size - 1 - i) := Nat.mul_lt_mul_of_pos_right (by omega) (Nat.pow_pos (by decide))
        _ = 256 ^ (N.size - 1 - i + 1) := (Nat.pow_succ').symm
        _ ≤ 256 ^ 3 := Nat.pow_le_pow_right (by decide) (by omega)
        _ < 2 ^ 31 := by decide
    rw [if_pos (by omega), Int.toNat_natCast, Int.toNat_natCast, hmoved, intNat_of_lt hlt, ok_bind]

/-- The bytes that have been moved: `result` after `k` rounds. -/
def moved (N : Number) (number : N.Value) (k : ℕ) : N.Value :=
  BitVec.ofNat _ (256 ^ (N.size - k) * ofLittleEndian (littleEndian k number.toNat).reverse)

@[simp] theorem moved_zero (number : N.Value) : moved N number 0 = 0 := by
  show BitVec.ofNat _ (256 ^ N.size * 0) = 0
  rw [Nat.mul_zero]
  rfl

/-- The bytes that are there are above the next one. -/
theorem moved_or (number : N.Value) {k : ℕ} (hk : k < N.size) :
    moved N number k ||| BitVec.ofNat _ (number.toNat / 256 ^ k % 256 * 256 ^ (N.size - 1 - k)) =
      moved N number (k + 1) := by
  obtain ⟨m, hm⟩ : ∃ m, N.size = k + (m + 1) := ⟨N.size - k - 1, by omega⟩
  have hrest : N.size - k = m + 1 := by omega
  have hrest' : N.size - (k + 1) = m := by omega
  have hplace : N.size - 1 - k = m := by omega
  have hpow : 256 ^ (m + 1) = 2 ^ (8 * (m + 1)) := by rw [Nat.pow_mul]
  have hlt : number.toNat / 256 ^ k % 256 * 256 ^ m < 2 ^ (8 * (m + 1)) := by
    rw [← hpow, Nat.pow_succ']
    exact Nat.mul_lt_mul_of_pos_right (by omega) (Nat.pow_pos (by decide))
  rw [moved, moved, hrest, hrest', hplace, ofLittleEndian_reverse_littleEndian_succ, ← BitVec.ofNat_or, hpow,
    ← Nat.two_pow_add_eq_or_of_lt hlt, ← hpow]
  congr 1
  ring

/-- **`swap_endian`** reads the bytes in the other order. -/
theorem swapEndian_eq (number : N.Value) :
    (swapEndian N number : Outcome ε N.Value) =
      .ok (BitVec.ofNat _ (ofLittleEndian (littleEndian N.size number.toNat).reverse)) := by
  have hmoved : moved N number N.size = BitVec.ofNat _ (ofLittleEndian (littleEndian N.size number.toNat).reverse) := by
    rw [moved, Nat.sub_self, Nat.pow_zero, Nat.one_mul]
  rw [swapEndian, ← hmoved, ← moved_zero]
  refine forTo_of_ok (moved N number) fun i hi => ?_
  have hdestination : ((8 * N.size : ℕ) : ℤ) - (byteBits * i : ℕ) - byteBits = (8 * (N.size - 1 - i) : ℕ) := by
    rw [byteBits]
    omega
  dsimp only
  rw [hdestination, byteBits, moveByte_eq number hi, ok_bind, moved_or N number hi]

end Spec

/-! ## Words of `hash_digest` -/

section Sha3

theorem makeNumber_sha3 (data : Vector UInt8 Number.uint64.size) :
    (makeNumber .uint64 data false : Outcome ε _) = .ok (Abi.Sha3.makeNumber data.toList).toBitVec := by
  have hlen : data.toList.length = 8 := Vector.length_toList
  have hnumber : (Abi.Sha3.makeNumber data.toList).toNat = ofLittleEndian data.toList := by
    rw [Abi.Sha3.toNat_makeNumber hlen.le, Abi.Sha3.valueOf_eq]
  rw [makeNumber_eq]
  refine congrArg _ (BitVec.eq_of_toNat_eq ?_)
  rw [BitVec.toNat_ofNat]
  show ofLittleEndian data.toList % 2 ^ 64 = (Abi.Sha3.makeNumber data.toList).toNat
  rw [← hnumber]
  exact Nat.mod_eq_of_lt (Abi.Sha3.makeNumber data.toList).toNat_lt

theorem splitNumber_sha3 (number : UInt64) {size : ℕ} (hsize : size ≤ 8) :
    (splitNumber .uint64 number.toBitVec false size : Outcome ε _) = .ok (Abi.Sha3.splitNumber number size) := by
  have hlt : (Number.uint64.toUintmax number.toBitVec).toNat < 256 ^ 8 := BitVec.isLt _
  have hbits : (Number.uint64.toUintmax number.toBitVec).toNat = number.toNat :=
    (Nat.mod_eq_of_lt hlt).symm.trans (toNat_toUintmax_mod .uint64 number.toBitVec)
  refine (splitNumber_eq .uint64 number.toBitVec false hsize).trans
    (congrArg _ (List.map_congr_left fun i hi => ?_))
  have hi := List.mem_range.1 hi
  rw [hbits, ← UInt8.toNat_inj, UInt8.toNat_ofNat', UInt64.toNat_toUInt8, UInt64.toNat_and, UInt64.toNat_shiftRight,
    toNat_ofNat_mod (by omega)]
  show number.toNat / 256 ^ i % 2 ^ 8 = (number.toNat >>> (8 * i) &&& 0xFF) % 2 ^ 8
  rw [and_0xFF, Nat.shiftRight_eq_div_pow, Nat.pow_mul]
  exact (Nat.mod_mod _ _).symm

end Sha3

end Nessus.Meta
