import Nessus.Abi.GuidGrammar
import Nessus.Meta.Numbers

/-!
# Numbers and texts

`to_char_array` and `to_number`, and what all the conversions of numbers have in common.

* `concatArrays`, `readBytes` — the loops that write and read two characters a byte;
* `numberCodecs` — **the conversions are inverse to each other**, and the other order is the one of `swap_endian`.
-/

namespace Nessus.Meta

open Nessus.Lib Outcome
open Nessus.Abi (fromHexadecimalCharacter hexadecimalCharacter)

variable {ε : Type}

def toHexadecimalCharacter (byte : UInt8) : List Char :=
  [hexadecimalCharacter (byte.toNat >>> 4), hexadecimalCharacter (byte.toNat &&& 0xF)]

/-- `concat_arrays`: each array is as far behind the place of the last one as that one is long. -/
def concatArrays (arrays : List (List Char)) : Outcome ε (List Char) :=
  let sizes := 0 :: arrays.map List.length
  let result := List.replicate (arrays.map List.length).sum (Char.ofNat 0)
  (sizes.zip arrays).foldlM (fun s part =>
    let offset := s.1 + part.1
    writeAt s.2 offset part.2 >>= fun result => .ok (offset, result)) (0, result) >>= fun s => .ok s.2

def toCharArray (N : Number) (number : N.Value) (bigEndian : Bool) : Outcome ε (List Char) :=
  splitNumber N number bigEndian N.size >>= fun bytes => concatArrays (bytes.map toHexadecimalCharacter)

/-- The loop of `to_number`, up to a character that is no digit; undefined behind the end of the text. -/
def readBytes : ℕ → List Char → Outcome ε (Option (List UInt8))
  | 0, _ => .ok (some [])
  | size + 1, first :: second :: source =>
    match fromHexadecimalCharacter first, fromHexadecimalCharacter second with
    | some firstPart, some secondPart =>
      readBytes size source >>= fun rest => .ok (rest.map (UInt8.ofNat (firstPart <<< 4 + secondPart) :: ·))
    | _, _ => .ok none
  | _ + 1, _ => .undefined

def toNumber (N : Number) (str : List Char) (bigEndian : Bool) : Outcome ε N.Value :=
  if str.length / 2 < N.size then .ok 0
  else readBytes N.size str >>= fun
    | some bytes => makeNumber N (arrayOf N.size bytes) bigEndian
    | none => .ok 0

/-! ## Characters -/

section Characters

theorem foldlM_concatArrays (arrays : List (List Char)) (written : List Char) {offset size : ℕ}
    (hplace : offset + size = written.length) :
    ((size :: arrays.map List.length).zip arrays).foldlM (fun s part =>
      let offset := s.1 + part.1
      (writeAt s.2 offset part.2 : Outcome ε (List Char)) >>= fun result => .ok (offset, result))
      (offset, written ++ List.replicate (arrays.map List.length).sum (Char.ofNat 0)) >>= (fun s => .ok s.2) =
    .ok (written ++ arrays.flatten) := by
  induction arrays generalizing written offset size with
  | nil => simp
  | cons array arrays ih =>
    have hwrite : (writeAt (written ++ (List.replicate array.length (Char.ofNat 0) ++
        List.replicate (arrays.map List.length).sum (Char.ofNat 0))) written.length array : Outcome ε (List Char)) =
        .ok (written ++ (array ++ List.replicate (arrays.map List.length).sum (Char.ofNat 0))) :=
      writeAt_append _ List.length_replicate.symm
    rw [List.replicate_append_replicate, ← List.append_assoc] at hwrite
    rw [List.map_cons, List.zip_cons_cons, List.foldlM_cons, List.sum_cons]
    dsimp only
    rw [hplace, hwrite, ok_bind, List.flatten_cons, ← List.append_assoc]
    exact ih (written ++ array) (List.length_append).symm

theorem concatArrays_eq (arrays : List (List Char)) :
    (concatArrays arrays : Outcome ε (List Char)) = .ok arrays.flatten :=
  foldlM_concatArrays arrays [] rfl

/-- **`to_char_array`** writes the bytes in the order. -/
theorem toCharArray_eq (N : Number) (number : N.Value) (e : Bool) :
    (toCharArray N number e : Outcome ε (List Char)) =
      .ok ((inOrder e (littleEndian N.size number.toNat)).flatMap toHexadecimalCharacter) := by
  rw [toCharArray, splitNumber_size, ok_bind, concatArrays_eq, List.flatMap_def]

theorem fromHexadecimalCharacter_lt {c : Char} {k : ℕ} (h : fromHexadecimalCharacter c = some k) : k < 16 := by
  obtain ⟨n, hn, hread, -⟩ := Abi.hexadecimalCharacter_digit (Abi.mem_hexDigits_of_fromHexadecimalCharacter h)
  rw [h, Option.some.injEq] at hread
  rwa [hread]

theorem fromHexadecimalCharacter_toUpper (c : Char) : fromHexadecimalCharacter c.toUpper = fromHexadecimalCharacter c := by
  by_cases hletter : 'a'.val ≤ c.val ∧ c.val ≤ 'z'.val
  · have hletters : ∀ i < 26, fromHexadecimalCharacter (Char.ofNat (97 + i)).toUpper =
        fromHexadecimalCharacter (Char.ofNat (97 + i)) := by decide
    have hlo : 97 ≤ c.toNat := hletter.1
    have hhi : c.toNat ≤ 122 := hletter.2
    have hc := hletters (c.toNat - 97) (by omega)
    rwa [Nat.add_sub_cancel' hlo, Char.ofNat_toNat] at hc
  · have hsame : c.toUpper = c := dif_neg hletter
    rw [hsame]

/-- Two characters are read as the byte that they are written for. -/
theorem readBytes_toHexadecimalCharacter (bytes : List UInt8) :
    (readBytes bytes.length (bytes.flatMap toHexadecimalCharacter) : Outcome ε _) = .ok (some bytes) := by
  induction bytes with
  | nil => rfl
  | cons byte bytes ih =>
    have hbyte := byte.toNat_lt
    have hhigh : byte.toNat >>> 4 = byte.toNat / 16 := Nat.shiftRight_eq_div_pow byte.toNat 4
    have hlow := and_0xF byte.toNat
    have hwhole : (byte.toNat / 16) <<< 4 + byte.toNat % 16 = byte.toNat := by
      rw [Nat.shiftLeft_eq]
      omega
    rw [List.flatMap_cons, toHexadecimalCharacter, List.length_cons, List.cons_append, List.cons_append, List.nil_append,
      readBytes, hhigh, hlow, Abi.fromHexadecimalCharacter_digit (by omega), Abi.fromHexadecimalCharacter_digit (by omega)]
    dsimp only
    rw [ih, ok_bind, hwhole, UInt8.ofNat_toNat, Option.map_some]

/-- What is read does not depend on the case of the letters. -/
theorem readBytes_toUpper (size : ℕ) (str : List Char) :
    (readBytes size (str.map Char.toUpper) : Outcome ε _) = readBytes size str := by
  fun_induction readBytes (ε := ε) size str with
  | case1 str => rfl
  | case2 size first second source firstPart secondPart hsecond hfirst ih =>
    rw [List.map_cons, List.map_cons, readBytes, fromHexadecimalCharacter_toUpper, fromHexadecimalCharacter_toUpper, hfirst,
      hsecond]
    dsimp only
    rw [ih]
  | case3 size first second source hdigits =>
    rw [List.map_cons, List.map_cons, readBytes, fromHexadecimalCharacter_toUpper, fromHexadecimalCharacter_toUpper]
    split
    · next hfirst hsecond => exact absurd hsecond (hdigits _ _ hfirst)
    · rfl
  | case4 size str hshort =>
    rcases str with _ | ⟨first, _ | ⟨second, source⟩⟩
    · rfl
    · rfl
    · exact absurd rfl (hshort first second source)

theorem length_flatMap_toHexadecimalCharacter (bytes : List UInt8) :
    (bytes.flatMap toHexadecimalCharacter).length = 2 * bytes.length := by
  induction bytes with
  | nil => rfl
  | cons byte bytes ih =>
    rw [List.flatMap_cons, List.length_append, ih, List.length_cons, toHexadecimalCharacter]
    show 2 + 2 * bytes.length = 2 * (bytes.length + 1)
    omega

/-- **`to_number`** reads the bytes in the order, whatever the case of the letters. -/
theorem toNumber_eq (N : Number) {str : List Char} {bytes : List UInt8} (e : Bool) (hlen : bytes.length = N.size)
    (hstr : str.map Char.toUpper = (bytes.flatMap toHexadecimalCharacter).map Char.toUpper) :
    (toNumber N str e : Outcome ε N.Value) = .ok (BitVec.ofNat _ (ofLittleEndian (inOrder e bytes))) := by
  have hlength : str.length = 2 * N.size := by
    rw [← hlen, ← length_flatMap_toHexadecimalCharacter, ← List.length_map Char.toUpper, hstr, List.length_map]
  have hread : (readBytes N.size str : Outcome ε _) = .ok (some bytes) := by
    rw [← readBytes_toUpper, hstr, readBytes_toUpper, ← hlen, readBytes_toHexadecimalCharacter]
  rw [toNumber, if_neg (by omega), hread, ok_bind]
  dsimp only
  rw [makeNumber_eq, toList_arrayOf hlen]

end Characters

/-! ## Numbers of `guid` -/

section Guid

variable (N : Number)

theorem toArray_guid (number : N.Value) :
    (toArray N number true : Outcome ε _) = .ok (arrayOf N.size (Abi.toArrayBigEndian N.size number.toNat)) := by
  rw [toArray_eq, inOrder, if_pos rfl, Abi.toArrayBigEndian_eq]

theorem makeNumber_guid (data : Vector UInt8 N.size) :
    (makeNumber N data true : Outcome ε N.Value) = .ok (BitVec.ofNat _ (Abi.makeNumberBigEndian data.toList)) := by
  rw [makeNumber_eq, inOrder, if_pos rfl, Abi.makeNumberBigEndian_eq]

theorem flatMap_toArrayBigEndian (size number : ℕ) :
    (Abi.toArrayBigEndian size number).flatMap toHexadecimalCharacter = Abi.toCharArray size number := by
  induction size with
  | zero => rfl
  | succ size ih =>
    have hbyte := toNat_ofNat_byte (number / 256 ^ size)
    have hlow : number / 256 ^ size % 256 &&& 0xF = number / 256 ^ size % 16 := by
      rw [and_0xF, Nat.mod_mod_of_dvd _ (by decide)]
    rw [Abi.toArrayBigEndian, List.flatMap_cons, ih, toHexadecimalCharacter, hbyte, Nat.shiftRight_eq_div_pow, hlow,
      Abi.toCharArray]
    rfl

theorem toCharArray_guid (number : N.Value) :
    (toCharArray N number true : Outcome ε (List Char)) = .ok (Abi.toCharArray N.size number.toNat) := by
  rw [toCharArray_eq, inOrder, if_pos rfl, ← Abi.toArrayBigEndian_eq, flatMap_toArrayBigEndian]

theorem readBytes_readHex {size : ℕ} {str : List Char} (hlen : 2 * size ≤ str.length) :
    ∃ read, (readBytes size str : Outcome ε _) = .ok read ∧ (∀ bytes, read = some bytes → bytes.length = size) ∧
      Abi.readHex size str = read.map fun bytes => ofLittleEndian bytes.reverse := by
  fun_induction readBytes (ε := ε) size str with
  | case1 str => exact ⟨some [], rfl, by rintro _ ⟨⟩; rfl, rfl⟩
  | case2 size first second source firstPart secondPart hsecond hfirst ih =>
    obtain ⟨read, hread, hsize, hhex⟩ := ih (by simp only [List.length_cons] at hlen; omega)
    refine ⟨read.map (UInt8.ofNat (firstPart <<< 4 + secondPart) :: ·), by rw [hread, ok_bind], ?_, ?_⟩
    · intro bytes hbytes
      obtain ⟨rest, hrest, rfl⟩ := Option.map_eq_some_iff.1 hbytes
      rw [List.length_cons, hsize rest hrest]
    · have hbyte : (UInt8.ofNat (firstPart <<< 4 + secondPart)).toNat = firstPart * 16 + secondPart := by
        have hlt := fromHexadecimalCharacter_lt hfirst
        have hlt' := fromHexadecimalCharacter_lt hsecond
        rw [UInt8.toNat_ofNat', Nat.shiftLeft_eq]
        omega
      rw [Abi.readHex, hfirst, hsecond, hhex]
      cases read with
      | none => rfl
      | some rest =>
        have hlength := hsize rest rfl
        dsimp only [Option.map_some]
        rw [List.reverse_cons, ofLittleEndian_concat, List.length_reverse, hlength, hbyte, Nat.mul_comm, Nat.add_comm]
  | case3 size first second source hdigits =>
    refine ⟨none, rfl, by rintro _ ⟨⟩, ?_⟩
    rw [Abi.readHex]
    split
    · next hfirst hsecond _ => exact absurd hsecond (hdigits _ _ hfirst)
    · rfl
  | case4 size str hshort =>
    rcases str with _ | ⟨first, _ | ⟨second, source⟩⟩
    · simp only [List.length_nil] at hlen
      omega
    · simp only [List.length_cons, List.length_nil] at hlen
      omega
    · exact absurd rfl (hshort first second source)

theorem toNumber_guid (str : List Char) :
    (toNumber N str true : Outcome ε N.Value) = .ok (BitVec.ofNat _ (Abi.toNumber N.size str)) := by
  rw [toNumber, Abi.toNumber]
  split
  · rfl
  · next hlen =>
    have hlong : 2 * N.size ≤ str.length := by omega
    obtain ⟨read, hread, hsize, hhex⟩ := readBytes_readHex (ε := ε) hlong
    rw [hread, ok_bind, hhex]
    cases read with
    | none => rfl
    | some bytes =>
      dsimp only [Option.map_some, Option.getD_some]
      rw [makeNumber_eq, toList_arrayOf (hsize bytes rfl), inOrder, if_pos rfl]

end Guid

/-- **The conversions of numbers are inverse to each other**: to bytes and back in either order, to text and back whatever
the case of the letters; the orders differ by `swap_endian`, and bytes are those of the number that they make. -/
theorem numberCodecs (N : Number) (e : Bool) :
    (∀ x, (toArray N x e >>= fun data => makeNumber N data e : Outcome ε N.Value) = .ok x) ∧
    (∀ x, ∃ chars, (toCharArray N x e : Outcome ε (List Char)) = .ok chars ∧
      ∀ str, str.map Char.toUpper = chars.map Char.toUpper → (toNumber N str e : Outcome ε N.Value) = .ok x) ∧
    (N.signed = false → ∀ x,
      (toArray N x e >>= fun data => makeNumber N data (!e) : Outcome ε N.Value) = swapEndian N x ∧
      (swapEndian N x >>= swapEndian N : Outcome ε N.Value) = .ok x) ∧
    ∀ data, (makeNumber N data e >>= fun x => toArray N x e : Outcome ε (Vector UInt8 N.size)) = .ok data := by
  refine ⟨fun x => ?_, fun x => ⟨_, toCharArray_eq N x e, fun str hstr => ?_⟩, fun _ x => ⟨?_, ?_⟩, fun data => ?_⟩
  · rw [toArray_eq, ok_bind, makeNumber_eq, toList_arrayOf (by simp), inOrder_inOrder, ofLittleEndian_bytes]
  · rw [toNumber_eq N e (by simp) hstr, inOrder_inOrder, ofLittleEndian_bytes]
  · rw [toArray_eq, ok_bind, makeNumber_eq, toList_arrayOf (by simp), inOrder_not_inOrder, swapEndian_eq]
  · rw [swapEndian_eq, ok_bind, swapEndian_eq, bytes_ofLittleEndian N (by simp), List.reverse_reverse, ofLittleEndian_bytes]
  · rw [makeNumber_eq, ok_bind, toArray_eq, bytes_ofLittleEndian N (by simp), inOrder_inOrder, arrayOf_toList]

/-- A negative number, its text in another case, and the bytes of an unsigned number the other way round. -/
theorem numberCodecs_run :
    (toArray .int16 0xFFAB#16 false >>= fun data => makeNumber .int16 data false : Outcome Empty _) = .ok 0xFFAB#16 ∧
      (toNumber .int16 ['f', 'F', 'a', 'B'] true : Outcome Empty _) = .ok 0xFFAB#16 ∧
      (toArray .uint32 0x1234ABCD#32 true >>= fun data => makeNumber .uint32 data false : Outcome Empty _) =
        swapEndian .uint32 0x1234ABCD#32 ∧
      (makeNumber .uint32 #v[0xFF, 0, 0, 0] true >>= fun x => toArray .uint32 x true : Outcome Empty _) =
        .ok #v[0xFF, 0, 0, 0] := by
  obtain ⟨chars, hchars, hcase⟩ := (numberCodecs (ε := Empty) .int16 true).2.1 0xFFAB#16
  have htext : (toCharArray .int16 0xFFAB#16 true : Outcome Empty _) = .ok ['F', 'F', 'A', 'B'] := by decide
  obtain rfl : ['F', 'F', 'A', 'B'] = chars := Outcome.ok.inj (htext.symm.trans hchars)
  exact ⟨(numberCodecs .int16 false).1 0xFFAB#16, hcase _ (by decide), ((numberCodecs .uint32 true).2.2.1 rfl _).1,
    (numberCodecs .uint32 true).2.2.2 _⟩

end Nessus.Meta
