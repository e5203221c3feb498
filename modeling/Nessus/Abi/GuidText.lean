import Mathlib.Data.List.Basic
import Mathlib.Tactic.Ring
import Nessus.Abi.Guid

/-!
# The text of a GUID

`to_string` and the constructor from a text are inverse to each other: `ofString_toList_toString` on every `guid`, and
`toList_toString_ofString` on every text of the form 8-4-4-4-12, up to the case of its letters.

Both go number by number (`toNumber_toCharArray`, `toCharArray_toNumber`), and then over the places where the five
parts of the text are cut.
-/

namespace Nessus.Abi

/-- The hexadecimal digits, in both cases. -/
def hexDigits : List Char := "0123456789ABCDEFabcdef".toList

/-! ## Digits -/

theorem fromHexadecimalCharacter_digit {k : ℕ} (hk : k < 16) :
    fromHexadecimalCharacter (hexadecimalCharacter k) = some k := by
  have : ∀ k : Fin 16, fromHexadecimalCharacter (hexadecimalCharacter k.val) = some k.val := by decide
  exact this ⟨k, hk⟩

theorem hexadecimalCharacter_digit {c : Char} (hc : c ∈ hexDigits) :
    ∃ k < 16, fromHexadecimalCharacter c = some k ∧ hexadecimalCharacter k = c.toUpper := by
  have h : (hexDigits.all fun c => (fromHexadecimalCharacter c).any fun k =>
      decide (k < 16) && decide (hexadecimalCharacter k = c.toUpper)) = true := by decide
  obtain ⟨k, hk, hand⟩ := (Option.any_eq_true _ _).1 (List.all_eq_true.1 h c hc)
  rw [Bool.and_eq_true, decide_eq_true_eq, decide_eq_true_eq] at hand
  exact ⟨k, hand.1, hk, hand.2⟩

/-! ## Numbers -/

theorem length_toCharArray (size number : ℕ) : (toCharArray size number).length = 2 * size := by
  induction size with
  | zero => rfl
  | succ size ih =>
    rw [toCharArray, List.length_cons, List.length_cons, ih]
    ring

theorem toCharArray_add (size a b : ℕ) : toCharArray size (a * 256 ^ size + b) = toCharArray size b := by
  induction size generalizing a with
  | zero => rfl
  | succ size ih =>
    have hpos : 0 < 256 ^ size := Nat.pow_pos (by decide)
    have hshape : a * 256 ^ (size + 1) + b = a * 256 * 256 ^ size + b := by rw [Nat.pow_succ]; ring
    have hdiv : (a * 256 ^ (size + 1) + b) / 256 ^ size = a * 256 + b / 256 ^ size := by
      rw [hshape, Nat.add_comm, Nat.add_mul_div_right _ _ hpos, Nat.add_comm]
    have h₁ : (a * 256 + b / 256 ^ size) % 256 = b / 256 ^ size % 256 := by omega
    have h₂ : (a * 256 + b / 256 ^ size) % 16 = b / 256 ^ size % 16 := by omega
    rw [toCharArray, toCharArray, hdiv, h₁, h₂, hshape, ih]

theorem readHex_toCharArray (size number : ℕ) : readHex size (toCharArray size number) = some (number % 256 ^ size) := by
  induction size with
  | zero => simp [readHex, Nat.mod_one]
  | succ size ih =>
    have hhigh : number / 256 ^ size % 256 / 16 < 16 := by omega
    have hlow : number / 256 ^ size % 16 < 16 := by omega
    have hbyte : number / 256 ^ size % 256 / 16 * 16 + number / 256 ^ size % 16 = number / 256 ^ size % 256 := by omega
    rw [toCharArray, readHex, fromHexadecimalCharacter_digit hhigh, fromHexadecimalCharacter_digit hlow, ih]
    dsimp only
    rw [hbyte, Nat.pow_succ, Nat.mod_mul, Nat.mul_comm, Nat.add_comm]

theorem toNumber_toCharArray (size : ℕ) {number : ℕ} (h : number < 256 ^ size) :
    toNumber size (toCharArray size number) = number := by
  have hlen : ¬ (toCharArray size number).length / 2 < size := by
    rw [length_toCharArray]
    omega
  rw [toNumber, if_neg hlen, readHex_toCharArray, Nat.mod_eq_of_lt h]
  rfl

/-- Digits are read as a number of that size, whose digits they are. -/
theorem readHex_digits {size : ℕ} {str : List Char} (hlen : str.length = 2 * size) (hs : ∀ c ∈ str, c ∈ hexDigits) :
    ∃ n < 256 ^ size, readHex size str = some n ∧ toCharArray size n = str.map Char.toUpper := by
  induction size generalizing str with
  | zero =>
    obtain rfl := List.length_eq_zero_iff.1 hlen
    exact ⟨0, by decide, rfl, rfl⟩
  | succ size ih =>
    match str, hlen with
    | first :: second :: str, hlen =>
      rw [List.forall_mem_cons, List.forall_mem_cons] at hs
      obtain ⟨h₁, h₂, hs⟩ := hs
      obtain ⟨high, hhigh, hread₁, hchar₁⟩ := hexadecimalCharacter_digit h₁
      obtain ⟨low, hlow, hread₂, hchar₂⟩ := hexadecimalCharacter_digit h₂
      obtain ⟨rest, hrest, hread, hchars⟩ := ih (by simp at hlen; omega) hs
      have hpos : 0 < 256 ^ size := Nat.pow_pos (by decide)
      have hdiv : ((high * 16 + low) * 256 ^ size + rest) / 256 ^ size = high * 16 + low := by
        rw [Nat.add_comm, Nat.add_mul_div_right _ _ hpos, Nat.div_eq_of_lt hrest, Nat.zero_add]
      refine ⟨(high * 16 + low) * 256 ^ size + rest, ?_, ?_, ?_⟩
      · calc (high * 16 + low) * 256 ^ size + rest < (high * 16 + low) * 256 ^ size + 256 ^ size := by omega
          _ = (high * 16 + low + 1) * 256 ^ size := by ring
          _ ≤ 256 * 256 ^ size := Nat.mul_le_mul_right _ (by omega)
          _ = 256 ^ (size + 1) := by rw [Nat.pow_succ]; ring
      · rw [readHex, hread₁, hread₂, hread]
      · have hhigh' : (high * 16 + low) % 256 / 16 = high := by omega
        have hlow' : (high * 16 + low) % 16 = low := by omega
        rw [toCharArray, hdiv, hhigh', hlow', toCharArray_add, hchars, hchar₁, hchar₂]
        rfl

theorem toCharArray_toNumber (size : ℕ) {str : List Char} (hlen : str.length = 2 * size)
    (hs : ∀ c ∈ str, c ∈ hexDigits) :
    toNumber size str < 256 ^ size ∧ toCharArray size (toNumber size str) = str.map Char.toUpper := by
  obtain ⟨n, hn, hread, hchars⟩ := readHex_digits hlen hs
  have hnum : toNumber size str = n := by
    rw [toNumber, if_neg (by omega), hread]
    rfl
  rw [hnum]
  exact ⟨hn, hchars⟩

/-! ## The parts of the text -/

/-- The five parts of the text of a `guid`. -/
structure Parts where
  part1 : List Char
  part2 : List Char
  part3 : List Char
  part4 : List Char
  part5 : List Char
  length1 : part1.length = 8
  length2 : part2.length = 4
  length3 : part3.length = 4
  length4 : part4.length = 4
  length5 : part5.length = 12

namespace Parts

/-- The parts with hyphens between them. -/
def text (p : Parts) : List Char :=
  p.part1 ++ '-' :: p.part2 ++ '-' :: p.part3 ++ '-' :: p.part4 ++ '-' :: p.part5

/-- The characters of the array `data4`. -/
def tail (p : Parts) : List Char := p.part4 ++ p.part5

/-- The two characters of the byte of number `i` of `data4`. -/
def pair (p : Parts) (i : ℕ) : List Char := (p.tail.drop (2 * i)).take 2

def digits (p : Parts) : List Char := p.part1 ++ p.part2 ++ p.part3 ++ p.tail

theorem length_tail (p : Parts) : p.tail.length = 16 := by
  rw [tail, List.length_append, p.length4, p.length5]

theorem length_pair (p : Parts) {i : ℕ} (hi : i < 8) : (p.pair i).length = 2 := by
  rw [pair, List.length_take, List.length_drop, p.length_tail]
  omega

theorem length_text (p : Parts) : p.text.length = 36 := by
  simp only [text, List.length_append, List.length_cons, p.length1, p.length2, p.length3, p.length4, p.length5]

theorem drop_part {n : ℕ} {a : List Char} (ha : a.length = n) (l : List Char) (k : ℕ) :
    (a ++ '-' :: l).drop (n + 1 + k) = l.drop k := by
  subst ha
  rw [show a ++ '-' :: l = (a ++ ['-']) ++ l by simp, ← List.drop_drop, List.drop_left' (by simp)]

theorem text_eq (p : Parts) :
    p.text = p.part1 ++ '-' :: (p.part2 ++ '-' :: (p.part3 ++ '-' :: (p.part4 ++ '-' :: p.part5))) := by
  simp [text]

theorem slice1 (p : Parts) : (p.text.drop 0).take 8 = p.part1 := by
  rw [List.drop_zero, text_eq, List.take_left' p.length1]

theorem slice2 (p : Parts) : (p.text.drop 9).take 4 = p.part2 := by
  rw [text_eq, drop_part p.length1 _ 0, List.drop_zero, List.take_left' p.length2]

theorem slice3 (p : Parts) : (p.text.drop 14).take 4 = p.part3 := by
  rw [text_eq, drop_part p.length1 _ 5, drop_part p.length2 _ 0, List.drop_zero, List.take_left' p.length3]

/-- The places where the bytes of `data4` are read, on both sides of the last hyphen. -/
theorem slice4 (p : Parts) {i : ℕ} (hi : i < 8) :
    (p.text.drop (if i < 2 then 19 + 2 * i else 24 + 2 * (i - 2))).take 2 = p.pair i := by
  rw [text_eq, pair, tail]
  by_cases h2 : i < 2
  · have hle : 2 * i + 2 ≤ p.part4.length := by rw [p.length4]; omega
    rw [if_pos h2, show 19 + 2 * i = 8 + 1 + (4 + 1 + (4 + 1 + 2 * i)) by omega, drop_part p.length1,
      drop_part p.length2, drop_part p.length3, List.drop_append_of_le_length (by omega),
      List.drop_append_of_le_length (by omega), List.take_append_of_le_length (by rw [List.length_drop]; omega),
      List.take_append_of_le_length (by rw [List.length_drop]; omega)]
  · obtain ⟨j, rfl⟩ := Nat.exists_eq_add_of_le (not_lt.1 h2)
    rw [if_neg h2, show 24 + 2 * (2 + j - 2) = 8 + 1 + (4 + 1 + (4 + 1 + (4 + 1 + 2 * j))) by omega,
      drop_part p.length1, drop_part p.length2, drop_part p.length3, drop_part p.length4,
      show 2 * (2 + j) = p.part4.length + 2 * j by rw [p.length4]; omega, List.drop_length_add_append]

end Parts

/-- The form 8-4-4-4-12, with hexadecimal digits in either case. -/
def Canonical (s : List Char) : Prop := ∃ p : Parts, p.text = s ∧ ∀ c ∈ p.digits, c ∈ hexDigits

theorem canonical_of_all (p : Parts) (h : (p.digits.all fun c => decide (c ∈ hexDigits)) = true) : Canonical p.text :=
  ⟨p, rfl, fun c hc => of_decide_eq_true (List.all_eq_true.1 h c hc)⟩

/-- A list of `2 * m` characters is the concatenation of its pairs. -/
theorem flatten_pairs {m : ℕ} {l : List Char} (h : l.length = 2 * m) :
    ((List.range m).map fun i => (l.drop (2 * i)).take 2).flatten = l := by
  induction m generalizing l with
  | zero => exact (List.length_eq_zero_iff.1 h).symm
  | succ m ih =>
    rw [List.range_succ_eq_map, List.map_cons, List.flatten_cons, List.map_map, Nat.mul_zero, List.drop_zero]
    have hrest := ih (l := l.drop 2) (by rw [List.length_drop]; omega)
    simp only [List.drop_drop] at hrest
    have hfun : ((fun i => (l.drop (2 * i)).take 2) ∘ Nat.succ) = fun i => (l.drop (2 + 2 * i)).take 2 := by
      funext i
      show (l.drop (2 * (i + 1))).take 2 = _
      rw [Nat.mul_add, Nat.add_comm]
    rw [hfun, hrest, List.take_append_drop]

theorem ofString_text (p : Parts) :
    Guid.ofString p.text = ⟨UInt32.ofNat (toNumber 4 p.part1), UInt16.ofNat (toNumber 2 p.part2),
      UInt16.ofNat (toNumber 2 p.part3), Vector.ofFn fun i => UInt8.ofNat (toNumber 1 (p.pair i.val))⟩ := by
  have hlen : ¬ p.text.length < 36 := by rw [p.length_text]; decide
  have hdata4 : (Vector.ofFn fun i : Fin 8 => UInt8.ofNat (toNumber 1
      ((p.text.drop (if i.val < 2 then 19 + 2 * i.val else 24 + 2 * (i.val - 2))).take (2 * 1)))) =
      Vector.ofFn fun i => UInt8.ofNat (toNumber 1 (p.pair i.val)) := by
    congr 1
    funext i
    rw [p.slice4 i.isLt]
  unfold Guid.ofString
  rw [if_neg hlen]
  dsimp only
  rw [p.slice1, p.slice2, p.slice3, hdata4]

/-! ## The round trips -/

section Pairs

variable {pairs : List (List Char)}

theorem length_flatten_pairs (h : ∀ l ∈ pairs, l.length = 2) : pairs.flatten.length = 2 * pairs.length := by
  induction pairs with
  | nil => rfl
  | cons l pairs ih =>
    rw [List.forall_mem_cons] at h
    rw [List.flatten_cons, List.length_append, ih h.2, h.1, List.length_cons]
    ring

/-- The pair of number `i` of a concatenation of pairs. -/
theorem pair_flatten (h : ∀ l ∈ pairs, l.length = 2) (i : ℕ) (hi : i < pairs.length) :
    (pairs.flatten.drop (2 * i)).take 2 = pairs[i] := by
  induction pairs generalizing i with
  | nil => exact absurd hi (Nat.not_lt_zero i)
  | cons l pairs ih =>
    rw [List.forall_mem_cons] at h
    rw [List.flatten_cons]
    cases i with
    | zero => rw [Nat.mul_zero, List.drop_zero, List.take_left' h.1, List.getElem_cons_zero]
    | succ i =>
      rw [show 2 * (i + 1) = l.length + 2 * i by rw [h.1]; omega, List.drop_length_add_append,
        ih h.2 i (Nat.lt_of_succ_lt_succ hi), List.getElem_cons_succ]

end Pairs

namespace Guid

/-- The characters of the bytes of `data4`. -/
def data4Chars (g : Guid) : List (List Char) := g.data4.toList.map fun b => toCharArray 1 b.toNat

theorem length_of_mem_data4Chars (g : Guid) : ∀ l ∈ g.data4Chars, l.length = 2 := by
  simp [data4Chars, length_toCharArray]

/-- The parts that `to_string` puts together. -/
def parts (g : Guid) : Parts where
  part1 := toCharArray 4 g.data1.toNat
  part2 := toCharArray 2 g.data2.toNat
  part3 := toCharArray 2 g.data3.toNat
  part4 := (g.data4Chars.take 2).flatten
  part5 := (g.data4Chars.drop 2).flatten
  length1 := length_toCharArray ..
  length2 := length_toCharArray ..
  length3 := length_toCharArray ..
  length4 := by
    rw [length_flatten_pairs fun l hl => g.length_of_mem_data4Chars l (List.mem_of_mem_take hl), List.length_take,
      data4Chars, List.length_map, Vector.length_toList]
    rfl
  length5 := by
    rw [length_flatten_pairs fun l hl => g.length_of_mem_data4Chars l (List.mem_of_mem_drop hl), List.length_drop,
      data4Chars, List.length_map, Vector.length_toList]

theorem toList_toString (g : Guid) : g.toString.toList = g.parts.text := String.toList_ofList

theorem pair_parts (g : Guid) {i : ℕ} (hi : i < 8) : g.parts.pair i = toCharArray 1 (g.data4[i]).toNat := by
  have htail : g.parts.tail = g.data4Chars.flatten := by
    show (g.data4Chars.take 2).flatten ++ (g.data4Chars.drop 2).flatten = _
    rw [← List.flatten_append, List.take_append_drop]
  rw [Parts.pair, htail, pair_flatten g.length_of_mem_data4Chars i (by simpa [data4Chars] using hi)]
  simp only [data4Chars, List.getElem_map, Vector.getElem_toList]

/-- **What `to_string` writes is read back.** -/
theorem ofString_toList_toString (g : Guid) : ofString g.toString.toList = g := by
  have h₁ := toNumber_toCharArray 4 g.data1.toNat_lt
  have h₂ := toNumber_toCharArray 2 g.data2.toNat_lt
  have h₃ := toNumber_toCharArray 2 g.data3.toNat_lt
  have h₄ : (Vector.ofFn fun i : Fin 8 => UInt8.ofNat (toNumber 1 (g.parts.pair i.val))) = g.data4 := by
    ext i hi
    have := toNumber_toCharArray 1 (g.data4[i]).toNat_lt
    rw [Vector.getElem_ofFn, g.pair_parts hi, this, UInt8.ofNat_toNat]
  rw [toList_toString, ofString_text, h₄]
  show (⟨UInt32.ofNat (toNumber 4 (toCharArray 4 _)), UInt16.ofNat (toNumber 2 (toCharArray 2 _)),
    UInt16.ofNat (toNumber 2 (toCharArray 2 _)), g.data4⟩ : Guid) = g
  rw [h₁, h₂, h₃, UInt32.ofNat_toNat, UInt16.ofNat_toNat, UInt16.ofNat_toNat]

/-- The bytes of `data4` are written as the digits that they have been read from. -/
theorem data4Chars_ofString {p : Parts} (hp : ∀ c ∈ p.tail, c ∈ hexDigits) : (ofString p.text).data4Chars =
    (List.range 8).map fun i => ((p.tail.map Char.toUpper).drop (2 * i)).take 2 := by
  rw [ofString_text]
  refine List.ext_getElem (by simp [data4Chars]) fun i hi _ => ?_
  have hi : i < 8 := by simpa [data4Chars] using hi
  obtain ⟨hlt, hchars⟩ := toCharArray_toNumber 1 (p.length_pair hi)
    fun c hc => hp c (List.drop_subset _ _ (List.take_subset _ _ hc))
  rw [List.getElem_map, List.getElem_range, ← List.map_drop, ← List.map_take]
  simp only [data4Chars, List.getElem_map, Vector.getElem_toList, Vector.getElem_ofFn]
  have hbyte : (UInt8.ofNat (toNumber 1 (p.pair i))).toNat = toNumber 1 (p.pair i) := UInt8.toNat_ofNat_of_lt hlt
  rw [hbyte]
  exact hchars

/-- **A text in the canonical form is read as a `guid` that is written as that text, in upper case.** -/
theorem toList_toString_ofString {s : List Char} (hs : Canonical s) :
    (ofString s).toString.toList = s.map Char.toUpper := by
  obtain ⟨p, rfl, hp⟩ := hs
  simp only [Parts.digits, List.forall_mem_append] at hp
  obtain ⟨⟨⟨hp₁, hp₂⟩, hp₃⟩, hp₄⟩ := hp
  obtain ⟨hn₁, h₁⟩ := toCharArray_toNumber 4 p.length1 hp₁
  obtain ⟨hn₂, h₂⟩ := toCharArray_toNumber 2 p.length2 hp₂
  obtain ⟨hn₃, h₃⟩ := toCharArray_toNumber 2 p.length3 hp₃
  obtain ⟨g, hg⟩ : ∃ g, g = ofString p.text := ⟨_, rfl⟩
  rw [← hg, toList_toString]
  rw [ofString_text] at hg
  have hpart₁ : g.parts.part1 = p.part1.map Char.toUpper := by
    rw [← h₁, hg]
    exact congrArg (toCharArray 4) (UInt32.toNat_ofNat_of_lt hn₁)
  have hpart₂ : g.parts.part2 = p.part2.map Char.toUpper := by
    rw [← h₂, hg]
    exact congrArg (toCharArray 2) (UInt16.toNat_ofNat_of_lt hn₂)
  have hpart₃ : g.parts.part3 = p.part3.map Char.toUpper := by
    rw [← h₃, hg]
    exact congrArg (toCharArray 2) (UInt16.toNat_ofNat_of_lt hn₃)
  have hdata4 := data4Chars_ofString hp₄
  rw [ofString_text, ← hg] at hdata4
  -- the two last parts are the characters of `data4`, cut at the same place
  have htail : g.parts.part4 ++ g.parts.part5 = p.part4.map Char.toUpper ++ p.part5.map Char.toUpper := by
    show (g.data4Chars.take 2).flatten ++ (g.data4Chars.drop 2).flatten = _
    rw [← List.flatten_append, List.take_append_drop, hdata4,
      flatten_pairs (by rw [List.length_map, p.length_tail]), Parts.tail, List.map_append]
  obtain ⟨hpart₄, hpart₅⟩ := List.append_inj htail (by rw [g.parts.length4, List.length_map, p.length4])
  have hyphen : Char.toUpper '-' = '-' := by decide
  simp only [Parts.text, List.map_append, List.map_cons, hyphen, hpart₁, hpart₂, hpart₃, hpart₄, hpart₅]

end Guid

end Nessus.Abi
