import Nessus.Abi.GuidText

/-!
# What a GUID is read from

The value of a text in the form 8-4-4-4-12 is that of its digits (`Parts.value`).  The constructor takes every other
text for one of these: it looks at the places of the digits, and puts zeros for a number that is not all digits.

* `readAs` — the text that a text is taken for;
* `toNumber_eq_hexValue` — a number is read from its digits, or from zeros;
* `toList_toString_ofString_eq_readAs` — **the `guid` of a text is written as the text that it is taken for**;
* `ofString_readAs` — its value, and which texts are read as the same `guid`.
-/

namespace Nessus.Abi

/-! ## The value of a text -/

/-- The value of a hexadecimal digit. -/
def digitValue (c : Char) : ℕ := "0123456789ABCDEF".toList.idxOf c.toUpper

/-- The number written with the digits. -/
def hexValue (digits : List Char) : ℕ := digits.foldl (fun n c => 16 * n + digitValue c) 0

/-- The `guid` written with the parts. -/
def Parts.value (p : Parts) : Guid :=
  ⟨UInt32.ofNat (hexValue p.part1), UInt16.ofNat (hexValue p.part2), UInt16.ofNat (hexValue p.part3),
    Vector.ofFn fun i => UInt8.ofNat (hexValue (p.pair i.val))⟩

/-- `guid::guid()`. -/
def Guid.nil : Guid := ⟨0, 0, 0, Vector.replicate 8 0⟩

/-! ## The text that a text is taken for -/

/-- The digits of a number in upper case, or zeros where one of them is none. -/
def repaired (field : List Char) : List Char :=
  if field.all fun c => decide (c ∈ hexDigits) then field.map Char.toUpper else List.replicate field.length '0'

/-- `str.substr`. -/
def slice (s : List Char) (offset size : ℕ) : List Char := (s.drop offset).take size

/-- The digits of the bytes of `data4`. -/
def repairedBytes (s : List Char) : List (List Char) :=
  (List.range 8).map fun i => repaired (slice s (if i < 2 then 19 + 2 * i else 24 + 2 * (i - 2)) 2)

@[simp] theorem length_repaired (field : List Char) : (repaired field).length = field.length := by
  rw [repaired]
  split
  · exact List.length_map ..
  · exact List.length_replicate ..

theorem length_slice {s : List Char} {offset size : ℕ} (h : offset + size ≤ s.length) :
    (slice s offset size).length = size := by
  rw [slice, List.length_take, List.length_drop]
  omega

/-- The places of the digits of `data4` are in the first 36 characters. -/
theorem length_slice_byte {s : List Char} (h : 36 ≤ s.length) {i : ℕ} (hi : i < 8) :
    (slice s (if i < 2 then 19 + 2 * i else 24 + 2 * (i - 2)) 2).length = 2 := by
  refine length_slice ?_
  split <;> omega

theorem length_repairedBytes (s : List Char) : (repairedBytes s).length = 8 := by
  rw [repairedBytes, List.length_map, List.length_range]

theorem length_of_mem_repairedBytes {s : List Char} (h : 36 ≤ s.length) : ∀ l ∈ repairedBytes s, l.length = 2 := by
  intro l hl
  obtain ⟨i, hi, rfl⟩ := List.mem_map.1 hl
  rw [length_repaired, length_slice_byte h (List.mem_range.1 hi)]

/-- The digits that are read, without what is between them or after them. -/
def repairedParts (s : List Char) (h : 36 ≤ s.length) : Parts where
  part1 := repaired (slice s 0 8)
  part2 := repaired (slice s 9 4)
  part3 := repaired (slice s 14 4)
  part4 := ((repairedBytes s).take 2).flatten
  part5 := ((repairedBytes s).drop 2).flatten
  length1 := by rw [length_repaired, length_slice (by omega)]
  length2 := by rw [length_repaired, length_slice (by omega)]
  length3 := by rw [length_repaired, length_slice (by omega)]
  length4 := by
    rw [length_flatten_pairs fun l hl => length_of_mem_repairedBytes h l (List.mem_of_mem_take hl), List.length_take,
      length_repairedBytes]
    rfl
  length5 := by
    rw [length_flatten_pairs fun l hl => length_of_mem_repairedBytes h l (List.mem_of_mem_drop hl), List.length_drop,
      length_repairedBytes]

/-- The text that a text is taken for. -/
def readAs (s : List Char) : List Char :=
  if h : 36 ≤ s.length then (repairedParts s h).text else Guid.nil.toString.toList

theorem pair_repairedParts {s : List Char} (h : 36 ≤ s.length) {i : ℕ} (hi : i < 8) : (repairedParts s h).pair i =
    repaired (slice s (if i < 2 then 19 + 2 * i else 24 + 2 * (i - 2)) 2) := by
  have htail : (repairedParts s h).tail = (repairedBytes s).flatten := by
    show ((repairedBytes s).take 2).flatten ++ ((repairedBytes s).drop 2).flatten = _
    rw [← List.flatten_append, List.take_append_drop]
  rw [Parts.pair, htail, pair_flatten (length_of_mem_repairedBytes h) i (by rwa [length_repairedBytes])]
  simp only [repairedBytes, List.getElem_map, List.getElem_range]

/-! ## Numbers -/

theorem digitValue_eq {c : Char} (hc : c ∈ hexDigits) : fromHexadecimalCharacter c = some (digitValue c) := by
  have h : (hexDigits.all fun c => decide (fromHexadecimalCharacter c = some (digitValue c))) = true := by decide
  exact of_decide_eq_true (List.all_eq_true.1 h c hc)

theorem mem_hexDigits_of_range (first count : ℕ) (h : ∀ n : Fin count, Char.ofNat (first + n.val) ∈ hexDigits) {c : Char}
    (hfirst : first ≤ c.toNat) (hlast : c.toNat < first + count) : c ∈ hexDigits := by
  have hc := h ⟨c.toNat - first, by omega⟩
  rwa [Nat.add_sub_cancel' hfirst, Char.ofNat_toNat] at hc

theorem mem_hexDigits_of_fromHexadecimalCharacter {c : Char} {k : ℕ} (h : fromHexadecimalCharacter c = some k) :
    c ∈ hexDigits := by
  have hle {a b : Char} (hab : a ≤ b) : a.toNat ≤ b.toNat := hab
  rw [fromHexadecimalCharacter] at h
  split at h
  · next hd => exact mem_hexDigits_of_range 48 10 (by decide) (hle hd.1) (Nat.lt_succ_of_le (hle hd.2))
  · split at h
    · next hu => exact mem_hexDigits_of_range 65 6 (by decide) (hle hu.1) (Nat.lt_succ_of_le (hle hu.2))
    · split at h
      · next hl => exact mem_hexDigits_of_range 97 6 (by decide) (hle hl.1) (Nat.lt_succ_of_le (hle hl.2))
      · cases h

theorem foldl_hexValue (n : ℕ) (str : List Char) :
    str.foldl (fun n c => 16 * n + digitValue c) n = n * 16 ^ str.length + hexValue str := by
  induction str generalizing n with
  | nil => simp [hexValue]
  | cons c str ih =>
    rw [hexValue, List.foldl_cons, List.foldl_cons, ih, ih, List.length_cons, Nat.pow_succ]
    ring

theorem hexValue_cons (c : Char) (str : List Char) :
    hexValue (c :: str) = digitValue c * 16 ^ str.length + hexValue str := by
  rw [hexValue, List.foldl_cons, Nat.mul_zero, Nat.zero_add, foldl_hexValue]

theorem readHex_eq_hexValue {size : ℕ} {str : List Char} (hlen : str.length = 2 * size)
    (hs : ∀ c ∈ str, c ∈ hexDigits) : readHex size str = some (hexValue str) := by
  induction size generalizing str with
  | zero =>
    obtain rfl := List.length_eq_zero_iff.1 hlen
    rfl
  | succ size ih =>
    match str, hlen with
    | first :: second :: str, hlen =>
      rw [List.forall_mem_cons, List.forall_mem_cons] at hs
      have hrest : str.length = 2 * size := by
        simp only [List.length_cons] at hlen
        omega
      have hpow : (16 : ℕ) ^ (2 * size) = 256 ^ size := Nat.pow_mul 16 2 size
      have hvalue : hexValue (first :: second :: str) =
          (digitValue first * 16 + digitValue second) * 256 ^ size + hexValue str := by
        rw [hexValue_cons, hexValue_cons, List.length_cons, hrest, Nat.pow_succ, hpow]
        ring
      rw [readHex, digitValue_eq hs.1, digitValue_eq hs.2.1, ih hrest hs.2.2, hvalue]

theorem readHex_eq_none {size : ℕ} {str : List Char} (hlen : str.length = 2 * size)
    (hs : ¬ ∀ c ∈ str, c ∈ hexDigits) : readHex size str = none := by
  induction size generalizing str with
  | zero =>
    obtain rfl := List.length_eq_zero_iff.1 hlen
    exact absurd (fun c hc => by cases hc) hs
  | succ size ih =>
    match str, hlen with
    | first :: second :: str, hlen =>
      have hrest : str.length = 2 * size := by
        simp only [List.length_cons] at hlen
        omega
      rw [readHex]
      split
      · next high low rest hhigh hlow hread =>
        refine absurd ?_ hs
        rw [List.forall_mem_cons, List.forall_mem_cons]
        refine ⟨mem_hexDigits_of_fromHexadecimalCharacter hhigh, mem_hexDigits_of_fromHexadecimalCharacter hlow, ?_⟩
        by_contra hno
        rw [ih hrest hno] at hread
        cases hread
      · rfl

theorem hexValue_replicate (n : ℕ) : hexValue (List.replicate n '0') = 0 := by
  have hzero : digitValue '0' = 0 := by decide
  induction n with
  | zero => rfl
  | succ n ih =>
    rw [List.replicate_succ, hexValue_cons, ih, hzero, Nat.zero_mul]

theorem toUpper_hexDigit {c : Char} (hc : c ∈ hexDigits) : c.toUpper ∈ hexDigits ∧ c.toUpper.toUpper = c.toUpper := by
  have h : (hexDigits.all fun c => decide (c.toUpper ∈ hexDigits) && decide (c.toUpper.toUpper = c.toUpper)) = true := by
    decide
  simpa using List.all_eq_true.1 h c hc

theorem hexValue_toUpper {str : List Char} (hs : ∀ c ∈ str, c ∈ hexDigits) :
    hexValue (str.map Char.toUpper) = hexValue str := by
  induction str with
  | nil => rfl
  | cons c str ih =>
    rw [List.forall_mem_cons] at hs
    have hc : digitValue c.toUpper = digitValue c := by
      rw [digitValue, digitValue, (toUpper_hexDigit hs.1).2]
    rw [List.map_cons, hexValue_cons, hexValue_cons, List.length_map, ih hs.2, hc]

/-- **A number is read from its digits, or from zeros.** -/
theorem toNumber_eq_hexValue {size : ℕ} {str : List Char} (hlen : str.length = 2 * size) :
    toNumber size str = hexValue (repaired str) := by
  rw [toNumber, if_neg (by omega), repaired]
  by_cases hs : ∀ c ∈ str, c ∈ hexDigits
  · rw [if_pos (by simpa using hs), readHex_eq_hexValue hlen hs, hexValue_toUpper hs]
    rfl
  · rw [if_neg (by simpa using hs), readHex_eq_none hlen hs, hexValue_replicate]
    rfl

/-! ## What a text is read as -/

theorem repaired_digits {field : List Char} {c : Char} (hc : c ∈ repaired field) : c ∈ hexDigits ∧ c.toUpper = c := by
  rw [repaired] at hc
  split at hc
  · next hall =>
    obtain ⟨b, hb, rfl⟩ := List.mem_map.1 hc
    exact toUpper_hexDigit (of_decide_eq_true (List.all_eq_true.1 hall b hb))
  · rw [List.eq_of_mem_replicate hc]
    decide

theorem repairedParts_digits {s : List Char} (h : 36 ≤ s.length) {c : Char} (hc : c ∈ (repairedParts s h).digits) :
    c ∈ hexDigits ∧ c.toUpper = c := by
  have hbytes (l : List (List Char)) (hl : l ⊆ repairedBytes s) (hc : c ∈ l.flatten) :
      c ∈ hexDigits ∧ c.toUpper = c := by
    obtain ⟨field, hfield, hc⟩ := List.mem_flatten.1 hc
    obtain ⟨i, -, rfl⟩ := List.mem_map.1 (hl hfield)
    exact repaired_digits hc
  simp only [Parts.digits, Parts.tail, List.mem_append] at hc
  rcases hc with ((hc | hc) | hc) | hc | hc
  · exact repaired_digits hc
  · exact repaired_digits hc
  · exact repaired_digits hc
  · exact hbytes _ (List.take_subset _ _) hc
  · exact hbytes _ (List.drop_subset _ _) hc

theorem ofString_text_eq_value {p : Parts} (hp : ∀ c ∈ p.digits, c ∈ hexDigits) : Guid.ofString p.text = p.value := by
  have hnumber {size : ℕ} {part : List Char} (hlen : part.length = 2 * size) (hpart : ∀ c ∈ part, c ∈ p.digits) :
      toNumber size part = hexValue part := by
    rw [toNumber, if_neg (by omega), readHex_eq_hexValue hlen fun c hc => hp c (hpart c hc)]
    rfl
  have hdata4 (i : Fin 8) : toNumber 1 (p.pair i.val) = hexValue (p.pair i.val) := by
    refine hnumber (p.length_pair i.isLt) fun c hc => ?_
    exact List.mem_append_right _ (List.drop_subset _ _ (List.take_subset _ _ hc))
  rw [ofString_text, Parts.value, hnumber p.length1, hnumber p.length2, hnumber p.length3]
  · simp only [hdata4]
  · exact fun c hc => List.mem_append_left _ (List.mem_append_right _ hc)
  · exact fun c hc => List.mem_append_left _ (List.mem_append_left _ (List.mem_append_right _ hc))
  · exact fun c hc => List.mem_append_left _ (List.mem_append_left _ (List.mem_append_left _ hc))

/-- **A text that is long enough is read as the value of its repaired parts.** -/
theorem ofString_eq_value {s : List Char} (h : 36 ≤ s.length) : Guid.ofString s = (repairedParts s h).value := by
  have hdata4 (i : Fin 8) : toNumber 1 ((s.drop (if i.val < 2 then 19 + 2 * i.val else 24 + 2 * (i.val - 2))).take (2 * 1)) =
      hexValue ((repairedParts s h).pair i.val) := by
    rw [pair_repairedParts h i.isLt]
    exact toNumber_eq_hexValue (length_slice_byte h i.isLt)
  have h1 : toNumber 4 ((s.drop 0).take (2 * 4)) = hexValue (repaired (slice s 0 8)) :=
    toNumber_eq_hexValue (length_slice (by omega))
  have h2 : toNumber 2 ((s.drop 9).take (2 * 2)) = hexValue (repaired (slice s 9 4)) :=
    toNumber_eq_hexValue (length_slice (by omega))
  have h3 : toNumber 2 ((s.drop 14).take (2 * 2)) = hexValue (repaired (slice s 14 4)) :=
    toNumber_eq_hexValue (length_slice (by omega))
  unfold Guid.ofString
  rw [if_neg (by omega)]
  dsimp only
  simp only [hdata4, h1, h2, h3]
  rfl

theorem ofString_eq_nil {s : List Char} (h : s.length < 36) : Guid.ofString s = .nil := by
  rw [Guid.ofString, if_pos h, Guid.nil]

/-- **The `guid` of a text is written as the text that it is taken for.** -/
theorem toList_toString_ofString_eq_readAs (s : List Char) : (Guid.ofString s).toString.toList = readAs s := by
  rw [readAs]
  split
  · next h =>
    have hdigits : ∀ c ∈ (repairedParts s h).digits, c ∈ hexDigits := fun c hc => (repairedParts_digits h hc).1
    rw [ofString_eq_value h, ← ofString_text_eq_value hdigits, Guid.toList_toString_ofString ⟨_, rfl, hdigits⟩]
    refine (List.map_congr_left fun c hc => ?_).trans (List.map_id _)
    have hyphen : Char.toUpper '-' = '-' := by decide
    have hmem : c ∈ (repairedParts s h).digits ∨ c = '-' := by
      simp only [Parts.text, Parts.digits, Parts.tail, List.mem_append, List.mem_cons] at hc ⊢
      tauto
    rcases hmem with hmem | rfl
    · exact (repairedParts_digits h hmem).2
    · exact hyphen
  · next h => rw [ofString_eq_nil (not_le.1 h)]

theorem readAs_of_canonical {s : List Char} (hs : Canonical s) : readAs s = s.map Char.toUpper := by
  rw [← toList_toString_ofString_eq_readAs, Guid.toList_toString_ofString hs]

theorem ofString_eq_ofString_iff (s t : List Char) : Guid.ofString s = Guid.ofString t ↔ readAs s = readAs t := by
  rw [← toList_toString_ofString_eq_readAs, ← toList_toString_ofString_eq_readAs]
  constructor
  · intro h
    rw [h]
  · intro h
    rw [← Guid.ofString_toList_toString (Guid.ofString s), h, Guid.ofString_toList_toString]

/-- **What the constructor reads**: the value of a text in the canonical form, of the repaired parts of any other text
that is long enough, and nothing of a shorter one; two texts are read as the same `guid` exactly if they are taken for
the same text, which is a canonical one in upper case. -/
theorem ofString_readAs :
    (∀ p : Parts, (∀ c ∈ p.digits, c ∈ hexDigits) → Guid.ofString p.text = p.value) ∧
      (∀ s, s.length < 36 → Guid.ofString s = .nil) ∧
      (∀ s (h : 36 ≤ s.length), Guid.ofString s = (repairedParts s h).value) ∧
      (∀ s t, Guid.ofString s = Guid.ofString t ↔ readAs s = readAs t) ∧
      ∀ s, Canonical s → readAs s = s.map Char.toUpper :=
  ⟨fun _ => ofString_text_eq_value, fun _ => ofString_eq_nil, fun _ => ofString_eq_value, ofString_eq_ofString_iff,
    fun _ => readAs_of_canonical⟩

def noSeparators : List Char := '1' :: List.replicate 35 '0'

def tooLong : List Char := "10000000-0000-0000-0000-0000000000000".toList

/-- A text with a number that is not all digits. -/
def wrongDigit : List Char := "10000000-000x-0000-0000-000000000000".toList

theorem not_forall_ofString :
    (¬ ∀ s, ¬ Canonical s → Guid.ofString s = .nil) ∧
      (¬ ∀ s t, Guid.ofString s ≠ .nil → Guid.ofString s = Guid.ofString t → s.map Char.toUpper = t.map Char.toUpper) ∧
      ∀ s ∈ [noSeparators, tooLong, wrongDigit], ¬ Canonical s ∧ Guid.ofString s ≠ .nil := by
  have hall : ∀ s ∈ [noSeparators, tooLong, wrongDigit], ¬ Canonical s ∧ Guid.ofString s ≠ .nil := by
    have hread : ∀ s ∈ [noSeparators, tooLong, wrongDigit], readAs s ≠ s.map Char.toUpper := by decide
    have hdata1 : ∀ s ∈ [noSeparators, tooLong, wrongDigit], (Guid.ofString s).data1 ≠ 0 := by decide
    intro s hs
    exact ⟨fun hc => hread s hs (readAs_of_canonical hc), fun hnil => hdata1 s hs (by rw [hnil, Guid.nil])⟩
  refine ⟨fun h => ?_, fun h => ?_, hall⟩
  · obtain ⟨hcanonical, hnil⟩ := hall tooLong (by simp)
    exact hnil (h tooLong hcanonical)
  · have hnil := (hall noSeparators (by simp)).2
    have hsame := (ofString_eq_ofString_iff noSeparators wrongDigit).2 (by decide)
    exact absurd (h noSeparators wrongDigit hnil hsame) (by decide)

end Nessus.Abi
