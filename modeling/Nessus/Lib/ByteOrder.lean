import Mathlib.Data.Nat.Digits.Lemmas
import Mathlib.Data.UInt
import Mathlib.Tactic.Cases

/-!
# Byte orders

Numbers as bytes, which are their digits with the base 256.

* `littleEndian`, `ofLittleEndian` — the bytes of a number and the number of bytes, the least significant first; they are
  inverse to each other (`ofLittleEndian_littleEndian`, `littleEndian_ofLittleEndian`);
* `inOrder`, `place` — the bytes in either order, and which of them is stored where (`map_place`,
  `ofLittleEndian_inOrder`);
* `ofLittleEndian_reverse_littleEndian_succ` — bytes that are taken off on one side and put on the other.
-/

namespace Nessus.Lib

variable {α : Type}

/-- The `size` lowest bytes of a number. -/
def littleEndian (size n : ℕ) : List UInt8 := (List.range size).map fun i => UInt8.ofNat (n / 256 ^ i)

def ofLittleEndian (bytes : List UInt8) : ℕ := Nat.ofDigits 256 (bytes.map UInt8.toNat)

/-- Bytes, from the least significant one on, in the order in which they are stored; and back. -/
def inOrder (bigEndian : Bool) (bytes : List α) : List α := if bigEndian then bytes.reverse else bytes

/-- Which byte, from the least significant one on, is stored at `i`. -/
def place (bigEndian : Bool) (size i : ℕ) : ℕ := if bigEndian then size - 1 - i else i

/-! ## Orders -/

section Orders

variable (e : Bool) (l : List α)

@[simp] theorem inOrder_inOrder : inOrder e (inOrder e l) = l := by cases e <;> simp [inOrder]

@[simp] theorem inOrder_not_inOrder : inOrder (!e) (inOrder e l) = l.reverse := by cases e <;> simp [inOrder]

@[simp] theorem length_inOrder : (inOrder e l).length = l.length := by cases e <;> simp [inOrder]

theorem sum_inOrder (l : List ℕ) : (inOrder e l).sum = l.sum := by cases e <;> simp [inOrder]

theorem place_lt {size i : ℕ} (hi : i < size) : place e size i < size := by
  unfold place
  split <;> omega

/-- What is computed from the places is stored in the order. -/
theorem map_place (size : ℕ) (f : ℕ → α) :
    (List.range size).map (fun i => f (place e size i)) = inOrder e ((List.range size).map f) := by
  cases e with
  | false => rfl
  | true =>
    rw [inOrder, if_pos rfl, ← List.map_reverse, List.range_eq_range', List.reverse_range', List.map_map]
    refine (congrArg _ (List.range_eq_range' (n := size))).symm.trans (List.map_congr_left fun i _ => ?_)
    rw [Function.comp_apply, Nat.zero_add, place, if_pos rfl]

theorem getElem?_inOrder {i : ℕ} (hi : i < l.length) : (inOrder e l)[place e l.length i]? = l[i]? := by
  cases e with
  | false => rfl
  | true =>
    rw [inOrder, if_pos rfl, List.getElem?_reverse (place_lt true hi), place, if_pos rfl]
    congr 1
    omega

end Orders

/-! ## Numbers -/

section Numbers

variable {size n : ℕ} {bytes : List UInt8}

theorem toNat_ofNat_byte (n : ℕ) : (UInt8.ofNat n).toNat = n % 256 := UInt8.toNat_ofNat'

theorem and_0xFF (n : ℕ) : n &&& 0xFF = n % 256 := Nat.and_two_pow_sub_one_eq_mod n 8

theorem and_0xF (n : ℕ) : n &&& 0xF = n % 16 := Nat.and_two_pow_sub_one_eq_mod n 4

@[simp] theorem length_littleEndian (size n : ℕ) : (littleEndian size n).length = size := by
  rw [littleEndian, List.length_map, List.length_range]

theorem littleEndian_succ (size n : ℕ) :
    littleEndian (size + 1) n = littleEndian size n ++ [UInt8.ofNat (n / 256 ^ size)] := by
  rw [littleEndian, List.range_succ, List.map_append, List.map_singleton, littleEndian]

theorem ofLittleEndian_cons (byte : UInt8) (bytes : List UInt8) :
    ofLittleEndian (byte :: bytes) = byte.toNat + 256 * ofLittleEndian bytes := by
  rw [ofLittleEndian, List.map_cons, Nat.ofDigits_cons, ofLittleEndian]

theorem ofLittleEndian_concat (bytes : List UInt8) (byte : UInt8) :
    ofLittleEndian (bytes ++ [byte]) = ofLittleEndian bytes + 256 ^ bytes.length * byte.toNat := by
  rw [ofLittleEndian, List.map_append, List.map_singleton, Nat.ofDigits_append, Nat.ofDigits_singleton, List.length_map,
    ofLittleEndian]

/-- The bytes of a number are the number, up to what they have no place for. -/
theorem ofLittleEndian_littleEndian (size n : ℕ) : ofLittleEndian (littleEndian size n) = n % 256 ^ size := by
  induction size with
  | zero => rw [Nat.pow_zero, Nat.mod_one]; rfl
  | succ size ih =>
    rw [littleEndian_succ, ofLittleEndian_concat, ih, length_littleEndian, toNat_ofNat_byte, Nat.mod_pow_succ]

theorem toNat_lt_of_mem (bytes : List UInt8) : ∀ digit ∈ bytes.map UInt8.toNat, digit < 256 := by
  intro digit hdigit
  obtain ⟨byte, -, rfl⟩ := List.mem_map.1 hdigit
  exact byte.toNat_lt

theorem ofLittleEndian_lt (bytes : List UInt8) : ofLittleEndian bytes < 256 ^ bytes.length := by
  have hlt := Nat.ofDigits_lt_base_pow_length (b := 256) (by decide) (toNat_lt_of_mem bytes)
  rwa [List.length_map] at hlt

theorem littleEndian_ofLittleEndian (hlen : bytes.length = size) : littleEndian size (ofLittleEndian bytes) = bytes := by
  subst hlen
  have hsame := ofLittleEndian_littleEndian bytes.length (ofLittleEndian bytes)
  rw [Nat.mod_eq_of_lt (ofLittleEndian_lt bytes)] at hsame
  refine List.map_injective_iff.2 (fun _ _ => UInt8.toNat_inj.1) ?_
  exact Nat.ofDigits_inj_of_len_eq (by decide) (by simp) (toNat_lt_of_mem _) (toNat_lt_of_mem _) hsame

/-- Bytes that a number has no place for do not count. -/
theorem littleEndian_mod (size n : ℕ) : littleEndian size (n % 256 ^ size) = littleEndian size n := by
  rw [← ofLittleEndian_littleEndian]
  exact littleEndian_ofLittleEndian (length_littleEndian size n)

/-- The number as the sum of its bytes, each at its place. -/
theorem ofLittleEndian_inOrder (e : Bool) (bytes : List UInt8) :
    ofLittleEndian (inOrder e bytes) =
      ((List.range bytes.length).map fun i => (bytes.getD i 0).toNat * 256 ^ place e bytes.length i).sum := by
  have hplaces : ((List.range bytes.length).map fun i => (bytes.getD i 0).toNat * 256 ^ place e bytes.length i) =
      (List.range bytes.length).map fun i => ((inOrder e bytes).getD (place e bytes.length i) 0).toNat *
        256 ^ place e bytes.length i := by
    refine List.map_congr_left fun i hi => ?_
    rw [List.getD_eq_getElem?_getD, List.getD_eq_getElem?_getD, getElem?_inOrder e bytes (List.mem_range.1 hi)]
  have hsum : (List.range bytes.length).map (fun i => ((inOrder e bytes).getD i 0).toNat * 256 ^ i) =
      ((inOrder e bytes).map UInt8.toNat).mapIdx fun i digit => digit * 256 ^ i := by
    refine List.ext_getElem (by simp) fun i hi hi' => ?_
    simp at hi hi'
    simp [hi]
  rw [hplaces, map_place e bytes.length fun i => ((inOrder e bytes).getD i 0).toNat * 256 ^ i, sum_inOrder, hsum,
    ← Nat.ofDigits_eq_sum_mapIdx, ofLittleEndian]

/-- One byte more is taken off at one end and put on at the other. -/
theorem ofLittleEndian_reverse_littleEndian_succ (size n : ℕ) :
    ofLittleEndian (littleEndian (size + 1) n).reverse =
      n / 256 ^ size % 256 + 256 * ofLittleEndian (littleEndian size n).reverse := by
  rw [littleEndian_succ, List.reverse_append, List.reverse_singleton, List.singleton_append, ofLittleEndian_cons,
    toNat_ofNat_byte]

end Numbers

end Nessus.Lib
