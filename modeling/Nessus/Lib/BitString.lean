import Mathlib.Data.List.Basic

/-!
# Numbers as strings of bits

`bits width l` writes each number of a list with `width` bits, the least significant one first.  What happens to a
string happens to its bits one by one (`getElem?_bits`).
-/

namespace Nessus.Lib

/-- The bits of numbers of one width, the least significant bit of each first. -/
def bits (width : ℕ) (l : List ℕ) : List Bool := l.flatMap fun n => (List.range width).map n.testBit

section Bits

variable {width : ℕ} {l : List ℕ}

@[simp] theorem bits_nil : bits width [] = [] := rfl

theorem bits_cons (n : ℕ) : bits width (n :: l) = (List.range width).map n.testBit ++ bits width l := rfl

theorem bits_append (l₁ l₂ : List ℕ) : bits width (l₁ ++ l₂) = bits width l₁ ++ bits width l₂ :=
  List.flatMap_append

theorem length_bits : (bits width l).length = width * l.length := by
  induction l with
  | nil => rfl
  | cons n l ih =>
    rw [bits_cons, List.length_append, ih, List.length_map, List.length_range, List.length_cons, Nat.mul_succ]
    omega

/-- The `k`-th bit is one of the number in the place `k / width`. -/
theorem getElem?_bits (hw : 0 < width) (k : ℕ) :
    (bits width l)[k]? = l[k / width]?.map fun n => n.testBit (k % width) := by
  induction l generalizing k with
  | nil => rfl
  | cons n l ih =>
    rw [bits_cons, List.getElem?_append, List.length_map, List.length_range]
    by_cases hk : k < width
    · rw [if_pos hk, Nat.div_eq_of_lt hk, Nat.mod_eq_of_lt hk, List.getElem?_map, List.getElem?_range hk]
      rfl
    · have hle : width ≤ k := Nat.le_of_not_lt hk
      rw [if_neg hk, ih, Nat.div_eq_sub_div hw hle, List.getElem?_cons_succ, Nat.mod_eq_sub_mod hle]

theorem bits_take (hw : 0 < width) (n : ℕ) : bits width (l.take n) = (bits width l).take (width * n) := by
  apply List.ext_getElem?
  intro k
  rw [getElem?_bits hw, List.getElem?_take, List.getElem?_take, getElem?_bits hw]
  have hiff : k / width < n ↔ k < width * n := by rw [Nat.div_lt_iff_lt_mul hw, Nat.mul_comm]
  by_cases hk : k < width * n
  · rw [if_pos hk, if_pos (hiff.2 hk)]
  · rw [if_neg hk, if_neg fun h => hk (hiff.1 h)]
    rfl

theorem bits_drop (n : ℕ) : bits width (l.drop n) = (bits width l).drop (width * n) := by
  induction n generalizing l with
  | zero => rfl
  | succ n ih =>
    cases l with
    | nil => simp
    | cons m l =>
      rw [List.drop_succ_cons, ih, bits_cons, Nat.mul_succ, Nat.add_comm, ← List.drop_drop]
      congr 1
      rw [List.drop_append_of_le_length (by simp), List.drop_eq_nil_of_le (by simp), List.nil_append]

theorem bits_zeros (n : ℕ) : bits width (List.replicate n 0) = List.replicate (width * n) false := by
  induction n with
  | zero => rfl
  | succ n ih =>
    have hzero : (List.range width).map (Nat.testBit 0) = List.replicate width false := by
      rw [funext Nat.zero_testBit, List.map_const', List.length_range]
    rw [List.replicate_succ, bits_cons, ih, hzero, List.replicate_append_replicate, Nat.mul_succ, Nat.add_comm]

end Bits

end Nessus.Lib
