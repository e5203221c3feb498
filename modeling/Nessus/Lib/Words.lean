import Mathlib.Data.Int.Order.Basic
import Mathlib.Tactic.Cases
import Mathlib.Tactic.Linarith
import Nessus.Lib.CInt

/-!
# Words

Unsigned numbers of `w` bits.

* `shiftLeft`, `shiftRight`, `divWord`, `modWord` — the operators of C++ that are not defined for all arguments;
* `rotate` — rotation to the left by an integer; rotations add up (`rotate_rotate`), those by a multiple of the width
  do nothing (`rotate_of_dvd`), and the opposite ones are those to the right (`rotate_neg`).
-/

namespace Nessus.Lib

variable {ε : Type} {w : ℕ}

/-! ## Operators -/

/-- `number << bits`, undefined for a negative number of bits and from the width on. -/
def shiftLeft (number : BitVec w) (bits : ℤ) : Outcome ε (BitVec w) :=
  if 0 ≤ bits ∧ bits < w then .ok (number <<< bits.toNat) else .undefined

/-- `number >> bits`. -/
def shiftRight (number : BitVec w) (bits : ℤ) : Outcome ε (BitVec w) :=
  if 0 ≤ bits ∧ bits < w then .ok (number >>> bits.toNat) else .undefined

/-- `a / b`. -/
def divWord (a b : BitVec w) : Outcome ε (BitVec w) := if b ≠ 0 then .ok (a / b) else .undefined

/-- `a % b`. -/
def modWord (a b : BitVec w) : Outcome ε (BitVec w) := if b ≠ 0 then .ok (a % b) else .undefined

section Operators

variable {number : BitVec w} {n : ℕ}

theorem shiftLeft_natCast (hn : n < w) : (shiftLeft number n : Outcome ε (BitVec w)) = .ok (number <<< n) :=
  if_pos ⟨by omega, by omega⟩

theorem shiftRight_natCast (hn : n < w) : (shiftRight number n : Outcome ε (BitVec w)) = .ok (number >>> n) :=
  if_pos ⟨by omega, by omega⟩

/-- A number of bits is not cut where a word is shifted by it. -/
theorem toNat_ofNat_mod (hn : n < 64) : (UInt64.ofNat n).toNat % 64 = n := by
  rw [UInt64.toNat_ofNat_of_lt' (by show n < 2 ^ 64; omega)]
  omega

end Operators

/-! ## Rotations -/

/-- The bits are moved `k` places up, and around. -/
def rotate (number : BitVec w) (k : ℤ) : BitVec w := number.rotateLeft (k % w).toNat

section Rotations

variable {number : BitVec w} {a b k : ℤ}

theorem getLsbD_rotate (number : BitVec w) (k : ℤ) {i : ℕ} (hi : i < w) :
    (rotate number k).getLsbD i = number.getLsbD ((i - k) % w).toNat := by
  have hw : (0 : ℤ) < w := by omega
  have hlo := Int.emod_nonneg k hw.ne'
  have hhi := Int.emod_lt_of_pos k hw
  have hsource : ((i : ℤ) - k) % w = (i - k % w) % w := by rw [Int.sub_emod, Int.sub_emod i (k % w), Int.emod_emod]
  rw [rotate, BitVec.getLsbD_rotateLeft_of_le (by omega), hsource]
  by_cases hlt : i < (k % w).toNat
  · have hback : ((i : ℤ) - k % w) % w = i - k % w + w := by
      rw [← Int.add_emod_right]
      exact Int.emod_eq_of_lt (by omega) (by omega)
    rw [decide_eq_true hlt, cond_true, hback]
    congr 1
    omega
  · have hback : ((i : ℤ) - k % w) % w = i - k % w := Int.emod_eq_of_lt (by omega) (by omega)
    rw [decide_eq_false hlt, cond_false, decide_eq_true hi, Bool.true_and, hback]
    congr 1
    omega

/-- **Rotations add up.** -/
theorem rotate_rotate (number : BitVec w) (a b : ℤ) : rotate (rotate number a) b = rotate number (a + b) := by
  apply BitVec.eq_of_getLsbD_eq
  intro i hi
  have hw : (0 : ℤ) < w := by omega
  have hlo := Int.emod_nonneg ((i : ℤ) - b) hw.ne'
  have hhi := Int.emod_lt_of_pos ((i : ℤ) - b) hw
  rw [getLsbD_rotate _ _ hi, getLsbD_rotate _ _ (by omega), getLsbD_rotate _ _ hi, Int.toNat_of_nonneg hlo,
    Int.emod_sub_emod, Int.sub_sub, Int.add_comm b]

theorem rotate_congr (number : BitVec w) (h : a % w = b % w) : rotate number a = rotate number b := by
  rw [rotate, rotate, h]

theorem rotate_of_dvd (h : (w : ℤ) ∣ k) : rotate number k = number := by
  apply BitVec.eq_of_getLsbD_eq
  intro i hi
  have hsame : ((i : ℤ) - k) % w = i := by
    rw [Int.sub_emod, Int.emod_eq_zero_of_dvd h, Int.sub_zero, Int.emod_emod]
    exact Int.emod_eq_of_lt (by omega) (by omega)
  rw [getLsbD_rotate _ _ hi, hsame, Int.toNat_natCast]

theorem rotate_neg (number : BitVec w) (k : ℤ) : rotate number (-k) = number.rotateRight (k % w).toNat := by
  apply BitVec.eq_of_getLsbD_eq
  intro i hi
  have hw : (0 : ℤ) < w := by omega
  have hlo := Int.emod_nonneg k hw.ne'
  have hhi := Int.emod_lt_of_pos k hw
  have hsource : ((i : ℤ) - -k) % w = (i + k % w) % w := by rw [Int.sub_neg, Int.add_emod_emod]
  rw [getLsbD_rotate _ _ hi, BitVec.getLsbD_rotateRight, hsource, Nat.mod_eq_of_lt (by omega)]
  by_cases hlt : i < w - (k % w).toNat
  · have hforth : ((i : ℤ) + k % w) % w = i + k % w := Int.emod_eq_of_lt (by omega) (by omega)
    rw [decide_eq_true hlt, cond_true, hforth]
    congr 1
    omega
  · have hforth : ((i : ℤ) + k % w) % w = i + k % w - w := by
      rw [← Int.sub_emod_right]
      exact Int.emod_eq_of_lt (by omega) (by omega)
    rw [decide_eq_false hlt, cond_false, decide_eq_true hi, Bool.true_and, hforth]
    congr 1
    omega

theorem toNat_natCast_emod {n : ℕ} (hn : n < w) : ((n : ℤ) % w).toNat = n := by
  rw [Int.emod_eq_of_lt (by omega) (by omega), Int.toNat_natCast]

/-- The bits that leave on one side come back on the other. -/
theorem rotate_natCast {n : ℕ} (hn : n < w) (number : BitVec w) : rotate number n = number <<< n ||| number >>> (w - n) := by
  rw [rotate, toNat_natCast_emod hn, BitVec.rotateLeft_def, Nat.mod_eq_of_lt hn]

theorem rotate_neg_natCast {n : ℕ} (hn : n < w) (number : BitVec w) :
    rotate number (-n) = number >>> n ||| number <<< (w - n) := by
  rw [rotate_neg, toNat_natCast_emod hn, BitVec.rotateRight_def, Nat.mod_eq_of_lt hn]

end Rotations

end Nessus.Lib
