import Nessus.Abi.Sha3Keccak
import Nessus.Lib.Words

/-!
# Rotations

`rotl` and `rotr` of unsigned numbers of `w` bits, for any `int`.

* `bitwiseRotateImpl` — the recursion, which changes the direction for a remainder that is not positive;
* `bitwiseRotateImpl_eq` — it ends, is defined, and rotates;
* `rotations` — **the laws of `rotl` and `rotr`**.
-/

namespace Nessus.Meta

open Nessus.Lib Outcome

variable {ε : Type} {w : ℕ}

/-- `rotl_impl`; `digits` is the width. -/
def rotlImpl (number : BitVec w) (bits : ℤ) : Outcome ε (BitVec w) :=
  shiftLeft number bits >>= fun left =>
  checked (w - bits) >>= fun rest => shiftRight number rest >>= fun right => .ok (left ||| right)

def rotrImpl (number : BitVec w) (bits : ℤ) : Outcome ε (BitVec w) :=
  shiftRight number bits >>= fun right =>
  checked (w - bits) >>= fun rest => shiftLeft number rest >>= fun left => .ok (right ||| left)

def rotateImpl (left : Bool) : BitVec w → ℤ → Outcome ε (BitVec w) := if left then rotlImpl else rotrImpl

def callsLeft (bits : ℤ) : ℕ := if bits < 0 then 2 else if bits = 0 then 0 else 1

theorem callsLeft_lt {a b : ℤ} (ha : a ≠ 0) (hr : ¬ 0 < a.tmod b) : callsLeft (-a.tmod b) < callsLeft a := by
  unfold callsLeft
  rcases lt_or_gt_of_ne ha with hneg | hpos
  · rw [if_neg (by omega), if_pos hneg]
    split <;> decide
  · have hnonneg := Int.tmod_nonneg b hpos.le
    have hzero : -a.tmod b = 0 := by omega
    rw [hzero, if_neg (lt_irrefl 0), if_pos rfl, if_neg hpos.not_gt, if_neg ha]
    decide

/-- `bitwise_rotate_impl`: `%=` and the change of the sign are undefined where their values are not in range. -/
def bitwiseRotateImpl (left : Bool) (number : BitVec w) (bits : ℤ) : Outcome ε (BitVec w) :=
  if bits = 0 then .ok number
  else if (w : ℤ) = 0 ∨ ¬ InInt (bits.tdiv w) then .undefined
  else if 0 < bits.tmod w then rotateImpl left number (bits.tmod w)
  else if ¬ InInt (-bits.tmod w) then .undefined
  else bitwiseRotateImpl (!left) number (-bits.tmod w)
termination_by callsLeft bits
decreasing_by exact callsLeft_lt ‹_› ‹_›

def rotl (number : BitVec w) (bits : ℤ) : Outcome ε (BitVec w) := bitwiseRotateImpl true number bits

def rotr (number : BitVec w) (bits : ℤ) : Outcome ε (BitVec w) := bitwiseRotateImpl false number bits

/-! ## What they compute -/

def directed (left : Bool) (bits : ℤ) : ℤ := if left then bits else -bits

section Spec

variable {number : BitVec w} {bits : ℤ}

theorem rotateImpl_eq (hin : InInt w) (left : Bool) (number : BitVec w) {n : ℕ} (hpos : 0 < n) (hn : n < w) :
    (rotateImpl left number n : Outcome ε (BitVec w)) = .ok (rotate number (directed left n)) := by
  have hrest : (checked ((w : ℤ) - n) : Outcome ε ℤ) = .ok ((w - n : ℕ) : ℤ) := by
    rw [Nat.cast_sub hn.le]
    exact if_pos (inInt_of_nonneg (by omega) (by omega) hin)
  cases left with
  | true =>
    rw [rotateImpl, if_pos rfl, rotlImpl, shiftLeft_natCast hn, ok_bind, hrest, ok_bind, shiftRight_natCast (by omega),
      ok_bind, directed, if_pos rfl, rotate_natCast hn]
  | false =>
    rw [rotateImpl, if_neg Bool.false_ne_true, rotrImpl, shiftRight_natCast hn, ok_bind, hrest, ok_bind,
      shiftLeft_natCast (by omega), ok_bind, directed, if_neg Bool.false_ne_true, rotate_neg_natCast hn]

theorem directed_not (left : Bool) (bits : ℤ) : directed (!left) (-bits) = directed left bits := by
  cases left <;> simp [directed]

theorem rotate_directed_tmod (left : Bool) (number : BitVec w) (bits : ℤ) :
    rotate number (directed left (bits.tmod w)) = rotate number (directed left bits) := by
  refine rotate_congr number ?_
  cases left with
  | true =>
    show bits.tmod w % w = bits % w
    rw [Int.tmod_def, Int.sub_mul_emod_self_left]
  | false =>
    show -bits.tmod w % w = -bits % w
    rw [Int.tmod_def, Int.neg_sub, Int.sub_eq_add_neg, Int.add_comm, Int.add_mul_emod_self_left]

theorem inInt_tdiv {bits : ℤ} (hbits : InInt bits) (w : ℕ) : InInt (bits.tdiv w) := by
  obtain ⟨hlo, hhi⟩ := hbits
  rcases le_or_gt 0 bits with hpos | hneg
  · exact inInt_of_nonneg (Int.tdiv_nonneg hpos (Int.natCast_nonneg w)) (Int.tdiv_le_self _ hpos) ⟨hlo, hhi⟩
  · have hopposite : bits.tdiv w = -((-bits).tdiv w) := by rw [Int.neg_tdiv, Int.neg_neg]
    have hle : (-bits).tdiv w ≤ -bits := Int.tdiv_le_self _ (by omega)
    have hnonneg : 0 ≤ (-bits).tdiv w := Int.tdiv_nonneg (by omega) (Int.natCast_nonneg w)
    rw [hopposite]
    unfold InInt minInt maxInt at *
    omega

/-- A remainder that is not positive can change its sign. -/
theorem inInt_neg_tmod (hw : 0 < w) (hin : InInt w) {bits : ℤ} (hpos : ¬ 0 < bits.tmod w) : InInt (-bits.tmod w) := by
  have hlt := Int.lt_tmod_of_pos bits (show (0 : ℤ) < w by omega)
  exact inInt_of_nonneg (by omega) (by omega) hin

/-- **The recursion ends and rotates**, and neither a shift nor an `int` leaves its range. -/
theorem bitwiseRotateImpl_eq (hw : 0 < w) (hin : InInt w) (left : Bool) (number : BitVec w) {bits : ℤ} (hbits : InInt bits) :
    (bitwiseRotateImpl left number bits : Outcome ε (BitVec w)) = .ok (rotate number (directed left bits)) := by
  fun_induction bitwiseRotateImpl left number bits with
  | case1 left =>
    have hzero : directed left 0 = 0 := by cases left <;> rfl
    rw [hzero, rotate_of_dvd (dvd_zero _)]
  | case2 left bits hne hundef =>
    rcases hundef with hzero | hdiv
    · omega
    · exact absurd (inInt_tdiv hbits w) hdiv
  | case3 left bits hne hdef hpos =>
    obtain ⟨n, hn⟩ := Int.eq_ofNat_of_zero_le hpos.le
    have hlt := Int.tmod_lt_of_pos bits (show (0 : ℤ) < w by omega)
    rw [← rotate_directed_tmod, hn]
    exact rotateImpl_eq hin left number (by omega) (by omega)
  | case4 left bits hne hdef hpos hundef => exact absurd (inInt_neg_tmod hw hin hpos) hundef
  | case5 left bits hne hdef hpos hin' ih =>
    rw [ih (not_not.1 hin'), directed_not, rotate_directed_tmod]

theorem rotl_eq (hw : 0 < w) (hin : InInt w) (number : BitVec w) (hbits : InInt bits) :
    (rotl number bits : Outcome ε (BitVec w)) = .ok (rotate number bits) :=
  bitwiseRotateImpl_eq hw hin true number hbits

theorem rotr_eq (hw : 0 < w) (hin : InInt w) (number : BitVec w) (hbits : InInt bits) :
    (rotr number bits : Outcome ε (BitVec w)) = .ok (rotate number (-bits)) :=
  bitwiseRotateImpl_eq hw hin false number hbits

theorem rotl_sha3 (number : UInt64) {bits : ℕ} (hbits : InInt bits) :
    (rotl number.toBitVec bits : Outcome ε (BitVec 64)) = .ok (Abi.Sha3.rotl number bits).toBitVec := by
  rw [rotl_eq (by decide) (by decide) _ hbits]
  refine congrArg _ (BitVec.eq_of_getLsbD_eq fun i hi => ?_)
  have hsource : (((i : ℤ) - bits) % (64 : ℕ)).toNat = (64 - bits % 64 + i) % 64 := by omega
  rw [getLsbD_rotate _ _ hi, hsource]
  exact (Abi.Sha3.testBit_rotl number bits hi).symm

end Spec

/-- **The laws of `rotl` and `rotr`**, for numbers of 32 and 64 bits: they are always defined, and rotate by their bits
modulo the width; each undoes the other, and rotations add up. -/
theorem rotations (hw : w = 32 ∨ w = 64) (x : BitVec w) :
    (∀ bits, InInt bits → (rotl x bits : Outcome ε (BitVec w)) = .ok (x.rotateLeft (bits % w).toNat) ∧
      (rotr x bits : Outcome ε (BitVec w)) = .ok (x.rotateRight (bits % w).toNat)) ∧
    (∀ b, InInt b → (rotl x b >>= fun y => rotr y b : Outcome ε (BitVec w)) = .ok x) ∧
    ∀ a b, InInt a → InInt b → InInt (a + b) →
      (rotl x a >>= fun y => rotl y b : Outcome ε (BitVec w)) = rotl x (a + b) := by
  have hpos : 0 < w := by omega
  have hin : InInt w := by rcases hw with rfl | rfl <;> decide
  refine ⟨fun bits hbits => ⟨rotl_eq hpos hin x hbits, ?_⟩, fun b hb => ?_, fun a b ha hb hab => ?_⟩
  · rw [rotr_eq hpos hin x hbits, rotate_neg]
  · rw [rotl_eq hpos hin x hb, ok_bind, rotr_eq hpos hin _ hb, rotate_rotate, Int.add_right_neg, rotate_of_dvd (dvd_zero _)]
  · rw [rotl_eq hpos hin x ha, ok_bind, rotl_eq hpos hin _ hb, rotl_eq hpos hin x hab, rotate_rotate]

/-- The bits that take different ways: none, the width, a negative number, and the least `int`. -/
theorem rotations_run :
    (rotl (0x80000001 : BitVec 32) (-2147483648) : Outcome Empty (BitVec 32)) = .ok 0x80000001 ∧
      (rotr (0x80000001 : BitVec 32) (-33) : Outcome Empty (BitVec 32)) = .ok 3 ∧
      (rotl (1 : BitVec 64) 65 >>= fun y => rotr y 65 : Outcome Empty (BitVec 64)) = .ok 1 ∧
      (rotl (1 : BitVec 64) 2147483647 >>= fun y => rotl y (-2147483648) : Outcome Empty (BitVec 64)) = rotl 1 (-1) :=
  ⟨((rotations (.inl rfl) 0x80000001).1 (-2147483648) (by decide)).1.trans (by decide),
    ((rotations (.inl rfl) 0x80000001).1 (-33) (by decide)).2.trans (by decide),
    (rotations (.inr rfl) 1).2.1 65 (by decide),
    (rotations (.inr rfl) 1).2.2 2147483647 (-2147483648) (by decide) (by decide) (by decide)⟩

end Nessus.Meta
