import Mathlib.Algebra.GroupWithZero.Nat
import Mathlib.Data.Fin.Basic
import Mathlib.Data.List.FinRange
import Mathlib.Logic.Function.Iterate

/-!
# Keccak-p, bit by bit

The permutation of the standard on state arrays of `5 × 5 × w` single bits.

* `theta`, `rho`, `pi`, `chi`, `iota` — the step mappings; `rhoOffset` is the table of offsets, and `rc` the shift
  register of the round constants;
* `keccakP` — the permutation of strings of `25 * w` bits.
-/

namespace Nessus.Lib.Keccak

/-- A state array: the bit at `x`, `y`, `z`. -/
abbrev Bits (w : ℕ) := Fin 5 → Fin 5 → Fin w → Bool

/-! ## The step mappings -/

section Steps

variable {w : ℕ} [NeZero w]

def parity (A : Bits w) (x : Fin 5) (z : Fin w) : Bool := A x 0 z ^^ A x 1 z ^^ A x 2 z ^^ A x 3 z ^^ A x 4 z

/-- θ: every bit is added to the parities of two columns. -/
def theta (A : Bits w) : Bits w := fun x y z => A x y z ^^ (parity A (x - 1) z ^^ parity A (x + 1) (z - 1))

def rhoOffset (x y : Fin 5) : ℕ :=
  match x.val, y.val with
  | 0, 0 => 0
  | 0, 1 => 36
  | 0, 2 => 3
  | 0, 3 => 105
  | 0, 4 => 210
  | 1, 0 => 1
  | 1, 1 => 300
  | 1, 2 => 10
  | 1, 3 => 45
  | 1, 4 => 66
  | 2, 0 => 190
  | 2, 1 => 6
  | 2, 2 => 171
  | 2, 3 => 15
  | 2, 4 => 253
  | 3, 0 => 28
  | 3, 1 => 55
  | 3, 2 => 153
  | 3, 3 => 21
  | 3, 4 => 120
  | 4, 0 => 91
  | 4, 1 => 276
  | 4, 2 => 231
  | 4, 3 => 136
  | _, _ => 78

/-- The lanes of ρ one after the other, from `(1, 0)` on. -/
def rhoLane : ℕ → Fin 5 × Fin 5
  | 0 => (1, 0)
  | t + 1 => ((rhoLane t).2, 2 * (rhoLane t).1 + 3 * (rhoLane t).2)

/-- The table says what the algorithm makes of the lanes. -/
theorem rhoOffset_rhoLane : ∀ t < 24, rhoOffset (rhoLane t).1 (rhoLane t).2 = (t + 1) * (t + 2) / 2 := by decide

/-- It has an offset for every lane but the first one. -/
theorem exists_rhoLane : ∀ x y : Fin 5, (x, y) ≠ (0, 0) → ∃ t < 24, rhoLane t = (x, y) := by decide

/-- ρ: the bits of a lane are rotated. -/
def rho (A : Bits w) : Bits w := fun x y z => A x y (z - Fin.ofNat w (rhoOffset x y))

def pi (A : Bits w) : Bits w := fun x y z => A (x + 3 * y) x z

/-- χ: every bit is added to a product of two bits of its row. -/
def chi (A : Bits w) : Bits w := fun x y z => A x y z ^^ (!A (x + 1) y z && A (x + 2) y z)

end Steps

/-! ## The round constants -/

/-- One step of the shift register. -/
def rcStep (R : List Bool) : List Bool :=
  let R := false :: R
  let bit := R.getD 8 false
  ((((R.modify 0 (· ^^ bit)).modify 4 (· ^^ bit)).modify 5 (· ^^ bit)).modify 6 (· ^^ bit)).take 8

/-- The shift register after `t` steps, from `10000000` on. -/
def rcRegister (t : ℕ) : List Bool := rcStep^[t] (true :: List.replicate 7 false)

/-- The bit of the shift register. -/
def rc (t : ℕ) : Bool := if t % 255 = 0 then true else (rcRegister (t % 255)).getD 0 false

/-- The round constant, where a lane has `2 ^ l` bits. -/
def roundConstant (l ir : ℕ) : ℕ → Bool :=
  (List.range (l + 1)).foldl (fun RC j z => if z = 2 ^ j - 1 then rc (j + 7 * ir) else RC z) fun _ => false

section Permutation

variable {w : ℕ} [NeZero w]

/-- ι: the round constant is added to the first lane. -/
def iota (l ir : ℕ) (A : Bits w) : Bits w := fun x y z =>
  if x = 0 ∧ y = 0 then A x y z ^^ roundConstant l ir z else A x y z

/-! ## The permutation -/

def round (l ir : ℕ) (A : Bits w) : Bits w := iota l ir (chi (pi (rho (theta A))))

/-- `nr` rounds, the last of which has the number `12 + 2 * l - 1`. -/
def rounds (l nr : ℕ) (A : Bits w) : Bits w := (List.range nr).foldl (fun A i => round l (12 + 2 * l - nr + i) A) A

/-- The state array of a string. -/
def ofString (S : List Bool) : Bits w := fun x y z => S.getD (w * (5 * y + x) + z) false

/-- The string of a state array, plane by plane and lane by lane. -/
def toString (A : Bits w) : List Bool :=
  (List.finRange 5).flatMap fun y => (List.finRange 5).flatMap fun x => (List.finRange w).map (A x y)

/-- Keccak-p with `nr` rounds, on strings of `25 * w` bits where `w` is `2 ^ l`. -/
def keccakP (w l nr : ℕ) [NeZero w] (S : List Bool) : List Bool := toString (rounds l nr (ofString S : Bits w))

end Permutation

end Nessus.Lib.Keccak
