import Mathlib.Algebra.Order.Ring.Nat
import Mathlib.Data.List.Basic

/-!
# Base 64

The encoding of RFC 4648 with padding: three bytes become four characters of six bits each.

* `encode`, `isValid` — the encoding, and the texts that have its form;
* `length_encode`, `drop_encode` — every four characters are the encoding of three bytes;
* `sextets_or` — the six bits of each character at their places in a word, put together, are the bytes.
-/

namespace Nessus.Lib.Base64

/-- The character of a value below 64. -/
def char (v : ℕ) : UInt8 :=
  if v < 26 then .ofNat (65 + v)
  else if v < 52 then .ofNat (71 + v)
  else if v < 62 then .ofNat (v - 4)
  else if v = 62 then 43
  else 47

/-- `=`. -/
def pad : UInt8 := 61

/-- The six bits of three bytes. -/
def sextet₀ (a : UInt8) : ℕ := a.toNat / 4
def sextet₁ (a b : UInt8) : ℕ := a.toNat % 4 * 16 + b.toNat / 16
def sextet₂ (b c : UInt8) : ℕ := b.toNat % 16 * 4 + c.toNat / 64
def sextet₃ (c : UInt8) : ℕ := c.toNat % 64

def encode : List UInt8 → List UInt8
  | [] => []
  | [a] => [char (sextet₀ a), char (sextet₁ a 0), pad, pad]
  | [a, b] => [char (sextet₀ a), char (sextet₁ a b), char (sextet₂ b 0), pad]
  | a :: b :: c :: l => char (sextet₀ a) :: char (sextet₁ a b) :: char (sextet₂ b c) :: char (sextet₃ c) :: encode l

/-- The character is in the alphabet. -/
def inAlphabet (ch : UInt8) : Bool := (List.range 64).any fun v => char v == ch

/-- The text has the form of an encoding: four characters each, of which the last two or the last one may be padding. -/
def isValid : List UInt8 → Bool
  | [] => true
  | [a, b, c, d] =>
    inAlphabet a && inAlphabet b && (inAlphabet c && (inAlphabet d || d == pad) || c == pad && d == pad)
  | a :: b :: c :: d :: l => inAlphabet a && inAlphabet b && inAlphabet c && inAlphabet d && isValid l
  | _ => false

section Encode

variable {a b c : UInt8} {l : List UInt8} {v k : ℕ}

theorem char_ne_pad (hv : v < 64) : char v ≠ pad := by
  have h : ∀ v : Fin 64, char v ≠ pad := by decide
  exact h ⟨v, hv⟩

theorem sextet₀_lt : sextet₀ a < 64 := by
  have := a.toNat_lt
  unfold sextet₀
  omega

theorem sextet₁_lt : sextet₁ a b < 64 := by
  have := b.toNat_lt
  unfold sextet₁
  omega

theorem sextet₂_lt : sextet₂ b c < 64 := by
  have := c.toNat_lt
  unfold sextet₂
  omega

theorem sextet₃_lt : sextet₃ c < 64 := Nat.mod_lt _ (by decide)

theorem length_encode (l : List UInt8) : (encode l).length = (l.length + 2) / 3 * 4 := by
  induction l using encode.induct with
  | case1 => rfl
  | case2 a => simp [encode]
  | case3 a b => simp [encode]
  | case4 a b c l ih =>
    simp only [encode, List.length_cons, ih]
    omega

/-- What is left after some groups is the encoding of what is left of the bytes. -/
theorem drop_encode (hk : 3 * k ≤ l.length) : (encode l).drop (4 * k) = encode (l.drop (3 * k)) := by
  induction k generalizing l with
  | zero => rfl
  | succ k ih =>
    match l, hk with
    | a :: b :: c :: l, hk =>
      simp only [List.length_cons] at hk
      have hfour : 4 * (k + 1) = 4 * k + 1 + 1 + 1 + 1 := by omega
      have hthree : 3 * (k + 1) = 3 * k + 1 + 1 + 1 := by omega
      rw [encode, hfour, hthree]
      simp only [List.drop_succ_cons]
      exact ih (by omega)

end Encode

/-! ## The bits -/

/-- The bits of the characters at their places in a word, whose lowest byte is the first. -/
def place₀ (v : ℕ) : ℕ := 2 ^ 2 * v
def place₁ (v : ℕ) : ℕ := 2 ^ 12 * (v % 16) ||| v / 16
def place₂ (v : ℕ) : ℕ := 2 ^ 22 * (v % 4) ||| 2 ^ 8 * (v / 4)
def place₃ (v : ℕ) : ℕ := 2 ^ 16 * v

/-- **The bytes are put together** from their parts. -/
theorem sextets_or (a b c : UInt8) :
    place₀ (sextet₀ a) ||| place₁ (sextet₁ a b) ||| place₂ (sextet₂ b c) ||| place₃ (sextet₃ c) =
      a.toNat + 2 ^ 8 * b.toNat + 2 ^ 16 * c.toNat := by
  have ha := a.toNat_lt
  have hb := b.toNat_lt
  have hc := c.toNat_lt
  simp only [place₀, place₁, place₂, place₃, sextet₀, sextet₁, sextet₂, sextet₃]
  generalize a.toNat = a at ha ⊢
  generalize b.toNat = b at hb ⊢
  generalize c.toNat = c at hc ⊢
  have h₁ : (a % 4 * 16 + b / 16) % 16 = b / 16 := by omega
  have h₂ : (a % 4 * 16 + b / 16) / 16 = a % 4 := by omega
  have h₃ : (b % 16 * 4 + c / 64) % 4 = c / 64 := by omega
  have h₄ : (b % 16 * 4 + c / 64) / 4 = b % 16 := by omega
  rw [h₁, h₂, h₃, h₄]
  -- from the lowest part up, each is above what there is so far
  calc 2 ^ 2 * (a / 4) ||| (2 ^ 12 * (b / 16) ||| a % 4) ||| (2 ^ 22 * (c / 64) ||| 2 ^ 8 * (b % 16)) ||| 2 ^ 16 * (c % 64)
      = 2 ^ 22 * (c / 64) ||| (2 ^ 16 * (c % 64) ||| (2 ^ 12 * (b / 16) ||| (2 ^ 8 * (b % 16) |||
          (2 ^ 2 * (a / 4) ||| a % 4)))) := by ac_rfl
    _ = 2 ^ 22 * (c / 64) + (2 ^ 16 * (c % 64) + (2 ^ 12 * (b / 16) + (2 ^ 8 * (b % 16) + (2 ^ 2 * (a / 4) + a % 4)))) := by
      rw [← Nat.two_pow_add_eq_or_of_lt (show a % 4 < 2 ^ 2 by omega) (a / 4),
        ← Nat.two_pow_add_eq_or_of_lt (show 2 ^ 2 * (a / 4) + a % 4 < 2 ^ 8 by omega) (b % 16),
        ← Nat.two_pow_add_eq_or_of_lt (show 2 ^ 8 * (b % 16) + _ < 2 ^ 12 by omega) (b / 16),
        ← Nat.two_pow_add_eq_or_of_lt (show 2 ^ 12 * (b / 16) + _ < 2 ^ 16 by omega) (c % 64),
        ← Nat.two_pow_add_eq_or_of_lt (show 2 ^ 16 * (c % 64) + _ < 2 ^ 22 by omega) (c / 64)]
    _ = a + 2 ^ 8 * b + 2 ^ 16 * c := by omega

end Nessus.Lib.Base64
