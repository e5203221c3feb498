import Mathlib.Data.Int.ModEq
import Nessus.Abi.Sha3
import Nessus.Lib.Words

/-!
# Modular subtraction

`minus_mod_unsigned` of unsigned numbers of `w` bits, whose difference wraps around where the subtrahend is the larger
one.

* `roundUp` — what is added to the difference: it, rounded up to a multiple of the divisor;
* `FixedUp` — the sum wraps around exactly once, or it does not matter how often;
* `minusModUnsigned_iff` — **where the result is the difference modulo the divisor**.
-/

namespace Nessus.Meta

open Nessus.Lib Outcome

variable {ε : Type} {w : ℕ}

def minusModUnsigned (minuend subtrahend divisor : BitVec w) : Outcome ε (BitVec w) :=
  if subtrahend ≤ minuend then modWord (minuend - subtrahend) divisor
  else
    let subtraction := minuend - subtrahend
    divWord subtraction divisor >>= fun quotient => modWord subtraction divisor >>= fun remainder =>
    let addition := (quotient + if remainder ≠ 0 then 1 else 0) * divisor
    modWord (subtraction + addition) divisor

/-! ## Multiples -/

/-- A multiple of `c` is at least `lo` and below `hi`. -/
def MultipleIn (c lo hi : ℕ) : Prop := ∃ k, lo ≤ k * c ∧ k * c < hi

/-- The number, rounded up to a multiple of `c`. -/
def roundUp (s c : ℕ) : ℕ := (s / c + if s % c ≠ 0 then 1 else 0) * c

section Multiples

variable {s c e : ℕ}

theorem dvd_roundUp (s c : ℕ) : c ∣ roundUp s c := Dvd.intro_left _ rfl

theorem le_roundUp (hc : 0 < c) (s : ℕ) : s ≤ roundUp s c := by
  have hdiv := Nat.div_add_mod' s c
  have hmod := Nat.mod_lt s hc
  unfold roundUp
  split
  · rw [Nat.add_mul, Nat.one_mul]
    omega
  · rw [Nat.add_zero]
    omega

theorem roundUp_lt (hc : 0 < c) (s : ℕ) : roundUp s c < s + c := by
  have hdiv := Nat.div_add_mod' s c
  unfold roundUp
  split
  · rw [Nat.add_mul, Nat.one_mul]
    omega
  · rw [Nat.add_zero]
    omega

theorem multipleIn_iff (hc : 0 < c) : MultipleIn c s e ↔ roundUp s c < e := by
  obtain ⟨m, hm⟩ := dvd_roundUp s c
  have hlt := roundUp_lt hc s
  constructor
  · rintro ⟨k, hk, hke⟩
    refine lt_of_le_of_lt ?_ hke
    rw [hm, Nat.mul_comm k]
    refine Nat.mul_le_mul_left c ?_
    by_contra hno
    have hle : c * (k + 1) ≤ c * m := Nat.mul_le_mul_left c (by omega)
    rw [Nat.mul_succ, ← hm, Nat.mul_comm] at hle
    omega
  · intro he
    refine ⟨m, ?_, ?_⟩
    · rw [Nat.mul_comm, ← hm]
      exact le_roundUp hc s
    · rwa [Nat.mul_comm, ← hm]

theorem not_multipleIn_of_le (h : e ≤ s) : ¬ MultipleIn c s e := fun ⟨_, hlo, hhi⟩ => (hlo.trans_lt hhi).not_ge h

end Multiples

/-! ## The result -/

/-- The evaluation comes to the mathematical difference modulo the divisor. -/
def IsDifference (a b c : BitVec w) (r : Outcome ε (BitVec w)) : Prop :=
  ∃ x, r = .ok x ∧ (x.toNat : ℤ) = ((a.toNat : ℤ) - b.toNat) % c.toNat

/-- No fixing up is needed, or the sum that is made for it wraps around once, or the divisor divides `2 ^ w`. -/
def FixedUp (a b c : BitVec w) : Prop :=
  b.toNat ≤ a.toNat ∨ c.toNat ∣ 2 ^ w ∨
    ¬ MultipleIn c.toNat (2 ^ w - (b.toNat - a.toNat)) (b.toNat - a.toNat) ∧
      MultipleIn c.toNat (2 ^ w - (b.toNat - a.toNat)) (2 ^ w + (b.toNat - a.toNat))

section Result

variable {a b c : BitVec w}

theorem ne_zero_of_toNat (hc : 0 < c.toNat) : c ≠ 0 := by
  rintro rfl
  exact hc.ne' rfl

theorem minusModUnsigned_of_le (h : b.toNat ≤ a.toNat) (hc : 0 < c.toNat) :
    ∃ x, (minusModUnsigned a b c : Outcome ε (BitVec w)) = .ok x ∧ x.toNat = (a.toNat - b.toNat) % c.toNat := by
  have hle : b ≤ a := by rwa [BitVec.le_def]
  refine ⟨(a - b) % c, ?_, ?_⟩
  · rw [minusModUnsigned, if_pos hle]
    exact if_pos (ne_zero_of_toNat hc)
  · rw [BitVec.toNat_umod, BitVec.toNat_sub_of_le hle]

theorem minusModUnsigned_of_lt (h : a.toNat < b.toNat) (hc : 0 < c.toNat) :
    ∃ x, (minusModUnsigned a b c : Outcome ε (BitVec w)) = .ok x ∧
      x.toNat = (2 ^ w - (b.toNat - a.toNat) + roundUp (2 ^ w - (b.toNat - a.toNat)) c.toNat) % 2 ^ w % c.toNat := by
  have hb := b.isLt
  have hne := ne_zero_of_toNat hc
  have hsub : (a - b).toNat = 2 ^ w - (b.toNat - a.toNat) := by
    rw [BitVec.toNat_sub, Nat.mod_eq_of_lt (by omega)]
    omega
  have hnot : ¬ b ≤ a := by
    rw [BitVec.le_def]
    omega
  have hbit : (if (a - b) % c ≠ 0 then 1 else 0 : BitVec w).toNat =
      (if (a - b).toNat % c.toNat ≠ 0 then 1 else 0) % 2 ^ w := by
    have hrem : (a - b) % c ≠ 0 ↔ (a - b).toNat % c.toNat ≠ 0 := by
      rw [ne_eq, ← BitVec.toNat_inj, BitVec.toNat_umod]
      rfl
    by_cases hr : (a - b) % c ≠ 0
    · rw [if_pos hr, if_pos (hrem.1 hr)]
      rfl
    · rw [if_neg hr, if_neg (hrem.not.1 hr)]
      rfl
  refine ⟨(a - b + ((a - b) / c + if (a - b) % c ≠ 0 then 1 else 0) * c) % c, ?_, ?_⟩
  · rw [minusModUnsigned, if_neg hnot]
    simp only [divWord, modWord, if_pos hne, ok_bind]
  · rw [BitVec.toNat_umod, BitVec.toNat_add, BitVec.toNat_mul, BitVec.toNat_add, BitVec.toNat_udiv, hbit, hsub, roundUp]
    simp [Nat.add_mod, Nat.mul_mod]

theorem minusModUnsigned_sha3 (a b : BitVec 64) {c : BitVec 64} (hc : 0 < c.toNat) :
    ∃ x, (minusModUnsigned a b c : Outcome ε (BitVec 64)) = .ok x ∧
      x.toNat = Abi.Sha3.minusModUnsigned a.toNat b.toNat c.toNat := by
  unfold Abi.Sha3.minusModUnsigned
  rcases Nat.lt_or_ge a.toNat b.toNat with hlt | hge
  · have hb := b.isLt
    have hsub : 2 ^ 64 + a.toNat - b.toNat = 2 ^ 64 - (b.toNat - a.toNat) := by omega
    rw [if_neg hlt.not_ge, hsub]
    dsimp only
    rw [Nat.add_mod_mod]
    exact minusModUnsigned_of_lt hlt hc
  · rw [if_pos hge]
    exact minusModUnsigned_of_le hge hc

theorem mod_eq_emod_iff {y c W : ℕ} {d j : ℤ} (hy : (y : ℤ) = d + j * W) :
    ((y % c : ℕ) : ℤ) = d % c ↔ (c : ℤ) ∣ j * W := by
  have hdvd : d ≡ d + j * W [ZMOD c] ↔ (c : ℤ) ∣ j * W := by rw [Int.modEq_iff_dvd, add_sub_cancel_left]
  rw [Int.natCast_mod, hy, ← hdvd]
  exact eq_comm

/-- The sum of the difference and its rounding up, where it wraps around: by itself it is a multiple of the divisor less
`d`, and one `W` more. -/
theorem wrapped_iff {W d c s t : ℕ} (hs : s + d = W) (hts : t < s + c) (hc : c < W) :
    (((s + t) % W % c : ℕ) : ℤ) = ((t : ℤ) - d) % c ↔ c ∣ W ∨ ¬ t < d ∧ t < W + d := by
  have hdvd (j : ℤ) (hj : j = 1 ∨ j = -1) : (c : ℤ) ∣ j * W ↔ c ∣ W := by
    rcases hj with rfl | rfl <;> simp [Int.natCast_dvd_natCast]
  rcases lt_or_ge t d with htd | hdt
  · -- it does not wrap around
    have hmod : (s + t) % W = s + t := Nat.mod_eq_of_lt (by omega)
    rw [hmod, mod_eq_emod_iff (d := (t : ℤ) - d) (j := 1) (W := W) (by omega), hdvd 1 (.inl rfl)]
    exact (or_iff_left fun h => h.1 htd).symm
  · rcases lt_or_ge t (W + d) with hlt | hge
    · have hmod : (s + t) % W = s + t - W := by
        rw [Nat.mod_eq_sub_mod (by omega)]
        exact Nat.mod_eq_of_lt (by omega)
      rw [hmod, mod_eq_emod_iff (d := (t : ℤ) - d) (j := 0) (W := W) (by omega), Int.zero_mul]
      exact iff_of_true (dvd_zero _) (.inr ⟨hdt.not_gt, hlt⟩)
    · -- it wraps around twice
      have hmod : (s + t) % W = s + t - W - W := by
        rw [Nat.mod_eq_sub_mod (by omega), Nat.mod_eq_sub_mod (by omega)]
        exact Nat.mod_eq_of_lt (by omega)
      rw [hmod, mod_eq_emod_iff (d := (t : ℤ) - d) (j := -1) (W := W) (by omega), hdvd (-1) (.inr rfl)]
      exact (or_iff_left fun h => h.2.not_ge hge).symm

end Result

/-- **Where the result is the difference modulo the divisor**, for every positive divisor. -/
theorem minusModUnsigned_iff (a b c : BitVec w) (hc : 0 < c.toNat) :
    IsDifference a b c (minusModUnsigned a b c : Outcome ε (BitVec w)) ↔ FixedUp a b c := by
  rcases Nat.lt_or_ge a.toNat b.toNat with hlt | hge
  · obtain ⟨x, hx, hval⟩ := minusModUnsigned_of_lt (ε := ε) hlt hc
    obtain ⟨s, hs⟩ : ∃ s, s = 2 ^ w - (b.toNat - a.toNat) := ⟨_, rfl⟩
    have hb := b.isLt
    have hdiff : ((a.toNat : ℤ) - b.toNat) % c.toNat = ((roundUp s c.toNat : ℤ) - (b.toNat - a.toNat : ℕ)) % c.toNat := by
      obtain ⟨m, hm⟩ := dvd_roundUp s c.toNat
      have hneg : (a.toNat : ℤ) - b.toNat = -(b.toNat - a.toNat : ℕ) := by omega
      rw [hm, hneg, Nat.cast_mul, Int.sub_eq_add_neg, Int.mul_add_emod_self_left]
    have hwrapped := wrapped_iff (d := b.toNat - a.toNat) (show s + (b.toNat - a.toNat) = 2 ^ w by omega)
      (roundUp_lt hc s) c.isLt
    rw [← hs] at hval
    rw [FixedUp, or_iff_right hlt.not_ge, ← hs, multipleIn_iff hc, multipleIn_iff hc, ← hwrapped, ← hdiff, ← hval, IsDifference,
      hx]
    constructor
    · rintro ⟨y, hy, hval'⟩
      cases hy
      exact hval'
    · exact fun h => ⟨x, rfl, h⟩
  · obtain ⟨x, hx, hval⟩ := minusModUnsigned_of_le (ε := ε) hge hc
    refine iff_of_true ⟨x, hx, ?_⟩ (.inl hge)
    rw [hval, Int.natCast_mod, Nat.cast_sub hge]

/-- A difference that is not negative, and the column to the left of the first one. -/
theorem minusModUnsigned_iff_run :
    IsDifference (7 : BitVec 32) 3 3 (minusModUnsigned 7 3 3 : Outcome Empty (BitVec 32)) ∧
      IsDifference (0 : BitVec 64) 1 5 (minusModUnsigned 0 1 5 : Outcome Empty (BitVec 64)) :=
  ⟨(minusModUnsigned_iff 7 3 3 (by decide)).2 (.inl (by decide)),
    (minusModUnsigned_iff 0 1 5 (by decide)).2
      (.inr (.inr ⟨not_multipleIn_of_le (by decide), (2 ^ 64 - 1) / 5, by decide⟩))⟩

/-- A difference that leaves little before it wraps around, and a divisor that is larger than half of the numbers. -/
theorem not_isDifference :
    ¬ IsDifference (0 : BitVec 32) 0xFFFFFFFF 3 (minusModUnsigned 0 0xFFFFFFFF 3 : Outcome Empty (BitVec 32)) ∧
      ¬ IsDifference (0 : BitVec 64) 1 0xFFFFFFFFFFFFFFFE
        (minusModUnsigned 0 1 0xFFFFFFFFFFFFFFFE : Outcome Empty (BitVec 64)) := by
  have hlittle : (minusModUnsigned 0 0xFFFFFFFF 3 : Outcome Empty (BitVec 32)) = .ok 1 := by decide
  have hlarge : (minusModUnsigned 0 1 0xFFFFFFFFFFFFFFFE : Outcome Empty (BitVec 64)) = .ok 0xFFFFFFFFFFFFFFFB := by decide
  constructor
  · rintro ⟨x, hx, hval⟩
    rw [hlittle] at hx
    cases hx
    exact absurd hval (by decide)
  · rintro ⟨x, hx, hval⟩
    rw [hlarge] at hx
    cases hx
    exact absurd hval (by decide)

end Nessus.Meta
