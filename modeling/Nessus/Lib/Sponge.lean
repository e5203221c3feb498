import Mathlib.Data.Int.Notation
import Mathlib.Data.List.Basic
import Mathlib.Logic.Function.Iterate

/-!
# Absorbing blocks, and the sponge construction

* `absorb` — a string is taken up block by block, with what is too short for a block left over; a string that comes in
  pieces is absorbed as one (`absorb_append`);
* `absorb_map` — the same on an encoding of the string and of the state;
* `sponge` — the sponge construction on strings of bits, with the padding `pad10Star1`.
-/

namespace Nessus.Lib

variable {σ τ β γ : Type}

/-- Takes up the blocks of `r` elements; the second component is what is left over. -/
def absorb (r : ℕ) (step : σ → List β → σ) (s : σ) (l : List β) : σ × List β :=
  if 0 < r ∧ r ≤ l.length then absorb r step (step s (l.take r)) (l.drop r) else (s, l)
termination_by l.length
decreasing_by
  rw [List.length_drop]
  omega

section Absorb

variable {r : ℕ} {step : σ → List β → σ}

theorem absorb_short (s : σ) {l : List β} (h : l.length < r) : absorb r step s l = (s, l) := by
  rw [absorb, if_neg (by omega)]

theorem absorb_step (hr : 0 < r) (s : σ) {l : List β} (h : r ≤ l.length) :
    absorb r step s l = absorb r step (step s (l.take r)) (l.drop r) := by
  rw [absorb, if_pos ⟨hr, h⟩]

theorem absorb_block (hr : 0 < r) (s : σ) {l : List β} (h : l.length = r) : absorb r step s l = (step s l, []) := by
  rw [absorb_step hr s (Nat.le_of_eq h.symm), List.take_of_length_le (Nat.le_of_eq h),
    List.drop_eq_nil_of_le (Nat.le_of_eq h), absorb_short _ hr]

theorem absorb_left_length (hr : 0 < r) (s : σ) (l : List β) : (absorb r step s l).2.length = l.length % r := by
  by_cases h : r ≤ l.length
  · rw [absorb_step hr s h, absorb_left_length hr, List.length_drop, ← Nat.mod_eq_sub_mod h]
  · rw [absorb_short s (Nat.lt_of_not_le h), Nat.mod_eq_of_lt (Nat.lt_of_not_le h)]
termination_by l.length
decreasing_by
  rw [List.length_drop]
  omega

/-- **What comes in pieces is absorbed as one string.** -/
theorem absorb_append (hr : 0 < r) (s : σ) (l m : List β) :
    absorb r step s (l ++ m) = absorb r step (absorb r step s l).1 ((absorb r step s l).2 ++ m) := by
  by_cases h : r ≤ l.length
  · have h' : r ≤ (l ++ m).length := by
      rw [List.length_append]
      omega
    rw [absorb_step hr s h', List.take_append_of_le_length h, List.drop_append_of_le_length h, absorb_step hr s h]
    exact absorb_append hr _ _ m
  · rw [absorb_short s (Nat.lt_of_not_le h)]
termination_by l.length
decreasing_by
  rw [List.length_drop]
  omega

/-- An encoding of the elements by `k` elements each, and of the states, is absorbed alike. -/
theorem absorb_map {k : ℕ} {φ : σ → τ} {ε : List β → List γ} {step' : τ → List γ → τ} (hr : 0 < r) (hk : 0 < k)
    (hlen : ∀ l, (ε l).length = k * l.length) (htake : ∀ l n, ε (l.take n) = (ε l).take (k * n))
    (hdrop : ∀ l n, ε (l.drop n) = (ε l).drop (k * n))
    (hstep : ∀ s block, block.length = r → φ (step s block) = step' (φ s) (ε block)) (s : σ) (l : List β) :
    absorb (k * r) step' (φ s) (ε l) = (φ (absorb r step s l).1, ε (absorb r step s l).2) := by
  have hkr : 0 < k * r := Nat.mul_pos hk hr
  by_cases h : r ≤ l.length
  · have h' : k * r ≤ (ε l).length := by
      rw [hlen]
      exact Nat.mul_le_mul_left k h
    have hblock : (l.take r).length = r := by rw [List.length_take, Nat.min_eq_left h]
    rw [absorb_step hkr _ h', absorb_step hr s h, ← htake, ← hdrop, ← hstep s _ hblock]
    exact absorb_map hr hk hlen htake hdrop hstep _ _
  · have h' : (ε l).length < k * r := by
      rw [hlen]
      exact Nat.mul_lt_mul_of_pos_left (Nat.lt_of_not_le h) hk
    rw [absorb_short _ h', absorb_short s (Nat.lt_of_not_le h)]
termination_by l.length
decreasing_by
  rw [List.length_drop]
  omega

end Absorb

/-! ## The sponge -/

/-- `pad10*1(x, m)`. -/
def pad10Star1 (x m : ℕ) : List Bool := true :: (List.replicate ((-(m : ℤ) - 2) % x).toNat false ++ [true])

/-- `SPONGE[f, pad10*1, r](N, d)` with a state of `b` bits. -/
def sponge (b r : ℕ) (f : List Bool → List Bool) (N : List Bool) (d : ℕ) : List Bool :=
  let padded := N ++ pad10Star1 r N.length
  let step (S P : List Bool) := f (List.zipWith xor S (P ++ List.replicate (b - r) false))
  let S := (absorb r step (List.replicate b false) padded).1
  ((List.range ((d + r - 1) / r)).flatMap fun i => (f^[i] S).take r).take d

/-- A string of at most one block is squeezed out of the state as it is after the last block. -/
theorem sponge_of_le {b r d : ℕ} {f : List Bool → List Bool} (N : List Bool) (hd : 0 < d) (hdr : d ≤ r) :
    sponge b r f N d = (absorb r (fun S P => f (List.zipWith xor S (P ++ List.replicate (b - r) false)))
      (List.replicate b false) (N ++ pad10Star1 r N.length)).1.take d := by
  have hone : (d + r - 1) / r = 1 := by
    rw [Nat.div_eq_iff (by omega)]
    omega
  rw [sponge, hone]
  simp only [List.range_one, List.flatMap_cons, List.flatMap_nil, List.append_nil, Function.iterate_zero, id_eq,
    List.take_take, Nat.min_eq_left hdr]

end Nessus.Lib
