import Mathlib.Data.Int.Order.Basic
import Mathlib.Tactic.Linarith
import Nessus.Lib.Outcome

/-!
# C++ integers

`int` is `ℤ` with a range of 32 bits, and arithmetic that leaves it is undefined; `size_t` is `ℕ` below `2 ^ 64`.

* `checked`, `prod` — the value of an `int` expression, and a product from left to right;
* `intNat`, `intProd`, `intSum` — the same for expressions of numbers that are not negative;
* `toSize`, `ofSize` — the conversions from `int` to `size_t` and back;
* `forRange` — `for (int i = 0; i < n; i++)`; `DefinedIff.forRange` is the rule for it.
-/

namespace Nessus.Lib

open Outcome

variable {ε α : Type}

def minInt : ℤ := -2 ^ 31
def maxInt : ℤ := 2 ^ 31 - 1

def InInt (i : ℤ) : Prop := minInt ≤ i ∧ i ≤ maxInt

instance (i : ℤ) : Decidable (InInt i) := by unfold InInt; infer_instance

theorem inInt_of_nonneg {i m : ℤ} (hi : 0 ≤ i) (h : i ≤ m) (hm : InInt m) : InInt i :=
  ⟨le_trans (by decide) hi, h.trans hm.2⟩

def checked (i : ℤ) : Outcome ε ℤ := if InInt i then .ok i else .undefined

theorem checked_definedIff (i : ℤ) : DefinedIff (checked i : Outcome ε ℤ) (InInt i) (· = i) := .ite fun _ => rfl

/-- `a * b₁ * b₂ * ..`. -/
def prod (a : ℤ) (l : List ℤ) : Outcome ε ℤ := l.foldlM (fun p b => checked (p * b)) a

/-- Every partial product is in range. -/
def ProdIn (a : ℤ) : List ℤ → Prop
  | [] => True
  | b :: l => InInt (a * b) ∧ ProdIn (a * b) l

instance decidableProdIn : (a : ℤ) → (l : List ℤ) → Decidable (ProdIn a l)
  | _, [] => .isTrue trivial
  | a, b :: l => @instDecidableAnd _ _ _ (decidableProdIn (a * b) l)

theorem prod_definedIff (a : ℤ) (l : List ℤ) : DefinedIff (prod a l : Outcome ε ℤ) (ProdIn a l) (· = l.foldl (· * ·) a) := by
  induction l generalizing a with
  | nil => exact .of_ok rfl
  | cons b l ih =>
    refine (checked_definedIff (a * b)).bind fun p _ hp => ?_
    subst hp
    exact ih (a * b)

theorem prod_two_definedIff (a b : ℤ) : DefinedIff (prod a [b] : Outcome ε ℤ) (InInt (a * b)) (· = a * b) :=
  (prod_definedIff a [b]).congr (and_true (InInt (a * b))).to_iff

theorem prod_eq {a : ℤ} {l : List ℤ} (h : ProdIn a l) : (prod a l : Outcome ε ℤ) = .ok (l.foldl (· * ·) a) := by
  obtain ⟨p, hp, rfl⟩ := (prod_definedIff (ε := ε) a l).defined h
  exact hp

/-- What is between `0` and a product that is in range, factor by factor, is in range. -/
theorem prodIn_of_le {a : ℤ} {l : List ℤ} (ha : 0 ≤ a) (hl : ∀ b ∈ l, 0 < b) (h : InInt (l.foldl (· * ·) a)) :
    ProdIn a l := by
  induction l generalizing a with
  | nil => trivial
  | cons b l ih =>
    have hb := hl b List.mem_cons_self
    have hl' : ∀ b ∈ l, 0 < b := fun x hx => hl x (List.mem_cons_of_mem b hx)
    have hab : 0 ≤ a * b := Int.mul_nonneg ha hb.le
    refine ⟨inInt_of_nonneg hab ?_ h, ih hab hl' h⟩
    show a * b ≤ l.foldl (· * ·) (a * b)
    generalize a * b = p at hab
    clear h ih hl
    induction l generalizing p with
    | nil => exact le_rfl
    | cons c l ih =>
      have hc := hl' c List.mem_cons_self
      have hp : p ≤ p * c := le_mul_of_one_le_right hab hc
      exact hp.trans (ih (fun x hx => hl' x (List.mem_cons_of_mem c hx)) (p * c) (hab.trans hp))

/-! ## Expressions without a minus sign -/

/-- The value of an `int` expression that is not negative. -/
def intNat (n : ℕ) : Outcome ε ℕ := if n < 2 ^ 31 then .ok n else .undefined

/-- `a * b₁ * b₂ * ..`. -/
def intProd (a : ℕ) (l : List ℕ) : Outcome ε ℕ := l.foldlM (fun p b => intNat (p * b)) a

/-- `a + b₁ + b₂ + ..`. -/
def intSum (a : ℕ) (l : List ℕ) : Outcome ε ℕ := l.foldlM (fun s b => intNat (s + b)) a

theorem intNat_of_lt {n : ℕ} (h : n < 2 ^ 31) : (intNat n : Outcome ε ℕ) = .ok n := if_pos h

theorem intProd_two {a b : ℕ} (h : a * b < 2 ^ 31) : (intProd a [b] : Outcome ε ℕ) = .ok (a * b) := by
  simp [intProd, intNat_of_lt h]

theorem intProd_three {a b c : ℕ} (hab : a * b < 2 ^ 31) (h : a * b * c < 2 ^ 31) :
    (intProd a [b, c] : Outcome ε ℕ) = .ok (a * b * c) := by
  simp [intProd, intNat_of_lt hab, intNat_of_lt h]

/-- Sums on the way are not above the whole sum. -/
theorem intSum_eq {a : ℕ} {l : List ℕ} (h : a + l.sum < 2 ^ 31) : (intSum a l : Outcome ε ℕ) = .ok (a + l.sum) := by
  induction l generalizing a with
  | nil => rfl
  | cons b l ih =>
    rw [List.sum_cons, ← Nat.add_assoc] at h ⊢
    rw [intSum, List.foldlM_cons, intNat_of_lt (by omega), ok_bind]
    exact ih h

/-! ## `size_t` -/

/-- The conversion of an `int` to `size_t`. -/
def toSize (i : ℤ) : ℕ := (i % 2 ^ 64).toNat

/-- The conversion of a `size_t` to `int`. -/
def ofSize (s : ℕ) : ℤ := Int.bmod s (2 ^ 32)

theorem toSize_lt (i : ℤ) : toSize i < 2 ^ 64 := by unfold toSize; omega

theorem toSize_of_nonneg {i : ℤ} (h : 0 ≤ i) (hi : InInt i) : toSize i = i.toNat := by
  have := hi.2
  unfold maxInt at this
  unfold toSize
  omega

theorem toSize_natCast {size : ℕ} (h : size < 2 ^ 31) : toSize size = size := by
  unfold toSize
  omega

theorem toSize_eq_zero {i : ℤ} (h : InInt i) : toSize i = 0 ↔ i = 0 := by
  obtain ⟨h₁, h₂⟩ := h
  unfold minInt at h₁
  unfold maxInt at h₂
  unfold toSize
  omega

theorem ofSize_of_le {s : ℕ} (h : (s : ℤ) ≤ maxInt) : ofSize s = s := by
  unfold maxInt at h
  unfold ofSize
  rw [Int.bmod_eq_of_le] <;> omega

/-- `s / i`, where `i` is converted to `size_t`. -/
def divSize (s : ℕ) (i : ℤ) : Outcome ε ℕ := if toSize i ≠ 0 then .ok (s / toSize i) else .undefined

/-- `s % i`. -/
def modSize (s : ℕ) (i : ℤ) : Outcome ε ℕ := if toSize i ≠ 0 then .ok (s % toSize i) else .undefined

theorem divSize_definedIff {i : ℤ} (s : ℕ) (hi : InInt i) :
    DefinedIff (divSize s i : Outcome ε ℕ) (i ≠ 0) (· = s / toSize i) := by
  have h : DefinedIff (divSize s i : Outcome ε ℕ) (toSize i ≠ 0) (· = s / toSize i) := .ite fun _ => rfl
  exact h.congr (toSize_eq_zero hi).not

theorem modSize_definedIff {i : ℤ} (s : ℕ) (hi : InInt i) :
    DefinedIff (modSize s i : Outcome ε ℕ) (i ≠ 0) (· = s % toSize i) := by
  have h : DefinedIff (modSize s i : Outcome ε ℕ) (toSize i ≠ 0) (· = s % toSize i) := .ite fun _ => rfl
  exact h.congr (toSize_eq_zero hi).not

/-- `a + b` of two `size_t`. -/
def sizeAdd (a b : ℕ) : ℕ := (a + b) % 2 ^ 64

/-- `a - b`. -/
def sizeSub (a b : ℕ) : ℕ := (a + (2 ^ 64 - b)) % 2 ^ 64

/-- `a * b`. -/
def sizeMul (a b : ℕ) : ℕ := a * b % 2 ^ 64

/-- `a % b`. -/
def sizeMod (a b : ℕ) : Outcome ε ℕ := if b ≠ 0 then .ok (a % b) else .undefined

theorem sizeAdd_of_lt {a b : ℕ} (h : a + b < 2 ^ 64) : sizeAdd a b = a + b := Nat.mod_eq_of_lt h

theorem sizeSub_of_le {a b : ℕ} (h : b ≤ a) (ha : a < 2 ^ 64) : sizeSub a b = a - b := by
  unfold sizeSub
  omega

theorem sizeMul_of_lt {a b : ℕ} (h : a * b < 2 ^ 64) : sizeMul a b = a * b := Nat.mod_eq_of_lt h

theorem sizeMod_of_pos {a b : ℕ} (h : 0 < b) : (sizeMod a b : Outcome ε ℕ) = .ok (a % b) := if_pos h.ne'

/-! ## Loops -/

/-- `for (int i = 0; i < n; i++)`, where the body changes `s`. -/
def forRange (n : ℤ) (body : ℤ → α → Outcome ε α) (s : α) : Outcome ε α :=
  (List.range n.toNat).foldlM (fun s (i : ℕ) => body i s) s

/-- The loop rule: what `I` says of the state is kept round by round. -/
theorem forRange_ok {n : ℤ} {body : ℤ → α → Outcome ε α} {I : ℤ → α → Prop} (hn : 0 ≤ n)
    (hbody : ∀ i s, 0 ≤ i → i < n → I i s → ∃ s', body i s = .ok s' ∧ I (i + 1) s') {s : α} (hs : I 0 s) :
    ∃ s', forRange n body s = .ok s' ∧ I n s' := by
  have hloop (m : ℕ) (hm : (m : ℤ) ≤ n) :
      ∃ s', (List.range m).foldlM (fun s (i : ℕ) => body i s) s = .ok s' ∧ I m s' := by
    induction m with
    | zero => exact ⟨s, rfl, hs⟩
    | succ m ih =>
      obtain ⟨s₁, h₁, hI₁⟩ := ih (by omega)
      obtain ⟨s₂, h₂, hI₂⟩ := hbody m s₁ (by omega) (by omega) hI₁
      refine ⟨s₂, ?_, by exact_mod_cast hI₂⟩
      rw [List.range_succ, List.foldlM_append, h₁]
      simp only [List.foldlM_cons, List.foldlM_nil, bind_pure, ok_bind]
      exact h₂
  obtain ⟨s', h, hI⟩ := hloop n.toNat (by omega)
  rw [Int.toNat_of_nonneg hn] at hI
  exact ⟨s', h, hI⟩

theorem Outcome.DefinedIff.forRange {n : ℤ} {body : ℤ → α → Outcome ε α} {D : ℤ → Prop} {I : α → Prop}
    (h : ∀ i s, 0 ≤ i → i < n → I s → DefinedIff (body i s) (D i) I) {s : α} (hs : I s) :
    DefinedIff (Lib.forRange n body s) (∀ i, 0 ≤ i → i < n → D i) I := by
  have hloop (m : ℕ) (hm : (m : ℤ) ≤ n.toNat) : DefinedIff ((List.range m).foldlM (fun s (i : ℕ) => body i s) s)
      (∀ i : ℤ, 0 ≤ i → i < m → D i) I := by
    induction m with
    | zero => exact .ok_of (fun i h₀ h₁ => by omega) hs
    | succ m ih =>
      rw [List.range_succ, List.foldlM_append]
      simp only [List.foldlM_cons, List.foldlM_nil, bind_pure]
      refine ((ih (by omega)).bind fun s' _ hs' => h m s' (by omega) (by omega) hs').congr ?_
      constructor
      · rintro ⟨hd, hm⟩ i h₀ h₁
        rcases Int.lt_or_eq_of_le (Int.le_of_lt_add_one (by exact_mod_cast h₁ : i < (m : ℤ) + 1)) with hi | rfl
        · exact hd i h₀ hi
        · exact hm
      · exact fun hd => ⟨fun i h₀ h₁ => hd i h₀ (by omega), hd m (by omega) (by omega)⟩
  refine (hloop n.toNat le_rfl).congr ?_
  exact forall_congr' fun i => ⟨fun hd h₀ h₁ => hd h₀ (by omega), fun hd h₀ h₁ => hd h₀ (by omega)⟩

end Nessus.Lib
