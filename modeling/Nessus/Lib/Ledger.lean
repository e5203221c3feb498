import Mathlib.Algebra.BigOperators.Group.List.Basic
import Mathlib.Algebra.GroupWithZero.Nat
import Mathlib.Algebra.Order.Interval.Finset.Basic
import Mathlib.Data.Finset.Card
import Mathlib.Order.Interval.Finset.Nat

/-!
# Ledgers

What a number of holders have together, in a commutative monoid: a number of bytes, or the multiset of the things that each
of them holds.

* `sum_map_set`, `sum_map_concat` — the total when one holder changes or a new one comes;
* `sum_orderedInsert`, `sum_erase` — the total of an ordered list;
* `sum_length_le` — intervals that are apart are together no longer than the interval that they lie in.
-/

namespace Nessus.Lib

section Total

variable {α M : Type*} [AddCommMonoid M] {f : α → M} {l : List α} {x : α}

theorem sum_map_set {i : ℕ} (h : l[i]? = some x) (y : α) : ((l.set i y).map f).sum + f x = (l.map f).sum + f y := by
  induction l generalizing i with
  | nil => cases h
  | cons z l ih =>
    cases i with
    | zero =>
      cases h
      rw [List.set_cons_zero, List.map_cons, List.map_cons, List.sum_cons, List.sum_cons]
      rw [add_comm, ← add_assoc, add_right_comm]
    | succ i =>
      rw [List.set_cons_succ, List.map_cons, List.map_cons, List.sum_cons, List.sum_cons, add_assoc, ih h, add_assoc]

theorem sum_map_concat (x : α) : ((l ++ [x]).map f).sum = (l.map f).sum + f x := by simp

theorem sum_map_orderedInsert {r : α → α → Prop} [DecidableRel r] (x : α) :
    ((l.orderedInsert r x).map f).sum = f x + (l.map f).sum :=
  ((List.perm_orderedInsert r x l).map f).sum_eq

theorem sum_map_erase [DecidableEq α] (h : x ∈ l) : f x + ((l.erase x).map f).sum = (l.map f).sum :=
  (((List.perm_cons_erase h).map f).sum_eq).symm

end Total

/-! ## Intervals -/

section Intervals

variable {α : Type*} (start length : α → ℕ) {l : List α} {a b : ℕ}

/-- **Intervals that are apart** are together no longer than the interval that they lie in. -/
theorem sum_length_le
    (hp : l.Pairwise fun x y => start x + length x ≤ start y ∨ start y + length y ≤ start x)
    (hl : ∀ x ∈ l, a ≤ start x ∧ start x + length x ≤ b) : (l.map length).sum ≤ b - a := by
  -- the union of the intervals has as many elements as they have together
  have hunion : ∃ s : Finset ℕ, s ⊆ Finset.Ico a b ∧ s.card = (l.map length).sum ∧
      ∀ n ∈ s, ∃ x ∈ l, start x ≤ n ∧ n < start x + length x := by
    induction l with
    | nil => exact ⟨∅, by simp, rfl, by simp⟩
    | cons x l ih =>
      obtain ⟨hx, hp⟩ := List.pairwise_cons.1 hp
      obtain ⟨s, hs, hcard, hmem⟩ := ih hp fun y hy => hl y (List.mem_cons_of_mem x hy)
      have hdisj : Disjoint (Finset.Ico (start x) (start x + length x)) s := by
        refine Finset.disjoint_left.2 fun n hn hns => ?_
        obtain ⟨y, hy, hle, hlt⟩ := hmem n hns
        rw [Finset.mem_Ico] at hn
        rcases hx y hy with h | h <;> omega
      refine ⟨Finset.Ico (start x) (start x + length x) ∪ s, ?_, ?_, fun n hn => ?_⟩
      · refine Finset.union_subset (fun n hn => ?_) hs
        rw [Finset.mem_Ico] at hn ⊢
        have hx := hl x List.mem_cons_self
        omega
      · rw [Finset.card_union_of_disjoint hdisj, hcard, Nat.card_Ico, List.map_cons, List.sum_cons, Nat.add_sub_cancel_left]
      · rcases Finset.mem_union.1 hn with hn | hn
        · rw [Finset.mem_Ico] at hn
          exact ⟨x, List.mem_cons_self, hn⟩
        · obtain ⟨y, hy, h⟩ := hmem n hn
          exact ⟨y, List.mem_cons_of_mem x hy, h⟩
  obtain ⟨s, hs, hcard, -⟩ := hunion
  calc (l.map length).sum = s.card := hcard.symm
    _ ≤ (Finset.Ico a b).card := Finset.card_le_card hs
    _ = b - a := Nat.card_Ico a b

end Intervals

end Nessus.Lib
