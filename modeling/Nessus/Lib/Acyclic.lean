import Mathlib.Data.Set.Card

/-!
# Finite acyclic relations

In a finite acyclic relation an element has a height, the number of elements before it, which grows along the relation.
The `depth` of a list is a bound on the heights in it: a list of predecessors has a smaller one (`depth_lt`), so that a
recursion that goes from a list to the predecessors of its elements ends.  A relation is not acyclic exactly when some
elements have all a predecessor among themselves (`exists_of_not_acyclic`, `Acyclic.eq_empty`).
-/

namespace Nessus.Lib

open Relation

variable {ι : Type} {r : ι → ι → Prop}

def Acyclic (r : ι → ι → Prop) : Prop := ∀ i, ¬ TransGen r i i

theorem Acyclic.of_lt {f : ι → ℕ} (h : ∀ i j, r i j → f i < f j) : Acyclic r := by
  have hlt {i j : ι} (hij : TransGen r i j) : f i < f j := by
    induction hij with
    | single h₁ => exact h _ _ h₁
    | tail _ h₁ ih => exact ih.trans (h _ _ h₁)
  exact fun i hi => Nat.lt_irrefl _ (hlt hi)

/-- The number of elements before `i`. -/
noncomputable def height (r : ι → ι → Prop) (i : ι) : ℕ := {j | TransGen r j i}.ncard

theorem height_lt [Finite ι] (hr : Acyclic r) {i j : ι} (h : r i j) : height r i < height r j := by
  refine Set.ncard_lt_ncard ⟨fun k hk => ?_, fun hsub => ?_⟩ (Set.toFinite _)
  · exact TransGen.tail hk h
  · exact hr i (hsub (TransGen.single h))

/-- The least number above the heights in the list. -/
noncomputable def depth (r : ι → ι → Prop) (l : List ι) : ℕ := l.foldr (fun i n => max (height r i + 1) n) 0

theorem depth_le {l : List ι} {n : ℕ} : depth r l ≤ n ↔ ∀ i ∈ l, height r i < n := by
  induction l with
  | nil => simp [depth]
  | cons i l ih =>
    rw [List.forall_mem_cons, ← ih]
    exact max_le_iff

theorem height_lt_depth {l : List ι} {i : ι} (h : i ∈ l) : height r i < depth r l := depth_le.1 le_rfl i h

/-- The elements of `l'` come right before elements of `l`. -/
theorem depth_lt [Finite ι] (hr : Acyclic r) {l l' : List ι} (hl : l ≠ []) (h : ∀ i ∈ l', ∃ j ∈ l, r i j) :
    depth r l' < depth r l := by
  obtain ⟨k, hk⟩ := List.exists_mem_of_ne_nil l hl
  have hpos : 0 < depth r l := (Nat.zero_le _).trans_lt (height_lt_depth hk)
  have hle : depth r l' ≤ depth r l - 1 := depth_le.2 fun i hi => by
    obtain ⟨j, hj, hij⟩ := h i hi
    have h₁ := height_lt hr hij
    have h₂ := height_lt_depth (r := r) hj
    omega
  omega

theorem exists_of_not_acyclic (hr : ¬ Acyclic r) : ∃ C : Set ι, C.Nonempty ∧ ∀ j ∈ C, ∃ i ∈ C, r i j := by
  obtain ⟨k, hk⟩ := not_forall_not.1 hr
  refine ⟨{j | TransGen r k j ∧ TransGen r j k}, ⟨k, hk, hk⟩, fun j ⟨hkj, hjk⟩ => ?_⟩
  obtain ⟨i, hki, hij⟩ := TransGen.tail'_iff.1 hkj
  refine ⟨i, ⟨?_, .head hij hjk⟩, hij⟩
  exact (ReflTransGen.cases_tail_iff r k i).1 hki |>.elim (fun h => h ▸ hk) fun ⟨_, hkc, hci⟩ => .tail' hkc hci

/-- Of finitely many elements, some have no predecessor among themselves. -/
theorem Acyclic.eq_empty (hr : Acyclic r) {C : Set ι} (hC : C.Finite) (h : ∀ j ∈ C, ∃ i ∈ C, r i j) : C = ∅ := by
  have : Finite C := hC
  have hacyclic : Acyclic fun i j : C => r i j := fun i hi =>
    hr i (hi.lift Subtype.val (fun _ _ hij => hij))
  have hnone : ∀ n, ∀ j : C, height (fun i j : C => r i j) j ≠ n := by
    intro n
    induction n using Nat.strong_induction_on with
    | _ n ih =>
      rintro ⟨j, hj⟩ rfl
      obtain ⟨i, hi, hij⟩ := h j hj
      exact ih _ (height_lt hacyclic (i := ⟨i, hi⟩) (j := ⟨j, hj⟩) hij) ⟨i, hi⟩ rfl
  exact Set.eq_empty_iff_forall_notMem.2 fun j hj => hnone _ ⟨j, hj⟩ rfl

end Nessus.Lib
