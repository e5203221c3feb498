import Mathlib.Data.List.Basic

/-!
# Reference-counted cells

A list of cells, each with a count and a mark that says whether it is alive, against the number of references that
exist to each cell.  `RefCounted` says that the counts are right and that a cell is alive exactly as long as there is a
reference to it; `set` and `concat` are what an update of one cell and the creation of a cell have to show.
-/

namespace Nessus.Lib

variable {α : Type} {count : α → ℕ} {alive : α → Bool} {cells : List α} {f g : ℕ → ℕ}

/-- The counts of the cells are right, where `refs i` references to the `i`-th cell exist. -/
structure RefCounted (count : α → ℕ) (alive : α → Bool) (cells : List α) (refs : ℕ → ℕ) : Prop where
  /-- The count of a live cell is the number of references to it. -/
  count : ∀ i x, cells[i]? = some x → alive x = true → count x = refs i
  /-- A cell is alive exactly as long as there is a reference to it. -/
  alive_iff : ∀ i x, cells[i]? = some x → (alive x = true ↔ 0 < refs i)
  /-- Every reference is one to a cell that has been created. -/
  created : ∀ i, cells.length ≤ i → refs i = 0

namespace RefCounted

theorem congr (h : RefCounted count alive cells f) (hfg : ∀ i, f i = g i) : RefCounted count alive cells g :=
  (funext hfg : f = g) ▸ h

theorem get (h : RefCounted count alive cells f) {i : ℕ} (hi : 0 < f i) :
    ∃ x, cells[i]? = some x ∧ alive x = true ∧ count x = f i := by
  have hlt : i < cells.length := by
    by_contra hge
    rw [h.created i (by omega)] at hi
    exact Nat.lt_irrefl 0 hi
  have hx : cells[i]? = some cells[i] := List.getElem?_eq_getElem hlt
  have halive := (h.alive_iff i _ hx).2 hi
  exact ⟨_, hx, halive, h.count i _ hx halive⟩

/-- One cell is updated, and the references to it change with it. -/
theorem set (h : RefCounted count alive cells f) {i : ℕ} {x y : α} (hx : cells[i]? = some x)
    (halive : alive y = true ↔ 0 < g i) (hcount : alive y = true → count y = g i) (hg : ∀ j, j ≠ i → g j = f j) :
    RefCounted count alive (cells.set i y) g := by
  obtain ⟨hlt, -⟩ := List.getElem?_eq_some_iff.1 hx
  have hget (j : ℕ) : (cells.set i y)[j]? = if i = j then some y else cells[j]? := by
    rw [List.getElem?_set, if_pos hlt]
  constructor
  · intro j z hz ha
    rw [hget] at hz
    split at hz
    · next hij => cases hz; exact hij ▸ hcount ha
    · next hij => rw [hg j (Ne.symm hij)]; exact h.count j z hz ha
  · intro j z hz
    rw [hget] at hz
    split at hz
    · next hij => cases hz; exact hij ▸ halive
    · next hij => rw [hg j (Ne.symm hij)]; exact h.alive_iff j z hz
  · intro j hj
    rw [List.length_set] at hj
    rw [hg j (by omega)]
    exact h.created j hj

theorem concat (h : RefCounted count alive cells f) {x : α} (halive : alive x = true) (hcount : count x = 1)
    (hg : ∀ i, g i = f i + if cells.length = i then 1 else 0) : RefCounted count alive (cells ++ [x]) g := by
  have hnew : g cells.length = 1 := by
    rw [hg, if_pos rfl, h.created _ (Nat.le_refl _)]
  have hold (i : ℕ) (hi : i < cells.length) : g i = f i := by
    rw [hg, if_neg (by omega), Nat.add_zero]
  have hget {i : ℕ} {y : α} (hy : (cells ++ [x])[i]? = some y) :
      (i < cells.length ∧ cells[i]? = some y) ∨ (i = cells.length ∧ y = x) := by
    rcases Nat.lt_trichotomy i cells.length with hlt | rfl | hgt
    · rw [List.getElem?_append_left hlt] at hy
      exact .inl ⟨hlt, hy⟩
    · rw [List.getElem?_concat_length, Option.some_inj] at hy
      exact .inr ⟨rfl, hy.symm⟩
    · rw [List.getElem?_eq_none (by simp; omega)] at hy
      cases hy
  constructor
  · intro i y hy ha
    rcases hget hy with ⟨hlt, hy⟩ | ⟨rfl, rfl⟩
    · rw [hold i hlt]; exact h.count i y hy ha
    · rw [hnew, hcount]
  · intro i y hy
    rcases hget hy with ⟨hlt, hy⟩ | ⟨rfl, rfl⟩
    · rw [hold i hlt]; exact h.alive_iff i y hy
    · simp [hnew, halive]
  · intro i hi
    rw [List.length_append, List.length_singleton] at hi
    rw [hg, if_neg (by omega), h.created i (by omega)]

end RefCounted

end Nessus.Lib
