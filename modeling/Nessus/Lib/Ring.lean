import Mathlib.Data.List.Basic
import Mathlib.Tactic.SplitIfs

/-!
# Rings of cells

A list of cells that holds a list of items from `head` on, around its end, with one cell left free: `tail` is the cell
after the last item.

* `Ring.push`, `Ring.overrun`, `Ring.pop` — an item is put at the tail, with the head moved on where there is no room
  left, or taken from the head;
* `Ring.tail_eq_head_iff`, `Ring.next_eq_head_iff`, `Ring.size_eq` — what the two positions say of the items.
-/

namespace Nessus.Lib

variable {α : Type}

/-- The cells hold `items` from `head` up to, and without, `tail`. -/
structure Ring (cells : List α) (head tail : ℕ) (items : List α) : Prop where
  head_lt : head < cells.length
  room : items.length < cells.length
  tail_eq : tail = (head + items.length) % cells.length
  cell : ∀ i, i < items.length → cells[(head + i) % cells.length]? = items[i]?

theorem add_mod_eq {n h i : ℕ} (hh : h < n) (hi : i ≤ n) : (h + i) % n = if h + i < n then h + i else h + i - n := by
  split_ifs with hlt
  · exact Nat.mod_eq_of_lt hlt
  · rw [Nat.mod_eq_sub_mod (Nat.not_lt.1 hlt), Nat.mod_eq_of_lt (by omega)]

theorem add_mod_succ (n h i : ℕ) : ((h + 1) % n + i) % n = (h + (i + 1)) % n := by
  rw [Nat.mod_add_mod, Nat.add_assoc, Nat.add_comm 1 i]

namespace Ring

variable {cells items : List α} {head tail : ℕ}

theorem start (h : 0 < cells.length) : Ring cells 0 0 [] where
  head_lt := h
  room := h
  tail_eq := (Nat.zero_mod _).symm
  cell := fun i hi => absurd hi (Nat.not_lt_zero i)

theorem length_pos (h : Ring cells head tail items) : 0 < cells.length := Nat.zero_lt_of_lt h.head_lt

theorem tail_lt (h : Ring cells head tail items) : tail < cells.length := by
  rw [h.tail_eq]
  exact Nat.mod_lt _ h.length_pos

theorem tail_eq_head_iff (h : Ring cells head tail items) : tail = head ↔ items = [] := by
  have h₁ := h.head_lt
  have h₂ := h.room
  rw [h.tail_eq, add_mod_eq h₁ (Nat.le_of_lt h₂), ← List.length_eq_zero_iff]
  split_ifs <;> omega

theorem next_eq (h : Ring cells head tail items) : (tail + 1) % cells.length = (head + (items.length + 1)) % cells.length := by
  rw [h.tail_eq, Nat.mod_add_mod, Nat.add_assoc]

theorem next_eq_head_iff (h : Ring cells head tail items) :
    (tail + 1) % cells.length = head ↔ items.length + 1 = cells.length := by
  have h₁ := h.head_lt
  have h₂ := h.room
  rw [h.next_eq, add_mod_eq h₁ h₂]
  split_ifs <;> omega

theorem size_eq (h : Ring cells head tail items) :
    (if tail ≥ head then tail - head else cells.length - (head - tail)) = items.length := by
  have h₁ := h.head_lt
  have h₂ := h.room
  rw [h.tail_eq, add_mod_eq h₁ (Nat.le_of_lt h₂)]
  split_ifs <;> omega

theorem pop {x : α} (h : Ring cells head tail (x :: items)) : Ring cells ((head + 1) % cells.length) tail items where
  head_lt := Nat.mod_lt _ h.length_pos
  room := Nat.lt_of_succ_lt h.room
  tail_eq := by rw [add_mod_succ, h.tail_eq, List.length_cons]
  cell := fun i hi => by
    rw [add_mod_succ, h.cell (i + 1) (Nat.succ_lt_succ hi), List.getElem?_cons_succ]

/-- What the cells hold after a write to the tail. -/
theorem cell_set (h : Ring cells head tail items) (x : α) (i : ℕ) (hi : i < (items ++ [x]).length) :
    (cells.set tail x)[(head + i) % (cells.set tail x).length]? = (items ++ [x])[i]? := by
  have h₁ := h.head_lt
  have h₂ := h.room
  have htail := h.tail_lt
  rw [List.length_append, List.length_singleton] at hi
  rw [List.length_set]
  rcases Nat.lt_or_eq_of_le (Nat.le_of_lt_succ hi) with hlt | rfl
  · have hne : tail ≠ (head + i) % cells.length := by
      rw [h.tail_eq, add_mod_eq h₁ (Nat.le_of_lt h₂), add_mod_eq h₁ (by omega)]
      split_ifs <;> omega
    rw [List.getElem?_set_ne hne, h.cell i hlt, List.getElem?_append_left hlt]
  · rw [← h.tail_eq, List.getElem?_set_self htail, List.getElem?_concat_length]

theorem push (h : Ring cells head tail items) (hroom : items.length + 1 < cells.length) (x : α) :
    Ring (cells.set tail x) head ((tail + 1) % cells.length) (items ++ [x]) where
  head_lt := by rw [List.length_set]; exact h.head_lt
  room := by rw [List.length_set, List.length_append, List.length_singleton]; exact hroom
  tail_eq := by rw [List.length_set, List.length_append, List.length_singleton, h.next_eq]
  cell := h.cell_set x

/-- Without room for another item, the first one gives way. -/
theorem overrun (h : Ring cells head tail items) (hfull : items.length + 1 = cells.length) (x : α) :
    Ring (cells.set tail x) ((head + 1) % cells.length) ((tail + 1) % cells.length) (items ++ [x]).tail where
  head_lt := by rw [List.length_set]; exact Nat.mod_lt _ h.length_pos
  room := by rw [List.length_set, List.length_tail, List.length_append, List.length_singleton]; omega
  tail_eq := by
    rw [List.length_set, List.length_tail, List.length_append, List.length_singleton, Nat.add_sub_cancel,
      add_mod_succ, h.next_eq]
  cell := fun i hi => by
    rw [List.length_tail] at hi
    rw [List.length_set, add_mod_succ]
    have hcell := h.cell_set x (i + 1) (by omega)
    rw [List.length_set] at hcell
    rw [hcell, List.getElem?_tail]

end Ring

end Nessus.Lib
