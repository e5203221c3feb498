import Mathlib.Data.List.AList
import Mathlib.Data.List.Nodup

/-!
# Counting under updates

How the number of the elements with a property changes when one element of a list is replaced, added or removed.  The
equations are stated without subtraction, so that `omega` can use them.
-/

namespace Nessus.Lib

variable {α : Type}

theorem countP_set {p : α → Bool} {l : List α} {i : ℕ} {x : α} (h : l[i]? = some x) (y : α) :
    (l.set i y).countP p + (if p x then 1 else 0) = l.countP p + (if p y then 1 else 0) := by
  obtain ⟨hi, rfl⟩ := List.getElem?_eq_some_iff.1 h
  have hle : (if p l[i] then 1 else 0) ≤ l.countP p := by
    split
    · exact List.countP_pos_iff.2 ⟨l[i], List.getElem_mem hi, by assumption⟩
    · exact Nat.zero_le _
  rw [List.countP_set hi]
  omega

theorem countP_concat {p : α → Bool} {l : List α} (x : α) :
    (l ++ [x]).countP p = l.countP p + (if p x then 1 else 0) := by
  rw [List.countP_append, List.countP_singleton]

theorem countP_erase [BEq α] [LawfulBEq α] {p : α → Bool} {l : List α} {x : α} (h : x ∈ l) :
    (l.erase x).countP p + (if p x then 1 else 0) = l.countP p := by
  rw [(List.perm_cons_erase h).countP_eq, List.countP_cons]

theorem countP_pos_of_getElem? {p : α → Bool} {l : List α} {i : ℕ} {x : α} (h : l[i]? = some x) (hp : p x = true) :
    0 < l.countP p :=
  List.countP_pos_iff.2 ⟨x, List.mem_of_getElem? h, hp⟩

/-! ## Elements that are collected from a list -/

section Collect

variable {β : Type} [DecidableEq β] {f : α → Option β} {l : List α} {b : β}

theorem count_filterMap_eq : (l.filterMap f).count b = l.countP fun x => decide (f x = some b) := by
  rw [List.count, List.countP_filterMap]
  refine List.countP_congr fun x _ => ?_
  cases f x <;> simp

theorem count_filterMap_set {i : ℕ} {x : α} (h : l[i]? = some x) (y : α) :
    ((l.set i y).filterMap f).count b + (f x).toList.count b = (l.filterMap f).count b + (f y).toList.count b := by
  have hone (z : α) : (f z).toList.count b = if decide (f z = some b) = true then 1 else 0 := by
    cases hz : f z with
    | none => rfl
    | some c => simp [List.count_singleton]
  rw [count_filterMap_eq, count_filterMap_eq, hone, hone]
  exact countP_set h y

theorem count_filterMap_concat (x : α) :
    ((l ++ [x]).filterMap f).count b = (l.filterMap f).count b + (f x).toList.count b := by
  rw [List.filterMap_append, List.count_append]
  cases hx : f x <;> simp [hx]

end Collect

theorem perm_cons_eraseP {p : α → Bool} {l : List α} {x : α} (h : l.find? p = some x) : l.Perm (x :: l.eraseP p) := by
  obtain ⟨hx, before, after, rfl, hbefore⟩ := List.find?_eq_some_iff_append.1 h
  rw [List.eraseP_append_right (after.cons x) (fun y hy => by simpa using hbefore y hy), List.eraseP_cons_of_pos hx]
  exact List.perm_middle

/-- Where at most one element has the property `q`, to erase the first one with the property `p` is to leave out those
with the property `q` if and only if it is the one. -/
theorem eraseP_eq_filter_iff {p q : α → Bool} {l : List α} {x : α} (hn : l.Nodup)
    (hq : ∀ y ∈ l, ∀ z ∈ l, q y = true → q z = true → y = z) (h : l.find? p = some x) :
    (l.eraseP p = l.filter fun y => !q y) ↔ q x = true := by
  obtain ⟨hx, before, after, rfl, hbefore⟩ := List.find?_eq_some_iff_append.1 h
  obtain ⟨hnot, -⟩ := List.nodup_cons.1 (List.nodup_middle.1 hn)
  have hmem : x ∈ before ++ x :: after := List.mem_append_right _ List.mem_cons_self
  rw [List.eraseP_append_right (after.cons x) (fun y hy => by simpa using hbefore y hy), List.eraseP_cons_of_pos hx]
  constructor
  · intro heq
    by_contra hno
    apply hnot
    rw [heq]
    exact List.mem_filter.2 ⟨hmem, by simpa using hno⟩
  · intro hqx
    have hother : ∀ y ∈ before ++ after, (!q y) = true := by
      intro y hy
      by_contra hyes
      have hy' : y ∈ before ++ x :: after := by
        rcases List.mem_append.1 hy with hb | ha
        · exact List.mem_append_left _ hb
        · exact List.mem_append_right _ (List.mem_cons_of_mem _ ha)
      exact hnot (hq y hy' x hmem (by simpa using hyes) hqx ▸ hy)
    have hkeep := List.filter_eq_self.2 hother
    rw [List.filter_append] at hkeep
    rw [List.filter_append, List.filter_cons_of_neg (by simpa using hqx), hkeep]

/-! ## Entries of a map -/

section Map

variable {κ β : Type} [DecidableEq κ] {p : β → Bool} {l : AList fun _ : κ => β} {k : κ}

/-- The number of entries whose value has the property. -/
def countValues (p : β → Bool) (l : AList fun _ : κ => β) : ℕ := l.entries.countP fun e => p e.2

theorem countP_kerase {l : List (Sigma fun _ : κ => β)} {b : β} (h : l.dlookup k = some b) :
    (l.kerase k).countP (fun e => p e.2) + (if p b then 1 else 0) = l.countP fun e => p e.2 := by
  induction l with
  | nil => cases h
  | cons e l ih =>
    obtain ⟨k', b'⟩ := e
    by_cases hk : k = k'
    · subst hk
      rw [List.dlookup_cons_eq, Option.some_inj] at h
      have hk : List.kerase k (⟨k, b'⟩ :: l) = l := List.kerase_cons_eq rfl
      rw [hk, List.countP_cons, h]
    · rw [List.dlookup_cons_ne _ _ hk] at h
      rw [List.kerase_cons_ne hk, List.countP_cons, List.countP_cons, ← ih h]
      omega

theorem countValues_erase {b : β} (h : l.lookup k = some b) :
    countValues p (l.erase k) + (if p b then 1 else 0) = countValues p l :=
  countP_kerase h

theorem countValues_erase_none (h : l.lookup k = none) : countValues p (l.erase k) = countValues p l := by
  have hk : l.entries.kerase k = l.entries := List.kerase_of_notMem_keys (AList.lookup_eq_none.1 h)
  exact congrArg (List.countP fun e => p e.2) hk

theorem countValues_insert (b : β) :
    countValues p (l.insert k b) = countValues p (l.erase k) + (if p b then 1 else 0) :=
  List.countP_cons

theorem countValues_pos {b : β} (h : l.lookup k = some b) (hp : p b = true) : 0 < countValues p l := by
  have := countValues_erase (p := p) h
  rw [if_pos hp] at this
  omega

end Map

end Nessus.Lib
