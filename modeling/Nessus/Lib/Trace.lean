import Mathlib.Data.List.Basic

/-!
# What has happened in a trace

`Since p q t`: something in `t` satisfies `p`, and nothing after it satisfies `q`.  `since_concat` is the recursion on
the last label that an invariant about traces needs.  Where at most one label satisfies `p`, the place of that label is
determined (`split_unique`).
-/

namespace Nessus.Lib

variable {α : Type} {p q : α → Prop} {t : List α} {a : α}

/-- `p` has happened, and `q` has not happened since. -/
def Since (p q : α → Prop) (t : List α) : Prop := ∃ t₁ x t₂, t = t₁ ++ x :: t₂ ∧ p x ∧ ∀ y ∈ t₂, ¬ q y

theorem not_since_nil : ¬ Since p q [] := by
  rintro ⟨t₁, x, t₂, h, -⟩
  simp at h

theorem Since.exists_mem (h : Since p q t) : ∃ x ∈ t, p x := by
  obtain ⟨t₁, x, t₂, rfl, hp, -⟩ := h
  exact ⟨x, by simp, hp⟩

/-- A list that ends in `a`, split at a label: the label is `a`, or it is one of those before. -/
theorem concat_eq_split {t₁ t₂ : List α} {x : α} (h : t ++ [a] = t₁ ++ x :: t₂) :
    (t₁ = t ∧ x = a ∧ t₂ = []) ∨ ∃ t₂', t₂ = t₂' ++ [a] ∧ t = t₁ ++ x :: t₂' := by
  rcases List.eq_nil_or_concat t₂ with rfl | ⟨t₂', b, rfl⟩
  · obtain ⟨h₁, h₂⟩ := List.append_inj' h rfl
    cases h₂
    exact .inl ⟨h₁.symm, rfl, rfl⟩
  · have h' : t ++ [a] = (t₁ ++ x :: t₂') ++ [b] := by simpa using h
    obtain ⟨h₁, h₂⟩ := List.append_inj' h' rfl
    cases h₂
    exact .inr ⟨t₂', by simp, h₁⟩

theorem since_concat : Since p q (t ++ [a]) ↔ p a ∨ (¬ q a ∧ Since p q t) := by
  constructor
  · rintro ⟨t₁, x, t₂, h, hp, hq⟩
    rcases concat_eq_split h with ⟨-, rfl, -⟩ | ⟨t₂', rfl, rfl⟩
    · exact .inl hp
    · exact .inr ⟨hq a (by simp), t₁, x, t₂', rfl, hp, fun y hy => hq y (by simp [hy])⟩
  · rintro (hp | ⟨ha, t₁, x, t₂, rfl, hp, hq⟩)
    · exact ⟨t, a, [], rfl, hp, by simp⟩
    · refine ⟨t₁, x, t₂ ++ [a], by simp, hp, fun y hy => ?_⟩
      rcases List.mem_append.1 hy with hy | hy
      · exact hq y hy
      · rw [List.mem_singleton] at hy
        exact hy ▸ ha

/-- Where `f` is defined on at most one label of a trace for each value, that label has one place only. -/
theorem split_unique {β : Type} {f : α → Option β} (hf : (t.filterMap f).Nodup) {t₁ t₂ u₁ u₂ : List α} {x y : α} {b : β}
    (ht : t = t₁ ++ x :: t₂) (hu : t = u₁ ++ y :: u₂) (hx : f x = some b) (hy : f y = some b) :
    t₁ = u₁ ∧ x = y ∧ t₂ = u₂ := by
  induction t₁ generalizing t u₁ with
  | nil =>
    cases u₁ with
    | nil =>
      rw [ht] at hu
      cases hu
      exact ⟨rfl, rfl, rfl⟩
    | cons z u₁ =>
      rw [ht] at hu
      obtain ⟨rfl, rfl⟩ := List.cons.inj hu
      rw [ht, List.nil_append, List.filterMap_cons_some hx, List.nodup_cons] at hf
      exact absurd (List.mem_filterMap.2 ⟨y, by simp, hy⟩) hf.1
  | cons z t₁ ih =>
    cases u₁ with
    | nil =>
      rw [hu] at ht
      obtain ⟨rfl, rfl⟩ := List.cons.inj ht
      rw [hu, List.nil_append, List.filterMap_cons_some hy, List.nodup_cons] at hf
      exact absurd (List.mem_filterMap.2 ⟨x, by simp, hx⟩) hf.1
    | cons w u₁ =>
      rw [ht] at hu
      obtain ⟨rfl, hu'⟩ := List.cons.inj hu
      have hf' : ((t₁ ++ x :: t₂).filterMap f).Nodup := by
        rw [ht] at hf
        exact hf.sublist ((List.sublist_cons_self z _).filterMap f)
      obtain ⟨rfl, hxy, ht₂⟩ := ih hf' rfl hu'
      exact ⟨rfl, hxy, ht₂⟩

end Nessus.Lib
