import Mathlib.Logic.Basic
import Mathlib.Tactic.Cases
import Mathlib.Data.List.Induction

/-!
# Machines and their runs

A machine is an initial state and a step function that consumes one label, or refuses it.  A run is the list of the
labels consumed so far, oldest first.

* `Machine.run_concat`, `Machine.run_append`: runs are built one label at a time, and a run of a longer trace passes
  through the state of every prefix;
* `Machine.invariant`: what holds at the start and is kept by every step holds after every run; the invariant may
  speak of the trace;
* `Machine.invariant_of`: the same for the traces that satisfy a prefix-closed condition;
* `Machine.run_kept`: what every step keeps, from a state on the way to the end of the run;
* `Machine.Reaches`: some labels of one kind lead from a state to another.
-/

namespace Nessus.Lib

/-- A deterministic machine with labelled steps.  All choices of the environment are in the label. -/
structure Machine (σ α : Type) where
  /-- The state before the first step. -/
  init : σ
  /-- One step, or `none` where the label cannot happen in the state. -/
  step : σ → α → Option σ

namespace Machine

variable {σ α : Type} (M : Machine σ α)

/-- The state after a run, if every label of the run could happen. -/
def run (t : List α) : Option σ := t.foldlM M.step M.init

@[simp] theorem run_nil : M.run [] = some M.init := rfl

theorem run_append (t u : List α) : M.run (t ++ u) = (M.run t).bind fun s => u.foldlM M.step s := by
  simp [run, List.foldlM_append]

theorem run_concat (t : List α) (a : α) : M.run (t ++ [a]) = (M.run t).bind fun s => M.step s a := by
  simp [run_append]

theorem run_concat_eq_some {t : List α} {a : α} {s' : σ} :
    M.run (t ++ [a]) = some s' ↔ ∃ s, M.run t = some s ∧ M.step s a = some s' := by
  rw [run_concat, Option.bind_eq_some_iff]

/-- A run passes through the state of every prefix of its trace. -/
theorem run_of_append {t u : List α} {s : σ} (h : M.run (t ++ u) = some s) : ∃ s₁, M.run t = some s₁ := by
  rw [run_append, Option.bind_eq_some_iff] at h
  obtain ⟨s₁, h₁, -⟩ := h
  exact ⟨s₁, h₁⟩

variable {M}

/-- **The invariant rule under a condition on traces**: `I` holds after every run whose trace satisfies the
prefix-closed condition `C`. -/
theorem invariant_of {C : List α → Prop} {I : List α → σ → Prop} (hC : ∀ t a, C (t ++ [a]) → C t)
    (start : I [] M.init)
    (step : ∀ t s a s', M.run t = some s → C (t ++ [a]) → I t s → M.step s a = some s' → I (t ++ [a]) s') :
    ∀ t s, C t → M.run t = some s → I t s := by
  intro t
  induction t using List.reverseRecOn with
  | nil =>
    intro s _ h
    obtain rfl : M.init = s := by simpa using h
    exact start
  | append_singleton t a ih =>
    intro s' hc h
    obtain ⟨s, hs, ha⟩ := M.run_concat_eq_some.1 h
    exact step t s a s' hs hc (ih s (hC t a hc) hs) ha

/-- **The invariant rule**: what holds at the start and is kept by every step holds after every run. -/
theorem invariant {I : List α → σ → Prop} (start : I [] M.init)
    (step : ∀ t s a s', M.run t = some s → I t s → M.step s a = some s' → I (t ++ [a]) s') :
    ∀ t s, M.run t = some s → I t s := fun t s h =>
  invariant_of (C := fun _ => True) (fun _ _ _ => trivial) start
    (fun t s a s' hr _ hi hs => step t s a s' hr hi hs) t s trivial h

/-- What every step keeps holds at the end of a run if it holds on the way. -/
theorem run_kept {P : σ → Prop} (step : ∀ t s a s', M.run t = some s → P s → M.step s a = some s' → P s') (t₁ : List α) :
    ∀ t₂ s₁ s, M.run t₁ = some s₁ → P s₁ → M.run (t₁ ++ t₂) = some s → P s := by
  intro t₂
  induction t₂ using List.reverseRecOn with
  | nil =>
    intro s₁ s h₁ hp h
    rw [List.append_nil, h₁] at h
    cases h
    exact hp
  | append_singleton t₂ a ih =>
    intro s₁ s h₁ hp h
    rw [← List.append_assoc] at h
    obtain ⟨s', hs', ha⟩ := M.run_concat_eq_some.1 h
    exact step _ s' a s hs' (ih s₁ s' h₁ hp hs') ha

/-- Some labels that satisfy `p` lead from one state to the other. -/
def Reaches (M : Machine σ α) (p : α → Prop) (s s' : σ) : Prop := ∃ u : List α, (∀ a ∈ u, p a) ∧ u.foldlM M.step s = some s'

variable {p : α → Prop} {s s₁ s' : σ}

theorem Reaches.refl : M.Reaches p s s := ⟨[], by simp, rfl⟩

theorem Reaches.trans (h₁ : M.Reaches p s s₁) (h₂ : M.Reaches p s₁ s') : M.Reaches p s s' := by
  obtain ⟨u₁, hp₁, hu₁⟩ := h₁
  obtain ⟨u₂, hp₂, hu₂⟩ := h₂
  refine ⟨u₁ ++ u₂, fun a ha => (List.mem_append.1 ha).elim (hp₁ a) (hp₂ a), ?_⟩
  rw [List.foldlM_append, hu₁]
  exact hu₂

theorem Reaches.step {a : α} (ha : p a) (h : M.step s a = some s') : M.Reaches p s s' :=
  ⟨[a], by simpa using ha, by simp [h]⟩

theorem Reaches.run {t : List α} (ht : M.run t = some s) (h : M.Reaches p s s') :
    ∃ u, (∀ a ∈ u, p a) ∧ M.run (t ++ u) = some s' := by
  obtain ⟨u, hp, hu⟩ := h
  refine ⟨u, hp, ?_⟩
  rw [run_append, ht]
  exact hu

end Machine

end Nessus.Lib
