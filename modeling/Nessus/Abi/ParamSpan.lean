import Mathlib.Algebra.Order.Ring.Nat
import Nessus.Lib.Machine
import Nessus.Abi.Transport

/-!
# Spans

`param_span`, a pointer and a number of elements, and the spans that `sub_span` makes of it.

* `ParamSpan.elementAt`, `ParamSpan.subSpan` — the two functions that check an index;
* `ParamSpan.subSpan_inside_iff` — a sub-span is a part of its span exactly if the sum in the check does not wrap;
* `subSpans_inside_iff` — **a chain of sub-spans** stays inside the first span exactly as long as no sum wraps.
-/

namespace Nessus.Abi

open Nessus.Lib

variable {τ : Type}

/-- A `param_span`: where its first element is in memory, counted in elements, and how many there are. -/
structure ParamSpan where
  data : ℕ
  size : UInt64
  deriving DecidableEq, Repr

namespace ParamSpan

section Functions

variable (P : Primitives τ) (s : ParamSpan) (index : UInt64)

/-- `abi_out_of_bounds{ format("Index: {}, Size: {}", index, size) }`. -/
def outOfBounds (index size : UInt64) : Exn :=
  .abi (.of .outOfBounds (P.createAbiExceptionMessage errorOutOfBounds
    (some ("Index: " ++ toString index.toNat ++ ", Size: " ++ toString size.toNat))))

/-- `operator[]`: where the element is. -/
def elementAt : Outcome Exn ℕ :=
  if index < s.size then .ok (s.data + index.toNat) else .thrown (outOfBounds P index s.size)

def subSpan (size : UInt64) : Outcome Exn ParamSpan :=
  if index < s.size ∧ index + size ≤ s.size then .ok ⟨s.data + index.toNat, size⟩
  else .thrown (outOfBounds P index size)

end Functions

/-- Any calls of `sub_span`, each of the span that the last one has returned. -/
def subSpans (P : Primitives τ) (s : ParamSpan) : Machine ParamSpan (UInt64 × UInt64) where
  init := s
  step t call :=
    match t.subSpan P call.1 call.2 with
    | .ok t' => some t'
    | .thrown _ => some t
    | .terminated => none
    | .undefined => none

/-! ## Inside -/

/-- The call throws, or the elements of the sub-span are elements of the span, at positions that are shifted by the
index. -/
def SubSpanInside (P : Primitives τ) (s : ParamSpan) (call : UInt64 × UInt64) : Prop :=
  (∃ what, s.subSpan P call.1 call.2 = .thrown (.abi (.of .outOfBounds what))) ∨
    ∃ t, s.subSpan P call.1 call.2 = .ok t ∧
      ∀ i p, t.elementAt P i = .ok p → ∃ j : UInt64, j.toNat = call.1.toNat + i.toNat ∧ s.elementAt P j = .ok p

/-- The place in memory is that of an element. -/
def Exposes (P : Primitives τ) (s : ParamSpan) (p : ℕ) : Prop := ∃ i, s.elementAt P i = .ok p

/-- Every call of the chain returns a part of its span, and all spans of the chain are parts of the first one. -/
def StaysInside (P : Primitives τ) (s : ParamSpan) (calls : List (UInt64 × UInt64)) : Prop :=
  ∀ u, u <+: calls → ∃ t, (subSpans P s).run u = some t ∧ (∀ p, t.Exposes P p → s.Exposes P p) ∧
    ∀ call, u ++ [call] <+: calls → t.SubSpanInside P call

/-- The sum in the check of `sub_span` is evaluated, and wraps. -/
def Wraps (s : ParamSpan) (call : UInt64 × UInt64) : Prop :=
  call.1 < s.size ∧ 2 ^ 64 ≤ call.1.toNat + call.2.toNat

instance (s : ParamSpan) (call : UInt64 × UInt64) : Decidable (s.Wraps call) := inferInstanceAs (Decidable (_ ∧ _))

/-! ## One call -/

section Call

variable {P : Primitives τ} {s t : ParamSpan} {index i size : UInt64} {p : ℕ}

theorem elementAt_eq_ok : s.elementAt P index = .ok p ↔ index < s.size ∧ p = s.data + index.toNat := by
  rw [elementAt]
  split
  · next h => simp [h, eq_comm]
  · next h => simp [h]

theorem check_iff_of_not_wraps (h : ¬ s.Wraps (index, size)) :
    index < s.size ∧ index + size ≤ s.size ↔ index < s.size ∧ index.toNat + size.toNat ≤ s.size.toNat := by
  refine and_congr_right fun hlt => ?_
  have hsum : index.toNat + size.toNat < 2 ^ 64 := Nat.not_le.1 fun hle => h ⟨hlt, hle⟩
  rw [UInt64.le_iff_toNat_le, UInt64.toNat_add, Nat.mod_eq_of_lt hsum]

/-- With wrapping, the sum is smaller than the index, and the check passes. -/
theorem check_of_wraps (h : s.Wraps (index, size)) : index < s.size ∧ index + size ≤ s.size := by
  refine ⟨h.1, ?_⟩
  have hlt : index.toNat < s.size.toNat := h.1
  have hle : 2 ^ 64 ≤ index.toNat + size.toNat := h.2
  have hindex := index.toNat_lt
  have hsize := size.toNat_lt
  rw [UInt64.le_iff_toNat_le, UInt64.toNat_add, Nat.mod_eq_sub_mod hle, Nat.mod_eq_of_lt (by omega)]
  omega

theorem subSpan_cases (P : Primitives τ) (s : ParamSpan) (index size : UInt64) :
    (s.subSpan P index size = .ok ⟨s.data + index.toNat, size⟩ ∧ index < s.size ∧ index + size ≤ s.size) ∨
      s.subSpan P index size = .thrown (outOfBounds P index size) := by
  rw [subSpan]
  split
  · next h => exact .inl ⟨rfl, h⟩
  · exact .inr rfl

/-- **A sub-span is a part of its span exactly if the sum does not wrap.** -/
theorem subSpan_inside_iff : s.SubSpanInside P (index, size) ↔ ¬ s.Wraps (index, size) := by
  constructor
  · intro h hwraps
    have hsub : s.subSpan P index size = .ok ⟨s.data + index.toNat, size⟩ := if_pos (check_of_wraps hwraps)
    have hle : 2 ^ 64 ≤ index.toNat + size.toNat := hwraps.2
    have hindex := index.toNat_lt
    rcases h with ⟨what, hthrown⟩ | ⟨t, ht, helements⟩
    · rw [hsub] at hthrown
      cases hthrown
    · rw [hsub] at ht
      cases ht
      -- the last element of the sub-span is behind every element of the span
      have hlast : (size - 1).toNat = size.toNat - 1 :=
        UInt64.toNat_sub_of_le _ _ (UInt64.le_iff_toNat_le.2 (by rw [UInt64.toNat_one]; omega))
      have hlt : size - 1 < size := by
        rw [UInt64.lt_iff_toNat_lt, hlast]
        omega
      obtain ⟨j, hj, hs⟩ := helements (size - 1) _ (elementAt_eq_ok.2 ⟨hlt, rfl⟩)
      have hjs : j.toNat < s.size.toNat := (elementAt_eq_ok.1 hs).1
      have hmax := s.size.toNat_lt
      have hj' : j.toNat = index.toNat + (size - 1).toNat := hj
      omega
  · intro h
    rcases subSpan_cases P s index size with ⟨hsub, hcheck⟩ | hsub
    · refine .inr ⟨_, hsub, fun i p helement => ?_⟩
      obtain ⟨hi, rfl⟩ := elementAt_eq_ok.1 helement
      have hlt : i.toNat < size.toNat := hi
      have hle := ((check_iff_of_not_wraps h).1 hcheck).2
      have hj : (UInt64.ofNat (index.toNat + i.toNat)).toNat = index.toNat + i.toNat :=
        UInt64.toNat_ofNat_of_lt' (Nat.lt_trans (by omega) s.size.toNat_lt)
      refine ⟨_, hj, elementAt_eq_ok.2 ⟨?_, ?_⟩⟩
      · rw [UInt64.lt_iff_toNat_lt, hj]
        omega
      · rw [hj]
        simp only [Nat.add_assoc]
    · exact .inl ⟨_, hsub⟩

/-- A call that returns a part of its span leaves a part of it. -/
theorem SubSpanInside.step {call : UInt64 × UInt64} (h : s.SubSpanInside P call) (s₀ : ParamSpan) :
    ∃ t, (subSpans P s₀).step s call = some t ∧ ∀ p, t.Exposes P p → s.Exposes P p := by
  rcases h with ⟨what, hsub⟩ | ⟨t, hsub, helements⟩
  · exact ⟨s, by simp only [subSpans, hsub], fun p hp => hp⟩
  · refine ⟨t, by simp only [subSpans, hsub], ?_⟩
    rintro p ⟨i, hi⟩
    obtain ⟨j, -, hj⟩ := helements i p hi
    exact ⟨j, hj⟩

end Call

/-! ## Chains -/

/-- No sum wraps in the chain. -/
def NoneWraps (P : Primitives τ) (s : ParamSpan) (calls : List (UInt64 × UInt64)) : Prop :=
  ∀ u call t, u ++ [call] <+: calls → (subSpans P s).run u = some t → ¬ t.Wraps call

theorem run_inside {P : Primitives τ} {s : ParamSpan} {u : List (UInt64 × UInt64)} (h : NoneWraps P s u) :
    ∃ t, (subSpans P s).run u = some t ∧ ∀ p, t.Exposes P p → s.Exposes P p := by
  induction u using List.reverseRecOn with
  | nil => exact ⟨s, rfl, fun p hp => hp⟩
  | append_singleton u call ih =>
    obtain ⟨t, hrun, hinside⟩ := ih fun v c t' hv => h v c t' (hv.trans (List.prefix_append u [call]))
    have hcall : t.SubSpanInside P call := subSpan_inside_iff.2 (h u call t (List.prefix_refl _) hrun)
    obtain ⟨t', hstep, hsub⟩ := hcall.step s
    exact ⟨t', (subSpans P s).run_concat_eq_some.2 ⟨t, hrun, hstep⟩, fun p hp => hinside p (hsub p hp)⟩

/-- **A chain of sub-spans stays inside the first span exactly as long as no sum wraps.** -/
theorem subSpans_inside_iff (P : Primitives τ) (s : ParamSpan) (calls : List (UInt64 × UInt64)) :
    StaysInside P s calls ↔ NoneWraps P s calls := by
  constructor
  · intro h u call t hu hrun
    obtain ⟨t', hrun', -, hcalls⟩ := h u ((List.prefix_append u [call]).trans hu)
    rw [hrun] at hrun'
    cases hrun'
    exact subSpan_inside_iff.1 (hcalls call hu)
  · intro h u hu
    obtain ⟨t, hrun, hinside⟩ := run_inside fun v c t hv => h v c t (hv.trans hu)
    exact ⟨t, hrun, hinside, fun call hcall => subSpan_inside_iff.2 (h u call t hcall hrun)⟩

/-- A span of two elements: `sub_span(1, SIZE_MAX)` has an element behind them. -/
theorem not_staysInside :
    (ParamSpan.mk 0 2).subSpan Primitives.slot 1 0xFFFFFFFFFFFFFFFF = .ok ⟨1, 0xFFFFFFFFFFFFFFFF⟩ ∧
      (ParamSpan.mk 1 0xFFFFFFFFFFFFFFFF).elementAt Primitives.slot 1 = .ok 2 ∧
      ¬ StaysInside Primitives.slot ⟨0, 2⟩ [(1, 0xFFFFFFFFFFFFFFFF)] := by
  refine ⟨by decide, by decide, fun h => ?_⟩
  obtain ⟨t, hrun, -, hcalls⟩ := h [] (List.nil_prefix)
  cases hrun
  exact subSpan_inside_iff.1 (hcalls _ (List.prefix_refl _)) (by decide)

end ParamSpan

end Nessus.Abi
