import Mathlib.Data.Nat.Notation
import Nessus.Lib.Outcome

/-!
# Loops

`while` as a computation with a bound on the number of tests, which is `none` where the bound is too small.

* `whileLoop_mono` — a larger bound makes no difference;
* `whileLoop_forM` — **a loop that uses up a list** is a `for` over the list, and ends.
-/

namespace Nessus.Lib.Eff

variable {σ τ ε α : Type}

/-- `while (cond) body`, as long as `fuel` tests are enough. -/
def whileLoop (cond : σ → Bool) (body : Eff σ ε Unit) : ℕ → σ → Option (σ × Outcome ε Unit)
  | 0, _ => none
  | fuel + 1, s =>
    if cond s then
      match body s with
      | (s', .ok _) => whileLoop cond body fuel s'
      | (s', r) => some (s', r)
    else some (s, .ok ())

variable {cond : σ → Bool} {body : Eff σ ε Unit} {fuel fuel' : ℕ} {s s' : σ} {r : σ × Outcome ε Unit}

theorem whileLoop_of_false (h : cond s = false) : whileLoop cond body (fuel + 1) s = some (s, .ok ()) := by
  rw [whileLoop, if_neg (by simp [h])]

theorem whileLoop_of_ok (h : cond s = true) (hs : body s = (s', .ok ())) :
    whileLoop cond body (fuel + 1) s = whileLoop cond body fuel s' := by
  rw [whileLoop, if_pos h, hs]

theorem whileLoop_of_not_ok (h : cond s = true) (hs : ∀ s', body s ≠ (s', .ok ())) :
    whileLoop cond body (fuel + 1) s = some (body s) := by
  rw [whileLoop, if_pos h]
  rcases hbody : body s with ⟨s', _ | _ | _ | _⟩
  · exact absurd hbody (hs s')
  all_goals rfl

theorem whileLoop_mono (h : whileLoop cond body fuel s = some r) (hle : fuel ≤ fuel') :
    whileLoop cond body fuel' s = some r := by
  induction fuel generalizing s fuel' with
  | zero => cases h
  | succ fuel ih =>
    obtain ⟨fuel', rfl⟩ : ∃ k, fuel' = k + 1 := ⟨fuel' - 1, by omega⟩
    cases hcond : cond s with
    | false =>
      rw [whileLoop_of_false hcond] at h ⊢
      exact h
    | true =>
      rw [whileLoop, if_pos hcond] at h ⊢
      split at h
      · next s' _ hs => exact ih h (by omega)
      · next s' r' hs => exact h

/-! ## Loops that use up a list -/

/-- Two computations end in the same way, where `p` says what of the state of the first is the state of the second. -/
def Ends (p : σ → τ) (x : σ × Outcome ε Unit) (y : τ × Outcome ε Unit) : Prop := p x.1 = y.1 ∧ x.2 = y.2

/-- One round does `f` for the first element of what is left, and leaves the rest of it.  `inv` is true on the way, and
when a round does not come to its end. -/
structure Consumes (cond : σ → Bool) (body : Eff σ ε Unit) (left : σ → List α → Prop) (inv : σ → Prop) (p : σ → τ)
    (f : α → Eff τ ε Unit) : Prop where
  nil : ∀ s, left s [] → cond s = false ∧ inv s
  cons : ∀ s a l, left s (a :: l) → cond s = true ∧ Ends p (body s) (f a (p s)) ∧ inv (body s).1 ∧
    ∀ s', body s = (s', .ok ()) → left s' l

/-- **A loop that uses up a list** is a `for` over the list. -/
theorem whileLoop_forM {left : σ → List α → Prop} {inv : σ → Prop} {p : σ → τ} {f : α → Eff τ ε Unit}
    (h : Consumes cond body left inv p f) {l : List α} (hs : left s l) :
    ∃ r, whileLoop cond body (l.length + 1) s = some r ∧ Ends p r (forM l f (p s)) ∧ inv r.1 := by
  induction l generalizing s with
  | nil => exact ⟨_, whileLoop_of_false (h.nil s hs).1, ⟨rfl, rfl⟩, (h.nil s hs).2⟩
  | cons a l ih =>
    obtain ⟨hcond, ⟨hstate, hends⟩, hinv, hrest⟩ := h.cons s a l hs
    rw [List.forM_cons]
    rcases hbody : body s with ⟨s', _ | _ | _ | _⟩
    · obtain ⟨r, hr, hr'⟩ := ih (hrest s' hbody)
      have hf : f a (p s) = (p s', .ok ()) := by
        rw [hbody] at hstate hends
        exact Prod.ext hstate.symm hends.symm
      refine ⟨r, (whileLoop_of_ok hcond hbody).trans hr, ?_⟩
      rw [bind_of_ok hf]
      exact hr'
    all_goals
      refine ⟨body s, whileLoop_of_not_ok hcond (by simp [hbody]), ?_, hinv⟩
      have hf : f a (p s) = (p (body s).1, (body s).2) := Prod.ext hstate.symm hends.symm
      rw [bind_apply, hf, hbody]
      exact ⟨rfl, rfl⟩

end Nessus.Lib.Eff
