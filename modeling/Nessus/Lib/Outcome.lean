import Mathlib.Logic.Basic
import Mathlib.Tactic.Cases

/-!
# Outcomes of C++ evaluations

How the evaluation of a piece of C++ can end, as a monad: with a value, with an exception in flight, with the
process terminated (`std::terminate`), or with undefined behaviour.  `Eff` adds a state that survives an exception.

`Outcome.Allows` is what an outcome promises to an observer: undefined behaviour promises nothing, so it allows
every value.  `Ensures` is the weakest precondition that goes with it, `Throws` says that an evaluation ends with an
exception of some kind, and `DefinedIff` exactly when it has no undefined behaviour.
-/

namespace Nessus.Lib

inductive Outcome (ε α : Type) where
  | ok (a : α)
  | thrown (e : ε)
  | terminated
  | undefined
  deriving DecidableEq, Repr

namespace Outcome

variable {ε ε' α β : Type}

/-- Sequencing: whatever is not a value ends the whole evaluation. -/
protected def bind (x : Outcome ε α) (f : α → Outcome ε β) : Outcome ε β :=
  match x with
  | ok a => f a
  | thrown e => thrown e
  | terminated => terminated
  | undefined => undefined

instance : Monad (Outcome ε) where
  pure := ok
  bind := Outcome.bind

@[simp] theorem pure_eq (a : α) : (pure a : Outcome ε α) = ok a := rfl
@[simp] theorem ok_bind (a : α) (f : α → Outcome ε β) : (ok a >>= f) = f a := rfl
@[simp] theorem thrown_bind (e : ε) (f : α → Outcome ε β) : (thrown e >>= f) = thrown e := rfl
@[simp] theorem terminated_bind (f : α → Outcome ε β) : (terminated >>= f) = terminated := rfl
@[simp] theorem undefined_bind (f : α → Outcome ε β) : (undefined >>= f) = undefined := rfl

instance : LawfulMonad (Outcome ε) := .mk' (m := Outcome ε)
  (fun x => by cases x <;> rfl) (fun _ _ => rfl) (fun x _ _ => by cases x <;> rfl)

theorem bind_eq_ok {x : Outcome ε α} {f : α → Outcome ε β} {b : β} :
    (x >>= f) = ok b ↔ ∃ a, x = ok a ∧ f a = ok b := by
  cases x <;> simp

theorem mapM_of_ok {l : List α} {f : α → Outcome ε β} {g : α → β} (h : ∀ a ∈ l, f a = ok (g a)) :
    l.mapM f = ok (l.map g) := by
  induction l with
  | nil => rfl
  | cons a l ih =>
    rw [List.mapM_cons, h a List.mem_cons_self, ok_bind, ih fun b hb => h b (List.mem_cons_of_mem a hb), ok_bind, pure_eq,
      List.map_cons]

/-- The values an observer has to reckon with: undefined behaviour may show any of them. -/
def Allows : Outcome ε α → α → Prop
  | ok a, b => b = a
  | undefined, _ => True
  | thrown _, _ => False
  | terminated, _ => False

@[simp] theorem allows_ok {a b : α} : (ok a : Outcome ε α).Allows b ↔ b = a := Iff.rfl
@[simp] theorem allows_undefined {b : α} : (undefined : Outcome ε α).Allows b := trivial
@[simp] theorem not_allows_thrown {e : ε} {b : α} : ¬ (thrown e : Outcome ε α).Allows b := id
@[simp] theorem not_allows_terminated {b : α} : ¬ (terminated : Outcome ε α).Allows b := id

/-! ## What an evaluation ensures -/

/-- Whatever the evaluation may return satisfies `P`. -/
def Ensures (x : Outcome ε α) (P : α → Prop) : Prop := ∀ a, x.Allows a → P a

section Ensures

variable {P : β → Prop} {f : α → Outcome ε β}

@[simp] theorem ensures_ok {b : β} : (ok b : Outcome ε β).Ensures P ↔ P b := by simp [Ensures]
@[simp] theorem ensures_thrown {e : ε} : (thrown e : Outcome ε β).Ensures P := by simp [Ensures]

theorem not_ensures_undefined (hP : ∃ b, ¬ P b) : ¬ (undefined : Outcome ε β).Ensures P := by
  obtain ⟨b, hb⟩ := hP
  exact fun h => hb (h b allows_undefined)

end Ensures

/-- The results of the rest are images of the values of `x`. -/
theorem ensures_map {x : Outcome ε α} {P : β → Prop} {g : α → β} (hP : ∃ a, ¬ P (g a)) :
    (x >>= fun a => ok (g a)).Ensures P ↔ x.Ensures fun a => P (g a) := by
  cases x with
  | ok a => simp
  | thrown e => simp
  | terminated => exact iff_of_true (fun _ h => h.elim) (fun _ h => h.elim)
  | undefined => exact iff_of_false (not_ensures_undefined (hP.imp' g fun _ => id)) (not_ensures_undefined hP)

/-- It comes to a value or is undefined. -/
def NoThrow (x : Outcome ε α) : Prop := x = undefined ∨ ∃ a, x = ok a

theorem NoThrow.bind {x : Outcome ε α} {f : α → Outcome ε β} (hx : NoThrow x) (hf : ∀ a, x = ok a → NoThrow (f a)) :
    NoThrow (x >>= f) := by
  rcases hx with h | ⟨a, h⟩
  · exact .inl (by rw [h, undefined_bind])
  · rw [h, ok_bind]
    exact hf a h

theorem NoThrow.foldlM {f : β → α → Outcome ε β} (hf : ∀ b a, NoThrow (f b a)) (l : List α) (b : β) :
    NoThrow (l.foldlM f b) := by
  induction l generalizing b with
  | nil => exact .inr ⟨b, rfl⟩
  | cons a l ih => exact (hf b a).bind fun b' _ => ih b'

/-- It ends with an exception of the kind `C`. -/
def Throws (x : Outcome ε α) (C : ε → Prop) : Prop := ∃ e, x = thrown e ∧ C e

section Throws

variable {x : Outcome ε α} {f : α → Outcome ε β} {C : ε → Prop}

@[simp] theorem throws_thrown {e : ε} : (thrown e : Outcome ε α).Throws C ↔ C e := by simp [Throws]
@[simp] theorem not_throws_ok {a : α} : ¬ (ok a : Outcome ε α).Throws C := by simp [Throws]
@[simp] theorem not_throws_undefined : ¬ (undefined : Outcome ε α).Throws C := by simp [Throws]

theorem NoThrow.not_throws_bind (h : NoThrow x) (hf : ∀ a, x = ok a → ¬ (f a).Throws C) : ¬ (x >>= f).Throws C := by
  rcases h with rfl | ⟨a, rfl⟩
  · simp
  · exact hf a rfl

end Throws

/-- The evaluation is defined exactly where `D` holds, and comes to a value that satisfies `I` there. -/
structure DefinedIff (x : Outcome ε α) (D : Prop) (I : α → Prop) : Prop where
  defined : D → ∃ a, x = ok a ∧ I a
  undefined : ¬ D → x = undefined

namespace DefinedIff

variable {x : Outcome ε α} {f : α → Outcome ε β} {D E : Prop} {I : α → Prop} {J : β → Prop}

theorem ok_of {a : α} (hd : D) (h : I a) : DefinedIff (ok a : Outcome ε α) D I :=
  ⟨fun _ => ⟨a, rfl, h⟩, fun hno => absurd hd hno⟩

theorem of_ok {a : α} (h : I a) : DefinedIff (ok a : Outcome ε α) True I := ok_of trivial h

theorem undefined_of (hno : ¬ D) : DefinedIff (Outcome.undefined : Outcome ε α) D I :=
  ⟨fun hd => absurd hd hno, fun _ => rfl⟩

theorem ite {a : α} [Decidable D] (h : D → I a) : DefinedIff (if D then ok a else Outcome.undefined : Outcome ε α) D I :=
  ⟨fun hd => ⟨a, if_pos hd, h hd⟩, fun hno => if_neg hno⟩

theorem noThrow (h : DefinedIff x D I) : NoThrow x := by
  by_cases hd : D
  · obtain ⟨a, ha, -⟩ := h.defined hd
    exact .inr ⟨a, ha⟩
  · exact .inl (h.undefined hd)

/-- What is there is defined, and as the rule says. -/
theorem of_eq_ok (h : DefinedIff x D I) {a : α} (ha : x = ok a) : D ∧ I a := by
  by_cases hd : D
  · obtain ⟨b, hb, hI⟩ := h.defined hd
    rw [ha] at hb
    cases hb
    exact ⟨hd, hI⟩
  · rw [h.undefined hd] at ha
    cases ha

theorem congr (h : DefinedIff x D I) (hd : D ↔ E) : DefinedIff x E I := propext hd ▸ h

theorem bind (hx : DefinedIff x D I) (hf : ∀ a, D → I a → DefinedIff (f a) E J) :
    DefinedIff (x >>= f) (D ∧ E) J := by
  constructor
  · rintro ⟨hd, he⟩
    obtain ⟨a, rfl, ha⟩ := hx.defined hd
    exact (hf a hd ha).defined he
  · intro hno
    by_cases hd : D
    · obtain ⟨a, rfl, ha⟩ := hx.defined hd
      exact (hf a hd ha).undefined fun he => hno ⟨hd, he⟩
    · rw [hx.undefined hd, undefined_bind]

theorem bind_of_imp (hx : DefinedIff x D I) (hd : E → D) (hf : ∀ a, D → I a → DefinedIff (f a) E J) :
    DefinedIff (x >>= f) E J :=
  (hx.bind hf).congr (and_iff_right_of_imp hd)

theorem bind_ok {g : α → β} (hx : DefinedIff x D I) (hg : ∀ a, D → I a → J (g a)) :
    DefinedIff (x >>= fun a => ok (g a)) D J :=
  (hx.bind fun a hd ha => of_ok (hg a hd ha)).congr (and_true D).to_iff

/-- What undefined behaviour has not, a computation that starts with `x` has if its rest has it, where `x` is defined. -/
theorem bind_iff {Q : Outcome ε β → Prop} (hx : DefinedIff x D I) (hQ : ¬ Q Outcome.undefined)
    (hf : ∀ a, D → I a → (Q (f a) ↔ E)) : Q (x >>= f) ↔ D ∧ E := by
  by_cases hd : D
  · obtain ⟨a, rfl, ha⟩ := hx.defined hd
    rw [ok_bind, hf a hd ha, and_iff_right hd]
  · rw [hx.undefined hd, undefined_bind]
    exact iff_of_false hQ fun h => hd h.1

/-- A computation that starts with `x` ensures what its rest does, where `x` is defined. -/
theorem ensures_bind {P : β → Prop} (hx : DefinedIff x D I) (hP : ∃ b, ¬ P b)
    (hf : ∀ a, D → I a → ((f a).Ensures P ↔ E)) :
    (x >>= f).Ensures P ↔ D ∧ E :=
  hx.bind_iff (Q := fun y => y.Ensures P) (not_ensures_undefined hP) hf

/-- A computation that starts with `x` throws what its rest does, where `x` is defined. -/
theorem throws_bind {C : ε → Prop} (hx : DefinedIff x D I) (hf : ∀ a, D → I a → ((f a).Throws C ↔ E)) :
    (x >>= f).Throws C ↔ D ∧ E :=
  hx.bind_iff (Q := fun y => y.Throws C) not_throws_undefined hf

end DefinedIff

end Outcome

/-- A computation on a state, where the state survives an exception. -/
def Eff (σ ε α : Type) : Type := σ → σ × Outcome ε α

namespace Eff

variable {σ ε α β : Type}

def throw (e : ε) : Eff σ ε α := fun s => (s, .thrown e)

def terminate : Eff σ ε α := fun s => (s, .terminated)

def modify (f : σ → σ) : Eff σ ε Unit := fun s => (f s, .ok ())

def get : Eff σ ε σ := fun s => (s, .ok s)

protected def bind (x : Eff σ ε α) (f : α → Eff σ ε β) : Eff σ ε β := fun s =>
  match x s with
  | (s', .ok a) => f a s'
  | (s', .thrown e) => (s', .thrown e)
  | (s', .terminated) => (s', .terminated)
  | (s', .undefined) => (s', .undefined)

instance : Monad (Eff σ ε) where
  pure a := fun s => (s, .ok a)
  bind := Eff.bind

@[simp] theorem throw_apply (e : ε) (s : σ) : (throw e : Eff σ ε α) s = (s, .thrown e) := rfl
@[simp] theorem terminate_apply (s : σ) : (terminate : Eff σ ε α) s = (s, .terminated) := rfl
@[simp] theorem pure_apply (a : α) (s : σ) : (pure a : Eff σ ε α) s = (s, .ok a) := rfl

theorem bind_apply (x : Eff σ ε α) (f : α → Eff σ ε β) (s : σ) :
    (x >>= f) s = match x s with
      | (s', .ok a) => f a s'
      | (s', .thrown e) => (s', .thrown e)
      | (s', .terminated) => (s', .terminated)
      | (s', .undefined) => (s', .undefined) := rfl

theorem bind_of_ok {x : Eff σ ε α} {s s' : σ} {a : α} (h : x s = (s', .ok a)) (f : α → Eff σ ε β) :
    (x >>= f) s = f a s' := by
  rw [bind_apply, h]

theorem bind_of_thrown {x : Eff σ ε α} {s s' : σ} {e : ε} (h : x s = (s', .thrown e)) (f : α → Eff σ ε β) :
    (x >>= f) s = (s', .thrown e) := by
  rw [bind_apply, h]

theorem bind_eq_ok {x : Eff σ ε α} {f : α → Eff σ ε β} {s s' : σ} {b : β} :
    (x >>= f) s = (s', .ok b) ↔ ∃ t a, x s = (t, .ok a) ∧ f a t = (s', .ok b) := by
  rw [bind_apply]
  rcases x s with ⟨t, a | _ | _ | _⟩
  · constructor
    · exact fun h => ⟨t, a, rfl, h⟩
    · rintro ⟨t', a', h, hf⟩
      cases h
      exact hf
  all_goals simp

/-- From the state `s` it returns exactly if `D` holds, with a state and a value that satisfy `I`. -/
structure ReturnsIff (x : Eff σ ε α) (s : σ) (D : Prop) (I : σ → α → Prop) : Prop where
  returns : D → ∃ t a, x s = (t, .ok a) ∧ I t a
  of_ok : ∀ t a, x s = (t, .ok a) → D

namespace ReturnsIff

variable {x : Eff σ ε α} {f : α → Eff σ ε β} {s t : σ} {D E : Prop} {I : σ → α → Prop} {J : σ → β → Prop}

theorem pure {a : α} (h : I s a) : ReturnsIff (pure a : Eff σ ε α) s True I := ⟨fun _ => ⟨s, a, rfl, h⟩, fun _ _ _ => trivial⟩

theorem congr (h : ReturnsIff x s D I) (hd : D ↔ E) : ReturnsIff x s E I := propext hd ▸ h

theorem bind (hx : ReturnsIff x s D I) (hf : ∀ t a, D → I t a → ReturnsIff (f a) t E J) :
    ReturnsIff (x >>= f) s (D ∧ E) J := by
  constructor
  · rintro ⟨hd, he⟩
    obtain ⟨t, a, ht, ha⟩ := hx.returns hd
    rw [bind_of_ok ht]
    exact (hf t a hd ha).returns he
  · intro u b hb
    obtain ⟨t, a, ht, hb⟩ := bind_eq_ok.1 hb
    have hd := hx.of_ok t a ht
    obtain ⟨t', a', ht', ha⟩ := hx.returns hd
    rw [ht] at ht'
    cases ht'
    exact ⟨hd, (hf t a hd ha).of_ok u b hb⟩

theorem of_eq_ok (h : ReturnsIff x s D I) {a : α} (ht : x s = (t, .ok a)) : D ∧ I t a := by
  have hd := h.of_ok t a ht
  obtain ⟨t', a', ht', hI⟩ := h.returns hd
  rw [ht] at ht'
  cases ht'
  exact ⟨hd, hI⟩

end ReturnsIff

/-! ## What a computation keeps -/

/-- The part `p` of the state is as it was, however the computation ends. -/
def Keeps {γ : Type} (p : σ → γ) (x : Eff σ ε α) : Prop := ∀ s, p (x s).1 = p s

section Keeps

variable {γ : Type} {p : σ → γ} {x : Eff σ ε α} {f : α → Eff σ ε β}

theorem keeps_pure (a : α) : Keeps p (pure a : Eff σ ε α) := fun _ => rfl

theorem keeps_throw (e : ε) : Keeps p (throw e : Eff σ ε α) := fun _ => rfl

theorem bind_keeps (hf : ∀ a, Keeps p (f a)) (s : σ) : p ((x >>= f) s).1 = p (x s).1 := by
  rw [bind_apply]
  rcases x s with ⟨t, a | _ | _ | _⟩
  · exact hf a t
  all_goals rfl

theorem Keeps.bind (hx : Keeps p x) (hf : ∀ a, Keeps p (f a)) : Keeps p (x >>= f) := fun s =>
  (bind_keeps hf s).trans (hx s)

end Keeps

end Eff

end Nessus.Lib
