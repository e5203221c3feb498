import Nessus.Lib.Machine
import Nessus.Lib.Outcome

/-!
# Calls one after the other

The machine that makes calls on a state, each a computation of type `Eff`, and keeps a record of every call: the state
before it and after it, and how it has ended.  A call that ends the process is the last.

* `callMachine_calls`, `callMachine_records` — the records are those of the calls made, and are what they come to;
* `callMachine_changed` — what is no longer as it was at the start has been changed by a call on record.
-/

namespace Nessus.Lib

/-- What is known of a call that has been made. -/
structure CallRecord (ι σ ε β : Type) where
  call : ι
  before : σ
  after : σ
  outcome : Outcome ε β

/-- The state, whether the process still runs, and the calls so far, oldest first. -/
structure CallState (ι σ ε β : Type) where
  state : σ
  live : Bool
  records : List (CallRecord ι σ ε β)

variable {ι σ ε β : Type}

/-- The process goes on after a call that returns or throws. -/
def Outcome.goesOn : Outcome ε β → Bool
  | ok _ => true
  | thrown _ => true
  | terminated => false
  | undefined => false

def CallRecord.of (run : ι → Eff σ ε β) (i : ι) (s : σ) : CallRecord ι σ ε β := ⟨i, s, (run i s).1, (run i s).2⟩

def callMachine (start : σ) (run : ι → Eff σ ε β) : Machine (CallState ι σ ε β) ι where
  init := ⟨start, true, []⟩
  step s i :=
    if s.live then some ⟨(run i s.state).1, (run i s.state).2.goesOn, s.records ++ [.of run i s.state]⟩ else none

section

variable {start : σ} {run : ι → Eff σ ε β}

theorem callMachine_step {s s' : CallState ι σ ε β} {i : ι} (h : (callMachine start run).step s i = some s') :
    s' = ⟨(run i s.state).1, (run i s.state).2.goesOn, s.records ++ [.of run i s.state]⟩ := by
  simp only [callMachine] at h
  split at h
  · exact (Option.some.inj h).symm
  · cases h

theorem callMachine_calls : ∀ t s, (callMachine start run).run t = some s → s.records.map CallRecord.call = t := by
  refine Machine.invariant (I := fun t (s : CallState ι σ ε β) => s.records.map CallRecord.call = t) rfl ?_
  intro t s i s' _ ih h
  rw [callMachine_step h, List.map_append, ih]
  rfl

/-- **Every record is what its call comes to** in the state before it. -/
theorem callMachine_records : ∀ t s, (callMachine start run).run t = some s →
    ∀ r ∈ s.records, r = .of run r.call r.before := by
  refine Machine.invariant (I := fun _ (s : CallState ι σ ε β) => ∀ r ∈ s.records, r = .of run r.call r.before) ?_ ?_
  · intro r hr
    cases hr
  · intro t s i s' _ ih h r hr
    rw [callMachine_step h, List.mem_append, List.mem_singleton] at hr
    rcases hr with hr | rfl
    · exact ih r hr
    · rfl

/-- A part of the state is as it was at the start, or some call on record is the last that has changed it. -/
theorem callMachine_changed {γ : Type} (f : σ → γ) : ∀ t s, (callMachine start run).run t = some s →
    f s.state = f start ∨ ∃ r ∈ s.records, f r.before ≠ f r.after ∧ f r.after = f s.state := by
  refine Machine.invariant (I := fun _ (s : CallState ι σ ε β) =>
    f s.state = f start ∨ ∃ r ∈ s.records, f r.before ≠ f r.after ∧ f r.after = f s.state) (.inl rfl) ?_
  intro t s i s' _ ih h
  rw [callMachine_step h]
  by_cases hf : f s.state = f (run i s.state).1
  · rcases ih with ih | ⟨r, hr, hne, ha⟩
    · exact .inl (hf.symm.trans ih)
    · exact .inr ⟨r, List.mem_append_left _ hr, hne, ha.trans hf⟩
  · exact .inr ⟨.of run i s.state, by simp, hf, rfl⟩

end

end Nessus.Lib
