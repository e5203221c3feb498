import Mathlib.Data.List.Forall2
import Nessus.Memory.CircularQueue

/-!
# Circular queues refine bounded FIFOs

Sequences of calls on variables that hold queues.  The machine is the same for the code and for the specification,
which differ in their methods (`QueueMethods`): where the methods of one refine those of the other, so do the runs
(`QueueMethods.Refines.run`).
-/

namespace Nessus.Memory

open Nessus.Lib

/-- The methods of a type of queues; `moved` is what is left of a queue that has been moved from. -/
structure QueueMethods (Q α : Type) where
  construct : ℕ → Outcome VectorError Q
  pushBack : Q → α → Outcome VectorError Q
  popFront : Q → Outcome VectorError Q
  empty : Q → Bool
  moved : Q

/-- The operations on variables; `v` is the variable constructed or changed, `w` the argument. -/
inductive QueueOp (α : Type) where
  | construct (v maxItems : ℕ)
  | pushBack (v : ℕ) (item : α)
  | popFront (v : ℕ)
  | copyConstruct (v w : ℕ)
  | copyAssign (v w : ℕ)
  | moveConstruct (v w : ℕ)
  | moveAssign (v w : ℕ)
  | destruct (v : ℕ)

/-- The variables that an operation writes to. -/
def QueueOp.changes {α : Type} : QueueOp α → List ℕ
  | construct v _ => [v]
  | pushBack v _ => [v]
  | popFront v => [v]
  | copyConstruct v _ => [v]
  | copyAssign v _ => [v]
  | moveConstruct v w => [v, w]
  | moveAssign v w => [v, w]
  | destruct v => [v]

namespace QueueMethods

variable {Q A α : Type}

/-- The queue in a variable that has been constructed. -/
def queue? (s : List (Option Q)) (v : ℕ) : Option Q := s[v]?.join

/-- The slot of a variable is empty. -/
def free (s : List (Option Q)) (v : ℕ) : Bool := s[v]?.any Option.isNone

/-- One operation; `none` where no program can perform it: there is no such variable, an empty queue would be popped, or
a queue moved to itself. -/
def exec (I : QueueMethods Q α) (s : List (Option Q)) : QueueOp α → Option (Outcome VectorError (List (Option Q)))
  | .construct v maxItems =>
    if free s v ∧ maxItems < 2 ^ 64 then some (I.construct maxItems >>= fun q => .ok (s.set v (some q))) else none
  | .pushBack v item => do
    let q ← queue? s v
    some (I.pushBack q item >>= fun q => .ok (s.set v (some q)))
  | .popFront v => do
    let q ← queue? s v
    if I.empty q then none else some (I.popFront q >>= fun q => .ok (s.set v (some q)))
  | .copyConstruct v w => do
    let q ← queue? s w
    if free s v then some (.ok (s.set v (some q))) else none
  | .copyAssign v w => do
    let _ ← queue? s v
    let q ← queue? s w
    some (.ok (s.set v (some q)))
  | .moveConstruct v w => do
    let q ← queue? s w
    if free s v then some (.ok ((s.set v (some q)).set w (some I.moved))) else none
  | .moveAssign v w => do
    let _ ← queue? s v
    let q ← queue? s w
    if v = w then none else some (.ok ((s.set v (some q)).set w (some I.moved)))
  | .destruct v => do
    let _ ← queue? s v
    some (.ok (s.set v none))

/-- The programs over `n` variables; an exception ends them. -/
def machine (I : QueueMethods Q α) (n : ℕ) : Machine (Outcome VectorError (List (Option Q))) (QueueOp α) where
  init := .ok (List.replicate n none)
  step
    | .ok s, op => I.exec s op
    | _, _ => none

/-- Both come to values related by `R`, or to one exception. -/
inductive Related {β γ : Type} (R : β → γ → Prop) : Outcome VectorError β → Outcome VectorError γ → Prop where
  | ok {b : β} {c : γ} (h : R b c) : Related R (.ok b) (.ok c)
  | thrown (e : VectorError) : Related R (.thrown e) (.thrown e)

theorem Related.bind {β γ β' γ' : Type} {R : β → γ → Prop} {S : β' → γ' → Prop} {x : Outcome VectorError β}
    {y : Outcome VectorError γ} {f : β → Outcome VectorError β'} {g : γ → Outcome VectorError γ'} (h : Related R x y)
    (hfg : ∀ b c, R b c → Related S (f b) (g c)) : Related S (x >>= f) (y >>= g) := by
  cases h with
  | ok h => exact hfg _ _ h
  | thrown e => exact .thrown e

/-- The methods of `I` come to what those of `J` come to. -/
structure Refines (I : QueueMethods Q α) (J : QueueMethods A α) (R : Q → A → Prop) : Prop where
  construct : ∀ n < 2 ^ 64, Related R (I.construct n) (J.construct n)
  pushBack : ∀ q a, R q a → ∀ item, Related R (I.pushBack q item) (J.pushBack a item)
  popFront : ∀ q a, R q a → I.empty q = false → Related R (I.popFront q) (J.popFront a)
  empty : ∀ q a, R q a → I.empty q = J.empty a
  moved : R I.moved J.moved

/-- The same variables are constructed, and what they hold is related. -/
abbrev Vars (R : Q → A → Prop) : List (Option Q) → List (Option A) → Prop := List.Forall₂ (Option.Rel R)

section

variable {R : Q → A → Prop} {s : List (Option Q)} {t : List (Option A)}

theorem Vars.start (n : ℕ) : Vars R (List.replicate n none) (List.replicate n none) := by
  induction n with
  | zero => exact .nil
  | succ n ih => exact .cons .none ih

theorem Vars.queue (h : Vars R s t) {v : ℕ} {q : Q} (hq : queue? s v = some q) : ∃ a, queue? t v = some a ∧ R q a := by
  induction h generalizing v with
  | nil => simp [queue?] at hq
  | cons hrel _ ih =>
    cases v with
    | zero =>
      cases hrel with
      | some h => exact ⟨_, rfl, by cases hq; exact h⟩
      | none => cases hq
    | succ v => exact ih hq

theorem Vars.free_eq (h : Vars R s t) (v : ℕ) : free s v = free t v := by
  induction h generalizing v with
  | nil => rfl
  | cons hrel _ ih =>
    cases v with
    | zero => cases hrel <;> rfl
    | succ v => exact ih v

theorem Vars.set (h : Vars R s t) (v : ℕ) {x : Option Q} {y : Option A} (hxy : Option.Rel R x y) :
    Vars R (s.set v x) (t.set v y) := by
  induction h generalizing v with
  | nil => exact .nil
  | cons hrel htail ih =>
    cases v with
    | zero => exact .cons hxy htail
    | succ v => exact .cons hrel (ih v)

variable {I : QueueMethods Q α} {J : QueueMethods A α}

theorem Refines.exec (hIJ : I.Refines J R) (h : Vars R s t) {op : QueueOp α}
    {r : Outcome VectorError (List (Option Q))} (hr : I.exec s op = some r) :
    ∃ r', J.exec t op = some r' ∧ Related (Vars R) r r' := by
  cases op with
  | construct v maxItems =>
    simp only [QueueMethods.exec, h.free_eq] at hr ⊢
    split at hr
    · next hc =>
      cases hr
      refine ⟨_, if_pos hc, ?_⟩
      exact (hIJ.construct maxItems hc.2).bind fun q a hqa => .ok (h.set v (.some hqa))
    · cases hr
  | pushBack v item =>
    obtain ⟨q, hq, hr⟩ := Option.bind_eq_some_iff.1 hr
    obtain ⟨a, ha, hqa⟩ := h.queue hq
    cases hr
    refine ⟨_, Option.bind_eq_some_iff.2 ⟨a, ha, rfl⟩, ?_⟩
    exact (hIJ.pushBack q a hqa item).bind fun q a hqa => .ok (h.set v (.some hqa))
  | popFront v =>
    obtain ⟨q, hq, hr⟩ := Option.bind_eq_some_iff.1 hr
    obtain ⟨a, ha, hqa⟩ := h.queue hq
    split at hr
    · cases hr
    · next hne =>
      cases hr
      refine ⟨_, Option.bind_eq_some_iff.2 ⟨a, ha, if_neg (hIJ.empty q a hqa ▸ hne)⟩, ?_⟩
      exact (hIJ.popFront q a hqa (Bool.eq_false_iff.2 hne)).bind fun q a hqa => .ok (h.set v (.some hqa))
  | copyConstruct v w =>
    obtain ⟨q, hq, hr⟩ := Option.bind_eq_some_iff.1 hr
    obtain ⟨a, ha, hqa⟩ := h.queue hq
    rw [h.free_eq] at hr
    split at hr
    · next hfree =>
      cases hr
      exact ⟨_, Option.bind_eq_some_iff.2 ⟨a, ha, if_pos hfree⟩, .ok (h.set v (.some hqa))⟩
    · cases hr
  | copyAssign v w =>
    obtain ⟨q₀, hq₀, hr⟩ := Option.bind_eq_some_iff.1 hr
    obtain ⟨q, hq, hr⟩ := Option.bind_eq_some_iff.1 hr
    obtain ⟨a₀, ha₀, -⟩ := h.queue hq₀
    obtain ⟨a, ha, hqa⟩ := h.queue hq
    cases hr
    exact ⟨_, Option.bind_eq_some_iff.2 ⟨a₀, ha₀, Option.bind_eq_some_iff.2 ⟨a, ha, rfl⟩⟩, .ok (h.set v (.some hqa))⟩
  | moveConstruct v w =>
    obtain ⟨q, hq, hr⟩ := Option.bind_eq_some_iff.1 hr
    obtain ⟨a, ha, hqa⟩ := h.queue hq
    rw [h.free_eq] at hr
    split at hr
    · next hfree =>
      cases hr
      refine ⟨_, Option.bind_eq_some_iff.2 ⟨a, ha, if_pos hfree⟩, .ok ?_⟩
      exact Vars.set (h.set v (.some hqa)) w (.some hIJ.moved)
    · cases hr
  | moveAssign v w =>
    obtain ⟨q₀, hq₀, hr⟩ := Option.bind_eq_some_iff.1 hr
    obtain ⟨q, hq, hr⟩ := Option.bind_eq_some_iff.1 hr
    obtain ⟨a₀, ha₀, -⟩ := h.queue hq₀
    obtain ⟨a, ha, hqa⟩ := h.queue hq
    split at hr
    · cases hr
    · next hne =>
      cases hr
      refine ⟨_, Option.bind_eq_some_iff.2 ⟨a₀, ha₀, Option.bind_eq_some_iff.2 ⟨a, ha, if_neg hne⟩⟩, .ok ?_⟩
      exact Vars.set (h.set v (.some hqa)) w (.some hIJ.moved)
  | destruct v =>
    obtain ⟨q, hq, hr⟩ := Option.bind_eq_some_iff.1 hr
    obtain ⟨a, ha, -⟩ := h.queue hq
    cases hr
    exact ⟨_, Option.bind_eq_some_iff.2 ⟨a, ha, rfl⟩, .ok (h.set v .none)⟩

/-- **Runs refine runs.** -/
theorem Refines.run (hIJ : I.Refines J R) (n : ℕ) : ∀ ops r, (I.machine n).run ops = some r →
    ∃ r', (J.machine n).run ops = some r' ∧ Related (Vars R) r r' := by
  refine Machine.invariant (I := fun ops r => ∃ r', (J.machine n).run ops = some r' ∧ Related (Vars R) r r') ?_ ?_
  · exact ⟨_, rfl, .ok (Vars.start n)⟩
  · rintro ops r op r₁ _ ⟨r', hrun, hrel⟩ hstep
    cases hrel with
    | ok h =>
      obtain ⟨r₁', hstep', hrel'⟩ := hIJ.exec h hstep
      exact ⟨r₁', Machine.run_concat_eq_some _ |>.2 ⟨_, hrun, hstep'⟩, hrel'⟩
    | thrown e => cases hstep

end

/-! ## Frames -/

section

variable {I : QueueMethods Q α} {s s' : List (Option Q)}

/-- What an operation does not write to stays as it is. -/
theorem exec_frame {op : QueueOp α} (h : I.exec s op = some (.ok s')) {u : ℕ} (hu : u ∉ op.changes) :
    s'[u]? = s[u]? := by
  have hset {v : ℕ} {x : Option Q} {t : List (Option Q)} (hv : u ≠ v) : (t.set v x)[u]? = t[u]? :=
    List.getElem?_set_ne (Ne.symm hv)
  have hvalue {x : Outcome VectorError Q} {v : ℕ} (hv : u ≠ v)
      (hx : (x >>= fun q => .ok (s.set v (some q))) = (.ok s' : Outcome VectorError _)) : s'[u]? = s[u]? := by
    obtain ⟨q, -, hq⟩ := Outcome.bind_eq_ok.1 hx
    cases hq
    exact hset hv
  cases op with
  | construct v maxItems =>
    simp only [exec] at h
    split at h
    · exact hvalue (List.ne_of_not_mem_cons hu) (Option.some.inj h)
    · cases h
  | pushBack v item =>
    obtain ⟨q, -, h⟩ := Option.bind_eq_some_iff.1 h
    exact hvalue (List.ne_of_not_mem_cons hu) (Option.some.inj h)
  | popFront v =>
    obtain ⟨q, -, h⟩ := Option.bind_eq_some_iff.1 h
    split at h
    · cases h
    · exact hvalue (List.ne_of_not_mem_cons hu) (Option.some.inj h)
  | copyConstruct v w =>
    obtain ⟨q, -, h⟩ := Option.bind_eq_some_iff.1 h
    split at h
    · cases h
      exact hset (List.ne_of_not_mem_cons hu)
    · cases h
  | copyAssign v w =>
    obtain ⟨q₀, -, h⟩ := Option.bind_eq_some_iff.1 h
    obtain ⟨q, -, h⟩ := Option.bind_eq_some_iff.1 h
    cases h
    exact hset (List.ne_of_not_mem_cons hu)
  | moveConstruct v w =>
    obtain ⟨q, -, h⟩ := Option.bind_eq_some_iff.1 h
    split at h
    · cases h
      rw [hset (List.ne_of_not_mem_cons (List.not_mem_of_not_mem_cons hu)), hset (List.ne_of_not_mem_cons hu)]
    · cases h
  | moveAssign v w =>
    obtain ⟨q₀, -, h⟩ := Option.bind_eq_some_iff.1 h
    obtain ⟨q, -, h⟩ := Option.bind_eq_some_iff.1 h
    split at h
    · cases h
    · cases h
      rw [hset (List.ne_of_not_mem_cons (List.not_mem_of_not_mem_cons hu)), hset (List.ne_of_not_mem_cons hu)]
  | destruct v =>
    obtain ⟨q, -, h⟩ := Option.bind_eq_some_iff.1 h
    cases h
    exact hset (List.ne_of_not_mem_cons hu)

/-- Whatever comes after a state leaves the variables that it does not write to. -/
theorem run_frame {n : ℕ} {ops₁ : List (QueueOp α)} (h₁ : (I.machine n).run ops₁ = some (.ok s)) {u : ℕ} :
    ∀ ops₂ s', (I.machine n).run (ops₁ ++ ops₂) = some (.ok s') → (∀ op ∈ ops₂, u ∉ op.changes) → s'[u]? = s[u]? := by
  intro ops₂
  induction ops₂ using List.reverseRecOn with
  | nil =>
    intro s' h _
    rw [List.append_nil, h₁] at h
    cases h
    rfl
  | append_singleton ops₂ op ih =>
    intro s' h hu
    rw [← List.append_assoc] at h
    obtain ⟨r, hr, hstep⟩ := (Machine.run_concat_eq_some _).1 h
    cases r with
    | ok t =>
      have hop := exec_frame hstep (hu op (by simp))
      rw [hop, ih t hr fun op hmem => hu op (List.mem_append_left _ hmem)]
    | thrown e => cases hstep
    | terminated => cases hstep
    | undefined => cases hstep

end

end QueueMethods

/-! ## The two types of queues -/

section

variable {α : Type}

def circularQueues (α : Type) [Inhabited α] (maxSize : ℕ) : QueueMethods (CircularQueue α) α where
  construct := CircularQueue.construct maxSize
  pushBack := CircularQueue.pushBack
  popFront := CircularQueue.popFront
  empty := CircularQueue.empty
  moved := .disabled

/-- The specification: `none` is a queue that has been moved from, and so is one for whose capacity `size_t` has no
successor. -/
def fifos (α : Type) (maxSize : ℕ) : QueueMethods (Option (Fifo α)) α where
  construct n :=
    if n + 1 < 2 ^ 64 then if n + 1 ≤ maxSize then .ok (some (.start n)) else .thrown .lengthError else .ok none
  pushBack c item := .ok (c.map (·.push item))
  popFront c := .ok (c.map (·.pop))
  empty c := c.all (·.items.isEmpty)
  moved := none

theorem Represents.empty_eq {q : CircularQueue α} {c : Option (Fifo α)} (h : Represents q c) :
    q.empty = c.all (·.items.isEmpty) := by
  cases c with
  | none => exact (Disabled.methods (ε := VectorError) h).2.1
  | some f =>
    rw [Bool.eq_iff_iff, Holds.empty_iff h]
    exact List.isEmpty_iff.symm

theorem circularQueues_refines [Inhabited α] {maxSize : ℕ} (hmax : maxSize < 2 ^ 63) :
    (circularQueues α maxSize).Refines (fifos α maxSize) Represents where
  construct n hn := by
    show QueueMethods.Related _ (CircularQueue.construct maxSize n)
      (if n + 1 < 2 ^ 64 then if n + 1 ≤ maxSize then .ok (some (Fifo.start n)) else .thrown .lengthError else .ok none)
    by_cases hsucc : n + 1 < 2 ^ 64
    · rw [if_pos hsucc]
      by_cases hle : n + 1 ≤ maxSize
      · obtain ⟨q, hq, hholds⟩ := Holds.construct (α := α) hmax hle
        rw [if_pos hle, hq]
        exact .ok hholds
      · have hthrow : (CircularQueue.construct maxSize n : Outcome _ (CircularQueue α)) = .thrown .lengthError := by
          unfold CircularQueue.construct
          rw [sizeAdd_of_lt hsucc]
          exact if_neg hle
        rw [if_neg hle, hthrow]
        exact .thrown _
    · have hzero : sizeAdd n 1 = 0 := by
        unfold sizeAdd
        omega
      rw [if_neg hsucc]
      unfold CircularQueue.construct
      rw [hzero]
      exact .ok ⟨rfl, rfl, rfl, rfl⟩
  pushBack q c h item := by
    cases c with
    | none =>
      show QueueMethods.Related _ (q.pushBack item) (.ok none)
      rw [(Disabled.methods h).1]
      exact .ok h
    | some f =>
      obtain ⟨q', hq, hholds⟩ := Holds.pushBack (ε := VectorError) h item
      show QueueMethods.Related _ (q.pushBack item) (.ok (some (f.push item)))
      rw [hq]
      exact .ok hholds
  popFront q c h hne := by
    have hne : c.all (·.items.isEmpty) = false := h.empty_eq.symm.trans hne
    cases c with
    | none => cases hne
    | some f =>
      have hitems : f.items ≠ [] := fun hnil => by simp [hnil] at hne
      obtain ⟨q', hq, hholds⟩ := Holds.popFront (ε := VectorError) h hitems
      show QueueMethods.Related _ q.popFront (.ok (some f.pop))
      rw [hq]
      exact .ok hholds
  empty q c h := h.empty_eq
  moved := disabled_disabled

/-- What can be seen of a queue agrees with the items of a `Fifo`; a queue that has been moved from is empty, and stays
so when something is pushed. -/
structure Agrees (q : CircularQueue α) (c : Option (Fifo α)) : Prop where
  empty : q.empty = true ↔ c.elim [] Fifo.items = []
  full : (q.full : Outcome VectorError Bool) = .ok (c.any fun f => decide (f.items.length = f.capacity))
  size : q.size = (c.elim [] Fifo.items).length
  front : ∀ item, (c.elim [] Fifo.items).head? = some item → (q.front : Outcome VectorError α) = .ok item
  atIndex : ∀ i item, (c.elim [] Fifo.items)[i]? = some item → (q.atIndex i : Outcome VectorError α) = .ok item
  overrun : q.overrunCounter = c.elim 0 Fifo.dropped % 2 ^ 64
  moved : c = none → ∀ item, (q.pushBack item : Outcome VectorError (CircularQueue α)) = .ok q

theorem Represents.agrees {q : CircularQueue α} {c : Option (Fifo α)} (h : Represents q c) : Agrees q c := by
  cases c with
  | none =>
    obtain ⟨hpush, hempty, hfull, hsize⟩ := Disabled.methods (ε := VectorError) h
    refine ⟨iff_of_true hempty rfl, hfull, hsize, fun item hi => ?_, fun i item hi => ?_, h.overrun, fun _ => hpush⟩
    · cases hi
    · cases hi
  | some f =>
    refine ⟨Holds.empty_iff h, Holds.full_eq h, Holds.size_eq h, fun item => Holds.front_eq h, fun i item hitem => ?_,
      h.overrun, fun hc => absurd hc (Option.some_ne_none f)⟩
    obtain ⟨hi, rfl⟩ := List.getElem?_eq_some_iff.1 hitem
    exact Holds.atIndex_eq h i hi

open QueueMethods

/-- **The circular queue refines the bounded FIFO**: every run of the code is one of the specification, ends with the
same exception or without one, is never undefined, and what can be seen of the queues agrees; and a variable is changed
by the operations that write to it only, so that a copy and its source do not see each other's changes. -/
theorem circularQueue_refines [Inhabited α] (maxSize : ℕ) (hmax : maxSize < 2 ^ 63) (n : ℕ) (ops : List (QueueOp α))
    (r : Outcome VectorError (List (Option (CircularQueue α))))
    (h : ((circularQueues α maxSize).machine n).run ops = some r) :
    (r = .thrown .lengthError ∧ ((fifos α maxSize).machine n).run ops = some (.thrown .lengthError) ∨
      ∃ s t, r = .ok s ∧ ((fifos α maxSize).machine n).run ops = some (.ok t) ∧ Vars Agrees s t) ∧
    ∀ ops₁ ops₂ s₁ s, ops = ops₁ ++ ops₂ → ((circularQueues α maxSize).machine n).run ops₁ = some (.ok s₁) → r = .ok s →
      ∀ u, (∀ op ∈ ops₂, u ∉ op.changes) → s[u]? = s₁[u]? := by
  constructor
  · obtain ⟨r', hrun, hrel⟩ := (circularQueues_refines hmax).run n ops r h
    cases hrel with
    | ok hvars =>
      refine .inr ⟨_, _, rfl, hrun, hvars.imp fun x y hxy => ?_⟩
      cases hxy with
      | some hq => exact .some hq.agrees
      | none => exact .none
    | thrown e =>
      cases e
      exact .inl ⟨rfl, hrun⟩
  · rintro ops₁ ops₂ s₁ s rfl h₁ rfl u hu
    exact run_frame h₁ ops₂ s h hu

/-- A queue of one item that overruns, a queue that is moved from, and where its item is moved to. -/
theorem circularQueue_refines_run : ∃ t,
    ((fifos ℕ 8).machine 3).run [.construct 0 1, .pushBack 0 5, .copyConstruct 1 0, .pushBack 0 6,
      .moveConstruct 2 1, .pushBack 1 7] = some (.ok t) ∧
    Vars Agrees [some ⟨2, 1, 0, 1, [5, 6]⟩, some ⟨0, 0, 0, 0, []⟩, some ⟨2, 0, 1, 0, [5, 0]⟩] t := by
  obtain ⟨⟨h, -⟩ | ⟨s, t, hs, ht, hvars⟩, -⟩ := circularQueue_refines (α := ℕ) 8 (by decide) 3
    [.construct 0 1, .pushBack 0 5, .copyConstruct 1 0, .pushBack 0 6, .moveConstruct 2 1, .pushBack 1 7]
    (.ok [some ⟨2, 1, 0, 1, [5, 6]⟩, some ⟨0, 0, 0, 0, []⟩, some ⟨2, 0, 1, 0, [5, 0]⟩]) rfl
  · cases h
  · cases hs
    exact ⟨t, ht, hvars⟩

/-- One push after the other on a queue without capacity. -/
theorem run_overruns (k : ℕ) :
    ((circularQueues ℕ 8).machine 1).run (.construct 0 0 :: List.replicate k (.pushBack 0 7)) =
        some (.ok [some ⟨1, 0, 0, k % 2 ^ 64, [if k = 0 then 0 else 7]⟩]) ∧
      ((fifos ℕ 8).machine 1).run (.construct 0 0 :: List.replicate k (.pushBack 0 7)) =
        some (.ok [some (some ⟨0, [], k, Nat.le_refl 0⟩)]) := by
  induction k with
  | zero => exact ⟨rfl, rfl⟩
  | succ k ih =>
    rw [List.replicate_succ', ← List.cons_append, Machine.run_concat, Machine.run_concat, ih.1, ih.2]
    refine ⟨?_, rfl⟩
    simp [QueueMethods.machine, QueueMethods.exec, circularQueues, queue?, CircularQueue.pushBack, writeAt, sizeMod, sizeAdd]

/-- After 2^64 items have been dropped, the counter is zero again. -/
theorem not_overrun_exact : ¬ ∀ (maxSize n : ℕ) (ops : List (QueueOp ℕ)) (s : List (Option (CircularQueue ℕ)))
    (t : List (Option (Option (Fifo ℕ)))), maxSize < 2 ^ 63 →
    ((circularQueues ℕ maxSize).machine n).run ops = some (.ok s) →
    ((fifos ℕ maxSize).machine n).run ops = some (.ok t) →
    ∀ v q f, queue? s v = some q → queue? t v = some (some f) → q.overrunCounter = f.dropped := by
  intro hall
  have h := hall 8 1 _ _ _ (by decide) (run_overruns (2 ^ 64)).1 (run_overruns (2 ^ 64)).2 0 _ _ rfl rfl
  rw [Nat.mod_self] at h
  exact absurd h (by decide)

end

end Nessus.Memory
