import Mathlib.Data.List.Basic
import Nessus.Lib.Machine
import Nessus.Abi.Transport

/-!
# Boxed values

`box_value_impl` constructs its value in a raw buffer, and remembers in a flag that it did.

* `State`, `get`, `set`, `destructor` — the box, and its functions; the copy constructors of the types that can be boxed
  do not throw;
* `boxes` — a history of a box is a run of the machine;
* `Holding` — the flag and the buffer in step, over every history;
* `lifetime_iff` — **the lifetime of the value** is what it is to be unless a second one is constructed.
-/

namespace Nessus.Abi.BoxValue

open Nessus.Lib

variable {τ T : Type}

/-! ## The box -/

/-- A `T` that was constructed in the buffer: the number of its construction, and its value. -/
structure Object (T : Type) where
  id : ℕ
  value : T
  deriving DecidableEq, Repr

/-- Whether the box has been constructed, and whether it has been destroyed. -/
inductive Phase where
  | unborn
  | alive
  | gone
  deriving DecidableEq, Repr

/-- `box_value_impl`.  `buffer` is the object that lives in `buffer_`: to construct another ends its life without a
destructor. -/
structure State (τ T : Type) where
  phase : Phase
  initialized : Bool
  buffer : Option (Object T)
  /-- How many have been constructed in the buffer. -/
  constructed : ℕ
  /-- Those whose destructor has been called. -/
  destroyed : List ℕ
  thread : τ

inductive BoxCall (T : Type) where
  | construct
  | constructWith (value : T)
  | get
  | set (value : T)
  | destruct
  deriving DecidableEq, Repr

section Functions

variable (P : Primitives τ)

/-- `new (&buffer_) T{ value }`. -/
def placementNew (value : T) : Eff (State τ T) Exn Unit :=
  Eff.modify fun s => { s with buffer := some ⟨s.constructed, value⟩, constructed := s.constructed + 1 }

def set (value : T) : Eff (State τ T) Exn Unit :=
  placementNew value >>= fun _ => Eff.modify fun s => { s with initialized := true }

/-- `box_value_impl()`. -/
def construct : Eff (State τ T) Exn Unit := Eff.modify fun s => { s with phase := .alive, initialized := false }

/-- `box_value_impl(const T&)`. -/
def constructWith (value : T) : Eff (State τ T) Exn Unit := construct >>= fun _ => set value

/-- `*std::launder(reinterpret_cast<const T*>(&buffer_))`. -/
def launder : Eff (State τ T) Exn (Object T) := fun s =>
  match s.buffer with
  | some object => (s, .ok object)
  | none => (s, .undefined)

def get : Eff (State τ T) Exn T := fun s =>
  if s.initialized then (launder >>= fun object => pure object.value) s
  else (s, .thrown (.abi (.of .notInitialized (P.createAbiExceptionMessage errorNotInitialized none))))

/-- `~box_value_impl`. -/
def destructor : Eff (State τ T) Exn Unit := fun s =>
  (if s.initialized then
    launder >>= fun object => Eff.modify fun s => { s with buffer := none, destroyed := s.destroyed ++ [object.id] }
  else pure ()) { s with phase := .gone }

def inBox : Primitives (State τ T) := P.through State.thread (fun t s => { s with thread := t }) fun _ _ => rfl

/-- `get` through the adapter, whose `result` is `null` before the call. -/
def callGet (null : T) : Eff (State τ T) Exn T := abiCallOut (inBox P) null (get P)

/-- A call, and what it returns. -/
def call : BoxCall T → Eff (State τ T) Exn (Option T)
  | .construct => construct >>= fun _ => pure none
  | .constructWith value => constructWith value >>= fun _ => pure none
  | .get => get P >>= fun value => pure (some value)
  | .set value => set value >>= fun _ => pure none
  | .destruct => destructor >>= fun _ => pure none

/-- A box is constructed once, and called until it is destroyed. -/
def BoxCall.possible (phase : Phase) : BoxCall T → Bool
  | construct => phase == .unborn
  | constructWith _ => phase == .unborn
  | get => phase == .alive
  | set _ => phase == .alive
  | destruct => phase == .alive

/-- **The histories of a box.** -/
def boxes (thread : τ) : Machine (State τ T) (BoxCall T) where
  init := ⟨.unborn, false, none, 0, [], thread⟩
  step s c := if c.possible s.phase then some (call P c s).1 else none

end Functions

/-! ## What a box is to do -/

/-- The value that the call constructs in the buffer. -/
def BoxCall.value? : BoxCall T → Option T
  | construct => none
  | constructWith value => some value
  | get => none
  | set value => some value
  | destruct => none

/-- The values that a history constructs. -/
def values (t : List (BoxCall T)) : List T := t.filterMap BoxCall.value?

/-- The last value, or the error that there is none. -/
def Reports (last : Option T) (r : Outcome Exn T) : Prop :=
  match last with
  | some value => r = .ok value
  | none => ∃ what, r = .thrown (.abi (.of .notInitialized what))

/-- **The lifetime of the value**: after this history, every `get` has the value set last, or reports that there is none;
and each `T` constructed in the buffer either lives there, or has been destroyed once. -/
structure Lifetime (P : Primitives τ) (null : T) (t : List (BoxCall T)) (s : State τ T) : Prop where
  get : s.phase = .alive → Reports (values t).getLast? (get P s).2
  callGet : s.phase = .alive → Reports (values t).getLast? (callGet P null s).2
  defined : ∀ c : BoxCall T, c.possible s.phase → (call P c s).2 ≠ .undefined
  objects : ∀ id < s.constructed, s.destroyed.count id = if s.buffer.map Object.id = some id then 0 else 1

/-! ## Flag and buffer -/

section Holding

variable {P : Primitives τ} {thread : τ} {t : List (BoxCall T)} {s s' : State τ T} {c : BoxCall T}

def lastObject (l : List T) : Option (Object T) := l.getLast?.map (Object.mk (l.length - 1))

/-- What a box is after a history that has constructed the values `l`. -/
structure Holding (l : List T) (s : State τ T) : Prop where
  constructed : s.constructed = l.length
  unborn : s.phase = .unborn → l = []
  initialized : s.initialized = !l.isEmpty
  buffer : s.buffer = if s.phase = .gone then none else lastObject l
  destroyed : s.destroyed = if s.phase = .gone then ((lastObject l).map Object.id).toList else []

theorem lastObject_concat (l : List T) (value : T) : lastObject (l ++ [value]) = some ⟨l.length, value⟩ := by
  simp [lastObject]

theorem values_concat (t : List (BoxCall T)) (c : BoxCall T) : values (t ++ [c]) = values t ++ c.value?.toList := by
  rw [values, List.filterMap_append, values]
  cases h : c.value? <;> simp [h]

variable {l : List T}

theorem Holding.possible_step (hstep : (boxes P thread).step s c = some s') :
    c.possible s.phase = true ∧ s' = (call P c s).1 := by
  simp only [boxes, Option.ite_none_right_eq_some, Option.some.injEq] at hstep
  exact ⟨hstep.1, hstep.2.symm⟩

/-- A value is set in a box that has not been destroyed. -/
theorem Holding.set (h : Holding l s) (hphase : s.phase = .alive) (value : T) :
    Holding (l ++ [value]) (set value s).1 := by
  have hset : (BoxValue.set value s : State τ T × Outcome Exn Unit).1 =
      { s with buffer := some ⟨s.constructed, value⟩, constructed := s.constructed + 1, initialized := true } := rfl
  rw [hset]
  have hdestroyed := h.destroyed
  rw [hphase] at hdestroyed
  refine ⟨?_, fun hunborn => ?_, ?_, ?_, ?_⟩
  · rw [List.length_append, List.length_singleton, h.constructed]
  · exact absurd (hphase.symm.trans hunborn) (by decide)
  · simp
  · rw [hphase, lastObject_concat, h.constructed]
    rfl
  · rw [hphase]
    exact hdestroyed

theorem Holding.destructor (h : Holding l s) (hphase : s.phase = .alive) : Holding l (destructor s).1 := by
  have hbuffer := h.buffer
  have hdestroyed := h.destroyed
  have hinitialized := h.initialized
  rw [hphase, if_neg (by decide)] at hbuffer hdestroyed
  rcases List.eq_nil_or_concat' l with rfl | ⟨l, value, rfl⟩
  · have hs : (BoxValue.destructor s).1 = { s with phase := .gone } := by
      rw [BoxValue.destructor, hinitialized]
      rfl
    rw [hs]
    exact ⟨h.constructed, fun _ => rfl, hinitialized, hbuffer, hdestroyed⟩
  · rw [lastObject_concat] at hbuffer
    rw [List.isEmpty_eq_false_iff.2 (List.append_ne_nil_of_right_ne_nil l (List.cons_ne_nil value []))] at hinitialized
    have hs : (BoxValue.destructor s).1 =
        { s with phase := .gone, buffer := none, destroyed := s.destroyed ++ [l.length] } := by
      simp only [BoxValue.destructor, hinitialized, Bool.not_false, if_true, Eff.bind_apply, launder, hbuffer]
      rfl
    rw [hs]
    refine ⟨h.constructed, (nomatch ·), h.initialized, rfl, ?_⟩
    rw [hdestroyed, lastObject_concat]
    rfl

theorem Holding.step (h : Holding l s) (hstep : (boxes P thread).step s c = some s') :
    Holding (l ++ c.value?.toList) s' := by
  obtain ⟨hpossible, rfl⟩ := possible_step hstep
  have hconstruct (hphase : s.phase = .unborn) : Holding [] (construct s).1 := by
    obtain rfl := h.unborn hphase
    have hbuffer := h.buffer
    have hdestroyed := h.destroyed
    rw [hphase] at hbuffer hdestroyed
    exact ⟨h.constructed, fun _ => rfl, rfl, hbuffer, hdestroyed⟩
  cases c with
  | construct =>
    have hphase : s.phase = .unborn := by simpa [BoxCall.possible] using hpossible
    obtain rfl := h.unborn hphase
    exact hconstruct hphase
  | constructWith value =>
    have hphase : s.phase = .unborn := by simpa [BoxCall.possible] using hpossible
    obtain rfl := h.unborn hphase
    exact (hconstruct hphase).set rfl value
  | get =>
    have hsame : (call P .get s).1 = s := by
      simp only [call, BoxValue.get, launder, Eff.bind_apply]
      cases hi : s.initialized <;> cases hb : s.buffer <;> rfl
    rw [hsame]
    simpa [BoxCall.value?] using h
  | set value =>
    have hphase : s.phase = .alive := by simpa [BoxCall.possible] using hpossible
    exact h.set hphase value
  | destruct =>
    have hphase : s.phase = .alive := by simpa [BoxCall.possible] using hpossible
    have hsame : (call P .destruct s).1 = (BoxValue.destructor s).1 := by
      rw [call, Eff.bind_apply]
      rcases BoxValue.destructor s with ⟨s', _ | _ | _ | _⟩ <;> rfl
    rw [hsame]
    simpa [BoxCall.value?] using h.destructor hphase

/-- **Flag and buffer stay in step** over every history. -/
theorem holding_of_run : ∀ (t : List (BoxCall T)) (s : State τ T), (boxes P thread).run t = some s → Holding (values t) s :=
  Machine.invariant (I := fun t s => Holding (values t) s) ⟨rfl, fun _ => rfl, rfl, rfl, rfl⟩ fun t s c s' _ h hstep => by
    rw [values_concat]
    exact h.step hstep

/-! ## The lifetime -/

theorem Holding.getEq (h : Holding l s) (hphase : s.phase = .alive) :
    get P s = (s, match l.getLast? with
      | some value => .ok value
      | none => .thrown (.abi (.of .notInitialized (P.createAbiExceptionMessage errorNotInitialized none)))) := by
  have hbuffer := h.buffer
  rw [hphase, if_neg (by decide), lastObject] at hbuffer
  rw [BoxValue.get, h.initialized]
  cases hl : l.getLast? with
  | none =>
    obtain rfl := List.getLast?_eq_none_iff.1 hl
    rfl
  | some value =>
    have hne : l ≠ [] := by
      rintro rfl
      cases hl
    rw [hl] at hbuffer
    simp only [List.isEmpty_eq_false_iff.2 hne, launder, Eff.bind_apply, hbuffer]
    rfl

theorem Holding.callGet_reports (h : Holding l s) (hphase : s.phase = .alive) (null : T) :
    Reports l.getLast? (callGet P null s).2 := by
  have hget := h.getEq (P := P) hphase
  cases hl : l.getLast? with
  | none =>
    rw [hl] at hget
    obtain ⟨s', what, hcall⟩ := callOut_abi_neg (inBox P) null hget AbiClass.notInitialized.noError_code
    exact ⟨what, congrArg Prod.snd hcall⟩
  | some value =>
    rw [hl] at hget
    exact congrArg Prod.snd (callOut_ok (P := inBox P) hget)

/-- No call reads or destroys what has not been constructed. -/
theorem Holding.defined (h : Holding l s) (c : BoxCall T) (hpossible : c.possible s.phase = true) :
    (call P c s).2 ≠ .undefined := by
  cases c with
  | construct => exact nofun
  | constructWith value => exact nofun
  | get =>
    have hphase : s.phase = .alive := by simpa [BoxCall.possible] using hpossible
    rw [call, Eff.bind_apply, h.getEq hphase]
    cases l.getLast? <;> exact nofun
  | set value => exact nofun
  | destruct =>
    have hphase : s.phase = .alive := by simpa [BoxCall.possible] using hpossible
    have hbuffer := h.buffer
    rw [hphase, if_neg (by decide)] at hbuffer
    rw [call, Eff.bind_apply, BoxValue.destructor, h.initialized]
    rcases List.eq_nil_or_concat' l with rfl | ⟨l, value, rfl⟩
    · exact nofun
    · rw [lastObject_concat] at hbuffer
      simp only [hbuffer]
      cases !(l ++ [value]).isEmpty <;> exact nofun

/-- Each is in the buffer or destroyed once, if there is at most one. -/
theorem Holding.objects_iff (h : Holding l s) :
    (∀ id < s.constructed, s.destroyed.count id = if s.buffer.map Object.id = some id then 0 else 1) ↔ l.length ≤ 1 := by
  rw [h.constructed, h.buffer, h.destroyed]
  rcases List.eq_nil_or_concat' l with rfl | ⟨l, value, rfl⟩
  · simp
  · rw [lastObject_concat, List.length_append, List.length_singleton]
    constructor
    · intro hall
      by_contra hlong
      -- the one before the last is neither
      have hother : ¬ l.length = l.length - 1 := by omega
      have hlost := hall (l.length - 1) (by omega)
      by_cases hgone : s.phase = .gone
      · simp [hgone, hother] at hlost
      · simp [hgone, hother] at hlost
    · intro hone id hid
      obtain rfl : id = l.length := by omega
      by_cases hgone : s.phase = .gone
      · simp [hgone]
      · simp [hgone]

end Holding

/-- **The lifetime of the value** is what it is to be after the histories that construct at most one. -/
theorem lifetime_iff (P : Primitives τ) (null : T) {thread : τ} {t : List (BoxCall T)} {s : State τ T}
    (hrun : (boxes P thread).run t = some s) : Lifetime P null t s ↔ (values t).length ≤ 1 := by
  have h := holding_of_run t s hrun
  constructor
  · intro hlife
    exact h.objects_iff.1 hlife.objects
  · intro hone
    refine ⟨fun hphase => ?_, fun hphase => h.callGet_reports hphase null, h.defined, h.objects_iff.2 hone⟩
    rw [h.getEq hphase]
    cases (values t).getLast? with
    | none => exact ⟨_, rfl⟩
    | some value => rfl

/-- A box of one value, read and destroyed. -/
theorem lifetime_iff_run : ∃ s, (boxes Primitives.slot none).run [.construct, .get, .set 7, .get, .destruct] = some s ∧
    Lifetime Primitives.slot 0 [.construct, .get, .set 7, .get, .destruct] s := by
  obtain ⟨s, hrun⟩ : ∃ s, (boxes Primitives.slot none).run [.construct, .get, .set 7, .get, .destruct] = some s := ⟨_, rfl⟩
  exact ⟨s, hrun, (lifetime_iff Primitives.slot 0 hrun).2 (by decide)⟩

/-- A second value is constructed over the first, which is never destroyed. -/
theorem not_lifetime : ∃ s, (boxes Primitives.slot none).run [.construct, .set 7, .set 8, .destruct] = some s ∧
    ¬ Lifetime Primitives.slot 0 [.construct, .set 7, .set 8, .destruct] s := by
  refine ⟨_, rfl, fun hlife => ?_⟩
  exact absurd (hlife.objects 0 (by decide)) (by decide)

end Nessus.Abi.BoxValue
