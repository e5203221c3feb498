import Mathlib.Data.List.Induction
import Nessus.Memory.DelegateCall

/-!
# What the calls of delegates deliver

The calls of a loop, with the values they get, are a function of the listeners alone (`callsOf`); the world and the
results follow from them (`record`).

* `callBuffer_spec` — a loop returns exactly if what it reads exists and its calls return, and makes these calls;
* `Delegate.delivers_iff` — **a call does what it should exactly if it is sound**;
* `State.step_fresh` — the arrays are those of the listeners, or gone;
* `delegateCalls_deliver_iff` — a program is defined and all of its calls do what they should, exactly if its steps are
  safe.
-/

namespace Nessus.Memory.DelegateCall

open Nessus.Lib

variable {S : Signature} {F : Type}

/-! ## Elements that are not empty -/

section Cons

variable {fn : Function F} {fns : List (Function F)}

theorem allReadable_cons (h : fn.toBool = true) : AllReadable (fn :: fns) ↔ fn.Readable ∧ AllReadable fns := by
  cases fn with
  | empty => cases h
  | _ => exact Iff.rfl

theorem allComplete_cons (h : fn.toBool = true) : AllComplete (fn :: fns) ↔ fn.Complete ∧ AllComplete fns := by
  cases fn with
  | empty => cases h
  | _ => exact Iff.rfl

theorem movesOf_cons (h : fn.toBool = true) (cat : ValueCategory) (n : ℕ) :
    movesOf cat (fn :: fns) n = fn.moves n ++ movesOf cat fns (cat.forward n) := by
  cases fn with
  | empty => cases h
  | _ => rfl

theorem anyAnswers_cons (h : fn.toBool = true) (answered : Bool) :
    anyAnswers answered (fn :: fns) = anyAnswers fn.answers fns := by
  cases fn with
  | empty => cases h
  | _ => rfl

end Cons

/-! ## The calls of a loop -/

mutual

/-- The calls of listeners, each with its arguments. -/
def Function.calls : Function S.Target → Arguments S → List (S.Target × Arguments S)
  | .empty, _ => []
  | .target f, args => [(f, args)]
  | .delegate listeners _, args => callsOf (fun _ => .rvalue) listeners args

def callsOf (cat : S.ι → ValueCategory) : List (Function S.Target) → Arguments S → List (S.Target × Arguments S)
  | [], _ => []
  | .empty :: _, _ => []
  | fn :: fns, args => fn.calls args ++ callsOf cat fns (args.forwarded cat)

end

theorem callsOf_cons {fn : Function S.Target} {fns : List (Function S.Target)} (h : fn.toBool = true)
    (cat : S.ι → ValueCategory) (args : Arguments S) :
    callsOf cat (fn :: fns) args = fn.calls args ++ callsOf cat fns (args.forwarded cat) := by
  cases fn with
  | empty => cases h
  | _ => rfl

/-- What is recorded of some calls. -/
def record : List (S.Target × Arguments S) → S.World → List (Invocation S)
  | [], _ => []
  | (f, args) :: cs, w => invocation f args w :: record cs (worldOf f args w)

/-- The rest of the program after some calls. -/
def worldOfCalls (cs : List (S.Target × Arguments S)) (w : S.World) : S.World :=
  cs.foldl (fun w c => worldOf c.1 c.2 w) w

theorem worldOfCalls_append (cs ds : List (S.Target × Arguments S)) (w : S.World) :
    worldOfCalls (cs ++ ds) w = worldOfCalls ds (worldOfCalls cs w) := List.foldl_append

theorem record_append (cs ds : List (S.Target × Arguments S)) (w : S.World) :
    record (cs ++ ds) w = record cs w ++ record ds (worldOfCalls cs w) := by
  induction cs generalizing w with
  | nil => rfl
  | cons c cs ih =>
    show invocation c.1 c.2 w :: record (cs ++ ds) (worldOf c.1 c.2 w) = _
    rw [ih]
    rfl

def AllReturn (cs : List (S.Target × Arguments S)) (w : S.World) : Prop :=
  ∀ inv ∈ record cs w, ∃ result, inv.result = .ok result

theorem allReturn_append (cs ds : List (S.Target × Arguments S)) (w : S.World) :
    AllReturn (cs ++ ds) w ↔ AllReturn cs w ∧ AllReturn ds (worldOfCalls cs w) := by
  rw [AllReturn, record_append]
  exact List.forall_mem_append

mutual

/-- The arrays of the delegates are those of their listeners, or gone. -/
def Function.Fresh : Function F → Prop
  | .delegate listeners readableBuffer =>
    (readableBuffer = [] ∨ readableBuffer = listeners ++ [.empty]) ∧ AllFresh listeners
  | _ => True

def AllFresh : List (Function F) → Prop
  | [] => True
  | fn :: fns => fn.Fresh ∧ AllFresh fns

end

/-- Where `answered`, the value is what the last listener has returned, and else it is value-initialised. -/
def Answered (answered : Bool) (result : S.Result) (log : List (Invocation S)) : Prop :=
  if answered then log.getLast?.map (·.result) = some (.ok result) else result = S.zero

theorem Function.call_delegate (cat : S.ι → ValueCategory) (listeners readableBuffer : List (Function S.Target))
    (s : CallState S) : (Function.delegate listeners readableBuffer).call cat s =
      ({ (callBuffer (fun _ => .rvalue) readableBuffer S.zero s).1 with args := s.args.forwarded cat },
        (callBuffer (fun _ => .rvalue) readableBuffer S.zero s).2) := by
  rw [Function.call]

mutual

/-- The call of a function: the calls of its listeners, and the arguments have been forwarded. -/
theorem Function.call_spec (cat : S.ι → ValueCategory) :
    ∀ (fn : Function S.Target) (s : CallState S), fn.toBool = true → fn.Fresh →
      (fn.call cat).ReturnsIff s (fn.Readable ∧ AllReturn (fn.calls s.args) s.world) fun t result =>
        t.args = s.args.forwarded cat ∧ t.world = worldOfCalls (fn.calls s.args) s.world ∧
          t.log = s.log ++ record (fn.calls s.args) s.world ∧ Answered fn.answers result t.log
  | .empty, _, h, _ => by cases h
  | .target f, s, _, _ => by
    have hreturn : AllReturn (Function.calls (.target f) s.args) s.world ↔
        ∃ result, (invocation f s.args s.world).result = .ok result := by simp [AllReturn, Function.calls, record]
    rw [hreturn]
    constructor
    · rintro ⟨-, result, hresult⟩
      have houtcome : (invocation f s.args s.world).outcome = .ok result := by rw [Invocation.outcome, hresult]
      refine ⟨⟨s.args.forwarded cat, worldOf f s.args s.world, s.log ++ [invocation f s.args s.world]⟩, result,
        Prod.ext rfl houtcome, rfl, rfl, rfl, ?_⟩
      simp [Answered, Function.answers, hresult]
    · intro t result h
      have houtcome : (invocation f s.args s.world).outcome = .ok result := congrArg Prod.snd h
      cases hresult : (invocation f s.args s.world).result with
      | ok result => exact ⟨trivial, result, rfl⟩
      | error e =>
        rw [Invocation.outcome, hresult] at houtcome
        cases houtcome
  | .delegate listeners readableBuffer, s, _, hf => by
    obtain ⟨hbuffer | hbuffer, hfresh⟩ := hf
    · subst hbuffer
      refine ⟨fun h => absurd rfl h.1.1, fun t result h => ?_⟩
      cases congrArg Prod.snd h
    · have hloop := callBuffer_spec (fun _ => .rvalue) listeners false S.zero s hfresh rfl
      rw [← hbuffer] at hloop
      have hne : readableBuffer ≠ [] := by simp [hbuffer]
      constructor
      · rintro ⟨⟨-, hreadable⟩, hreturn⟩
        obtain ⟨t, result, ht, hw, hlog, hans⟩ := hloop.returns ⟨hreadable, hreturn⟩
        refine ⟨{ t with args := s.args.forwarded cat }, result, ?_, rfl, hw, hlog, hans⟩
        rw [Function.call_delegate, ht]
      · intro t result h
        have hsnd : (callBuffer (fun _ => .rvalue) readableBuffer S.zero s).2 = .ok result := congrArg Prod.snd h
        have hresult : callBuffer (fun _ => .rvalue) readableBuffer S.zero s = (_, .ok result) := Prod.ext rfl hsnd
        obtain ⟨hreadable, hreturn⟩ := hloop.of_ok _ _ hresult
        exact ⟨⟨hne, hreadable⟩, hreturn⟩

/-- **The loop**: it returns exactly if what it reads exists and no listener that it calls throws, and makes the calls of
its listeners. -/
theorem callBuffer_spec (cat : S.ι → ValueCategory) :
    ∀ (fns : List (Function S.Target)) (answered : Bool) (result : S.Result) (s : CallState S),
      AllFresh fns → Answered answered result s.log →
      (callBuffer cat (fns ++ [.empty]) result).ReturnsIff s (AllReadable fns ∧ AllReturn (callsOf cat fns s.args) s.world)
        fun t result =>
          t.world = worldOfCalls (callsOf cat fns s.args) s.world ∧
            t.log = s.log ++ record (callsOf cat fns s.args) s.world ∧ Answered (anyAnswers answered fns) result t.log
  | [], _, _, _, _, ha => by
    refine (Eff.ReturnsIff.pure ⟨rfl, by simp [callsOf, record], ha⟩).congr (iff_of_true trivial ⟨trivial, ?_⟩)
    intro inv hinv
    cases hinv
  | fn :: fns, answered, result, s, hf, ha => by
    cases hne : fn.toBool with
    | false =>
      cases fn with
      | empty =>
        refine (Eff.ReturnsIff.pure ⟨rfl, by simp [callsOf, record], ha⟩).congr (iff_of_true trivial ⟨trivial, ?_⟩)
        intro inv hinv
        cases hinv
      | _ => cases hne
    | true =>
      have hcall := fn.call_spec cat s hne hf.1
      rw [List.cons_append, callBuffer, if_pos hne, callsOf_cons hne, anyAnswers_cons hne, allReadable_cons hne,
        allReturn_append]
      refine (hcall.bind (E := AllReadable fns ∧
        AllReturn (callsOf cat fns (s.args.forwarded cat)) (worldOfCalls (fn.calls s.args) s.world))
        fun t result _ ht => ?_).congr and_and_and_comm
      obtain ⟨hargs, hw, hlog, hans⟩ := ht
      have hrest := callBuffer_spec cat fns fn.answers result t hf.2 hans
      rw [hargs, hw, hlog] at hrest
      rw [worldOfCalls_append, record_append, ← List.append_assoc]
      exact hrest

end

/-! ## Which listeners are called, and with what -/

mutual

theorem Function.calls_sublist :
    ∀ (fn : Function S.Target) (args : Arguments S), ((fn.calls args).map (·.1)).Sublist fn.targets
  | .empty, _ => List.Sublist.refl _
  | .target _, _ => List.Sublist.refl _
  | .delegate listeners _, args => callsOf_sublist (fun _ => .rvalue) listeners args

theorem callsOf_sublist (cat : S.ι → ValueCategory) :
    ∀ (fns : List (Function S.Target)) (args : Arguments S), ((callsOf cat fns args).map (·.1)).Sublist (targetsOf fns)
  | [], _ => List.Sublist.refl _
  | fn :: fns, args => by
    cases hne : fn.toBool with
    | false =>
      cases fn with
      | empty => exact List.nil_sublist _
      | _ => cases hne
    | true =>
      rw [callsOf_cons hne, List.map_append]
      exact (fn.calls_sublist args).append (callsOf_sublist cat fns (args.forwarded cat))

end

theorem append_eq_append_of_sublist {α : Type} {a b c d : List α} (hac : a.Sublist c) (hbd : b.Sublist d) :
    a ++ b = c ++ d ↔ a = c ∧ b = d := by
  constructor
  · intro h
    have hlen := congrArg List.length h
    have ha := hac.length_le
    have hb := hbd.length_le
    simp only [List.length_append] at hlen
    exact ⟨hac.eq_of_length (by omega), hbd.eq_of_length (by omega)⟩
  · rintro ⟨rfl, rfl⟩
    rfl

mutual

theorem Function.calls_eq_targets_iff :
    ∀ (fn : Function S.Target) (args : Arguments S), (fn.calls args).map (·.1) = fn.targets ↔ fn.Complete
  | .empty, _ => iff_of_true rfl trivial
  | .target _, _ => iff_of_true rfl trivial
  | .delegate listeners _, args => callsOf_eq_targets_iff (fun _ => .rvalue) listeners args

/-- All listeners are called exactly if none comes after an empty function. -/
theorem callsOf_eq_targets_iff (cat : S.ι → ValueCategory) :
    ∀ (fns : List (Function S.Target)) (args : Arguments S),
      (callsOf cat fns args).map (·.1) = targetsOf fns ↔ AllComplete fns
  | [], _ => iff_of_true rfl trivial
  | fn :: fns, args => by
    cases hne : fn.toBool with
    | false =>
      cases fn with
      | empty => exact eq_comm
      | _ => cases hne
    | true =>
      rw [callsOf_cons hne, List.map_append, allComplete_cons hne, targetsOf,
        append_eq_append_of_sublist (fn.calls_sublist args) (callsOf_sublist cat fns _),
        fn.calls_eq_targets_iff args, callsOf_eq_targets_iff cat fns]

end

theorem Arguments.forwarded_values (cat : S.ι → ValueCategory) {args : Arguments S} {i : S.ι} {v : S.Value i} {n : ℕ}
    (h : args.values i = (S.moved i)^[n] v) :
    (args.forwarded cat).values i = (S.moved i)^[(cat i).forward n] v := by
  cases hc : cat i with
  | lvalue => simpa [forwarded, hc, ValueCategory.forward] using h
  | rvalue => simp [forwarded, hc, ValueCategory.forward, Function.iterate_succ_apply', h]

mutual

theorem Function.calls_values (i : S.ι) (v : S.Value i) :
    ∀ (fn : Function S.Target) (args : Arguments S) (n : ℕ), args.values i = (S.moved i)^[n] v →
      (fn.calls args).map (fun c => c.2.values i) = (fn.moves n).map fun n => (S.moved i)^[n] v
  | .empty, _, _, _ => rfl
  | .target _, _, _, h => congrArg (fun v => [v]) h
  | .delegate listeners _, args, n, h => callsOf_values (fun _ => .rvalue) i v listeners args n h

/-- What the listeners get for a parameter: the value, after it has been moved some times. -/
theorem callsOf_values (cat : S.ι → ValueCategory) (i : S.ι) (v : S.Value i) :
    ∀ (fns : List (Function S.Target)) (args : Arguments S) (n : ℕ), args.values i = (S.moved i)^[n] v →
      (callsOf cat fns args).map (fun c => c.2.values i) = (movesOf (cat i) fns n).map fun n => (S.moved i)^[n] v
  | [], _, _, _ => rfl
  | fn :: fns, args, n, h => by
    cases hne : fn.toBool with
    | false =>
      cases fn with
      | empty => rfl
      | _ => cases hne
    | true =>
      rw [callsOf_cons hne, movesOf_cons hne, List.map_append, List.map_append, fn.calls_values i v args n h,
        callsOf_values cat i v fns _ _ (Arguments.forwarded_values cat h)]

end

mutual

theorem Function.calls_references :
    ∀ (fn : Function S.Target) (args : Arguments S), ∀ c ∈ fn.calls args, c.2.references = args.references
  | .empty, _ => by simp [Function.calls]
  | .target _, _ => by simp [Function.calls]
  | .delegate listeners _, args => callsOf_references (fun _ => .rvalue) listeners args

theorem callsOf_references (cat : S.ι → ValueCategory) :
    ∀ (fns : List (Function S.Target)) (args : Arguments S), ∀ c ∈ callsOf cat fns args,
      c.2.references = args.references
  | [], _ => by simp [callsOf]
  | fn :: fns, args => by
    cases hne : fn.toBool with
    | false =>
      cases fn with
      | empty => simp [callsOf]
      | _ => cases hne
    | true =>
      rw [callsOf_cons hne]
      intro c hc
      rcases List.mem_append.1 hc with hc | hc
      · exact fn.calls_references args c hc
      · exact callsOf_references cat fns (args.forwarded cat) c hc

end

/-- All listeners get the arguments exactly if no value that a move changes has been moved before. -/
theorem callsOf_args_iff (cat : S.ι → ValueCategory) (fns : List (Function S.Target)) (args : Arguments S) :
    (∀ c ∈ callsOf cat fns args, c.2 = args) ↔
      ∀ i, ∀ n ∈ movesOf (cat i) fns 0, (S.moved i)^[n] (args.values i) = args.values i := by
  have hvalues (i : S.ι) : (∀ c ∈ callsOf cat fns args, c.2.values i = args.values i) ↔
      ∀ n ∈ movesOf (cat i) fns 0, (S.moved i)^[n] (args.values i) = args.values i := by
    have hmap := callsOf_values cat i (args.values i) fns args 0 rfl
    rw [← List.forall_mem_map (f := fun c : S.Target × Arguments S => c.2.values i) (P := (· = args.values i)), hmap,
      List.forall_mem_map]
  simp only [← hvalues]
  constructor
  · intro h i c hc
    rw [h c hc]
  · intro h c hc
    have hr := callsOf_references cat fns args c hc
    obtain ⟨f, values, references⟩ := c
    cases hr
    have hv : values = args.values := funext fun i => h i _ hc
    rw [hv]

/-! ## The record -/

theorem record_targets (cs : List (S.Target × Arguments S)) (w : S.World) :
    (record cs w).map (·.target) = cs.map (·.1) := by
  induction cs generalizing w with
  | nil => rfl
  | cons c cs ih => exact congrArg (c.1 :: ·) (ih _)

theorem record_args (cs : List (S.Target × Arguments S)) (w : S.World) :
    (record cs w).map (·.args) = cs.map (·.2) := by
  induction cs generalizing w with
  | nil => rfl
  | cons c cs ih => exact congrArg (c.2 :: ·) (ih _)

section SameArguments

variable (args : Arguments S)

theorem worldOfCalls_map (fs : List S.Target) (w : S.World) :
    worldOfCalls (fs.map (·, args)) w = worldAfter args fs w := by
  simp [worldOfCalls, worldAfter, List.foldl_map]

theorem forall_record_iff (P : Invocation S → Prop) (fs : List S.Target) (w : S.World) :
    (∀ inv ∈ record (fs.map (·, args)) w, P inv) ↔
      ∀ fs₁ f fs₂, fs = fs₁ ++ f :: fs₂ → P (invocation f args (worldAfter args fs₁ w)) := by
  induction fs generalizing w with
  | nil => simp [record]
  | cons f fs ih =>
    rw [List.map_cons, record, List.forall_mem_cons, ih]
    constructor
    · rintro ⟨hf, hfs⟩ fs₁ g fs₂ heq
      cases fs₁ with
      | nil =>
        obtain ⟨rfl, -⟩ := List.cons_eq_cons.1 heq
        exact hf
      | cons f' fs₁ =>
        obtain ⟨rfl, htail⟩ := List.cons_eq_cons.1 heq
        exact hfs fs₁ g fs₂ htail
    · intro h
      exact ⟨h [] f fs rfl, fun fs₁ g fs₂ heq => h (f :: fs₁) g fs₂ (congrArg (f :: ·) heq)⟩

theorem record_lastResult (fs : List S.Target) (w : S.World) :
    ((record (fs.map (·, args)) w).getLast?.map (·.result)).getD (.ok S.zero) = lastResult args fs w := by
  induction fs using List.reverseRecOn with
  | nil => rfl
  | append_singleton fs f _ =>
    rw [List.map_append, record_append, worldOfCalls_map, lastResult, List.getLast?_concat, List.dropLast_concat]
    simp [record]

theorem answered_iff {answered : Bool} {result : S.Result} {fs : List S.Target} {w : S.World}
    (h : Answered answered result (record (fs.map (·, args)) w)) :
    ((record (fs.map (·, args)) w).getLast?.map (·.result)).getD (.ok S.zero) = .ok result ↔
      answered = true ∨ lastResult args fs w = .ok S.zero := by
  cases answered with
  | true =>
    have hlast : (record (fs.map (·, args)) w).getLast?.map (·.result) = some (.ok result) := h
    exact iff_of_true (by rw [hlast]; rfl) (.inl rfl)
  | false =>
    obtain rfl : result = S.zero := h
    rw [record_lastResult]
    simp

end SameArguments

theorem callsOf_eq_map {cat : S.ι → ValueCategory} {fns : List (Function S.Target)} {args : Arguments S}
    (htargets : (callsOf cat fns args).map (·.1) = targetsOf fns) (hargs : ∀ c ∈ callsOf cat fns args, c.2 = args) :
    callsOf cat fns args = (targetsOf fns).map (·, args) := by
  rw [← htargets, List.map_map]
  exact (List.map_id _).symm.trans (List.map_congr_left fun c hc => Prod.ext rfl (hargs c hc))

/-- The calls that are recorded are those of all listeners, with the arguments of the caller, exactly if these get them. -/
theorem record_calls_iff (cat : S.ι → ValueCategory) (fns : List (Function S.Target)) (args : Arguments S)
    (w : S.World) :
    ((record (callsOf cat fns args) w).map (·.target) = targetsOf fns ∧
        ∀ inv ∈ record (callsOf cat fns args) w, inv.args = args) ↔
      AllComplete fns ∧ ∀ i, ∀ n ∈ movesOf (cat i) fns 0, (S.moved i)^[n] (args.values i) = args.values i := by
  rw [record_targets, callsOf_eq_targets_iff, ← callsOf_args_iff cat fns args,
    ← List.forall_mem_map (f := fun c : S.Target × Arguments S => c.2) (P := (· = args)), ← record_args _ w,
    List.forall_mem_map]

/-- What `operator()` does: it returns exactly if what it reads exists and no listener that it calls throws. -/
theorem Delegate.call_spec {x : Delegate S.Target} (hx : x.toFunction.Fresh) (cat : S.ι → ValueCategory)
    (args : Arguments S) (w : S.World) :
    (callBuffer cat x.readableBuffer S.zero).ReturnsIff ⟨args, w, []⟩
      (x.toFunction.Readable ∧ AllReturn (callsOf cat x.functions args) w) fun t result =>
        t.log = record (callsOf cat x.functions args) w ∧ Answered x.toFunction.answers result t.log := by
  obtain ⟨hbuffer | hbuffer, hfresh⟩ := hx
  · refine ⟨fun h => absurd hbuffer h.1.1, fun t result h => ?_⟩
    rw [hbuffer] at h
    cases congrArg Prod.snd h
  · have hloop := callBuffer_spec cat x.functions false S.zero ⟨args, w, []⟩ hfresh rfl
    rw [← hbuffer] at hloop
    have hne : x.readableBuffer ≠ [] := by simp [hbuffer]
    refine ⟨fun h => ?_, fun t result h => ?_⟩
    · obtain ⟨t, result, ht, -, hlog, hans⟩ := hloop.returns ⟨h.1.2, h.2⟩
      exact ⟨t, result, ht, hlog, hans⟩
    · obtain ⟨hreadable, hreturn⟩ := hloop.of_ok t result h
      exact ⟨⟨hne, hreadable⟩, hreturn⟩

/-- **A call does what it should exactly if it is sound.** -/
theorem Delegate.delivers_iff {x : Delegate S.Target} (hx : x.toFunction.Fresh) (cat : S.ι → ValueCategory)
    (args : Arguments S) (w : S.World) : x.Delivers cat args w ↔ x.Sound cat args w := by
  have hspec := Delegate.call_spec hx cat args w
  have hrecord := record_calls_iff cat x.functions args w
  have hcalls (hargs : AllComplete x.functions ∧
      ∀ i, ∀ n ∈ movesOf (cat i) x.functions 0, (S.moved i)^[n] (args.values i) = args.values i) :
      callsOf cat x.functions args = x.registered.map (·, args) :=
    callsOf_eq_map ((callsOf_eq_targets_iff cat x.functions args).2 hargs.1)
      ((callsOf_args_iff cat x.functions args).2 hargs.2)
  constructor
  · rintro ⟨s, result, hcall, htargets, hlog, hresult⟩
    obtain ⟨⟨hreadable, hreturn⟩, hrec, hans⟩ := hspec.of_eq_ok hcall
    have hsound := hrecord.1 ⟨hrec ▸ htargets, fun inv hinv => (hlog inv (hrec ▸ hinv)).1⟩
    rw [AllReturn, hcalls hsound] at hreturn
    rw [hrec, hcalls hsound] at hans hlog hresult
    exact {
      readable := hreadable
      complete := hsound.1
      unmoved := hsound.2
      returns := (forall_record_iff args _ x.registered w).1 hreturn
      untouched := (forall_record_iff args (fun inv => inv.contents = S.contents args.references w) x.registered w).1
        fun inv hinv => (hlog inv hinv).2
      answers := (answered_iff args hans).1 hresult }
  · intro h
    have hsame := hrecord.2 ⟨h.complete, h.unmoved⟩
    have hall := hcalls ⟨h.complete, h.unmoved⟩
    have hreturn : AllReturn (callsOf cat x.functions args) w := by
      rw [AllReturn, hall]
      exact (forall_record_iff args _ x.registered w).2 h.returns
    obtain ⟨s, result, hs, hrec, hans⟩ := hspec.returns ⟨h.readable, hreturn⟩
    rw [hall] at hrec hsame
    rw [hrec] at hans
    refine ⟨s, result, hs, ?_, fun inv hinv => ?_, ?_⟩
    · rw [hrec]
      exact hsame.1
    · rw [hrec] at hinv
      exact ⟨hsame.2 inv hinv, (forall_record_iff args (fun inv => inv.contents = S.contents args.references w)
        x.registered w).2 h.untouched inv hinv⟩
    · rw [hrec]
      exact (answered_iff args hans).2 h.answers

/-! ## The arrays -/

theorem allFresh_iff {fns : List (Function F)} : AllFresh fns ↔ ∀ fn ∈ fns, fn.Fresh := by
  induction fns with
  | nil => simp [AllFresh]
  | cons fn fns ih => simp [AllFresh, ih]

theorem Function.Fresh.singleton {fn : Function F} (h : fn.Fresh) : AllFresh [fn] := ⟨h, trivial⟩

/-- The array of a delegate is that of its listeners, or gone, and so are those of the delegates among them. -/
def Delegate.Fresh (x : Delegate F) : Prop := x.toFunction.Fresh

namespace Delegate

variable {x : Delegate F}

theorem fresh_updateReadableBuffer (h : AllFresh x.functions) : x.updateReadableBuffer.Fresh := ⟨.inr rfl, h⟩

theorem fresh_moved : (moved : Delegate F).Fresh := ⟨.inl rfl, trivial⟩

theorem Fresh.removeListener (h : x.Fresh) (id : UInt64) : (x.removeListener id).Fresh := by
  rw [Delegate.removeListener]
  split
  · refine fresh_updateReadableBuffer (allFresh_iff.2 fun fn hfn => allFresh_iff.1 h.2 fn ?_)
    exact (List.eraseP_sublist.map _).subset hfn
  · exact h

end Delegate

namespace State

variable {s s' : State S} {d : ℕ} {a : Step S}

/-- The arrays of all delegates are up to date, or gone. -/
def Fresh (s : State S) : Prop := ∀ x ∈ s.delegates, x.Fresh

theorem Fresh.get (h : s.Fresh) {x : Delegate S.Target} (hx : s.delegates[d]? = some x) : x.Fresh :=
  h x (List.mem_of_getElem? hx)

theorem Fresh.put (h : s.Fresh) {x : Delegate S.Target} (hx : x.Fresh) : (s.put d x).Fresh := by
  intro y hy
  rcases List.mem_or_eq_of_mem_set hy with hy | rfl
  · exact h y hy
  · exact hx

theorem Fresh.addListeners (h : s.Fresh) {fns : List (Function S.Target)} (hfns : AllFresh fns) {x : Delegate S.Target}
    (hx : AllFresh x.functions) : (s.addListeners d x fns).Fresh := by
  induction fns generalizing s x with
  | nil => exact h.put (Delegate.fresh_updateReadableBuffer hx)
  | cons fn fns ih =>
    refine ih (s := { s with globalCounter := s.globalCounter + 1 }) h hfns.2 ?_
    rw [allFresh_iff] at hx ⊢
    intro g hg
    obtain ⟨l, hl, rfl⟩ := List.mem_map.1 hg
    rcases List.mem_append.1 hl with hl | hl
    · exact hx l.2 (List.mem_map_of_mem hl)
    · rw [List.mem_singleton.1 hl]
      exact hfns.1

theorem Fresh.addWithUpdating (h : s.Fresh) {x : Delegate S.Target} (hx : x.Fresh) {right : Callable S.Target}
    (hs : s.addWithUpdating d x right = some (.ok s')) : s'.Fresh := by
  cases right with
  | function f =>
    cases f with
    | none =>
      cases hs
      refine h.addListeners ?_ hx.2
      exact ⟨trivial, trivial⟩
    | some f =>
      cases hs
      refine h.addListeners ?_ hx.2
      exact ⟨trivial, trivial⟩
  | delegate e expr =>
    cases expr with
    | rvalue =>
      obtain ⟨y, hy, hs⟩ := Option.map_eq_some_iff.1 hs
      split at hs
      · cases hs
      · cases hs
        exact (h.put Delegate.fresh_moved).addListeners (h.get hy).singleton hx.2
    | lvalue =>
      obtain ⟨y, hy, hs⟩ := Option.map_eq_some_iff.1 hs
      cases hs
      exact h.addListeners (h.get hy).singleton hx.2
    | constLvalue =>
      obtain ⟨y, hy, hs⟩ := Option.map_eq_some_iff.1 hs
      cases hs
      exact h.addListeners (h.get hy).singleton hx.2

/-- A call changes nothing but the rest of the program. -/
theorem afterCall_eq_ok {c : CallState S} {r : Outcome (Thrown S.Exception) S.Result} (h : s.afterCall c r = .ok s') :
    ∃ w, s' = { s with world := w } := by
  cases r with
  | ok result =>
    cases h
    exact ⟨_, rfl⟩
  | thrown e =>
    cases h
    exact ⟨_, rfl⟩
  | terminated => cases h
  | undefined => cases h

/-- **Every step keeps the arrays up to date.** -/
theorem step_fresh (h : s.Fresh) (hs : s.step a = some (.ok s')) : s'.Fresh := by
  cases a with
  | construct =>
    cases hs
    intro x hx
    rcases List.mem_append.1 hx with hx | hx
    · exact h x hx
    · rw [List.mem_singleton.1 hx]
      exact Delegate.fresh_updateReadableBuffer trivial
  | add d right =>
    obtain ⟨x, hx, hs⟩ := Option.bind_eq_some_iff.1 hs
    rw [add.eq_def] at hs
    split at hs
    · obtain ⟨y, hy, hs⟩ := Option.map_eq_some_iff.1 hs
      split at hs
      · cases hs
      · cases hs
        exact h.addListeners (h.get hy).2 (h.get hx).2
    · exact h.addWithUpdating (h.get hx) hs
  | addListenerAutoRemoval d handler =>
    obtain ⟨x, hx, hs⟩ := Option.bind_eq_some_iff.1 hs
    exact h.addWithUpdating (h.get hx) hs
  | removeListener d id =>
    obtain ⟨x, hx, hs⟩ := Option.map_eq_some_iff.1 hs
    cases hs
    exact h.put ((h.get hx).removeListener id)
  | call d cat args =>
    obtain ⟨x, -, hs⟩ := Option.map_eq_some_iff.1 hs
    obtain ⟨w, rfl⟩ := afterCall_eq_ok hs
    exact h

/-- Adding a callable is defined, unless it is the delegate itself as an rvalue. -/
theorem addWithUpdating_defined_iff {x : Delegate S.Target} {right : Callable S.Target}
    {r : Outcome Empty (State S)} (hs : s.addWithUpdating d x right = some r) :
    (∃ s', r = .ok s') ↔ ∀ e, right = .delegate e .rvalue → d ≠ e := by
  cases right with
  | function f =>
    cases f with
    | none =>
      cases hs
      exact iff_of_true ⟨_, rfl⟩ (fun e h => by cases h)
    | some f =>
      cases hs
      exact iff_of_true ⟨_, rfl⟩ (fun e h => by cases h)
  | delegate e expr =>
    cases expr with
    | rvalue =>
      obtain ⟨y, -, hs⟩ := Option.map_eq_some_iff.1 hs
      by_cases hde : d = e
      · rw [if_pos hde] at hs
        cases hs
        exact iff_of_false (fun ⟨_, h⟩ => by cases h) fun h => h e rfl hde
      · rw [if_neg hde] at hs
        cases hs
        refine iff_of_true ⟨_, rfl⟩ fun e' h => ?_
        cases h
        exact hde
    | lvalue =>
      obtain ⟨y, -, hs⟩ := Option.map_eq_some_iff.1 hs
      cases hs
      exact iff_of_true ⟨_, rfl⟩ (fun e h => by cases h)
    | constLvalue =>
      obtain ⟨y, -, hs⟩ := Option.map_eq_some_iff.1 hs
      cases hs
      exact iff_of_true ⟨_, rfl⟩ (fun e h => by cases h)

/-- `operator+=` is defined, unless it is the delegate itself, as an rvalue or `const` with listeners. -/
theorem add_defined_iff {x : Delegate S.Target} {right : Callable S.Target}
    {r : Outcome Empty (State S)} (hs : s.add d x right = some r) :
    (∃ s', r = .ok s') ↔ s.Safe (.add d right) := by
  cases right with
  | function f => exact (addWithUpdating_defined_iff hs).trans (iff_of_true (fun e h => by cases h) trivial)
  | delegate e expr =>
    cases expr with
    | constLvalue =>
      obtain ⟨y, hy, hs⟩ := Option.map_eq_some_iff.1 hs
      by_cases hself : d = e ∧ y.listeners ≠ []
      · obtain ⟨rfl, hne⟩ := hself
        rw [if_pos ⟨rfl, hne⟩] at hs
        cases hs
        exact iff_of_false (fun ⟨_, h⟩ => by cases h) fun h => hne (h y hy rfl)
      · rw [if_neg hself] at hs
        cases hs
        refine iff_of_true ⟨_, rfl⟩ fun x' hx' hde => ?_
        subst hde
        rw [hy] at hx'
        cases hx'
        exact not_not.1 fun hne => hself ⟨rfl, hne⟩
    | lvalue =>
      have hcallable : s.addWithUpdating d x (.delegate e .lvalue) = some r := hs
      exact (addWithUpdating_defined_iff hcallable).trans (iff_of_true (fun e h => by cases h) trivial)
    | rvalue =>
      have hcallable : s.addWithUpdating d x (.delegate e .rvalue) = some r := hs
      refine (addWithUpdating_defined_iff hcallable).trans ⟨fun h => h e rfl, fun h e' heq => ?_⟩
      cases heq
      exact h

/-- **One step**: it does what it should exactly if it is safe. -/
theorem does_iff_safe (h : s.Fresh) {r : Outcome Empty (State S)} (hs : s.step a = some r) :
    s.Does a ↔ s.Safe a := by
  have hdoes (hcall : ∀ d cat args, a ≠ .call d cat args) : s.Does a ↔ ∃ s', r = .ok s' := by
    constructor
    · rintro ⟨⟨s', hs'⟩, -⟩
      exact ⟨s', Option.some.inj (hs.symm.trans hs')⟩
    · rintro ⟨s', rfl⟩
      exact ⟨⟨s', hs⟩, fun d cat args x ha => absurd ha (hcall d cat args)⟩
  cases a with
  | construct =>
    cases hs
    exact (hdoes (fun _ _ _ ha => by cases ha)).trans (iff_of_true ⟨_, rfl⟩ trivial)
  | add d right =>
    obtain ⟨x, hx, hs⟩ := Option.bind_eq_some_iff.1 hs
    exact (hdoes (fun _ _ _ ha => by cases ha)).trans (add_defined_iff hs)
  | addListenerAutoRemoval d handler =>
    obtain ⟨x, hx, hs⟩ := Option.bind_eq_some_iff.1 hs
    refine (hdoes (fun _ _ _ ha => by cases ha)).trans ((addWithUpdating_defined_iff hs).trans ?_)
    cases handler with
    | function f => exact iff_of_true (fun e h => by cases h) trivial
    | delegate e expr =>
      cases expr with
      | rvalue =>
        refine ⟨fun h => h e rfl, fun h e' heq => ?_⟩
        cases heq
        exact h
      | lvalue => exact iff_of_true (fun e h => by cases h) trivial
      | constLvalue => exact iff_of_true (fun e h => by cases h) trivial
  | removeListener d id =>
    obtain ⟨x, hx, hs⟩ := Option.map_eq_some_iff.1 hs
    exact (hdoes (fun _ _ _ ha => by cases ha)).trans (iff_of_true ⟨_, hs.symm⟩ trivial)
  | call d cat args =>
    constructor
    · intro hdo x hx
      exact (Delegate.delivers_iff (h.get hx) cat args s.world).1 (hdo.delivers d cat args x rfl hx)
    · intro hsafe
      obtain ⟨x, hx, -⟩ := Option.map_eq_some_iff.1 hs
      have hdelivers := (Delegate.delivers_iff (h.get hx) cat args s.world).2 (hsafe x hx)
      refine ⟨?_, fun d' cat' args' x' ha hx' => ?_⟩
      · obtain ⟨c, result, hcall, -⟩ := hdelivers
        refine ⟨{ s with world := c.world }, ?_⟩
        simp only [step, hx, Option.map_some, hcall, afterCall]
      · cases ha
        rw [hx] at hx'
        cases hx'
        exact hdelivers

end State

/-! ## Programs -/

/-- In every run the arrays are up to date, or gone. -/
theorem delegateCalls_fresh (w : S.World) : ∀ t s, (delegateCalls S w).run t = some (.ok s) → s.Fresh := by
  have hrun : ∀ t r, (delegateCalls S w).run t = some r → ∀ s, r = .ok s → s.Fresh := by
    refine Machine.invariant
      (I := fun _ (r : Outcome Empty (State S)) => ∀ s, r = .ok s → s.Fresh) ?_ ?_
    · rintro s hs
      cases hs
      intro x hx
      cases hx
    · intro t r a r' _ hinv hstep s' hs'
      subst hs'
      cases r with
      | ok s => exact State.step_fresh (hinv s rfl) hstep
      | _ => cases hstep
  exact fun t s ht => hrun t _ ht s rfl

/-- **Calls do what they should** in a program, all of whose steps are defined, exactly if the steps are safe. -/
theorem delegateCalls_deliver_iff (w : S.World) (t : List (Step S)) (r : Outcome Empty (State S))
    (hr : (delegateCalls S w).run t = some r) : Delivering w t ↔ SafeCalls w t := by
  have hstep : ∀ u a s, u ++ [a] <+: t → (delegateCalls S w).run u = some (.ok s) → (s.Does a ↔ s.Safe a) := by
    rintro u a s ⟨v, rfl⟩ hu
    obtain ⟨r', hr'⟩ := (delegateCalls S w).run_of_append hr
    obtain ⟨_, hu', ha⟩ := (delegateCalls S w).run_concat_eq_some.1 hr'
    rw [hu] at hu'
    cases hu'
    exact State.does_iff_safe (delegateCalls_fresh w u s hu) ha
  constructor
  · exact fun h u a s hua hu => (hstep u a s hua hu).1 (h u a s hua hu)
  · exact fun h u a s hua hu => (hstep u a s hua hu).2 (h u a s hua hu)

/-- `delegate<int, std::string>` and functions that add the length of the string to a number; to zero it throws. -/
def strings : Signature where
  ι := Unit
  Value _ := List Char
  References := Unit
  Contents := Unit
  Target := ℕ
  Result := ℕ
  Exception := Unit
  World := Unit
  moved _ _ := []
  contents _ _ := ()
  call f values _ w := (if f = 0 then .error () else .ok (f + (values ()).length), w)
  zero := 0

/-- `operator+=` of a function that adds to `n`. -/
def addFunction (d n : ℕ) : Step strings := .add d (.function (some n))

def callString (d : ℕ) (cat : ValueCategory) (string : List Char) : Step strings :=
  .call d (fun _ => cat) ⟨fun _ => string, ()⟩

def twoListeners : List (Step strings) :=
  [.construct, addFunction 0 5, addFunction 0 7, .add 0 (.function none), .removeListener 0 2,
    callString 0 .lvalue ['a', 'b']]

theorem delegateCalls_deliver_iff_run :
    ∃ s, (delegateCalls strings ()).run twoListeners = some (.ok s) ∧ s.globalCounter = 3 ∧
      (Delivering () twoListeners ↔ SafeCalls () twoListeners) :=
  ⟨_, rfl, rfl, delegateCalls_deliver_iff () twoListeners _ rfl⟩

/-- The listener comes after an empty function. -/
def emptyFirst : List (Step strings) := [.construct, .add 0 (.function none), addFunction 0 5]

/-- There are two listeners, for a string that is moved. -/
def twoFunctions : List (Step strings) := [.construct, addFunction 0 5, addFunction 0 7]

/-- Both listeners of a delegate are added to another one, which is called with a string that is copied. -/
def nested : List (Step strings) :=
  [.construct, .construct, addFunction 1 5, addFunction 1 7, .add 0 (.delegate 1 .lvalue)]

theorem not_delivering :
    ¬ Delivering () (emptyFirst ++ [callString 0 .lvalue ['a']]) ∧
      ¬ Delivering () (twoFunctions ++ [callString 0 .rvalue ['a']]) ∧
      ¬ Delivering () (nested ++ [callString 0 .lvalue ['a']]) ∧
      ¬ Delivering () (twoFunctions ++ [.add 0 (.delegate 0 .constLvalue)]) := by
  refine ⟨fun h => ?_, fun h => ?_, fun h => ?_, fun h => ?_⟩
  · obtain ⟨s, result, hcall, htargets, -⟩ :=
      (h emptyFirst _ _ (List.prefix_refl _) rfl).delivers 0 _ _ _ rfl rfl
    cases hcall
    cases htargets
  · obtain ⟨s, result, hcall, -, hlog, -⟩ :=
      (h twoFunctions _ _ (List.prefix_refl _) rfl).delivers 0 _ _ _ rfl rfl
    cases hcall
    have hargs := (hlog _ (List.mem_cons_of_mem _ (List.mem_singleton.2 rfl))).1
    cases congrFun (congrArg Arguments.values hargs) ()
  · obtain ⟨s, result, hcall, -, hlog, -⟩ :=
      (h nested _ _ (List.prefix_refl _) rfl).delivers 0 _ _ _ rfl rfl
    cases hcall
    have hargs := (hlog _ (List.mem_cons_of_mem _ (List.mem_singleton.2 rfl))).1
    cases congrFun (congrArg Arguments.values hargs) ()
  · obtain ⟨s, hs⟩ := (h twoFunctions _ _ (List.prefix_refl _) rfl).defined
    cases hs

end Nessus.Memory.DelegateCall
