import Nessus.Abi.Errors

/-!
# Errors across the ABI boundary

A call between two modules goes through a table of functions that may not throw: the callee's side is wrapped in
`abiSafeCall`, which turns whatever was thrown into a result code and leaves the message in a slot of the thread
(`translateCurrentException`); the caller's side, `checkAbiResult`, turns the code back into an exception.

* `safeCall_thrown`, `check_neg`, `check_nonneg`: what each side does, once and for all;
* `abiCall_of`: one call hands an `abi_error` of one of the ten classes on unchanged;
* `callOut_kept`, `callOut_abi_nonneg`, `callOut_foreign`: what a call with a result makes of every kind of exception;
* `nested_of`: any number of nested calls does;
* `errorKept_iff`: the exceptions that are still an exception on the caller's side are exactly those that derive from
  `std::exception` and the `abi_error`s with a negative code.
-/

namespace Nessus.Abi

open Nessus.Lib

/-! ## The per-thread message slot -/

/-- The exported functions around the message slot of the thread.  `σ` is the state of the thread. -/
structure Primitives (σ : Type) where
  /-- `get_abi_exception_what`: null, or the message. -/
  getAbiExceptionWhat : σ → Option String
  /-- `set_abi_exception_what`. -/
  setAbiExceptionWhat : Option String → σ → σ
  /-- `create_abi_exception_message`. -/
  createAbiExceptionMessage : AbiResult → Option String → Option String
  /-- `set_abi_exception_what_ex_narrow`. -/
  setAbiExceptionWhatExNarrow : AbiResult → String → σ → σ × AbiResult
  /-- The slot returns what was last set. -/
  get_set : ∀ what s, getAbiExceptionWhat (setAbiExceptionWhat what s) = what
  /-- `set_abi_exception_what_ex_narrow` returns the code it was given. -/
  ex_narrow_code : ∀ code what s, (setAbiExceptionWhatExNarrow code what s).2 = code

/-- The slot itself as the state of the thread, and a message of the code alone. -/
def Primitives.slot : Primitives (Option String) where
  getAbiExceptionWhat s := s
  setAbiExceptionWhat what _ := what
  createAbiExceptionMessage code inner := some (toString code.toInt ++ (inner.elim "" (": " ++ ·)))
  setAbiExceptionWhatExNarrow code what _ := (some (toString code.toInt ++ ": " ++ what), code)
  get_set _ _ := rfl
  ex_narrow_code _ _ _ := rfl

/-- The slot of a thread that is a part of a larger state. -/
def Primitives.through {τ σ : Type} (P : Primitives τ) (get : σ → τ) (set : τ → σ → σ)
    (get_set : ∀ t s, get (set t s) = t) : Primitives σ where
  getAbiExceptionWhat s := P.getAbiExceptionWhat (get s)
  setAbiExceptionWhat what s := set (P.setAbiExceptionWhat what (get s)) s
  createAbiExceptionMessage := P.createAbiExceptionMessage
  setAbiExceptionWhatExNarrow code what s :=
    (set (P.setAbiExceptionWhatExNarrow code what (get s)).1 s, (P.setAbiExceptionWhatExNarrow code what (get s)).2)
  get_set what s := by rw [get_set, P.get_set]
  ex_narrow_code code what s := P.ex_narrow_code code what (get s)

variable {σ α : Type} (P : Primitives σ)

/-! ## The callee's side -/

/-- What a callable handed to `abi_safe_call` returns: a value that converts to `abi_result`, or none. -/
inductive Returned where
  | nothing
  | result (r : AbiResult)
  deriving DecidableEq, Repr

/-- The code `abi_safe_call` makes of it. -/
def Returned.code : Returned → AbiResult
  | nothing => errorSuccess
  | result r => r

/-- `return set_abi_exception_what_ex_narrow(code, what)`. -/
def exNarrow (code : AbiResult) (what : String) : Eff σ Exn AbiResult := fun s =>
  ((P.setAbiExceptionWhatExNarrow code what s).1, .ok (P.setAbiExceptionWhatExNarrow code what s).2)

/-- The clauses of `translate_current_exception`, in their order. -/
def translateClauses : List (Exn → Option (Eff σ Exn AbiResult)) :=
  [catchStd .badAlloc (exNarrow P errorBadAlloc),
   catchStd .outOfRange (exNarrow P errorOutOfBounds),
   catchStd .invalidArgument (exNarrow P errorInvalidArgument),
   catchStd .formatError (exNarrow P errorInvalidArgument),
   catchStd .exception (exNarrow P errorFailure),
   catchAbi fun ex => Eff.modify (P.setAbiExceptionWhat ex.what) >>= fun _ => pure ex.result]

/-- `translate_current_exception`: it is `noexcept`, so an exception that no clause catches terminates. -/
def translateCurrentException (e : Exn) : Eff σ Exn AbiResult :=
  handle (translateClauses P) (fun _ => Eff.terminate) e

def abiSafeCall (handler : Eff σ Exn Returned) : Eff σ Exn AbiResult := fun s =>
  match handler s with
  | (s', .ok r) => (s', .ok r.code)
  | (s', .thrown e) => translateCurrentException P e s'
  | (s', .terminated) => (s', .terminated)
  | (s', .undefined) => (s', .undefined)

/-! ## The caller's side -/

/-- `rethrow_exception_across_boundary<c>`. -/
def rethrowExceptionAcrossBoundary (c : AbiClass) : Eff σ Exn Unit := fun s =>
  match P.getAbiExceptionWhat s with
  | some what => (s, .thrown (.abi (.of c (some what))))
  | none => (s, .thrown (.abi (.of c (P.createAbiExceptionMessage c.code none))))

/-- The switch of `check_abi_result`. -/
def classOf (result : AbiResult) : AbiClass :=
  if result = errorFailure then .failure
  else if result = errorNotImplemented then .notImplemented
  else if result = errorNullPointer then .nullPointer
  else if result = errorInvalidArgument then .invalidArgument
  else if result = errorOutOfBounds then .outOfBounds
  else if result = errorNoInterface then .noInterface
  else if result = errorInvalidOperation then .invalidOperation
  else if result = errorKeyNotFound then .keyNotFound
  else if result = errorBadAlloc then .badAlloc
  else if result = errorNotInitialized then .notInitialized
  else .failure

def checkAbiResult (result : AbiResult) : Eff σ Exn Unit :=
  if !result.noError then rethrowExceptionAcrossBoundary P (classOf result) else pure ()

/-- The two sides of one call. -/
def abiCall (body : Eff σ Exn Returned) : Eff σ Exn Unit :=
  abiSafeCall P body >>= checkAbiResult P

/-- What an out-parameter with the value `default` before the call holds after it. -/
def outParam {β : Type} (default : β) (body : Eff σ Exn β) (s : σ) : β :=
  match body s with
  | (_, .ok b) => b
  | _ => default

/-- A call that returns its result through an out-parameter. -/
def abiCallOut {β : Type} (default : β) (body : Eff σ Exn β) : Eff σ Exn β := fun s =>
  (abiCall P (body >>= fun _ => pure .nothing) >>= fun _ => pure (outParam default body s)) s

/-! ## What each side does -/

@[simp] theorem AbiClass.noError_code (c : AbiClass) : AbiResult.noError c.code = false := by
  cases c <;> decide

@[simp] theorem classOf_code (c : AbiClass) : classOf c.code = c := by
  cases c <;> decide

variable {P}

/-- The code of everything but an `abi_error`, where there is one. -/
def stdCode (e : Exn) : AbiResult :=
  if (e.asStd .badAlloc).isSome then errorBadAlloc
  else if (e.asStd .outOfRange).isSome then errorOutOfBounds
  else if (e.asStd .invalidArgument).isSome then errorInvalidArgument
  else if (e.asStd .formatError).isSome then errorInvalidArgument
  else errorFailure

theorem noError_stdCode (e : Exn) : AbiResult.noError (stdCode e) = false := by
  unfold stdCode
  repeat' split
  all_goals decide

theorem translate_abi (ex : AbiError) (s : σ) :
    translateCurrentException P (.abi ex) s = (P.setAbiExceptionWhat ex.what s, .ok ex.result) := rfl

theorem translate_foreign (type : String) (s : σ) :
    translateCurrentException P (.foreign type) s = (s, .terminated) := rfl

theorem exNarrow_apply (code : AbiResult) (what : String) (s : σ) :
    exNarrow P code what s = ((P.setAbiExceptionWhatExNarrow code what s).1, .ok code) := by
  rw [exNarrow, P.ex_narrow_code]

/-- What derives from `std::exception` gets the code of the first clause that names a base of it. -/
theorem translate_std {e : Exn} (h : e.isStd) :
    ∃ what, translateCurrentException P e = exNarrow P (stdCode e) what := by
  obtain ⟨what, hw⟩ := Option.isSome_iff_exists.1 h
  unfold translateCurrentException translateClauses stdCode
  simp only [handle_cons, catchStd, hw]
  -- one case for each clause; in each the code is the one the clause passes on
  cases e.asStd .badAlloc with
  | some w => exact ⟨w, rfl⟩
  | none =>
  cases e.asStd .outOfRange with
  | some w => exact ⟨w, rfl⟩
  | none =>
  cases e.asStd .invalidArgument with
  | some w => exact ⟨w, rfl⟩
  | none =>
  cases e.asStd .formatError with
  | some w => exact ⟨w, rfl⟩
  | none => exact ⟨what, rfl⟩

theorem safeCall_ok {handler : Eff σ Exn Returned} {s s' : σ} {r : Returned} (h : handler s = (s', .ok r)) :
    abiSafeCall P handler s = (s', .ok r.code) := by
  simp [abiSafeCall, h]

theorem safeCall_thrown {handler : Eff σ Exn Returned} {s s' : σ} {e : Exn} (h : handler s = (s', .thrown e)) :
    abiSafeCall P handler s = translateCurrentException P e s' := by
  simp [abiSafeCall, h]

theorem check_nonneg {r : AbiResult} (h : AbiResult.noError r = true) (s : σ) :
    checkAbiResult P r s = (s, .ok ()) := by
  simp [checkAbiResult, h]

/-- A negative code is rethrown as the class the switch gives, with the message of the slot. -/
theorem check_neg {r : AbiResult} (h : AbiResult.noError r = false) (s : σ) :
    ∃ what, checkAbiResult P r s = (s, .thrown (.abi (.of (classOf r) what))) ∧
      ∀ m, P.getAbiExceptionWhat s = some m → what = some m := by
  simp only [checkAbiResult, h, Bool.not_false, if_true, rethrowExceptionAcrossBoundary]
  cases hg : P.getAbiExceptionWhat s with
  | none => exact ⟨_, rfl, by simp⟩
  | some m => exact ⟨some m, rfl, by simp⟩

/-! ## Which exceptions survive -/

/-- The exceptions that survive a call as an exception. -/
def Exn.Kept (e : Exn) : Prop := e.isStd ∨ ∃ ex, e = .abi ex ∧ AbiResult.noError ex.result = false

theorem isStd_cases (e : Exn) : e.isStd ∨ (∃ ex, e = .abi ex) ∨ ∃ type, e = .foreign type := by
  cases e <;> simp [Exn.isStd]

theorem Exn.kept_cases (e : Exn) :
    e.Kept ∨ (∃ ex, e = .abi ex ∧ AbiResult.noError ex.result = true) ∨ ∃ type, e = .foreign type := by
  rcases isStd_cases e with h | ⟨ex, rfl⟩ | h
  · exact .inl (.inl h)
  · cases hn : AbiResult.noError ex.result with
    | true => exact .inr (.inl ⟨ex, rfl, hn⟩)
    | false => exact .inl (.inr ⟨ex, rfl, hn⟩)
  · exact .inr (.inr h)

theorem Exn.Kept.ne_foreign {e : Exn} (h : e.Kept) (type : String) : e ≠ .foreign type := by
  rintro rfl
  rcases h with h | ⟨ex, h, -⟩ <;> cases h

theorem Exn.Kept.noError_false {ex : AbiError} (h : (Exn.abi ex).Kept) : AbiResult.noError ex.result = false := by
  rcases h with h | ⟨ex', h, hn⟩
  · cases h
  · cases h
    exact hn

/-! ## One call -/

/-- **One call** hands an `abi_error` of one of the ten classes on: the same class, hence the same code, and the same
message. -/
theorem abiCall_of {body : Eff σ Exn Returned} {s : σ} {c : AbiClass} {m : String}
    (h : ∃ s', body s = (s', .thrown (.abi (.of c (some m))))) :
    ∃ s'', abiCall P body s = (s'', .thrown (.abi (.of c (some m)))) := by
  obtain ⟨s', h⟩ := h
  have hs : abiSafeCall P body s = (P.setAbiExceptionWhat (some m) s', .ok c.code) := by
    rw [safeCall_thrown h, translate_abi]
    rfl
  obtain ⟨what, hc, hm⟩ := check_neg (P := P) c.noError_code (P.setAbiExceptionWhat (some m) s')
  refine ⟨P.setAbiExceptionWhat (some m) s', ?_⟩
  rw [abiCall, Eff.bind_of_ok hs, hc, classOf_code, hm m (P.get_set _ _)]

/-! ## A call with a result -/

section CallOut

variable {β : Type} {default : β} {body : Eff σ Exn β} {s s' : σ}

theorem callOut_ok {b : β} (h : body s = (s', .ok b)) : abiCallOut P default body s = (s', .ok b) := by
  have hs : abiSafeCall P (body >>= fun _ => pure .nothing) s = (s', .ok errorSuccess) :=
    safeCall_ok (r := .nothing) (Eff.bind_of_ok h _)
  have hc : abiCall P (body >>= fun _ => pure .nothing) s = (s', .ok ()) := by
    rw [abiCall, Eff.bind_of_ok hs, check_nonneg (by decide)]
  rw [abiCallOut, Eff.bind_of_ok hc, outParam, h]
  rfl

theorem callOut_thrown {e : Exn} (h : body s = (s', .thrown e)) :
    abiCallOut P default body s =
      (translateCurrentException P e >>= fun code => checkAbiResult P code >>= fun _ => pure default) s' := by
  have hs : abiSafeCall P (body >>= fun _ => pure .nothing) s = translateCurrentException P e s' :=
    safeCall_thrown (Eff.bind_of_thrown h _)
  have ho : outParam default body s = default := by rw [outParam, h]
  rw [abiCallOut, ho, abiCall, Eff.bind_apply, Eff.bind_apply, hs, Eff.bind_apply]
  rcases translateCurrentException P e s' with ⟨t, code | _ | _ | _⟩ <;> rfl

theorem callOut_neg {e : Exn} {r : AbiResult} {t : σ} (h : body s = (s', .thrown e))
    (ht : translateCurrentException P e s' = (t, .ok r)) (hr : AbiResult.noError r = false) :
    ∃ what, abiCallOut P default body s = (t, .thrown (.abi (.of (classOf r) what))) := by
  obtain ⟨what, hc, -⟩ := check_neg (P := P) hr t
  refine ⟨what, ?_⟩
  rw [callOut_thrown h, Eff.bind_of_ok ht, Eff.bind_of_thrown hc]

/-- An exception that derives from `std::exception` arrives as one of the ten classes. -/
theorem callOut_std (P : Primitives σ) (default : β) {e : Exn} (h : body s = (s', .thrown e)) (he : e.isStd = true) :
    ∃ t what, abiCallOut P default body s = (t, .thrown (.abi (.of (classOf (stdCode e)) what))) := by
  obtain ⟨what, hw⟩ := translate_std (P := P) he
  exact ⟨_, callOut_neg h (by rw [hw, exNarrow_apply]) (noError_stdCode e)⟩

theorem callOut_abi_neg (P : Primitives σ) (default : β) {ex : AbiError} (h : body s = (s', .thrown (.abi ex)))
    (hr : AbiResult.noError ex.result = false) :
    ∃ t what, abiCallOut P default body s = (t, .thrown (.abi (.of (classOf ex.result) what))) :=
  ⟨_, callOut_neg h (translate_abi ex s') hr⟩

theorem callOut_kept (P : Primitives σ) (default : β) {e : Exn} (h : body s = (s', .thrown e)) (he : e.Kept) :
    ∃ t c what, abiCallOut P default body s = (t, .thrown (.abi (.of c what))) := by
  rcases he with he | ⟨ex, rfl, hn⟩
  · obtain ⟨t, what, ht⟩ := callOut_std P default h he
    exact ⟨t, _, what, ht⟩
  · obtain ⟨t, what, ht⟩ := callOut_abi_neg P default h hn
    exact ⟨t, _, what, ht⟩

/-- An `abi_error` with another code is lost, and the out-parameter is as it was. -/
theorem callOut_abi_nonneg (P : Primitives σ) (default : β) {ex : AbiError} (h : body s = (s', .thrown (.abi ex)))
    (hr : AbiResult.noError ex.result = true) : ∃ t, abiCallOut P default body s = (t, .ok default) := by
  refine ⟨P.setAbiExceptionWhat ex.what s', ?_⟩
  rw [callOut_thrown h, Eff.bind_of_ok (translate_abi ex s'), Eff.bind_of_ok (check_nonneg hr _)]
  rfl

theorem callOut_foreign {type : String} (h : body s = (s', .thrown (.foreign type))) :
    abiCallOut P default body s = (s', .terminated) := by
  rw [callOut_thrown h, Eff.bind_apply, translate_foreign]

theorem callOut_terminated (h : body s = (s', .terminated)) : abiCallOut P default body s = (s', .terminated) := by
  have hb : (body >>= fun _ => pure Returned.nothing) s = (s', .terminated) := by rw [Eff.bind_apply, h]
  rw [abiCallOut, abiCall, Eff.bind_apply, Eff.bind_apply, abiSafeCall, hb]

theorem callOut_undefined (h : body s = (s', .undefined)) : abiCallOut P default body s = (s', .undefined) := by
  have hb : (body >>= fun _ => pure Returned.nothing) s = (s', .undefined) := by rw [Eff.bind_apply, h]
  rw [abiCallOut, abiCall, Eff.bind_apply, Eff.bind_apply, abiSafeCall, hb]

end CallOut

/-! ## What a call leaves alone -/

/-- The slot is no part of `p`. -/
structure Primitives.Apart {γ : Type} (P : Primitives σ) (p : σ → γ) : Prop where
  set : ∀ what s, p (P.setAbiExceptionWhat what s) = p s
  exNarrow : ∀ code what s, p (P.setAbiExceptionWhatExNarrow code what s).1 = p s

section Apart

variable {γ : Type} {p : σ → γ}

theorem checkAbiResult_keeps (r : AbiResult) : (checkAbiResult P r).Keeps p := by
  intro s
  cases hn : AbiResult.noError r with
  | true => rw [check_nonneg hn]
  | false =>
    obtain ⟨what, hc, -⟩ := check_neg (P := P) hn s
    rw [hc]

theorem translateCurrentException_keeps (hP : P.Apart p) (e : Exn) : (translateCurrentException P e).Keeps p := by
  intro s
  rcases isStd_cases e with h | ⟨ex, rfl⟩ | ⟨type, rfl⟩
  · obtain ⟨what, hw⟩ := translate_std (P := P) h
    rw [hw]
    exact hP.exNarrow _ _ s
  · rw [translate_abi]
    exact hP.set _ s
  · rw [translate_foreign]

theorem abiCallOut_leaves {β : Type} (hP : P.Apart p) (default : β) (body : Eff σ Exn β) (s : σ) :
    p (abiCallOut P default body s).1 = p (body s).1 := by
  rcases h : body s with ⟨t, b | e | _ | _⟩
  · rw [callOut_ok h]
  · rw [callOut_thrown h]
    exact ((translateCurrentException_keeps hP e).bind fun r =>
      (checkAbiResult_keeps r).bind fun _ => Eff.keeps_pure default) t
  · rw [callOut_terminated h]
  · rw [callOut_undefined h]

end Apart

/-! ## Nested calls -/

/-- One level of a nest of calls: what it does before the call it makes, and what its destructors do when an exception
passes through. -/
structure Level (σ : Type) where
  before : σ → σ
  unwind : σ → σ

/-- The calls of the levels, outermost first, around the innermost body. -/
def nested (P : Primitives σ) (inner : Eff σ Exn Returned) : List (Level σ) → Eff σ Exn Unit
  | [] => inner >>= fun _ => pure ()
  | l :: ls => abiCall P fun s =>
      match nested P inner ls (l.before s) with
      | (s', .ok _) => (s', .ok .nothing)
      | (s', .thrown e) => (l.unwind s', .thrown e)
      | (s', .terminated) => (s', .terminated)
      | (s', .undefined) => (s', .undefined)

/-- **Error transport**: through any number of nested calls, an `abi_error` of one of the ten classes thrown at the
innermost level reaches the outermost caller as the same class with the same code and message. -/
theorem nested_of (P : Primitives σ) (c : AbiClass) (m : String) (levels : List (Level σ)) (s : σ) :
    ∃ s' ex, nested P (Eff.throw (.abi (.of c (some m)))) levels s = (s', .thrown (.abi ex)) ∧
      ex = .of c (some m) ∧ ex.result = c.code ∧ ex.what = some m := by
  suffices h : ∃ s', nested P (Eff.throw (.abi (.of c (some m)))) levels s =
      (s', .thrown (.abi (.of c (some m)))) by
    obtain ⟨s', hs⟩ := h
    exact ⟨s', _, hs, rfl, rfl, rfl⟩
  induction levels generalizing s with
  | nil => exact ⟨s, rfl⟩
  | cons l ls ih =>
    obtain ⟨s', hs⟩ := ih (l.before s)
    exact abiCall_of ⟨l.unwind s', by simp only [hs]⟩

/-! ## No error is lost -/

/-- No error of this callable, run in this state of the thread, is lost at the boundary, and none is made up. -/
structure ErrorKept (P : Primitives σ) (handler : Eff σ Exn Returned) (s : σ) : Prop where
  /-- Whatever it throws, `abi_safe_call` returns a code and `check_abi_result` throws on that code. -/
  thrown : ∀ s' e, handler s = (s', .thrown e) →
    ∃ s'' code, abiSafeCall P handler s = (s'', .ok code) ∧
      ∀ t, ∃ t' e', checkAbiResult P code t = (t', .thrown e')
  /-- Where it returns nothing or a non-negative result, `check_abi_result` does not throw. -/
  returned : ∀ s' r, handler s = (s', .ok r) → AbiResult.noError r.code = true →
    ∃ s'' code, abiSafeCall P handler s = (s'', .ok code) ∧ ∀ t, checkAbiResult P code t = (t, .ok ())

theorem check_throws {code : AbiResult} (h : AbiResult.noError code = false) (t : σ) :
    ∃ t' e', checkAbiResult P code t = (t', .thrown e') := by
  obtain ⟨what, hc, -⟩ := check_neg (P := P) h t
  exact ⟨_, _, hc⟩

/-- What is thrown and not lost derives from `std::exception` or is an `abi_error` with a negative code: any other type
terminates the process, and an `abi_error` with a non-negative code is taken for success. -/
theorem ErrorKept.kept {handler : Eff σ Exn Returned} {s s' : σ} {e : Exn} (hk : ErrorKept P handler s)
    (he : handler s = (s', .thrown e)) : e.Kept := by
  obtain ⟨s'', code, hs, hc⟩ := hk.thrown s' e he
  rw [safeCall_thrown he] at hs
  rcases e.kept_cases with h | ⟨ex, rfl, hn⟩ | ⟨type, rfl⟩
  · exact h
  · obtain ⟨-, rfl⟩ : P.setAbiExceptionWhat ex.what s' = s'' ∧ ex.result = code := by
      simpa [translate_abi] using hs
    obtain ⟨t', e', ht⟩ := hc s
    rw [check_nonneg hn] at ht
    simp at ht
  · simp [translate_foreign] at hs

theorem errorKept_of_kept {handler : Eff σ Exn Returned} {s : σ}
    (hk : ∀ s' e, handler s = (s', .thrown e) → e.Kept) : ErrorKept P handler s := by
  refine ⟨fun s' e he => ?_, fun s' r hr hn => ?_⟩
  · rw [safeCall_thrown he]
    rcases hk s' e he with h | ⟨ex, rfl, hn⟩
    · obtain ⟨what, hw⟩ := translate_std (P := P) h
      rw [hw, exNarrow_apply]
      exact ⟨_, _, rfl, check_throws (noError_stdCode e)⟩
    · exact ⟨_, _, translate_abi ex s', check_throws hn⟩
  · exact ⟨s', r.code, safeCall_ok hr, check_nonneg hn⟩

/-- **No error is lost, exactly when** what the callable throws, if anything, derives from `std::exception` or is an
`abi_error` with a negative code. -/
theorem errorKept_iff (P : Primitives σ) (handler : Eff σ Exn Returned) (s : σ) :
    ErrorKept P handler s ↔ ∀ s' e, handler s = (s', .thrown e) → e.Kept :=
  ⟨fun hk _ _ he => hk.kept he, errorKept_of_kept⟩

/-- Errors that are lost: an `int` terminates the process, and an `abi_error` with code 5 is no error any more. -/
theorem not_errorKept_int_abi_five :
    ¬ ErrorKept Primitives.slot (Eff.throw (.foreign "int")) none ∧
    ¬ ErrorKept Primitives.slot (Eff.throw (.abi (.base 5 (some "five")))) none := by
  refine ⟨fun hk => ?_, fun hk => ?_⟩
  · have h := hk.kept (Eff.throw_apply _ _)
    simp [Exn.Kept, Exn.isStd] at h
  · have h := hk.kept (Eff.throw_apply _ _)
    revert h
    simp [Exn.Kept, Exn.isStd]
    decide

end Nessus.Abi
