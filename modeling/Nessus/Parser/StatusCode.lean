import Mathlib.Tactic.IntervalCases
import Nessus.Parser.Impl

/-!
# The code of an exception in the returned status

What the implementation of `parser` throws reaches the catch table of the C functions only after `abi_safe_call` and
`check_abi_result`, as an `abi_error` of one of the ten classes.

* `intendedCode` — the code that the catch table has for an exception;
* `statusCode_intended_iff` — exactly which exceptions keep it.
-/

namespace Nessus.Parser

open Nessus.Lib Nessus.Abi

/-- The code that the catch table gives to the exception itself; it has no clause for other types. -/
def intendedCode : Exn → Option AbiResult
  | .abi ex => some ex.result
  | .parser code _ => some code.value
  | .std cls _ =>
    if StdClass.jsonException ∈ cls.lineage then some ParserExceptionCode.jsonException.value
    else some ParserExceptionCode.unknownException.value
  | .foreign _ => none

/-- The exceptions whose code survives the boundary. -/
def CodeKept (e : Exn) : Prop :=
  (∃ what, e = .parser .internalFunctionFailure what) ∨ ∃ ex, e = .abi ex ∧ -10 ≤ ex.result.toInt ∧ ex.result.toInt ≤ 0

/-- The call reaches the implementation, and the method called throws. -/
inductive Raises {σ : Type} (impl : ParserImpl σ) : Request → σ → σ → Exn → Prop where
  | initPlugin {license : Option License} {path : String} {s s' : σ} {e : Exn}
      (hl : ∀ l ∈ license, l = ⟨none, none⟩) (h : impl.initPlugin path s = (s', .thrown e)) :
      Raises impl (.initPlugin license (some path)) s s' e
  | createInstance {qualifiedName strParam : String} {s s' : σ} {e : Exn}
      (h : impl.createInstance qualifiedName strParam s = (s', .thrown e)) :
      Raises impl (.createInstance (some qualifiedName) (some strParam)) s s' e
  | execute {instanceId : String} {strParam : Option String} {inputData outputData : Option (List Byte)}
      {inputDataLen outputDataLen : ℤ} {s s' : σ} {e : Exn}
      (h : impl.execute (.ofString instanceId.toList) (strParam.getD "") (.ofLen inputData inputDataLen)
        (.ofLen outputData outputDataLen) s = (s', .thrown e)) :
      Raises impl (.execute (some instanceId) strParam inputData inputDataLen outputData outputDataLen) s s' e

theorem classOf_code_eq_iff (r : AbiResult) : (classOf r).code = r ↔ -10 ≤ r.toInt ∧ r.toInt ≤ -1 := by
  constructor
  · intro h
    rw [← h]
    cases classOf r <;> decide
  · rintro ⟨h₁, h₂⟩
    obtain ⟨i, hi⟩ : ∃ i, i = r.toInt := ⟨_, rfl⟩
    have hr : r = Int32.ofInt i := by rw [hi, Int32.ofInt_toInt]
    rw [← hi] at h₁ h₂
    subst hr
    clear hi
    interval_cases i <;> decide

section

variable {σ β : Type} {P : Primitives σ} {default : β} {body : Eff σ Exn β} {k : β → Eff σ Exn Json} {s s' : σ} {e : Exn}

theorem statusCode_status (r : AbiResult) (message : String) :
    (Json.object [status r.toInt64 message]).statusCode = some r.toInt := by
  rw [← Int32.toInt_toInt64]
  rfl

/-- What reaches the catch table as an `abi_error` is written with its code. -/
theorem tryStatus_abi {x : Eff σ Exn Json} {ex : AbiError} (h : x s = (s', .thrown (.abi ex))) :
    tryStatus x s = (s', .ok (.object [status ex.result.toInt64 (ex.what.getD "")])) := by
  rw [tryStatus, tryCatch_thrown h]
  rfl

/-- The status is the code of the class that `check_abi_result` throws. -/
theorem tryStatus_class_iff {t : σ} {c : AbiClass} {what : Option String} {code : AbiResult}
    (ht : abiCallOut P default body s = (t, .thrown (.abi (.of c what)))) :
    (∃ t v, tryStatus (abiCallOut P default body >>= k) s = (t, .ok v) ∧ v.statusCode = some code.toInt) ↔
      c.code = code := by
  rw [tryStatus_abi (Eff.bind_of_thrown ht k)]
  constructor
  · rintro ⟨t, v, hv, hcode⟩
    cases hv
    rw [statusCode_status] at hcode
    exact Int32.toInt_inj.1 (Option.some.inj hcode)
  · rintro rfl
    exact ⟨t, _, rfl, statusCode_status _ _⟩

/-- An `abi_error` keeps its code from -10 to 0: an error without a class is changed, and a success above 0 is lost. -/
theorem tryStatus_callOut_abi (hk : ∀ b s, ∃ v, k b s = (s, .ok v) ∧ v.statusCode = some 0) {ex : AbiError}
    (h : body s = (s', .thrown (.abi ex))) :
    (∃ t v, tryStatus (abiCallOut P default body >>= k) s = (t, .ok v) ∧ v.statusCode = some ex.result.toInt) ↔
      CodeKept (.abi ex) := by
  cases hn : AbiResult.noError ex.result with
  | true =>
    obtain ⟨t, ht⟩ := callOut_abi_nonneg P default h hn
    obtain ⟨v, hv, hcode⟩ := hk default t
    have htry : tryStatus (abiCallOut P default body >>= k) s = (t, .ok v) :=
      tryCatch_ok ((Eff.bind_of_ok ht k).trans hv)
    have h0 : 0 ≤ ex.result.toInt := of_decide_eq_true hn
    rw [htry]
    constructor
    · rintro ⟨t, v, hv, hcode'⟩
      cases hv
      rw [hcode, Option.some_inj] at hcode'
      exact .inr ⟨ex, rfl, by omega, by omega⟩
    · rintro (⟨what, he⟩ | ⟨_, ⟨⟩, -, hle⟩)
      · cases he
      · refine ⟨t, v, rfl, ?_⟩
        rw [hcode, Option.some_inj]
        omega
  | false =>
    obtain ⟨t, m, ht⟩ := callOut_abi_neg P default h hn
    have h0 : ¬ 0 ≤ ex.result.toInt := of_decide_eq_false hn
    rw [tryStatus_class_iff ht, classOf_code_eq_iff]
    constructor
    · exact fun hr => .inr ⟨ex, rfl, by omega, by omega⟩
    · rintro (⟨what, he⟩ | ⟨_, ⟨⟩, hge, hle⟩)
      · cases he
      · exact ⟨hge, by omega⟩

theorem tryStatus_callOut (hk : ∀ b s, ∃ v, k b s = (s, .ok v) ∧ v.statusCode = some 0)
    (h : body s = (s', .thrown e)) {code : AbiResult} (hc : intendedCode e = some code) :
    (∃ t v, tryStatus (abiCallOut P default body >>= k) s = (t, .ok v) ∧ v.statusCode = some code.toInt) ↔
      CodeKept e := by
  cases e with
  | std cls what =>
    obtain ⟨t, m, ht⟩ := callOut_std P default h (by simp [Exn.isStd])
    rw [tryStatus_class_iff ht]
    refine iff_of_false (fun heq => ?_) (by simp [CodeKept])
    rw [intendedCode] at hc
    subst heq
    revert hc
    generalize classOf (stdCode (.std cls what)) = c
    split <;> cases c <;> decide
  | parser pcode what =>
    obtain ⟨t, m, ht⟩ := callOut_std P default h rfl
    rw [tryStatus_class_iff ht]
    cases hc
    cases pcode <;> simp [CodeKept, stdCode, Exn.asStd] <;> decide
  | abi ex =>
    cases hc
    exact tryStatus_callOut_abi hk h
  | foreign type => cases hc

end

section

variable {σ : Type}

theorem checkLicense_none {license : Option License} (hl : ∀ l ∈ license, l = ⟨none, none⟩) (s : σ) :
    checkLicense license s = (s, .ok none) := by
  cases license with
  | none => rfl
  | some l =>
    obtain rfl := hl l rfl
    rfl

theorem written_iff {x : Eff σ Exn Json} {s : σ} {p : Json → Prop} :
    (∃ t v, (x >>= fun value => pure (Reply.written value)) s = (t, .ok (.written v)) ∧ p v) ↔
      ∃ t v, x s = (t, .ok v) ∧ p v := by
  constructor
  · rintro ⟨t, v, h, hp⟩
    rw [Eff.bind_apply] at h
    rcases hx : x s with ⟨t', v' | _ | _ | _⟩ <;> rw [hx] at h <;> cases h
    exact ⟨_, _, rfl, hp⟩
  · rintro ⟨t, v, h, hp⟩
    exact ⟨t, v, by rw [Eff.bind_of_ok h]; rfl, hp⟩

/-- **The code survives to the C API exactly for** a `parser_exception` of code `INTERNAL_FUNCTION_FAILURE` and an
`abi_error` of a code from `-10` to `0`. -/
theorem statusCode_intended_iff (P : Primitives σ) (impl : ParserImpl σ) (req : Request) (s s' : σ) (e : Exn)
    (code : AbiResult) (h : Raises impl req s s' e) (hc : intendedCode e = some code) :
    (∃ t v, req.call P (some impl) s = (t, .ok (.written v)) ∧ v.statusCode = some code.toInt) ↔ CodeKept e := by
  cases h with
  | @initPlugin license path _ _ _ hl h =>
    rw [Request.call, parserInitPlugin, Eff.bind_of_ok (checkLicense_none hl s)]
    refine written_iff.trans ?_
    exact tryStatus_callOut (fun _ s => ⟨_, rfl, rfl⟩) h hc
  | createInstance h =>
    rw [Request.call, parserCreateInstance]
    refine written_iff.trans ?_
    exact tryStatus_callOut (fun _ s => ⟨_, rfl, rfl⟩) h hc
  | execute h =>
    rw [Request.call, parserExecute]
    refine written_iff.trans ?_
    exact tryStatus_callOut (fun _ s => ⟨_, rfl, rfl⟩) h hc

end

/-- Functions below the parser that succeed, where no text is JSON. -/
def Below.unparsable : Below where
  libs := { Libraries.reading .null with parse := fun _ => .ok none }
  init := ⟨.ok none, [], .ok 0⟩
  createAlgoInstance := .ok ⟨1, 2, 3, Vector.replicate 8 4⟩
  executeAlgo _ := .ok none
  releaseAlgoInstance := .ok ()

/-- Before `init_plugin` the interface of the plugin manager is null. -/
theorem statusCode_nullPointer : ∃ t v,
    (Request.createInstance (some "algo") (some "")).call (onThread Primitives.slot) (some (parserImpl .unparsable))
        (World.start none) = (t, .ok (.written v)) ∧
      v.statusCode = some errorNullPointer.toInt :=
  (statusCode_intended_iff (onThread Primitives.slot) (parserImpl .unparsable) _ (World.start none) (World.start none)
    (nullInterface pluginManagerId) errorNullPointer (.createInstance rfl) rfl).2 (.inr ⟨_, rfl, by decide, by decide⟩)

/-- A text that is no JSON gets the code `-1` from `parser_execute`, and not `JSON_EXCEPTION`. -/
theorem not_intended_parseJsonFailed :
    intendedCode parseJsonFailed = some (-98) ∧
      Raises (parserImpl .unparsable) (.execute (some "id") (some "no JSON") none 0 none 0) (World.start none)
        (World.start (none : Option String)) parseJsonFailed ∧
      ∃ t v, (Request.execute (some "id") (some "no JSON") none 0 none 0).call (onThread Primitives.slot)
          (some (parserImpl .unparsable)) (World.start none) = (t, .ok (.written v)) ∧ v.statusCode = some (-1) :=
  ⟨rfl, .execute rfl, _, _, rfl, rfl⟩

end Nessus.Parser
