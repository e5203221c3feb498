import Mathlib.Data.Nat.Notation
import Nessus.Lib.Outcome

/-!
# Result codes and exceptions

* `AbiResult` — `abi_result`: a signed 32-bit code, an error iff negative;
* `AbiClass`, `AbiError` — the ten `IMPLEMENT_ABI_ERROR` classes and an `abi_error` object with its code and message;
* `StdClass`, `Exn` — everything that can be in flight: objects of the classes derived from `std::exception` that the
  catch tables of the repository tell apart, `parser_exception`, `abi_error`, and objects of any other type;
* `handle` — a sequence of catch clauses: the first clause that matches runs.
-/

namespace Nessus.Abi

open Nessus.Lib

/-! ## `abi_result` -/

abbrev AbiResult := Int32

def AbiResult.noError (result : AbiResult) : Bool := decide (0 ≤ result.toInt)

def errorSuccess : AbiResult := 0
def errorFailure : AbiResult := -1
def errorNotImplemented : AbiResult := -2
def errorNullPointer : AbiResult := -3
def errorInvalidArgument : AbiResult := -4
def errorOutOfBounds : AbiResult := -5
def errorNoInterface : AbiResult := -6
def errorInvalidOperation : AbiResult := -7
def errorKeyNotFound : AbiResult := -8
def errorBadAlloc : AbiResult := -9
def errorNotInitialized : AbiResult := -10

/-! ## `abi_error` and its ten classes -/

/-- The classes made by `IMPLEMENT_ABI_ERROR`. -/
inductive AbiClass where
  | failure
  | notImplemented
  | nullPointer
  | invalidArgument
  | outOfBounds
  | noInterface
  | invalidOperation
  | keyNotFound
  | badAlloc
  | notInitialized
  deriving DecidableEq, Repr

/-- The template argument of the class. -/
def AbiClass.code : AbiClass → AbiResult
  | failure => errorFailure
  | notImplemented => errorNotImplemented
  | nullPointer => errorNullPointer
  | invalidArgument => errorInvalidArgument
  | outOfBounds => errorOutOfBounds
  | noInterface => errorNoInterface
  | invalidOperation => errorInvalidOperation
  | keyNotFound => errorKeyNotFound
  | badAlloc => errorBadAlloc
  | notInitialized => errorNotInitialized

/-- An `abi_error` object.  The message is a `basic_param_string`: a handle, possibly null. -/
inductive AbiError where
  /-- The class `abi_error` itself: any code. -/
  | base (result : AbiResult) (what : Option String)
  /-- One of the ten classes: the code is the one of the class. -/
  | of (cls : AbiClass) (what : Option String)
  deriving DecidableEq, Repr

namespace AbiError

def result : AbiError → AbiResult
  | base r _ => r
  | of c _ => c.code

def what : AbiError → Option String
  | base _ w => w
  | of _ w => w

@[simp] theorem result_of (c : AbiClass) (w : Option String) : (of c w).result = c.code := rfl
@[simp] theorem result_base (r : AbiResult) (w : Option String) : (base r w).result = r := rfl
@[simp] theorem what_of (c : AbiClass) (w : Option String) : (of c w).what = w := rfl

end AbiError

/-! ## `parser_exception` -/

inductive ParserExceptionCode where
  | noException
  | internalFunctionFailure
  | invalidArgument
  | invalidOperation
  | jsonException
  | unknownException
  deriving DecidableEq, Repr

def ParserExceptionCode.value : ParserExceptionCode → Int32
  | noException => 0
  | internalFunctionFailure => -1
  | invalidArgument => -4
  | invalidOperation => -7
  | jsonException => -98
  | unknownException => -99

/-! ## Everything that can be in flight -/

/-- The classes derived from `std::exception` that the catch tables name, those that the modelled code throws, and
any further class by its base. -/
inductive StdClass where
  | exception
  | badAlloc
  | badArrayNewLength
  | logicError
  | outOfRange
  | invalidArgument
  | runtimeError
  /-- `fmt::format_error` -/
  | formatError
  /-- `Json::Exception` -/
  | jsonException
  /-- `Json::RuntimeError` -/
  | jsonRuntimeError
  /-- `Json::LogicError` -/
  | jsonLogicError
  | derived (name : String) (base : StdClass)
  deriving DecidableEq, Repr

/-- The class and its bases, up to `std::exception`. -/
def StdClass.lineage : StdClass → List StdClass
  | exception => [exception]
  | badAlloc => [badAlloc, exception]
  | badArrayNewLength => [badArrayNewLength, badAlloc, exception]
  | logicError => [logicError, exception]
  | outOfRange => [outOfRange, logicError, exception]
  | invalidArgument => [invalidArgument, logicError, exception]
  | runtimeError => [runtimeError, exception]
  | formatError => [formatError, runtimeError, exception]
  | jsonException => [jsonException, exception]
  | jsonRuntimeError => [jsonRuntimeError, jsonException, exception]
  | jsonLogicError => [jsonLogicError, jsonException, exception]
  | derived name base => derived name base :: base.lineage

theorem StdClass.exception_mem_lineage (c : StdClass) : exception ∈ c.lineage := by
  induction c with
  | derived name base ih => exact List.mem_cons_of_mem _ ih
  | _ => simp [lineage]

inductive Exn where
  /-- An object of a class derived from `std::exception`, and its `what()`. -/
  | std (cls : StdClass) (what : String)
  /-- A `parser_exception`, which derives from `std::exception`. -/
  | parser (code : ParserExceptionCode) (what : String)
  /-- An `abi_error`, which derives from nothing. -/
  | abi (ex : AbiError)
  /-- An object of any other type. -/
  | foreign (type : String)
  deriving DecidableEq, Repr

namespace Exn

/-- What `catch (const c& ex)` binds, as `ex.what()`, when the exception in flight is of class `c`. -/
def asStd (c : StdClass) : Exn → Option String
  | std cls what => if c ∈ cls.lineage then some what else none
  | parser _ what => if c = .exception then some what else none
  | abi _ => none
  | foreign _ => none

/-- What `catch (const parser_exception& ex)` binds. -/
def asParser : Exn → Option (ParserExceptionCode × String)
  | parser code what => some (code, what)
  | _ => none

/-- What `catch (const abi_error& ex)` binds. -/
def asAbi : Exn → Option AbiError
  | abi ex => some ex
  | _ => none

@[simp] theorem asStd_abi (c : StdClass) (ex : AbiError) : (abi ex).asStd c = none := rfl
@[simp] theorem asStd_foreign (c : StdClass) (t : String) : (foreign t).asStd c = none := rfl
@[simp] theorem asParser_std (c : StdClass) (w : String) : (std c w).asParser = none := rfl
@[simp] theorem asParser_abi (ex : AbiError) : (abi ex).asParser = none := rfl
@[simp] theorem asParser_foreign (t : String) : (foreign t).asParser = none := rfl
@[simp] theorem asAbi_abi (ex : AbiError) : (abi ex).asAbi = some ex := rfl
@[simp] theorem asAbi_std (c : StdClass) (w : String) : (std c w).asAbi = none := rfl
@[simp] theorem parser_asAbi (c : ParserExceptionCode) (w : String) : (parser c w).asAbi = none := rfl
@[simp] theorem asAbi_foreign (t : String) : (foreign t).asAbi = none := rfl

/-- Every class of the standard hierarchy is caught as `std::exception`. -/
@[simp] theorem asStd_exception_std (c : StdClass) (w : String) : (std c w).asStd .exception = some w := by
  simp [asStd, c.exception_mem_lineage]

@[simp] theorem parser_asStd_exception (c : ParserExceptionCode) (w : String) :
    (parser c w).asStd .exception = some w := rfl

/-- The exception derives from `std::exception`. -/
def isStd (e : Exn) : Bool := (e.asStd .exception).isSome

end Exn

/-! ## Catch clauses -/

variable {σ α : Type}

/-- `catch (const c& ex)`. -/
def catchStd (c : StdClass) (body : String → Eff σ Exn α) : Exn → Option (Eff σ Exn α) :=
  fun e => (e.asStd c).map body

/-- `catch (const parser_exception& ex)`. -/
def catchParser (body : ParserExceptionCode → String → Eff σ Exn α) : Exn → Option (Eff σ Exn α) :=
  fun e => e.asParser.map fun p => body p.1 p.2

/-- `catch (const abi_error& ex)`. -/
def catchAbi (body : AbiError → Eff σ Exn α) : Exn → Option (Eff σ Exn α) :=
  fun e => e.asAbi.map body

/-- A sequence of catch clauses: the first that matches runs; where none does, `otherwise`. -/
def handle (clauses : List (Exn → Option (Eff σ Exn α))) (otherwise : Exn → Eff σ Exn α) (e : Exn) : Eff σ Exn α :=
  (clauses.findSome? fun clause => clause e).getD (otherwise e)

/-- `try` with its catch clauses: what none of them catches goes on. -/
def tryCatch (x : Eff σ Exn α) (clauses : List (Exn → Option (Eff σ Exn α))) : Eff σ Exn α := fun s =>
  match x s with
  | (s', .thrown e) => handle clauses Eff.throw e s'
  | r => r

section Handle

variable {clauses : List (Exn → Option (Eff σ Exn α))} {otherwise : Exn → Eff σ Exn α} {e : Exn}

@[simp] theorem handle_nil : handle [] otherwise e = otherwise e := rfl

theorem handle_cons (clause : Exn → Option (Eff σ Exn α)) :
    handle (clause :: clauses) otherwise e = (clause e).getD (handle clauses otherwise e) := by
  cases h : clause e <;> simp [handle, h]

theorem tryCatch_ok {x : Eff σ Exn α} {s s' : σ} {a : α} (h : x s = (s', .ok a)) :
    tryCatch x clauses s = (s', .ok a) := by
  simp only [tryCatch, h]

theorem tryCatch_thrown {x : Eff σ Exn α} {s s' : σ} (h : x s = (s', .thrown e)) :
    tryCatch x clauses s = handle clauses Eff.throw e s' := by
  simp only [tryCatch, h]

theorem tryCatch_terminated {x : Eff σ Exn α} {s s' : σ} (h : x s = (s', .terminated)) :
    tryCatch x clauses s = (s', .terminated) := by
  simp only [tryCatch, h]

theorem tryCatch_undefined {x : Eff σ Exn α} {s s' : σ} (h : x s = (s', .undefined)) :
    tryCatch x clauses s = (s', .undefined) := by
  simp only [tryCatch, h]

section Keeps

variable {γ : Type} {p : σ → γ}

/-- What a sequence of clauses runs keeps what every clause and the rest do. -/
theorem handle_keeps (hc : ∀ clause ∈ clauses, ∀ y, clause e = some y → y.Keeps p) (ho : (otherwise e).Keeps p) :
    (handle clauses otherwise e).Keeps p := by
  induction clauses with
  | nil => exact ho
  | cons clause clauses ih =>
    rw [handle_cons]
    cases h : clause e with
    | some y => exact hc clause (List.mem_cons_self ..) y h
    | none => exact ih fun c hmem => hc c (List.mem_cons_of_mem _ hmem)

theorem catchStd_keeps {c : StdClass} {body : String → Eff σ Exn α} (h : ∀ what, (body what).Keeps p) {y : Eff σ Exn α}
    (hy : catchStd c body e = some y) : y.Keeps p := by
  obtain ⟨what, -, rfl⟩ := Option.map_eq_some_iff.1 hy
  exact h what

theorem catchParser_keeps {body : ParserExceptionCode → String → Eff σ Exn α}
    (h : ∀ code what, (body code what).Keeps p) {y : Eff σ Exn α} (hy : catchParser body e = some y) : y.Keeps p := by
  obtain ⟨⟨code, what⟩, -, rfl⟩ := Option.map_eq_some_iff.1 hy
  exact h code what

theorem catchAbi_keeps {body : AbiError → Eff σ Exn α} (h : ∀ ex, (body ex).Keeps p) {y : Eff σ Exn α}
    (hy : catchAbi body e = some y) : y.Keeps p := by
  obtain ⟨ex, -, rfl⟩ := Option.map_eq_some_iff.1 hy
  exact h ex

theorem tryCatch_leaves (hc : ∀ clause ∈ clauses, ∀ e y, clause e = some y → y.Keeps p) (x : Eff σ Exn α) (s : σ) :
    p (tryCatch x clauses s).1 = p (x s).1 := by
  rcases h : x s with ⟨t, a | e | _ | _⟩
  · rw [tryCatch_ok h]
  · rw [tryCatch_thrown h]
    exact handle_keeps (fun clause hmem => hc clause hmem e) (Eff.keeps_throw e) t
  · rw [tryCatch_terminated h]
  · rw [tryCatch_undefined h]

theorem tryCatch_keeps (hc : ∀ clause ∈ clauses, ∀ e y, clause e = some y → y.Keeps p) {x : Eff σ Exn α}
    (hx : x.Keeps p) : (tryCatch x clauses).Keeps p := fun s => (tryCatch_leaves hc x s).trans (hx s)

end Keeps

end Handle

end Nessus.Abi
