import Nessus.Parser.Impl

/-!
# The JNI functions of the parser

`parser_jni.cpp` over the same implementation and the same state as the C functions: the six native methods of a Java
object, whose field `mObject` holds a parser or is zero.
-/

namespace Nessus.Parser

open Nessus.Lib Nessus.Abi

variable {τ α : Type}

/-- `env->ThrowNew`. -/
def throwNew (e : JavaException) : Eff (World τ) Exn Unit := Eff.modify fun w => { w with throwNew := w.throwNew ++ [e] }

/-- The end of a function that has to return a value is reached without one. -/
def fallOff : Eff (World τ) Exn α := fun w => (w, .undefined)

/-- The catch clauses that the native methods share; each ends with `rest`. -/
def jniClauses (rest : Eff (World τ) Exn α) : List (Exn → Option (Eff (World τ) Exn α)) :=
  [catchAbi fun ex =>
     throwNew (.written (.object [status ex.result.toInt64 (ex.what.getD "")])) >>= fun _ => rest,
   catchParser fun _ what => throwNew (.what what) >>= fun _ => rest,
   catchStd .jsonException fun what =>
     throwNew (.written (.object [status ParserExceptionCode.jsonException.value.toInt64 what])) >>= fun _ => rest,
   catchStd .exception fun what =>
     throwNew (.written (.object [status ParserExceptionCode.unknownException.value.toInt64 what])) >>= fun _ => rest]

/-- A `jbyteArray`: its length is a Java `int`. -/
structure JByteArray where
  bytes : List Byte
  length_lt : bytes.length < 2 ^ 31

/-- The span of an array, which may be null. -/
def Span.ofJByteArray : Option JByteArray → Span
  | some a => ⟨some a.bytes, a.bytes.length, lt_trans a.length_lt (by decide)⟩
  | none => ⟨none, 0, by decide⟩

/-! ## The licence -/

/-- The licence check of `initPlugin`.  The clause does not return: the function goes on behind it. -/
def jniInitLicense (license : Option License) : Eff (World τ) Exn Unit :=
  match license with
  | none => pure ()
  | some license =>
    mayThrow license.initLicenseSystem >>= fun _ =>
    tryCatch (mayThrow license.checkLastLicenseError) [catchAbi fun ex => throwNew (.what (ex.what.getD ""))]

/-- The licence check of `execute`: whether the function goes on. -/
def jniExecuteLicense (license : Option License) : Eff (World τ) Exn Bool :=
  match license with
  | none => pure true
  | some license =>
    tryCatch (mayThrow license.checkLastLicenseError >>= fun _ => pure true)
      [catchAbi fun ex => throwNew (.what (ex.what.getD "")) >>= fun _ => pure false]

/-! ## The native methods -/

variable (P : Primitives τ) (obj : ℕ)

/-- `init`; `made` is what `make_exported_interface` throws. -/
def jniInit (made : Option Exn) : Eff (World τ) Exn Unit :=
  mayThrow made >>= fun _ => Eff.modify fun w => { w with mObject := Function.update w.mObject obj true }

/-- `release`. -/
def jniRelease : Eff (World τ) Exn Unit := Eff.modify fun w => { w with mObject := Function.update w.mObject obj false }

/-- The handle that the field holds. -/
def jniAdapter (below : Below) (w : World τ) : Adapter (World τ) := adapter (onThread P) (heldParser below (w.mObject obj))

/-- `createInstance`. -/
def jniCreateInstance (below : Below) (qualifiedName strParam : Option String) : Eff (World τ) Exn (Option String) :=
  fun w =>
    tryCatch ((jniAdapter P obj below w).createInstance (qualifiedName.getD "") (strParam.getD "") >>= fun instanceId =>
      pure (some instanceId.toString)) (jniClauses fallOff) w

/-- `execute`; it returns null where its licence check fails. -/
def jniExecute (below : Below) (license : Option License) (instanceId strParam : Option String)
    (imgDataArray outputDataArray : Option JByteArray) : Eff (World τ) Exn (Option String) :=
  jniExecuteLicense license >>= fun goesOn =>
  if goesOn then fun w =>
    tryCatch ((jniAdapter P obj below w).execute (.ofString (instanceId.getD "").toList) (strParam.getD "")
      (.ofJByteArray imgDataArray) (.ofJByteArray outputDataArray) >>= fun result =>
      pure (some (result.getD ""))) (jniClauses fallOff) w
  else pure none

/-- `releaseInstance`. -/
def jniReleaseInstance (below : Below) (instanceId : Option String) : Eff (World τ) Exn Unit := fun w =>
  (jniAdapter P obj below w).releaseInstance (.ofString (instanceId.getD "").toList) w

/-- `initPlugin`. -/
def jniInitPlugin (below : Below) (license : Option License) (configFilePath : Option String) :
    Eff (World τ) Exn Unit :=
  jniInitLicense license >>= fun _ => fun w =>
    tryCatch ((jniAdapter P obj below w).initPlugin (configFilePath.getD "")) (jniClauses (pure ())) w

end Nessus.Parser
