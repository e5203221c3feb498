import Nessus.Abi.Guid
import Nessus.Abi.Transport
import Nessus.Parser.Frame
import Nessus.Parser.Writer

/-!
# The C functions of the parser

`parser_c.cpp` over an implementation of the interface `parser`, which is called through its vtable.

* `ParserImpl`, `Adapter` — the interface, and the calls through `abi_safe_call` and `check_abi_result`;
* `tryStatus` — the catch table that the three functions share, and the `status` it makes;
* `Request`, `call` — the four functions and their arguments.
-/

namespace Nessus.Parser

open Nessus.Lib Nessus.Abi

/-! ## The interface `parser` -/

/-- The methods of an implementation of `parser`. -/
structure ParserImpl (σ : Type) where
  createInstance : (qualifiedName strParam : String) → Eff σ Exn Guid
  /-- The result is a `param_string`: a handle, possibly null. -/
  execute : (instanceId : Guid) → (strParam : String) → (inputData reserveOutputData : Span) → Eff σ Exn (Option String)
  releaseInstance : (instanceId : Guid) → Eff σ Exn Unit
  initPlugin : (configFilePath : String) → Eff σ Exn Unit

def parserId : String := "A9B635E2-0217-4343-9215-7EF1E0920DDD"
def pluginManagerId : String := "DDEBC855-5201-4390-A438-DF1AE2F4A6DE"

/-- `abi_null_pointer`, thrown by `self_abi`. -/
def nullInterface (id : String) : Exn :=
  .abi (.of .nullPointer (some ("Cannot invoke a method of a null interface: " ++ id ++ ".")))

section

variable {σ α : Type}

def selfAbi (id : String) (obj : Option α) : Eff σ Exn α :=
  match obj with
  | some impl => pure impl
  | none => Eff.throw (nullInterface id)

/-- The methods of the handle, which throw what `check_abi_result` throws. -/
structure Adapter (σ : Type) where
  createInstance : (qualifiedName strParam : String) → Eff σ Exn Guid
  execute : (instanceId : Guid) → (strParam : String) → (inputData reserveOutputData : Span) → Eff σ Exn (Option String)
  releaseInstance : (instanceId : Guid) → Eff σ Exn Unit
  initPlugin : (configFilePath : String) → Eff σ Exn Unit

/-- `abi_adapter<parser>` over `interface_vtable<Derived, parser>`. -/
def adapter (P : Primitives σ) (obj : Option (ParserImpl σ)) : Adapter σ where
  createInstance qualifiedName strParam :=
    selfAbi parserId obj >>= fun impl =>
    abiCallOut P ⟨0, 0, 0, Vector.replicate 8 0⟩ (impl.createInstance qualifiedName strParam)
  execute instanceId strParam inputData reserveOutputData :=
    selfAbi parserId obj >>= fun impl =>
    abiCallOut P none (impl.execute instanceId strParam inputData reserveOutputData)
  releaseInstance instanceId := selfAbi parserId obj >>= fun impl => abiCallOut P () (impl.releaseInstance instanceId)
  initPlugin configFilePath := selfAbi parserId obj >>= fun impl => abiCallOut P () (impl.initPlugin configFilePath)

/-! ## The status -/

/-- `value["status"]`. -/
def status (code : Int64) (message : String) : String × Json :=
  ("status", .object [("code", .int code), ("message", .string message)])

/-- `value["status"]["code"]`, where it is an integer. -/
def Json.statusCode : Json → Option ℤ
  | object members =>
    match members.lookup "status" with
    | some (object members) =>
      match members.lookup "code" with
      | some (int code) => some code.toInt
      | _ => none
    | _ => none
  | _ => none

/-- The clauses of the three functions: `value` is made of the exception. -/
def statusClauses : List (Exn → Option (Eff σ Exn Json)) :=
  [catchAbi fun ex => pure (.object [status ex.result.toInt64 (ex.what.getD "")]),
   catchParser fun code what => pure (.object [status code.value.toInt64 what]),
   catchStd .jsonException fun what => pure (.object [status ParserExceptionCode.jsonException.value.toInt64 what]),
   catchStd .exception fun what => pure (.object [status ParserExceptionCode.unknownException.value.toInt64 what])]

/-- The `try` block and its clauses. -/
def tryStatus (x : Eff σ Exn Json) : Eff σ Exn Json := tryCatch x statusClauses

/-! ## The functions -/

/-- What the external functions of the licence come to in one call, where licensing is compiled in. -/
structure License where
  /-- What `init_license_system` throws. -/
  initLicenseSystem : Option Exn
  /-- What `check_last_license_error` throws. -/
  checkLastLicenseError : Option Exn

/-- What the returned buffer is made of. -/
inductive Reply where
  /-- `writer.write(value)`. -/
  | written (value : Json)
  /-- The text put together by hand. -/
  | literal (text : List Char)

/-- The characters of the buffer: `memcpy` of the text of the writer takes its NUL along, `inner.copy` of the text put
together by hand leaves the last character as `heap_alloc_elements` made it. -/
def Reply.buffer (snprintf : ℚ → List Char) : Reply → List (Option Char)
  | written value => (write snprintf value ++ [Char.ofNat 0]).map some
  | literal text => text.map some ++ [none]

/-- A function that may throw `e`. -/
def mayThrow (e : Option Exn) : Eff σ Exn Unit :=
  match e with
  | some e => Eff.throw e
  | none => pure ()

/-- A `param_string` or a `std::string` of a `const char*`, which may not be null. -/
def nonNull (s : Option String) : Eff σ Exn String :=
  match s with
  | some s => pure s
  | none => fun st => (st, .undefined)

/-- What is read of a `const char*`. -/
def cString (s : String) : List Char := s.toList.takeWhile fun c => c.toNat ≠ 0

/-- The text that is put together by hand: the message is not escaped. -/
def licenseText (what : String) : List Char :=
  "\x7b\"status\":\x7b\"message\":\"".toList ++ cString what ++ "\",\"code\":-99\x7d\x7d".toList

/-- The licence check of `parser_init_plugin`: a reply where the check has thrown. -/
def checkLicense (license : Option License) : Eff σ Exn (Option Reply) :=
  match license with
  | none => pure none
  | some license =>
    mayThrow license.initLicenseSystem >>= fun _ =>
    tryCatch (mayThrow license.checkLastLicenseError >>= fun _ => pure none)
      [catchStd .exception fun what => pure (some (.literal (licenseText what)))]

variable (P : Primitives σ) (obj : Option (ParserImpl σ))

/-- `parser_init_plugin`; `license` is what its check comes to, if it is compiled in. -/
def parserInitPlugin (license : Option License) (configFilePath : Option String) : Eff σ Exn Reply :=
  checkLicense license >>= fun reply =>
  match reply with
  | some reply => pure reply
  | none =>
    nonNull configFilePath >>= fun path =>
    tryStatus ((adapter P obj).initPlugin path >>= fun _ => pure (.object [status 0 "OK"])) >>= fun value =>
    pure (.written value)

def parserCreateInstance (qualifiedName strParam : Option String) : Eff σ Exn Reply :=
  tryStatus (
    nonNull qualifiedName >>= fun qualifiedName =>
    nonNull strParam >>= fun strParam =>
    (adapter P obj).createInstance qualifiedName strParam >>= fun instanceId =>
    pure (.object [("instance_id", .string instanceId.toString), status 0 "OK"])) >>= fun value =>
  pure (.written value)

/-- A span of a pointer and an `int` length. -/
def Span.ofLen (data : Option (List Byte)) (len : ℤ) : Span := ⟨data, toSize len, toSize_lt len⟩

def parserExecute (instanceId strParam : Option String) (inputData : Option (List Byte)) (inputDataLen : ℤ)
    (outputData : Option (List Byte)) (outputDataLen : ℤ) : Eff σ Exn Reply :=
  tryStatus (
    nonNull instanceId >>= fun instanceId =>
    (adapter P obj).execute (.ofString instanceId.toList) (strParam.getD "") (.ofLen inputData inputDataLen)
      (.ofLen outputData outputDataLen) >>= fun result =>
    pure (.object [("result", .string (result.getD "")), status 0 "OK"])) >>= fun value =>
  pure (.written value)

def parserReleaseInstance (instanceId : Option String) : Eff σ Exn Unit :=
  nonNull instanceId >>= fun instanceId => (adapter P obj).releaseInstance (.ofString instanceId.toList)

end

/-- A call of one of the three functions that return a text. -/
inductive Request where
  | initPlugin (license : Option License) (configFilePath : Option String)
  | createInstance (qualifiedName strParam : Option String)
  | execute (instanceId strParam : Option String) (inputData : Option (List Byte)) (inputDataLen : ℤ)
      (outputData : Option (List Byte)) (outputDataLen : ℤ)

def Request.call {σ : Type} (P : Primitives σ) (obj : Option (ParserImpl σ)) : Request → Eff σ Exn Reply
  | initPlugin license configFilePath => parserInitPlugin P obj license configFilePath
  | createInstance qualifiedName strParam => parserCreateInstance P obj qualifiedName strParam
  | execute instanceId strParam inputData inputDataLen outputData outputDataLen =>
    parserExecute P obj instanceId strParam inputData inputDataLen outputData outputDataLen

end Nessus.Parser
