import Nessus.Parser.CApi
import Nessus.Parser.FrameMap

/-!
# The implementation of `parser`

`parser_impl`, whose objects share the singleton `parser_impl_concret`, in the state of the process: the message slot of
the thread, the variables of the singleton, and what the C and the Java side keep.

What the plugin manager and the loader come to in a call is given with the call (`Below`).
-/

namespace Nessus.Parser

open Nessus.Lib Nessus.Abi

/-- What `ThrowNew` is given: `writer.write(value)`, or the message of an exception. -/
inductive JavaException where
  | written (value : Json)
  | what (message : String)

structure World (τ : Type) where
  /-- The thread, with its message slot. -/
  thread : τ
  /-- `parser_impl_concret`. -/
  vars : InitVars
  /-- The static `parser_object` of the C functions holds a parser. -/
  parserObject : Bool
  /-- The field `mObject` of a Java object holds a parser. -/
  mObject : ℕ → Bool
  /-- The calls of `ThrowNew`, oldest first. -/
  throwNew : List JavaException
  /-- How often `parser_impl::init_plugin` has been called. -/
  initCalls : ℕ

/-- Before any call, and before the static initialisation. -/
def World.start {τ : Type} (thread : τ) : World τ := ⟨thread, .start, false, fun _ => false, [], 0⟩

/-- What the functions below the parser come to in one call. -/
structure Below where
  libs : Libraries
  init : InitEnv
  createAlgoInstance : Except Exn Guid
  /-- The result is a `param_string`: a handle, possibly null. -/
  executeAlgo : ParamMap → Except Exn (Option String)
  releaseAlgoInstance : Except Exn Unit

section

variable {τ α : Type}

/-- The slot of the thread in the state of the process. -/
def onThread (P : Primitives τ) : Primitives (World τ) where
  getAbiExceptionWhat w := P.getAbiExceptionWhat w.thread
  setAbiExceptionWhat what w := { w with thread := P.setAbiExceptionWhat what w.thread }
  createAbiExceptionMessage := P.createAbiExceptionMessage
  setAbiExceptionWhatExNarrow code what w :=
    ({ w with thread := (P.setAbiExceptionWhatExNarrow code what w.thread).1 },
      (P.setAbiExceptionWhatExNarrow code what w.thread).2)
  get_set what w := P.get_set what w.thread
  ex_narrow_code code what w := P.ex_narrow_code code what w.thread

/-- What a function outside the model comes to. -/
def external (r : Except Exn α) : Outcome Exn α :=
  match r with
  | .ok a => .ok a
  | .error e => .thrown e

/-- A method of `plugin_manager_`. -/
def pluginManagerCall (r : Except Exn α) : Eff (World τ) Exn α := fun w =>
  match w.vars.pluginManager with
  | some _ => (w, external r)
  | none => (w, .thrown (nullInterface pluginManagerId))

/-- The singleton's `execute`: the map is made before the plugin manager is called. -/
def executeConcret (below : Below) (strParam : String) (input output : Span) : Eff (World τ) Exn (Option String) :=
  fun w =>
    match requestMap below.libs strParam input output with
    | .ok map => pluginManagerCall (below.executeAlgo map) w
    | .thrown e => (w, .thrown e)
    | .terminated => (w, .terminated)
    | .undefined => (w, .undefined)

/-- The singleton's `init_plugin`, when no other call is under way. -/
def initConcret (below : Below) : Eff (World τ) Exn Unit := fun w =>
  ({ w with vars := (initPlugin below.init 0 w.vars).1, initCalls := w.initCalls + 1 },
    (initPlugin below.init 0 w.vars).2)

def parserImpl (below : Below) : ParserImpl (World τ) where
  createInstance _ _ := pluginManagerCall below.createAlgoInstance
  execute _ strParam input output := executeConcret below strParam input output
  releaseInstance _ := pluginManagerCall below.releaseAlgoInstance
  initPlugin _ := initConcret below

/-- The parser that a handle holds, if any. -/
def heldParser (below : Below) (held : Bool) : Option (ParserImpl (World τ)) :=
  if held then some (parserImpl below) else none

/-- The static initialisation of `parser_c.cpp`: `make_exported_interface` throws `made`, or returns a parser. -/
def parserModuleReady (addModuleByName : Bool) (made : Option Exn) (w : World τ) : World τ × Bool :=
  if addModuleByName then
    match made with
    | none => ({ w with parserObject := true }, true)
    | some _ => (w, false)
  else (w, false)

end

end Nessus.Parser
