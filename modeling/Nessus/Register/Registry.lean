import Mathlib.Data.List.AList
import Nessus.Lib.Machine
import Nessus.Abi.Errors
import Nessus.Abi.RefCount

/-!
# The registry of plugin instances

`plugin_manager_concrete_impl`: a map from ids to plugin instances behind a mutex.  `create_algo_instance`, `execute`,
`lookup` and `release_algo_instance` are broken into the steps that are atomic: what happens under the lock is one step,
what happens outside of it (the factory, `init`, the plugin's `execute`) others.  Any number of calls run at once; a run
is any interleaving of their steps.

An instance is a reference-counted object (`Abi.RefCount`) with a count of 32 bits; it is destroyed when the count is
down to zero.  A fault ends the process.
-/

namespace Nessus.Register

open Nessus.Lib Nessus.Abi

/-! ## Instances and calls -/

structure Env where
  /-- `create_guid_from_bytes`. -/
  createGuidFromBytes : Vector UInt8 8 → Guid
  /-- `create_abi_exception_message`. -/
  createAbiExceptionMessage : AbiResult → Option String → Option String

/-- A plugin instance, at the address of its `algo_plugin_interface`. -/
structure Instance where
  address : UInt64
  refs : UInt32
  alive : Bool
  deriving DecidableEq, Repr

namespace Instance

def addRef (x : Instance) : Except RefCount.Fault Instance :=
  if x.alive then .ok { x with refs := x.refs + 1 } else .error .dangling

/-- `release`: the instance is destroyed when its count is down to zero. -/
def release (x : Instance) : Except RefCount.Fault Instance :=
  if x.alive then
    if x.refs = 0 then .error .terminated
    else .ok { x with refs := x.refs - 1, alive := x.refs - 1 != 0 }
  else .error .dangling

end Instance

/-- What `create_by_name(qualified_name).try_as<algo_plugin_interface>()` comes to. -/
inductive Made where
  /-- `create_by_name` throws. -/
  | throws (e : Exn)
  /-- There is no such class. -/
  | null
  /-- The object does not implement `algo_plugin_interface`, and is gone with the temporary handle. -/
  | noInterface
  | made (address : UInt64)
  deriving DecidableEq, Repr

inductive Result where
  | id (id : Guid)
  /-- The handle that `lookup` returned, until its client lets it go. -/
  | handle (instance_ : Option ℕ)
  | text (s : String)
  | unit
  | thrown (e : Exn)
  deriving DecidableEq, Repr

/-- Where a call is, with the local handle it holds. -/
inductive Call where
  /-- `create_algo_instance`, at its beginning. -/
  | creating (qualifiedName strParams : String)
  /-- After `try_as`. -/
  | created (qualifiedName strParams : String) (instance_ : ℕ)
  /-- After `init`. -/
  | ready (instance_ : ℕ)
  /-- After the lock has been left; `instance` has not been destructed yet. -/
  | inserted (id : Guid) (instance_ : ℕ)
  /-- `execute`, at its beginning. -/
  | executing (id : Guid)
  /-- The plugin's own `execute` is running. -/
  | running (id : Guid) (instance_ : ℕ)
  /-- `lookup`, at its beginning. -/
  | looking (id : Guid)
  /-- `release_algo_instance`, at its beginning. -/
  | releasing (id : Guid)
  | done (result : Result)
  deriving DecidableEq, Repr

/-- The instance the call has a handle to. -/
def Call.held : Call → Option ℕ
  | created _ _ i => some i
  | ready i => some i
  | inserted _ i => some i
  | running _ i => some i
  | done (.handle h) => h
  | _ => none

/-- `plugin_instances_map_` with the instances created so far and the calls made so far, both by their numbers, and the
fault that has ended the process. -/
structure State where
  instances : List Instance
  map : AList fun _ : Guid => ℕ
  calls : List Call
  fault : Option RefCount.Fault

/-- The steps.  A call step begins the next call; the others carry the number of their call and what they read. -/
inductive Label where
  | callCreate (qualifiedName strParams : String)
  | callExecute (id : Guid)
  | callLookup (id : Guid)
  | callRelease (id : Guid)
  | factory (call : ℕ) (made : Made)
  /-- `init`, and the exception it ends with. -/
  | init (call : ℕ) (thrown : Option Exn)
  /-- Under the lock: `insert_or_assign` of the instance at the address. -/
  | insert (call : ℕ) (address : UInt64) (instance_ : ℕ)
  /-- The local handle is destructed and the id returned. -/
  | leave (call : ℕ)
  /-- Under the lock, in `execute`: `find` and the copy of the handle. -/
  | find (call : ℕ) (id : Guid) (found : Option ℕ)
  /-- The plugin's `execute` ends. -/
  | plugin (call : ℕ) (instance_ : ℕ) (result : Except Exn String)
  /-- Under the lock, in `lookup`: `find` and the copy of the handle. -/
  | lookup (call : ℕ) (id : Guid) (found : Option ℕ)
  /-- The client of `lookup` lets the handle go. -/
  | drop (call : ℕ)
  /-- Under the lock: `erase`. -/
  | erase (call : ℕ) (id : Guid)

/-! ## The steps -/

/-- The id of an instance: `create_guid_from_bytes(to_array(address))`. -/
def Env.id (env : Env) (address : UInt64) : Guid := env.createGuidFromBytes (toArray address)

/-- `throw abi_no_interface{ u8"using '" + qualified_name + "' to create instance failed." }`. -/
def Env.noInstance (env : Env) (qualifiedName : String) : Exn :=
  .abi (.of .noInterface (env.createAbiExceptionMessage errorNoInterface
    (some ("using '" ++ qualifiedName ++ "' to create instance failed."))))

/-- `throw abi_key_not_found{}`. -/
def Env.keyNotFound (env : Env) : Exn :=
  .abi (.of .keyNotFound (env.createAbiExceptionMessage errorKeyNotFound none))

namespace State

def start : State where
  instances := []
  map := ∅
  calls := []
  fault := none

def call (s : State) (c : Call) : State := { s with calls := s.calls ++ [c] }

def setCall (s : State) (c : ℕ) (phase : Call) : State := { s with calls := s.calls.set c phase }

/-- An instance is created, with one handle to it. -/
def make (s : State) (address : UInt64) : State := { s with instances := s.instances ++ [⟨address, 1, true⟩] }

/-- A method of the instance is called. -/
def invoke (s : State) (i : ℕ) (method : Instance → Except RefCount.Fault Instance) : State :=
  match (s.instances[i]?).elim (.error .dangling) method with
  | .ok x => { s with instances := s.instances.set i x }
  | .error e => { s with fault := s.fault.or (some e) }

/-- A handle to the instance is copied. -/
def addRef (s : State) (i : ℕ) : State := s.invoke i Instance.addRef

/-- A handle to the instance is released. -/
def release (s : State) (i : ℕ) : State := s.invoke i Instance.release

/-- `plugin_instances_map_.insert_or_assign(id, instance)`. -/
def insertOrAssign (s : State) (id : Guid) (i : ℕ) : State :=
  let s' := match s.map.lookup id with
    | some j => s.release j
    | none => s
  { s'.addRef i with map := s.map.insert id i }

/-- `plugin_instances_map_.erase(id)`. -/
def erase (s : State) (id : Guid) : State :=
  let s' := match s.map.lookup id with
    | some j => s.release j
    | none => s
  { s' with map := s.map.erase id }

/-- The instance of that number is at that address. -/
def isAt (s : State) (i : ℕ) (address : UInt64) : Bool := (s.instances[i]?).any (·.address == address)

/-- A live instance is at the address. -/
def occupied (s : State) (address : UInt64) : Bool := s.instances.any fun x => x.alive && x.address == address

end State

/-- How the plugin's `execute` ends is how the call ends. -/
def pluginResult : Except Exn String → Result
  | .ok s => .text s
  | .error e => .thrown e

variable (env : Env)

/-- A step of a call; `none` where it is not its turn, or where what it carries is not what it would read. -/
def State.go (s : State) : Label → Option State
  | .callCreate n p => some (s.call (.creating n p))
  | .callExecute g => some (s.call (.executing g))
  | .callLookup g => some (s.call (.looking g))
  | .callRelease g => some (s.call (.releasing g))
  | .factory c made =>
    match s.calls[c]? with
    | some (.creating n p) =>
      match made with
      | .throws e => some (s.setCall c (.done (.thrown e)))
      | .null | .noInterface => some (s.setCall c (.done (.thrown (env.noInstance n))))
      | .made a =>
        -- the allocator hands out any address that no live object occupies
        if s.occupied a then none
        else some ((s.make a).setCall c (.created n p s.instances.length))
    | _ => none
  | .init c thrown =>
    match s.calls[c]? with
    | some (.created _ _ i) =>
      match thrown with
      | none => some (s.setCall c (.ready i))
      | some e => some ((s.setCall c (.done (.thrown e))).release i)
    | _ => none
  | .insert c a i =>
    match s.calls[c]? with
    | some (.ready j) =>
      if i = j ∧ s.isAt i a then some ((s.setCall c (.inserted (env.id a) i)).insertOrAssign (env.id a) i) else none
    | _ => none
  | .leave c =>
    match s.calls[c]? with
    | some (.inserted g i) => some ((s.setCall c (.done (.id g))).release i)
    | _ => none
  | .find c g found =>
    if s.calls[c]? = some (.executing g) ∧ found = s.map.lookup g then
      match found with
      | some i => some ((s.setCall c (.running g i)).addRef i)
      | none => some (s.setCall c (.done (.thrown env.keyNotFound)))
    else none
  | .plugin c i result =>
    match s.calls[c]? with
    | some (.running _ j) => if i = j then some ((s.setCall c (.done (pluginResult result))).release i) else none
    | _ => none
  | .lookup c g found =>
    if s.calls[c]? = some (.looking g) ∧ found = s.map.lookup g then
      match found with
      | some i => some ((s.setCall c (.done (.handle (some i)))).addRef i)
      | none => some (s.setCall c (.done (.handle none)))
    else none
  | .drop c =>
    match s.calls[c]? with
    | some (.done (.handle (some i))) => some ((s.setCall c (.done (.handle none))).release i)
    | _ => none
  | .erase c g =>
    match s.calls[c]? with
    | some (.releasing g') => if g = g' then some ((s.setCall c (.done .unit)).erase g) else none
    | _ => none

/-- One step; there is none after a fault. -/
def step (s : State) (l : Label) : Option State := if s.fault.isSome then none else s.go env l

/-- The calls of any number of clients, in any interleaving. -/
def registry : Machine State Label where
  init := .start
  step := step env

end Nessus.Register
