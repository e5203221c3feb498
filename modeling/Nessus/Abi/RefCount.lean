import Mathlib.Algebra.Group.Nat.Defs
import Nessus.Lib.Count
import Nessus.Lib.Machine
import Nessus.Lib.RefCounted
import Nessus.Abi.Guid

/-!
# Handles and reference counts

* `Heap` — the implementation objects (`unknown_object_impl`) with their 32-bit counts, and the count of the module;
* `State`, `Op`, `exec` — handle variables (`unknown_object`), the raw references that have been detached from a handle
  and not yet taken over, and the operations on them;
* `program` — a program is a run of the machine; it ends early where an operation faults.

The variables are locals, globals and members of what is no implementation object.  A handle that an implementation object
owns is none of them: it is gone with its object, and `operator=` releases the left handle before it reads the right one,
which is then gone where the release destroys its owner.
-/

namespace Nessus.Abi.RefCount

open Nessus.Lib

/-! ## Implementation objects -/

/-- What the template arguments fix of an implementation class: the GUIDs of its interfaces, the first one first. -/
structure Implementation where
  interfaces : List Guid
  nonempty : interfaces ≠ []
  deriving DecidableEq, Repr

/-- A pointer to one of the interfaces of an object. -/
structure AbiPtr where
  object : ℕ
  interface : ℕ
  deriving DecidableEq, Repr

structure Object where
  implementation : Implementation
  refCount : UInt32
  alive : Bool
  deriving DecidableEq, Repr

/-- The objects in order of creation, the module's count, and the destroyed objects in order of destruction. -/
structure Heap where
  objects : List Object
  moduleRefCount : UInt32
  destroyed : List ℕ
  deriving DecidableEq, Repr

/-- How a program can go wrong. -/
inductive Fault where
  /-- A count at zero is decremented: `std::terminate`. -/
  | terminated
  /-- A method of a destroyed object is called. -/
  | dangling
  deriving DecidableEq, Repr

namespace Heap

/-- The object behind a pointer, which must be alive. -/
def deref (heap : Heap) (o : ℕ) : Except Fault Object :=
  match heap.objects[o]? with
  | some obj => if obj.alive then .ok obj else .error .dangling
  | none => .error .dangling

def addRef (heap : Heap) (abi : AbiPtr) : Except Fault Heap := do
  let obj ← heap.deref abi.object
  .ok { heap with objects := heap.objects.set abi.object { obj with refCount := obj.refCount + 1 } }

/-- `delete this`. -/
def delete (heap : Heap) (o : ℕ) (obj : Object) : Except Fault Heap :=
  if heap.moduleRefCount = 0 then .error .terminated
  else .ok {
    objects := heap.objects.set o { obj with alive := false }
    moduleRefCount := heap.moduleRefCount - 1
    destroyed := heap.destroyed ++ [o] }

/-- `release` of an object without `unique_release`. -/
def release (heap : Heap) (abi : AbiPtr) : Except Fault Heap := do
  let obj ← heap.deref abi.object
  if obj.refCount = 0 then .error .terminated
  else
    let obj := { obj with refCount := obj.refCount - 1 }
    if obj.refCount = 0 then heap.delete abi.object obj
    else .ok { heap with objects := heap.objects.set abi.object obj }

/-- `new T`: the number of the new object. -/
def create (heap : Heap) (implementation : Implementation) : ℕ × Heap :=
  (heap.objects.length,
    { heap with
      objects := heap.objects ++ [{ implementation, refCount := 1, alive := true }]
      moduleRefCount := heap.moduleRefCount + 1 })

end Heap

/-- `find_interface_by_guid::get`: where several interfaces have the GUID, the last one. -/
def findInterfaceByGuid (implementation : Implementation) (id : Guid) : Option ℕ :=
  (implementation.interfaces.zipIdx.filter fun p => p.1 == id).getLast?.map (·.2)

/-- The interface that `query_interface` finds. -/
def Implementation.query (implementation : Implementation) (id : Guid) : Option ℕ :=
  match findInterfaceByGuid implementation id with
  | some i => some i
  | none => if id = Guid.unknownObject then some 0 else none

/-! ## Handle variables -/

/-- The value of a handle: null, or the pointer it holds. -/
abbrev Handle := Option AbiPtr

/-- `vars` has a slot for each variable, which is empty before the construction and after the destruction.  No object owns
one of the variables, so that only their own destructors destroy them. -/
structure State where
  heap : Heap
  vars : List (Option Handle)
  /-- The references that have been detached and not yet taken over. -/
  raw : List AbiPtr
  deriving DecidableEq, Repr

/-- The state in which a program with `n` variables begins. -/
def State.start (n : ℕ) : State where
  heap := { objects := [], moduleRefCount := 0, destroyed := [] }
  vars := List.replicate n none
  raw := []

/-- A pointer that is only read: null, the one a handle holds (`get_abi`), or a detached one. -/
inductive Borrowed where
  | null
  | handle (v : ℕ)
  | detached (abi : AbiPtr)
  deriving DecidableEq, Repr

/-- The operations.  `v` is the variable constructed or changed, `w` the argument. -/
inductive Op where
  /-- `make<T, Interface>`, where the interface is the `i`-th one of `T`. -/
  | make (v : ℕ) (implementation : Implementation) (i : ℕ)
  | construct (v : ℕ)
  | constructNull (v : ℕ)
  | constructTakeOver (v : ℕ) (raw : Option AbiPtr)
  | constructCopy (v w : ℕ)
  | constructMove (v w : ℕ)
  | assignCopy (v w : ℕ)
  | assignMove (v w : ℕ)
  | assignNull (v : ℕ)
  | swap (v w : ℕ)
  /-- `put_abi`, and what is written through the pointer: nothing, or a detached reference. -/
  | putAbi (v : ℕ) (out : Option AbiPtr)
  | detachAbi (v : ℕ)
  | createFromAbi (v : ℕ) (source : Borrowed)
  /-- `as<To>` into a new variable. -/
  | as (v w : ℕ) (id : Guid)
  /-- `try_as<To>` into a new variable. -/
  | tryAs (v w : ℕ) (id : Guid)
  | destruct (v : ℕ)
  deriving DecidableEq, Repr

namespace State

/-- The value of a variable, where it exists. -/
def handle? (s : State) (v : ℕ) : Option Handle := s.vars[v]?.join

/-- The slot of a variable is empty. -/
def free (s : State) (v : ℕ) : Bool := s.vars[v]? == some none

/-- Writes the member `abi_`, or constructs or destroys the variable around it. -/
def put (s : State) (v : ℕ) (x : Option Handle) : State := { s with vars := s.vars.set v x }

/-- `unknown_object::add_ref`, on a handle of this value. -/
def addRef (s : State) (h : Handle) : Except Fault State :=
  match h with
  | none => .ok s
  | some abi => (s.heap.addRef abi).map fun heap => { s with heap }

/-- `unknown_object::release`, on the variable `v` of this value. -/
def release (s : State) (v : ℕ) (h : Handle) : Except Fault State :=
  match h with
  | none => .ok s
  | some abi => (s.heap.release abi).map fun heap => { s.put v (some none) with heap }

/-- A raw reference is handed over: it is not the program's any more. -/
def take (s : State) (abi : AbiPtr) : State := { s with raw := s.raw.erase abi }

/-- The value of a borrowed pointer. -/
def borrow (s : State) : Borrowed → Option Handle
  | .null => some none
  | .handle w => s.handle? w
  | .detached abi => if abi ∈ s.raw then some (some abi) else none

/-- `query_interface(id, put_abi(result))`, where `v` is the new variable `result`. -/
def query (s : State) (v : ℕ) (abi : AbiPtr) (id : Guid) : Except Fault (Option State) := do
  let obj ← s.heap.deref abi.object
  match obj.implementation.query id with
  | some i => some <$> (s.put v (some (some ⟨abi.object, i⟩))).addRef (some ⟨abi.object, i⟩)
  | none => .ok none

end State

/-- `as_impl<To, hasException>`: where it throws, no variable is constructed. -/
def asImpl (hasException : Bool) (s : State) (v : ℕ) (h : Handle) (id : Guid) : Except Fault State :=
  let failed := if hasException then s else s.put v (some none)
  match h with
  | none => .ok failed
  | some abi => (s.query v abi id).map fun r => r.getD failed

/-- One operation; `none` where no program can perform it in the state (a variable that does not exist, a reference
that has not been detached). -/
def exec (s : State) : Op → Option (Except Fault State)
  | .make v implementation i =>
    if s.free v ∧ i < implementation.interfaces.length then
      let (o, heap) := s.heap.create implementation
      some (.ok ({ s with heap }.put v (some (some ⟨o, i⟩))))
    else none
  | .construct v | .constructNull v =>
    if s.free v then some (.ok (s.put v (some none))) else none
  | .constructTakeOver v none =>
    if s.free v then some (.ok (s.put v (some none))) else none
  | .constructTakeOver v (some abi) =>
    if s.free v ∧ abi ∈ s.raw then some (.ok ((s.take abi).put v (some (some abi)))) else none
  | .constructCopy v w => do
    let h ← s.handle? w
    if s.free v then some ((s.put v (some h)).addRef h) else none
  | .constructMove v w => do
    let h ← s.handle? w
    if s.free v then some (.ok ((s.put v (some h)).put w (some none))) else none
  | .assignCopy v w => do
    let old ← s.handle? v
    let h ← s.handle? w
    if v = w then some (.ok s)
    else some ((s.release v old).bind fun s => (s.put v (some h)).addRef h)
  | .assignMove v w => do
    let old ← s.handle? v
    let h ← s.handle? w
    if v = w then some (.ok s)
    else some ((s.release v old).map fun s => (s.put w (some none)).put v (some h))
  | .assignNull v => do
    let old ← s.handle? v
    some (s.release v old)
  | .swap v w => do
    let l ← s.handle? v
    let r ← s.handle? w
    some (.ok ((s.put v (some r)).put w (some l)))
  | .putAbi v none => do
    let old ← s.handle? v
    some (s.release v old)
  | .putAbi v (some abi) => do
    let old ← s.handle? v
    if abi ∈ s.raw then some ((s.release v old).map fun s => (s.take abi).put v (some (some abi))) else none
  | .detachAbi v => do
    let h ← s.handle? v
    some (.ok ({ s with raw := s.raw ++ h.toList }.put v (some none)))
  | .createFromAbi v source => do
    let h ← s.borrow source
    if s.free v then some ((s.addRef h).map fun s => s.put v (some h)) else none
  | .as v w id => do
    let h ← s.handle? w
    if s.free v then some (asImpl true s v h id) else none
  | .tryAs v w id => do
    let h ← s.handle? w
    if s.free v then some (asImpl false s v h id) else none
  | .destruct v => do
    let h ← s.handle? v
    some ((s.release v h).map fun s => s.put v none)

/-- The programs over `n` variables. -/
def program (n : ℕ) : Machine (Except Fault State) Op where
  init := .ok (State.start n)
  step
    | .ok s, op => exec s op
    | .error _, _ => none

/-! ## Counting -/

/-- The variable holds a reference to the object. -/
def holds (o : ℕ) (x : Option Handle) : Bool := x.join.any (·.object == o)

/-- The references to an object: the handles that hold it and the detached ones. -/
def State.refs (s : State) (o : ℕ) : ℕ := s.vars.countP (holds o) + s.raw.countP (·.object == o)

def Heap.live (heap : Heap) : ℕ := heap.objects.countP (·.alive)

/-- **The counting invariant** of a heap whose objects have these numbers of references: the count of each live object
is the number of references to it, and an object is alive exactly as long as there is one. -/
structure Counted (heap : Heap) (refs : ℕ → ℕ) : Prop
    extends RefCounted (·.refCount.toNat) (·.alive) heap.objects refs where
  /-- Objects are destroyed at most once. -/
  nodup : heap.destroyed.Nodup
  /-- The destroyed objects are those that are not alive any more. -/
  destroyed_iff : ∀ o, o ∈ heap.destroyed ↔ ∃ obj, heap.objects[o]? = some obj ∧ obj.alive = false
  /-- The module counts the live objects. -/
  module : heap.moduleRefCount.toNat = heap.live

/-- No count has overflowed: every object has fewer than 2^32 references, and fewer than 2^32 objects are alive. -/
structure State.Bounded (s : State) : Prop where
  refs : ∀ o, s.refs o < 2 ^ 32
  live : s.heap.live < 2 ^ 32

end Nessus.Abi.RefCount
