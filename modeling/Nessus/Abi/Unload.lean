import Mathlib.Data.List.AList
import Nessus.Abi.RefCountInv

/-!
# A module between threads

The objects of a module while any number of threads use them: a step is one atomic access to a count, or what a thread does
between two of them.  A destructor takes many steps, in which members are released whose destructors run in turn, and other
threads go on meanwhile.

* `Exports`, `Exports.createByName` — what `make_standard_export_functions` knows, and what the class factory makes of it;
* `Exports.create_isSome_iff` — the class factory makes what it lists;
* `State`, `Label`, `exec` — the objects, the references to them and who holds each, and the running destructors;
* `threads` — the runs of the module;
* `Counted` — what holds as long as no count overflows.
-/

namespace Nessus.Abi.Unload

open Nessus.Lib RefCount

/-! ## The class factory -/

/-- A component: its external qualified name, and its class. -/
structure Component where
  externalQualifiedName : String
  implementation : Implementation
  deriving DecidableEq, Repr

/-- `guid_of_v<first_interface_t<...>>`. -/
def Component.firstInterface (c : Component) : Guid := c.implementation.interfaces.head c.implementation.nonempty

theorem unknownObject_ne_nil : [Guid.unknownObject] ≠ [] := List.cons_ne_nil _ _

/-- A class that implements nothing but `unknown_object`. -/
def plainClass : Implementation := ⟨[Guid.unknownObject], unknownObject_ne_nil⟩

/-- The arguments of `make_standard_export_functions`, and the class of the factory. -/
structure Exports where
  components : List Component
  factory : Implementation

def plainExports : Exports := ⟨[⟨"plain", plainClass⟩], plainClass⟩

namespace Exports

variable (exports : Exports)

/-- A map from the keys of the components to them: `insert_or_assign` for each. -/
def mapBy {κ : Type} [DecidableEq κ] (key : Component → κ) : AList fun _ : κ => Component :=
  exports.components.foldl (fun map c => map.insert (key c) c) ∅

def nameMap : AList fun _ : String => Component := exports.mapBy (·.externalQualifiedName)

def guidMap : AList fun _ : Guid => Component := exports.mapBy (·.firstInterface)

/-- `create_by_name`: the component of which an instance is made, if there is one. -/
def createByName (qualifiedName : String) : Option Component := exports.nameMap.lookup qualifiedName

def createByInterfaceId (interfaceId : Guid) : Option Component := exports.guidMap.lookup interfaceId

def interfaceIds : List Guid := exports.components.map (·.firstInterface)

def qualifiedNames : List String := exports.components.map (·.externalQualifiedName)

/-- Where several components have the key, the last one is found. -/
theorem lookup_mapBy {κ : Type} [DecidableEq κ] (key : Component → κ) (k : κ) :
    (exports.mapBy key).lookup k = exports.components.findRev? fun c => key c == k := by
  rw [mapBy]
  induction exports.components using List.reverseRecOn with
  | nil => rfl
  | append_singleton cs c ih =>
    rw [List.foldl_append, List.foldl_cons, List.foldl_nil]
    by_cases hk : key c = k
    · subst hk
      simp [AList.lookup_insert]
    · rw [AList.lookup_insert_ne (Ne.symm hk), ih]
      simp [hk]

theorem mapBy_isSome_iff {κ : Type} [DecidableEq κ] (key : Component → κ) (k : κ) :
    ((exports.mapBy key).lookup k).isSome ↔ k ∈ exports.components.map key := by
  rw [lookup_mapBy, List.findRev?_eq_find?_reverse]
  simp

/-- **The factory makes what it lists**, by name and by interface, and nothing else. -/
theorem create_isSome_iff (qualifiedName : String) (interfaceId : Guid) :
    ((exports.createByName qualifiedName).isSome ↔ qualifiedName ∈ exports.qualifiedNames) ∧
      ((exports.createByInterfaceId interfaceId).isSome ↔ interfaceId ∈ exports.interfaceIds) :=
  ⟨exports.mapBy_isSome_iff (·.externalQualifiedName) qualifiedName,
    exports.mapBy_isSome_iff (·.firstInterface) interfaceId⟩

end Exports

/-! ## States -/

inductive Phase where
  | alive
  /-- The count has come to zero, and the destructor is running. -/
  | destroying
  | destroyed
  deriving DecidableEq, Repr

/-- An `unknown_object_impl`. -/
structure Object where
  implementation : Implementation
  refCount : UInt32
  phase : Phase
  deriving DecidableEq, Repr

/-- Who holds a reference: a handle of a thread, or one that is a member of an object. -/
inductive Holder where
  | thread (t : ℕ)
  | object (o : ℕ)
  deriving DecidableEq, Repr

structure State where
  /-- In order of creation. -/
  objects : List Object
  /-- Each with its holder and its object. -/
  refs : List (Holder × ℕ)
  /-- The running destructors, each with its thread and its object; of one thread, the innermost first. -/
  destructors : List (ℕ × ℕ)
  /-- The threads that have been through the last decrement of a destructor and have not returned from it. -/
  leaving : List ℕ
  /-- `get_module_ref_count`. -/
  moduleRefCount : UInt32
  deriving DecidableEq, Repr

namespace State

def start : State := { objects := [], refs := [], destructors := [], leaving := [], moduleRefCount := 0 }

variable (s : State)

def phase? (o : ℕ) : Option Phase := s.objects[o]?.map (·.phase)

/-- The object whose destructor the thread is in. -/
def destructor? (t : ℕ) : Option ℕ := (s.destructors.find? (·.1 == t)).map (·.2)

/-- The handles that a thread can use: its own, the members of live objects, and of the one whose destructor it is in. -/
def uses (t : ℕ) : Holder → Bool
  | .thread t' => t' == t
  | .object p => s.phase? p == some .alive || s.destructor? t == some p

/-- The number of references to an object. -/
def refsTo (o : ℕ) : ℕ := s.refs.countP (·.2 == o)

/-- The number of objects that have not been through the last decrement of their destructor. -/
def present : ℕ := s.objects.countP (·.phase != .destroyed)

/-! ## The accesses to the counts -/

/-- The object behind a pointer, which must be alive. -/
def deref (o : ℕ) : Except Fault Object :=
  match s.objects[o]? with
  | some x => if x.phase = .alive then .ok x else .error .dangling
  | none => .error .dangling

/-- `new T`, by the thread: the count is one from the beginning. -/
def make (t : ℕ) (implementation : Implementation) : State :=
  { s with
    objects := s.objects ++ [{ implementation, refCount := 1, phase := .alive }]
    refs := (.thread t, s.objects.length) :: s.refs
    moduleRefCount := s.moduleRefCount + 1 }

/-- `add_ref`, for a new reference. -/
def addRef (h : Holder) (o : ℕ) : Except Fault State := do
  let x ← s.deref o
  .ok { s with objects := s.objects.set o { x with refCount := x.refCount + 1 }, refs := (h, o) :: s.refs }

/-- `release`, by the thread, of a reference: at zero, `delete this` begins. -/
def release (t : ℕ) (h : Holder) (o : ℕ) : Except Fault State := do
  let x ← s.deref o
  if x.refCount = 0 then .error .terminated
  else if x.refCount - 1 = 0 then
    .ok { s with
      objects := s.objects.set o { x with refCount := x.refCount - 1, phase := .destroying }
      refs := s.refs.erase (h, o)
      destructors := (t, o) :: s.destructors }
  else .ok { s with
    objects := s.objects.set o { x with refCount := x.refCount - 1 }
    refs := s.refs.erase (h, o) }

/-- `~unknown_object_impl`: the end of `delete this`. -/
def finish (t o : ℕ) (x : Object) : Except Fault State :=
  if s.moduleRefCount = 0 then .error .terminated
  else .ok { s with
    objects := s.objects.set o { x with phase := .destroyed }
    destructors := s.destructors.erase (t, o)
    leaving := t :: s.leaving
    moduleRefCount := s.moduleRefCount - 1 }

end State

/-! ## Steps -/

/-- What the thread `t` does. -/
inductive Label where
  /-- `dll_create_factory`, with a null pointer or not. -/
  | dllCreateFactory (t : ℕ) (null : Bool)
  /-- `create_by_name` of the factory `f`. -/
  | createByName (t f : ℕ) (qualifiedName : String)
  | createByInterfaceId (t f : ℕ) (interfaceId : Guid)
  /-- `make<T>`. -/
  | make (t : ℕ) (implementation : Implementation)
  /-- A copy of what `h` holds, or `query_interface` of it, into `h'`. -/
  | addRef (t : ℕ) (h : Holder) (o : ℕ) (h' : Holder)
  /-- A move from `h` into `h'`, which may be handed over to another thread. -/
  | move (t : ℕ) (h : Holder) (o : ℕ) (h' : Holder)
  | release (t : ℕ) (h : Holder) (o : ℕ)
  /-- The destructor of `p` destroys a member. -/
  | destroyMember (t p o : ℕ)
  /-- The last decrement of the destructor. -/
  | finish (t o : ℕ)
  /-- The return from the destructor. -/
  | leave (t : ℕ)
  | dllCanUnloadNow (t : ℕ) (answer : Bool)
  deriving DecidableEq, Repr

/-- The thread that takes the step. -/
def Label.thread : Label → ℕ
  | .dllCreateFactory t _ | .createByName t _ _ | .createByInterfaceId t _ _ | .make t _ | .addRef t _ _ _
  | .move t _ _ _ | .release t _ _ | .destroyMember t _ _ | .finish t _ | .leave t | .dllCanUnloadNow t _ => t

section Exec

variable (exports : Exports)

/-- An instance of the component that the factory has found, or null. -/
def State.create (s : State) (t : ℕ) : Option Component → State
  | some c => s.make t c.implementation
  | none => s

/-- The thread holds a reference to a factory. -/
def State.holdsFactory (s : State) (t f : ℕ) : Bool :=
  s.refs.contains (.thread t, f) && s.objects[f]?.map (·.implementation) == some exports.factory

/-- One step of a thread that is not on its way out of a destructor. -/
def State.exec (s : State) : Label → Option (Except Fault State)
  | .dllCreateFactory t null => some (.ok (if null then s else s.make t exports.factory))
  | .createByName t f qualifiedName =>
    if s.holdsFactory exports t f then some (.ok (s.create t (exports.createByName qualifiedName))) else none
  | .createByInterfaceId t f interfaceId =>
    if s.holdsFactory exports t f then some (.ok (s.create t (exports.createByInterfaceId interfaceId))) else none
  | .make t implementation => some (.ok (s.make t implementation))
  | .addRef t h o h' => if (h, o) ∈ s.refs ∧ s.uses t h ∧ s.uses t h' then some (s.addRef h' o) else none
  | .move t h o (.thread t') =>
    if (h, o) ∈ s.refs ∧ s.uses t h then some (.ok { s with refs := (.thread t', o) :: s.refs.erase (h, o) }) else none
  | .move t h o (.object p) =>
    if (h, o) ∈ s.refs ∧ s.uses t h ∧ s.uses t (.object p) then
      some (.ok { s with refs := (.object p, o) :: s.refs.erase (h, o) })
    else none
  | .release t h o => if (h, o) ∈ s.refs ∧ s.uses t h then some (s.release t h o) else none
  | .destroyMember t p o =>
    if s.destructor? t = some p ∧ (.object p, o) ∈ s.refs then some (s.release t (.object p) o) else none
  | .finish t o =>
    if s.destructor? t = some o ∧ ∀ r ∈ s.refs, r.1 ≠ .object o then s.objects[o]?.map (s.finish t o) else none
  | .leave _ => none
  | .dllCanUnloadNow _ answer => if answer = (s.moduleRefCount == 0) then some (.ok s) else none

/-- One step; `none` where the thread cannot take it. -/
def step (s : State) (l : Label) : Option (Except Fault State) :=
  if l.thread ∈ s.leaving then
    match l with
    | .leave t => some (.ok { s with leaving := s.leaving.erase t })
    | _ => none
  else s.exec exports l

/-- The runs of the threads; they end where one faults. -/
def threads : Machine (Except Fault State) Label where
  init := .ok .start
  step
    | .ok s, l => step exports s l
    | .error _, _ => none

end Exec

/-! ## The invariant -/

/-- **What holds as long as no count overflows**: the counts are right, an object is alive exactly as long as there is a
reference to it, and the module counts the objects that are still there. -/
structure Counted (s : State) : Prop
    extends RefCounted (·.refCount.toNat) (fun x => decide (x.phase = .alive)) s.objects s.refsTo where
  /-- What is being destroyed has a running destructor. -/
  destroying_iff : ∀ o, (∃ t, (t, o) ∈ s.destructors) ↔ s.phase? o = some .destroying
  /-- An object has one destructor at most, in one thread. -/
  nodup : (s.destructors.map (·.2)).Nodup
  /-- What has been destroyed holds no reference. -/
  members : ∀ p o, (Holder.object p, o) ∈ s.refs → ∃ x, s.phase? p = some x ∧ x ≠ .destroyed
  module : s.moduleRefCount.toNat = s.present

structure State.Bounded (s : State) : Prop where
  refs : ∀ o, s.refsTo o < 2 ^ 32
  present : s.present < 2 ^ 32

end Nessus.Abi.Unload
