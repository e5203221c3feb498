import Nessus.Abi.ParamVector
import Nessus.Abi.RefCountInv

/-!
# Iterators of vectors and hash maps

The implementations of `object_iterator` keep a C++ reference to their container, and an index or a position in it.
They are objects of their own, with their own handles: nothing keeps the container alive for them, or in the state in
which they have found it.

* `HashMap`, `MapIterator` — the nodes of an `std::unordered_map`, and which iterators are valid;
* `State`, `Step`, `step` — the handles of a program, what is in the objects, and the operations;
* `State.Proper` — an iterator accesses a container that is alive, and reads an element of it;
* `State.Safe` — what the program has to observe for that.
-/

namespace Nessus.Abi.Iterators

open Nessus.Lib Nessus.Abi.ParamVector

variable {τ T K V : Type}

/-! ## Hash maps -/

/-- An element; `id` stands for its address. -/
structure Node (K V : Type) where
  id : ℕ
  key : K
  value : V
  deriving DecidableEq, Repr

/-- `nodes` is in the order of iteration. -/
structure HashMap (K V : Type) where
  nodes : List (Node K V)
  nextId : ℕ
  /-- How many times all iterators have become invalid. -/
  generation : ℕ
  deriving DecidableEq, Repr

/-- A `const_iterator`: the element, or the end. -/
structure MapIterator where
  position : Option ℕ
  generation : ℕ
  deriving DecidableEq, Repr

/-- Where a new element goes; a rehash invalidates all iterators, and leaves the elements in any order. -/
inductive Insertion where
  | inPlace (position : ℕ)
  | rehashed (order : List ℕ)
  deriving DecidableEq, Repr

namespace HashMap

variable (m : HashMap K V)

/-- `param_hash_map_impl()`. -/
def new : HashMap K V := ⟨[], 0, 0⟩

def node? (id : ℕ) : Option (Node K V) := m.nodes.find? (·.id == id)

/-- The map with a new element; `none` where the elements cannot be in that order. -/
def insert (node : Node K V) : Insertion → Option (HashMap K V)
  | .inPlace position =>
    some { m with nodes := m.nodes.insertIdx (min position m.nodes.length) node, nextId := m.nextId + 1 }
  | .rehashed order =>
    if order.Perm (List.range (m.nodes.length + 1)) then
      some ⟨order.filterMap fun i => (m.nodes ++ [node])[i]?, m.nextId + 1, m.generation + 1⟩
    else none

/-- `add_or_update`, which asks for memory for a new element. -/
def addOrUpdate [BEq K] (key : K) (value : V) (insertion : Insertion) (allocation : Allocation) :
    Option (Outcome Exn (HashMap K V)) :=
  match m.nodes.find? (·.key == key) with
  | some node => some (.ok { m with nodes := m.nodes.map fun n => if n.id = node.id then { n with value } else n })
  | none => (m.insert ⟨m.nextId, key, value⟩ insertion).map fun m => allocation.grow >>= fun _ => .ok m

def remove [BEq K] (key : K) : HashMap K V := { m with nodes := m.nodes.eraseP (·.key == key) }

/-- `clear`, which may invalidate the end as well. -/
def clear : HashMap K V := { m with nodes := [], generation := m.generation + 1 }

def next (id : ℕ) : Option ℕ := ((m.nodes.dropWhile (·.id != id)).tail.head?).map (·.id)

end HashMap

namespace MapIterator

variable (iter : MapIterator) (m : HashMap K V)

/-- The iterator is valid: it may be compared, and if it is not at the end, dereferenced and incremented. -/
def Holds : Prop := iter.generation = m.generation ∧ ∀ id ∈ iter.position, (m.node? id).isSome

instance : Decidable (iter.Holds m) :=
  inferInstanceAs (Decidable (_ ∧ ∀ id ∈ iter.position, _))

def begin : MapIterator := ⟨m.nodes.head?.map (·.id), m.generation⟩

end MapIterator

/-! ## The iterators -/

/-- The methods of `object_iterator`. -/
inductive IteratorCall where
  | current
  | valid
  | moveToNext
  deriving DecidableEq, Repr

inductive Reply (T K V : Type) where
  | nothing
  | flag (b : Bool)
  | element (item : T)
  | pair (key : K) (value : V)
  deriving DecidableEq, Repr

/-- `param_vector_impl::object_iterator_impl`, with the elements of `impl_`. -/
def vectorIteratorCall (buffer : List T) (index : UInt64) : IteratorCall → Outcome Exn (Reply T K V × UInt64)
  | .current => atIndex buffer index >>= fun item => .ok (.element item, index)
  | .valid => .ok (.flag (decide (index < size buffer)), index)
  | .moveToNext => .ok (.flag (decide (index + 1 < size buffer)), index + 1)

/-- `param_hash_map_impl::object_iterator_impl`, where `iter_` is an iterator of `m`. -/
def mapIteratorCall (m : HashMap K V) (iter : MapIterator) : IteratorCall → Outcome Exn (Reply T K V × MapIterator)
  | .current =>
    if iter.Holds m then
      match iter.position.bind m.node? with
      | some node => .ok (.pair node.key node.value, iter)
      | none => .undefined
    else .undefined
  | .valid => if iter.Holds m then .ok (.flag iter.position.isSome, iter) else .undefined
  | .moveToNext =>
    if iter.Holds m then
      match iter.position with
      | some id => .ok (.flag (m.next id).isSome, { iter with position := m.next id })
      | none => .undefined
    else .undefined

/-! ## Programs -/

/-- The members of an object: those of a container, or `impl_`, which is the number of the container, and the position
of an iterator. -/
inductive Content (T K V : Type) where
  | vector (buffer : List T)
  | hashMap (map : HashMap K V)
  | vectorIterator (impl : ℕ) (index : UInt64)
  | mapIterator (impl : ℕ) (iter : MapIterator)

/-- The handles and the counts of the objects, and what is in the objects. -/
structure State (T K V : Type) where
  handles : RefCount.State
  contents : ℕ → Option (Content T K V)

/-- The operations.  `v` is a new handle, `w` the handle of the object.  `begin` is `getIterator` and `valid`, and
`assignNull` if it is not. -/
inductive Step (T K V : Type) where
  /-- An operation on handles, which makes no object. -/
  | handles (op : RefCount.Op)
  | makeParamVector (v : ℕ) (implementation : RefCount.Implementation) (buffer : List T)
  | makeParamHashMap (v : ℕ) (implementation : RefCount.Implementation)
  | getIterator (v w : ℕ) (implementation : RefCount.Implementation)
  | vector (w : ℕ) (op : VectorOp T)
  | addOrUpdate (w : ℕ) (key : K) (value : V) (insertion : Insertion) (allocation : Allocation)
  | remove (w : ℕ) (key : K)
  | clearMap (w : ℕ)
  | iterator (w : ℕ) (call : IteratorCall)

namespace State

/-- A program with `n` handles begins. -/
def start (n : ℕ) : State T K V := ⟨.start n, fun _ => none⟩

variable (s : State T K V)

def store (o : ℕ) (c : Content T K V) : State T K V := { s with contents := Function.update s.contents o (some c) }

def exec (op : RefCount.Op) : Option (Outcome Exn (Reply T K V × State T K V)) :=
  (RefCount.exec s.handles op).map fun r =>
    match r with
    | .ok handles => .ok (.nothing, { s with handles })
    | .error .terminated => .terminated
    | .error .dangling => .undefined

/-- `make_as_first`: the new object, and its first handle `v`. -/
def make (v : ℕ) (implementation : RefCount.Implementation) (c : Content T K V) :
    Option (Outcome Exn (Reply T K V × State T K V)) :=
  (s.exec (.make v implementation 0)).map fun r => r >>= fun (reply, s') =>
    .ok (reply, s'.store s.handles.heap.objects.length c)

/-- The members of an object that a method uses, which must be alive. -/
def access (o : ℕ) (f : Content T K V → Option (Outcome Exn (Reply T K V × State T K V))) :
    Option (Outcome Exn (Reply T K V × State T K V)) :=
  match s.handles.heap.deref o with
  | .ok _ => (s.contents o).bind f
  | .error _ => some .undefined

/-- A method of the object behind a handle, by the adapter; `f` gets the number of the object. -/
def method (P : Primitives τ) (w : ℕ)
    (f : ℕ → Content T K V → Option (Outcome Exn (Reply T K V × State T K V))) :
    Option (Outcome Exn (Reply T K V × State T K V)) :=
  (s.handles.handle? w).bind fun h =>
    match h with
    | some abi => s.access abi.object (f abi.object)
    | none => some (.thrown (.abi (.of .nullPointer (P.createAbiExceptionMessage errorNullPointer none))))

/-- One operation; `none` where no program can perform it in the state. -/
def step [BEq T] [Inhabited T] [BEq K] (P : Primitives τ) : Step T K V → Option (Outcome Exn (Reply T K V × State T K V))
  | .handles (.make ..) => none
  | .handles op => s.exec op
  | .makeParamVector v implementation buffer => s.make v implementation (.vector buffer)
  | .makeParamHashMap v implementation => s.make v implementation (.hashMap .new)
  | .getIterator v w implementation => s.method P w fun o c =>
    match c with
    | .vector _ => s.make v implementation (.vectorIterator o 0)
    | .hashMap m => s.make v implementation (.mapIterator o (.begin m))
    | _ => none
  | .vector w op => s.method P w fun o c =>
    match c with
    | .vector buffer => some (op.run P buffer >>= fun (_, buffer) => .ok (.nothing, s.store o (.vector buffer)))
    | _ => none
  | .addOrUpdate w key value insertion allocation => s.method P w fun o c =>
    match c with
    | .hashMap m => (m.addOrUpdate key value insertion allocation).map fun r => r >>= fun m =>
      .ok (.nothing, s.store o (.hashMap m))
    | _ => none
  | .remove w key => s.method P w fun o c =>
    match c with
    | .hashMap m => some (.ok (.nothing, s.store o (.hashMap (m.remove key))))
    | _ => none
  | .clearMap w => s.method P w fun o c =>
    match c with
    | .hashMap m => some (.ok (.nothing, s.store o (.hashMap m.clear)))
    | _ => none
  | .iterator w call => s.method P w fun o c =>
    match c with
    | .vectorIterator impl index => s.access impl fun container =>
      match container with
      | .vector buffer => some (vectorIteratorCall buffer index call >>= fun (reply, index) =>
        .ok (reply, s.store o (.vectorIterator impl index)))
      | _ => none
    | .mapIterator impl iter => s.access impl fun container =>
      match container with
      | .hashMap m => some (mapIteratorCall m iter call >>= fun (reply, iter) =>
        .ok (reply, s.store o (.mapIterator impl iter)))
      | _ => none
    | _ => none

end State

/-- Any program with `n` handles. -/
def iterators [BEq T] [Inhabited T] [BEq K] (P : Primitives τ) (n : ℕ) :
    Machine (Outcome Exn (State T K V)) (Step T K V) where
  init := .ok (.start n)
  step
    | .ok s, a => (s.step P a).map fun r =>
      match r with
      | .ok (_, s') => .ok s'
      | .thrown _ => .ok s
      | .terminated => .terminated
      | .undefined => .undefined
    | _, _ => none

/-! ## What the iterators are to do, and when they do -/

/-- The elements of a container, as `current` returns them. -/
def Content.elements : Content T K V → List (Reply T K V)
  | vector buffer => buffer.map .element
  | hashMap m => m.nodes.map fun node => .pair node.key node.value
  | _ => []

def Content.impl? : Content T K V → Option ℕ
  | vectorIterator impl _ => some impl
  | mapIterator impl _ => some impl
  | _ => none

namespace State

variable (s : State T K V)

/-- The object has not been destroyed. -/
def Alive (o : ℕ) : Prop := ∃ obj, s.handles.heap.objects[o]? = some obj ∧ obj.alive = true

/-- What is in the object behind a handle. -/
def content? (w : ℕ) : Option (Content T K V) :=
  (s.handles.handle? w).bind fun h => h.bind fun abi => s.contents abi.object

/-- The container of the iterator behind `w` is alive, and what `current` returns is one of its elements. -/
def Accesses (w : ℕ) (call : IteratorCall) (reply : Reply T K V) : Prop :=
  ∃ c impl container, s.content? w = some c ∧ c.impl? = some impl ∧ s.Alive impl ∧ s.contents impl = some container ∧
    (call = .current → reply ∈ container.elements)

/-- **An operation as it should be**: it does what it does, or reports an error, and the calls of iterators access a
container that is alive. -/
def Proper [BEq T] [Inhabited T] [BEq K] (P : Primitives τ) (a : Step T K V) : Prop :=
  ∀ r, s.step P a = some r → (∃ e, r = .thrown e) ∨
    ∃ reply s', r = .ok (reply, s') ∧ ∀ w call, a = .iterator w call → s.Accesses w call reply

/-- What a call of an iterator needs: there is a handle of the container; the index of a vector's iterator is below the
size where `current` reads, and a map's iterator is valid, and not at the end but for `valid`. -/
def IteratorSafe (call : IteratorCall) : Content T K V → Prop
  | .vectorIterator impl index => 0 < s.handles.refs impl ∧
    (call = .current → ∀ buffer, s.contents impl = some (.vector buffer) → index.toNat < buffer.length)
  | .mapIterator impl iter => 0 < s.handles.refs impl ∧
    ∀ m, s.contents impl = some (.hashMap m) → iter.Holds m ∧ (call ≠ .valid → iter.position ≠ none)
  | _ => True

/-- **What a step has to observe.** -/
def Safe : Step T K V → Prop
  | .vector w op => ∀ buffer, s.content? w = some (.vector buffer) → op.IndexOk buffer
  | .iterator w call => ∀ c, s.content? w = some c → s.IteratorSafe call c
  | _ => True

end State

section Runs

variable [BEq T] [Inhabited T] [BEq K] (P : Primitives τ) (n : ℕ)

/-- No count overflows in the program. -/
def NoOverflow (t : List (Step T K V)) : Prop :=
  ∀ u s, u <+: t → (iterators P n).run u = some (.ok s) → s.handles.Bounded

/-- All calls of iterators in a program are as they should be. -/
def ProperRun (t : List (Step T K V)) : Prop :=
  ∀ u w call s, u ++ [.iterator w call] <+: t → (iterators P n).run u = some (.ok s) → s.Proper P (.iterator w call)

/-- All calls of iterators in a program observe what they have to. -/
def SafeRun (t : List (Step T K V)) : Prop :=
  ∀ u w call s, u ++ [.iterator w call] <+: t → (iterators P n).run u = some (.ok s) → s.Safe (.iterator w call)

end Runs

end Nessus.Abi.Iterators
