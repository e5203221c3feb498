import Nessus.Abi.Errors
import Nessus.Abi.RefCount
import Nessus.Lib.Acyclic

/-!
# The interfaces of an implementation class

`get_interfaces_recursively` over an inheritance graph of interfaces, and `query_interface`, which searches the list
that it makes.

* `InterfaceGraph` — interfaces with the ones they inherit and their GUIDs;
* `getInterfacesRecursively`, `mem_getInterfacesRecursively`, `nodup_getInterfacesRecursively` — the list of the
  interfaces of a class: those reachable from the declared ones, each once;
* `Heap.queryInterface` — the method, with the pointer it stores and the reference it adds.
-/

namespace Nessus.Abi

open Nessus.Lib Relation

variable {ι : Type}

/-! ## Tuples of types -/

section Tuple

variable [DecidableEq ι]

def tupleUniqueImpl (args : List ι) : List ι → List ι
  | [] => args
  | current :: rests =>
    if current ∈ args then tupleUniqueImpl args rests else tupleUniqueImpl (args ++ [current]) rests

def tupleUnique (args : List ι) : List ι := tupleUniqueImpl [] args

theorem mem_tupleUniqueImpl (args rests : List ι) (i : ι) : i ∈ tupleUniqueImpl args rests ↔ i ∈ args ∨ i ∈ rests := by
  induction rests generalizing args with
  | nil => simp [tupleUniqueImpl]
  | cons current rests ih =>
    rw [tupleUniqueImpl, List.mem_cons]
    split
    · next hmem =>
      rw [ih]
      constructor
      · rintro (h | h)
        · exact .inl h
        · exact .inr (.inr h)
      · rintro (h | rfl | h)
        · exact .inl h
        · exact .inl hmem
        · exact .inr h
    · rw [ih, List.mem_append, List.mem_singleton, or_assoc]

theorem nodup_tupleUniqueImpl {args : List ι} (h : args.Nodup) (rests : List ι) : (tupleUniqueImpl args rests).Nodup := by
  induction rests generalizing args with
  | nil => exact h
  | cons current rests ih =>
    rw [tupleUniqueImpl]
    split
    · exact ih h
    · next hnew =>
      refine ih (List.nodup_append.2 ⟨h, List.nodup_singleton current, fun a ha b hb => ?_⟩)
      rintro rfl
      exact hnew (List.mem_singleton.1 hb ▸ ha)

@[simp] theorem mem_tupleUnique {args : List ι} {i : ι} : i ∈ tupleUnique args ↔ i ∈ args := by
  rw [tupleUnique, mem_tupleUniqueImpl, or_iff_right (List.not_mem_nil)]

theorem nodup_tupleUnique (args : List ι) : (tupleUnique args).Nodup := nodup_tupleUniqueImpl List.nodup_nil args

end Tuple

/-! ## The inheritance graph -/

/-- Interfaces with the interfaces in their `inherits<..>` and their GUIDs. -/
structure InterfaceGraph (ι : Type) where
  inherits : ι → List ι
  guidOf : ι → Guid
  /-- A class is complete before it is inherited. -/
  acyclic : Acyclic fun base derived => base ∈ inherits derived
  /-- No two interfaces have one GUID. -/
  guidOf_injective : Function.Injective guidOf

namespace InterfaceGraph

/-- `derived` inherits `base` directly. -/
def Base (g : InterfaceGraph ι) (base derived : ι) : Prop := base ∈ g.inherits derived

/-- `packed_type`: the interfaces that those of a tuple inherit directly. -/
def packedType (g : InterfaceGraph ι) (interfaces : List ι) : List ι := interfaces.flatMap g.inherits

theorem mem_packedType (g : InterfaceGraph ι) {interfaces : List ι} {i : ι} :
    i ∈ g.packedType interfaces ↔ ∃ d ∈ interfaces, g.Base i d := List.mem_flatMap

section

variable [DecidableEq ι]

/-- `details::get_interfaces_recursively_impl`: what is inherited by the interfaces of a tuple, level by level. -/
def getInterfacesRecursivelyImpl [Finite ι] (g : InterfaceGraph ι) (interfaces : List ι) : List ι :=
  if interfaces = [] then []
  else
    tupleUnique (g.packedType interfaces ++ g.getInterfacesRecursivelyImpl (g.packedType interfaces))
termination_by depth g.Base interfaces
decreasing_by
  next hne =>
  exact depth_lt g.acyclic hne fun i hi => g.mem_packedType.1 hi

variable [Finite ι]

def getInterfacesRecursively (g : InterfaceGraph ι) (args : List ι) : List ι :=
  tupleUnique (args ++ g.getInterfacesRecursivelyImpl args)

variable (g : InterfaceGraph ι)

/-- What the levels hold is what is inherited in one or more steps. -/
theorem mem_getInterfacesRecursivelyImpl (interfaces : List ι) (i : ι) :
    i ∈ g.getInterfacesRecursivelyImpl interfaces ↔ ∃ d ∈ interfaces, TransGen g.Base i d := by
  induction interfaces using getInterfacesRecursivelyImpl.induct g with
  | case1 =>
    rw [getInterfacesRecursivelyImpl]
    simp
  | case2 interfaces hne ih =>
    rw [getInterfacesRecursivelyImpl, if_neg hne, mem_tupleUnique, List.mem_append, ih]
    constructor
    · rintro (h | ⟨b, hb, h⟩)
      · obtain ⟨d, hd, hi⟩ := g.mem_packedType.1 h
        exact ⟨d, hd, .single hi⟩
      · obtain ⟨d, hd, hbase⟩ := g.mem_packedType.1 hb
        exact ⟨d, hd, .tail h hbase⟩
    · rintro ⟨d, hd, h⟩
      cases h with
      | single hi => exact .inl (g.mem_packedType.2 ⟨d, hd, hi⟩)
      | tail h hbase => exact .inr ⟨_, g.mem_packedType.2 ⟨d, hd, hbase⟩, h⟩

/-- The interfaces of a class are those reachable from the declared ones. -/
theorem mem_getInterfacesRecursively (args : List ι) (i : ι) :
    i ∈ g.getInterfacesRecursively args ↔ ∃ d ∈ args, ReflTransGen g.Base i d := by
  rw [getInterfacesRecursively, mem_tupleUnique, List.mem_append, mem_getInterfacesRecursivelyImpl]
  constructor
  · rintro (h | ⟨d, hd, h⟩)
    · exact ⟨i, h, .refl⟩
    · exact ⟨d, hd, h.to_reflTransGen⟩
  · rintro ⟨d, hd, h⟩
    rcases reflTransGen_iff_eq_or_transGen.1 h with rfl | h
    · exact .inl hd
    · exact .inr ⟨d, hd, h⟩

theorem nodup_getInterfacesRecursively (args : List ι) : (g.getInterfacesRecursively args).Nodup := nodup_tupleUnique _

theorem getInterfacesRecursively_ne_nil {args : List ι} (h : args ≠ []) : g.getInterfacesRecursively args ≠ [] := by
  obtain ⟨d, hd⟩ := List.exists_mem_of_ne_nil args h
  exact List.ne_nil_of_mem ((g.mem_getInterfacesRecursively args d).2 ⟨d, hd, .refl⟩)

/-- The class that declares the interfaces `args`; without one, `first_interface` is ill-formed. -/
def implementation (args : List ι) (h : args ≠ []) : RefCount.Implementation where
  interfaces := (g.getInterfacesRecursively args).map g.guidOf
  nonempty := fun hnil => g.getInterfacesRecursively_ne_nil h (List.map_eq_nil_iff.1 hnil)

end

end InterfaceGraph

/-! ## Looking for a GUID -/

namespace RefCount

theorem getElem?_of_findInterfaceByGuid {c : Implementation} {id : Guid} {k : ℕ}
    (h : findInterfaceByGuid c id = some k) : c.interfaces[k]? = some id := by
  obtain ⟨⟨x, k'⟩, hlast, rfl⟩ := Option.map_eq_some_iff.1 h
  obtain ⟨hmem, hid⟩ := List.mem_filter.1 (List.mem_of_getLast? hlast)
  rw [List.mk_mem_zipIdx_iff_getElem?] at hmem
  exact hmem.trans (congrArg some (beq_iff_eq.1 hid))

theorem findInterfaceByGuid_eq_none {c : Implementation} {id : Guid} :
    findInterfaceByGuid c id = none ↔ id ∉ c.interfaces := by
  rw [findInterfaceByGuid, Option.map_eq_none_iff, List.getLast?_eq_none_iff, List.filter_eq_nil_iff]
  constructor
  · intro h hmem
    obtain ⟨k, hk⟩ := List.mem_iff_getElem?.1 hmem
    exact h (id, k) (List.mk_mem_zipIdx_iff_getElem?.2 hk) (beq_self_eq_true id)
  · rintro h ⟨x, k⟩ hmem hid
    rw [List.mk_mem_zipIdx_iff_getElem?] at hmem
    exact h (beq_iff_eq.1 hid ▸ List.mem_of_getElem? hmem)

/-! ## `query_interface` -/

/-- `query_interface` through a pointer to any interface of an object: the code, what `*object` is afterwards, and the
heap.  `object` is a null pointer, or points to what it holds before. -/
def Heap.queryInterface (heap : Heap) (abi : AbiPtr) (id : Guid) (object : Option Handle) :
    Except Fault (AbiResult × Option Handle × Heap) := do
  let obj ← heap.deref abi.object
  match object with
  | none => .ok (errorNullPointer, none, heap)
  | some _ =>
    match findInterfaceByGuid obj.implementation id with
    | some k =>
      let heap ← heap.addRef abi
      .ok (errorSuccess, some (some ⟨abi.object, k⟩), heap)
    | none =>
      -- the implementation of the first interface
      if id = Guid.unknownObject then
        let heap ← heap.addRef abi
        .ok (errorSuccess, some (some ⟨abi.object, 0⟩), heap)
      else .ok (errorNoInterface, some none, heap)

/-- The query of a handle is a call of the method. -/
theorem State.query_eq (s : State) (v : ℕ) (abi : AbiPtr) (id : Guid) :
    s.query v abi id = (s.heap.queryInterface abi id (some none)).map fun r =>
      if r.1 = errorSuccess then some { s.put v r.2.1 with heap := r.2.2 } else none := by
  unfold State.query Heap.queryInterface Implementation.query
  cases hd : s.heap.deref abi.object with
  | error e => rfl
  | ok obj =>
    have hadd (k : ℕ) : (s.put v (some (some ⟨abi.object, k⟩))).addRef (some ⟨abi.object, k⟩) =
        (s.heap.addRef abi).map fun heap => { s.put v (some (some ⟨abi.object, k⟩)) with heap } := by
      simp [State.addRef, State.put, Heap.addRef, hd, bind, Except.bind]
    simp only [bind, Except.bind]
    cases findInterfaceByGuid obj.implementation id with
    | some k =>
      simp only [hadd]
      cases s.heap.addRef abi <;> rfl
    | none =>
      by_cases hid : id = Guid.unknownObject
      · simp only [hid, if_true, hadd]
        cases s.heap.addRef abi <;> rfl
      · simp only [hid, if_false]
        rfl

/-- One more reference to the object. -/
def Heap.referenced (heap : Heap) (o : ℕ) (obj : Object) : Heap :=
  { heap with objects := heap.objects.set o { obj with refCount := obj.refCount + 1 } }

section

variable {heap : Heap} {abi : AbiPtr} {obj : Object} {id : Guid} {old : Handle}

theorem Heap.queryInterface_found (hobj : heap.deref abi.object = .ok obj) {k : ℕ}
    (h : findInterfaceByGuid obj.implementation id = some k) :
    heap.queryInterface abi id (some old) =
      .ok (errorSuccess, some (some ⟨abi.object, k⟩), heap.referenced abi.object obj) := by
  simp [queryInterface, addRef, hobj, h, bind, Except.bind, referenced]

theorem Heap.queryInterface_first (hobj : heap.deref abi.object = .ok obj)
    (h : findInterfaceByGuid obj.implementation Guid.unknownObject = none) :
    heap.queryInterface abi Guid.unknownObject (some old) =
      .ok (errorSuccess, some (some ⟨abi.object, 0⟩), heap.referenced abi.object obj) := by
  simp [queryInterface, addRef, hobj, h, bind, Except.bind, referenced]

theorem Heap.queryInterface_failed (hobj : heap.deref abi.object = .ok obj)
    (h : findInterfaceByGuid obj.implementation id = none) (hid : id ≠ Guid.unknownObject) :
    heap.queryInterface abi id (some old) = .ok (errorNoInterface, some none, heap) := by
  simp [queryInterface, hobj, h, hid, bind, Except.bind]

end

section

variable {ι : Type} [DecidableEq ι] [Finite ι] (g : InterfaceGraph ι)

/-- A live object of the class that declares the interfaces `declared`, which `abi` points to. -/
structure Heap.HasObject (heap : Heap) (abi : AbiPtr) (declared : List ι) (obj : Object) : Prop where
  deref : heap.deref abi.object = .ok obj
  interfaces : obj.implementation.interfaces = (g.getInterfacesRecursively declared).map g.guidOf

/-- What `query_interface` does with a success: it adds one reference, and stores a pointer to the vtable of the
interface whose GUID is asked for.  Where no interface has the GUID of `unknown_object`, the first one answers. -/
structure Queried (declared : List ι) (heap : Heap) (abi : AbiPtr) (obj : Object) (id : Guid) (stored : Handle)
    (heap' : Heap) : Prop where
  stored : ∃ k i, stored = some ⟨abi.object, k⟩ ∧ (g.getInterfacesRecursively declared)[k]? = some i ∧
    (g.guidOf i = id ∨ id = Guid.unknownObject ∧ k = 0 ∧ ∀ j ∈ g.getInterfacesRecursively declared, g.guidOf j ≠ id)
  reference : heap' = heap.referenced abi.object obj

variable {g} {declared : List ι} {heap : Heap} {abi : AbiPtr} {obj : Object} {id : Guid}

theorem Heap.HasObject.find_none_iff (h : heap.HasObject g abi declared obj) :
    findInterfaceByGuid obj.implementation id = none ↔ ∀ j ∈ g.getInterfacesRecursively declared, g.guidOf j ≠ id := by
  rw [findInterfaceByGuid_eq_none, h.interfaces, List.mem_map]
  simp only [not_exists, not_and, ne_eq]

theorem Heap.HasObject.find_some (h : heap.HasObject g abi declared obj) {k : ℕ}
    (hk : findInterfaceByGuid obj.implementation id = some k) :
    ∃ i, (g.getInterfacesRecursively declared)[k]? = some i ∧ g.guidOf i = id := by
  have := getElem?_of_findInterfaceByGuid hk
  rwa [h.interfaces, List.getElem?_map, Option.map_eq_some_iff] at this

theorem Heap.HasObject.first (h : heap.HasObject g abi declared obj) :
    ∃ i, (g.getInterfacesRecursively declared)[0]? = some i := by
  have hne := obj.implementation.nonempty
  rw [h.interfaces] at hne
  cases hl : g.getInterfacesRecursively declared with
  | nil => simp [hl] at hne
  | cons i l => exact ⟨i, rfl⟩

/-- Every call with a pointer to store to ends with a success or without an interface. -/
theorem Heap.HasObject.query (h : heap.HasObject g abi declared obj) (id : Guid) (old : Handle) :
    ∃ result stored heap', heap.queryInterface abi id (some old) = .ok (result, some stored, heap') ∧
      (result = errorSuccess ↔
        (∃ i ∈ g.getInterfacesRecursively declared, g.guidOf i = id) ∨ id = Guid.unknownObject) ∧
      (result = errorSuccess → Queried g declared heap abi obj id stored heap') ∧
      (result ≠ errorSuccess → result = errorNoInterface ∧ stored = none ∧ heap' = heap) := by
  cases hfind : findInterfaceByGuid obj.implementation id with
  | some k =>
    obtain ⟨i, hk, hid⟩ := h.find_some hfind
    refine ⟨_, _, _, heap.queryInterface_found h.deref hfind, ?_, fun _ => ⟨⟨k, i, rfl, hk, .inl hid⟩, rfl⟩,
      fun hno => absurd rfl hno⟩
    exact iff_of_true rfl (.inl ⟨i, List.mem_of_getElem? hk, hid⟩)
  | none =>
    have hnone := h.find_none_iff.1 hfind
    by_cases hid : id = Guid.unknownObject
    · subst hid
      obtain ⟨i, hi⟩ := h.first
      refine ⟨_, _, _, heap.queryInterface_first h.deref hfind, iff_of_true rfl (.inr rfl),
        fun _ => ⟨⟨0, i, rfl, hi, .inr ⟨rfl, rfl, hnone⟩⟩, rfl⟩, fun hno => absurd rfl hno⟩
    · refine ⟨_, _, _, heap.queryInterface_failed h.deref hfind hid, iff_of_false (by decide) ?_,
        fun hyes => absurd hyes (by decide), fun _ => ⟨rfl, rfl, rfl⟩⟩
      rintro (⟨i, hi, hi'⟩ | hu)
      · exact hnone i hi hi'
      · exact hid hu

/-- The pointer that a query for `unknown_object` stores depends on the class and the object only. -/
theorem Heap.HasObject.query_unknownObject (h : heap.HasObject g abi declared obj) (old : Handle) :
    ∃ heap', heap.queryInterface abi Guid.unknownObject (some old) =
      .ok (errorSuccess, some (some ⟨abi.object, (findInterfaceByGuid obj.implementation .unknownObject).getD 0⟩),
        heap') := by
  cases hfind : findInterfaceByGuid obj.implementation Guid.unknownObject with
  | some k => exact ⟨_, heap.queryInterface_found h.deref hfind⟩
  | none => exact ⟨_, heap.queryInterface_first h.deref hfind⟩

end

/-- **The laws of `query_interface`** for the classes over a finite acyclic inheritance graph: the list of interfaces
holds those that can be reached from the declared ones, each once; a query through any pointer to a live object succeeds
for the GUIDs of these interfaces and of `unknown_object`, and does what it should with the pointer and the count; and
all queries of one object for `unknown_object` store one pointer. -/
theorem queryInterface_laws (ι : Type) [DecidableEq ι] [Finite ι] (g : InterfaceGraph ι) (declared : List ι) :
    ((g.getInterfacesRecursively declared).Nodup ∧
      ∀ i, i ∈ g.getInterfacesRecursively declared ↔ ∃ d ∈ declared, ReflTransGen g.Base i d) ∧
    (∀ (heap : Heap) (abi : AbiPtr) (obj : Object), heap.HasObject g abi declared obj → ∀ (id : Guid) (old : Handle),
      ∃ result stored heap', heap.queryInterface abi id (some old) = .ok (result, some stored, heap') ∧
        (result = errorSuccess ↔
          (∃ i ∈ g.getInterfacesRecursively declared, g.guidOf i = id) ∨ id = Guid.unknownObject) ∧
        (result = errorSuccess → Queried g declared heap abi obj id stored heap') ∧
        (result ≠ errorSuccess → result = errorNoInterface ∧ stored = none ∧ heap' = heap)) ∧
    ∃ k, ∀ (heap : Heap) (abi : AbiPtr) (obj : Object), heap.HasObject g abi declared obj → ∀ old : Handle,
      ∃ heap', heap.queryInterface abi Guid.unknownObject (some old) =
        .ok (errorSuccess, some (some ⟨abi.object, k⟩), heap') := by
  refine ⟨⟨g.nodup_getInterfacesRecursively declared, g.mem_getInterfacesRecursively declared⟩,
    fun heap abi obj h id old => h.query id old, ?_⟩
  -- the place of the GUID in the list of the class
  let guids := (g.getInterfacesRecursively declared).map g.guidOf
  refine ⟨((guids.zipIdx.filter fun p => p.1 == Guid.unknownObject).getLast?.map (·.2)).getD 0,
    fun heap abi obj h old => ?_⟩
  have hquery := h.query_unknownObject old
  rwa [findInterfaceByGuid, h.interfaces] at hquery

/-- A class that inherits one interface on two ways. -/
def diamond : InterfaceGraph (Fin 4) where
  inherits i := if i = 3 then [1, 2] else if i = 0 then [] else [0]
  guidOf i := ⟨UInt32.ofNat i.val, 0, 0, Vector.replicate 8 0⟩
  acyclic := .of_lt (f := Fin.val) (by decide)
  guidOf_injective := by unfold Function.Injective; decide

/-- An object of the class that declares the last interface of the diamond. -/
def diamondObject : Object where
  implementation := diamond.implementation [3] (by decide)
  refCount := 1
  alive := true

theorem queryInterface_laws_diamond :
    (0 : Fin 4) ∈ diamond.getInterfacesRecursively [3] ∧
    ∃ stored heap', Heap.queryInterface ⟨[diamondObject], 1, []⟩ ⟨0, 2⟩ (diamond.guidOf 0) (some none) =
        .ok (errorSuccess, some stored, heap') ∧
      Queried diamond [3] ⟨[diamondObject], 1, []⟩ ⟨0, 2⟩ diamondObject (diamond.guidOf 0) stored heap' := by
  obtain ⟨⟨-, hmem⟩, hquery, -⟩ := queryInterface_laws (Fin 4) diamond [3]
  have hbase : (0 : Fin 4) ∈ diamond.getInterfacesRecursively [3] :=
    (hmem 0).2 ⟨3, by decide, .tail (.single (show (0 : Fin 4) ∈ diamond.inherits 1 by decide))
      (show (1 : Fin 4) ∈ diamond.inherits 3 by decide)⟩
  obtain ⟨result, stored, heap', hok, hiff, hsuccess, -⟩ := hquery ⟨[diamondObject], 1, []⟩ ⟨0, 2⟩ diamondObject
    ⟨rfl, rfl⟩ (diamond.guidOf 0) none
  obtain rfl := hiff.2 (.inl ⟨0, hbase, rfl⟩)
  exact ⟨hbase, stored, heap', hok, hsuccess rfl⟩

end RefCount

end Nessus.Abi
