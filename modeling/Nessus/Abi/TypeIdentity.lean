import Mathlib.Data.List.Nodup
import Mathlib.Data.Set.Function
import Nessus.Abi.Guid
import Nessus.Abi.Sha3

/-!
# The type identity of generic interfaces

The GUID of a generic interface is a hash of the GUID of its template and the signatures of its arguments.

* `TypeExpr` — the types that have a signature, over the declared enums, interfaces and templates;
* `TypeExpr.guidStorage`, `TypeExpr.signature` — `guid_storage` and `type_signature`;
* `Identified` — types that differ in nothing but in enums of one underlying type;
* `signature_eq_iff`, `guidStorage_eq_iff` — types have one signature exactly where they are identified, and generic
  interfaces have one GUID exactly where their template is one and their arguments are identified.
-/

set_option linter.unusedSectionVars false

namespace Nessus.Abi

open Sha3

/-! ## The bytes of a GUID -/

/-- `to_array` of a `guid`. -/
def Guid.toArray (id : Guid) : List UInt8 :=
  toArrayBigEndian 4 id.data1.toNat ++ (toArrayBigEndian 2 id.data2.toNat ++
    (toArrayBigEndian 2 id.data3.toNat ++ id.data4.toList))

@[simp] theorem Guid.length_toArray (id : Guid) : id.toArray.length = 16 := by
  simp [Guid.toArray]

theorem Guid.toArray_injective : Function.Injective Guid.toArray := by
  intro ⟨a₁, a₂, a₃, a₄⟩ ⟨b₁, b₂, b₃, b₄⟩ h
  obtain ⟨h₁, h⟩ := List.append_inj h (by simp)
  obtain ⟨h₂, h⟩ := List.append_inj h (by simp)
  obtain ⟨h₃, h₄⟩ := List.append_inj h (by simp)
  obtain rfl := UInt32.toNat_inj.1 (toArrayBigEndian_inj a₁.toNat_lt b₁.toNat_lt h₁)
  obtain rfl := UInt16.toNat_inj.1 (toArrayBigEndian_inj a₂.toNat_lt b₂.toNat_lt h₂)
  obtain rfl := UInt16.toNat_inj.1 (toArrayBigEndian_inj a₃.toNat_lt b₃.toNat_lt h₃)
  obtain rfl := Vector.toList_inj.1 h₄
  rfl

/-- `guid_root` of `create_guid_from_bytes`. -/
def guidRoot : Guid := ⟨0x2A4F92A8, 0x51D, 0x48DE, #v[0x88, 0x33, 0x78, 0x37, 0xA9, 0xD3, 0x06, 0x99]⟩

def createGuidFromBytes (data : List UInt8) : Guid :=
  let hash := hashSha3 .sha3_512 (guidRoot.toArray ++ data)
  let number (offset size : ℕ) := makeNumberBigEndian ((hash.drop offset).take size)
  ⟨UInt32.ofNat (number 0 4), UInt16.ofNat (number 4 2), UInt16.ofNat (number 6 2),
    Vector.ofFn fun i => hash.getD (8 + i.val) 0⟩

/-! ## Types -/

/-- The types of which `is_primitive_v` holds, and `param_string`; `std::intptr_t` and `std::uintptr_t` are among the
numbers. -/
inductive PrimitiveType where
  | guid
  | bool
  | int8
  | int16
  | int32
  | int64
  | uint8
  | uint16
  | uint32
  | uint64
  | float
  | double
  | paramString
  deriving DecidableEq, Repr

namespace PrimitiveType

/-- The declared `guid_storage` of a primitive type. -/
def guidStorage : PrimitiveType → Guid
  | guid => ⟨0x47534958, 0, 0, #v[0, 0, 0, 0, 0x47, 0x55, 0x49, 0x44]⟩
  | bool => ⟨0x47534958, 0, 0, #v[0, 0, 0, 0, 0x42, 0x4F, 0x4F, 0x4C]⟩
  | int8 => ⟨0x47534958, 0, 0, #v[0, 0, 0, 0, 0x49, 0x4E, 0x54, 0x38]⟩
  | int16 => ⟨0x47534958, 0, 0, #v[0, 0, 0, 0x49, 0x4E, 0x54, 0x31, 0x36]⟩
  | int32 => ⟨0x47534958, 0, 0, #v[0, 0, 0, 0x49, 0x4E, 0x54, 0x33, 0x32]⟩
  | int64 => ⟨0x47534958, 0, 0, #v[0, 0, 0, 0x49, 0x4E, 0x54, 0x36, 0x34]⟩
  | uint8 => ⟨0x47534958, 0, 0, #v[0, 0, 0, 0x55, 0x49, 0x4E, 0x54, 0x38]⟩
  | uint16 => ⟨0x47534958, 0, 0, #v[0, 0, 0x55, 0x49, 0x4E, 0x54, 0x31, 0x36]⟩
  | uint32 => ⟨0x47534958, 0, 0, #v[0, 0, 0x55, 0x49, 0x4E, 0x54, 0x33, 0x32]⟩
  | uint64 => ⟨0x47534958, 0, 0, #v[0, 0, 0x55, 0x49, 0x4E, 0x54, 0x36, 0x34]⟩
  | float => ⟨0x47534958, 0, 0, #v[0, 0, 0, 0x46, 0x4C, 0x4F, 0x41, 0x54]⟩
  | double => ⟨0x47534958, 0, 0, #v[0, 0, 0x44, 0x4F, 0x55, 0x42, 0x4C, 0x45]⟩
  | paramString => ⟨0x47534958, 0x7061, 0x7261, #v[0x06, 0x05, 0x73, 0x74, 0x72, 0x69, 0x6E, 0x67]⟩

def all : List PrimitiveType :=
  [guid, bool, int8, int16, int32, int64, uint8, uint16, uint32, uint64, float, double, paramString]

theorem mem_all (type : PrimitiveType) : type ∈ all := by
  cases type <;> decide

theorem guidStorage_injective : Function.Injective guidStorage := by
  have hnodup : (all.map guidStorage).Nodup := by decide
  intro type type' h
  exact List.inj_on_of_nodup_map hnodup (mem_all type) (mem_all type') h

/-- What the underlying type of an enum can be. -/
def IsIntegral : PrimitiveType → Prop
  | bool | int8 | int16 | int32 | int64 | uint8 | uint16 | uint32 | uint64 => True
  | guid | float | double | paramString => False

end PrimitiveType

/-- The enums, interfaces and templates of a program, with what is declared of them. -/
structure Declarations where
  Enum : Type
  Interface : Type
  Template : Type
  underlyingType : Enum → {type : PrimitiveType // type.IsIntegral}
  interfaceId : Interface → Guid
  templateId : Template → Guid

inductive TypeExpr (d : Declarations) where
  | primitive (type : PrimitiveType)
  | enumeration (name : d.Enum)
  | interface (name : d.Interface)
  | generic (name : d.Template) (args : List (TypeExpr d))

/-- `type_identity_t`. -/
inductive TypeIdentity where
  | primitive
  | interface
  | enumeration
  | genericInterface
  deriving DecidableEq, Repr

/-- `guid_primitive`, `guid_interface`, `guid_enum` and `guid_generic_interface`. -/
def TypeIdentity.guid : TypeIdentity → Guid
  | primitive => ⟨0x47534958, 0, 0x50, #v[0x52, 0x49, 0x4D, 0x49, 0x54, 0x49, 0x56, 0x45]⟩
  | interface => ⟨0x47534958, 0, 0x49, #v[0x4E, 0x54, 0x45, 0x52, 0x46, 0x41, 0x43, 0x45]⟩
  | enumeration => ⟨0x47534958, 0, 0, #v[0, 0, 0, 0, 0x45, 0x4E, 0x55, 0x4D]⟩
  | genericInterface => ⟨0x47534958, 0, 0x4749, #v[0x4E, 0x54, 0x45, 0x52, 0x46, 0x41, 0x43, 0x45]⟩

theorem TypeIdentity.guid_injective : Function.Injective TypeIdentity.guid := by
  have hnodup : ([primitive, interface, enumeration, genericInterface].map guid).Nodup := by decide
  have hmem (identity : TypeIdentity) : identity ∈ [primitive, interface, enumeration, genericInterface] := by
    cases identity <;> decide
  intro identity identity' h
  exact List.inj_on_of_nodup_map hnodup (hmem identity) (hmem identity') h

namespace TypeExpr

variable {d : Declarations}

/-- `type_identity_t` of a type. -/
def typeIdentity : TypeExpr d → TypeIdentity
  | primitive _ => .primitive
  | enumeration _ => .enumeration
  | interface _ => .interface
  | generic _ _ => .genericInterface

mutual

/-- `guid_storage`; an enum has none, and its signature takes the one of its underlying type. -/
def guidStorage : TypeExpr d → Guid
  | primitive type => type.guidStorage
  | enumeration name => (d.underlyingType name).val.guidStorage
  | interface name => d.interfaceId name
  | generic name args => createGuidFromBytes ((d.templateId name).toArray ++ signatures args)

/-- The signatures of the arguments of a template, one behind the other. -/
def signatures : List (TypeExpr d) → List UInt8
  | [] => []
  | arg :: args => arg.typeIdentity.guid.toArray ++ arg.guidStorage.toArray ++ signatures args

end

/-- `type_signature`. -/
def signature (type : TypeExpr d) : List UInt8 := type.typeIdentity.guid.toArray ++ type.guidStorage.toArray

mutual

/-- The bytes that `create_guid_from_bytes` receives for a type. -/
def received : TypeExpr d → List (List UInt8)
  | generic name args => ((d.templateId name).toArray ++ signatures args) :: receivedAll args
  | primitive _ | enumeration _ | interface _ => []

/-- The bytes that it receives for the arguments of a template. -/
def receivedAll : List (TypeExpr d) → List (List UInt8)
  | [] => []
  | arg :: args => arg.received ++ receivedAll args

end

@[simp] theorem length_signature (type : TypeExpr d) : type.signature.length = 32 := by
  rw [signature, List.length_append, Guid.length_toArray, Guid.length_toArray]

theorem signatures_cons (arg : TypeExpr d) (args : List (TypeExpr d)) :
    signatures (arg :: args) = arg.signature ++ signatures args := by
  rw [signatures, signature]

theorem length_signatures (args : List (TypeExpr d)) : (signatures args).length = 32 * args.length := by
  induction args with
  | nil => rw [signatures, List.length_nil, List.length_nil]
  | cons arg args ih =>
    rw [signatures_cons, List.length_append, length_signature, ih, List.length_cons, Nat.mul_succ, Nat.add_comm]

/-- The signatures of the arguments tell how many they are. -/
theorem length_eq_of_signatures_eq {args args' : List (TypeExpr d)} (h : signatures args = signatures args') :
    args.length = args'.length := by
  have hlength := congrArg List.length h
  rw [length_signatures, length_signatures] at hlength
  omega

/-- A signature tells the identity of the type and the GUID that is stored for it. -/
theorem signature_eq_iff_guidStorage {a b : TypeExpr d} :
    a.signature = b.signature ↔ a.typeIdentity = b.typeIdentity ∧ a.guidStorage = b.guidStorage := by
  constructor
  · intro h
    obtain ⟨hidentity, hguid⟩ := List.append_inj h (by rw [Guid.length_toArray, Guid.length_toArray])
    exact ⟨TypeIdentity.guid_injective (Guid.toArray_injective hidentity), Guid.toArray_injective hguid⟩
  · rintro ⟨hidentity, hguid⟩
    rw [signature, signature, hidentity, hguid]

/-- Types that differ in nothing but in enums of one underlying type. -/
inductive Identified : TypeExpr d → TypeExpr d → Prop
  | primitive (type : PrimitiveType) : Identified (.primitive type) (.primitive type)
  | enumeration {name name' : d.Enum} (h : d.underlyingType name = d.underlyingType name') :
    Identified (.enumeration name) (.enumeration name')
  | interface (name : d.Interface) : Identified (.interface name) (.interface name)
  | generic (name : d.Template) {args args' : List (TypeExpr d)} (h : List.Forall₂ Identified args args') :
    Identified (.generic name args) (.generic name args')

theorem identified_generic_iff {name name' : d.Template} {args args' : List (TypeExpr d)} :
    Identified (.generic name args) (.generic name' args') ↔ name = name' ∧ List.Forall₂ Identified args args' := by
  constructor
  · intro h
    cases h with
    | generic _ h => exact ⟨rfl, h⟩
  · rintro ⟨rfl, h⟩
    exact .generic _ h

theorem Identified.typeIdentity_eq {a b : TypeExpr d} (h : Identified a b) : a.typeIdentity = b.typeIdentity := by
  cases h <;> rfl

theorem receivedAll_cons (arg : TypeExpr d) (args : List (TypeExpr d)) :
    receivedAll (arg :: args) = arg.received ++ receivedAll args := by rw [receivedAll]

theorem received_generic (name : d.Template) (args : List (TypeExpr d)) :
    (generic name args).received = ((d.templateId name).toArray ++ signatures args) :: receivedAll args := by
  rw [received]

/-- Types of two kinds have two signatures, and are not identified. -/
theorem signature_eq_iff_of_ne {a b : TypeExpr d} (h : a.typeIdentity ≠ b.typeIdentity) :
    a.signature = b.signature ↔ Identified a b := by
  rw [signature_eq_iff_guidStorage]
  apply iff_of_false
  · rintro ⟨hidentity, -⟩
    exact h hidentity
  · intro hab
    exact h hab.typeIdentity_eq

theorem signature_primitive_eq_iff (type : PrimitiveType) (b : TypeExpr d) :
    signature (d := d) (.primitive type) = b.signature ↔ Identified (.primitive type) b := by
  cases b with
  | primitive type' =>
    rw [signature_eq_iff_guidStorage, guidStorage, guidStorage]
    constructor
    · rintro ⟨-, hguid⟩
      rw [PrimitiveType.guidStorage_injective hguid]
      exact .primitive type'
    · intro h
      cases h
      exact ⟨rfl, rfl⟩
  | _ => exact signature_eq_iff_of_ne (by simp [typeIdentity])

theorem signature_enumeration_eq_iff (name : d.Enum) (b : TypeExpr d) :
    (enumeration name).signature = b.signature ↔ Identified (enumeration name) b := by
  cases b with
  | enumeration name' =>
    rw [signature_eq_iff_guidStorage, guidStorage, guidStorage]
    constructor
    · rintro ⟨-, hguid⟩
      exact .enumeration (Subtype.ext (PrimitiveType.guidStorage_injective hguid))
    · intro h
      cases h with
      | enumeration h => exact ⟨rfl, by rw [h]⟩
  | _ => exact signature_eq_iff_of_ne (by simp [typeIdentity])

theorem signature_interface_eq_iff (hinterface : Function.Injective d.interfaceId) (name : d.Interface) (b : TypeExpr d) :
    (interface name).signature = b.signature ↔ Identified (interface name) b := by
  cases b with
  | interface name' =>
    rw [signature_eq_iff_guidStorage, guidStorage, guidStorage]
    constructor
    · rintro ⟨-, hguid⟩
      rw [hinterface hguid]
      exact .interface name'
    · intro h
      cases h
      exact ⟨rfl, rfl⟩
  | _ => exact signature_eq_iff_of_ne (by simp [typeIdentity])

section Injective

/-! The ids of the interfaces are distinct, those of the templates are distinct, and `create_guid_from_bytes` is
injective on the bytes that it receives. -/

variable (hinterface : Function.Injective d.interfaceId) (htemplate : Function.Injective d.templateId)
  {S : Set (List UInt8)} (hcreate : Set.InjOn createGuidFromBytes S)

include htemplate hcreate

/-- The bytes of a generic interface tell its template and the signatures of its arguments. -/
theorem guidStorage_generic_iff {name name' : d.Template} {args args' : List (TypeExpr d)}
    (h : ∀ bytes ∈ (generic name args).received, bytes ∈ S) (h' : ∀ bytes ∈ (generic name' args').received, bytes ∈ S) :
    (generic name args).guidStorage = (generic name' args').guidStorage ↔
      name = name' ∧ signatures args = signatures args' := by
  rw [received_generic] at h h'
  rw [guidStorage, guidStorage]
  constructor
  · intro hguid
    have hbytes := hcreate (h _ List.mem_cons_self) (h' _ List.mem_cons_self) hguid
    obtain ⟨hname, hargs⟩ := List.append_inj hbytes (by rw [Guid.length_toArray, Guid.length_toArray])
    exact ⟨htemplate (Guid.toArray_injective hname), hargs⟩
  · rintro ⟨rfl, hargs⟩
    rw [hargs]

include hinterface

mutual

/-- **Two types have one signature exactly where they are identified.** -/
theorem signature_eq_iff (a b : TypeExpr d) (ha : ∀ bytes ∈ a.received, bytes ∈ S) (hb : ∀ bytes ∈ b.received, bytes ∈ S) :
    a.signature = b.signature ↔ Identified a b := by
  match a, b with
  | .primitive type, b => exact signature_primitive_eq_iff type b
  | .enumeration name, b => exact signature_enumeration_eq_iff name b
  | .interface name, b => exact signature_interface_eq_iff hinterface name b
  | .generic name args, .generic name' args' =>
    rw [signature_eq_iff_guidStorage, guidStorage_generic_iff htemplate hcreate ha hb, identified_generic_iff]
    rw [received_generic] at ha hb
    have hargs := signatures_eq_iff args args' (fun _ h => ha _ (List.mem_cons_of_mem _ h))
      fun _ h => hb _ (List.mem_cons_of_mem _ h)
    rw [hargs]
    exact and_iff_right rfl
  | .generic _ _, .primitive _ | .generic _ _, .enumeration _ | .generic _ _, .interface _ =>
    exact signature_eq_iff_of_ne (by simp [typeIdentity])

/-- The arguments of two templates have one signature exactly where they are identified one by one. -/
theorem signatures_eq_iff (args args' : List (TypeExpr d)) (h : ∀ bytes ∈ receivedAll args, bytes ∈ S)
    (h' : ∀ bytes ∈ receivedAll args', bytes ∈ S) :
    signatures args = signatures args' ↔ List.Forall₂ Identified args args' := by
  match args, args' with
  | [], [] => exact iff_of_true rfl .nil
  | [], _ :: _ | _ :: _, [] =>
    apply iff_of_false
    · intro heq
      exact absurd (length_eq_of_signatures_eq heq) (by simp)
    · intro hargs
      exact absurd hargs.length_eq (by simp)
  | arg :: args, arg' :: args' =>
    rw [receivedAll_cons] at h h'
    have hlength : arg.signature.length = arg'.signature.length := by rw [length_signature, length_signature]
    rw [signatures_cons, signatures_cons, List.forall₂_cons, ← signature_eq_iff arg arg'
      (fun _ hmem => h _ (List.mem_append_left _ hmem)) (fun _ hmem => h' _ (List.mem_append_left _ hmem)),
      ← signatures_eq_iff args args' (fun _ hmem => h _ (List.mem_append_right _ hmem))
      (fun _ hmem => h' _ (List.mem_append_right _ hmem))]
    constructor
    · intro heq
      exact List.append_inj heq hlength
    · rintro ⟨harg, hargs⟩
      rw [harg, hargs]

end

end Injective

/-- **The GUIDs of generic interfaces**: two are equal exactly where the template is the same and the arguments are as
many and identified one by one.  The ids of the interfaces are distinct, those of the templates are distinct, and
`create_guid_from_bytes` is injective on the bytes `S` that it receives. -/
theorem guidStorage_eq_iff (hinterface : Function.Injective d.interfaceId) (htemplate : Function.Injective d.templateId)
    {S : Set (List UInt8)} (hcreate : Set.InjOn createGuidFromBytes S) {name name' : d.Template}
    {args args' : List (TypeExpr d)} (h : ∀ bytes ∈ (generic name args).received, bytes ∈ S)
    (h' : ∀ bytes ∈ (generic name' args').received, bytes ∈ S) :
    (generic name args).guidStorage = (generic name' args').guidStorage ↔
      name = name' ∧ args.length = args'.length ∧ List.Forall₂ Identified args args' := by
  rw [guidStorage_generic_iff htemplate hcreate h h']
  rw [received_generic] at h h'
  rw [signatures_eq_iff hinterface htemplate hcreate args args' (fun _ hmem => h _ (List.mem_cons_of_mem _ hmem))
    fun _ hmem => h' _ (List.mem_cons_of_mem _ hmem)]
  constructor
  · rintro ⟨hname, hargs⟩
    exact ⟨hname, hargs.length_eq, hargs⟩
  · rintro ⟨hname, -, hargs⟩
    exact ⟨hname, hargs⟩

/-- Two enums of `std::int32_t`, `unknown_object` and `abi_class_factory`, and `param_vector` and `param_span`. -/
abbrev someDeclarations : Declarations where
  Enum := Bool
  Interface := Bool
  Template := Bool
  underlyingType _ := ⟨.int32, trivial⟩
  interfaceId
    | false => .unknownObject
    | true => ⟨0xDCE95478, 0xE317, 0x43C2, #v[0xB5, 0xE2, 0x42, 0xDB, 0x0E, 0xCD, 0x4B, 0xD5]⟩
  templateId
    | false => ⟨0xDCB2A5A5, 0x1D17, 0x4E0A, #v[0x83, 0xC2, 0x64, 0x09, 0x12, 0xAE, 0xCD, 0x25]⟩
    | true => ⟨0x4BBC2561, 0x97C4, 0x4C12, #v[0xA4, 0x13, 0x76, 0x36, 0xDB, 0xCD, 0x70, 0xF9]⟩

/-- The bytes for a vector of an enum, and those for a span of an interface. -/
def someBytes : Set (List UInt8) :=
  {(someDeclarations.templateId false).toArray ++ signatures [.enumeration (d := someDeclarations) false],
    (someDeclarations.templateId true).toArray ++ signatures [.interface (d := someDeclarations) true]}

theorem createGuidFromBytes_injOn : Set.InjOn createGuidFromBytes someBytes := by
  refine Set.injOn_pair.2 fun h => absurd h ?_
  decide +kernel

/-- Vectors of two enums have one GUID, and a vector of an enum and a span of an interface have two. -/
theorem guidStorage_eq_iff_vector :
    (generic (d := someDeclarations) false [.enumeration false]).guidStorage =
        (generic (d := someDeclarations) false [.enumeration true]).guidStorage ∧
      (generic (d := someDeclarations) false [.enumeration false]).guidStorage ≠
        (generic (d := someDeclarations) true [.interface true]).guidStorage := by
  have hinterface : Function.Injective someDeclarations.interfaceId := by
    have hall : ∀ a b : Bool, someDeclarations.interfaceId a = someDeclarations.interfaceId b → a = b := by decide
    exact fun a b => hall a b
  have htemplate : Function.Injective someDeclarations.templateId := by
    have hall : ∀ a b : Bool, someDeclarations.templateId a = someDeclarations.templateId b → a = b := by decide
    exact fun a b => hall a b
  have hvector (name : someDeclarations.Enum) :
      ∀ bytes ∈ (generic (d := someDeclarations) false [.enumeration name]).received, bytes ∈ someBytes := by
    intro bytes hmem
    rw [received_generic] at hmem
    exact .inl (List.mem_singleton.1 hmem)
  have hspan : ∀ bytes ∈ (generic (d := someDeclarations) true [.interface true]).received, bytes ∈ someBytes := by
    intro bytes hmem
    rw [received_generic] at hmem
    exact .inr (List.mem_singleton.1 hmem)
  constructor
  · exact (guidStorage_eq_iff hinterface htemplate createGuidFromBytes_injOn (hvector false) (hvector true)).2
      ⟨rfl, rfl, .cons (.enumeration rfl) .nil⟩
  · intro h
    have hname := (guidStorage_eq_iff hinterface htemplate createGuidFromBytes_injOn (hvector false) hspan).1 h
    exact absurd hname.1 (by decide)

end TypeExpr

end Nessus.Abi
