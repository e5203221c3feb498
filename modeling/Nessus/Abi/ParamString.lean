import Mathlib.Logic.Function.Basic
import Nessus.Lib.Count
import Nessus.Lib.Machine
import Nessus.Lib.Outcome

/-!
# Strings

`param_string` and `basic_param_string`, whose variables hold handles of buffers that are shared by counting references.

* `Allocations` — the functions that create, share and free the buffers, and `Allocations.Lawful`, what the two classes
  rely on;
* `State`, `Op`, `exec` — the variables, the raw references that have been detached and not yet taken over, and the
  operations on them;
* `program` — a program is a run of the machine; to share, free or read a buffer without a reference is undefined.

Construction, assignment, `clear` and the destructor have the same bodies in both classes.
-/

namespace Nessus.Abi.ParamString

open Nessus.Lib

/-! ## Buffers -/

/-- `param_string_handle`: null or the address of a buffer. -/
abbrev Handle := Option ℕ

/-- The functions of `glasssix::exposing::allocations` on a memory. -/
structure Allocations (μ : Type) where
  /-- The reference count of the buffer at an address, and zero where there is no buffer. -/
  refCount : μ → ℕ → ℕ
  /-- `get_param_string_data` and `get_param_string_size`. -/
  text : μ → ℕ → String
  createParamString : μ → String → μ × Handle
  createParamStringRef : μ → Handle → μ × Handle
  freeParamString : μ → ℕ → μ

variable {μ : Type}

/-- The buffers that have references before and after have the same text. -/
def Allocations.Keeps (A : Allocations μ) (m m' : μ) : Prop :=
  ∀ p, 0 < A.refCount m p → 0 < A.refCount m' p → A.text m' p = A.text m p

/-- `create_param_string_ref` adds a reference, `free_param_string` drops one, and a buffer without references is
freed: its address may be used for a new one. -/
structure Allocations.Lawful (A : Allocations μ) : Prop where
  create (m : μ) (text : String) : A.Keeps m (A.createParamString m text).1 ∧
    match (A.createParamString m text).2 with
    | none => ∀ p, A.refCount (A.createParamString m text).1 p = A.refCount m p
    | some q => A.refCount m q = 0 ∧ A.text (A.createParamString m text).1 q = text ∧
      ∀ p, A.refCount (A.createParamString m text).1 p = A.refCount m p + if q = p then 1 else 0
  ref_null (m : μ) : A.createParamStringRef m none = (m, none)
  ref (m : μ) (q : ℕ) : 0 < A.refCount m q → (A.createParamStringRef m (some q)).2 = some q ∧
    A.Keeps m (A.createParamStringRef m (some q)).1 ∧
    ∀ p, A.refCount (A.createParamStringRef m (some q)).1 p = A.refCount m p + if q = p then 1 else 0
  free (m : μ) (q : ℕ) : 0 < A.refCount m q → A.Keeps m (A.freeParamString m q) ∧
    ∀ p, A.refCount (A.freeParamString m q) p + (if q = p then 1 else 0) = A.refCount m p

/-! ## Variables -/

inductive StringClass where
  | basicParamString
  | paramString
  deriving DecidableEq, Repr

/-- `vars` has a slot for each variable, which is empty before the construction and after the destruction. -/
structure State (μ : Type) where
  memory : μ
  vars : List (Option Handle)
  /-- The references that have been detached and not yet taken over. -/
  raw : List ℕ
  /-- The buffers that have been created, by their addresses. -/
  created : List ℕ
  /-- The buffers that have been freed. -/
  freed : List ℕ
  deriving DecidableEq, Repr

/-- A handle that is only read: null, the one a variable holds (`get_abi`), or a detached one. -/
inductive Borrowed where
  | null
  | handle (w : ℕ)
  | detached (p : ℕ)
  deriving DecidableEq, Repr

/-- The operations.  `v` is the variable constructed or changed, `w` the argument. -/
inductive Op where
  | constructNull (v : ℕ)
  | constructText (v : ℕ) (text : String)
  | constructTakeOver (v : ℕ) (raw : Handle)
  /-- `param_string(const basic_param_string&)`. -/
  | constructBasic (v w : ℕ)
  | constructCopy (v w : ℕ)
  | constructMove (v w : ℕ)
  | assignCopy (v w : ℕ)
  | assignMove (v w : ℕ)
  | clear (v : ℕ)
  /-- `put_abi`, and what is written through the pointer: nothing, or a detached reference. -/
  | putAbi (v : ℕ) (out : Handle)
  | detachAbi (v : ℕ)
  | createFromAbi (v : ℕ) (source : Borrowed)
  | destruct (v : ℕ)
  deriving DecidableEq, Repr

namespace State

/-- The member `handle_` of a variable that exists. -/
def handle? (s : State μ) (v : ℕ) : Option Handle := s.vars[v]?.join

/-- The slot of a variable is empty. -/
def free (s : State μ) (v : ℕ) : Bool := s.vars[v]? == some none

/-- Writes the member `handle_`, or constructs or destroys the variable around it. -/
def put (s : State μ) (v : ℕ) (x : Option Handle) : State μ := { s with vars := s.vars.set v x }

/-- The value of a borrowed handle. -/
def borrow (s : State μ) : Borrowed → Option Handle
  | .null => some none
  | .handle w => s.handle? w
  | .detached p => if p ∈ s.raw then some (some p) else none

/-- The reference has been detached, if it is one. -/
def owns (s : State μ) (raw : Handle) : Bool := raw.all (s.raw.contains ·)

/-- A raw reference is handed over, if it is one. -/
def take (s : State μ) (raw : Handle) : State μ := { s with raw := raw.elim s.raw s.raw.erase }

variable (A : Allocations μ)

/-- `create_param_string`. -/
def createString (s : State μ) (text : String) : State μ × Handle :=
  let (memory, handle) := A.createParamString s.memory text
  ({ s with memory, created := s.created ++ handle.toList }, handle)

/-- `create_param_string_ref`. -/
def createRef (s : State μ) (handle : Handle) : Outcome Empty (State μ × Handle) :=
  if handle.any (A.refCount s.memory · == 0) then .undefined
  else
    let (memory, handle) := A.createParamStringRef s.memory handle
    .ok ({ s with memory }, handle)

def clear (s : State μ) (v : ℕ) : Outcome Empty (State μ) :=
  match s.handle? v with
  | some (some p) =>
    if A.refCount s.memory p = 0 then .undefined
    else
      let memory := A.freeParamString s.memory p
      let freed := if A.refCount memory p = 0 then s.freed ++ [p] else s.freed
      .ok { s.put v (some none) with memory, freed }
  | _ => .ok s

/-- The copy constructor, and the constructors that share the buffer of a handle. -/
def constructRef (s : State μ) (v : ℕ) (handle : Handle) : Outcome Empty (State μ) := do
  let (s, handle) ← s.createRef A handle
  .ok (s.put v (some handle))

/-- `operator=(const param_string& right)`: the right side is read after `clear`. -/
def assignCopy (s : State μ) (v w : ℕ) : Outcome Empty (State μ) := do
  let s ← s.clear A v
  s.constructRef A v (s.handle? w).join

/-- `operator=(param_string&& right)`. -/
def assignMove (s : State μ) (v w : ℕ) : Outcome Empty (State μ) := do
  let s ← s.clear A v
  .ok ((s.put w (some none)).put v (some (s.handle? w).join))

end State

/-- One operation; `none` where no program can perform it in the state (a variable that does not exist, or of another
class; a reference that has not been detached). -/
def exec (A : Allocations μ) (classes : ℕ → StringClass) (s : State μ) : Op → Option (Outcome Empty (State μ))
  | .constructNull v => if s.free v then some (.ok (s.put v (some none))) else none
  | .constructText v text =>
    if s.free v then
      let (s, handle) := s.createString A text
      some (.ok (s.put v (some handle)))
    else none
  | .constructTakeOver v raw =>
    if s.free v ∧ s.owns raw then some (.ok ((s.take raw).put v (some raw))) else none
  | .constructBasic v w => do
    let handle ← s.handle? w
    if s.free v ∧ classes v = .paramString ∧ classes w = .basicParamString then some (s.constructRef A v handle)
    else none
  | .constructCopy v w => do
    let handle ← s.handle? w
    if s.free v ∧ classes v = classes w then some (s.constructRef A v handle) else none
  | .constructMove v w => do
    let handle ← s.handle? w
    if s.free v ∧ classes v = classes w then some (.ok ((s.put w (some none)).put v (some handle))) else none
  | .assignCopy v w => do
    let _ ← s.handle? v
    let _ ← s.handle? w
    if classes v = classes w then some (s.assignCopy A v w) else none
  | .assignMove v w => do
    let _ ← s.handle? v
    let _ ← s.handle? w
    if classes v = classes w then some (s.assignMove A v w) else none
  | .clear v => do
    let _ ← s.handle? v
    some (s.clear A v)
  | .putAbi v out => do
    let _ ← s.handle? v
    if s.owns out then some (s.clear A v >>= fun s => .ok ((s.take out).put v (some out))) else none
  | .detachAbi v => do
    let handle ← s.handle? v
    some (.ok ({ s with raw := s.raw ++ handle.toList }.put v (some none)))
  | .createFromAbi v source => do
    let handle ← s.borrow source
    if s.free v then some (s.constructRef A v handle) else none
  | .destruct v => do
    let _ ← s.handle? v
    some (s.clear A v >>= fun s => .ok (s.put v none))

/-- The programs over `n` variables of these classes, from a memory. -/
def program (A : Allocations μ) (classes : ℕ → StringClass) (n : ℕ) (memory : μ) :
    Machine (Outcome Empty (State μ)) Op where
  init := .ok ⟨memory, List.replicate n none, [], [], []⟩
  step
    | .ok s, op => exec A classes s op
    | _, _ => none

/-! ## What the strings are for -/

/-- The variable holds a reference to the buffer. -/
def holds (p : ℕ) (x : Option Handle) : Bool := x.join == some p

/-- The references to a buffer: the variables that hold it and the detached ones. -/
def State.refs (s : State μ) (p : ℕ) : ℕ := s.vars.countP (holds p) + s.raw.count p

/-- **The counting invariant.** -/
structure Counted (A : Allocations μ) (s : State μ) : Prop where
  /-- The count of a buffer is the number of references to it. -/
  refs : ∀ p, A.refCount s.memory p = s.refs p
  /-- A buffer that has been created is freed once, when the last reference is gone. -/
  freed : ∀ p, s.created.count p = s.freed.count p + if 0 < s.refs p then 1 else 0

/-- A string: null or a text. -/
abbrev Value := Option String

/-- The strings of variables, where the buffers have these texts. -/
def readsIn (text : ℕ → String) (vars : List (Option Handle)) (v : ℕ) : Option Value :=
  vars[v]?.join.map fun handle => handle.map text

def State.reads (A : Allocations μ) (s : State μ) : ℕ → Option Value := readsIn (A.text s.memory) s.vars

/-- What the variables read as after an operation, if strings are immutable values. -/
def expected (A : Allocations μ) (s : State μ) : Op → ℕ → Option Value
  | .constructNull v => Function.update (s.reads A) v (some none)
  | .constructText v text =>
    Function.update (s.reads A) v (some ((A.createParamString s.memory text).2.map fun _ => text))
  | .constructTakeOver v raw | .putAbi v raw => Function.update (s.reads A) v (some (raw.map (A.text s.memory)))
  | .constructBasic v w | .constructCopy v w | .assignCopy v w => Function.update (s.reads A) v (s.reads A w)
  | .constructMove v w | .assignMove v w =>
    Function.update (Function.update (s.reads A) w (some none)) v (s.reads A w)
  | .clear v | .detachAbi v => Function.update (s.reads A) v (some none)
  | .createFromAbi v source =>
    Function.update (s.reads A) v ((s.borrow source).map fun handle => handle.map (A.text s.memory))
  | .destruct v => Function.update (s.reads A) v none

/-- After every operation of a run, the variables read as they would if strings were immutable values, and the texts of
the buffers that are still there have not changed. -/
def Values (A : Allocations μ) (M : Machine (Outcome Empty (State μ)) Op) (t : List Op) : Prop :=
  ∀ t₁ op t₂ s s', t = t₁ ++ op :: t₂ → M.run t₁ = some (.ok s) → M.run (t₁ ++ [op]) = some (.ok s') →
    s'.reads A = expected A s op ∧ A.Keeps s.memory s'.memory

/-- The operation assigns a variable that is not null to itself. -/
def SelfAssigns (s : State μ) : Op → Prop
  | .assignCopy v w | .assignMove v w => v = w ∧ s.handle? v ≠ some none
  | _ => False

/-- No operation of a run assigns a variable that is not null to itself. -/
def NoSelfAssignment (M : Machine (Outcome Empty (State μ)) Op) (t : List Op) : Prop :=
  ∀ t₁ op t₂ s, t = t₁ ++ op :: t₂ → M.run t₁ = some (.ok s) → ¬ SelfAssigns s op

end Nessus.Abi.ParamString
