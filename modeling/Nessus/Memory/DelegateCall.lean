import Mathlib.Logic.Function.Iterate
import Mathlib.Data.List.Basic
import Nessus.Lib.Machine
import Nessus.Lib.Outcome

/-!
# Calls of delegates

`delegate::operator()`: a loop over a copy of the listeners, which ends with an empty function, and forwards the
arguments to each of them.  A delegate can be called like the functions, so that `+=` takes it for one unless it is
`const`: its copy becomes a single listener.

* `Signature` — what is known of `Result`, `Args...` and the callables;
* `Function`, `Delegate` — the functions and the members of a delegate;
* `Function.call`, `callBuffer` — the calls, with a record of the callables invoked;
* `State`, `Step`, `step` — the operations on the delegates of a program;
* `Delegate.Delivers`, `Delegate.Sound` — what a call is to do, and when it does.
-/

namespace Nessus.Memory.DelegateCall

open Nessus.Lib

/-- A parameter is copied from an lvalue and moved from an rvalue.  An argument of another type, which is converted and
stays as it is, is like an lvalue. -/
inductive ValueCategory where
  | lvalue
  | rvalue
  deriving DecidableEq, Repr

/-- The template arguments, and what the callables do. -/
structure Signature where
  /-- The parameters that are no references. -/
  ι : Type
  Value : ι → Type
  /-- The arguments of the other parameters: what objects they refer to. -/
  References : Type
  /-- The values of these objects. -/
  Contents : Type
  Target : Type
  Result : Type
  Exception : Type
  /-- The rest of the program. -/
  World : Type
  /-- What is left of a value that has been moved. -/
  moved : (i : ι) → Value i → Value i
  contents : References → World → Contents
  /-- A callable returns or throws. -/
  call : Target → ((i : ι) → Value i) → References → World → Except Exception Result × World
  /-- `Result{}`. -/
  zero : Result

/-- `std::function<Result(Args...)>`. -/
inductive Function (F : Type) where
  | empty
  | target (f : F)
  /-- The copy of a delegate: nothing removes its listeners, and only `operator()` is called. -/
  | delegate (listeners readableBuffer : List (Function F))

structure Delegate (F : Type) where
  listeners : List (UInt64 × Function F)
  /-- The array, and no elements where the pointer is null. -/
  readableBuffer : List (Function F)

/-- `operator bool`. -/
def Function.toBool {F : Type} : Function F → Bool
  | empty => false
  | _ => true

namespace Delegate

variable {F : Type} (x : Delegate F)

def functions : List (Function F) := x.listeners.map (·.2)

def updateReadableBuffer : Delegate F := { x with readableBuffer := x.functions ++ [.empty] }

/-- `add_listener`; the id is the value of `global_counter_`. -/
def addListener (id : UInt64) (handler : Function F) : Delegate F :=
  { x with listeners := x.listeners ++ [(id, handler)] }

def removeListener (id : UInt64) : Delegate F :=
  if x.listeners.any (·.1 == id) then
    { x with listeners := x.listeners.eraseP (·.1 == id) }.updateReadableBuffer
  else x

def toFunction : Function F := .delegate x.functions x.readableBuffer

/-- What is left of a delegate that has been moved. -/
def moved : Delegate F := ⟨[], []⟩

end Delegate

variable (S : Signature)

structure Arguments where
  values : (i : S.ι) → S.Value i
  references : S.References

/-- What is recorded of the call of a callable: its arguments and the values of the objects they refer to. -/
structure Invocation where
  target : S.Target
  args : Arguments S
  contents : S.Contents
  result : Except S.Exception S.Result

/-- The arguments as objects, which a call may move from. -/
structure CallState where
  args : Arguments S
  world : S.World
  log : List (Invocation S)

/-- What a call of a function throws. -/
inductive Thrown (E : Type) where
  /-- `std::bad_function_call`. -/
  | badFunctionCall
  /-- The exception of a callable. -/
  | exception (e : E)
  deriving DecidableEq, Repr

variable {S}

/-- The evaluation of a call: what the callables have done before an exception has been done. -/
abbrev Call (S : Signature) : Type := Eff (CallState S) (Thrown S.Exception) S.Result

/-- How a call of a callable ends. -/
def Invocation.outcome (inv : Invocation S) : Outcome (Thrown S.Exception) S.Result :=
  match inv.result with
  | .ok result => .ok result
  | .error e => .thrown (.exception e)

/-- The arguments after they have been forwarded to one callable. -/
def Arguments.forwarded (cat : S.ι → ValueCategory) (args : Arguments S) : Arguments S :=
  { args with values := fun i =>
      match cat i with
      | .lvalue => args.values i
      | .rvalue => S.moved i (args.values i) }

def invocation (f : S.Target) (args : Arguments S) (w : S.World) : Invocation S :=
  ⟨f, args, S.contents args.references w, (S.call f args.values args.references w).1⟩

/-- The rest of the program after the call. -/
def worldOf (f : S.Target) (args : Arguments S) (w : S.World) : S.World := (S.call f args.values args.references w).2

mutual

/-- `std::function::operator()`; the function forwards its parameters, which are rvalues then. -/
def Function.call (cat : S.ι → ValueCategory) : Function S.Target → Call S
  | .empty => Eff.throw .badFunctionCall
  | .target f => fun s =>
    (⟨s.args.forwarded cat, worldOf f s.args s.world, s.log ++ [invocation f s.args s.world]⟩,
      (invocation f s.args s.world).outcome)
  | .delegate _ readableBuffer => fun s =>
    let r := callBuffer (fun _ => .rvalue) readableBuffer S.zero s
    ({ r.1 with args := s.args.forwarded cat }, r.2)

/-- The loop of `delegate::operator()`, from an element on. -/
def callBuffer (cat : S.ι → ValueCategory) : List (Function S.Target) → S.Result → Call S
  | [], _ => fun s => (s, .undefined)
  | fn :: fns, result => if fn.toBool then fn.call cat >>= fun result => callBuffer cat fns result else pure result

end

/-- `operator()`. -/
def Delegate.call (x : Delegate S.Target) (cat : S.ι → ValueCategory) (args : Arguments S) (w : S.World) :
    CallState S × Outcome (Thrown S.Exception) S.Result :=
  callBuffer cat x.readableBuffer S.zero ⟨args, w, []⟩

/-! ## Programs -/

/-- How a delegate is named in an expression. -/
inductive DelegateExpr where
  | constLvalue
  | lvalue
  | rvalue
  deriving DecidableEq, Repr

/-- What is added to a delegate: something that converts to a function, which may be empty, or the delegate `e`. -/
inductive Callable (F : Type) where
  | function (f : Option F)
  | delegate (e : ℕ) (expr : DelegateExpr)
  deriving DecidableEq, Repr

/-- The delegates in order of construction, and the rest of the program. -/
structure State (S : Signature) where
  delegates : List (Delegate S.Target)
  globalCounter : UInt64
  world : S.World

/-- The operations on the delegate `d`. -/
inductive Step (S : Signature) where
  | construct
  /-- `operator+=`. -/
  | add (d : ℕ) (right : Callable S.Target)
  | addListenerAutoRemoval (d : ℕ) (handler : Callable S.Target)
  /-- Also what a token does when it is cleared. -/
  | removeListener (d : ℕ) (id : UInt64)
  /-- `operator()`. -/
  | call (d : ℕ) (cat : S.ι → ValueCategory) (args : Arguments S)

namespace State

def put (s : State S) (d : ℕ) (x : Delegate S.Target) : State S := { s with delegates := s.delegates.set d x }

/-- `add_listener` for each of the functions, and `update_readable_buffer`. -/
def addListeners (s : State S) (d : ℕ) (x : Delegate S.Target) : List (Function S.Target) → State S
  | [] => s.put d x.updateReadableBuffer
  | fn :: fns =>
    { s with globalCounter := s.globalCounter + 1 }.addListeners d (x.addListener s.globalCounter fn) fns

/-- `add_listener_with_updating`.  A delegate that is moved into its own vector is gone before the vector has made room
for it. -/
def addWithUpdating (s : State S) (d : ℕ) (x : Delegate S.Target) :
    Callable S.Target → Option (Outcome Empty (State S))
  | .function none => some (.ok (s.addListeners d x [.empty]))
  | .function (some f) => some (.ok (s.addListeners d x [.target f]))
  | .delegate e .rvalue => s.delegates[e]?.map fun y =>
    if d = e then .undefined else .ok ((s.put e .moved).addListeners d x [y.toFunction])
  | .delegate e _ => s.delegates[e]?.map fun y => .ok (s.addListeners d x [y.toFunction])

/-- `operator+=`: the overload for delegates takes those that are `const`, all others are callables.  It adds to the
vector that it goes through where `right` is the delegate itself: the iterators are invalid after the first element. -/
def add (s : State S) (d : ℕ) (x : Delegate S.Target) :
    Callable S.Target → Option (Outcome Empty (State S))
  | .delegate e .constLvalue => s.delegates[e]?.map fun y =>
    if d = e ∧ y.listeners ≠ [] then .undefined else .ok (s.addListeners d x y.functions)
  | right => s.addWithUpdating d x right

/-- The program after a call: it goes on where the call returns, and where it catches what the call throws. -/
def afterCall (s : State S) (c : CallState S) : Outcome (Thrown S.Exception) S.Result → Outcome Empty (State S)
  | .ok _ => .ok { s with world := c.world }
  | .thrown _ => .ok { s with world := c.world }
  | .terminated => .terminated
  | .undefined => .undefined

/-- One operation; `none` where there is no such delegate. -/
def step (s : State S) : Step S → Option (Outcome Empty (State S))
  | .construct => some (.ok { s with delegates := s.delegates ++ [(Delegate.mk [] []).updateReadableBuffer] })
  | .add d right => s.delegates[d]?.bind fun x => s.add d x right
  | .addListenerAutoRemoval d handler => s.delegates[d]?.bind fun x => s.addWithUpdating d x handler
  | .removeListener d id => s.delegates[d]?.map fun x => .ok (s.put d (x.removeListener id))
  | .call d cat args => s.delegates[d]?.map fun x =>
    s.afterCall (x.call cat args s.world).1 (x.call cat args s.world).2

end State

def delegateCalls (S : Signature) (w : S.World) : Machine (Outcome Empty (State S)) (Step S) where
  init := .ok ⟨[], 0, w⟩
  step
    | .ok s, a => s.step a
    | _, _ => none

/-! ## What a call is to do -/

mutual

/-- The listeners that a function stands for. -/
def Function.targets {F : Type} : Function F → List F
  | .empty => []
  | .target f => [f]
  | .delegate listeners _ => targetsOf listeners

def targetsOf {F : Type} : List (Function F) → List F
  | [] => []
  | fn :: fns => fn.targets ++ targetsOf fns

end

/-- The listeners in order of registration, without the empty ones. -/
def Delegate.registered {F : Type} (x : Delegate F) : List F := targetsOf x.functions

/-- **A call as it should be**: each listener is invoked once, in order, with the arguments of the caller and the values
that they have for the caller, and the result is that of the last one. -/
def Delegate.Delivers (x : Delegate S.Target) (cat : S.ι → ValueCategory) (args : Arguments S) (w : S.World) : Prop :=
  ∃ s result, x.call cat args w = (s, .ok result) ∧
    s.log.map (·.target) = x.registered ∧
    (∀ inv ∈ s.log, inv.args = args ∧ inv.contents = S.contents args.references w) ∧
    (s.log.getLast?.map (·.result)).getD (.ok S.zero) = .ok result

/-! ## When it does so -/

mutual

/-- A call reads no array of a delegate that has been moved from. -/
def Function.Readable {F : Type} : Function F → Prop
  | .delegate listeners readableBuffer => readableBuffer ≠ [] ∧ AllReadable listeners
  | _ => True

def AllReadable {F : Type} : List (Function F) → Prop
  | [] => True
  | .empty :: _ => True
  | fn :: fns => fn.Readable ∧ AllReadable fns

end

mutual

/-- No listener comes after an empty function. -/
def Function.Complete {F : Type} : Function F → Prop
  | .delegate listeners _ => AllComplete listeners
  | _ => True

def AllComplete {F : Type} : List (Function F) → Prop
  | [] => True
  | .empty :: fns => targetsOf fns = []
  | fn :: fns => fn.Complete ∧ AllComplete fns

end

/-- How many times an object has been moved from after it has been forwarded once more. -/
def ValueCategory.forward : ValueCategory → ℕ → ℕ
  | lvalue, n => n
  | rvalue, n => n + 1

mutual

/-- How many times an argument has been moved from when it gets to the listeners. -/
def Function.moves {F : Type} : Function F → ℕ → List ℕ
  | .empty, _ => []
  | .target _, n => [n]
  | .delegate listeners _, n => movesOf .rvalue listeners n

def movesOf {F : Type} (cat : ValueCategory) : List (Function F) → ℕ → List ℕ
  | [], _ => []
  | .empty :: _, _ => []
  | fn :: fns, n => fn.moves n ++ movesOf cat fns (cat.forward n)

end

mutual

/-- A call returns what a listener has returned. -/
def Function.answers {F : Type} : Function F → Bool
  | .empty => false
  | .target _ => true
  | .delegate listeners _ => anyAnswers false listeners

/-- The last call of the loop does so; if it has none, the value before it was such. -/
def anyAnswers {F : Type} (answered : Bool) : List (Function F) → Bool
  | [] => answered
  | .empty :: _ => answered
  | fn :: fns => anyAnswers fn.answers fns

end

/-- The rest of the program after the calls of some listeners. -/
def worldAfter (args : Arguments S) (fs : List S.Target) (w : S.World) : S.World :=
  fs.foldl (fun w f => worldOf f args w) w

/-- What the last of the listeners returns. -/
def lastResult (args : Arguments S) (fs : List S.Target) (w : S.World) : Except S.Exception S.Result :=
  match fs.getLast? with
  | some f => (invocation f args (worldAfter args fs.dropLast w)).result
  | none => .ok S.zero

/-- **When a call does what it should.** -/
structure Delegate.Sound (x : Delegate S.Target) (cat : S.ι → ValueCategory) (args : Arguments S) (w : S.World) :
    Prop where
  /-- Neither the delegate nor one that it calls has been moved from. -/
  readable : x.toFunction.Readable
  /-- No listener comes after an empty function. -/
  complete : x.toFunction.Complete
  /-- No value that a move changes has been moved before it gets to a listener. -/
  unmoved : ∀ i, ∀ n ∈ movesOf (cat i) x.functions 0, (S.moved i)^[n] (args.values i) = args.values i
  /-- No listener throws, called with the arguments after those before it. -/
  returns : ∀ fs₁ f fs₂, x.registered = fs₁ ++ f :: fs₂ →
    ∃ result, (invocation f args (worldAfter args fs₁ w)).result = .ok result
  /-- The listeners before the last one leave what the arguments refer to as it is. -/
  untouched : ∀ fs₁ f fs₂, x.registered = fs₁ ++ f :: fs₂ →
    S.contents args.references (worldAfter args fs₁ w) = S.contents args.references w
  /-- The last function called is a listener, or a delegate of which this is true. -/
  answers : x.toFunction.answers = true ∨ lastResult args x.registered w = .ok S.zero

/-- What a step has to observe. -/
def State.Safe (s : State S) : Step S → Prop
  | .add d (.delegate e .constLvalue) => ∀ x, s.delegates[d]? = some x → d = e → x.listeners = []
  | .add d (.delegate e .rvalue) => d ≠ e
  | .addListenerAutoRemoval d (.delegate e .rvalue) => d ≠ e
  | .call d cat args => ∀ x, s.delegates[d]? = some x → x.Sound cat args s.world
  | _ => True

/-- The step is defined, and if it is a call, it is as it should be. -/
structure State.Does (s : State S) (a : Step S) : Prop where
  defined : ∃ s', s.step a = some (.ok s')
  delivers : ∀ d cat args x, a = .call d cat args → s.delegates[d]? = some x → x.Delivers cat args s.world

/-- All steps of a program do what they should. -/
def Delivering (w : S.World) (t : List (Step S)) : Prop :=
  ∀ u a s, u ++ [a] <+: t → (delegateCalls S w).run u = some (.ok s) → s.Does a

/-- All steps of a program are safe. -/
def SafeCalls (w : S.World) (t : List (Step S)) : Prop :=
  ∀ u a s, u ++ [a] <+: t → (delegateCalls S w).run u = some (.ok s) → s.Safe a

end Nessus.Memory.DelegateCall
