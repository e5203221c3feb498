import Nessus.Lib.Machine
import Nessus.Lib.Outcome

/-!
# Delegates and their tokens

`delegate` with its implicit copy and move operations, and `delegate_token`, which removes its listener when it is
cleared.

* `Listener`, `Delegate`, `DelegateToken` — the members that tell what is removed from where;
* `DelegateState`, `DelegateStep`, `step` — the delegates and the tokens in order of construction, and the operations on
  them;
* `delegatePrograms` — a program is a run of the machine; to call `remove_listener` of a delegate that has been destroyed
  is undefined;
* `Removes`, `Sound` — what the clearing of a token is to do, and when it does.
-/

namespace Nessus.Memory

open Nessus.Lib

/-- An element of `listeners_`; the handlers are numbered in the order in which they are added. -/
structure Listener where
  id : UInt64
  handler : ℕ
  deriving DecidableEq, Repr

/-- The observers are numbered in the order in which they are made. -/
structure Delegate where
  lifetimeObserver : Option ℕ
  listeners : List Listener
  deriving DecidableEq, Repr

/-- `removeHandler` is the delegate to whose `remove_listener` the function is bound. -/
structure DelegateToken where
  id : UInt64
  observer : Option ℕ
  removeHandler : Option ℕ
  /-- The handler that was added with the token; it is no member. -/
  handler : Option ℕ
  deriving DecidableEq, Repr

/-- The slot of an object is empty after its destruction, and is not used again. -/
structure DelegateState where
  delegates : List (Option Delegate)
  tokens : List (Option DelegateToken)
  /-- The number of observers that have been made. -/
  observers : ℕ
  globalCounter : UInt64
  /-- The number of handlers that have been added. -/
  handlers : ℕ
  deriving DecidableEq, Repr

/-- The operations.  `d` and `t` are the delegate and the token constructed or changed, `e` and `u` the arguments. -/
inductive DelegateStep where
  | construct
  | constructCopy (e : ℕ)
  | constructMove (e : ℕ)
  | assignCopy (d e : ℕ)
  /-- The move assignment of a vector to itself may leave it as it was, or empty. -/
  | assignMove (d e : ℕ) (kept : Bool)
  | destruct (d : ℕ)
  /-- `operator+=` of a handler. -/
  | addListener (d : ℕ)
  | addListenerAutoRemoval (d : ℕ)
  | tokenConstruct
  | tokenConstructMove (u : ℕ)
  | tokenAssignMove (t u : ℕ)
  | tokenClear (t : ℕ)
  | tokenDestruct (t : ℕ)
  deriving DecidableEq, Repr

/-- What is left of a delegate that has been moved. -/
def Delegate.moved : Delegate := ⟨none, []⟩

def Delegate.removeListener (x : Delegate) (id : UInt64) : Delegate :=
  { x with listeners := x.listeners.eraseP (·.id == id) }

/-- `delegate_token()`, and what is left of a token that has been moved: its function may still have a target, which
`clear` does not call without an observer. -/
def DelegateToken.empty : DelegateToken := ⟨0, none, none, none⟩

namespace DelegateState

def delegate? (s : DelegateState) (d : ℕ) : Option Delegate := s.delegates[d]?.join

def token? (s : DelegateState) (t : ℕ) : Option DelegateToken := s.tokens[t]?.join

def putDelegate (s : DelegateState) (d : ℕ) (x : Option Delegate) : DelegateState :=
  { s with delegates := s.delegates.set d x }

def putToken (s : DelegateState) (t : ℕ) (tok : Option DelegateToken) : DelegateState :=
  { s with tokens := s.tokens.set t tok }

def newDelegate (s : DelegateState) (x : Delegate) : DelegateState := { s with delegates := s.delegates ++ [some x] }

def newToken (s : DelegateState) (tok : DelegateToken) : DelegateState := { s with tokens := s.tokens ++ [some tok] }

/-- `lock` succeeds: the weak pointer is not empty, and some delegate still holds the observer. -/
def lock (s : DelegateState) (observer : Option ℕ) : Bool :=
  observer.isSome && s.delegates.any fun x => x.any (·.lifetimeObserver == observer)

/-- `remove_listener`, called through the address of a delegate. -/
def removeListener (s : DelegateState) (d : ℕ) (id : UInt64) : Outcome Empty DelegateState :=
  match s.delegate? d with
  | some x => .ok (s.putDelegate d (some (x.removeListener id)))
  | none => .undefined

def clear (s : DelegateState) (tok : DelegateToken) : Outcome Empty DelegateState :=
  if s.lock tok.observer then
    match tok.removeHandler with
    | some d => s.removeListener d tok.id
    | none => .ok s
  else .ok s

/-- `add_listener`, of the delegate `d` with the value `x`. -/
def addListener (s : DelegateState) (d : ℕ) (x : Delegate) : DelegateState :=
  { s.putDelegate d (some { x with listeners := x.listeners ++ [⟨s.globalCounter, s.handlers⟩] }) with
    globalCounter := s.globalCounter + 1
    handlers := s.handlers + 1 }

/-- One operation; `none` where no program can perform it in the state. -/
def step (s : DelegateState) : DelegateStep → Option (Outcome Empty DelegateState)
  | .construct => some (.ok { s.newDelegate ⟨some s.observers, []⟩ with observers := s.observers + 1 })
  | .constructCopy e => do
    let x ← s.delegate? e
    some (.ok (s.newDelegate x))
  | .constructMove e => do
    let x ← s.delegate? e
    some (.ok ((s.putDelegate e (some .moved)).newDelegate x))
  | .assignCopy d e => do
    let _ ← s.delegate? d
    let x ← s.delegate? e
    some (.ok (s.putDelegate d (some x)))
  | .assignMove d e kept => do
    let _ ← s.delegate? d
    let x ← s.delegate? e
    if d = e then some (.ok (if kept then s else s.putDelegate d (some { x with listeners := [] })))
    else some (.ok ((s.putDelegate e (some .moved)).putDelegate d (some x)))
  | .destruct d => do
    let _ ← s.delegate? d
    some (.ok (s.putDelegate d none))
  | .addListener d => do
    let x ← s.delegate? d
    some (.ok (s.addListener d x))
  | .addListenerAutoRemoval d => do
    let x ← s.delegate? d
    some (.ok ((s.addListener d x).newToken ⟨s.globalCounter, x.lifetimeObserver, some d, some s.handlers⟩))
  | .tokenConstruct => some (.ok (s.newToken .empty))
  | .tokenConstructMove u => do
    let tok ← s.token? u
    some (.ok ((s.putToken u (some .empty)).newToken tok))
  | .tokenAssignMove t u => do
    let old ← s.token? t
    let tok ← s.token? u
    some (s.clear old >>= fun s => .ok ((s.putToken u (some .empty)).putToken t (some tok)))
  | .tokenClear t => do
    let tok ← s.token? t
    some (s.clear tok)
  | .tokenDestruct t => do
    let tok ← s.token? t
    some (s.clear tok >>= fun s => .ok (s.putToken t none))

/-- The token that an operation clears. -/
def cleared? (s : DelegateState) : DelegateStep → Option DelegateToken
  | .tokenAssignMove t u => (s.token? u).bind fun _ => s.token? t
  | .tokenClear t | .tokenDestruct t => s.token? t
  | _ => none

end DelegateState

def delegatePrograms : Machine (Outcome Empty DelegateState) DelegateStep where
  init := .ok ⟨[], [], 0, 0, 0⟩
  step
    | .ok s, a => s.step a
    | _, _ => none

/-! ## What the tokens are for -/

/-- The token is one for this listener. -/
def DelegateToken.Names (tok : DelegateToken) (l : Listener) : Prop := tok.handler = some l.handler

instance (tok : DelegateToken) (l : Listener) : Decidable (tok.Names l) := inferInstanceAs (Decidable (_ = _))

/-- The listener of the token is removed from the delegate that holds it, and no other listener from any. -/
def Removes (tok : DelegateToken) (s s' : DelegateState) : Prop :=
  ∀ d, s'.delegate? d = (s.delegate? d).map fun x =>
    { x with listeners := x.listeners.filter fun l => decide (¬ tok.Names l) }

/-- No copy or move of a delegate has come between the token and its listener. -/
structure Sound (s : DelegateState) (tok : DelegateToken) : Prop where
  /-- Where a delegate still holds the observer, the delegate that the token was obtained from is alive. -/
  alive : s.lock tok.observer = true → ∀ d, tok.removeHandler = some d → s.delegate? d ≠ none
  /-- That delegate is the only one that holds the listener, and had an observer when it was added. -/
  sole : ∀ d x l, s.delegate? d = some x → l ∈ x.listeners → tok.Names l →
    tok.removeHandler = some d ∧ tok.observer ≠ none
  /-- No other listener of that delegate has been given the same id before it. -/
  first : s.lock tok.observer = true → ∀ d x l, tok.removeHandler = some d → s.delegate? d = some x →
    x.listeners.find? (·.id == tok.id) = some l → tok.Names l

/-- Whenever a token is cleared in a run, no destroyed delegate is called, and what is removed is its listener. -/
def TokensRemove (t : List DelegateStep) : Prop :=
  ∀ t₁ a t₂ s tok, t = t₁ ++ a :: t₂ → delegatePrograms.run t₁ = some (.ok s) → s.cleared? a = some tok →
    ∃ s', delegatePrograms.run (t₁ ++ [a]) = some (.ok s') ∧ Removes tok s s'

/-- Whenever a token is cleared in a run, nothing has come between it and its listener. -/
def TokensSound (t : List DelegateStep) : Prop :=
  ∀ t₁ a t₂ s tok, t = t₁ ++ a :: t₂ → delegatePrograms.run t₁ = some (.ok s) → s.cleared? a = some tok → Sound s tok

end Nessus.Memory
