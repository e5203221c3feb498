import Nessus.Memory.CircularQueue

/-!
# The bounded blocking queue

`bounded_blocking_queue` with any number of calls at once, in any interleaving.  A step is one critical section, the
notification that comes after it, or the end of the waiting of one call, which may be notified, time out, or wake up
for no reason; what the mutex and the condition variables do is the rule for each step.

* `Call`, `Phase` — a call and how far it has come;
* `State.critical` — what the five methods do under the lock;
* `blockingQueue` — the machine; the state keeps a log of what was inserted, dequeued and dropped.
-/

namespace Nessus.Memory

open Nessus.Lib

variable {α : Type}

inductive CallKind (α : Type) where
  | enqueue (item : α)
  | enqueueFor (item : α)
  | enqueueNowait (item : α)
  | dequeue
  | dequeueFor
  deriving DecidableEq, Repr

namespace CallKind

/-- The method takes an item, and waits for `push_cv_`; the others put one in, and wait for `pop_cv_`. -/
def consumes : CallKind α → Bool
  | dequeue => true
  | dequeueFor => true
  | _ => false

/-- It waits for some time only. -/
def timed : CallKind α → Bool
  | enqueueFor _ => true
  | dequeueFor => true
  | _ => false

end CallKind

/-- How far a call has come. -/
inductive Phase (α : Type) where
  /-- Before the lock. -/
  | start
  /-- In the condition variable, without the lock. -/
  | blocked
  /-- No longer in the condition variable, and about to lock again; `timedOut` is what `wait_until` will return. -/
  | awakened (timedOut : Bool)
  /-- Behind the critical section, about to notify; a dequeuer has got `popped`. -/
  | notifying (popped : Option α)
  /-- Returned, with a success or after a time-out. -/
  | returned (success : Bool) (popped : Option α)
  deriving DecidableEq, Repr

structure Call (α : Type) where
  kind : CallKind α
  phase : Phase α
  deriving DecidableEq, Repr

/-- The call waits in a condition variable. -/
def Call.blocked (c : Call α) : Bool :=
  match c.phase with
  | .blocked => true
  | _ => false

/-- What a call has done to the items. -/
inductive Effect (α : Type) where
  | inserted (call : ℕ) (item : α)
  | dequeued (call : ℕ) (item : α)
  | dropped (call : ℕ) (item : α)
  deriving DecidableEq, Repr

/-- The call that has done it. -/
def Effect.call : Effect α → ℕ
  | inserted call _ => call
  | dequeued call _ => call
  | dropped call _ => call

/-- The queue under the mutex, the calls, and the log of what has been done to the items, oldest first. -/
structure State (α : Type) where
  queue : CircularQueue α
  calls : List (Call α)
  log : List (Effect α)
  deriving DecidableEq, Repr

inductive QueueStep (α : Type) where
  /-- A thread calls a method. -/
  | call (kind : CallKind α)
  /-- The call locks the mutex and goes on until it unlocks it. -/
  | lock (call : ℕ)
  /-- The call notifies one of the calls that wait, where there is one; a call that is notified may find that its time is
  over all the same. -/
  | notify (call : ℕ) (target : Option (ℕ × Bool))
  /-- A time-out, or a spurious wake-up. -/
  | wake (call : ℕ) (timedOut : Bool)

namespace State

/-- The call goes on to a phase. -/
def move (s : State α) (i : ℕ) (c : Call α) (phase : Phase α) : State α :=
  { s with calls := s.calls.set i { c with phase } }

/-- The predicate is false: the call waits, or returns `false` where its time is over. -/
def wait (s : State α) (i : ℕ) (c : Call α) (timedOut : Bool) : State α :=
  s.move i c (if timedOut then .returned false none else .blocked)

/-- The item that `push_back` drops. -/
def lost (s : State α) (i : ℕ) : List (Effect α) :=
  match (s.queue.full : Outcome VectorError Bool), (s.queue.front : Outcome VectorError α) with
  | .ok true, .ok item => [.dropped i item]
  | _, _ => []

/-- `queue_.push_back(std::move(item))`, and the end of the critical section. -/
def insert (s : State α) (i : ℕ) (c : Call α) (item : α) : Outcome VectorError (State α) :=
  s.queue.pushBack item >>= fun queue =>
  .ok (State.move { s with queue, log := s.log ++ (s.lost i ++ [.inserted i item]) } i c (.notifying none))

/-- `popped_item = std::move(queue_.front()); queue_.pop_front();`, and the end of the critical section. -/
def remove (s : State α) (i : ℕ) (c : Call α) : Outcome VectorError (State α) :=
  s.queue.front >>= fun item =>
  s.queue.popFront >>= fun queue =>
  .ok (State.move { s with queue, log := s.log ++ [.dequeued i item] } i c (.notifying (some item)))

/-- The critical section, from the lock, or the return of `wait_until`, on. -/
def critical (s : State α) (i : ℕ) (c : Call α) (timedOut : Bool) : Outcome VectorError (State α) :=
  match c.kind with
  | .enqueue item | .enqueueFor item =>
    s.queue.full >>= fun full => if full then .ok (s.wait i c timedOut) else s.insert i c item
  | .enqueueNowait item => s.insert i c item
  | .dequeue | .dequeueFor => if s.queue.empty then .ok (s.wait i c timedOut) else s.remove i c

/-- The call waits in the condition variable that a call of the kind `kind` notifies. -/
def waitsFor (kind : CallKind α) (w : Call α) : Bool := w.blocked && (w.kind.consumes != kind.consumes)

/-- One step; `none` where it cannot happen. -/
def step (s : State α) : QueueStep α → Option (Outcome VectorError (State α))
  | .call kind => some (.ok { s with calls := s.calls ++ [⟨kind, .start⟩] })
  | .lock i => do
    let c ← s.calls[i]?
    match c.phase with
    | .start => some (s.critical i c false)
    | .awakened timedOut => some (s.critical i c timedOut)
    | _ => none
  | .notify i target => do
    let c ← s.calls[i]?
    match c.phase, target with
    | .notifying popped, none =>
      if s.calls.any (waitsFor c.kind) then none else some (.ok (s.move i c (.returned true popped)))
    | .notifying popped, some (j, timedOut) => do
      let w ← s.calls[j]?
      if waitsFor c.kind w ∧ (timedOut → w.kind.timed) then
        some (.ok ((s.move i c (.returned true popped)).move j w (.awakened timedOut)))
      else none
    | _, _ => none
  | .wake j timedOut => do
    let w ← s.calls[j]?
    if w.blocked ∧ (timedOut → w.kind.timed) then some (.ok (s.move j w (.awakened timedOut))) else none

end State

/-- The queue `queue`, which the constructor has made, and any calls of its methods. -/
def blockingQueue (queue : CircularQueue α) : Machine (Outcome VectorError (State α)) (QueueStep α) where
  init := .ok ⟨queue, [], []⟩
  step
    | .ok s, a => s.step a
    | _, _ => none

end Nessus.Memory
