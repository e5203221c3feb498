import Nessus.Lib.CInt
import Nessus.Lib.Machine
import Nessus.Lib.Ring

/-!
# The circular queue

`circular_queue`, and the bounded FIFO that it implements.

* `CircularQueue` and its methods, on `std::size_t` and with every access to the vector in bounds, or undefined;
* `Fifo` — the last items that were pushed and not popped, at most `capacity` of them;
* `Represents` — a queue that has been moved from, or the ring that holds the items of a `Fifo`; each method keeps it.
-/

namespace Nessus.Memory

open Nessus.Lib

variable {ε α : Type}

/-- What the constructor of `std::vector` throws. -/
inductive VectorError where
  | lengthError
  deriving DecidableEq, Repr

structure CircularQueue (α : Type) where
  maxItems : ℕ
  head : ℕ
  tail : ℕ
  overrunCounter : ℕ
  vec : List α
  deriving DecidableEq, Repr

/-- `vec_[i]`, read. -/
def readAt (vec : List α) (i : ℕ) : Outcome ε α :=
  match vec[i]? with
  | some item => .ok item
  | none => .undefined

/-- `vec_[i] = item`. -/
def writeAt (vec : List α) (i : ℕ) (item : α) : Outcome ε (List α) :=
  if i < vec.length then .ok (vec.set i item) else .undefined

namespace CircularQueue

/-- `circular_queue(max_items)`, where a vector has at most `maxSize` elements. -/
def construct [Inhabited α] (maxSize maxItems : ℕ) : Outcome VectorError (CircularQueue α) :=
  let maxItems := sizeAdd maxItems 1
  if maxItems ≤ maxSize then .ok ⟨maxItems, 0, 0, 0, List.replicate maxItems default⟩ else .thrown .lengthError

def pushBack (q : CircularQueue α) (item : α) : Outcome ε (CircularQueue α) :=
  if q.maxItems > 0 then
    writeAt q.vec q.tail item >>= fun vec =>
    sizeMod (sizeAdd q.tail 1) q.maxItems >>= fun tail =>
    if tail = q.head then
      sizeMod (sizeAdd q.head 1) q.maxItems >>= fun head =>
      .ok { q with vec, tail, head, overrunCounter := sizeAdd q.overrunCounter 1 }
    else .ok { q with vec, tail }
  else .ok q

def front (q : CircularQueue α) : Outcome ε α := readAt q.vec q.head

def size (q : CircularQueue α) : ℕ :=
  if q.tail ≥ q.head then sizeSub q.tail q.head else sizeSub q.maxItems (sizeSub q.head q.tail)

/-- `at`. -/
def atIndex (q : CircularQueue α) (i : ℕ) : Outcome ε α :=
  sizeMod (sizeAdd q.head i) q.maxItems >>= fun index => readAt q.vec index

def popFront (q : CircularQueue α) : Outcome ε (CircularQueue α) :=
  sizeMod (sizeAdd q.head 1) q.maxItems >>= fun head => .ok { q with head }

def empty (q : CircularQueue α) : Bool := decide (q.tail = q.head)

def full (q : CircularQueue α) : Outcome ε Bool :=
  if q.maxItems > 0 then
    sizeMod (sizeAdd q.tail 1) q.maxItems >>= fun next => .ok (decide (next = q.head))
  else .ok false

/-- What `copy_moveable` leaves of its argument; the vector has been moved from. -/
def disabled : CircularQueue α := ⟨0, 0, 0, 0, []⟩

end CircularQueue

/-! ## The bounded FIFO -/

/-- The items that were pushed and not popped, oldest first; at most `capacity` of them, of which the oldest is dropped
where there is no room for another one. -/
structure Fifo (α : Type) where
  capacity : ℕ
  items : List α
  /-- How many items have been dropped. -/
  dropped : ℕ
  bounded : items.length ≤ capacity
  deriving DecidableEq, Repr

namespace Fifo

def start (capacity : ℕ) : Fifo α := ⟨capacity, [], 0, Nat.zero_le _⟩

/-- Another item: the last `capacity` ones stay. -/
def push (f : Fifo α) (item : α) : Fifo α :=
  if h : f.items.length < f.capacity then
    { f with items := f.items ++ [item], bounded := by rw [List.length_append]; exact h }
  else
    { f with items := (f.items ++ [item]).tail, dropped := f.dropped + 1, bounded := by simpa using f.bounded }

def pop (f : Fifo α) : Fifo α :=
  { f with items := f.items.tail, bounded := (List.length_tail.trans_le (Nat.sub_le _ _)).trans f.bounded }

@[simp] theorem capacity_push (f : Fifo α) (item : α) : (f.push item).capacity = f.capacity := by
  unfold push
  split <;> rfl

theorem push_of_lt {f : Fifo α} (h : f.items.length < f.capacity) (item : α) :
    (f.push item).items = f.items ++ [item] ∧ (f.push item).dropped = f.dropped := by
  rw [push, dif_pos h]
  exact ⟨rfl, rfl⟩

theorem push_of_full {f : Fifo α} (h : f.items.length = f.capacity) (item : α) :
    (f.push item).items = (f.items ++ [item]).tail ∧ (f.push item).dropped = f.dropped + 1 := by
  rw [push, dif_neg (by omega)]
  exact ⟨rfl, rfl⟩

end Fifo

/-! ## What a queue represents -/

/-- The queue holds the items of `f` in its ring.  A vector has fewer than 2^63 elements. -/
structure Holds (q : CircularQueue α) (f : Fifo α) : Prop where
  maxItems : q.maxItems = f.capacity + 1
  length : q.vec.length = q.maxItems
  lt : q.maxItems < 2 ^ 63
  ring : Ring q.vec q.head q.tail f.items
  overrun : q.overrunCounter = f.dropped % 2 ^ 64

namespace Holds

variable {q : CircularQueue α} {f : Fifo α}

theorem head_lt (h : Holds q f) : q.head < q.maxItems := h.length ▸ h.ring.head_lt

theorem tail_lt (h : Holds q f) : q.tail < q.maxItems := h.length ▸ h.ring.tail_lt

theorem sizeMod_next (h : Holds q f) {p : ℕ} (hp : p < q.maxItems) :
    (sizeMod (sizeAdd p 1) q.maxItems : Outcome ε ℕ) = .ok ((p + 1) % q.maxItems) := by
  have := h.lt
  rw [sizeAdd_of_lt (by omega), sizeMod_of_pos (by omega)]

theorem next_eq_head_iff (h : Holds q f) : (q.tail + 1) % q.maxItems = q.head ↔ f.items.length = f.capacity := by
  rw [← h.length, h.ring.next_eq_head_iff, h.length, h.maxItems, Nat.add_right_cancel_iff]

theorem pushBack (h : Holds q f) (item : α) :
    ∃ q', (q.pushBack item : Outcome ε (CircularQueue α)) = .ok q' ∧ Holds q' (f.push item) := by
  have hpos : q.maxItems > 0 := by have := h.maxItems; omega
  have hwrite : (writeAt q.vec q.tail item : Outcome ε (List α)) = .ok (q.vec.set q.tail item) := if_pos h.ring.tail_lt
  unfold CircularQueue.pushBack
  rw [if_pos hpos, hwrite, Outcome.ok_bind, h.sizeMod_next h.tail_lt, Outcome.ok_bind]
  by_cases hfull : f.items.length = f.capacity
  · obtain ⟨hitems, hdropped⟩ := Fifo.push_of_full hfull item
    rw [if_pos (h.next_eq_head_iff.2 hfull), h.sizeMod_next h.head_lt, Outcome.ok_bind]
    refine ⟨_, rfl, ?_⟩
    constructor
    · rw [Fifo.capacity_push]; exact h.maxItems
    · rw [List.length_set]; exact h.length
    · exact h.lt
    · rw [hitems, ← h.length]
      exact h.ring.overrun (by rw [h.length, h.maxItems, hfull]) item
    · show sizeAdd q.overrunCounter 1 = _
      rw [hdropped, h.overrun, sizeAdd, Nat.mod_add_mod]
  · have hlt : f.items.length < f.capacity := lt_of_le_of_ne f.bounded hfull
    obtain ⟨hitems, hdropped⟩ := Fifo.push_of_lt hlt item
    rw [if_neg (h.next_eq_head_iff.not.2 hfull)]
    refine ⟨_, rfl, ?_⟩
    constructor
    · rw [Fifo.capacity_push]; exact h.maxItems
    · rw [List.length_set]; exact h.length
    · exact h.lt
    · rw [hitems, ← h.length]
      exact h.ring.push (by rw [h.length, h.maxItems]; omega) item
    · rw [hdropped]; exact h.overrun

theorem popFront (h : Holds q f) (hne : f.items ≠ []) :
    ∃ q', (q.popFront : Outcome ε (CircularQueue α)) = .ok q' ∧ Holds q' f.pop := by
  obtain ⟨x, items, hitems⟩ := List.exists_cons_of_ne_nil hne
  unfold CircularQueue.popFront
  rw [h.sizeMod_next h.head_lt, Outcome.ok_bind]
  refine ⟨_, rfl, h.maxItems, h.length, h.lt, ?_, h.overrun⟩
  have hring := h.ring
  rw [hitems] at hring
  show Ring q.vec ((q.head + 1) % q.maxItems) q.tail f.items.tail
  rw [hitems, ← h.length]
  exact hring.pop

theorem construct [Inhabited α] {maxSize n : ℕ} (hmax : maxSize < 2 ^ 63) (hn : n + 1 ≤ maxSize) :
    ∃ q, (CircularQueue.construct maxSize n : Outcome _ (CircularQueue α)) = .ok q ∧ Holds q (.start n) := by
  have hadd : sizeAdd n 1 = n + 1 := sizeAdd_of_lt (by omega)
  unfold CircularQueue.construct
  rw [hadd]
  refine ⟨_, if_pos hn, rfl, List.length_replicate, by dsimp only; omega, Ring.start (by simp), rfl⟩

theorem empty_iff (h : Holds q f) : q.empty = true ↔ f.items = [] := decide_eq_true_iff.trans h.ring.tail_eq_head_iff

theorem full_eq (h : Holds q f) : (q.full : Outcome ε Bool) = .ok (decide (f.items.length = f.capacity)) := by
  have hpos : q.maxItems > 0 := by have := h.maxItems; omega
  unfold CircularQueue.full
  rw [if_pos hpos, h.sizeMod_next h.tail_lt, Outcome.ok_bind]
  simp only [h.next_eq_head_iff]

theorem size_eq (h : Holds q f) : q.size = f.items.length := by
  have h₁ := h.lt
  have h₂ := h.head_lt
  have h₃ := h.tail_lt
  rw [← h.ring.size_eq, CircularQueue.size, h.length]
  split_ifs with hge
  · exact sizeSub_of_le hge (by omega)
  · rw [sizeSub_of_le (by omega : q.tail ≤ q.head) (by omega), sizeSub_of_le (by omega) (by omega)]

theorem atIndex_eq (h : Holds q f) (i : ℕ) (hi : i < f.items.length) :
    (q.atIndex i : Outcome ε α) = .ok f.items[i] := by
  have h₁ := h.lt
  have h₂ := h.head_lt
  have h₃ := h.ring.room
  have hlen := h.length
  have hcell := h.ring.cell i hi
  rw [hlen, List.getElem?_eq_getElem hi] at hcell
  rw [CircularQueue.atIndex, sizeAdd_of_lt (by omega), sizeMod_of_pos (by omega), Outcome.ok_bind, readAt, hcell]

theorem front_eq (h : Holds q f) {item : α} (hitem : f.items.head? = some item) :
    (q.front : Outcome ε α) = .ok item := by
  have hlen : 0 < f.items.length := by
    rw [List.length_pos_iff]
    rintro hnil
    rw [hnil] at hitem
    cases hitem
  have hcell := h.ring.cell 0 hlen
  rw [Nat.add_zero, h.length, Nat.mod_eq_of_lt h.head_lt, ← List.head?_eq_getElem?, hitem] at hcell
  rw [CircularQueue.front, readAt, hcell]

end Holds

/-! ## Queues that have been moved from -/

/-- There is no capacity, not even for the marker. -/
structure Disabled (q : CircularQueue α) : Prop where
  maxItems : q.maxItems = 0
  head : q.head = 0
  tail : q.tail = 0
  overrun : q.overrunCounter = 0

/-- What a queue represents: nothing after it has been moved from, or a `Fifo`. -/
def Represents (q : CircularQueue α) : Option (Fifo α) → Prop
  | none => Disabled q
  | some f => Holds q f

theorem disabled_disabled : Disabled (CircularQueue.disabled : CircularQueue α) := ⟨rfl, rfl, rfl, rfl⟩

/-- The methods of a queue that has been moved from: nothing is pushed, and no remainder by zero is taken. -/
theorem Disabled.methods {q : CircularQueue α} (h : Disabled q) :
    (∀ item, (q.pushBack item : Outcome ε (CircularQueue α)) = .ok q) ∧ q.empty = true ∧
      (q.full : Outcome ε Bool) = .ok false ∧ q.size = 0 := by
  have hpos : ¬ q.maxItems > 0 := by rw [h.maxItems]; decide
  refine ⟨fun item => if_neg hpos, ?_, if_neg hpos, ?_⟩
  · exact decide_eq_true (h.tail.trans h.head.symm)
  · rw [CircularQueue.size, h.tail, h.head]
    rfl

end Nessus.Memory
