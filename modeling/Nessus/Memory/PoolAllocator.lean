import Mathlib.Algebra.Group.Nat.Defs
import Mathlib.Data.List.Count
import Nessus.Lib.Count
import Nessus.Lib.Machine
import Nessus.Lib.Outcome

/-!
# The pool allocator

`pool_allocator` on the host path, with any number of calls of `fastMalloc`, `fastFree` and `clear` at once, in any
interleaving of their critical sections.

* `Entry` — an element of `budgets` or `payouts`, and a block that `aligned_heap_alloc` has returned;
* `PoolCall` — a call, with the block that it has taken out of one list and not yet put into the other;
* `poolAllocator` — the machine; the blocks that are allocated are part of its state, and to free what is not allocated
  is undefined.
-/

namespace Nessus.Memory

open Nessus.Lib

/-- `std::pair<size_t, void*>`. -/
structure Entry where
  size : ℕ
  ptr : ℕ
  deriving DecidableEq, Repr

/-- Two blocks have no byte in common, nor the address. -/
def Entry.Disjoint (a b : Entry) : Prop := a.ptr ≠ b.ptr ∧ (a.ptr + a.size ≤ b.ptr ∨ b.ptr + b.size ≤ a.ptr)

instance (a b : Entry) : Decidable (a.Disjoint b) := inferInstanceAs (Decidable (_ ∧ _))

/-- How far a call has come. -/
inductive PoolCall where
  /-- `fastMalloc(size)`, before the search. -/
  | searching (size : ℕ)
  /-- No budget fits. -/
  | missed (size : ℕ)
  /-- Between the two locks. -/
  | paying (size : ℕ) (block : Entry)
  /-- `fastMalloc(size)` has returned the block, and the caller has not yet called `fastFree`. -/
  | owning (size : ℕ) (block : Entry)
  /-- `fastFree(ptr)`, before the search, of the block `block`. -/
  | freeing (ptr : ℕ) (block : Entry)
  /-- Between the two locks. -/
  | returning (block : Entry)
  /-- The pointer was not found. -/
  | wild (ptr : ℕ)
  /-- `clear`, before the lock. -/
  | clearing
  | finished
  deriving DecidableEq, Repr

/-- The lists of the allocator, `size_compare_ratio`, the calls, and the blocks that are allocated. -/
structure PoolState where
  budgets : List Entry
  payouts : List Entry
  sizeCompareRatio : ℕ
  calls : List PoolCall
  heap : List Entry
  deriving DecidableEq, Repr

inductive PoolStep where
  | setSizeCompareRatio (ratio : ℕ)
  | fastMalloc (size : ℕ)
  /-- The caller that owns the block of the call `owner` frees it. -/
  | fastFree (owner : ℕ)
  | clear
  /-- The next critical section of a call, or what it does behind the last one. -/
  | go (call : ℕ)
  /-- `aligned_heap_alloc` returns `ptr`. -/
  | alignedHeapAlloc (call : ℕ) (ptr : ℕ)

/-- `bs >= size && ((bs * size_compare_ratio) >> 8) <= size`. -/
def fits (ratio size : ℕ) (budget : Entry) : Bool :=
  decide (size ≤ budget.size ∧ budget.size * ratio % 2 ^ 64 / 2 ^ 8 ≤ size)

def alignedHeapFree (heap : List Entry) (ptr : ℕ) : Outcome Empty (List Entry) :=
  if heap.any (·.ptr == ptr) then .ok (heap.eraseP (·.ptr == ptr)) else .undefined

namespace PoolState

def move (s : PoolState) (i : ℕ) (c : PoolCall) : PoolState := { s with calls := s.calls.set i c }

def go (s : PoolState) (i : ℕ) : PoolCall → Option (Outcome Empty PoolState)
  | .searching size =>
    match s.budgets.find? (fits s.sizeCompareRatio size) with
    | some budget =>
      some (.ok (move { s with budgets := s.budgets.eraseP (fits s.sizeCompareRatio size) } i (.paying size budget)))
    | none => some (.ok (s.move i (.missed size)))
  | .paying size block => some (.ok (move { s with payouts := s.payouts ++ [block] } i (.owning size block)))
  | .freeing ptr _ =>
    match s.payouts.find? (·.ptr == ptr) with
    | some block => some (.ok (move { s with payouts := s.payouts.eraseP (·.ptr == ptr) } i (.returning block)))
    | none => some (.ok (s.move i (.wild ptr)))
  | .returning block => some (.ok (move { s with budgets := s.budgets ++ [block] } i .finished))
  | .wild ptr => some (alignedHeapFree s.heap ptr >>= fun heap => .ok (move { s with heap } i .finished))
  | .clearing =>
    some (s.budgets.foldlM (fun heap budget => alignedHeapFree heap budget.ptr) s.heap >>= fun heap =>
      .ok (move { s with heap, budgets := [] } i .finished))
  | _ => none

/-- One step; `none` where it cannot happen: a block is freed by the caller that owns it, once, and
`aligned_heap_alloc` returns a block that is disjoint from all blocks that are allocated. -/
def step (s : PoolState) : PoolStep → Option (Outcome Empty PoolState)
  | .setSizeCompareRatio ratio => some (.ok { s with sizeCompareRatio := ratio })
  | .fastMalloc size => some (.ok { s with calls := s.calls ++ [.searching size] })
  | .fastFree owner =>
    match s.calls[owner]? with
    | some (.owning _ block) =>
      some (.ok { s with calls := s.calls.set owner .finished ++ [.freeing block.ptr block] })
    | _ => none
  | .clear => some (.ok { s with calls := s.calls ++ [.clearing] })
  | .go i => s.calls[i]?.bind (s.go i)
  | .alignedHeapAlloc i ptr =>
    match s.calls[i]? with
    | some (.missed size) =>
      if ∀ block ∈ s.heap, block.Disjoint ⟨size, ptr⟩ then
        some (.ok (move { s with heap := s.heap ++ [⟨size, ptr⟩] } i (.paying size ⟨size, ptr⟩)))
      else none
    | _ => none

end PoolState

/-- Any calls of a new allocator. -/
def poolAllocator : Machine (Outcome Empty PoolState) PoolStep where
  init := .ok ⟨[], [], 192, [], []⟩
  step
    | .ok s, a => s.step a
    | _, _ => none

end Nessus.Memory
