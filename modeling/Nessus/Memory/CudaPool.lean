import Nessus.Memory.PoolInv

/-!
# The pool allocator with `USE_CUDA`

`fastMalloc` allocates pinned memory for the callers that name a device, and all blocks go through the same lists.  The
machine is `poolAllocator` with the destructor, the devices of the calls, and a record of how each block was allocated and
released.

* `CudaState.Matched` — each block is released the way it was allocated, all of them in the end, and who asks for pinned
  memory gets it;
* `CudaState.Safe` — what has to be true before a step for that;
* `cudaPool_matched_iff` — in every interleaving, the one holds in all states exactly if the other does before all steps;
  where the destructor runs, exactly if no one has ever asked for pinned memory and all blocks have been given back.
-/

namespace Nessus.Memory

open Nessus.Lib

/-- The pairs of functions that allocate and release: `cudaMallocHost` and `cudaFreeHost`, or `aligned_heap_alloc` and
`aligned_heap_free`. -/
inductive BlockKind where
  | pinned
  | host
  deriving DecidableEq, Repr

/-- `device_id >= 0`. -/
def BlockKind.ofDevice (device : ℤ) : BlockKind := if 0 ≤ device then pinned else host

/-- A block that has been released: by which function, and by the sibling of which one it was allocated. -/
structure Release where
  ptr : ℕ
  freedBy : BlockKind
  allocatedBy : BlockKind
  deriving DecidableEq, Repr

/-- The allocator, the `device_id` of each call, and the record. -/
structure CudaState where
  pool : PoolState
  devices : List ℤ
  /-- The allocations by address, the last one first. -/
  kinds : List (ℕ × BlockKind)
  released : List Release
  destroyed : Bool
  deriving DecidableEq, Repr

inductive CudaStep where
  | setSizeCompareRatio (ratio : ℕ)
  | fastMalloc (size : ℕ) (device : ℤ)
  | fastFree (owner : ℕ) (device : ℤ)
  | clear
  /-- The destructor. -/
  | destroy
  | go (call : ℕ)
  /-- `cudaMallocHost` or `aligned_heap_alloc` returns `ptr`. -/
  | alloc (call : ℕ) (ptr : ℕ)
  deriving DecidableEq, Repr

/-- The step of the lists and the calls, unless it is the destructor. -/
def CudaStep.poolStep : CudaStep → Option PoolStep
  | setSizeCompareRatio ratio => some (.setSizeCompareRatio ratio)
  | fastMalloc size _ => some (.fastMalloc size)
  | fastFree owner _ => some (.fastFree owner)
  | clear => some .clear
  | destroy => none
  | go i => some (.go i)
  | alloc i ptr => some (.alignedHeapAlloc i ptr)

/-- The `device_id` of the call that begins. -/
def CudaStep.device : CudaStep → List ℤ
  | fastMalloc _ device => [device]
  | fastFree _ device => [device]
  | clear => [-1]
  | _ => []

/-- The call has ended, or its caller owns the block that it has returned. -/
def PoolCall.quiet : PoolCall → Bool
  | owning _ _ => true
  | finished => true
  | _ => false

namespace CudaState

def kindOf (s : CudaState) (ptr : ℕ) : BlockKind := (s.kinds.lookup ptr).getD .host

/-- The `device_id` of the call. -/
def deviceOf (s : CudaState) (i : ℕ) : ℤ := s.devices.getD i (-1)

/-- The budgets, which `clear` releases by `aligned_heap_free`. -/
def cleared (s : CudaState) : List Release := s.pool.budgets.map fun budget => ⟨budget.ptr, .host, s.kindOf budget.ptr⟩

/-- The blocks that a step releases: `fastFree` of a wild pointer uses what goes with its own `device_id`. -/
def releases (s : CudaState) : CudaStep → List Release
  | .go i =>
    match s.pool.calls[i]? with
    | some .clearing => s.cleared
    | some (.wild ptr) => [⟨ptr, .ofDevice (s.deviceOf i), s.kindOf ptr⟩]
    | _ => []
  | .destroy => s.cleared
  | _ => []

/-- The block that a step allocates: by the function that goes with the `device_id` of the call. -/
def allocates (s : CudaState) : CudaStep → List (ℕ × BlockKind)
  | .alloc i ptr => [(ptr, .ofDevice (s.deviceOf i))]
  | _ => []

/-- The destructor calls `clear`; a block that has not been given back ends in `LOG(FATAL)`. -/
def destructor (s : CudaState) : Outcome Empty PoolState :=
  s.pool.budgets.foldlM (fun heap budget => alignedHeapFree heap budget.ptr) s.pool.heap >>= fun heap =>
  if s.pool.payouts.isEmpty then .ok { s.pool with heap, budgets := [] } else .terminated

/-- The lists and the calls after a step.  The destructor runs when no call does, and is the last step. -/
def poolAfter (s : CudaState) (a : CudaStep) : Option (Outcome Empty PoolState) :=
  if s.destroyed then none
  else
    match a.poolStep with
    | some b => s.pool.step b
    | none => if s.pool.calls.all PoolCall.quiet then some s.destructor else none

def step (s : CudaState) (a : CudaStep) : Option (Outcome Empty CudaState) :=
  (s.poolAfter a).map fun r => r >>= fun pool => .ok
    { pool
      devices := s.devices ++ a.device
      kinds := s.allocates a ++ s.kinds
      released := s.released ++ s.releases a
      destroyed := a == .destroy }

end CudaState

/-- Any calls of a new allocator, and its destruction. -/
def cudaPool : Machine (Outcome Empty CudaState) CudaStep where
  init := .ok ⟨⟨[], [], 192, [], []⟩, [], [], [], false⟩
  step
    | .ok s, a => s.step a
    | _, _ => none

/-! ## The kinds of the blocks -/

/-- The block that a call of `fastMalloc` is going to return, or has returned. -/
def PoolCall.given? : PoolCall → Option Entry
  | paying _ block => some block
  | owning _ block => some block
  | _ => none

/-- The call gives the block to its caller. -/
def PoolState.Gives (s : PoolState) (i : ℕ) (block : Entry) : Prop :=
  ∃ c, s.calls[i]? = some c ∧ c.given? = some block

namespace CudaState

/-- Each block has been released by the function that matches its allocation, all of them when the allocator is destroyed,
and a caller that asks for pinned memory gets a block that was allocated as such. -/
structure Matched (s : CudaState) : Prop where
  released : ∀ r ∈ s.released, r.freedBy = r.allocatedBy
  received : ∀ i block, s.pool.Gives i block → 0 ≤ s.deviceOf i → s.kindOf block.ptr = .pinned
  all : s.destroyed = true → s.kinds.Perm (s.released.map fun r => (r.ptr, r.allocatedBy))

def GivenBack (s : CudaState) : Prop :=
  ∀ (i size : ℕ) (block : Entry), s.pool.calls[i]? ≠ some (PoolCall.owning size block)

/-- There is no pinned block among the budgets when they are cleared, the first one that fits is pinned where pinned memory
is asked for, and all blocks have been given back when the allocator is destroyed. -/
def Safe (s : CudaState) : CudaStep → Prop
  | .go i =>
    (s.pool.calls[i]? = some .clearing → ∀ budget ∈ s.pool.budgets, s.kindOf budget.ptr = .host) ∧
      ∀ size before budget after, s.pool.calls[i]? = some (.searching size) → 0 ≤ s.deviceOf i →
        s.pool.budgets = before ++ budget :: after → (∀ b ∈ before, fits s.pool.sizeCompareRatio size b = false) →
        fits s.pool.sizeCompareRatio size budget = true → s.kindOf budget.ptr = .pinned
  | .destroy => s.GivenBack ∧ ∀ budget ∈ s.pool.budgets, s.kindOf budget.ptr = .host
  | _ => True

end CudaState

section Gives

variable {s : PoolState} {i j : ℕ} {block : Entry}

theorem gives_concat {c : PoolCall} (hc : c.given? = none)
    (hg : PoolState.Gives { s with calls := s.calls ++ [c] } i block) : s.Gives i block := by
  obtain ⟨d, hd, hb⟩ := hg
  simp only [List.getElem?_append] at hd
  split at hd
  · exact ⟨d, hd, hb⟩
  · obtain rfl := List.mem_singleton.1 (List.mem_of_getElem? hd)
    rw [hc] at hb
    cases hb

/-- A call moves on: the others give what they gave. -/
theorem gives_move {c : PoolCall} (hg : PoolState.Gives (s.move j c) i block) :
    s.Gives i block ∨ j = i ∧ c.given? = some block := by
  obtain ⟨d, hd, hb⟩ := hg
  simp only [PoolState.move, List.getElem?_set] at hd
  split at hd
  · next hji =>
    split at hd
    · cases hd
      exact .inr ⟨hji, hb⟩
    · cases hd
  · exact .inl ⟨d, hd, hb⟩

/-- A call that moves on to something else gives nothing. -/
theorem gives_of_move {c : PoolCall} (hc : c.given? = none) (hg : PoolState.Gives (s.move j c) i block) :
    s.Gives i block := by
  rcases gives_move hg with hg | ⟨-, hb⟩
  · exact hg
  · rw [hc] at hb
    cases hb

/-- Where the block comes from that a call gives after its next critical section. -/
theorem gives_go {s' : PoolState} {c : PoolCall} (hc : s.calls[j]? = some c) (hs : s.go j c = some (.ok s'))
    (hg : s'.Gives i block) :
    s.Gives i block ∨ (j = i ∧ ∃ size, c = .searching size ∧
      s.budgets.find? (fits s.sizeCompareRatio size) = some block) := by
  cases c with
  | searching size =>
    simp only [PoolState.go] at hs
    split at hs
    · next budget hf =>
      cases hs
      rcases gives_move (s := { s with budgets := _ }) hg with hg | ⟨hji, hb⟩
      · exact .inl hg
      · cases hb
        exact .inr ⟨hji, size, rfl, hf⟩
    · cases hs
      exact .inl (gives_of_move rfl hg)
  | paying size b =>
    cases hs
    rcases gives_move (s := { s with payouts := _ }) hg with hg | ⟨rfl, hb⟩
    · exact .inl hg
    · exact .inl ⟨_, hc, hb⟩
  | freeing ptr b =>
    simp only [PoolState.go] at hs
    split at hs
    · cases hs
      exact .inl (gives_of_move (s := { s with payouts := _ }) rfl hg)
    · cases hs
      exact .inl (gives_of_move rfl hg)
  | returning b =>
    cases hs
    exact .inl (gives_of_move (s := { s with budgets := _ }) rfl hg)
  | wild ptr =>
    obtain ⟨heap, -, hs⟩ := Outcome.bind_eq_ok.1 (Option.some.inj hs)
    cases hs
    exact .inl (gives_of_move (s := { s with heap := _ }) rfl hg)
  | clearing =>
    obtain ⟨heap, -, hs⟩ := Outcome.bind_eq_ok.1 (Option.some.inj hs)
    cases hs
    exact .inl (gives_of_move (s := { s with heap := _, budgets := _ }) rfl hg)
  | missed size => cases hs
  | owning size b => cases hs
  | finished => cases hs

/-- **Where the blocks of the calls come from**: a call gets one from the budgets, or it is allocated for it. -/
theorem gives_step {s' : PoolState} {a : PoolStep} (hs : s.step a = some (.ok s')) (hg : s'.Gives i block) :
    s.Gives i block ∨
      (a = .go i ∧ ∃ size, s.calls[i]? = some (.searching size) ∧
        s.budgets.find? (fits s.sizeCompareRatio size) = some block) ∨
      ∃ ptr, a = .alignedHeapAlloc i ptr ∧ block.ptr = ptr := by
  cases a with
  | setSizeCompareRatio ratio =>
    cases hs
    exact .inl hg
  | fastMalloc size =>
    cases hs
    exact .inl (gives_concat rfl hg)
  | fastFree owner =>
    simp only [PoolState.step] at hs
    split at hs
    · cases hs
      exact .inl (gives_of_move rfl (gives_concat (s := s.move owner .finished) rfl hg))
    · cases hs
  | clear =>
    cases hs
    exact .inl (gives_concat rfl hg)
  | go j =>
    obtain ⟨c, hc, hgo⟩ := Option.bind_eq_some_iff.1 hs
    rcases gives_go hc hgo hg with hg | ⟨rfl, size, rfl, hf⟩
    · exact .inl hg
    · exact .inr (.inl ⟨rfl, size, hc, hf⟩)
  | alignedHeapAlloc j ptr =>
    simp only [PoolState.step] at hs
    split at hs
    · split at hs
      · cases hs
        rcases gives_move (s := { s with heap := _ }) hg with hg | ⟨rfl, hb⟩
        · exact .inl hg
        · cases hb
          exact .inr (.inr ⟨ptr, rfl, rfl⟩)
      · cases hs
    · cases hs

end Gives

theorem PoolInv.mem_heap_of_gives {s : PoolState} (h : PoolInv s) {i : ℕ} {block : Entry} (hg : s.Gives i block) :
    block ∈ s.heap := by
  obtain ⟨c, hc, hb⟩ := hg
  cases c with
  | paying size b =>
    have hmem : block ∈ s.hands := List.mem_filterMap.2 ⟨_, List.mem_of_getElem? hc, hb⟩
    have := List.count_pos_iff.2 hmem
    exact h.mem_heap (by omega)
  | owning size b =>
    cases hb
    exact h.mem_heap_of_owning hc
  | _ => cases hb

/-! ## Steps -/

/-- A block is allocated for a call that has found none, at the address of no other block. -/
theorem PoolSteps.fresh {s s' : PoolState} {i ptr : ℕ} (h : PoolSteps s (.alignedHeapAlloc i ptr) s') :
    (∃ size, s.calls[i]? = some (.missed size)) ∧ ∀ b ∈ s.heap, b.ptr ≠ ptr := by
  cases h with
  | alloc hc hd => exact ⟨⟨_, hc⟩, fun b hb => (hd b hb).1⟩

/-- Each block that has been allocated has been released, or still is allocated. -/
def CudaState.Recorded (s : CudaState) : Prop :=
  s.kinds.Perm ((s.released.map fun r => (r.ptr, r.allocatedBy)) ++ s.pool.heap.map fun b => (b.ptr, s.kindOf b.ptr))

/-- The lists are sound, and the record is up to date with the calls and the blocks. -/
structure CudaInv (s : CudaState) : Prop where
  pool : PoolInv s.pool
  devices : s.devices.length = s.pool.calls.length
  recorded : s.Recorded
  freedBy : ∀ r ∈ s.released, r.freedBy = .host
  gone : s.destroyed = true → s.pool.calls.all PoolCall.quiet = true ∧ s.pool.heap = []

theorem cuda_step_eq {s s' : CudaState} {a : CudaStep} (hs : s.step a = some (.ok s')) :
    s.poolAfter a = some (.ok s'.pool) ∧ s'.devices = s.devices ++ a.device ∧ s'.kinds = s.allocates a ++ s.kinds ∧
      s'.released = s.released ++ s.releases a ∧ s'.destroyed = (a == .destroy) := by
  obtain ⟨r, hr, heq⟩ := Option.map_eq_some_iff.1 hs
  obtain ⟨pool, rfl, hs'⟩ := Outcome.bind_eq_ok.1 heq
  cases hs'
  exact ⟨hr, rfl, rfl, rfl, rfl⟩

namespace CudaInv

variable {s s' : CudaState} {a : CudaStep}

/-- Where no call is on its way, the payouts are the blocks that have not been given back. -/
theorem payouts_eq_nil_iff (h : CudaInv s) (hq : s.pool.calls.all PoolCall.quiet = true) :
    s.pool.payouts = [] ↔ s.GivenBack := by
  constructor
  · intro hnil i size block hc
    have hmem := h.pool.mem_payouts (List.mem_of_getElem? hc) rfl
    rw [hnil] at hmem
    cases hmem
  · intro hback
    have howed : s.pool.owed = [] := by
      refine List.filterMap_eq_nil_iff.2 fun c hc => ?_
      have hquiet := List.all_eq_true.1 hq c hc
      obtain ⟨i, hi⟩ := List.mem_iff_getElem?.1 hc
      cases c with
      | owning size block => exact absurd hi (hback i size block)
      | freeing ptr block => cases hquiet
      | _ => rfl
    refine List.eq_nil_iff_forall_not_mem.2 fun b hb => ?_
    have hpos := List.count_pos_iff.2 hb
    rw [h.pool.owed, howed] at hpos
    cases hpos

/-- The destructor releases the budgets, and that is all where all blocks have been given back. -/
theorem destructor_eq (h : CudaInv s) (hq : s.pool.calls.all PoolCall.quiet = true) :
    (s.GivenBack ∧ s.destructor = .ok { s.pool with heap := [], budgets := [] } ∧ s.pool.heap.Perm s.pool.budgets) ∨
      (¬ s.GivenBack ∧ s.destructor = .terminated) := by
  obtain ⟨heap, hfree, hp⟩ := h.pool.free_budgets
  rw [CudaState.destructor, hfree, Outcome.ok_bind, ← h.payouts_eq_nil_iff hq]
  by_cases hnil : s.pool.payouts = []
  · left
    have hhands : s.pool.hands = [] := by
      refine List.filterMap_eq_nil_iff.2 fun c hc => ?_
      have hquiet := List.all_eq_true.1 hq c hc
      cases c with
      | paying size block => cases hquiet
      | returning block => cases hquiet
      | _ => rfl
    -- what is allocated is in the budgets
    have hheap : s.pool.heap.Perm s.pool.budgets := by
      refine List.perm_iff_count.2 fun b => ?_
      rw [← h.pool.placed b, hnil, hhands, List.count_nil, Nat.add_zero]
    have hrest : heap = [] := by
      have hlength := (hp.symm.trans hheap).length_eq
      rw [List.length_append] at hlength
      exact List.length_eq_zero_iff.1 (by omega)
    subst hrest
    rw [hnil]
    exact ⟨rfl, rfl, hheap⟩
  · right
    rw [if_neg (by simpa using hnil)]
    exact ⟨hnil, rfl⟩

/-- **One step** is a step of the lists and the calls, or the destructor. -/
theorem pool_cases (h : CudaInv s) {r : Outcome Empty PoolState} (hs : s.poolAfter a = some r) :
    (∃ b pool, a.poolStep = some b ∧ r = .ok pool ∧ s.pool.step b = some (.ok pool) ∧ PoolSteps s.pool b pool) ∨
      a = .destroy ∧ s.pool.calls.all PoolCall.quiet = true ∧
        (s.GivenBack ∧ r = .ok { s.pool with heap := [], budgets := [] } ∧ s.pool.heap.Perm s.pool.budgets ∨
          ¬ s.GivenBack ∧ r = .terminated) := by
  rw [CudaState.poolAfter, Option.ite_none_left_eq_some] at hs
  obtain ⟨-, hs⟩ := hs
  cases hb : a.poolStep with
  | some b =>
    rw [hb] at hs
    obtain ⟨pool, rfl, hsteps⟩ := h.pool.step_cases hs
    exact .inl ⟨b, pool, rfl, rfl, hs, hsteps⟩
  | none =>
    rw [hb] at hs
    obtain rfl : a = .destroy := by cases a <;> first | rfl | cases hb
    simp only [Option.ite_none_right_eq_some, Option.some_inj] at hs
    obtain ⟨hq, rfl⟩ := hs
    exact .inr ⟨rfl, hq, h.destructor_eq hq⟩

theorem ok_cases (h : CudaInv s) (hs : s.step a = some (.ok s')) :
    (∃ b, a.poolStep = some b ∧ s.pool.step b = some (.ok s'.pool) ∧ PoolSteps s.pool b s'.pool) ∨
      a = .destroy ∧ s.pool.calls.all PoolCall.quiet = true ∧ s.GivenBack ∧
        s'.pool = { s.pool with heap := [], budgets := [] } ∧ s.pool.heap.Perm s.pool.budgets := by
  rcases h.pool_cases (cuda_step_eq hs).1 with ⟨b, pool, hb, hr, hstep, hsteps⟩ | ⟨ha, hq, ⟨hback, hr, hp⟩ | ⟨-, hr⟩⟩
  · cases hr
    exact .inl ⟨b, hb, hstep, hsteps⟩
  · rw [Outcome.ok.injEq] at hr
    exact .inr ⟨ha, hq, hback, hr, hp⟩
  · cases hr

theorem freedBy_releases (h : CudaInv s) {r : Release} (hr : r ∈ s.releases a) : r.freedBy = .host := by
  have hcleared (hr : r ∈ s.cleared) : r.freedBy = .host := by
    obtain ⟨budget, -, rfl⟩ := List.mem_map.1 hr
    rfl
  cases a with
  | go i =>
    simp only [CudaState.releases] at hr
    split at hr
    · exact hcleared hr
    · next hc => exact (h.pool.sound _ (List.mem_of_getElem? hc)).elim
    · cases hr
  | destroy => exact hcleared hr
  | _ => cases hr

theorem deviceOf_eq (h : CudaInv s) (hs : s.step a = some (.ok s')) {i : ℕ} {c : PoolCall}
    (hc : s.pool.calls[i]? = some c) : s'.deviceOf i = s.deviceOf i := by
  have hi : i < s.devices.length := h.devices ▸ (List.getElem?_eq_some_iff.1 hc).1
  rw [CudaState.deviceOf, CudaState.deviceOf, (cuda_step_eq hs).2.1, List.getD_eq_getElem?_getD,
    List.getElem?_append_left hi, List.getD_eq_getElem?_getD]

/-- A block keeps its kind as long as it is allocated. -/
theorem kindOf_eq (h : CudaInv s) (hs : s.step a = some (.ok s')) {b : Entry} (hb : b ∈ s.pool.heap) :
    s'.kindOf b.ptr = s.kindOf b.ptr := by
  have hkinds := (cuda_step_eq hs).2.2.1
  cases a with
  | alloc j ptr =>
    rcases h.ok_cases hs with ⟨b', hb', -, hsteps⟩ | ⟨ha, -⟩
    · cases hb'
      have hne : (b.ptr == ptr) = false := beq_false_of_ne (hsteps.fresh.2 b hb)
      rw [CudaState.kindOf, hkinds]
      simp only [CudaState.allocates, List.cons_append, List.nil_append, List.lookup_cons, hne]
      rfl
    · cases ha
  | _ => rw [CudaState.kindOf, hkinds]; rfl

/-- The record before a step, with the kinds that the blocks have after it. -/
theorem recorded_kindOf (h : CudaInv s) (hs : s.step a = some (.ok s')) : s.kinds.Perm
    ((s.released.map fun r => (r.ptr, r.allocatedBy)) ++ s.pool.heap.map fun b => (b.ptr, s'.kindOf b.ptr)) := by
  have hkept : s.pool.heap.map (fun b => (b.ptr, s.kindOf b.ptr)) = s.pool.heap.map fun b => (b.ptr, s'.kindOf b.ptr) :=
    List.map_congr_left fun b hb => by rw [h.kindOf_eq hs hb]
  exact hkept ▸ h.recorded

theorem recorded_same (h : CudaInv s) (hs : s.step a = some (.ok s')) (ha : s.allocates a = []) (hr : s.releases a = [])
    (hheap : s'.pool.heap = s.pool.heap) : s'.Recorded := by
  obtain ⟨-, -, hkinds, hreleased, -⟩ := cuda_step_eq hs
  rw [CudaState.Recorded, hkinds, hreleased, ha, hr, hheap, List.nil_append, List.append_nil]
  exact h.recorded_kindOf hs

theorem recorded_cleared (h : CudaInv s) (hs : s.step a = some (.ok s')) (ha : s.allocates a = [])
    (hr : s.releases a = s.cleared) (hp : s.pool.heap.Perm (s.pool.budgets ++ s'.pool.heap)) : s'.Recorded := by
  obtain ⟨-, -, hkinds, hreleased, -⟩ := cuda_step_eq hs
  have hbudgets : (s.cleared.map fun r => (r.ptr, r.allocatedBy)) =
      s.pool.budgets.map fun b => (b.ptr, s'.kindOf b.ptr) := by
    rw [CudaState.cleared, List.map_map]
    refine List.map_congr_left fun b hb => ?_
    exact congrArg (Prod.mk b.ptr) (h.kindOf_eq hs (hp.mem_iff.2 (List.mem_append_left _ hb))).symm
  have hp' := hp.map fun b => (b.ptr, s'.kindOf b.ptr)
  rw [List.map_append] at hp'
  rw [CudaState.Recorded, hkinds, hreleased, ha, hr, List.nil_append, List.map_append, hbudgets, List.append_assoc]
  exact (h.recorded_kindOf hs).trans (hp'.append_left _)

/-- What a step allocates is recorded as the call has asked for it. -/
theorem kindOf_alloc {i ptr : ℕ} (hs : s.step (.alloc i ptr) = some (.ok s')) :
    s'.kindOf ptr = .ofDevice (s.deviceOf i) := by
  rw [CudaState.kindOf, (cuda_step_eq hs).2.2.1]
  simp [CudaState.allocates]

theorem recorded_alloc (h : CudaInv s) {i ptr size : ℕ} (hs : s.step (.alloc i ptr) = some (.ok s'))
    (hheap : s'.pool.heap = s.pool.heap ++ [⟨size, ptr⟩]) : s'.Recorded := by
  obtain ⟨-, -, hkinds, hreleased, -⟩ := cuda_step_eq hs
  rw [CudaState.Recorded, hkinds, hreleased, hheap]
  simp only [CudaState.allocates, CudaState.releases, List.append_nil, List.cons_append, List.nil_append,
    List.map_append, List.map_cons, List.map_nil, kindOf_alloc hs]
  rw [← List.append_assoc]
  exact ((h.recorded_kindOf hs).cons _).trans (List.perm_append_singleton _ _).symm

/-- **The record** stays up to date. -/
theorem recorded_step (h : CudaInv s) (hs : s.step a = some (.ok s')) : s'.Recorded := by
  rcases h.ok_cases hs with ⟨b, hb, -, hsteps⟩ | ⟨rfl, -, -, hpool, hp⟩
  · obtain ⟨pool, hpool⟩ : ∃ pool, s'.pool = pool := ⟨_, rfl⟩
    rw [hpool] at hsteps
    cases a with
    | go i =>
      cases hb
      cases hsteps with
      | release hc hp => exact h.recorded_cleared hs rfl (by simp [CudaState.releases, hc]) (by rw [hpool]; exact hp)
      | _ => exact h.recorded_same hs rfl (by simp [CudaState.releases, *]) (by rw [hpool]; rfl)
    | alloc i ptr =>
      cases hb
      cases hsteps
      exact h.recorded_alloc hs (by rw [hpool]; rfl)
    | destroy => cases hb
    | _ =>
      cases hb
      cases hsteps
      exact h.recorded_same hs rfl rfl (by rw [hpool])
  · refine h.recorded_cleared hs rfl rfl ?_
    rw [hpool, List.append_nil]
    exact hp

theorem pool_destroyed (h : CudaInv s) (hp : s.pool.heap.Perm s.pool.budgets) :
    PoolInv { s.pool with heap := [], budgets := [] } where
  placed b := by
    have hb := h.pool.placed b
    rw [hp.count_eq] at hb
    show 0 + s.pool.payouts.count b + s.pool.hands.count b = 0
    omega
  owed := h.pool.owed
  apart := .nil
  sound := h.pool.sound

/-- A step keeps the invariant, unless it is the destructor while someone still owns a block. -/
theorem step (h : CudaInv s) {r : Outcome Empty CudaState} (hs : s.step a = some r) :
    (∃ s', r = .ok s' ∧ CudaInv s') ∨ a = .destroy ∧ ¬ s.GivenBack ∧ r = .terminated := by
  obtain ⟨p, hpool, rfl⟩ := Option.map_eq_some_iff.1 hs
  rcases h.pool_cases hpool with ⟨b, pool, hb, rfl, -, hsteps⟩ | ⟨rfl, hq, ⟨-, rfl, hp⟩ | ⟨hback, rfl⟩⟩
  · refine .inl ⟨_, rfl, hsteps.inv h.pool, ?_, h.recorded_step hs, ?_, ?_⟩
    · show (s.devices ++ a.device).length = pool.calls.length
      rw [List.length_append, h.devices]
      have hmove (p : PoolState) (j : ℕ) (c : PoolCall) : (p.move j c).calls.length = p.calls.length := List.length_set
      cases a with
      | fastMalloc size device => cases hb; cases hsteps; simp [CudaStep.device]
      | fastFree owner device => cases hb; cases hsteps; simp [CudaStep.device]
      | clear => cases hb; cases hsteps; simp [CudaStep.device]
      | destroy => cases hb
      | setSizeCompareRatio ratio => cases hb; cases hsteps; rfl
      | go j => cases hb; cases hsteps <;> exact (hmove _ _ _).symm
      | alloc j ptr => cases hb; cases hsteps; exact (hmove _ _ _).symm
    · intro r hr
      rcases List.mem_append.1 hr with hr | hr
      · exact h.freedBy r hr
      · exact h.freedBy_releases hr
    · intro hd
      obtain rfl : a = .destroy := beq_iff_eq.1 hd
      cases hb
  · refine .inl ⟨_, rfl, ?_, ?_, h.recorded_step hs, ?_, fun _ => ⟨hq, rfl⟩⟩
    · exact h.pool_destroyed hp
    · simpa [CudaStep.device] using h.devices
    · intro r hr
      rcases List.mem_append.1 hr with hr | hr
      · exact h.freedBy r hr
      · exact h.freedBy_releases hr
  · exact .inr ⟨rfl, hback, rfl⟩

/-! ### Safe steps -/

theorem mem_heap_of_budget (h : CudaInv s) {budget : Entry} (hb : budget ∈ s.pool.budgets) : budget ∈ s.pool.heap := by
  have := List.count_pos_iff.2 hb
  exact h.pool.mem_heap (by omega)

/-- What a safe step releases is the budgets, none of which is pinned. -/
theorem releases_matched (h : CudaInv s) (hsafe : s.Safe a) {r : Release} (hr : r ∈ s.releases a) : r.freedBy = r.allocatedBy := by
  have hcleared (hhost : ∀ budget ∈ s.pool.budgets, s.kindOf budget.ptr = .host) (hr : r ∈ s.cleared) :
      r.freedBy = r.allocatedBy := by
    obtain ⟨budget, hbudget, rfl⟩ := List.mem_map.1 hr
    exact (hhost budget hbudget).symm
  cases a with
  | go i =>
    simp only [CudaState.releases] at hr
    split at hr
    · next hc => exact hcleared (hsafe.1 hc) hr
    · next hc => exact (h.pool.sound _ (List.mem_of_getElem? hc)).elim
    · cases hr
  | destroy => exact hcleared hsafe.2 hr
  | _ => cases hr

/-- After a safe step, those who ask for pinned memory have it: from before, from the budgets, or new. -/
theorem received_matched (h : CudaInv s) (hm : s.Matched) (hsafe : s.Safe a) (hs : s.step a = some (.ok s')) {i : ℕ}
    {block : Entry} (hg : s'.pool.Gives i block) (hdev : 0 ≤ s'.deviceOf i) : s'.kindOf block.ptr = .pinned := by
  have hkept (hold : s.pool.Gives i block) : s'.kindOf block.ptr = .pinned := by
    have ⟨c, hc, _⟩ := hold
    rw [h.kindOf_eq hs (h.pool.mem_heap_of_gives hold)]
    rw [h.deviceOf_eq hs hc] at hdev
    exact hm.received i block hold hdev
  rcases h.ok_cases hs with ⟨b, hb, hstep, hsteps⟩ | ⟨-, -, -, hpool, -⟩
  · rcases gives_step hstep hg with hold | ⟨rfl, size, hc, hf⟩ | ⟨ptr, rfl, rfl⟩
    · exact hkept hold
    · cases a with
      | go j =>
        cases hb
        rw [h.deviceOf_eq hs hc] at hdev
        rw [h.kindOf_eq hs (h.mem_heap_of_budget (List.mem_of_find?_eq_some hf))]
        obtain ⟨hfits, before, after, hbudgets, hbefore⟩ := List.find?_eq_some_iff_append.1 hf
        exact hsafe.2 size before block after hc hdev hbudgets (fun b hb => by simpa using hbefore b hb) hfits
      | destroy => cases hb
      | _ => cases hb
    · cases a with
      | alloc j ptr =>
        cases hb
        obtain ⟨size, hc⟩ := hsteps.fresh.1
        rw [h.deviceOf_eq hs hc] at hdev
        rw [kindOf_alloc hs, BlockKind.ofDevice, if_pos hdev]
      | destroy => cases hb
      | _ => cases hb
  · rw [hpool] at hg
    exact hkept hg

/-- A safe step releases each block the way it was allocated, and gives pinned memory to those who ask for it. -/
theorem matched (h : CudaInv s) (hm : s.Matched) (hsafe : s.Safe a) (hs : s.step a = some (.ok s')) (h' : CudaInv s') :
    s'.Matched := by
  obtain ⟨-, -, -, hreleased, -⟩ := cuda_step_eq hs
  refine ⟨fun r hr => ?_, fun i block => h.received_matched hm hsafe hs, fun hd => ?_⟩
  · rw [hreleased] at hr
    exact (List.mem_append.1 hr).elim (hm.released r) (h.releases_matched hsafe)
  · have hrecord := h'.recorded
    rw [CudaState.Recorded, (h'.gone hd).2, List.map_nil, List.append_nil] at hrecord
    exact hrecord

/-- A step after which the record is right was safe. -/
theorem safe (h : CudaInv s) (hm : s'.Matched) (hs : s.step a = some (.ok s')) : s.Safe a := by
  obtain ⟨hp, -, -, hreleased, -⟩ := cuda_step_eq hs
  -- a block that has been released is not pinned
  have hcleared (hr : s.releases a = s.cleared) : ∀ budget ∈ s.pool.budgets, s.kindOf budget.ptr = .host := by
    intro budget hbudget
    have hmem : ⟨budget.ptr, .host, s.kindOf budget.ptr⟩ ∈ s'.released := by
      rw [hreleased, hr]
      exact List.mem_append_right _ (List.mem_map_of_mem hbudget)
    exact (hm.released _ hmem).symm
  cases a with
  | go i =>
    refine ⟨fun hc => hcleared (by simp [CudaState.releases, hc]), fun size before budget after hc hdev hb hbefore hfits => ?_⟩
    have hf : s.pool.budgets.find? (fits s.pool.sizeCompareRatio size) = some budget :=
      List.find?_eq_some_iff_append.2 ⟨hfits, before, after, hb, fun b hb => by simp [hbefore b hb]⟩
    have hg : s'.pool.Gives i budget := by
      rcases h.ok_cases hs with ⟨b, hb, hstep, -⟩ | ⟨ha, -⟩
      · cases hb
        simp only [PoolState.step, hc, Option.bind_some, PoolState.go, hf, Option.some.injEq, Outcome.ok.injEq] at hstep
        refine ⟨.paying size budget, ?_, rfl⟩
        rw [← hstep]
        exact List.getElem?_set_self (List.getElem?_eq_some_iff.1 hc).1
      · cases ha
    rw [← h.kindOf_eq hs (h.mem_heap_of_budget (List.mem_of_find?_eq_some hf))]
    exact hm.received i budget hg (h.deviceOf_eq hs hc ▸ hdev)
  | destroy =>
    rcases h.ok_cases hs with ⟨b, hb, -⟩ | ⟨-, -, hback, -⟩
    · cases hb
    · exact ⟨hback, hcleared rfl⟩
  | _ => trivial

end CudaInv

/-! ## Pinned memory -/

/-- The call of `fastMalloc` has no block yet. -/
def PoolCall.unserved : PoolCall → Bool
  | searching _ => true
  | missed _ => true
  | _ => false

/-- Some call that names a device has no block yet, or a pinned block has been allocated. -/
def CudaState.WithPinned (s : CudaState) : Prop :=
  (∃ (i : ℕ) (c : PoolCall), s.pool.calls[i]? = some c ∧ c.unserved = true ∧ 0 ≤ s.deviceOf i) ∨
    ∃ ptr, (ptr, BlockKind.pinned) ∈ s.kinds

section Unserved

variable {s s' : PoolState} {i j : ℕ} {c d e : PoolCall}

theorem unserved_concat (hc : s.calls[i]? = some c) : (s.calls ++ [d])[i]? = some c := by
  rw [List.getElem?_append_left (List.getElem?_eq_some_iff.1 hc).1, hc]

theorem unserved_of_concat (hc : (s.calls ++ [d])[i]? = some c) (hu : c.unserved = true) :
    s.calls[i]? = some c ∨ i = s.calls.length ∧ d.unserved = true := by
  rw [List.getElem?_append] at hc
  split at hc
  · exact .inl hc
  · next hlt =>
    have hlt' := (List.getElem?_eq_some_iff.1 hc).1
    rw [List.length_singleton] at hlt'
    obtain rfl := List.mem_singleton.1 (List.mem_of_getElem? hc)
    exact .inr ⟨by omega, hu⟩

/-- A call moves on; where it has waited for a block, it waits on or has one. -/
theorem unserved_move (hd : s.calls[j]? = some d)
    (hde : d.unserved = true → e.unserved = true ∨ ∃ block, e.given? = some block) (hc : s.calls[i]? = some c)
    (hu : c.unserved = true) :
    (∃ c', (s.move j e).calls[i]? = some c' ∧ c'.unserved = true) ∨ ∃ block, (s.move j e).Gives i block := by
  by_cases hji : j = i
  · subst hji
    rw [hd] at hc
    cases hc
    have hself : (s.move j e).calls[j]? = some e := List.getElem?_set_self (List.getElem?_eq_some_iff.1 hd).1
    rcases hde hu with he | ⟨block, hblock⟩
    · exact .inl ⟨e, hself, he⟩
    · exact .inr ⟨block, e, hself, hblock⟩
  · exact .inl ⟨c, by rw [PoolState.move, List.getElem?_set_ne hji, hc], hu⟩

theorem unserved_of_move (hd : s.calls[j]? = some d) (hed : e.unserved = true → d.unserved = true)
    (hc : (s.move j e).calls[i]? = some c) (hu : c.unserved = true) :
    ∃ c', s.calls[i]? = some c' ∧ c'.unserved = true := by
  by_cases hji : j = i
  · subst hji
    rw [PoolState.move, List.getElem?_set_self (List.getElem?_eq_some_iff.1 hd).1] at hc
    cases hc
    exact ⟨d, hd, hed hu⟩
  · rw [PoolState.move, List.getElem?_set_ne hji] at hc
    exact ⟨c, hc, hu⟩

variable {a : PoolStep}

theorem PoolSteps.unserved (h : PoolSteps s a s') (hc : s.calls[i]? = some c) (hu : c.unserved = true) :
    (∃ c', s'.calls[i]? = some c' ∧ c'.unserved = true) ∨ ∃ block, s'.Gives i block := by
  cases h with
  | ratio ratio => exact .inl ⟨c, hc, hu⟩
  | fastMalloc size => exact .inl ⟨c, unserved_concat hc, hu⟩
  | clear => exact .inl ⟨c, unserved_concat hc, hu⟩
  | fastFree hd =>
    rcases unserved_move hd nofun hc hu with ⟨c', hc', hu'⟩ | ⟨block, hg⟩
    · exact .inl ⟨c', unserved_concat hc', hu'⟩
    · obtain ⟨d, hd, hb⟩ := hg
      exact .inr ⟨block, d, unserved_concat hd, hb⟩
  | reuse hd hle hp => exact unserved_move (s := { s with budgets := _ }) hd (fun _ => .inr ⟨_, rfl⟩) hc hu
  | miss hd => exact unserved_move hd (fun _ => .inl rfl) hc hu
  | alloc hd hdisj => exact unserved_move (s := { s with heap := _ }) hd (fun _ => .inr ⟨_, rfl⟩) hc hu
  | pay hd => exact unserved_move (s := { s with payouts := _ }) hd nofun hc hu
  | take hd hp => exact unserved_move (s := { s with payouts := _ }) hd nofun hc hu
  | giveBack hd => exact unserved_move (s := { s with budgets := _ }) hd nofun hc hu
  | release hd hp => exact unserved_move (s := { s with heap := _, budgets := _ }) hd nofun hc hu

theorem PoolSteps.unserved_of (h : PoolSteps s a s') (hc : s'.calls[i]? = some c) (hu : c.unserved = true) :
    (∃ c', s.calls[i]? = some c' ∧ c'.unserved = true) ∨ ∃ size, a = .fastMalloc size ∧ i = s.calls.length := by
  cases h with
  | ratio ratio => exact .inl ⟨c, hc, hu⟩
  | fastMalloc size =>
    rcases unserved_of_concat hc hu with hc | ⟨hi, -⟩
    · exact .inl ⟨c, hc, hu⟩
    · exact .inr ⟨size, rfl, hi⟩
  | clear =>
    rcases unserved_of_concat hc hu with hc | ⟨-, hno⟩
    · exact .inl ⟨c, hc, hu⟩
    · cases hno
  | @fastFree owner _ _ hd =>
    rcases unserved_of_concat (s := s.move owner .finished) hc hu with hc | ⟨-, hno⟩
    · exact .inl (unserved_of_move hd (fun hno => by cases hno) hc hu)
    · cases hno
  | reuse hd hle hp => exact .inl (unserved_of_move (s := { s with budgets := _ }) hd (fun hno => by cases hno) hc hu)
  | miss hd => exact .inl (unserved_of_move hd (fun _ => rfl) hc hu)
  | alloc hd hdisj => exact .inl (unserved_of_move (s := { s with heap := _ }) hd (fun hno => by cases hno) hc hu)
  | pay hd => exact .inl (unserved_of_move (s := { s with payouts := _ }) hd (fun hno => by cases hno) hc hu)
  | take hd hp => exact .inl (unserved_of_move (s := { s with payouts := _ }) hd (fun hno => by cases hno) hc hu)
  | giveBack hd => exact .inl (unserved_of_move (s := { s with budgets := _ }) hd (fun hno => by cases hno) hc hu)
  | release hd hp => exact .inl (unserved_of_move (s := { s with heap := _, budgets := _ }) hd (fun hno => by cases hno) hc hu)

end Unserved

namespace CudaInv

variable {s s' : CudaState} {a : CudaStep}

theorem withPinned_fastMalloc (h : CudaInv s) {size : ℕ} {device : ℤ} (hdev : 0 ≤ device)
    (hs : s.step (.fastMalloc size device) = some (.ok s')) : s'.WithPinned := by
  have hcall : s'.pool.calls[s.pool.calls.length]? = some (.searching size) := by
    rcases h.ok_cases hs with ⟨b, hb, hstep, -⟩ | ⟨ha, -⟩
    · cases hb
      simp only [PoolState.step, Option.some.injEq, Outcome.ok.injEq] at hstep
      rw [← hstep]
      exact List.getElem?_concat_length
    · cases ha
  refine .inl ⟨_, _, hcall, rfl, ?_⟩
  rw [CudaState.deviceOf, (cuda_step_eq hs).2.1, ← h.devices]
  simpa [CudaStep.device] using hdev

/-- There is pinned memory as long as who asks for it gets it. -/
theorem withPinned_step (h : CudaInv s) (hs : s.step a = some (.ok s')) (hm : s'.Matched) (hp : s.WithPinned) :
    s'.WithPinned := by
  obtain ⟨-, -, hkinds, -⟩ := cuda_step_eq hs
  rcases hp with ⟨i, c, hc, hu, hdev⟩ | ⟨ptr, hptr⟩
  · rw [← h.deviceOf_eq hs hc] at hdev
    rcases h.ok_cases hs with ⟨b, -, -, hsteps⟩ | ⟨-, -, -, hpool, -⟩
    · rcases hsteps.unserved hc hu with ⟨c', hc', hu'⟩ | ⟨block, hg⟩
      · exact .inl ⟨i, c', hc', hu', hdev⟩
      · have hkind := hm.received i block hg hdev
        rw [CudaState.kindOf] at hkind
        cases hl : s'.kinds.lookup block.ptr with
        | none =>
          rw [hl] at hkind
          cases hkind
        | some kind =>
          rw [hl] at hkind
          obtain rfl : kind = .pinned := hkind
          obtain ⟨before, after, heq, -⟩ := List.lookup_eq_some_iff.1 hl
          exact .inr ⟨block.ptr, by simp [heq]⟩
    · exact .inl ⟨i, c, by rw [hpool]; exact hc, hu, hdev⟩
  · exact .inr ⟨ptr, by rw [hkinds]; exact List.mem_append_right _ hptr⟩

/-- It comes from a call that names a device. -/
theorem withPinned_of_step (h : CudaInv s) (hs : s.step a = some (.ok s')) (hp : s'.WithPinned) :
    s.WithPinned ∨ ∃ size device, a = .fastMalloc size device ∧ 0 ≤ device := by
  obtain ⟨-, hdevices, hkinds, -⟩ := cuda_step_eq hs
  rcases hp with ⟨i, c, hc, hu, hdev⟩ | ⟨ptr, hptr⟩
  · rcases h.ok_cases hs with ⟨b, hb, -, hsteps⟩ | ⟨-, -, -, hpool, -⟩
    · rcases hsteps.unserved_of hc hu with ⟨c', hc', hu'⟩ | ⟨size, rfl, rfl⟩
      · rw [h.deviceOf_eq hs hc'] at hdev
        exact .inl (.inl ⟨i, c', hc', hu', hdev⟩)
      · cases a with
        | fastMalloc size' device =>
          rw [CudaState.deviceOf, hdevices, ← h.devices] at hdev
          exact .inr ⟨size', device, rfl, by simpa [CudaStep.device] using hdev⟩
        | _ => cases hb
    · rw [hpool] at hc
      exact .inl (.inl ⟨i, c, hc, hu, h.deviceOf_eq hs hc ▸ hdev⟩)
  · rw [hkinds] at hptr
    rcases List.mem_append.1 hptr with hptr | hptr
    · -- the call that the block is allocated for has waited for it
      cases a with
      | alloc i ptr' =>
        rcases h.ok_cases hs with ⟨b, hb, -, hsteps⟩ | ⟨ha, -⟩
        · cases hb
          obtain ⟨size, hc⟩ := hsteps.fresh.1
          have hkind : BlockKind.pinned = .ofDevice (s.deviceOf i) := congrArg Prod.snd (List.mem_singleton.1 hptr)
          refine .inl (.inl ⟨i, _, hc, rfl, ?_⟩)
          by_contra hneg
          rw [BlockKind.ofDevice, if_neg hneg] at hkind
          cases hkind
        · cases ha
      | _ => cases hptr
    · exact .inl (.inr ⟨ptr, hptr⟩)

/-- Where pinned memory is neither asked for nor allocated, everything is safe but the destructor. -/
theorem safe_of_not_withPinned (hp : ¬ s.WithPinned) (hback : a = .destroy → s.GivenBack) : s.Safe a := by
  have hhost (ptr : ℕ) : s.kindOf ptr = .host := by
    rw [CudaState.kindOf]
    cases hl : s.kinds.lookup ptr with
    | none => rfl
    | some kind =>
      cases kind with
      | host => rfl
      | pinned =>
        obtain ⟨before, after, heq, -⟩ := List.lookup_eq_some_iff.1 hl
        exact absurd (.inr ⟨ptr, by simp [heq]⟩) hp
  cases a with
  | go i =>
    exact ⟨fun _ budget _ => hhost budget.ptr,
      fun size before budget after hc hdev => absurd (.inl ⟨i, _, hc, rfl, hdev⟩) hp⟩
  | destroy => exact ⟨hback rfl, fun budget _ => hhost budget.ptr⟩
  | _ => trivial

/-- The destructor leaves the record right only if there is no pinned memory: nothing calls `cudaFreeHost`. -/
theorem not_withPinned_of_destroyed (h : CudaInv s) (hd : s.destroyed = true) (hm : s.Matched) : ¬ s.WithPinned := by
  rintro (⟨i, c, hc, hu, -⟩ | ⟨ptr, hptr⟩)
  · have hquiet := List.all_eq_true.1 (h.gone hd).1 c (List.mem_of_getElem? hc)
    cases c <;> first | (cases hquiet; done) | cases hu
  · obtain ⟨r, hr, heq⟩ := List.mem_map.1 ((hm.all hd).mem_iff.1 hptr)
    have hkind : r.allocatedBy = .pinned := congrArg Prod.snd heq
    have hfreed := hm.released r hr
    rw [h.freedBy r hr, hkind] at hfreed
    cases hfreed

end CudaInv

/-! ## Runs -/

theorem cudaPool_inv : ∀ t r, cudaPool.run t = some r → (∃ s, r = .ok s ∧ CudaInv s) ∨ r = .terminated := by
  refine Machine.invariant (I := fun _ (r : Outcome Empty CudaState) => (∃ s, r = .ok s ∧ CudaInv s) ∨ r = .terminated) ?_ ?_
  · refine .inl ⟨_, rfl, ⟨fun _ => rfl, fun _ => rfl, .nil, fun c hc => ?_⟩, rfl, .nil, fun r hr => ?_, nofun⟩
    · cases hc
    · cases hr
  · rintro t r a r' _ (⟨s, rfl, h⟩ | rfl) hstep
    · exact (h.step hstep).imp_right fun h => h.2.2
    · cases hstep

/-- In all states of the run the blocks are released the way they were allocated, and those who ask for pinned memory get
it; it does not end with `LOG(FATAL)`. -/
def Matching (t : List CudaStep) : Prop :=
  ∀ u r, u <+: t → cudaPool.run u = some r → ∃ s, r = .ok s ∧ s.Matched

/-- All steps of the run are safe. -/
def SafeRun (t : List CudaStep) : Prop := ∀ u a s, u ++ [a] <+: t → cudaPool.run u = some (.ok s) → s.Safe a

/-- All blocks have been given back when the allocator is destroyed. -/
def AllGivenBack (t : List CudaStep) : Prop :=
  ∀ u s, u ++ [.destroy] <+: t → cudaPool.run u = some (.ok s) → s.GivenBack

section Runs

variable {t : List CudaStep} {r : Outcome Empty CudaState}

/-- A step on the way, between two states of the run. -/
theorem exists_step (hr : cudaPool.run t = some r) {u : List CudaStep} {a : CudaStep} {s : CudaState}
    (hu : u ++ [a] <+: t) (hs : cudaPool.run u = some (.ok s)) :
    CudaInv s ∧ ∃ r', s.step a = some r' ∧ cudaPool.run (u ++ [a]) = some r' := by
  obtain ⟨v, rfl⟩ := hu
  obtain ⟨r', hr'⟩ := cudaPool.run_of_append hr
  obtain ⟨_, hu', hstep⟩ := cudaPool.run_concat_eq_some.1 hr'
  rw [hs] at hu'
  cases hu'
  rcases cudaPool_inv u _ hs with ⟨_, h, hinv⟩ | h
  · cases h
    exact ⟨hinv, r', hstep, hr'⟩
  · cases h

theorem destroyed_of_mem : ∀ t r, cudaPool.run t = some r → .destroy ∈ t → ∀ s, r = .ok s → s.destroyed = true := by
  refine Machine.invariant (I := fun (t : List CudaStep) (r : Outcome Empty CudaState) =>
    .destroy ∈ t → ∀ s, r = .ok s → s.destroyed = true) nofun ?_
  rintro t r a r' - ih hstep hmem s' rfl
  cases r with
  | ok s =>
    rw [(cuda_step_eq hstep).2.2.2.2]
    rcases List.mem_append.1 hmem with hmem | hmem
    · -- nothing comes after it
      obtain ⟨p, hp, -⟩ := Option.map_eq_some_iff.1 hstep
      rw [CudaState.poolAfter, if_pos (ih hmem s rfl)] at hp
      cases hp
    · obtain rfl := List.mem_singleton.1 hmem
      rfl
  | thrown e => cases hstep
  | terminated => cases hstep
  | undefined => cases hstep

theorem matching_iff (hr : cudaPool.run t = some r) : Matching t ↔ SafeRun t := by
  constructor
  · intro hall u a s hu hs
    obtain ⟨hinv, r', hstep, hr'⟩ := exists_step hr hu hs
    obtain ⟨s', rfl, hm⟩ := hall _ r' hu hr'
    exact hinv.safe hm hstep
  · intro hsafe u r' hu hrun
    have hmatched : ∃ s, r' = .ok s ∧ CudaInv s ∧ s.Matched := by
      refine Machine.invariant_of (C := fun u => u <+: t)
        (I := fun _ (r : Outcome Empty CudaState) => ∃ s, r = .ok s ∧ CudaInv s ∧ s.Matched)
        (fun u a h => (List.prefix_append u [a]).trans h) ?_ ?_ u _ hu hrun
      · rcases cudaPool_inv [] _ rfl with ⟨s, hs, hinv⟩ | h
        · cases hs
          refine ⟨_, rfl, hinv, fun r hr => ?_, ?_, nofun⟩
          · cases hr
          · rintro i block ⟨c, hc, -⟩
            cases hc
        · cases h
      · rintro u r a r' hu' ha ⟨s, rfl, hinv, hm⟩ hstep
        rcases hinv.step hstep with ⟨s', rfl, hinv'⟩ | ⟨rfl, hback, -⟩
        · exact ⟨s', rfl, hinv', hinv.matched hm (hsafe u a s ha hu') hstep hinv'⟩
        · exact absurd (hsafe u _ s ha hu').1 hback
    obtain ⟨s, rfl, -, hm⟩ := hmatched
    exact ⟨s, rfl, hm⟩

/-- From the first call that names a device on there is pinned memory, as long as who asks for it gets it. -/
theorem withPinned_run {size : ℕ} {device : ℤ} (hdev : 0 ≤ device) (hall : Matching t) : ∀ u r, u <+: t →
    cudaPool.run u = some r → .fastMalloc size device ∈ u → ∃ s, r = .ok s ∧ CudaInv s ∧ s.WithPinned := by
  refine Machine.invariant_of (C := fun u => u <+: t)
    (I := fun (u : List CudaStep) (r : Outcome Empty CudaState) =>
      .fastMalloc size device ∈ u → ∃ s, r = .ok s ∧ CudaInv s ∧ s.WithPinned)
    (fun u a h => (List.prefix_append u [a]).trans h) nofun ?_
  intro u r a r' hu ha ih hstep hmem
  have hrun : cudaPool.run (u ++ [a]) = some r' := cudaPool.run_concat_eq_some.2 ⟨r, hu, hstep⟩
  obtain ⟨s', rfl, hm⟩ := hall _ r' ha hrun
  have hinv' : CudaInv s' := by
    rcases cudaPool_inv _ _ hrun with ⟨_, h, hinv⟩ | h
    · cases h
      exact hinv
    · cases h
  rcases cudaPool_inv u r hu with ⟨s, rfl, hinv⟩ | rfl
  · refine ⟨s', rfl, hinv', ?_⟩
    rcases List.mem_append.1 hmem with hmem | hmem
    · obtain ⟨_, h, -, hp⟩ := ih hmem
      cases h
      exact hinv.withPinned_step hstep hm hp
    · obtain rfl := List.mem_singleton.1 hmem
      exact hinv.withPinned_fastMalloc hdev hstep
  · cases hstep

theorem not_withPinned_run (hhost : ∀ size device, .fastMalloc size device ∈ t → device < 0) : ∀ u r, u <+: t →
    cudaPool.run u = some r → ∀ s, r = .ok s → ¬ s.WithPinned := by
  refine Machine.invariant_of (C := fun u => u <+: t)
    (I := fun _ (r : Outcome Empty CudaState) => ∀ s, r = .ok s → ¬ s.WithPinned)
    (fun u a h => (List.prefix_append u [a]).trans h) ?_ ?_
  · rintro s h (⟨i, c, hc, -⟩ | ⟨ptr, hptr⟩)
    · cases h
      cases hc
    · cases h
      cases hptr
  · rintro u r a r' hu ha ih hstep s' rfl hp
    rcases cudaPool_inv u r hu with ⟨s, rfl, hinv⟩ | rfl
    · rcases hinv.withPinned_of_step hstep hp with hold | ⟨size, device, rfl, hdev⟩
      · exact ih s rfl hold
      · have hneg := hhost size device (ha.subset (List.mem_append_right u List.mem_cons_self))
        omega
    · cases hstep

end Runs

/-- **Blocks are released the way they were allocated**, and those who ask for pinned memory get it, in all states of a
run exactly if all of its steps are safe.  A run to the destructor is such a run exactly if no call of `fastMalloc` names a
device and all blocks are given back before. -/
theorem cudaPool_matched_iff (t : List CudaStep) (r : Outcome Empty CudaState) (hr : cudaPool.run t = some r) :
    (Matching t ↔ SafeRun t) ∧
      (.destroy ∈ t → (Matching t ↔ (∀ size device, .fastMalloc size device ∈ t → device < 0) ∧ AllGivenBack t)) := by
  have hsafe := matching_iff hr
  refine ⟨hsafe, fun hdestroy => ⟨fun hall => ⟨fun size device hmem => ?_, fun u s hu hs => ?_⟩, fun h => ?_⟩⟩
  · -- the destructor is the last step, and there is no pinned memory after it
    by_contra hdev
    obtain ⟨s, rfl, hinv, hp⟩ := withPinned_run (by omega) hall t r List.prefix_rfl hr hmem
    obtain ⟨_, h, hm⟩ := hall t _ List.prefix_rfl hr
    cases h
    exact hinv.not_withPinned_of_destroyed (destroyed_of_mem t _ hr hdestroy s rfl) hm hp
  · exact (hsafe.1 hall u .destroy s hu hs).1
  · refine hsafe.2 fun u a s hu hs => ?_
    refine CudaInv.safe_of_not_withPinned (not_withPinned_run h.1 u _ ?_ hs s rfl) ?_
    · exact (List.prefix_append u [a]).trans hu
    · rintro rfl
      exact h.2 u s hu hs

/-- A pinned block is given back and taken again for the same device. -/
def pinnedRun : List CudaStep :=
  [.fastMalloc 100 0, .go 0, .alloc 0 4096, .go 0, .fastFree 0 0, .go 1, .go 1, .fastMalloc 80 0, .go 2, .go 2]

/-- A block of the heap is used twice, and given back before the allocator is destroyed. -/
def hostRun : List CudaStep :=
  [.fastMalloc 100 (-1), .go 0, .alloc 0 4096, .go 0, .fastFree 0 (-1), .go 1, .go 1, .fastMalloc 80 (-1), .go 2, .go 2,
    .fastFree 2 0, .go 3, .go 3, .destroy]

theorem cudaPool_matched_iff_run :
    (∃ s, cudaPool.run pinnedRun = some (.ok s) ∧ s.pool.calls[2]? = some (.owning 80 ⟨100, 4096⟩) ∧
      s.kindOf 4096 = .pinned ∧ (Matching pinnedRun ↔ SafeRun pinnedRun)) ∧
    ∃ s, cudaPool.run hostRun = some (.ok s) ∧ s.released = [⟨4096, .host, .host⟩] ∧ (Matching hostRun ↔
      (∀ size device, .fastMalloc size device ∈ hostRun → device < 0) ∧ AllGivenBack hostRun) :=
  ⟨⟨_, rfl, rfl, rfl, (cudaPool_matched_iff pinnedRun _ rfl).1⟩,
    ⟨_, rfl, rfl, (cudaPool_matched_iff hostRun _ rfl).2 (by decide)⟩⟩

/-- A pinned block is idle when `clear` comes. -/
def clearPinnedRun : List CudaStep :=
  [.fastMalloc 100 0, .go 0, .alloc 0 4096, .go 0, .fastFree 0 0, .go 1, .go 1, .clear, .go 2]

/-- A block of the heap is idle when pinned memory is asked for. -/
def reuseHostRun : List CudaStep :=
  [.fastMalloc 100 (-1), .go 0, .alloc 0 4096, .go 0, .fastFree 0 (-1), .go 1, .go 1, .fastMalloc 100 0, .go 2, .go 2]

theorem not_matched :
    (∃ s, cudaPool.run clearPinnedRun = some (.ok s) ∧ ⟨4096, .host, .pinned⟩ ∈ s.released ∧ ¬ s.Matched) ∧
      ∃ s, cudaPool.run reuseHostRun = some (.ok s) ∧ s.pool.calls[2]? = some (.owning 100 ⟨100, 4096⟩) ∧
        ¬ s.Matched := by
  refine ⟨⟨_, rfl, by decide, fun hm => ?_⟩, ⟨_, rfl, rfl, fun hm => ?_⟩⟩
  · exact absurd (hm.released ⟨4096, .host, .pinned⟩ (by decide)) (by decide)
  · exact absurd (hm.received 2 ⟨100, 4096⟩ ⟨_, rfl, rfl⟩ (by decide)) (by decide)

end Nessus.Memory
