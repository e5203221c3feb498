import Mathlib.Data.List.Perm.Basic
import Nessus.Lib.Count
import Nessus.Memory.PoolAllocator

/-!
# Who holds the blocks of the pool allocator

* `PoolState.hands`, `PoolState.owed` — the blocks that calls hold between the two locks, and those that callers own;
* `PoolInv` — every block is in one place, and the payouts are the blocks that are owned;
* `PoolSteps` — what one step can do under the invariant, up to the order in the lists; every step keeps it
  (`PoolSteps.inv`);
* `poolAllocator_spec` — the guarantees in every interleaving.
-/

namespace Nessus.Memory

open Nessus.Lib

/-- The block that the call has taken out of one list and not yet put into the other. -/
def PoolCall.held? : PoolCall → Option Entry
  | paying _ block => some block
  | returning block => some block
  | _ => none

/-- The block that the caller owns, or has just given back. -/
def PoolCall.owned? : PoolCall → Option Entry
  | owning _ block => some block
  | freeing _ block => some block
  | _ => none

/-- The blocks in the hands of the threads between the two locks. -/
def PoolState.hands (s : PoolState) : List Entry := s.calls.filterMap PoolCall.held?

/-- The blocks that have been returned to callers, and not been taken back. -/
def PoolState.owed (s : PoolState) : List Entry := s.calls.filterMap PoolCall.owned?

/-- What is known of a call. -/
def PoolCall.Sound : PoolCall → Prop
  | paying size block => size ≤ block.size
  | owning size block => size ≤ block.size
  | freeing ptr block => ptr = block.ptr
  | wild _ => False
  | _ => True

/-- Every block is in one place, and the payouts are the blocks that are owned. -/
structure PoolInv (s : PoolState) : Prop where
  placed (b : Entry) : s.budgets.count b + s.payouts.count b + s.hands.count b = s.heap.count b
  owed (b : Entry) : s.payouts.count b = s.owed.count b
  apart : s.heap.Pairwise Entry.Disjoint
  sound : ∀ c ∈ s.calls, c.Sound

/-! ## Blocks -/

theorem Entry.Disjoint.symm {a b : Entry} (h : a.Disjoint b) : b.Disjoint a := ⟨h.1.symm, h.2.symm⟩

instance : Std.Symm Entry.Disjoint := ⟨fun _ _ h => h.symm⟩

section Heap

variable {heap heap' : List Entry} {a b : Entry}

theorem pairwise_perm (h : heap.Pairwise Entry.Disjoint) (hp : heap.Perm heap') : heap'.Pairwise Entry.Disjoint :=
  (hp.pairwise_iff Entry.Disjoint.symm).1 h

theorem nodup_of_pairwise (h : heap.Pairwise Entry.Disjoint) : heap.Nodup :=
  h.imp fun hd heq => hd.1 (congrArg Entry.ptr heq)

theorem eq_of_ptr (h : heap.Pairwise Entry.Disjoint) (ha : a ∈ heap) (hb : b ∈ heap) (hptr : a.ptr = b.ptr) :
    a = b := by
  by_contra hne
  exact (h.forall ha hb hne).1 hptr

/-- A block that is allocated can be freed, and no other block is freed with it. -/
theorem alignedHeapFree_of_mem (h : heap.Pairwise Entry.Disjoint) (hb : b ∈ heap) :
    ∃ rest, alignedHeapFree heap b.ptr = .ok rest ∧ heap.Perm (b :: rest) := by
  have hany : heap.any (·.ptr == b.ptr) = true := List.any_eq_true.2 ⟨b, hb, beq_self_eq_true _⟩
  refine ⟨heap.eraseP (·.ptr == b.ptr), by rw [alignedHeapFree, if_pos hany], perm_cons_eraseP ?_⟩
  cases hf : heap.find? (·.ptr == b.ptr) with
  | none => exact absurd (beq_self_eq_true b.ptr) (List.find?_eq_none.1 hf b hb)
  | some a =>
    have hptr : a.ptr = b.ptr := by simpa using List.find?_some hf
    rw [eq_of_ptr h (List.mem_of_find?_eq_some hf) hb hptr]

/-- To free some of the blocks that are allocated leaves the others. -/
theorem alignedHeapFree_all {rest : List Entry} (l : List Entry) (h : heap.Pairwise Entry.Disjoint)
    (hp : heap.Perm (l ++ rest)) :
    ∃ heap', l.foldlM (fun heap b => alignedHeapFree heap b.ptr) heap = .ok heap' ∧ heap'.Perm rest := by
  induction l generalizing heap with
  | nil => exact ⟨heap, rfl, hp⟩
  | cons b l ih =>
    obtain ⟨heap₁, hfree, hp₁⟩ := alignedHeapFree_of_mem h (hp.mem_iff.2 List.mem_cons_self)
    have hrest : heap₁.Perm (l ++ rest) := (hp₁.symm.trans hp).cons_inv
    obtain ⟨heap', hall, hp'⟩ := ih (pairwise_perm h hp₁).of_cons hrest
    refine ⟨heap', ?_, hp'⟩
    rw [List.foldlM_cons, hfree]
    exact hall

end Heap

/-! ## What one step can do -/

/-- What one step can do where `PoolInv` holds: the calls that it moves, and the blocks that it moves between the
places. -/
inductive PoolSteps (s : PoolState) : PoolStep → PoolState → Prop where
  | ratio (ratio : ℕ) : PoolSteps s (.setSizeCompareRatio ratio) { s with sizeCompareRatio := ratio }
  | fastMalloc (size : ℕ) : PoolSteps s (.fastMalloc size) { s with calls := s.calls ++ [.searching size] }
  | fastFree {owner size : ℕ} {block : Entry} (hc : s.calls[owner]? = some (.owning size block)) :
      PoolSteps s (.fastFree owner) { s with calls := s.calls.set owner .finished ++ [.freeing block.ptr block] }
  | clear : PoolSteps s .clear { s with calls := s.calls ++ [.clearing] }
  | reuse {i size : ℕ} {budget : Entry} {budgets : List Entry} (hc : s.calls[i]? = some (.searching size))
      (hle : size ≤ budget.size) (hp : s.budgets.Perm (budget :: budgets)) :
      PoolSteps s (.go i) (.move { s with budgets } i (.paying size budget))
  | miss {i size : ℕ} (hc : s.calls[i]? = some (.searching size)) : PoolSteps s (.go i) (s.move i (.missed size))
  | alloc {i size ptr : ℕ} (hc : s.calls[i]? = some (.missed size))
      (hd : ∀ block ∈ s.heap, block.Disjoint ⟨size, ptr⟩) :
      PoolSteps s (.alignedHeapAlloc i ptr)
        (.move { s with heap := s.heap ++ [⟨size, ptr⟩] } i (.paying size ⟨size, ptr⟩))
  | pay {i size : ℕ} {block : Entry} (hc : s.calls[i]? = some (.paying size block)) :
      PoolSteps s (.go i) (.move { s with payouts := s.payouts ++ [block] } i (.owning size block))
  | take {i : ℕ} {block : Entry} {payouts : List Entry} (hc : s.calls[i]? = some (.freeing block.ptr block))
      (hp : s.payouts.Perm (block :: payouts)) : PoolSteps s (.go i) (.move { s with payouts } i (.returning block))
  | giveBack {i : ℕ} {block : Entry} (hc : s.calls[i]? = some (.returning block)) :
      PoolSteps s (.go i) (.move { s with budgets := s.budgets ++ [block] } i .finished)
  | release {i : ℕ} {heap : List Entry} (hc : s.calls[i]? = some .clearing) (hp : s.heap.Perm (s.budgets ++ heap)) :
      PoolSteps s (.go i) (.move { s with heap, budgets := [] } i .finished)

namespace PoolInv

variable {s s' : PoolState}

theorem mem_heap (h : PoolInv s) {b : Entry} (hb : 0 < s.budgets.count b + s.payouts.count b + s.hands.count b) :
    b ∈ s.heap :=
  List.count_pos_iff.1 (h.placed b ▸ hb)

theorem mem_payouts (h : PoolInv s) {c : PoolCall} {b : Entry} (hc : c ∈ s.calls) (hb : c.owned? = some b) :
    b ∈ s.payouts := by
  have hmem : b ∈ s.owed := List.mem_filterMap.2 ⟨c, hc, hb⟩
  exact List.count_pos_iff.1 (h.owed b ▸ List.count_pos_iff.2 hmem)

theorem heap_of_payouts (h : PoolInv s) {b : Entry} (hb : b ∈ s.payouts) : b ∈ s.heap := by
  have := List.count_pos_iff.2 hb
  exact h.mem_heap (by omega)

/-- The search of `fastFree` finds the block that the caller has owned. -/
theorem find_payouts (h : PoolInv s) {ptr i : ℕ} {b : Entry} (hc : s.calls[i]? = some (.freeing ptr b)) :
    ptr = b.ptr ∧ s.payouts.find? (·.ptr == ptr) = some b := by
  have hb : b ∈ s.payouts := h.mem_payouts (List.mem_of_getElem? hc) rfl
  obtain rfl : ptr = b.ptr := h.sound _ (List.mem_of_getElem? hc)
  refine ⟨rfl, ?_⟩
  cases hf : s.payouts.find? (·.ptr == b.ptr) with
  | none => exact absurd (beq_self_eq_true b.ptr) (List.find?_eq_none.1 hf b hb)
  | some a =>
    have hptr : a.ptr = b.ptr := by simpa using List.find?_some hf
    rw [eq_of_ptr h.apart (h.heap_of_payouts (List.mem_of_find?_eq_some hf)) (h.heap_of_payouts hb) hptr]

theorem free_budgets (h : PoolInv s) : ∃ heap,
    s.budgets.foldlM (fun heap budget => alignedHeapFree heap budget.ptr) s.heap = .ok heap ∧
      s.heap.Perm (s.budgets ++ heap) := by
  have hplaced : s.heap.Perm (s.budgets ++ (s.payouts ++ s.hands)) := by
    refine List.perm_iff_count.2 fun b => ?_
    rw [← h.placed b, List.count_append, List.count_append, Nat.add_assoc]
  obtain ⟨heap, hfree, hp⟩ := alignedHeapFree_all s.budgets h.apart hplaced
  exact ⟨heap, hfree, hplaced.trans (hp.symm.append_left _)⟩

theorem go_cases (h : PoolInv s) {i : ℕ} {c : PoolCall} (hc : s.calls[i]? = some c) {r : Outcome Empty PoolState}
    (hs : s.go i c = some r) : ∃ s', r = .ok s' ∧ PoolSteps s (.go i) s' := by
  cases c with
  | searching size =>
    simp only [PoolState.go] at hs
    split at hs
    · rename_i budget hf
      cases hs
      have hfits := List.find?_some hf
      have hle : size ≤ budget.size := (of_decide_eq_true hfits).1
      exact ⟨_, rfl, .reuse hc hle (perm_cons_eraseP hf)⟩
    · cases hs
      exact ⟨_, rfl, .miss hc⟩
  | paying size block =>
    cases hs
    exact ⟨_, rfl, .pay hc⟩
  | freeing ptr block =>
    obtain ⟨rfl, hf⟩ := h.find_payouts hc
    simp only [PoolState.go, hf] at hs
    cases hs
    exact ⟨_, rfl, .take hc (perm_cons_eraseP hf)⟩
  | returning block =>
    cases hs
    exact ⟨_, rfl, .giveBack hc⟩
  | wild ptr => exact (h.sound _ (List.mem_of_getElem? hc)).elim
  | clearing =>
    obtain ⟨heap, hfree, hp⟩ := h.free_budgets
    simp only [PoolState.go, hfree] at hs
    cases hs
    exact ⟨_, rfl, .release hc hp⟩
  | missed size => cases hs
  | owning size block => cases hs
  | finished => cases hs

/-- **Every step is defined**, and is one of `PoolSteps`. -/
theorem step_cases (h : PoolInv s) {a : PoolStep} {r : Outcome Empty PoolState} (hs : s.step a = some r) :
    ∃ s', r = .ok s' ∧ PoolSteps s a s' := by
  cases a with
  | setSizeCompareRatio ratio =>
    cases hs
    exact ⟨_, rfl, .ratio ratio⟩
  | fastMalloc size =>
    cases hs
    exact ⟨_, rfl, .fastMalloc size⟩
  | fastFree owner =>
    simp only [PoolState.step] at hs
    split at hs
    · cases hs
      exact ⟨_, rfl, .fastFree (by assumption)⟩
    · cases hs
  | clear =>
    cases hs
    exact ⟨_, rfl, .clear⟩
  | go i =>
    obtain ⟨c, hc, hgo⟩ := Option.bind_eq_some_iff.1 hs
    exact h.go_cases hc hgo
  | alignedHeapAlloc i ptr =>
    simp only [PoolState.step] at hs
    split at hs
    · split at hs
      · cases hs
        exact ⟨_, rfl, .alloc (by assumption) (by assumption)⟩
      · cases hs
    · cases hs

/-! ### Every step keeps the invariant -/

theorem of_calls (h : PoolInv s) {calls : List PoolCall}
    (hhands : ∀ b, (calls.filterMap PoolCall.held?).count b = s.hands.count b)
    (howed : ∀ b, (calls.filterMap PoolCall.owned?).count b = s.owed.count b) (hsound : ∀ c ∈ calls, c.Sound) :
    PoolInv { s with calls } where
  placed b := (congrArg (s.budgets.count b + s.payouts.count b + ·) (hhands b)).trans (h.placed b)
  owed b := (h.owed b).trans (howed b).symm
  apart := h.apart
  sound := hsound

theorem call (h : PoolInv s) {c : PoolCall} (hheld : c.held? = none) (howned : c.owned? = none) (hsound : c.Sound) :
    PoolInv { s with calls := s.calls ++ [c] } := by
  refine h.of_calls (fun b => ?_) (fun b => ?_) fun c' hc' => ?_
  · rw [count_filterMap_concat, hheld]
    rfl
  · rw [count_filterMap_concat, howned]
    rfl
  · rcases List.mem_append.1 hc' with hc' | hc'
    · exact h.sound c' hc'
    · exact List.mem_singleton.1 hc' ▸ hsound

/-- The caller gives up a block by a call of `fastFree`, which claims it. -/
theorem fastFree (h : PoolInv s) {owner size : ℕ} {block : Entry} (hc : s.calls[owner]? = some (.owning size block)) :
    PoolInv { s with calls := s.calls.set owner .finished ++ [.freeing block.ptr block] } := by
  refine h.of_calls (fun b => ?_) (fun b => ?_) fun c hc' => ?_
  · rw [count_filterMap_concat]
    exact count_filterMap_set hc .finished
  · rw [count_filterMap_concat]
    exact count_filterMap_set hc .finished
  · rcases List.mem_append.1 hc' with hc' | hc'
    · rcases List.mem_or_eq_of_mem_set hc' with hc' | rfl
      · exact h.sound c hc'
      · trivial
    · exact List.mem_singleton.1 hc' ▸ rfl

/-- A call moves on, and a block goes from one place to another. -/
theorem move (h : PoolInv s) {i : ℕ} {c c' : PoolCall} (hc : s.calls[i]? = some c) {budgets payouts heap : List Entry}
    (hplaced : ∀ b, budgets.count b + payouts.count b + c'.held?.toList.count b + s.heap.count b =
      heap.count b + s.budgets.count b + s.payouts.count b + c.held?.toList.count b)
    (howed : ∀ b, payouts.count b + c.owned?.toList.count b = s.payouts.count b + c'.owned?.toList.count b)
    (hapart : heap.Pairwise Entry.Disjoint) (hsound : c'.Sound) :
    PoolInv (.move { s with budgets, payouts, heap } i c') where
  placed b := by
    have hhands := count_filterMap_set (f := PoolCall.held?) (b := b) hc c'
    have hold : _ + (s.calls.filterMap PoolCall.held?).count b = _ := h.placed b
    have hnew := hplaced b
    show budgets.count b + payouts.count b + ((s.calls.set i c').filterMap PoolCall.held?).count b = heap.count b
    omega
  owed b := by
    have hset := count_filterMap_set (f := PoolCall.owned?) (b := b) hc c'
    have hold : _ = (s.calls.filterMap PoolCall.owned?).count b := h.owed b
    have hnew := howed b
    show payouts.count b = ((s.calls.set i c').filterMap PoolCall.owned?).count b
    omega
  apart := hapart
  sound d hd := by
    rcases List.mem_or_eq_of_mem_set hd with hd | rfl
    · exact h.sound d hd
    · exact hsound

end PoolInv

/-- **Every step keeps the invariant.** -/
theorem PoolSteps.inv {s s' : PoolState} {a : PoolStep} (hs : PoolSteps s a s') (h : PoolInv s) : PoolInv s' := by
  cases hs with
  | ratio ratio => exact ⟨h.placed, h.owed, h.apart, h.sound⟩
  | fastMalloc size => exact h.call rfl rfl trivial
  | clear => exact h.call rfl rfl trivial
  | fastFree hc => exact h.fastFree hc
  | @reuse i size budget budgets hc hle hp =>
    refine h.move hc (fun b => ?_) (fun b => rfl) h.apart hle
    rw [hp.count_eq, List.count_cons]
    simp only [PoolCall.held?, Option.toList, List.count_cons, List.count_nil]
    omega
  | miss hc => exact h.move hc (fun b => by simp only [PoolCall.held?]; omega) (fun b => rfl) h.apart trivial
  | @alloc i size ptr hc hd =>
    refine h.move hc (fun b => ?_) (fun b => rfl) ?_ (Nat.le_refl size)
    · simp only [PoolCall.held?, Option.toList, List.count_nil, List.count_append]
      omega
    · refine List.pairwise_append.2 ⟨h.apart, List.pairwise_singleton _ _, fun b hb b' hb' => ?_⟩
      exact List.mem_singleton.1 hb' ▸ hd b hb
  | @pay i size block hc =>
    refine h.move hc (fun b => ?_) (fun b => ?_) h.apart ?_
    · simp only [PoolCall.held?, Option.toList, List.count_nil, List.count_append]
      omega
    · exact List.count_append
    · exact h.sound (.paying size block) (List.mem_of_getElem? hc)
  | @take i block payouts hc hp =>
    refine h.move hc (fun b => ?_) (fun b => ?_) h.apart trivial
    · rw [hp.count_eq, List.count_cons]
      simp only [PoolCall.held?, Option.toList, List.count_cons, List.count_nil]
      omega
    · rw [hp.count_eq, List.count_cons]
      simp only [PoolCall.owned?, Option.toList, List.count_cons, List.count_nil]
      omega
  | @giveBack i block hc =>
    refine h.move hc (fun b => ?_) (fun b => rfl) h.apart trivial
    simp only [PoolCall.held?, Option.toList, List.count_nil, List.count_append]
    omega
  | @release i heap hc hp =>
    refine h.move hc (fun b => ?_) (fun b => rfl) ?_ trivial
    · rw [hp.count_eq, List.count_append]
      simp only [PoolCall.held?, Option.toList, List.count_nil]
      omega
    · exact (List.pairwise_append.1 (pairwise_perm h.apart hp)).2.1

/-! ## What the allocator guarantees -/

/-- What holds in every state of the allocator. -/
structure PoolSpec (s : PoolState) : Prop where
  /-- What two callers own at once has no byte in common. -/
  exclusive (i j m n : ℕ) (a b : Entry) : s.calls[i]? = some (.owning m a) → s.calls[j]? = some (.owning n b) →
    i ≠ j → a.Disjoint b
  /-- `fastMalloc(size)` has returned a block that was allocated with at least `size` bytes. -/
  sized (i size : ℕ) (b : Entry) : s.calls[i]? = some (.owning size b) → b ∈ s.heap ∧ size ≤ b.size
  /-- The places together hold every block that is allocated, once. -/
  placed : (s.budgets ++ s.payouts ++ s.hands).Perm s.heap ∧ s.heap.Nodup
  /-- No call of `fastFree` takes the path of the wild pointer. -/
  found (i ptr : ℕ) : s.calls[i]? ≠ some (.wild ptr)
  /-- `clear` frees the idle blocks, each of them once, and touches no others. -/
  clear (i : ℕ) (r : Outcome Empty PoolState) : s.calls[i]? = some .clearing → s.step (.go i) = some r →
    ∃ s', r = .ok s' ∧ s.heap.Perm (s.budgets ++ s'.heap) ∧ s'.budgets = [] ∧ s'.payouts = s.payouts ∧
      s'.hands.Perm s.hands
  /-- Nothing else frees a block. -/
  kept (a : PoolStep) (r : Outcome Empty PoolState) : s.step a = some r →
    (∃ i, a = .go i ∧ s.calls[i]? = some .clearing) ∨ ∃ s', r = .ok s' ∧ s.heap <+: s'.heap

namespace PoolInv

variable {s : PoolState}

theorem mem_heap_of_owning (h : PoolInv s) {i size : ℕ} {b : Entry} (hc : s.calls[i]? = some (.owning size b)) :
    b ∈ s.heap :=
  h.heap_of_payouts (h.mem_payouts (List.mem_of_getElem? hc) rfl)

/-- A block is owned once: if two callers owned it, it would be twice in the payouts. -/
theorem exclusive (h : PoolInv s) {i j m n : ℕ} {a b : Entry} (hi : s.calls[i]? = some (.owning m a))
    (hj : s.calls[j]? = some (.owning n b)) (hij : i ≠ j) : a.Disjoint b := by
  have hne : a ≠ b := by
    rintro rfl
    have htake := count_filterMap_set (f := PoolCall.owned?) (b := a) hi .finished
    have hother : a ∈ (s.calls.set i .finished).filterMap PoolCall.owned? := by
      have hmem : (s.calls.set i .finished)[j]? = some (.owning n a) := by rw [List.getElem?_set_ne hij, hj]
      exact List.mem_filterMap.2 ⟨_, List.mem_of_getElem? hmem, rfl⟩
    have hpos := List.count_pos_iff.2 hother
    have howed : s.payouts.count a = (s.calls.filterMap PoolCall.owned?).count a := h.owed a
    have hheap := h.placed a
    have hone := List.nodup_iff_count_le_one.1 (nodup_of_pairwise h.apart) a
    simp only [PoolCall.owned?, Option.toList, List.count_singleton_self, List.count_nil] at htake
    omega
  exact h.apart.forall (h.mem_heap_of_owning hi) (h.mem_heap_of_owning hj) hne

theorem spec (h : PoolInv s) : PoolSpec s where
  exclusive _ _ _ _ _ _ hi hj hij := h.exclusive hi hj hij
  sized _ _ _ hc := ⟨h.mem_heap_of_owning hc, h.sound _ (List.mem_of_getElem? hc)⟩
  placed := by
    refine ⟨List.perm_iff_count.2 fun b => ?_, nodup_of_pairwise h.apart⟩
    rw [List.count_append, List.count_append, h.placed b]
  found _ _ hc := h.sound _ (List.mem_of_getElem? hc)
  clear i r hc hs := by
    obtain ⟨heap, hfree, hp⟩ := h.free_budgets
    simp only [PoolState.step, hc, Option.bind_some, PoolState.go, hfree] at hs
    cases hs
    refine ⟨_, rfl, hp, rfl, rfl, List.perm_iff_count.2 fun b => ?_⟩
    exact count_filterMap_set (f := PoolCall.held?) (b := b) hc .finished
  kept a r hs := by
    obtain ⟨s', rfl, hsteps⟩ := h.step_cases hs
    cases hsteps with
    | release hc => exact .inl ⟨_, rfl, hc⟩
    | alloc => exact .inr ⟨_, rfl, List.prefix_append _ _⟩
    | _ => exact .inr ⟨_, rfl, List.prefix_refl _⟩

end PoolInv

/-- **The pool allocator** in every interleaving of the critical sections of its calls: no step is undefined, and the
guarantees hold in every state. -/
theorem poolAllocator_spec : ∀ t r, poolAllocator.run t = some r → ∃ s, r = .ok s ∧ PoolSpec s := by
  have hinv : ∀ t r, poolAllocator.run t = some r → ∃ s, r = .ok s ∧ PoolInv s := by
    refine Machine.invariant (I := fun _ (r : Outcome Empty PoolState) => ∃ s, r = .ok s ∧ PoolInv s) ?_ ?_
    · exact ⟨_, rfl, fun _ => rfl, fun _ => rfl, List.Pairwise.nil, fun c hc => by cases hc⟩
    · rintro t r a r' _ ⟨s, rfl, h⟩ hstep
      obtain ⟨s', rfl, hsteps⟩ := h.step_cases hstep
      exact ⟨s', rfl, hsteps.inv h⟩
  intro t r hr
  obtain ⟨s, rfl, h⟩ := hinv t r hr
  exact ⟨s, rfl, h.spec⟩

/-- A block is allocated, given back and taken again while a smaller block is allocated, and a `clear` comes between the
two locks of the second call. -/
def reusingRun : List PoolStep :=
  [.fastMalloc 100, .go 0, .alignedHeapAlloc 0 4096, .go 0, .fastFree 0, .go 1, .go 1, .fastMalloc 80, .fastMalloc 10,
    .go 2, .go 3, .clear, .go 4, .alignedHeapAlloc 3 8192, .go 2, .go 3]

theorem poolAllocator_spec_run : ∃ s, poolAllocator.run reusingRun = some (.ok s) ∧
    s.heap = [⟨100, 4096⟩, ⟨10, 8192⟩] ∧ s.calls[2]? = some (.owning 80 ⟨100, 4096⟩) ∧ PoolSpec s := by
  obtain ⟨s, hs, hspec⟩ := poolAllocator_spec reusingRun _ rfl
  cases hs
  exact ⟨_, rfl, rfl, rfl, hspec⟩

end Nessus.Memory
