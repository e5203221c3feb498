import Nessus.Abi.RefCount

/-!
# The counting invariant

`add_ref`, `release` and `new` move the number of references of one object by one, and the operations on handles move
references about; each keeps `Counted`.

* `Counted.addRef`, `Counted.release`, `Counted.create`: the three operations of the heap;
* `State.release_spec`, `State.share_spec`: the two ways in which an operation on handles uses them;
* `exec_cases`, `exec_counted`: one operation;
* `program_counted`: every program, as long as no count overflows, which takes 2^32 operations (`noOverflow_of_short`);
* `not_counted_leak`: a program that overflows one.
-/

namespace Nessus.Abi.RefCount

open Nessus.Lib

/-! ## The heap -/

section Heap

variable {heap : Heap} {f g : ℕ → ℕ}

theorem Counted.congr (h : Counted heap f) (hfg : ∀ o, f o = g o) : Counted heap g :=
  (funext hfg : f = g) ▸ h

theorem Counted.deref (h : Counted heap f) {o : ℕ} (ho : 0 < f o) :
    ∃ obj, heap.objects[o]? = some obj ∧ obj.alive = true ∧ heap.deref o = .ok obj ∧ obj.refCount.toNat = f o := by
  obtain ⟨obj, hobj, halive, hcount⟩ := h.get ho
  exact ⟨obj, hobj, halive, by simp [Heap.deref, hobj, halive], hcount⟩

theorem refCount_succ {c : UInt32} (h : c.toNat + 1 < 2 ^ 32) : (c + 1).toNat = c.toNat + 1 := by
  rw [UInt32.toNat_add]
  exact Nat.mod_eq_of_lt h

theorem refCount_pred {c : UInt32} (h : 0 < c.toNat) : (c - 1).toNat = c.toNat - 1 := by
  have := c.toNat_lt
  rw [UInt32.toNat_sub]
  simp
  omega

/-- Replacing a live object by a live one with a count that is right leaves everything else as it was. -/
theorem Counted.setLive (h : Counted heap f) {o : ℕ} {obj obj' : Object} (ho : heap.objects[o]? = some obj)
    (halive : obj.alive = true) (halive' : obj'.alive = true) (hpos : 0 < g o) (hcount : obj'.refCount.toNat = g o)
    (hg : ∀ p, p ≠ o → g p = f p) : Counted { heap with objects := heap.objects.set o obj' } g where
  toRefCounted := h.set ho (by simp [halive', hpos]) (fun _ => hcount) hg
  nodup := h.nodup
  destroyed_iff p := by
    obtain ⟨hlt, -⟩ := List.getElem?_eq_some_iff.1 ho
    rw [h.destroyed_iff, List.getElem?_set, if_pos hlt]
    split
    · next hop =>
      subst hop
      simp [ho, halive, halive']
    · rfl
  module := by
    have := countP_set (p := (·.alive)) ho obj'
    rw [h.module, Heap.live, Heap.live]
    simpa [halive, halive'] using this.symm

/-- `add_ref` on an object with a reference adds one reference. -/
theorem Counted.addRef (h : Counted heap f) {abi : AbiPtr} (hpos : 0 < f abi.object) :
    ∃ heap', heap.addRef abi = .ok heap' ∧
      ((∀ o, g o = f o + if abi.object = o then 1 else 0) → g abi.object < 2 ^ 32 → Counted heap' g) := by
  obtain ⟨obj, ho, halive, hd, hc⟩ := h.deref hpos
  refine ⟨_, by rw [Heap.addRef, hd]; rfl, fun hg hlt => ?_⟩
  have hgo := hg abi.object
  rw [if_pos rfl] at hgo
  refine h.setLive ho halive halive (by omega) ?_ fun p hp => by rw [hg p, if_neg (Ne.symm hp), Nat.add_zero]
  rw [refCount_succ (by omega), hc, hgo]

theorem Counted.delete (h : Counted heap f) {o : ℕ} {obj obj' : Object} (ho : heap.objects[o]? = some obj)
    (halive : obj.alive = true) (hzero : g o = 0) (hg : ∀ p, p ≠ o → g p = f p) :
    ∃ heap', heap.delete o obj' = .ok heap' ∧ Counted heap' g := by
  obtain ⟨hlt, -⟩ := List.getElem?_eq_some_iff.1 ho
  have hlive : 0 < heap.live := countP_pos_of_getElem? ho halive
  have hmod : heap.moduleRefCount ≠ 0 := by
    intro h0
    have := h.module
    rw [h0] at this
    simp at this
    omega
  have hnot : o ∉ heap.destroyed := by
    rw [h.destroyed_iff]
    rintro ⟨q, hq, hqa⟩
    rw [ho] at hq
    cases hq
    rw [halive] at hqa
    exact Bool.noConfusion hqa
  refine ⟨_, by rw [Heap.delete, if_neg hmod], ?_⟩
  constructor
  · exact h.set ho (by simp [hzero]) (fun ha => Bool.noConfusion ha) hg
  · exact List.nodup_append.2 ⟨h.nodup, by simp, fun a ha b hb => by
      rw [List.mem_singleton] at hb; exact fun hab => hnot (hb ▸ hab ▸ ha)⟩
  · intro p
    rw [List.mem_append, List.mem_singleton, h.destroyed_iff]
    simp only [List.getElem?_set, if_pos hlt]
    split
    · next hop => simp [hop]
    · next hop => simp [Ne.symm hop]
  · have hset := countP_set (p := (·.alive)) ho { obj' with alive := false }
    have hm := h.module
    simp only [Heap.live] at hm hlive ⊢
    rw [refCount_pred (by omega), hm]
    simp only [halive, if_true, Bool.false_eq_true, if_false] at hset
    omega

/-- `release` of a reference takes it away, and destroys the object if it was the last one. -/
theorem Counted.release (h : Counted heap f) {abi : AbiPtr}
    (hg : ∀ o, g o + (if abi.object = o then 1 else 0) = f o) :
    ∃ heap', heap.release abi = .ok heap' ∧ Counted heap' g := by
  have hgo := hg abi.object
  rw [if_pos rfl] at hgo
  have hgp (p : ℕ) (hp : p ≠ abi.object) : g p = f p := by
    have := hg p
    rw [if_neg (Ne.symm hp)] at this
    omega
  obtain ⟨obj, ho, halive, hd, hc⟩ := h.deref (o := abi.object) (by omega)
  have hne : obj.refCount ≠ 0 := by
    intro h0
    rw [h0] at hc
    simp at hc
    omega
  have hpred : (obj.refCount - 1).toNat = g abi.object := by
    rw [refCount_pred (by omega)]
    omega
  simp only [Heap.release, hd, bind, Except.bind, if_neg hne]
  by_cases hlast : obj.refCount - 1 = 0
  · rw [if_pos hlast]
    rw [hlast] at hpred
    exact h.delete ho halive hpred.symm hgp
  · rw [if_neg hlast]
    have hpos : 0 < g abi.object := by
      rw [← hpred]
      exact Nat.pos_of_ne_zero fun h0 => hlast (UInt32.toNat_inj.1 h0)
    exact ⟨_, rfl, h.setLive ho halive halive hpos hpred hgp⟩

theorem Counted.create (h : Counted heap f) (implementation : Implementation)
    (hg : ∀ o, g o = f o + if heap.objects.length = o then 1 else 0)
    (hlive : (heap.create implementation).2.live < 2 ^ 32) : Counted (heap.create implementation).2 g := by
  have hcreate : (heap.create implementation).2.live = heap.live + 1 := by
    simp [Heap.create, Heap.live]
  constructor
  · exact h.concat rfl rfl hg
  · exact h.nodup
  · intro o
    refine (h.destroyed_iff o).trans ⟨?_, ?_⟩
    · rintro ⟨obj, ho, ha⟩
      obtain ⟨hlt, -⟩ := List.getElem?_eq_some_iff.1 ho
      exact ⟨obj, (List.getElem?_append_left hlt).trans ho, ha⟩
    · rintro ⟨obj, ho, ha⟩
      simp only [Heap.create, List.getElem?_append] at ho
      split at ho
      · exact ⟨obj, ho, ha⟩
      · rw [List.getElem?_singleton, Option.ite_none_right_eq_some] at ho
        obtain ⟨-, ⟨⟩⟩ := ho
        exact Bool.noConfusion ha
  · rw [hcreate] at hlive ⊢
    have hm := h.module
    simp only [Heap.create]
    rw [refCount_succ (by omega), hm]

end Heap

/-! ## Handles and detached references -/

@[simp] theorem holds_none (o : ℕ) : holds o none = false := rfl
@[simp] theorem holds_null (o : ℕ) : holds o (some none) = false := rfl
@[simp] theorem holds_some (o : ℕ) (abi : AbiPtr) : holds o (some (some abi)) = (abi.object == o) := rfl

namespace State

variable {s : State} {v w : ℕ}

@[simp] theorem heap_put (x : Option Handle) : (s.put v x).heap = s.heap := rfl
@[simp] theorem raw_put (x : Option Handle) : (s.put v x).raw = s.raw := rfl

theorem handle?_eq_some {h : Handle} : s.handle? v = some h ↔ s.vars[v]? = some (some h) := by
  simp [handle?, Option.join_eq_some_iff]

theorem free_iff : s.free v = true ↔ s.vars[v]? = some none := by
  simp [free]

theorem vars_put_self {x : Option Handle} (h : s.vars[v]? = some x) (y : Option Handle) :
    (s.put v y).vars[v]? = some y := by
  obtain ⟨hlt, -⟩ := List.getElem?_eq_some_iff.1 h
  simp [put, hlt]

theorem vars_put_ne (hvw : v ≠ w) (y : Option Handle) : (s.put v y).vars[w]? = s.vars[w]? := by
  simp [put, hvw]

/-- Rewriting one slot changes the references by what was in it and what is. -/
theorem refs_put {x : Option Handle} (h : s.vars[v]? = some x) (y : Option Handle) (o : ℕ) :
    (s.put v y).refs o + (if holds o x then 1 else 0) = s.refs o + (if holds o y then 1 else 0) := by
  have := countP_set (p := holds o) h y
  simp only [refs, put]
  omega

theorem refs_take {abi : AbiPtr} (h : abi ∈ s.raw) (o : ℕ) :
    (s.take abi).refs o + (if abi.object == o then 1 else 0) = s.refs o := by
  have := countP_erase (p := (·.object == o)) h
  simp only [refs, take]
  omega

theorem refs_pos_of_handle {abi : AbiPtr} (h : s.vars[v]? = some (some (some abi))) : 0 < s.refs abi.object :=
  Nat.add_pos_left (countP_pos_of_getElem? h (by simp)) _

theorem refs_pos_of_raw {abi : AbiPtr} (h : abi ∈ s.raw) : 0 < s.refs abi.object :=
  Nat.add_pos_right _ (List.countP_pos_iff.2 ⟨abi, h, by simp⟩)

/-- The pointer is one that something holds. -/
def Held (s : State) (h : Handle) : Prop := ∀ abi, h = some abi → 0 < s.refs abi.object

theorem held_null : s.Held none := fun _ h => by cases h

theorem held_of_handle? {h : Handle} (hw : s.handle? w = some h) : s.Held h := by
  rintro abi rfl
  exact refs_pos_of_handle (handle?_eq_some.1 hw)

theorem held_of_borrow {source : Borrowed} {h : Handle} (hb : s.borrow source = some h) : s.Held h := by
  cases source with
  | null => cases hb; exact held_null
  | handle w => exact held_of_handle? hb
  | detached abi =>
    simp only [borrow] at hb
    split at hb
    · next hmem =>
      cases hb
      rintro _ ⟨⟩
      exact refs_pos_of_raw hmem
    · cases hb

/-! ## The two uses of the counts -/

/-- `unknown_object::release`: the variable is null afterwards and its reference is gone. -/
theorem release_spec (hc : Counted s.heap s.refs) {h : Handle} (hv : s.vars[v]? = some (some h)) :
    ∃ s', s.release v h = .ok s' ∧ s'.vars = s.vars.set v (some none) ∧ s'.raw = s.raw ∧
      Counted s'.heap s'.refs := by
  cases h with
  | none =>
    refine ⟨s, rfl, ?_, rfl, hc⟩
    obtain ⟨hlt, he⟩ := List.getElem?_eq_some_iff.1 hv
    rw [← he, List.set_getElem_self]
  | some abi =>
    have hg (o : ℕ) : (s.put v (some none)).refs o + (if abi.object = o then 1 else 0) = s.refs o := by
      simpa using refs_put hv (some none) o
    obtain ⟨heap', hr, hc'⟩ := hc.release hg
    exact ⟨{ s.put v (some none) with heap := heap' }, by simp [release, hr, Except.map], rfl, rfl, hc'⟩

end State

/-- Unless a count overflows, the operation ends in a state that satisfies the invariant. -/
def Kept (r : Except Fault State) : Prop :=
  (∀ s', r = .ok s' → s'.Bounded) → ∃ s', r = .ok s' ∧ Counted s'.heap s'.refs

section Ops

variable {s : State} {v w : ℕ} {h old : Handle}

theorem kept_move {s' : State} (hc : Counted s.heap s.refs) (hheap : s'.heap = s.heap)
    (hrefs : ∀ o, s'.refs o = s.refs o) : Kept (.ok s') :=
  fun _ => ⟨s', rfl, hheap ▸ hc.congr fun o => (hrefs o).symm⟩

theorem kept_put (hc : Counted s.heap s.refs) {x y : Option Handle} (hv : s.vars[v]? = some x)
    (hxy : ∀ o, holds o x = holds o y) : Kept (.ok (s.put v y)) := by
  refine kept_move hc rfl fun o => ?_
  have := State.refs_put hv y o
  rw [hxy] at this
  omega

/-- A new reference in a slot that holds none: `add_ref` of what something else holds. -/
theorem kept_share (hc : Counted s.heap s.refs) {x : Option Handle} (hv : s.vars[v]? = some x)
    (hx : ∀ o, holds o x = false) (hh : s.Held h) : Kept ((s.put v (some h)).addRef h) := by
  cases h with
  | none => exact kept_put hc hv (by simpa using hx)
  | some abi =>
    intro hb
    obtain ⟨heap', ha, hc'⟩ := hc.addRef (g := (s.put v (some (some abi))).refs) (hh abi rfl)
    have hok : (s.put v (some (some abi))).addRef (some abi) = .ok { s.put v (some (some abi)) with heap := heap' } := by
      simp [State.addRef, ha, Except.map]
    refine ⟨_, hok, hc' (fun o => ?_) ((hb _ hok).refs abi.object)⟩
    have := State.refs_put hv (some (some abi)) o
    simpa [hx o] using this

theorem kept_takeOver {abi : AbiPtr} (hc : Counted s.heap s.refs) {x : Option Handle} (hv : s.vars[v]? = some x)
    (hx : ∀ o, holds o x = false) (hr : abi ∈ s.raw) : Kept (.ok ((s.take abi).put v (some (some abi)))) := by
  refine kept_move hc rfl fun o => ?_
  have h1 := State.refs_put (s := s.take abi) (x := x) hv (some (some abi)) o
  have h2 := State.refs_take hr o
  rw [hx o] at h1
  rw [holds_some] at h1
  simp only [Bool.false_eq_true, if_false] at h1
  omega

/-- After `release` of the variable, whatever follows starts from the invariant with the variable null. -/
theorem kept_release {k : State → Except Fault State} (hc : Counted s.heap s.refs) (hv : s.vars[v]? = some (some h))
    (hk : ∀ s', s'.vars = s.vars.set v (some none) → s'.raw = s.raw → Counted s'.heap s'.refs → Kept (k s')) :
    Kept ((s.release v h).bind k) := by
  obtain ⟨s', hr, hvars, hraw, hc'⟩ := State.release_spec hc hv
  rw [hr]
  exact hk s' hvars hraw hc'

theorem kept_release_map {k : State → State} (hc : Counted s.heap s.refs) (hv : s.vars[v]? = some (some h))
    (hk : ∀ s', s'.vars = s.vars.set v (some none) → s'.raw = s.raw → Counted s'.heap s'.refs → Kept (.ok (k s'))) :
    Kept ((s.release v h).map k) := by
  obtain ⟨s', hr, hvars, hraw, hc'⟩ := State.release_spec hc hv
  rw [hr]
  exact hk s' hvars hraw hc'

/-! ## The operations -/

/-- What one operation can do, with the slots it has found. -/
inductive Performs (s : State) : Except Fault State → Prop where
  | make {v i : ℕ} {implementation : Implementation} (hv : s.vars[v]? = some none) :
      Performs s (.ok ({ s with heap := (s.heap.create implementation).2 }.put v
        (some (some ⟨(s.heap.create implementation).1, i⟩))))
  | null {v : ℕ} (hv : s.vars[v]? = some none) : Performs s (.ok (s.put v (some none)))
  | takeOver {v : ℕ} {abi : AbiPtr} (hv : s.vars[v]? = some none) (hr : abi ∈ s.raw) :
      Performs s (.ok ((s.take abi).put v (some (some abi))))
  | copy {v w : ℕ} {h : Handle} (hv : s.vars[v]? = some none) (hw : s.vars[w]? = some (some h)) :
      Performs s ((s.put v (some h)).addRef h)
  | move {v w : ℕ} {h : Handle} (hv : s.vars[v]? = some none) (hw : s.vars[w]? = some (some h)) :
      Performs s (.ok ((s.put v (some h)).put w (some none)))
  | assignSelf : Performs s (.ok s)
  | assignCopy {v w : ℕ} {old h : Handle} (hv : s.vars[v]? = some (some old)) (hw : s.vars[w]? = some (some h))
      (hvw : v ≠ w) : Performs s ((s.release v old).bind fun s => (s.put v (some h)).addRef h)
  | assignMove {v w : ℕ} {old h : Handle} (hv : s.vars[v]? = some (some old)) (hw : s.vars[w]? = some (some h))
      (hvw : v ≠ w) : Performs s ((s.release v old).map fun s => (s.put w (some none)).put v (some h))
  | release {v : ℕ} {old : Handle} (hv : s.vars[v]? = some (some old)) : Performs s (s.release v old)
  | swap {v w : ℕ} {l r : Handle} (hv : s.vars[v]? = some (some l)) (hw : s.vars[w]? = some (some r)) :
      Performs s (.ok ((s.put v (some r)).put w (some l)))
  | putAbi {v : ℕ} {old : Handle} {abi : AbiPtr} (hv : s.vars[v]? = some (some old)) (hr : abi ∈ s.raw) :
      Performs s ((s.release v old).map fun s => (s.take abi).put v (some (some abi)))
  | detachAbi {v : ℕ} {h : Handle} (hv : s.vars[v]? = some (some h)) :
      Performs s (.ok ({ s with raw := s.raw ++ h.toList }.put v (some none)))
  | createFromAbi {v : ℕ} {source : Borrowed} {h : Handle} (hv : s.vars[v]? = some none)
      (hb : s.borrow source = some h) : Performs s ((s.addRef h).map fun s => s.put v (some h))
  | as {v w : ℕ} {h : Handle} {hasException : Bool} {id : Guid} (hv : s.vars[v]? = some none)
      (hw : s.vars[w]? = some (some h)) : Performs s (asImpl hasException s v h id)
  | destruct {v : ℕ} {h : Handle} (hv : s.vars[v]? = some (some h)) :
      Performs s ((s.release v h).map fun s => s.put v none)

theorem exec_cases {op : Op} {r : Except Fault State} (hx : exec s op = some r) : Performs s r := by
  cases op with
  | make v implementation i =>
    simp only [exec, Option.ite_none_right_eq_some, State.free_iff] at hx
    obtain ⟨⟨hv, -⟩, ⟨⟩⟩ := hx
    exact .make hv
  | construct v | constructNull v =>
    simp only [exec, Option.ite_none_right_eq_some, State.free_iff] at hx
    obtain ⟨hv, ⟨⟩⟩ := hx
    exact .null hv
  | constructTakeOver v raw =>
    cases raw with
    | none =>
      simp only [exec, Option.ite_none_right_eq_some, State.free_iff] at hx
      obtain ⟨hv, ⟨⟩⟩ := hx
      exact .null hv
    | some abi =>
      simp only [exec, Option.ite_none_right_eq_some, State.free_iff] at hx
      obtain ⟨⟨hv, hmem⟩, ⟨⟩⟩ := hx
      exact .takeOver hv hmem
  | constructCopy v w =>
    simp only [exec, Option.bind_eq_bind, Option.bind_eq_some_iff, Option.ite_none_right_eq_some,
      State.free_iff, State.handle?_eq_some] at hx
    obtain ⟨h, hw, hv, ⟨⟩⟩ := hx
    exact .copy hv hw
  | constructMove v w =>
    simp only [exec, Option.bind_eq_bind, Option.bind_eq_some_iff, Option.ite_none_right_eq_some,
      State.free_iff, State.handle?_eq_some] at hx
    obtain ⟨h, hw, hv, ⟨⟩⟩ := hx
    exact .move hv hw
  | assignCopy v w =>
    simp only [exec, Option.bind_eq_bind, Option.bind_eq_some_iff, State.handle?_eq_some] at hx
    obtain ⟨old, hv, h, hw, hr⟩ := hx
    split at hr
    · cases hr; exact .assignSelf
    · next hvw => cases hr; exact .assignCopy hv hw hvw
  | assignMove v w =>
    simp only [exec, Option.bind_eq_bind, Option.bind_eq_some_iff, State.handle?_eq_some] at hx
    obtain ⟨old, hv, h, hw, hr⟩ := hx
    split at hr
    · cases hr; exact .assignSelf
    · next hvw => cases hr; exact .assignMove hv hw hvw
  | assignNull v =>
    simp only [exec, Option.bind_eq_bind, Option.bind_eq_some_iff, State.handle?_eq_some] at hx
    obtain ⟨old, hv, ⟨⟩⟩ := hx
    exact .release hv
  | swap v w =>
    simp only [exec, Option.bind_eq_bind, Option.bind_eq_some_iff, State.handle?_eq_some] at hx
    obtain ⟨l, hv, r, hw, ⟨⟩⟩ := hx
    exact .swap hv hw
  | putAbi v out =>
    cases out with
    | none =>
      simp only [exec, Option.bind_eq_bind, Option.bind_eq_some_iff, State.handle?_eq_some] at hx
      obtain ⟨old, hv, ⟨⟩⟩ := hx
      exact .release hv
    | some abi =>
      simp only [exec, Option.bind_eq_bind, Option.bind_eq_some_iff, Option.ite_none_right_eq_some,
        State.handle?_eq_some] at hx
      obtain ⟨old, hv, hmem, ⟨⟩⟩ := hx
      exact .putAbi hv hmem
  | detachAbi v =>
    simp only [exec, Option.bind_eq_bind, Option.bind_eq_some_iff, State.handle?_eq_some] at hx
    obtain ⟨h, hv, ⟨⟩⟩ := hx
    exact .detachAbi hv
  | createFromAbi v source =>
    simp only [exec, Option.bind_eq_bind, Option.bind_eq_some_iff, Option.ite_none_right_eq_some,
      State.free_iff] at hx
    obtain ⟨h, hb, hv, ⟨⟩⟩ := hx
    exact .createFromAbi hv hb
  | as v w id | tryAs v w id =>
    simp only [exec, Option.bind_eq_bind, Option.bind_eq_some_iff, Option.ite_none_right_eq_some,
      State.free_iff, State.handle?_eq_some] at hx
    obtain ⟨h, hw, hv, ⟨⟩⟩ := hx
    exact .as hv hw
  | destruct v =>
    simp only [exec, Option.bind_eq_bind, Option.bind_eq_some_iff, State.handle?_eq_some] at hx
    obtain ⟨h, hv, ⟨⟩⟩ := hx
    exact .destruct hv

theorem kept_make (hc : Counted s.heap s.refs) {implementation : Implementation} {i : ℕ}
    (hv : s.vars[v]? = some none) :
    Kept (.ok ({ s with heap := (s.heap.create implementation).2 }.put v
      (some (some ⟨(s.heap.create implementation).1, i⟩)))) := by
  intro hb
  refine ⟨_, rfl, hc.create implementation (fun o => ?_) (hb _ rfl).live⟩
  have := State.refs_put (s := { s with heap := (s.heap.create implementation).2 }) hv
    (some (some ⟨(s.heap.create implementation).1, i⟩)) o
  simp only [holds_none, holds_some, beq_iff_eq, Bool.false_eq_true, if_false, Nat.add_zero] at this
  exact this

theorem kept_constructMove (hc : Counted s.heap s.refs) (hv : s.vars[v]? = some none)
    (hw : s.vars[w]? = some (some h)) : Kept (.ok ((s.put v (some h)).put w (some none))) := by
  have hvw : v ≠ w := by
    rintro rfl
    rw [hv] at hw
    cases hw
  refine kept_move hc rfl fun o => ?_
  have h1 := State.refs_put hv (some h) o
  have h2 := State.refs_put ((State.vars_put_ne hvw (some h)).trans hw) (some none) o
  simp only [holds_none, holds_null, Bool.false_eq_true, if_false] at h1 h2
  omega

theorem kept_assignCopy (hc : Counted s.heap s.refs) (hv : s.vars[v]? = some (some old))
    (hw : s.vars[w]? = some (some h)) (hvw : v ≠ w) :
    Kept ((s.release v old).bind fun s => (s.put v (some h)).addRef h) := by
  refine kept_release hc hv fun s' hvars _ hc' => ?_
  have hv' : s'.vars[v]? = some (some none) := hvars ▸ State.vars_put_self hv (some none)
  -- the argument is another variable, so it still holds its reference after the release
  have hw' : s'.vars[w]? = some (some h) := hvars ▸ (State.vars_put_ne hvw (some none)).trans hw
  exact kept_share hc' hv' (by simp) (State.held_of_handle? (State.handle?_eq_some.2 hw'))

theorem kept_assignMove (hc : Counted s.heap s.refs) (hv : s.vars[v]? = some (some old))
    (hw : s.vars[w]? = some (some h)) (hvw : v ≠ w) :
    Kept ((s.release v old).map fun s => (s.put w (some none)).put v (some h)) := by
  refine kept_release_map hc hv fun s' hvars _ hc' => kept_move hc' rfl fun o => ?_
  have hv' : s'.vars[v]? = some (some none) := hvars ▸ State.vars_put_self hv (some none)
  have hw' : s'.vars[w]? = some (some h) := hvars ▸ (State.vars_put_ne hvw (some none)).trans hw
  have h1 := State.refs_put hw' (some none) o
  have h2 := State.refs_put ((State.vars_put_ne (Ne.symm hvw) (some none)).trans hv') (some h) o
  simp only [holds_null, Bool.false_eq_true, if_false] at h1 h2
  omega

theorem kept_swap (hc : Counted s.heap s.refs) (hv : s.vars[v]? = some (some old)) (hw : s.vars[w]? = some (some h)) :
    Kept (.ok ((s.put v (some h)).put w (some old))) := by
  refine kept_move hc rfl fun o => ?_
  have h1 := State.refs_put hv (some h) o
  by_cases hvw : v = w
  · subst hvw
    obtain rfl : old = h := by simpa [hv] using hw
    have h2 := State.refs_put (State.vars_put_self hv (some old)) (some old) o
    omega
  · have h2 := State.refs_put ((State.vars_put_ne hvw (some h)).trans hw) (some old) o
    omega

theorem kept_putAbi (hc : Counted s.heap s.refs) {abi : AbiPtr} (hv : s.vars[v]? = some (some old))
    (hr : abi ∈ s.raw) : Kept ((s.release v old).map fun s => (s.take abi).put v (some (some abi))) := by
  refine kept_release_map hc hv fun s' hvars hraw hc' => ?_
  have hv' : s'.vars[v]? = some (some none) := hvars ▸ State.vars_put_self hv (some none)
  exact kept_takeOver hc' hv' (by simp) (hraw ▸ hr)

theorem kept_detachAbi (hc : Counted s.heap s.refs) (hv : s.vars[v]? = some (some h)) :
    Kept (.ok ({ s with raw := s.raw ++ h.toList }.put v (some none))) := by
  refine kept_move hc rfl fun o => ?_
  have h1 := State.refs_put hv (some none) o
  have h2 : ({ s with raw := s.raw ++ h.toList }.put v (some none)).refs o =
      (s.put v (some none)).refs o + if holds o (some h) then 1 else 0 := by
    cases h <;> simp [State.refs, State.put, Nat.add_assoc]
  simp only [holds_null, Bool.false_eq_true, if_false] at h1
  omega

theorem kept_createFromAbi (hc : Counted s.heap s.refs) (hv : s.vars[v]? = some none) (hh : s.Held h) :
    Kept ((s.addRef h).map fun s => s.put v (some h)) := by
  have hcomm : (s.addRef h).map (fun s => s.put v (some h)) = (s.put v (some h)).addRef h := by
    cases h with
    | none => rfl
    | some abi => cases ha : s.heap.addRef abi <;> simp [State.addRef, ha, Except.map, State.put]
  rw [hcomm]
  exact kept_share hc hv (by simp) hh

theorem kept_as (hc : Counted s.heap s.refs) {hasException : Bool} {id : Guid} (hv : s.vars[v]? = some none)
    (hh : s.Held h) : Kept (asImpl hasException s v h id) := by
  have hfailed : Kept (.ok (if hasException then s else s.put v (some none))) := by
    cases hasException with
    | false => exact kept_put hc hv (by simp)
    | true => exact kept_move hc rfl fun _ => rfl
  cases h with
  | none => exact hfailed
  | some abi =>
    obtain ⟨obj, -, -, hd, -⟩ := hc.deref (hh abi rfl)
    simp only [asImpl, State.query, hd, bind, Except.bind]
    cases obj.implementation.query id with
    | none => exact hfailed
    | some i =>
      -- the interface found is one of the same object
      have hshare := kept_share (h := some ⟨abi.object, i⟩) hc hv (by simp)
        (by rintro _ ⟨⟩; exact hh abi rfl)
      cases hr : (s.put v (some (some ⟨abi.object, i⟩))).addRef (some ⟨abi.object, i⟩) <;>
        simpa [hr, Except.map] using hshare

/-- **One operation** keeps the invariant, unless a count overflows. -/
theorem exec_counted (hc : Counted s.heap s.refs) {op : Op} {r : Except Fault State} (hx : exec s op = some r) :
    Kept r := by
  cases exec_cases hx with
  | make hv => exact kept_make hc hv
  | null hv => exact kept_put hc hv (by simp)
  | takeOver hv hr => exact kept_takeOver hc hv (by simp) hr
  | copy hv hw => exact kept_share hc hv (by simp) (State.held_of_handle? (State.handle?_eq_some.2 hw))
  | move hv hw => exact kept_constructMove hc hv hw
  | assignSelf => exact kept_move hc rfl fun _ => rfl
  | assignCopy hv hw hvw => exact kept_assignCopy hc hv hw hvw
  | assignMove hv hw hvw => exact kept_assignMove hc hv hw hvw
  | release hv =>
    obtain ⟨s', hr, -, -, hc'⟩ := State.release_spec hc hv
    exact fun _ => ⟨s', hr, hc'⟩
  | swap hv hw => exact kept_swap hc hv hw
  | putAbi hv hr => exact kept_putAbi hc hv hr
  | detachAbi hv => exact kept_detachAbi hc hv
  | createFromAbi hv hb => exact kept_createFromAbi hc hv (State.held_of_borrow hb)
  | as hv hw => exact kept_as hc hv (State.held_of_handle? (State.handle?_eq_some.2 hw))
  | destruct hv =>
    refine kept_release_map hc hv fun s' hvars _ hc' => ?_
    have hv' := State.vars_put_self hv (some none)
    rw [State.put, ← hvars] at hv'
    exact kept_put hc' hv' (by simp)

end Ops

/-! ## Programs -/

theorem start_counted (n : ℕ) : Counted (State.start n).heap (State.start n).refs := by
  have hrefs (o : ℕ) : (State.start n).refs o = 0 := by
    simp [State.refs, State.start, List.countP_replicate]
  exact ⟨⟨by simp [State.start], by simp [State.start], fun o _ => hrefs o⟩, by simp [State.start],
    by simp [State.start], rfl⟩

/-- In no state that the program passes through has a count overflowed. -/
def NoOverflow (n : ℕ) (ops : List Op) : Prop :=
  ∀ t u s, ops = t ++ u → (program n).run t = some (.ok s) → s.Bounded

theorem NoOverflow.of_concat {n : ℕ} (ops : List Op) (op : Op) (h : NoOverflow n (ops ++ [op])) :
    NoOverflow n ops := fun t u s ht => h t (u ++ [op]) s (by simp [ht])

/-! ## Short programs -/

/-- What a state consists of: its detached references and its objects. -/
def State.size (s : State) : ℕ := s.raw.length + s.heap.objects.length

/-- The variables stay, and nothing is added. -/
def State.Kin (s s' : State) : Prop := s'.vars.length = s.vars.length ∧ s'.size ≤ s.size

theorem State.Kin.trans {s s' s'' : State} (h : s.Kin s') (h' : s'.Kin s'') : s.Kin s'' :=
  ⟨h'.1.trans h.1, Nat.le_trans h'.2 h.2⟩

theorem except_bind_eq_ok {ε α β : Type} {x : Except ε α} {f : α → Except ε β} {b : β} (h : x.bind f = .ok b) :
    ∃ a, x = .ok a ∧ f a = .ok b := by
  cases x with
  | error e => cases h
  | ok a => exact ⟨a, rfl, h⟩

theorem except_map_eq_ok {ε α β : Type} {x : Except ε α} {f : α → β} {b : β} (h : x.map f = .ok b) :
    ∃ a, x = .ok a ∧ f a = b := by
  cases x with
  | error e => cases h
  | ok a => exact ⟨a, rfl, Except.ok.inj h⟩

section Size

variable {s s' : State} {v : ℕ} {h : Handle}

theorem kin_put (x : Option Handle) : s.Kin (s.put v x) := by
  simp [State.Kin, State.size, State.put]

theorem kin_take (abi : AbiPtr) : s.Kin (s.take abi) := by
  have := List.length_erase_le (a := abi) (l := s.raw)
  simpa [State.Kin, State.size, State.take] using this

theorem length_addRef {heap heap' : Heap} {abi : AbiPtr} (h : heap.addRef abi = .ok heap') :
    heap'.objects.length = heap.objects.length := by
  unfold Heap.addRef at h
  cases hd : heap.deref abi.object <;> simp only [hd, bind, Except.bind, reduceCtorEq, Except.ok.injEq] at h
  simp [← h]

theorem length_release {heap heap' : Heap} {abi : AbiPtr} (h : heap.release abi = .ok heap') :
    heap'.objects.length = heap.objects.length := by
  unfold Heap.release Heap.delete at h
  cases hd : heap.deref abi.object <;> simp only [hd, bind, Except.bind, reduceCtorEq] at h
  repeat' split at h
  all_goals simp only [reduceCtorEq, Except.ok.injEq] at h
  all_goals simp [← h]

theorem kin_addRef (hs : s.addRef h = .ok s') : s.Kin s' := by
  cases h with
  | none => cases hs; exact ⟨rfl, Nat.le_refl _⟩
  | some abi =>
    cases ha : s.heap.addRef abi <;> simp only [State.addRef, ha, Except.map, reduceCtorEq, Except.ok.injEq] at hs
    simp [← hs, State.Kin, State.size, length_addRef ha]

theorem kin_release (hs : s.release v h = .ok s') : s.Kin s' := by
  cases h with
  | none => cases hs; exact ⟨rfl, Nat.le_refl _⟩
  | some abi =>
    cases ha : s.heap.release abi <;> simp only [State.release, ha, Except.map, reduceCtorEq, Except.ok.injEq] at hs
    simp [← hs, State.Kin, State.size, State.put, length_release ha]

theorem kin_asImpl {hasException : Bool} {id : Guid} (hs : asImpl hasException s v h id = .ok s') : s.Kin s' := by
  have hfailed : s.Kin (if hasException then s else s.put v (some none)) := by
    split
    · exact ⟨rfl, Nat.le_refl _⟩
    · exact kin_put _
  cases h with
  | none => cases hs; exact hfailed
  | some abi =>
    simp only [asImpl, State.query, bind, Except.bind] at hs
    cases hd : s.heap.deref abi.object <;> simp only [hd, Except.map, reduceCtorEq] at hs
    next obj =>
    cases hq : obj.implementation.query id <;> simp only [hq] at hs
    · cases hs; exact hfailed
    · next i =>
      cases ha : (s.put v (some (some ⟨abi.object, i⟩))).addRef (some ⟨abi.object, i⟩) <;>
        simp only [ha, Except.map, Functor.map, Option.getD, reduceCtorEq, Except.ok.injEq] at hs
      subst hs
      exact (kin_put _).trans (kin_addRef ha)

theorem exec_size {op : Op} (hx : exec s op = some (.ok s')) :
    s'.vars.length = s.vars.length ∧ s'.size ≤ s.size + 1 := by
  suffices h : s.Kin s' ∨ (s'.vars.length = s.vars.length ∧ s'.size ≤ s.size + 1) by
    rcases h with h | h
    · exact ⟨h.1, Nat.le_succ_of_le h.2⟩
    · exact h
  generalize hr : Except.ok s' = r at hx
  cases exec_cases hx with
  | make hv =>
    cases hr
    exact .inr (by simp [State.size, State.put, Heap.create, Nat.add_assoc])
  | null hv => cases hr; exact .inl (kin_put _)
  | takeOver hv hmem => cases hr; exact .inl ((kin_take _).trans (kin_put _))
  | copy hv hw => exact .inl ((kin_put _).trans (kin_addRef hr.symm))
  | move hv hw => cases hr; exact .inl ((kin_put _).trans (kin_put _))
  | assignSelf => cases hr; exact .inl ⟨rfl, Nat.le_refl _⟩
  | assignCopy hv hw hvw =>
    obtain ⟨s₁, h₁, h₂⟩ := except_bind_eq_ok hr.symm
    exact .inl ((kin_release h₁).trans ((kin_put _).trans (kin_addRef h₂)))
  | assignMove hv hw hvw =>
    obtain ⟨s₁, h₁, rfl⟩ := except_map_eq_ok hr.symm
    exact .inl ((kin_release h₁).trans ((kin_put _).trans (kin_put _)))
  | release hv => exact .inl (kin_release hr.symm)
  | swap hv hw => cases hr; exact .inl ((kin_put _).trans (kin_put _))
  | putAbi hv hmem =>
    obtain ⟨s₁, h₁, rfl⟩ := except_map_eq_ok hr.symm
    exact .inl ((kin_release h₁).trans ((kin_take _).trans (kin_put _)))
  | @detachAbi v h hv =>
    cases hr
    refine .inr ?_
    cases h with
    | none => simp [State.size, State.put]
    | some abi => simp [State.size, State.put]; omega
  | createFromAbi hv hb =>
    obtain ⟨s₁, h₁, rfl⟩ := except_map_eq_ok hr.symm
    exact .inl ((kin_addRef h₁).trans (kin_put _))
  | as hv hw => exact .inl (kin_asImpl hr.symm)
  | destruct hv =>
    obtain ⟨s₁, h₁, rfl⟩ := except_map_eq_ok hr.symm
    exact .inl ((kin_release h₁).trans (kin_put _))

/-! ### The number of objects -/

theorem objects_addRef (hs : s.addRef h = .ok s') : s'.heap.objects.length = s.heap.objects.length := by
  cases h with
  | none =>
    cases hs
    rfl
  | some abi =>
    obtain ⟨heap, hheap, rfl⟩ := except_map_eq_ok hs
    exact length_addRef hheap

theorem objects_release (hs : s.release v h = .ok s') : s'.heap.objects.length = s.heap.objects.length := by
  cases h with
  | none =>
    cases hs
    rfl
  | some abi =>
    obtain ⟨heap, hheap, rfl⟩ := except_map_eq_ok hs
    exact length_release hheap

theorem objects_asImpl {hasException : Bool} {id : Guid} (hs : asImpl hasException s v h id = .ok s') :
    s'.heap.objects.length = s.heap.objects.length := by
  have hfailed : (if hasException then s else s.put v (some none)).heap.objects.length = s.heap.objects.length := by
    split <;> rfl
  cases h with
  | none =>
    cases hs
    exact hfailed
  | some abi =>
    obtain ⟨found, hquery, rfl⟩ := except_map_eq_ok hs
    obtain ⟨obj, -, hquery⟩ := except_bind_eq_ok hquery
    split at hquery
    · obtain ⟨s₁, hadd, rfl⟩ := except_map_eq_ok hquery
      have hlength := objects_addRef hadd
      exact hlength
    · cases hquery
      exact hfailed

theorem exec_objects {op : Op} (hx : exec s op = some (.ok s')) :
    s.heap.objects.length ≤ s'.heap.objects.length := by
  generalize hr : Except.ok s' = r at hx
  cases exec_cases hx with
  | make hv =>
    cases hr
    simp [State.put, Heap.create]
  | null hv =>
    cases hr
    exact Nat.le_refl _
  | takeOver hv hmem =>
    cases hr
    exact Nat.le_refl _
  | copy hv hw => exact Nat.le_of_eq (objects_addRef hr.symm).symm
  | move hv hw =>
    cases hr
    exact Nat.le_refl _
  | assignSelf =>
    cases hr
    exact Nat.le_refl _
  | assignCopy hv hw hvw =>
    obtain ⟨s₁, h₁, h₂⟩ := except_bind_eq_ok hr.symm
    have hlength := objects_release h₁
    have hlength' := objects_addRef h₂
    exact Nat.le_of_eq (hlength'.trans hlength).symm
  | assignMove hv hw hvw =>
    obtain ⟨s₁, h₁, rfl⟩ := except_map_eq_ok hr.symm
    have hlength := objects_release h₁
    exact Nat.le_of_eq hlength.symm
  | release hv => exact Nat.le_of_eq (objects_release hr.symm).symm
  | swap hv hw =>
    cases hr
    exact Nat.le_refl _
  | putAbi hv hmem =>
    obtain ⟨s₁, h₁, rfl⟩ := except_map_eq_ok hr.symm
    have hlength := objects_release h₁
    exact Nat.le_of_eq hlength.symm
  | detachAbi hv =>
    cases hr
    exact Nat.le_refl _
  | createFromAbi hv hb =>
    obtain ⟨s₁, h₁, rfl⟩ := except_map_eq_ok hr.symm
    have hlength := objects_addRef h₁
    exact Nat.le_of_eq hlength.symm
  | as hv hw => exact Nat.le_of_eq (objects_asImpl hr.symm).symm
  | destruct hv =>
    obtain ⟨s₁, h₁, rfl⟩ := except_map_eq_ok hr.symm
    have hlength := objects_release h₁
    exact Nat.le_of_eq hlength.symm

end Size

theorem program_size (n : ℕ) (ops : List Op) (s : State) (hrun : (program n).run ops = some (.ok s)) :
    s.vars.length = n ∧ s.size ≤ ops.length := by
  refine Machine.invariant (M := program n)
    (I := fun ops r => ∀ s, r = .ok s → s.vars.length = n ∧ s.size ≤ ops.length) ?_ ?_ ops _ hrun s rfl
  · rintro s ⟨⟩
    simp [State.start, State.size]
  · rintro t (_ | s) op r' - hi hx s' rfl
    · cases hx
    · have := exec_size hx
      have := hi s rfl
      simp only [List.length_append, List.length_singleton]
      omega

theorem State.bounded_of_size {s : State} (h : s.vars.length + s.size < 2 ^ 32) : s.Bounded := by
  unfold State.size at h
  constructor
  · intro o
    have hvars := List.countP_le_length (p := holds o) (l := s.vars)
    have hraw := List.countP_le_length (p := (·.object == o)) (l := s.raw)
    simp only [State.refs]
    omega
  · have := List.countP_le_length (p := (·.alive)) (l := s.heap.objects)
    simp only [Heap.live]
    omega

/-- **In short programs no count overflows**: each operation makes at most one reference. -/
theorem noOverflow_of_short {n : ℕ} {ops : List Op} (h : n + ops.length < 2 ^ 32) : NoOverflow n ops := by
  rintro t u s rfl hrun
  have hsize := program_size n t s hrun
  rw [List.length_append] at h
  exact State.bounded_of_size (by omega)

/-! ## Every program -/

/-- **Reference counting**: after every program in which no count overflows, and hence after each of its operations,
nothing has faulted, and the counting invariant holds: the count of each live object is the number of handles and
detached references to it, an object is alive exactly as long as there is one, it has been destroyed once if it is not
alive any more, and the module counts the live objects. -/
theorem program_counted (n : ℕ) (ops : List Op) (r : Except Fault State) (hrun : (program n).run ops = some r)
    (hb : NoOverflow n ops) : ∃ s, r = .ok s ∧ Counted s.heap s.refs := by
  refine Machine.invariant_of (I := fun _ r => ∃ s, r = .ok s ∧ Counted s.heap s.refs) NoOverflow.of_concat
    ⟨_, rfl, start_counted n⟩ ?_ ops r hb hrun
  rintro t _ op r' hrun hb ⟨s, rfl, hc⟩ hx
  refine exec_counted hc hx fun s' hs' => hb (t ++ [op]) [] s' (by simp) ?_
  rw [Machine.run_concat, hrun, ← hs']
  exact hx

/-- An object is made, copied, detached, taken over by a third handle, and let go. -/
def handOver : List Op :=
  [.make 0 ⟨[Guid.unknownObject], by simp⟩ 0, .constructCopy 1 0, .detachAbi 0, .constructTakeOver 2 (some ⟨0, 0⟩),
    .assignNull 1, .assignNull 2]

theorem handOver_counted : ∃ s, (program 3).run handOver = some (.ok s) ∧ s.heap.destroyed = [0] ∧
    Counted s.heap s.refs := by
  let last : State := {
    heap := { objects := [⟨⟨[Guid.unknownObject], by simp⟩, 0, false⟩], moduleRefCount := 0, destroyed := [0] }
    vars := [some none, some none, some none]
    raw := [] }
  have hrun : (program 3).run handOver = some (.ok last) := by decide
  obtain ⟨s, hs, hc⟩ := program_counted 3 handOver _ hrun (noOverflow_of_short (by decide))
  cases hs
  exact ⟨last, hrun, rfl, hc⟩

/-! ## A count that overflows -/

/-- An object of one interface, of which a second handle makes `k` references that are detached and forgotten. -/
def leak (implementation : Implementation) (k : ℕ) : List Op :=
  .make 0 implementation 0 ::
    (List.replicate k [.createFromAbi 1 (.handle 0), .detachAbi 1, .destruct 1]).flatten

/-- The state after `leak`: the count is the number of references modulo 2^32. -/
def leakState (implementation : Implementation) (k : ℕ) : State where
  heap := {
    objects := [{ implementation, refCount := UInt32.ofNat (k + 1), alive := true }]
    moduleRefCount := 1
    destroyed := [] }
  vars := [some (some ⟨0, 0⟩), none]
  raw := List.replicate k ⟨0, 0⟩

theorem run_leak (implementation : Implementation) (k : ℕ) :
    (program 2).run (leak implementation k) = some (.ok (leakState implementation k)) := by
  induction k with
  | zero =>
    have := List.length_pos_iff.2 implementation.nonempty
    simp [leak, Machine.run, program, State.start, exec, State.free, Heap.create, State.put, leakState, this]
  | succ k ih =>
    have hleak : leak implementation (k + 1) =
        leak implementation k ++ [.createFromAbi 1 (.handle 0), .detachAbi 1, .destruct 1] := by
      simp [leak, List.replicate_succ']
    rw [hleak, Machine.run_append, ih]
    simp [program, leakState, exec, State.borrow, State.handle?, State.free, State.addRef, State.release, State.put,
      Heap.addRef, Heap.deref, Except.map, List.replicate_succ', UInt32.ofNat_add, bind, Except.bind]

/-- After 2^32 references to one object its count is zero, although the object is alive; and the destruction of the
one handle that is left decrements the count below zero. -/
theorem not_counted_leak :
    let implementation : Implementation := ⟨[Guid.unknownObject], by simp⟩
    let ops := leak implementation (2 ^ 32 - 1)
    (∃ s, (program 2).run ops = some (.ok s) ∧ ¬ Counted s.heap s.refs) ∧
      (program 2).run (ops ++ [.destruct 0]) = some (.error .terminated) := by
  intro implementation ops
  have hzero : UInt32.ofNat (2 ^ 32 - 1 + 1) = 0 := by decide
  have hrun := run_leak implementation (2 ^ 32 - 1)
  refine ⟨⟨_, hrun, fun hc => ?_⟩, ?_⟩
  · have hcount := hc.count 0 _ rfl rfl
    rw [hzero] at hcount
    have hvar : (leakState implementation (2 ^ 32 - 1)).vars[0]? = some (some (some ⟨0, 0⟩)) := rfl
    have hpos := State.refs_pos_of_handle hvar
    rw [← hcount] at hpos
    exact absurd hpos (by decide)
  · rw [Machine.run_concat, hrun]
    simp only [Option.bind_some, program, leakState, hzero]
    rfl

end Nessus.Abi.RefCount
