import Nessus.Lib.Machine
import Nessus.Abi.Transport

/-!
# Vectors across the ABI boundary

`param_vector_impl`: the operations hand the index of the caller to a `std::vector`, which does not check it; only
`copy_from` and `copy_to` do.

* `paramVector` — the calls of the adapter, any number of them on one vector; after undefined behaviour there is none;
* `VectorOp.spec` — the operations of a list, which check their index;
* `callVector_refines_iff` — one call does what the list does exactly if its index is valid;
* `paramVector_refines_iff` — so do all calls of a program, exactly if the indices are valid in the lists they meet.
-/

namespace Nessus.Abi.ParamVector

open Nessus.Lib

variable {τ T : Type}

/-! ## The implementation -/

/-- What comes of the memory that the `std::vector` asks for. -/
inductive Allocation where
  | granted
  | badAlloc (what : String)
  /-- More than `max_size()` elements. -/
  | lengthError (what : String)
  deriving DecidableEq, Repr

def Allocation.grow : Allocation → Outcome Exn Unit
  | granted => .ok ()
  | badAlloc what => .thrown (.std .badAlloc what)
  | lengthError what => .thrown (.std (.derived "std::length_error" .logicError) what)

section Impl

variable (buffer : List T)

def size : UInt64 := UInt64.ofNat buffer.length

/-- `at`. -/
def atIndex (index : UInt64) : Outcome Exn T :=
  match buffer[index.toNat]? with
  | some item => .ok item
  | none => .undefined

def setAt (index : UInt64) (item : T) : Outcome Exn (List T) :=
  if index.toNat < buffer.length then .ok (buffer.set index.toNat item) else .undefined

def pushBack (item : T) (allocation : Allocation) : Outcome Exn (List T) :=
  allocation.grow >>= fun _ => .ok (buffer ++ [item])

/-- `remove_at`: the end cannot be erased. -/
def removeAt (index : UInt64) : Outcome Exn (List T) :=
  if index.toNat < buffer.length then .ok (buffer.eraseIdx index.toNat) else .undefined

/-- `insert_at`: the element may be inserted at the end. -/
def insertAt (index : UInt64) (item : T) (allocation : Allocation) : Outcome Exn (List T) :=
  if index.toNat ≤ buffer.length then allocation.grow >>= fun _ => .ok (buffer.insertIdx index.toNat item)
  else .undefined

def contains [BEq T] (item : T) : Bool := buffer.any (item == ·)

/-- `resize`; the new elements are value-initialised. -/
def resize [Inhabited T] (newSize : UInt64) (allocation : Allocation) : Outcome Exn (List T) :=
  if newSize.toNat ≤ buffer.length then .ok (buffer.take newSize.toNat)
  else allocation.grow >>= fun _ => .ok (buffer ++ List.replicate (newSize.toNat - buffer.length) default)

/-- The check of `copy_from` and `copy_to`, and `abi_out_of_bounds`. -/
def checkRange (P : Primitives τ) (length : ℕ) (index : UInt64) : Outcome Exn Unit :=
  if buffer.length < length ∨ buffer.length - length < index.toNat then
    .thrown (.abi (.of .outOfBounds (P.createAbiExceptionMessage errorOutOfBounds none)))
  else .ok ()

def copyFrom (P : Primitives τ) (data : List T) (index : UInt64) : Outcome Exn (List T) :=
  checkRange buffer P data.length index >>= fun _ =>
    .ok (buffer.take index.toNat ++ data ++ buffer.drop (index.toNat + data.length))

/-- `copy_to`: what the elements of the span are after it. -/
def copyTo (P : Primitives τ) (index : UInt64) (data : List T) : Outcome Exn (List T) :=
  checkRange buffer P data.length index >>= fun _ => .ok ((buffer.drop index.toNat).take data.length)

end Impl

/-! ## Calls -/

/-- The calls of the adapter.  A span is given by its elements. -/
inductive VectorOp (T : Type) where
  | empty
  | size
  | atIndex (index : UInt64)
  | setAt (index : UInt64) (item : T)
  | pushBack (item : T) (allocation : Allocation)
  | removeAt (index : UInt64)
  | insertAt (index : UInt64) (item : T) (allocation : Allocation)
  | contains (item : T)
  | clear
  | resize (newSize : UInt64) (allocation : Allocation)
  | reserve (allocation : Allocation)
  | copyFrom (data : List T) (index : UInt64)
  | copyTo (index : UInt64) (data : List T)
  deriving DecidableEq, Repr

inductive Reply (T : Type) where
  | nothing
  | flag (b : Bool)
  | number (n : UInt64)
  | element (item : T)
  /-- The elements of the span that was handed over. -/
  | span (data : List T)
  deriving DecidableEq, Repr

variable [BEq T] [Inhabited T]

/-- The implementation's side of a call: the reply and the new elements. -/
def VectorOp.run (P : Primitives τ) (buffer : List T) : VectorOp T → Outcome Exn (Reply T × List T)
  | empty => .ok (.flag buffer.isEmpty, buffer)
  | size => .ok (.number (ParamVector.size buffer), buffer)
  | atIndex index => ParamVector.atIndex buffer index >>= fun item => .ok (.element item, buffer)
  | setAt index item => ParamVector.setAt buffer index item >>= fun buffer => .ok (.nothing, buffer)
  | pushBack item allocation => ParamVector.pushBack buffer item allocation >>= fun buffer => .ok (.nothing, buffer)
  | removeAt index => ParamVector.removeAt buffer index >>= fun buffer => .ok (.nothing, buffer)
  | insertAt index item allocation =>
    ParamVector.insertAt buffer index item allocation >>= fun buffer => .ok (.nothing, buffer)
  | contains item => .ok (.flag (ParamVector.contains buffer item), buffer)
  | clear => .ok (.nothing, [])
  | resize newSize allocation => ParamVector.resize buffer newSize allocation >>= fun buffer => .ok (.nothing, buffer)
  | reserve allocation => allocation.grow >>= fun _ => .ok (.nothing, buffer)
  | copyFrom data index => ParamVector.copyFrom buffer P data index >>= fun buffer => .ok (.nothing, buffer)
  | copyTo index data => ParamVector.copyTo buffer P index data >>= fun data => .ok (.span data, buffer)

/-- The state of the caller's thread, and the vector. -/
structure World (τ T : Type) where
  thread : τ
  buffer : List T
  deriving DecidableEq, Repr

omit [BEq T] [Inhabited T] in
def onThread (P : Primitives τ) : Primitives (World τ T) where
  getAbiExceptionWhat w := P.getAbiExceptionWhat w.thread
  setAbiExceptionWhat what w := { w with thread := P.setAbiExceptionWhat what w.thread }
  createAbiExceptionMessage := P.createAbiExceptionMessage
  setAbiExceptionWhatExNarrow code what w :=
    ({ w with thread := (P.setAbiExceptionWhatExNarrow code what w.thread).1 },
      (P.setAbiExceptionWhatExNarrow code what w.thread).2)
  get_set what w := P.get_set what w.thread
  ex_narrow_code code what w := P.ex_narrow_code code what w.thread

/-- The body of the function in the table.  What throws has not changed the vector. -/
def VectorOp.body (P : Primitives τ) (a : VectorOp T) : Eff (World τ T) Exn (Reply T) := fun w =>
  match a.run P w.buffer with
  | .ok (reply, buffer) => ({ w with buffer }, .ok reply)
  | .thrown e => (w, .thrown e)
  | .terminated => (w, .terminated)
  | .undefined => (w, .undefined)

def callVector (P : Primitives τ) (a : VectorOp T) : Eff (World τ T) Exn (Reply T) :=
  abiCallOut (onThread P) .nothing (a.body P)

def paramVector (P : Primitives τ) (w : World τ T) : Machine (World τ T) (VectorOp T) where
  init := w
  step w a :=
    match callVector P a w with
    | (w', .ok _) => some w'
    | (w', .thrown _) => some w'
    | (_, .terminated) => none
    | (_, .undefined) => none

/-! ## Lists with checked indices -/

/-- The class of the error that the caller gets. -/
def Allocation.failure? : Allocation → Option AbiClass
  | granted => none
  | badAlloc _ => some .badAlloc
  | lengthError _ => some .failure

/-- The list, unless there is no memory. -/
def Allocation.grown (allocation : Allocation) (l : List T) : Except AbiClass (Reply T × List T) :=
  match allocation.failure? with
  | none => .ok (.nothing, l)
  | some c => .error c

/-- What happens to a list: a reply and the new list, or an error, with which the list is as it was. -/
def VectorOp.spec (l : List T) : VectorOp T → Except AbiClass (Reply T × List T)
  | empty => .ok (.flag l.isEmpty, l)
  | size => .ok (.number (UInt64.ofNat l.length), l)
  | atIndex index =>
    match l[index.toNat]? with
    | some item => .ok (.element item, l)
    | none => .error .outOfBounds
  | setAt index item => if index.toNat < l.length then .ok (.nothing, l.set index.toNat item) else .error .outOfBounds
  | pushBack item allocation => allocation.grown (l ++ [item])
  | removeAt index => if index.toNat < l.length then .ok (.nothing, l.eraseIdx index.toNat) else .error .outOfBounds
  | insertAt index item allocation =>
    if index.toNat ≤ l.length then allocation.grown (l.insertIdx index.toNat item) else .error .outOfBounds
  | contains item => .ok (.flag (l.contains item), l)
  | clear => .ok (.nothing, [])
  | resize newSize allocation =>
    if newSize.toNat ≤ l.length then .ok (.nothing, l.take newSize.toNat)
    else allocation.grown (l.rightpad newSize.toNat default)
  | reserve allocation => allocation.grown l
  | copyFrom data index =>
    if index.toNat + data.length ≤ l.length then
      .ok (.nothing, l.take index.toNat ++ data ++ l.drop (index.toNat + data.length))
    else .error .outOfBounds
  | copyTo index data =>
    if index.toNat + data.length ≤ l.length then .ok (.span ((l.drop index.toNat).take data.length), l)
    else .error .outOfBounds

def VectorOp.listAfter (l : List T) (a : VectorOp T) : List T :=
  match a.spec l with
  | .ok (_, l') => l'
  | .error _ => l

/-- The list after any number of operations. -/
def listAfter (l : List T) (ops : List (VectorOp T)) : List T := ops.foldl VectorOp.listAfter l

/-- The call does what the operation does to the list: it returns the same, or throws an `abi_error` of that class. -/
def Refines (P : Primitives τ) (w : World τ T) (a : VectorOp T) : Prop :=
  match a.spec w.buffer with
  | .ok (reply, l) => ∃ w', callVector P a w = (w', .ok reply) ∧ w'.buffer = l
  | .error c => ∃ w' what, callVector P a w = (w', .thrown (.abi (.of c what))) ∧ w'.buffer = w.buffer

omit [BEq T] [Inhabited T] in
/-- The index is one that the `std::vector` takes. -/
def VectorOp.IndexOk (l : List T) : VectorOp T → Prop
  | atIndex index => index.toNat < l.length
  | setAt index _ => index.toNat < l.length
  | removeAt index => index.toNat < l.length
  | insertAt index _ _ => index.toNat ≤ l.length
  | _ => True

/-! ## One call -/

/-- An exception of the implementation that the caller gets as an `abi_error` of the class. -/
def Reported (e : Exn) (c : AbiClass) : Prop :=
  (e.isStd = true ∧ classOf (stdCode e) = c) ∨ ∃ what, e = .abi (.of c what)

/-- What the implementation does with a valid index: the same as the list. -/
def RunsAs (r : Outcome Exn (Reply T × List T)) : Except AbiClass (Reply T × List T) → Prop
  | .ok p => r = .ok p
  | .error c => ∃ e, r = .thrown e ∧ Reported e c

omit [BEq T] [Inhabited T] in
theorem grow_runsAs (allocation : Allocation) (l : List T) :
    RunsAs ((allocation.grow >>= fun _ => .ok l) >>= fun l => .ok (.nothing, l)) (allocation.grown l) := by
  cases allocation with
  | granted => rfl
  | badAlloc what => exact ⟨_, rfl, .inl ⟨by simp [Exn.isStd], rfl⟩⟩
  | lengthError what => exact ⟨_, rfl, .inl ⟨by simp [Exn.isStd], rfl⟩⟩

omit [BEq T] [Inhabited T] in
theorem checkRange_of_le {buffer : List T} (P : Primitives τ) {length : ℕ} {index : UInt64}
    (h : index.toNat + length ≤ buffer.length) : checkRange buffer P length index = .ok () := by
  rw [checkRange, if_neg (by omega)]

omit [BEq T] [Inhabited T] in
theorem checkRange_of_not_le {buffer : List T} (P : Primitives τ) {length : ℕ} {index : UInt64}
    (h : ¬ index.toNat + length ≤ buffer.length) :
    checkRange buffer P length index =
      .thrown (.abi (.of .outOfBounds (P.createAbiExceptionMessage errorOutOfBounds none))) := by
  rw [checkRange, if_pos (by omega)]

/-- **The implementation does what the list does**, as long as the index is valid. -/
theorem run_runsAs (P : Primitives τ) {l : List T} {a : VectorOp T} (h : a.IndexOk l) :
    RunsAs (a.run P l) (a.spec l) := by
  cases a with
  | empty => rfl
  | size => rfl
  | atIndex index =>
    have hitem : l[index.toNat]? = some l[index.toNat] := List.getElem?_eq_getElem h
    simp only [VectorOp.run, VectorOp.spec, atIndex, hitem]
    rfl
  | setAt index item =>
    have hlt : index.toNat < l.length := h
    simp only [VectorOp.run, VectorOp.spec, setAt, if_pos hlt]
    rfl
  | pushBack item allocation => exact grow_runsAs allocation _
  | removeAt index =>
    have hlt : index.toNat < l.length := h
    simp only [VectorOp.run, VectorOp.spec, removeAt, if_pos hlt]
    rfl
  | insertAt index item allocation =>
    have hle : index.toNat ≤ l.length := h
    simp only [VectorOp.run, VectorOp.spec, insertAt, if_pos hle]
    exact grow_runsAs allocation _
  | contains item =>
    simp only [VectorOp.run, VectorOp.spec, contains, List.contains_eq_any_beq]
    rfl
  | clear => rfl
  | resize newSize allocation =>
    simp only [VectorOp.run, VectorOp.spec, resize]
    split
    · rfl
    · exact grow_runsAs allocation _
  | reserve allocation =>
    simpa only [VectorOp.run, VectorOp.spec, bind_assoc, Outcome.ok_bind] using grow_runsAs allocation l
  | copyFrom data index =>
    simp only [VectorOp.run, VectorOp.spec, copyFrom]
    split
    · next hle =>
      rw [checkRange_of_le P hle]
      rfl
    · next hgt =>
      rw [checkRange_of_not_le P hgt]
      exact ⟨_, rfl, .inr ⟨_, rfl⟩⟩
  | copyTo index data =>
    simp only [VectorOp.run, VectorOp.spec, copyTo]
    split
    · next hle =>
      rw [checkRange_of_le P hle]
      rfl
    · next hgt =>
      rw [checkRange_of_not_le P hgt]
      exact ⟨_, rfl, .inr ⟨_, rfl⟩⟩

/-- With any other index it is undefined, where the list reports an error. -/
theorem run_of_not_indexOk (P : Primitives τ) {l : List T} {a : VectorOp T} (h : ¬ a.IndexOk l) :
    a.run P l = .undefined ∧ a.spec l = .error .outOfBounds := by
  cases a with
  | atIndex index =>
    have hnone : l[index.toNat]? = none := List.getElem?_eq_none (Nat.not_lt.1 h)
    simp [VectorOp.run, VectorOp.spec, atIndex, hnone]
  | setAt index item =>
    have hge : ¬ index.toNat < l.length := h
    simp [VectorOp.run, VectorOp.spec, setAt, hge]
  | removeAt index =>
    have hge : ¬ index.toNat < l.length := h
    simp [VectorOp.run, VectorOp.spec, removeAt, hge]
  | insertAt index item allocation =>
    have hgt : ¬ index.toNat ≤ l.length := h
    simp [VectorOp.run, VectorOp.spec, insertAt, hgt]
  | _ => exact absurd trivial h

omit [BEq T] [Inhabited T] in
theorem onThread_apart (P : Primitives τ) : (onThread P : Primitives (World τ T)).Apart World.buffer :=
  ⟨fun _ _ => rfl, fun _ _ _ => rfl⟩

section Call

variable {P : Primitives τ} {w : World τ T} {a : VectorOp T}

theorem callVector_of_ok {reply : Reply T} {l : List T} (h : a.run P w.buffer = .ok (reply, l)) :
    ∃ w', callVector P a w = (w', .ok reply) ∧ w'.buffer = l := by
  refine ⟨{ w with buffer := l }, callOut_ok ?_, rfl⟩
  rw [VectorOp.body, h]

/-- An exception gets to the caller, and the vector is as it was. -/
theorem callVector_of_thrown {e : Exn} {c : AbiClass} (h : a.run P w.buffer = .thrown e) (he : Reported e c) :
    ∃ w' what, callVector P a w = (w', .thrown (.abi (.of c what))) ∧ w'.buffer = w.buffer := by
  have hbody : a.body P w = (w, .thrown e) := by rw [VectorOp.body, h]
  have hcall : ∃ w' what, callVector P a w = (w', .thrown (.abi (.of c what))) := by
    rcases he with ⟨hstd, rfl⟩ | ⟨what, rfl⟩
    · exact callOut_std (onThread P) .nothing hbody hstd
    · have := callOut_abi_neg (onThread P) .nothing hbody c.noError_code
      rwa [AbiError.result_of, classOf_code] at this
  obtain ⟨w', what, hcall⟩ := hcall
  refine ⟨w', what, hcall, ?_⟩
  have hleaves := abiCallOut_leaves (onThread_apart P) .nothing (a.body P) w
  rw [← callVector, hcall, hbody] at hleaves
  exact hleaves

theorem callVector_of_undefined (h : a.run P w.buffer = .undefined) : callVector P a w = (w, .undefined) := by
  refine callOut_undefined ?_
  rw [VectorOp.body, h]

/-- **One call does what the list does exactly if its index is valid.** -/
theorem callVector_refines_iff : Refines P w a ↔ a.IndexOk w.buffer := by
  constructor
  · intro h
    by_contra hno
    obtain ⟨hrun, hspec⟩ := run_of_not_indexOk P hno
    rw [Refines, hspec] at h
    obtain ⟨w', what, hcall, -⟩ := h
    rw [callVector_of_undefined hrun] at hcall
    cases hcall
  · intro h
    have hruns := run_runsAs P h
    rw [Refines]
    cases hspec : a.spec w.buffer with
    | ok p =>
      rw [hspec] at hruns
      exact callVector_of_ok hruns
    | error c =>
      rw [hspec] at hruns
      obtain ⟨e, hrun, he⟩ := hruns
      exact callVector_of_thrown hrun he

/-- A call that does what the list does leaves that list. -/
theorem Refines.step (h : Refines P w a) (w₀ : World τ T) :
    ∃ w', (paramVector P w₀).step w a = some w' ∧ w'.buffer = a.listAfter w.buffer := by
  rw [Refines] at h
  cases hspec : a.spec w.buffer with
  | ok p =>
    rw [hspec] at h
    obtain ⟨w', hcall, hbuffer⟩ := h
    refine ⟨w', ?_, ?_⟩
    · simp only [paramVector, hcall]
    · rw [hbuffer, VectorOp.listAfter, hspec]
  | error c =>
    rw [hspec] at h
    obtain ⟨w', what, hcall, hbuffer⟩ := h
    refine ⟨w', ?_, ?_⟩
    · simp only [paramVector, hcall]
    · rw [hbuffer, VectorOp.listAfter, hspec]

end Call

/-! ## Any number of calls -/

/-- All calls of a program do what the operations do to the list. -/
def Refining (P : Primitives τ) (w : World τ T) (t : List (VectorOp T)) : Prop :=
  ∀ u a, u ++ [a] <+: t →
    ∃ w', (paramVector P w).run u = some w' ∧ w'.buffer = listAfter w.buffer u ∧ Refines P w' a

/-- All indices are valid in the lists that they meet. -/
def IndicesOk (l : List T) (t : List (VectorOp T)) : Prop := ∀ u a, u ++ [a] <+: t → a.IndexOk (listAfter l u)

theorem listAfter_concat (l : List T) (u : List (VectorOp T)) (a : VectorOp T) :
    listAfter l (u ++ [a]) = a.listAfter (listAfter l u) := by
  rw [listAfter, List.foldl_append]
  rfl

/-- As long as the indices are valid, the vector is the list. -/
theorem run_eq_listAfter (P : Primitives τ) (w : World τ T) {u : List (VectorOp T)} (h : IndicesOk w.buffer u) :
    ∃ w', (paramVector P w).run u = some w' ∧ w'.buffer = listAfter w.buffer u := by
  induction u using List.reverseRecOn with
  | nil => exact ⟨w, rfl, rfl⟩
  | append_singleton u a ih =>
    obtain ⟨w₁, hrun, hbuffer⟩ := ih fun v b hv => h v b (hv.trans (List.prefix_append u [a]))
    have hrefines : Refines P w₁ a := by
      rw [callVector_refines_iff, hbuffer]
      exact h u a (List.prefix_refl _)
    obtain ⟨w', hstep, hbuffer'⟩ := hrefines.step w
    refine ⟨w', (paramVector P w).run_concat_eq_some.2 ⟨w₁, hrun, hstep⟩, ?_⟩
    rw [hbuffer', hbuffer, listAfter_concat]

/-- **A vector is a list with checked indices exactly as long as the indices are valid**: all calls of a program do what
the operations do to the list if and only if `at`, `set_at` and `remove_at` have an index below the size, and
`insert_at` has one up to the size. -/
theorem paramVector_refines_iff (P : Primitives τ) (w : World τ T) (t : List (VectorOp T)) :
    Refining P w t ↔ IndicesOk w.buffer t := by
  constructor
  · intro h u a hu
    obtain ⟨w', -, hbuffer, hrefines⟩ := h u a hu
    rw [← hbuffer]
    exact callVector_refines_iff.1 hrefines
  · intro h u a hu
    obtain ⟨w', hrun, hbuffer⟩ :=
      run_eq_listAfter P w fun v b hv => h v b (hv.trans ((List.prefix_append u [a]).trans hu))
    refine ⟨w', hrun, hbuffer, callVector_refines_iff.2 ?_⟩
    rw [hbuffer]
    exact h u a hu

/-- A vector of one element: an index that is the size, or one beyond it. -/
def oneElement : World (Option String) ℕ := ⟨none, [5]⟩

theorem not_refining :
    ¬ Refining Primitives.slot oneElement [.atIndex 1] ∧ ¬ Refining Primitives.slot oneElement [.setAt 1 7] ∧
      ¬ Refining Primitives.slot oneElement [.removeAt 1] ∧
      ¬ Refining Primitives.slot oneElement [.insertAt 2 7 .granted] := by
  have hno {a : VectorOp ℕ} (h : ¬ a.IndexOk oneElement.buffer) : ¬ Refining Primitives.slot oneElement [a] := by
    intro hall
    obtain ⟨w', hrun, -, hrefines⟩ := hall [] a (List.prefix_refl _)
    cases hrun
    exact h (callVector_refines_iff.1 hrefines)
  exact ⟨hno (Nat.lt_irrefl 1), hno (Nat.lt_irrefl 1), hno (Nat.lt_irrefl 1), hno (Nat.not_succ_le_self 1)⟩

end Nessus.Abi.ParamVector
