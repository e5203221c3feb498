import Nessus.Lib.Writes
import Nessus.Abi.ParamVector

/-!
# Range copies of vectors

`copy_from` and `copy_to` with the machine words of their check and the loop of `std::copy`, on the elements of the
vector and of the caller's span.

* `rangeTest` — the check, with the subtractions that it evaluates;
* `stdCopy_eq` — what `std::copy` leaves, and `rangeTest_iff` — what the check says of the sizes as numbers;
* `copyFromSpan_eq`, `copyToSpan_eq` — the two functions do what `copyFrom` and `copyTo` do to the lists;
* `rangeCopies` — **a range copy** throws if the range is not inside the vector, and otherwise copies it.
-/

namespace Nessus.Abi.ParamVector

open Nessus.Lib

variable {τ T : Type}

/-! ## The functions -/

/-- The vector, the elements of the caller's span, and the rest of the thread. -/
structure RangeState (τ T : Type) where
  thread : τ
  buffer : List T
  data : List T
  deriving DecidableEq, Repr

/-- What a test says, and which numbers it has subtracted: the second one of a pair from the first. -/
structure Tested where
  result : Bool
  subtractions : List (UInt64 × UInt64)
  deriving DecidableEq, Repr

/-- `data.size() > buffer_.size() || index > buffer_.size() - data.size()`. -/
def rangeTest (bufferSize dataSize index : UInt64) : Tested :=
  if dataSize > bufferSize then ⟨true, []⟩
  else ⟨decide (index > bufferSize - dataSize), [(bufferSize, dataSize)]⟩

/-- `std::copy(src + first, src + first + n, dst + out)`, one element after the other. -/
def stdCopy (src : List T) : ℕ → ℕ → List T → ℕ → Outcome Exn (List T)
  | _, 0, dst, _ => .ok dst
  | first, n + 1, dst, out =>
    match src[first]? with
    | some item => if out < dst.length then stdCopy src (first + 1) n (dst.set out item) (out + 1) else .undefined
    | none => .undefined

section Functions

variable (P : Primitives τ) (index : UInt64)

/-- The test, and `throw abi_out_of_bounds{}`. -/
def throwOutOfRange (s : RangeState τ T) : Outcome Exn Unit :=
  if (rangeTest (size s.buffer) (size s.data) index).result then
    .thrown (.abi (.of .outOfBounds (P.createAbiExceptionMessage errorOutOfBounds none)))
  else .ok ()

/-- `copy_from`: the elements of the vector after it. -/
def copyFromSpan (s : RangeState τ T) : Outcome Exn (List T) :=
  throwOutOfRange P index s >>= fun _ => stdCopy s.data 0 s.data.length s.buffer index.toNat

/-- `copy_to`: the elements of the span after it. -/
def copyToSpan (s : RangeState τ T) : Outcome Exn (List T) :=
  throwOutOfRange P index s >>= fun _ => stdCopy s.buffer index.toNat s.data.length s.data 0

/-- A body that assigns new elements. -/
def assigning (f : RangeState τ T → Outcome Exn (List T)) (assign : List T → RangeState τ T → RangeState τ T) :
    Eff (RangeState τ T) Exn Unit := fun s =>
  match f s with
  | .ok l => (assign l s, .ok ())
  | .thrown e => (s, .thrown e)
  | .terminated => (s, .terminated)
  | .undefined => (s, .undefined)

def inRange : Primitives (RangeState τ T) := P.through RangeState.thread (fun t s => { s with thread := t }) fun _ _ => rfl

/-- `copy_from` through the adapter. -/
def callCopyFrom : Eff (RangeState τ T) Exn Unit :=
  abiCallOut (inRange P) () (assigning (copyFromSpan P index) fun l s => { s with buffer := l })

/-- `copy_to` through the adapter. -/
def callCopyTo : Eff (RangeState τ T) Exn Unit :=
  abiCallOut (inRange P) () (assigning (copyToSpan P index) fun l s => { s with data := l })

end Functions

/-! ## What a range copy is to do -/

/-- The call ends with `abi_out_of_bounds`. -/
def OutOfBounds (r : RangeState τ T × Outcome Exn Unit) : Prop := ∃ s what, r = (s, .thrown (.abi (.of .outOfBounds what)))

/-- The elements are where they were. -/
def SameElements (s s' : RangeState τ T) : Prop := s'.buffer = s.buffer ∧ s'.data = s.data

/-- **What `copy_from(d, index)` and `copy_to(index, d)` do**, where `d` is the span of the state. -/
structure RangeCopies (P : Primitives τ) (s : RangeState τ T) (index : UInt64) : Prop where
  copyFrom_throws : OutOfBounds (callCopyFrom P index s) ↔ s.buffer.length < index.toNat + s.data.length
  copyTo_throws : OutOfBounds (callCopyTo P index s) ↔ s.buffer.length < index.toNat + s.data.length
  thrown_keeps : s.buffer.length < index.toNat + s.data.length →
    SameElements s (callCopyFrom P index s).1 ∧ SameElements s (callCopyTo P index s).1
  copyFrom_frame : index.toNat + s.data.length ≤ s.buffer.length → ∃ s', callCopyFrom P index s = (s', .ok ()) ∧
    s'.buffer.length = s.buffer.length ∧ s'.data = s.data ∧
    ∀ i, i < index.toNat ∨ index.toNat + s.data.length ≤ i → s'.buffer[i]? = s.buffer[i]?
  /-- Into any span of that length. -/
  copyTo_copyFrom : index.toNat + s.data.length ≤ s.buffer.length → ∀ d : List T, d.length = s.data.length →
    ∃ s', callCopyTo P index { (callCopyFrom P index s).1 with data := d } = (s', .ok ()) ∧ s'.data = s.data
  copyTo_keeps : (callCopyTo P index s).1.buffer = s.buffer
  no_wrap : ∀ p ∈ (rangeTest (size s.buffer) (size s.data) index).subtractions, p.2 ≤ p.1

/-! ## The check and the loop -/

/-- **The check is the comparison of the numbers.** -/
theorem rangeTest_iff {bufferSize dataSize index : UInt64} :
    (rangeTest bufferSize dataSize index).result = true ↔ bufferSize.toNat < index.toNat + dataSize.toNat := by
  rw [rangeTest]
  split
  · next h =>
    have : bufferSize.toNat < dataSize.toNat := h
    simp only [true_iff]
    omega
  · next h =>
    have hle : dataSize ≤ bufferSize := Nat.not_lt.1 h
    have hsub : (bufferSize - dataSize).toNat = bufferSize.toNat - dataSize.toNat := UInt64.toNat_sub_of_le _ _ hle
    have hle' : dataSize.toNat ≤ bufferSize.toNat := hle
    simp only [decide_eq_true_eq, gt_iff_lt, UInt64.lt_iff_toNat_lt, hsub]
    omega

theorem rangeTest_no_wrap {bufferSize dataSize index : UInt64} :
    ∀ p ∈ (rangeTest bufferSize dataSize index).subtractions, p.2 ≤ p.1 := by
  intro p hp
  rw [rangeTest] at hp
  split at hp
  · cases hp
  · next h =>
    cases List.mem_singleton.1 hp
    exact Nat.not_lt.1 h

/-- **`std::copy`** between valid ranges. -/
theorem stdCopy_eq {src : List T} {first n : ℕ} {dst : List T} {out : ℕ} (hsrc : first + n ≤ src.length)
    (hdst : out + n ≤ dst.length) :
    stdCopy src first n dst out = .ok (dst.take out ++ (src.drop first).take n ++ dst.drop (out + n)) := by
  induction n generalizing first dst out with
  | zero => simp [stdCopy]
  | succ n ih =>
    have hitem : src[first]? = some src[first] := List.getElem?_eq_getElem (by omega)
    have hlen : out + 1 + n ≤ (dst.set out src[first]).length := by
      rw [List.length_set]
      omega
    have hnext := ih (Nat.add_right_comm first 1 n ▸ hsrc) hlen
    -- the element that is copied first ends the part that stays
    have htake : (dst.set out src[first]).take (out + 1) = dst.take out ++ [src[first]] := by
      rw [List.take_set, List.take_succ_eq_append_getElem (by omega), List.set_append_right _ _ (by rw [List.length_take]; omega)]
      simp [show out - min out dst.length = 0 by omega]
    have hdrop : (dst.set out src[first]).drop (out + 1 + n) = dst.drop (out + (n + 1)) := by
      rw [List.drop_set_of_lt (by omega), show out + 1 + n = out + (n + 1) by omega]
    have hcopied : (src.drop first).take (n + 1) = src[first] :: (src.drop (first + 1)).take n := by
      rw [List.drop_eq_getElem_cons (by omega), List.take_succ_cons]
    simp only [stdCopy, hitem]
    rw [if_pos (by omega), hnext, htake, hdrop, hcopied]
    simp

section Sizes

variable {s : RangeState τ T} {index : UInt64} (hbuffer : s.buffer.length < 2 ^ 64) (hdata : s.data.length < 2 ^ 64)

include hbuffer hdata

theorem throwOutOfRange_eq (P : Primitives τ) :
    throwOutOfRange P index s = checkRange s.buffer P s.data.length index := by
  have htest : (rangeTest (size s.buffer) (size s.data) index).result = true ↔ _ := rangeTest_iff
  simp only [size, UInt64.toNat_ofNat_of_lt' hbuffer, UInt64.toNat_ofNat_of_lt' hdata] at htest
  rw [throwOutOfRange]
  by_cases h : index.toNat + s.data.length ≤ s.buffer.length
  · rw [checkRange_of_le P h, if_neg]
    simp only [size, htest]
    omega
  · rw [checkRange_of_not_le P h, if_pos]
    simp only [size, htest]
    omega

/-- **`copy_from` is the operation on the list.** -/
theorem copyFromSpan_eq (P : Primitives τ) : copyFromSpan P index s = copyFrom s.buffer P s.data index := by
  rw [copyFromSpan, copyFrom, throwOutOfRange_eq hbuffer hdata]
  by_cases h : index.toNat + s.data.length ≤ s.buffer.length
  · rw [checkRange_of_le P h, Outcome.ok_bind, Outcome.ok_bind, stdCopy_eq (by omega) h, List.drop_zero, List.take_length]
  · rw [checkRange_of_not_le P h, Outcome.thrown_bind, Outcome.thrown_bind]

/-- **`copy_to` is the operation on the list.** -/
theorem copyToSpan_eq (P : Primitives τ) : copyToSpan P index s = copyTo s.buffer P index s.data := by
  rw [copyToSpan, copyTo, throwOutOfRange_eq hbuffer hdata]
  by_cases h : index.toNat + s.data.length ≤ s.buffer.length
  · rw [checkRange_of_le P h, Outcome.ok_bind, Outcome.ok_bind, stdCopy_eq h (by omega)]
    simp
  · rw [checkRange_of_not_le P h, Outcome.thrown_bind, Outcome.thrown_bind]

end Sizes

/-! ## The calls -/

section Calls

variable {P : Primitives τ} {s : RangeState τ T} {index : UInt64} {f : RangeState τ T → Outcome Exn (List T)}
  {assign : List T → RangeState τ T → RangeState τ T}

theorem inRange_apart {γ : Type} {p : RangeState τ T → γ} (h : ∀ s t, p { s with thread := t } = p s) :
    (inRange P).Apart p := ⟨fun _ s => h s _, fun _ _ s => h s _⟩

theorem call_of_ok {l : List T} (h : f s = .ok l) :
    abiCallOut (inRange P) () (assigning f assign) s = (assign l s, .ok ()) := by
  refine callOut_ok ?_
  rw [assigning, h]

/-- `abi_out_of_bounds` gets to the caller, and nothing has been assigned. -/
theorem call_of_outOfBounds {what : Option String} (h : f s = .thrown (.abi (.of .outOfBounds what))) :
    OutOfBounds (abiCallOut (inRange P) () (assigning f assign) s) ∧
      SameElements s (abiCallOut (inRange P) () (assigning f assign) s).1 := by
  have hbody : assigning f assign s = (s, .thrown (.abi (.of .outOfBounds what))) := by rw [assigning, h]
  obtain ⟨s', what', hcall⟩ := callOut_abi_neg (inRange P) () hbody AbiClass.outOfBounds.noError_code
  rw [AbiError.result_of, classOf_code] at hcall
  have hbuffer := abiCallOut_leaves (inRange_apart (P := P) fun _ _ => rfl : (inRange P).Apart RangeState.buffer) ()
    (assigning f assign) s
  have hdata := abiCallOut_leaves (inRange_apart (P := P) fun _ _ => rfl : (inRange P).Apart RangeState.data) ()
    (assigning f assign) s
  rw [hbody] at hbuffer hdata
  exact ⟨⟨s', what', hcall⟩, hbuffer, hdata⟩

theorem not_outOfBounds_ok {s' : RangeState τ T} : ¬ OutOfBounds (s', .ok ()) := by
  rintro ⟨_, _, h⟩
  cases h

end Calls

theorem callCopy_of_lt (P : Primitives τ) {s : RangeState τ T} {index : UInt64} (hbuffer : s.buffer.length < 2 ^ 64)
    (hdata : s.data.length < 2 ^ 64) (h : s.buffer.length < index.toNat + s.data.length) :
    (OutOfBounds (callCopyFrom P index s) ∧ SameElements s (callCopyFrom P index s).1) ∧
      OutOfBounds (callCopyTo P index s) ∧ SameElements s (callCopyTo P index s).1 := by
  have hcheck := checkRange_of_not_le P (Nat.not_le.2 h)
  have hfrom : copyFromSpan P index s = _ := copyFromSpan_eq hbuffer hdata P
  have hto : copyToSpan P index s = _ := copyToSpan_eq hbuffer hdata P
  rw [copyFrom, hcheck, Outcome.thrown_bind] at hfrom
  rw [copyTo, hcheck, Outcome.thrown_bind] at hto
  exact ⟨call_of_outOfBounds hfrom, call_of_outOfBounds hto⟩

section Inside

variable (P : Primitives τ) {s : RangeState τ T} {index : UInt64} (hbuffer : s.buffer.length < 2 ^ 64)
  (hdata : s.data.length < 2 ^ 64) (h : index.toNat + s.data.length ≤ s.buffer.length)

include hbuffer hdata h

theorem callCopyFrom_of_le :
    callCopyFrom P index s =
      ({ s with buffer := splice s.buffer index.toNat s.data }, .ok ()) := by
  have hfrom : copyFromSpan P index s = _ := copyFromSpan_eq hbuffer hdata P
  rw [copyFrom, checkRange_of_le P h, Outcome.ok_bind] at hfrom
  exact call_of_ok hfrom

theorem callCopyTo_of_le :
    callCopyTo P index s = ({ s with data := (s.buffer.drop index.toNat).take s.data.length }, .ok ()) := by
  have hto : copyToSpan P index s = _ := copyToSpan_eq hbuffer hdata P
  rw [copyTo, checkRange_of_le P h, Outcome.ok_bind] at hto
  exact call_of_ok hto

end Inside

/-- **Range copies.**  The check is that of the sizes as numbers and no subtraction in it wraps; outside of the vector
nothing is changed, and inside what has been copied into it can be copied out again. -/
theorem rangeCopies (P : Primitives τ) (s : RangeState τ T) (index : UInt64) (hbuffer : s.buffer.length < 2 ^ 64)
    (hdata : s.data.length < 2 ^ 64) : RangeCopies P s index where
  copyFrom_throws := by
    refine ⟨fun h => Nat.not_le.1 fun hle => ?_, fun hlt => (callCopy_of_lt P hbuffer hdata hlt).1.1⟩
    rw [callCopyFrom_of_le P hbuffer hdata hle] at h
    exact not_outOfBounds_ok h
  copyTo_throws := by
    refine ⟨fun h => Nat.not_le.1 fun hle => ?_, fun hlt => (callCopy_of_lt P hbuffer hdata hlt).2.1⟩
    rw [callCopyTo_of_le P hbuffer hdata hle] at h
    exact not_outOfBounds_ok h
  thrown_keeps := by
    intro hlt
    obtain ⟨hfrom, hto⟩ := callCopy_of_lt P hbuffer hdata hlt
    exact ⟨hfrom.2, hto.2⟩
  copyFrom_frame := by
    intro hle
    exact ⟨_, callCopyFrom_of_le P hbuffer hdata hle, length_splice hle, rfl, fun i hi => getElem?_splice_of_not hle hi⟩
  copyTo_copyFrom := by
    intro hle d hd
    have hlen := length_splice hle
    have hbuffer' := hlen ▸ hbuffer
    have hdata' := hd ▸ hdata
    rw [callCopyFrom_of_le P hbuffer hdata hle]
    refine ⟨_, callCopyTo_of_le P hbuffer' hdata' ?_, ?_⟩
    · simp only [hlen, hd]
      exact hle
    · simp only [hd]
      exact drop_take_splice hle
  copyTo_keeps := by
    by_cases hle : index.toNat + s.data.length ≤ s.buffer.length
    · rw [callCopyTo_of_le P hbuffer hdata hle]
    · exact (callCopy_of_lt P hbuffer hdata (Nat.not_le.1 hle)).2.2.1
  no_wrap := rangeTest_no_wrap

/-- A span of two elements at the end of a vector of three. -/
theorem rangeCopies_run : RangeCopies Primitives.slot ⟨none, [1, 2, 3], [8, 9]⟩ 1 :=
  rangeCopies Primitives.slot _ 1 (by decide) (by decide)

end Nessus.Abi.ParamVector
