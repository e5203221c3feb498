import Nessus.Lib.CString
import Nessus.Abi.ParamString

/-!
# Strings and views

The operators of `param_string` with a `utf8_string_view` hand the `data()` of the view to functions that take a C
string, and leave its size behind.

* `CStringFunctions` — these functions, and `CStringFunctions.Lawful`: they read up to the first NUL;
* `StringView`, `viewEqString`, … — a view into the memory of the caller, and the operators;
* `UsedInFull`, `UsedOnly` — the view is used with all its bytes, and with no other;
* `value_eq_bytes_iff` — what is read is the view exactly if it is a C string of its own;
* `views_used_iff` — **when the operators use a view in full, and only in full**.
-/

namespace Nessus.Abi.ParamString

open Nessus.Lib

variable {μ : Type}

/-! ## Functions that take a C string -/

/-- What a call gives, and the places in the memory of the caller that it reads. -/
structure Reading (α : Type) where
  value : Outcome Empty α
  reads : List ℕ
  deriving DecidableEq, Repr

/-- The C string at a pointer: the bytes up to the first NUL, which is read as well.  `null` is what a null pointer is
taken for, if it is allowed. -/
def readCString (null : Option (List UInt8)) (memory : List UInt8) : Option ℕ → Reading (List UInt8)
  | none => ⟨null.elim .undefined .ok, []⟩
  | some p =>
    match cString (memory.drop p) with
    | some s => ⟨.ok s, List.range' p (s.length + 1)⟩
    | none => ⟨.undefined, List.range' p (memory.length - p)⟩

/-- The functions of `glasssix::exposing::allocations` that take a C string, on a memory of strings `μ` and the memory
of the caller. -/
structure CStringFunctions (μ : Type) where
  /-- The bytes of the string that a handle stands for. -/
  bytes : μ → Handle → List UInt8
  null : Option (List UInt8)
  compareCStringWithParamString : μ → List UInt8 → Option ℕ → Handle → Reading Bool
  compareParamStringWithCString : μ → List UInt8 → Handle → Option ℕ → Reading Bool
  concatCStringWithParamString : μ → List UInt8 → Option ℕ → Handle → Reading (μ × Handle)
  concatParamStringWithCString : μ → List UInt8 → Handle → Option ℕ → Reading (μ × Handle)

namespace CStringFunctions

variable (F : CStringFunctions μ)

/-- What a function reads that is given a pointer. -/
def read (memory : List UInt8) (data : Option ℕ) : Reading (List UInt8) := readCString F.null memory data

/-- The result of a comparison of the C string `c` with the bytes. -/
def Compares (c : Reading (List UInt8)) (bytes : List UInt8) (r : Reading Bool) : Prop :=
  r.reads = c.reads ∧ r.value = c.value >>= fun s => .ok (s == bytes)

/-- The result of a concatenation with the C string `c`: the handle of a new string. -/
def Concats (c : Reading (List UInt8)) (join : List UInt8 → List UInt8) (r : Reading (μ × Handle)) : Prop :=
  r.reads = c.reads ∧
    ((∃ s m q, c.value = .ok s ∧ r.value = .ok (m, q) ∧ F.bytes m q = join s) ∨
      c.value = .undefined ∧ r.value = .undefined)

/-- **The functions read the C string up to its first NUL.** -/
structure Lawful : Prop where
  compare_left (m : μ) (memory : List UInt8) (data : Option ℕ) (p : Handle) :
    Compares (F.read memory data) (F.bytes m p) (F.compareCStringWithParamString m memory data p)
  compare_right (m : μ) (memory : List UInt8) (data : Option ℕ) (p : Handle) :
    Compares (F.read memory data) (F.bytes m p) (F.compareParamStringWithCString m memory p data)
  concat_left (m : μ) (memory : List UInt8) (data : Option ℕ) (p : Handle) :
    F.Concats (F.read memory data) (· ++ F.bytes m p) (F.concatCStringWithParamString m memory data p)
  concat_right (m : μ) (memory : List UInt8) (data : Option ℕ) (p : Handle) :
    F.Concats (F.read memory data) (F.bytes m p ++ ·) (F.concatParamStringWithCString m memory p data)

end CStringFunctions

/-! ## Views and the operators -/

/-- A `utf8_string_view` into the memory. -/
structure StringView (memory : List UInt8) where
  data : Option ℕ
  size : ℕ
  null : data = none → size = 0
  inside : ∀ p ∈ data, p + size ≤ memory.length
  deriving DecidableEq, Repr

section Operators

variable {memory : List UInt8} (F : CStringFunctions μ) (m : μ) (v : StringView memory) (p : Handle)

def StringView.bytes : List UInt8 :=
  match v.data with
  | none => []
  | some q => (memory.drop q).take v.size

/-- The place in the memory is one of a byte of the view. -/
def StringView.Covers (a : ℕ) : Prop := ∃ q, v.data = some q ∧ q ≤ a ∧ a < q + v.size

/-- `!`. -/
def Reading.not (r : Reading Bool) : Reading Bool := ⟨r.value >>= fun b => .ok !b, r.reads⟩

/-- `operator==(utf8_string_view, const param_string&)`. -/
def viewEqString : Reading Bool := F.compareCStringWithParamString m memory v.data p

/-- `operator==(const param_string&, utf8_string_view)`. -/
def stringEqView : Reading Bool := F.compareParamStringWithCString m memory p v.data

/-- `operator!=(utf8_string_view, const param_string&)`. -/
def viewNeString : Reading Bool := (viewEqString F m v p).not

/-- `operator!=(const param_string&, utf8_string_view)`. -/
def stringNeView : Reading Bool := (stringEqView F m v p).not

/-- `operator+(utf8_string_view, const param_string&)`. -/
def viewAddString : Reading (μ × Handle) := F.concatCStringWithParamString m memory v.data p

/-- `operator+(const param_string&, utf8_string_view)`. -/
def stringAddView : Reading (μ × Handle) := F.concatParamStringWithCString m memory p v.data

/-! ## What they are to do -/

/-- The call gives a string with these bytes. -/
def Gives (r : Reading (μ × Handle)) (bytes : List UInt8) : Prop := ∃ m' q, r.value = .ok (m', q) ∧ F.bytes m' q = bytes

/-- **The view is used in full**: the operators compare and concatenate its bytes. -/
structure UsedInFull : Prop where
  view_eq : (viewEqString F m v p).value = .ok (v.bytes == F.bytes m p)
  string_eq : (stringEqView F m v p).value = .ok (F.bytes m p == v.bytes)
  view_ne : (viewNeString F m v p).value = .ok (v.bytes != F.bytes m p)
  string_ne : (stringNeView F m v p).value = .ok (F.bytes m p != v.bytes)
  view_add : Gives F (viewAddString F m v p) (v.bytes ++ F.bytes m p)
  string_add : Gives F (stringAddView F m v p) (F.bytes m p ++ v.bytes)

/-- **And only in full**: no byte outside of it is read. -/
structure UsedOnly : Prop where
  view_eq : ∀ a ∈ (viewEqString F m v p).reads, v.Covers a
  string_eq : ∀ a ∈ (stringEqView F m v p).reads, v.Covers a
  view_ne : ∀ a ∈ (viewNeString F m v p).reads, v.Covers a
  string_ne : ∀ a ∈ (stringNeView F m v p).reads, v.Covers a
  view_add : ∀ a ∈ (viewAddString F m v p).reads, v.Covers a
  string_add : ∀ a ∈ (stringAddView F m v p).reads, v.Covers a

/-- The view is a C string of its own: no byte of it is a NUL, and one comes after it; or its pointer is null, and that
is taken for the empty string. -/
def StringView.IsCString : Prop :=
  match v.data with
  | none => F.null = some []
  | some q => 0 ∉ v.bytes ∧ memory[q + v.size]? = some 0

end Operators

/-! ## What is read -/

section Read

variable {memory : List UInt8} {F : CStringFunctions μ} {m : μ} {v : StringView memory} {p : Handle}

/-- **What is read is the view exactly if it is a C string of its own.** -/
theorem value_eq_bytes_iff : (F.read memory v.data).value = .ok v.bytes ↔ v.IsCString F := by
  rw [StringView.IsCString, StringView.bytes]
  cases hdata : v.data with
  | none =>
    rw [CStringFunctions.read, readCString]
    cases F.null <;> simp
  | some q =>
    have hinside := v.inside q hdata
    have hle : v.size ≤ (memory.drop q).length := by
      rw [List.length_drop]
      omega
    have htake := cString_eq_take_iff hle
    rw [List.getElem?_drop] at htake
    refine Iff.trans ?_ htake
    rw [CStringFunctions.read, readCString]
    cases cString (memory.drop q) <;> simp

theorem not_covers_of_value (h : (F.read memory v.data).value = .ok v.bytes) (hdata : v.data ≠ none) :
    ¬ ∀ a ∈ (F.read memory v.data).reads, v.Covers a := by
  obtain ⟨q, hq⟩ := Option.ne_none_iff_exists'.1 hdata
  have hinside := v.inside q hq
  have hlength : v.bytes.length = v.size := by
    simp only [StringView.bytes, hq, List.length_take, List.length_drop]
    omega
  intro hall
  rw [hq, CStringFunctions.read, readCString] at h hall
  cases hread : cString (memory.drop q) with
  | none =>
    rw [hread] at h
    cases h
  | some s =>
    rw [hread] at h hall
    cases h
    obtain ⟨q', hq', -, hlt⟩ := hall (q + v.size) (List.mem_range'_1.2 (by omega))
    rw [hq] at hq'
    cases hq'
    omega

theorem CStringFunctions.Compares.value {c : Reading (List UInt8)} {s bytes : List UInt8} {r : Reading Bool}
    (h : CStringFunctions.Compares c bytes r) (hc : c.value = .ok s) : r.value = .ok (s == bytes) := by
  rw [h.2, hc, Outcome.ok_bind]

theorem CStringFunctions.Concats.gives {c : Reading (List UInt8)} {s : List UInt8} {join : List UInt8 → List UInt8}
    {r : Reading (μ × Handle)} (h : F.Concats c join r) (hc : c.value = .ok s) : Gives F r (join s) := by
  rcases h.2 with ⟨s', m', q, hs', hr, hbytes⟩ | ⟨hundefined, -⟩
  · rw [hc] at hs'
    cases hs'
    exact ⟨m', q, hr, hbytes⟩
  · rw [hc] at hundefined
    cases hundefined

/-! ## The operators -/

/-- **The view is used in full exactly if it is a C string of its own.** -/
theorem usedInFull_iff (hF : F.Lawful) : UsedInFull F m v p ↔ v.IsCString F := by
  rw [← value_eq_bytes_iff]
  constructor
  · intro h
    obtain ⟨m₁, q₁, hadd, hbytes⟩ := h.view_add
    rcases (hF.concat_left m memory v.data p).2 with ⟨s, m₂, q₂, hs, hadd', hbytes'⟩ | ⟨-, hundefined⟩
    · -- both are the bytes of the new string, and what they end with is the same
      rw [viewAddString, hadd'] at hadd
      cases hadd
      rw [hs, List.append_cancel_right (hbytes'.symm.trans hbytes)]
    · rw [viewAddString, hundefined] at hadd
      cases hadd
  · intro h
    have hleft := (hF.compare_left m memory v.data p).value h
    have hright := (hF.compare_right m memory v.data p).value h
    rw [Bool.beq_comm] at hright
    refine ⟨hleft, hright, ?_, ?_, (hF.concat_left m memory v.data p).gives h, (hF.concat_right m memory v.data p).gives h⟩
    · rw [viewNeString, Reading.not, viewEqString, hleft]
      rfl
    · rw [stringNeView, Reading.not, stringEqView, hright]
      rfl

theorem usedOnly_of_null (hF : F.Lawful) (h : v.data = none) : UsedOnly F m v p := by
  have hnone : ∀ {α : Type} {r : Reading α}, r.reads = (F.read memory v.data).reads → ∀ a ∈ r.reads, v.Covers a := by
    intro α r hr a ha
    rw [hr, h] at ha
    cases ha
  have hleft := hnone (hF.compare_left m memory v.data p).1
  have hright := hnone (hF.compare_right m memory v.data p).1
  exact ⟨hleft, hright, hleft, hright, hnone (hF.concat_left m memory v.data p).1,
    hnone (hF.concat_right m memory v.data p).1⟩

end Read

/-- **When the operators use a view in full, and only in full**: not if it has a pointer, as either the bytes are not
those of the view or the NUL after it is read.  Their results are right exactly if the view is a C string of its own. -/
theorem views_used_iff (F : CStringFunctions μ) (hF : F.Lawful) (m : μ) {memory : List UInt8} (v : StringView memory)
    (p : Handle) :
    (UsedInFull F m v p ∧ UsedOnly F m v p ↔ v.data = none ∧ F.null = some []) ∧
      (UsedInFull F m v p ↔ v.IsCString F) := by
  refine ⟨⟨?_, ?_⟩, usedInFull_iff hF⟩
  · rintro ⟨hfull, honly⟩
    have hcstring := (usedInFull_iff hF).1 hfull
    have hdata : v.data = none := by
      by_contra hdata
      refine not_covers_of_value (value_eq_bytes_iff.2 hcstring) hdata ?_
      rw [← (hF.compare_left m memory v.data p).1]
      exact honly.view_eq
    rw [StringView.IsCString, hdata] at hcstring
    exact ⟨hdata, hcstring⟩
  · rintro ⟨hdata, hnull⟩
    have hcstring : v.IsCString F := by
      rw [StringView.IsCString, hdata]
      exact hnull
    exact ⟨(usedInFull_iff hF).2 hcstring, usedOnly_of_null hF hdata⟩

/-! ## A table of strings -/

def tableBytes (m : List (List UInt8)) (p : Handle) : List UInt8 := (p.bind (m[·]?)).getD []

def compareTable (m : List (List UInt8)) (memory : List UInt8) (data : Option ℕ) (p : Handle) : Reading Bool :=
  ⟨(readCString (some []) memory data).value >>= fun s => .ok (s == tableBytes m p),
    (readCString (some []) memory data).reads⟩

def concatTable (m : List (List UInt8)) (memory : List UInt8) (data : Option ℕ) (join : List UInt8 → List UInt8) :
    Reading (List (List UInt8) × Handle) :=
  ⟨(readCString (some []) memory data).value >>= fun s => .ok (m ++ [join s], some m.length),
    (readCString (some []) memory data).reads⟩

/-- A null pointer is the empty string. -/
def tableStrings : CStringFunctions (List (List UInt8)) where
  bytes := tableBytes
  null := some []
  compareCStringWithParamString := compareTable
  compareParamStringWithCString m memory p data := compareTable m memory data p
  concatCStringWithParamString m memory data p := concatTable m memory data (· ++ tableBytes m p)
  concatParamStringWithCString m memory p data := concatTable m memory data (tableBytes m p ++ ·)

theorem concatTable_concats (m : List (List UInt8)) (memory : List UInt8) (data : Option ℕ)
    (join : List UInt8 → List UInt8) :
    tableStrings.Concats (tableStrings.read memory data) join (concatTable m memory data join) := by
  refine ⟨rfl, ?_⟩
  simp only [concatTable, CStringFunctions.read, tableStrings]
  have hnew (s : List UInt8) : tableBytes (m ++ [join s]) (some m.length) = join s := by simp [tableBytes]
  cases data with
  | none => exact .inl ⟨[], _, _, rfl, rfl, hnew []⟩
  | some p =>
    rw [readCString]
    cases cString (memory.drop p) with
    | none => exact .inr ⟨rfl, rfl⟩
    | some s => exact .inl ⟨s, _, _, rfl, rfl, hnew s⟩

theorem tableStrings_lawful : tableStrings.Lawful where
  compare_left _ _ _ _ := ⟨rfl, rfl⟩
  compare_right _ _ _ _ := ⟨rfl, rfl⟩
  concat_left m memory data p := concatTable_concats m memory data (· ++ tableBytes m p)
  concat_right m memory data p := concatTable_concats m memory data (tableBytes m p ++ ·)

/-- The view of `ab` in `abc`. -/
def abView : StringView [97, 98, 99, 0] := ⟨some 0, 2, fun h => (by cases h), fun p hp => by cases hp; decide⟩

theorem views_used_iff_run :
    (UsedInFull tableStrings [[97, 98]] abView (some 0) ∧ UsedOnly tableStrings [[97, 98]] abView (some 0) ↔
        abView.data = none ∧ tableStrings.null = some []) ∧
      (UsedInFull tableStrings [[97, 98]] abView (some 0) ↔ abView.IsCString tableStrings) :=
  views_used_iff tableStrings tableStrings_lawful [[97, 98]] abView (some 0)

/-- The view of `ab` in `abc` is not equal to `ab`, and the sum with `ab` is `abcab`. -/
theorem not_used_substring :
    (viewEqString tableStrings [[97, 98]] abView (some 0)).value = .ok false ∧
      (viewAddString tableStrings [[97, 98]] abView (some 0)).value =
        .ok ([[97, 98], [97, 98, 99, 97, 98]], some 1) ∧
      ¬ (UsedInFull tableStrings [[97, 98]] abView (some 0) ∧ UsedOnly tableStrings [[97, 98]] abView (some 0)) := by
  refine ⟨by decide, by decide, fun h => ?_⟩
  have heq := h.1.view_eq
  revert heq
  decide

end Nessus.Abi.ParamString
