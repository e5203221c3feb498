import Mathlib.Data.Rat.Defs
import Nessus.Abi.Errors
import Nessus.Lib.CInt

/-!
# JSON values

`Json::Value` as the parser uses it: the accessors and the `Json::LogicError` each of them throws on a value of the
wrong type.  The members of an object stand in the order of their keys.
-/

namespace Nessus.Parser

open Nessus.Lib Nessus.Abi

/-- `Json::Value`. -/
inductive Json where
  | null
  | int (i : Int64)
  | uint (u : UInt64)
  | real (q : ℚ)
  | string (s : String)
  | bool (b : Bool)
  | array (items : List Json)
  | object (members : List (String × Json))

/-- `JSON_FAIL_MESSAGE`. -/
def logicError (message : String) : Exn := .std .jsonLogicError message

namespace Json

/-- `Value::operator[](key)`, non-const: a missing member is inserted as null. -/
def resolveReference (v : Json) (key : String) : Outcome Exn Json :=
  match v with
  | null => .ok null
  | object members => .ok ((members.lookup key).getD null)
  | _ => .thrown (logicError "in Json::Value::resolveReference(key, end): requires objectValue")

/-- `Value::get(key, defaultValue)`. -/
def get (v : Json) (key : String) (defaultValue : Json) : Outcome Exn Json :=
  match v with
  | null => .ok defaultValue
  | object members => .ok ((members.lookup key).getD defaultValue)
  | _ => .thrown (logicError "in Json::Value::find(key, end, found): requires objectValue or nullValue")

def empty : Json → Bool
  | null => true
  | array items => items.isEmpty
  | object members => members.isEmpty
  | _ => false

/-- What a loop over the value visits: `begin()` and `end()` are equal unless it is an array or an object. -/
def elements : Json → List Json
  | array items => items
  | object members => members.map (·.2)
  | _ => []

def asString : Json → Outcome Exn String
  | null => .thrown (logicError "Value is null")
  | string s => .ok s
  | _ => .thrown (logicError "Type is not convertible to string")

/-- `Value::asInt`.  A real in range is truncated toward zero. -/
def asInt : Json → Outcome Exn ℤ
  | int i =>
    if minInt ≤ i.toInt ∧ i.toInt ≤ maxInt then .ok i.toInt
    else .thrown (logicError "LargestInt out of Int range")
  | uint u =>
    if (u.toNat : ℤ) ≤ maxInt then .ok u.toNat
    else .thrown (logicError "LargestUInt out of Int range")
  | real q =>
    if (minInt : ℚ) ≤ q ∧ q ≤ maxInt then .ok (q.num.tdiv q.den)
    else .thrown (logicError "double out of Int range")
  | null => .thrown (logicError "Value is null")
  | _ => .thrown (logicError "Value is not convertible to Int.")

end Json

/-- The outcome is not undefined, and what it throws derives from `std::exception`. -/
def Plain {α : Type} (x : Outcome Exn α) : Prop := (∃ a, x = .ok a) ∨ ∃ e, x = .thrown e ∧ e.isStd = true

namespace Json

variable (v : Json) (key : String)

theorem plain_logicError {α : Type} (m : String) : Plain (.thrown (logicError m) : Outcome Exn α) :=
  .inr ⟨_, rfl, rfl⟩

theorem resolveReference_plain : Plain (v.resolveReference key) := by
  cases v <;> first | exact plain_logicError _ | exact .inl ⟨_, rfl⟩

theorem asString_plain : Plain v.asString := by
  cases v <;> first | exact plain_logicError _ | exact .inl ⟨_, rfl⟩

theorem tdiv_le {a m : ℤ} {d : ℕ} (hd : 0 < d) (hm : 0 ≤ m) (h : a ≤ m * d) : a.tdiv d ≤ m := by
  rcases Int.le_total 0 a with ha | ha
  · rw [Int.tdiv_eq_ediv_of_nonneg ha]
    exact Int.ediv_le_of_le_mul (by omega) h
  · have := Int.tdiv_nonneg (a := -a) (b := d) (by omega) (by omega)
    rw [Int.neg_tdiv] at this
    omega

theorem le_tdiv {a m : ℤ} {d : ℕ} (hd : 0 < d) (hm : m ≤ 0) (h : m * d ≤ a) : m ≤ a.tdiv d := by
  have := tdiv_le (a := -a) (m := -m) hd (by omega) (by rw [Int.neg_mul]; omega)
  rw [Int.neg_tdiv] at this
  omega

/-- **What `asInt` returns is a 32-bit integer.** -/
theorem asInt_inInt {i : ℤ} (h : v.asInt = .ok i) : InInt i := by
  have hmin : minInt < 0 := by decide
  have hmax : 0 < maxInt := by decide
  cases v with
  | int i' =>
    simp only [asInt] at h
    split at h
    · next hr => cases h; exact hr
    · cases h
  | uint u =>
    simp only [asInt] at h
    split at h
    · next hr => cases h; exact ⟨by omega, hr⟩
    · cases h
  | real q =>
    simp only [asInt] at h
    split at h
    · next hr =>
      cases h
      obtain ⟨h₁, h₂⟩ := hr
      rw [Rat.le_iff] at h₁ h₂
      simp only [Rat.num_intCast, Rat.den_intCast, Int.natCast_one, Int.mul_one] at h₁ h₂
      exact ⟨le_tdiv q.den_pos (by omega) h₁, tdiv_le q.den_pos (by omega) h₂⟩
    · cases h
  | _ => cases h

end Json

end Nessus.Parser
