import Nessus.Lib.JsonGrammar
import Nessus.Parser.Json

/-!
# `Json::FastWriter`

`FastWriter::write` with the flags of its constructor, on texts as lists of `char`s.  The text of a real comes from
`snprintf`, a parameter.

* `writeValue_denotes` — what is written is JSON, and stands for the value.
-/

namespace Nessus.Parser

open Nessus.Lib Nessus.Lib.Json

/-! ## Numbers and strings -/

def uintToString (value : ℕ) : List Char := Nat.toDigits 10 value

/-- `valueToString(LargestInt)`. -/
def valueToStringInt (value : Int64) : List Char :=
  if value = Int64.minValue then '-' :: uintToString (Int64.maxValue.toInt.toNat + 1)
  else if value < 0 then '-' :: uintToString (-value).toInt.toNat
  else uintToString value.toInt.toNat

/-- `valueToString(LargestUInt)`. -/
def valueToStringUInt (value : UInt64) : List Char := uintToString value.toNat

def valueToStringBool : Bool → List Char
  | true => ['t', 'r', 'u', 'e']
  | false => ['f', 'a', 'l', 's', 'e']

def isControlCharacter (ch : Char) : Bool := decide (0 < ch.toNat ∧ ch.toNat ≤ 0x1F)

/-- The characters `strnpbrk` looks for. -/
def escaped : List Char := ['"', '\\', Char.ofNat 8, Char.ofNat 12, '\n', '\r', '\t']

/-- `std::hex << std::uppercase << std::setfill('0') << std::setw(4)`. -/
def hex4 (n : ℕ) : List Char :=
  let digits := (Nat.toDigits 16 n).map Char.toUpper
  List.replicate (4 - digits.length) '0' ++ digits

/-- One round of the loop of `valueToQuotedStringN`. -/
def escapeChar (c : Char) : List Char :=
  if c = '"' then ['\\', '"']
  else if c = '\\' then ['\\', '\\']
  else if c = Char.ofNat 8 then ['\\', 'b']
  else if c = Char.ofNat 12 then ['\\', 'f']
  else if c = '\n' then ['\\', 'n']
  else if c = '\r' then ['\\', 'r']
  else if c = '\t' then ['\\', 't']
  else if isControlCharacter c || c.toNat == 0 then '\\' :: 'u' :: hex4 c.toNat
  else [c]

def valueToQuotedStringN (value : List Char) : List Char :=
  if value.any escaped.contains || value.any (fun c => isControlCharacter c || c.toNat == 0) then
    '"' :: value.flatMap escapeChar ++ ['"']
  else '"' :: value ++ ['"']

/-! ## Values -/

section Write

variable (snprintf : ℚ → List Char)

mutual

def writeValue : Json → List Char
  | .null => ['n', 'u', 'l', 'l']
  | .int i => valueToStringInt i
  | .uint u => valueToStringUInt u
  | .real q => snprintf q
  | .string s => valueToQuotedStringN s.toList
  | .bool b => valueToStringBool b
  | .array items => '[' :: writeItems items ++ [']']
  | .object members => '{' :: writeMembers members ++ ['}']
termination_by structural v => v

/-- The loop over the elements of an array. -/
def writeItems : List Json → List Char
  | [] => []
  | [v] => writeValue v
  | v :: v' :: vs => writeValue v ++ ',' :: writeItems (v' :: vs)
termination_by structural vs => vs

/-- The loop over the members of an object. -/
def writeMembers : List (String × Json) → List Char
  | [] => []
  | [m] => writeMember m
  | m :: m' :: ms => writeMember m ++ ',' :: writeMembers (m' :: ms)
termination_by structural ms => ms

def writeMember : String × Json → List Char
  | (name, v) => valueToQuotedStringN name.toList ++ ':' :: writeValue v
termination_by structural m => m

end

def write (root : Json) : List Char := writeValue snprintf root ++ ['\n']

end Write

/-! ## What is written is JSON -/

theorem uintToString_natural (value : ℕ) : Natural (uintToString value) := by
  unfold uintToString
  induction value using Nat.strongRecOn with
  | ind n ih =>
    rw [Nat.toDigits_eq_if (by decide)]
    split
    · next h =>
      refine ⟨⟨by simp, ?_⟩, fun hz => ?_⟩
      · rintro c hc
        obtain rfl := List.mem_singleton.1 hc
        rw [Nat.isDigit_digitChar, decide_eq_true h]
      · exact congrArg (fun c => [c]) (Option.some.inj hz)
    · next h =>
      obtain ⟨⟨hne, hd⟩, hz⟩ := ih (n / 10) (by omega)
      refine ⟨⟨by simp, ?_⟩, fun h0 => ?_⟩
      · intro c hc
        rcases List.mem_append.1 hc with hc | hc
        · exact hd c hc
        · obtain rfl := List.mem_singleton.1 hc
          rw [Nat.isDigit_digitChar, decide_eq_true (Nat.mod_lt _ (by decide))]
      · rw [List.head?_append_of_ne_nil _ hne] at h0
        -- a number from ten on has no quotient that is written as a zero
        have hq := Nat.ofDigitChars_ten_toDigits (n := n / 10)
        rw [hz h0] at hq
        have h0 : Nat.ofDigitChars 10 ['0'] 0 = 0 := rfl
        omega

theorem valueToStringInt_integer (value : Int64) : Integer (valueToStringInt value) := by
  unfold valueToStringInt
  split
  · exact .inr ⟨_, uintToString_natural _, rfl⟩
  split
  · exact .inr ⟨_, uintToString_natural _, rfl⟩
  · exact .inl (uintToString_natural _)

theorem hex4_spec {n : ℕ} (h : n < 32) : ∃ a b c d, hex4 n = [a, b, c, d] ∧ Hex4 a b c d n := by
  have hall : ∀ n : Fin 32, ∃ c, ∃ d, hex4 n = ['0', '0', c, d] ∧ hexValue c = some (n / 16) ∧
      hexValue d = some (n % 16) := by
    intro n
    refine ⟨(hex4 n).getD 2 '0', (hex4 n).getD 3 '0', ?_⟩
    revert n
    decide
  obtain ⟨c, d, hs, hc, hd⟩ := hall ⟨n, h⟩
  refine ⟨'0', '0', c, d, hs, 0, 0, n / 16, n % 16, rfl, rfl, hc, hd, ?_⟩
  omega

theorem escapeChar_chars (c : Char) {s t : List Char} (h : Chars s t) : Chars (c :: s) (escapeChar c ++ t) := by
  unfold escapeChar
  split_ifs with h₁ h₂ h₃ h₄ h₅ h₆ h₇ h₈
  · exact .escape (by simp [escapes, h₁]) h
  · exact .escape (by simp [escapes, h₂]) h
  · exact .escape (by simp [escapes, h₃]) h
  · exact .escape (by simp [escapes, h₄]) h
  · exact .escape (by simp [escapes, h₅]) h
  · exact .escape (by simp [escapes, h₆]) h
  · exact .escape (by simp [escapes, h₇]) h
  · have hn : c.toNat < 32 := by
      simp only [isControlCharacter, Bool.or_eq_true, decide_eq_true_eq, beq_iff_eq] at h₈
      omega
    obtain ⟨x, y, z, w, hs, hx⟩ := hex4_spec hn
    rw [hs]
    have := Chars.unicode hx (.inl (by omega)) h
    rwa [Char.ofNat_toNat] at this
  · have hn : 32 ≤ c.toNat := by
      simp only [isControlCharacter, Bool.or_eq_true, decide_eq_true_eq, beq_iff_eq] at h₈
      omega
    exact .char hn h₁ h₂ h

theorem escapeChar_eq {c : Char} (he : c ∉ escaped) (hc : (isControlCharacter c || c.toNat == 0) = false) :
    escapeChar c = [c] := by
  simp only [escaped, List.mem_cons, List.not_mem_nil, or_false, not_or] at he
  obtain ⟨h₁, h₂, h₃, h₄, h₅, h₆, h₇⟩ := he
  simp [escapeChar, h₁, h₂, h₃, h₄, h₅, h₆, h₇, hc]

/-- A text without special characters is what the loop makes of it. -/
theorem valueToQuotedStringN_eq (value : List Char) :
    valueToQuotedStringN value = '"' :: value.flatMap escapeChar ++ ['"'] := by
  unfold valueToQuotedStringN
  split
  · rfl
  · next h =>
    simp only [Bool.or_eq_true, not_or, Bool.not_eq_true, List.any_eq_false] at h
    have hv : value.flatMap escapeChar = value := by
      rw [List.flatMap_congr (g := fun c => [c]) fun c hc =>
        escapeChar_eq (by simpa using h.1 c hc) (by simpa using h.2 c hc)]
      simp
    rw [hv]

theorem flatMap_escapeChar_chars (value : List Char) : Chars value (value.flatMap escapeChar) := by
  induction value with
  | nil => exact .nil
  | cons c s ih => exact escapeChar_chars c ih

section Denotes

variable (snprintf : ℚ → List Char)

mutual

/-- What the text of a value stands for. -/
def Json.tree : Json → Tree
  | .null => .null
  | .int i => .number (valueToStringInt i)
  | .uint u => .number (valueToStringUInt u)
  | .real q => .number (snprintf q)
  | .string s => .string s.toList
  | .bool b => .bool b
  | .array items => .array (Json.trees items)
  | .object members => .object (Json.memberTrees members)
termination_by structural v => v

def Json.trees : List Json → List Tree
  | [] => []
  | v :: vs => v.tree :: Json.trees vs
termination_by structural vs => vs

def Json.memberTrees : List (String × Json) → List (List Char × Tree)
  | [] => []
  | m :: ms => Json.memberTree m :: Json.memberTrees ms
termination_by structural ms => ms

def Json.memberTree : String × Json → List Char × Tree
  | (name, v) => (name.toList, v.tree)
termination_by structural m => m

end

variable {snprintf}

mutual

/-- **What `writeValue` writes stands for the value.** -/
theorem writeValue_denotes (hreal : ∀ q, Number (snprintf q)) : (v : Json) → Denotes (v.tree snprintf) (writeValue snprintf v)
  | .null => .null
  | .int i => .number (valueToStringInt_integer i).number
  | .uint u => .number (Integer.number (.inl (uintToString_natural u.toNat)))
  | .real q => .number (hreal q)
  | .string s => by
    rw [writeValue, valueToQuotedStringN_eq]
    exact .string (flatMap_escapeChar_chars s.toList)
  | .bool true => .true
  | .bool false => .false
  | .array items => .array (writeItems_elements hreal items)
  | .object members => .object (writeMembers_members hreal members)
termination_by structural v => v

theorem writeItems_elements (hreal : ∀ q, Number (snprintf q)) :
    (vs : List Json) → Elements (Json.trees snprintf vs) (writeItems snprintf vs)
  | [] => .nil ws_nil
  | [v] => .one (writeValue_denotes hreal v)
  | v :: v' :: vs => .cons (writeValue_denotes hreal v) (writeItems_elements hreal (v' :: vs))
termination_by structural vs => vs

theorem writeMembers_members (hreal : ∀ q, Number (snprintf q)) : (ms : List (String × Json)) →
    Members (Json.memberTrees snprintf ms) (writeMembers snprintf ms)
  | [] => .nil ws_nil
  | [m] => .one (writeMember_member hreal m)
  | m :: m' :: ms => .cons (writeMember_member hreal m) (writeMembers_members hreal (m' :: ms))
termination_by structural ms => ms

theorem writeMember_member (hreal : ∀ q, Number (snprintf q)) :
    (m : String × Json) → Member (Json.memberTree snprintf m) (writeMember snprintf m)
  | (name, v) => by
    rw [writeMember, valueToQuotedStringN_eq]
    have h := Member.mk ws_nil ws_nil (flatMap_escapeChar_chars name.toList) (writeValue_denotes hreal v)
    simpa only [Json.memberTree, List.cons_append, List.append_assoc, List.nil_append] using h
termination_by structural m => m

end

theorem write_denotes (hreal : ∀ q, Number (snprintf q)) (root : Json) :
    Denotes (root.tree snprintf) (write snprintf root) := by
  exact .ws ws_nil (b := ['\n']) (by simp [Ws]) (writeValue_denotes hreal root)

end Denotes

end Nessus.Parser
