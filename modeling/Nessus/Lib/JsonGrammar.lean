import Mathlib.Data.List.Basic
import Mathlib.Data.Nat.Notation

/-!
# The grammar of JSON

Which lists of characters are JSON texts, and what they stand for.

* `Json.Number`, `Json.Chars` — the text of a number, and of what stands between the quotes of a string;
* `Json.Denotes` — the text of a value; `Json.Elements` and `Json.Members` are what stands between the brackets.
-/

namespace Nessus.Lib.Json

/-- What a text stands for.  A number is kept as it is written. -/
inductive Tree where
  | null
  | bool (b : Bool)
  | number (text : List Char)
  | string (s : List Char)
  | array (items : List Tree)
  | object (members : List (List Char × Tree))

/-- The value of the first member with that name. -/
def Tree.member (key : List Char) : Tree → Option Tree
  | object members => members.lookup key
  | _ => none

def Ws (t : List Char) : Prop := ∀ c ∈ t, c = ' ' ∨ c = '\t' ∨ c = '\n' ∨ c = '\r'

/-! ## Numbers -/

def Digits (t : List Char) : Prop := t ≠ [] ∧ ∀ c ∈ t, c.isDigit = true

def Natural (t : List Char) : Prop := Digits t ∧ (t.head? = some '0' → t = ['0'])

def Integer (t : List Char) : Prop := Natural t ∨ ∃ u, Natural u ∧ t = '-' :: u

def Fraction (t : List Char) : Prop := t = [] ∨ ∃ u, Digits u ∧ t = '.' :: u

def Exponent (t : List Char) : Prop :=
  t = [] ∨ ∃ e u, (e = 'e' ∨ e = 'E') ∧ Digits u ∧ (t = e :: u ∨ t = e :: '+' :: u ∨ t = e :: '-' :: u)

def Number (t : List Char) : Prop := ∃ a b c, Integer a ∧ Fraction b ∧ Exponent c ∧ t = a ++ b ++ c

theorem Integer.number {t : List Char} (h : Integer t) : Number t :=
  ⟨t, [], [], h, .inl rfl, .inl rfl, by simp⟩

/-! ## Strings -/

/-- The characters after a backslash, and what they stand for. -/
def escapes : List (Char × Char) :=
  [('"', '"'), ('\\', '\\'), ('/', '/'), ('b', Char.ofNat 8), ('f', Char.ofNat 12), ('n', '\n'), ('r', '\r'), ('t', '\t')]

/-- The value of a hexadecimal digit. -/
def hexValue (c : Char) : Option ℕ :=
  if c.isDigit then some (c.toNat - 48)
  else if 'A' ≤ c ∧ c ≤ 'F' then some (c.toNat - 55)
  else if 'a' ≤ c ∧ c ≤ 'f' then some (c.toNat - 87)
  else none

/-- The value of four hexadecimal digits. -/
def Hex4 (a b c d : Char) (n : ℕ) : Prop :=
  ∃ w x y z, hexValue a = some w ∧ hexValue b = some x ∧ hexValue c = some y ∧ hexValue d = some z ∧
    n = w * 4096 + x * 256 + y * 16 + z

/-- `Chars s t`: what stands between the quotes is `t`, and the characters of the string are `s`. -/
inductive Chars : List Char → List Char → Prop where
  | nil : Chars [] []
  | char {c : Char} {s t : List Char} (hc : 32 ≤ c.toNat) (hq : c ≠ '"') (hb : c ≠ '\\') (h : Chars s t) :
      Chars (c :: s) (c :: t)
  | escape {c e : Char} {s t : List Char} (he : (e, c) ∈ escapes) (h : Chars s t) : Chars (c :: s) ('\\' :: e :: t)
  | unicode {a b c d : Char} {n : ℕ} {s t : List Char} (hn : Hex4 a b c d n) (hv : n.isValidChar) (h : Chars s t) :
      Chars (Char.ofNat n :: s) ('\\' :: 'u' :: a :: b :: c :: d :: t)
  | surrogates {a b c d a' b' c' d' : Char} {n n' : ℕ} {s t : List Char} (hn : Hex4 a b c d n)
      (hn' : Hex4 a' b' c' d' n') (hi : 0xD800 ≤ n ∧ n < 0xDC00) (hi' : 0xDC00 ≤ n' ∧ n' < 0xE000) (h : Chars s t) :
      Chars (Char.ofNat (0x10000 + (n - 0xD800) * 1024 + (n' - 0xDC00)) :: s)
        ('\\' :: 'u' :: a :: b :: c :: d :: '\\' :: 'u' :: a' :: b' :: c' :: d' :: t)

/-! ## Values -/

mutual

/-- `Denotes v t`: the text `t` is JSON, and stands for `v`. -/
inductive Denotes : Tree → List Char → Prop where
  | null : Denotes .null ['n', 'u', 'l', 'l']
  | true : Denotes (.bool true) ['t', 'r', 'u', 'e']
  | false : Denotes (.bool false) ['f', 'a', 'l', 's', 'e']
  | number {t : List Char} (h : Number t) : Denotes (.number t) t
  | string {s t : List Char} (h : Chars s t) : Denotes (.string s) ('"' :: t ++ ['"'])
  | array {vs : List Tree} {t : List Char} (h : Elements vs t) : Denotes (.array vs) ('[' :: t ++ [']'])
  | object {ms : List (List Char × Tree)} {t : List Char} (h : Members ms t) : Denotes (.object ms) ('{' :: t ++ ['}'])
  | ws {v : Tree} {a t b : List Char} (ha : Ws a) (hb : Ws b) (h : Denotes v t) : Denotes v (a ++ t ++ b)

/-- What stands between the brackets of an array. -/
inductive Elements : List Tree → List Char → Prop where
  | nil {t : List Char} (h : Ws t) : Elements [] t
  | one {v : Tree} {t : List Char} (h : Denotes v t) : Elements [v] t
  | cons {v v' : Tree} {vs : List Tree} {t u : List Char} (h : Denotes v t) (hs : Elements (v' :: vs) u) :
      Elements (v :: v' :: vs) (t ++ ',' :: u)

/-- What stands between the braces of an object. -/
inductive Members : List (List Char × Tree) → List Char → Prop where
  | nil {t : List Char} (h : Ws t) : Members [] t
  | one {m : List Char × Tree} {t : List Char} (h : Member m t) : Members [m] t
  | cons {m m' : List Char × Tree} {ms : List (List Char × Tree)} {t u : List Char} (h : Member m t)
      (hs : Members (m' :: ms) u) : Members (m :: m' :: ms) (t ++ ',' :: u)

/-- A name, a colon and a value. -/
inductive Member : List Char × Tree → List Char → Prop where
  | mk {s k : List Char} {v : Tree} {a b t : List Char} (ha : Ws a) (hb : Ws b) (hk : Chars s k) (h : Denotes v t) :
      Member (s, v) (a ++ '"' :: k ++ '"' :: b ++ ':' :: t)

end

theorem ws_nil : Ws [] := by simp [Ws]

/-! ## No text has a NUL -/

def NulFree (t : List Char) : Prop := ∀ c ∈ t, c.toNat ≠ 0

theorem nulFree_nil : NulFree [] := by simp [NulFree]

theorem NulFree.cons {c : Char} {t : List Char} (hc : c.toNat ≠ 0) (h : NulFree t) : NulFree (c :: t) :=
  List.forall_mem_cons.2 ⟨hc, h⟩

theorem NulFree.append {t u : List Char} (ht : NulFree t) (hu : NulFree u) : NulFree (t ++ u) :=
  List.forall_mem_append.2 ⟨ht, hu⟩

theorem Ws.nulFree {t : List Char} (h : Ws t) : NulFree t := by
  intro c hc
  rcases h c hc with rfl | rfl | rfl | rfl <;> decide

theorem Digits.nulFree {t : List Char} (h : Digits t) : NulFree t := by
  intro c hc h0
  have hd := h.2 c hc
  simp only [Char.isDigit, Bool.and_eq_true, decide_eq_true_eq] at hd
  have : 48 ≤ c.toNat := hd.1
  omega

theorem Integer.nulFree {t : List Char} (h : Integer t) : NulFree t := by
  rcases h with h | ⟨u, h, rfl⟩
  · exact h.1.nulFree
  · exact .cons (by decide) h.1.nulFree

theorem Number.nulFree {t : List Char} (h : Number t) : NulFree t := by
  obtain ⟨a, b, c, ha, hb, hc, rfl⟩ := h
  refine .append (.append ha.nulFree ?_) ?_
  · rcases hb with rfl | ⟨u, hu, rfl⟩
    · exact nulFree_nil
    · exact .cons (by decide) hu.nulFree
  · rcases hc with rfl | ⟨e, u, he, hu, hc⟩
    · exact nulFree_nil
    have he : e.toNat ≠ 0 := by rcases he with rfl | rfl <;> decide
    rcases hc with rfl | rfl | rfl
    · exact .cons he hu.nulFree
    · exact .cons he (.cons (by decide) hu.nulFree)
    · exact .cons he (.cons (by decide) hu.nulFree)

theorem hexValue_toNat {c : Char} {n : ℕ} (h : hexValue c = some n) : c.toNat ≠ 0 := by
  intro h0
  obtain rfl : c = Char.ofNat 0 := by rw [← h0, Char.ofNat_toNat]
  revert h
  decide +revert

theorem Hex4.nulFree {a b c d : Char} {n : ℕ} {t : List Char} (h : Hex4 a b c d n) (ht : NulFree t) :
    NulFree (a :: b :: c :: d :: t) := by
  obtain ⟨w, x, y, z, ha, hb, hc, hd, -⟩ := h
  exact .cons (hexValue_toNat ha) (.cons (hexValue_toNat hb) (.cons (hexValue_toNat hc) (.cons (hexValue_toNat hd) ht)))

theorem Chars.nulFree {s t : List Char} (h : Chars s t) : NulFree t := by
  induction h with
  | nil => exact nulFree_nil
  | char hc _ _ _ ih => exact .cons (by omega) ih
  | @escape c e s t he _ ih =>
    have hall : ∀ p ∈ escapes, p.1.toNat ≠ 0 := by decide
    exact .cons (by decide) (.cons (hall _ he) ih)
  | unicode hn _ _ ih => exact .cons (by decide) (.cons (by decide) (hn.nulFree ih))
  | surrogates hn hn' _ _ _ ih =>
    refine .cons (by decide) (.cons (by decide) (hn.nulFree ?_))
    exact .cons (by decide) (.cons (by decide) (hn'.nulFree ih))

instance (t : List Char) : Decidable (NulFree t) := List.decidableBAll (fun c : Char => c.toNat ≠ 0) t

mutual

theorem Denotes.nulFree : {v : Tree} → {t : List Char} → Denotes v t → NulFree t
  | _, _, .null => by decide
  | _, _, .true => by decide
  | _, _, .false => by decide
  | _, _, .number h => h.nulFree
  | _, _, .string h => .append (.cons (by decide) h.nulFree) (by decide)
  | _, _, .array h => .append (.cons (by decide) h.nulFree) (by decide)
  | _, _, .object h => .append (.cons (by decide) h.nulFree) (by decide)
  | _, _, .ws ha hb h => .append (.append ha.nulFree h.nulFree) hb.nulFree

theorem Elements.nulFree : {vs : List Tree} → {t : List Char} → Elements vs t → NulFree t
  | _, _, .nil h => h.nulFree
  | _, _, .one h => h.nulFree
  | _, _, .cons h hs => .append h.nulFree (.cons (by decide) hs.nulFree)

theorem Members.nulFree : {ms : List (List Char × Tree)} → {t : List Char} → Members ms t → NulFree t
  | _, _, .nil h => h.nulFree
  | _, _, .one h => h.nulFree
  | _, _, .cons h hs => .append h.nulFree (.cons (by decide) hs.nulFree)

theorem Member.nulFree : {m : List Char × Tree} → {t : List Char} → Member m t → NulFree t
  | _, _, .mk ha hb hk h => by
    refine .append (.append (.append ha.nulFree (.cons (by decide) hk.nulFree)) ?_) (.cons (by decide) h.nulFree)
    exact .cons (by decide) hb.nulFree

end

end Nessus.Lib.Json
