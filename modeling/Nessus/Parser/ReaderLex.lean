import Nessus.Lib.JsonGrammar
import Nessus.Parser.Reader

/-!
# What the reader makes of a JSON text: tokens

The tokens of the UTF-8 bytes of the texts of the grammar, and what is decoded from them.

* `readToken_number`, `readToken_string` — the token of a number or a string is its whole text;
* `decodeString_chars` — **what is decoded from a string** is the UTF-8 of the characters it stands for;
* `decodeNumber_number` — **what is decoded from a number**: an integer of 64 bits exactly, any other by `toDouble`.
-/

namespace Nessus.Parser.Reader

open Nessus.Lib Nessus.Lib.Json

variable {r l : Location}

/-! ## White space -/

theorem skipSpaces_ws {a : List Char} (h : Ws a) : skipSpaces (utf8 a ++ r) = skipSpaces r := by
  induction a with
  | nil => rfl
  | cons c a ih =>
    have hrest := ih fun c' hc' => h c' (List.mem_cons_of_mem c hc')
    rcases h c List.mem_cons_self with rfl | rfl | rfl | rfl
    all_goals
      rw [utf8_cons_of_lt (by decide), List.cons_append, skipSpaces, if_pos (by decide)]
      exact hrest

theorem skipSpaces_skipSpaces (l : Location) : skipSpaces (skipSpaces l) = skipSpaces l := by
  induction l with
  | nil => rfl
  | cons c l ih =>
    rw [skipSpaces]
    split_ifs with h
    · exact ih
    · rw [skipSpaces, if_neg h]

theorem readToken_congr (h : skipSpaces l = skipSpaces r) : readToken l = readToken r := by
  unfold readToken
  rw [h]

theorem nextToken_congr {errs : List ErrorInfo} {k : ℕ} (h : skipSpaces l = skipSpaces r) :
    nextToken ⟨l, errs, k⟩ = nextToken ⟨r, errs, k⟩ := by
  unfold nextToken
  simp only [readToken_congr h]

/-! ## Numbers -/

/-- What follows a number does not go on with it. -/
def Stops (r : Location) : Prop := (peek r).isDigit = false ∧ peek r ≠ '.' ∧ peek r ≠ 'e' ∧ peek r ≠ 'E'

theorem stops_byteOf {c : Char} (hc : c.toNat < 128) (h : c.isDigit = false) (h₁ : c ≠ '.') (h₂ : c ≠ 'e')
    (h₃ : c ≠ 'E') : Stops (byteOf c :: r) := by
  have hp : peek (byteOf c :: r) = c := charOf_byteOf hc
  rw [Stops, hp]
  exact ⟨h, h₁, h₂, h₃⟩

theorem stops_ws {b : List Char} (hb : Ws b) (hr : Stops r) : Stops (utf8 b ++ r) := by
  cases b with
  | nil => exact hr
  | cons c b =>
    rcases hb c List.mem_cons_self with rfl | rfl | rfl | rfl
    all_goals
      rw [utf8_cons_of_lt (by decide)]
      exact stops_byteOf (by decide) (by decide) (by decide) (by decide) (by decide)

theorem Digits.ascii {c : Char} (h : c.isDigit = true) : c.toNat < 128 := by
  simp only [Char.isDigit, Bool.and_eq_true, decide_eq_true_eq] at h
  have : c.toNat ≤ 57 := h.2
  omega

theorem skipDigits_append {ds : List Char} (h : ∀ c ∈ ds, c.isDigit = true) :
    skipDigits (utf8 ds ++ r) = skipDigits r := by
  induction ds with
  | nil => rfl
  | cons c ds ih =>
    have hc := h c List.mem_cons_self
    have ha := Digits.ascii hc
    rw [utf8_cons_of_lt ha, List.cons_append, skipDigits, List.dropWhile_cons_of_pos (by rw [charOf_byteOf ha, hc])]
    exact ih fun c' hc' => h c' (List.mem_cons_of_mem c hc')

theorem skipDigits_of_peek (h : (peek r).isDigit = false) : skipDigits r = r := by
  cases r with
  | nil => rfl
  | cons c r => exact List.dropWhile_cons_of_neg (by rw [Bool.not_eq_true]; exact h)

theorem readNumber_exponent {c : List Char} (hc : Exponent c) (hr : Stops r) :
    (peek (utf8 c ++ r) ≠ '.' ∧ (peek (utf8 c ++ r)).isDigit = false) ∧
      (if peek (utf8 c ++ r) = 'e' ∨ peek (utf8 c ++ r) = 'E' then
        skipDigits (if peek (utf8 c ++ r).tail = '+' ∨ peek (utf8 c ++ r).tail = '-' then (utf8 c ++ r).tail.tail
          else (utf8 c ++ r).tail)
      else utf8 c ++ r) = r := by
  obtain ⟨h₁, h₂, h₃, h₄⟩ := hr
  rcases hc with rfl | ⟨e, u, he, ⟨hne, hu⟩, hc⟩
  · exact ⟨⟨h₂, h₁⟩, if_neg (by simp only [utf8_nil, List.nil_append]; tauto)⟩
  have hdigits : skipDigits (utf8 u ++ r) = r := by rw [skipDigits_append hu, skipDigits_of_peek h₁]
  have hpeek (t : List Char) : peek (utf8 (e :: t) ++ r) = e ∧ (utf8 (e :: t) ++ r).tail = utf8 t ++ r := by
    rcases he with rfl | rfl <;> exact ⟨rfl, rfl⟩
  have hedge : (peek (utf8 c ++ r) ≠ '.' ∧ (peek (utf8 c ++ r)).isDigit = false) ∧
      (peek (utf8 c ++ r) = 'e' ∨ peek (utf8 c ++ r) = 'E') := by
    have : peek (utf8 c ++ r) = e := by
      rcases hc with rfl | rfl | rfl <;> exact (hpeek _).1
    rw [this]
    rcases he with rfl | rfl <;> decide
  refine ⟨hedge.1, ?_⟩
  rw [if_pos hedge.2]
  rcases hc with rfl | rfl | rfl
  · rw [(hpeek _).2, if_neg, hdigits]
    obtain ⟨d, u, rfl⟩ := List.exists_cons_of_ne_nil hne
    have hd := hu d List.mem_cons_self
    have hpd : peek (utf8 (d :: u) ++ r) = d := by
      rw [utf8_cons_of_lt (Digits.ascii hd)]
      exact charOf_byteOf (Digits.ascii hd)
    rw [hpd]
    rintro (rfl | rfl) <;> exact absurd hd (by decide)
  · rw [(hpeek _).2]
    exact hdigits
  · rw [(hpeek _).2]
    exact hdigits

/-- The digits of a number, its fraction and its exponent are read. -/
theorem readNumber_append {ds b c : List Char} (hd : ∀ d ∈ ds, d.isDigit = true) (hb : Fraction b) (hc : Exponent c)
    (hr : Stops r) : readNumber (utf8 (ds ++ b ++ c) ++ r) = r := by
  obtain ⟨⟨hdot, hdigit⟩, hexp⟩ := readNumber_exponent hc hr
  have hfrac : (if peek (utf8 b ++ (utf8 c ++ r)) = '.' then skipDigits (utf8 b ++ (utf8 c ++ r)).tail
      else utf8 b ++ (utf8 c ++ r)) = utf8 c ++ r ∧ (peek (utf8 b ++ (utf8 c ++ r))).isDigit = false := by
    rcases hb with rfl | ⟨u, ⟨-, hu⟩, rfl⟩
    · exact ⟨if_neg hdot, hdigit⟩
    · have hdot : peek (utf8 ('.' :: u) ++ (utf8 c ++ r)) = '.' := rfl
      refine ⟨(if_pos hdot).trans ?_, by rw [hdot]; decide⟩
      exact (skipDigits_append hu).trans (skipDigits_of_peek hdigit)
  unfold readNumber
  simp only [utf8_append, List.append_assoc]
  rw [skipDigits_append hd, skipDigits_of_peek hfrac.2, hfrac.1]
  exact hexp

theorem Digits.mem {c : Char} (h : c.isDigit = true) : c ∈ ['0', '1', '2', '3', '4', '5', '6', '7', '8', '9'] := by
  have hall : ∀ n : Fin 10, Char.ofNat (48 + n) ∈ ['0', '1', '2', '3', '4', '5', '6', '7', '8', '9'] := by decide
  simp only [Char.isDigit, Bool.and_eq_true, decide_eq_true_eq] at h
  have h₁ : 48 ≤ c.toNat := h.1
  have h₂ : c.toNat ≤ 57 := h.2
  have hc := hall ⟨c.toNat - 48, by omega⟩
  have hn : 48 + (c.toNat - 48) = c.toNat := by omega
  simp only [hn, Char.ofNat_toNat] at hc
  exact hc

theorem readToken_digit {c : Char} (hc : c.isDigit = true) :
    readToken (byteOf c :: r) = ⟨.number, byteOf c :: r, readNumber r⟩ := by
  have hmem := Digits.mem hc
  simp only [List.mem_cons, List.not_mem_nil, or_false] at hmem
  rcases hmem with rfl | rfl | rfl | rfl | rfl | rfl | rfl | rfl | rfl | rfl <;> rfl

theorem readToken_minus : readToken (byteOf '-' :: r) = ⟨.number, byteOf '-' :: r, readNumber r⟩ := rfl

/-- **The token of a number** is its whole text. -/
theorem readToken_number {t : List Char} (h : Number t) (hr : Stops r) :
    readToken (utf8 t ++ r) = ⟨.number, utf8 t ++ r, r⟩ := by
  obtain ⟨a, b, c, ha, hb, hc, rfl⟩ := h
  rcases ha with ⟨⟨hne, hd⟩, -⟩ | ⟨u, ⟨⟨-, hd⟩, -⟩, rfl⟩
  · obtain ⟨d, a, rfl⟩ := List.exists_cons_of_ne_nil hne
    have hdigit := hd d List.mem_cons_self
    have hrest := readNumber_append (fun d' hd' => hd d' (List.mem_cons_of_mem d hd')) hb hc hr
    simp only [List.cons_append, utf8_cons_of_lt (Digits.ascii hdigit)]
    rw [readToken_digit hdigit, hrest]
  · have hrest := readNumber_append hd hb hc hr
    simp only [List.cons_append, utf8_cons_of_lt (show '-'.toNat < 128 by decide)]
    rw [readToken_minus, hrest]

/-! ## Words -/

theorem matchPattern_append (pattern : List Char) (hascii : pattern.all (fun c => c.toNat < 128) = true) :
    matchPattern pattern (utf8 pattern ++ r) = (true, r) := by
  have h : ∀ c ∈ pattern, c.toNat < 128 := fun c hc => of_decide_eq_true (List.all_eq_true.1 hascii c hc)
  have hu : utf8 pattern = pattern.map byteOf := by
    clear hascii
    induction pattern with
    | nil => rfl
    | cons c p ih =>
      rw [utf8_cons_of_lt (h c List.mem_cons_self), ih fun c' hc' => h c' (List.mem_cons_of_mem c hc'), List.map_cons]
  have hlen : (utf8 pattern).length = pattern.length := by rw [hu, List.length_map]
  have hmap : (utf8 pattern).map charOf = pattern := by
    rw [hu, List.map_map]
    exact (List.map_congr_left fun c hc => charOf_byteOf (h c hc)).trans (List.map_id pattern)
  rw [matchPattern, if_pos, ← hlen, List.drop_left]
  rw [← hlen, List.take_left, List.length_append]
  exact ⟨by omega, hmap⟩

theorem readToken_true : readToken (utf8 ['t', 'r', 'u', 'e'] ++ r) = ⟨.true, utf8 ['t', 'r', 'u', 'e'] ++ r, r⟩ := by
  have h := matchPattern_append (r := r) ['r', 'u', 'e'] rfl
  show Token.checked .true _ (matchPattern ['r', 'u', 'e'] (utf8 ['r', 'u', 'e'] ++ r)) = _
  rw [h]
  rfl

theorem readToken_false :
    readToken (utf8 ['f', 'a', 'l', 's', 'e'] ++ r) = ⟨.false, utf8 ['f', 'a', 'l', 's', 'e'] ++ r, r⟩ := by
  have h := matchPattern_append (r := r) ['a', 'l', 's', 'e'] rfl
  show Token.checked .false _ (matchPattern ['a', 'l', 's', 'e'] (utf8 ['a', 'l', 's', 'e'] ++ r)) = _
  rw [h]
  rfl

theorem readToken_null : readToken (utf8 ['n', 'u', 'l', 'l'] ++ r) = ⟨.null, utf8 ['n', 'u', 'l', 'l'] ++ r, r⟩ := by
  have h := matchPattern_append (r := r) ['u', 'l', 'l'] rfl
  show Token.checked .null _ (matchPattern ['u', 'l', 'l'] (utf8 ['u', 'l', 'l'] ++ r)) = _
  rw [h]
  rfl

/-! ## Strings -/

/-- The byte is neither a quote nor a backslash. -/
def Plain (b : UInt8) : Prop := charOf b ≠ '"' ∧ charOf b ≠ '\\'

theorem plain_of_char {c : Char} (hq : c ≠ '"') (hb : c ≠ '\\') : ∀ b ∈ String.utf8EncodeChar c, Plain b := by
  intro b hmem
  rcases Nat.lt_or_ge c.toNat 128 with h | h
  · rw [utf8EncodeChar_of_lt h, List.mem_singleton] at hmem
    rw [hmem, Plain, charOf_byteOf h]
    exact ⟨hq, hb⟩
  · have := le_of_mem_utf8EncodeChar h hmem
    exact ⟨charOf_ne this (by decide), charOf_ne this (by decide)⟩

theorem hexValue_cases {c : Char} {n : ℕ} (h : hexValue c = some n) :
    (48 ≤ c.toNat ∧ c.toNat ≤ 57 ∧ n = c.toNat - 48) ∨ (65 ≤ c.toNat ∧ c.toNat ≤ 70 ∧ n = c.toNat - 55) ∨
      (97 ≤ c.toNat ∧ c.toNat ≤ 102 ∧ n = c.toNat - 87) := by
  unfold hexValue at h
  split_ifs at h with h₁ h₂ h₃
  · simp only [Char.isDigit, Bool.and_eq_true, decide_eq_true_eq] at h₁
    exact .inl ⟨h₁.1, h₁.2, (Option.some.inj h).symm⟩
  · exact .inr (.inl ⟨h₂.1, h₂.2, (Option.some.inj h).symm⟩)
  · exact .inr (.inr ⟨h₃.1, h₃.2, (Option.some.inj h).symm⟩)

theorem hexValue_ascii {c : Char} {n : ℕ} (h : hexValue c = some n) : c.toNat < 128 := by
  have := hexValue_cases h
  omega

theorem plain_hexValue {c : Char} {n : ℕ} (h : hexValue c = some n) : Plain (byteOf c) := by
  have hc := hexValue_cases h
  rw [Plain, charOf_byteOf (hexValue_ascii h)]
  have hq : '"'.toNat = 34 := rfl
  have hb : '\\'.toNat = 92 := rfl
  constructor <;> rintro rfl <;> omega

theorem hexDigit_byteOf {c : Char} {n : ℕ} (h : hexValue c = some n) : hexDigit (byteOf c) = some n := by
  have hc := hexValue_cases h
  have ha := hexValue_ascii h
  have hn : (byteOf c).toNat = c.toNat := UInt8.toNat_ofNat_of_lt' (by simp only [UInt8.size]; omega)
  have hle (a b : Char) : a ≤ b ↔ a.toNat ≤ b.toNat := Iff.rfl
  have h0 : '0'.toNat = 48 := rfl
  have h9 : '9'.toNat = 57 := rfl
  have ha : 'a'.toNat = 97 := rfl
  have hf : 'f'.toNat = 102 := rfl
  have hA : 'A'.toNat = 65 := rfl
  have hF : 'F'.toNat = 70 := rfl
  unfold hexDigit
  simp only [hn, hle, toNat_charOf, h0, h9, ha, hf, hA, hF]
  rcases hc with ⟨h₁, h₂, rfl⟩ | ⟨h₁, h₂, rfl⟩ | ⟨h₁, h₂, rfl⟩
  · rw [if_pos ⟨h₁, h₂⟩]
  · rw [if_neg (by omega), if_neg (by omega), if_pos ⟨h₁, h₂⟩]
    congr 1
    omega
  · rw [if_neg (by omega), if_pos ⟨h₁, h₂⟩]
    congr 1
    omega

theorem readString_quote : readString (byteOf '"' :: r) = (true, r) := by
  rw [readString.eq_def]
  rfl

theorem readString_escape (e : UInt8) : readString (byteOf '\\' :: e :: r) = readString r := by
  rw [readString.eq_def]
  rfl

theorem readString_cons {b : UInt8} (h : Plain b) : readString (b :: r) = readString r := by
  rw [readString.eq_def]
  exact (if_neg h.2).trans (if_neg h.1)

theorem readString_plain {bytes : List UInt8} (h : ∀ b ∈ bytes, Plain b) : readString (bytes ++ r) = readString r := by
  induction bytes with
  | nil => rfl
  | cons b bytes ih =>
    rw [List.cons_append, readString_cons (h b List.mem_cons_self)]
    exact ih fun b' hb' => h b' (List.mem_cons_of_mem b hb')

theorem utf8_hex4 {a b c d : Char} {n : ℕ} (h : Hex4 a b c d n) (t : List Char) :
    utf8 (a :: b :: c :: d :: t) = [byteOf a, byteOf b, byteOf c, byteOf d] ++ utf8 t ∧
      ∀ x ∈ [byteOf a, byteOf b, byteOf c, byteOf d], Plain x := by
  obtain ⟨w, x, y, z, ha, hb, hc, hd, -⟩ := h
  refine ⟨?_, ?_⟩
  · rw [utf8_cons_of_lt (hexValue_ascii ha), utf8_cons_of_lt (hexValue_ascii hb), utf8_cons_of_lt (hexValue_ascii hc),
      utf8_cons_of_lt (hexValue_ascii hd)]
    rfl
  · intro x hx
    simp only [List.mem_cons, List.not_mem_nil, or_false] at hx
    rcases hx with rfl | rfl | rfl | rfl
    · exact plain_hexValue ha
    · exact plain_hexValue hb
    · exact plain_hexValue hc
    · exact plain_hexValue hd

theorem readString_unicode {a b c d : Char} {n : ℕ} (h : Hex4 a b c d n) (t : List Char) :
    readString (utf8 ('\\' :: 'u' :: a :: b :: c :: d :: t) ++ r) = readString (utf8 t ++ r) := by
  obtain ⟨hu, hp⟩ := utf8_hex4 h t
  rw [utf8_cons_of_lt (by decide), utf8_cons_of_lt (by decide), hu, List.cons_append, List.cons_append,
    readString_escape, List.append_assoc, readString_plain hp]

/-- The characters of a string are read up to its quote. -/
theorem readString_chars {s t : List Char} (h : Chars s t) : readString (utf8 t ++ byteOf '"' :: r) = (true, r) := by
  induction h with
  | nil => exact readString_quote
  | char _ hq hb _ ih =>
    rw [utf8_cons, List.append_assoc, readString_plain (plain_of_char hq hb)]
    exact ih
  | @escape c e s t he _ ih =>
    have hall : ∀ p ∈ escapes, p.1.toNat < 128 := by decide
    rw [utf8_cons_of_lt (by decide), utf8_cons_of_lt (hall _ he), List.cons_append, List.cons_append, readString_escape]
    exact ih
  | unicode hn _ _ ih =>
    rw [readString_unicode hn]
    exact ih
  | surrogates hn hn' _ _ _ ih =>
    rw [readString_unicode hn, readString_unicode hn']
    exact ih

/-- **The token of a string** is its whole text. -/
theorem readToken_string {s t : List Char} (h : Chars s t) :
    readToken (byteOf '"' :: utf8 t ++ byteOf '"' :: r) =
      ⟨.string, byteOf '"' :: utf8 t ++ byteOf '"' :: r, r⟩ := by
  have hr := readString_chars (r := r) h
  show Token.checked .string _ (readString (utf8 t ++ byteOf '"' :: r)) = _
  rw [hr]
  rfl

theorem Token.text_of_append {type : TokenType} {t : List UInt8} : (Token.mk type (t ++ r) r).text = t := by
  show (t ++ r).take ((t ++ r).length - r.length) = t
  rw [List.length_append, Nat.add_sub_cancel, List.take_left]

theorem or_shiftRight (i a k n : ℕ) : 2 ^ i * a ||| ((2 ^ i - 1) &&& n >>> k) = n / 2 ^ k % 2 ^ i + 2 ^ i * a := by
  rw [Nat.and_comm, Nat.and_two_pow_sub_one_eq_mod, Nat.shiftRight_eq_div_pow, Nat.add_comm,
    Nat.two_pow_add_eq_or_of_lt (Nat.mod_lt _ (Nat.two_pow_pos i))]

theorem codePointToUTF8_eq {n : ℕ} (h : n.isValidChar) :
    codePointToUTF8 n = String.utf8EncodeChar (Char.ofNat n) := by
  have hn : (Char.ofNat n).val.toNat = n := by
    show (if h : n.isValidChar then Char.ofNatAux n h else _).toNat = _
    rw [dif_pos h]
    rfl
  have hle : n ≤ 0x10FFFF := by
    rcases h with h | ⟨-, h⟩ <;> omega
  have h₁ := or_shiftRight 5 6 6 n
  have h₂ := or_shiftRight 6 2 0 n
  have h₃ := or_shiftRight 4 14 12 n
  have h₄ := or_shiftRight 6 2 6 n
  have h₅ := or_shiftRight 3 30 18 n
  have h₆ := or_shiftRight 6 2 12 n
  simp only [Nat.reducePow, Nat.reduceMul, Nat.reduceSub, Nat.shiftRight_zero, Nat.div_one] at h₁ h₂ h₃ h₄ h₅ h₆
  unfold codePointToUTF8 String.utf8EncodeChar
  simp only [hn, h₁, h₂, h₃, h₄, h₅, h₆, if_pos hle]

theorem decodeHexDigits_hex4 {a b c d : Char} {n : ℕ} (h : Hex4 a b c d n) :
    decodeUnicodeEscapeSequence ([byteOf a, byteOf b, byteOf c, byteOf d] ++ r) = .ok (n, r) := by
  obtain ⟨w, x, y, z, ha, hb, hc, hd, rfl⟩ := h
  rw [decodeUnicodeEscapeSequence, if_neg (by simp)]
  simp only [List.cons_append, List.nil_append, decodeHexDigits, hexDigit_byteOf ha, hexDigit_byteOf hb,
    hexDigit_byteOf hc, hexDigit_byteOf hd]
  congr 2
  omega

theorem decodeUnicodeCodePoint_hex4 {a b c d : Char} {n : ℕ} (h : Hex4 a b c d n) (hv : n.isValidChar) :
    decodeUnicodeCodePoint ([byteOf a, byteOf b, byteOf c, byteOf d] ++ r) = .ok (n, r) := by
  rw [decodeUnicodeCodePoint, decodeHexDigits_hex4 h]
  exact if_neg (by rcases hv with hv | hv <;> omega)

theorem decodeUnicodeCodePoint_surrogates {a b c d a' b' c' d' : Char} {n n' : ℕ} (h : Hex4 a b c d n)
    (h' : Hex4 a' b' c' d' n') (hi : 0xD800 ≤ n ∧ n < 0xDC00) (hi' : 0xDC00 ≤ n' ∧ n' < 0xE000) :
    decodeUnicodeCodePoint ([byteOf a, byteOf b, byteOf c, byteOf d] ++
        byteOf '\\' :: byteOf 'u' :: ([byteOf a', byteOf b', byteOf c', byteOf d'] ++ r)) =
      .ok (0x10000 + (n - 0xD800) * 1024 + (n' - 0xDC00), r) := by
  have hmod (m : ℕ) : m &&& 0x3FF = m % 1024 := Nat.and_two_pow_sub_one_eq_mod m 10
  rw [decodeUnicodeCodePoint, decodeHexDigits_hex4 h]
  simp only [List.tail_cons, decodeHexDigits_hex4 h', hmod, Nat.shiftLeft_eq]
  rw [if_pos (by omega), if_neg (by simp), if_neg (fun h => h rfl), if_neg (fun h => h rfl)]
  have hi : n % 1024 = n - 0xD800 := by omega
  have hi' : n' % 1024 = n' - 0xDC00 := by omega
  rw [hi, hi']

theorem decodeEscape_escapes {c e : Char} (h : (e, c) ∈ escapes) :
    decodeEscape (byteOf e :: r) = .ok (String.utf8EncodeChar c, r) := by
  simp only [escapes, List.mem_cons, Prod.mk.injEq, List.not_mem_nil, or_false] at h
  rcases h with ⟨rfl, rfl⟩ | ⟨rfl, rfl⟩ | ⟨rfl, rfl⟩ | ⟨rfl, rfl⟩ | ⟨rfl, rfl⟩ | ⟨rfl, rfl⟩ | ⟨rfl, rfl⟩ |
    ⟨rfl, rfl⟩ <;> rfl

theorem decodeEscape_unicode {bytes : List UInt8} {n : ℕ} (h : decodeUnicodeCodePoint bytes = .ok (n, r)) :
    decodeEscape (byteOf 'u' :: bytes) = .ok (codePointToUTF8 n, r) := by
  rw [decodeEscape, charOf_byteOf (by decide)]
  simp only [h]

section DecodeChars

variable {n : ℕ} {acc bytes decoded : List UInt8}

theorem decodeChars_plain (acc : List UInt8) (h : ∀ b ∈ bytes, Plain b) (hn : (bytes ++ r).length ≤ n) :
    ∃ m, r.length ≤ m ∧ decodeChars n acc (bytes ++ r) = decodeChars m (acc ++ bytes) r := by
  induction bytes generalizing n acc with
  | nil => exact ⟨n, hn, by rw [List.append_nil]; rfl⟩
  | cons b bytes ih =>
    obtain ⟨hq, hb⟩ := h b List.mem_cons_self
    rw [List.cons_append, List.length_cons] at hn
    obtain ⟨n, rfl⟩ : ∃ m, n = m + 1 := ⟨n - 1, by omega⟩
    obtain ⟨m, hm, hr⟩ := ih (acc ++ [b]) (fun b' hb' => h b' (List.mem_cons_of_mem b hb'))
      (Nat.le_of_succ_le_succ hn)
    refine ⟨m, hm, ?_⟩
    rw [List.cons_append, decodeChars, if_neg hq, if_neg hb, hr, List.append_assoc]
    rfl

theorem decodeChars_escape (acc : List UInt8) (h : decodeEscape bytes = .ok (decoded, r)) (hlen : r.length ≤ bytes.length)
    (hn : bytes.length < n) :
    ∃ m, r.length ≤ m ∧ decodeChars n acc (byteOf '\\' :: bytes) = decodeChars m (acc ++ decoded) r := by
  obtain ⟨n, rfl⟩ : ∃ m, n = m + 1 := ⟨n - 1, by omega⟩
  refine ⟨n, by omega, ?_⟩
  rw [decodeChars, if_neg (by decide), if_pos (by decide), h]

/-- What is decoded are the characters that the text stands for. -/
theorem decodeChars_chars {s t : List Char} (h : Chars s t) (hn : (utf8 t).length ≤ n) :
    decodeChars n acc (utf8 t) = .ok (acc ++ utf8 s, []) := by
  induction h generalizing n acc with
  | nil =>
    rw [utf8_nil, List.append_nil]
    cases n <;> rfl
  | @char c s t _ hq hb _ ih =>
    rw [utf8_cons] at hn
    obtain ⟨m, hm, hr⟩ := decodeChars_plain acc (plain_of_char hq hb) hn
    rw [utf8_cons, hr, ih hm, List.append_assoc]
    rfl
  | @escape c e s t he _ ih =>
    have hall : ∀ p ∈ escapes, p.1.toNat < 128 := by decide
    rw [utf8_cons_of_lt (by decide), utf8_cons_of_lt (hall _ he)] at hn ⊢
    obtain ⟨m, hm, hr⟩ := decodeChars_escape acc (decodeEscape_escapes he)
      (by rw [List.length_cons]; omega) hn
    rw [hr, ih hm, List.append_assoc]
    rfl
  | @unicode a b c d k s t hk hv _ ih =>
    rw [utf8_cons_of_lt (by decide), utf8_cons_of_lt (by decide), (utf8_hex4 hk t).1] at hn ⊢
    have hdec := decodeEscape_unicode (decodeUnicodeCodePoint_hex4 (r := utf8 t) hk hv)
    obtain ⟨m, hm, hr⟩ := decodeChars_escape acc hdec
      (by simp only [List.length_cons, List.length_append]; omega) hn
    rw [hr, ih hm, List.append_assoc, codePointToUTF8_eq hv]
    rfl
  | @surrogates a b c d a' b' c' d' k k' s t hk hk' hi hi' _ ih =>
    have hv : (0x10000 + (k - 0xD800) * 1024 + (k' - 0xDC00)).isValidChar := .inr (by omega)
    rw [utf8_cons_of_lt (by decide), utf8_cons_of_lt (by decide), (utf8_hex4 hk _).1, utf8_cons_of_lt (by decide),
      utf8_cons_of_lt (by decide), (utf8_hex4 hk' t).1] at hn ⊢
    have hdec := decodeEscape_unicode (decodeUnicodeCodePoint_surrogates (r := utf8 t) hk hk' hi hi')
    obtain ⟨m, hm, hr⟩ := decodeChars_escape acc hdec
      (by simp only [List.length_cons, List.length_append]; omega) hn
    rw [hr, ih hm, List.append_assoc, codePointToUTF8_eq hv]
    rfl

end DecodeChars

theorem Token.text_string (t : List UInt8) :
    (Token.mk .string (byteOf '"' :: t ++ byteOf '"' :: r) r).text = byteOf '"' :: t ++ [byteOf '"'] := by
  have htext := @Token.text_of_append r .string (byteOf '"' :: t ++ [byteOf '"'])
  rwa [List.append_assoc, List.singleton_append] at htext

/-- **What is decoded from a string** is the UTF-8 of the characters it stands for. -/
theorem decodeString_chars {s t : List Char} (h : Chars s t) :
    decodeString ⟨.string, byteOf '"' :: utf8 t ++ byteOf '"' :: r, r⟩ = .ok (utf8 s) := by
  rw [decodeString, Token.text_string]
  simp only [List.cons_append, List.drop_succ_cons, List.drop_zero, List.dropLast_concat,
    decodeChars_chars h (Nat.le_refl _), List.nil_append]

/-! ## What a number stands for -/

/-- The integer of a text of digits, with a sign or without. -/
def integerValue (t : List Char) : Option ℤ :=
  if t.head? = some '-' then
    if t.tail.all Char.isDigit then some (-(Nat.ofDigitChars 10 t.tail 0 : ℤ)) else none
  else if t.all Char.isDigit then some (Nat.ofDigitChars 10 t 0) else none

theorem integerValue_neg (t : List Char) :
    integerValue ('-' :: t) = if t.all Char.isDigit then some (-(Nat.ofDigitChars 10 t 0 : ℤ)) else none := if_pos rfl

/-- The value that the reader makes of an integer of 64 bits: unsigned from `maxInt` on. -/
def Value.ofInteger (i : ℤ) : Value := if i ≤ maxInt then .int (Int64.ofInt i) else .uint (UInt64.ofNat i.toNat)

/-- The value of the text of a number, if it has one. -/
def numberValue (toDouble : List UInt8 → Option ℚ) (t : List Char) : Option Value :=
  match integerValue t with
  | some i => if -2 ^ 63 ≤ i ∧ i < 2 ^ 64 then some (.ofInteger i) else (toDouble (utf8 t)).map .real
  | none => (toDouble (utf8 t)).map .real

section DecodeDigits

variable {m value : ℕ} {ds : List Char}

theorem le_ofDigitChars (ds : List Char) (value : ℕ) :
    value ≤ Nat.ofDigitChars 10 ds value ∧ (ds ≠ [] → 10 * value ≤ Nat.ofDigitChars 10 ds value) := by
  rw [Nat.ofDigitChars_eq_ofDigitChars_zero]
  have hpos : 0 < 10 ^ ds.length := Nat.pow_pos (by decide)
  refine ⟨Nat.le_add_right_of_le (Nat.le_mul_of_pos_left _ hpos), fun hne => Nat.le_add_right_of_le ?_⟩
  exact Nat.mul_le_mul_right _ (Nat.le_self_pow (by simpa using hne) 10)

theorem isDigit_toNat {c : Char} (h : c.isDigit = true) : 48 ≤ c.toNat ∧ c.toNat ≤ 57 := by
  simp only [Char.isDigit, Bool.and_eq_true, decide_eq_true_eq] at h
  exact h

theorem toNat_byteOf {c : Char} (h : c.toNat < 128) : (byteOf c).toNat = c.toNat :=
  UInt8.toNat_ofNat_of_lt' (by simp only [UInt8.size]; omega)

/-- The digits are an integer exactly when it is not past the limit. -/
theorem decodeDigits_digits (hm : 10 ≤ m) (hv : value ≤ m) (hd : ∀ c ∈ ds, c.isDigit = true) :
    decodeDigits m value (utf8 ds) =
      if Nat.ofDigitChars 10 ds value ≤ m then some (Nat.ofDigitChars 10 ds value) else none := by
  induction ds generalizing value with
  | nil =>
    rw [Nat.ofDigitChars_nil, if_pos hv]
    rfl
  | cons c ds ih =>
    have hc := hd c List.mem_cons_self
    obtain ⟨h₁, h₂⟩ := isDigit_toNat hc
    have ha := Digits.ascii hc
    have hzero : '0'.toNat = 48 := rfl
    obtain ⟨hle, hle'⟩ := le_ofDigitChars ds (10 * value + (c.toNat - 48))
    have hnil : utf8 ds ≠ [] ↔ ds ≠ [] := not_congr (utf8_inj (t := []))
    rw [utf8_cons_of_lt ha, decodeDigits, charOf_byteOf ha, if_pos hc, Nat.ofDigitChars_cons]
    simp only [toNat_byteOf ha, hzero, hnil]
    by_cases hover : value ≥ m / 10 ∧ (value > m / 10 ∨ ds ≠ [] ∨ c.toNat - 48 > m % 10)
    · rw [if_pos hover, if_neg]
      rcases hover with ⟨h₃, h₄ | h₄ | h₄⟩
      · omega
      · have := hle' h₄
        omega
      · omega
    · rw [if_neg hover, Nat.mul_comm value, ih _ fun c' hc' => hd c' (List.mem_cons_of_mem c hc')]
      rw [not_and_or, not_or, not_or] at hover
      rcases hover with h₃ | ⟨h₃, -, h₄⟩ <;> omega

theorem decodeDigits_of_not_digit {bytes : List UInt8} (h : ∃ b ∈ bytes, (charOf b).isDigit = false) :
    decodeDigits m value bytes = none := by
  induction bytes generalizing value with
  | nil => simp at h
  | cons b bytes ih =>
    obtain ⟨b', hb', hd⟩ := h
    rw [decodeDigits]
    by_cases h₁ : (charOf b).isDigit = true
    · have hmem : b' ∈ bytes := by
        rcases List.mem_cons.1 hb' with rfl | hb'
        · rw [h₁] at hd
          cases hd
        · exact hb'
      simp only [if_pos h₁, ih ⟨b', hmem, hd⟩, ite_self]
    · exact if_neg h₁

end DecodeDigits

/-- Whether the text is an integer, and what its digits come to. -/
theorem decodeDigits_number {a b c : List Char} {m : ℕ} (hm : 10 ≤ m) (ha : ∀ d ∈ a, d.isDigit = true) (hb : Fraction b)
    (hc : Exponent c) :
    ((a ++ b ++ c).all Char.isDigit = true ∧ decodeDigits m 0 (utf8 (a ++ b ++ c)) =
        if Nat.ofDigitChars 10 (a ++ b ++ c) 0 ≤ m then some (Nat.ofDigitChars 10 (a ++ b ++ c) 0) else none) ∨
      ((a ++ b ++ c).all Char.isDigit = false ∧ decodeDigits m 0 (utf8 (a ++ b ++ c)) = none) := by
  cases hall : (a ++ b ++ c).all Char.isDigit with
  | true => exact .inl ⟨rfl, decodeDigits_digits hm (Nat.zero_le m) (List.all_eq_true.1 hall)⟩
  | false =>
    refine .inr ⟨rfl, decodeDigits_of_not_digit ?_⟩
    have key (x : Char) (u : List Char) (hx : x.toNat < 128) (hxd : x.isDigit = false) (s : List Char) :
        ∃ y ∈ utf8 (s ++ x :: u), (charOf y).isDigit = false := by
      refine ⟨byteOf x, ?_, by rw [charOf_byteOf hx, hxd]⟩
      rw [utf8_append, utf8_cons_of_lt hx]
      simp
    rcases hb with rfl | ⟨u, -, rfl⟩
    · rcases hc with rfl | ⟨e, u, he, -, hc⟩
      · rw [List.append_nil, List.append_nil, List.all_eq_true.2 ha] at hall
        cases hall
      · have he : e.toNat < 128 ∧ e.isDigit = false := by rcases he with rfl | rfl <;> decide
        rcases hc with rfl | rfl | rfl <;> exact key e _ he.1 he.2 _
    · rw [List.append_assoc, List.cons_append]
      exact key '.' _ (by decide) (by decide) a

/-- The error of `decodeDouble`. -/
def notANumber (token : Token) : ErrorInfo := ⟨token, text "'" ++ token.text ++ text "' is not a number.", none⟩

theorem decodeDouble_eq (toDouble : List UInt8 → Option ℚ) (token : Token) :
    decodeDouble toDouble token = ((toDouble token.text).map Value.real).elim (.error (notANumber token)) .ok := by
  unfold decodeDouble
  cases toDouble token.text <;> rfl

theorem neg_ofNat_eq (n : ℕ) :
    (if n = maxLargestInt + 1 then Int64.minValue else -Int64.ofNat n) = Int64.ofInt (-n) := by
  split_ifs with hn
  · rw [hn]
    rfl
  · rw [Int64.ofInt_neg]
    rfl

/-- **What is decoded from a number**: an integer of 64 bits exactly, any other by `toDouble`. -/
theorem decodeNumber_number (toDouble : List UInt8 → Option ℚ) {token : Token} {t : List Char} (h : Number t)
    (ht : token.text = utf8 t) :
    decodeNumber toDouble token = (numberValue toDouble t).elim (.error (notANumber token)) .ok := by
  obtain ⟨a, b, c, ha, hb, hc, rfl⟩ := h
  have hmax : maxInt = 2 ^ 31 - 1 := rfl
  rcases ha with ⟨⟨hne, hd⟩, -⟩ | ⟨u, ⟨⟨hne, hd⟩, -⟩, rfl⟩
  · obtain ⟨d, a, rfl⟩ := List.exists_cons_of_ne_nil hne
    have hdigit := hd d List.mem_cons_self
    have hpeek : peek token.text = d := by
      rw [ht, List.cons_append, List.cons_append, utf8_cons_of_lt (Digits.ascii hdigit)]
      exact charOf_byteOf (Digits.ascii hdigit)
    have hminus : d ≠ '-' := by
      rintro rfl
      exact absurd hdigit (by decide)
    rw [decodeNumber, hpeek, if_neg hminus, decodeDouble_eq, ht, numberValue, integerValue,
      if_neg (by simpa using hminus)]
    rcases decodeDigits_number (m := maxLargestUInt) (by decide) hd hb hc with ⟨hall, hdec⟩ | ⟨hall, hdec⟩
    · rw [hdec, if_pos hall]
      generalize Nat.ofDigitChars 10 (d :: a ++ b ++ c) 0 = n
      by_cases hn : n ≤ maxLargestUInt
      · have hr : -2 ^ 63 ≤ (n : ℤ) ∧ (n : ℤ) < 2 ^ 64 := by
          rw [maxLargestUInt] at hn
          omega
        simp only [if_pos hn, if_pos hr, Value.ofInteger, Int.toNat_natCast]
        rfl
      · have hr : ¬ (-2 ^ 63 ≤ (n : ℤ) ∧ (n : ℤ) < 2 ^ 64) := by
          rw [maxLargestUInt] at hn
          omega
        simp only [if_neg hn, if_neg hr]
    · rw [hdec, hall]
      simp only [Bool.false_eq_true, if_false]
  · have hpeek : peek token.text = '-' := by
      rw [ht, List.cons_append, List.cons_append, utf8_cons_of_lt (by decide)]
      rfl
    have htail : token.text.tail = utf8 (u ++ b ++ c) := by
      rw [ht, List.cons_append, List.cons_append, utf8_cons_of_lt (by decide)]
      rfl
    rw [decodeNumber, hpeek, if_pos rfl, htail, decodeDouble_eq, ht, numberValue, List.cons_append, List.cons_append,
      integerValue_neg]
    rcases decodeDigits_number (m := maxLargestInt + 1) (by decide) hd hb hc with ⟨hall, hdec⟩ | ⟨hall, hdec⟩
    · rw [hdec, if_pos hall]
      generalize Nat.ofDigitChars 10 (u ++ b ++ c) 0 = n
      by_cases hn : n ≤ maxLargestInt + 1
      · have hr : -2 ^ 63 ≤ -(n : ℤ) ∧ -(n : ℤ) < 2 ^ 64 := by
          rw [maxLargestInt] at hn
          omega
        simp only [if_pos hn, if_pos hr, Value.ofInteger, neg_ofNat_eq, if_pos (show -(n : ℤ) ≤ maxInt by omega)]
        rfl
      · have hr : ¬ (-2 ^ 63 ≤ -(n : ℤ) ∧ -(n : ℤ) < 2 ^ 64) := by
          rw [maxLargestInt] at hn
          omega
        simp only [if_neg hn, if_neg hr]
    · rw [hdec, hall]
      simp only [Bool.false_eq_true, if_false]

end Nessus.Parser.Reader
