import Mathlib.Data.List.Infix
import Nessus.Parser.Reader

/-!
# The reader ends

What the reader comes to on any document, JSON or not.

* `readToken_stop` — a token ends in the document, behind its first character;
* `readValue_ends` — **what a call comes to**: it reads a value, or adds one error, or exceeds the limit of the stack;
* `Value.Canonical` — the values that the reader makes;
* `parse_ends` — **a document is parsed without undefined behaviour**, and `parse` returns true iff there is no error.
-/

namespace Nessus.Parser.Reader

open Nessus.Lib Nessus.Abi

variable {l doc : Location}

/-! ## Tokens end in the document -/

theorem skipSpaces_suffix (l : Location) : skipSpaces l <:+ l := by
  induction l with
  | nil => exact List.suffix_rfl
  | cons c l ih =>
    rw [skipSpaces]
    split_ifs
    · exact ih.trans (List.suffix_cons c l)
    · exact List.suffix_rfl

theorem getNextChar_snd (l : Location) : (getNextChar l).2 = l.tail := by cases l <;> rfl

theorem readCStyleComment_suffix (l : Location) : (readCStyleComment l).2 <:+ l := by
  induction l with
  | nil => exact List.suffix_rfl
  | cons c l ih =>
    rw [readCStyleComment]
    split_ifs
    · exact (List.tail_suffix l).trans (List.suffix_cons c l)
    · exact ih.trans (List.suffix_cons c l)

theorem readCppStyleComment_suffix (l : Location) : readCppStyleComment l <:+ l := by
  induction l with
  | nil => exact List.suffix_rfl
  | cons c l ih =>
    rw [readCppStyleComment]
    split_ifs
    · exact List.suffix_cons c l
    · exact (List.tail_suffix l).trans (List.suffix_cons c l)
    · exact List.suffix_cons c l
    · exact ih.trans (List.suffix_cons c l)

theorem readComment_suffix (l : Location) : (readComment l).2 <:+ l := by
  have htail : (getNextChar l).2 <:+ l := by
    rw [getNextChar_snd]
    exact List.tail_suffix l
  unfold readComment
  split
  · next rest h =>
    rw [h] at htail
    exact (readCStyleComment_suffix rest).trans htail
  · next rest h =>
    rw [h] at htail
    exact (readCppStyleComment_suffix rest).trans htail
  · next rest _ _ h =>
    rw [h] at htail
    exact htail

theorem readNumber_suffix (l : Location) : readNumber l <:+ l := by
  have hdigits (l : Location) : skipDigits l <:+ l := List.dropWhile_suffix _
  have hfrac : (if peek (skipDigits l) = '.' then skipDigits (skipDigits l).tail else skipDigits l) <:+ l := by
    split_ifs
    · exact ((hdigits _).trans (List.tail_suffix _)).trans (hdigits l)
    · exact hdigits l
  unfold readNumber
  simp only
  generalize (if peek (skipDigits l) = '.' then skipDigits (skipDigits l).tail else skipDigits l) = m at hfrac ⊢
  split_ifs
  · exact (((hdigits _).trans (List.tail_suffix _)).trans (List.tail_suffix _)).trans hfrac
  · exact ((hdigits _).trans (List.tail_suffix _)).trans hfrac
  · exact hfrac

theorem readString_suffix (l : Location) : (readString l).2 <:+ l := by
  induction l using readString.induct with
  | case1 => exact List.suffix_rfl
  | case2 c h =>
    rw [readString.eq_def]
    simp only [if_pos h]
    exact List.nil_suffix
  | case3 c h d rest ih =>
    rw [readString.eq_def]
    simp only [if_pos h]
    exact (ih.trans (List.suffix_cons d rest)).trans (List.suffix_cons c _)
  | case4 c rest h hq =>
    rw [readString.eq_def]
    simp only [if_neg h, if_pos hq]
    exact List.suffix_cons c rest
  | case5 c rest h hq ih =>
    rw [readString.eq_def]
    simp only [if_neg h, if_neg hq]
    exact ih.trans (List.suffix_cons c rest)

theorem matchPattern_suffix (pattern : List Char) (l : Location) : (matchPattern pattern l).2 <:+ l := by
  unfold matchPattern
  split_ifs
  · exact List.drop_suffix _ l
  · exact List.suffix_rfl

theorem readToken_start (l : Location) : (readToken l).start = skipSpaces l := by
  unfold readToken
  simp only
  split
  all_goals first | rfl | split_ifs <;> rfl

/-- **A token ends in the document**, behind its first character. -/
theorem readToken_stop (l : Location) : (readToken l).stop <:+ (skipSpaces l).tail := by
  unfold readToken
  simp only
  split
  case h_5 => exact (getNextChar_snd _ ▸ readString_suffix _)
  case h_6 => exact (getNextChar_snd _ ▸ readComment_suffix _)
  case h_7 => exact (getNextChar_snd _ ▸ readNumber_suffix _)
  case h_8 => exact (getNextChar_snd _ ▸ matchPattern_suffix _ _)
  case h_9 => exact (getNextChar_snd _ ▸ matchPattern_suffix _ _)
  case h_10 => exact (getNextChar_snd _ ▸ matchPattern_suffix _ _)
  case h_14 =>
    split_ifs
    · exact (getNextChar_snd _ ▸ readNumber_suffix _)
    · exact (getNextChar_snd _ ▸ List.suffix_rfl)
  all_goals exact (getNextChar_snd _ ▸ List.suffix_rfl)

theorem readToken_stop_start (l : Location) : (readToken l).stop <:+ (readToken l).start := by
  rw [readToken_start]
  exact (readToken_stop l).trans (List.tail_suffix _)

theorem readToken_suffix (l : Location) : (readToken l).stop <:+ l :=
  ((readToken_stop l).trans (List.tail_suffix _)).trans (skipSpaces_suffix l)

/-- A token other than the end of the document has a character. -/
theorem readToken_length (h : (readToken l).type ≠ .endOfStream) : (readToken l).stop.length < l.length := by
  have hle := (readToken_stop l).length_le
  have hle' := (skipSpaces_suffix l).length_le
  rw [List.length_tail] at hle
  cases hs : skipSpaces l with
  | nil =>
    refine absurd ?_ h
    unfold readToken
    rw [hs]
    rfl
  | cons c rest =>
    rw [hs, List.length_cons] at hle hle'
    omega

theorem pastComments_readToken {n : ℕ} (h : l.length < n) :
    ∃ l', l' <:+ l ∧ pastComments n (readToken l) = some (readToken l') := by
  induction n generalizing l with
  | zero => omega
  | succ n ih =>
    rw [pastComments]
    split_ifs with hc
    · have hlen := readToken_length (l := l) (by rw [hc]; decide)
      obtain ⟨l', hl', hp⟩ := ih (l := (readToken l).stop) (by omega)
      exact ⟨l', hl'.trans (readToken_suffix l), hp⟩
    · exact ⟨l, List.suffix_rfl, rfl⟩

theorem skipUntil_eq_some (type : TokenType) {n : ℕ} (h : l.length < n) :
    ∃ l', l' <:+ l ∧ skipUntil type n l = some l' := by
  induction n generalizing l with
  | zero => omega
  | succ n ih =>
    simp only [skipUntil]
    split_ifs with hs
    · exact ⟨_, readToken_suffix l, rfl⟩
    · have hlen := readToken_length (l := l) (not_or.1 hs).2
      obtain ⟨l', hl', hp⟩ := ih (l := (readToken l).stop) (by omega)
      exact ⟨l', hl'.trans (readToken_suffix l), hp⟩

theorem nextTokenPastComments_eq (l : Location) (errs : List ErrorInfo) (k : ℕ) :
    ∃ l', l' <:+ l ∧ nextTokenPastComments ⟨l, errs, k⟩ = (⟨(readToken l').stop, errs, k⟩, .ok (readToken l')) := by
  obtain ⟨l', hl', hp⟩ := pastComments_readToken (Nat.lt_succ_self l.length)
  refine ⟨l', hl', ?_⟩
  simp only [nextTokenPastComments, hp]

theorem recoverFromError_eq (type : TokenType) (l : Location) (errs : List ErrorInfo) (k : ℕ) :
    ∃ l', l' <:+ l ∧ recoverFromError type ⟨l, errs, k⟩ = (⟨l', errs, k⟩, .ok ()) := by
  obtain ⟨l', hl', hp⟩ := skipUntil_eq_some type (Nat.lt_succ_self l.length)
  refine ⟨l', hl', ?_⟩
  simp only [recoverFromError, hp]

/-! ## Errors are in the document -/

/-- The error is in the document. -/
structure ErrorInfo.Within (e : ErrorInfo) (doc : Location) : Prop where
  start : e.token.start <:+ doc
  stop : e.token.stop <:+ e.token.start
  extra : ∀ x ∈ e.extra, x <:+ doc

theorem ErrorInfo.Within.mono {e : ErrorInfo} (h : e.Within l) (hl : l <:+ doc) : e.Within doc :=
  ⟨h.start.trans hl, h.stop, fun x hx => (h.extra x hx).trans hl⟩

theorem within_readToken (l : Location) (message : List UInt8) : ErrorInfo.Within ⟨readToken l, message, none⟩ l :=
  ⟨(readToken_start l).symm ▸ skipSpaces_suffix l, readToken_stop_start l, nofun⟩

/-- What is left after a part of `decodeString`. -/
def Decoded.rest {α : Type} : Decoded α → List UInt8
  | .error e => e.2
  | .ok p => p.2

theorem decodeHexDigits_rest (index unicode : ℕ) (current : List UInt8) :
    (decodeHexDigits index unicode current).rest <:+ current := by
  induction index generalizing unicode current with
  | zero => exact List.suffix_rfl
  | succ index ih =>
    cases current with
    | nil => exact List.suffix_rfl
    | cons c current =>
      rw [decodeHexDigits]
      cases hexDigit c with
      | none => exact List.suffix_cons c current
      | some digit => exact (ih _ current).trans (List.suffix_cons c current)

theorem decodeUnicodeEscapeSequence_rest (current : List UInt8) :
    (decodeUnicodeEscapeSequence current).rest <:+ current := by
  unfold decodeUnicodeEscapeSequence
  split_ifs
  · exact List.suffix_rfl
  · exact decodeHexDigits_rest 4 0 current

theorem decodeUnicodeCodePoint_rest (current : List UInt8) : (decodeUnicodeCodePoint current).rest <:+ current := by
  have h := decodeUnicodeEscapeSequence_rest current
  unfold decodeUnicodeCodePoint
  generalize decodeUnicodeEscapeSequence current = x at h ⊢
  rcases x with e | ⟨unicode, rest⟩
  · exact h
  have htail : rest.tail <:+ current := (List.tail_suffix rest).trans h
  have htail' : rest.tail.tail <:+ current := (List.tail_suffix rest.tail).trans htail
  have h' := (decodeUnicodeEscapeSequence_rest rest.tail.tail).trans htail'
  simp only
  split_ifs
  · exact h
  · exact htail
  · exact htail'
  · generalize decodeUnicodeEscapeSequence rest.tail.tail = y at h' ⊢
    rcases y with e | ⟨pair, rest'⟩ <;> exact h'
  · exact h

theorem decodeEscape_rest (current : List UInt8) : (decodeEscape current).rest <:+ current := by
  cases current with
  | nil => exact List.suffix_rfl
  | cons escape current =>
    unfold decodeEscape
    simp only
    split
    case h_9 =>
      have h := decodeUnicodeCodePoint_rest current
      generalize decodeUnicodeCodePoint current = x at h ⊢
      rcases x with e | ⟨unicode, rest⟩ <;> exact h.trans (List.suffix_cons escape current)
    all_goals exact List.suffix_cons escape current

theorem decodeChars_rest (n : ℕ) (decoded current : List UInt8) :
    (decodeChars n decoded current).rest <:+ current := by
  induction n generalizing decoded current with
  | zero => exact List.suffix_rfl
  | succ n ih =>
    cases current with
    | nil => exact List.suffix_rfl
    | cons c current =>
      have hc := List.suffix_cons c current
      rw [decodeChars]
      split_ifs
      · exact hc
      · have h := decodeEscape_rest current
        generalize decodeEscape current = x at h ⊢
        rcases x with e | ⟨bytes, rest⟩
        · exact h.trans hc
        · exact ((ih _ rest).trans h).trans hc
      · exact (ih _ current).trans hc

/-- The characters of a string token, and what comes after them. -/
theorem characters_suffix (u w : List UInt8) : (u.drop 1).dropLast ++ (u ++ w).drop (u.length - 1) <:+ u ++ w := by
  cases u with
  | nil => exact List.suffix_rfl
  | cons a u =>
    rcases List.eq_nil_or_concat u with rfl | ⟨v, b, rfl⟩
    · exact List.suffix_rfl
    · have hdrop : (a :: (v.concat b) ++ w).drop ((a :: v.concat b).length - 1) = b :: w := by
        rw [List.length_cons, Nat.add_sub_cancel, List.concat_eq_append, List.length_append, List.length_singleton,
          List.cons_append, List.drop_succ_cons, List.append_assoc, List.drop_left, List.singleton_append]
      rw [hdrop, List.drop_succ_cons, List.drop_zero, List.concat_eq_append, List.dropLast_concat]
      exact ⟨[a], by simp⟩

theorem decodeString_error {token : Token} {e : ErrorInfo} (h : decodeString token = .error e) :
    e.token = token ∧ ∀ x ∈ e.extra, x <:+ token.start := by
  have hrest := decodeChars_rest ((token.text.drop 1).dropLast).length [] (token.text.drop 1).dropLast
  unfold decodeString at h
  simp only at h
  generalize decodeChars ((token.text.drop 1).dropLast).length [] (token.text.drop 1).dropLast = x at h hrest
  rcases x with ⟨message, current⟩ | ⟨decoded, current⟩
  · cases h
    refine ⟨rfl, fun x hx => ?_⟩
    obtain rfl := Option.mem_some_iff.1 hx
    obtain ⟨front, hfront⟩ := hrest
    have hchars := characters_suffix token.text (token.start.drop (token.start.length - token.stop.length))
    rw [show token.text ++ token.start.drop _ = token.start from List.take_append_drop _ _] at hchars
    exact List.IsSuffix.trans ⟨front, by rw [← List.append_assoc]; exact congrArg (· ++ _) hfront⟩ hchars
  · cases h

/-! ## How long a string is -/

theorem codePointToUTF8_length (cp : ℕ) : (codePointToUTF8 cp).length ≤ 4 := by
  unfold codePointToUTF8
  split_ifs <;> simp

theorem decodeHexDigits_length {index unicode value : ℕ} {current rest : List UInt8}
    (h : decodeHexDigits index unicode current = .ok (value, rest)) : rest.length + index ≤ current.length := by
  induction index generalizing unicode current with
  | zero =>
    cases h
    exact Nat.le_refl _
  | succ index ih =>
    cases current with
    | nil => cases h
    | cons c current =>
      rw [decodeHexDigits] at h
      cases hd : hexDigit c with
      | none =>
        rw [hd] at h
        cases h
      | some digit =>
        rw [hd] at h
        have hle := ih h
        rw [List.length_cons]
        omega

theorem decodeUnicodeEscapeSequence_length {value : ℕ} {current rest : List UInt8}
    (h : decodeUnicodeEscapeSequence current = .ok (value, rest)) : rest.length + 4 ≤ current.length := by
  unfold decodeUnicodeEscapeSequence at h
  split_ifs at h
  exact decodeHexDigits_length h

theorem decodeUnicodeCodePoint_length {value : ℕ} {current rest : List UInt8}
    (h : decodeUnicodeCodePoint current = .ok (value, rest)) : rest.length + 4 ≤ current.length := by
  unfold decodeUnicodeCodePoint at h
  cases hfirst : decodeUnicodeEscapeSequence current with
  | error e =>
    rw [hfirst] at h
    cases h
  | ok p =>
    obtain ⟨unicode, first⟩ := p
    have hle := decodeUnicodeEscapeSequence_length hfirst
    rw [hfirst] at h
    simp only at h
    split_ifs at h
    · -- the second half of a pair
      cases hsecond : decodeUnicodeEscapeSequence first.tail.tail with
      | error e =>
        rw [hsecond] at h
        cases h
      | ok q =>
        have hle' := decodeUnicodeEscapeSequence_length hsecond
        rw [hsecond] at h
        cases h
        rw [List.length_tail, List.length_tail] at hle'
        omega
    · cases h
      exact hle

/-- An escape sequence stands for no more bytes than it has. -/
theorem decodeEscape_length {current bytes rest : List UInt8} (h : decodeEscape current = .ok (bytes, rest)) :
    bytes.length + rest.length ≤ current.length := by
  cases current with
  | nil => cases h
  | cons escape current =>
    unfold decodeEscape at h
    simp only at h
    split at h
    case h_9 =>
      cases hcode : decodeUnicodeCodePoint current with
      | error e =>
        rw [hcode] at h
        cases h
      | ok p =>
        have hle := decodeUnicodeCodePoint_length hcode
        rw [hcode] at h
        cases h
        have hle' := codePointToUTF8_length p.1
        rw [List.length_cons]
        omega
    case h_10 => cases h
    all_goals
      cases h
      simp only [List.length_cons, List.length_nil]
      omega

theorem decodeChars_length {n : ℕ} {decoded current bytes rest : List UInt8}
    (h : decodeChars n decoded current = .ok (bytes, rest)) : bytes.length ≤ decoded.length + current.length := by
  induction n generalizing decoded current with
  | zero =>
    cases h
    exact Nat.le_add_right _ _
  | succ n ih =>
    cases current with
    | nil =>
      cases h
      exact Nat.le_add_right _ _
    | cons c current =>
      rw [decodeChars] at h
      rw [List.length_cons]
      split_ifs at h
      · cases h
        omega
      · cases hesc : decodeEscape current with
        | error e =>
          rw [hesc] at h
          cases h
        | ok p =>
          have hle := decodeEscape_length hesc
          rw [hesc] at h
          have hrest := ih h
          rw [List.length_append] at hrest
          omega
      · have hrest := ih h
        rw [List.length_append, List.length_singleton] at hrest
        omega

/-- A string is no longer than its text between the quotes. -/
theorem decodeString_length {token : Token} {bytes : List UInt8} (h : decodeString token = .ok bytes) :
    bytes.length ≤ token.text.length - 2 := by
  unfold decodeString at h
  simp only at h
  cases hchars : decodeChars ((token.text.drop 1).dropLast).length [] (token.text.drop 1).dropLast with
  | error e =>
    rw [hchars] at h
    cases h
  | ok p =>
    have hle := decodeChars_length hchars
    rw [hchars] at h
    cases h
    rw [List.length_dropLast, List.length_drop, List.length_nil] at hle
    omega

theorem Token.text_length (token : Token) : token.text.length ≤ token.start.length := by
  rw [Token.text, List.length_take]
  exact Nat.min_le_right _ _

theorem stringValue_of_le {bytes : List UInt8} (h : (bytes.length : ℤ) ≤ maxInt - 5) : stringValue bytes = pure (.string bytes) := by
  have hmax : maxInt = 2 ^ 31 - 1 := rfl
  have hmod : bytes.length % 2 ^ 32 = bytes.length := Nat.mod_eq_of_lt (by omega)
  unfold stringValue
  simp only [hmod]
  rw [if_pos (by omega), List.take_length]

/-! ## The values that the reader makes -/

mutual

/-- How deep a value is nested. -/
def Value.depth : Value → ℕ
  | .array items => Value.depths items + 1
  | .object members => Value.memberDepths members + 1
  | _ => 1
termination_by structural v => v

def Value.depths : List Value → ℕ
  | [] => 0
  | v :: vs => max v.depth (Value.depths vs)
termination_by structural vs => vs

def Value.memberDepths : List (List UInt8 × Value) → ℕ
  | [] => 0
  | m :: ms => max (Value.memberDepth m) (Value.memberDepths ms)
termination_by structural ms => ms

def Value.memberDepth : List UInt8 × Value → ℕ
  | (_, v) => v.depth
termination_by structural m => m

end

variable (toDouble : List UInt8 → Option ℚ)

mutual

/-- An integer is signed up to `maxInt` and unsigned past it, a real comes from a text, and the keys of an object are in
order and differ. -/
def Value.Canonical : Value → Prop
  | .int i => i.toInt ≤ maxInt
  | .uint u => maxInt < u.toNat
  | .real q => ∃ t, toDouble t = some q
  | .array items => Value.CanonicalItems items
  | .object members => members.Pairwise (fun m m' => m.1 < m'.1) ∧ Value.CanonicalMembers members
  | _ => True
termination_by structural v => v

def Value.CanonicalItems : List Value → Prop
  | [] => True
  | v :: vs => v.Canonical ∧ Value.CanonicalItems vs
termination_by structural vs => vs

def Value.CanonicalMembers : List (List UInt8 × Value) → Prop
  | [] => True
  | m :: ms => Value.CanonicalMember m ∧ Value.CanonicalMembers ms
termination_by structural ms => ms

def Value.CanonicalMember : List UInt8 × Value → Prop
  | (_, v) => v.Canonical
termination_by structural m => m

end

/-- The value is canonical, and can stand `k` deep. -/
def Value.Fits (k : ℕ) (v : Value) : Prop := v.Canonical toDouble ∧ v.depth + k ≤ stackLimit

section Fits

variable {toDouble} {k : ℕ} {items : List Value} {members : List (List UInt8 × Value)}

theorem canonicalItems_iff : Value.CanonicalItems toDouble items ↔ ∀ v ∈ items, v.Canonical toDouble := by
  induction items with
  | nil => exact iff_of_true trivial (by simp)
  | cons v items ih => rw [Value.CanonicalItems, ih, List.forall_mem_cons]

theorem canonicalMembers_iff : Value.CanonicalMembers toDouble members ↔ ∀ m ∈ members, m.2.Canonical toDouble := by
  induction members with
  | nil => exact iff_of_true trivial (by simp)
  | cons m members ih =>
    obtain ⟨key, v⟩ := m
    rw [Value.CanonicalMembers, ih, List.forall_mem_cons, Value.CanonicalMember]

theorem depths_le_iff {d : ℕ} : Value.depths items ≤ d ↔ ∀ v ∈ items, v.depth ≤ d := by
  induction items with
  | nil => exact iff_of_true (Nat.zero_le d) (by simp)
  | cons v items ih => rw [Value.depths, Nat.max_le, ih, List.forall_mem_cons]

theorem memberDepths_le_iff {d : ℕ} : Value.memberDepths members ≤ d ↔ ∀ m ∈ members, m.2.depth ≤ d := by
  induction members with
  | nil => exact iff_of_true (Nat.zero_le d) (by simp)
  | cons m members ih =>
    obtain ⟨key, v⟩ := m
    rw [Value.memberDepths, Nat.max_le, ih, List.forall_mem_cons, Value.memberDepth]

theorem fits_array (hk : k + 1 ≤ stackLimit) (h : ∀ v ∈ items, v.Fits toDouble (k + 1)) :
    (Value.array items).Fits toDouble k := by
  refine ⟨canonicalItems_iff.2 fun v hv => (h v hv).1, ?_⟩
  have : Value.depths items ≤ stackLimit - (k + 1) := depths_le_iff.2 fun v hv => by
    have := (h v hv).2
    omega
  rw [Value.depth]
  omega

theorem fits_object (hk : k + 1 ≤ stackLimit) (hs : members.Pairwise fun m m' => m.1 < m'.1)
    (h : ∀ m ∈ members, m.2.Fits toDouble (k + 1)) : (Value.object members).Fits toDouble k := by
  refine ⟨⟨hs, canonicalMembers_iff.2 fun m hm => (h m hm).1⟩, ?_⟩
  have : Value.memberDepths members ≤ stackLimit - (k + 1) := memberDepths_le_iff.2 fun m hm => by
    have := (h m hm).2
    omega
  rw [Value.depth]
  omega

theorem mem_insertMember {key : List UInt8} {value : Value} {m : List UInt8 × Value}
    (h : m ∈ insertMember key value members) : m = (key, value) ∨ m ∈ members := by
  induction members with
  | nil => exact .inl (List.mem_singleton.1 h)
  | cons m' members ih =>
    obtain ⟨k', v'⟩ := m'
    rw [insertMember] at h
    split_ifs at h with h₁ h₂
    · rcases List.mem_cons.1 h with rfl | h
      · exact .inl (by rw [h₁])
      · exact .inr (List.mem_cons_of_mem _ h)
    · exact List.mem_cons.1 h
    · rcases List.mem_cons.1 h with rfl | h
      · exact .inr List.mem_cons_self
      · exact (ih h).imp_right (List.mem_cons_of_mem _)

theorem insertMember_pairwise (key : List UInt8) (value : Value) (h : members.Pairwise fun m m' => m.1 < m'.1) :
    (insertMember key value members).Pairwise fun m m' => m.1 < m'.1 := by
  induction members with
  | nil => exact List.pairwise_singleton _ _
  | cons m' members ih =>
    obtain ⟨k', v'⟩ := m'
    obtain ⟨hm, hms⟩ := List.pairwise_cons.1 h
    rw [insertMember]
    split_ifs with h₁ h₂
    · exact List.pairwise_cons.2 ⟨hm, hms⟩
    · refine List.pairwise_cons.2 ⟨fun m hmem => ?_, h⟩
      rcases List.mem_cons.1 hmem with rfl | hmem
      · exact h₂
      · exact List.lt_trans h₂ (hm m hmem)
    · refine List.pairwise_cons.2 ⟨fun m hmem => ?_, ih hms⟩
      rcases mem_insertMember hmem with rfl | hmem
      · exact Std.lt_of_le_of_ne (List.not_lt.1 h₂) (Ne.symm h₁)
      · exact hm m hmem

theorem decodeDigits_le {m value n : ℕ} {bytes : List UInt8} (hv : value ≤ m)
    (h : decodeDigits m value bytes = some n) : n ≤ m := by
  induction bytes generalizing value with
  | nil =>
    cases h
    exact hv
  | cons c bytes ih =>
    simp only [decodeDigits] at h
    split_ifs at h with hd hover
    have hdigit : c.toNat ≤ 57 := by
      rw [← toNat_charOf]
      simp only [Char.isDigit, Bool.and_eq_true, decide_eq_true_eq] at hd
      exact hd.2
    have hzero : '0'.toNat = 48 := rfl
    refine ih ?_ h
    rw [not_and_or, not_or, not_or] at hover
    rcases hover with h₁ | ⟨h₁, -, h₂⟩ <;> omega

theorem decodeDouble_canonical {token : Token} {v : Value} (h : decodeDouble toDouble token = .ok v) :
    v.Canonical toDouble ∧ v.depth = 1 := by
  unfold decodeDouble at h
  split at h
  · next q hq =>
    cases h
    exact ⟨⟨_, hq⟩, rfl⟩
  · cases h

theorem decodeNumber_canonical {token : Token} {v : Value} (h : decodeNumber toDouble token = .ok v) :
    v.Canonical toDouble ∧ v.depth = 1 := by
  have hmax : maxInt = 2 ^ 31 - 1 := rfl
  unfold decodeNumber at h
  split_ifs at h
  · split at h
    · next n hn =>
      cases h
      refine ⟨?_, rfl⟩
      have hle := decodeDigits_le (Nat.zero_le _) hn
      rw [maxLargestInt] at hle
      rw [Value.Canonical]
      split_ifs with hmin
      · decide
      · rw [Int64.toInt_neg_ofNat_of_le (by omega)]
        omega
    · exact decodeDouble_canonical h
  · split at h
    · next n hn =>
      cases h
      have hle := decodeDigits_le (Nat.zero_le _) hn
      rw [maxLargestUInt] at hle
      split_ifs with hint
      · refine ⟨?_, rfl⟩
        rw [Value.Canonical, Int64.toInt_ofNat_of_lt (by omega)]
        exact hint
      · refine ⟨?_, rfl⟩
        rw [Value.Canonical, UInt64.toNat_ofNat_of_lt' (by simp only [UInt64.size]; omega)]
        exact not_le.1 hint
    · exact decodeDouble_canonical h

end Fits

/-! ## What the reader comes to -/

/-- The limit of the stack is exceeded. -/
def stackLimitExceeded : Exn := runtimeError "Exceeded stackLimit in readValue()."

/-- What a call comes to from `s`: it exceeds the limit, or returns a value that can stand `k` deep.  Where it returns
true there is no new error, part of the document is used up, and the depth is `d`; where it returns false there is one new
error. -/
def Ends (s : State) (k d : ℕ) (x : State × Outcome Exn (Value × Bool)) : Prop :=
  (∃ s', x = (s', .thrown stackLimitExceeded)) ∨
    ∃ s' v b, x = (s', .ok (v, b)) ∧ s'.current <:+ s.current ∧ v.Fits toDouble k ∧
      if b then s'.errors = s.errors ∧ s'.current.length < s.current.length ∧ s'.stackDepth = d
      else ∃ e, s'.errors = s.errors ++ [e] ∧ e.Within s.current

section Ends

variable {toDouble} {s t : State} {k d : ℕ} {x : State × Outcome Exn (Value × Bool)} {v : Value}

theorem Ends.mono (h : Ends toDouble t k d x) (hc : t.current <:+ s.current) (he : t.errors = s.errors) :
    Ends toDouble s k d x := by
  obtain ⟨s', h⟩ | ⟨s', v, b, hx, hs, hv, hb⟩ := h
  · exact .inl ⟨s', h⟩
  refine .inr ⟨s', v, b, hx, hs.trans hc, hv, ?_⟩
  cases b with
  | true =>
    obtain ⟨h₁, h₂, h₃⟩ := hb
    exact ⟨h₁.trans he, Nat.lt_of_lt_of_le h₂ hc.length_le, h₃⟩
  | false =>
    obtain ⟨e, h₁, h₂⟩ := hb
    exact ⟨e, by rw [h₁, he], h₂.mono hc⟩

theorem ends_true (hs : t.current <:+ s.current) (hlen : t.current.length < s.current.length) (he : t.errors = s.errors)
    (hd : t.stackDepth = d) (hv : v.Fits toDouble k) : Ends toDouble s k d ((pure (v, true) : Read (Value × Bool)) t) :=
  .inr ⟨t, v, true, rfl, hs, hv, he, hlen, hd⟩

theorem ends_addError {e : ErrorInfo} (hs : t.current <:+ s.current) (he : t.errors = s.errors) (hw : e.Within s.current)
    (hv : v.Fits toDouble k) :
    Ends toDouble s k d ((addError e >>= fun _ => (pure (v, false) : Read (Value × Bool))) t) :=
  .inr ⟨_, v, false, rfl, hs, hv, e, congrArg (· ++ [e]) he, hw⟩

/-- The tokens up to the end of the container are skipped, after an error. -/
theorem ends_recover {type : TokenType} {e : ErrorInfo} (hs : t.current <:+ s.current) (he : t.errors = s.errors ++ [e])
    (hw : e.Within s.current) (hv : v.Fits toDouble k) :
    Ends toDouble s k d ((recoverFromError type >>= fun _ => (pure (v, false) : Read (Value × Bool))) t) := by
  obtain ⟨l', hl', hr⟩ := recoverFromError_eq type t.current t.errors t.stackDepth
  exact .inr ⟨_, v, false, Eff.bind_of_ok hr _, hl'.trans hs, hv, e, he, hw⟩

theorem ends_addErrorAndRecover {message : String} {token : Token} {type : TokenType} (hs : t.current <:+ s.current)
    (he : t.errors = s.errors) (hw : ErrorInfo.Within ⟨token, text message, none⟩ s.current) (hv : v.Fits toDouble k) :
    Ends toDouble s k d
      ((addErrorAndRecover message token type >>= fun _ => (pure (v, false) : Read (Value × Bool))) t) := by
  obtain ⟨l', hl', hr⟩ := recoverFromError_eq type t.current (t.errors ++ [⟨token, text message, none⟩]) t.stackDepth
  have hr : addErrorAndRecover message token type t = (⟨l', t.errors ++ [⟨token, text message, none⟩], t.stackDepth⟩, .ok ()) :=
    hr
  exact .inr ⟨_, v, false, Eff.bind_of_ok hr _, hl'.trans hs, hv, _, congrArg (· ++ _) he, hw⟩

theorem Ends.leave {x : Read (Value × Bool)} (h : Ends toDouble s k (d + 1) (x t)) :
    Ends toDouble s k d (leave x t) := by
  obtain ⟨s', h⟩ | ⟨s', v, b, hx, hs, hv, hb⟩ := h
  · exact .inl ⟨s', Eff.bind_of_thrown h _⟩
  refine .inr ⟨{ s' with stackDepth := s'.stackDepth - 1 }, v, b, Eff.bind_of_ok hx _, hs, hv, ?_⟩
  cases b with
  | true =>
    obtain ⟨h₁, h₂, h₃⟩ := hb
    exact ⟨h₁, h₂, by rw [h₃]; rfl⟩
  | false => exact hb

theorem Ends.bind {x : Read (Value × Bool)} {f : Value × Bool → Read (Value × Bool)} {k' d' : ℕ}
    (h : Ends toDouble s k' d' (x s))
    (hok : ∀ s' v, s'.current <:+ s.current → v.Fits toDouble k' → s'.errors = s.errors →
      s'.current.length < s.current.length → s'.stackDepth = d' → Ends toDouble s k d (f (v, true) s'))
    (hbad : ∀ s' v e, s'.current <:+ s.current → v.Fits toDouble k' → s'.errors = s.errors ++ [e] →
      e.Within s.current → Ends toDouble s k d (f (v, false) s')) :
    Ends toDouble s k d ((x >>= f) s) := by
  obtain ⟨s', h⟩ | ⟨s', v, b, hx, hs, hv, hb⟩ := h
  · exact .inl ⟨s', Eff.bind_of_thrown h f⟩
  rw [Eff.bind_of_ok hx f]
  cases b with
  | true => exact hok s' v hs hv hb.1 hb.2.1 hb.2.2
  | false =>
    obtain ⟨e, he, hw⟩ := hb
    exact hbad s' v e hs hv he hw

end Ends

section Descent

variable {toDouble} {n : ℕ}

/-- What `readValue`, `readObject` and `readItems` come to with the bound `n`. -/
structure EndsAll (toDouble : List UInt8 → Option ℚ) (n : ℕ) : Prop where
  value : ∀ (s : State) (v : Value), 2 * s.current.length + 1 ≤ n → s.current.length < maxInt - 2 →
    (s.stackDepth < stackLimit → v.Fits toDouble s.stackDepth) →
    Ends toDouble s s.stackDepth s.stackDepth (readValue toDouble n v s)
  object : ∀ (s : State) (k : ℕ) (name : List UInt8) (members : List (List UInt8 × Value)),
    2 * s.current.length + 2 ≤ n → s.current.length < maxInt - 2 → s.stackDepth = k + 1 → k + 1 ≤ stackLimit →
    (members.Pairwise fun m m' => m.1 < m'.1) → (∀ m ∈ members, m.2.Fits toDouble (k + 1)) →
    Ends toDouble s k (k + 1) (readObject toDouble n name members s)
  items : ∀ (s : State) (k : ℕ) (items : List Value), 2 * s.current.length + 2 ≤ n →
    items.length + s.current.length < maxInt - 2 → s.stackDepth = k + 1 → k + 1 ≤ stackLimit →
    (∀ v ∈ items, v.Fits toDouble (k + 1)) → Ends toDouble s k (k + 1) (readItems toDouble n items s)

theorem fits_of_depth {k : ℕ} {v : Value} (hk : k < stackLimit) (h : v.Canonical toDouble ∧ v.depth = 1) :
    v.Fits toDouble k := ⟨h.1, by omega⟩

theorem fits_lookup {k : ℕ} {members : List (List UInt8 × Value)} (hk : k < stackLimit)
    (h : ∀ m ∈ members, m.2.Fits toDouble k) (key : List UInt8) : ((members.lookup key).getD .null).Fits toDouble k := by
  induction members with
  | nil => exact fits_of_depth hk ⟨trivial, rfl⟩
  | cons m members ih =>
    obtain ⟨key', v⟩ := m
    rw [List.lookup_cons]
    split
    · exact h (key', v) List.mem_cons_self
    · exact ih fun m hm => h m (List.mem_cons_of_mem _ hm)

theorem EndsAll.readItems (h : EndsAll toDouble n) {s : State} {k : ℕ} {items : List Value}
    (hn : 2 * s.current.length + 2 ≤ n + 1) (hi : items.length + s.current.length < maxInt - 2) (hd : s.stackDepth = k + 1)
    (hk : k + 1 ≤ stackLimit) (hf : ∀ v ∈ items, v.Fits toDouble (k + 1)) :
    Ends toDouble s k (k + 1) (Reader.readItems toDouble (n + 1) items s) := by
  have hmax : ¬ maxInt ≤ (items.length : ℤ) := by omega
  rw [Reader.readItems, if_neg hmax]
  have hvalue := h.value s .null (by omega) (by omega) fun hlt => fits_of_depth hlt ⟨trivial, rfl⟩
  rw [hd] at hvalue
  have hall {v : Value} (hv : v.Fits toDouble (k + 1)) : ∀ v' ∈ items ++ [v], v'.Fits toDouble (k + 1) := by
    intro v' hv'
    rcases List.mem_append.1 hv' with hv' | hv'
    · exact hf v' hv'
    · exact List.mem_singleton.1 hv' ▸ hv
  refine hvalue.bind (fun s' v hs hv he hlen hd' => ?_) fun s' v e hs hv he hw => ?_
  · have harray := fits_array hk (hall hv)
    obtain ⟨l', hl', htok⟩ := nextTokenPastComments_eq s'.current s'.errors s'.stackDepth
    simp only [endItem, if_true]
    rw [Eff.bind_of_ok htok]
    have hstop := (readToken_suffix l').trans (hl'.trans hs)
    have hshort := (readToken_suffix l').length_le
    have hshort' := hl'.length_le
    by_cases hsep : (readToken l').type ≠ .arraySeparator ∧ (readToken l').type ≠ .arrayEnd
    · rw [if_pos hsep]
      exact ends_addErrorAndRecover hstop he ((within_readToken l' _).mono (hl'.trans hs)) harray
    rw [if_neg hsep]
    by_cases hend : (readToken l').type = .arrayEnd
    · rw [if_pos hend]
      exact ends_true hstop (by simp only; omega) he hd' harray
    · rw [if_neg hend]
      refine Ends.mono (h.items _ k _ ?_ ?_ hd' hk (hall hv)) hstop he
      · simp only
        omega
      · rw [List.length_append, List.length_singleton]
        simp only
        omega
  · exact ends_recover hs he hw (fits_array hk (hall hv))

theorem EndsAll.endMember (h : EndsAll toDouble n) {s : State} {k : ℕ} {name : List UInt8}
    {members : List (List UInt8 × Value)} (hn : 2 * s.current.length + 2 ≤ n) (hi : s.current.length < maxInt - 2)
    (hd : s.stackDepth = k + 1) (hk : k + 1 ≤ stackLimit) (hs : members.Pairwise fun m m' => m.1 < m'.1)
    (hf : ∀ m ∈ members, m.2.Fits toDouble (k + 1)) :
    Ends toDouble s k (k + 1) (Reader.endMember members true (readObject toDouble n name members) s) := by
  have hobject := fits_object hk hs hf
  have htok : nextToken s = (⟨(readToken s.current).stop, s.errors, s.stackDepth⟩, .ok (readToken s.current)) := rfl
  have hstop := readToken_suffix s.current
  have hle := hstop.length_le
  simp only [Reader.endMember, if_true]
  rw [Eff.bind_of_ok htok]
  by_cases hsep : (readToken s.current).type ≠ .objectEnd ∧ (readToken s.current).type ≠ .arraySeparator ∧
      (readToken s.current).type ≠ .comment
  · rw [if_pos hsep]
    exact ends_addErrorAndRecover hstop rfl (within_readToken s.current _) hobject
  rw [if_neg hsep]
  have hlen : (readToken s.current).stop.length < s.current.length := by
    refine readToken_length fun heos => hsep ?_
    rw [heos]
    decide
  -- the comma, or the first token past the comments
  obtain ⟨l', hl', hcomma⟩ : ∃ l', l' <:+ s.current ∧
      (if (readToken s.current).type = .comment then nextTokenPastComments else pure (readToken s.current))
        ⟨(readToken s.current).stop, s.errors, s.stackDepth⟩ =
      (⟨(readToken l').stop, s.errors, s.stackDepth⟩, .ok (readToken l')) ∧
      (readToken l').stop.length < s.current.length := by
    by_cases hc : (readToken s.current).type = .comment
    · obtain ⟨l', hl', htok'⟩ := nextTokenPastComments_eq (readToken s.current).stop s.errors s.stackDepth
      have := (readToken_suffix l').length_le
      have := hl'.length_le
      exact ⟨l', hl'.trans hstop, by rw [if_pos hc, htok'], by omega⟩
    · exact ⟨s.current, List.suffix_rfl, by rw [if_neg hc]; rfl, hlen⟩
  have hstop' := (readToken_suffix l').trans hl'
  rw [Eff.bind_of_ok hcomma.1]
  by_cases hend : (readToken l').type = .objectEnd
  · rw [if_pos hend]
    exact ends_true hstop' hcomma.2 rfl hd hobject
  · rw [if_neg hend]
    refine Ends.mono (h.object _ k name members ?_ ?_ hd hk hs hf) hstop' rfl
    · simp only
      omega
    · simp only
      omega

theorem EndsAll.readObject (h : EndsAll toDouble n) {s : State} {k : ℕ} {name : List UInt8}
    {members : List (List UInt8 × Value)} (hn : 2 * s.current.length + 2 ≤ n + 1) (hi : s.current.length < maxInt - 2)
    (hd : s.stackDepth = k + 1) (hk : k + 1 ≤ stackLimit) (hs : members.Pairwise fun m m' => m.1 < m'.1)
    (hf : ∀ m ∈ members, m.2.Fits toDouble (k + 1)) :
    Ends toDouble s k (k + 1) (Reader.readObject toDouble (n + 1) name members s) := by
  have hobject := fits_object hk hs hf
  obtain ⟨l', hl', htok⟩ := nextTokenPastComments_eq s.current s.errors s.stackDepth
  have hstop := (readToken_suffix l').trans hl'
  have hlen (hne : (readToken l').type ≠ .endOfStream) : (readToken l').stop.length < s.current.length :=
    Nat.lt_of_lt_of_le (readToken_length hne) hl'.length_le
  rw [Reader.readObject, Eff.bind_of_ok htok]
  by_cases hend : (readToken l').type = .objectEnd ∧ name = []
  · rw [if_pos hend]
    exact ends_true hstop (hlen (by rw [hend.1]; decide)) rfl hd hobject
  rw [if_neg hend]
  by_cases hstring : (readToken l').type = .string
  · have hlen := hlen (by rw [hstring]; decide)
    rw [if_pos hstring]
    unfold readName
    cases hdec : decodeString (readToken l') with
    | error e =>
      obtain ⟨he, hx⟩ := decodeString_error hdec
      have hstart : (readToken l').start <:+ s.current := by
        rw [readToken_start]
        exact (skipSpaces_suffix l').trans hl'
      have hw : e.Within s.current :=
        ⟨he ▸ hstart, he ▸ readToken_stop_start l', fun x h => (hx x h).trans hstart⟩
      exact ends_recover (t := ⟨_, s.errors ++ [e], _⟩) hstop rfl hw hobject
    | ok name =>
      have htok' : nextToken ⟨(readToken l').stop, s.errors, s.stackDepth⟩ =
        (⟨(readToken (readToken l').stop).stop, s.errors, s.stackDepth⟩, .ok (readToken (readToken l').stop)) := rfl
      have hstop' := (readToken_suffix (readToken l').stop).trans hstop
      have hle' := (readToken_suffix (readToken l').stop).length_le
      simp only
      rw [Eff.bind_of_ok htok']
      by_cases hcolon : (readToken (readToken l').stop).type ≠ .memberSeparator
      · rw [if_pos hcolon]
        exact ends_addErrorAndRecover hstop' rfl ((within_readToken _ _).mono hstop) hobject
      rw [if_neg hcolon]
      refine Ends.mono (t := ⟨(readToken (readToken l').stop).stop, s.errors, s.stackDepth⟩) ?_ hstop' rfl
      have hvalue := h.value ⟨(readToken (readToken l').stop).stop, s.errors, s.stackDepth⟩
        ((members.lookup (czString name)).getD .null) (by simp only; omega) (by simp only; omega)
        fun hlt => by
          have hlt : k + 1 < stackLimit := hd ▸ hlt
          exact hd ▸ fits_lookup hlt hf _
      simp only [hd] at hvalue ⊢
      have hins {v : Value} (hv : v.Fits toDouble (k + 1)) :
          ∀ m ∈ insertMember (czString name) v members, m.2.Fits toDouble (k + 1) := by
        intro m hm
        rcases mem_insertMember hm with rfl | hm
        · exact hv
        · exact hf m hm
      refine hvalue.bind (fun s' v hs' hv he hshort hd' => ?_) fun s' v e hs' hv he hw => ?_
      · refine Ends.mono (h.endMember ?_ ?_ hd' hk (insertMember_pairwise _ v hs) (hins hv)) hs' he
        · simp only at hshort
          omega
        · simp only at hshort
          omega
      · exact ends_recover hs' he hw (fits_object hk (insertMember_pairwise _ v hs) (hins hv))
  · rw [if_neg hstring]
    exact ends_addErrorAndRecover hstop rfl ((within_readToken l' _).mono hl') hobject

/-- What `decodeNumber` and `decodeString` come to becomes the value, or the error. -/
theorem ends_decoded {α : Type} {s t : State} {k d : ℕ} {v : Value} {r : Except ErrorInfo α} {newValue : α → Read Value} (hs : t.current <:+ s.current)
    (hlen : t.current.length < s.current.length) (he : t.errors = s.errors) (hd : t.stackDepth = d) (hk : k < stackLimit)
    (hv : v.Fits toDouble k)
    (hok : ∀ a, r = .ok a → ∃ w, newValue a = pure w ∧ w.Canonical toDouble ∧ w.depth = 1)
    (herr : ∀ e, r = .error e → e.Within s.current) : Ends toDouble s k d (decoded v r newValue t) := by
  cases r with
  | ok a =>
    obtain ⟨w, hw, hfits⟩ := hok a rfl
    have hpure : newValue a t = (t, .ok w) := by rw [hw, Eff.pure_apply]
    rw [decoded, Eff.bind_of_ok hpure]
    exact ends_true hs hlen he hd (fits_of_depth hk hfits)
  | error e => exact ends_addError hs he (herr e rfl) hv

theorem decodeNumber_error {token : Token} {e : ErrorInfo} (h : decodeNumber toDouble token = .error e) :
    e.token = token ∧ e.extra = none := by
  have hdouble {e : ErrorInfo} (h : decodeDouble toDouble token = .error e) : e.token = token ∧ e.extra = none := by
    unfold decodeDouble at h
    split at h
    · cases h
    · cases h
      exact ⟨rfl, rfl⟩
  unfold decodeNumber at h
  split_ifs at h
  all_goals
    split at h
    · cases h
    · exact hdouble h

theorem EndsAll.readValue (h : EndsAll toDouble n) {s : State} {v : Value} (hn : 2 * s.current.length + 1 ≤ n + 1)
    (hi : s.current.length < maxInt - 2) (hf : s.stackDepth < stackLimit → v.Fits toDouble s.stackDepth) :
    Ends toDouble s s.stackDepth s.stackDepth (Reader.readValue toDouble (n + 1) v s) := by
  rw [Reader.readValue]
  by_cases hk : stackLimit ≤ s.stackDepth
  · exact .inl ⟨s, Eff.bind_of_thrown (show enter s = _ from if_pos hk) _⟩
  have hk : s.stackDepth < stackLimit := not_le.1 hk
  have hfit := hf hk
  have henter : enter s = (⟨s.current, s.errors, s.stackDepth + 1⟩, .ok ()) := if_neg (not_le.2 hk)
  have htok : nextToken ⟨s.current, s.errors, s.stackDepth + 1⟩ =
    (⟨(readToken s.current).stop, s.errors, s.stackDepth + 1⟩, .ok (readToken s.current)) := rfl
  rw [Eff.bind_of_ok henter, Eff.bind_of_ok htok]
  have hstop := readToken_suffix s.current
  have hlen (hne : (readToken s.current).type ≠ .endOfStream) := readToken_length hne
  have hstart : (readToken s.current).start <:+ s.current := by
    rw [readToken_start]
    exact skipSpaces_suffix s.current
  have hwithin {e : ErrorInfo} (he : e.token = readToken s.current) (hx : ∀ x ∈ e.extra, x <:+ (readToken s.current).start) :
      e.Within s.current := by
    exact ⟨he ▸ hstart, he ▸ readToken_stop_start s.current, fun x h => (hx x h).trans hstart⟩
  have hscalar (w : Value) (hne : (readToken s.current).type ≠ .endOfStream) (hw : w.Canonical toDouble ∧ w.depth = 1) :
      Ends toDouble s s.stackDepth s.stackDepth
        (leave (pure (w, true)) ⟨(readToken s.current).stop, s.errors, s.stackDepth + 1⟩) := by
    refine Ends.leave ?_
    exact ends_true hstop (hlen hne) rfl rfl (fits_of_depth hk hw)
  have herror : Ends toDouble s s.stackDepth s.stackDepth
      ((addError ⟨readToken s.current, text "Syntax error: value, object or array expected.", none⟩ >>= fun _ =>
        (pure (v, false) : Read (Value × Bool))) ⟨(readToken s.current).stop, s.errors, s.stackDepth + 1⟩) :=
    ends_addError hstop rfl (within_readToken s.current _) hfit
  unfold readTyped
  cases ht : (readToken s.current).type with
  | objectBegin =>
    have hlen := hlen (by rw [ht]; decide)
    refine Ends.leave (Ends.mono (h.object _ s.stackDepth [] [] ?_ ?_ rfl hk .nil (by simp)) hstop rfl)
    · simp only
      omega
    · simp only
      omega
  | arrayBegin =>
    have hlen := hlen (by rw [ht]; decide)
    refine Ends.leave ?_
    have hspaces := skipSpaces_suffix (readToken s.current).stop
    have hle := hspaces.length_le
    show Ends toDouble s s.stackDepth (s.stackDepth + 1)
      ((if peek (skipSpaces (readToken s.current).stop) = ']' then nextToken >>= fun _ => pure (Value.array [], true)
        else Reader.readItems toDouble n []) ⟨skipSpaces (readToken s.current).stop, s.errors, s.stackDepth + 1⟩)
    split_ifs
    · have hshort := (readToken_suffix (skipSpaces (readToken s.current).stop)).length_le
      exact ends_true (((readToken_suffix _).trans hspaces).trans hstop) (by simp only; omega) rfl rfl
        (fits_array hk (by simp))
    · refine Ends.mono (h.items _ s.stackDepth [] ?_ ?_ rfl hk (by simp)) (hspaces.trans hstop) rfl
      · simp only
        omega
      · simp only [List.length_nil]
        omega
  | number =>
    refine Ends.leave (ends_decoded hstop (hlen (by rw [ht]; decide)) rfl rfl hk hfit 
      (fun w hw => ⟨w, rfl, decodeNumber_canonical hw⟩) fun e he => ?_)
    obtain ⟨htoken, hextra⟩ := decodeNumber_error he
    exact hwithin htoken (by simp [hextra])
  | string =>
    refine Ends.leave (ends_decoded hstop (hlen (by rw [ht]; decide)) rfl rfl hk hfit (fun bytes hbytes => ?_)
      fun e he => ?_)
    · have hle := decodeString_length hbytes
      have htext := (readToken s.current).text_length
      have hshort := hstart.length_le
      have hmax : maxInt = 2 ^ 31 - 1 := rfl
      exact ⟨_, stringValue_of_le (by omega), trivial, rfl⟩
    · obtain ⟨htoken, hextra⟩ := decodeString_error he
      exact hwithin htoken hextra
  | true => exact hscalar _ (by rw [ht]; decide) ⟨trivial, rfl⟩
  | false => exact hscalar _ (by rw [ht]; decide) ⟨trivial, rfl⟩
  | null => exact hscalar _ (by rw [ht]; decide) ⟨trivial, rfl⟩
  | _ => exact herror

theorem endsAll (toDouble : List UInt8 → Option ℚ) (n : ℕ) : EndsAll toDouble n := by
  induction n with
  | zero => exact ⟨fun _ _ h => by omega, fun _ _ _ _ h => by omega, fun _ _ _ h => by omega⟩
  | succ n ih =>
    exact ⟨fun _ _ hn hi hf => ih.readValue hn hi hf, fun _ _ _ _ hn hi hd hk hs hf => ih.readObject hn hi hd hk hs hf,
      fun _ _ _ hn hi hd hk hf => ih.readItems hn hi hd hk hf⟩

/-- **What `readValue` comes to**, whatever the document. -/
theorem readValue_ends {s : State} {v : Value} (hn : 2 * s.current.length + 1 ≤ n) (hi : s.current.length < maxInt - 2)
    (hf : s.stackDepth < stackLimit → v.Fits toDouble s.stackDepth) :
    Ends toDouble s s.stackDepth s.stackDepth (Reader.readValue toDouble n v s) :=
  (endsAll toDouble n).value s v hn hi hf

/-! ## Documents -/

/-- The error of a root that is no container. -/
def containerExpected (document : List UInt8) : ErrorInfo :=
  ⟨⟨.error, document, []⟩, text "A valid JSON document must be either an array or an object value.", none⟩

section Document

variable {document : List UInt8} {root : Value} {successful : Bool} {errors : List ErrorInfo} {s' : State}

theorem parse_of_thrown {e : Exn}
    (h : Reader.readValue toDouble (2 * document.length + 1) .null ⟨document, [], 0⟩ = (s', .thrown e)) :
    parse toDouble document = .thrown e := by
  unfold parse parseDocument
  rw [Eff.bind_of_thrown h]

theorem parse_of_ok (h : Reader.readValue toDouble (2 * document.length + 1) .null ⟨document, [], 0⟩ =
    (s', .ok (root, successful))) :
    parse toDouble document =
      if root.isContainer then .ok (root, successful, s'.errors)
      else .ok (root, false, s'.errors ++ [containerExpected document]) := by
  have htok : nextToken s' = (⟨(readToken s'.current).stop, s'.errors, s'.stackDepth⟩, .ok (readToken s'.current)) := rfl
  unfold parse parseDocument
  rw [Eff.bind_of_ok h, Eff.bind_of_ok htok]
  by_cases hroot : root.isContainer = true
  · rw [if_pos hroot, if_pos hroot]
    rfl
  · rw [if_neg hroot, if_neg hroot]
    rfl

theorem document_ends (toDouble : List UInt8 → Option ℚ) (h : document.length < maxInt - 2) :
    Ends toDouble ⟨document, [], 0⟩ 0 0
      (Reader.readValue toDouble (2 * document.length + 1) .null ⟨document, [], 0⟩) :=
  readValue_ends (Nat.le_refl _) h fun hk => fits_of_depth hk ⟨trivial, rfl⟩

/-- **The root of a document** is canonical and within the limit; where `parse` returns true it is an array or an object. -/
theorem parse_root (h : document.length < maxInt - 2) (hparse : parse toDouble document = .ok (root, successful, errors)) :
    root.Canonical toDouble ∧ root.depth ≤ stackLimit ∧ (successful = true → root.isContainer = true) := by
  obtain ⟨s', hx⟩ | ⟨s', v, b, hx, -, ⟨hcanonical, hdepth⟩, -⟩ := document_ends toDouble h
  · rw [parse_of_thrown hx] at hparse
    cases hparse
  rw [parse_of_ok hx] at hparse
  by_cases hroot : v.isContainer = true
  · rw [if_pos hroot] at hparse
    cases hparse
    exact ⟨hcanonical, hdepth, fun _ => hroot⟩
  · rw [if_neg hroot] at hparse
    cases hparse
    exact ⟨hcanonical, hdepth, nofun⟩

/-- **A document is parsed without undefined behaviour**: the limit of the stack is exceeded, or `parse` returns, and then
it returns true exactly when there is no error.  There are at most two errors, and they are in the document; the root is
canonical and within the limit. -/
theorem parse_ends (document : List UInt8) (h : document.length < maxInt - 2) :
    parse toDouble document = .thrown stackLimitExceeded ∨
      ∃ root successful errors, parse toDouble document = .ok (root, successful, errors) ∧
        (successful = true ↔ errors = []) ∧ errors.length ≤ 2 ∧ (∀ e ∈ errors, e.Within document) ∧
        root.Canonical toDouble ∧ root.depth ≤ stackLimit := by
  obtain ⟨s', hx⟩ | ⟨s', v, b, hx, -, ⟨hcanonical, hdepth⟩, hb⟩ := document_ends toDouble h
  · exact .inl (parse_of_thrown hx)
  refine .inr ?_
  rw [parse_of_ok hx]
  -- the errors of `readValue`
  have herrors : (b = true ↔ s'.errors = []) ∧ s'.errors.length ≤ 1 ∧ ∀ e ∈ s'.errors, e.Within document := by
    cases b with
    | true =>
      rw [hb.1]
      exact ⟨iff_of_true rfl rfl, Nat.zero_le 1, by simp⟩
    | false =>
      obtain ⟨e, he, hw⟩ := hb
      rw [he]
      exact ⟨by simp, Nat.le_refl 1, fun e' he' => List.mem_singleton.1 he' ▸ hw⟩
  obtain ⟨hflag, hcount, hwithin⟩ := herrors
  by_cases hroot : v.isContainer = true
  · rw [if_pos hroot]
    exact ⟨v, b, _, rfl, hflag, Nat.le_succ_of_le hcount, hwithin, hcanonical, hdepth⟩
  · rw [if_neg hroot]
    refine ⟨v, false, _, rfl, iff_of_false Bool.false_ne_true (List.append_ne_nil_of_right_ne_nil _ (by simp)), ?_, ?_,
      hcanonical, hdepth⟩
    · rw [List.length_append]
      exact Nat.succ_le_succ hcount
    · intro e he
      rcases List.mem_append.1 he with he | he
      · exact hwithin e he
      · obtain rfl := List.mem_singleton.1 he
        exact ⟨List.suffix_rfl, List.nil_suffix, nofun⟩

/-- An unfinished array that is no array of the grammar. -/
theorem parse_ends_unfinished :
    parse (fun _ => none) [byteOf '[', byteOf '1'] = .thrown stackLimitExceeded ∨
      ∃ root successful errors, parse (fun _ => none) [byteOf '[', byteOf '1'] = .ok (root, successful, errors) ∧
        (successful = true ↔ errors = []) ∧ errors.length ≤ 2 ∧
        (∀ e ∈ errors, e.Within [byteOf '[', byteOf '1']) ∧ root.Canonical (fun _ => none) ∧ root.depth ≤ stackLimit :=
  parse_ends [byteOf '[', byteOf '1'] (by decide)

end Document

end Descent

end Nessus.Parser.Reader
