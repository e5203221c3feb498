import Nessus.Parser.ReaderLex
import Nessus.Parser.ReaderTotal

/-!
# What the reader makes of a JSON text: values

* `treeValue` — the value that a JSON text stands for, where its numbers have one;
* `Denotes.reads` — **`readValue` reads it**, exactly where the nesting is within the limit of the stack.
-/

namespace Nessus.Parser.Reader

open Nessus.Lib Nessus.Lib.Json Nessus.Abi

/-! ## What a text stands for -/

mutual

/-- How deep a text is nested. -/
def treeDepth : Tree → ℕ
  | .array items => treeDepths items + 1
  | .object members => memberTreeDepths members + 1
  | _ => 1
termination_by structural v => v

def treeDepths : List Tree → ℕ
  | [] => 0
  | v :: vs => max (treeDepth v) (treeDepths vs)
termination_by structural vs => vs

def memberTreeDepths : List (List Char × Tree) → ℕ
  | [] => 0
  | m :: ms => max (memberTreeDepth m) (memberTreeDepths ms)
termination_by structural ms => ms

def memberTreeDepth : List Char × Tree → ℕ
  | (_, v) => treeDepth v
termination_by structural m => m

end

section TreeValue

variable (toDouble : List UInt8 → Option ℚ)

/-- The members in the order of their keys; the last one of a name counts. -/
def insertMembers (members : List (List UInt8 × Value)) : List (List UInt8 × Value) → List (List UInt8 × Value)
  | [] => members
  | m :: ms => insertMembers (insertMember m.1 m.2 members) ms

mutual

/-- The value that a text stands for, if its numbers have one. -/
def treeValue : Tree → Option Value
  | .null => some .null
  | .bool b => some (.bool b)
  | .number t => numberValue toDouble t
  | .string s => some (.string (utf8 s))
  | .array items => (treeValues items).map .array
  | .object members => (memberTreeValues members).map fun ms => .object (insertMembers [] ms)
termination_by structural v => v

def treeValues : List Tree → Option (List Value)
  | [] => some []
  | v :: vs => (treeValue v).bind fun x => (treeValues vs).map (x :: ·)
termination_by structural vs => vs

def memberTreeValues : List (List Char × Tree) → Option (List (List UInt8 × Value))
  | [] => some []
  | m :: ms => (memberTreeValue m).bind fun x => (memberTreeValues ms).map (x :: ·)
termination_by structural ms => ms

def memberTreeValue : List Char × Tree → Option (List UInt8 × Value)
  | (name, v) => (treeValue v).map fun x => (utf8 name, x)
termination_by structural m => m

end

end TreeValue

/-! ## Reading -/

/-- What a call of the reader comes to, where it is called `k` deep on a text that is nested `depth` deep and stands for
`x`.  Within the limit of the stack it comes to `result`, or, where a number has no value, returns false with that one
error; past the limit it throws. -/
def Reads {α : Type} (k depth : ℕ) (x : Option α) (errs : List ErrorInfo)
    (result : α → State × Outcome Exn (Value × Bool) → Prop) (y : State × Outcome Exn (Value × Bool)) : Prop :=
  match x with
  | some a => (k + depth ≤ stackLimit → result a y) ∧ (stackLimit < k + depth → ∃ s', y = (s', .thrown stackLimitExceeded))
  | none => k + depth ≤ stackLimit → ∃ s' v token, y = (s', .ok (v, false)) ∧ s'.errors = errs ++ [notANumber token]

section Reads

variable {α β γ : Type} {k d d' : ℕ} {x : Option α} {errs : List ErrorInfo}
  {result result' : α → State × Outcome Exn (Value × Bool) → Prop} {y : State × Outcome Exn (Value × Bool)}

theorem Reads.imp (h : Reads k d x errs result y) (hr : ∀ a, x = some a → k + d ≤ stackLimit → result a y → result' a y) :
    Reads k d x errs result' y := by
  cases x with
  | some a => exact ⟨fun hd => hr a rfl hd (h.1 hd), h.2⟩
  | none => exact h

theorem Reads.map {g : α → γ} {result : γ → State × Outcome Exn (Value × Bool) → Prop}
    (h : Reads k d x errs (fun a => result (g a)) y) : Reads k d (x.map g) errs result y := by
  cases x <;> exact h

theorem Reads.seq {z : Option β} {g : α → β → γ} {result : γ → State × Outcome Exn (Value × Bool) → Prop}
    (h : Reads k d x errs (fun a => Reads k d' z errs fun b => result (g a b)) y) :
    Reads k (max d d') (x.bind fun a => z.map (g a)) errs result y := by
  cases x with
  | none => exact fun hd => h (by omega)
  | some a =>
    cases z with
    | none => exact fun hd => h.1 (by omega) (by omega)
    | some b =>
      refine ⟨fun hd => (h.1 (by omega)).1 (by omega), fun hd => ?_⟩
      by_cases hk : k + d ≤ stackLimit
      · exact (h.1 hk).2 (by omega)
      · exact h.2 (by omega)

theorem Reads.bind {read : Read (Value × Bool)} {f : Value × Bool → Read (Value × Bool)} {x : Option Value} {s : State}
    {result : Value → State × Outcome Exn (Value × Bool) → Prop} {ends : Location → Prop}
    (h : Reads k d x errs (fun a y => ∃ r, ends r ∧ y = (⟨r, errs, k⟩, .ok (a, true))) (read s))
    (hok : ∀ a r, ends r → result a (f (a, true) ⟨r, errs, k⟩))
    (hbad : ∀ s' v, ∃ s'' v', f (v, false) s' = (s'', .ok (v', false)) ∧ s''.errors = s'.errors) :
    Reads k d x errs result ((read >>= f) s) := by
  cases x with
  | none =>
    intro hd
    obtain ⟨s', v, token, hr, herr⟩ := h hd
    obtain ⟨s'', v', hf, herr'⟩ := hbad s' v
    exact ⟨s'', v', token, (Eff.bind_of_ok hr f).trans hf, herr'.trans herr⟩
  | some a =>
    refine ⟨fun hd => ?_, fun hd => ?_⟩
    · obtain ⟨r, hends, hr⟩ := h.1 hd
      rw [Eff.bind_of_ok hr f]
      exact hok a r hends
    · obtain ⟨s', hr⟩ := h.2 hd
      exact ⟨s', Eff.bind_of_thrown hr f⟩

theorem Reads.leave {x : Option Value} {read : Read (Value × Bool)} {s : State} {ends : Location → Prop}
    (h : Reads (k + 1) d x errs (fun a y => ∃ r, ends r ∧ y = (⟨r, errs, k + 1⟩, .ok (a, true))) (read s)) :
    Reads k (d + 1) x errs (fun a y => ∃ r, ends r ∧ y = (⟨r, errs, k⟩, .ok (a, true))) (leave read s) := by
  have hk : k + (d + 1) = k + 1 + d := by omega
  cases x with
  | none =>
    intro hd
    obtain ⟨s', v, token, hr, herr⟩ := h (hk ▸ hd)
    exact ⟨_, v, token, Eff.bind_of_ok hr _, herr⟩
  | some a =>
    refine ⟨fun hd => ?_, fun hd => ?_⟩
    · obtain ⟨r, hends, hr⟩ := h.1 (hk ▸ hd)
      exact ⟨r, hends, Eff.bind_of_ok hr _⟩
    · obtain ⟨s', hr⟩ := h.2 (hk ▸ hd)
      exact ⟨s', Eff.bind_of_thrown hr _⟩

end Reads

section Descent

variable (toDouble : List UInt8 → Option ℚ)

/-- The value of the text `t` is read, and what comes after it is left, up to white space, if it is as `stops` says. -/
def ReadsBefore (stops : Location → Prop) (depth : ℕ) (x : Option Value) (t : List UInt8) : Prop :=
  t.length < 2 ^ 30 → ∀ n v l r errs k, skipSpaces l = skipSpaces (t ++ r) → 2 * t.length ≤ n → stops r → k ≤ stackLimit →
    Reads k depth x errs (fun a y => ∃ r', skipSpaces r' = skipSpaces r ∧ y = (⟨r', errs, k⟩, .ok (a, true)))
      (readValue toDouble n v ⟨l, errs, k⟩)

/-- The value of the text `t` is read before what does not go on with a number. -/
def ReadsValue (depth : ℕ) (x : Option Value) (t : List UInt8) : Prop := ReadsBefore toDouble Stops depth x t

/-- The items of the text `t` are read, and what comes after the bracket is left. -/
def ReadsItems (depth : ℕ) (xs : Option (List Value)) (t : List UInt8) : Prop :=
  ∀ n items l r errs k, items.length + t.length < 2 ^ 30 → skipSpaces l = skipSpaces (t ++ byteOf ']' :: r) →
    2 * t.length + 1 ≤ n → k ≤ stackLimit →
    Reads k depth xs errs (fun ys y => y = (⟨r, errs, k⟩, .ok (.array (items ++ ys), true)))
      (readItems toDouble n items ⟨l, errs, k⟩)

/-- The member of the text `t` is read. -/
def ReadsMember (depth : ℕ) (m : Option (List UInt8 × Value)) (t : List UInt8) : Prop :=
  t.length < 2 ^ 30 → ∀ n name members l r errs k, skipSpaces l = skipSpaces (t ++ r) → 2 * t.length ≤ n → Stops r →
    k ≤ stackLimit →
    Reads k depth m errs
      (fun p y => ∃ r', skipSpaces r' = skipSpaces r ∧
        y = endMember (insertMember p.1 p.2 members) true (readObject toDouble n p.1 (insertMember p.1 p.2 members))
          ⟨r', errs, k⟩)
      (readObject toDouble (n + 1) name members ⟨l, errs, k⟩)

/-- The members of the text `t` are read, and what comes after the brace is left. -/
def ReadsMembers (depth : ℕ) (ms : Option (List (List UInt8 × Value))) (t : List UInt8) : Prop :=
  t.length < 2 ^ 30 → ∀ n name members l r errs k, skipSpaces l = skipSpaces (t ++ byteOf '}' :: r) →
    2 * t.length + 1 ≤ n → k ≤ stackLimit →
    Reads k depth ms errs (fun ps y => y = (⟨r, errs, k⟩, .ok (.object (insertMembers members ps), true)))
      (readObject toDouble n name members ⟨l, errs, k⟩)

variable {toDouble} {stops : Location → Prop} {depth : ℕ} {t u : List UInt8}

theorem readsBefore_of_token {x : Option Value} (hpos : 0 < t.length)
    (h : t.length < 2 ^ 30 → ∀ n v r errs k, 2 * t.length ≤ n + 1 → stops r → k + 1 ≤ stackLimit →
      Reads k (depth + 1) x errs (fun a y => ∃ r', skipSpaces r' = skipSpaces r ∧ y = (⟨r', errs, k⟩, .ok (a, true)))
        (readTyped toDouble (readObject toDouble n [] []) (readArray (readItems toDouble n [])) v (readToken (t ++ r))
          ⟨(readToken (t ++ r)).stop, errs, k + 1⟩)) :
    ReadsBefore toDouble stops (depth + 1) x t := by
  intro hlen n v l r errs k hl hn hr hk
  obtain ⟨n, rfl⟩ : ∃ m, n = m + 1 := ⟨n - 1, by omega⟩
  rw [readValue]
  by_cases hlim : k + 1 ≤ stackLimit
  · have henter : enter ⟨l, errs, k⟩ = (⟨l, errs, k + 1⟩, .ok ()) := if_neg (by simp only; omega)
    have htok : nextToken ⟨l, errs, k + 1⟩ = (⟨(readToken (t ++ r)).stop, errs, k + 1⟩, .ok (readToken (t ++ r))) :=
      nextToken_congr hl
    rw [Eff.bind_of_ok henter, Eff.bind_of_ok htok]
    exact h hlen n v r errs k hn hr hlim
  · have henter : enter ⟨l, errs, k⟩ = (⟨l, errs, k⟩, .thrown stackLimitExceeded) := if_pos (by simp only; omega)
    rw [Eff.bind_of_thrown henter]
    cases x with
    | none => exact fun hd => absurd hd (by omega)
    | some a => exact ⟨fun hd => absurd hd (by omega), fun _ => ⟨_, rfl⟩⟩

/-! ## Values without parts -/

section Scalar

variable {x : Option Value} {ends : Location → Prop} {r : Location} {errs : List ErrorInfo} {k : ℕ}

theorem reads_pure {a : Value} (hk : k + 1 ≤ stackLimit) (hr : ends r) :
    Reads k (0 + 1) (some a) errs (fun a y => ∃ r', ends r' ∧ y = (⟨r', errs, k⟩, .ok (a, true)))
      (leave (pure (a, true)) ⟨r, errs, k + 1⟩) :=
  ⟨fun _ => ⟨r, hr, rfl⟩, fun hd => absurd hd (by omega)⟩

theorem reads_decoded {v : Value} {token : Token} (hk : k + 1 ≤ stackLimit) (hr : ends r) :
    Reads k (0 + 1) x errs (fun a y => ∃ r', ends r' ∧ y = (⟨r', errs, k⟩, .ok (a, true)))
      (leave (decoded v (x.elim (.error (notANumber token)) .ok) pure) ⟨r, errs, k + 1⟩) := by
  cases x with
  | some a => exact reads_pure hk hr
  | none => exact fun _ => ⟨_, v, token, rfl, rfl⟩

end Scalar

theorem readsValue_null : ReadsValue toDouble 1 (some .null) (utf8 ['n', 'u', 'l', 'l']) :=
  readsBefore_of_token (by decide) fun _ n v r errs k _ _ hk => by
    rw [readToken_null]
    exact reads_pure hk rfl

theorem readsValue_true : ReadsValue toDouble 1 (some (.bool true)) (utf8 ['t', 'r', 'u', 'e']) :=
  readsBefore_of_token (by decide) fun _ n v r errs k _ _ hk => by
    rw [readToken_true]
    exact reads_pure hk rfl

theorem readsValue_false : ReadsValue toDouble 1 (some (.bool false)) (utf8 ['f', 'a', 'l', 's', 'e']) :=
  readsBefore_of_token (by decide) fun _ n v r errs k _ _ hk => by
    rw [readToken_false]
    exact reads_pure hk rfl

theorem readsValue_number {t : List Char} (h : Number t) : ReadsValue toDouble 1 (numberValue toDouble t) (utf8 t) := by
  have hpos : 0 < (utf8 t).length := by
    obtain ⟨a, b, c, ha, -, -, rfl⟩ := h
    have ha : a ≠ [] := by
      rcases ha with ha | ⟨u, -, rfl⟩
      · exact ha.1.1
      · exact List.cons_ne_nil _ _
    obtain ⟨d, a, rfl⟩ := List.exists_cons_of_ne_nil ha
    have hle := length_le_utf8 (d :: a ++ b ++ c)
    simp only [List.cons_append, List.length_cons] at hle ⊢
    omega
  refine readsBefore_of_token hpos fun _ n v r errs k _ hr hk => ?_
  rw [readToken_number h hr]
  have hdec := @decodeNumber_number toDouble ⟨.number, utf8 t ++ r, r⟩ t h Token.text_of_append
  show Reads _ _ _ _ _ (leave (decoded v (decodeNumber toDouble _) pure) _)
  rw [hdec]
  exact reads_decoded hk rfl

theorem utf8_bracketed {a b : Char} (ha : a.toNat < 128) (hb : b.toNat < 128) (t : List Char) :
    utf8 (a :: t ++ [b]) = byteOf a :: utf8 t ++ [byteOf b] := by
  rw [List.cons_append, utf8_cons_of_lt ha, utf8_append, utf8_cons_of_lt hb]
  rfl

theorem readsValue_string {s t : List Char} (h : Chars s t) :
    ReadsValue toDouble 1 (some (.string (utf8 s))) (utf8 ('"' :: t ++ ['"'])) := by
  rw [utf8_bracketed (by decide) (by decide)]
  refine readsBefore_of_token (by simp) fun hlen n v r errs k _ _ hk => ?_
  have hdec := decodeString_chars (r := r) h
  have hle := decodeString_length hdec
  rw [Token.text_string] at hle
  have hmax : maxInt = 2 ^ 31 - 1 := rfl
  rw [List.append_assoc, List.singleton_append, readToken_string h]
  show Reads _ _ _ _ _ (leave (decoded v (decodeString _) stringValue) _)
  rw [hdec, decoded, stringValue_of_le (by omega)]
  exact reads_pure hk rfl

/-! ## White space -/

theorem readsBefore_ws {x : Option Value} {a b t : List Char} (ha : Ws a) (hb : Ws b)
    (hstops : ∀ r, stops r → stops (utf8 b ++ r)) (h : ReadsBefore toDouble stops depth x (utf8 t)) :
    ReadsBefore toDouble stops depth x (utf8 (a ++ t ++ b)) := by
  intro hlen n v l r errs k hl hn hr hk
  simp only [utf8_append, List.length_append] at hlen hn
  rw [utf8_append, utf8_append, List.append_assoc, List.append_assoc, skipSpaces_ws ha] at hl
  refine (h (by omega) n v l (utf8 b ++ r) errs k hl (by omega) (hstops r hr) hk).imp ?_
  rintro a - - ⟨r', hr', hy⟩
  exact ⟨r', hr'.trans (skipSpaces_ws hb), hy⟩

/-! ## Arrays -/

theorem recovers {type : TokenType} (s : State) (v : Value) :
    ∃ s' v', (recoverFromError type >>= fun _ => (pure (v, false) : Read (Value × Bool))) s = (s', .ok (v', false)) ∧
      s'.errors = s.errors := by
  obtain ⟨l', -, hr⟩ := recoverFromError_eq type s.current s.errors s.stackDepth
  exact ⟨_, v, Eff.bind_of_ok hr _, rfl⟩

theorem nextTokenPastComments_of {l r : Location} {errs : List ErrorInfo} {k : ℕ} {token : Token}
    (hl : skipSpaces l = skipSpaces r) (ht : readToken r = token) (hc : token.type ≠ .comment) :
    nextTokenPastComments ⟨l, errs, k⟩ = (⟨token.stop, errs, k⟩, .ok token) := by
  have hp : pastComments (l.length + 1) (readToken l) = some token := by
    rw [readToken_congr hl, ht, pastComments, if_neg hc]
  simp only [nextTokenPastComments, hp]

theorem nextToken_of {l r : Location} {errs : List ErrorInfo} {k : ℕ} {token : Token}
    (hl : skipSpaces l = skipSpaces r) (ht : readToken r = token) :
    nextToken ⟨l, errs, k⟩ = (⟨token.stop, errs, k⟩, .ok token) := by
  rw [nextToken_congr hl, ← ht]
  rfl

theorem stops_comma (r : Location) : Stops (byteOf ',' :: r) :=
  stops_byteOf (by decide) (by decide) (by decide) (by decide) (by decide)

theorem stops_arrayEnd (r : Location) : Stops (byteOf ']' :: r) :=
  stops_byteOf (by decide) (by decide) (by decide) (by decide) (by decide)

theorem stops_objectEnd (r : Location) : Stops (byteOf '}' :: r) :=
  stops_byteOf (by decide) (by decide) (by decide) (by decide) (by decide)

section Ends

variable {items : List Value} {members : List (List UInt8 × Value)} {next : Read (Value × Bool)} {l r : Location}
  {errs : List ErrorInfo} {k : ℕ}

theorem endItem_arrayEnd (hl : skipSpaces l = skipSpaces (byteOf ']' :: r)) :
    endItem items true next ⟨l, errs, k⟩ = (⟨r, errs, k⟩, .ok (.array items, true)) := by
  have htok : readToken (byteOf ']' :: r) = ⟨.arrayEnd, byteOf ']' :: r, r⟩ := rfl
  simp only [endItem, if_true]
  rw [Eff.bind_of_ok (nextTokenPastComments_of hl htok (show TokenType.arrayEnd ≠ .comment by decide)), if_neg (by simp),
    if_pos rfl]
  rfl

theorem endItem_separator (hl : skipSpaces l = skipSpaces (byteOf ',' :: r)) :
    endItem items true next ⟨l, errs, k⟩ = next ⟨r, errs, k⟩ := by
  have htok : readToken (byteOf ',' :: r) = ⟨.arraySeparator, byteOf ',' :: r, r⟩ := rfl
  simp only [endItem, if_true]
  rw [Eff.bind_of_ok (nextTokenPastComments_of hl htok (show TokenType.arraySeparator ≠ .comment by decide)),
    if_neg (by simp), if_neg (by simp)]

theorem endMember_objectEnd (hl : skipSpaces l = skipSpaces (byteOf '}' :: r)) :
    endMember members true next ⟨l, errs, k⟩ = (⟨r, errs, k⟩, .ok (.object members, true)) := by
  have htok : readToken (byteOf '}' :: r) = ⟨.objectEnd, byteOf '}' :: r, r⟩ := rfl
  simp only [endMember, if_true]
  rw [Eff.bind_of_ok (nextToken_of hl htok), if_neg (by simp), if_neg (by simp)]
  rfl

theorem endMember_separator (hl : skipSpaces l = skipSpaces (byteOf ',' :: r)) :
    endMember members true next ⟨l, errs, k⟩ = next ⟨r, errs, k⟩ := by
  have htok : readToken (byteOf ',' :: r) = ⟨.arraySeparator, byteOf ',' :: r, r⟩ := rfl
  simp only [endMember, if_true]
  rw [Eff.bind_of_ok (nextToken_of hl htok), if_neg (by simp), if_neg (by simp)]
  rfl

end Ends

/-- An item is read, and then what `endItem` comes to. -/
theorem readItems_item {x : Option Value} {result : Value → State × Outcome Exn (Value × Bool) → Prop} {n k : ℕ}
    {items : List Value} {l r : Location} {errs : List ErrorInfo} (h : ReadsValue toDouble depth x t)
    (hlen : items.length + t.length < 2 ^ 30) (hl : skipSpaces l = skipSpaces (t ++ r)) (hn : 2 * t.length ≤ n)
    (hr : Stops r) (hk : k ≤ stackLimit)
    (hend : ∀ a r', skipSpaces r' = skipSpaces r →
      result a (endItem (items ++ [a]) true (readItems toDouble n (items ++ [a])) ⟨r', errs, k⟩)) :
    Reads k depth x errs result (readItems toDouble (n + 1) items ⟨l, errs, k⟩) := by
  have hmax : ¬ maxInt ≤ (items.length : ℤ) := by
    have : maxInt = 2 ^ 31 - 1 := rfl
    omega
  rw [readItems, if_neg hmax]
  exact (h (by omega) n .null l r errs k hl hn hr hk).bind hend fun s' v => recovers s' _

theorem readsItems_one {x : Option Value} (h : ReadsValue toDouble depth x t) :
    ReadsItems toDouble depth (x.map fun v => [v]) t := by
  intro n items l r errs k hlen hl hn hk
  obtain ⟨n, rfl⟩ : ∃ m, n = m + 1 := ⟨n - 1, by omega⟩
  exact Reads.map (readItems_item h hlen hl (by omega) (stops_arrayEnd r) hk fun a r' hr' => endItem_arrayEnd hr')

theorem readsItems_cons {x : Option Value} {xs : Option (List Value)} {d : ℕ} (h : ReadsValue toDouble depth x t)
    (hs : ReadsItems toDouble d xs u) :
    ReadsItems toDouble (max depth d) (x.bind fun v => xs.map (v :: ·)) (t ++ byteOf ',' :: u) := by
  intro n items l r errs k hlen hl hn hk
  rw [List.length_append, List.length_cons] at hlen hn
  rw [List.append_assoc, List.cons_append] at hl
  obtain ⟨n, rfl⟩ : ∃ m, n = m + 1 := ⟨n - 1, by omega⟩
  refine Reads.seq (readItems_item h (by omega) hl (by omega) (stops_comma _) hk fun a r' hr' => ?_)
  have hlen' : (items ++ [a]).length + u.length < 2 ^ 30 := by
    rw [List.length_append, List.length_singleton]
    omega
  rw [endItem_separator hr']
  refine (hs n (items ++ [a]) _ r errs k hlen' rfl (by omega) hk).imp fun ys _ _ hy => ?_
  rw [hy, List.append_assoc, List.singleton_append]

theorem peek_cons_ne {c : Char} (t : List Char) (r : Location) (hc : c.toNat < 128)
    (h : c ≠ ' ' ∧ c ≠ '\t' ∧ c ≠ '\r' ∧ c ≠ '\n' ∧ c ≠ ']') : peek (skipSpaces (utf8 (c :: t) ++ r)) ≠ ']' := by
  rw [utf8_cons_of_lt hc, List.cons_append, skipSpaces, if_neg (by rw [charOf_byteOf hc]; tauto)]
  show charOf (byteOf c) ≠ ']'
  rw [charOf_byteOf hc]
  exact h.2.2.2.2

/-- The text of a value does not begin like the end of an array. -/
theorem Denotes.peek_ne : {v : Tree} → {t : List Char} → Denotes v t → (r : Location) →
    peek (skipSpaces (utf8 t ++ r)) ≠ ']'
  | _, _, .null, r => peek_cons_ne _ r (by decide) (by decide)
  | _, _, .true, r => peek_cons_ne _ r (by decide) (by decide)
  | _, _, .false, r => peek_cons_ne _ r (by decide) (by decide)
  | _, _, .number ⟨_, _, _, .inr ⟨_, _, ha⟩, _, _, ht⟩, r => by
    subst ha ht
    exact peek_cons_ne _ r (by decide) (by decide)
  | _, _, .number ⟨_, _, _, .inl ha, _, _, ht⟩, r => by
    subst ht
    obtain ⟨d, a, rfl⟩ := List.exists_cons_of_ne_nil ha.1.1
    have hd := ha.1.2 d List.mem_cons_self
    refine peek_cons_ne _ r (Digits.ascii hd) ?_
    refine ⟨?_, ?_, ?_, ?_, ?_⟩ <;> rintro rfl <;> exact absurd hd (by decide)
  | _, _, .string _, r => peek_cons_ne _ r (by decide) (by decide)
  | _, _, .array _, r => peek_cons_ne _ r (by decide) (by decide)
  | _, _, .object _, r => peek_cons_ne _ r (by decide) (by decide)
  | _, _, .ws ha _ h, r => by
    rw [utf8_append, utf8_append, List.append_assoc, List.append_assoc, skipSpaces_ws ha]
    exact Denotes.peek_ne h _

theorem readsBefore_array {xs : Option (List Value)} (h : ReadsItems toDouble depth xs t)
    (hne : ∀ r, peek (skipSpaces (t ++ r)) ≠ ']') :
    ReadsBefore toDouble stops (depth + 1) (xs.map .array) (byteOf '[' :: t ++ [byteOf ']']) := by
  refine readsBefore_of_token (by simp) fun hlen n v r errs k hn hr hk => ?_
  simp only [List.cons_append, List.length_cons, List.length_append, List.length_nil] at hlen hn
  have htok : readToken (byteOf '[' :: t ++ [byteOf ']'] ++ r) =
    ⟨.arrayBegin, byteOf '[' :: t ++ [byteOf ']'] ++ r, t ++ [byteOf ']'] ++ r⟩ := rfl
  rw [htok]
  refine Reads.leave (Reads.map ?_)
  show Reads _ _ _ _ _ ((if peek (skipSpaces (t ++ [byteOf ']'] ++ r)) = ']' then _ else readItems toDouble n [])
    ⟨skipSpaces (t ++ [byteOf ']'] ++ r), errs, k + 1⟩)
  rw [List.append_assoc, List.singleton_append, if_neg (hne _)]
  have hlen' : ([] : List Value).length + t.length < 2 ^ 30 := by
    rw [List.length_nil]
    omega
  refine (h n [] _ r errs (k + 1) hlen' (skipSpaces_skipSpaces _) (by omega) hk).imp fun ys _ _ hy => ?_
  exact ⟨r, rfl, hy⟩

theorem readsBefore_emptyArray {t : List Char} (h : Ws t) :
    ReadsBefore toDouble stops 1 (some (.array [])) (byteOf '[' :: utf8 t ++ [byteOf ']']) := by
  refine readsBefore_of_token (by simp) fun hlen n v r errs k hn hr hk => ?_
  have htok : readToken (byteOf '[' :: utf8 t ++ [byteOf ']'] ++ r) =
    ⟨.arrayBegin, byteOf '[' :: utf8 t ++ [byteOf ']'] ++ r, utf8 t ++ [byteOf ']'] ++ r⟩ := rfl
  have hspaces : skipSpaces (utf8 t ++ [byteOf ']'] ++ r) = byteOf ']' :: r := by
    rw [List.append_assoc, skipSpaces_ws h]
    rfl
  have hread : readArray (readItems toDouble n []) ⟨utf8 t ++ [byteOf ']'] ++ r, errs, k + 1⟩ =
      (⟨r, errs, k + 1⟩, .ok (.array [], true)) := by
    show (if peek (skipSpaces _) = ']' then nextToken >>= fun _ => pure (Value.array [], true) else _)
      ⟨skipSpaces _, errs, k + 1⟩ = _
    rw [hspaces, if_pos (show peek (byteOf ']' :: r) = ']' from rfl)]
    rfl
  rw [htok]
  exact ⟨fun _ => ⟨r, rfl, Eff.bind_of_ok hread _⟩, fun hd => absurd hd (by omega)⟩

/-! ## Objects -/

theorem czString_eq {name : List UInt8} (h : name.length < 2 ^ 30) : czString name = name := by
  have hmod : name.length &&& 0x3FFFFFFF = name.length % 2 ^ 30 := Nat.and_two_pow_sub_one_eq_mod _ 30
  rw [czString, hmod, Nat.mod_eq_of_lt h, List.take_length]

/-- The characters of a string are at least as long as what they stand for. -/
theorem Chars.length_le {s t : List Char} (h : Chars s t) : (utf8 s).length ≤ (utf8 t).length := by
  induction h with
  | nil => exact Nat.le_refl _
  | char _ _ _ _ ih =>
    simp only [utf8_cons, List.length_append]
    omega
  | @escape c e s t he _ ih =>
    have hall : ∀ p ∈ escapes, p.1.toNat < 128 ∧ p.2.toNat < 128 := by decide
    rw [utf8_cons_of_lt (c := '\\') (by decide), utf8_cons_of_lt (c := e) (hall _ he).1, utf8_cons_of_lt (c := c) (hall _ he).2]
    simp only [List.length_cons]
    omega
  | @unicode a b c d n s t hn _ _ ih =>
    have hle := length_utf8EncodeChar_le (Char.ofNat n)
    rw [utf8_cons_of_lt (c := '\\') (by decide), utf8_cons_of_lt (c := 'u') (by decide), (utf8_hex4 hn t).1, utf8_cons]
    simp only [List.length_cons, List.length_append, List.length_nil]
    omega
  | @surrogates a b c d a' b' c' d' n n' s t hn hn' _ _ _ ih =>
    have hle := length_utf8EncodeChar_le (Char.ofNat (0x10000 + (n - 0xD800) * 1024 + (n' - 0xDC00)))
    rw [utf8_cons_of_lt (c := '\\') (by decide), utf8_cons_of_lt (c := 'u') (by decide), (utf8_hex4 hn _).1,
      utf8_cons_of_lt (c := '\\') (by decide), utf8_cons_of_lt (c := 'u') (by decide), (utf8_hex4 hn' t).1, utf8_cons]
    simp only [List.length_cons, List.length_append, List.length_nil]
    omega

theorem readsMember {s c a b : List Char} {x : Option Value} {t : List Char} (ha : Ws a) (hb : Ws b) (hc : Chars s c)
    (h : ReadsValue toDouble depth x (utf8 t)) :
    ReadsMember toDouble depth (x.map fun v => (utf8 s, v)) (utf8 (a ++ '"' :: c ++ '"' :: b ++ ':' :: t)) := by
  have htext : utf8 (a ++ '"' :: c ++ '"' :: b ++ ':' :: t) =
      utf8 a ++ (byteOf '"' :: utf8 c ++ byteOf '"' :: (utf8 b ++ byteOf ':' :: utf8 t)) := by
    simp only [utf8_append, utf8_cons_of_lt (show '"'.toNat < 128 by decide),
      utf8_cons_of_lt (show ':'.toNat < 128 by decide), List.cons_append, List.append_assoc]
  rw [htext]
  intro hlen n name members l r errs k hl hn hr hk
  simp only [List.length_append, List.length_cons] at hlen hn
  have hl : skipSpaces l = skipSpaces (byteOf '"' :: utf8 c ++ byteOf '"' :: (utf8 b ++ byteOf ':' :: (utf8 t ++ r))) := by
    rw [hl, List.append_assoc, skipSpaces_ws ha]
    simp only [List.cons_append, List.append_assoc]
  have htok := readToken_string (r := utf8 b ++ byteOf ':' :: (utf8 t ++ r)) hc
  have hcolon : readToken (byteOf ':' :: (utf8 t ++ r)) = ⟨.memberSeparator, byteOf ':' :: (utf8 t ++ r), utf8 t ++ r⟩ := rfl
  have hkey : czString (utf8 s) = utf8 s := by
    have := Chars.length_le hc
    exact czString_eq (by omega)
  rw [readObject, Eff.bind_of_ok (nextTokenPastComments_of hl htok (show TokenType.string ≠ .comment by decide)),
    if_neg (by simp), if_pos rfl, readName, decodeString_chars hc]
  simp only
  rw [Eff.bind_of_ok (nextToken_of (skipSpaces_ws hb) hcolon), if_neg (by simp), hkey]
  refine Reads.map ?_
  exact (h (by omega) n _ (utf8 t ++ r) r errs k rfl (by omega) hr hk).bind (fun v r' hr' => ⟨r', hr', rfl⟩)
    fun s' v => recovers s' _

theorem readsMembers_one {m : Option (List UInt8 × Value)} (h : ReadsMember toDouble depth m t) :
    ReadsMembers toDouble depth (m.map fun p => [p]) t := by
  intro hlen n name members l r errs k hl hn hk
  obtain ⟨n, rfl⟩ : ∃ m, n = m + 1 := ⟨n - 1, by omega⟩
  refine Reads.map ((h hlen n name members l _ errs k hl (by omega) (stops_objectEnd r) hk).imp fun p _ _ hp => ?_)
  obtain ⟨r', hr', hy⟩ := hp
  rw [hy, endMember_objectEnd hr']
  rfl

theorem readsMembers_cons {m : Option (List UInt8 × Value)} {ms : Option (List (List UInt8 × Value))} {d : ℕ}
    (h : ReadsMember toDouble depth m t) (hs : ReadsMembers toDouble d ms u) :
    ReadsMembers toDouble (max depth d) (m.bind fun p => ms.map (p :: ·)) (t ++ byteOf ',' :: u) := by
  intro hlen n name members l r errs k hl hn hk
  rw [List.length_append, List.length_cons] at hlen hn
  rw [List.append_assoc, List.cons_append] at hl
  obtain ⟨n, rfl⟩ : ∃ m, n = m + 1 := ⟨n - 1, by omega⟩
  refine Reads.seq ((h (by omega) n name members l _ errs k hl (by omega) (stops_comma _) hk).imp fun p _ _ hp => ?_)
  obtain ⟨r', hr', hy⟩ := hp
  rw [hy, endMember_separator hr']
  exact hs (by omega) n _ _ _ r errs k rfl (by omega) hk

theorem readsBefore_object {ms : Option (List (List UInt8 × Value))} (h : ReadsMembers toDouble depth ms t) :
    ReadsBefore toDouble stops (depth + 1) (ms.map fun ps => .object (insertMembers [] ps))
      (byteOf '{' :: t ++ [byteOf '}']) := by
  refine readsBefore_of_token (by simp) fun hlen n v r errs k hn hr hk => ?_
  simp only [List.cons_append, List.length_cons, List.length_append, List.length_nil] at hlen hn
  have htok : readToken (byteOf '{' :: t ++ [byteOf '}'] ++ r) =
    ⟨.objectBegin, byteOf '{' :: t ++ [byteOf '}'] ++ r, t ++ [byteOf '}'] ++ r⟩ := rfl
  rw [htok]
  refine Reads.leave (Reads.map ?_)
  have hl : skipSpaces (t ++ [byteOf '}'] ++ r) = skipSpaces (t ++ byteOf '}' :: r) := by
    rw [List.append_assoc, List.singleton_append]
  exact (h (by omega) n [] [] _ r errs (k + 1) hl (by omega) hk).imp fun ps _ _ hy => ⟨r, rfl, hy⟩

theorem readsBefore_emptyObject {t : List Char} (h : Ws t) : ReadsBefore toDouble stops 1 (some (.object []))
    (byteOf '{' :: utf8 t ++ [byteOf '}']) := by
  refine readsBefore_of_token (by simp) fun hlen n v r errs k hn hr hk => ?_
  simp only [List.cons_append, List.length_cons, List.length_append, List.length_nil] at hn
  obtain ⟨n, rfl⟩ : ∃ m, n = m + 1 := ⟨n - 1, by omega⟩
  have htok : readToken (byteOf '{' :: utf8 t ++ [byteOf '}'] ++ r) =
    ⟨.objectBegin, byteOf '{' :: utf8 t ++ [byteOf '}'] ++ r, utf8 t ++ [byteOf '}'] ++ r⟩ := rfl
  have hend : readToken (byteOf '}' :: r) = ⟨.objectEnd, byteOf '}' :: r, r⟩ := rfl
  have hspaces : skipSpaces (utf8 t ++ [byteOf '}'] ++ r) = skipSpaces (byteOf '}' :: r) := by
    rw [List.append_assoc, skipSpaces_ws h]
    rfl
  have hread : readObject toDouble (n + 1) [] [] ⟨utf8 t ++ [byteOf '}'] ++ r, errs, k + 1⟩ =
      (⟨r, errs, k + 1⟩, .ok (.object [], true)) := by
    rw [readObject, Eff.bind_of_ok (nextTokenPastComments_of hspaces hend (show TokenType.objectEnd ≠ .comment by decide)),
      if_pos ⟨rfl, rfl⟩]
    rfl
  rw [htok]
  exact ⟨fun _ => ⟨r, rfl, Eff.bind_of_ok hread _⟩, fun hd => absurd hd (by omega)⟩

/-! ## The texts of the grammar -/

theorem utf8_comma (t u : List Char) : utf8 (t ++ ',' :: u) = utf8 t ++ byteOf ',' :: utf8 u := by
  rw [utf8_append, utf8_cons_of_lt (by decide)]

theorem treeValues_one (v : Tree) : treeValues toDouble [v] = (treeValue toDouble v).map fun x => [x] := by
  rw [treeValues, treeValues]
  cases treeValue toDouble v <;> rfl

theorem memberTreeValues_one (m : List Char × Tree) :
    memberTreeValues toDouble [m] = (memberTreeValue toDouble m).map fun p => [p] := by
  rw [memberTreeValues, memberTreeValues]
  cases memberTreeValue toDouble m <;> rfl

theorem Elements.readsBefore {vs : List Tree} {t : List Char} (h : Elements vs t)
    (hs : vs ≠ [] → ReadsItems toDouble (treeDepths vs) (treeValues toDouble vs) (utf8 t)) :
    ReadsBefore toDouble stops (treeDepths vs + 1) ((treeValues toDouble vs).map .array) (utf8 ('[' :: t ++ [']'])) := by
  rw [utf8_bracketed (by decide) (by decide)]
  cases h with
  | nil h => exact readsBefore_emptyArray h
  | one h => exact readsBefore_array (hs (by simp)) (Denotes.peek_ne h)
  | cons h _ =>
    refine readsBefore_array (hs (by simp)) fun r => ?_
    rw [utf8_append, List.append_assoc]
    exact Denotes.peek_ne h _

theorem Members.readsBefore {ms : List (List Char × Tree)} {t : List Char} (h : Members ms t)
    (hs : ms ≠ [] → ReadsMembers toDouble (memberTreeDepths ms) (memberTreeValues toDouble ms) (utf8 t)) :
    ReadsBefore toDouble stops (memberTreeDepths ms + 1)
      ((memberTreeValues toDouble ms).map fun ps => .object (insertMembers [] ps)) (utf8 ('{' :: t ++ ['}'])) := by
  rw [utf8_bracketed (by decide) (by decide)]
  cases h with
  | nil h => exact readsBefore_emptyObject h
  | one h => exact readsBefore_object (hs (by simp))
  | cons h _ => exact readsBefore_object (hs (by simp))

mutual

/-- **The value of a JSON text is read.** -/
theorem Denotes.reads : {v : Tree} → {t : List Char} → Denotes v t →
    ReadsValue toDouble (treeDepth v) (treeValue toDouble v) (utf8 t)
  | _, _, .null => readsValue_null
  | _, _, .true => readsValue_true
  | _, _, .false => readsValue_false
  | _, _, .number h => readsValue_number h
  | _, _, .string h => readsValue_string h
  | _, _, .array h => Elements.readsBefore h (Elements.reads h)
  | _, _, .object h => Members.readsBefore h (Members.reads h)
  | _, _, .ws ha hb h => readsBefore_ws ha hb (fun _ => stops_ws hb) (Denotes.reads h)

theorem Elements.reads : {vs : List Tree} → {t : List Char} → Elements vs t → vs ≠ [] →
    ReadsItems toDouble (treeDepths vs) (treeValues toDouble vs) (utf8 t)
  | _, _, .nil _, hne => absurd rfl hne
  | _, _, .one h, _ => by
    rw [treeValues_one, treeDepths, treeDepths, Nat.max_zero]
    exact readsItems_one (Denotes.reads h)
  | _, _, .cons h hs, _ => by
    rw [utf8_comma, treeDepths, treeValues]
    exact readsItems_cons (Denotes.reads h) (Elements.reads hs (List.cons_ne_nil _ _))

theorem Members.reads : {ms : List (List Char × Tree)} → {t : List Char} → Members ms t → ms ≠ [] →
    ReadsMembers toDouble (memberTreeDepths ms) (memberTreeValues toDouble ms) (utf8 t)
  | _, _, .nil _, hne => absurd rfl hne
  | _, _, .one h, _ => by
    rw [memberTreeValues_one, memberTreeDepths, memberTreeDepths, Nat.max_zero]
    exact readsMembers_one (Member.reads h)
  | _, _, .cons h hs, _ => by
    rw [utf8_comma, memberTreeDepths, memberTreeValues]
    exact readsMembers_cons (Member.reads h) (Members.reads hs (List.cons_ne_nil _ _))

theorem Member.reads : {m : List Char × Tree} → {t : List Char} → Member m t →
    ReadsMember toDouble (memberTreeDepth m) (memberTreeValue toDouble m) (utf8 t)
  | _, _, .mk ha hb hk h => readsMember ha hb hk (Denotes.reads h)

end

/-- The text is an array or an object. -/
def isContainer : Tree → Bool
  | .array _ => true
  | .object _ => true
  | _ => false

theorem Denotes.reads_container : {v : Tree} → {t : List Char} → Denotes v t → isContainer v = true →
    ReadsBefore toDouble (fun _ => True) (treeDepth v) (treeValue toDouble v) (utf8 t)
  | _, _, .array h, _ => Elements.readsBefore h (Elements.reads h)
  | _, _, .object h, _ => Members.readsBefore h (Members.reads h)
  | _, _, .ws ha hb h, hv => readsBefore_ws ha hb (fun _ => id) (Denotes.reads_container h hv)

theorem treeValue_isContainer {v : Tree} {x : Value} (hv : isContainer v = true) (hx : treeValue toDouble v = some x) :
    x.isContainer = true := by
  cases v with
  | array items =>
    obtain ⟨xs, -, rfl⟩ := Option.map_eq_some_iff.1 hx
    rfl
  | object members =>
    obtain ⟨ms, -, rfl⟩ := Option.map_eq_some_iff.1 hx
    rfl
  | _ => cases hv

/-! ## Documents -/

/-- The root of a document that begins with a JSON text. -/
theorem readValue_root (toDouble : List UInt8 → Option ℚ) {v : Tree} {t : List Char} (h : Denotes v t)
    (hv : isContainer v = true) (hlen : (utf8 t).length < 2 ^ 30) (rest : List UInt8) :
    Reads 0 (treeDepth v) (treeValue toDouble v) [] (fun a y => ∃ r, skipSpaces r = skipSpaces rest ∧
        y = (⟨r, [], 0⟩, .ok (a, true)))
      (readValue toDouble (2 * (utf8 t ++ rest).length + 1) .null ⟨utf8 t ++ rest, [], 0⟩) := by
  refine Denotes.reads_container h hv hlen _ .null _ rest [] 0 rfl ?_ trivial (Nat.zero_le _)
  rw [List.length_append]
  omega

theorem parse_denotes {v : Tree} {t : List Char} (h : Denotes v t) (hv : isContainer v = true)
    (hlen : (utf8 t).length < 2 ^ 30) (hdepth : treeDepth v ≤ stackLimit) {x : Value} (hx : treeValue toDouble v = some x)
    (rest : List UInt8) : parse toDouble (utf8 t ++ rest) = .ok (x, true, []) := by
  have hread := readValue_root toDouble h hv hlen rest
  rw [hx] at hread
  obtain ⟨r, -, hr⟩ := hread.1 (by omega)
  rw [parse_of_ok hr, if_pos (treeValue_isContainer hv hx)]

/-- **A JSON text is parsed to what it stands for**, whatever comes after it: an array or an object within the limit of the
stack, where every number that is no integer of 64 bits is converted.  If one is not, `parse` returns false for it. -/
theorem parse_json {v : Tree} {t : List Char} (h : Denotes v t) (hv : isContainer v = true)
    (hlen : (utf8 t).length < 2 ^ 30) (hdepth : treeDepth v ≤ stackLimit) (rest : List UInt8) :
    (∀ x, treeValue toDouble v = some x → parse toDouble (utf8 t ++ rest) = .ok (x, true, [])) ∧
      (treeValue toDouble v = none →
        ∃ root token errors, parse toDouble (utf8 t ++ rest) = .ok (root, false, notANumber token :: errors)) := by
  refine ⟨fun x hx => parse_denotes h hv hlen hdepth hx rest, fun hx => ?_⟩
  have hread := readValue_root toDouble h hv hlen rest
  rw [hx] at hread
  obtain ⟨s', root, token, hr, herr⟩ := hread (by omega)
  rw [parse_of_ok hr, herr]
  by_cases hroot : root.isContainer = true
  · rw [if_pos hroot]
    exact ⟨root, token, [], rfl⟩
  · rw [if_neg hroot]
    exact ⟨root, token, _, rfl⟩

theorem natural_one : Natural ['1'] := ⟨⟨by simp, List.forall_mem_singleton.2 rfl⟩, nofun⟩

/-- An array of one number, and a brace after it. -/
theorem parse_json_one : parse (fun _ => none) (utf8 ['[', '1', ']'] ++ [byteOf '}']) = .ok (.array [.int 1], true, []) :=
  (parse_json (.array (.one (.number (Integer.number (.inl natural_one))))) rfl (by decide) (by decide) [byteOf '}']).1 _ rfl

/-- **A JSON text that is nested deeper than the limit of the stack** throws. -/
theorem parse_deep {v : Tree} {t : List Char} (h : Denotes v t) (hv : isContainer v = true)
    (hlen : (utf8 t).length < 2 ^ 30) (hdepth : stackLimit < treeDepth v) {x : Value}
    (hx : treeValue toDouble v = some x) (rest : List UInt8) :
    parse toDouble (utf8 t ++ rest) = .thrown stackLimitExceeded := by
  have hread := readValue_root toDouble h hv hlen rest
  rw [hx] at hread
  obtain ⟨s', hr⟩ := hread.2 (by omega)
  exact parse_of_thrown hr

/-- `n` arrays in an empty one. -/
def nestedTree : ℕ → Tree
  | 0 => .array []
  | n + 1 => .array [nestedTree n]

def nestedText : ℕ → List Char
  | 0 => ['[', ']']
  | n + 1 => '[' :: nestedText n ++ [']']

theorem nestedTree_denotes (n : ℕ) : Denotes (nestedTree n) (nestedText n) := by
  induction n with
  | zero => exact .array (.nil ws_nil)
  | succ n ih => exact .array (.one ih)

theorem treeDepth_nestedTree (n : ℕ) : treeDepth (nestedTree n) = n + 1 := by
  induction n with
  | zero => rfl
  | succ n ih =>
    rw [nestedTree, treeDepth, treeDepths, treeDepths, ih]
    omega

theorem treeValue_nestedTree (n : ℕ) : ∃ x, treeValue toDouble (nestedTree n) = some x := by
  induction n with
  | zero => exact ⟨_, rfl⟩
  | succ n ih =>
    obtain ⟨x, hx⟩ := ih
    exact ⟨.array [x], by rw [nestedTree, treeValue, treeValues_one, hx]; rfl⟩

theorem length_nestedText (n : ℕ) : (utf8 (nestedText n)).length = 2 * n + 2 := by
  induction n with
  | zero => rfl
  | succ n ih =>
    rw [nestedText, utf8_bracketed (by decide) (by decide)]
    simp only [List.cons_append, List.length_cons, List.length_append, ih, List.length_nil]
    omega

/-- A thousand arrays in an array. -/
theorem parse_deep_nested : parse (fun _ => none) (utf8 (nestedText 1000) ++ []) = .thrown stackLimitExceeded :=
  (treeValue_nestedTree 1000).elim fun _ hx =>
    parse_deep (nestedTree_denotes 1000) rfl (by rw [length_nestedText]; decide)
      (by rw [treeDepth_nestedTree]; decide) hx []

end Descent

end Nessus.Parser.Reader
