import Nessus.Parser.FrameMap
import Nessus.Parser.ReaderComplete

/-!
# Written and read again

What `FastWriter` writes, as `Json::Reader` reads it.

* `treeValue_tree` — the value of the text of a value: the same, up to how its numbers are kept;
* `parse_write` — **what is written is read back**;
* `requestMap_params` — so the parameters of a request reach the plugin as they were.
-/

namespace Nessus.Parser.Reader

open Nessus.Lib Nessus.Lib.Json Nessus.Abi

/-! ## Values as the reader keeps them -/

mutual

/-- The value with the bytes of its strings. -/
def ofJson : Json → Value
  | .null => .null
  | .int i => .int i
  | .uint u => .uint u
  | .real q => .real q
  | .string s => .string (utf8 s.toList)
  | .bool b => .bool b
  | .array items => .array (ofJsons items)
  | .object members => .object (ofMembers members)
termination_by structural v => v

def ofJsons : List Json → List Value
  | [] => []
  | v :: vs => ofJson v :: ofJsons vs
termination_by structural vs => vs

def ofMembers : List (String × Json) → List (List UInt8 × Value)
  | [] => []
  | m :: ms => ofMember m :: ofMembers ms
termination_by structural ms => ms

def ofMember : String × Json → List UInt8 × Value
  | (name, v) => (utf8 name.toList, ofJson v)
termination_by structural m => m

end

mutual

/-- The value with its numbers as numbers, however they are kept. -/
def Value.numeric : Value → Value
  | .int i => .real i.toInt
  | .uint u => .real u.toNat
  | .array items => .array (Value.numerics items)
  | .object members => .object (Value.numericMembers members)
  | v => v
termination_by structural v => v

def Value.numerics : List Value → List Value
  | [] => []
  | v :: vs => v.numeric :: Value.numerics vs
termination_by structural vs => vs

def Value.numericMembers : List (List UInt8 × Value) → List (List UInt8 × Value)
  | [] => []
  | m :: ms => Value.numericMember m :: Value.numericMembers ms
termination_by structural ms => ms

def Value.numericMember : List UInt8 × Value → List UInt8 × Value
  | (name, v) => (name, v.numeric)
termination_by structural m => m

end

/-! ## Numbers -/

theorem integerValue_uintToString (n : ℕ) : integerValue (uintToString n) = some (n : ℤ) := by
  obtain ⟨⟨hne, hd⟩, -⟩ := uintToString_natural n
  have hhead : (uintToString n).head? ≠ some '-' := by
    intro h
    have := hd '-' (List.mem_of_mem_head? h)
    exact absurd this (by decide)
  rw [integerValue, if_neg hhead, if_pos (List.all_eq_true.2 hd), uintToString, Nat.ofDigitChars_ten_toDigits]

theorem integerValue_neg_uintToString (n : ℕ) : integerValue ('-' :: uintToString n) = some (-(n : ℤ)) := by
  obtain ⟨⟨-, hd⟩, -⟩ := uintToString_natural n
  rw [integerValue_neg, if_pos (List.all_eq_true.2 hd), uintToString, Nat.ofDigitChars_ten_toDigits]

theorem integerValue_valueToStringInt (i : Int64) : integerValue (valueToStringInt i) = some i.toInt := by
  unfold valueToStringInt
  split_ifs with hmin hneg
  · rw [integerValue_neg_uintToString, hmin]
    rfl
  · have hlt : i.toInt < 0 := Int64.lt_iff_toInt_lt.1 hneg
    have hlo : i.toInt ≠ -2 ^ 63 := fun h => hmin (Int64.toInt_inj.1 h)
    have hle := i.le_toInt
    have hneg : (-i).toInt = -i.toInt := by
      rw [← Int64.ofInt_toInt i, Int64.neg_ofInt, Int64.toInt_ofInt_of_le (by omega) (by omega), Int64.ofInt_toInt]
    rw [integerValue_neg_uintToString, hneg, Int.toNat_of_nonneg (by omega), neg_neg]
  · have hle : 0 ≤ i.toInt := Int.not_lt.1 fun h => hneg (Int64.lt_iff_toInt_lt.2 h)
    rw [integerValue_uintToString, Int.toNat_of_nonneg hle]

theorem numeric_ofInteger {i : ℤ} (hi : -2 ^ 63 ≤ i ∧ i < 2 ^ 64) : (Value.ofInteger i).numeric = .real i := by
  have hmax : maxInt = 2 ^ 31 - 1 := rfl
  unfold Value.ofInteger
  split_ifs with h
  · rw [Value.numeric, Int64.toInt_ofInt_of_le (by omega) (by omega)]
  · rw [Value.numeric, UInt64.toNat_ofNat_of_lt' (by simp only [UInt64.size]; omega)]
    have hcast : ((i.toNat : ℤ) : ℚ) = i := congrArg _ (Int.toNat_of_nonneg (by omega))
    rw [← hcast, Int.cast_natCast]

section Numbers

variable {toDouble : List UInt8 → Option ℚ} {t : List Char} {i : ℤ}

theorem numberValue_integer (toDouble : List UInt8 → Option ℚ) (h : integerValue t = some i)
    (hi : -2 ^ 63 ≤ i ∧ i < 2 ^ 64) :
    ∃ w, numberValue toDouble t = some w ∧ w.numeric = .real i := by
  refine ⟨.ofInteger i, ?_, numeric_ofInteger hi⟩
  simp only [numberValue, h, if_pos hi]

theorem numberValue_real {q : ℚ} (ht : toDouble (utf8 t) = some q) (hi : ∀ i, integerValue t = some i → q = i) :
    ∃ w, numberValue toDouble t = some w ∧ w.numeric = .real q := by
  have hreal : ∃ w, (toDouble (utf8 t)).map Value.real = some w ∧ w.numeric = .real q := ⟨.real q, by rw [ht]; rfl, rfl⟩
  cases h : integerValue t with
  | none =>
    simp only [numberValue, h]
    exact hreal
  | some i =>
    by_cases hr : -2 ^ 63 ≤ i ∧ i < 2 ^ 64
    · rw [hi i h]
      exact numberValue_integer toDouble h hr
    · simp only [numberValue, h, if_neg hr]
      exact hreal

end Numbers

/-! ## Members in order -/

section Members

variable {members ms : List (List UInt8 × Value)}

theorem insertMember_last {key : List UInt8} {value : Value} (h : ∀ m ∈ members, m.1 < key) :
    insertMember key value members = members ++ [(key, value)] := by
  induction members with
  | nil => rfl
  | cons m ms ih =>
    have hm : m.1 < key := h m (List.mem_cons_self ..)
    have hne : key ≠ m.1 := fun he => List.lt_irrefl _ (he ▸ hm)
    rw [insertMember, if_neg hne, if_neg (List.lt_asymm hm), ih fun m' hm' => h m' (List.mem_cons_of_mem _ hm')]
    rfl

theorem insertMembers_append (h : (members ++ ms).Pairwise fun m m' => m.1 < m'.1) :
    insertMembers members ms = members ++ ms := by
  induction ms generalizing members with
  | nil => rw [insertMembers, List.append_nil]
  | cons m ms ih =>
    have hlast : ∀ m' ∈ members, m'.1 < m.1 := fun m' hm' =>
      (List.pairwise_append.1 h).2.2 m' hm' m (List.mem_cons_self ..)
    rw [List.append_cons] at h
    rw [insertMembers, insertMember_last hlast, ih h, ← List.append_cons]

theorem numericMember_fst (m : List UInt8 × Value) : (Value.numericMember m).1 = m.1 := by cases m; rfl

theorem numericMembers_keys (ms : List (List UInt8 × Value)) : (Value.numericMembers ms).map (·.1) = ms.map (·.1) := by
  induction ms with
  | nil => rfl
  | cons m ms ih => rw [Value.numericMembers, List.map_cons, List.map_cons, ih, numericMember_fst]

theorem pairwise_keys {ms' : List (List UInt8 × Value)} (hkeys : ms.map (·.1) = ms'.map (·.1))
    (h : ms'.Pairwise fun m m' => m.1 < m'.1) : ms.Pairwise fun m m' => m.1 < m'.1 := by
  rw [← List.pairwise_map (f := fun m : List UInt8 × Value => m.1) (R := (· < ·))] at h ⊢
  rwa [hkeys]

end Members

/-! ## The text of a value -/

section RoundTrip

variable {toDouble : List UInt8 → Option ℚ} {snprintf : ℚ → List Char}

/-- `%.17g` and `>>` are exact: the text of a real that was read is read as that real, and is the text of an integer only
for that integer. -/
structure ExactReals (toDouble : List UInt8 → Option ℚ) (snprintf : ℚ → List Char) : Prop where
  number : ∀ q, Number (snprintf q)
  exact : ∀ t q, toDouble t = some q → toDouble (utf8 (snprintf q)) = some q
  integer : ∀ q i, integerValue (snprintf q) = some i → q = i

mutual

/-- **The text of a canonical value stands for it**, up to how its numbers are kept. -/
theorem treeValue_tree (hreal : ExactReals toDouble snprintf) : (v : Json) → (ofJson v).Canonical toDouble →
    ∃ w, treeValue toDouble (v.tree snprintf) = some w ∧ w.numeric = (ofJson v).numeric
  | .null, _ => ⟨_, rfl, rfl⟩
  | .int i, _ =>
    numberValue_integer toDouble (integerValue_valueToStringInt i) ⟨i.le_toInt, i.toInt_lt.trans (by decide)⟩
  | .uint u, _ => by
    have hu := u.toNat_lt
    obtain ⟨w, hw, hn⟩ := numberValue_integer toDouble (integerValue_uintToString u.toNat) (by omega)
    exact ⟨w, hw, hn.trans (congrArg Value.real (Int.cast_natCast _))⟩
  | .real q, h => by
    obtain ⟨t, ht⟩ := h
    exact numberValue_real (hreal.exact t q ht) (hreal.integer q)
  | .string _, _ => ⟨_, rfl, rfl⟩
  | .bool _, _ => ⟨_, rfl, rfl⟩
  | .array items, h => by
    obtain ⟨ws, hws, hn⟩ := treeValues_trees hreal items h
    exact ⟨.array ws, by rw [Json.tree, treeValue, hws]; rfl, congrArg Value.array hn⟩
  | .object members, h => by
    obtain ⟨ws, hws, hn⟩ := memberTreeValues_memberTrees hreal members h.2
    have hkeys := congrArg (List.map (·.1)) hn
    rw [numericMembers_keys, numericMembers_keys] at hkeys
    have hins : insertMembers [] ws = ws := insertMembers_append (pairwise_keys hkeys h.1)
    exact ⟨.object ws, by rw [Json.tree, treeValue, hws, Option.map_some, hins], congrArg Value.object hn⟩
termination_by structural v => v

theorem treeValues_trees (hreal : ExactReals toDouble snprintf) : (vs : List Json) →
    Value.CanonicalItems toDouble (ofJsons vs) →
    ∃ ws, treeValues toDouble (Json.trees snprintf vs) = some ws ∧ Value.numerics ws = Value.numerics (ofJsons vs)
  | [], _ => ⟨[], rfl, rfl⟩
  | v :: vs, h => by
    obtain ⟨w, hw, hn⟩ := treeValue_tree hreal v h.1
    obtain ⟨ws, hws, hns⟩ := treeValues_trees hreal vs h.2
    exact ⟨w :: ws, by rw [Json.trees, treeValues, hw, hws]; rfl, congrArg₂ List.cons hn hns⟩
termination_by structural vs => vs

theorem memberTreeValues_memberTrees (hreal : ExactReals toDouble snprintf) : (ms : List (String × Json)) →
    Value.CanonicalMembers toDouble (ofMembers ms) →
    ∃ ws, memberTreeValues toDouble (Json.memberTrees snprintf ms) = some ws ∧
      Value.numericMembers ws = Value.numericMembers (ofMembers ms)
  | [], _ => ⟨[], rfl, rfl⟩
  | m :: ms, h => by
    obtain ⟨w, hw, hn⟩ := memberTreeValue_memberTree hreal m h.1
    obtain ⟨ws, hws, hns⟩ := memberTreeValues_memberTrees hreal ms h.2
    exact ⟨w :: ws, by rw [Json.memberTrees, memberTreeValues, hw, hws]; rfl, congrArg₂ List.cons hn hns⟩
termination_by structural ms => ms

theorem memberTreeValue_memberTree (hreal : ExactReals toDouble snprintf) : (m : String × Json) →
    Value.CanonicalMember toDouble (ofMember m) →
    ∃ w, memberTreeValue toDouble (Json.memberTree snprintf m) = some w ∧
      Value.numericMember w = Value.numericMember (ofMember m)
  | (name, v), h => by
    obtain ⟨w, hw, hn⟩ := treeValue_tree hreal v h
    exact ⟨(utf8 name.toList, w), by rw [Json.memberTree, memberTreeValue, hw]; rfl, congrArg (Prod.mk _) hn⟩
termination_by structural m => m

end

mutual

theorem treeDepth_tree : (v : Json) → treeDepth (v.tree snprintf) = (ofJson v).depth
  | .null => rfl
  | .int _ => rfl
  | .uint _ => rfl
  | .real _ => rfl
  | .string _ => rfl
  | .bool _ => rfl
  | .array items => congrArg (· + 1) (treeDepths_trees items)
  | .object members => congrArg (· + 1) (memberTreeDepths_memberTrees members)
termination_by structural v => v

theorem treeDepths_trees : (vs : List Json) → treeDepths (Json.trees snprintf vs) = Value.depths (ofJsons vs)
  | [] => rfl
  | v :: vs => congrArg₂ max (treeDepth_tree v) (treeDepths_trees vs)
termination_by structural vs => vs

theorem memberTreeDepths_memberTrees : (ms : List (String × Json)) →
    memberTreeDepths (Json.memberTrees snprintf ms) = Value.memberDepths (ofMembers ms)
  | [] => rfl
  | m :: ms => congrArg₂ max (memberTreeDepth_memberTree m) (memberTreeDepths_memberTrees ms)
termination_by structural ms => ms

theorem memberTreeDepth_memberTree : (m : String × Json) →
    memberTreeDepth (Json.memberTree snprintf m) = Value.memberDepth (ofMember m)
  | (_, v) => treeDepth_tree v
termination_by structural m => m

end

theorem isContainer_tree (v : Json) : Reader.isContainer (v.tree snprintf) = (ofJson v).isContainer := by cases v <;> rfl

/-- **What is written is read back**: a canonical array or object within the limit of the stack. -/
theorem parse_write (hreal : ExactReals toDouble snprintf) {v : Json} (hcanonical : (ofJson v).Canonical toDouble)
    (hv : (ofJson v).isContainer = true) (hdepth : (ofJson v).depth ≤ stackLimit)
    (hlen : (utf8 (write snprintf v)).length < 2 ^ 30) :
    ∃ w, parse toDouble (utf8 (write snprintf v)) = .ok (w, true, []) ∧ w.numeric = (ofJson v).numeric := by
  obtain ⟨w, hw, hn⟩ := treeValue_tree hreal v hcanonical
  have hparse := parse_denotes (write_denotes hreal.number v) ((isContainer_tree v).trans hv) hlen
    ((treeDepth_tree v).trans_le hdepth) hw []
  rw [List.append_nil] at hparse
  exact ⟨w, hparse, hn⟩

/-- **What was read and is written again is read as it was.** -/
theorem parse_write_parse (hreal : ExactReals toDouble snprintf) (document : List UInt8) {v : Json}
    (hdocument : document.length < maxInt - 2) (hparse : parse toDouble document = .ok (ofJson v, true, []))
    (hlen : (utf8 (write snprintf v)).length < 2 ^ 30) :
    ∃ w, parse toDouble (utf8 (write snprintf v)) = .ok (w, true, []) ∧ w.numeric = (ofJson v).numeric := by
  obtain ⟨hcanonical, hdepth, hv⟩ := parse_root hdocument hparse
  exact parse_write hreal hcanonical (hv rfl) hdepth hlen

/-- A stream that knows one half only. -/
def toHalf (t : List UInt8) : Option ℚ := if t = utf8 ['0', '.', '5'] then some (1 / 2) else none

def printHalf (_ : ℚ) : List Char := ['0', '.', '5']

theorem exactReals_half : ExactReals toHalf printHalf where
  number _ := ⟨['0'], ['.', '5'], [], .inl ⟨⟨by simp, List.forall_mem_singleton.2 rfl⟩, fun _ => rfl⟩,
    .inr ⟨['5'], ⟨by simp, List.forall_mem_singleton.2 rfl⟩, rfl⟩, .inl rfl, rfl⟩
  exact t q h := by
    rw [toHalf] at h
    split at h
    · exact h
    · cases h
  integer _ _ h := by cases h

/-- A value with the member one half. -/
def half : Json := .object [("k", .real (1 / 2))]

theorem parse_write_parse_half : ∃ w, parse toHalf (utf8 (write printHalf half)) = .ok (w, true, []) ∧
    w.numeric = (ofJson half).numeric :=
  parse_write_parse exactReals_half (utf8 (write printHalf half) ++ []) (by decide)
    (parse_denotes (write_denotes exactReals_half.number half) rfl (by decide) (by decide) rfl []) (by decide)

/-! ## The parameters of a request -/

theorem mem_ofMembers {m : String × Json} {members : List (String × Json)} (h : m ∈ members) :
    ofMember m ∈ ofMembers members := by
  induction members with
  | nil => cases h
  | cons m' ms ih =>
    rcases List.mem_cons.1 h with rfl | h
    · exact List.mem_cons_self
    · exact List.mem_cons_of_mem _ (ih h)

theorem get_canonical {v w : Json} {key : String} (h : (ofJson v).Canonical toDouble) (hd : (ofJson v).depth ≤ stackLimit)
    (hget : v.get key .null = .ok w) : (ofJson w).Canonical toDouble ∧ (ofJson w).depth ≤ stackLimit := by
  have hnull : (ofJson .null).Canonical toDouble ∧ (ofJson .null).depth ≤ stackLimit := ⟨trivial, by decide⟩
  cases v with
  | null =>
    cases hget
    exact hnull
  | object members =>
    obtain rfl := Outcome.ok.inj hget
    cases hl : members.lookup key with
    | none => exact hnull
    | some w =>
      obtain ⟨l₁, l₂, rfl, -⟩ := List.lookup_eq_some_iff.1 hl
      have hmem : ofMember (key, w) ∈ ofMembers (l₁ ++ (key, w) :: l₂) := mem_ofMembers (by simp)
      have hdepth : Value.memberDepths (ofMembers (l₁ ++ (key, w) :: l₂)) ≤ stackLimit := by
        rw [ofJson, Value.depth] at hd
        omega
      exact ⟨canonicalMembers_iff.1 h.2 _ hmem, memberDepths_le_iff.1 hdepth _ hmem⟩
  | _ => cases hget

end RoundTrip

/-- The library's reader is `Reader`. -/
def readsWith (toDouble : List UInt8 → Option ℚ) (libs : Libraries) : Prop :=
  ∀ text root, libs.parse text = .ok (some root) → parse toDouble (utf8 text.toList) = .ok (ofJson root, true, [])

theorem requestMap_eq_ok {libs : Libraries} {text : String} {input output : Span} {m : ParamMap}
    (h : requestMap libs text input output = .ok m) :
    ∃ root params, libs.parse text = .ok (some root) ∧ root.get "algo_params" .null = .ok params ∧
      m.lookup "params" = some (.string (write libs.snprintf params)) := by
  unfold requestMap at h
  split at h
  · cases h
  · cases h
  · next root hroot =>
    obtain ⟨params, -, h⟩ := Outcome.bind_eq_ok.1 h
    split at h
    · obtain ⟨algo, halgo, h⟩ := Outcome.bind_eq_ok.1 h
      obtain ⟨v, hv, halgo⟩ := Outcome.bind_eq_ok.1 halgo
      cases halgo
      cases h
      exact ⟨root, v, hroot, hv, rfl⟩
    · obtain ⟨p, -, h⟩ := Outcome.bind_eq_ok.1 h
      obtain ⟨frames, -, h⟩ := Outcome.bind_eq_ok.1 h
      obtain ⟨algo, halgo, h⟩ := Outcome.bind_eq_ok.1 h
      obtain ⟨v, hv, halgo⟩ := Outcome.bind_eq_ok.1 halgo
      cases halgo
      cases h
      exact ⟨root, v, hroot, hv, rfl⟩

/-- **The parameters reach the plugin as they are in the request**: the text in the map is read as the value of
`algo_params` in the text of the request. -/
theorem requestMap_params {toDouble : List UInt8 → Option ℚ} {libs : Libraries} (hreads : readsWith toDouble libs)
    (hreal : ExactReals toDouble libs.snprintf) {text : String} {input output : Span} {m : ParamMap}
    (hlen : (utf8 text.toList).length < maxInt - 2) (h : requestMap libs text input output = .ok m) :
    ∃ root params, parse toDouble (utf8 text.toList) = .ok (ofJson root, true, []) ∧
      root.get "algo_params" .null = .ok params ∧ m.lookup "params" = some (.string (write libs.snprintf params)) ∧
      ((ofJson params).isContainer = true → (utf8 (write libs.snprintf params)).length < 2 ^ 30 →
        ∃ w, parse toDouble (utf8 (write libs.snprintf params)) = .ok (w, true, []) ∧
          w.numeric = (ofJson params).numeric) := by
  obtain ⟨root, params, hparse, hget, hlookup⟩ := requestMap_eq_ok h
  have hroot := hreads text root hparse
  obtain ⟨hcanonical, hdepth, -⟩ := parse_root hlen hroot
  obtain ⟨hcanonical, hdepth⟩ := get_canonical hcanonical hdepth hget
  exact ⟨root, params, hroot, hget, hlookup, fun hv hlen => parse_write hreal hcanonical hv hdepth hlen⟩

/-- A request with the parameter one half. -/
def halfRequest : Json := .object [("algo_params", half), ("data_params", .null)]

def halfText : String := String.ofList (write printHalf halfRequest)

def halfLibraries : Libraries where
  nv21ToRgb24Row _ _ _ := some 0
  tb64xdec _ _ out := .ok out
  parse text := .ok (if text.toList = write printHalf halfRequest then some halfRequest else none)
  snprintf := printHalf

theorem halfLibraries_reads : readsWith toHalf halfLibraries := by
  intro text root h
  simp only [halfLibraries, Except.ok.injEq] at h
  split at h
  · next ht =>
    obtain rfl := Option.some.inj h
    have h : parse toHalf (utf8 (write printHalf halfRequest) ++ []) = .ok (ofJson halfRequest, true, []) :=
      parse_denotes (write_denotes exactReals_half.number halfRequest) rfl (by decide) (by decide) rfl []
    rwa [ht, ← List.append_nil (utf8 _)]
  · cases h

theorem requestMap_half : requestMap halfLibraries halfText (.zeros 0 (by decide)) (.zeros 0 (by decide)) =
    .ok [("params", .string (write printHalf half)), ("input_data", .span (.zeros 0 (by decide))),
      ("output_data", .span (.zeros 0 (by decide)))] := by
  have hparse : halfLibraries.parse halfText = .ok (some halfRequest) := congrArg Except.ok (if_pos String.toList_ofList)
  simp only [requestMap, hparse]
  rfl

theorem requestMap_params_half :
    ∃ root params, parse toHalf (utf8 halfText.toList) = .ok (ofJson root, true, []) ∧
      root.get "algo_params" .null = .ok params ∧
      [("params", Boxed.string (write printHalf half)), ("input_data", .span (.zeros 0 (by decide))),
        ("output_data", .span (.zeros 0 (by decide)))].lookup "params" =
        some (.string (write printHalf params)) ∧
      ((ofJson params).isContainer = true → (utf8 (write printHalf params)).length < 2 ^ 30 →
        ∃ w, parse toHalf (utf8 (write printHalf params)) = .ok (w, true, []) ∧
          w.numeric = (ofJson params).numeric) :=
  requestMap_params halfLibraries_reads exactReals_half (by rw [halfText, String.toList_ofList]; decide) requestMap_half

end Nessus.Parser.Reader
