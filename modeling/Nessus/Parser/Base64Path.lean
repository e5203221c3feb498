import Nessus.Parser.Base64Decode
import Nessus.Parser.FrameChecks

/-!
# The two ways into a frame

`decode_and_convert` of a text and of the bytes that it encodes.

* `Vendored.base64` — the libraries with the decoder;
* `convertToBgr_frame`, `decodeAndConvert_base64` — the way of a text is that of what it is decoded to;
* `decodeBase64_encode`, `decodeBase64_ok`, … — which buffer the decoder makes of a text;
* `base64_iff` — **where the way of a text does what it is to do**.
-/

namespace Nessus.Parser

open Nessus.Lib Nessus.Abi Outcome

def Vendored.base64 (row : (y vu : List Byte) → (k : ℕ) → Byte) : Vendored where
  nv21ToRgb24Row := row
  tb64xdec data inlen out := Base64X.tb64xdec data inlen out >>= fun r => .ok r.2

def Span.of (bytes : List UInt8) (h : bytes.length < 2 ^ 64) : Span := ⟨some (bytes.map some), bytes.length, h⟩

/-- What the caller has of a frame: its bytes, their number, and the format. -/
def DataHandler.frame (d : DataHandler) : List Byte × ℕ × DataFormat := (d.bytes, d.size, d.format)

def frameOf (r : Outcome Exn DataHandler) : Outcome Exn (List Byte × ℕ × DataFormat) := r >>= fun d => .ok d.frame

/-- The formats that `convert_to_bgr` converts. -/
def DataFormat.Supported (format : DataFormat) : Prop := IsBgr format ∨ format = .imageNv21

/-! ## Who owns the buffer -/

section Frame

variable {n c h w : ℤ}

theorem convertNhwc_frame {src src' : DataHandler} (hframe : src.toSpan = src'.toSpan) (hformat : src.format = src'.format) :
    frameOf (convertNhwc src n c h w) = frameOf (convertNhwc src' n c h w) := by
  obtain ⟨span, format, owned⟩ := src
  obtain ⟨span', format', owned'⟩ := src'
  obtain rfl : span = span' := hframe
  obtain rfl : format = format' := hformat
  simp only [frameOf, convertNhwc, bind_assoc]
  refine bind_congr fun bad => ?_
  cases bad with
  | true => simp only [if_true, thrown_bind]
  | false =>
    simp only [Bool.false_eq_true, if_false, bind_assoc]
    refine bind_congr fun rows => bind_congr fun q => bind_congr fun len => ?_
    split
    · rfl
    · rfl

theorem convertNchw_frame {src src' : DataHandler} (hframe : src.toSpan = src'.toSpan)
    {α : Type} (x : Outcome Exn α) : (convertNchw src n c h w >>= fun _ => x) = convertNchw src' n c h w >>= fun _ => x := by
  obtain ⟨span, format, owned⟩ := src
  obtain ⟨span', format', owned'⟩ := src'
  obtain rfl : span = span' := hframe
  simp only [convertNchw, bind_assoc]
  refine bind_congr fun bad => ?_
  cases bad with
  | true => simp only [if_true, thrown_bind]
  | false =>
    simp only [Bool.false_eq_true, if_false, bind_assoc]
    refine bind_congr fun rows => bind_congr fun q => ?_
    split
    · rfl
    · rfl

/-- **The conversions do not look at who owns the buffer.** -/
theorem convertToBgr_frame (v : Vendored) {src src' : DataHandler} (hframe : src.toSpan = src'.toSpan)
    (hformat : src.format = src'.format) : frameOf (convertToBgr v src n c h w) = frameOf (convertToBgr v src' n c h w) := by
  have hnhwc := convertNhwc_frame (n := n) (c := c) (h := h) (w := w) hframe hformat
  rw [convertToBgr, convertToBgr, ← hformat]
  cases src.format with
  | imageBgrNchw =>
    have hnchw := convertNchw_frame (n := n) (c := c) (h := h) (w := w) hframe (frameOf (convertNhwc src n c h w))
    simp only [frameOf, bind_assoc] at hnchw hnhwc ⊢
    rw [hnchw, hnhwc]
  | imageBgrNhwc => exact hnhwc
  | imageNv21 =>
    obtain ⟨span, format, owned⟩ := src
    obtain ⟨span', format', owned'⟩ := src'
    obtain rfl : span = span' := hframe
    rfl
  | unknow => rfl
  | other i => rfl

/-- **The way of a text is that of what it is decoded to.** -/
theorem decodeAndConvert_base64 (v : Vendored) {text : Span} {temp : DataHandler} {format : DataFormat}
    (hdecode : decodeBase64 v text format = .ok temp) (hformat : temp.format = format) (htext : text.size ≠ 0)
    (htemp : temp.size ≠ 0) :
    frameOf (decodeAndConvert v text true format n c h w) =
      frameOf (decodeAndConvert v temp.toSpan false format n c h w) := by
  rw [decodeAndConvert, decodeAndConvert]
  by_cases hhw : h ≤ 0 ∨ w ≤ 0
  · rw [if_pos hhw, if_pos hhw]
  · rw [if_neg hhw, if_neg hhw, if_neg htext, if_neg htemp, if_pos rfl, if_neg Bool.false_ne_true, hdecode, ok_bind, ok_bind]
    exact convertToBgr_frame v rfl hformat

end Frame

/-! ## What a text is decoded to -/

theorem size_heap (dst : List Byte) (size : ℤ) (format : DataFormat) :
    (DataHandler.heap dst size format).size = toSize size := rfl

section Decode

variable {row : (y vu : List Byte) → (k : ℕ) → Byte} {text b : List UInt8} {ht : text.length < 2 ^ 64} {format : DataFormat}

/-- The length of the buffer, as an `int`. -/
def decodedLength (text : List UInt8) : ℤ := ofSize (text.length / 4 * 3)

theorem decodedLength_le (text : List UInt8) : decodedLength text ≤ maxInt := by
  unfold decodedLength ofSize maxInt
  rw [Int.bmod_def]
  split <;> omega

/-- A length that an `int` cannot hold loses its upper bits. -/
theorem decodedLength_of_le (h : 2 ^ 31 ≤ text.length / 4 * 3) :
    decodedLength text + 2 ^ 32 ≤ (text.length / 4 * 3 : ℕ) := by
  unfold decodedLength ofSize
  rw [Int.bmod_def]
  split <;> omega

theorem decodedLength_of_lt (h : text.length / 4 * 3 < 2 ^ 31) : decodedLength text = (text.length / 4 * 3 : ℕ) := by
  refine ofSize_of_le ?_
  unfold maxInt
  omega

theorem decodeBase64_eq : decodeBase64 (.base64 row) (.of text ht) format =
    newBytes (decodedLength text) >>= fun decoded => Base64X.tb64xdec (some (text.map some)) text.length decoded >>= fun r =>
      .ok (.heap r.2 (decodedLength text) format) := by
  simp only [decodeBase64, Vendored.base64, Span.of, decodedLength, bind_assoc, ok_bind]

theorem decodeBase64_neg (h : decodedLength text < 0) :
    decodeBase64 (.base64 row) (.of text ht) format = .thrown (.std .badArrayNewLength "std::bad_array_new_length") := by
  have hnew : newBytes (decodedLength text) = .thrown (.std .badArrayNewLength "std::bad_array_new_length") := if_pos h
  rw [decodeBase64_eq, hnew, thrown_bind]

theorem decodeBase64_ok (row : (y vu : List Byte) → (k : ℕ) → Byte) (ht : text.length < 2 ^ 64) (format : DataFormat)
    (h : 0 ≤ decodedLength text) (hfits : text.length % 4 ≠ 0 ∨ text.length / 4 * 3 < 2 ^ 31) :
    ∃ temp, decodeBase64 (.base64 row) (.of text ht) format = .ok temp ∧ temp.size = (decodedLength text).toNat ∧
      temp.format = format := by
  have hnew : newBytes (decodedLength text) = .ok (List.replicate (decodedLength text).toNat none) := if_neg h.not_gt
  have hdecoded : ∃ r, Base64X.tb64xdec (some (text.map some)) text.length
      (List.replicate (decodedLength text).toNat none) = .ok r := by
    by_cases hnone : text.length = 0 ∨ text.length % 4 ≠ 0
    · exact ⟨_, if_pos hnone⟩
    · obtain ⟨hpos, hfour⟩ := not_or.1 hnone
      obtain ⟨G, hG⟩ : ∃ G, text.length = 4 * (G + 1) := ⟨text.length / 4 - 1, by omega⟩
      have hlast := (Base64X.length_lastGroup text G).2
      have hlen := decodedLength_of_lt (hfits.resolve_left hfour)
      obtain ⟨r, hr, -⟩ := (Base64X.tb64xdec_definedIff hG (List.replicate (decodedLength text).toNat none)).defined
        (by rw [List.length_replicate]; omega)
      exact ⟨r, hr⟩
  obtain ⟨r, hr⟩ := hdecoded
  have hin : InInt (decodedLength text) := inInt_of_nonneg h (decodedLength_le text) (by decide)
  refine ⟨.heap r.2 (decodedLength text) format, ?_, ?_, rfl⟩
  · rw [decodeBase64_eq, hnew, ok_bind, hr, ok_bind]
  · rw [size_heap, toSize_of_nonneg h hin]

/-- The buffer is too small where the length has lost its upper bits. -/
theorem decodeBase64_undefined (h : 0 ≤ decodedLength text) (hfour : text.length % 4 = 0)
    (hlong : 2 ^ 31 ≤ text.length / 4 * 3) :
    decodeBase64 (.base64 row) (.of text ht) format = .undefined := by
  have hnew : newBytes (decodedLength text) = .ok (List.replicate (decodedLength text).toNat none) := if_neg h.not_gt
  obtain ⟨G, hG⟩ : ∃ G, text.length = 4 * (G + 1) := ⟨text.length / 4 - 1, by omega⟩
  have hlast := (Base64X.length_lastGroup text G).1
  have hle := decodedLength_of_le hlong
  have hdecoded := (Base64X.tb64xdec_definedIff hG (List.replicate (decodedLength text).toNat none)).undefined (by
    rw [List.length_replicate]
    omega)
  rw [decodeBase64_eq, hnew, ok_bind, hdecoded, undefined_bind]

/-- **An encoding is decoded** to its bytes, and what was in the buffer where the padding is. -/
theorem decodeBase64_encode (hb : b ≠ []) (hb' : (b.length + 2) / 3 * 3 < 2 ^ 31) (ht : (Base64.encode b).length < 2 ^ 64) :
    decodeBase64 (.base64 row) (.of (Base64.encode b) ht) format =
      .ok (.heap (b.map some ++ List.replicate ((b.length + 2) / 3 * 3 - b.length) none) ((b.length + 2) / 3 * 3 : ℕ)
        format) := by
  have hlen : (Base64.encode b).length / 4 * 3 = (b.length + 2) / 3 * 3 := by
    rw [Base64.length_encode]
    omega
  have hdecoded : decodedLength (Base64.encode b) = ((b.length + 2) / 3 * 3 : ℕ) := by
    rw [decodedLength_of_lt (by omega), hlen]
  have hnew : newBytes (decodedLength (Base64.encode b)) = .ok (List.replicate ((b.length + 2) / 3 * 3) none) := by
    rw [hdecoded]
    exact if_neg (by omega)
  obtain ⟨m, hm⟩ := Base64X.tb64xdec_encode hb (List.length_replicate (n := (b.length + 2) / 3 * 3) (a := (none : Byte)))
  rw [decodeBase64_eq, hnew, ok_bind, hm, ok_bind, hdecoded, List.drop_replicate]

end Decode

/-! ## What the two ways are to do -/

section Paths

variable (v : Vendored) (format : DataFormat)

/-- **The text of some bytes does what the bytes do**, for every shape: it gives the same frame, or the same exception. -/
def SameAsRaw (b : List UInt8) (hb : b.length < 2 ^ 64) (ht : (Base64.encode b).length < 2 ^ 64) : Prop :=
  ∀ n c h w, InInt n → InInt c → InInt h → InInt w →
    frameOf (decodeAndConvert v (.of (Base64.encode b) ht) true format n c h w) =
      frameOf (decodeAndConvert v (.of b hb) false format n c h w)

/-- **The text is rejected** with an exception, for every shape. -/
def RejectsText (text : List UInt8) (ht : text.length < 2 ^ 64) : Prop :=
  ∀ n c h w, InInt n → InInt c → InInt h → InInt w →
    (decodeAndConvert v (.of text ht) true format n c h w).Throws fun _ => True

end Paths

section Same

variable {v : Vendored} {row : (y vu : List Byte) → (k : ℕ) → Byte} {format : DataFormat} {b : List UInt8}
  {hb : b.length < 2 ^ 64} {ht : (Base64.encode b).length < 2 ^ 64} {n c h w : ℤ}

theorem frameOf_throws {r : Outcome Exn DataHandler} {C : Exn → Prop} : (frameOf r).Throws C ↔ r.Throws C := by
  cases r <;> simp [frameOf, Throws]

theorem convertToBgr_unsupported (hformat : ¬ format.Supported) {src : DataHandler} (hsrc : src.format = format) :
    convertToBgr v src n c h w = .thrown (invalidArgument "Unsupported image format.") := by
  rw [convertToBgr, hsrc]
  cases format with
  | imageBgrNchw => exact absurd (.inl (.inl rfl)) hformat
  | imageBgrNhwc => exact absurd (.inl (.inr rfl)) hformat
  | imageNv21 => exact absurd (.inr rfl) hformat
  | unknow => rfl
  | other i => rfl

theorem decodeAndConvert_unsupported (hformat : ¬ format.Supported) {input : Span} (hsize : input.size ≠ 0) :
    decodeAndConvert v input false format n c h w =
      if h ≤ 0 ∨ w ≤ 0 then .thrown (invalidArgument "Invalid argument: h <= 0 || w <= 0")
      else .thrown (invalidArgument "Unsupported image format.") := by
  rw [decodeAndConvert]
  by_cases hhw : h ≤ 0 ∨ w ≤ 0
  · rw [if_pos hhw, if_pos hhw]
  · rw [if_neg hhw, if_neg hhw, if_neg hsize, if_neg Bool.false_ne_true, ok_bind]
    exact convertToBgr_unsupported hformat rfl

theorem size_of (bytes : List UInt8) (h : bytes.length < 2 ^ 64) : (Span.of bytes h).size = bytes.length := rfl

/-- The bytes that the way of an encoding goes on with: they are the encoded ones if there is no padding. -/
theorem decodeAndConvert_encode (row : (y vu : List Byte) → (k : ℕ) → Byte) (format : DataFormat) (hempty : b ≠ [])
    (hlt : (b.length + 2) / 3 * 3 < 2 ^ 31) (hb : b.length < 2 ^ 64) (ht : (Base64.encode b).length < 2 ^ 64) :
    ∃ input : Span, input.size = (b.length + 2) / 3 * 3 ∧ (b.length % 3 = 0 → input = .of b hb) ∧ ∀ n c h w,
      frameOf (decodeAndConvert (.base64 row) (.of (Base64.encode b) ht) true format n c h w) =
        frameOf (decodeAndConvert (.base64 row) input false format n c h w) := by
  have hpos := List.length_pos_iff.2 hempty
  have htext : (Span.of (Base64.encode b) ht).size ≠ 0 := by
    rw [size_of, Base64.length_encode]
    omega
  obtain ⟨size, hsize⟩ : ∃ size, size = (b.length + 2) / 3 * 3 := ⟨_, rfl⟩
  have hne : size ≠ 0 := by omega
  have hdecode : decodeBase64 (.base64 row) (.of (Base64.encode b) ht) format =
      .ok (.heap (b.map some ++ List.replicate (size - b.length) none) size format) := by
    rw [hsize]
    exact decodeBase64_encode hempty hlt ht
  have hlen : b.length % 3 = 0 → size = b.length := by omega
  rw [← hsize] at hlt
  obtain ⟨temp, htemp⟩ : ∃ temp, temp = DataHandler.heap (b.map some ++ List.replicate (size - b.length) none) size format :=
    ⟨_, rfl⟩
  rw [← htemp] at hdecode
  have htempsize : temp.size = size := by
    rw [htemp, size_heap]
    exact toSize_natCast hlt
  have hformat : temp.format = format := by rw [htemp, DataHandler.heap]
  refine ⟨temp.toSpan, htempsize.trans hsize, fun hthree => ?_, fun n c h w =>
    decodeAndConvert_base64 _ hdecode hformat htext (htempsize.trans_ne hne)⟩
  obtain rfl := hlen hthree
  have hdata : temp.data = some (b.map some) := by
    rw [htemp, DataHandler.heap, Nat.sub_self, List.replicate_zero, List.append_nil]
  obtain ⟨⟨data, size, hlt'⟩, format', owned⟩ := temp
  obtain rfl : data = some (b.map some) := hdata
  obtain rfl : size = b.length := htempsize
  rfl

/-- A text without padding, or of a format that is not converted. -/
theorem sameAsRaw_of (hlt : (b.length + 2) / 3 * 3 < 2 ^ 31) (hpad : b.length % 3 = 0 ∨ ¬ format.Supported) :
    SameAsRaw (.base64 row) format b hb ht := by
  intro n c h w _ _ _ _
  by_cases hempty : b = []
  · subst hempty
    have htext : (Span.of (Base64.encode []) ht).size = 0 := size_of _ ht
    have hraw : (Span.of [] hb).size = 0 := size_of _ hb
    rw [decodeAndConvert, decodeAndConvert, if_pos htext, if_pos hraw]
  · have hpos := List.length_pos_iff.2 hempty
    obtain ⟨input, hsize, hsame, hframes⟩ := decodeAndConvert_encode row format hempty hlt hb ht
    have hne : input.size ≠ 0 := by omega
    rw [hframes]
    rcases hpad with hthree | hformat
    · rw [hsame hthree]
    · rw [decodeAndConvert_unsupported hformat hne, decodeAndConvert_unsupported hformat hpos.ne']

theorem decodeAndConvert_text (v : Vendored) {text : Span} (htext : text.size ≠ 0) (hh : 0 < h) (hw : 0 < w) :
    decodeAndConvert v text true format n c h w =
      decodeBase64 v text format >>= fun temp => convertToBgr v temp n c h w := by
  rw [decodeAndConvert, if_neg (by omega), if_neg htext, if_pos rfl]

/-- The bytes of a negative number of images are rejected. -/
theorem rejected_of_neg {format : DataFormat} {length size : ℕ} (hpos : 0 < size) (hlt : size < 2 ^ 64 - 1) :
    FrameRejected format length size (-1) 1 1 1 := by
  have hn : toSize (-1) = 2 ^ 64 - 1 := by decide
  have hone : toSize (1 * 1 * 1) = 1 := by decide
  have hguard : GuardIn size (-1) 1 1 1 := .inr (by decide)
  have hrejects : GuardRejects size (-1) 1 1 1 := by
    rw [GuardRejects, hn, hone]
    exact ⟨by omega, by omega⟩
  refine .inr (.inr (.inr ?_))
  cases format with
  | imageBgrNchw => exact ⟨by decide, hguard, .inl hrejects⟩
  | imageBgrNhwc => exact ⟨by decide, hguard, .inl hrejects⟩
  | imageNv21 => exact ⟨by decide, .inl (by decide)⟩
  | unknow => trivial
  | other i => trivial

theorem not_sameAsRaw_of_long (hlong : 2 ^ 31 ≤ (b.length + 2) / 3 * 3) : ¬ SameAsRaw (.base64 row) format b hb ht := by
  intro hsame
  have hsame := hsame (-1) 1 1 1 (by decide) (by decide) (by decide) (by decide)
  have htextlen : (Base64.encode b).length / 4 * 3 = (b.length + 2) / 3 * 3 ∧ (Base64.encode b).length % 4 = 0 := by
    rw [Base64.length_encode]
    omega
  have hraw : (decodeAndConvert (.base64 row) (.of b hb) false format (-1) 1 1 1).Throws IsInvalidArgument := by
    refine (decodeAndConvert_throws _ _ _ (by decide)).2 (rejected_of_neg ?_ ?_)
    · rw [size_of]
      omega
    · rw [size_of]
      omega
  have htext : (Span.of (Base64.encode b) ht).size ≠ 0 := by
    rw [size_of]
    omega
  rw [← frameOf_throws, ← hsame, frameOf_throws, decodeAndConvert_text _ htext (by decide) (by decide)] at hraw
  by_cases hneg : decodedLength (Base64.encode b) < 0
  · rw [decodeBase64_neg hneg, thrown_bind, throws_thrown] at hraw
    obtain ⟨what, hwhat⟩ := hraw
    cases hwhat
  · rw [decodeBase64_undefined (not_lt.1 hneg) htextlen.2 (by omega), undefined_bind] at hraw
    exact not_throws_undefined hraw

/-- A shape that a larger size has, and a smaller one has not. -/
theorem exists_rejected (hformat : format.Supported) {size size' : ℕ} (length length' : ℕ) (hlt : size < size')
    (hsize : size' < 2 ^ 31) :
    ∃ n c h w, InInt n ∧ InInt c ∧ InInt h ∧ InInt w ∧ FrameRejected format length size n c h w ∧
      ¬ FrameRejected format length' size' n c h w := by
  have hin : InInt size' := ⟨by unfold minInt; omega, by unfold maxInt; omega⟩
  rcases hformat with hbgr | rfl
  · have hin' : InInt (1 * 1 * 1 * (size' : ℤ)) := by rwa [one_mul, one_mul, one_mul]
    refine ⟨1, 1, 1, size', by decide, by decide, by decide, hin, ?_, fun hrej => ?_⟩
    · exact rejected_of_lt hbgr (by decide) (by decide) (by decide) (by omega) hin' (by omega)
    · have := lt_of_rejected hbgr (by decide) (by decide) (by decide) (by omega) hin' hin.2 hrej
      omega
  · have htwo : (size' : ℤ) * (2 * 1 * 1 / 2) = size' := by norm_num
    refine ⟨size', 1, 2, 1, hin, by decide, by decide, by decide, .inr (.inr (.inr ⟨by decide, .inr ⟨?_, ?_⟩⟩)), ?_⟩
    · rwa [htwo]
    · rw [htwo, toSize_natCast hsize]
      omega
    · rintro (hh | hw | hs | ⟨-, hodd | ⟨-, hne⟩⟩)
      · exact absurd hh (by decide)
      · exact absurd hw (by decide)
      · omega
      · exact hodd (by decide)
      · rw [htwo, toSize_natCast hsize] at hne
        exact hne rfl

theorem not_sameAsRaw_of_padded (hlt : (b.length + 2) / 3 * 3 < 2 ^ 31) (hpad : b.length % 3 ≠ 0)
    (hformat : format.Supported) : ¬ SameAsRaw (.base64 row) format b hb ht := by
  intro hsame
  have hempty : b ≠ [] := by
    rintro rfl
    exact hpad rfl
  obtain ⟨input, hsize, -, hframes⟩ := decodeAndConvert_encode row format hempty hlt hb ht
  obtain ⟨n, c, h, w, hn, hc, hh, hw, hrej, hnot⟩ := exists_rejected hformat (Span.of b hb).bytes.length
    input.bytes.length (show b.length < input.size by omega) (by omega)
  have hraw := (decodeAndConvert_throws (.base64 row) (.of b hb) format hn).2 hrej
  rw [← frameOf_throws, ← hsame n c h w hn hc hh hw, hframes, frameOf_throws] at hraw
  exact hnot ((decodeAndConvert_throws (.base64 row) input format hn).1 hraw)

end Same

/-! ## Texts that are not valid -/

section Rejects

variable {row : (y vu : List Byte) → (k : ℕ) → Byte} {format : DataFormat} {text : List UInt8}
  {ht : text.length < 2 ^ 64}

theorem convertNhwc_self {src : DataHandler} (hsize : (src.size : ℤ) ≤ maxInt) :
    convertNhwc src 1 src.size 1 1 = .ok src := by
  have hin : InInt (src.size : ℤ) := inInt_of_nonneg (by omega) hsize (by decide)
  have hone : toSize 1 = 1 := by decide
  have hrows : (prod 1 [1] : Outcome Exn ℤ) = .ok 1 := prod_eq (by decide)
  have hlen : (prod (src.size : ℤ) [1] : Outcome Exn ℤ) = .ok src.size := by
    have hprod : ProdIn (src.size : ℤ) [1] := ⟨by rwa [mul_one], trivial⟩
    rw [prod_eq hprod]
    simp
  have hdiv : (divSize src.size 1 : Outcome Exn ℕ) = .ok src.size := by
    rw [divSize, hone, if_pos (by decide), Nat.div_one]
  rw [convertNhwc, sizeGuard_of_dvd (by decide) (by decide) (one_dvd _), ok_bind, if_neg Bool.false_ne_true, hrows, ok_bind,
    hdiv, ok_bind, hlen, ok_bind]
  exact if_pos (ofSize_of_le hsize)

theorem convertNchw_self {src : DataHandler} (hsize : (src.size : ℤ) ≤ maxInt) :
    convertNchw src 1 src.size 1 1 = if src.size = 0 then .undefined else .ok src := by
  have hin : InInt (src.size : ℤ) := inInt_of_nonneg (by omega) hsize (by decide)
  have hrows : (prod 1 [(src.size : ℤ), 1] : Outcome Exn ℤ) = .ok src.size := by
    have hprod : ProdIn 1 [(src.size : ℤ), 1] := ⟨by rwa [one_mul], by rwa [one_mul, mul_one], trivial⟩
    rw [prod_eq hprod]
    simp
  have htoSize : toSize (src.size : ℤ) = src.size := by
    rw [toSize_of_nonneg (by omega) hin]
    omega
  rw [convertNchw, sizeGuard_of_dvd (by decide) (by decide) (one_dvd _), ok_bind, if_neg Bool.false_ne_true, hrows, ok_bind,
    divSize, htoSize]
  by_cases hzero : src.size = 0
  · rw [if_neg (by omega), if_pos hzero]
    rfl
  · rw [if_pos hzero, if_neg hzero, ok_bind, Nat.div_self (by omega)]
    rfl

/-- A shape that the conversion of a buffer does not reject. -/
theorem exists_not_thrown (v : Vendored) {src : DataHandler} (hformat : src.format.Supported)
    (hsize : (src.size : ℤ) ≤ maxInt) :
    ∃ n c h w, InInt n ∧ InInt c ∧ InInt h ∧ InInt w ∧ 0 < h ∧ 0 < w ∧
      ¬ (convertToBgr v src n c h w).Throws fun _ => True := by
  have hin : InInt (src.size : ℤ) := inInt_of_nonneg (by omega) hsize (by decide)
  rcases hformat with (hnchw | hnhwc) | hnv21
  · refine ⟨1, src.size, 1, 1, by decide, hin, by decide, by decide, by decide, by decide, ?_⟩
    rw [convertToBgr, hnchw]
    simp only [convertNchw_self hsize]
    split
    · exact not_throws_undefined
    · rw [ok_bind, convertNhwc_self hsize]
      exact not_throws_ok
  · refine ⟨1, src.size, 1, 1, by decide, hin, by decide, by decide, by decide, by decide, ?_⟩
    rw [convertToBgr, hnhwc]
    simp only [convertNhwc_self hsize]
    exact not_throws_ok
  · -- the frames are never done
    by_cases hzero : src.size = 0
    · refine ⟨1, 0, 2, 1, by decide, by decide, by decide, by decide, by decide, by decide, ?_⟩
      have hp : Nv21Passes src.size 1 0 2 1 := ⟨by decide, by decide, by decide, by decide, by decide, hzero⟩
      rw [hp.convertToBgr_undefined v hnv21 le_rfl le_rfl]
      exact not_throws_undefined
    · have htwo : (src.size : ℤ) * (2 * 1 * 1 / 2) = src.size := by norm_num
      refine ⟨src.size, 1, 2, 1, hin, by decide, by decide, by decide, by decide, by decide, ?_⟩
      have hp : Nv21Passes src.size src.size 1 2 1 := by
        refine ⟨by decide, by decide, by decide, by decide, by rwa [htwo], ?_⟩
        rw [htwo, toSize_of_nonneg (by omega) hin]
        omega
      rw [hp.convertToBgr_undefined v hnv21 (by omega) (by decide)]
      exact not_throws_undefined

/-- **Which texts are rejected**, of those that are not empty: the decoder's result does not count. -/
theorem rejectsText_iff (hempty : text ≠ []) :
    RejectsText (.base64 row) format text ht ↔
      decodedLength text < 0 ∨ ¬ format.Supported ∧ (text.length % 4 ≠ 0 ∨ text.length / 4 * 3 < 2 ^ 31) := by
  have htext : (Span.of text ht).size ≠ 0 := (List.length_pos_iff.2 hempty).ne'
  constructor
  · intro hrejects
    by_contra hno
    obtain ⟨hneg, hno⟩ := not_or.1 hno
    have hnonneg : 0 ≤ decodedLength text := not_lt.1 hneg
    by_cases hfits : text.length % 4 ≠ 0 ∨ text.length / 4 * 3 < 2 ^ 31
    · have hformat : format.Supported := not_not.1 fun hformat => hno ⟨hformat, hfits⟩
      obtain ⟨temp, htemp, hsize, rfl⟩ := decodeBase64_ok row ht format hnonneg hfits
      have hle := decodedLength_le text
      obtain ⟨n, c, h, w, hn, hc, hh, hw, hh', hw', hnot⟩ := exists_not_thrown (.base64 row) hformat (by omega)
      have hthrows := hrejects n c h w hn hc hh hw
      rw [decodeAndConvert_text _ htext hh' hw', htemp, ok_bind] at hthrows
      exact hnot hthrows
    · obtain ⟨hfour, hlong⟩ := not_or.1 hfits
      have hthrows := hrejects 1 1 1 1 (by decide) (by decide) (by decide) (by decide)
      rw [decodeAndConvert_text _ htext (by decide) (by decide),
        decodeBase64_undefined hnonneg (not_not.1 hfour) (not_lt.1 hlong), undefined_bind] at hthrows
      exact not_throws_undefined hthrows
  · intro hcond n c h w _ _ _ _
    by_cases hhw : h ≤ 0 ∨ w ≤ 0
    · rw [decodeAndConvert, if_pos hhw]
      exact throws_thrown.2 trivial
    obtain ⟨hh, hw⟩ := not_or.1 hhw
    rw [decodeAndConvert_text _ htext (not_le.1 hh) (not_le.1 hw)]
    by_cases hneg : decodedLength text < 0
    · rw [decodeBase64_neg hneg, thrown_bind]
      exact throws_thrown.2 trivial
    · obtain ⟨hformat, hfits⟩ := hcond.resolve_left hneg
      obtain ⟨temp, htemp, -, htempformat⟩ := decodeBase64_ok row ht format (not_lt.1 hneg) hfits
      rw [htemp, ok_bind, convertToBgr_unsupported hformat htempformat]
      exact throws_thrown.2 trivial

end Rejects

/-- **Where the way of a text does what it is to do**: the text of some bytes does what the bytes do for the lengths that
need no padding and that an `int` can hold, or the formats that are not converted; and a text that is not valid is
rejected for the lengths that are negative as an `int`, or the formats that are not converted. -/
theorem base64_iff (row : (y vu : List Byte) → (k : ℕ) → Byte) (format : DataFormat) :
    (∀ (b : List UInt8) (hb : b.length < 2 ^ 64) (ht : (Base64.encode b).length < 2 ^ 64),
      SameAsRaw (.base64 row) format b hb ht ↔
        (b.length + 2) / 3 * 3 < 2 ^ 31 ∧ (b.length % 3 = 0 ∨ ¬ format.Supported)) ∧
    ∀ (text : List UInt8) (ht : text.length < 2 ^ 64), Base64.isValid text = false →
      (RejectsText (.base64 row) format text ht ↔
        decodedLength text < 0 ∨ ¬ format.Supported ∧ (text.length % 4 ≠ 0 ∨ text.length / 4 * 3 < 2 ^ 31)) := by
  constructor
  · intro b hb ht
    constructor
    · intro hsame
      have hlt : (b.length + 2) / 3 * 3 < 2 ^ 31 := by
        by_contra hlong
        exact not_sameAsRaw_of_long (not_lt.1 hlong) hsame
      refine ⟨hlt, ?_⟩
      by_contra hpad
      obtain ⟨hpad, hformat⟩ := not_or.1 hpad
      exact not_sameAsRaw_of_padded hlt hpad (not_not.1 hformat) hsame
    · rintro ⟨hlt, hpad⟩
      exact sameAsRaw_of hlt hpad
  · intro text ht hvalid
    refine rejectsText_iff ?_
    rintro rfl
    cases hvalid

/-- Three bytes, and a text of one character. -/
theorem base64_iff_run :
    SameAsRaw (.base64 fun _ _ _ => some 0) .imageBgrNhwc [1, 2, 3] (by decide) (by decide) ∧
      ¬ RejectsText (.base64 fun _ _ _ => some 0) .imageBgrNhwc [33] (by decide) := by
  constructor
  · exact ((base64_iff (fun _ _ _ => some 0) .imageBgrNhwc).1 [1, 2, 3] (by decide) (by decide)).2
      ⟨by decide, .inl (by decide)⟩
  · intro hrejects
    rcases ((base64_iff (fun _ _ _ => some 0) .imageBgrNhwc).2 [33] (by decide) (by decide)).1 hrejects with hneg | hformat
    · exact absurd hneg (by decide)
    · exact hformat.1 (.inl (.inr rfl))

/-- Two bytes, which are too few for a pixel, but not with what stands for their padding; and five characters, of which
three bytes are made that nothing has been written to. -/
theorem not_sameAsRaw_not_rejectsText :
    ¬ SameAsRaw (.base64 fun _ _ _ => some 0) .imageBgrNhwc [1, 2] (by decide) (by decide) ∧
      ¬ RejectsText (.base64 fun _ _ _ => some 0) .imageBgrNhwc [81, 85, 74, 67, 68] (by decide) := by
  constructor
  · intro hsame
    have hdecode : decodeBase64 (.base64 fun _ _ _ => some 0) (.of (Base64.encode [1, 2]) (by decide)) .imageBgrNhwc =
        .ok (.heap [some 1, some 2, none] 3 .imageBgrNhwc) := decodeBase64_encode (by decide) (by decide) (by decide)
    have htext : decodeAndConvert (.base64 fun _ _ _ => some 0) (.of (Base64.encode [1, 2]) (by decide)) true .imageBgrNhwc
        1 3 1 1 = .ok (.heap [some 1, some 2, none] 3 .imageBgrNhwc) := by
      rw [decodeAndConvert_text _ (by decide) (by decide) (by decide), hdecode]
      decide +kernel
    have hraw : decodeAndConvert (.base64 fun _ _ _ => some 0) (.of [1, 2] (by decide)) false .imageBgrNhwc 1 3 1 1 =
        .thrown (invalidArgument "stride < c * w") := by decide +kernel
    have := hsame 1 3 1 1 (by decide) (by decide) (by decide) (by decide)
    rw [htext, hraw] at this
    cases this
  · intro hrejects
    have htext : decodeAndConvert (.base64 fun _ _ _ => some 0) (.of [81, 85, 74, 67, 68] (by decide)) true .imageBgrNhwc
        1 3 1 1 = .ok (.heap [none, none, none] 3 .imageBgrNhwc) := by decide +kernel
    have := hrejects 1 3 1 1 (by decide) (by decide) (by decide) (by decide)
    rw [htext] at this
    exact not_throws_ok this

end Nessus.Parser
