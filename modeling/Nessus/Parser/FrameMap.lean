import Nessus.Parser.FrameSpec
import Nessus.Parser.Init
import Nessus.Parser.Writer

/-!
# The map of an `execute` request

`parser_impl_concret::execute` up to the call of the plugin manager: the request is parsed, the frame is converted, and
the map for the plugin is made.

* `requestMap_consistent_iff` — exactly when the map of a request with `data_params` is consistent.
-/

namespace Nessus.Parser

open Nessus.Lib Nessus.Abi Outcome

/-- The libraries that `execute` uses. -/
structure Libraries extends Vendored where
  /-- `reader.parse(text, root)` with strict features. -/
  parse : String → ReadConfig
  /-- `snprintf` with `%.17g`. -/
  snprintf : ℚ → List Char

/-- The values of the map: boxed, or interfaces themselves. -/
inductive Boxed where
  | string (s : List Char)
  | span (s : Span)
  | int (i : ℤ)
  | vector (items : List ℤ)
  deriving DecidableEq

/-- `param_hash_map<param_string, unknown_object>`. -/
abbrev ParamMap := List (String × Boxed)

/-- What `execute` reads from `data_params`. -/
structure DataParams where
  num : ℤ
  channels : ℤ
  height : ℤ
  width : ℤ
  format : ℤ
  deriving DecidableEq

def readDataParams (params : Json) : Outcome Exn DataParams :=
  params.get "num" (.int 1) >>= fun v => v.asInt >>= fun n =>
  params.get "channels" (.int 3) >>= fun v => v.asInt >>= fun c =>
  params.resolveReference "height" >>= fun v => v.asInt >>= fun h =>
  params.resolveReference "width" >>= fun v => v.asInt >>= fun w =>
  params.get "format" (.int 1) >>= fun v => v.asInt >>= fun format =>
  .ok ⟨n, c, h, w, format⟩

/-- `box(to_param_string(writer.write(root.get("algo_params", Value(nullValue)))))`. -/
def algoParams (libs : Libraries) (root : Json) : Outcome Exn Boxed :=
  root.get "algo_params" .null >>= fun v => .ok (.string (write libs.snprintf v))

/-- The map without `data_params`. -/
def plainMap (libs : Libraries) (root : Json) (input output : Span) : Outcome Exn ParamMap :=
  algoParams libs root >>= fun params =>
  .ok [("params", params), ("input_data", .span input), ("output_data", .span output)]

/-- The map with `data_params`. -/
def frameMap (libs : Libraries) (root params : Json) (input output : Span) : Outcome Exn ParamMap :=
  readDataParams params >>= fun p =>
  decodeAndConvert libs.toVendored input false (.ofInt p.format) p.num p.channels p.height p.width >>= fun frames =>
  algoParams libs root >>= fun algo =>
  .ok [("params", algo), ("input_data", .span frames.toSpan), ("order", .int frames.format.toInt),
    ("data_shape", .vector [p.num, p.channels, p.height, p.width]), ("output_data", .span output)]

/-- The map that `execute` hands to the plugin. -/
def requestMap (libs : Libraries) (strParam : String) (input output : Span) : Outcome Exn ParamMap :=
  match libs.parse strParam with
  | .error e => .thrown e
  | .ok none => .thrown parseJsonFailed
  | .ok (some root) =>
    root.resolveReference "data_params" >>= fun params =>
    if params.empty then plainMap libs root input output else frameMap libs root params input output

/-! ## Consistency -/

/-- The shape, the size and the order of the map agree with each other and with the request. -/
structure SelfConsistent (p : DataParams) (m : ParamMap) : Prop where
  shape : m.lookup "data_shape" = some (.vector [p.num, p.channels, p.height, p.width])
  size : ∃ s, m.lookup "input_data" = some (.span s) ∧ (s.size : ℤ) = p.num * p.channels * p.height * p.width
  planar : p.format = 0 → m.lookup "order" = some (.int 0)
  interleaved : p.format = 1 ∨ p.format = 2 → m.lookup "order" = some (.int 1)

/-- The request is rejected, or its buffer is converted without undefined behaviour to a consistent frame.

For a planar frame nothing but a buffer of the exact size passes, and it does so in the case of the interleaved ones; an
interleaved frame has the exact size, or is repacked and has a single row or a negative number of images; an `NV21` frame
passes for a negative number of images only. -/
def FrameOk (p : DataParams) (input : Span) : Prop :=
  p.height ≤ 0 ∨ p.width ≤ 0 ∨ input.size = 0 ∨
    match DataFormat.ofInt p.format with
    | .imageBgrNchw =>
      NchwOk (NhwcOk False input.bytes.length input.size p.num p.channels p.height p.width) input.bytes.length input.size
        p.num p.channels p.height p.width
    | .imageBgrNhwc => NhwcOk True input.bytes.length input.size p.num p.channels p.height p.width
    | .imageNv21 => Nv21Ok input.size p.num p.channels p.height p.width
    | _ => True

/-- The order that goes with a format. -/
def orderOf : DataFormat → ℤ
  | .imageBgrNchw => 0
  | _ => 1

theorem DataFormat.ofInt_cases (i : ℤ) :
    (i = 0 ∧ ofInt i = imageBgrNchw) ∨ (i = 1 ∧ ofInt i = imageBgrNhwc) ∨ (i = 2 ∧ ofInt i = imageNv21) ∨
      (i ≠ 0 ∧ i ≠ 1 ∧ i ≠ 2 ∧ (ofInt i = unknow ∨ ofInt i = other i)) := by
  unfold ofInt
  split_ifs with h₀ h₁ h₂ h₃
  · exact .inl ⟨h₀, rfl⟩
  · exact .inr (.inl ⟨h₁, rfl⟩)
  · exact .inr (.inr (.inl ⟨h₂, rfl⟩))
  · exact .inr (.inr (.inr ⟨h₀, h₁, h₂, .inl rfl⟩))
  · exact .inr (.inr (.inr ⟨h₀, h₁, h₂, .inr rfl⟩))

section Consistency

variable {libs : Libraries} {root params : Json} {p : DataParams} {input output : Span}

theorem decodeAndConvert_ensures (v : Vendored) (input : Span) (hn : InInt p.num) :
    (decodeAndConvert v input false (.ofInt p.format) p.num p.channels p.height p.width).Ensures
        (FrameConsistent (orderOf (.ofInt p.format)) p.num p.channels p.height p.width) ↔
      FrameOk p input := by
  unfold decodeAndConvert FrameOk
  by_cases hhw : p.height ≤ 0 ∨ p.width ≤ 0
  · rw [if_pos hhw]
    exact iff_of_true ensures_thrown (by tauto)
  rw [if_neg hhw]
  obtain ⟨hh, hw⟩ := not_or.1 hhw
  by_cases hs : input.size = 0
  · rw [if_pos hs]
    exact iff_of_true ensures_thrown (.inr (.inr (.inl hs)))
  rw [if_neg hs, if_neg Bool.false_ne_true, ok_bind, or_iff_right hh, or_iff_right hw, or_iff_right hs]
  rw [not_le] at hh hw
  unfold convertToBgr
  rcases DataFormat.ofInt_cases p.format with ⟨-, hf⟩ | ⟨-, hf⟩ | ⟨-, hf⟩ | ⟨-, -, -, hf | hf⟩
  all_goals simp only [hf]
  · refine convertNchw_ensures hn hh hw (not_frameConsistent ..) fun _ => ?_
    have h01 : ((0 : ℤ) = 1) = False := by simp
    rw [← h01]
    exact convertNhwc_ensures hn hh hw rfl
  · have h11 : ((1 : ℤ) = 1) = True := by simp
    rw [← h11]
    exact convertNhwc_ensures hn hh hw rfl
  · exact convertNv21_ensures v hs hh hw
  · exact iff_of_true ensures_thrown trivial
  · exact iff_of_true ensures_thrown trivial

theorem readDataParams_inInt (h : readDataParams params = .ok p) : InInt p.num := by
  unfold readDataParams at h
  simp only [bind_eq_ok] at h
  obtain ⟨v, -, n, hn, h⟩ := h
  obtain ⟨_, -, _, -, _, -, _, -, _, -, _, -, _, -, _, -, h⟩ := h
  cases h
  exact v.asInt_inInt hn

/-- A value that has members of some kind is an object, so that the other accesses to it succeed. -/
theorem algoParams_ok (libs : Libraries) (h : root.resolveReference "data_params" = .ok params) :
    ∃ algo, algoParams libs root = .ok algo := by
  unfold algoParams
  cases root with
  | null => exact ⟨_, rfl⟩
  | object members => exact ⟨_, rfl⟩
  | _ => cases h

theorem selfConsistent_iff (algo : Boxed) (frames : DataHandler) (output : Span) {order : ℤ} (h0 : p.format = 0 → order = 0)
    (h12 : p.format = 1 ∨ p.format = 2 → order = 1) (hf : p.format = 0 ∨ p.format = 1 ∨ p.format = 2) :
    SelfConsistent p [("params", algo), ("input_data", .span frames.toSpan), ("order", .int frames.format.toInt),
        ("data_shape", .vector [p.num, p.channels, p.height, p.width]), ("output_data", .span output)] ↔
      FrameConsistent order p.num p.channels p.height p.width frames := by
  constructor
  · rintro ⟨-, ⟨s, hs, hsize⟩, hplanar, hinter⟩
    cases hs
    refine ⟨hsize, ?_⟩
    rcases hf with hf | hf
    · rw [h0 hf]
      exact Boxed.int.inj (Option.some.inj (hplanar hf))
    · rw [h12 hf]
      exact Boxed.int.inj (Option.some.inj (hinter hf))
  · rintro ⟨hsize, rfl⟩
    refine ⟨rfl, ⟨_, rfl, hsize⟩, fun h => ?_, fun h => ?_⟩
    · exact congrArg (fun i => some (Boxed.int i)) (h0 h)
    · exact congrArg (fun i => some (Boxed.int i)) (h12 h)

theorem decodeAndConvert_other (v : Vendored) (input : Span) (hf : ¬ (p.format = 0 ∨ p.format = 1 ∨ p.format = 2)) :
    ∃ e, decodeAndConvert v input false (.ofInt p.format) p.num p.channels p.height p.width = .thrown e := by
  unfold decodeAndConvert
  split
  · exact ⟨_, rfl⟩
  split
  · exact ⟨_, rfl⟩
  rcases DataFormat.ofInt_cases p.format with ⟨h, -⟩ | ⟨h, -⟩ | ⟨h, -⟩ | ⟨-, -, -, h | h⟩
  · exact absurd (.inl h) hf
  · exact absurd (.inr (.inl h)) hf
  · exact absurd (.inr (.inr h)) hf
  · exact ⟨_, by rw [h]; rfl⟩
  · exact ⟨_, by rw [h]; rfl⟩

/-- **The map is consistent exactly when the frame is good.** -/
theorem requestMap_consistent_iff (libs : Libraries) (strParam : String) (root params : Json) (p : DataParams)
    (input output : Span) (hparse : libs.parse strParam = .ok (some root))
    (hparams : root.resolveReference "data_params" = .ok params) (hnonempty : params.empty = false)
    (hread : readDataParams params = .ok p) :
    (requestMap libs strParam input output).Ensures (SelfConsistent p) ↔ FrameOk p input := by
  unfold requestMap
  simp only [hparse, hparams, ok_bind, hnonempty, if_false, Bool.false_eq_true]
  unfold frameMap
  obtain ⟨algo, halgo⟩ := algoParams_ok libs hparams
  rw [hread, ok_bind, halgo]
  simp only [ok_bind]
  have hok := decodeAndConvert_ensures libs.toVendored input (readDataParams_inInt hread)
  by_cases hf : p.format = 0 ∨ p.format = 1 ∨ p.format = 2
  · have h0 : p.format = 0 → orderOf (.ofInt p.format) = 0 := by
      intro h
      rw [h]
      rfl
    have h12 : p.format = 1 ∨ p.format = 2 → orderOf (.ofInt p.format) = 1 := by
      rintro (h | h) <;> rw [h] <;> rfl
    have hmap (frames : DataHandler) := selfConsistent_iff algo frames output h0 h12 hf
    rw [ensures_map, ← hok]
    · exact forall_congr' fun frames => imp_congr_right fun _ => hmap frames
    · obtain ⟨d, hd⟩ := not_frameConsistent (orderOf (.ofInt p.format)) p.num p.channels p.height p.width
      exact ⟨d, fun h => hd ((hmap d).1 h)⟩
  · obtain ⟨e, he⟩ := decodeAndConvert_other libs.toVendored input hf
    rw [← hok, he, thrown_bind]
    exact iff_of_true ensures_thrown ensures_thrown

end Consistency

/-- **The good frames** among those of a positive shape, where shape and buffer are within the range of `int`: a buffer
that is too small is rejected, one of the exact size passes, one with slack passes for a single interleaved row only, and
an `NV21` buffer passes never. -/
theorem frameOk_iff (p : DataParams) (input : Span) (hn : 0 < p.num) (hc : 0 < p.channels) (hh : 0 < p.height)
    (hw : 0 < p.width) (hin : InInt (p.num * p.channels * p.height * p.width)) (hsize : (input.size : ℤ) ≤ maxInt) :
    FrameOk p input ↔
      match DataFormat.ofInt p.format with
      | .imageBgrNchw => (input.size : ℤ) ≤ p.num * p.channels * p.height * p.width
      | .imageBgrNhwc => (input.size : ℤ) ≤ p.num * p.channels * p.height * p.width ∨
          p.num = 1 ∧ p.height = 1 ∧ p.channels * p.width ≤ input.bytes.length
      | .imageNv21 => p.height % 2 ≠ 0 ∨ (input.size : ℤ) ≠ p.num * (p.height * p.width * p.channels / 2)
      | _ => True := by
  have hpos : 0 < p.num * p.channels * p.height * p.width := mul_pos (mul_pos (mul_pos hn hc) hh) hw
  unfold FrameOk
  rw [or_iff_right hh.not_ge, or_iff_right hw.not_ge]
  rcases DataFormat.ofInt_cases p.format with ⟨-, hf⟩ | ⟨-, hf⟩ | ⟨-, hf⟩ | ⟨-, -, -, hf | hf⟩
  all_goals simp only [hf]
  · rw [nchwOk_iff hn hc hh hw hin hsize]
    omega
  · rw [nhwcOk_iff hn hc hh hw hin hsize, true_and]
    omega
  · have hhwc : p.num * (p.height * p.width * p.channels) = p.num * p.channels * p.height * p.width := by ring
    have hhwc0 : 0 < p.height * p.width * p.channels := mul_pos (mul_pos hh hw) hc
    have hhwcin : InInt (p.height * p.width * p.channels) := inInt_of_nonneg hhwc0.le (by rw [← hhwc]; nlinarith) hin
    have hhalf : p.num * (p.height * p.width * p.channels / 2) ≤ p.num * (p.height * p.width * p.channels) :=
      mul_le_mul_of_nonneg_left (by omega) hn.le
    have hhalf0 : 0 ≤ p.num * (p.height * p.width * p.channels / 2) := mul_nonneg hn.le (by omega)
    have hhalfin : InInt (p.num * (p.height * p.width * p.channels / 2)) :=
      inInt_of_nonneg hhalf0 (hhalf.trans_eq hhwc) hin
    have hsizes : input.size ≠ toSize (p.num * (p.height * p.width * p.channels / 2)) ↔
        (input.size : ℤ) ≠ p.num * (p.height * p.width * p.channels / 2) := by
      rw [toSize_of_nonneg hhalf0 hhalfin]
      omega
    unfold Nv21Ok
    rw [hsizes]
    constructor
    · rintro (h0 | ⟨-, hodd | ⟨-, hne | ⟨-, hneg | hneg⟩⟩⟩)
      · by_contra hno
        rw [not_or, not_not, not_not] at hno
        -- an even height makes half of the product positive
        have h1 : 1 ≤ p.height * p.width * p.channels / 2 := by
          have h2 : 2 ≤ p.height := by omega
          have : 2 * 1 ≤ p.height * (p.width * p.channels) := mul_le_mul h2 (mul_pos hw hc) (by decide) hh.le
          rw [← mul_assoc] at this
          omega
        have := mul_pos hn h1
        omega
      · exact .inl hodd
      · exact .inr hne
      · omega
      · omega
    · rintro (hodd | hne)
      · exact .inr ⟨prodIn_of_le hh.le (by simp [hw, hc]) hhwcin, .inl hodd⟩
      · exact .inr ⟨prodIn_of_le hh.le (by simp [hw, hc]) hhwcin, .inr ⟨hhalfin, .inl hne⟩⟩
  · exact iff_of_true (.inr trivial) trivial
  · exact iff_of_true (.inr trivial) trivial

/-- Libraries whose reader makes `root` of every text. -/
def Libraries.reading (root : Json) : Libraries where
  nv21ToRgb24Row _ _ _ := some 0
  tb64xdec _ _ out := .ok out
  parse _ := .ok (some root)
  snprintf _ := ['0']

/-- A request with a frame of that height, width and format. -/
def frameRequest (channels height width format : Int64) : Json :=
  .object [("data_params", .object [("channels", .int channels), ("format", .int format), ("height", .int height),
    ("width", .int width)])]

/-- A span of `size` readable bytes. -/
def Span.zeros (size : ℕ) (h : size < 2 ^ 64) : Span := ⟨some (List.replicate size (some 0)), size, h⟩

theorem exactFrame_consistent :
    (requestMap (.reading (frameRequest 3 2 2 1)) "" (.zeros 12 (by decide)) (.zeros 0 (by decide))).Ensures
      (SelfConsistent ⟨1, 3, 2, 2, 1⟩) := by
  refine (requestMap_consistent_iff (.reading (frameRequest 3 2 2 1)) "" (frameRequest 3 2 2 1) _ ⟨1, 3, 2, 2, 1⟩
    (.zeros 12 (by decide)) (.zeros 0 (by decide)) rfl rfl rfl rfl).2 ?_
  refine .inr (.inr (.inr ⟨by decide, .inl (by decide), .inr ⟨by decide, by decide, .inr (.inl ?_)⟩⟩))
  exact ⟨by decide, by decide⟩

/-- A byte too many stays in the span of an interleaved frame, and in a planar one of one pixel the two bytes are
repacked as interleaved. -/
theorem not_consistent_slack :
    (∃ m, requestMap (.reading (frameRequest 3 2 2 1)) "" (.zeros 13 (by decide)) (.zeros 0 (by decide)) = .ok m ∧
      m.lookup "input_data" = some (.span (.zeros 13 (by decide))) ∧ ¬ SelfConsistent ⟨1, 3, 2, 2, 1⟩ m) ∧
    ∃ m, requestMap (.reading (frameRequest 1 1 1 0)) "" (.zeros 2 (by decide)) (.zeros 0 (by decide)) = .ok m ∧
      m.lookup "order" = some (.int 1) ∧ ¬ SelfConsistent ⟨1, 1, 1, 1, 0⟩ m := by
  refine ⟨⟨_, rfl, rfl, ?_⟩, ⟨_, rfl, rfl, ?_⟩⟩
  · rintro ⟨-, ⟨s, hs, hsize⟩, -, -⟩
    cases hs
    exact absurd hsize (by decide)
  · rintro ⟨-, -, hplanar, -⟩
    exact absurd (hplanar rfl) (by decide)

end Nessus.Parser
