import Nessus.Parser.FrameMap
import Nessus.Parser.Nv21

/-!
# The checks of a frame's arguments

When `decode_and_convert` rejects a request with `INVALID_ARGUMENT`, and what it has established where it does not.

* `decodeAndConvert_throws` — which requests are rejected;
* `decodeAndConvert_validates_iff` — where that leaves only requests that it may convert;
* `decodeAndConvert_validates_inRange` — the same for the shapes that are within the range of `int`.
-/

namespace Nessus.Parser

open Nessus.Lib Nessus.Abi Outcome

/-- `parser_exception(INVALID_ARGUMENT, ..)`. -/
def IsInvalidArgument (e : Exn) : Prop := ∃ what, e = invalidArgument what

theorem throws_invalidArgument (what : String) :
    (.thrown (invalidArgument what) : Outcome Exn DataHandler).Throws IsInvalidArgument :=
  throws_thrown.2 ⟨what, rfl⟩

theorem newBytes_throws {size : ℤ} {f : List Byte → Outcome Exn DataHandler} {E : Prop}
    (hf : 0 ≤ size → ∀ dst : List Byte, dst.length = size → ((f dst).Throws IsInvalidArgument ↔ E)) :
    (newBytes size >>= f).Throws IsInvalidArgument ↔ 0 ≤ size ∧ E := by
  unfold newBytes
  split
  · next h =>
    refine iff_of_false ?_ fun hE => by omega
    rw [thrown_bind, throws_thrown]
    rintro ⟨what, hwhat⟩
    cases hwhat
  · next h => rw [ok_bind, hf (by omega) _ (by simp; omega), and_iff_right (by omega)]

/-! ## The rejections -/

/-- The case `IMAGE_BGR_NHWC` rejects the frame. -/
def NhwcRejects (size : ℕ) (n c h w : ℤ) : Prop :=
  n ≠ 0 ∧ GuardIn size n h w c ∧
    (GuardRejects size n h w c ∨ InInt (n * h) ∧ InInt (c * w) ∧ rowStride size n h < c * w)

/-- The case `IMAGE_BGR_NCHW` rejects the frame, or leaves it to the next one and `E` holds of it. -/
def NchwRejects (E : Prop) (length size : ℕ) (n c h w : ℤ) : Prop :=
  n ≠ 0 ∧ GuardIn size n c h w ∧
    (GuardRejects size n c h w ∨
      ProdIn n [c, h] ∧ c ≠ 0 ∧
        (lineStride size n c h < w ∨
          lineStride size n c h = w ∧ E ∨
          w < lineStride size n c h ∧ ProdIn n [c, h, w] ∧ 0 ≤ n * c * h * w ∧
            (n < 0 ∨ LinesIn length n c h w (lineStride size n c h)) ∧ E))

/-- The case `IMAGE_NV21` rejects the frame. -/
def Nv21Rejects (size : ℕ) (n c h w : ℤ) : Prop :=
  ProdIn h [w, c] ∧ (h % 2 ≠ 0 ∨ InInt (n * (h * w * c / 2)) ∧ size ≠ toSize (n * (h * w * c / 2)))

def FrameRejected (format : DataFormat) (length size : ℕ) (n c h w : ℤ) : Prop :=
  h ≤ 0 ∨ w ≤ 0 ∨ size = 0 ∨
    match format with
    | .imageBgrNchw => NchwRejects (NhwcRejects size n c h w) length size n c h w
    | .imageBgrNhwc => NhwcRejects size n c h w
    | .imageNv21 => Nv21Rejects size n c h w
    | _ => True

section Throws

variable {src : DataHandler} {n c h w : ℤ}

theorem convertNhwc_throws (hn : InInt n) (hh : 0 < h) :
    (convertNhwc src n c h w).Throws IsInvalidArgument ↔ NhwcRejects src.size n c h w := by
  unfold convertNhwc NhwcRejects
  rw [← and_assoc]
  refine (sizeGuard_definedIff hn h w c).throws_bind fun bad hguard hbad => ?_
  cases bad with
  | true => exact iff_of_true (throws_invalidArgument _) (.inl (hbad.1 rfl))
  | false =>
    rw [if_neg Bool.false_ne_true, or_iff_right fun h => Bool.false_ne_true (hbad.2 h)]
    refine (prod_two_definedIff n h).throws_bind fun rows hrin hrows => ?_
    subst hrows
    obtain ⟨q, hq, rfl⟩ := (divSize_definedIff (ε := Exn) src.size hrin).defined (mul_ne_zero hguard.1 hh.ne')
    rw [hq, ok_bind]
    refine (prod_two_definedIff c w).throws_bind fun len hlin hlen => ?_
    subst hlen
    show (if rowStride src.size n h = c * w then _ else if rowStride src.size n h > c * w then _ else _ :
      Outcome Exn DataHandler).Throws _ ↔ _
    rcases lt_trichotomy (rowStride src.size n h) (c * w) with hlt | heq | hgt
    · rw [if_neg hlt.ne, if_neg hlt.not_gt]
      exact iff_of_true (throws_invalidArgument _) hlt
    · rw [if_pos heq]
      exact iff_of_false not_throws_ok (by omega)
    · rw [if_neg hgt.ne', if_pos hgt]
      -- from here on nothing is rejected
      refine iff_of_false ?_ (by omega)
      refine (prod_definedIff n [c, h, w]).noThrow.not_throws_bind fun size _ => ?_
      refine fun hthrow => (newBytes_throws (E := False) fun h0 dst hdst => iff_of_false ?_ id).1 hthrow |>.2
      exact (repackNhwc_definedIff src.bytes hdst n c h w _).noThrow.not_throws_bind fun _ _ => not_throws_ok

theorem convertNchw_throws {k : DataHandler → Outcome Exn DataHandler} {E : Prop} (hn : InInt n) (hh : 0 < h)
    (hw : 0 < w) (hk : ∀ d, (k d).Throws IsInvalidArgument ↔ E) :
    (convertNchw src n c h w >>= k).Throws IsInvalidArgument ↔ NchwRejects E src.bytes.length src.size n c h w := by
  unfold convertNchw NchwRejects
  rw [← and_assoc, bind_assoc]
  refine (sizeGuard_definedIff hn c h w).throws_bind fun bad hguard hbad => ?_
  have hn0 : n ≠ 0 := hguard.1
  cases bad with
  | true => exact iff_of_true (throws_invalidArgument _) (.inl (hbad.1 rfl))
  | false =>
    rw [if_neg Bool.false_ne_true, or_iff_right fun h => Bool.false_ne_true (hbad.2 h), bind_assoc]
    refine (prod_definedIff n [c, h]).throws_bind fun rows hrin hrows => ?_
    have hrin' : InInt (n * c * h) := hrin.2.1
    subst hrows
    have hne : n * c * h ≠ 0 ↔ c ≠ 0 := by simp [hn0, hh.ne']
    rw [bind_assoc]
    refine ((divSize_definedIff (ε := Exn) src.size hrin').congr hne).throws_bind fun q hc0 hq => ?_
    subst hq
    show ((if lineStride src.size n c h = w then _ else if lineStride src.size n c h > w then _ else _ :
      Outcome Exn DataHandler) >>= k).Throws _ ↔ _
    rcases lt_trichotomy (lineStride src.size n c h) w with hlt | heq | hgt
    · rw [if_neg hlt.ne, if_neg hlt.not_gt]
      exact iff_of_true (throws_invalidArgument _) (.inl hlt)
    · rw [if_pos heq, ok_bind, hk]
      constructor
      · exact fun hE => .inr (.inl ⟨heq, hE⟩)
      · rintro (hlt | ⟨-, hE⟩ | ⟨hgt, -⟩)
        · omega
        · exact hE
        · omega
    · rw [if_neg hgt.ne', if_pos hgt, or_iff_right hgt.not_gt, or_iff_right fun h => hgt.ne' h.1, and_iff_right hgt,
        bind_assoc]
      refine (prod_definedIff n [c, h, w]).throws_bind fun size hsin hsize => ?_
      subst hsize
      rw [bind_assoc]
      refine newBytes_throws fun h0 dst hdst => ?_
      rw [bind_assoc]
      refine (repackNchw_definedIff_lines src.bytes hn0 hc0 hh hw hgt h0 hdst).throws_bind fun dst _ _ => ?_
      rw [ok_bind, hk]

theorem convertNv21_throws (v : Vendored) (hh : 0 < h) (hw : 0 < w) :
    (convertNv21 v src n c h w).Throws IsInvalidArgument ↔ Nv21Rejects src.size n c h w := by
  unfold convertNv21 Nv21Rejects
  refine (prod_definedIff h [w, c]).throws_bind fun size _ hs => ?_
  obtain rfl : size = h * w * c := hs
  dsimp only
  by_cases hodd : h % 2 ≠ 0
  · rw [if_pos hodd]
    exact iff_of_true (throws_invalidArgument _) (.inl hodd)
  rw [if_neg hodd, or_iff_right hodd]
  refine (prod_two_definedIff n (h * w * c / 2)).throws_bind fun expected _ he => ?_
  subst he
  by_cases hbad : src.size ≠ toSize (n * (h * w * c / 2))
  · rw [if_pos hbad]
    exact iff_of_true (throws_invalidArgument _) hbad
  rw [if_neg hbad]
  refine iff_of_false ?_ hbad
  refine (prod_definedIff n [h * w * c]).noThrow.not_throws_bind fun total _ => ?_
  refine fun hthrow => (newBytes_throws (E := False) fun h0 dst hdst => iff_of_false ?_ id).1 hthrow |>.2
  have hloop : NoThrow (if 0 < n then growingLoop (nv21Frame v src c h w (h * w * c) 0) (maxInt - n).toNat dst
      else .ok dst) := by
    split
    · exact .inl (growingLoop_undefined (nv21Frame_noThrow v _ hw hh) _ _)
    · exact .inr ⟨_, rfl⟩
  exact hloop.not_throws_bind fun _ _ => (prod_definedIff _ [n]).noThrow.not_throws_bind fun _ _ => not_throws_ok

/-- **Which requests are rejected.** -/
theorem decodeAndConvert_throws (v : Vendored) (input : Span) (format : DataFormat) (hn : InInt n) :
    (decodeAndConvert v input false format n c h w).Throws IsInvalidArgument ↔
      FrameRejected format input.bytes.length input.size n c h w := by
  unfold decodeAndConvert FrameRejected
  by_cases hhw : h ≤ 0 ∨ w ≤ 0
  · rw [if_pos hhw]
    exact iff_of_true (throws_invalidArgument _) (by tauto)
  rw [if_neg hhw]
  obtain ⟨hh, hw⟩ := not_or.1 hhw
  by_cases hs : input.size = 0
  · rw [if_pos hs]
    exact iff_of_true (throws_invalidArgument _) (.inr (.inr (.inl hs)))
  rw [if_neg hs, if_neg Bool.false_ne_true, ok_bind, or_iff_right hh, or_iff_right hw, or_iff_right hs]
  rw [not_le] at hh hw
  cases format with
  | imageBgrNchw => exact convertNchw_throws hn hh hw fun _ => convertNhwc_throws hn hh
  | imageBgrNhwc => exact convertNhwc_throws hn hh
  | imageNv21 => exact convertNv21_throws v hh hw
  | unknow => exact iff_of_true (throws_invalidArgument _) trivial
  | other i => exact iff_of_true (throws_invalidArgument _) trivial

end Throws

/-! ## What is established -/

/-- A format of the `BGR` kind. -/
def IsBgr (format : DataFormat) : Prop := format = .imageBgrNchw ∨ format = .imageBgrNhwc

/-- The offsets of the last line, where the planar loops run. -/
def LineOffsetsIn (size : ℕ) (n c h w : ℤ) : Prop :=
  w < lineStride size n c h → InInt ((n - 1) * c * h * lineStride size n c h) ∧
    InInt ((c - 1) * h * lineStride size n c h) ∧ InInt ((h - 1) * lineStride size n c h)

/-- The offsets of the last row, where the interleaved loops run. -/
def RowOffsetsIn (size : ℕ) (n c h w : ℤ) : Prop :=
  c * w < rowStride size n h → InInt ((n - 1) * h * rowStride size n h) ∧ InInt ((n - 1) * rowStride size n h) ∧
    InInt ((h - 1) * rowStride size n h)

/-- The numbers of a frame are positive, and neither its size nor an offset in it overflows. -/
structure ShapeOk (format : DataFormat) (size : ℕ) (n c h w : ℤ) : Prop where
  n_pos : 0 < n
  c_pos : 0 < c
  h_pos : 0 < h
  w_pos : 0 < w
  product : InInt (n * c * h * w)
  lines : format = .imageBgrNchw → LineOffsetsIn size n c h w
  rows : IsBgr format → RowOffsetsIn size n c h w
  chroma : format = .imageNv21 → InInt (alignedWidth w * h)

/-- What the checks are there for: the shape is sound, and a `BGR` buffer holds it. -/
structure Validated (format : DataFormat) (size : ℕ) (n c h w : ℤ) : Prop extends ShapeOk format size n c h w where
  multiple : IsBgr format → n ∣ (size : ℤ)
  enough : IsBgr format → n * c * h * w ≤ size

section Small

variable {format : DataFormat} {size length : ℕ} {n c h w : ℤ}

/-- What a positive shape that is in range says of its parts. -/
theorem parts_inInt (hn : 0 < n) (hc : 0 < c) (hh : 0 < h) (hw : 0 < w) (hin : InInt (n * c * h * w)) :
    InInt n ∧ InInt (n * c * h) ∧ InInt (n * h) ∧ InInt (c * w) := by
  have hnc : 0 < n * c := mul_pos hn hc
  have hnch : 0 < n * c * h := mul_pos hnc hh
  have hnh : 0 < n * h := mul_pos hn hh
  have hcw : 0 < c * w := mul_pos hc hw
  have hnchin : InInt (n * c * h) := inInt_of_nonneg hnch.le (le_mul_of_one_le_right hnch.le hw) hin
  refine ⟨inInt_of_nonneg hn.le ?_ hnchin, hnchin, inInt_of_nonneg hnh.le ?_ hnchin, inInt_of_nonneg hcw.le ?_ hin⟩
  · exact (le_mul_of_one_le_right hn.le hc).trans (le_mul_of_one_le_right hnc.le hh)
  · rw [mul_right_comm]
    exact le_mul_of_one_le_right hnh.le hc
  · rw [show n * c * h * w = c * w * (n * h) by ring]
    exact le_mul_of_one_le_right hcw.le hnh

theorem rowStride_lt_iff (hn : 0 < n) (hc : 0 < c) (hh : 0 < h) (hw : 0 < w) (hin : InInt (n * c * h * w))
    (hsize : (size : ℤ) ≤ maxInt) : rowStride size n h < c * w ↔ (size : ℤ) < n * c * h * w := by
  have hnh : 0 < n * h := mul_pos hn hh
  rw [rowStride, ofSize_div hnh (parts_inInt hn hc hh hw hin).2.2.1 hsize, Int.ediv_lt_iff_lt_mul hnh,
    show c * w * (n * h) = n * c * h * w by ring]

theorem lineStride_lt_iff (hn : 0 < n) (hc : 0 < c) (hh : 0 < h) (hw : 0 < w) (hin : InInt (n * c * h * w))
    (hsize : (size : ℤ) ≤ maxInt) : lineStride size n c h < w ↔ (size : ℤ) < n * c * h * w := by
  have hnch : 0 < n * c * h := mul_pos (mul_pos hn hc) hh
  rw [lineStride, ofSize_div hnch (parts_inInt hn hc hh hw hin).2.1 hsize, Int.ediv_lt_iff_lt_mul hnch, mul_comm w]

/-- A buffer that is too small for a sound shape is rejected, if the guards can be evaluated. -/
theorem rejected_of_lt (hbgr : IsBgr format) (hn : 0 < n) (hc : 0 < c) (hh : 0 < h) (hw : 0 < w)
    (hin : InInt (n * c * h * w)) (hlt : (size : ℤ) < n * c * h * w) :
    FrameRejected format length size n c h w := by
  have hsize : (size : ℤ) ≤ maxInt := hlt.le.trans hin.2
  obtain ⟨-, hnchin, hnhin, hcwin⟩ := parts_inInt hn hc hh hw hin
  have hguard (a b d : ℤ) (ha : 0 < a) (hb : 0 < b) (hd : 0 < d) (habd : a * b * d * n = n * c * h * w) :
      GuardIn size n a b d := by
    have h0 : 0 ≤ a * b * d := (mul_pos (mul_pos ha hb) hd).le
    refine .inr (prodIn_of_le ha.le (by simp [hb, hd]) (inInt_of_nonneg h0 ?_ hin))
    rw [← habd]
    exact le_mul_of_one_le_right h0 hn
  refine .inr (.inr (.inr ?_))
  rcases hbgr with rfl | rfl
  · refine ⟨hn.ne', hguard c h w hc hh hw (by ring), .inr ⟨?_, hc.ne', .inl ?_⟩⟩
    · exact prodIn_of_le hn.le (by simp [hc, hh]) hnchin
    · exact (lineStride_lt_iff hn hc hh hw hin hsize).2 hlt
  · refine ⟨hn.ne', hguard h w c hh hw hc (by ring), .inr ⟨hnhin, hcwin, ?_⟩⟩
    exact (rowStride_lt_iff hn hc hh hw hin hsize).2 hlt

end Small

/-- **The checks leave nothing unsound exactly if** they reject the request, or it is one with a sound shape whose `BGR`
buffer is divisible by the number of images: nothing but a buffer that is too small is caught besides. -/
theorem decodeAndConvert_validates_iff (v : Vendored) (input : Span) (format : DataFormat) (n c h w : ℤ)
    (hn : InInt n) :
    (decodeAndConvert v input false format n c h w).Throws IsInvalidArgument ∨ Validated format input.size n c h w ↔
      FrameRejected format input.bytes.length input.size n c h w ∨
        ShapeOk format input.size n c h w ∧ (IsBgr format → n ∣ (input.size : ℤ)) := by
  rw [decodeAndConvert_throws v input format hn]
  constructor
  · rintro (hrej | hval)
    · exact .inl hrej
    · exact .inr ⟨hval.toShapeOk, hval.multiple⟩
  · rintro (hrej | ⟨hok, hdvd⟩)
    · exact .inl hrej
    · by_cases hbgr : IsBgr format
      · rcases lt_or_ge (input.size : ℤ) (n * c * h * w) with hlt | hge
        · exact .inl (rejected_of_lt hbgr hok.n_pos hok.c_pos hok.h_pos hok.w_pos hok.product hlt)
        · exact .inr ⟨hok, hdvd, fun _ => hge⟩
      · exact .inr ⟨hok, hdvd, fun h => absurd h hbgr⟩

/-- An interleaved frame of two rows of two pixels, in a buffer of its size. -/
theorem decodeAndConvert_validates_square :
    (decodeAndConvert .zeros (.zeros 12 (by decide)) false .imageBgrNhwc 1 3 2 2).Throws IsInvalidArgument ∨
      Validated .imageBgrNhwc 12 1 3 2 2 := by
  refine (decodeAndConvert_validates_iff .zeros (.zeros 12 (by decide)) .imageBgrNhwc 1 3 2 2 (by decide)).2
    (.inr ⟨?_, ?_⟩)
  · refine ⟨by decide, by decide, by decide, by decide, by decide, nofun, fun _ hlt => ?_, nofun⟩
    exact absurd hlt (by decide)
  · exact fun _ => by decide

/-- Two images of one element in a buffer of three bytes: the size is not divisible, but the quotient is not too
small. -/
theorem not_forall_validates : ¬ ∀ (v : Vendored) (input : Span) (format : DataFormat) (n c h w : ℤ),
    InInt n → InInt c → InInt h → InInt w →
      (decodeAndConvert v input false format n c h w).Throws IsInvalidArgument ∨
        Validated format input.size n c h w := by
  intro hall
  rcases hall .zeros (.zeros 3 (by decide)) .imageBgrNhwc 2 1 1 1 (by decide) (by decide) (by decide) (by decide)
    with ⟨e, hrun, -⟩ | hval
  · have hok : decodeAndConvert .zeros (.zeros 3 (by decide)) false .imageBgrNhwc 2 1 1 1 =
        .ok { Span.zeros 3 (by decide) with format := .imageBgrNhwc, isHeapAllocated := false } := by decide +kernel
    rw [hrun] at hok
    cases hok
  · exact absurd (hval.multiple (.inr rfl)) (by decide)

/-! ## Shapes within the range of `int` -/

section InRange

variable {format : DataFormat} {size length : ℕ} {n c h w : ℤ}

/-- A frame of a sound shape is rejected for a lack of bytes only. -/
theorem lt_of_rejected (hbgr : IsBgr format) (hn : 0 < n) (hc : 0 < c) (hh : 0 < h) (hw : 0 < w)
    (hin : InInt (n * c * h * w)) (hsize : (size : ℤ) ≤ maxInt) (hrej : FrameRejected format length size n c h w) :
    (size : ℤ) < n * c * h * w := by
  have hpos : 0 < n * c * h * w := mul_pos (mul_pos (mul_pos hn hc) hh) hw
  obtain ⟨hnin, -, -, -⟩ := parts_inInt hn hc hh hw hin
  have hguard {a b d : ℤ} (habd : a * b * d * n = n * c * h * w) (h0 : 0 < a * b * d) (hg : GuardRejects size n a b d) :
      (size : ℤ) < n * c * h * w := by
    rw [← habd]
    refine hg.lt hn hnin h0 (inInt_of_nonneg h0.le ?_ hin)
    rw [← habd]
    exact le_mul_of_one_le_right h0.le hn
  have hnhwc (hrej : NhwcRejects size n c h w) : (size : ℤ) < n * c * h * w := by
    obtain ⟨-, -, hg | ⟨-, -, hlt⟩⟩ := hrej
    · exact hguard (by ring) (mul_pos (mul_pos hh hw) hc) hg
    · exact (rowStride_lt_iff hn hc hh hw hin hsize).1 hlt
  obtain hrej | hrej | rfl | hrej := hrej
  · omega
  · omega
  · exact_mod_cast hpos
  · rcases hbgr with rfl | rfl
    · obtain ⟨-, -, hg | ⟨-, -, hlt | ⟨-, hnext⟩ | ⟨-, -, -, -, hnext⟩⟩⟩ := hrej
      · exact hguard (by ring) (mul_pos (mul_pos hc hh) hw) hg
      · exact (lineStride_lt_iff hn hc hh hw hin hsize).1 hlt
      · exact hnhwc hnext
      · exact hnhwc hnext
    · exact hnhwc hrej

/-- The offset of a part of the buffer is in range with the buffer. -/
theorem mul_div_inInt {a m : ℤ} (ha : 0 ≤ a) (ham : a ≤ m) (hm : 0 < m) (hsize : (size : ℤ) ≤ maxInt) :
    InInt (a * (size / m)) := by
  have hq : 0 ≤ (size : ℤ) / m := Int.ediv_nonneg (by omega) hm.le
  refine ⟨le_trans (by decide) (mul_nonneg ha hq), ?_⟩
  calc a * (size / m) ≤ m * (size / m) := mul_le_mul_of_nonneg_right ham hq
    _ ≤ size := Int.mul_ediv_self_le hm.ne'
    _ ≤ maxInt := hsize

theorem shapeOk_of_inRange (hbgr : IsBgr format) (hn : 0 < n) (hc : 0 < c) (hh : 0 < h) (hw : 0 < w)
    (hin : InInt (n * c * h * w)) (hsize : (size : ℤ) ≤ maxInt) : ShapeOk format size n c h w := by
  obtain ⟨-, hnchin, hnhin, -⟩ := parts_inInt hn hc hh hw hin
  have hnch : 0 < n * c * h := mul_pos (mul_pos hn hc) hh
  have hnh : 0 < n * h := mul_pos hn hh
  have hch : 0 < c * h := mul_pos hc hh
  have hnch' : n * c * h = n * (c * h) := mul_assoc n c h
  have hchn : c * h ≤ n * c * h := hnch' ▸ le_mul_of_one_le_left hch.le hn
  have hhc : h ≤ c * h := le_mul_of_one_le_left hh.le hc
  refine ⟨hn, hc, hh, hw, hin, fun _ _ => ?_, fun _ _ => ?_, ?_⟩
  · rw [lineStride, ofSize_div hnch hnchin hsize]
    refine ⟨mul_div_inInt ?_ ?_ hnch hsize, mul_div_inInt ?_ ?_ hnch hsize,
      mul_div_inInt (by omega) (by omega) hnch hsize⟩
    · exact mul_nonneg (mul_nonneg (by omega) hc.le) hh.le
    · exact mul_le_mul_of_nonneg_right (mul_le_mul_of_nonneg_right (by omega) hc.le) hh.le
    · exact mul_nonneg (by omega) hh.le
    · exact (mul_le_mul_of_nonneg_right (by omega) hh.le).trans hchn
  · rw [rowStride, ofSize_div hnh hnhin hsize]
    have hle₁ : n ≤ n * h := le_mul_of_one_le_right hn.le hh
    have hle₂ : h ≤ n * h := le_mul_of_one_le_left hh.le hn
    refine ⟨mul_div_inInt ?_ ?_ hnh hsize, mul_div_inInt (by omega) (by omega) hnh hsize,
      mul_div_inInt (by omega) (by omega) hnh hsize⟩
    · exact mul_nonneg (by omega) hh.le
    · exact mul_le_mul_of_nonneg_right (by omega) hh.le
  · intro hnv21
    rcases hbgr with rfl | rfl <;> cases hnv21

/-- **Where nothing overflows, the guards let exactly those buffers slip** that are large enough and not divisible by
the number of images. -/
theorem decodeAndConvert_validates_inRange (v : Vendored) (input : Span) (hbgr : IsBgr format) (hn : 0 < n) (hc : 0 < c)
    (hh : 0 < h) (hw : 0 < w) (hin : InInt (n * c * h * w)) (hsize : (input.size : ℤ) ≤ maxInt) :
    (decodeAndConvert v input false format n c h w).Throws IsInvalidArgument ∨ Validated format input.size n c h w ↔
      (input.size : ℤ) < n * c * h * w ∨ n ∣ (input.size : ℤ) := by
  rw [decodeAndConvert_throws v input format (parts_inInt hn hc hh hw hin).1]
  constructor
  · rintro (hrej | hval)
    · exact .inl (lt_of_rejected hbgr hn hc hh hw hin hsize hrej)
    · exact .inr (hval.multiple hbgr)
  · rintro (hlt | hdvd)
    · exact .inl (rejected_of_lt hbgr hn hc hh hw hin hlt)
    · rcases lt_or_ge (input.size : ℤ) (n * c * h * w) with hlt | hge
      · exact .inl (rejected_of_lt hbgr hn hc hh hw hin hlt)
      · exact .inr ⟨shapeOk_of_inRange hbgr hn hc hh hw hin hsize, fun _ => hdvd, fun _ => hge⟩

end InRange

end Nessus.Parser
