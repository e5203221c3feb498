import Nessus.Parser.FrameSpec

/-!
# Repacking of planar frames

What `convert_to_bgr` makes of a frame of format `IMAGE_BGR_NCHW`: the case itself takes the padding off its lines, but
the case that follows converts the source once more.

* `convertNchw_repacked` — the case alone repacks every frame;
* `convertToBgr_repackedNchw_iff` — with the case that follows, only the frames that have no padding come out as such.
-/

namespace Nessus.Parser

open Nessus.Lib Nessus.Abi Outcome

/-- `n` planar images of `c` planes with `h` lines each, in a buffer with `stride` bytes a line. -/
structure PlanarNchw (src : DataHandler) (n c h w stride : ℤ) : Prop where
  format : src.format = .imageBgrNchw
  n_pos : 0 < n
  c_pos : 0 < c
  h_pos : 0 < h
  w_pos : 0 < w
  w_le : w ≤ stride
  size : (src.size : ℤ) = n * c * h * stride
  length : src.bytes.length = src.size
  inInt : InInt (n * c * h * stride)

/-- `dst` is the frame `src` without the padding of its lines. -/
structure RepackedNchw (src dst : DataHandler) (n c h w stride : ℤ) : Prop where
  format : dst.format = .imageBgrNchw
  size : (dst.size : ℤ) = n * c * h * w
  length : (dst.bytes.length : ℤ) = n * c * h * w
  line : ∀ i j y x : ℤ, 0 ≤ i → i < n → 0 ≤ j → j < c → 0 ≤ y → y < h → 0 ≤ x → x < w →
    dst.bytes[(((i * c + j) * h + y) * w + x).toNat]? = src.bytes[(((i * c + j) * h + y) * stride + x).toNat]?

/-! ## The loops -/

/-- What a copy that stays in bounds leaves at each place. -/
theorem copy_get {src dst : List Byte} {first last d : ℤ} (h : CopyIn src.length first last dst.length d) :
    ∃ dst', copy src first last dst d = .ok dst' ∧ dst'.length = dst.length ∧
      (∀ x : ℤ, 0 ≤ x → x < last - first → dst'[(d + x).toNat]? = src[(first + x).toNat]?) ∧
      ∀ p : ℕ, (p : ℤ) < d ∨ d + (last - first) ≤ p → dst'[p]? = dst[p]? := by
  obtain ⟨h₁, h₂, h₃, h₄, h₅⟩ := h
  have hlen : (dst.take d.toNat).length = d.toNat := by rw [List.length_take]; omega
  have hmid : ((src.drop first.toNat).take (last - first).toNat).length = (last - first).toNat := by
    rw [List.length_take, List.length_drop]
    omega
  refine ⟨_, if_pos ⟨h₁, h₂, h₃, h₄, h₅⟩, ?_, fun x hx₀ hx => ?_, fun p hp => ?_⟩
  · simp only [List.length_append, hlen, hmid, List.length_drop]
    omega
  · rw [List.append_assoc, List.getElem?_append_right (by omega), List.getElem?_append_left (by omega), hlen,
      List.getElem?_take_of_lt (by omega), List.getElem?_drop]
    congr 1
    omega
  · rw [List.append_assoc]
    rcases hp with hp | hp
    · rw [List.getElem?_append_left (by omega), List.getElem?_take_of_lt (by omega)]
    · rw [List.getElem?_append_right (by omega), List.getElem?_append_right (by omega), hlen, hmid,
        List.getElem?_drop]
      congr 1
      omega

/-- The first `k` lines of the destination are those of the source. -/
def LinesCopied (src : List Byte) (size w stride k : ℤ) (dst : List Byte) : Prop :=
  dst.length = size ∧ ∀ m x : ℤ, 0 ≤ m → m < k → 0 ≤ x → x < w →
    dst[(m * w + x).toNat]? = src[(m * stride + x).toNat]?

theorem copyNchw_lines {src dst : List Byte} {size c h w stride i j y : ℤ} (hw : 0 < w)
    (hin : RowNchwIn src.length size c h w stride i j y) (hk : 0 ≤ i * c * h + j * h + y)
    (hlines : LinesCopied src size w stride (i * c * h + j * h + y) dst) :
    ∃ dst', copyNchw src c h w stride i j y dst = .ok dst' ∧
      LinesCopied src size w stride (i * c * h + j * h + (y + 1)) dst' := by
  obtain ⟨hlen, hlines⟩ := hlines
  obtain ⟨h₁, h₂, h₃, h₄, h₅, h₆, hcopy⟩ := hin
  obtain ⟨k, hkdef⟩ : ∃ k, k = i * c * h + j * h + y := ⟨_, rfl⟩
  rw [← hkdef] at hk hlines
  have hsrc : i * c * h * stride + j * h * stride + y * stride = k * stride := by rw [hkdef]; ring
  have hdst : i * c * h * w + j * h * w + y * w = k * w := by rw [hkdef]; ring
  rw [hsrc, hdst, ← hlen] at hcopy
  obtain ⟨dst', hrun, hlen', hnew, hold⟩ := copy_get hcopy
  refine ⟨dst', ?_, hlen'.symm ▸ hlen, fun m x hm₀ hm hx₀ hx => ?_⟩
  · unfold copyNchw
    simp only [prod_eq h₁, prod_eq h₂, prod_eq h₃, prod_eq h₄, prod_eq h₅, prod_eq h₆, ok_bind, List.foldl_cons,
      List.foldl_nil]
    rw [hsrc, hdst]
    exact hrun
  · rcases Int.lt_or_eq_of_le (by omega : m ≤ k) with hlt | rfl
    · -- an earlier line ends before the new one starts
      have hmk : (m + 1) * w ≤ k * w := mul_le_mul_of_nonneg_right hlt hw.le
      have hmw : 0 ≤ m * w := mul_nonneg hm₀ hw.le
      rw [add_mul, one_mul] at hmk
      rw [hold _ (.inl (by omega))]
      exact hlines m x hm₀ hlt hx₀ hx
    · exact hnew x hx₀ (by omega)

theorem repackNchw_lines {src dst : List Byte} {size n c h w stride : ℤ} (hn : 0 ≤ n) (hc : 0 ≤ c) (hh : 0 ≤ h)
    (hw : 0 < w) (hin : RepackNchwIn src.length size n c h w stride) (hlen : dst.length = size) :
    ∃ dst', repackNchw src n c h w stride dst = .ok dst' ∧ LinesCopied src size w stride (n * c * h) dst' := by
  refine forRange_ok (I := fun i => LinesCopied src size w stride (i * c * h)) hn (fun i s hi₀ hi hs => ?_)
    ⟨hlen, fun m x hm₀ hm => by omega⟩
  have hich : 0 ≤ i * c * h := mul_nonneg (mul_nonneg hi₀ hc) hh
  have hplanes : ∃ s', forRange c (fun j => forRange h fun y => copyNchw src c h w stride i j y) s = .ok s' ∧
      LinesCopied src size w stride (i * c * h + c * h) s' := by
    refine forRange_ok (I := fun j => LinesCopied src size w stride (i * c * h + j * h)) hc
      (fun j s hj₀ hj hs => ?_) (by simpa using hs)
    have hjh : 0 ≤ j * h := mul_nonneg hj₀ hh
    have hlines : ∃ s', forRange h (fun y => copyNchw src c h w stride i j y) s = .ok s' ∧
        LinesCopied src size w stride (i * c * h + j * h + h) s' := by
      refine forRange_ok (I := fun y => LinesCopied src size w stride (i * c * h + j * h + y)) hh
        (fun y s hy₀ hy hs => ?_) (by simpa using hs)
      exact copyNchw_lines hw (hin i hi₀ hi j hj₀ hj y hy₀ hy) (by omega) hs
    obtain ⟨s', hrun, hs'⟩ := hlines
    exact ⟨s', hrun, by rwa [add_mul, one_mul, ← add_assoc]⟩
  obtain ⟨s', hrun, hs'⟩ := hplanes
  exact ⟨s', hrun, by rwa [add_mul, add_mul, one_mul]⟩

/-! ## The case -/

namespace PlanarNchw

variable {src : DataHandler} {n c h w stride : ℤ}

theorem stride_pos (hp : PlanarNchw src n c h w stride) : 0 < stride := hp.w_pos.trans_le hp.w_le

theorem nch_pos (hp : PlanarNchw src n c h w stride) : 0 < n * c * h := mul_pos (mul_pos hp.n_pos hp.c_pos) hp.h_pos

theorem nchw_pos (hp : PlanarNchw src n c h w stride) : 0 < n * c * h * w := mul_pos hp.nch_pos hp.w_pos

theorem le_maxInt (hp : PlanarNchw src n c h w stride) : (src.size : ℤ) ≤ maxInt := hp.size ▸ hp.inInt.2

theorem lines_inInt (hp : PlanarNchw src n c h w stride) : InInt (n * c * h) :=
  inInt_of_nonneg hp.nch_pos.le (le_mul_of_one_le_right hp.nch_pos.le hp.stride_pos) hp.inInt

theorem nchw_inInt (hp : PlanarNchw src n c h w stride) : InInt (n * c * h * w) :=
  inInt_of_nonneg hp.nchw_pos.le (mul_le_mul_of_nonneg_left hp.w_le hp.nch_pos.le) hp.inInt

theorem n_inInt (hp : PlanarNchw src n c h w stride) : InInt n := by
  have hnc : 0 < n * c := mul_pos hp.n_pos hp.c_pos
  refine inInt_of_nonneg hp.n_pos.le ?_ hp.lines_inInt
  exact (le_mul_of_one_le_right hp.n_pos.le hp.c_pos).trans (le_mul_of_one_le_right hnc.le hp.h_pos)

theorem rows_inInt (hp : PlanarNchw src n c h w stride) : InInt (n * h) := by
  have hnh : 0 < n * h := mul_pos hp.n_pos hp.h_pos
  refine inInt_of_nonneg hnh.le ?_ hp.lines_inInt
  rw [mul_right_comm]
  exact le_mul_of_one_le_right hnh.le hp.c_pos

theorem cw_inInt (hp : PlanarNchw src n c h w stride) : InInt (c * w) := by
  have hcw : 0 < c * w := mul_pos hp.c_pos hp.w_pos
  refine inInt_of_nonneg hcw.le ?_ hp.nchw_inInt
  rw [show n * c * h * w = c * w * (n * h) by ring]
  exact le_mul_of_one_le_right hcw.le (mul_pos hp.n_pos hp.h_pos)

/-- The line stride that is computed from the size is the one the frame has. -/
theorem lineStride_eq (hp : PlanarNchw src n c h w stride) : lineStride src.size n c h = stride := by
  rw [lineStride, ofSize_div hp.nch_pos hp.lines_inInt hp.le_maxInt, hp.size, Int.mul_ediv_cancel_left _ hp.nch_pos.ne']

/-- The rows of the interleaved format would have the padding of `c` lines. -/
theorem rowStride_eq (hp : PlanarNchw src n c h w stride) : rowStride src.size n h = c * stride := by
  have hnh : 0 < n * h := mul_pos hp.n_pos hp.h_pos
  have hsize : n * c * h * stride = n * h * (c * stride) := by ring
  rw [rowStride, ofSize_div hnh hp.rows_inInt hp.le_maxInt, hp.size, hsize, Int.mul_ediv_cancel_left _ hnh.ne']

/-- The size is divisible by the number of images, so the guards do not look at the shape. -/
theorem sizeGuard_eq (hp : PlanarNchw src n c h w stride) (a b d : ℤ) : sizeGuard src.size n a b d = .ok false :=
  sizeGuard_of_dvd hp.n_pos hp.n_inInt ⟨c * h * stride, by rw [hp.size]; ring⟩ a b d

theorem prod_rows (hp : PlanarNchw src n c h w stride) : (prod n [c, h] : Outcome Exn ℤ) = .ok (n * c * h) :=
  prod_eq (prodIn_of_le hp.n_pos.le (by simp [hp.c_pos, hp.h_pos]) hp.lines_inInt)

theorem linesIn (hp : PlanarNchw src n c h w stride) : LinesIn src.bytes.length n c h w stride := by
  have hin {a b : ℤ} (ha : 0 ≤ a) (hab : a ≤ n * c * h) : InInt (a * stride) :=
    inInt_of_nonneg (mul_nonneg ha hp.stride_pos.le) (mul_le_mul_of_nonneg_right hab hp.stride_pos.le) hp.inInt
  have hn := hp.n_pos
  have hc := hp.c_pos
  have hh := hp.h_pos
  have hch : 0 < c * h := mul_pos hc hh
  have hnch : n * c * h = n * (c * h) := mul_assoc n c h
  have hchn : c * h ≤ n * c * h := hnch ▸ le_mul_of_one_le_left hch.le hn
  have hhc : h ≤ c * h := le_mul_of_one_le_left hh.le hc
  refine ⟨hin (b := 0) (mul_nonneg (mul_nonneg (by omega) hc.le) hh.le) ?_,
    hin (b := 0) (mul_nonneg (by omega) hh.le) ?_, hin (b := 0) (by omega) (by omega), ?_⟩
  · exact mul_le_mul_of_nonneg_right (mul_le_mul_of_nonneg_right (by omega) hc.le) hh.le
  · exact (mul_le_mul_of_nonneg_right (by omega) hh.le).trans hchn
  · have hle := hp.w_le
    rw [hp.length, hp.size, sub_mul, one_mul]
    omega

theorem convertNchw_eq (hp : PlanarNchw src n c h w stride) :
    convertNchw src n c h w =
      if stride = w then .ok src
      else if stride > w then
        prod n [c, h, w] >>= fun size =>
        newBytes size >>= fun dst =>
        repackNchw src.bytes n c h w stride dst >>= fun dst =>
        .ok (.heap dst size .imageBgrNchw)
      else .thrown (invalidArgument "stride < w") := by
  obtain ⟨q, hdiv, rfl⟩ := (divSize_definedIff (ε := Exn) src.size hp.lines_inInt).defined hp.nch_pos.ne'
  have hq : ofSize (src.size / toSize (n * c * h)) = stride := hp.lineStride_eq
  unfold convertNchw
  rw [hp.sizeGuard_eq, ok_bind, if_neg Bool.false_ne_true, hp.prod_rows, ok_bind, hdiv, ok_bind]
  dsimp only
  rw [hq]

/-- The case `IMAGE_BGR_NHWC` on the same source, after its checks. -/
theorem convertNhwc_eq (hp : PlanarNchw src n c h w stride) :
    convertNhwc src n c h w =
      if c * stride = c * w then .ok src
      else if c * stride > c * w then
        prod n [c, h, w] >>= fun size =>
        newBytes size >>= fun dst =>
        repackNhwc src.bytes n c h w (c * stride) dst >>= fun dst =>
        .ok (.heap dst size .imageBgrNhwc)
      else .thrown (invalidArgument "stride < c * w") := by
  have hnh : n * h ≠ 0 := (mul_pos hp.n_pos hp.h_pos).ne'
  have hrows : (prod n [h] : Outcome Exn ℤ) = .ok (n * h) := prod_eq ⟨hp.rows_inInt, trivial⟩
  have hlen : (prod c [w] : Outcome Exn ℤ) = .ok (c * w) := prod_eq ⟨hp.cw_inInt, trivial⟩
  obtain ⟨q, hdiv, rfl⟩ := (divSize_definedIff (ε := Exn) src.size hp.rows_inInt).defined hnh
  have hq : ofSize (src.size / toSize (n * h)) = c * stride := hp.rowStride_eq
  unfold convertNhwc
  rw [hp.sizeGuard_eq, ok_bind, if_neg Bool.false_ne_true, hrows, ok_bind, hdiv, ok_bind, hlen, ok_bind]
  dsimp only
  rw [hq]

/-- **The case alone repacks every frame**, padded or not. -/
theorem convertNchw_repacked (hp : PlanarNchw src n c h w stride) :
    ∃ dst, convertNchw src n c h w = .ok dst ∧ RepackedNchw src dst n c h w stride := by
  rcases hp.w_le.eq_or_lt with rfl | hpad
  · refine ⟨src, by rw [hp.convertNchw_eq, if_pos rfl], hp.format, hp.size, ?_, fun _ _ _ _ _ _ _ _ _ _ _ _ => rfl⟩
    rw [hp.length, hp.size]
  have hnew : ((List.replicate (n * c * h * w).toNat none : List Byte).length : ℤ) = n * c * h * w := by
    rw [List.length_replicate, Int.toNat_of_nonneg hp.nchw_pos.le]
  have hsize : (prod n [c, h, w] : Outcome Exn ℤ) = .ok (n * c * h * w) :=
    prod_eq (prodIn_of_le hp.n_pos.le (by simp [hp.c_pos, hp.h_pos, hp.w_pos]) hp.nchw_inInt)
  have hbuffer : newBytes (n * c * h * w) = .ok (List.replicate (n * c * h * w).toNat none) :=
    if_neg hp.nchw_pos.le.not_gt
  have hin := (repackNchwIn_iff hp.n_pos hp.c_pos hp.h_pos hp.w_pos hpad).2 hp.linesIn
  obtain ⟨dst, hrun, hlen, hlines⟩ := repackNchw_lines hp.n_pos.le hp.c_pos.le hp.h_pos.le hp.w_pos hin hnew
  refine ⟨.heap dst (n * c * h * w) .imageBgrNchw, ?_, rfl, ?_, hlen, fun i j y x hi₀ hi hj₀ hj hy₀ hy => ?_⟩
  · rw [hp.convertNchw_eq, if_neg hpad.ne', if_pos hpad, hsize, ok_bind, hbuffer, ok_bind, hrun, ok_bind]
  · show (toSize (n * c * h * w) : ℤ) = n * c * h * w
    rw [toSize_of_nonneg hp.nchw_pos.le hp.nchw_inInt, Int.toNat_of_nonneg hp.nchw_pos.le]
  · have hc := hp.c_pos
    have hh := hp.h_pos
    have hplane₀ : 0 ≤ i * c + j := add_nonneg (mul_nonneg hi₀ hc.le) hj₀
    have hplane : i * c + j + 1 ≤ n * c := by
      have : (i + 1) * c ≤ n * c := mul_le_mul_of_nonneg_right hi hc.le
      rw [add_mul, one_mul] at this
      omega
    have hline₀ : 0 ≤ (i * c + j) * h := mul_nonneg hplane₀ hh.le
    have hline : (i * c + j) * h + h ≤ n * c * h := by
      have := mul_le_mul_of_nonneg_right hplane hh.le
      rwa [add_mul, one_mul] at this
    exact hlines ((i * c + j) * h + y) x (by omega) (by omega)

/-- Whatever the case `IMAGE_BGR_NHWC` makes of a padded planar frame is interleaved. -/
theorem convertNhwc_format (hp : PlanarNchw src n c h w stride) (hpad : w < stride) {dst : DataHandler}
    (hrun : convertNhwc src n c h w = .ok dst) : dst.format = .imageBgrNhwc := by
  have hlt : c * w < c * stride := mul_lt_mul_of_pos_left hpad hp.c_pos
  rw [hp.convertNhwc_eq, if_neg hlt.ne', if_pos hlt] at hrun
  obtain ⟨size, -, hrun⟩ := bind_eq_ok.1 hrun
  obtain ⟨buffer, -, hrun⟩ := bind_eq_ok.1 hrun
  obtain ⟨filled, -, hrun⟩ := bind_eq_ok.1 hrun
  cases hrun
  rfl

end PlanarNchw

/-- **A planar frame comes out repacked exactly if it has no padding**: what the case `IMAGE_BGR_NCHW` makes of a padded
one is replaced by what the next case makes of it. -/
theorem convertToBgr_repackedNchw_iff (v : Vendored) (src : DataHandler) (n c h w stride : ℤ)
    (hp : PlanarNchw src n c h w stride) :
    (∃ dst, convertToBgr v src n c h w = .ok dst ∧ RepackedNchw src dst n c h w stride) ↔ stride = w := by
  have hconv : convertToBgr v src n c h w = convertNchw src n c h w >>= fun _ => convertNhwc src n c h w := by
    rw [convertToBgr, hp.format]
  rw [hconv]
  obtain ⟨d, hrun, hd⟩ := hp.convertNchw_repacked
  rw [hrun, ok_bind]
  constructor
  · rintro ⟨dst, hdst, hrep⟩
    by_contra hne
    have hpad : w < stride := lt_of_le_of_ne hp.w_le (Ne.symm hne)
    have hformat := hp.convertNhwc_format hpad hdst
    rw [hrep.format] at hformat
    cases hformat
  · rintro rfl
    rw [hp.convertNchw_eq, if_pos rfl] at hrun
    cases hrun
    exact ⟨src, by rw [hp.convertNhwc_eq, if_pos rfl], hd⟩

/-- A planar frame with the given bytes. -/
def nchwFrame (bytes : List Byte) (h : bytes.length < 2 ^ 64) : DataHandler :=
  { data := some bytes, size := bytes.length, size_lt := h, format := .imageBgrNchw, isHeapAllocated := false }

def Vendored.zeros : Vendored := ⟨fun _ _ _ => some 0, fun _ _ out => .ok (out.map fun _ => some 0)⟩

/-- One line of two elements, without padding. -/
theorem convertToBgr_repackedNchw_line :
    ∃ dst, convertToBgr .zeros (nchwFrame [some 7, some 8] (by decide)) 1 1 1 2 = .ok dst ∧
      RepackedNchw (nchwFrame [some 7, some 8] (by decide)) dst 1 1 1 2 2 :=
  (convertToBgr_repackedNchw_iff .zeros _ 1 1 1 2 2
    ⟨rfl, by decide, by decide, by decide, by decide, by decide, rfl, rfl, by decide⟩).2 rfl

/-- One line of one element with a byte of padding comes out as an interleaved frame. -/
theorem not_forall_repackedNchw : ¬ ∀ (v : Vendored) (src : DataHandler) (n c h w stride : ℤ),
    PlanarNchw src n c h w stride →
      ∃ dst, convertToBgr v src n c h w = .ok dst ∧ RepackedNchw src dst n c h w stride := by
  intro hall
  obtain ⟨dst, hdst, hrep⟩ := hall .zeros (nchwFrame [some 7, some 0] (by decide)) 1 1 1 1 2
    ⟨rfl, by decide, by decide, by decide, by decide, by decide, rfl, rfl, by decide⟩
  have hrun : convertToBgr .zeros (nchwFrame [some 7, some 0] (by decide)) 1 1 1 1 =
      .ok (.heap [some 7] 1 .imageBgrNhwc) := by decide +kernel
  rw [hrun] at hdst
  cases hdst
  exact absurd hrep.format (by decide)

end Nessus.Parser
