import Nessus.Parser.FrameSpec

/-!
# Repacking of interleaved frames

What the case `IMAGE_BGR_NHWC` makes of a frame whose rows are padded: the rows without their padding, if the frame is
a single row, and undefined behaviour otherwise.
-/

namespace Nessus.Parser

open Nessus.Lib Nessus.Abi Outcome

/-- `n` interleaved images of `h` rows each, in a buffer with `stride` bytes a row, where a row has less. -/
structure PaddedNhwc (src : DataHandler) (n c h w stride : ℤ) : Prop where
  format : src.format = .imageBgrNhwc
  n_pos : 0 < n
  c_pos : 0 < c
  h_pos : 0 < h
  w_pos : 0 < w
  padded : c * w < stride
  size : (src.size : ℤ) = n * h * stride
  length : src.bytes.length = src.size
  inInt : InInt (n * h * stride)

/-- `dst` is the frame `src` without the padding of its rows. -/
structure Repacked (src dst : DataHandler) (n c h w stride : ℤ) : Prop where
  format : dst.format = .imageBgrNhwc
  size : (dst.size : ℤ) = n * h * w * c
  length : (dst.bytes.length : ℤ) = n * h * w * c
  row : ∀ i y k : ℤ, 0 ≤ i → i < n → 0 ≤ y → y < h → 0 ≤ k → k < c * w →
    dst.bytes[((i * h + y) * (c * w) + k).toNat]? = src.bytes[((i * h + y) * stride + k).toNat]?

namespace PaddedNhwc

variable {src : DataHandler} {n c h w stride : ℤ}

theorem cw_pos (hp : PaddedNhwc src n c h w stride) : 0 < c * w := mul_pos hp.c_pos hp.w_pos

theorem nh_pos (hp : PaddedNhwc src n c h w stride) : 0 < n * h := mul_pos hp.n_pos hp.h_pos

theorem stride_pos (hp : PaddedNhwc src n c h w stride) : 0 < stride := hp.cw_pos.trans hp.padded

theorem le_maxInt (hp : PaddedNhwc src n c h w stride) : (src.size : ℤ) ≤ maxInt := hp.size ▸ hp.inInt.2

theorem rows_inInt (hp : PaddedNhwc src n c h w stride) : InInt (n * h) :=
  inInt_of_nonneg hp.nh_pos.le (le_mul_of_one_le_right hp.nh_pos.le hp.stride_pos) hp.inInt

theorem n_inInt (hp : PaddedNhwc src n c h w stride) : InInt n :=
  inInt_of_nonneg hp.n_pos.le (le_mul_of_one_le_right hp.n_pos.le hp.h_pos) hp.rows_inInt

theorem stride_inInt (hp : PaddedNhwc src n c h w stride) : InInt stride :=
  inInt_of_nonneg hp.stride_pos.le (le_mul_of_one_le_left hp.stride_pos.le hp.nh_pos) hp.inInt

theorem cw_inInt (hp : PaddedNhwc src n c h w stride) : InInt (c * w) :=
  inInt_of_nonneg hp.cw_pos.le hp.padded.le hp.stride_inInt

theorem nchw_nonneg (hp : PaddedNhwc src n c h w stride) : 0 ≤ n * c * h * w :=
  (mul_pos (mul_pos (mul_pos hp.n_pos hp.c_pos) hp.h_pos) hp.w_pos).le

theorem nchw_inInt (hp : PaddedNhwc src n c h w stride) : InInt (n * c * h * w) := by
  refine inInt_of_nonneg hp.nchw_nonneg ?_ hp.inInt
  calc n * c * h * w = n * h * (c * w) := by ring
    _ ≤ n * h * stride := mul_le_mul_of_nonneg_left hp.padded.le hp.nh_pos.le

/-- The row stride that is computed from the size is the one the frame has. -/
theorem rowStride_eq (hp : PaddedNhwc src n c h w stride) : rowStride src.size n h = stride := by
  rw [rowStride, ofSize_div hp.nh_pos hp.rows_inInt hp.le_maxInt, hp.size, Int.mul_ediv_cancel_left _ hp.nh_pos.ne']

/-- The size is divisible by the number of images, so the guard does not look at the shape. -/
theorem sizeGuard_eq (hp : PaddedNhwc src n c h w stride) : sizeGuard src.size n h w c = .ok false :=
  sizeGuard_of_dvd hp.n_pos hp.n_inInt ⟨h * stride, by rw [hp.size, mul_assoc]⟩ h w c

theorem convertNhwc_eq (hp : PaddedNhwc src n c h w stride) :
    convertNhwc src n c h w =
      repackNhwc src.bytes n c h w stride (List.replicate (n * c * h * w).toNat none) >>= fun dst =>
      .ok (.heap dst (n * c * h * w) .imageBgrNhwc) := by
  have hrows : (prod n [h] : Outcome Exn ℤ) = .ok (n * h) := prod_eq ⟨hp.rows_inInt, trivial⟩
  have hlen : (prod c [w] : Outcome Exn ℤ) = .ok (c * w) := prod_eq ⟨hp.cw_inInt, trivial⟩
  have hsize : (prod n [c, h, w] : Outcome Exn ℤ) = .ok (n * c * h * w) :=
    prod_eq (prodIn_of_le hp.n_pos.le (by simp [hp.c_pos, hp.h_pos, hp.w_pos]) hp.nchw_inInt)
  obtain ⟨q, hdiv, rfl⟩ := (divSize_definedIff (ε := Exn) src.size hp.rows_inInt).defined hp.nh_pos.ne'
  have hq : ofSize (src.size / toSize (n * h)) = stride := hp.rowStride_eq
  have hnew : newBytes (n * c * h * w) = .ok (List.replicate (n * c * h * w).toNat none) :=
    if_neg hp.nchw_nonneg.not_gt
  unfold convertNhwc
  rw [hp.sizeGuard_eq, ok_bind, if_neg Bool.false_ne_true, hrows, ok_bind, hdiv, ok_bind, hlen, ok_bind]
  dsimp only
  rw [hq, if_neg hp.padded.ne', if_pos hp.padded, hsize, ok_bind, hnew, ok_bind]

theorem repackNhwc_row (hp : PaddedNhwc src 1 c 1 w stride) :
    repackNhwc src.bytes 1 c 1 w stride (List.replicate (1 * c * 1 * w).toNat none) =
      .ok (src.bytes.take (c * w).toNat) := by
  have h0 : InInt 0 := by decide
  have hz (l : List ℤ) : (prod 0 l : Outcome Exn ℤ) = .ok 0 := by
    induction l with
    | nil => rfl
    | cons b l ih =>
      have hb : (checked (0 * b) : Outcome Exn ℤ) = .ok 0 := by rw [zero_mul]; exact if_pos h0
      rw [prod, List.foldlM_cons, hb, ok_bind]
      exact ih
  have hlen : (prod c [w] : Outcome Exn ℤ) = .ok (c * w) := prod_eq ⟨hp.cw_inInt, trivial⟩
  have hcw := hp.cw_pos
  have hsrc : c * w ≤ src.bytes.length := by
    have := hp.padded
    rw [hp.length, hp.size]
    omega
  have hloop (body : ℤ → List Byte → Outcome Exn (List Byte)) (s : List Byte) : forRange 1 body s = body 0 s := by
    show body 0 s >>= pure = body 0 s
    exact bind_pure _
  unfold repackNhwc
  rw [hloop, hloop]
  unfold copyNhwc
  simp only [hz, hlen, ok_bind, zero_add]
  rw [copy, if_pos ⟨le_rfl, hcw.le, hsrc, le_rfl, by simp⟩]
  simp

end PaddedNhwc

/-- **A padded frame is repacked exactly if it is a single row.** -/
theorem convertToBgr_repacked_iff (v : Vendored) (src : DataHandler) (n c h w stride : ℤ)
    (hp : PaddedNhwc src n c h w stride) :
    (∃ dst, convertToBgr v src n c h w = .ok dst ∧ Repacked src dst n c h w stride) ↔ n = 1 ∧ h = 1 := by
  have hconv : convertToBgr v src n c h w = convertNhwc src n c h w := by rw [convertToBgr, hp.format]
  rw [hconv, hp.convertNhwc_eq]
  constructor
  · rintro ⟨dst, hdst, -⟩
    have hnew : ((List.replicate (n * c * h * w).toNat none : List Byte).length : ℤ) = n * c * h * w := by
      rw [List.length_replicate, Int.toNat_of_nonneg hp.nchw_nonneg]
    have hloop := (repackNhwc_definedIff src.bytes hnew n c h w stride).congr
      (repackNhwcIn_iff hp.n_pos.ne' hp.h_pos hp.w_pos hp.padded hp.cw_inInt hp.nchw_nonneg)
    by_contra hno
    have hn := hp.n_pos
    rw [hloop.undefined (by omega), undefined_bind] at hdst
    cases hdst
  · rintro ⟨rfl, rfl⟩
    rw [hp.repackNhwc_row, ok_bind]
    have hcw := hp.cw_pos
    have hle : (c * w).toNat ≤ src.bytes.length := by
      have h₁ := hp.padded
      have h₂ := hp.size
      rw [hp.length]
      omega
    have hshape : (1 : ℤ) * 1 * w * c = 1 * c * 1 * w := by ring
    refine ⟨_, rfl, rfl, ?_, ?_, fun i y k hi₀ hi hy₀ hy hk₀ hk => ?_⟩
    · rw [hshape]
      show (toSize (1 * c * 1 * w) : ℤ) = 1 * c * 1 * w
      rw [toSize_of_nonneg hp.nchw_nonneg hp.nchw_inInt, Int.toNat_of_nonneg hp.nchw_nonneg]
    · show ((src.bytes.take (c * w).toNat).length : ℤ) = 1 * 1 * w * c
      rw [List.length_take_of_le hle, Int.toNat_of_nonneg hcw.le]
      ring
    · obtain rfl : i = 0 := by omega
      obtain rfl : y = 0 := by omega
      show (src.bytes.take (c * w).toNat)[_]? = _
      simp only [zero_mul, zero_add]
      exact List.getElem?_take_of_lt (by omega)

/-- An interleaved frame with the given bytes. -/
def nhwcFrame (bytes : List Byte) (h : bytes.length < 2 ^ 64) : DataHandler :=
  { data := some bytes, size := bytes.length, size_lt := h, format := .imageBgrNhwc, isHeapAllocated := false }

/-- Libraries that leave every buffer as it is. -/
def Vendored.idle : Vendored := ⟨fun _ _ _ => none, fun _ _ out => .ok out⟩

/-- A row of two pixels with three channels, with two bytes of padding. -/
theorem convertToBgr_repacked_row :
    ∃ dst, convertToBgr .idle (nhwcFrame [some 1, some 2, some 3, some 4, some 5, some 6, some 0, some 0] (by decide)) 1 3 1 2 =
        .ok dst ∧
      Repacked (nhwcFrame [some 1, some 2, some 3, some 4, some 5, some 6, some 0, some 0] (by decide)) dst 1 3 1 2 8 :=
  (convertToBgr_repacked_iff .idle _ 1 3 1 2 8
    ⟨rfl, by decide, by decide, by decide, by decide, by decide, rfl, rfl, by decide⟩).2 ⟨rfl, rfl⟩

/-- With a second row, the copy of it starts at the first row and writes behind the destination. -/
theorem not_forall_repacked : ¬ ∀ (v : Vendored) (src : DataHandler) (n c h w stride : ℤ),
    PaddedNhwc src n c h w stride → ∃ dst, convertToBgr v src n c h w = .ok dst ∧ Repacked src dst n c h w stride := by
  intro hall
  obtain ⟨dst, hdst, -⟩ := hall .idle (nhwcFrame [some 7, some 0, some 8, some 0] (by decide)) 1 1 2 1 2
    ⟨rfl, by decide, by decide, by decide, by decide, by decide, rfl, rfl, by decide⟩
  have hundef : convertToBgr .idle (nhwcFrame [some 7, some 0, some 8, some 0] (by decide)) 1 1 2 1 = .undefined := by
    decide +kernel
  rw [hundef] at hdst
  cases hdst

end Nessus.Parser
