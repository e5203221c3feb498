import Mathlib.Tactic.Ring
import Nessus.Parser.Frame

/-!
# What the conversions come to

For each case of `convert_to_bgr`: on which sizes and shapes it rejects, repacks, passes the source through or is
undefined.

* `repackNchw_definedIff`, `repackNhwc_definedIff` — when all copies of the two repacking loops are in bounds;
* `convertNchw_ensures`, `convertNhwc_ensures`, `convertNv21_ensures` — what follows for the size and the format of the
  result.
-/

namespace Nessus.Parser

open Nessus.Lib Nessus.Abi Outcome

/-! ## The guard -/

/-- `size % n != 0 && size / n < a * b * c` can be evaluated, where `n` is not zero. -/
def GuardIn (size : ℕ) (n a b c : ℤ) : Prop := size % toSize n = 0 ∨ ProdIn a [b, c]

def GuardRejects (size : ℕ) (n a b c : ℤ) : Prop := size % toSize n ≠ 0 ∧ size / toSize n < toSize (a * b * c)

theorem sizeGuard_definedIff {size : ℕ} {n : ℤ} (hn : InInt n) (a b c : ℤ) :
    DefinedIff (sizeGuard size n a b c) (n ≠ 0 ∧ GuardIn size n a b c)
      (fun bad => bad = true ↔ GuardRejects size n a b c) := by
  refine (modSize_definedIff size hn).bind fun r h0 hr => ?_
  subst hr
  by_cases hr : size % toSize n = 0
  · rw [if_neg (not_not.2 hr)]
    refine .ok_of (.inl hr) ?_
    exact iff_of_false Bool.false_ne_true fun h => h.1 hr
  · rw [if_pos hr]
    have h : DefinedIff
        (divSize size n >>= fun q => prod a [b, c] >>= fun p => (ok (decide (q < toSize p)) : Outcome Exn Bool))
        (n ≠ 0 ∧ ProdIn a [b, c] ∧ True) fun bad => bad = true ↔ GuardRejects size n a b c := by
      refine (divSize_definedIff size hn).bind fun q _ hq => (prod_definedIff a [b, c]).bind fun p _ hp => .of_ok ?_
      subst hq hp
      exact decide_eq_true_iff.trans (and_iff_right hr).symm
    exact h.congr (by simp [GuardIn, hr, h0])

theorem mod_toSize_of_dvd {size : ℕ} {n : ℤ} (hn : 0 < n) (hin : InInt n) (hdvd : n ∣ (size : ℤ)) :
    size % toSize n = 0 := by
  rw [toSize_of_nonneg hn.le hin]
  zify
  rw [Int.toNat_of_nonneg hn.le]
  exact Int.emod_eq_zero_of_dvd hdvd

/-- A size that is divisible by the number of images passes, whatever the shape. -/
theorem sizeGuard_of_dvd {size : ℕ} {n : ℤ} (hn : 0 < n) (hin : InInt n) (hdvd : n ∣ (size : ℤ)) (a b c : ℤ) :
    sizeGuard size n a b c = .ok false := by
  have hmod := mod_toSize_of_dvd hn hin hdvd
  obtain ⟨bad, hbad, hrej⟩ := (sizeGuard_definedIff hin a b c).defined ⟨hn.ne', .inl hmod⟩
  cases bad with
  | false => exact hbad
  | true => exact absurd hmod (hrej.1 rfl).1

/-! ## Copies -/

/-- `std::copy` from `first` to `last` and to `d` stays in both buffers. -/
def CopyIn (length : ℕ) (first last : ℤ) (size d : ℤ) : Prop :=
  0 ≤ first ∧ first ≤ last ∧ last ≤ length ∧ 0 ≤ d ∧ d + (last - first) ≤ size

theorem copy_definedIff {src dst : List Byte} {size : ℤ} (hdst : dst.length = size) (first last d : ℤ) :
    DefinedIff (copy src first last dst d) (CopyIn src.length first last size d) fun dst => dst.length = size := by
  subst hdst
  refine .ite fun h => ?_
  obtain ⟨h₁, h₂, h₃, h₄, h₅⟩ := h
  simp only [List.length_append, List.length_take, List.length_drop]
  omega

/-- One row of the planar format. -/
def RowNchwIn (length : ℕ) (size c h w stride i j y : ℤ) : Prop :=
  ProdIn i [c, h, stride] ∧ ProdIn j [h, stride] ∧ ProdIn y [stride] ∧ ProdIn i [c, h, w] ∧ ProdIn j [h, w] ∧
    ProdIn y [w] ∧ CopyIn length (i * c * h * stride + j * h * stride + y * stride)
      (i * c * h * stride + j * h * stride + y * stride + w) size (i * c * h * w + j * h * w + y * w)

theorem copyNchw_definedIff {src dst : List Byte} {size : ℤ} (hdst : dst.length = size) (c h w stride i j y : ℤ) :
    DefinedIff (copyNchw src c h w stride i j y dst) (RowNchwIn src.length size c h w stride i j y)
      fun dst => dst.length = size := by
  refine (prod_definedIff i [c, h, stride]).bind fun a _ ha => (prod_definedIff j [h, stride]).bind fun b _ hb =>
    (prod_definedIff y [stride]).bind fun r _ hr => (prod_definedIff i [c, h, w]).bind fun a' _ ha' =>
    (prod_definedIff j [h, w]).bind fun b' _ hb' => (prod_definedIff y [w]).bind fun r' _ hr' => ?_
  subst ha hb hr ha' hb' hr'
  exact copy_definedIff hdst _ _ _

/-- The loops over the planar format. -/
def RepackNchwIn (length : ℕ) (size n c h w stride : ℤ) : Prop :=
  ∀ i, 0 ≤ i → i < n → ∀ j, 0 ≤ j → j < c → ∀ y, 0 ≤ y → y < h → RowNchwIn length size c h w stride i j y

theorem repackNchw_definedIff {src dst : List Byte} {size : ℤ} (hdst : dst.length = size) (n c h w stride : ℤ) :
    DefinedIff (repackNchw src n c h w stride dst) (RepackNchwIn src.length size n c h w stride)
      fun dst => dst.length = size := by
  unfold repackNchw
  refine .forRange (fun i _ _ _ hs => .forRange (fun j _ _ _ hs => .forRange (fun y _ _ _ hs => ?_) hs) hs) hdst
  exact copyNchw_definedIff hs c h w stride i j y

/-- One row of the interleaved format. -/
def RowNhwcIn (length : ℕ) (size c h w stride i y : ℤ) : Prop :=
  ProdIn i [h, stride] ∧ ProdIn i [stride] ∧ ProdIn y [stride] ∧ ProdIn c [w] ∧ ProdIn i [c, h, w] ∧ ProdIn y [c, w] ∧
    CopyIn length (i * h * stride + i * stride) (i * h * stride + y * stride + c * w) size (i * c * h * w + y * c * w)

theorem copyNhwc_definedIff {src dst : List Byte} {size : ℤ} (hdst : dst.length = size) (c h w stride i y : ℤ) :
    DefinedIff (copyNhwc src c h w stride i y dst) (RowNhwcIn src.length size c h w stride i y)
      fun dst => dst.length = size := by
  refine (prod_definedIff i [h, stride]).bind fun a _ ha => (prod_definedIff i [stride]).bind fun b _ hb =>
    (prod_definedIff y [stride]).bind fun r _ hr => (prod_definedIff c [w]).bind fun len _ hlen =>
    (prod_definedIff i [c, h, w]).bind fun a' _ ha' => (prod_definedIff y [c, w]).bind fun r' _ hr' => ?_
  subst ha hb hr hlen ha' hr'
  exact copy_definedIff hdst _ _ _

/-- The loops over the interleaved format. -/
def RepackNhwcIn (length : ℕ) (size n c h w stride : ℤ) : Prop :=
  ∀ i, 0 ≤ i → i < n → ∀ y, 0 ≤ y → y < h → RowNhwcIn length size c h w stride i y

theorem repackNhwc_definedIff (src : List Byte) {dst : List Byte} {size : ℤ} (hdst : dst.length = size)
    (n c h w stride : ℤ) :
    DefinedIff (repackNhwc src n c h w stride dst) (RepackNhwcIn src.length size n c h w stride)
      fun dst => dst.length = size := by
  unfold repackNhwc
  refine .forRange (fun i _ _ _ hs => .forRange (fun y _ _ _ hs => ?_) hs) hdst
  exact copyNhwc_definedIff hs c h w stride i y

section InBounds

variable {length : ℕ} {n c h w stride : ℤ}

/-- The last line of the last image can be read, and its offset can be computed. -/
def LinesIn (length : ℕ) (n c h w stride : ℤ) : Prop :=
  InInt ((n - 1) * c * h * stride) ∧ InInt ((c - 1) * h * stride) ∧ InInt ((h - 1) * stride) ∧
    (n * c * h - 1) * stride + w ≤ length

/-- **The planar loops are defined exactly when the last line is in bounds.** -/
theorem repackNchwIn_iff (hn : 0 < n) (hc : 0 < c) (hh : 0 < h) (hw : 0 < w) (hs : w < stride) :
    RepackNchwIn length (n * c * h * w) n c h w stride ↔ LinesIn length n c h w stride := by
  have hs0 : 0 < stride := hw.trans hs
  constructor
  · intro hall
    obtain ⟨⟨-, -, h₁, -⟩, ⟨-, h₂, -⟩, ⟨h₃, -⟩, -, -, -, -, -, h₄, -⟩ :=
      hall (n - 1) (by omega) (by omega) (c - 1) (by omega) (by omega) (h - 1) (by omega) (by omega)
    refine ⟨h₁, h₂, h₃, le_trans (le_of_eq ?_) h₄⟩
    ring
  · rintro ⟨h₁, h₂, h₃, h₄⟩ i hi₀ hi j hj₀ hj y hy₀ hy
    have hi' : i * c * h ≤ (n - 1) * c * h :=
      mul_le_mul_of_nonneg_right (mul_le_mul_of_nonneg_right (by omega) hc.le) hh.le
    have hj' : j * h ≤ (c - 1) * h := mul_le_mul_of_nonneg_right (by omega) hh.le
    have hich : 0 ≤ i * c * h := mul_nonneg (mul_nonneg hi₀ hc.le) hh.le
    have hjh : 0 ≤ j * h := mul_nonneg hj₀ hh.le
    -- the number of the line among all lines
    obtain ⟨k, hk⟩ : ∃ k, k = i * c * h + j * h + y := ⟨_, rfl⟩
    have hk₀ : 0 ≤ k := by omega
    have hk₁ : k ≤ n * c * h - 1 := by
      have : n * c * h - 1 = (n - 1) * c * h + (c - 1) * h + (h - 1) := by ring
      omega
    have hsrc : i * c * h * stride + j * h * stride + y * stride = k * stride := by rw [hk]; ring
    have hdst : i * c * h * w + j * h * w + y * w = k * w := by rw [hk]; ring
    have hks : k * stride ≤ (n * c * h - 1) * stride := mul_le_mul_of_nonneg_right hk₁ hs0.le
    have hkw : (k + 1) * w ≤ n * c * h * w := mul_le_mul_of_nonneg_right (by omega) hw.le
    have hin {x m : ℤ} (hx : 0 ≤ x) (hxm : x ≤ m) (hm : InInt (m * stride)) :
        InInt (x * stride) ∧ InInt (x * w) := by
      have hle := mul_le_mul_of_nonneg_right hxm hs0.le
      exact ⟨inInt_of_nonneg (mul_nonneg hx hs0.le) hle hm,
        inInt_of_nonneg (mul_nonneg hx hw.le) ((mul_le_mul_of_nonneg_left hs.le hx).trans hle) hm⟩
    obtain ⟨hi₁, hi₂⟩ := hin hich hi' h₁
    obtain ⟨hj₁, hj₂⟩ := hin hjh hj' h₂
    obtain ⟨hy₁, hy₂⟩ := hin hy₀ (by omega : y ≤ h - 1) h₃
    refine ⟨prodIn_of_le hi₀ (by simp [hc, hh, hs0]) hi₁, prodIn_of_le hj₀ (by simp [hh, hs0]) hj₁,
      prodIn_of_le hy₀ (by simp [hs0]) hy₁, prodIn_of_le hi₀ (by simp [hc, hh, hw]) hi₂,
      prodIn_of_le hj₀ (by simp [hh, hw]) hj₂, prodIn_of_le hy₀ (by simp [hw]) hy₂, ?_⟩
    rw [hsrc, hdst]
    have h0 : 0 ≤ k * stride := mul_nonneg hk₀ hs0.le
    have h0' : 0 ≤ k * w := mul_nonneg hk₀ hw.le
    rw [add_mul, one_mul] at hkw
    exact ⟨h0, by omega, by omega, h0', by omega⟩

/-- **The interleaved loops are defined for a single row only**: they copy from the row of number `i`, and up to the end
of row `y`. -/
theorem repackNhwcIn_iff (hn : n ≠ 0) (hh : 0 < h) (hw : 0 < w) (hs : c * w < stride) (hcw : InInt (c * w))
    (hsize : 0 ≤ n * c * h * w) :
    RepackNhwcIn length (n * c * h * w) n c h w stride ↔ n < 0 ∨ n = 1 ∧ h = 1 ∧ c * w ≤ length := by
  constructor
  · intro hall
    rcases lt_or_gt_of_ne hn with hn | hn
    · exact .inl hn
    have hc : 0 ≤ c := by
      by_contra hc
      have h₁ : n * c < 0 := mul_neg_of_pos_of_neg hn (not_le.1 hc)
      have h₂ := mul_neg_of_neg_of_pos (mul_neg_of_neg_of_pos h₁ hh) hw
      omega
    have hcw0 : 0 ≤ c * w := mul_nonneg hc hw.le
    obtain rfl : n = 1 := by
      by_contra hn1
      obtain ⟨-, -, -, -, -, -, -, hle, -⟩ := hall 1 (by omega) (by omega) 0 le_rfl hh
      omega
    obtain rfl : h = 1 := by
      by_contra hh1
      obtain ⟨-, -, -, -, -, -, -, -, -, -, hle⟩ := hall 0 le_rfl (by omega) (h - 1) (by omega) (by omega)
      have h₁ : 0 < (h - 1) * stride := mul_pos (by omega) (by omega)
      have h₂ : 1 * c * h * w = (h - 1) * c * w + c * w := by ring
      simp only [zero_mul, zero_add, sub_zero] at hle
      omega
    obtain ⟨-, -, -, -, -, -, -, -, hle, -⟩ := hall 0 le_rfl (by omega) 0 le_rfl (by omega)
    exact .inr ⟨rfl, rfl, by omega⟩
  · rintro (hn | ⟨rfl, rfl, hlen⟩)
    · intro i hi₀ hi
      omega
    · intro i hi₀ hi y hy₀ hy
      obtain rfl : i = 0 := by omega
      obtain rfl : y = 0 := by omega
      have h0 : InInt 0 := by decide
      rw [one_mul, mul_one] at hsize
      simp [RowNhwcIn, ProdIn, CopyIn, h0, hcw, hlen, hsize]

end InBounds

/-! ## The conversions -/

/-- The frame has as many elements as its shape says, and the tag `order`. -/
def FrameConsistent (order n c h w : ℤ) (d : DataHandler) : Prop := (d.size : ℤ) = n * c * h * w ∧ d.format.toInt = order

theorem not_frameConsistent (order n c h w : ℤ) : ∃ d, ¬ FrameConsistent order n c h w d := by
  by_cases h1 : order = 1
  · exact ⟨.heap [] 0 .imageBgrNchw, fun h => absurd (h.2.trans h1) (by decide)⟩
  · exact ⟨.heap [] 0 .imageBgrNhwc, fun h => h1 h.2.symm⟩

/-- A frame that has been repacked has the size of its shape. -/
theorem frameConsistent_heap {order n c h w : ℤ} {dst : List Byte} {f : DataFormat} (hsize : InInt (n * c * h * w))
    (h0 : 0 ≤ n * c * h * w) :
    FrameConsistent order n c h w (.heap dst (n * c * h * w) f) ↔ f.toInt = order := by
  refine and_iff_right ?_
  show (toSize (n * c * h * w) : ℤ) = n * c * h * w
  rw [toSize_of_nonneg h0 hsize, Int.toNat_of_nonneg h0]

theorem newBytes_ensures {α : Type} {P : α → Prop} (size : ℤ) {f : List Byte → Outcome Exn α} {E : Prop}
    (hf : 0 ≤ size → ∀ dst : List Byte, dst.length = size → ((f dst).Ensures P ↔ E)) :
    (newBytes size >>= f).Ensures P ↔ size < 0 ∨ E := by
  unfold newBytes
  split
  · next h => exact iff_of_true ensures_thrown (.inl h)
  · next h =>
    rw [ok_bind, hf (by omega) _ (by simp; omega), or_iff_right h]

/-- What is left of a row of all images when the size is divided, as an `int`. -/
def rowStride (size : ℕ) (n h : ℤ) : ℤ := ofSize (size / toSize (n * h))

/-- What is left of a line of all planes. -/
def lineStride (size : ℕ) (n c h : ℤ) : ℤ := ofSize (size / toSize (n * c * h))

/-- When the case `IMAGE_BGR_NHWC` ends with an exception or a consistent frame: `repack` says whether a repacked frame
would be consistent. -/
def NhwcOk (repack : Prop) (length size : ℕ) (n c h w : ℤ) : Prop :=
  n ≠ 0 ∧ GuardIn size n h w c ∧ (GuardRejects size n h w c ∨
    InInt (n * h) ∧ InInt (c * w) ∧
      (rowStride size n h < c * w ∨
        rowStride size n h = c * w ∧ (size : ℤ) = n * c * h * w ∨
        c * w < rowStride size n h ∧ ProdIn n [c, h, w] ∧
          (n * c * h * w < 0 ∨ repack ∧ (n < 0 ∨ n = 1 ∧ h = 1 ∧ c * w ≤ length))))

section Ensures

variable {src : DataHandler} {n c h w : ℤ}

theorem convertNhwc_ensures {order : ℤ} (hn : InInt n) (hh : 0 < h) (hw : 0 < w) (horder : src.format.toInt = order) :
    (convertNhwc src n c h w).Ensures (FrameConsistent order n c h w) ↔
      NhwcOk (order = 1) src.bytes.length src.size n c h w := by
  have hP := not_frameConsistent order n c h w
  unfold convertNhwc NhwcOk
  rw [← and_assoc]
  refine (sizeGuard_definedIff hn h w c).ensures_bind hP fun bad hguard hbad => ?_
  have hn0 : n ≠ 0 := hguard.1
  cases bad with
  | true => exact iff_of_true ensures_thrown (.inl (hbad.1 rfl))
  | false =>
    rw [if_neg Bool.false_ne_true, or_iff_right fun h => Bool.false_ne_true (hbad.2 h)]
    refine (prod_two_definedIff n h).ensures_bind hP fun rows hrin hrows => ?_
    subst hrows
    have hdiv := (divSize_definedIff (ε := Exn) src.size hrin).congr (iff_of_true (mul_ne_zero hn0 hh.ne') trivial)
    rw [hdiv.ensures_bind hP (E := _) fun q _ hq => ?_, true_and]
    subst hq
    refine (prod_two_definedIff c w).ensures_bind hP fun len hlin hlen => ?_
    subst hlen
    show (if rowStride src.size n h = c * w then _ else if rowStride src.size n h > c * w then _ else _ :
      Outcome Exn DataHandler).Ensures _ ↔ _
    rcases lt_trichotomy (rowStride src.size n h) (c * w) with hlt | heq | hgt
    · rw [if_neg hlt.ne, if_neg hlt.not_gt]
      exact iff_of_true ensures_thrown (.inl hlt)
    · rw [if_pos heq, ensures_ok, FrameConsistent, and_iff_left horder]
      exact ⟨fun h => .inr (.inl ⟨heq, h⟩), fun h => by omega⟩
    · rw [if_neg hgt.ne', if_pos hgt, or_iff_right hgt.not_gt, or_iff_right fun h => hgt.ne' h.1, and_iff_right hgt]
      refine (prod_definedIff n [c, h, w]).ensures_bind hP fun size hsin hsize => ?_
      have hsin : InInt (n * c * h * w) := hsin.2.2.1
      subst hsize
      refine newBytes_ensures (n * c * h * w) fun h0 dst hdst => ?_
      have hloop := (repackNhwc_definedIff src.bytes hdst n c h w _).congr
        (repackNhwcIn_iff hn0 hh hw hgt hlin h0)
      rw [and_comm]
      refine hloop.ensures_bind hP fun dst _ _ => ?_
      rw [ensures_ok]
      exact (frameConsistent_heap hsin h0).trans eq_comm

/-- The planar loops, whatever the signs of the number of images and of planes. -/
theorem repackNchw_definedIff_lines (src : List Byte) {dst : List Byte} {stride : ℤ} (hn0 : n ≠ 0) (hc0 : c ≠ 0) (hh : 0 < h)
    (hw : 0 < w) (hs : w < stride) (h0 : 0 ≤ n * c * h * w) (hdst : dst.length = n * c * h * w) :
    DefinedIff (repackNchw src n c h w stride dst) (n < 0 ∨ LinesIn src.length n c h w stride)
      fun dst => dst.length = n * c * h * w := by
  refine (repackNchw_definedIff hdst n c h w _).congr ?_
  rcases lt_or_gt_of_ne hn0 with hneg | hpos
  · exact iff_of_true (fun i hi₀ hi => by omega) (.inl hneg)
  · have hc : 0 < c := by
      rcases lt_or_gt_of_ne hc0 with hc | hc
      · have h₁ := mul_neg_of_neg_of_pos (mul_neg_of_neg_of_pos (mul_neg_of_pos_of_neg hpos hc) hh) hw
        omega
      · exact hc
    rw [or_iff_right hpos.not_gt]
    exact repackNchwIn_iff hpos hc hh hw hs

/-- When the case `IMAGE_BGR_NCHW` ends with an exception, or without undefined behaviour and so that `E` holds of
what follows. -/
def NchwOk (E : Prop) (length size : ℕ) (n c h w : ℤ) : Prop :=
  n ≠ 0 ∧ GuardIn size n c h w ∧ (GuardRejects size n c h w ∨
    ProdIn n [c, h] ∧ c ≠ 0 ∧
      (lineStride size n c h < w ∨
        lineStride size n c h = w ∧ E ∨
        w < lineStride size n c h ∧ ProdIn n [c, h, w] ∧
          (n * c * h * w < 0 ∨ (n < 0 ∨ LinesIn length n c h w (lineStride size n c h)) ∧ E)))

theorem convertNchw_ensures {P : DataHandler → Prop} {k : DataHandler → Outcome Exn DataHandler} {E : Prop} (hn : InInt n)
    (hh : 0 < h) (hw : 0 < w) (hP : ∃ d, ¬ P d) (hk : ∀ d, (k d).Ensures P ↔ E) :
    (convertNchw src n c h w >>= k).Ensures P ↔ NchwOk E src.bytes.length src.size n c h w := by
  unfold convertNchw NchwOk
  rw [← and_assoc, bind_assoc]
  refine (sizeGuard_definedIff hn c h w).ensures_bind hP fun bad hguard hbad => ?_
  have hn0 : n ≠ 0 := hguard.1
  cases bad with
  | true => exact iff_of_true ensures_thrown (.inl (hbad.1 rfl))
  | false =>
    rw [if_neg Bool.false_ne_true, or_iff_right fun h => Bool.false_ne_true (hbad.2 h), bind_assoc]
    refine (prod_definedIff n [c, h]).ensures_bind hP fun rows hrin hrows => ?_
    have hrin' : InInt (n * c * h) := hrin.2.1
    subst hrows
    have hne : n * c * h ≠ 0 ↔ c ≠ 0 := by simp [hn0, hh.ne']
    rw [bind_assoc]
    refine ((divSize_definedIff (ε := Exn) src.size hrin').congr hne).ensures_bind hP fun q hc0 hq => ?_
    subst hq
    show ((if lineStride src.size n c h = w then _ else if lineStride src.size n c h > w then _ else _ :
      Outcome Exn DataHandler) >>= k).Ensures _ ↔ _
    rcases lt_trichotomy (lineStride src.size n c h) w with hlt | heq | hgt
    · rw [if_neg hlt.ne, if_neg hlt.not_gt]
      exact iff_of_true ensures_thrown (.inl hlt)
    · rw [if_pos heq, ok_bind, hk]
      exact ⟨fun h => .inr (.inl ⟨heq, h⟩), fun h => by
        rcases h with h | ⟨-, h⟩ | ⟨h, -⟩
        · omega
        · exact h
        · omega⟩
    · rw [if_neg hgt.ne', if_pos hgt, or_iff_right hgt.not_gt, or_iff_right fun h => hgt.ne' h.1, and_iff_right hgt,
        bind_assoc]
      refine (prod_definedIff n [c, h, w]).ensures_bind hP fun size hsin hsize => ?_
      subst hsize
      rw [bind_assoc]
      refine newBytes_ensures (n * c * h * w) fun h0 dst hdst => ?_
      have hloop := repackNchw_definedIff_lines src.bytes hn0 hc0 hh hw hgt h0 hdst
      rw [bind_assoc]
      refine hloop.ensures_bind hP fun dst _ _ => ?_
      rw [ok_bind, hk]

/-! ### `IMAGE_NV21` -/

theorem readBytes_noThrow (src : List Byte) (first len : ℤ) : NoThrow (readBytes src first len) := by
  unfold readBytes
  split
  · exact .inr ⟨_, rfl⟩
  · exact .inl rfl

theorem nv21Row_noThrow (v : Vendored) (y : List Byte) (strideY : ℤ) (vu : List Byte)
    (strideVu dstOffset dstStride width k : ℤ) (dst : List Byte) :
    NoThrow (nv21Row v y strideY vu strideVu dstOffset dstStride width k dst) :=
  (readBytes_noThrow ..).bind fun _ _ => (readBytes_noThrow ..).bind fun _ _ => (copy_definedIff rfl ..).noThrow

/-- `NV21ToRGB24` does not fail on the pointers and the sizes it is given here. -/
theorem nv21ToRgb24_noThrow (v : Vendored) (y vu : List Byte) (strideY strideVu dstOffset dstStride : ℤ) (hw : 0 < w)
    (hh : 0 < h) (dst : List Byte) :
    nv21ToRgb24 v (some y) strideY (some vu) strideVu dstOffset dstStride w h dst = .undefined ∨
      ∃ dst', nv21ToRgb24 v (some y) strideY (some vu) strideVu dstOffset dstStride w h dst = .ok (0, dst') := by
  have hnot : ¬ (w ≤ 0 ∨ h = 0) := by omega
  simp only [nv21ToRgb24, hnot, if_false]
  have hloop : NoThrow (forRange |h| (nv21Row v y strideY vu strideVu
      (if h < 0 then dstOffset + (-h - 1) * dstStride else dstOffset) (if h < 0 then -dstStride else dstStride) w) dst) :=
    .foldlM (fun dst (k : ℕ) => nv21Row_noThrow v y strideY vu strideVu _ _ w k dst) _ _
  rcases hloop with h | ⟨dst', h⟩
  · exact .inl (by rw [h, undefined_bind])
  · exact .inr ⟨dst', by rw [h, ok_bind]⟩

theorem nv21Frame_noThrow (v : Vendored) (size : ℤ) (hw : 0 < w) (hh : 0 < h) (dst : List Byte) :
    NoThrow (nv21Frame v src c h w size 0 dst) := by
  refine (checked_definedIff (w + 1)).noThrow.bind fun w' hw' => ?_
  obtain rfl : w' = w + 1 := ((checked_definedIff (w + 1)).of_eq_ok hw').2
  refine (prod_definedIff 0 [size / 2]).noThrow.bind fun frame hframe => ?_
  obtain rfl : frame = 0 := ((prod_two_definedIff 0 (size / 2)).of_eq_ok hframe).2.trans (zero_mul _)
  cases hd : src.data with
  | none =>
    -- the second pointer is not null, and not a pointer into the buffer
    refine .bind (.inr ⟨none, by simp [offset]⟩) fun y _ => ?_
    refine (prod_definedIff ((w + 1) / 2 * 2) [h]).noThrow.bind fun plane hplane => .inl ?_
    have hpos : 0 < plane := by
      rw [((prod_two_definedIff ((w + 1) / 2 * 2) h).of_eq_ok hplane).2]
      exact mul_pos (by omega) hh
    have hne : ¬ (0 + plane = 0) := by omega
    simp only [offset, hne, if_false, undefined_bind]
  | some bytes =>
    have hoff (d : ℤ) : offset (some bytes) d = .undefined ∨ ∃ l, offset (some bytes) d = .ok (some l) := by
      simp only [offset]
      split
      · exact .inr ⟨_, rfl⟩
      · exact .inl rfl
    rcases hoff 0 with h₁ | ⟨y, h₁⟩
    · exact .inl (by rw [h₁, undefined_bind])
    rw [h₁, ok_bind]
    refine (prod_definedIff _ _).noThrow.bind fun plane _ => ?_
    rcases hoff (0 + plane) with h₂ | ⟨vu, h₂⟩
    · exact .inl (by rw [h₂, undefined_bind])
    rw [h₂, ok_bind]
    refine (prod_definedIff _ _).noThrow.bind fun dstOffset _ => (prod_definedIff _ _).noThrow.bind fun dstStride _ => ?_
    rcases nv21ToRgb24_noThrow v y vu w ((w + 1) / 2 * 2) dstOffset dstStride hw hh dst with h₃ | ⟨dst', h₃⟩
    · exact .inl (by rw [h₃, undefined_bind])
    · exact .inr ⟨dst', by rw [h₃, ok_bind]; rfl⟩

/-- A loop whose bound grows with its counter has no end within the range of `int`. -/
theorem growingLoop_undefined {body : List Byte → Outcome Exn (List Byte)} (hbody : ∀ dst, NoThrow (body dst)) (k : ℕ)
    (dst : List Byte) : growingLoop body k dst = .undefined := by
  induction k generalizing dst with
  | zero => rcases hbody dst with h | ⟨dst', h⟩ <;> rw [growingLoop, h] <;> rfl
  | succ k ih =>
    rcases hbody dst with h | ⟨dst', h⟩
    · rw [growingLoop, h, undefined_bind]
    · rw [growingLoop, h, ok_bind, ih]

/-- When the case `IMAGE_NV21` ends with an exception or a consistent frame. -/
def Nv21Ok (size : ℕ) (n c h w : ℤ) : Prop :=
  ProdIn h [w, c] ∧ (h % 2 ≠ 0 ∨ InInt (n * (h * w * c / 2)) ∧
    (size ≠ toSize (n * (h * w * c / 2)) ∨ InInt (n * (h * w * c)) ∧ (n * (h * w * c) < 0 ∨ n < 0)))

theorem convertNv21_ensures (v : Vendored) (hsize : src.size ≠ 0) (hh : 0 < h) (hw : 0 < w) :
    (convertNv21 v src n c h w).Ensures (FrameConsistent 1 n c h w) ↔ Nv21Ok src.size n c h w := by
  have hP := not_frameConsistent 1 n c h w
  unfold convertNv21 Nv21Ok
  refine (prod_definedIff h [w, c]).ensures_bind hP fun size _ hs => ?_
  obtain rfl : size = h * w * c := hs
  dsimp only
  by_cases hodd : h % 2 ≠ 0
  · rw [if_pos hodd]
    exact iff_of_true ensures_thrown (.inl hodd)
  rw [if_neg hodd, or_iff_right hodd]
  refine (prod_two_definedIff n _).ensures_bind hP fun expected _ he => ?_
  subst he
  by_cases hbad : src.size ≠ toSize (n * (h * w * c / 2))
  · rw [if_pos hbad]
    exact iff_of_true ensures_thrown (.inl hbad)
  rw [if_neg hbad, or_iff_right hbad]
  have hn0 : n ≠ 0 := by
    rintro rfl
    rw [zero_mul] at hbad
    exact hsize (not_not.1 hbad)
  refine (prod_two_definedIff n _).ensures_bind hP fun total htin ht => ?_
  subst ht
  refine newBytes_ensures _ fun h0 dst hdst => ?_
  rcases lt_or_gt_of_ne hn0 with hneg | hpos
  · rw [if_neg hneg.not_gt, ok_bind]
    obtain ⟨total, ht, rfl⟩ := (prod_two_definedIff (ε := Exn) (h * w * c) n).defined (by rwa [mul_comm])
    rw [ht, ok_bind, ensures_ok]
    have hshape : h * w * c * n = n * c * h * w := by ring
    rw [show n * (h * w * c) = n * c * h * w by ring] at htin h0
    rw [hshape]
    exact iff_of_true ((frameConsistent_heap htin h0).2 rfl) hneg
  · rw [if_pos hpos, growingLoop_undefined (nv21Frame_noThrow v _ hw hh), undefined_bind]
    exact iff_of_false (not_ensures_undefined hP) hpos.not_gt

end Ensures

/-! ## Frames within the range of `int` -/

section Small

variable {length size : ℕ} {n c h w : ℤ} {repack : Prop}

theorem ofSize_div {m : ℤ} (hm : 0 < m) (hin : InInt m) (hsize : (size : ℤ) ≤ maxInt) :
    ofSize (size / toSize m) = size / m := by
  have hle : ((size / toSize m : ℕ) : ℤ) ≤ size := by exact_mod_cast Nat.div_le_self size (toSize m)
  rw [ofSize_of_le (hle.trans hsize), toSize_of_nonneg hm.le hin, Int.natCast_ediv, Int.toNat_of_nonneg hm.le]

theorem GuardRejects.lt {a b d : ℤ} (hg : GuardRejects size n a b d) (hn : 0 < n) (hnin : InInt n)
    (habd : 0 < a * b * d) (hin : InInt (a * b * d)) : (size : ℤ) < a * b * d * n := by
  have hlt := hg.2
  rw [toSize_of_nonneg hn.le hnin, toSize_of_nonneg habd.le hin] at hlt
  rw [← Int.ediv_lt_iff_lt_mul hn]
  have : ((size / n.toNat : ℕ) : ℤ) < a * b * d := by omega
  rwa [Int.natCast_ediv, Int.toNat_of_nonneg hn.le] at this

/-- Where nothing overflows, a buffer is too small for the frame, has its exact size, or is one padded row. -/
theorem nhwcOk_iff (hn : 0 < n) (hc : 0 < c) (hh : 0 < h) (hw : 0 < w) (hin : InInt (n * c * h * w))
    (hsize : (size : ℤ) ≤ maxInt) :
    NhwcOk repack length size n c h w ↔
      (size : ℤ) ≤ n * c * h * w ∨ repack ∧ n = 1 ∧ h = 1 ∧ c * w ≤ length := by
  have hnh : 0 < n * h := mul_pos hn hh
  have hcw : 0 < c * w := mul_pos hc hw
  have hshape : c * w * (n * h) = n * c * h * w := by ring
  have hnhin : InInt (n * h) := inInt_of_nonneg hnh.le (by rw [← hshape]; nlinarith) hin
  have hcwin : InInt (c * w) := inInt_of_nonneg hcw.le (by rw [← hshape]; nlinarith) hin
  have hnin : InInt n := inInt_of_nonneg hn.le (by nlinarith) hnhin
  have hprod : ProdIn n [c, h, w] := prodIn_of_le hn.le (by simp [hc, hh, hw]) hin
  have hrow : rowStride size n h = size / (n * h) := ofSize_div hnh hnhin hsize
  have hhwc : h * w * c * n = n * c * h * w := by ring
  have hhwc0 : 0 < h * w * c := mul_pos (mul_pos hh hw) hc
  have hhwcin : InInt (h * w * c) := inInt_of_nonneg hhwc0.le (by rw [← hhwc]; nlinarith) hin
  have hguard : GuardIn size n h w c := .inr (prodIn_of_le hh.le (by simp [hw, hc]) hhwcin)
  unfold NhwcOk
  rw [hrow]
  constructor
  · rintro ⟨-, -, hrej | ⟨-, -, hlt | ⟨-, heq⟩ | ⟨-, -, hneg | ⟨hr, hneg | hone⟩⟩⟩⟩
    · have := hrej.lt hn hnin hhwc0 hhwcin
      omega
    · rw [Int.ediv_lt_iff_lt_mul hnh, hshape] at hlt
      exact .inl hlt.le
    · exact .inl heq.le
    · have : 0 < n * c * h * w := by rw [← hshape]; exact mul_pos hcw hnh
      omega
    · omega
    · exact .inr ⟨hr, hone⟩
  · rintro hok
    refine ⟨hn.ne', hguard, .inr ⟨hnhin, hcwin, ?_⟩⟩
    rcases lt_trichotomy (size : ℤ) (n * c * h * w) with hlt | heq | hgt
    · refine .inl ?_
      rwa [Int.ediv_lt_iff_lt_mul hnh, hshape]
    · refine .inr (.inl ⟨?_, heq⟩)
      rw [heq, ← hshape, Int.mul_ediv_cancel _ hnh.ne']
    · obtain ⟨hr, rfl, rfl, hlen⟩ := hok.resolve_left (not_le.2 hgt)
      refine .inr (.inr ⟨?_, hprod, .inr ⟨hr, .inr ⟨rfl, rfl, hlen⟩⟩⟩)
      rw [mul_one, Int.ediv_one]
      simpa using hgt

/-- A planar frame passes with a buffer that is too small, or of the exact size. -/
theorem nchwOk_iff (hn : 0 < n) (hc : 0 < c) (hh : 0 < h) (hw : 0 < w) (hin : InInt (n * c * h * w))
    (hsize : (size : ℤ) ≤ maxInt) :
    NchwOk (NhwcOk False length size n c h w) length size n c h w ↔ (size : ℤ) ≤ n * c * h * w := by
  have hnch : 0 < n * c * h := mul_pos (mul_pos hn hc) hh
  have hnchin : InInt (n * c * h) := inInt_of_nonneg hnch.le (by nlinarith) hin
  have hnc : 0 < n * c := mul_pos hn hc
  have hnin : InInt n := inInt_of_nonneg hn.le (by nlinarith) hnchin
  have hline : lineStride size n c h = size / (n * c * h) := ofSize_div hnch hnchin hsize
  have hchw : c * h * w * n = n * c * h * w := by ring
  have hchw0 : 0 < c * h * w := mul_pos (mul_pos hc hh) hw
  have hchwin : InInt (c * h * w) := inInt_of_nonneg hchw0.le (by rw [← hchw]; nlinarith) hin
  have hguard : GuardIn size n c h w := .inr (prodIn_of_le hc.le (by simp [hh, hw]) hchwin)
  have hnext : NhwcOk False length size n c h w ↔ (size : ℤ) ≤ n * c * h * w := by
    rw [nhwcOk_iff hn hc hh hw hin hsize, false_and, or_false]
  unfold NchwOk
  rw [hnext, hline]
  constructor
  · rintro ⟨-, -, hrej | ⟨-, -, hlt | ⟨-, hle⟩ | ⟨-, -, hneg | ⟨-, hle⟩⟩⟩⟩
    · have := hrej.lt hn hnin hchw0 hchwin
      omega
    · rw [Int.ediv_lt_iff_lt_mul hnch, mul_comm] at hlt
      exact hlt.le
    · exact hle
    · have : 0 < n * c * h * w := mul_pos hnch hw
      omega
    · exact hle
  · intro hle
    refine ⟨hn.ne', hguard, .inr ⟨prodIn_of_le hn.le (by simp [hc, hh]) hnchin, hc.ne', ?_⟩⟩
    rcases hle.lt_or_eq with hlt | heq
    · refine .inl ?_
      rwa [Int.ediv_lt_iff_lt_mul hnch, mul_comm]
    · refine .inr (.inl ⟨?_, hle⟩)
      rw [heq, Int.mul_ediv_cancel_left _ hnch.ne']

end Small

end Nessus.Parser
