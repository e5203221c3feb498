import Nessus.Tensor.Pixels

/-!
# Layouts

The layout converters, and `convert_layout_to_core`, which allocates their destination.

* `TensorLayout`, `layoutConverter`, `convertLayoutToCore` — the functions;
* `TensorLayout.value` — what an element of the result is to be;
* `Converts.delivers_iff` — a conversion of the first image delivers the layout only if there is no other;
* `convertLayout_delivers_iff` — **when a conversion delivers the layout**.
-/

namespace Nessus.Tensors

open Nessus.Lib

variable {α : Type}

/-! ## The functions -/

/-- `tensor_layout`, the values with a converter. -/
inductive TensorLayout where
  | rgb
  | grayscale
  | grayscale3
  deriving DecidableEq, Repr

def allocateTensor (S : NewStorage α) (source : Tensor α) : Tensor α :=
  newTensor S 1 source.order (.of source.order source.num source.channels source.height source.width)

section Functions

variable (S : NewStorage α) (ndebug : Bool) (luminance : α → α → α → α)

/-- `tensor_layout_converter`: the destination after it.  `clone()` is the tensor itself. -/
def layoutConverter (layout : TensorLayout) (source destination : Tensor α) : Outcome Empty (Tensor α) :=
  match layout with
  | .grayscale =>
    cppAssert ndebug (source.channels == 1 || source.channels == 3 || source.channels == 4) >>= fun _ =>
    match source.channels with
    | 1 => .ok source
    | 3 => rgbOrRgbaToGray S ndebug luminance source 1
    | 4 => rgbOrRgbaToGray S ndebug luminance source 1
    | _ => .ok destination
  | .grayscale3 =>
    cppAssert ndebug (source.channels == 1 || source.channels == 3 || source.channels == 4) >>= fun _ =>
    match source.channels with
    | 1 => .ok source
    | 3 => rgbOrRgbaToGray S ndebug luminance source 3
    | 4 => rgbOrRgbaToGray S ndebug luminance source 3
    | _ => .ok destination
  | .rgb =>
    cppAssert ndebug (source.channels == 3 || source.channels == 4) >>= fun _ =>
    match source.channels with
    | 3 => .ok source
    | 4 => rgbaToRgb S ndebug source
    | _ => .ok destination

def convertLayoutToCore (layout : TensorLayout) (source : Tensor α) : Outcome Empty (Tensor α) :=
  layoutConverter S ndebug luminance layout source (allocateTensor S source)

end Functions

/-! ## What they are to do -/

namespace TensorLayout

def channels : TensorLayout → ℕ
  | rgb => 3
  | grayscale => 1
  | grayscale3 => 3

def Admits (layout : TensorLayout) (channels : ℕ) : Prop :=
  match layout with
  | rgb => channels = 3 ∨ channels = 4
  | grayscale => channels = 1 ∨ channels = 3 ∨ channels = 4
  | grayscale3 => channels = 1 ∨ channels = 3 ∨ channels = 4

/-- An element of the image `n`, converted: the channel itself, or the same gray for each channel. -/
def value (layout : TensorLayout) (luminance : α → α → α → α) (source : Tensor α) (n c h w : ℕ) : Option α :=
  match layout with
  | rgb => source.element? n c h w
  | grayscale => if source.channels = 1 then source.element? n 0 h w else source.gray luminance n h w
  | grayscale3 => if source.channels = 1 then source.element? n 0 h w else source.gray luminance n h w

/-- The source has the layout already, or it has one image, and for three-channel grayscale more than one channel. -/
def Within (layout : TensorLayout) (channels num : ℕ) : Prop :=
  match layout with
  | rgb => channels = 3 ∨ num = 1
  | grayscale => channels = 1 ∨ num = 1
  | grayscale3 => channels ≠ 1 ∧ num = 1

end TensorLayout

/-- **The result has the images of the source in the layout.** -/
def Delivers (luminance : α → α → α → α) (layout : TensorLayout) (source : Tensor α) (r : Outcome Empty (Tensor α)) :
    Prop :=
  ∃ t, r = .ok t ∧ t.num = source.num ∧ t.height = source.height ∧ t.width = source.width ∧
    t.channels = layout.channels ∧ ∀ n c h w, n < source.num → c < layout.channels → h < source.height →
      w < source.width → t.element? n c h w = layout.value luminance source n c h w

section Layouts

variable {S : NewStorage α} {ndebug : Bool} {luminance : α → α → α → α} {layout : TensorLayout} {source : Tensor α}

theorem Converts.delivers_iff {val : ℕ → ℕ → ℕ → Option α} {r : Outcome Empty (Tensor α)}
    (hr : Converts source layout.channels val r)
    (hval : ∀ c h w, c < layout.channels → h < source.height → w < source.width →
      val h w c = layout.value luminance source 0 c h w) :
    Delivers luminance layout source r ↔ source.num = 1 := by
  obtain ⟨⟨order, shape, data⟩, rfl, horder, hshape, -, helements⟩ := hr
  have horder' : order = source.order := horder
  subst horder'
  have hshape' : shape = .of source.order 1 layout.channels source.height source.width := hshape
  subst hshape'
  constructor
  · rintro ⟨t, ht, hnum, -⟩
    cases ht
    rw [num_of] at hnum
    exact hnum.symm
  · intro hone
    refine ⟨_, rfl, ?_, height_of .., width_of .., channels_of .., fun n c h w hn hc hh hw => ?_⟩
    · rw [num_of, hone]
    · obtain rfl : n = 0 := by omega
      rw [helements c h w hc hh hw, hval c h w hc hh hw]

theorem delivers_self (hchannels : source.channels = layout.channels)
    (hval : ∀ n c h w, c < layout.channels → source.element? n c h w = layout.value luminance source n c h w) :
    Delivers luminance layout source (.ok source) :=
  ⟨source, rfl, rfl, rfl, rfl, hchannels, fun n c h w _ hc _ _ => hval n c h w hc⟩

/-- The gray conversions deliver the layout if there is one image. -/
theorem gray_delivers_iff (hp : source.Packed) (hnum : 0 < source.num) (hsource : source.channels = 3 ∨ source.channels = 4)
    (hlayout : layout = .grayscale ∨ layout = .grayscale3) :
    Delivers luminance layout source (rgbOrRgbaToGray S ndebug luminance source layout.channels) ↔ source.num = 1 := by
  have hle : layout.channels ≤ source.channels := by
    rcases hlayout with rfl | rfl <;> simp only [TensorLayout.channels] <;> omega
  have hcount : layout.channels * source.height * source.width < 2 ^ 31 :=
    Nat.lt_of_le_of_lt (Nat.mul_le_mul_right _ (Nat.mul_le_mul_right _ hle)) (hp.image_lt hnum)
  refine (rgbOrRgbaToGray_spec hp hnum hsource hcount).delivers_iff fun c h w _ _ _ => ?_
  rcases hlayout with rfl | rfl <;> exact (if_neg (by omega)).symm

theorem gray_passes (hadmits : source.channels = 1 ∨ source.channels = 3 ∨ source.channels = 4) :
    cppAssert ndebug (source.channels == 1 || source.channels == 3 || source.channels == 4) = .ok () := by
  rcases hadmits with h | h | h <;> simp [cppAssert, h]

end Layouts

/-- **When a conversion delivers the layout.** -/
theorem convertLayout_delivers_iff {α : Type} (S : NewStorage α) (ndebug : Bool) (luminance : α → α → α → α)
    (layout : TensorLayout) {source : Tensor α} (hp : source.Packed) (hnum : 1 ≤ source.num)
    (hadmits : layout.Admits source.channels) :
    Delivers luminance layout source (convertLayoutToCore S ndebug luminance layout source) ↔
      layout.Within source.channels source.num := by
  rw [convertLayoutToCore]
  cases layout with
  | grayscale =>
    rw [layoutConverter, gray_passes hadmits, Outcome.ok_bind]
    have hgray (h : source.channels = 3 ∨ source.channels = 4) :
        Delivers luminance .grayscale source (rgbOrRgbaToGray S ndebug luminance source 1) ↔
          source.channels = 1 ∨ source.num = 1 := by
      rw [or_iff_right (by omega)]
      exact gray_delivers_iff hp hnum h (.inl rfl)
    rcases hadmits with h | h | h
    · rw [h]
      refine iff_of_true (delivers_self h fun n c _ _ hc => ?_) (.inl rfl)
      obtain rfl : c = 0 := Nat.lt_one_iff.1 hc
      exact (if_pos h).symm
    · rw [h] at hgray ⊢
      exact hgray (.inl rfl)
    · rw [h] at hgray ⊢
      exact hgray (.inr rfl)
  | grayscale3 =>
    rw [layoutConverter, gray_passes hadmits, Outcome.ok_bind]
    have hgray (h : source.channels = 3 ∨ source.channels = 4) :
        Delivers luminance .grayscale3 source (rgbOrRgbaToGray S ndebug luminance source 3) ↔
          source.channels ≠ 1 ∧ source.num = 1 := by
      rw [and_iff_right (by omega)]
      exact gray_delivers_iff hp hnum h (.inr rfl)
    rcases hadmits with h | h | h
    · -- the clone keeps its one channel
      rw [h]
      refine iff_of_false ?_ fun hwithin => hwithin.1 rfl
      rintro ⟨t, ht, -, -, -, hchannels, -⟩
      cases ht
      rw [h] at hchannels
      exact absurd hchannels (by decide)
    · rw [h] at hgray ⊢
      exact hgray (.inl rfl)
    · rw [h] at hgray ⊢
      exact hgray (.inr rfl)
  | rgb =>
    have hassert : cppAssert ndebug (source.channels == 3 || source.channels == 4) = .ok () := by
      rcases hadmits with h | h <;> simp [cppAssert, h]
    rw [layoutConverter, hassert, Outcome.ok_bind]
    rcases hadmits with h | h
    · rw [h]
      exact iff_of_true (delivers_self h fun _ _ _ _ _ => rfl) (.inl rfl)
    · have hpasses : cppAssert ndebug (source.channels == 4) = .ok () := by simp [cppAssert, h]
      have hrgb : Delivers luminance .rgb source (rgbaToRgb S ndebug source) ↔ source.num = 1 :=
        (rgbaToRgb_spec hp hnum (.inr h) hpasses).delivers_iff fun _ _ _ _ _ _ => rfl
      rw [h]
      exact hrgb.trans (or_iff_right (by decide)).symm

def zeroStorage : NewStorage ℕ := ⟨fun n => List.replicate n 0, fun _ => List.length_replicate⟩

/-- Two pixels of four channels, and two images of two pixels with three. -/
theorem convertLayout_delivers_iff_run :
    Delivers (fun r g b => (r + g + b) / 3) .grayscale3 twoPixels
        (convertLayoutToCore zeroStorage false (fun r g b => (r + g + b) / 3) .grayscale3 twoPixels) ∧
      Delivers (fun r g b => (r + g + b) / 3) .rgb ⟨.nchw, ⟨2, 3, 1, 2⟩, [10, 11, 20, 21, 30, 31, 40, 41, 50, 51, 60, 61]⟩
        (convertLayoutToCore zeroStorage false (fun r g b => (r + g + b) / 3) .rgb
          ⟨.nchw, ⟨2, 3, 1, 2⟩, [10, 11, 20, 21, 30, 31, 40, 41, 50, 51, 60, 61]⟩) := by
  have hp : twoPixels.Packed := ⟨by decide, by decide⟩
  have himages : (Tensor.mk .nchw ⟨2, 3, 1, 2⟩ [10, 11, 20, 21, 30, 31, 40, 41, 50, 51, 60, 61]).Packed :=
    ⟨by decide, by decide⟩
  exact ⟨(convertLayout_delivers_iff zeroStorage false _ .grayscale3 hp (by decide) (.inr (.inr rfl))).2
      ⟨by decide, by decide⟩,
    (convertLayout_delivers_iff zeroStorage false _ .rgb himages (by decide) (.inl rfl)).2 (.inl rfl)⟩

/-- A gray image, which three-channel grayscale leaves with one channel; and two images, of which grayscale keeps one. -/
theorem not_delivers :
    ¬ Delivers (fun r g b => (r + g + b) / 3) .grayscale3 ⟨.nchw, ⟨1, 1, 1, 1⟩, [10]⟩
        (convertLayoutToCore zeroStorage false (fun r g b => (r + g + b) / 3) .grayscale3
          ⟨.nchw, ⟨1, 1, 1, 1⟩, [10]⟩) ∧
      ¬ Delivers (fun r g b => (r + g + b) / 3) .grayscale ⟨.nchw, ⟨2, 3, 1, 1⟩, [10, 20, 30, 40, 50, 60]⟩
        (convertLayoutToCore zeroStorage false (fun r g b => (r + g + b) / 3) .grayscale
          ⟨.nchw, ⟨2, 3, 1, 1⟩, [10, 20, 30, 40, 50, 60]⟩) := by
  constructor
  · rintro ⟨t, ht, -, -, -, hchannels, -⟩
    have hclone : Outcome.ok (⟨.nchw, ⟨1, 1, 1, 1⟩, [10]⟩ : Tensor ℕ) = .ok t := ht
    cases hclone
    exact absurd hchannels (by decide)
  · rintro ⟨t, ht, hnum, -⟩
    have hone : Outcome.ok (⟨.nchw, ⟨1, 1, 1, 1⟩, [20]⟩ : Tensor ℕ) = .ok t := ht
    cases hone
    exact absurd hnum (by decide)

end Nessus.Tensors
