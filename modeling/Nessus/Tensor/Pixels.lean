import Nessus.Tensor.Permute

/-!
# Pixels

`transform_tensor_core` and the two conversions that are made of it, `rgba_to_rgb` and `rgb_or_rgba_to_gray`, in both
orders.

* `PixelGenerator`, `pixelSetter`, `transformTensorCore` — the loops, with the index expressions of each order;
* `transformTensorCore_spec` — what they leave in the destination, for a generator that gives its values;
* `rgbaToRgb_spec`, `rgbOrRgbaToGray_spec` — each conversion, one statement for both orders;
* `pixels_permute` — **the conversions commute with the change of the order**.
-/

namespace Nessus.Tensors

open Nessus.Lib

variable {α : Type}

/-! ## The functions -/

/-- `assert`. -/
def cppAssert (ndebug cond : Bool) : Outcome Empty Unit := if ndebug || cond then .ok () else .terminated

/-- `data[i]`. -/
def readElement (data : List α) (i : ℕ) : Outcome Empty α :=
  match data[i]? with
  | some a => .ok a
  | none => .undefined

/-- What a pixel generator is called with: `(w, h)` in the merging-pixel mode, and `(w, h, c)` in the ordinary mode. -/
inductive PixelGenerator (α : Type) where
  | merging (pixel : ℕ → ℕ → Outcome Empty α)
  | ordinary (pixel : ℕ → ℕ → ℕ → Outcome Empty α)

/-- `pixel_setter_core`, for a destination with these extents. -/
def pixelSetter (order : Order) (channels height width w h c : ℕ) (pixel : α) (output : List α) :
    Outcome Empty (List α) :=
  match order with
  | .nchw => planeIndex width height c h w >>= fun i => writeAt output i [pixel]
  | .nhwc => pixelIndex channels width c h w >>= fun i => writeAt output i [pixel]

section Conversions

variable (S : NewStorage α) (ndebug : Bool)

def transformTensorCore (source : Tensor α) (channels : ℕ) (selector : Order → PixelGenerator α) :
    Outcome Empty (Tensor α) :=
  cppAssert ndebug (source.channels == 3 || source.channels == 4) >>= fun _ =>
  let order := source.order
  let width := source.width
  let height := source.height
  let destination := newTensor S 1 order (.of order 1 channels height width)
  let setter := pixelSetter order destination.channels destination.height destination.width
  forTo height (fun h => forTo width fun w => fun output =>
    match selector order with
    | .merging pixel => pixel w h >>= fun pixel => forTo channels (fun c output => setter w h c pixel output) output
    | .ordinary pixel => forTo channels (fun c output => pixel w h c >>= fun pixel => setter w h c pixel output) output)
    destination.data >>= fun data =>
  .ok { destination with data }

/-- `(width * h + w) * source_channels`, and what is added to it. -/
def interleavedIndex (width sourceChannels h w : ℕ) (c : List ℕ) : Outcome Empty ℕ :=
  intProd width [h] >>= fun line => intSum line [w] >>= fun pixel => intProd pixel [sourceChannels] >>= fun first =>
  intSum first c

def rgbaToRgb (source : Tensor α) : Outcome Empty (Tensor α) :=
  cppAssert ndebug (source.channels == 4) >>= fun _ =>
  transformTensorCore S ndebug source 3 fun order =>
    match order with
    | .nchw => .ordinary fun w h c => planeIndex source.width source.height c h w >>= readElement source.data
    | .nhwc => .ordinary fun w h c =>
        interleavedIndex source.width source.channels h w [c] >>= readElement source.data

/-- `rgb_or_rgba_to_gray`, where `luminance` is `static_cast<UnderlyingType>(r * 0.299 + g * 0.587 + b * 0.114)`. -/
def rgbOrRgbaToGray (luminance : α → α → α → α) (source : Tensor α) (channels : ℕ) : Outcome Empty (Tensor α) :=
  cppAssert ndebug (source.channels == 3 || source.channels == 4) >>= fun _ =>
  transformTensorCore S ndebug source channels fun order =>
    match order with
    | .nchw => .merging fun w h =>
        (intProd source.width [h] >>= fun line => intSum line [w] >>= readElement source.data) >>= fun r =>
        (intProd source.width [source.height] >>= fun plane => intProd source.width [h] >>= fun line =>
          intSum plane [line, w] >>= readElement source.data) >>= fun g =>
        (planeIndex source.width source.height 2 h w >>= readElement source.data) >>= fun b =>
        .ok (luminance r g b)
    | .nhwc => .merging fun w h =>
        (interleavedIndex source.width source.channels h w [] >>= readElement source.data) >>= fun r =>
        (interleavedIndex source.width source.channels h w [1] >>= readElement source.data) >>= fun g =>
        (interleavedIndex source.width source.channels h w [2] >>= readElement source.data) >>= fun b =>
        .ok (luminance r g b)

end Conversions

/-! ## The loops -/

/-- The generator gives the values `val`, where the destination has these channels. -/
def Generates (generator : PixelGenerator α) (channels height width : ℕ) (val : ℕ → ℕ → ℕ → Option α) : Prop :=
  match generator with
  | .merging pixel => ∀ h < height, ∀ w < width, ∃ a, pixel w h = .ok a ∧ ∀ c < channels, val h w c = some a
  | .ordinary pixel => ∀ h < height, ∀ w < width, ∀ c < channels, ∃ a, pixel w h c = .ok a ∧ val h w c = some a

/-- A conversion of `source` to a tensor of one image with these channels and values. -/
def Converts (source : Tensor α) (channels : ℕ) (val : ℕ → ℕ → ℕ → Option α) (r : Outcome Empty (Tensor α)) : Prop :=
  ∃ t, r = .ok t ∧ t.order = source.order ∧ t.shape = .of source.order 1 channels source.height source.width ∧
    t.data.length = t.count ∧
    ∀ c h w, c < channels → h < source.height → w < source.width → t.element? 0 c h w = val h w c

section Loops

variable {S : NewStorage α} {ndebug : Bool} {order : Order} {channels height width c h w : ℕ}

theorem pixelSetter_eq (hcount : channels * height * width < 2 ^ 31) (hc : c < channels) (hh : h < height)
    (hw : w < width) (pixel : α) (output : List α) :
    pixelSetter order channels height width w h c pixel output =
      writeAt output (offset order channels height width 0 c h w) [pixel] := by
  cases order with
  | nchw => rw [pixelSetter, planeIndex_eq hcount hc hh hw, Outcome.ok_bind]
  | nhwc => rw [pixelSetter, pixelIndex_eq hcount hc hh hw, Outcome.ok_bind]

def pixelWrites (order : Order) (channels height width : ℕ) (val : ℕ → ℕ → ℕ → Option α) : List (ℕ × List α) :=
  (List.range height).flatMap fun h => (List.range width).flatMap fun w => (List.range channels).flatMap fun c =>
    [(offset order channels height width 0 c h w, (val h w c).toList)]

theorem mem_pixelWrites {val : ℕ → ℕ → ℕ → Option α} {x : ℕ × List α} :
    x ∈ pixelWrites order channels height width val ↔ ∃ c h w, c < channels ∧ h < height ∧ w < width ∧
      x = (offset order channels height width 0 c h w, (val h w c).toList) := by
  constructor
  · intro hx
    obtain ⟨h, hh, hx⟩ := List.mem_flatMap.1 hx
    obtain ⟨w, hw, hx⟩ := List.mem_flatMap.1 hx
    obtain ⟨c, hc, hx⟩ := List.mem_flatMap.1 hx
    exact ⟨c, h, w, List.mem_range.1 hc, List.mem_range.1 hh, List.mem_range.1 hw, List.mem_singleton.1 hx⟩
  · rintro ⟨c, h, w, hc, hh, hw, rfl⟩
    exact List.mem_flatMap.2 ⟨h, List.mem_range.2 hh, List.mem_flatMap.2 ⟨w, List.mem_range.2 hw,
      List.mem_flatMap.2 ⟨c, List.mem_range.2 hc, List.mem_singleton_self _⟩⟩⟩

/-- The setter in its loops, with a value that the generator gives. -/
theorem setter_writesAs (hcount : channels * height * width < 2 ^ 31) (hc : c < channels) (hh : h < height)
    (hw : w < width) {a : α} {val : Option α} (hval : val = some a) :
    WritesAs (channels * height * width) (pixelSetter order channels height width w h c a)
      [(offset order channels height width 0 c h w, val.toList)] := by
  have hlt := offset_lt order Nat.zero_lt_one hc hh hw
  rw [Nat.one_mul] at hlt
  have hwrite : WritesAs (channels * height * width)
      (fun l => (writeAt l (offset order channels height width 0 c h w) [a] : Outcome Empty (List α))) _ :=
    WritesAs.writeAt hlt
  rw [hval]
  refine ⟨hwrite.fits, fun l hl => ?_⟩
  rw [pixelSetter_eq hcount hc hh hw]
  exact hwrite.eq l hl

/-- **The loops write every element once.** -/
theorem loops_writesAs (order : Order) (hcount : channels * height * width < 2 ^ 31) {generator : PixelGenerator α}
    {val : ℕ → ℕ → ℕ → Option α} (hgen : Generates generator channels height width val) :
    WritesAs (channels * height * width) (forTo height fun h => forTo width fun w => fun output =>
      match generator with
      | .merging pixel => pixel w h >>= fun pixel =>
          forTo channels (fun c output => pixelSetter order channels height width w h c pixel output) output
      | .ordinary pixel => forTo channels
          (fun c output => pixel w h c >>= fun pixel => pixelSetter order channels height width w h c pixel output) output)
      (pixelWrites order channels height width val) := by
  refine WritesAs.forTo fun h hh => WritesAs.forTo fun w hw => ?_
  cases generator with
  | merging pixel =>
    obtain ⟨a, ha, hval⟩ := hgen h hh w hw
    simp only [ha, Outcome.ok_bind]
    exact WritesAs.forTo fun c hc => setter_writesAs hcount hc hh hw (hval c hc)
  | ordinary pixel =>
    refine WritesAs.forTo fun c hc => ?_
    obtain ⟨a, ha, hval⟩ := hgen h hh w hw c hc
    simp only [ha, Outcome.ok_bind]
    exact setter_writesAs hcount hc hh hw hval

theorem getElem?_pixelWrites {val : ℕ → ℕ → ℕ → Option α} {data : List α}
    (hfits : Fits data.length (pixelWrites order channels height width val)) (hc : c < channels) (hh : h < height)
    (hw : w < width) {a : α} (hval : val h w c = some a) :
    (writes (pixelWrites order channels height width val) data)[offset order channels height width 0 c h w]? = some a := by
  have hmem : (offset order channels height width 0 c h w, (val h w c).toList) ∈
      pixelWrites order channels height width val := mem_pixelWrites.2 ⟨c, h, w, hc, hh, hw, rfl⟩
  rw [hval] at hmem
  refine getElem?_writes_of_mem (k := 0) hfits hmem Nat.zero_lt_one fun v hv j hj heq => ?_
  obtain ⟨c', h', w', hc', hh', hw', rfl⟩ := mem_pixelWrites.1 hv
  have hj' : j = 0 := by
    have hle : (val h' w' c').toList.length ≤ 1 := Option.length_toList_le
    have hlt : j < (val h' w' c').toList.length := hj
    omega
  subst hj'
  obtain ⟨-, rfl, rfl, rfl⟩ := offset_inj hc' hh' hw' hc hh hw heq
  rw [hval]

/-- **What `transform_tensor_core` makes** of a generator that gives its values. -/
theorem transformTensorCore_spec {source : Tensor α} (hchannels : source.channels = 3 ∨ source.channels = 4)
    (hcount : channels * source.height * source.width < 2 ^ 31) {selector : Order → PixelGenerator α}
    {val : ℕ → ℕ → ℕ → Option α} (hgen : Generates (selector source.order) channels source.height source.width val)
    (hval : ∀ c h w, c < channels → h < source.height → w < source.width → (val h w c).isSome) :
    Converts source channels val (transformTensorCore S ndebug source channels selector) := by
  have hassert : cppAssert ndebug (source.channels == 3 || source.channels == 4) = .ok () := by
    rcases hchannels with h | h <;> simp [cppAssert, h]
  obtain ⟨shape, hshape⟩ : ∃ shape, shape = Shape.of source.order 1 channels source.height source.width := ⟨_, rfl⟩
  obtain ⟨data, hdata⟩ : ∃ data, data = (newTensor S 1 source.order shape).data := ⟨_, rfl⟩
  have hlen : data.length = channels * source.height * source.width := by
    have hunits := count_of source.order 1 channels source.height source.width data
    rw [Tensor.count, Nat.one_mul, ← hshape] at hunits
    rw [← hunits, hdata, newTensor, S.length_units, Nat.mul_one]
  have hloops := loops_writesAs source.order hcount hgen
  have hfits := hlen.symm ▸ hloops.fits
  refine ⟨⟨source.order, shape, writes (pixelWrites source.order channels source.height source.width val) data⟩, ?_, rfl,
    hshape, ?_, fun c h w hc hh hw => ?_⟩
  · have hwritten := hloops.eq data hlen
    rw [hdata, hshape] at hwritten ⊢
    rw [transformTensorCore, hassert, Outcome.ok_bind]
    simp only [newTensor, channels_of, height_of, width_of] at hwritten ⊢
    rw [hwritten]
    rfl
  · rw [hshape, count_of, Nat.one_mul]
    exact (length_writes hfits).trans hlen
  · obtain ⟨a, ha⟩ := Option.isSome_iff_exists.1 (hval c h w hc hh hw)
    rw [ha, hshape, Tensor.element?, Tensor.offset, channels_of, height_of, width_of]
    exact getElem?_pixelWrites hfits hc hh hw ha

end Loops

/-! ## The conversions -/

def Tensor.gray (luminance : α → α → α → α) (t : Tensor α) (n h w : ℕ) : Option α :=
  (t.element? n 0 h w).bind fun r => (t.element? n 1 h w).bind fun g => (t.element? n 2 h w).map (luminance r g)

section Specs

variable {S : NewStorage α} {ndebug : Bool} {luminance : α → α → α → α} {t : Tensor α} {c h w : ℕ}

theorem Tensor.Packed.image_lt (hp : t.Packed) (hnum : 0 < t.num) : t.channels * t.height * t.width < 2 ^ 31 := by
  have hlt := hp.count_lt
  rw [t.count_eq, Nat.mul_assoc, Nat.mul_assoc, ← Nat.mul_assoc t.channels] at hlt
  exact Nat.lt_of_le_of_lt (Nat.le_mul_of_pos_left _ hnum) hlt

theorem readElement_offset (hp : t.Packed) (hnum : 0 < t.num) (hc : c < t.channels) (hh : h < t.height)
    (hw : w < t.width) :
    ∃ a, readElement t.data (offset t.order t.channels t.height t.width 0 c h w) = .ok a ∧ t.element? 0 c h w = some a := by
  obtain ⟨a, ha⟩ := hp.exists_element ⟨hnum, hc, hh, hw⟩
  refine ⟨a, ?_, ha⟩
  rw [Tensor.element?, Tensor.offset] at ha
  rw [readElement, ha]

/-- What is read of a pixel of the first image, and its luminance. -/
theorem exists_gray (luminance : α → α → α → α) (hp : t.Packed) (hnum : 0 < t.num) (hchannels : 3 ≤ t.channels)
    (hh : h < t.height) (hw : w < t.width) :
    ∃ r g b, readElement t.data (offset t.order t.channels t.height t.width 0 0 h w) = .ok r ∧
      readElement t.data (offset t.order t.channels t.height t.width 0 1 h w) = .ok g ∧
      readElement t.data (offset t.order t.channels t.height t.width 0 2 h w) = .ok b ∧
      t.gray luminance 0 h w = some (luminance r g b) := by
  obtain ⟨r, hr, hr'⟩ := readElement_offset (c := 0) hp hnum (by omega) hh hw
  obtain ⟨g, hg, hg'⟩ := readElement_offset (c := 1) hp hnum (by omega) hh hw
  obtain ⟨b, hb, hb'⟩ := readElement_offset (c := 2) hp hnum (by omega) hh hw
  refine ⟨r, g, b, hr, hg, hb, ?_⟩
  rw [Tensor.gray, hr', hg', hb']
  rfl

theorem interleavedIndex_eq {channels height width : ℕ} (hcount : channels * height * width < 2 ^ 31) {l : List ℕ}
    (hl : l.sum < channels) (hh : h < height) (hw : w < width) :
    interleavedIndex width channels h w l = .ok (offset .nhwc channels height width 0 l.sum h w) := by
  have hlt := offset_lt_int .nhwc hcount hl hh hw
  have heq : offset .nhwc channels height width 0 l.sum h w = (width * h + w) * channels + l.sum := by
    rw [offset]
    ring
  have hpixel : width * h + w ≤ (width * h + w) * channels := Nat.le_mul_of_pos_right _ (Nat.zero_lt_of_lt hl)
  rw [heq] at hlt ⊢
  rw [interleavedIndex, intProd_two (by omega), Outcome.ok_bind, intSum_eq (by simp; omega), Outcome.ok_bind,
    List.sum_singleton, intProd_two (by omega), Outcome.ok_bind, intSum_eq hlt]

/-- **`rgba_to_rgb`** takes the first three channels of the first image. -/
theorem rgbaToRgb_spec (hp : t.Packed) (hnum : 0 < t.num) (hchannels : t.channels = 3 ∨ t.channels = 4)
    (hpasses : cppAssert ndebug (t.channels == 4) = .ok ()) :
    Converts t 3 (fun h w c => t.element? 0 c h w) (rgbaToRgb S ndebug t) := by
  have hcount := hp.image_lt hnum
  have hread {c h w : ℕ} (hc : c < 3) (hh : h < t.height) (hw : w < t.width) :=
    readElement_offset (c := c) hp hnum (by omega) hh hw
  have hcount' : 3 * t.height * t.width < 2 ^ 31 := by
    refine Nat.lt_of_le_of_lt (Nat.mul_le_mul_right _ (Nat.mul_le_mul_right _ ?_)) hcount
    omega
  rw [rgbaToRgb, hpasses, Outcome.ok_bind]
  refine transformTensorCore_spec hchannels hcount' ?_ fun c h w hc hh hw => ?_
  · cases horder : t.order with
    | nchw =>
      intro h hh w hw c hc
      obtain ⟨a, ha, helement⟩ := hread hc hh hw
      rw [horder] at ha
      refine ⟨a, ?_, helement⟩
      beta_reduce
      rw [planeIndex_eq hcount (by omega) hh hw, Outcome.ok_bind]
      exact ha
    | nhwc =>
      intro h hh w hw c hc
      obtain ⟨a, ha, helement⟩ := hread hc hh hw
      rw [horder] at ha
      refine ⟨a, ?_, helement⟩
      beta_reduce
      rw [interleavedIndex_eq hcount (by rw [List.sum_singleton]; omega) hh hw, Outcome.ok_bind, List.sum_singleton]
      exact ha
  · obtain ⟨a, -, helement⟩ := hread hc hh hw
    rw [helement]
    rfl

/-- **`rgb_or_rgba_to_gray`** gives every channel the luminance of the pixel of the first image. -/
theorem rgbOrRgbaToGray_spec (hp : t.Packed) (hnum : 0 < t.num) (hchannels : t.channels = 3 ∨ t.channels = 4)
    {channels : ℕ} (hcount' : channels * t.height * t.width < 2 ^ 31) :
    Converts t channels (fun h w _ => t.gray luminance 0 h w) (rgbOrRgbaToGray S ndebug luminance t channels) := by
  have hcount := hp.image_lt hnum
  have hassert : cppAssert ndebug (t.channels == 3 || t.channels == 4) = .ok () := by
    rcases hchannels with h | h <;> simp [cppAssert, h]
  have hthree : 3 ≤ t.channels := by omega
  rw [rgbOrRgbaToGray, hassert, Outcome.ok_bind]
  refine transformTensorCore_spec hchannels hcount' ?_ fun c h w hc hh hw => ?_
  · cases horder : t.order with
    | nchw =>
      intro h hh w hw
      obtain ⟨r, g, b, hr, hg, hb, hgray⟩ := exists_gray luminance hp hnum hthree hh hw
      rw [horder] at hr hg hb
      refine ⟨luminance r g b, ?_, fun c hc => hgray⟩
      have hlt := offset_lt_int .nchw hcount (by omega : 1 < t.channels) hh hw
      rw [offset_nchw] at hr hg hlt
      have hplane : t.width * t.height < 2 ^ 31 := by omega
      have hr' : (intProd t.width [h] >>= fun line => intSum line [w] >>= readElement t.data) = .ok r := by
        rw [intProd_two (by omega), Outcome.ok_bind, intSum_eq (by simp; omega), Outcome.ok_bind]
        simpa using hr
      have hg' : (intProd t.width [t.height] >>= fun plane => intProd t.width [h] >>= fun line =>
          intSum plane [line, w] >>= readElement t.data) = .ok g := by
        rw [intProd_two hplane, Outcome.ok_bind, intProd_two (by omega), Outcome.ok_bind, intSum_eq (by simp; omega),
          Outcome.ok_bind]
        simpa using hg
      have hb' : (planeIndex t.width t.height 2 h w >>= readElement t.data) = .ok b := by
        rw [planeIndex_eq hcount (by omega) hh hw, Outcome.ok_bind]
        exact hb
      beta_reduce
      rw [hr', Outcome.ok_bind, hg', Outcome.ok_bind, hb', Outcome.ok_bind]
    | nhwc =>
      intro h hh w hw
      obtain ⟨r, g, b, hr, hg, hb, hgray⟩ := exists_gray luminance hp hnum hthree hh hw
      rw [horder] at hr hg hb
      refine ⟨luminance r g b, ?_, fun c hc => hgray⟩
      beta_reduce
      rw [interleavedIndex_eq hcount (by simp; omega) hh hw, interleavedIndex_eq hcount (by simp; omega) hh hw,
        interleavedIndex_eq hcount (by simp; omega) hh hw]
      simp only [Outcome.ok_bind, List.sum_cons, List.sum_nil, Nat.add_zero]
      rw [hr, Outcome.ok_bind, hg, Outcome.ok_bind, hb, Outcome.ok_bind]
  · obtain ⟨r, g, b, -, -, -, hgray⟩ := exists_gray luminance hp hnum hthree hh hw
    rw [hgray]
    rfl

end Specs

/-! ## Both orders -/

/-- The tensor that comes out, in the other order. -/
def permuted (r : Outcome Empty (Tensor α)) : Outcome Empty (Tensor α) := r >>= fun t => .ok t.permute

section Both

variable {S : NewStorage α} {t : Tensor α} {channels : ℕ} {val val' : ℕ → ℕ → ℕ → Option α}
  {r r' : Outcome Empty (Tensor α)}

/-- Conversions of a tensor and of the same in the other order, to the same values. -/
theorem Converts.permute (hr : Converts t channels val r) (hr' : Converts t.permute channels val' r')
    (hcount : channels * t.height * t.width < 2 ^ 31)
    (hval : ∀ c h w, c < channels → h < t.height → w < t.width → val' h w c = val h w c) : r' = permuted r := by
  obtain ⟨d, rfl, horder, hshape, hlength, helements⟩ := hr
  obtain ⟨d', rfl, horder', hshape', hlength', helements'⟩ := hr'
  obtain ⟨order, shape, data⟩ := d
  have horder₁ : order = t.order := horder
  subst horder₁
  have hshape₁ : shape = .of t.order 1 channels t.height t.width := hshape
  subst hshape₁
  have hpacked : (Tensor.mk t.order (.of t.order 1 channels t.height t.width) data).Packed := by
    refine ⟨hlength, ?_⟩
    rw [count_of, Nat.one_mul]
    exact hcount
  rw [Tensor.height_permute, Tensor.width_permute] at hshape' helements'
  have hshape₂ : (Tensor.mk t.order (.of t.order 1 channels t.height t.width) data).permute.shape = d'.shape := by
    rw [hshape', Tensor.permute, num_of, channels_of, height_of, width_of]
    rfl
  refine congrArg Outcome.ok (Tensor.ext_elements hlength' hpacked.permute.length horder' hshape₂.symm ?_)
  intro n c h w hhas
  obtain ⟨order', shape', data'⟩ := d'
  have horder₂ : order' = t.order.other := horder'
  subst horder₂
  have hshape₃ : shape' = .of t.order.other 1 channels t.height t.width := hshape'
  subst hshape₃
  obtain ⟨hn, hc, hh, hw⟩ := hhas
  rw [num_of] at hn
  rw [channels_of] at hc
  rw [height_of] at hh
  rw [width_of] at hw
  obtain rfl : n = 0 := by omega
  rw [helements' c h w hc hh hw, hval c h w hc hh hw, ← helements c h w hc hh hw]
  have hhas : (Tensor.mk t.order (.of t.order 1 channels t.height t.width) data).Has 0 c h w := by
    exact ⟨by simp, by simpa, by simpa, by simpa⟩
  exact (Tensor.element?_permute hpacked hhas).symm

end Both

theorem Tensor.gray_permute {luminance : α → α → α → α} {t : Tensor α} (hp : t.Packed) {n h w : ℕ} (hn : n < t.num)
    (hh : h < t.height) (hw : w < t.width) (hchannels : 3 ≤ t.channels) :
    t.permute.gray luminance n h w = t.gray luminance n h w := by
  have hsame {c : ℕ} (hc : c < 3) : t.permute.element? n c h w = t.element? n c h w :=
    Tensor.element?_permute hp ⟨hn, hc.trans_le hchannels, hh, hw⟩
  rw [Tensor.gray, Tensor.gray, hsame (by decide), hsame (by decide), hsame (by decide)]

/-- **The conversions commute with the change of the order**: to convert a tensor of one image and bring the result into
the other order is to bring the tensor into the other order and convert it. -/
theorem pixels_permute (S : NewStorage α) (ndebug : Bool) (luminance : α → α → α → α) {t : Tensor α} (hp : t.Packed)
    (hnum : t.num = 1) (hchannels : t.channels = 3 ∨ t.channels = 4) :
    rgbaToRgb S ndebug t.permute = permuted (rgbaToRgb S ndebug t) ∧
      ∀ channels, channels * t.height * t.width < 2 ^ 31 →
        rgbOrRgbaToGray S ndebug luminance t.permute channels = permuted (rgbOrRgbaToGray S ndebug luminance t channels) := by
  have hpos : 0 < t.num := by omega
  have hpos' : 0 < t.permute.num := by rwa [Tensor.num_permute]
  have hchannels' : t.permute.channels = 3 ∨ t.permute.channels = 4 := by rwa [Tensor.channels_permute]
  constructor
  · cases hassert : (ndebug || t.channels == 4) with
    | true =>
      have hpasses : cppAssert ndebug (t.channels == 4) = .ok () := if_pos hassert
      have hpasses' : cppAssert ndebug (t.permute.channels == 4) = .ok () := by rwa [Tensor.channels_permute]
      have hcount : 3 * t.height * t.width < 2 ^ 31 := by
        refine Nat.lt_of_le_of_lt (Nat.mul_le_mul_right _ (Nat.mul_le_mul_right _ ?_)) (hp.image_lt hpos)
        omega
      refine (rgbaToRgb_spec hp hpos hchannels hpasses).permute (rgbaToRgb_spec hp.permute hpos' hchannels' hpasses') hcount ?_
      intro c h w hc hh hw
      exact Tensor.element?_permute hp ⟨hpos, by omega, hh, hw⟩
    | false =>
      -- `assert` ends both
      have hfails : cppAssert ndebug (t.channels == 4) = .terminated := if_neg (by simp [hassert])
      rw [rgbaToRgb, rgbaToRgb, Tensor.channels_permute, hfails]
      rfl
  · intro channels hcount
    have hcount' : channels * t.permute.height * t.permute.width < 2 ^ 31 := by
      rwa [Tensor.height_permute, Tensor.width_permute]
    refine (rgbOrRgbaToGray_spec hp hpos hchannels hcount).permute
      (rgbOrRgbaToGray_spec hp.permute hpos' hchannels' hcount') hcount ?_
    intro c h w hc hh hw
    exact Tensor.gray_permute hp hpos hh hw (by omega)

def twoPixels : Tensor ℕ := ⟨.nchw, ⟨1, 4, 1, 2⟩, [10, 11, 20, 21, 30, 31, 40, 41]⟩

theorem pixels_permute_run :
    let S : NewStorage ℕ := ⟨fun n => List.replicate n 0, fun _ => List.length_replicate⟩
    let luminance (r g b : ℕ) : ℕ := (r + g + b) / 3
    rgbaToRgb S false twoPixels.permute = permuted (rgbaToRgb S false twoPixels) ∧
      rgbOrRgbaToGray S false luminance twoPixels.permute 1 =
        permuted (rgbOrRgbaToGray S false luminance twoPixels 1) := by
  intro S luminance
  have hp : twoPixels.Packed := ⟨by decide, by decide⟩
  obtain ⟨hrgb, hgray⟩ := pixels_permute S false luminance hp rfl (.inr rfl)
  exact ⟨hrgb, hgray 1 (by decide)⟩

end Nessus.Tensors
