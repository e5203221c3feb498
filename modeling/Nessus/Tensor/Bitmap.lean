import Nessus.Tensor.Tensor

/-!
# Bitmaps and tensors

`tensor_helper::create` and `copy_to_bitmap`: the loops of `copy_data_core` in both directions and both orders, on the
bytes of the storage and of the bitmap.

* `copyDataCore` — the loops, with `int` and `size_t` as the source has them;
* `blocks` — what they copy, and `copyDataCore_writesAs`, that they do;
* `moves_blocks_iff` — **where each byte goes**, which is one statement for both orders;
* `bitmap_roundTrip` — a bitmap goes into a tensor and back.
-/

namespace Nessus.Tensors

open Nessus.Lib

variable {β : Type}

/-! ## The functions -/

section Functions

variable (toBitmap : Bool) (es : ℕ) (input : List β)

/-- A copy of `n` bytes between the place `t` of the tensor and the place `b` of the bitmap. -/
def copyOne (t b n : ℕ) (output : List β) : Outcome Empty (List β) :=
  if toBitmap then memcpy input t n b output else memcpy input b n t output

/-- `(channels * width * h + channels * w + c) * channel_bytes + padding_bytes * h`. -/
def pixelOffset (channels width padding c h w : ℕ) : Outcome Empty ℕ :=
  pixelIndex channels width c h w >>= fun i => .ok (sizeAdd (sizeMul i es) (sizeMul padding h))

/-- `copy_data_core<to_bitmap>`.  `es` is `sizeof(UnderlyingType)`. -/
def copyDataCore (order : Order) (width height channels stride : ℕ) (output : List β) : Outcome Empty (List β) :=
  let pixelBytes := sizeMul es channels
  let lineBytes := sizeMul width pixelBytes
  let paddingBytes := sizeSub stride (sizeMul width pixelBytes)
  match order with
  | .nchw =>
    forTo channels (fun i => forTo height fun h => forTo width fun w => fun output =>
      let c := channels - 1 - i
      pixelOffset es channels width paddingBytes c h w >>= fun b =>
      planeIndex width height c h w >>= fun t =>
      copyOne toBitmap input (t * es) b es output) output
  | .nhwc =>
    forTo height (fun h output =>
      let index := sizeMul h lineBytes
      copyOne toBitmap input index (sizeAdd index (sizeMul paddingBytes h)) lineBytes output) output

end Functions

def create (S : NewStorage β) (es : ℕ) (order : Order) (bitmap : List β) (width height channels stride : ℕ) :
    Outcome Empty (Tensor β) :=
  let result := newTensor S es order (.of order 1 channels height width)
  copyDataCore false es bitmap order width height channels stride result.data >>= fun data => .ok { result with data }

/-- `tensor_helper::copy_to_bitmap`: the bytes of the bitmap after it. -/
def copyToBitmap (es : ℕ) (data : Tensor β) (bitmap : List β) (stride : ℕ) : Outcome Empty (List β) :=
  copyDataCore true es data.data data.order data.width data.height data.channels stride bitmap

/-! ## What they are to do -/

/-- A geometry whose products are within `int`. -/
structure Geometry (es width height channels stride : ℕ) : Prop where
  es_pos : 1 ≤ es
  width_pos : 1 ≤ width
  height_pos : 1 ≤ height
  channels_pos : 1 ≤ channels
  line_le : width * channels * es ≤ stride
  stride_lt : stride < 2 ^ 31
  count_lt : channels * height * width < 2 ^ 31

/-- The bytes that a bitmap of the geometry has, without the padding of the last line. -/
def bitmapBytes (es width height channels stride : ℕ) : ℕ := (height - 1) * stride + width * channels * es

/-- The byte is one of a pixel, and not of the padding. -/
def IsPixelByte (line stride height i : ℕ) : Prop := i / stride < height ∧ i % stride < line

/-- The tensor has the elements of the bitmap. -/
def HoldsBitmap (es width height channels stride : ℕ) (bitmap : List β) (t : Tensor β) : Prop :=
  ∀ c h w k, c < channels → h < height → w < width → k < es →
    t.data[t.offset 0 c h w * es + k]? = bitmap[h * stride + (w * channels + c) * es + k]?

/-- The pixels of the bitmap have been restored in the buffer, and its padding is as it was. -/
structure Restores (line stride height : ℕ) (bitmap buffer output : List β) : Prop where
  length : output.length = buffer.length
  pixel : ∀ i, IsPixelByte line stride height i → output[i]? = bitmap[i]?
  padding : ∀ i, ¬ IsPixelByte line stride height i → output[i]? = buffer[i]?

/-! ## What the loops copy -/

section Blocks

variable (es width height channels stride : ℕ)

/-- The blocks, from the tensor to the bitmap. -/
def blocks : Order → List Block
  | .nchw => (List.range channels).flatMap fun i => (List.range height).flatMap fun h => (List.range width).flatMap fun w =>
      let c := channels - 1 - i
      [⟨offset .nchw channels height width 0 c h w * es, h * stride + (w * channels + c) * es, es⟩]
  | .nhwc => (List.range height).flatMap fun h =>
      [⟨h * (width * channels * es), h * stride, width * channels * es⟩]

/-- The block in the direction of the copy. -/
def Block.toward (toBitmap : Bool) (b : Block) : Block := if toBitmap then b else b.flip

end Blocks

section Geometry

variable {es width height channels stride : ℕ} (hg : Geometry es width height channels stride)

include hg

theorem Geometry.line_lt : width * channels * es < 2 ^ 31 := Nat.lt_of_le_of_lt hg.line_le hg.stride_lt

theorem Geometry.lineBytes_eq : sizeMul width (sizeMul es channels) = width * channels * es := by
  have hline := hg.line_lt
  have hpixel : es * channels ≤ width * channels * es := by
    rw [Nat.mul_assoc, Nat.mul_comm es]
    exact Nat.le_mul_of_pos_left _ hg.width_pos
  have hprod : width * (es * channels) = width * channels * es := by ring
  rw [sizeMul_of_lt (a := es) (by omega), sizeMul_of_lt (by omega), hprod]

theorem Geometry.height_lt : height < 2 ^ 31 := by
  refine Nat.lt_of_le_of_lt ?_ hg.count_lt
  rw [Nat.mul_right_comm]
  exact Nat.le_mul_of_pos_left _ (Nat.mul_pos hg.channels_pos hg.width_pos)

theorem Geometry.mul_lt {a h : ℕ} (ha : a ≤ stride) (hh : h < height) : a * h < 2 ^ 62 := by
  have hstride := hg.stride_lt
  have hheight := hg.height_lt
  calc a * h ≤ 2 ^ 31 * h := Nat.mul_le_mul_right h (by omega)
    _ < 2 ^ 31 * 2 ^ 31 := Nat.mul_lt_mul_of_pos_left (by omega) (by decide)
    _ = 2 ^ 62 := by decide

theorem Geometry.padding_eq :
    sizeSub stride (width * channels * es) = stride - width * channels * es := by
  have hstride := hg.stride_lt
  exact sizeSub_of_le hg.line_le (by omega)

/-- The place in a line, and the lines before with their padding. -/
theorem Geometry.line_add_padding (h : ℕ) :
    h * (width * channels * es) + (stride - width * channels * es) * h = h * stride := by
  rw [Nat.mul_comm _ h, ← Nat.mul_add, Nat.add_sub_of_le hg.line_le]

theorem Geometry.pixelOffset_eq {c h w : ℕ} (hc : c < channels) (hh : h < height) (hw : w < width) :
    pixelOffset es channels width (stride - width * channels * es) c h w =
      .ok (h * stride + (w * channels + c) * es) := by
  have hline := hg.line_lt
  have hinline : (w * channels + c) * es < width * channels * es :=
    Nat.mul_lt_mul_of_pos_right (digits_lt hw hc) hg.es_pos
  have hbefore := hg.mul_lt hg.line_le hh
  have hpadding := hg.mul_lt (Nat.sub_le stride (width * channels * es)) hh
  have hsplit : offset .nhwc channels height width 0 c h w * es =
      width * channels * es * h + (w * channels + c) * es := by
    rw [offset]
    ring
  rw [pixelOffset, pixelIndex_eq hg.count_lt hc hh hw, Outcome.ok_bind, sizeMul_of_lt (by omega),
    sizeMul_of_lt (by omega), sizeAdd_of_lt (by omega), hsplit, Nat.add_right_comm, Nat.mul_comm _ h,
    hg.line_add_padding]

end Geometry

/-! ## Where the bytes go -/

section Moves

variable {es width height channels stride x y : ℕ}

/-- The places of a byte of an element. -/
def IsPair (es width height channels stride : ℕ) (order : Order) (x y : ℕ) : Prop :=
  ∃ c h w k, c < channels ∧ h < height ∧ w < width ∧ k < es ∧
    x = offset order channels height width 0 c h w * es + k ∧ y = h * stride + (w * channels + c) * es + k

theorem mem_blocks_nchw {b : Block} :
    b ∈ blocks es width height channels stride .nchw ↔ ∃ c h w, c < channels ∧ h < height ∧ w < width ∧
      b = ⟨offset .nchw channels height width 0 c h w * es, h * stride + (w * channels + c) * es, es⟩ := by
  simp only [blocks, List.mem_flatMap, List.mem_range, List.mem_singleton]
  constructor
  · rintro ⟨i, hi, h, hh, w, hw, rfl⟩
    exact ⟨channels - 1 - i, h, w, by omega, hh, hw, rfl⟩
  · rintro ⟨c, h, w, hc, hh, hw, rfl⟩
    -- the planes are taken from the last one on
    have hi : channels - 1 - (channels - 1 - c) = c := by omega
    exact ⟨channels - 1 - c, by omega, h, hh, w, hw, by rw [hi]⟩

theorem mem_blocks_nhwc {b : Block} :
    b ∈ blocks es width height channels stride .nhwc ↔
      ∃ h, h < height ∧ b = ⟨h * (width * channels * es), h * stride, width * channels * es⟩ := by
  simp only [blocks, List.mem_flatMap, List.mem_range, List.mem_singleton]

/-- **Where each byte goes.**  A line of the interleaved order is its pixels with their channels. -/
theorem moves_blocks_iff (order : Order) :
    Moves (blocks es width height channels stride order) x y ↔ IsPair es width height channels stride order x y := by
  cases order with
  | nchw =>
    constructor
    · rintro ⟨b, hb, k, hk, hx, hy⟩
      obtain ⟨c, h, w, hc, hh, hw, rfl⟩ := mem_blocks_nchw.1 hb
      exact ⟨c, h, w, k, hc, hh, hw, hk, hx, hy⟩
    · rintro ⟨c, h, w, k, hc, hh, hw, hk, hx, hy⟩
      exact ⟨_, mem_blocks_nchw.2 ⟨c, h, w, hc, hh, hw, rfl⟩, k, hk, hx, hy⟩
  | nhwc =>
    constructor
    · rintro ⟨b, hb, j, hj, hx, hy⟩
      obtain ⟨h, hh, rfl⟩ := mem_blocks_nhwc.1 hb
      obtain ⟨q, hq, k, hk, rfl⟩ := exists_digits (hj : j < width * channels * es)
      obtain ⟨w, hw, c, hc, rfl⟩ := exists_digits hq
      refine ⟨c, h, w, k, hc, hh, hw, hk, ?_, ?_⟩
      · rw [hx, offset]
        ring
      · rw [hy]
        ring
    · rintro ⟨c, h, w, k, hc, hh, hw, hk, hx, hy⟩
      refine ⟨_, mem_blocks_nhwc.2 ⟨h, hh, rfl⟩, (w * channels + c) * es + k, digits_lt (digits_lt hw hc) hk, ?_, ?_⟩
      · rw [hx, offset]
        ring
      · rw [hy]
        ring

theorem isPair_right_unique {order : Order} {y' : ℕ} (h₁ : IsPair es width height channels stride order x y)
    (h₂ : IsPair es width height channels stride order x y') : y = y' := by
  obtain ⟨c, h, w, k, hc, hh, hw, hk, hx, hy⟩ := h₁
  obtain ⟨c', h', w', k', hc', hh', hw', hk', hx', hy'⟩ := h₂
  obtain ⟨hoffset, hkk⟩ := digits_inj hk hk' (hx.symm.trans hx')
  obtain ⟨-, hcc, hhh, hww⟩ := offset_inj hc hh hw hc' hh' hw' hoffset
  rw [hy, hy', hcc, hhh, hww, hkk]

theorem bitmap_lt {h j : ℕ} (hh : h < height) (hj : j ≤ width * channels * es) :
    h * stride + j ≤ bitmapBytes es width height channels stride := by
  have hle : h * stride ≤ (height - 1) * stride := Nat.mul_le_mul_right stride (by omega)
  rw [bitmapBytes]
  omega

theorem blocks_fit (order : Order) {T B : ℕ} (hT : channels * height * width * es ≤ T)
    (hB : bitmapBytes es width height channels stride ≤ B) :
    BlocksFit T B (blocks es width height channels stride order) := by
  intro b hb
  cases order with
  | nchw =>
    obtain ⟨c, h, w, hc, hh, hw, rfl⟩ := mem_blocks_nchw.1 hb
    have hlt := offset_lt .nchw Nat.zero_lt_one hc hh hw
    rw [Nat.one_mul] at hlt
    have hin := Nat.mul_le_mul_right es (Nat.succ_le_of_lt hlt)
    have hpixel := Nat.mul_le_mul_right es (Nat.succ_le_of_lt (digits_lt hw hc))
    have hout : h * stride + _ ≤ bitmapBytes es width height channels stride := bitmap_lt hh hpixel
    rw [Nat.succ_mul] at hin hout
    exact ⟨hin.trans hT, (Nat.add_assoc _ _ _).trans_le (hout.trans hB)⟩
  | nhwc =>
    obtain ⟨h, hh, rfl⟩ := mem_blocks_nhwc.1 hb
    have hin := Nat.mul_le_mul_right (width * channels * es) (Nat.succ_le_of_lt hh)
    have hsize : height * (width * channels * es) = channels * height * width * es := by ring
    rw [Nat.succ_mul, hsize] at hin
    exact ⟨hin.trans hT, (bitmap_lt hh (Nat.le_refl _)).trans hB⟩

section Geometry

variable (order : Order) (hg : Geometry es width height channels stride)

include hg

theorem isPair_left_unique {order : Order} {x' : ℕ} (h₁ : IsPair es width height channels stride order x y)
    (h₂ : IsPair es width height channels stride order x' y) : x = x' := by
  obtain ⟨c, h, w, k, hc, hh, hw, hk, hx, hy⟩ := h₁
  obtain ⟨c', h', w', k', hc', hh', hw', hk', hx', hy'⟩ := h₂
  have hj : (w * channels + c) * es + k < stride := (digits_lt (digits_lt hw hc) hk).trans_le hg.line_le
  have hj' : (w' * channels + c') * es + k' < stride := (digits_lt (digits_lt hw' hc') hk').trans_le hg.line_le
  rw [Nat.add_assoc] at hy hy'
  obtain ⟨hhh, hline⟩ := digits_inj hj hj' (hy.symm.trans hy')
  obtain ⟨hpixel, hkk⟩ := digits_inj hk hk' hline
  obtain ⟨hww, hcc⟩ := digits_inj hc hc' hpixel
  rw [hx, hx', hcc, hhh, hww, hkk]

/-- The bytes that are copied are those of the pixels. -/
theorem exists_isPair_iff :
    (∃ x, IsPair es width height channels stride order x y) ↔ IsPixelByte (width * channels * es) stride height y := by
  constructor
  · rintro ⟨x, c, h, w, k, hc, hh, hw, hk, -, hy⟩
    have hj : (w * channels + c) * es + k < width * channels * es := digits_lt (digits_lt hw hc) hk
    have hstride : (w * channels + c) * es + k < stride := hj.trans_le hg.line_le
    rw [hy, IsPixelByte, Nat.add_assoc, Nat.mul_comm h, Nat.mul_add_div (by omega), Nat.div_eq_of_lt hstride,
      Nat.mul_add_mod, Nat.mod_eq_of_lt hstride]
    exact ⟨hh, hj⟩
  · rintro ⟨hh, hj⟩
    obtain ⟨q, hq, k, hk, hmod⟩ := exists_digits hj
    obtain ⟨w, hw, c, hc, rfl⟩ := exists_digits hq
    refine ⟨_, c, y / stride, w, k, hc, hh, hw, hk, rfl, ?_⟩
    rw [Nat.add_assoc, ← hmod, Nat.mul_comm, Nat.div_add_mod]

end Geometry

end Moves

/-! ## The loops -/

section Loops

variable {es width height channels stride L : ℕ} {toBitmap : Bool} {input output : List β} {order : Order}

theorem copyOne_writesAs {b : Block} (h : BlocksFit input.length L [Block.toward toBitmap b]) :
    WritesAs L (copyOne toBitmap input b.s b.d b.n) [(Block.toward toBitmap b).write input] := by
  obtain ⟨hs, hd⟩ := h _ (List.mem_singleton_self _)
  cases toBitmap with
  | true => exact WritesAs.memcpy hs hd
  | false => exact WritesAs.memcpy hs hd

/-- **The loops copy the blocks.** -/
theorem copyDataCore_writesAs (toBitmap : Bool) (hg : Geometry es width height channels stride)
    (hfit : BlocksFit input.length L ((blocks es width height channels stride order).map (Block.toward toBitmap))) :
    WritesAs L (copyDataCore toBitmap es input order width height channels stride)
      (((blocks es width height channels stride order).map (Block.toward toBitmap)).map (Block.write input)) := by
  have hone {b : Block} (hb : b ∈ blocks es width height channels stride order) :
      WritesAs L (copyOne toBitmap input b.s b.d b.n) [(Block.toward toBitmap b).write input] := by
    refine copyOne_writesAs fun b' hb' => ?_
    cases List.mem_singleton.1 hb'
    exact hfit _ (List.mem_map_of_mem hb)
  cases order with
  | nchw =>
    simp only [blocks, List.map_flatMap, List.map_cons, List.map_nil]
    refine WritesAs.forTo fun i hi => WritesAs.forTo fun h hh => WritesAs.forTo fun w hw => ?_
    have hc : channels - 1 - i < channels := by omega
    simp only [hg.lineBytes_eq, hg.padding_eq, hg.pixelOffset_eq hc hh hw, planeIndex_eq hg.count_lt hc hh hw,
      Outcome.ok_bind]
    exact hone (mem_blocks_nchw.2 ⟨_, h, w, hc, hh, hw, rfl⟩)
  | nhwc =>
    simp only [blocks, List.map_flatMap, List.map_cons, List.map_nil]
    refine WritesAs.forTo fun h hh => ?_
    have hindex := hg.mul_lt hg.line_le hh
    have hpadding := hg.mul_lt (Nat.sub_le stride (width * channels * es)) hh
    have hline : sizeMul h (width * channels * es) = h * (width * channels * es) := by
      rw [Nat.mul_comm] at hindex
      exact sizeMul_of_lt (by omega)
    have hout : sizeAdd (h * (width * channels * es)) (sizeMul (stride - width * channels * es) h) = h * stride := by
      rw [Nat.mul_comm] at hindex
      rw [sizeMul_of_lt (by omega), sizeAdd_of_lt (by omega), hg.line_add_padding]
    simp only [hg.lineBytes_eq, hg.padding_eq, hline, hout]
    exact hone (mem_blocks_nhwc.2 ⟨h, hh, rfl⟩)

theorem blocksFit_flip {S D : ℕ} {bs : List Block} (h : BlocksFit S D bs) : BlocksFit D S (bs.map Block.flip) := by
  intro b hb
  obtain ⟨b', hb', rfl⟩ := List.mem_map.1 hb
  exact (h b' hb').symm

end Loops

/-! ## Round trip -/

section RoundTrip

variable {es width height channels stride : ℕ} (hg : Geometry es width height channels stride)

include hg

theorem create_eq (S : NewStorage β) (order : Order) {bitmap : List β}
    (hbitmap : bitmapBytes es width height channels stride ≤ bitmap.length) :
    ∃ t, create S es order bitmap width height channels stride = .ok t ∧ t.order = order ∧
      t.shape = .of order 1 channels height width ∧ t.data.length = channels * height * width * es ∧
      ∀ x y, IsPair es width height channels stride order x y → t.data[x]? = bitmap[y]? := by
  let t₀ := newTensor S es order (.of order 1 channels height width)
  have hlen : t₀.data.length = channels * height * width * es := by
    have hcount := count_of order 1 channels height width t₀.data
    rw [Tensor.count, Nat.one_mul] at hcount
    rw [← hcount]
    exact S.length_units _
  have hfit := blocks_fit order (Nat.le_of_eq hlen.symm) hbitmap
  have hcopy := (copyDataCore_writesAs false hg (blocksFit_flip hfit)).eq t₀.data rfl
  refine ⟨⟨order, _, _⟩, by rw [create, hcopy]; rfl, rfl, rfl, ?_, fun x y hxy => ?_⟩
  · exact (length_copyBlocks (blocksFit_flip hfit)).trans hlen
  · refine getElem?_copyBlocks (blocksFit_flip hfit) ?_ (moves_flip.2 ((moves_blocks_iff order).2 hxy))
    intro y₁ y₂ x' h₁ h₂
    exact isPair_right_unique ((moves_blocks_iff order).1 (moves_flip.1 h₁)) ((moves_blocks_iff order).1 (moves_flip.1 h₂))

theorem copyToBitmap_eq {t : Tensor β} (hshape : t.shape = .of t.order 1 channels height width)
    (hdata : t.data.length = channels * height * width * es) {buffer : List β}
    (hbuffer : bitmapBytes es width height channels stride ≤ buffer.length) :
    ∃ output, copyToBitmap es t buffer stride = .ok output ∧ output.length = buffer.length ∧
      (∀ x y, IsPair es width height channels stride t.order x y → output[y]? = t.data[x]?) ∧
      ∀ y, (∀ x, ¬ IsPair es width height channels stride t.order x y) → output[y]? = buffer[y]? := by
  obtain ⟨order, shape, data⟩ := t
  have hshape' : shape = .of order 1 channels height width := hshape
  subst hshape'
  have hfit := blocks_fit order (Nat.le_of_eq hdata.symm) hbuffer
  have hmap : (blocks es width height channels stride order).map (Block.toward true) = _ := List.map_id _
  have hcopy := (copyDataCore_writesAs true hg (hmap.symm ▸ hfit)).eq buffer rfl
  rw [hmap] at hcopy
  refine ⟨copyBlocks (blocks es width height channels stride order) data buffer, ?_, length_copyBlocks hfit,
    fun x y hxy => ?_, fun y hy => ?_⟩
  · simp only [copyToBitmap, width_of, height_of, channels_of]
    exact hcopy
  · refine getElem?_copyBlocks hfit ?_ ((moves_blocks_iff order).2 hxy)
    intro x₁ x₂ y' h₁ h₂
    exact isPair_left_unique hg ((moves_blocks_iff order).1 h₁) ((moves_blocks_iff order).1 h₂)
  · exact getElem?_copyBlocks_of_forall hfit fun x hx => hy x ((moves_blocks_iff order).1 hx)

end RoundTrip

/-- **A bitmap goes into a tensor and back**: the tensor has its elements, and the copy of the tensor restores the bytes
of all pixels and leaves the padding as it is. -/
theorem bitmap_roundTrip (S : NewStorage β) (order : Order) {es width height channels stride : ℕ}
    (hg : Geometry es width height channels stride) {bitmap : List β}
    (hbitmap : bitmapBytes es width height channels stride ≤ bitmap.length) :
    ∃ t, create S es order bitmap width height channels stride = .ok t ∧
      HoldsBitmap es width height channels stride bitmap t ∧
      ∀ buffer : List β, bitmapBytes es width height channels stride ≤ buffer.length →
        ∃ output, copyToBitmap es t buffer stride = .ok output ∧
          Restores (width * channels * es) stride height bitmap buffer output := by
  obtain ⟨⟨order', shape, data⟩, hcreate, horder, hshape, hlen, hpairs⟩ := create_eq hg S order hbitmap
  have horder' : order' = order := horder
  subst horder'
  have hshape' : shape = .of order' 1 channels height width := hshape
  subst hshape'
  refine ⟨_, hcreate, fun c h w k hc hh hw hk => ?_, fun buffer hbuffer => ?_⟩
  · refine hpairs _ _ ⟨c, h, w, k, hc, hh, hw, hk, ?_, rfl⟩
    simp [Tensor.offset]
  · obtain ⟨output, hcopy, hlength, hpixel, hpadding⟩ := copyToBitmap_eq hg rfl hlen hbuffer
    refine ⟨output, hcopy, hlength, fun i hi => ?_, fun i hi => ?_⟩
    · obtain ⟨x, hx⟩ := (exists_isPair_iff order' hg).2 hi
      exact (hpixel x i hx).trans (hpairs x i hx)
    · exact hpadding i fun x hx => hi ((exists_isPair_iff order' hg).1 ⟨x, hx⟩)

/-- Two lines of two pixels with three channels of two bytes, and a line of 14 bytes. -/
theorem bitmap_roundTrip_run :
    ∃ t, create ⟨fun n => List.replicate n 0, fun _ => List.length_replicate⟩ 2 .nchw (List.range 28) 2 2 3 14 = .ok t ∧
      HoldsBitmap 2 2 2 3 14 (List.range 28) t ∧
      ∀ buffer : List ℕ, bitmapBytes 2 2 2 3 14 ≤ buffer.length →
        ∃ output, copyToBitmap 2 t buffer 14 = .ok output ∧ Restores 12 14 2 (List.range 28) buffer output :=
  bitmap_roundTrip ⟨fun n => List.replicate n 0, fun _ => List.length_replicate⟩ .nchw
    (⟨by decide, by decide, by decide, by decide, by decide, by decide, by decide⟩ : Geometry 2 2 2 3 14) (by decide)

end Nessus.Tensors
