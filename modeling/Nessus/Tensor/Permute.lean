import Nessus.Tensor.Tensor

/-!
# The two orders of a tensor

A tensor in the other order: the same elements, each in the place that it has there.

* `Tensor.Packed`, `Tensor.element?` — the elements of a tensor whose storage is packed;
* `Tensor.ext_elements` — two tensors with the same elements are the same;
* `Tensor.permute` — the tensor in the other order; `Tensor.element?_permute`, **that it has the same elements**.
-/

namespace Nessus.Tensors

open Nessus.Lib

variable {α : Type}

/-! ## Elements -/

namespace Tensor

/-- The storage is packed, and `count()` is an `int`. -/
structure Packed (t : Tensor α) : Prop where
  length : t.data.length = t.count
  count_lt : t.count < 2 ^ 31

/-- The element of image `n` and channel `c` at row `h` and column `w`. -/
def element? (t : Tensor α) (n c h w : ℕ) : Option α := t.data[t.offset n c h w]?

/-- The tensor has such an element. -/
structure Has (t : Tensor α) (n c h w : ℕ) : Prop where
  num : n < t.num
  channels : c < t.channels
  height : h < t.height
  width : w < t.width

section Elements

variable {t t' : Tensor α} {n c h w k : ℕ}

theorem count_eq (t : Tensor α) : t.count = t.num * t.channels * t.height * t.width := by
  obtain ⟨order, shape, data⟩ := t
  cases order with
  | nchw => rfl
  | nhwc =>
    show shape.s₀ * shape.s₁ * shape.s₂ * shape.s₃ = shape.s₀ * shape.s₃ * shape.s₁ * shape.s₂
    ring

theorem offset_lt_count (h' : t.Has n c h w) : t.offset n c h w < t.count := by
  rw [count_eq]
  exact offset_lt t.order h'.num h'.channels h'.height h'.width

theorem Packed.exists_element (hp : t.Packed) (h' : t.Has n c h w) : ∃ a, t.element? n c h w = some a := by
  have hlt := offset_lt_count h'
  rw [← hp.length] at hlt
  exact ⟨_, List.getElem?_eq_getElem hlt⟩

theorem exists_offset (hk : k < t.count) : ∃ n c h w, t.Has n c h w ∧ k = t.offset n c h w := by
  obtain ⟨order, shape, data⟩ := t
  cases order with
  | nchw =>
    obtain ⟨p, hp, w, hw, rfl⟩ := exists_digits hk
    obtain ⟨q, hq, h, hh, rfl⟩ := exists_digits hp
    obtain ⟨n, hn, c, hc, rfl⟩ := exists_digits hq
    exact ⟨n, c, h, w, ⟨hn, hc, hh, hw⟩, rfl⟩
  | nhwc =>
    obtain ⟨p, hp, c, hc, rfl⟩ := exists_digits hk
    obtain ⟨q, hq, w, hw, rfl⟩ := exists_digits hp
    obtain ⟨n, hn, h, hh, rfl⟩ := exists_digits hq
    exact ⟨n, c, h, w, ⟨hn, hc, hh, hw⟩, rfl⟩

/-- **Two tensors with the same elements are the same.** -/
theorem ext_elements (hlength : t.data.length = t.count) (hlength' : t'.data.length = t'.count)
    (horder : t.order = t'.order) (hshape : t.shape = t'.shape)
    (helements : ∀ n c h w, t.Has n c h w → t.element? n c h w = t'.element? n c h w) : t = t' := by
  obtain ⟨order, shape, data⟩ := t
  obtain ⟨order', shape', data'⟩ := t'
  cases horder
  cases hshape
  congr 1
  refine List.ext_getElem? fun k => ?_
  by_cases hk : k < (Tensor.mk order shape data).count
  · obtain ⟨n, c, h, w, hhas, rfl⟩ := exists_offset hk
    exact helements n c h w hhas
  · rw [← hlength] at hk
    have hlen : data'.length = data.length := hlength'.trans hlength.symm
    rw [List.getElem?_eq_none (Nat.not_lt.1 hk), List.getElem?_eq_none (by rw [hlen]; exact Nat.not_lt.1 hk)]

end Elements

end Tensor

/-! ## The other order -/

def Order.other : Order → Order
  | nchw => nhwc
  | nhwc => nchw

/-- The place in this order of the element that is at the place `k` in the other one. -/
def placeOf (order : Order) (channels height width k : ℕ) : ℕ :=
  match order with
  | .nchw => offset .nchw channels height width (k / channels / width / height) (k % channels)
      (k / channels / width % height) (k / channels % width)
  | .nhwc => offset .nhwc channels height width (k / width / height / channels) (k / width / height % channels)
      (k / width % height) (k % width)

theorem digits_div {q r n : ℕ} (hr : r < n) : (q * n + r) / n = q := by
  rw [Nat.mul_comm, Nat.mul_add_div (Nat.zero_lt_of_lt hr), Nat.div_eq_of_lt hr, Nat.add_zero]

theorem digits_mod {q r n : ℕ} (hr : r < n) : (q * n + r) % n = r := by
  rw [Nat.mul_comm, Nat.mul_add_mod, Nat.mod_eq_of_lt hr]

theorem placeOf_offset {order : Order} {channels height width n c h w : ℕ} (hc : c < channels) (hh : h < height)
    (hw : w < width) :
    placeOf order channels height width (offset order.other channels height width n c h w) =
      offset order channels height width n c h w := by
  cases order with
  | nchw =>
    rw [placeOf, Order.other]
    simp only [offset, digits_div hc, digits_mod hc, digits_div hw, digits_mod hw, digits_div hh, digits_mod hh]
  | nhwc =>
    rw [placeOf, Order.other]
    simp only [offset, digits_div hc, digits_mod hc, digits_div hw, digits_mod hw, digits_div hh, digits_mod hh]

theorem getElem?_filterMap_range {f : ℕ → Option α} {n : ℕ} (hf : ∀ k < n, (f k).isSome) :
    ((List.range n).filterMap f).length = n ∧ ∀ k < n, ((List.range n).filterMap f)[k]? = f k := by
  induction n with
  | zero => exact ⟨rfl, fun k hk => absurd hk (Nat.not_lt_zero k)⟩
  | succ n ih =>
    obtain ⟨hlen, hget⟩ := ih fun k hk => hf k (Nat.lt_succ_of_lt hk)
    obtain ⟨a, ha⟩ := Option.isSome_iff_exists.1 (hf n (Nat.lt_succ_self n))
    have hlast : [n].filterMap f = [a] := by simp [ha]
    rw [List.range_succ, List.filterMap_append, hlast]
    refine ⟨by simp [hlen], fun k hk => ?_⟩
    rcases Nat.lt_succ_iff_lt_or_eq.1 hk with hk | rfl
    · rw [List.getElem?_append_left (by omega)]
      exact hget k hk
    · rw [List.getElem?_append_right (by omega), hlen, ha]
      simp

namespace Tensor

/-- The tensor in the other order. -/
def permute (t : Tensor α) : Tensor α where
  order := t.order.other
  shape := .of t.order.other t.num t.channels t.height t.width
  data := (List.range t.count).filterMap fun k => t.data[placeOf t.order t.channels t.height t.width k]?

section Permute

variable {t : Tensor α} {n c h w : ℕ}

@[simp] theorem num_permute : t.permute.num = t.num := num_of ..
@[simp] theorem channels_permute : t.permute.channels = t.channels := channels_of ..
@[simp] theorem height_permute : t.permute.height = t.height := height_of ..
@[simp] theorem width_permute : t.permute.width = t.width := width_of ..

@[simp] theorem count_permute : t.permute.count = t.count := by
  rw [count_eq, count_eq, num_permute, channels_permute, height_permute, width_permute]

theorem Has.permute (h' : t.Has n c h w) : t.permute.Has n c h w :=
  ⟨by simpa using h'.num, by simpa using h'.channels, by simpa using h'.height, by simpa using h'.width⟩

theorem Has.of_permute (h' : t.permute.Has n c h w) : t.Has n c h w :=
  ⟨by simpa using h'.num, by simpa using h'.channels, by simpa using h'.height, by simpa using h'.width⟩

theorem offset_permute :
    t.permute.offset n c h w = Tensors.offset t.order.other t.channels t.height t.width n c h w := by
  rw [offset, channels_permute, height_permute, width_permute]
  rfl

theorem Packed.isSome_placeOf (hp : t.Packed) {k : ℕ} (hk : k < t.count) :
    (t.data[placeOf t.order t.channels t.height t.width k]?).isSome := by
  rw [← count_permute] at hk
  obtain ⟨n, c, h, w, hhas, rfl⟩ := exists_offset hk
  have hhas' := hhas.of_permute
  obtain ⟨a, ha⟩ := hp.exists_element hhas'
  rw [offset_permute, placeOf_offset hhas'.channels hhas'.height hhas'.width]
  exact Option.isSome_of_eq_some ha

theorem Packed.permute (hp : t.Packed) : t.permute.Packed where
  length := by
    rw [count_permute]
    exact (getElem?_filterMap_range fun k hk => hp.isSome_placeOf hk).1
  count_lt := by
    rw [count_permute]
    exact hp.count_lt

/-- **It has the same elements.** -/
theorem element?_permute (hp : t.Packed) (h' : t.Has n c h w) : t.permute.element? n c h w = t.element? n c h w := by
  have hlt := offset_lt_count h'.permute
  rw [count_permute] at hlt
  have hget := (getElem?_filterMap_range fun k hk => hp.isSome_placeOf hk).2 _ hlt
  rw [element?, element?]
  refine hget.trans ?_
  rw [offset_permute, placeOf_offset h'.channels h'.height h'.width]
  rfl

end Permute

end Tensor

end Nessus.Tensors
