import Mathlib.Tactic.Ring
import Nessus.Lib.CInt
import Nessus.Lib.Writes

/-!
# Tensors

`tensor`: four extents, in the order of the storage, and the elements.  Its storage is packed.

* `Tensor`, `Tensor.channels`, … — the extents by their names;
* `offset` — where an element is; `offset_inj` and `offset_lt`, that each has a place of its own;
* `planeIndex`, `pixelIndex` — the same as the loops over an image compute it, which is defined (`planeIndex_eq`,
  `pixelIndex_eq`);
* `NewStorage`, `newTensor` — a tensor of its extents, with whatever a new storage holds.
-/

namespace Nessus.Tensors

open Nessus.Lib

variable {α : Type}

/-- `orderType`. -/
inductive Order where
  | nchw
  | nhwc
  deriving DecidableEq, Repr

structure Shape where
  s₀ : ℕ
  s₁ : ℕ
  s₂ : ℕ
  s₃ : ℕ
  deriving DecidableEq, Repr

/-- The extents as the order has them. -/
def Shape.of (order : Order) (num channels height width : ℕ) : Shape :=
  match order with
  | .nchw => ⟨num, channels, height, width⟩
  | .nhwc => ⟨num, height, width, channels⟩

/-- `tensor`.  `data` is what can be read at `cpu_data()`. -/
structure Tensor (α : Type) where
  order : Order
  shape : Shape
  data : List α
  deriving DecidableEq, Repr

/-- `offset`: the number of an element. -/
def offset (order : Order) (channels height width n c h w : ℕ) : ℕ :=
  match order with
  | .nchw => ((n * channels + c) * height + h) * width + w
  | .nhwc => ((n * height + h) * width + w) * channels + c

/-- `width * height * c + width * h + w`. -/
def planeIndex (width height c h w : ℕ) : Outcome Empty ℕ :=
  intProd width [height, c] >>= fun plane => intProd width [h] >>= fun line => intSum plane [line, w]

/-- `channels * width * h + channels * w + c`. -/
def pixelIndex (channels width c h w : ℕ) : Outcome Empty ℕ :=
  intProd channels [width, h] >>= fun line => intProd channels [w] >>= fun pixel => intSum line [pixel, c]

namespace Tensor

variable (t : Tensor α)

def num : ℕ := t.shape.s₀

def channels : ℕ :=
  match t.order with
  | .nchw => t.shape.s₁
  | .nhwc => t.shape.s₃

def height : ℕ :=
  match t.order with
  | .nchw => t.shape.s₂
  | .nhwc => t.shape.s₁

def width : ℕ :=
  match t.order with
  | .nchw => t.shape.s₃
  | .nhwc => t.shape.s₂

/-- `offset` with the extents of the tensor. -/
def offset (n c h w : ℕ) : ℕ := Tensors.offset t.order t.channels t.height t.width n c h w

def count : ℕ := t.shape.s₀ * t.shape.s₁ * t.shape.s₂ * t.shape.s₃

end Tensor

/-! ## Places -/

section Offset

variable {channels height width n n' c c' h h' w w' num : ℕ}

theorem offset_lt (order : Order) (hn : n < num) (hc : c < channels) (hh : h < height) (hw : w < width) :
    offset order channels height width n c h w < num * channels * height * width := by
  cases order with
  | nchw => exact digits_lt (digits_lt (digits_lt hn hc) hh) hw
  | nhwc =>
    calc ((n * height + h) * width + w) * channels + c < num * height * width * channels :=
          digits_lt (digits_lt (digits_lt hn hh) hw) hc
      _ = num * channels * height * width := by ring

theorem offset_inj {order : Order} (hc : c < channels) (hh : h < height) (hw : w < width) (hc' : c' < channels) (hh' : h' < height)
    (hw' : w' < width)
    (heq : offset order channels height width n c h w = offset order channels height width n' c' h' w') :
    n = n' ∧ c = c' ∧ h = h' ∧ w = w' := by
  cases order with
  | nchw =>
    obtain ⟨heq, hww⟩ := digits_inj hw hw' heq
    obtain ⟨heq, hhh⟩ := digits_inj hh hh' heq
    obtain ⟨hnn, hcc⟩ := digits_inj hc hc' heq
    exact ⟨hnn, hcc, hhh, hww⟩
  | nhwc =>
    obtain ⟨heq, hcc⟩ := digits_inj hc hc' heq
    obtain ⟨heq, hww⟩ := digits_inj hw hw' heq
    obtain ⟨hnn, hhh⟩ := digits_inj hh hh' heq
    exact ⟨hnn, hcc, hhh, hww⟩

/-! ### Computed in `int` -/

theorem offset_nchw : offset .nchw channels height width 0 c h w = width * height * c + (width * h + w) := by
  rw [offset]
  ring

theorem offset_nhwc : offset .nhwc channels height width 0 c h w = channels * width * h + (channels * w + c) := by
  rw [offset]
  ring

theorem offset_lt_int (order : Order) (hcount : channels * height * width < 2 ^ 31) (hc : c < channels) (hh : h < height)
    (hw : w < width) : offset order channels height width 0 c h w < 2 ^ 31 := by
  have hlt := offset_lt order Nat.zero_lt_one hc hh hw
  rw [Nat.one_mul] at hlt
  exact hlt.trans hcount

theorem planeIndex_eq (hcount : channels * height * width < 2 ^ 31) (hc : c < channels) (hh : h < height)
    (hw : w < width) : planeIndex width height c h w = .ok (offset .nchw channels height width 0 c h w) := by
  have hlt := offset_lt_int .nchw hcount hc hh hw
  have hplane : width * height < 2 ^ 31 := by
    refine Nat.lt_of_le_of_lt ?_ hcount
    rw [Nat.mul_assoc, Nat.mul_comm height width]
    exact Nat.le_mul_of_pos_left _ (Nat.zero_lt_of_lt hc)
  rw [offset_nchw] at hlt ⊢
  rw [planeIndex, intProd_three hplane (by omega), Outcome.ok_bind, intProd_two (by omega), Outcome.ok_bind,
    intSum_eq (by simpa using hlt)]
  simp

theorem pixelIndex_eq (hcount : channels * height * width < 2 ^ 31) (hc : c < channels) (hh : h < height)
    (hw : w < width) : pixelIndex channels width c h w = .ok (offset .nhwc channels height width 0 c h w) := by
  have hlt := offset_lt_int .nhwc hcount hc hh hw
  have hline : channels * width < 2 ^ 31 := by
    refine Nat.lt_of_le_of_lt ?_ hcount
    rw [Nat.mul_right_comm]
    exact Nat.le_mul_of_pos_right _ (Nat.zero_lt_of_lt hh)
  rw [offset_nhwc] at hlt ⊢
  rw [pixelIndex, intProd_three hline (by omega), Outcome.ok_bind, intProd_two (by omega), Outcome.ok_bind,
    intSum_eq (by simpa using hlt)]
  simp

end Offset

/-! ## New tensors -/

/-- What a new storage of so many units holds. -/
structure NewStorage (α : Type) where
  units : ℕ → List α
  length_units : ∀ n, (units n).length = n

/-- `tensor{ shape, device, order }`, where an element is `size` units of storage. -/
def newTensor (S : NewStorage α) (size : ℕ) (order : Order) (shape : Shape) : Tensor α where
  order := order
  shape := shape
  data := S.units (shape.s₀ * shape.s₁ * shape.s₂ * shape.s₃ * size)

section Extents

variable (order : Order) (num channels height width : ℕ) (data : List α)

@[simp] theorem num_of : (Tensor.mk order (.of order num channels height width) data).num = num := by cases order <;> rfl

@[simp] theorem channels_of : (Tensor.mk order (.of order num channels height width) data).channels = channels := by
  cases order <;> rfl

@[simp] theorem height_of : (Tensor.mk order (.of order num channels height width) data).height = height := by
  cases order <;> rfl

@[simp] theorem width_of : (Tensor.mk order (.of order num channels height width) data).width = width := by
  cases order <;> rfl

@[simp] theorem count_of : (Tensor.mk order (.of order num channels height width) data).count =
    num * channels * height * width := by
  cases order with
  | nchw => rfl
  | nhwc =>
    show num * height * width * channels = _
    ring

end Extents

end Nessus.Tensors
