import Nessus.Abi.Errors
import Nessus.Lib.CInt

/-!
# Frames

`data_handler`, `convert_to_bgr` and `decode_and_convert`: the three formats, with every `int` product checked and
every access to memory in bounds, or undefined.

The base64 decoder and the row conversion of libyuv are parameters (`Vendored`).
-/

namespace Nessus.Parser

open Nessus.Lib Nessus.Abi

/-- A byte of memory; `new[]` leaves it indeterminate. -/
abbrev Byte := Option UInt8

/-- `param_span<std::uint8_t>`: null or what can be read at the pointer, and the size the span is said to have. -/
structure Span where
  data : Option (List Byte)
  size : ℕ
  size_lt : size < 2 ^ 64
  deriving DecidableEq

/-- The bytes that can be read. -/
def Span.bytes (s : Span) : List Byte := s.data.getD []

/-- `DATA_FORMAT`: any `int` can be cast to it. -/
inductive DataFormat where
  | imageBgrNchw
  | imageBgrNhwc
  | imageNv21
  | unknow
  | other (i : ℤ)
  deriving DecidableEq, Repr

/-- `static_cast<DATA_FORMAT>`. -/
def DataFormat.ofInt (i : ℤ) : DataFormat :=
  if i = 0 then imageBgrNchw else if i = 1 then imageBgrNhwc else if i = 2 then imageNv21
  else if i = 99 then unknow else other i

/-- `static_cast<int>`. -/
def DataFormat.toInt : DataFormat → ℤ
  | imageBgrNchw => 0
  | imageBgrNhwc => 1
  | imageNv21 => 2
  | unknow => 99
  | other i => i

structure DataHandler extends Span where
  format : DataFormat
  isHeapAllocated : Bool
  deriving DecidableEq

/-- `std::make_shared<data_handler>(dst_ptr, size, format, true)`. -/
def DataHandler.heap (dst : List Byte) (size : ℤ) (format : DataFormat) : DataHandler :=
  { data := some dst, size := toSize size, size_lt := toSize_lt size, format := format, isHeapAllocated := true }

/-- The functions of the vendored libraries that the conversions call. -/
structure Vendored where
  /-- `NV21ToRGB24Row`: byte `k` of the row made of a row of `y` and a row of `vu`. -/
  nv21ToRgb24Row : (y vu : List Byte) → (k : ℕ) → Byte
  /-- `tb64xdec`: what it leaves in the output buffer. -/
  tb64xdec : (data : Option (List Byte)) → (inlen : ℕ) → (out : List Byte) → Outcome Exn (List Byte)

/-- `throw parser_exception(INVALID_ARGUMENT, what)`. -/
def invalidArgument (what : String) : Exn := .parser .invalidArgument what

/-- `new std::uint8_t[size]`. -/
def newBytes (size : ℤ) : Outcome Exn (List Byte) :=
  if size < 0 then .thrown (.std .badArrayNewLength "std::bad_array_new_length")
  else .ok (List.replicate size.toNat none)

/-- `std::copy(src + first, src + last, dst + d)`. -/
def copy (src : List Byte) (first last : ℤ) (dst : List Byte) (d : ℤ) : Outcome Exn (List Byte) :=
  if 0 ≤ first ∧ first ≤ last ∧ last ≤ src.length ∧ 0 ≤ d ∧ d + (last - first) ≤ dst.length then
    .ok (dst.take d.toNat ++ (src.drop first.toNat).take (last - first).toNat ++
      dst.drop (d + (last - first)).toNat)
  else .undefined

/-- `size % n != 0 && size / n < a * b * c`. -/
def sizeGuard (size : ℕ) (n a b c : ℤ) : Outcome Exn Bool :=
  modSize size n >>= fun r =>
    if r ≠ 0 then
      divSize size n >>= fun q =>
      prod a [b, c] >>= fun p =>
      .ok (decide (q < toSize p))
    else .ok false

/-! ## `IMAGE_BGR_NCHW` -/

/-- The body of the three loops: one row. -/
def copyNchw (src : List Byte) (c h w stride i j y : ℤ) (dst : List Byte) : Outcome Exn (List Byte) :=
  prod i [c, h, stride] >>= fun a =>
  prod j [h, stride] >>= fun b =>
  prod y [stride] >>= fun r =>
  prod i [c, h, w] >>= fun a' =>
  prod j [h, w] >>= fun b' =>
  prod y [w] >>= fun r' =>
  copy src (a + b + r) (a + b + r + w) dst (a' + b' + r')

def repackNchw (src : List Byte) (n c h w stride : ℤ) (dst : List Byte) : Outcome Exn (List Byte) :=
  forRange n (fun i => forRange c fun j => forRange h fun y => copyNchw src c h w stride i j y) dst

/-- The case `IMAGE_BGR_NCHW`: what it leaves in `dst`. -/
def convertNchw (src : DataHandler) (n c h w : ℤ) : Outcome Exn DataHandler :=
  sizeGuard src.size n c h w >>= fun bad =>
  if bad then .thrown (invalidArgument "BGR_NCHW, src->size_ % n != 0 && src->size_ / n < c * h * w")
  else
    prod n [c, h] >>= fun rows =>
    divSize src.size rows >>= fun q =>
    let stride := ofSize q
    if stride = w then .ok src
    else if stride > w then
      prod n [c, h, w] >>= fun size =>
      newBytes size >>= fun dst =>
      repackNchw src.bytes n c h w stride dst >>= fun dst =>
      .ok (.heap dst size .imageBgrNchw)
    else .thrown (invalidArgument "stride < w")

/-! ## `IMAGE_BGR_NHWC` -/

/-- The body of the two loops. -/
def copyNhwc (src : List Byte) (c h w stride i y : ℤ) (dst : List Byte) : Outcome Exn (List Byte) :=
  prod i [h, stride] >>= fun a =>
  prod i [stride] >>= fun b =>
  prod y [stride] >>= fun r =>
  prod c [w] >>= fun len =>
  prod i [c, h, w] >>= fun a' =>
  prod y [c, w] >>= fun r' =>
  copy src (a + b) (a + r + len) dst (a' + r')

def repackNhwc (src : List Byte) (n c h w stride : ℤ) (dst : List Byte) : Outcome Exn (List Byte) :=
  forRange n (fun i => forRange h fun y => copyNhwc src c h w stride i y) dst

/-- The case `IMAGE_BGR_NHWC`. -/
def convertNhwc (src : DataHandler) (n c h w : ℤ) : Outcome Exn DataHandler :=
  sizeGuard src.size n h w c >>= fun bad =>
  if bad then .thrown (invalidArgument "BGR_NHWC, src->size_ % n != 0 && src->size_ / n < h * w * c")
  else
    prod n [h] >>= fun rows =>
    divSize src.size rows >>= fun q =>
    prod c [w] >>= fun len =>
    let stride := ofSize q
    if stride = len then .ok src
    else if stride > len then
      prod n [c, h, w] >>= fun size =>
      newBytes size >>= fun dst =>
      repackNhwc src.bytes n c h w stride dst >>= fun dst =>
      .ok (.heap dst size .imageBgrNhwc)
    else .thrown (invalidArgument "stride < c * w")

/-! ## `IMAGE_NV21` -/

/-- A pointer into the buffer, moved by `d`. -/
def offset (data : Option (List Byte)) (d : ℤ) : Outcome Exn (Option (List Byte)) :=
  match data with
  | none => if d = 0 then .ok none else .undefined
  | some bytes => if 0 ≤ d ∧ d ≤ bytes.length then .ok (some (bytes.drop d.toNat)) else .undefined

/-- The `len` bytes that are read from `first` on. -/
def readBytes (src : List Byte) (first len : ℤ) : Outcome Exn (List Byte) :=
  if 0 ≤ first ∧ 0 ≤ len ∧ first + len ≤ src.length then .ok ((src.drop first.toNat).take len.toNat) else .undefined

/-- One row of `NV21ToRGB24`: two rows of `y` share a row of `vu`. -/
def nv21Row (v : Vendored) (y : List Byte) (strideY : ℤ) (vu : List Byte) (strideVu dstOffset dstStride width k : ℤ)
    (dst : List Byte) : Outcome Exn (List Byte) :=
  readBytes y (k * strideY) width >>= fun ys =>
  readBytes vu (k / 2 * strideVu) ((width + 1) / 2 * 2) >>= fun vus =>
  copy ((List.range (3 * width).toNat).map (v.nv21ToRgb24Row ys vus)) 0 (3 * width) dst (dstOffset + k * dstStride)

/-- `NV21ToRGB24`, which writes from `dst + dstOffset` on: its result and what it leaves in `dst`. -/
def nv21ToRgb24 (v : Vendored) (y : Option (List Byte)) (strideY : ℤ) (vu : Option (List Byte))
    (strideVu dstOffset dstStride width height : ℤ) (dst : List Byte) : Outcome Exn (ℤ × List Byte) :=
  match y, vu with
  | some y, some vu =>
    if width ≤ 0 ∨ height = 0 then .ok (-1, dst)
    else
      -- a negative height means that the image is inverted
      let start := if height < 0 then dstOffset + (-height - 1) * dstStride else dstOffset
      let step := if height < 0 then -dstStride else dstStride
      forRange |height| (nv21Row v y strideY vu strideVu start step width) dst >>= fun dst => .ok (0, dst)
  | _, _ => .ok (-1, dst)

/-- The body of the loop over the frames. -/
def nv21Frame (v : Vendored) (src : DataHandler) (c h w size i : ℤ) (dst : List Byte) : Outcome Exn (List Byte) :=
  checked (w + 1) >>= fun w' =>
  let alignedSrcWidth := w' / 2 * 2
  prod i [size / 2] >>= fun frame =>
  offset src.data frame >>= fun y =>
  prod alignedSrcWidth [h] >>= fun plane =>
  offset src.data (frame + plane) >>= fun vu =>
  prod i [size] >>= fun dstOffset =>
  prod w [c] >>= fun dstStride =>
  nv21ToRgb24 v y w vu alignedSrcWidth dstOffset dstStride w h dst >>= fun r =>
  if r.1 ≠ 0 then .thrown (.parser .internalFunctionFailure "NV21ToRGB24 failed.") else .ok r.2

/-- `for (int i = 0; i < n; n++)` from a round with `i < n` on: `i` stays, and `n` can grow `k` times before it leaves
the range of `int`. -/
def growingLoop (body : List Byte → Outcome Exn (List Byte)) : ℕ → List Byte → Outcome Exn (List Byte)
  | 0, dst => body dst >>= fun _ => .undefined
  | k + 1, dst => body dst >>= growingLoop body k

/-- The case `IMAGE_NV21`. -/
def convertNv21 (v : Vendored) (src : DataHandler) (n c h w : ℤ) : Outcome Exn DataHandler :=
  prod h [w, c] >>= fun size =>
  let bad := invalidArgument "convert_to_bgr: h & 1 || src->size_ != n * (size >> 1)"
  if h % 2 ≠ 0 then .thrown bad
  else
    prod n [size / 2] >>= fun expected =>
    if src.size ≠ toSize expected then .thrown bad
    else
      prod n [size] >>= fun total =>
      newBytes total >>= fun dst =>
      (if 0 < n then growingLoop (nv21Frame v src c h w size 0) (maxInt - n).toNat dst else .ok dst) >>= fun dst =>
      prod size [n] >>= fun total =>
      .ok (.heap dst total .imageBgrNhwc)

/-! ## All formats -/

/-- `convert_to_bgr`: the case `IMAGE_BGR_NCHW` has no `break`, so the next one converts `src` once more and replaces
`dst`. -/
def convertToBgr (v : Vendored) (src : DataHandler) (n c h w : ℤ) : Outcome Exn DataHandler :=
  match src.format with
  | .imageBgrNchw => convertNchw src n c h w >>= fun _ => convertNhwc src n c h w
  | .imageBgrNhwc => convertNhwc src n c h w
  | .imageNv21 => convertNv21 v src n c h w
  | _ => .thrown (invalidArgument "Unsupported image format.")

/-- The branch `is_base64` of `decode_and_convert`. -/
def decodeBase64 (v : Vendored) (src : Span) (format : DataFormat) : Outcome Exn DataHandler :=
  let len := ofSize (src.size / 4 * 3)
  newBytes len >>= fun decoded =>
  v.tb64xdec src.data src.size decoded >>= fun decoded =>
  .ok (.heap decoded len format)

def decodeAndConvert (v : Vendored) (src : Span) (isBase64 : Bool) (format : DataFormat) (n c h w : ℤ) :
    Outcome Exn DataHandler :=
  if h ≤ 0 ∨ w ≤ 0 then .thrown (invalidArgument "Invalid argument: h <= 0 || w <= 0")
  else if src.size = 0 then .thrown (invalidArgument "Invalid argument: src.size() <= 0")
  else
    (if isBase64 then decodeBase64 v src format
      else .ok { src with format := format, isHeapAllocated := false }) >>= fun temp =>
    convertToBgr v temp n c h w

end Nessus.Parser
