import Nessus.Lib.Base64
import Nessus.Lib.Writes
import Nessus.Parser.Frame

/-!
# The base64 decoder

`tb64xdec`: a table for each place in a group of four characters, loops that are unrolled over words of four characters,
and a last group that may be padded.  The words have their lowest byte first, and pointers are compared as numbers.

* `tb64lutxd0`, … — the tables; `lut_char` is what they have for the characters of the alphabet;
* `di32`, `unrolled` — one step of two words, which reads the next two, and the loops made of it;
* `tb64xdec` — what it returns, and what it leaves in the buffer.
-/

namespace Nessus.Parser.Base64X

open Nessus.Lib Nessus.Abi

/-! ## Tables -/

/-- `-1` as an `unsigned`. -/
def invalidEntry : ℕ := 0xffffffff

def tb64lutxd0 : List ℕ :=
  let x := invalidEntry
  List.replicate 32 x ++ [
    x, x, x, x, x, x, x, x, x, x, x, 0xf8, x, x, x, 0xfc,
    0xd0, 0xd4, 0xd8, 0xdc, 0xe0, 0xe4, 0xe8, 0xec, 0xf0, 0xf4, x, x, x, x, x, x,
    x, 0x00, 0x04, 0x08, 0x0c, 0x10, 0x14, 0x18, 0x1c, 0x20, 0x24, 0x28, 0x2c, 0x30, 0x34, 0x38,
    0x3c, 0x40, 0x44, 0x48, 0x4c, 0x50, 0x54, 0x58, 0x5c, 0x60, 0x64, x, x, x, x, x,
    x, 0x68, 0x6c, 0x70, 0x74, 0x78, 0x7c, 0x80, 0x84, 0x88, 0x8c, 0x90, 0x94, 0x98, 0x9c, 0xa0,
    0xa4, 0xa8, 0xac, 0xb0, 0xb4, 0xb8, 0xbc, 0xc0, 0xc4, 0xc8, 0xcc, x, x, x, x, x] ++
  List.replicate 128 x

def tb64lutxd1 : List ℕ :=
  let x := invalidEntry
  List.replicate 32 x ++ [
    x, x, x, x, x, x, x, x,
    x, x, x, 0xe003, x, x, x, 0xf003,
    0x4003, 0x5003, 0x6003, 0x7003, 0x8003, 0x9003, 0xa003, 0xb003,
    0xc003, 0xd003, x, x, x, x, x, x,
    x, 0x0000, 0x1000, 0x2000, 0x3000, 0x4000, 0x5000, 0x6000,
    0x7000, 0x8000, 0x9000, 0xa000, 0xb000, 0xc000, 0xd000, 0xe000,
    0xf000, 0x0001, 0x1001, 0x2001, 0x3001, 0x4001, 0x5001, 0x6001,
    0x7001, 0x8001, 0x9001, x, x, x, x, x,
    x, 0xa001, 0xb001, 0xc001, 0xd001, 0xe001, 0xf001, 0x0002,
    0x1002, 0x2002, 0x3002, 0x4002, 0x5002, 0x6002, 0x7002, 0x8002,
    0x9002, 0xa002, 0xb002, 0xc002, 0xd002, 0xe002, 0xf002, 0x0003,
    0x1003, 0x2003, 0x3003, x, x, x, x, x] ++
  List.replicate 128 x

def tb64lutxd2 : List ℕ :=
  let x := invalidEntry
  List.replicate 32 x ++ [
    x, x, x, x, x, x, x, x,
    x, x, x, 0x800f00, x, x, x, 0xc00f00,
    0x000d00, 0x400d00, 0x800d00, 0xc00d00, 0x000e00, 0x400e00, 0x800e00, 0xc00e00,
    0x000f00, 0x400f00, x, x, x, x, x, x,
    x, 0x000000, 0x400000, 0x800000, 0xc00000, 0x000100, 0x400100, 0x800100,
    0xc00100, 0x000200, 0x400200, 0x800200, 0xc00200, 0x000300, 0x400300, 0x800300,
    0xc00300, 0x000400, 0x400400, 0x800400, 0xc00400, 0x000500, 0x400500, 0x800500,
    0xc00500, 0x000600, 0x400600, x, x, x, x, x,
    x, 0x800600, 0xc00600, 0x000700, 0x400700, 0x800700, 0xc00700, 0x000800,
    0x400800, 0x800800, 0xc00800, 0x000900, 0x400900, 0x800900, 0xc00900, 0x000a00,
    0x400a00, 0x800a00, 0xc00a00, 0x000b00, 0x400b00, 0x800b00, 0xc00b00, 0x000c00,
    0x400c00, 0x800c00, 0xc00c00, x, x, x, x, x] ++
  List.replicate 128 x

def tb64lutxd3 : List ℕ :=
  let x := invalidEntry
  List.replicate 32 x ++ [
    x, x, x, x, x, x, x, x,
    x, x, x, 0x3e0000, x, x, x, 0x3f0000,
    0x340000, 0x350000, 0x360000, 0x370000, 0x380000, 0x390000, 0x3a0000, 0x3b0000,
    0x3c0000, 0x3d0000, x, x, x, x, x, x,
    x, 0x000000, 0x010000, 0x020000, 0x030000, 0x040000, 0x050000, 0x060000,
    0x070000, 0x080000, 0x090000, 0x0a0000, 0x0b0000, 0x0c0000, 0x0d0000, 0x0e0000,
    0x0f0000, 0x100000, 0x110000, 0x120000, 0x130000, 0x140000, 0x150000, 0x160000,
    0x170000, 0x180000, 0x190000, x, x, x, x, x,
    x, 0x1a0000, 0x1b0000, 0x1c0000, 0x1d0000, 0x1e0000, 0x1f0000, 0x200000,
    0x210000, 0x220000, 0x230000, 0x240000, 0x250000, 0x260000, 0x270000, 0x280000,
    0x290000, 0x2a0000, 0x2b0000, 0x2c0000, 0x2d0000, 0x2e0000, 0x2f0000, 0x300000,
    0x310000, 0x320000, 0x330000, x, x, x, x, x] ++
  List.replicate 128 x

/-- An entry, which every byte has. -/
def lut (table : List ℕ) (b : UInt8) : ℕ := table.getD b.toNat 0

/-- What the tables have for the characters: their bits at their places. -/
theorem lut_char {v : ℕ} (hv : v < 64) :
    lut tb64lutxd0 (Base64.char v) = Base64.place₀ v ∧ lut tb64lutxd1 (Base64.char v) = Base64.place₁ v ∧
      lut tb64lutxd2 (Base64.char v) = Base64.place₂ v ∧ lut tb64lutxd3 (Base64.char v) = Base64.place₃ v := by
  have h : ∀ v : Fin 64, lut tb64lutxd0 (Base64.char v) = Base64.place₀ v ∧
      lut tb64lutxd1 (Base64.char v) = Base64.place₁ v ∧ lut tb64lutxd2 (Base64.char v) = Base64.place₂ v ∧
      lut tb64lutxd3 (Base64.char v) = Base64.place₃ v := by decide +kernel
  exact h ⟨v, hv⟩

/-! ## Words -/

def readByte (data : Option (List Byte)) (p : ℕ) : Outcome Exn UInt8 :=
  match data.bind (·[p]?) with
  | some (some b) => .ok b
  | _ => .undefined

def ctou32 (data : Option (List Byte)) (p : ℕ) : Outcome Exn ℕ :=
  readByte data p >>= fun a => readByte data (p + 1) >>= fun b => readByte data (p + 2) >>= fun c =>
  readByte data (p + 3) >>= fun d => .ok (a.toNat + 2 ^ 8 * b.toNat + 2 ^ 16 * c.toNat + 2 ^ 24 * d.toNat)

def wordBytes (u : ℕ) : List UInt8 := [.ofNat u, .ofNat (u / 2 ^ 8), .ofNat (u / 2 ^ 16), .ofNat (u / 2 ^ 24)]

def stou32 (out : List Byte) (p u : ℕ) : Outcome Exn (List Byte) := writeAt out p ((wordBytes u).map some)

def du32 (u : ℕ) : ℕ :=
  lut tb64lutxd0 (.ofNat u) ||| lut tb64lutxd1 (.ofNat (u / 2 ^ 8)) ||| lut tb64lutxd2 (.ofNat (u / 2 ^ 16)) |||
    lut tb64lutxd3 (.ofNat (u / 2 ^ 24))

/-! ## Loops -/

/-- The buffer, the bits of the words that are checked, and the next two words. -/
structure Decoder where
  out : List Byte
  cu : ℕ
  ux : ℕ
  vx : ℕ

/-- `for (; ip < (in + inlen) - limit; ip += width, op += (width / 4) * 3)`. -/
def forLoop (inlen limit width : ℕ) [NeZero width] (body : ℕ → ℕ → Decoder → Outcome Exn Decoder) (ip op : ℕ) (s : Decoder) :
    Outcome Exn (ℕ × ℕ × Decoder) :=
  if ip + limit < inlen then
    body ip op s >>= forLoop inlen limit width body (ip + width) (op + width / 4 * 3)
  else .ok (ip, op, s)
termination_by inlen - ip
decreasing_by
  have := NeZero.pos width
  omega

/-- The width of the last loop. -/
scoped instance neZero_four : NeZero 4 := ⟨by decide⟩

section Functions

variable (data : Option (List Byte)) (inlen : ℕ)

def di32 (ip op i : ℕ) (s : Decoder) : Outcome Exn Decoder :=
  let u := s.ux
  ctou32 data (ip + 8 + i * 8) >>= fun ux =>
  stou32 s.out (op + i * 6) (du32 u) >>= fun out =>
  let v := s.vx
  ctou32 data (ip + 8 + i * 8 + 4) >>= fun vx =>
  stou32 out (op + i * 6 + 3) (du32 v) >>= fun out =>
  .ok { s with out, ux, vx }

/-- `DI32C`: `CHECK0` does what it is given, and `CHECK1` nothing. -/
def di32c (ip op i : ℕ) (s : Decoder) : Outcome Exn Decoder :=
  let u := du32 s.ux
  ctou32 data (ip + 8 + i * 8) >>= fun ux =>
  let cu := s.cu ||| u
  stou32 s.out (op + i * 6) u >>= fun out =>
  let v := du32 s.vx
  ctou32 data (ip + 8 + i * 8 + 4) >>= fun vx =>
  stou32 out (op + i * 6 + 3) v >>= fun out =>
  .ok { out, cu, ux, vx }

/-- The body of the loop over 128 characters: `DI32C(0); DI32(1); ..; DI32(15);`. -/
def decode128 (ip op : ℕ) (s : Decoder) : Outcome Exn Decoder :=
  di32c data ip op 0 s >>= fun s => (List.range' 1 15).foldlM (fun s i => di32 data ip op i s) s

/-- The body of the loop over 16 characters. -/
def decode16 (ip op : ℕ) (s : Decoder) : Outcome Exn Decoder :=
  di32 data ip op 0 s >>= fun s => di32 data ip op 1 s

/-- The body of the loop over four characters. -/
def decode4 (ip op : ℕ) (s : Decoder) : Outcome Exn Decoder :=
  ctou32 data ip >>= fun u =>
  let u := du32 u
  stou32 s.out op u >>= fun out =>
  .ok { s with out, cu := s.cu ||| u }

/-- The loops over 128 and 16 characters, and the step after them. -/
def decodeUnrolled (out : List Byte) : Outcome Exn (ℕ × ℕ × Decoder) :=
  ctou32 data 0 >>= fun ux =>
  ctou32 data 4 >>= fun vx =>
  forLoop inlen 132 128 (decode128 data) 0 0 ⟨out, 0, ux, vx⟩ >>= fun (ip, op, s) =>
  forLoop inlen 20 16 (decode16 data) ip op s >>= fun (ip, op, s) =>
  if ip + 12 < inlen then di32 data ip op 0 s >>= fun s => .ok (ip + 8, op + 6, s) else .ok (ip, op, s)

/-- How many of the last four characters are no padding. -/
def lastLength (ip : ℕ) : Outcome Exn ℕ :=
  let l := inlen - ip
  if l = 4 then
    readByte data (ip + 3) >>= fun d =>
    if d = 61 then
      readByte data (ip + 2) >>= fun c =>
      if c = 61 then readByte data (ip + 1) >>= fun b => .ok (if b = 61 then 1 else 2) else .ok 3
    else .ok 4
  else .ok l

/-- `*op++ = up[0]; ..`, of the bytes of a word, and `cu |= u`. -/
def lastBytes (n op u : ℕ) (s : Decoder) : Outcome Exn (ℕ × Decoder) :=
  writeAt s.out op (((wordBytes u).take n).map some) >>= fun out =>
  .ok (op + n, { s with out, cu := s.cu ||| u })

def decodeLast (ip op : ℕ) (s : Decoder) : Outcome Exn (ℕ × Decoder) :=
  lastLength data inlen ip >>= fun l =>
  match l with
  | 4 => ctou32 data ip >>= fun u => lastBytes 3 op (du32 u) s
  | 3 =>
    readByte data ip >>= fun a => readByte data (ip + 1) >>= fun b => readByte data (ip + 2) >>= fun c =>
    lastBytes 2 op (lut tb64lutxd0 a ||| lut tb64lutxd1 b ||| lut tb64lutxd2 c) s
  | 2 =>
    readByte data ip >>= fun a => readByte data (ip + 1) >>= fun b =>
    lastBytes 1 op (lut tb64lutxd0 a ||| lut tb64lutxd1 b) s
  | 1 => readByte data ip >>= fun a => lastBytes 1 op (lut tb64lutxd0 a) s
  | _ => .ok (op, s)

/-- `tb64xdec`: what it returns, and what it leaves in the buffer. -/
def tb64xdec (out : List Byte) : Outcome Exn (ℕ × List Byte) :=
  if inlen = 0 ∨ inlen % 4 ≠ 0 then .ok (0, out)
  else
    (if 8 + 4 ≤ inlen then decodeUnrolled data inlen out else .ok (0, 0, ⟨out, 0, 0, 0⟩)) >>= fun (ip, op, s) =>
    forLoop inlen 4 4 (decode4 data) ip op s >>= fun (ip, op, s) =>
    decodeLast data inlen ip op s >>= fun (op, s) =>
    .ok (if s.cu = invalidEntry then 0 else op, s.out)

end Functions

end Nessus.Parser.Base64X
