import Nessus.Lib.Utf8
import Nessus.Parser.Base64Decode

/-!
# The base64 encoder

`tb64xenc`: a table of two characters for each twelve bits, loops that are unrolled over words of four bytes, of which
three are used, and a last group of at most three bytes.

* `xi32`, `xi32s` — one step of two words, which reads the next two, and steps one after the other;
* `tb64xenc` — what it returns, and what it leaves in the buffer;
* `tb64xenc_encoded` — **the encoding**, without an access out of the bounds of the input or of the encoding;
* `tb64xdec_tb64xenc` — what is encoded is decoded.
-/

namespace Nessus.Parser.Base64X

open Nessus.Lib Nessus.Abi Outcome

/-! ## Tables -/

def tb64lutse : List UInt8 :=
  [ 'A', 'B', 'C', 'D', 'E', 'F', 'G', 'H', 'I', 'J', 'K', 'L', 'M', 'N', 'O', 'P', 'Q', 'R', 'S', 'T', 'U', 'V', 'W', 'X',
    'Y', 'Z', 'a', 'b', 'c', 'd', 'e', 'f', 'g', 'h', 'i', 'j', 'k', 'l', 'm', 'n', 'o', 'p', 'q', 'r', 's', 't', 'u', 'v',
    'w', 'x', 'y', 'z', '0', '1', '2', '3', '4', '5', '6', '7', '8', '9', '+', '/'].map byteOf

/-- An entry, where the index is masked. -/
def lutse (i : ℕ) : ℕ := (tb64lutse.getD i 0).toNat

/-- The table of two characters: the entries in the source are these. -/
def tb64lutxe : List ℕ := (List.range (2 ^ 12)).map fun i => lutse (i / 64) ||| lutse (i % 64) <<< 8

def lutxe (i : ℕ) : ℕ := tb64lutxe.getD i 0

/-! ## Words -/

def bswap32 (u : ℕ) : ℕ := (u % 2 ^ 8) <<< 24 ||| (u / 2 ^ 8 % 2 ^ 8) <<< 16 ||| (u / 2 ^ 16 % 2 ^ 8) <<< 8 ||| u / 2 ^ 24

def su32 (u : ℕ) : ℕ :=
  lutse (u >>> 8 &&& 0x3f) <<< 24 ||| lutse (u >>> 14 &&& 0x3f) <<< 16 ||| lutse (u >>> 20 &&& 0x3f) <<< 8 |||
    lutse (u >>> 26 &&& 0x3f)

def xu32 (u : ℕ) : ℕ := lutxe (u >>> 8 &&& 0xfff) <<< 16 ||| lutxe (u >>> 20)

/-! ## Loops -/

/-- The buffer, and the next two words. -/
structure Encoder where
  out : List Byte
  u0x : ℕ
  u1x : ℕ

/-- `for (; op <= (out + outlen) - limit; op += width, ip += (width / 4) * 3)`. -/
def encodeLoop (outlen limit width : ℕ) [NeZero width] (body : ℕ → ℕ → Encoder → Outcome Exn Encoder) (ip op : ℕ)
    (s : Encoder) : Outcome Exn (ℕ × ℕ × Encoder) :=
  if op + limit ≤ outlen then
    body ip op s >>= encodeLoop outlen limit width body (ip + width / 4 * 3) (op + width)
  else .ok (ip, op, s)
termination_by outlen + 1 - op
decreasing_by
  have := NeZero.pos width
  omega

/-- The widths of the first two loops. -/
scoped instance neZero_128 : NeZero 128 := ⟨by decide⟩

scoped instance neZero_16 : NeZero 16 := ⟨by decide⟩

section Functions

variable (data : Option (List Byte)) (inlen : ℕ)

def xi32 (ip op i : ℕ) (s : Encoder) : Outcome Exn Encoder :=
  let u0 := s.u0x
  let u1 := s.u1x
  ctou32 data (ip + 6 + i * 6) >>= fun u0x =>
  ctou32 data (ip + 6 + i * 6 + 3) >>= fun u1x =>
  stou32 s.out (op + i * 8) (xu32 u0) >>= fun out =>
  stou32 out (op + i * 8 + 4) (xu32 u1) >>= fun out =>
  .ok ⟨out, bswap32 u0x, bswap32 u1x⟩

/-- `XI32(0); XI32(1); ..`. -/
def xi32s (n ip op : ℕ) : Encoder → Outcome Exn Encoder := forTo n (xi32 data ip op)

/-- The body of the loop of `EXTAIL`. -/
def encode4 (ip op : ℕ) (s : Encoder) : Outcome Exn Encoder :=
  ctou32 data ip >>= fun u =>
  stou32 s.out op (xu32 (bswap32 u)) >>= fun out =>
  .ok { s with out }

/-- The loops over 128 and 16 characters, and the step after them. -/
def encodeUnrolled (outlen : ℕ) (out : List Byte) : Outcome Exn (ℕ × ℕ × Encoder) :=
  ctou32 data 0 >>= fun u0x =>
  ctou32 data 3 >>= fun u1x =>
  encodeLoop outlen (128 + 12) 128 (xi32s data 16) 0 0 ⟨out, bswap32 u0x, bswap32 u1x⟩ >>= fun (ip, op, s) =>
  encodeLoop outlen (16 + 12) 16 (xi32s data 2) ip op s >>= fun (ip, op, s) =>
  if op + (8 + 12) ≤ outlen then xi32 data ip op 0 s >>= fun s => .ok (ip + 6, op + 8, s) else .ok (ip, op, s)

/-- `ETAIL`: the last group. -/
def encodeLast (ip op : ℕ) (out : List Byte) : Outcome Exn (List Byte) :=
  match inlen - ip with
  | 3 =>
    readByte data ip >>= fun a => readByte data (ip + 1) >>= fun b => readByte data (ip + 2) >>= fun c =>
    stou32 out op (su32 (a.toNat <<< 24 ||| b.toNat <<< 16 ||| c.toNat <<< 8))
  | 0 => .ok out
  | 2 =>
    readByte data ip >>= fun a => readByte data (ip + 1) >>= fun b =>
    writeAt out op ([lutse (a.toNat >>> 2 &&& 0x3f), lutse ((a.toNat &&& 3) <<< 4 ||| (b.toNat &&& 0xf0) >>> 4),
      lutse ((b.toNat &&& 0xf) <<< 2), '='.toNat].map fun c => some (.ofNat c))
  | _ =>
    readByte data ip >>= fun a =>
    writeAt out op ([lutse (a.toNat >>> 2 &&& 0x3f), lutse ((a.toNat &&& 3) <<< 4), '='.toNat, '='.toNat].map
      fun c => some (.ofNat c))

/-- `tb64xenc`: what it returns, and what it leaves in the buffer. -/
def tb64xenc (out : List Byte) : Outcome Exn (ℕ × List Byte) :=
  let outlen := (inlen + 2) / 3 * 4
  (if 8 + 12 ≤ outlen then encodeUnrolled data outlen out else .ok (0, 0, ⟨out, 0, 0⟩)) >>= fun (ip, op, s) =>
  -- `op < (out + outlen) - 4`
  encodeLoop outlen 5 4 (encode4 data) ip op s >>= fun (ip, op, s) =>
  encodeLast data inlen ip op s.out >>= fun out =>
  .ok (outlen, out)

end Functions

/-! ## The words of the tables -/

section Words

open Base64

theorem lutse_eq {v : ℕ} (hv : v < 64) : lutse v = (char v).toNat := by
  have h : ∀ v : Fin 64, lutse v = (char v).toNat := by decide
  exact h ⟨v, hv⟩

theorem lutxe_eq {i : ℕ} (hi : i < 2 ^ 12) : lutxe i = (char (i / 64)).toNat + 2 ^ 8 * (char (i % 64)).toNat := by
  have hlt := (char (i / 64)).toNat_lt
  rw [lutxe, tb64lutxe, List.getD_eq_getElem?_getD, List.getElem?_map, List.getElem?_range hi, Option.map_some,
    Option.getD_some, lutse_eq (by omega), lutse_eq (by omega), Nat.shiftLeft_eq, Nat.mul_comm _ (2 ^ 8), Nat.or_comm,
    ← Nat.two_pow_add_eq_or_of_lt hlt, Nat.add_comm]

theorem word_eq_or (a b c d : UInt8) :
    word a b c d = d.toNat <<< 24 ||| c.toNat <<< 16 ||| b.toNat <<< 8 ||| a.toNat := by
  have ha := a.toNat_lt
  have hb := b.toNat_lt
  have hc := c.toNat_lt
  simp only [Nat.shiftLeft_eq, Nat.mul_comm _ (2 ^ _)]
  rw [Nat.or_assoc, Nat.or_assoc, ← Nat.two_pow_add_eq_or_of_lt ha, ← Nat.two_pow_add_eq_or_of_lt (i := 16) (by omega),
    ← Nat.two_pow_add_eq_or_of_lt (i := 24) (by omega), word]
  omega

theorem bswap32_word (a b c d : UInt8) : bswap32 (word a b c d) = word d c b a := by
  have ha := a.toNat_lt
  have hb := b.toNat_lt
  have hc := c.toNat_lt
  have hd := d.toNat_lt
  have h₀ : word a b c d % 2 ^ 8 = a.toNat := by unfold word; omega
  have h₁ : word a b c d / 2 ^ 8 % 2 ^ 8 = b.toNat := by unfold word; omega
  have h₂ : word a b c d / 2 ^ 16 % 2 ^ 8 = c.toNat := by unfold word; omega
  have h₃ : word a b c d / 2 ^ 24 = d.toNat := by unfold word; omega
  rw [bswap32, h₀, h₁, h₂, h₃, word_eq_or d c b a]

/-- The characters of three bytes, in a word. -/
def charWord (a b c : UInt8) : ℕ :=
  word (char (sextet₀ a)) (char (sextet₁ a b)) (char (sextet₂ b c)) (char (sextet₃ c))

theorem xu32_word (a b c d : UInt8) : xu32 (word d c b a) = charWord a b c := by
  have ha := a.toNat_lt
  have hb := b.toNat_lt
  have hc := c.toNat_lt
  have hd := d.toNat_lt
  have hlow : word d c b a >>> 8 &&& 0xfff = b.toNat % 16 * 256 + c.toNat := by
    rw [show 0xfff = 2 ^ 12 - 1 from rfl, Nat.and_two_pow_sub_one_eq_mod, Nat.shiftRight_eq_div_pow, word]
    omega
  have hhigh : word d c b a >>> 20 = a.toNat * 16 + b.toNat / 16 := by
    rw [Nat.shiftRight_eq_div_pow, word]
    omega
  have h₀ : (a.toNat * 16 + b.toNat / 16) / 64 = sextet₀ a := by unfold sextet₀; omega
  have h₁ : (a.toNat * 16 + b.toNat / 16) % 64 = sextet₁ a b := by unfold sextet₁; omega
  have h₂ : (b.toNat % 16 * 256 + c.toNat) / 64 = sextet₂ b c := by unfold sextet₂; omega
  have h₃ : (b.toNat % 16 * 256 + c.toNat) % 64 = sextet₃ c := by unfold sextet₃; omega
  have hc₀ := (char (sextet₀ a)).toNat_lt
  have hc₁ := (char (sextet₁ a b)).toNat_lt
  rw [xu32, hlow, hhigh, lutxe_eq (by omega), lutxe_eq (by omega), h₀, h₁, h₂, h₃, Nat.shiftLeft_eq, Nat.mul_comm _ (2 ^ 16),
    ← Nat.two_pow_add_eq_or_of_lt (by omega), charWord, word]
  omega

theorem su32_bytes (a b c : UInt8) : su32 (a.toNat <<< 24 ||| b.toNat <<< 16 ||| c.toNat <<< 8) = charWord a b c := by
  have ha := a.toNat_lt
  have hb := b.toNat_lt
  have hc := c.toNat_lt
  have hu : a.toNat <<< 24 ||| b.toNat <<< 16 ||| c.toNat <<< 8 = word 0 c b a := by
    rw [word_eq_or]
    exact (Nat.or_zero _).symm
  have hmask (k : ℕ) : word 0 c b a >>> k &&& 0x3f = word 0 c b a / 2 ^ k % 64 := by
    rw [show 0x3f = 2 ^ 6 - 1 from rfl, Nat.and_two_pow_sub_one_eq_mod, Nat.shiftRight_eq_div_pow]
  have h0 : (0 : UInt8).toNat = 0 := rfl
  have h₀ : word 0 c b a / 2 ^ 26 % 64 = sextet₀ a := by unfold word sextet₀; omega
  have h₁ : word 0 c b a / 2 ^ 20 % 64 = sextet₁ a b := by unfold word sextet₁; omega
  have h₂ : word 0 c b a / 2 ^ 14 % 64 = sextet₂ b c := by unfold word sextet₂; omega
  have h₃ : word 0 c b a / 2 ^ 8 % 64 = sextet₃ c := by unfold word sextet₃; omega
  rw [hu, su32, hmask, hmask, hmask, hmask, h₀, h₁, h₂, h₃, lutse_eq sextet₀_lt, lutse_eq sextet₁_lt, lutse_eq sextet₂_lt,
    lutse_eq sextet₃_lt, charWord, word_eq_or]

theorem wordBytes_word (a b c d : UInt8) : wordBytes (word a b c d) = [a, b, c, d] := by
  have ha := a.toNat_lt
  have hb := b.toNat_lt
  have hc := c.toNat_lt
  have h₀ : UInt8.ofNat (word a b c d) = a :=
    toNat_ofNat_eq (m := b.toNat + 2 ^ 8 * c.toNat + 2 ^ 16 * d.toNat) (by unfold word; omega)
  have h₁ : UInt8.ofNat (word a b c d / 2 ^ 8) = b :=
    toNat_ofNat_eq (m := c.toNat + 2 ^ 8 * d.toNat) (by unfold word; omega)
  have h₂ : UInt8.ofNat (word a b c d / 2 ^ 16) = c := toNat_ofNat_eq (m := d.toNat) (by unfold word; omega)
  have h₃ : UInt8.ofNat (word a b c d / 2 ^ 24) = d := toNat_ofNat_eq (m := 0) (by unfold word; omega)
  rw [wordBytes, h₀, h₁, h₂, h₃]

end Words

/-! ## The buffer -/

section Buffer

open Base64

variable {b : List UInt8} {out₀ : List Byte} {k p ip op i : ℕ}

/-- The buffer after the groups before `k`, where it was `out₀`. -/
def encoded (b : List UInt8) (out₀ : List Byte) (k : ℕ) : List Byte :=
  ((encode b).take (4 * k)).map some ++ out₀.drop (4 * k)

/-- The word at a byte, with the highest byte first. -/
def bytesWord (b : List UInt8) (p : ℕ) : ℕ := word (b.getD (p + 3) 0) (b.getD (p + 2) 0) (b.getD (p + 1) 0) (b.getD p 0)

/-- The same, with the next two words read. -/
def encoder (b : List UInt8) (out₀ : List Byte) (k : ℕ) : Encoder :=
  ⟨encoded b out₀ k, bytesWord b (3 * k), bytesWord b (3 * k + 3)⟩

theorem ctou32_bytes (hp : p + 4 ≤ b.length) :
    ∃ u, ctou32 (some (b.map some)) p = .ok u ∧ bswap32 u = bytesWord b p := by
  refine ⟨_, ?_, bswap32_word (b.getD p 0) (b.getD (p + 1) 0) (b.getD (p + 2) 0) (b.getD (p + 3) 0)⟩
  rw [ctou32, readByte_text (by omega), readByte_text (by omega), readByte_text (by omega), readByte_text (by omega)]
  rfl

/-- **One group is written.** -/
theorem writeAt_encoded (vs : List UInt8) (hvs : vs.length = 4) (hk : ((encode b).drop (4 * k)).take 4 = vs)
    (hout : 4 * k + 4 ≤ out₀.length) :
    (writeAt (encoded b out₀ k) (4 * k) (vs.map some) : Outcome Exn (List Byte)) = .ok (encoded b out₀ (k + 1)) := by
  have hlen : 4 * k + 4 ≤ (encode b).length := by
    have := congrArg List.length hk
    simp only [List.length_take, List.length_drop, hvs] at this
    omega
  have hfront : (((encode b).take (4 * k)).map some).length = 4 * k := by
    rw [List.length_map, List.length_take]
    omega
  have hsplit : out₀.drop (4 * k) = (out₀.drop (4 * k)).take 4 ++ out₀.drop (4 * (k + 1)) := by
    rw [Nat.mul_succ, ← List.drop_drop, List.take_append_drop]
  have hold : ((out₀.drop (4 * k)).take 4).length = 4 := by
    rw [List.length_take, List.length_drop]
    omega
  have hwrite : (writeAt ((((encode b).take (4 * k)).map some) ++ ((out₀.drop (4 * k)).take 4 ++ out₀.drop (4 * (k + 1))))
      (((encode b).take (4 * k)).map some).length (vs.map some) : Outcome Exn (List Byte)) =
      .ok (((encode b).take (4 * k)).map some ++ (vs.map some ++ out₀.drop (4 * (k + 1)))) :=
    writeAt_append _ (by rw [List.length_map, hvs, hold])
  rw [hfront, ← hsplit] at hwrite
  rw [encoded, hwrite, encoded, Nat.mul_succ, List.take_add, hk, List.map_append, List.append_assoc]

theorem drop_of_full (hk : 3 * k + 3 ≤ b.length) :
    b.drop (3 * k) = b.getD (3 * k) 0 :: b.getD (3 * k + 1) 0 :: b.getD (3 * k + 2) 0 :: b.drop (3 * k + 3) := by
  have hget {i : ℕ} (hi : i < b.length) : b.getD i 0 = b[i] := by
    rw [List.getD_eq_getElem?_getD, List.getElem?_eq_getElem hi, Option.getD_some]
  rw [List.drop_eq_getElem_cons (by omega), List.drop_eq_getElem_cons (by omega), List.drop_eq_getElem_cons (by omega),
    hget (by omega), hget (by omega), hget (by omega)]

theorem take_encode_of_full (hk : 3 * k + 3 ≤ b.length) :
    ((encode b).drop (4 * k)).take 4 =
      wordBytes (charWord (b.getD (3 * k) 0) (b.getD (3 * k + 1) 0) (b.getD (3 * k + 2) 0)) := by
  rw [drop_encode (by omega), drop_of_full hk, encode, charWord, wordBytes_word]
  rfl

theorem stou32_encoded (hk : 3 * k + 3 ≤ b.length) (hout : 4 * k + 4 ≤ out₀.length) :
    stou32 (encoded b out₀ k) (4 * k) (xu32 (bytesWord b (3 * k))) = .ok (encoded b out₀ (k + 1)) := by
  rw [stou32, bytesWord, xu32_word]
  exact writeAt_encoded _ rfl (take_encode_of_full hk) hout

/-! ### The bodies of the loops -/

theorem xi32_encoder (hip : ip + 6 * i = 3 * k) (hop : op + 8 * i = 4 * k) (hk : 3 * k + 13 ≤ b.length)
    (hout : 4 * k + 8 ≤ out₀.length) :
    xi32 (some (b.map some)) ip op i (encoder b out₀ k) = .ok (encoder b out₀ (k + 2)) := by
  have hu₀ : ip + 6 + i * 6 = 3 * (k + 2) := by omega
  have hu₁ : 3 * (k + 2) + 3 = 3 * (k + 3) := by omega
  have hfirst : op + i * 8 = 4 * k := by omega
  have hsecond : 4 * k + 4 = 4 * (k + 1) := by omega
  have hnext : 3 * k + 3 = 3 * (k + 1) := by omega
  obtain ⟨u₀, h₀, hb₀⟩ := ctou32_bytes (b := b) (p := 3 * (k + 2)) (by omega)
  obtain ⟨u₁, h₁, hb₁⟩ := ctou32_bytes (b := b) (p := 3 * (k + 2) + 3) (by omega)
  rw [xi32, hu₀, h₀, ok_bind, h₁, ok_bind, hfirst, encoder, stou32_encoded (by omega) (by omega), ok_bind, hsecond, hnext,
    stou32_encoded (by omega) (by omega), ok_bind, hb₀, hb₁]
  rfl

theorem xi32s_encoder {n : ℕ} (hk : 3 * k + 6 * n + 7 ≤ b.length) (hout : 4 * k + 8 * n ≤ out₀.length) :
    xi32s (some (b.map some)) n (3 * k) (4 * k) (encoder b out₀ k) = .ok (encoder b out₀ (k + 2 * n)) := by
  refine forTo_of_ok (fun i => encoder b out₀ (k + 2 * i)) fun i hi => ?_
  exact xi32_encoder (by omega) (by omega) (by omega) (by omega)

theorem encode4_encoded {u₀ u₁ : ℕ} (hk : 3 * k + 4 ≤ b.length) (hout : 4 * k + 4 ≤ out₀.length) :
    encode4 (some (b.map some)) (3 * k) (4 * k) ⟨encoded b out₀ k, u₀, u₁⟩ = .ok ⟨encoded b out₀ (k + 1), u₀, u₁⟩ := by
  obtain ⟨u, hu, hb⟩ := ctou32_bytes (b := b) (p := 3 * k) (by omega)
  rw [encode4, hu, ok_bind, hb, stou32_encoded (by omega) hout]
  rfl

/-! ### The last group -/

theorem ofNat_lutse {v : ℕ} (hv : v < 64) : UInt8.ofNat (lutse v) = char v := by rw [lutse_eq hv, UInt8.ofNat_toNat]

theorem sextets_of_tail (a b : UInt8) :
    a.toNat >>> 2 &&& 0x3f = sextet₀ a ∧ (a.toNat &&& 3) <<< 4 = sextet₁ a 0 ∧
      (a.toNat &&& 3) <<< 4 ||| (b.toNat &&& 0xf0) >>> 4 = sextet₁ a b ∧ (b.toNat &&& 0xf) <<< 2 = sextet₂ b 0 := by
  have ha := a.toNat_lt
  have hb := b.toNat_lt
  have h0 : (0 : UInt8).toNat = 0 := rfl
  have hmask (n k : ℕ) : n &&& (2 ^ k - 1) = n % 2 ^ k := Nat.and_two_pow_sub_one_eq_mod n k
  have hthree : a.toNat &&& 3 = a.toNat % 4 := hmask _ 2
  have hfifteen : b.toNat &&& 0xf = b.toNat % 16 := hmask _ 4
  have hhigh : (b.toNat &&& 0xf0) >>> 4 = b.toNat / 16 := by
    rw [Nat.shiftRight_and_distrib, show 0xf0 >>> 4 = 2 ^ 4 - 1 from rfl, hmask, Nat.shiftRight_eq_div_pow]
    omega
  rw [show 0x3f = 2 ^ 6 - 1 from rfl, hmask, Nat.shiftRight_eq_div_pow, hthree, hfifteen, hhigh, Nat.shiftLeft_eq,
    Nat.shiftLeft_eq, Nat.mul_comm _ (2 ^ 4), ← Nat.two_pow_add_eq_or_of_lt (by omega)]
  unfold sextet₀ sextet₁ sextet₂
  omega

theorem tail_cases {α : Type} {l : List α} (h : 0 < l.length ∧ l.length ≤ 3) :
    (∃ x, l = [x]) ∨ (∃ x y, l = [x, y]) ∨ ∃ x y z, l = [x, y, z] := by
  obtain h₁ | h₂ | h₃ : l.length = 1 ∨ l.length = 2 ∨ l.length = 3 := by omega
  · exact .inl (List.length_eq_one_iff.1 h₁)
  · exact .inr (.inl (List.length_eq_two.1 h₂))
  · exact .inr (.inr (List.length_eq_three.1 h₃))

theorem encodeLast_encoded (hk : 3 * k < b.length) (hk' : b.length ≤ 3 * k + 3) (hout : 4 * k + 4 ≤ out₀.length) :
    encodeLast (some (b.map some)) b.length (3 * k) (4 * k) (encoded b out₀ k) = .ok (encoded b out₀ (k + 1)) := by
  have hdrop : (encode b).drop (4 * k) = encode (b.drop (3 * k)) := drop_encode (by omega)
  have hlen : b.length - 3 * k = (b.drop (3 * k)).length := List.length_drop.symm
  have hget {i : ℕ} (hi : i < (b.drop (3 * k)).length) :
      readByte (some (b.map some)) (3 * k + i) = .ok ((b.drop (3 * k)).getD i 0) := by
    rw [readByte_text (by omega), List.getD_eq_getElem?_getD, List.getD_eq_getElem?_getD, List.getElem?_drop]
  have hget₀ := hget (i := 0) (by omega)
  rw [Nat.add_zero] at hget₀
  rw [encodeLast, hlen, hget₀]
  have hbound : 0 < (b.drop (3 * k)).length ∧ (b.drop (3 * k)).length ≤ 3 := by omega
  have hwrite := @writeAt_encoded b out₀ k
  rw [hdrop] at hwrite
  rcases tail_cases hbound with ⟨x, hl⟩ | ⟨x, y, hl⟩ | ⟨x, y, z, hl⟩
  · obtain ⟨h₀, h₁, -, -⟩ := sextets_of_tail x 0
    rw [hl]
    simp only [List.length_cons, List.length_nil, ok_bind, List.getD_cons_zero, h₀, h₁, List.map_cons, List.map_nil,
      ofNat_lutse sextet₀_lt, ofNat_lutse sextet₁_lt]
    exact hwrite [char (sextet₀ x), char (sextet₁ x 0), pad, pad] rfl (by rw [hl]; rfl) hout
  · obtain ⟨h₀, -, h₁, h₂⟩ := sextets_of_tail x y
    have hy := hget (i := 1) (by simp [hl])
    rw [hl] at hy ⊢
    simp only [List.length_cons, List.length_nil, ok_bind, List.getD_cons_zero, hy, List.getD_cons_succ, h₀, h₁, h₂,
      List.map_cons, List.map_nil, ofNat_lutse sextet₀_lt, ofNat_lutse sextet₁_lt, ofNat_lutse sextet₂_lt]
    exact hwrite [char (sextet₀ x), char (sextet₁ x y), char (sextet₂ y 0), pad] rfl (by rw [hl]; rfl) hout
  · have hy := hget (i := 1) (by simp [hl])
    have hz := hget (i := 2) (by simp [hl])
    rw [hl] at hy hz ⊢
    simp only [List.length_cons, List.length_nil, ok_bind, List.getD_cons_zero, hy, hz, List.getD_cons_succ, su32_bytes]
    rw [stou32]
    exact hwrite (wordBytes (charWord x y z)) rfl (by rw [hl, charWord, wordBytes_word]; rfl) hout

/-! ### The loops -/

/-- **The rule for the loops**, by the states that they go through. -/
theorem encodeLoop_of_ok (outlen limit width : ℕ) {w : ℕ} [NeZero width] (hw : width = 4 * w)
    (body : ℕ → ℕ → Encoder → Outcome Exn Encoder) (state : ℕ → Encoder)
    (hbody : ∀ k, 4 * k + limit ≤ outlen → body (3 * k) (4 * k) (state k) = .ok (state (k + w))) (k : ℕ) :
    ∃ k', k ≤ k' ∧ outlen < 4 * k' + limit ∧ (k' = k ∨ 4 * k' + limit ≤ outlen + width) ∧
      encodeLoop outlen limit width body (3 * k) (4 * k) (state k) = .ok (3 * k', 4 * k', state k') := by
  have hpos := NeZero.pos width
  by_cases hk : 4 * k + limit ≤ outlen
  · obtain ⟨k', hle, hend, hlast, hrest⟩ := encodeLoop_of_ok outlen limit width hw body state hbody (k + w)
    have hip : 3 * k + width / 4 * 3 = 3 * (k + w) := by omega
    have hop : 4 * k + width = 4 * (k + w) := by omega
    refine ⟨k', by omega, hend, ?_, ?_⟩
    · rcases hlast with rfl | hlast
      · exact .inr (by omega)
      · exact .inr hlast
    · rw [encodeLoop, if_pos hk, hbody k hk, ok_bind, hip, hop, hrest]
  · exact ⟨k, le_rfl, by omega, .inl rfl, by rw [encodeLoop, if_neg hk]⟩
termination_by outlen + 1 - 4 * k

/-- The unrolled loops encode some groups, and leave one at least. -/
theorem encodeUnrolled_encoded {G : ℕ} (hG : (b.length + 2) / 3 = G + 1) (hlong : 20 ≤ 4 * (G + 1))
    (hout : 4 * (G + 1) ≤ out₀.length) :
    ∃ k ≤ G, encodeUnrolled (some (b.map some)) (4 * (G + 1)) out₀ = .ok (3 * k, 4 * k, encoder b out₀ k) := by
  obtain ⟨u₀, h₀, hb₀⟩ := ctou32_bytes (b := b) (p := 0) (by omega)
  obtain ⟨u₁, h₁, hb₁⟩ := ctou32_bytes (b := b) (p := 3) (by omega)
  have hstart : (⟨out₀, bswap32 u₀, bswap32 u₁⟩ : Encoder) = encoder b out₀ 0 := by
    rw [hb₀, hb₁]
    rfl
  obtain ⟨k₁, -, -, hlast₁, hloop₁⟩ := encodeLoop_of_ok (4 * (G + 1)) (128 + 12) 128 (w := 32) rfl
    (xi32s (some (b.map some)) 16) (encoder b out₀) (fun k hk => xi32s_encoder (by omega) (by omega)) 0
  obtain ⟨k₂, -, -, hlast₂, hloop₂⟩ := encodeLoop_of_ok (4 * (G + 1)) (16 + 12) 16 (w := 4) rfl
    (xi32s (some (b.map some)) 2) (encoder b out₀) (fun k hk => xi32s_encoder (by omega) (by omega)) k₁
  rw [encodeUnrolled, h₀, ok_bind, h₁, ok_bind, hstart]
  simp only [Nat.mul_zero] at hloop₁
  simp only [hloop₁, hloop₂, ok_bind]
  by_cases hmore : 4 * k₂ + (8 + 12) ≤ 4 * (G + 1)
  · refine ⟨k₂ + 2, by omega, ?_⟩
    rw [if_pos hmore, xi32_encoder (k := k₂) (by omega) (by omega) (by omega) (by omega)]
    rfl
  · exact ⟨k₂, by omega, if_neg hmore⟩

/-- The loop of `EXTAIL` leaves the last group, which is encoded then. -/
theorem encode4_encodeLast {G : ℕ} (hG : (b.length + 2) / 3 = G + 1) (hout : 4 * (G + 1) ≤ out₀.length) (hk : k ≤ G)
    (u₀ u₁ : ℕ) :
    (encodeLoop (4 * (G + 1)) 5 4 (encode4 (some (b.map some))) (3 * k) (4 * k) ⟨encoded b out₀ k, u₀, u₁⟩ >>=
      fun (ip, op, s) => encodeLast (some (b.map some)) b.length ip op s.out >>= fun out => .ok (4 * (G + 1), out)) =
      .ok (4 * (G + 1), encoded b out₀ (G + 1)) := by
  obtain ⟨k', -, hend, hlast, hloop⟩ := encodeLoop_of_ok (4 * (G + 1)) 5 4 (w := 1) rfl
    (encode4 (some (b.map some))) (fun k => ⟨encoded b out₀ k, u₀, u₁⟩)
    (fun k hk => encode4_encoded (by omega) (by omega)) k
  obtain rfl : k' = G := by omega
  simp only [hloop, ok_bind, encodeLast_encoded (b := b) (k := k') (by omega) (by omega) hout]

end Buffer

section Encodings

open Base64

variable {b : List UInt8} {out : List Byte}

theorem tb64xenc_nil (out : List Byte) : tb64xenc (some []) 0 out = .ok (0, out) := by
  have hloop : encodeLoop 0 5 4 (encode4 (some [])) 0 0 ⟨out, 0, 0⟩ = .ok (0, 0, ⟨out, 0, 0⟩) := by
    rw [encodeLoop, if_neg (by decide)]
  show (encodeLoop 0 5 4 (encode4 (some [])) 0 0 ⟨out, 0, 0⟩ >>= _) = _
  rw [hloop]
  rfl

theorem tb64xenc_encoded (hout : (encode b).length ≤ out.length) :
    tb64xenc (some (b.map some)) b.length out =
      .ok ((encode b).length, (encode b).map some ++ out.drop (encode b).length) := by
  by_cases hb : b = []
  · rw [hb]
    exact tb64xenc_nil out
  have hpos := List.length_pos_iff.2 hb
  obtain ⟨G, hG⟩ : ∃ G, (b.length + 2) / 3 = G + 1 := ⟨(b.length + 2) / 3 - 1, by omega⟩
  have houtlen : (b.length + 2) / 3 * 4 = 4 * (G + 1) := by omega
  have hlen : (encode b).length = 4 * (G + 1) := (length_encode b).trans houtlen
  have hdone : encoded b out (G + 1) = (encode b).map some ++ out.drop (encode b).length := by
    rw [encoded, ← hlen, List.take_length]
  rw [hlen] at hout
  rw [← hdone, hlen, tb64xenc, houtlen]
  by_cases hlong : 8 + 12 ≤ 4 * (G + 1)
  · obtain ⟨k, hk, hunrolled⟩ := encodeUnrolled_encoded hG hlong hout
    rw [if_pos hlong, hunrolled, ok_bind]
    exact encode4_encodeLast hG hout hk _ _
  · rw [if_neg hlong, ok_bind]
    exact encode4_encodeLast hG hout (Nat.zero_le G) 0 0

/-! ## What the decoder returns -/

section Decode

variable {data : Option (List Byte)} {ip op i inlen : ℕ} {s s' : Decoder}

theorem di32_eq_ok (h : di32 data ip op i s = .ok s') : s'.cu = s.cu ∧ ctou32 data (ip + 8 + i * 8) = .ok s'.ux := by
  obtain ⟨ux, hux, h⟩ := bind_eq_ok.1 h
  obtain ⟨out, -, h⟩ := bind_eq_ok.1 h
  obtain ⟨vx, -, h⟩ := bind_eq_ok.1 h
  obtain ⟨out', -, h⟩ := bind_eq_ok.1 h
  cases h
  exact ⟨rfl, hux⟩

theorem di32s_eq_ok {n : ℕ} (h : (List.range' i (n + 1)).foldlM (fun s i => di32 data ip op i s) s = .ok s') :
    s'.cu = s.cu ∧ ctou32 data (ip + 8 + (i + n) * 8) = .ok s'.ux := by
  induction n generalizing i s with
  | zero =>
    obtain ⟨t, ht, h⟩ := bind_eq_ok.1 h
    cases h
    exact di32_eq_ok ht
  | succ n ih =>
    obtain ⟨t, ht, h⟩ := bind_eq_ok.1 h
    obtain ⟨hcu, hux⟩ := ih h
    have hi : i + 1 + n = i + (n + 1) := by omega
    exact ⟨hcu.trans (di32_eq_ok ht).1, hi ▸ hux⟩

theorem decode128_eq_ok (h : decode128 data ip op s = .ok s') :
    s'.cu = s.cu ||| du32 s.ux ∧ ctou32 data (ip + 128) = .ok s'.ux := by
  obtain ⟨t, ht, h⟩ := bind_eq_ok.1 h
  obtain ⟨ux, -, ht⟩ := bind_eq_ok.1 ht
  obtain ⟨out, -, ht⟩ := bind_eq_ok.1 ht
  obtain ⟨vx, -, ht⟩ := bind_eq_ok.1 ht
  obtain ⟨out', -, ht⟩ := bind_eq_ok.1 ht
  cases ht
  exact di32s_eq_ok (n := 14) h

theorem decode16_eq_ok (h : decode16 data ip op s = .ok s') : s'.cu = s.cu ∧ ctou32 data (ip + 16) = .ok s'.ux := by
  obtain ⟨t, ht, h⟩ := bind_eq_ok.1 h
  obtain ⟨hcu, hux⟩ := di32_eq_ok h
  exact ⟨hcu.trans (di32_eq_ok ht).1, hux⟩

theorem decode4_eq_ok (h : decode4 data ip op s = .ok s') : ∃ u, ctou32 data ip = .ok u ∧ s'.cu = s.cu ||| du32 u := by
  obtain ⟨u, hu, h⟩ := bind_eq_ok.1 h
  obtain ⟨out, -, h⟩ := bind_eq_ok.1 h
  cases h
  exact ⟨u, hu, rfl⟩

/-- **The rule for the loops**, by what their rounds keep. -/
theorem forLoop_eq_ok {limit width : ℕ} [NeZero width] {body : ℕ → ℕ → Decoder → Outcome Exn Decoder}
    {I : ℕ → Decoder → Prop}
    (hbody : ∀ ip op s s', ip + limit < inlen → I ip s → body ip op s = .ok s' → I (ip + width) s') {ip op : ℕ} {s : Decoder}
    {r : ℕ × ℕ × Decoder} (hs : I ip s) (h : forLoop inlen limit width body ip op s = .ok r) : I r.1 r.2.2 := by
  have hpos := NeZero.pos width
  rw [forLoop] at h
  split at h
  · next hmore =>
    obtain ⟨t, ht, h⟩ := bind_eq_ok.1 h
    exact forLoop_eq_ok hbody (hbody ip op s t hmore hs ht) h
  · cases h
    exact hs
termination_by inlen - ip

end Decode

/-! ### The bits that are checked -/

section Checked

variable {ip op u : ℕ} {s s' : Decoder} {r : ℕ × ℕ × Decoder}

theorem places_lt (a b c : UInt8) :
    place₀ (sextet₀ a) ||| place₁ (sextet₁ a b) ||| place₂ (sextet₂ b c) ||| place₃ (sextet₃ c) < 2 ^ 24 := by
  have ha := a.toNat_lt
  have hb := b.toNat_lt
  have hc := c.toNat_lt
  rw [sextets_or]
  omega

theorem du32_lt (hip : 4 ∣ ip) (hmore : ip + 4 < (encode b).length) (hu : ctou32 (some ((encode b).map some)) ip = .ok u) :
    du32 u < 2 ^ 24 := by
  obtain ⟨k, rfl⟩ := hip
  have hlen := length_encode b
  have hfull : 3 * k + 3 ≤ b.length := by omega
  have hgroup := getD_encode (show 3 * k ≤ b.length by omega)
  have hgroup₀ := hgroup 0
  rw [Nat.add_zero] at hgroup₀
  rw [ctou32_text (by omega), groupWord, hgroup₀, hgroup, hgroup, hgroup, drop_of_full hfull] at hu
  obtain rfl := Outcome.ok.inj hu
  show du32 (word (char (sextet₀ _)) (char (sextet₁ _ _)) (char (sextet₂ _ _)) (char (sextet₃ _))) < _
  rw [du32_word, (lut_char sextet₀_lt).1, (lut_char sextet₁_lt).2.1, (lut_char sextet₂_lt).2.2.1,
    (lut_char sextet₃_lt).2.2.2]
  exact places_lt _ _ _

/-- At a group, no bit above the bytes is set so far. -/
def Checked (ip : ℕ) (s : Decoder) : Prop := 4 ∣ ip ∧ s.cu < 2 ^ 24

/-- The same, where the next word is read. -/
def CheckedNext (text : List UInt8) (ip : ℕ) (s : Decoder) : Prop :=
  Checked ip s ∧ ctou32 (some (text.map some)) ip = .ok s.ux

theorem decodeUnrolled_checked {out : List Byte}
    (h : decodeUnrolled (some ((encode b).map some)) (encode b).length out = .ok r) : Checked r.1 r.2.2 := by
  obtain ⟨ux, hux, h⟩ := bind_eq_ok.1 h
  obtain ⟨vx, -, h⟩ := bind_eq_ok.1 h
  obtain ⟨⟨ip₁, op₁, s₁⟩, h₁, h⟩ := bind_eq_ok.1 h
  obtain ⟨⟨ip₂, op₂, s₂⟩, h₂, h⟩ := bind_eq_ok.1 h
  have hstart : CheckedNext (encode b) 0 ⟨out, 0, ux, vx⟩ := ⟨⟨Nat.dvd_zero 4, Nat.two_pow_pos 24⟩, hux⟩
  have hnext₁ : CheckedNext (encode b) ip₁ s₁ := by
    refine forLoop_eq_ok (I := CheckedNext (encode b)) (fun ip op s s' hmore hs hbody => ?_) hstart h₁
    obtain ⟨⟨hip, hcu⟩, hux⟩ := hs
    obtain ⟨hcu', hux'⟩ := decode128_eq_ok hbody
    refine ⟨⟨by omega, ?_⟩, hux'⟩
    rw [hcu']
    exact Nat.or_lt_two_pow hcu (du32_lt hip (by omega) hux)
  have hnext₂ : CheckedNext (encode b) ip₂ s₂ := by
    refine forLoop_eq_ok (I := CheckedNext (encode b)) (fun ip op s s' hmore hs hbody => ?_) hnext₁ h₂
    obtain ⟨⟨hip, hcu⟩, -⟩ := hs
    obtain ⟨hcu', hux'⟩ := decode16_eq_ok hbody
    exact ⟨⟨by omega, hcu' ▸ hcu⟩, hux'⟩
  obtain ⟨⟨hip, hcu⟩, -⟩ := hnext₂
  simp only at h
  split at h
  · obtain ⟨t, ht, h⟩ := bind_eq_ok.1 h
    cases h
    exact ⟨by simp only; omega, (di32_eq_ok ht).1 ▸ hcu⟩
  · cases h
    exact ⟨hip, hcu⟩

theorem decode4_checked (hs : Checked ip s)
    (h : forLoop (encode b).length 4 4 (decode4 (some ((encode b).map some))) ip op s = .ok r) : Checked r.1 r.2.2 := by
  refine forLoop_eq_ok (I := Checked) (fun ip op s s' hmore hs hbody => ?_) hs h
  obtain ⟨u, hu, hcu⟩ := decode4_eq_ok hbody
  refine ⟨by have := hs.1; omega, ?_⟩
  rw [hcu]
  exact Nat.or_lt_two_pow hs.2 (du32_lt hs.1 hmore hu)

theorem lastBytes_eq_ok {n u : ℕ} {t : ℕ × Decoder} (hs : s.cu < 2 ^ 24) (hu : u < 2 ^ 24)
    (h : lastBytes n op u s = .ok t) : t.1 = op + n ∧ t.2.cu < 2 ^ 24 := by
  obtain ⟨out, -, h⟩ := bind_eq_ok.1 h
  cases h
  exact ⟨rfl, Nat.or_lt_two_pow hs hu⟩

/-- **The last group** is counted without its padding. -/
theorem decodeLast_checked {k : ℕ} {t : ℕ × Decoder} (hk : 3 * k < b.length) (hk' : b.length ≤ 3 * k + 3)
    (hs : s.cu < 2 ^ 24)
    (h : decodeLast (some ((encode b).map some)) (encode b).length (4 * k) op s = .ok t) :
    t.1 = op + (b.length - 3 * k) ∧ t.2.cu < 2 ^ 24 := by
  have hlen := length_encode b
  have hl : (encode b).length - 4 * k = 4 := by omega
  have hdrop : b.length - 3 * k = (b.drop (3 * k)).length := List.length_drop.symm
  have hbyte {i : ℕ} (hi : i < 4) :
      readByte (some ((encode b).map some)) (4 * k + i) = .ok ((encode (b.drop (3 * k))).getD i 0) := by
    rw [readByte_text (by omega), getD_encode (by omega)]
  have hfirst : readByte (some ((encode b).map some)) (4 * k) = .ok ((encode (b.drop (3 * k))).getD 0 0) :=
    hbyte (i := 0) (by decide)
  have hchar {v : ℕ} (hv : v < 64) : char v ≠ 61 := char_ne_pad hv
  have hbound : 0 < (b.drop (3 * k)).length ∧ (b.drop (3 * k)).length ≤ 3 := by omega
  rw [decodeLast, lastLength, hl, if_pos rfl, ctou32] at h
  simp only [hbyte (show 1 < 4 by decide), hbyte (show 2 < 4 by decide), hbyte (show 3 < 4 by decide), hfirst, ok_bind] at h
  rw [hdrop]
  rcases tail_cases hbound with ⟨x, hl⟩ | ⟨x, y, hl⟩ | ⟨x, y, z, hl⟩ <;> rw [hl] at h ⊢
  · have hd : (encode [x]).getD 3 0 = 61 := rfl
    have hc : (encode [x]).getD 2 0 = 61 := rfl
    have hb : (encode [x]).getD 1 0 = char (sextet₁ x 0) := rfl
    have ha : (encode [x]).getD 0 0 = char (sextet₀ x) := rfl
    have hlt := places_lt x 0 0
    rw [show place₂ (sextet₂ 0 0) = 0 from rfl, show place₃ (sextet₃ 0) = 0 from rfl, Nat.or_zero, Nat.or_zero] at hlt
    rw [hd, hc, hb, ha, if_pos rfl, if_pos rfl, if_neg (hchar sextet₁_lt)] at h
    simp only [ok_bind] at h
    rw [(lut_char sextet₀_lt).1, (lut_char sextet₁_lt).2.1] at h
    exact lastBytes_eq_ok hs hlt h
  · have hd : (encode [x, y]).getD 3 0 = 61 := rfl
    have hc : (encode [x, y]).getD 2 0 = char (sextet₂ y 0) := rfl
    have hb : (encode [x, y]).getD 1 0 = char (sextet₁ x y) := rfl
    have ha : (encode [x, y]).getD 0 0 = char (sextet₀ x) := rfl
    have hlt := places_lt x y 0
    rw [show place₃ (sextet₃ 0) = 0 from rfl, Nat.or_zero] at hlt
    rw [hd, hc, hb, ha, if_pos rfl, if_neg (hchar sextet₂_lt)] at h
    simp only [ok_bind] at h
    rw [(lut_char sextet₀_lt).1, (lut_char sextet₁_lt).2.1, (lut_char sextet₂_lt).2.2.1] at h
    exact lastBytes_eq_ok hs hlt h
  · have hd : (encode [x, y, z]).getD 3 0 = char (sextet₃ z) := rfl
    have hc : (encode [x, y, z]).getD 2 0 = char (sextet₂ y z) := rfl
    have hb : (encode [x, y, z]).getD 1 0 = char (sextet₁ x y) := rfl
    have ha : (encode [x, y, z]).getD 0 0 = char (sextet₀ x) := rfl
    rw [hd, hc, hb, ha, if_neg (hchar sextet₃_lt)] at h
    simp only [ok_bind] at h
    have hu := du32_word (char (sextet₀ x)) (char (sextet₁ x y)) (char (sextet₂ y z)) (char (sextet₃ z))
    rw [(lut_char sextet₀_lt).1, (lut_char sextet₁_lt).2.1, (lut_char sextet₂_lt).2.2.1, (lut_char sextet₃_lt).2.2.2] at hu
    exact lastBytes_eq_ok hs (hu.trans_lt (places_lt x y z)) h

end Checked

/-- **What the decoder returns** for an encoding: the number of the bytes. -/
theorem tb64xdec_eq_ok {dec : List Byte} {r : ℕ × List Byte}
    (h : tb64xdec (some ((encode b).map some)) (encode b).length dec = .ok r) : r.1 = b.length := by
  have hlen := length_encode b
  by_cases hb : b = []
  · subst hb
    cases h
    rfl
  have hpos := List.length_pos_iff.2 hb
  obtain ⟨G, hG⟩ : ∃ G, (b.length + 2) / 3 = G + 1 := ⟨(b.length + 2) / 3 - 1, by omega⟩
  rw [tb64xdec, if_neg (by omega)] at h
  obtain ⟨⟨ip, op, s⟩, hs, h₁⟩ := bind_eq_ok.1 h
  obtain ⟨⟨ip', op', s'⟩, hs', h₂⟩ := bind_eq_ok.1 h₁
  obtain ⟨⟨n, t⟩, ht, h₃⟩ := bind_eq_ok.1 h₂
  have hchecked : Checked ip s := by
    split at hs
    · exact decodeUnrolled_checked hs
    · cases hs
      exact ⟨Nat.dvd_zero 4, Nat.two_pow_pos 24⟩
  have hchecked' : Checked ip' s' := decode4_checked hchecked hs'
  -- the places at the last group
  have hgroups : (encode b).length = 4 * (G + 1) := by omega
  obtain ⟨k, hk, hstart⟩ := decodeUnrolled_orNone dec hgroups
  obtain ⟨-, rfl, rfl, hdecoded⟩ := hstart.of_eq_ok hs
  obtain ⟨-, rfl, rfl, -⟩ := (decode4_loop hgroups hk hdecoded).of_eq_ok hs'
  obtain ⟨hn, hcu⟩ := decodeLast_checked (k := G) (by omega) (by omega) hchecked'.2 ht
  cases h₃
  have hvalid : t.cu ≠ invalidEntry := by
    have : invalidEntry = 2 ^ 32 - 1 := rfl
    simp only at hcu
    omega
  simp only at hn
  show (if t.cu = invalidEntry then 0 else n) = b.length
  rw [if_neg hvalid, hn]
  omega

/-- **What is encoded is decoded**: any bytes, by way of a buffer that has room for `TB64ENCLEN` characters, to one of
`TB64DECLEN` bytes. -/
theorem tb64xdec_tb64xenc (b : List UInt8) (enc dec : List Byte) (henc : (b.length + 2) / 3 * 4 ≤ enc.length)
    (hdec : dec.length = (b.length + 2) / 3 * 4 / 4 * 3) :
    tb64xenc (some (b.map some)) b.length enc =
        .ok ((encode b).length, (encode b).map some ++ enc.drop (encode b).length) ∧
      tb64xdec (some ((encode b).map some)) (encode b).length dec = .ok (b.length, b.map some ++ dec.drop b.length) := by
  have hlen := length_encode b
  refine ⟨tb64xenc_encoded (by omega), ?_⟩
  by_cases hb : b = []
  · subst hb
    rfl
  have hroom : dec.length = (b.length + 2) / 3 * 3 := by omega
  obtain ⟨n, hn⟩ := tb64xdec_encode hb hroom
  have hr := tb64xdec_eq_ok hn
  simp only at hr
  rw [hn, hr]

/-- Two bytes, of which one sextet is padded. -/
theorem tb64xdec_tb64xenc_two :
    tb64xenc (some [some 1, some 2]) 2 (List.replicate 5 none) =
        .ok (4, [some 65, some 81, some 73, some 61, none]) ∧
      tb64xdec (some [some 65, some 81, some 73, some 61]) 4 (List.replicate 3 none) = .ok (2, [some 1, some 2, none]) :=
  tb64xdec_tb64xenc [1, 2] (List.replicate 5 none) (List.replicate 3 none) (by decide) (by decide)

end Encodings

end Nessus.Parser.Base64X
