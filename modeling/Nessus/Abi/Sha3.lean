import Mathlib.Algebra.Group.Nat.Defs
import Mathlib.Data.List.Basic
import Mathlib.Data.UInt
import Mathlib.Tactic.Cases

/-!
# SHA-3

`hash_digest` with the step mappings of its permutation, on words of 64 bits.

* `Sha3Type`, `StateArray`, `HashContext` — the variants, the state array, and the context with the block that is being
  filled;
* `keccakP` — the permutation;
* `padAndAppend01`, `spongeStep6`, `spongeFinalize` — the sponge;
* `HashContext.update` — the streaming interface.
-/

namespace Nessus.Abi.Sha3

/-! ## Words -/

def getNumberBit (number : UInt64) (offset : ℕ) : UInt8 := ((number >>> UInt64.ofNat offset) &&& 1).toUInt8

def setNumberBit (number : UInt64) (offset : ℕ) (bit : UInt8) : UInt64 :=
  (number &&& ~~~(1 <<< UInt64.ofNat offset)) ||| (bit.toUInt64 <<< UInt64.ofNat offset)

def rotl (number : UInt64) (bits : ℕ) : UInt64 :=
  if bits % 64 = 0 then number
  else (number <<< UInt64.ofNat (bits % 64)) ||| (number >>> UInt64.ofNat (64 - bits % 64))

/-- `meta::minus_mod_unsigned` of a `std::size_t`. -/
def minusModUnsigned (minuend subtrahend divisor : ℕ) : ℕ :=
  if subtrahend ≤ minuend then (minuend - subtrahend) % divisor
  else
    let subtraction := 2 ^ 64 + minuend - subtrahend
    let addition := (subtraction / divisor + if subtraction % divisor ≠ 0 then 1 else 0) * divisor % 2 ^ 64
    (subtraction + addition) % 2 ^ 64 % divisor

/-- `meta::make_number` of eight bytes, little-endian. -/
def makeNumber (data : List UInt8) : UInt64 :=
  (data.zipIdx.map fun part => part.1.toUInt64 <<< UInt64.ofNat (8 * part.2)).sum

/-- `meta::split_number`, little-endian, truncated to `size` bytes. -/
def splitNumber (number : UInt64) (size : ℕ) : List UInt8 :=
  (List.range size).map fun i => ((number >>> UInt64.ofNat (8 * i)) &&& 0xFF).toUInt8

/-! ## Variants and contexts -/

inductive Sha3Type where
  | sha3_224
  | sha3_256
  | sha3_384
  | sha3_512
  deriving DecidableEq, Repr

def Sha3Type.blockSize : Sha3Type → ℕ
  | sha3_224 => 144
  | sha3_256 => 136
  | sha3_384 => 104
  | sha3_512 => 72

def Sha3Type.finalHashSize : Sha3Type → ℕ
  | sha3_224 => 224 / 8
  | sha3_256 => 256 / 8
  | sha3_384 => 384 / 8
  | sha3_512 => 512 / 8

abbrev StateArray := Vector UInt64 25

def calculateIndex (x y : ℕ) : ℕ := 5 * (y % 5) + x % 5

theorem calculateIndex_lt (x y : ℕ) : calculateIndex x y < 25 := by
  rw [calculateIndex]
  omega

/-- `operator()(x, y)`. -/
def StateArray.lane (a : StateArray) (x y : ℕ) : UInt64 := a.get ⟨calculateIndex x y, calculateIndex_lt x y⟩

/-- The state array whose word at (x, y) is `f x y`: an assignment to all words in a loop over x and y. -/
def StateArray.ofLanes (f : ℕ → ℕ → UInt64) : StateArray := Vector.ofFn fun i : Fin 25 => f (i.val % 5) (i.val / 5)

def StateArray.zero : StateArray := Vector.replicate 25 0

def StateArray.truncateAsBytes (a : StateArray) (size : ℕ) : List UInt8 :=
  let bufferWords := size / 8
  let remainingBytes := size % 8
  (a.toList.take bufferWords).flatMap (splitNumber · 8) ++
    if remainingBytes ≠ 0 then splitNumber (a.toList.getD bufferWords 0) remainingBytes else []

structure HashContext (type : Sha3Type) where
  state : StateArray
  intermediate : StateArray
  blockIndex : ℕ
  tmp : Vector UInt64 5
  block : List UInt8
  block_length : block.length = type.blockSize
  blockIndex_lt : blockIndex < type.blockSize
  deriving DecidableEq, Repr

theorem Sha3Type.blockSize_pos (type : Sha3Type) : 0 < type.blockSize := by
  cases type <;> decide

variable {type : Sha3Type}

def HashContext.new (type : Sha3Type) : HashContext type where
  state := .zero
  intermediate := .zero
  blockIndex := 0
  tmp := Vector.replicate 5 0
  block := List.replicate type.blockSize 0
  block_length := List.length_replicate
  blockIndex_lt := type.blockSize_pos

def HashContext.reset (_ : HashContext type) : HashContext type where
  tmp := Vector.replicate 5 0
  block := List.replicate type.blockSize 0
  state := .zero
  intermediate := .zero
  blockIndex := 0
  block_length := List.length_replicate
  blockIndex_lt := type.blockSize_pos

def HashContext.blockRemainingSize (c : HashContext type) : ℕ := type.blockSize - c.blockIndex

/-! ## The permutation -/

def stepMappingHelperRc (number : ℕ) : UInt8 :=
  if number % 0xFF = 0 then 1
  else
    let round (result : UInt64) : UInt64 :=
      let result := result <<< 1
      let bit := getNumberBit result 8
      let result := setNumberBit result 0 (getNumberBit result 0 ^^^ bit)
      let result := setNumberBit result 4 (getNumberBit result 4 ^^^ bit)
      let result := setNumberBit result 5 (getNumberBit result 5 ^^^ bit)
      let result := setNumberBit result 6 (getNumberBit result 6 ^^^ bit)
      result &&& 0xFF
    let result := (List.range (number % 0xFF)).foldl (fun result _ => round result) 0b00000001
    (result &&& 0x01).toUInt8

def stepMappingRhoRotationBits : Vector ℕ 25 :=
  ((List.range 24).foldl
    (fun (s : ℕ × ℕ × Vector ℕ 25) t =>
      let (x, y, result) := s
      let result := result.set (calculateIndex x y) (((t + 1) * (t + 2)) / 2 % 64) (calculateIndex_lt x y)
      (y, (2 * x + 3 * y) % 5, result))
    (1, 0, Vector.replicate 25 0)).2.2

def stepMappingTauRcTable (round : ℕ) : UInt64 :=
  (List.range (6 + 1)).foldl
    (fun result i => setNumberBit result (2 ^ i - 1) (stepMappingHelperRc (i + 7 * round))) 0

def stepMappingTheta (c : HashContext type) : HashContext type :=
  let tmp : Vector UInt64 5 := Vector.ofFn fun x : Fin 5 =>
    c.state.lane x 0 ^^^ (c.state.lane x 1 ^^^ (c.state.lane x 2 ^^^ (c.state.lane x 3 ^^^ c.state.lane x 4)))
  let column (x : ℕ) : UInt64 := tmp.toList.getD x 0
  { c with
    tmp
    state := .ofLanes fun x y =>
      c.state.lane x y ^^^ (column (minusModUnsigned x 1 5) ^^^ rotl (column ((x + 1) % 5)) 1) }

/-- `step_mapping_rho`; the word at (0, 0) is assigned twice. -/
def stepMappingRho (c : HashContext type) : HashContext type :=
  { c with intermediate := Vector.zipWith rotl c.state stepMappingRhoRotationBits }

def stepMappingPi (c : HashContext type) : HashContext type :=
  { c with state := .ofLanes fun x y => c.intermediate.lane (x + 3 * y) x }

def stepMappingChi (c : HashContext type) : HashContext type :=
  { c with
    intermediate := .ofLanes fun x y =>
      c.state.lane x y ^^^ (~~~c.state.lane (x + 1) y &&& c.state.lane (x + 2) y) }

def stepMappingTau (c : HashContext type) (round : ℕ) : HashContext type :=
  { c with state := c.intermediate.set 0 (c.intermediate.lane 0 0 ^^^ stepMappingTauRcTable round) }

/-- One round of `keccak_p`. -/
def keccakRound (c : HashContext type) (round : ℕ) : HashContext type :=
  stepMappingTau (stepMappingChi (stepMappingPi (stepMappingRho (stepMappingTheta c)))) round

def keccakP (c : HashContext type) : HashContext type := (List.range 24).foldl keccakRound c

/-! ## The sponge -/

/-- The bytes of an array from a place on are assigned: `meta::copy_bytes`, and the loops of assignments. -/
def copyBytes (destination : List UInt8) (offset : ℕ) (source : List UInt8) : List UInt8 :=
  destination.take offset ++ source ++ destination.drop (offset + source.length)

theorem length_copyBytes {destination source : List UInt8} {offset : ℕ}
    (h : offset + source.length ≤ destination.length) :
    (copyBytes destination offset source).length = destination.length := by
  rw [copyBytes, List.length_append, List.length_append, List.length_take, List.length_drop]
  omega

/-- The block after `pad10_1_and_append_01`. -/
def padBlock (blockSize blockIndex : ℕ) (block : List UInt8) : List UInt8 :=
  if blockIndex + 1 = blockSize then copyBytes block blockIndex [0x86]
  else
    let block := copyBytes block blockIndex [0x06]
    let block := copyBytes block (blockIndex + 1) (List.replicate (blockSize - 1 - (blockIndex + 1)) 0)
    copyBytes block (blockSize - 1) [0x80]

theorem length_padBlock {blockSize blockIndex : ℕ} {block : List UInt8} (hlength : block.length = blockSize)
    (hlt : blockIndex < blockSize) : (padBlock blockSize blockIndex block).length = blockSize := by
  unfold padBlock
  split
  · rw [length_copyBytes (by simp; omega), hlength]
  · have h₁ : (copyBytes block blockIndex [0x06]).length = blockSize := by
      rw [length_copyBytes (by simp; omega), hlength]
    have h₂ : (copyBytes (copyBytes block blockIndex [0x06]) (blockIndex + 1)
        (List.replicate (blockSize - 1 - (blockIndex + 1)) 0)).length = blockSize := by
      rw [length_copyBytes (by rw [List.length_replicate]; omega), h₁]
    rw [length_copyBytes (by simp; omega), h₂]

/-- `pad10_1_and_append_01`. -/
def padAndAppend01 (c : HashContext type) : HashContext type :=
  { c with
    block := padBlock type.blockSize c.blockIndex c.block
    block_length := length_padBlock c.block_length c.blockIndex_lt }

/-- The words of the state with the words of a block added. -/
def xorBlock (type : Sha3Type) (state : StateArray) (block : List UInt8) : StateArray :=
  Vector.ofFn fun i : Fin 25 =>
    if i.val < type.blockSize / 8 then state.get i ^^^ makeNumber ((block.drop (8 * i.val)).take 8) else state.get i

def spongeStep6 (c : HashContext type) : HashContext type :=
  { keccakP { c with state := xorBlock type c.state c.block } with blockIndex := 0, blockIndex_lt := type.blockSize_pos }

def spongeFinalize (c : HashContext type) : List UInt8 × HashContext type :=
  let c := spongeStep6 (padAndAppend01 c)
  (c.state.truncateAsBytes type.finalHashSize, c.reset)

/-! ## The streaming interface -/

namespace HashContext

/-- One turn of the loop of `update`, and the data that it leaves: where the block is full, it is absorbed. -/
def fill (c : HashContext type) (data : List UInt8) : HashContext type × List UInt8 :=
  let realSize := min data.length c.blockRemainingSize
  let block := copyBytes c.block c.blockIndex (data.take realSize)
  have hsize : c.blockIndex + (data.take realSize).length ≤ c.block.length := by
    have := c.blockIndex_lt
    simp only [realSize, c.block_length, List.length_take, blockRemainingSize]
    omega
  let filled : HashContext type := { c with block, block_length := (length_copyBytes hsize).trans c.block_length }
  let c := if h : type.blockSize ≤ c.blockIndex + realSize then spongeStep6 filled
    else { filled with blockIndex := c.blockIndex + realSize, blockIndex_lt := Nat.lt_of_not_le h }
  (c, data.drop realSize)

theorem length_fill_lt (c : HashContext type) {data : List UInt8} (h : data ≠ []) :
    (c.fill data).2.length < data.length := by
  have := c.blockIndex_lt
  have := List.length_pos_iff.2 h
  rw [fill, List.length_drop, blockRemainingSize]
  omega

def update (c : HashContext type) (data : List UInt8) : HashContext type :=
  if _h : data = [] then c
  else update (c.fill data).1 (c.fill data).2
termination_by data.length
decreasing_by exact length_fill_lt c _h

def finalize (c : HashContext type) : List UInt8 × HashContext type := spongeFinalize c

end HashContext

/-- `hash_sha3_impl`. -/
def hashSha3 (type : Sha3Type) (data : List UInt8) : List UInt8 := ((HashContext.new type).update data).finalize.1

end Nessus.Abi.Sha3
