import Mathlib.Data.Nat.Bitwise
import Mathlib.Tactic.LinearCombination
import Nessus.Lib.BitString
import Nessus.Lib.ByteOrder
import Nessus.Lib.Sponge
import Nessus.Lib.Words
import Nessus.Abi.Sha3

/-!
# SHA-3 is the sponge of its permutation

* `keccakF` — the permutation as a function of the state array; the other arrays of the context are scratch space
  (`keccakP_state`);
* `HashContext.Absorbed` — where a context stands to the bytes that it has been updated with; `update` keeps it,
  however the bytes are cut (`Absorbed.update`);
* `bitString`, `stateBits` — bytes and state arrays as strings of bits: a block is added to the state bit by bit
  (`stateBits_xorBlock`), and the padded bytes are the padded bits (`bitString_padBytes`);
* `finalize_sponge` — the digest is the sponge of the bits of all bytes.
-/

namespace Nessus.Abi.Sha3

open Nessus.Lib

variable {type : Sha3Type}

/-! ## The permutation -/

/-- What `keccak_p` makes of a state array. -/
def keccakF (type : Sha3Type) (state : StateArray) : StateArray :=
  (keccakP { HashContext.new type with state }).state

section Round

variable {c c' : HashContext type}

theorem stepMappingTheta_state (h : c.state = c'.state) : (stepMappingTheta c).state = (stepMappingTheta c').state := by
  rw [stepMappingTheta, stepMappingTheta, h]

theorem stepMappingRho_intermediate (h : c.state = c'.state) :
    (stepMappingRho c).intermediate = (stepMappingRho c').intermediate := by
  rw [stepMappingRho, stepMappingRho, h]

theorem stepMappingPi_state (h : c.intermediate = c'.intermediate) :
    (stepMappingPi c).state = (stepMappingPi c').state := by
  rw [stepMappingPi, stepMappingPi, h]

theorem stepMappingChi_intermediate (h : c.state = c'.state) :
    (stepMappingChi c).intermediate = (stepMappingChi c').intermediate := by
  rw [stepMappingChi, stepMappingChi, h]

theorem stepMappingTau_state (h : c.intermediate = c'.intermediate) (round : ℕ) :
    (stepMappingTau c round).state = (stepMappingTau c' round).state := by
  rw [stepMappingTau, stepMappingTau, h]

/-- A round reads nothing of the context but the state array: it writes the other arrays before it reads them. -/
theorem keccakRound_state (h : c.state = c'.state) (round : ℕ) :
    (keccakRound c round).state = (keccakRound c' round).state := by
  apply stepMappingTau_state
  apply stepMappingChi_intermediate
  apply stepMappingPi_state
  apply stepMappingRho_intermediate
  apply stepMappingTheta_state
  exact h

theorem rounds_state (l : List ℕ) (h : c.state = c'.state) :
    (l.foldl keccakRound c).state = (l.foldl keccakRound c').state := by
  induction l generalizing c c' with
  | nil => exact h
  | cons round l ih =>
    rw [List.foldl_cons, List.foldl_cons]
    apply ih
    exact keccakRound_state h round

end Round

theorem keccakP_state (c : HashContext type) : (keccakP c).state = keccakF type c.state := by
  rw [keccakF, keccakP, keccakP]
  apply rounds_state
  rfl

/-! ## Bytes that have been absorbed -/

/-- A block is added to the state, and the state is permuted. -/
def absorbBlock (type : Sha3Type) (state : StateArray) (block : List UInt8) : StateArray :=
  keccakF type (xorBlock type state block)

/-- The context has been updated with the bytes `M`: the full blocks are in the state, and what is left over is in the
block before the index. -/
def HashContext.Absorbed (c : HashContext type) (M : List UInt8) : Prop :=
  absorb type.blockSize (absorbBlock type) .zero M = (c.state, c.block.take c.blockIndex)

theorem spongeStep6_state (c : HashContext type) : (spongeStep6 c).state = absorbBlock type c.state c.block :=
  keccakP_state _

section Absorbed

variable {c : HashContext type} {M : List UInt8}

theorem new_absorbed (type : Sha3Type) : (HashContext.new type).Absorbed [] :=
  absorb_short _ type.blockSize_pos

theorem length_take_blockIndex (c : HashContext type) : (c.block.take c.blockIndex).length = c.blockIndex := by
  have := c.blockIndex_lt
  rw [List.length_take, c.block_length]
  omega

theorem HashContext.Absorbed.blockIndex (h : c.Absorbed M) : c.blockIndex = M.length % type.blockSize := by
  have hleft : (absorb type.blockSize (absorbBlock type) .zero M).2.length = M.length % type.blockSize :=
    absorb_left_length type.blockSize_pos StateArray.zero M
  rw [h, length_take_blockIndex] at hleft
  exact hleft

/-- What comes next goes behind what is in the block. -/
theorem HashContext.Absorbed.append (h : c.Absorbed M) (piece : List UInt8) :
    absorb type.blockSize (absorbBlock type) .zero (M ++ piece) =
      absorb type.blockSize (absorbBlock type) c.state (c.block.take c.blockIndex ++ piece) := by
  rw [absorb_append type.blockSize_pos, h]

/-- One turn of the loop absorbs the bytes that it takes. -/
theorem HashContext.Absorbed.fill (h : c.Absorbed M) (data : List UInt8) :
    (c.fill data).1.Absorbed (M ++ data.take (min data.length c.blockRemainingSize)) ∧
      (c.fill data).2 = data.drop (min data.length c.blockRemainingSize) := by
  refine ⟨?_, rfl⟩
  have hlt := c.blockIndex_lt
  have hidx := length_take_blockIndex c
  generalize hk : min data.length c.blockRemainingSize = k
  have hpiece : (data.take k).length = k := by
    rw [List.length_take]
    omega
  have hroom : c.blockIndex + k ≤ type.blockSize := by
    rw [HashContext.blockRemainingSize] at hk
    omega
  rw [HashContext.Absorbed, h.append, HashContext.fill]
  simp only [hk]
  have hlength : (c.block.take c.blockIndex ++ data.take k).length = c.blockIndex + k := by
    rw [List.length_append, hidx, hpiece]
  by_cases hfull : type.blockSize ≤ c.blockIndex + k
  · rw [dif_pos hfull, absorb_block type.blockSize_pos _ (by omega), spongeStep6_state]
    have hrest : c.block.drop (c.blockIndex + (data.take k).length) = [] := by
      apply List.drop_eq_nil_of_le
      rw [c.block_length, hpiece]
      exact hfull
    simp only [copyBytes, hrest, List.append_nil]
    rfl
  · rw [dif_neg hfull, absorb_short _ (by omega)]
    simp only [copyBytes]
    rw [List.take_append_of_le_length (Nat.le_of_eq hlength.symm), List.take_of_length_le (Nat.le_of_eq hlength)]

/-- **Updating**: the bytes that are absorbed are those of all updates, one behind the other. -/
theorem HashContext.Absorbed.update {c : HashContext type} {M : List UInt8} (h : c.Absorbed M) (data : List UInt8) :
    (c.update data).Absorbed (M ++ data) := by
  rw [HashContext.update]
  split
  · next hnil =>
    rw [hnil, List.append_nil]
    exact h
  · next hne =>
    have hlt := HashContext.length_fill_lt c hne
    obtain ⟨hfill, hrest⟩ := h.fill data
    have hnext := hfill.update (c.fill data).2
    rwa [List.append_assoc, hrest, List.take_append_drop, ← hrest] at hnext
termination_by data.length

theorem foldl_update_absorbed (h : c.Absorbed M) (chunks : List (List UInt8)) :
    (chunks.foldl HashContext.update c).Absorbed (M ++ chunks.flatten) := by
  induction chunks generalizing c M with
  | nil =>
    rw [List.flatten_nil, List.append_nil]
    exact h
  | cons chunk chunks ih =>
    rw [List.foldl_cons, List.flatten_cons, ← List.append_assoc]
    exact ih (h.update chunk)

end Absorbed

/-! ## The padded bytes -/

/-- The bytes that are put behind a message whose last block has `n` bytes. -/
def padBytes (blockSize n : ℕ) : List UInt8 :=
  if n + 1 = blockSize then [0x86] else 0x06 :: (List.replicate (blockSize - 2 - n) 0 ++ [0x80])

theorem length_padBytes {blockSize n : ℕ} (h : n < blockSize) : (padBytes blockSize n).length = blockSize - n := by
  unfold padBytes
  split
  · rw [List.length_singleton]
    omega
  · rw [List.length_cons, List.length_append, List.length_replicate, List.length_singleton]
    omega

theorem copyBytes_append {before after source : List UInt8} {n : ℕ} (h : before.length = n) :
    copyBytes (before ++ after) n source = before ++ source ++ after.drop source.length := by
  rw [copyBytes, ← h, List.take_left, ← List.drop_drop, List.drop_left]

/-- What is in the block behind the index does not matter. -/
theorem padBlock_eq {blockSize n : ℕ} {block : List UInt8} (hlength : block.length = blockSize) (hlt : n < blockSize) :
    padBlock blockSize n block = block.take n ++ padBytes blockSize n := by
  have htake : (block.take n).length = n := by
    rw [List.length_take]
    omega
  have hafter : (block.drop n).length = blockSize - n := by rw [List.length_drop, hlength]
  have hfirst (byte : UInt8) : copyBytes block n [byte] = block.take n ++ [byte] ++ (block.drop n).drop 1 := by
    have happend : copyBytes (block.take n ++ block.drop n) n [byte] = _ := copyBytes_append htake
    rwa [List.take_append_drop] at happend
  unfold padBlock padBytes
  split
  · have hnil : (block.drop n).drop 1 = [] := by
      apply List.drop_eq_nil_of_le
      omega
    rw [hfirst, hnil, List.append_nil]
  · have h₁ : (block.take n ++ [0x06]).length = n + 1 := by
      rw [List.length_append, htake, List.length_singleton]
    have hcount : blockSize - 1 - (n + 1) = blockSize - 2 - n := by omega
    have h₂ : (block.take n ++ [0x06] ++ List.replicate (blockSize - 2 - n) (0 : UInt8)).length = blockSize - 1 := by
      rw [List.length_append, h₁, List.length_replicate]
      omega
    have hnil : (((block.drop n).drop 1).drop (blockSize - 2 - n)).drop 1 = [] := by
      apply List.drop_eq_nil_of_le
      rw [List.length_drop, List.length_drop, hafter]
      omega
    simp only [hfirst, hcount]
    rw [copyBytes_append h₁, List.length_replicate, copyBytes_append h₂, List.length_singleton, hnil]
    simp only [List.append_nil, List.append_assoc, List.cons_append, List.nil_append]

theorem finalize_absorb {c : HashContext type} {M : List UInt8} (h : c.Absorbed M) :
    c.finalize.1 = (absorb type.blockSize (absorbBlock type) .zero
      (M ++ padBytes type.blockSize (M.length % type.blockSize))).1.truncateAsBytes type.finalHashSize := by
  have hlt := c.blockIndex_lt
  have hblock : (c.block.take c.blockIndex ++ padBytes type.blockSize c.blockIndex).length = type.blockSize := by
    rw [List.length_append, length_take_blockIndex, length_padBytes hlt]
    omega
  rw [← h.blockIndex, h.append, absorb_block type.blockSize_pos _ hblock, HashContext.finalize, spongeFinalize]
  simp only [spongeStep6_state, padAndAppend01, padBlock_eq c.block_length hlt]

/-! ## Strings of bits -/

/-- The bits of bytes, the least significant bit of each first. -/
def bitString (l : List UInt8) : List Bool := bits 8 (l.map UInt8.toNat)

/-- The string of a state array: the bits of the words, the least significant bit of each first. -/
def stateBits (state : StateArray) : List Bool := bits 64 (state.toList.map UInt64.toNat)

/-- The state array of a string: the bit z of the word `i` is the bit 64 i + z of the string. -/
def ofStateBits (S : List Bool) : StateArray :=
  Vector.ofFn fun i : Fin 25 => UInt64.ofNat (Nat.ofBits fun z : Fin 64 => S.getD (64 * i.val + z.val) false)

/-- `keccak_p` on strings of 1600 bits. -/
def keccakBits (type : Sha3Type) (S : List Bool) : List Bool := stateBits (keccakF type (ofStateBits S))

theorem bitString_append (l m : List UInt8) : bitString (l ++ m) = bitString l ++ bitString m := by
  rw [bitString, List.map_append, bits_append]
  rfl

theorem length_bitString (l : List UInt8) : (bitString l).length = 8 * l.length := by
  rw [bitString, length_bits, List.length_map]

theorem bitString_take (l : List UInt8) (n : ℕ) : bitString (l.take n) = (bitString l).take (8 * n) := by
  rw [bitString, List.map_take, bits_take (by omega)]
  rfl

theorem bitString_drop (l : List UInt8) (n : ℕ) : bitString (l.drop n) = (bitString l).drop (8 * n) := by
  rw [bitString, List.map_drop, bits_drop]
  rfl

theorem bitString_zeros (n : ℕ) : bitString (List.replicate n 0) = List.replicate (8 * n) false := by
  rw [bitString, List.map_replicate]
  exact bits_zeros n

theorem stateBits_zero : stateBits .zero = List.replicate 1600 false := by
  rw [stateBits, StateArray.zero, Vector.toList_replicate, List.map_replicate]
  exact bits_zeros 25

theorem length_stateBits (state : StateArray) : (stateBits state).length = 1600 := by
  rw [stateBits, length_bits, List.length_map, Vector.length_toList]

/-- **The padded bytes are the padded bits**, with the suffix 01 before the padding. -/
theorem bitString_padBytes {blockSize m : ℕ} (hpos : 0 < blockSize) :
    bitString (padBytes blockSize (m % blockSize)) = [false, true] ++ pad10Star1 (8 * blockSize) (8 * m + 2) := by
  have hlt := Nat.mod_lt m hpos
  have hj : ((-((8 * m + 2 : ℕ) : ℤ) - 2) % ((8 * blockSize : ℕ) : ℤ)).toNat = 8 * (blockSize - m % blockSize) - 4 := by
    -- m is a multiple of the block size and the rest, and the multiple drops out
    have hm : (m : ℤ) = blockSize * (m / blockSize : ℕ) + (m % blockSize : ℕ) := by
      exact_mod_cast (Nat.div_add_mod m blockSize).symm
    have hshift : -((8 * m + 2 : ℕ) : ℤ) - 2 = (8 * blockSize - 8 * (m % blockSize : ℕ) - 4) +
        ((8 * blockSize : ℕ) : ℤ) * (-((m / blockSize : ℕ) + 1)) := by
      push_cast
      push_cast at hm
      linear_combination -8 * hm
    rw [hshift, Int.add_mul_emod_self_left, Int.emod_eq_of_lt (by omega) (by omega)]
    omega
  rw [pad10Star1, hj]
  generalize m % blockSize = n at hlt
  unfold padBytes
  split
  · next hlast =>
    have hone : blockSize - n = 1 := by omega
    rw [hone]
    decide
  · next hmore =>
    have h6 : bitString [0x06] = [false, true, true] ++ List.replicate 5 false := by decide
    have h80 : bitString [0x80] = List.replicate 7 false ++ [true] := by decide
    have hcount : 5 + 8 * (blockSize - 2 - n) + 7 = 8 * (blockSize - n) - 4 := by omega
    rw [← List.singleton_append, bitString_append, bitString_append, bitString_zeros, h6, h80, ← hcount]
    simp only [← List.replicate_append_replicate, List.append_assoc, List.cons_append, List.nil_append]

/-! ## Words -/

/-- The number that bytes write, the least significant byte first. -/
def valueOf : List UInt8 → ℕ
  | [] => 0
  | byte :: l => 2 ^ 8 * valueOf l + byte.toNat

theorem valueOf_eq (l : List UInt8) : valueOf l = Lib.ofLittleEndian l := by
  induction l with
  | nil => rfl
  | cons byte l ih =>
    rw [valueOf, ih, Lib.ofLittleEndian_cons, Nat.add_comm]
    rfl

theorem valueOf_lt (l : List UInt8) : valueOf l < 2 ^ (8 * l.length) := by
  rw [valueOf_eq, Nat.pow_mul]
  exact Lib.ofLittleEndian_lt l

theorem testBit_valueOf (l : List UInt8) (z : ℕ) :
    (valueOf l).testBit z = ((bitString l)[z]?).getD false := by
  induction l generalizing z with
  | nil => exact Nat.zero_testBit z
  | cons byte l ih =>
    have hcons : bitString (byte :: l) = (List.range 8).map byte.toNat.testBit ++ bitString l := rfl
    rw [valueOf, Nat.testBit_two_pow_mul_add _ byte.toNat_lt, hcons, List.getElem?_append, List.length_map,
      List.length_range]
    split
    · next hz =>
      rw [List.getElem?_map, List.getElem?_range hz]
      rfl
    · exact ih _

theorem mul_valueOf_lt {l : List UInt8} {n : ℕ} (h : n + l.length ≤ 8) : 2 ^ (8 * n) * valueOf l < 2 ^ 64 :=
  calc 2 ^ (8 * n) * valueOf l < 2 ^ (8 * n) * 2 ^ (8 * l.length) :=
        Nat.mul_lt_mul_of_pos_left (valueOf_lt l) (Nat.two_pow_pos _)
    _ = 2 ^ (8 * (n + l.length)) := by rw [← Nat.pow_add, Nat.mul_add]
    _ ≤ 2 ^ 64 := Nat.pow_le_pow_right (by omega) (by omega)

theorem toNat_shifted {byte : UInt8} {n : ℕ} (h : n < 8) :
    (byte.toUInt64 <<< UInt64.ofNat (8 * n)).toNat = 2 ^ (8 * n) * byte.toNat := by
  have hlt := mul_valueOf_lt (l := [byte]) (n := n) h
  rw [valueOf, valueOf, Nat.mul_zero, Nat.zero_add] at hlt
  rw [UInt64.toNat_shiftLeft, Lib.toNat_ofNat_mod (by omega), UInt8.toNat_toUInt64, Nat.shiftLeft_eq, Nat.mul_comm, Nat.mod_eq_of_lt hlt]

/-- The sum of the shifted bytes, from the place `n` on. -/
theorem toNat_sum_shifted (l : List UInt8) (n : ℕ) (h : n + l.length ≤ 8) :
    ((l.zipIdx n).map fun part => part.1.toUInt64 <<< UInt64.ofNat (8 * part.2)).sum.toNat =
      2 ^ (8 * n) * valueOf l := by
  induction l generalizing n with
  | nil => rfl
  | cons byte l ih =>
    have hsum : 2 ^ (8 * n) * byte.toNat + 2 ^ (8 * (n + 1)) * valueOf l = 2 ^ (8 * n) * valueOf (byte :: l) := by
      rw [valueOf, Nat.mul_succ, Nat.pow_add, Nat.mul_add, Nat.mul_assoc, Nat.add_comm]
    have hlt := mul_valueOf_lt h
    rw [List.length_cons] at h
    rw [List.zipIdx_cons, List.map_cons, List.sum_cons, UInt64.toNat_add, ih (n + 1) (by omega),
      toNat_shifted (by omega), hsum, Nat.mod_eq_of_lt hlt]

theorem toNat_makeNumber {l : List UInt8} (h : l.length ≤ 8) : (makeNumber l).toNat = valueOf l := by
  have := toNat_sum_shifted l 0 (by omega)
  rwa [Nat.mul_zero, Nat.pow_zero, Nat.one_mul] at this

theorem testBit_toNat_of_le {w : UInt64} {z : ℕ} (hz : 64 ≤ z) : w.toNat.testBit z = false :=
  Nat.testBit_lt_two_pow (Nat.lt_of_lt_of_le w.toNat_lt (Nat.pow_le_pow_right (by omega) hz))

/-- The bits of the first bytes of a word are its first bits. -/
theorem bitString_splitNumber (w : UInt64) {size : ℕ} (h : size ≤ 8) :
    bitString (splitNumber w size) = (List.range (8 * size)).map w.toNat.testBit := by
  apply List.ext_getElem?
  intro k
  rw [bitString, getElem?_bits (by omega), splitNumber, List.getElem?_map, List.getElem?_map, List.getElem?_map]
  by_cases hk : k < 8 * size
  · have hmask : (0xFF : UInt64).toNat.testBit (k % 8) = true := by
      have := Nat.testBit_two_pow_sub_one 8 (k % 8)
      rw [decide_eq_true (Nat.mod_lt k (by omega))] at this
      exact this
    have hbyte : ((w >>> UInt64.ofNat (8 * (k / 8))) &&& 0xFF).toUInt8.toNat.testBit (k % 8) = w.toNat.testBit k := by
      rw [UInt64.toNat_toUInt8, UInt64.toNat_and, UInt64.toNat_shiftRight, Lib.toNat_ofNat_mod (by omega), Nat.testBit_mod_two_pow,
        Nat.testBit_and, Nat.testBit_shiftRight, Nat.div_add_mod, hmask, Bool.and_true,
        decide_eq_true (Nat.mod_lt k (by omega)), Bool.true_and]
    rw [List.getElem?_range (by omega), List.getElem?_range hk]
    exact congrArg some hbyte
  · have hnone (n : ℕ) (hn : n ≤ k) : (List.range n)[k]? = none := List.getElem?_eq_none (by rwa [List.length_range])
    have hnone' : (List.range size)[k / 8]? = none := List.getElem?_eq_none (by rw [List.length_range]; omega)
    rw [hnone _ (by omega), hnone']
    rfl

theorem bitString_splitNumbers (l : List UInt64) :
    bitString (l.flatMap (splitNumber · 8)) = bits 64 (l.map UInt64.toNat) := by
  induction l with
  | nil => rfl
  | cons w l ih => rw [List.flatMap_cons, bitString_append, bitString_splitNumber w (by omega), ih, List.map_cons, bits_cons]

/-- **The bytes of the digest are the first bits of the state.** -/
theorem bitString_truncateAsBytes (state : StateArray) {size : ℕ} (h : size < 200) :
    bitString (state.truncateAsBytes size) = (stateBits state).take (8 * size) := by
  have hlength : state.toList.length = 25 := Vector.length_toList
  have hsplit : 8 * size = 64 * (size / 8) + 8 * (size % 8) := by omega
  have hfull : bits 64 ((state.toList.take (size / 8)).map UInt64.toNat) = (stateBits state).take (64 * (size / 8)) := by
    rw [List.map_take, bits_take (by omega)]
    rfl
  have hrest : (stateBits state).drop (64 * (size / 8)) =
      (List.range 64).map (state.toList.getD (size / 8) 0).toNat.testBit ++
        bits 64 ((state.toList.drop (size / 8 + 1)).map UInt64.toNat) := by
    rw [stateBits, ← bits_drop, ← List.map_drop, List.drop_eq_getElem_cons (by omega), List.map_cons, bits_cons,
      List.getD_eq_getElem _ _ (by omega)]
  rw [StateArray.truncateAsBytes, bitString_append, bitString_splitNumbers, hfull, hsplit, List.take_add, hrest]
  congr 1
  rw [List.take_append_of_le_length (by rw [List.length_map, List.length_range]; omega), ← List.map_take, List.take_range,
    Nat.min_eq_left (by omega)]
  split
  · exact bitString_splitNumber _ (by omega)
  · next hzero =>
    rw [Decidable.not_not.1 hzero]
    rfl

theorem getElem?_stateBits (state : StateArray) (k : ℕ) :
    (stateBits state)[k]? = state.toList[k / 64]?.map fun w => w.toNat.testBit (k % 64) := by
  rw [stateBits, getElem?_bits (by omega), List.getElem?_map, Option.map_map]
  rfl

theorem ofStateBits_stateBits (state : StateArray) : ofStateBits (stateBits state) = state := by
  apply Vector.ext
  intro i hi
  rw [ofStateBits, Vector.getElem_ofFn, ← UInt64.toNat_inj, UInt64.toNat_ofNat_of_lt' (Nat.ofBits_lt_two_pow _)]
  apply Nat.eq_of_testBit_eq
  intro z
  by_cases hz : z < 64
  · have hdiv : (64 * i + z) / 64 = i := by omega
    have hmod : (64 * i + z) % 64 = z := by omega
    rw [Nat.testBit_ofBits_lt _ _ hz, List.getD_eq_getElem?_getD, getElem?_stateBits, hdiv, hmod,
      Vector.getElem?_toList, Vector.getElem?_eq_getElem hi]
    rfl
  · have hge : 64 ≤ z := Nat.le_of_not_lt hz
    rw [Nat.testBit_ofBits_ge _ _ hge, testBit_toNat_of_le hge]

theorem Sha3Type.blockSize_words (type : Sha3Type) : 8 * (type.blockSize / 8) = type.blockSize := by
  cases type <;> decide

theorem Sha3Type.blockSize_le (type : Sha3Type) : type.blockSize ≤ 200 := by
  cases type <;> decide

/-- The word that is added to the word `i` of the state, bit by bit. -/
theorem testBit_makeNumber_block (block : List UInt8) (i z : ℕ) (hz : z < 64) :
    (makeNumber ((block.drop (8 * i)).take 8)).toNat.testBit z = ((bitString block)[64 * i + z]?).getD false := by
  have hlength : ((block.drop (8 * i)).take 8).length ≤ 8 := by
    rw [List.length_take]
    omega
  rw [toNat_makeNumber hlength, testBit_valueOf, bitString_take, bitString_drop, List.getElem?_take, if_pos hz,
    List.getElem?_drop, ← Nat.mul_assoc]

theorem testBit_xorBlock (state : StateArray) (block : List UInt8) {i z : ℕ} (hi : i < 25) (hz : z < 64) :
    ((xorBlock type state block)[i]).toNat.testBit z =
      xor (state[i].toNat.testBit z) (decide (i < type.blockSize / 8) && ((bitString block)[64 * i + z]?).getD false) := by
  rw [xorBlock, Vector.getElem_ofFn]
  split
  · next hword =>
    rw [UInt64.toNat_xor, Nat.testBit_xor, testBit_makeNumber_block _ _ _ hz, decide_eq_true hword, Bool.true_and]
    rfl
  · next hword =>
    rw [decide_eq_false hword, Bool.false_and, Bool.xor_false]
    rfl

/-- **A block is added to the state bit by bit.** -/
theorem stateBits_xorBlock (state : StateArray) {block : List UInt8} (h : block.length = type.blockSize) :
    stateBits (xorBlock type state block) =
      List.zipWith xor (stateBits state) (bitString block ++ List.replicate (1600 - 8 * type.blockSize) false) := by
  have hwords := type.blockSize_words
  have hle := type.blockSize_le
  have hlength : (bitString block).length = 8 * type.blockSize := by rw [length_bitString, h]
  have hpadded : (bitString block ++ List.replicate (1600 - 8 * type.blockSize) false).length = 1600 := by
    rw [List.length_append, List.length_replicate, hlength]
    omega
  apply List.ext_getElem
  · rw [List.length_zipWith, length_stateBits, length_stateBits, hpadded]
    rfl
  · intro k hk _
    rw [length_stateBits] at hk
    have hi : k / 64 < 25 := by omega
    have hz : k % 64 < 64 := Nat.mod_lt k (by omega)
    have hget (a : StateArray) (hk' : k < (stateBits a).length) : (stateBits a)[k] = a[k / 64].toNat.testBit (k % 64) := by
      apply Option.some_inj.1
      rw [← List.getElem?_eq_getElem, getElem?_stateBits, Vector.getElem?_toList, Vector.getElem?_eq_getElem hi]
      rfl
    rw [List.getElem_zipWith, hget, hget, testBit_xorBlock state block hi hz, Nat.div_add_mod]
    congr 1
    by_cases hblock : k < 8 * type.blockSize
    · rw [decide_eq_true (by omega), Bool.true_and, List.getElem_append_left (by rwa [hlength]),
        List.getElem?_eq_getElem (by rwa [hlength]), Option.getD_some]
    · rw [decide_eq_false (by omega), Bool.false_and, List.getElem_append_right (by rw [hlength]; omega),
        List.getElem_replicate]

theorem length_truncateAsBytes (state : StateArray) {size : ℕ} (h : size < 200) :
    (state.truncateAsBytes size).length = size := by
  have hbits := congrArg List.length (bitString_truncateAsBytes state h)
  rw [length_bitString, List.length_take, length_stateBits] at hbits
  omega

/-! ## The digest -/

/-- **Absorbing bytes is absorbing their bits.** -/
theorem absorb_bitString (type : Sha3Type) (M : List UInt8) :
    (absorb (8 * type.blockSize)
      (fun S P => keccakBits type (List.zipWith xor S (P ++ List.replicate (1600 - 8 * type.blockSize) false)))
      (List.replicate 1600 false) (bitString M)).1 =
    stateBits (absorb type.blockSize (absorbBlock type) .zero M).1 := by
  rw [← stateBits_zero, absorb_map (φ := stateBits) (ε := bitString) type.blockSize_pos (by omega) length_bitString
    bitString_take bitString_drop]
  intro s block hblock
  rw [keccakBits, ← stateBits_xorBlock s hblock, ofStateBits_stateBits]
  rfl

/-- **SHA-3 streaming**: after any updates of a new context, `finalize` returns the first bytes of the sponge of the
permutation, of all bytes that it has been updated with and the suffix 01, however they were cut, and leaves a context
that is as a new one. -/
theorem finalize_sponge (type : Sha3Type) (chunks : List (List UInt8)) :
    let c := chunks.foldl HashContext.update (HashContext.new type)
    bitString c.finalize.1 = sponge 1600 (8 * type.blockSize) (keccakBits type) (bitString chunks.flatten ++ [false, true])
        (8 * type.finalHashSize) ∧
      c.finalize.1.length = type.finalHashSize ∧ c.finalize.1 = hashSha3 type chunks.flatten ∧
      c.finalize.2 = HashContext.new type := by
  intro c
  have hsize : type.finalHashSize < 200 := by cases type <;> decide
  have hd : 0 < 8 * type.finalHashSize := by cases type <;> decide
  have hdr : 8 * type.finalHashSize ≤ 8 * type.blockSize := by cases type <;> decide
  have hdigest := finalize_absorb (foldl_update_absorbed (new_absorbed type) chunks)
  have hwhole := finalize_absorb ((new_absorbed type).update chunks.flatten)
  rw [List.nil_append] at hdigest hwhole
  refine ⟨?_, ?_, ?_, rfl⟩
  · have hpadded : (bitString chunks.flatten ++ [false, true]).length = 8 * chunks.flatten.length + 2 := by
      rw [List.length_append, length_bitString]
      rfl
    rw [hdigest, bitString_truncateAsBytes _ hsize, sponge_of_le _ hd hdr, hpadded, List.append_assoc,
      ← bitString_padBytes type.blockSize_pos, ← bitString_append, absorb_bitString]
  · rw [hdigest]
    exact length_truncateAsBytes _ hsize
  · rw [hdigest, hashSha3, hwhole]

end Nessus.Abi.Sha3
