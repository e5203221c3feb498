import Nessus.Lib.Keccak
import Nessus.Abi.Sha3Sponge

/-!
# The permutation of SHA-3 is Keccak-p

The step mappings work on lanes of 64 bits; bit by bit they are those of the standard.

* `bit_stepMappingTheta`, .., `bit_stepMappingTau` — each step mapping;
* `rotationBits_eq`, `stepMappingHelperRc_eq` — the generated rotations and round constants;
* `keccakP_fips` — the permutation.
-/

namespace Nessus.Abi.Sha3

open Nessus.Lib

variable {type : Sha3Type}

/-! ## The bits of words -/

theorem testBit_xor (a b : UInt64) (z : ℕ) : (a ^^^ b).toNat.testBit z = (a.toNat.testBit z ^^ b.toNat.testBit z) := by
  rw [UInt64.toNat_xor, Nat.testBit_xor]

theorem testBit_not (a : UInt64) {z : ℕ} (hz : z < 64) : (~~~a).toNat.testBit z = !a.toNat.testBit z := by
  rw [← UInt64.toNat_toBitVec, ← UInt64.toNat_toBitVec, BitVec.testBit_toNat, BitVec.testBit_toNat, UInt64.toBitVec_not,
    BitVec.getLsbD_not]
  simp [hz]

/-- A rotation by some bits to the left moves every bit up by as many places, modulo 64. -/
theorem testBit_rotl (a : UInt64) (bits : ℕ) {z : ℕ} (hz : z < 64) :
    (rotl a bits).toNat.testBit z = a.toNat.testBit ((64 - bits % 64 + z) % 64) := by
  unfold rotl
  have hlt := Nat.mod_lt bits (show 0 < 64 by decide)
  split
  · next h0 =>
    congr 1
    omega
  · next h0 =>
    rw [UInt64.toNat_or, Nat.testBit_or, UInt64.toNat_shiftLeft, UInt64.toNat_shiftRight, toNat_ofNat_mod hlt,
      toNat_ofNat_mod (by omega), Nat.testBit_mod_two_pow, Nat.testBit_shiftLeft, Nat.testBit_shiftRight]
    by_cases hle : bits % 64 ≤ z
    · have hout : a.toNat.testBit (64 - bits % 64 + z) = false := testBit_toNat_of_le (by omega)
      have hplace : (64 - bits % 64 + z) % 64 = z - bits % 64 := by omega
      rw [hout, hplace]
      simp [hz, hle]
    · have hplace : (64 - bits % 64 + z) % 64 = 64 - bits % 64 + z := by omega
      rw [hplace]
      simp [hle]

/-! ## The bits of the state array -/

/-- The bit at `x`, `y`, `z`. -/
def StateArray.bit (a : StateArray) : Keccak.Bits 64 := fun x y z => (a.lane x y).toNat.testBit z

theorem lane_ofLanes (f : ℕ → ℕ → UInt64) (x y : Fin 5) : (StateArray.ofLanes f).lane x y = f x y := by
  have hx : calculateIndex x y % 5 = x := by
    unfold calculateIndex
    omega
  have hy : calculateIndex x y / 5 = y := by
    unfold calculateIndex
    omega
  exact (Vector.getElem_ofFn (calculateIndex_lt x y)).trans (congrArg₂ f hx hy)

theorem lane_mod (a : StateArray) {x y x' y' : ℕ} (hx : x % 5 = x' % 5) (hy : y % 5 = y' % 5) :
    a.lane x y = a.lane x' y' := by
  have hindex : calculateIndex x y = calculateIndex x' y' := by rw [calculateIndex, calculateIndex, hx, hy]
  simp only [StateArray.lane, hindex]

/-! ## θ -/

theorem minusModUnsigned_one (x : Fin 5) : minusModUnsigned x 1 5 = (x - 1 : Fin 5) := by
  revert x
  decide

/-- The words of `tmp` are the parities of the columns. -/
theorem testBit_tmp (c : HashContext type) (x : Fin 5) (z : Fin 64) :
    (c.state.lane x 0 ^^^
      (c.state.lane x 1 ^^^ (c.state.lane x 2 ^^^ (c.state.lane x 3 ^^^ c.state.lane x 4)))).toNat.testBit z =
      Keccak.parity c.state.bit x z := by
  simp only [testBit_xor, Keccak.parity, Bool.xor_assoc]
  rfl

theorem bit_stepMappingTheta (c : HashContext type) :
    (stepMappingTheta c).state.bit = Keccak.theta c.state.bit := by
  funext x y z
  have hcolumn (x : Fin 5) (f : Fin 5 → UInt64) : (Vector.ofFn f).toList.getD x 0 = f x := by
    rw [Vector.toList_ofFn, List.getD_eq_getElem _ _ (by simp), List.getElem_ofFn]
  have hnext : ((x : ℕ) + 1) % 5 = (x + 1 : Fin 5) := by
    revert x
    decide
  have hbit : (64 - 1 % 64 + (z : ℕ)) % 64 = (z - 1 : Fin 64) := rfl
  rw [StateArray.bit, stepMappingTheta]
  simp only [lane_ofLanes, testBit_xor]
  rw [minusModUnsigned_one, hnext, hcolumn, hcolumn, testBit_rotl _ _ z.isLt, hbit, testBit_tmp, testBit_tmp]
  rfl

/-! ## ρ -/

/-- **The rotations** are those of the table, for every lane. -/
theorem rotationBits_eq : ∀ x y : Fin 5,
    stepMappingRhoRotationBits.get ⟨calculateIndex x y, calculateIndex_lt x y⟩ = Keccak.rhoOffset x y % 64 := by
  decide

theorem bit_stepMappingRho (c : HashContext type) : (stepMappingRho c).intermediate.bit = Keccak.rho c.state.bit := by
  funext x y z
  have hlane : (stepMappingRho c).intermediate.lane x y = rotl (c.state.lane x y) (Keccak.rhoOffset x y % 64) := by
    rw [← rotationBits_eq]
    exact Vector.getElem_zipWith (calculateIndex_lt x y)
  rw [StateArray.bit, hlane, testBit_rotl _ _ z.isLt, Nat.mod_mod]
  rfl

/-! ## π -/

theorem bit_stepMappingPi (c : HashContext type) : (stepMappingPi c).state.bit = Keccak.pi c.intermediate.bit := by
  funext x y z
  rw [StateArray.bit, stepMappingPi, lane_ofLanes]
  have hmod : ∀ x y : Fin 5, ((x : ℕ) + 3 * y) % 5 = (x + 3 * y : Fin 5) % 5 := by decide
  rw [lane_mod _ (hmod x y) rfl]
  rfl

/-! ## χ -/

theorem bit_stepMappingChi (c : HashContext type) : (stepMappingChi c).intermediate.bit = Keccak.chi c.state.bit := by
  funext x y z
  rw [StateArray.bit, stepMappingChi, lane_ofLanes]
  have hmod : ∀ x k : Fin 5, ((x : ℕ) + k) % 5 = (x + k : Fin 5) % 5 := by decide
  have hlane₁ : c.state.lane (x + 1) y = c.state.lane (x + 1 : Fin 5) y := lane_mod _ (hmod x 1) rfl
  have hlane₂ : c.state.lane (x + 2) y = c.state.lane (x + 2 : Fin 5) y := lane_mod _ (hmod x 2) rfl
  rw [hlane₁, hlane₂, testBit_xor, UInt64.toNat_and, Nat.testBit_and, testBit_not _ z.isLt]
  rfl

/-! ## The round constants -/

/-- The body of the loop of `step_mapping_helper_rc`. -/
def rcRound (result : UInt64) : UInt64 :=
  let result := result <<< 1
  let bit := getNumberBit result 8
  let result := setNumberBit result 0 (getNumberBit result 0 ^^^ bit)
  let result := setNumberBit result 4 (getNumberBit result 4 ^^^ bit)
  let result := setNumberBit result 5 (getNumberBit result 5 ^^^ bit)
  let result := setNumberBit result 6 (getNumberBit result 6 ^^^ bit)
  result &&& 0xFF

/-- The word holds the shift register, with its first bit in the lowest place. -/
def HoldsRegister (result : UInt64) (R : List Bool) : Prop := result < 256 ∧ (List.range 8).map result.toNat.testBit = R

/-- A round of the loop is a step of the shift register: the register has 8 bits, and these are all its values. -/
theorem rcRound_step : ∀ n < 256, rcRound (UInt64.ofNat n) < 256 ∧
    (List.range 8).map (rcRound (UInt64.ofNat n)).toNat.testBit =
      Keccak.rcStep ((List.range 8).map (UInt64.ofNat n).toNat.testBit) := by
  decide +kernel

theorem HoldsRegister.rcRound {result : UInt64} {R : List Bool} (h : HoldsRegister result R) :
    HoldsRegister (rcRound result) (Keccak.rcStep R) := by
  obtain ⟨hlt, rfl⟩ := h
  have hstep := rcRound_step result.toNat hlt
  rwa [UInt64.ofNat_toNat] at hstep

/-- After `t` rounds the word holds the register after `t` steps. -/
theorem holdsRegister_foldl (t : ℕ) :
    HoldsRegister ((List.range t).foldl (fun result _ => rcRound result) 1) (Keccak.rcRegister t) := by
  induction t with
  | zero => exact ⟨by decide, by decide⟩
  | succ t ih =>
    rw [List.range_succ, List.foldl_append, Keccak.rcRegister, Function.iterate_succ_apply']
    exact ih.rcRound

theorem and_one_toUInt8 (a : UInt64) : (a &&& 1).toUInt8 = (a.toNat.testBit 0).toUInt8 := by
  apply UInt8.toNat_inj.1
  have hone : (1 : UInt64).toNat = 1 := rfl
  rw [UInt64.toNat_toUInt8, UInt64.toNat_and, hone, Nat.and_one_is_mod, Nat.testBit_zero]
  rcases Nat.mod_two_eq_zero_or_one a.toNat with h | h <;> rw [h] <;> rfl

/-- **The bits of the round constants** are those of the shift register. -/
theorem stepMappingHelperRc_eq (number : ℕ) : stepMappingHelperRc number = (Keccak.rc number).toUInt8 := by
  show (if number % 255 = 0 then 1
    else (((List.range (number % 255)).foldl (fun result _ => rcRound result) 1) &&& 1).toUInt8) = _
  rw [Keccak.rc]
  split
  · rfl
  · obtain ⟨-, hbits⟩ := holdsRegister_foldl (number % 255)
    rw [← hbits, and_one_toUInt8]
    rfl

theorem testBit_toUInt8_shiftLeft (bit : Bool) {offset z : ℕ} (ho : offset < 64) (hz : z < 64) :
    (bit.toUInt8.toUInt64 <<< UInt64.ofNat offset).toNat.testBit z = (decide (z = offset) && bit) := by
  have hbit : bit.toUInt8.toUInt64.toNat = bit.toNat := by cases bit <;> rfl
  rw [UInt64.toNat_shiftLeft, toNat_ofNat_mod ho, hbit, Nat.testBit_mod_two_pow, Nat.testBit_shiftLeft]
  by_cases hle : offset ≤ z
  · rcases Nat.eq_or_lt_of_le hle with rfl | hlt
    · cases bit <;> simp [hz]
    · have hne : z ≠ offset := by omega
      have hout : bit.toNat.testBit (z - offset) = false := by
        apply Nat.testBit_lt_two_pow
        exact Nat.lt_of_le_of_lt (Bool.toNat_le bit) (Nat.one_lt_two_pow (by omega))
      simp [hne, hout]
  · have hne : z ≠ offset := by omega
    simp [hle, hne]

theorem testBit_setNumberBit (number : UInt64) (bit : Bool) {offset z : ℕ} (ho : offset < 64) (hz : z < 64) :
    (setNumberBit number offset bit.toUInt8).toNat.testBit z = if z = offset then bit else number.toNat.testBit z := by
  have hone : (1 : UInt64) = true.toUInt8.toUInt64 := rfl
  rw [setNumberBit, UInt64.toNat_or, Nat.testBit_or, UInt64.toNat_and, Nat.testBit_and, testBit_not _ hz, hone,
    testBit_toUInt8_shiftLeft _ ho hz, testBit_toUInt8_shiftLeft _ ho hz]
  by_cases h : z = offset
  · simp [h]
  · simp [h]

/-- **The round constants** are those of the standard. -/
theorem testBit_rcTable (round : ℕ) {z : ℕ} (hz : z < 64) :
    (stepMappingTauRcTable round).toNat.testBit z = Keccak.roundConstant 6 round z := by
  have hloop (n : ℕ) (hn : n ≤ 7) :
      ((List.range n).foldl
        (fun result i => setNumberBit result (2 ^ i - 1) (stepMappingHelperRc (i + 7 * round))) 0).toNat.testBit z =
      (List.range n).foldl (fun RC j z => if z = 2 ^ j - 1 then Keccak.rc (j + 7 * round) else RC z)
        (fun _ => false) z := by
    induction n with
    | zero => exact Nat.zero_testBit z
    | succ n ih =>
      have hplace : 2 ^ n - 1 < 64 := by
        have := Nat.pow_le_pow_right (show 0 < 2 by decide) (show n ≤ 6 by omega)
        omega
      rw [List.range_succ, List.foldl_append, List.foldl_append, List.foldl_cons, List.foldl_cons, List.foldl_nil,
        List.foldl_nil, stepMappingHelperRc_eq, testBit_setNumberBit _ _ hplace hz, ih (by omega)]
  exact hloop 7 le_rfl

theorem bit_stepMappingTau (c : HashContext type) (round : ℕ) :
    (stepMappingTau c round).state.bit = Keccak.iota 6 round c.intermediate.bit := by
  funext x y z
  have hset : (stepMappingTau c round).state.lane x y =
      if 0 = calculateIndex x y then c.intermediate.lane 0 0 ^^^ stepMappingTauRcTable round
      else c.intermediate.lane x y := Vector.getElem_set (by decide) (calculateIndex_lt x y)
  have hzero : 0 = calculateIndex x y ↔ x = 0 ∧ y = 0 := by
    clear hset
    revert x y
    decide
  have hlane : (stepMappingTau c round).state.lane x y =
      if x = 0 ∧ y = 0 then c.intermediate.lane x y ^^^ stepMappingTauRcTable round else c.intermediate.lane x y := by
    by_cases h : x = 0 ∧ y = 0
    · rw [hset, if_pos (hzero.2 h), if_pos h, h.1, h.2]
      rfl
    · rw [hset, if_neg fun h0 => h (hzero.1 h0), if_neg h]
  rw [StateArray.bit, hlane, Keccak.iota]
  split
  · rw [testBit_xor, testBit_rcTable _ z.isLt]
    rfl
  · rfl

/-! ## The permutation -/

theorem bit_keccakRound (c : HashContext type) (round : ℕ) :
    (keccakRound c round).state.bit = Keccak.round 6 round c.state.bit := by
  rw [keccakRound, bit_stepMappingTau, bit_stepMappingChi, bit_stepMappingPi, bit_stepMappingRho, bit_stepMappingTheta]
  rfl

theorem bit_rounds (c : HashContext type) (l : List ℕ) :
    (l.foldl keccakRound c).state.bit = l.foldl (fun A i => Keccak.round 6 i A) c.state.bit := by
  induction l generalizing c with
  | nil => rfl
  | cons i l ih => rw [List.foldl_cons, List.foldl_cons, ih, bit_keccakRound]

theorem bit_keccakP (c : HashContext type) : (keccakP c).state.bit = Keccak.rounds 6 24 c.state.bit := by
  rw [keccakP, bit_rounds]
  simp only [Keccak.rounds, Nat.reduceMul, Nat.reduceAdd, Nat.sub_self, Nat.zero_add]

/-! ## Strings of bits -/

theorem ofString_stateBits (a : StateArray) : Keccak.ofString (stateBits a) = a.bit := by
  funext x y z
  have hindex : calculateIndex x y = 5 * y + x := by
    unfold calculateIndex
    omega
  have hlt := calculateIndex_lt x y
  rw [hindex] at hlt
  have hdiv : (64 * (5 * (y : ℕ) + x) + z) / 64 = 5 * y + x := by omega
  have hmod : (64 * (5 * (y : ℕ) + x) + z) % 64 = z := by omega
  have hlane : a.lane x y = a[5 * (y : ℕ) + x] := by
    simp only [StateArray.lane, hindex]
    rfl
  rw [Keccak.ofString, List.getD_eq_getElem?_getD, getElem?_stateBits, hdiv, hmod, Vector.getElem?_toList,
    Vector.getElem?_eq_getElem hlt, StateArray.bit, hlane]
  rfl

theorem toList_lanes (a : StateArray) :
    a.toList = (List.finRange 5).flatMap fun y : Fin 5 => (List.finRange 5).map fun x : Fin 5 => a.lane x y := by
  have hindices : List.finRange 25 = (List.finRange 5).flatMap fun y : Fin 5 => (List.finRange 5).map fun x : Fin 5 =>
      ⟨calculateIndex x y, calculateIndex_lt x y⟩ := by decide
  have hlist : a.toList = (List.finRange 25).map a.get := by
    apply List.ext_getElem
    · simp
    · intro i h₁ h₂
      rw [List.getElem_map, List.getElem_finRange, Vector.getElem_toList]
      rfl
  rw [hlist, hindices, List.map_flatMap]
  simp only [List.map_map]
  rfl

/-- The string of the bits is the one of the state array. -/
theorem toString_bit (a : StateArray) : Keccak.toString a.bit = stateBits a := by
  have hlane (x y : Fin 5) : (List.finRange 64).map (a.bit x y) = (List.range 64).map (a.lane x y).toNat.testBit := by
    rw [← List.map_coe_finRange_eq_range, List.map_map]
    rfl
  rw [stateBits, toList_lanes, List.map_flatMap, bits, List.flatMap_assoc, Keccak.toString]
  simp only [hlane, List.map_map, List.flatMap_map]
  rfl

theorem bit_ofStateBits (S : List Bool) : (ofStateBits S).bit = Keccak.ofString S := by
  funext x y z
  have hindex : calculateIndex x y = 5 * y + x := by
    unfold calculateIndex
    omega
  have hlane : (ofStateBits S).lane x y =
      UInt64.ofNat (Nat.ofBits fun z : Fin 64 => S.getD (64 * calculateIndex x y + z.val) false) :=
    Vector.getElem_ofFn (calculateIndex_lt x y)
  rw [StateArray.bit, hlane, UInt64.toNat_ofNat_of_lt' (Nat.ofBits_lt_two_pow _), Nat.testBit_ofBits_lt _ _ z.isLt,
    hindex]
  rfl

/-- The permutation of strings that the digest is a sponge of. -/
theorem keccakBits_eq (type : Sha3Type) : keccakBits type = Keccak.keccakP 64 6 24 := by
  funext S
  rw [keccakBits, ← toString_bit, keccakF, bit_keccakP, Keccak.keccakP, ← bit_ofStateBits]

/-- **The permutation is Keccak-p[1600, 24]**: each step mapping is the one of the standard, bit by bit, with its
offsets and its round constants, and so is the whole of them on strings. -/
theorem keccakP_fips (c : HashContext type) :
    (stepMappingTheta c).state.bit = Keccak.theta c.state.bit ∧
      (stepMappingRho c).intermediate.bit = Keccak.rho c.state.bit ∧
      (stepMappingPi c).state.bit = Keccak.pi c.intermediate.bit ∧
      (stepMappingChi c).intermediate.bit = Keccak.chi c.state.bit ∧
      (∀ round, (stepMappingTau c round).state.bit = Keccak.iota 6 round c.intermediate.bit) ∧
      (∀ x y : Fin 5, stepMappingRhoRotationBits.get ⟨calculateIndex x y, calculateIndex_lt x y⟩ =
        Keccak.rhoOffset x y % 64) ∧
      (∀ round z, z < 64 → (stepMappingTauRcTable round).toNat.testBit z = Keccak.roundConstant 6 round z) ∧
      stateBits (keccakP c).state = Keccak.keccakP 64 6 24 (stateBits c.state) := by
  refine ⟨bit_stepMappingTheta c, bit_stepMappingRho c, bit_stepMappingPi c, bit_stepMappingChi c, bit_stepMappingTau c,
    rotationBits_eq, fun round z hz => testBit_rcTable round hz, ?_⟩
  rw [Keccak.keccakP, ofString_stateBits, ← bit_keccakP, toString_bit]

end Nessus.Abi.Sha3
