import FastValidate.Code.SimdUtf8CheckAvx512
import FastValidate.Proofs.Shape

/-!
# `FastValidate.Proofs.SimdUtf8CheckAvx512`: the AVX-512 validator

The carry and the nibbles are those of the narrower versions. What is new is the
representation: the index constants are `Lookback`s, the packed tables repeat the sixteen
entries of `Bytes`, and the checks set bits of a mask where the narrower versions set the
lanes of a register. So `clean` is here the equation `e = 0`.
-/

set_option autoImplicit false

namespace FastValidate.Proofs

open Simd Memory
open FastValidate.Spec
open FastValidate.Code

/-! ### Index constants and packed tables -/

/-- Lane `i` of the first index constant selects the lane before it, lane 63 of the other
register for `i = 0`. -/
theorem lane_pushLastByteIndexes {i : ℕ} (h : i < 64) :
    lane pushLastByteIndexes i = BitVec.ofNat 8 ((i + 127) % 128) := by
  rw [pushLastByteIndexes, lane_setEpi64 _ h]
  revert i
  decide +kernel

/-- The indexes move the lanes up by two. -/
theorem lane_pushLast2BytesIndexes {i : ℕ} (h : i < 64) :
    lane pushLast2BytesIndexes i = BitVec.ofNat 8 ((i + 126) % 128) := by
  rw [pushLast2BytesIndexes, lane_setEpi64 _ h]
  revert i
  decide +kernel

/-- The lookbacks of the AVX-512 version. -/
theorem lookback_avx512PushLastBytes :
    Lookback avx512PushLastByteOfAToB avx512PushLast2BytesOfAToB where
  one a b i hi := by
    rw [avx512PushLastByteOfAToB,
      lane_permutex2varEpi8 b a hi (Nat.mod_lt _ (by omega)) (lane_pushLastByteIndexes hi)]
    cases i with
    | zero => rfl -- the index 127 is lane 63 of `a`
    | succ i =>
        have hmod : (i + 1 + 127) % 128 = i := by omega
        rw [hmod, if_pos (by omega), delay_succ]
  two a b i hi := by
    rw [avx512PushLast2BytesOfAToB,
      lane_permutex2varEpi8 b a hi (Nat.mod_lt _ (by omega))
        (lane_pushLast2BytesIndexes hi)]
    match i, hi with
    | 0, _ => rfl -- 126 is lane 62 of `a`
    | 1, _ => rfl -- 127 is lane 63 of `a`
    | i + 2, hi =>
        have hmod : (i + 2 + 126) % 128 = i := by omega
        rw [hmod, if_pos (by omega), delay_succ, delay_succ]

/-- A packed table repeats the sixteen entries of its four words. -/
theorem tableSpec_setr4Epi32 {w₀ w₁ w₂ w₃ : BitVec 32} {xs : List Byte}
    (h : ∀ k < 16, byteOf ([w₀, w₁, w₂, w₃].getD (k / 4) 0) (k % 4) = xs.getD k 0) :
    TableSpec (setr4Epi32 64 w₀ w₁ w₂ w₃) xs where
  groups := rfl
  lanes i hi := by
    have hword : i / 4 % 4 = i % 16 / 4 := by omega
    have hbyte : i % 4 = i % 16 % 4 := by omega
    rw [lane_setr4Epi32 _ _ _ _ hi, hword, hbyte]
    exact h (i % 16) (Nat.mod_lt _ (by omega))

/-- The four words are the table of lengths. -/
theorem tableSpec_avx512Lengths :
    TableSpec (setr4Epi32 64 0x01010101 0x01010101 0x00000000 0x04030202) lengthTable :=
  tableSpec_setr4Epi32 (by decide)

/-- The four words are the table of first minima. -/
theorem tableSpec_avx512InitialMins :
    TableSpec (setr4Epi32 64 0x80808080 0x80808080 0x80808080 0xF1E180C2)
      initialMinTable :=
  tableSpec_setr4Epi32 (by decide)

/-- The four words are the table of second minima. -/
theorem tableSpec_avx512SecondMins :
    TableSpec (setr4Epi32 64 0x80808080 0x80808080 0x80808080 0x90A07F7F)
      secondMinTable :=
  tableSpec_setr4Epi32 (by decide)

/-! ### The checks of the mask version -/

/-- The first check adds no error when all bytes are at most `F4`. -/
theorem avx512CheckSmallerThan0xF4_eq_zero_iff (cur : Reg 64) (e : BitVec 64) :
    avx512CheckSmallerThan0xF4 cur e = 0 ↔ e = 0 ∧ ∀ i < 64, lane cur i ≤ 0xF4 := by
  rw [avx512CheckSmallerThan0xF4, korMask_eq_zero_iff]
  refine and_congr_right fun _ => ?_
  rw [mask_eq_zero_iff_of_lane (p := fun i => 0xF4 < lane cur i)]
  · simp only [BitVec.not_lt]
  · intro i hi
    rw [getLsbD_cmpgtEpu8Mask _ _ hi, lane_set1Epi8 _ hi]

/-- The overlap and underlap check, where lengths and carries are below 128. -/
theorem avx512CheckContinuations_eq_zero_iff {lens car : Reg 64} {L C : ℕ → ℕ}
    (hL : ∀ i < 64, (lane lens i).toNat = L i ∧ L i < 128)
    (hC : ∀ i < 64, (lane car i).toNat = C i ∧ C i < 128) (e : BitVec 64) :
    avx512CheckContinuations lens car e = 0 ↔ e = 0 ∧ ∀ i < 64, Fits L C i := by
  rw [avx512CheckContinuations, korMask_eq_zero_iff]
  refine and_congr_right fun _ => ?_
  -- `kxnor` marks the lanes where the two comparisons agree.
  rw [mask_eq_zero_iff_of_lane (p := fun i => L i < C i ↔ 0 < L i)]
  · refine forall₂_congr fun i _ => ?_
    unfold Fits
    omega
  · intro i hi
    obtain ⟨hgt, hpos⟩ := slt_lengths_carries hL hC hi
    rw [getLsbD_kxnorMask _ _ hi, getLsbD_cmpgtEpi8Mask _ _ hi,
      getLsbD_cmpgtEpi8Mask _ _ hi, lane_setzero hi, Bool.eq_iff_iff, beq_iff_eq,
      decide_eq_true_iff, Bool.eq_iff_iff, hgt, hpos]

/-- The check behind `ED` and `F4` adds no error when no lane is above its bound, as a signed
byte. -/
theorem avx512CheckFirstContinuationMax_eq_zero_iff (cur off1 : Reg 64) (e : BitVec 64) :
    avx512CheckFirstContinuationMax cur off1 e = 0 ↔ e = 0 ∧
      ∀ i < 64, ¬ ((lane off1 i = 0xED ∧ (0x9F : Byte).slt (lane cur i)) ∨
        (lane off1 i = 0xF4 ∧ (0x8F : Byte).slt (lane cur i))) := by
  rw [avx512CheckFirstContinuationMax, korMask_eq_zero_iff]
  refine and_congr_right fun _ => mask_eq_zero_iff_of_lane ?_
  intro i hi
  rw [getLsbD_korMask, getLsbD_kandMask, getLsbD_kandMask, getLsbD_cmpgtEpi8Mask _ _ hi,
    getLsbD_cmpgtEpi8Mask _ _ hi, getLsbD_cmpeqEpi8Mask _ _ hi, getLsbD_cmpeqEpi8Mask _ _ hi,
    lane_set1Epi8 _ hi, lane_set1Epi8 _ hi, lane_set1Epi8 _ hi, lane_set1Epi8 _ hi]
  simp [and_comm]

/-- The body of `avx512_checkOverlong` behind the lookback of the nibbles. -/
def avx512Overlong (cur off1 off1Hi : Reg 64) (e : BitVec 64) : BitVec 64 :=
  korMask e (kandMask
    (cmpgtEpi8Mask
      (shuffleEpi8 (setr4Epi32 64 0x80808080 0x80808080 0x80808080 0xF1E180C2) off1Hi) off1)
    (cmpgtEpi8Mask
      (shuffleEpi8 (setr4Epi32 64 0x80808080 0x80808080 0x80808080 0x90A07F7F) off1Hi) cur))

/-- The check for overlong sequences adds no error when no lane has both bytes under their
minimum. -/
theorem avx512Overlong_eq_zero_iff {cur off1 off1Hi : Reg 64}
    (hhi : ∀ i < 64, lane off1Hi i = lane off1 i >>> 4) (e : BitVec 64) :
    avx512Overlong cur off1 off1Hi e = 0 ↔ e = 0 ∧
      ∀ i < 64, ¬ ((lane off1 i).slt (atNibble initialMinTable (lane off1 i)) ∧
        (lane cur i).slt (atNibble secondMinTable (lane off1 i))) := by
  rw [avx512Overlong, korMask_eq_zero_iff]
  refine and_congr_right fun _ => mask_eq_zero_iff_of_lane ?_
  intro i hi
  rw [getLsbD_kandMask, getLsbD_cmpgtEpi8Mask _ _ hi, getLsbD_cmpgtEpi8Mask _ _ hi,
    tableSpec_avx512InitialMins.lookup hi (hhi i hi),
    tableSpec_avx512SecondMins.lookup hi (hhi i hi)]
  simp

/-- The checks of the AVX-512 version. -/
def maskChecks : Checks 64 (BitVec 64) where
  smaller := avx512CheckSmallerThan0xF4
  continuations := avx512CheckContinuations
  firstMax := avx512CheckFirstContinuationMax
  overlong := avx512Overlong

/-- The four checks of the AVX-512 version. -/
theorem checksSpec_mask : ChecksSpec (fun e : BitVec 64 => e = 0) maskChecks where
  smaller := avx512CheckSmallerThan0xF4_eq_zero_iff
  continuations := avx512CheckContinuations_eq_zero_iff
  firstMax := avx512CheckFirstContinuationMax_eq_zero_iff
  overlong := avx512Overlong_eq_zero_iff
  sticky_continuations _ _ _ h := ((korMask_eq_zero_iff _ _).mp h).1
  sticky_overlong _ _ _ _ h := ((korMask_eq_zero_iff _ _).mp h).1

/-! ### The validator -/

/-- The step is `blockStep` with the function calls unfolded. -/
theorem avx512CheckUTF8Bytes_eq_blockStep :
    avx512CheckUTF8Bytes = blockStep avx512PushLastByteOfAToB avx512PushLast2BytesOfAToB
      (setr4Epi32 64 0x01010101 0x01010101 0x00000000 0x04030202) maskChecks := rfl

/-- The AVX-512 step keeps the invariant of the blocks. -/
theorem follows_avx512CheckUTF8Bytes :
    Follows (fun e : BitVec 64 => e = 0) avx512CheckUTF8Bytes := by
  rw [avx512CheckUTF8Bytes_eq_blockStep]
  exact follows_blockStep (by omega) lookback_avx512PushLastBytes tableSpec_avx512Lengths
    checksSpec_mask

/-- At a boundary only the last carry can be above its bound in the AVX-512 threshold. -/
theorem thresholdSpec_avx512CarryThreshold :
    ThresholdSpec (fun e : BitVec 64 => e = 0) avx512CarryThreshold where
  sticky _ _ h := ((korMask_eq_zero_iff _ _).mp h).1
  reads p e v hp := by
    have hlimits : ∀ i < 64, lane (setrEpi32 64
        [0x09090909, 0x09090909, 0x09090909, 0x09090909,
          0x09090909, 0x09090909, 0x09090909, 0x09090909,
          0x09090909, 0x09090909, 0x09090909, 0x09090909,
          0x09090909, 0x09090909, 0x09090909, 0x01090909]) i = limitAt 64 i := by
      intro i hi
      rw [lane_setrEpi32 _ hi]
      revert i
      decide +kernel
    rw [avx512CarryThreshold, korMask_eq_zero_iff, ← limits_iff (by omega) hp]
    refine and_congr_right fun _ => mask_eq_zero_iff_of_lane ?_
    intro i hi
    rw [getLsbD_cmpgtEpi8Mask _ _ hi, hlimits i hi, Bool.decide_eq_true]

/-- `validate_utf8_fast_avx512` is exact. -/
theorem acceptsWellFormed_validateUtf8FastAvx512 :
    AcceptsWellFormed validateUtf8FastAvx512 := by
  show AcceptsWellFormed (Shape.validate avx512CheckUTF8Bytes avx512CheckUTF8Bytes
    avx512CarryThreshold 0 fun hasError => decide (hasError = 0))
  exact acceptsWellFormed_validate (by omega) follows_avx512CheckUTF8Bytes
    follows_avx512CheckUTF8Bytes thresholdSpec_avx512CarryThreshold rfl
    (fun _ => decide_eq_true_iff)

/-- The AVX-512 validator accepts exactly the well-formed strings, whatever their length. -/
theorem validateUtf8FastAvx512_iff_wellFormed (src : Ptr) (len : ℕ) :
    validateUtf8FastAvx512 src len = true ↔ WellFormed (slice src len) :=
  acceptsWellFormed_validateUtf8FastAvx512 src len

end FastValidate.Proofs
