import FastValidate.Lib.Lanes

/-!
# `FastValidate.Lib.Masks`: mask registers and packed constants

The AVX-512 byte intrinsics compare into a mask register with one bit a lane. `maskOf`
builds a mask from a predicate on lanes, and `mask_eq_zero_iff` reads the test `!mask`.
The constants of 512-bit code are packed into 32-bit and 64-bit words, least significant
byte in the lowest lane.
-/

set_option autoImplicit false

namespace Simd

variable {n : ℕ}

/-! ### Masks -/

/-- The mask whose bit `i` is `p i`. -/
def maskOf (n : ℕ) (p : ℕ → Bool) : BitVec n := BitVec.ofFnLE fun i => p i

/-- Bit `i` of a mask is the verdict on lane `i`. -/
theorem getLsbD_maskOf (p : ℕ → Bool) {i : ℕ} (h : i < n) :
    (maskOf n p).getLsbD i = p i := by
  rw [maskOf, BitVec.getLsbD_ofFnLE, dif_pos h]

/-- A mask is zero when no bit is set. -/
theorem mask_eq_zero_iff (m : BitVec n) : m = 0 ↔ ∀ i < n, m.getLsbD i = false := by
  refine ⟨fun h i _ => ?_, fun h => ?_⟩
  · rw [h]
    exact BitVec.getLsbD_zero
  · apply BitVec.eq_of_getLsbD_eq
    intro i hi
    rw [h i hi]
    exact BitVec.getLsbD_zero.symm

/-- A mask of lane-wise verdicts is zero exactly when no lane has the error. -/
theorem mask_eq_zero_iff_of_lane {m : BitVec n} {p : ℕ → Prop} [DecidablePred p]
    (h : ∀ i < n, m.getLsbD i = decide (p i)) : m = 0 ↔ ∀ i < n, ¬ p i := by
  rw [mask_eq_zero_iff]
  refine forall₂_congr fun i hi => ?_
  rw [h i hi, decide_eq_false_iff_not]

/-- `cmpgt_epu8_mask`: the lane of `a` is greater as an unsigned byte. -/
def cmpgtEpu8Mask (a b : Reg n) : BitVec n := maskOf n fun i => decide (lane b i < lane a i)

/-- `cmpge_epu8_mask`: the lane of `a` is at least the lane of `b`, unsigned. -/
def cmpgeEpu8Mask (a b : Reg n) : BitVec n := maskOf n fun i => decide (lane b i ≤ lane a i)

/-- `cmpgt_epi8_mask`: the lane of `a` is greater as a signed byte. -/
def cmpgtEpi8Mask (a b : Reg n) : BitVec n := maskOf n fun i => (lane b i).slt (lane a i)

/-- `cmpeq_epi8_mask`: the lanes are equal. -/
def cmpeqEpi8Mask (a b : Reg n) : BitVec n := maskOf n fun i => decide (lane a i = lane b i)

/-- `kor`: bitwise or of two masks. -/
def korMask (a b : BitVec n) : BitVec n := a ||| b

/-- `kand`: bitwise and of two masks. -/
def kandMask (a b : BitVec n) : BitVec n := a &&& b

/-- `kxnor`: the bits where two masks agree. -/
def kxnorMask (a b : BitVec n) : BitVec n := ~~~(a ^^^ b)

/-- `cmpgt_epu8_mask` compares without sign. -/
theorem getLsbD_cmpgtEpu8Mask (a b : Reg n) {i : ℕ} (h : i < n) :
    (cmpgtEpu8Mask a b).getLsbD i = decide (lane b i < lane a i) := getLsbD_maskOf _ h

/-- `cmpge_epu8_mask` compares without sign. -/
theorem getLsbD_cmpgeEpu8Mask (a b : Reg n) {i : ℕ} (h : i < n) :
    (cmpgeEpu8Mask a b).getLsbD i = decide (lane b i ≤ lane a i) := getLsbD_maskOf _ h

/-- `cmpgt_epi8_mask` compares with sign. -/
theorem getLsbD_cmpgtEpi8Mask (a b : Reg n) {i : ℕ} (h : i < n) :
    (cmpgtEpi8Mask a b).getLsbD i = (lane b i).slt (lane a i) := getLsbD_maskOf _ h

/-- `cmpeq_epi8_mask` has a bit for each equal lane. -/
theorem getLsbD_cmpeqEpi8Mask (a b : Reg n) {i : ℕ} (h : i < n) :
    (cmpeqEpi8Mask a b).getLsbD i = decide (lane a i = lane b i) := getLsbD_maskOf _ h

/-- `kor` of two verdicts holds where one of them does. -/
theorem getLsbD_korMask (a b : BitVec n) (i : ℕ) :
    (korMask a b).getLsbD i = (a.getLsbD i || b.getLsbD i) := BitVec.getLsbD_or

/-- `kand` of two verdicts holds where both do. -/
theorem getLsbD_kandMask (a b : BitVec n) (i : ℕ) :
    (kandMask a b).getLsbD i = (a.getLsbD i && b.getLsbD i) := BitVec.getLsbD_and

/-- `kxnor` of two verdicts holds where they are the same. -/
theorem getLsbD_kxnorMask (a b : BitVec n) {i : ℕ} (h : i < n) :
    (kxnorMask a b).getLsbD i = (a.getLsbD i == b.getLsbD i) := by
  rw [kxnorMask, BitVec.getLsbD_not, BitVec.getLsbD_xor, decide_eq_true h]
  cases a.getLsbD i <;> cases b.getLsbD i <;> rfl

/-- A `kor` is zero when both masks are. -/
theorem korMask_eq_zero_iff (a b : BitVec n) : korMask a b = 0 ↔ a = 0 ∧ b = 0 :=
  BitVec.or_eq_zero_iff

/-! ### Packed constants -/

/-- `set_epi64`: the listed 64-bit words, the highest first. -/
def setEpi64 (n : ℕ) (words : List (BitVec 64)) : Reg n :=
  ofLanes n fun i => byteOf (words.reverse.getD (i / 8) 0) (i % 8)

/-- `setr_epi32`: the listed 32-bit words, the lowest first. -/
def setrEpi32 (n : ℕ) (words : List (BitVec 32)) : Reg n :=
  ofLanes n fun i => byteOf (words.getD (i / 4) 0) (i % 4)

/-- `setr4_epi32`: four 32-bit words, the lowest first, repeated over the register. -/
def setr4Epi32 (n : ℕ) (w₀ w₁ w₂ w₃ : BitVec 32) : Reg n :=
  ofLanes n fun i => byteOf ([w₀, w₁, w₂, w₃].getD (i / 4 % 4) 0) (i % 4)

/-- `set4_epi32`: as `setr4_epi32`, with the highest of the four words first. -/
def set4Epi32 (n : ℕ) (w₃ w₂ w₁ w₀ : BitVec 32) : Reg n := setr4Epi32 n w₀ w₁ w₂ w₃

/-- A lane of `set_epi64`, which lists the words from the last one on. -/
theorem lane_setEpi64 (words : List (BitVec 64)) {i : ℕ} (h : i < n) :
    lane (setEpi64 n words) i = byteOf (words.reverse.getD (i / 8) 0) (i % 8) :=
  lane_ofLanes _ h

/-- A lane of `setr_epi32`, which lists the words from the first one on. -/
theorem lane_setrEpi32 (words : List (BitVec 32)) {i : ℕ} (h : i < n) :
    lane (setrEpi32 n words) i = byteOf (words.getD (i / 4) 0) (i % 4) := lane_ofLanes _ h

/-- A lane of `setr4_epi32`, which repeats four words. -/
theorem lane_setr4Epi32 (w₀ w₁ w₂ w₃ : BitVec 32) {i : ℕ} (h : i < n) :
    lane (setr4Epi32 n w₀ w₁ w₂ w₃) i
      = byteOf ([w₀, w₁, w₂, w₃].getD (i / 4 % 4) 0) (i % 4) := lane_ofLanes _ h

/-! ### A lookup in two registers -/

/-- `permutex2var_epi8`: the low six bits of the index select a lane, and bit 6 selects
between `a` and `b`. -/
def permutex2varEpi8 (a idx b : Reg 64) : Reg 64 :=
  ofLanes 64 fun i =>
    let j := (lane idx i).toNat % 64
    if (lane idx i).getLsbD 6 then lane b j else lane a j

/-- An index below 128 counts the lanes of `a` first, then the lanes of `b`. -/
theorem lane_permutex2varEpi8 (a b : Reg 64) {idx : Reg 64} {i j : ℕ} (h : i < 64)
    (hj : j < 128) (hidx : lane idx i = BitVec.ofNat 8 j) :
    lane (permutex2varEpi8 a idx b) i = if j < 64 then lane a j else lane b (j - 64) := by
  -- Bit 6 of the index is the choice of the register.
  have hbit : ∀ j < 128, (BitVec.ofNat 8 j).getLsbD 6 = decide (64 ≤ j) := by
    decide +kernel
  have htoNat : (BitVec.ofNat 8 j).toNat = j := by
    rw [BitVec.toNat_ofNat]
    omega
  rw [permutex2varEpi8, lane_ofLanes _ h, hidx, hbit j hj, htoNat]
  by_cases h64 : j < 64
  · have hmod : j % 64 = j := by omega
    simp [h64, hmod]
  · have hmod : j % 64 = j - 64 := by omega
    simp [h64, hmod, Nat.le_of_not_lt h64]

end Simd
