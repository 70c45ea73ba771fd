import Mathlib

/-!
# `FastValidate.Lib.Lanes`: byte-lane registers and their instructions

A register of `n` bytes is a `Vector` with lane 0 at the lowest address. The instructions
are the documented lane-wise meanings of the SSE, AVX2 and AVX-512 byte intrinsics, one
definition for all widths where the documentation differs in the width only. `lane` reads a
register at any natural number and `ofLanes` builds a register from a function, so each
instruction is one line and has one lemma, `lane_<instruction>`.

The instructions that move bytes across lanes (`shuffleEpi8`, `alignrEpi8`) act inside each
128-bit group of 16 lanes, as the wide intrinsics do; at `n = 16` there is one group.

`delay p f` is a stream moved by one place with `p` in front. It is what a lookback over a
block boundary computes: the lemmas `lane_alignrEpi8_15`, `lane_alignrEpi8_14` and their
256-bit and 512-bit counterparts say so.
-/

set_option autoImplicit false

namespace Simd

/-! ### Streams moved by one place -/

/-- `f` moved by one place, with `p` in front. -/
def delay {α : Type} (p : α) (f : ℕ → α) : ℕ → α
  | 0 => p
  | i + 1 => f i

/-- The first value of a delayed sequence is the one from before. -/
@[simp] theorem delay_zero {α : Type} (p : α) (f : ℕ → α) : delay p f 0 = p := rfl

/-- The others are those of the sequence, one later. -/
@[simp] theorem delay_succ {α : Type} (p : α) (f : ℕ → α) (i : ℕ) :
    delay p f (i + 1) = f i := rfl

/-- A delayed stream at a positive index. -/
theorem delay_of_pos {α : Type} (p : α) (f : ℕ → α) {i : ℕ} (h : 0 < i) :
    delay p f i = f (i - 1) := by
  obtain ⟨j, rfl⟩ := Nat.exists_eq_succ_of_ne_zero (by omega : i ≠ 0)
  rfl

/-- A function applied to every place of a delayed stream. -/
theorem map_delay {α β : Type} (g : α → β) (p : α) (f : ℕ → α) (i : ℕ) :
    g (delay p f i) = delay (g p) (fun j => g (f j)) i := by
  cases i <;> rfl

/-- A delayed stream reads the first `i` places of `f` at most. -/
theorem delay_congr {α : Type} (p : α) {f g : ℕ → α} {i : ℕ} (h : ∀ j < i, f j = g j) :
    delay p f i = delay p g i := by
  cases i with
  | zero => rfl
  | succ i => exact h i (Nat.lt_succ_self i)

/-! ### Registers -/

/-- One byte lane. -/
abbrev Byte := BitVec 8

/-- A register of `n` byte lanes. -/
abbrev Reg (n : ℕ) := Vector Byte n

variable {n : ℕ}

/-- Lane `i` of a register, zero past the end. -/
def lane (v : Reg n) (i : ℕ) : Byte := v[i]?.getD 0

/-- The register whose lane `i` is `f i`. -/
def ofLanes (n : ℕ) (f : ℕ → Byte) : Reg n := Vector.ofFn fun i => f i

/-- Lane `i` of a register built lane by lane. -/
@[simp] theorem lane_ofLanes (f : ℕ → Byte) {i : ℕ} (h : i < n) :
    lane (ofLanes n f) i = f i := by
  simp [lane, ofLanes, h]

/-- Registers with the same lanes are equal. -/
theorem reg_ext {v w : Reg n} (h : ∀ i < n, lane v i = lane w i) : v = w := by
  apply Vector.ext
  intro i hi
  have hlane := h i hi
  simpa [lane, hi] using hlane

/-- The bytes of a register are its lanes in order. -/
theorem toList_eq_map_lane (v : Reg n) : v.toList = (List.range n).map (lane v) := by
  apply List.ext_getElem
  · simp
  · intro i h₁ h₂
    have hi : i < n := by simpa using h₁
    simp [lane, hi]

/-! ### Constants, loads and lane-wise instructions -/

/-- `setzero`: every lane zero. -/
def setzero (n : ℕ) : Reg n := ofLanes n fun _ => 0

/-- `set1_epi8`: every lane `x`. -/
def set1Epi8 (n : ℕ) (x : Byte) : Reg n := ofLanes n fun _ => x

/-- `setr_epi8`: the listed bytes, lane 0 first. -/
def setrEpi8 (n : ℕ) (xs : List Byte) : Reg n := ofLanes n fun i => xs.getD i 0

/-- `loadu`: the `n` bytes at `src + i`. -/
def loadu (n : ℕ) (src : ℕ → Byte) (i : ℕ) : Reg n := ofLanes n fun j => src (i + j)

/-- `or`, bit by bit. -/
def orSi (a b : Reg n) : Reg n := ofLanes n fun i => lane a i ||| lane b i

/-- `and`, bit by bit. -/
def andSi (a b : Reg n) : Reg n := ofLanes n fun i => lane a i &&& lane b i

/-- `add_epi8`: addition modulo 256. -/
def addEpi8 (a b : Reg n) : Reg n := ofLanes n fun i => lane a i + lane b i

/-- `subs_epu8`: unsigned subtraction that saturates at zero. -/
def subsEpu8 (a b : Reg n) : Reg n :=
  ofLanes n fun i => if lane b i ≤ lane a i then lane a i - lane b i else 0

/-- `cmpeq_epi8`: all ones where the lanes are equal, zero elsewhere. -/
def cmpeqEpi8 (a b : Reg n) : Reg n :=
  ofLanes n fun i => if lane a i = lane b i then 0xFF else 0

/-- `cmpgt_epi8`: all ones where the lane of `a` is greater as a signed byte. -/
def cmpgtEpi8 (a b : Reg n) : Reg n :=
  ofLanes n fun i => if (lane b i).slt (lane a i) then 0xFF else 0

/-- `testz`: whether `a` and `b` have no bit in common. -/
def testz (a b : Reg n) : Bool := decide (andSi a b = setzero n)

/-- `test_all_ones`: whether every bit of `a` is set. -/
def testAllOnes (a : Reg n) : Bool := decide (a = set1Epi8 n 0xFF)

/-- A lane of the zero register. -/
@[simp] theorem lane_setzero {i : ℕ} (h : i < n) : lane (setzero n) i = 0 :=
  lane_ofLanes _ h

/-- A lane of a register of one value. -/
@[simp] theorem lane_set1Epi8 (x : Byte) {i : ℕ} (h : i < n) : lane (set1Epi8 n x) i = x :=
  lane_ofLanes _ h

/-- A lane of a listed register. Lanes behind the list are zero. -/
@[simp] theorem lane_setrEpi8 (xs : List Byte) {i : ℕ} (h : i < n) :
    lane (setrEpi8 n xs) i = xs.getD i 0 := lane_ofLanes _ h

/-- Lane `i` of a load is the byte `i` behind its start. -/
@[simp] theorem lane_loadu (src : ℕ → Byte) (j : ℕ) {i : ℕ} (h : i < n) :
    lane (loadu n src j) i = src (j + i) := lane_ofLanes _ h

/-- `or` is taken in each lane. -/
@[simp] theorem lane_orSi (a b : Reg n) {i : ℕ} (h : i < n) :
    lane (orSi a b) i = lane a i ||| lane b i := lane_ofLanes _ h

/-- `and` is taken in each lane. -/
@[simp] theorem lane_andSi (a b : Reg n) {i : ℕ} (h : i < n) :
    lane (andSi a b) i = lane a i &&& lane b i := lane_ofLanes _ h

/-- The sum is taken in each lane, and wraps there. -/
@[simp] theorem lane_addEpi8 (a b : Reg n) {i : ℕ} (h : i < n) :
    lane (addEpi8 a b) i = lane a i + lane b i := lane_ofLanes _ h

/-- An equal lane is all ones. -/
@[simp] theorem lane_cmpeqEpi8 (a b : Reg n) {i : ℕ} (h : i < n) :
    lane (cmpeqEpi8 a b) i = if lane a i = lane b i then 0xFF else 0 := lane_ofLanes _ h

/-- A lane of `a` above the lane of `b`, as signed bytes, is all ones. -/
@[simp] theorem lane_cmpgtEpi8 (a b : Reg n) {i : ℕ} (h : i < n) :
    lane (cmpgtEpi8 a b) i = if (lane b i).slt (lane a i) then 0xFF else 0 :=
  lane_ofLanes _ h

/-- The difference is taken in each lane, and stops at zero. -/
@[simp] theorem lane_subsEpu8 (a b : Reg n) {i : ℕ} (h : i < n) :
    lane (subsEpu8 a b) i = if lane b i ≤ lane a i then lane a i - lane b i else 0 :=
  lane_ofLanes _ h

/-- Saturating subtraction on bytes is the truncated subtraction of naturals. -/
theorem toNat_lane_subsEpu8 (a b : Reg n) {i : ℕ} (h : i < n) :
    (lane (subsEpu8 a b) i).toNat = (lane a i).toNat - (lane b i).toNat := by
  rw [lane_subsEpu8 a b h]
  split
  · next hle => exact BitVec.toNat_sub_of_le hle
  · next hlt =>
      rw [BitVec.le_def] at hlt
      simp only [BitVec.ofNat_eq_ofNat, BitVec.toNat_ofNat, Nat.zero_mod]
      omega

/-- On bytes below 128 the signed comparison is the comparison of naturals. -/
theorem slt_iff_toNat_lt {a b : Byte} (ha : a.toNat < 128) (hb : b.toNat < 128) :
    a.slt b ↔ a.toNat < b.toNat := by
  rw [BitVec.slt_iff_toInt_lt, BitVec.toInt_eq_toNat_of_lt (by omega),
    BitVec.toInt_eq_toNat_of_lt (by omega)]
  exact Int.ofNat_lt

/-! ### Registers with no bit set -/

/-- Every lane is zero. The error registers are read through this predicate. -/
def IsZero (v : Reg n) : Prop := ∀ i < n, lane v i = 0

/-- The zero register is zero. -/
theorem isZero_setzero : IsZero (setzero n) := fun _ h => lane_setzero h

/-- `testz v v` asks whether `v` is zero. -/
theorem testz_self (v : Reg n) : testz v v = true ↔ IsZero v := by
  rw [testz, decide_eq_true_iff]
  constructor
  · intro h i hi
    have hlane : lane (andSi v v) i = 0 := by rw [h, lane_setzero hi]
    rwa [lane_andSi v v hi, BitVec.and_self] at hlane
  · intro h
    refine reg_ext fun i hi => ?_
    rw [lane_andSi v v hi, h i hi, lane_setzero hi]
    rfl

/-- An `or` is zero when both operands are. -/
theorem isZero_orSi (a b : Reg n) : IsZero (orSi a b) ↔ IsZero a ∧ IsZero b := by
  constructor
  · intro h
    constructor <;> intro i hi
    · exact (BitVec.or_eq_zero_iff.mp (lane_orSi a b hi ▸ h i hi)).1
    · exact (BitVec.or_eq_zero_iff.mp (lane_orSi a b hi ▸ h i hi)).2
  · rintro ⟨ha, hb⟩ i hi
    rw [lane_orSi a b hi, ha i hi, hb i hi]
    rfl

/-- A register of lane-wise verdicts, all ones for an error, is zero exactly when no lane
has the error. -/
theorem isZero_iff_of_lane {v : Reg n} {p : ℕ → Prop} [DecidablePred p]
    (h : ∀ i < n, lane v i = if p i then 0xFF else 0) : IsZero v ↔ ∀ i < n, ¬ p i := by
  constructor
  · intro hz i hi hp
    have hlane := hz i hi
    rw [h i hi, if_pos hp] at hlane
    exact absurd hlane (by decide)
  · intro hp i hi
    rw [h i hi, if_neg (hp i hi)]

/-- Two verdicts joined by `and`. -/
theorem ite_and_ite (p q : Prop) [Decidable p] [Decidable q] :
    ((if p then 0xFF else 0 : Byte) &&& if q then 0xFF else 0)
      = if p ∧ q then 0xFF else 0 := by
  by_cases hp : p <;> by_cases hq : q <;> simp [hp, hq]

/-- Two verdicts joined by `or`. -/
theorem ite_or_ite (p q : Prop) [Decidable p] [Decidable q] :
    ((if p then 0xFF else 0 : Byte) ||| if q then 0xFF else 0)
      = if p ∨ q then 0xFF else 0 := by
  by_cases hp : p <;> by_cases hq : q <;> simp [hp, hq]

/-! ### Words inside a register -/

/-- The little-endian word of `w` bits whose byte `k` is `f k`. -/
def leWord (w : ℕ) (f : ℕ → Byte) : BitVec w :=
  BitVec.ofFnLE fun j => (f (j / 8)).getLsbD (j % 8)

/-- Byte `k` of a word, byte 0 the least significant. -/
def byteOf {w : ℕ} (x : BitVec w) (k : ℕ) : Byte := x.extractLsb' (8 * k) 8

/-- Bit `j` of a word is a bit of its byte `j / 8`. -/
theorem getLsbD_leWord {w : ℕ} (f : ℕ → Byte) {j : ℕ} (h : j < w) :
    (leWord w f).getLsbD j = (f (j / 8)).getLsbD (j % 8) := by
  rw [leWord, BitVec.getLsbD_ofFnLE, dif_pos h]

/-- `srli_epi16`: each 16-bit word of the register shifted right by `imm` bits. -/
def srliEpi16 (v : Reg n) (imm : ℕ) : Reg n :=
  ofLanes n fun i => byteOf (leWord 16 (fun k => lane v (2 * (i / 2) + k)) >>> imm) (i % 2)

/-- `movemask_epi8`: bit `i` of the integer is the top bit of lane `i`. -/
def movemaskEpi8 (v : Reg n) : BitVec 32 := BitVec.ofFnLE fun i => (lane v i).msb

/-- `reduce_or_epi32`: the 32-bit words of the register, or-ed together. -/
def reduceOrEpi32 (v : Reg n) : BitVec 32 :=
  (List.range (n / 4)).foldl (fun acc k => acc ||| leWord 32 fun j => lane v (4 * k + j)) 0

/-- The word shift by four followed by the mask `0x0F` takes the high nibble of every
byte: the mask drops the bits that came in from the neighbour. -/
theorem lane_srliEpi16_and_0F (v : Reg n) {i : ℕ} (h : i < n) :
    lane (andSi (srliEpi16 v 4) (set1Epi8 n 0x0F)) i = lane v i >>> 4 := by
  rw [lane_andSi _ _ h, lane_set1Epi8 _ h, srliEpi16, lane_ofLanes _ h]
  apply BitVec.eq_of_getLsbD_eq
  intro b hb
  rw [BitVec.getLsbD_and, BitVec.getLsbD_ushiftRight, byteOf, BitVec.getLsbD_extractLsb',
    BitVec.getLsbD_ushiftRight]
  have hmask : (0x0F : Byte).getLsbD b = decide (b < 4) := by
    interval_cases b <;> rfl
  -- Below bit 4 the shifted word has the high bits of the same byte.
  rw [hmask]
  by_cases hb4 : b < 4
  · rw [getLsbD_leWord _ (by omega)]
    have hdiv : (4 + (8 * (i % 2) + b)) / 8 = i % 2 := by omega
    have hmod : (4 + (8 * (i % 2) + b)) % 8 = 4 + b := by omega
    rw [hdiv, hmod, Nat.div_add_mod i 2]
    simp [hb, hb4]
  · have hout : 8 ≤ 4 + b := by omega
    simp [hb4, BitVec.getLsbD_of_ge _ _ hout]

/-! ### Instructions that move bytes across lanes -/

/-- `shuffle_epi8`: a table lookup in each group of 16 lanes. The low four bits of the
index select, and an index with its top bit set gives zero. -/
def shuffleEpi8 (table idx : Reg n) : Reg n :=
  ofLanes n fun i =>
    if (lane idx i).msb then 0
    else lane table (16 * (i / 16) + (lane idx i).toNat % 16)

/-- `alignr_epi8`: in each group of 16 lanes, `a` above `b` shifted right by `imm` bytes. -/
def alignrEpi8 (a b : Reg n) (imm : ℕ) : Reg n :=
  ofLanes n fun i =>
    let base := 16 * (i / 16)
    let k := i % 16 + imm
    if k < 16 then lane b (base + k)
    else if k < 32 then lane a (base + (k - 16))
    else 0

/-- `permute2x128`: each half of the result is one of the four halves of `a` and `b`,
selected by two bits of `imm`, or zero when the third bit above them is set. -/
def permute2x128 (a b : Reg 32) (imm : BitVec 8) : Reg 32 :=
  ofLanes 32 fun i =>
    let control := if i < 16 then imm.extractLsb' 0 4 else imm.extractLsb' 4 4
    if control.getLsbD 3 then 0
    else match (control.extractLsb' 0 2).toNat with
      | 0 => lane a (i % 16)
      | 1 => lane a (16 + i % 16)
      | 2 => lane b (i % 16)
      | _ => lane b (16 + i % 16)

/-- A table lookup by an index below 16. -/
theorem lane_shuffleEpi8 (table idx : Reg n) {i : ℕ} (h : i < n)
    (hidx : (lane idx i).toNat < 16) :
    lane (shuffleEpi8 table idx) i = lane table (16 * (i / 16) + (lane idx i).toNat) := by
  rw [shuffleEpi8, lane_ofLanes _ h]
  have hmsb : (lane idx i).msb = false := by
    rw [BitVec.msb_eq_false_iff_two_mul_lt]
    omega
  rw [hmsb, if_neg Bool.false_ne_true, Nat.mod_eq_of_lt hidx]

/-- The one-byte lookback of a 16-lane register. -/
theorem lane_alignrEpi8_15 (a b : Reg 16) {i : ℕ} (h : i < 16) :
    lane (alignrEpi8 a b (16 - 1)) i = delay (lane b 15) (lane a) i := by
  rw [alignrEpi8, lane_ofLanes _ h]
  cases i with
  | zero => rfl
  | succ i =>
      have hbase : (i + 1) / 16 = 0 := by omega
      have hk : (i + 1) % 16 + (16 - 1) = 16 + i := by omega
      simp only [hbase, hk, delay_succ]
      rw [if_neg (by omega), if_pos (by omega)]
      congr 1
      omega

/-- The two-byte lookback of a 16-lane register. -/
theorem lane_alignrEpi8_14 (a b : Reg 16) {i : ℕ} (h : i < 16) :
    lane (alignrEpi8 a b (16 - 2)) i = delay (lane b 14) (delay (lane b 15) (lane a)) i := by
  rw [alignrEpi8, lane_ofLanes _ h]
  match i, h with
  | 0, _ => rfl
  | 1, _ => rfl
  | i + 2, h =>
      have hbase : (i + 2) / 16 = 0 := by omega
      have hk : (i + 2) % 16 + (16 - 2) = 16 + i := by omega
      simp only [hbase, hk, delay_succ]
      rw [if_neg (by omega), if_pos (by omega)]
      congr 1
      omega

/-- `permute2x128` with `0x21`: the high half of `a`, then the low half of `b`. -/
theorem lane_permute2x128_21 (a b : Reg 32) {i : ℕ} (h : i < 32) :
    lane (permute2x128 a b 0x21) i
      = if i < 16 then lane a (16 + i) else lane b (i - 16) := by
  rw [permute2x128, lane_ofLanes _ h]
  by_cases hi : i < 16
  · have hmod : i % 16 = i := by omega
    simp only [hi, if_true, hmod]
    rfl
  · have hmod : i % 16 = i - 16 := by omega
    simp only [hi, if_false, hmod]
    rfl

/-- The one-byte lookback of a 32-lane register: the permuted register supplies the byte
before each half. -/
theorem lane_alignrEpi8_permute_15 (a b : Reg 32) {i : ℕ} (h : i < 32) :
    lane (alignrEpi8 b (permute2x128 a b 0x21) 15) i = delay (lane a 31) (lane b) i := by
  rw [alignrEpi8, lane_ofLanes _ h]
  cases i with
  | zero => exact lane_permute2x128_21 a b (by omega)
  | succ i =>
      by_cases hi : i + 1 = 16
      · -- Lane 16 is the first of its half, so it reads the permuted register.
        obtain rfl : i = 15 := by omega
        exact lane_permute2x128_21 a b (by omega)
      · have hk : ¬ (i + 1) % 16 + 15 < 16 := by omega
        have hk' : (i + 1) % 16 + 15 < 32 := by omega
        simp only [hk, hk', if_true, if_false, delay_succ]
        congr 1
        omega

/-- The two-byte lookback of a 32-lane register. -/
theorem lane_alignrEpi8_permute_14 (a b : Reg 32) {i : ℕ} (h : i < 32) :
    lane (alignrEpi8 b (permute2x128 a b 0x21) 14) i
      = delay (lane a 30) (delay (lane a 31) (lane b)) i := by
  rw [alignrEpi8, lane_ofLanes _ h]
  match i, h with
  | 0, _ => exact lane_permute2x128_21 a b (by omega)
  | 1, _ => exact lane_permute2x128_21 a b (by omega)
  | i + 2, h =>
      by_cases hi : i + 2 = 16 ∨ i + 2 = 17
      · -- The first two lanes of the upper half read the permuted register.
        have hk : (i + 2) % 16 + 14 < 16 := by omega
        simp only [hk, if_true, delay_succ]
        rw [lane_permute2x128_21 a b (by omega), if_neg (by omega)]
        congr 1
        omega
      · have hk : ¬ (i + 2) % 16 + 14 < 16 := by omega
        have hk' : (i + 2) % 16 + 14 < 32 := by omega
        simp only [hk, hk', if_true, if_false, delay_succ]
        congr 1
        omega

end Simd
