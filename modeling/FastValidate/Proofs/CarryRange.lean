import FastValidate.Proofs.AsciiPath

/-!
# `FastValidate.Proofs.CarryRange`: the carries of arbitrary bytes

The carries of a block enter the next one, whatever the bytes are and whether there was an
error. `Ranged` is the invariant of the registers: the last two carries are at most 12 and
the others at most 25. A block step keeps it (`keepsRange_blockStep`), and so does the ASCII
path around it (`KeepsRange.asciiPath`), so every state of a run has it
(`KeepsRange.foldBlocks`).

From such a state no addition of the next carry computation wraps, and all signed
comparisons are comparisons of naturals (`Ranged.carryInRange`).
-/

set_option autoImplicit false

namespace FastValidate.Proofs

open Simd
open FastValidate.Code

variable {n : ℕ}

/-! ### The invariant of the registers -/

/-- The registers of any state of a run. -/
structure Ranged (p : ProcessedUtfBytes n) : Prop where
  coherent : Coherent p
  carry_le : ∀ i < n, (lane p.carriedContinuations i).toNat ≤ 25

/-- The registers before the first block are in range. -/
theorem ranged_zero (hn : 2 ≤ n) : Ranged (ProcessedUtfBytes.zero n) where
  coherent := (atBoundary_zero hn).coherent
  carry_le i hi := by
    have hsmall := (atBoundary_zero hn).small i hi
    omega

/-- One call of a block step, errors or not. -/
theorem StepSpec.ranged {cur : Reg n} {p out : ProcessedUtfBytes n} {was now : Prop}
    (h : StepSpec cur p was now out) (hn : 5 ≤ n) (hp : Ranged p) : Ranged out where
  coherent := h.coherent hn hp.coherent
  carry_le i hi := by
    rw [h.carry i hi]
    exact (carryAt_le (lengths_le cur) hp.coherent.last hp.coherent.beforeLast i).2.1

section Run

variable {ε : Type} {step : Reg n → ProcessedUtfBytes n → ε → ProcessedUtfBytes n × ε}

/-- A step whose registers stay in range. -/
def KeepsRange (step : Reg n → ProcessedUtfBytes n → ε → ProcessedUtfBytes n × ε) : Prop :=
  ∀ cur p e, Ranged p → Ranged (step cur p e).1

/-- The step lemma. -/
theorem keepsRange_blockStep {clean : ε → Prop} {checks : Checks n ε}
    {push1 push2 : Reg n → Reg n → Reg n} {lenTable : Reg n} (hn : 5 ≤ n)
    (hpush : Lookback push1 push2) (hlen : TableSpec lenTable lengthTable)
    (hchecks : ChecksSpec clean checks) :
    KeepsRange (blockStep push1 push2 lenTable checks) := by
  intro cur p e hp
  exact (blockStep_spec hpush hlen hchecks cur hp.coherent e).ranged hn hp

/-- The ASCII path returns registers that it had before. -/
theorem KeepsRange.asciiPath (h : KeepsRange step) (isAscii : Reg n → Bool)
    (threshold : ProcessedUtfBytes n → ε → ε) :
    KeepsRange fun cur p e =>
      if isAscii cur then (p, threshold p e) else step cur p e := by
  intro cur p e hp
  dsimp only
  split
  · exact hp
  · exact h cur p e hp

/-- The run lemma: the registers after any sequence of blocks. -/
theorem KeepsRange.foldBlocks (h : KeepsRange step) (hn : 2 ≤ n) (noError : ε)
    (blocks : List (Reg n)) : Ranged (foldBlocks step noError blocks).1 := by
  induction blocks using List.reverseRecOn with
  | nil => exact ranged_zero hn
  | append_singleton blocks cur ih =>
      rw [FastValidate.Proofs.foldBlocks, List.foldl_append]
      exact h cur _ _ ih

end Run

/-! ### The carry computation of the next block -/

/-- The carry computation for the lengths of a block behind the registers `p`. No addition
of bytes wraps, all lanes are in `0..127`, and the signed comparisons of the check and of
the carry threshold compare naturals. -/
structure CarryInRange (carry push1 push2 : Reg n → Reg n → Reg n) (initialLengths : Reg n)
    (p : ProcessedUtfBytes n) : Prop where
  /-- `carry` adds twice: the lengths and `right1`, then their sum and `right2`. -/
  carry_eq : carry initialLengths p.carriedContinuations
    = addEpi8 (addEpi8 initialLengths (carryRight1 push1 initialLengths p.carriedContinuations))
        (carryRight2 push1 push2 initialLengths p.carriedContinuations)
  sum_noWrap : ∀ i < n, (lane initialLengths i).toNat
    + (lane (carryRight1 push1 initialLengths p.carriedContinuations) i).toNat < 256
  sum_le : ∀ i < n,
    (lane (carrySum push1 initialLengths p.carriedContinuations) i).toNat ≤ 127
  carry_noWrap : ∀ i < n,
    (lane (carrySum push1 initialLengths p.carriedContinuations) i).toNat
      + (lane (carryRight2 push1 push2 initialLengths p.carriedContinuations) i).toNat < 256
  carry_le : ∀ i < n, (lane (carry initialLengths p.carriedContinuations) i).toNat ≤ 127
  /-- `carries > initial_lengths` -/
  over_iff : ∀ i < n,
    (lane initialLengths i).slt (lane (carry initialLengths p.carriedContinuations) i) = true
      ↔ (lane initialLengths i).toNat
          < (lane (carry initialLengths p.carriedContinuations) i).toNat
  /-- `initial_lengths > 0` -/
  positive_iff : ∀ i < n,
    (0 : Byte).slt (lane initialLengths i) = true ↔ 0 < (lane initialLengths i).toNat
  previous_le : ∀ i < n, (lane p.carriedContinuations i).toNat ≤ 127
  /-- `previous->carried_continuations > 9`, and `> 1` -/
  limit_iff : ∀ limit ∈ [(9 : Byte), 1], ∀ i < n,
    limit.slt (lane p.carriedContinuations i) = true
      ↔ limit.toNat < (lane p.carriedContinuations i).toNat

/-- Behind registers in range, the carry computation of any block is in range. -/
theorem Ranged.carryInRange {p : ProcessedUtfBytes n} (hp : Ranged p)
    {push1 push2 : Reg n → Reg n → Reg n} (hpush : Lookback push1 push2) {lens cur : Reg n}
    (hlens : ∀ i < n, (lane lens i).toNat = lengths cur i) :
    CarryInRange (Shape.carryContinuations push1 push2) push1 push2 lens p := by
  have hinput : CarryInput lens p.carriedContinuations (lengths cur) :=
    ⟨hlens, lengths_le cur, hp.coherent.last, hp.coherent.beforeLast⟩
  have hbound := carryAt_le (lengths_le cur) hp.coherent.last hp.coherent.beforeLast
  have hcarry : ∀ i < n, (lane (Shape.carryContinuations push1 push2 lens
      p.carriedContinuations) i).toNat ≤ 25 := by
    intro i hi
    rw [toNat_carryAt hpush hinput hi]
    exact (hbound i).2.1
  constructor
  · rfl
  · intro i hi
    have hsum : lengths cur i + (delay (lastCarry p) (lengths cur) i - 1) ≤ 15 :=
      (hbound i).1
    rw [hlens i hi, toNat_carryRight1 hpush hinput hi]
    exact Nat.lt_of_le_of_lt hsum (by omega)
  · intro i hi
    have hsum := (hbound i).1
    rw [toNat_carrySum hpush hinput hi]
    exact Nat.le_trans hsum (by omega)
  · intro i hi
    rw [toNat_carrySum hpush hinput hi, toNat_carryRight2 hpush hinput hi]
    exact Nat.lt_of_le_of_lt (hbound i).2.1 (by omega)
  · intro i hi
    have hle := hcarry i hi
    omega
  · intro i hi
    have hle := hcarry i hi
    have hfour := lengths_le cur i
    rw [slt_iff_toNat_lt (by rw [hlens i hi]; omega) (by omega)]
  · intro i hi
    have hfour := lengths_le cur i
    rw [slt_iff_toNat_lt (by decide) (by rw [hlens i hi]; omega)]
    rfl
  · intro i hi
    have hle := hp.carry_le i hi
    omega
  · intro limit hlimit i hi
    have hle := hp.carry_le i hi
    have hsmall : limit.toNat < 128 := by
      rcases List.mem_pair.mp hlimit with rfl | rfl <;> decide
    exact slt_iff_toNat_lt hsmall (by omega)

/-! ### The five steps -/

/-- The SSE step keeps the registers in range. -/
theorem keepsRange_checkUTF8Bytes : KeepsRange checkUTF8Bytes := by
  rw [checkUTF8Bytes_eq_blockStep]
  exact keepsRange_blockStep (by omega) lookback_alignrEpi8 (tableSpec_setrEpi8 _)
    checksSpec_sse

/-- The AVX2 step keeps the registers in range. -/
theorem keepsRange_avxcheckUTF8Bytes : KeepsRange avxcheckUTF8Bytes := by
  rw [avxcheckUTF8Bytes_eq_blockStep]
  exact keepsRange_blockStep (by omega) lookback_pushLastBytes
    (tableSpec_setrEpi8_append rfl) checksSpec_avx

/-- The AVX-512 step keeps the registers in range. -/
theorem keepsRange_avx512CheckUTF8Bytes : KeepsRange avx512CheckUTF8Bytes := by
  rw [avx512CheckUTF8Bytes_eq_blockStep]
  exact keepsRange_blockStep (by omega) lookback_avx512PushLastBytes tableSpec_avx512Lengths
    checksSpec_mask

/-- So does the AVX2 step with the ASCII path, which may leave them as they are. -/
theorem keepsRange_avxcheckUTF8BytesAsciipath : KeepsRange avxcheckUTF8BytesAsciipath := by
  rw [avxcheckUTF8BytesAsciipath_eq]
  exact keepsRange_avxcheckUTF8Bytes.asciiPath _ _

/-- So does the AVX-512 step with the ASCII path. -/
theorem keepsRange_avx512CheckUTF8BytesAsciipath :
    KeepsRange avx512CheckUTF8BytesAsciipath := by
  rw [avx512CheckUTF8BytesAsciipath_eq]
  exact keepsRange_avx512CheckUTF8Bytes.asciiPath _ _

/-- Whatever the blocks were, the carry computation of any next block is in range, for each
of the five block steps. -/
theorem carries_inRange :
    (∀ (blocks : List (Reg 16)) (cur : Reg 16),
      CarryInRange carryContinuations (fun a b => alignrEpi8 b a (16 - 1))
        (fun a b => alignrEpi8 b a (16 - 2))
        (continuationLengths (countNibbles cur (.zero 16)).highNibbles)
        (foldBlocks checkUTF8Bytes (setzero 16) blocks).1) ∧
    (∀ (blocks : List (Reg 32)) (cur : Reg 32),
      CarryInRange avxcarryContinuations pushLastByteOfAToB pushLast2BytesOfAToB
        (avxcontinuationLengths (avxCountNibbles cur (.zero 32)).highNibbles)
        (foldBlocks avxcheckUTF8Bytes (setzero 32) blocks).1) ∧
    (∀ (blocks : List (Reg 64)) (cur : Reg 64),
      CarryInRange avx512CarryContinuations avx512PushLastByteOfAToB
        avx512PushLast2BytesOfAToB
        (avx512ContinuationLengths (avx512CountNibbles cur (.zero 64)).highNibbles)
        (foldBlocks avx512CheckUTF8Bytes 0 blocks).1) ∧
    (∀ (blocks : List (Reg 32)) (cur : Reg 32),
      CarryInRange avxcarryContinuations pushLastByteOfAToB pushLast2BytesOfAToB
        (avxcontinuationLengths (avxCountNibbles cur (.zero 32)).highNibbles)
        (foldBlocks avxcheckUTF8BytesAsciipath (setzero 32) blocks).1) ∧
    ∀ (blocks : List (Reg 64)) (cur : Reg 64),
      CarryInRange avx512CarryContinuations avx512PushLastByteOfAToB
        avx512PushLast2BytesOfAToB
        (avx512ContinuationLengths (avx512CountNibbles cur (.zero 64)).highNibbles)
        (foldBlocks avx512CheckUTF8BytesAsciipath 0 blocks).1 := by
  have hdouble : TableSpec (setrEpi8 32 (lengthTable ++ lengthTable)) lengthTable :=
    tableSpec_setrEpi8_append rfl
  have hsse := toNat_lookupLengths (tableSpec_setrEpi8 lengthTable)
  have havx := toNat_lookupLengths hdouble
  have havx512 := toNat_lookupLengths tableSpec_avx512Lengths
  refine ⟨?_, ?_, ?_, ?_, ?_⟩
  · intro blocks cur
    have hreached := keepsRange_checkUTF8Bytes.foldBlocks (by omega) (setzero 16) blocks
    exact hreached.carryInRange lookback_alignrEpi8 (hsse cur)
  · intro blocks cur
    have hreached := keepsRange_avxcheckUTF8Bytes.foldBlocks (by omega) (setzero 32) blocks
    exact hreached.carryInRange lookback_pushLastBytes (havx cur)
  · intro blocks cur
    have hreached := keepsRange_avx512CheckUTF8Bytes.foldBlocks (by omega) 0 blocks
    exact hreached.carryInRange lookback_avx512PushLastBytes (havx512 cur)
  · intro blocks cur
    have hreached := keepsRange_avxcheckUTF8BytesAsciipath.foldBlocks (by omega) (setzero 32)
      blocks
    exact hreached.carryInRange lookback_pushLastBytes (havx cur)
  · intro blocks cur
    have hreached := keepsRange_avx512CheckUTF8BytesAsciipath.foldBlocks (by omega) 0 blocks
    exact hreached.carryInRange lookback_avx512PushLastBytes (havx512 cur)

end FastValidate.Proofs
