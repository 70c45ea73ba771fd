import FastValidate.Proofs.Shape

/-!
# `FastValidate.Proofs.SimdUtf8Check`: the SSE and AVX2 validators

The lookbacks of both widths are `Lookback`s, their tables repeat the sixteen entries of
`Bytes`, and their block steps are `blockStep` at these values. So the steps follow
`lateMachine` (`follows_checkUTF8Bytes`, `follows_avxcheckUTF8Bytes`) and the validators
accept exactly the well-formed strings.

After each block the SSE step has no error exactly when the bytes so far are a prefix of a
well-formed string, or a well-formed string and one byte `C0` or `C1`.
-/

set_option autoImplicit false

namespace FastValidate.Proofs

open Simd Memory
open FastValidate.Spec
open FastValidate.Code

/-! ### SSE -/

/-- The lookbacks of the SSE version. -/
theorem lookback_alignrEpi8 :
    Lookback (fun a b : Reg 16 => alignrEpi8 b a (16 - 1))
      (fun a b : Reg 16 => alignrEpi8 b a (16 - 2)) where
  one a b _ hi := lane_alignrEpi8_15 b a hi
  two a b _ hi := lane_alignrEpi8_14 b a hi

/-- A table of sixteen lanes. -/
theorem tableSpec_setrEpi8 (xs : List Byte) : TableSpec (setrEpi8 16 xs) xs where
  groups := rfl
  lanes i hi := by
    rw [lane_setrEpi8 xs hi, Nat.mod_eq_of_lt hi]

/-- The checks of the SSE version. -/
def sseChecks : Checks 16 (Reg 16) :=
  vectorChecks (setrEpi8 16 initialMinTable) (setrEpi8 16 secondMinTable)

/-- The checks of the SSE version. -/
theorem checksSpec_sse : ChecksSpec IsZero sseChecks :=
  checksSpec_vector (tableSpec_setrEpi8 _) (tableSpec_setrEpi8 _)

/-- The step is `blockStep` with the function calls unfolded. -/
theorem checkUTF8Bytes_eq_blockStep :
    checkUTF8Bytes = blockStep (fun a b : Reg 16 => alignrEpi8 b a (16 - 1))
      (fun a b => alignrEpi8 b a (16 - 2)) (setrEpi8 16 lengthTable) sseChecks := rfl

/-- The SSE step keeps the invariant of the blocks. -/
theorem follows_checkUTF8Bytes : Follows IsZero checkUTF8Bytes := by
  rw [checkUTF8Bytes_eq_blockStep]
  exact follows_blockStep (by omega) lookback_alignrEpi8 (tableSpec_setrEpi8 _)
    checksSpec_sse

/-- At a boundary only the last carry can be above its bound in the SSE threshold. -/
theorem thresholdSpec_carryThreshold : ThresholdSpec IsZero carryThreshold :=
  thresholdSpec_vector (by omega) (by decide)

/-- `validate_utf8_fast` is exact. -/
theorem acceptsWellFormed_validateUtf8Fast : AcceptsWellFormed validateUtf8Fast := by
  show AcceptsWellFormed (Shape.validate checkUTF8Bytes checkUTF8Bytes carryThreshold
    (setzero 16) fun hasError => testz hasError hasError)
  exact acceptsWellFormed_validate (by omega) follows_checkUTF8Bytes follows_checkUTF8Bytes
    thresholdSpec_carryThreshold isZero_setzero testz_self

/-- The SSE validator accepts exactly the well-formed strings, whatever their length. -/
theorem validateUtf8Fast_iff_wellFormed (src : Ptr) (len : ℕ) :
    validateUtf8Fast src len = true ↔ WellFormed (slice src len) :=
  acceptsWellFormed_validateUtf8Fast src len

/-- The registers and the errors of the SSE step after a sequence of blocks. -/
def runCheckUTF8Bytes (blocks : List (Reg 16)) : ProcessedUtfBytes 16 × Reg 16 :=
  foldBlocks checkUTF8Bytes (setzero 16) blocks

/-- The bytes of one block more. The last of them is in lane 15. -/
theorem bytesOf_concat (blocks : List (Reg 16)) (cur : Reg 16) :
    bytesOf (blocks ++ [cur])
      = bytesOf blocks ++ (List.range 15).map (lane cur) ++ [lane cur 15] := by
  have hcur : cur.toList = (List.range 15).map (lane cur) ++ [lane cur 15] := by
    rw [toList_eq_map_lane, List.range_succ, List.map_append, List.map_singleton]
  rw [bytesOf, List.flatMap_append, List.flatMap_singleton, hcur, List.append_assoc]
  rfl

/-- The errors after any blocks, exactly. -/
theorem isZero_runCheckUTF8Bytes (blocks : List (Reg 16)) :
    IsZero (runCheckUTF8Bytes blocks).2 ↔ IsPrefix (bytesOf blocks) ∨
      ∃ u b, bytesOf blocks = u ++ [b] ∧ WellFormed u ∧ (b = 0xC0 ∨ b = 0xC1) := by
  have hrun := describes_foldBlocks follows_checkUTF8Bytes (by omega) isZero_setzero blocks
  exact hrun.clean_iff.trans (isSome_run_lateMachine_iff (bytesOf blocks))

/-- After each block there is no error exactly when the bytes so far are a prefix of a
well-formed string, or a well-formed string and one byte `C0` or `C1`. So a block with the
first offending byte has an error, unless that byte is a lead `C0` or `C1` in lane 15. -/
theorem runCheckUTF8Bytes_errors (blocks : List (Reg 16)) :
    (IsZero (runCheckUTF8Bytes blocks).2 ↔ IsPrefix (bytesOf blocks) ∨
      ∃ u b, bytesOf blocks = u ++ [b] ∧ WellFormed u ∧ (b = 0xC0 ∨ b = 0xC1)) ∧
    ∀ cur : Reg 16,
      IsPrefix (bytesOf blocks) ∧ ¬ IsPrefix (bytesOf (blocks ++ [cur])) ∧
          IsZero (runCheckUTF8Bytes (blocks ++ [cur])).2
        ↔ ∃ u, bytesOf (blocks ++ [cur]) = u ++ [lane cur 15] ∧ WellFormed u ∧
            (lane cur 15 = 0xC0 ∨ lane cur 15 = 0xC1) := by
  refine ⟨isZero_runCheckUTF8Bytes blocks, fun cur => ?_⟩
  rw [isZero_runCheckUTF8Bytes, bytesOf_concat]
  constructor
  · rintro ⟨-, hbad, hfront | ⟨u, b, hub, hu, hb⟩⟩
    · exact absurd hfront hbad
    · -- The last byte of the text is lane 15 of the block.
      obtain ⟨hleft, hlane⟩ := List.append_inj' hub rfl
      obtain rfl : lane cur 15 = b := by simpa using hlane
      exact ⟨u, by rw [hleft], hu, hb⟩
  · rintro ⟨u, hub, hu, hb⟩
    obtain ⟨rfl, -⟩ := List.append_inj' hub rfl
    -- The blocks before are the front of a well-formed string.
    have hbefore : IsPrefix (bytesOf blocks) :=
      IsPrefix.left (isPrefix_of_wellFormed hu)
    have hbad := not_isPrefix_concat_overlongLead hu hb
    exact ⟨hbefore, hbad, .inr ⟨_, _, rfl, hu, hb⟩⟩

/-! ### AVX2 -/

/-- The lookbacks of the AVX2 version cross the middle of the register. -/
theorem lookback_pushLastBytes : Lookback pushLastByteOfAToB pushLast2BytesOfAToB where
  one a b _ hi := lane_alignrEpi8_permute_15 a b hi
  two a b _ hi := lane_alignrEpi8_permute_14 a b hi

/-- A table of sixteen entries written twice. -/
theorem tableSpec_setrEpi8_append {xs : List Byte} (hxs : xs.length = 16) :
    TableSpec (setrEpi8 32 (xs ++ xs)) xs where
  groups := rfl
  lanes i hi := by
    rw [lane_setrEpi8 _ hi]
    by_cases h : i < 16
    · rw [List.getD_append _ _ _ _ (by omega), Nat.mod_eq_of_lt h]
    · have hmod : i % 16 = i - 16 := by omega
      rw [List.getD_append_right _ _ _ _ (by omega), hxs, hmod]

/-- The checks of the AVX2 version. Each of its tables is the SSE table twice. -/
def avxChecks : Checks 32 (Reg 32) :=
  vectorChecks (setrEpi8 32 (initialMinTable ++ initialMinTable))
    (setrEpi8 32 (secondMinTable ++ secondMinTable))

/-- The checks of the AVX2 version, with each table written twice. -/
theorem checksSpec_avx : ChecksSpec IsZero avxChecks :=
  checksSpec_vector (tableSpec_setrEpi8_append rfl) (tableSpec_setrEpi8_append rfl)

/-- The AVX2 step has the common shape. -/
theorem avxcheckUTF8Bytes_eq_blockStep :
    avxcheckUTF8Bytes = blockStep pushLastByteOfAToB pushLast2BytesOfAToB
      (setrEpi8 32 (lengthTable ++ lengthTable)) avxChecks := rfl

/-- The AVX2 step keeps the invariant of the blocks. -/
theorem follows_avxcheckUTF8Bytes : Follows IsZero avxcheckUTF8Bytes := by
  rw [avxcheckUTF8Bytes_eq_blockStep]
  exact follows_blockStep (by omega) lookback_pushLastBytes
    (tableSpec_setrEpi8_append rfl) checksSpec_avx

/-- So it is for the AVX2 threshold. -/
theorem thresholdSpec_avxCarryThreshold : ThresholdSpec IsZero avxCarryThreshold :=
  thresholdSpec_vector (by omega) (by decide)

/-- `validate_utf8_fast_avx` is exact. -/
theorem acceptsWellFormed_validateUtf8FastAvx : AcceptsWellFormed validateUtf8FastAvx := by
  show AcceptsWellFormed (Shape.validate avxcheckUTF8Bytes avxcheckUTF8Bytes
    avxCarryThreshold (setzero 32) fun hasError => testz hasError hasError)
  exact acceptsWellFormed_validate (by omega) follows_avxcheckUTF8Bytes
    follows_avxcheckUTF8Bytes thresholdSpec_avxCarryThreshold isZero_setzero testz_self

/-- The AVX2 validator accepts exactly the well-formed strings, whatever their length. -/
theorem validateUtf8FastAvx_iff_wellFormed (src : Ptr) (len : ℕ) :
    validateUtf8FastAvx src len = true ↔ WellFormed (slice src len) :=
  acceptsWellFormed_validateUtf8FastAvx src len

end FastValidate.Proofs
