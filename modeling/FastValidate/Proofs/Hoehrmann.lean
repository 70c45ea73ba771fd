import FastValidate.Code.Hoehrmann
import FastValidate.Proofs.SimdUtf8Check

/-!
# `FastValidate.Proofs.Hoehrmann`: the table-driven validators

Both tables implement `utf8Machine`, the second with its states multiplied by sixteen. So a
validator accepts the prefixes of well-formed strings, whether it stops at the first reject
or runs to the end. One NUL byte behind a string closes the gap to the block checkers: a NUL
byte is accepted between two sequences only.
-/

set_option autoImplicit false

namespace FastValidate.Proofs

open Simd Memory Loops
open Automata
open FastValidate.Spec
open FastValidate.Code

/-! ### The tables -/

/-- The number of a state in the table. State 1 is the reject state. -/
def stateNumber : State → ℕ
  | .start => 0
  | .tail1 => 2
  | .tail2 => 3
  | .afterE0 => 4
  | .afterED => 5
  | .afterF0 => 6
  | .tail3 => 7
  | .afterF4 => 8

/-- The class of a byte, by ranges. -/
def byteClass (b : Byte) : ℕ :=
  if b ≤ 0x7F then 0
  else if b ≤ 0x8F then 1
  else if b ≤ 0x9F then 9
  else if b ≤ 0xBF then 7
  else if b ≤ 0xC1 then 8
  else if b ≤ 0xDF then 2
  else if b = 0xE0 then 10
  else if b = 0xED then 4
  else if b ≤ 0xEF then 3
  else if b = 0xF0 then 11
  else if b ≤ 0xF3 then 6
  else if b = 0xF4 then 5
  else 8

/-- The classes of the table are `byteClass`. -/
theorem utf8d_getD (b : Byte) : utf8d.getD b.toNat 0 = byteClass b := by
  -- The table is compared with `byteClass` once, entry by entry.
  have htable : utf8d = (List.range 256).map fun i => byteClass (BitVec.ofNat 8 i) := by
    decide +kernel
  have hrange : (List.range 256)[b.toNat]? = some b.toNat := List.getElem?_range b.isLt
  rw [htable, List.getD_eq_getElem?_getD, List.getElem?_map, hrange]
  show byteClass (BitVec.ofNat 8 b.toNat) = byteClass b
  rw [BitVec.ofNat_toNat, BitVec.setWidth_eq]

/-- There are twelve classes. -/
theorem byteClass_lt (b : Byte) : byteClass b < 12 := by
  revert b
  decide +kernel

/-- A byte of each class. -/
def representative (k : ℕ) : Byte :=
  [0x00, 0x80, 0xC2, 0xE1, 0xED, 0xF4, 0xF1, 0xA0, 0xC0, 0x90, 0xE0, 0xF0].getD k 0

/-- The machine does not tell the bytes of a class apart. -/
theorem step_representative (q : State) :
    ∀ b, utf8Machine.step q (representative (byteClass b)) = utf8Machine.step q b := by
  cases q <;> decide +kernel

/-- `updatestate` runs `utf8Machine` on the numbers of its states. -/
theorem implements_updatestate :
    utf8Machine.Implements updatestate UTF8_REJECT stateNumber where
  step q b := by
    -- One row of the table for each state.
    have hrow : ∀ k < 12, utf8dTransition.getD (16 * stateNumber q + k) 0
        = ((utf8Machine.step q (representative k)).map stateNumber).getD UTF8_REJECT := by
      cases q <;> decide +kernel
    rw [updatestate, utf8d_getD, hrow _ (byteClass_lt b), step_representative]
  dead b := by
    have hrow : ∀ k < 12, utf8dTransition.getD (16 * UTF8_REJECT + k) 0 = UTF8_REJECT := by
      decide +kernel
    rw [updatestate, utf8d_getD, hrow _ (byteClass_lt b)]
  num_ne q := by cases q <;> decide

/-- `shiftless_updatestate` runs it on these numbers multiplied by sixteen. -/
theorem implements_shiftlessUpdatestate :
    utf8Machine.Implements shiftlessUpdatestate SHIFTLESS_UTF8_REJECT
      (fun q => 16 * stateNumber q) where
  step q b := by
    have hrow : ∀ k < 12, shiftedUtf8dTransition.getD (16 * stateNumber q + k) 0
        = ((utf8Machine.step q (representative k)).map fun q => 16 * stateNumber q).getD
            SHIFTLESS_UTF8_REJECT := by
      cases q <;> decide +kernel
    rw [shiftlessUpdatestate, utf8d_getD, hrow _ (byteClass_lt b), step_representative]
  dead b := by
    have hrow : ∀ k < 12, shiftedUtf8dTransition.getD (SHIFTLESS_UTF8_REJECT + k) 0
        = SHIFTLESS_UTF8_REJECT := by
      decide +kernel
    rw [shiftlessUpdatestate, utf8d_getD, hrow _ (byteClass_lt b)]
  num_ne q := by cases q <;> decide

/-! ### The validators -/

section Dfa

variable {update : ℕ → Byte → ℕ} {reject : ℕ} {num : State → ℕ}

/-- The run to the end accepts the prefixes of well-formed strings. -/
theorem branchless_eq_true_iff (h : utf8Machine.Implements update reject num)
    (hstart : num .start = 0) (c : Ptr) (len : ℕ) :
    Dfa.branchless update reject c len = true ↔ IsPrefix (slice c len) := by
  -- The code starts at state 0, which is the number of `start`.
  rw [Dfa.branchless, forLt_foldl update, ← hstart]
  show ((slice c len).foldl update (num .start) != reject) = true ↔ _
  rw [bne_iff_ne, h.foldl_ne_iff]
  exact isSome_run_utf8Machine_iff (slice c len)

/-- The run to the first reject accepts the same strings. -/
theorem earlyExit_eq_true_iff (h : utf8Machine.Implements update reject num)
    (hstart : num .start = 0) (c : Ptr) (len : ℕ) :
    Dfa.earlyExit update reject c len = true ↔ IsPrefix (slice c len) := by
  have hloop := forLtM_foldlM
    (fun s b => if update s b = reject then none else some (update s b)) c len 0
  show (forLtM len _ 0 0).isSome ↔ _
  rw [hloop, ← hstart, h.foldlM_isSome_iff]
  exact isSome_run_utf8Machine_iff (slice c len)

end Dfa

/-- A validator that accepts the prefixes of well-formed strings. -/
def AcceptsPrefixes (validate : Ptr → ℕ → Bool) : Prop :=
  ∀ src len, validate src len = true ↔ IsPrefix (slice src len)

/-- Over a string and one NUL byte, such a validator is `validate_utf8_fast` over the
string. -/
theorem AcceptsPrefixes.nulTerminated {validate : Ptr → ℕ → Bool}
    (h : AcceptsPrefixes validate) (src : Ptr) (len : ℕ) :
    validate (nulTerminated src len) (len + 1) = validateUtf8Fast src len := by
  have hfast := acceptsWellFormed_validateUtf8Fast src len
  have hfront := h (Memory.nulTerminated src len) (len + 1)
  rw [slice_nulTerminated, isPrefix_concat_zero_iff] at hfront
  exact Bool.eq_iff_iff.mpr (hfront.trans hfast.symm)

/-- `validate_dfa_utf8_branchless` accepts the prefixes. -/
theorem acceptsPrefixes_branchless : AcceptsPrefixes validateDfaUtf8Branchless :=
  branchless_eq_true_iff implements_updatestate rfl

/-- `shiftless_validate_dfa_utf8_branchless` accepts the prefixes. -/
theorem acceptsPrefixes_shiftlessBranchless :
    AcceptsPrefixes shiftlessValidateDfaUtf8Branchless :=
  branchless_eq_true_iff implements_shiftlessUpdatestate rfl

/-- `validate_dfa_utf8` accepts the prefixes. -/
theorem acceptsPrefixes_earlyExit : AcceptsPrefixes validateDfaUtf8 :=
  earlyExit_eq_true_iff implements_updatestate rfl

/-- `shiftless_validate_dfa_utf8` accepts the prefixes. -/
theorem acceptsPrefixes_shiftlessEarlyExit : AcceptsPrefixes shiftlessValidateDfaUtf8 :=
  earlyExit_eq_true_iff implements_shiftlessUpdatestate rfl

/-- The four table-driven validators accept the prefixes of well-formed strings, and over a
string and one NUL byte they give the verdict of `validate_utf8_fast` over the string. -/
theorem dfaValidators_correct (src : Ptr) (len : ℕ) :
    ((validateDfaUtf8 src len = true ↔ IsPrefix (slice src len)) ∧
      (validateDfaUtf8Branchless src len = true ↔ IsPrefix (slice src len)) ∧
      (shiftlessValidateDfaUtf8 src len = true ↔ IsPrefix (slice src len)) ∧
      (shiftlessValidateDfaUtf8Branchless src len = true ↔ IsPrefix (slice src len))) ∧
    validateDfaUtf8 (nulTerminated src len) (len + 1) = validateUtf8Fast src len ∧
    validateDfaUtf8Branchless (nulTerminated src len) (len + 1) = validateUtf8Fast src len ∧
    shiftlessValidateDfaUtf8 (nulTerminated src len) (len + 1) = validateUtf8Fast src len ∧
    shiftlessValidateDfaUtf8Branchless (nulTerminated src len) (len + 1)
      = validateUtf8Fast src len := by
  refine ⟨⟨?_, ?_, ?_, ?_⟩, ?_, ?_, ?_, ?_⟩
  · exact acceptsPrefixes_earlyExit src len
  · exact acceptsPrefixes_branchless src len
  · exact acceptsPrefixes_shiftlessEarlyExit src len
  · exact acceptsPrefixes_shiftlessBranchless src len
  · exact acceptsPrefixes_earlyExit.nulTerminated src len
  · exact acceptsPrefixes_branchless.nulTerminated src len
  · exact acceptsPrefixes_shiftlessEarlyExit.nulTerminated src len
  · exact acceptsPrefixes_shiftlessBranchless.nulTerminated src len

end FastValidate.Proofs
