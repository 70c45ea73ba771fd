import FastValidate.Proofs.Hoehrmann
import FastValidate.Proofs.Streams

/-!
# `FastValidate.Proofs.HandOver`: from the registers to the state of the tables

The block checkers keep three registers between two blocks, and the table-driven validators
keep one number. The registers determine the number: the last carry says how many bytes are
owed, and the last byte says which of the states that owe so many it is (`dfaState`).

So the table-driven validators refine to the block checkers at every block boundary
(`registers_handOver`), whatever schedule of steps led there.
-/

set_option autoImplicit false

namespace FastValidate.Proofs

open Simd
open Automata
open FastValidate.Spec
open FastValidate.Code

variable {n : ℕ}

/-- Where a string stands after the byte `b`, with `owed` continuation bytes to come. -/
def seenAfter (owed : ℕ) (b : Byte) : Seen :=
  if owed = 0 then .valid .start
  else if owed = 1 then
    if b = 0xC0 ∨ b = 0xC1 then .overlongLead else .valid .tail1
  else if owed = 2 then
    if b = 0xE0 then .valid .afterE0
    else if b = 0xED then .valid .afterED
    else .valid .tail2
  else
    if b = 0xF0 then .valid .afterF0
    else if b = 0xF4 then .valid .afterF4
    else .valid .tail3

/-- The last byte and the number of bytes owed leave one state. -/
theorem seenAfter_need (v : Seen) : ∀ b, Sees v b → seenAfter v.need b = v := by
  cases v with
  | valid q => cases q <;> decide +kernel
  | overlongLead => decide +kernel

/-- At a block boundary the registers determine the state of `lateMachine`. -/
theorem AtBoundary.seenAfter_eq {v : Seen} {p : ProcessedUtfBytes n} (h : AtBoundary v p) :
    seenAfter (lastCarry p - 1) (lastByte p) = v := by
  rw [h.carry.last]
  exact seenAfter_need v (lastByte p) h.sees

/-- The number of a state of `lateMachine`. The tables refuse a lead `C0` or `C1` at once. -/
def seenNumber : Seen → ℕ
  | .valid q => stateNumber q
  | .overlongLead => UTF8_REJECT

/-- The state of the table that the registers stand for. -/
def dfaState (p : ProcessedUtfBytes n) : ℕ :=
  seenNumber (seenAfter (lastCarry p - 1) (lastByte p))

/-! ### The tables against `lateMachine` -/

/-- A table with its states multiplied by `scale` runs as `lateMachine` does, but for the
state after a lead `C0` or `C1`. -/
theorem foldl_eq_seenNumber {update : ℕ → Byte → ℕ} (scale : ℕ)
    (h : utf8Machine.Implements update (scale * UTF8_REJECT) fun q => scale * stateNumber q)
    (t : List Byte) :
    t.foldl update (scale * UTF8_ACCEPT)
      = scale * ((lateMachine.run (.valid .start) t).map seenNumber).getD UTF8_REJECT := by
  have hrun := h.foldl .start t
  change t.foldl update (scale * UTF8_ACCEPT) = _ at hrun
  rw [hrun]
  have hvalid := run_lateMachine_eq_valid_iff t
  -- Where `utf8Machine` has a state, it is the state of `lateMachine`.
  have hnone : (∀ q, lateMachine.run (.valid .start) t ≠ some (.valid q)) →
      utf8Machine.run .start t = none := by
    intro hne
    rw [Option.eq_none_iff_forall_ne_some]
    intro q hq
    exact hne q ((hvalid q).mpr hq)
  cases hlate : lateMachine.run (.valid .start) t with
  | none =>
      rw [hnone fun q => by simp [hlate]]
      rfl
  | some v =>
      cases v with
      | valid q =>
          rw [(hvalid q).mp hlate]
          rfl
      | overlongLead =>
          rw [hnone fun q => by simp [hlate]]
          rfl

/-! ### The registers against the tables -/

/-- The registers `p` after the bytes `t`, where `clean` says that there is no error, against
both tables after the same bytes. -/
structure HandsOver (clean : Prop) (p : ProcessedUtfBytes n) (t : List Byte) : Prop where
  state : clean → t.foldl updatestate UTF8_ACCEPT = dfaState p
  shiftless : clean → t.foldl shiftlessUpdatestate UTF8_ACCEPT = 16 * dfaState p
  error : ¬ clean → t.foldl updatestate UTF8_ACCEPT = UTF8_REJECT ∧
    t.foldl shiftlessUpdatestate UTF8_ACCEPT = SHIFTLESS_UTF8_REJECT

/-- The state of the table, from the state of `lateMachine`. -/
theorem foldl_updatestate (t : List Byte) :
    t.foldl updatestate UTF8_ACCEPT
      = ((lateMachine.run (.valid .start) t).map seenNumber).getD UTF8_REJECT := by
  have h : utf8Machine.Implements updatestate (1 * UTF8_REJECT) fun q => 1 * stateNumber q := by
    simpa only [Nat.one_mul] using implements_updatestate
  simpa only [Nat.one_mul] using foldl_eq_seenNumber 1 h t

/-- The same for the shiftless table. -/
theorem foldl_shiftlessUpdatestate (t : List Byte) :
    t.foldl shiftlessUpdatestate UTF8_ACCEPT
      = 16 * ((lateMachine.run (.valid .start) t).map seenNumber).getD UTF8_REJECT :=
  foldl_eq_seenNumber 16 implements_shiftlessUpdatestate t

/-- What the invariant of a run says about the tables. -/
theorem Describes.handsOver {ε : Type} {clean : ε → Prop} {t : List Byte}
    {s : ProcessedUtfBytes n × ε} (h : Describes clean t s) :
    HandsOver (clean s.2) s.1 t := by
  have hok : clean s.2 →
      ((lateMachine.run (.valid .start) t).map seenNumber).getD UTF8_REJECT
        = dfaState s.1 := by
    intro hclean
    obtain ⟨v, hv⟩ := Option.isSome_iff_exists.mp (h.clean_iff.mp hclean)
    rw [hv, dfaState, (h.boundary v hv).seenAfter_eq]
    rfl
  have herror : ¬ clean s.2 → lateMachine.run (.valid .start) t = none := by
    intro hdirty
    rwa [h.clean_iff, Option.not_isSome_iff_eq_none] at hdirty
  constructor
  · intro hclean
    rw [foldl_updatestate, hok hclean]
  · intro hclean
    rw [foldl_shiftlessUpdatestate, hok hclean]
  · -- `lateMachine` has refused the bytes, so the tables have.
    intro hdirty
    rw [foldl_updatestate, foldl_shiftlessUpdatestate, herror hdirty]
    exact ⟨rfl, rfl⟩

/-- At every block boundary, at each of the three widths and after any schedule of steps: as
long as there is no error, the tables are in the state that the registers stand for, and as
soon as there is one, they are in their reject state. -/
theorem registers_handOver :
    (∀ blocks : List (Reg 16),
      HandsOver (IsZero (foldBlocks checkUTF8Bytes (setzero 16) blocks).2)
        (foldBlocks checkUTF8Bytes (setzero 16) blocks).1 (bytesOf blocks)) ∧
    (∀ schedule : List (Bool × Reg 32),
      HandsOver
        (IsZero (foldSchedule avxcheckUTF8Bytes avxcheckUTF8BytesAsciipath (setzero 32)
          schedule).2)
        (foldSchedule avxcheckUTF8Bytes avxcheckUTF8BytesAsciipath (setzero 32) schedule).1
        (scheduleBytes schedule)) ∧
    ∀ schedule : List (Bool × Reg 64),
      HandsOver
        ((foldSchedule avx512CheckUTF8Bytes avx512CheckUTF8BytesAsciipath 0 schedule).2 = 0)
        (foldSchedule avx512CheckUTF8Bytes avx512CheckUTF8BytesAsciipath 0 schedule).1
        (scheduleBytes schedule) := by
  refine ⟨fun blocks => ?_, fun schedule => ?_, fun schedule => ?_⟩
  · exact (describes_foldBlocks follows_checkUTF8Bytes (by omega) isZero_setzero
      blocks).handsOver
  · exact (describes_foldSchedule follows_avxcheckUTF8Bytes follows_avxcheckUTF8BytesAsciipath
      (by omega) isZero_setzero schedule).handsOver
  · exact (describes_foldSchedule (ε := BitVec 64) follows_avx512CheckUTF8Bytes
      follows_avx512CheckUTF8BytesAsciipath (by omega) rfl schedule).handsOver

end FastValidate.Proofs
