import FastValidate.Proofs.AsciiPath

/-!
# `FastValidate.Proofs.Streams`: any schedule of the two steps

At AVX2 and AVX-512 a block may go through the plain step or through the ASCII path, and a
caller may choose for each block. The registers differ after different choices, but they
are at the same boundary (`describes_foldSchedule`). So the errors after a schedule, and the
verdict of the carry threshold behind it, depend on the bytes of the blocks alone, and not on
the choices or on the width.
-/

set_option autoImplicit false

namespace FastValidate.Proofs

open Simd
open Automata
open FastValidate.Spec
open FastValidate.Code

variable {n : ℕ}

/-- The registers and the errors after blocks that went through `fast` or through `plain`. -/
def foldSchedule {ε : Type}
    (plain fast : Reg n → ProcessedUtfBytes n → ε → ProcessedUtfBytes n × ε) (noError : ε)
    (schedule : List (Bool × Reg n)) : ProcessedUtfBytes n × ε :=
  schedule.foldl (fun s x => if x.1 then fast x.2 s.1 s.2 else plain x.2 s.1 s.2)
    (.zero n, noError)

/-- The bytes of the blocks. -/
def scheduleBytes (schedule : List (Bool × Reg n)) : List Byte :=
  bytesOf (schedule.map Prod.snd)

/-- The bytes of one more block. -/
theorem scheduleBytes_concat (schedule : List (Bool × Reg n)) (x : Bool × Reg n) :
    scheduleBytes (schedule ++ [x]) = scheduleBytes schedule ++ x.2.toList := by
  simp [scheduleBytes, bytesOf]

/-- The texts in which a block step sees no error: the prefixes of well-formed strings, and
the well-formed strings with one byte `C0` or `C1` behind them. -/
def Unrefused (t : List Byte) : Prop :=
  IsPrefix t ∨ ∃ u b, t = u ++ [b] ∧ WellFormed u ∧ (b = 0xC0 ∨ b = 0xC1)

section Schedule

variable {ε : Type} {clean : ε → Prop}
  {plain fast : Reg n → ProcessedUtfBytes n → ε → ProcessedUtfBytes n × ε}
  {threshold : ProcessedUtfBytes n → ε → ε} {noError : ε}

/-- One more block is one more step, of the kind that the schedule says. -/
theorem foldSchedule_concat (schedule : List (Bool × Reg n)) (x : Bool × Reg n) :
    foldSchedule plain fast noError (schedule ++ [x])
      = if x.1 then
          fast x.2 (foldSchedule plain fast noError schedule).1
            (foldSchedule plain fast noError schedule).2
        else
          plain x.2 (foldSchedule plain fast noError schedule).1
            (foldSchedule plain fast noError schedule).2 := by
  simp only [foldSchedule, List.foldl_append, List.foldl_cons, List.foldl_nil]

/-- The run lemma: the invariant of a run holds after any schedule. -/
theorem describes_foldSchedule (hplain : Follows clean plain) (hfast : Follows clean fast)
    (hn : 2 ≤ n) (hno : clean noError) (schedule : List (Bool × Reg n)) :
    Describes clean (scheduleBytes schedule) (foldSchedule plain fast noError schedule) := by
  induction schedule using List.reverseRecOn with
  | nil => exact describes_nil hn hno
  | append_singleton schedule x ih =>
      rw [scheduleBytes_concat, foldSchedule_concat]
      cases x.1 with
      | false => exact ih.next hplain x.2
      | true => exact ih.next hfast x.2

/-- A schedule leaves no error when its bytes are not refused. -/
theorem clean_foldSchedule_iff (hplain : Follows clean plain) (hfast : Follows clean fast)
    (hn : 2 ≤ n) (hno : clean noError) (schedule : List (Bool × Reg n)) :
    clean (foldSchedule plain fast noError schedule).2 ↔ Unrefused (scheduleBytes schedule) :=
  (describes_foldSchedule hplain hfast hn hno schedule).clean_iff.trans
    (isSome_run_lateMachine_iff (scheduleBytes schedule))

/-- The threshold behind a schedule finds no error when its bytes are well formed. -/
theorem clean_threshold_foldSchedule_iff (hplain : Follows clean plain)
    (hfast : Follows clean fast) (hthr : ThresholdSpec clean threshold) (hn : 2 ≤ n)
    (hno : clean noError) (schedule : List (Bool × Reg n)) :
    clean (threshold (foldSchedule plain fast noError schedule).1
        (foldSchedule plain fast noError schedule).2)
      ↔ WellFormed (scheduleBytes schedule) :=
  (describes_foldSchedule hplain hfast hn hno schedule).clean_threshold hthr

end Schedule

/-- After any schedule of the plain step and the ASCII path, at both widths: there is no
error exactly when the bytes so far are a prefix of a well-formed string, or a well-formed
string and one byte `C0` or `C1`; and the carry threshold behind the schedule finds no error
exactly when the bytes are well formed. -/
theorem schedules_errors :
    (∀ schedule : List (Bool × Reg 32),
      (IsZero (foldSchedule avxcheckUTF8Bytes avxcheckUTF8BytesAsciipath (setzero 32)
          schedule).2 ↔ Unrefused (scheduleBytes schedule)) ∧
      (IsZero (avxCarryThreshold
          (foldSchedule avxcheckUTF8Bytes avxcheckUTF8BytesAsciipath (setzero 32) schedule).1
          (foldSchedule avxcheckUTF8Bytes avxcheckUTF8BytesAsciipath (setzero 32) schedule).2)
        ↔ WellFormed (scheduleBytes schedule))) ∧
    ∀ schedule : List (Bool × Reg 64),
      ((foldSchedule avx512CheckUTF8Bytes avx512CheckUTF8BytesAsciipath 0 schedule).2 = 0
        ↔ Unrefused (scheduleBytes schedule)) ∧
      (avx512CarryThreshold
          (foldSchedule avx512CheckUTF8Bytes avx512CheckUTF8BytesAsciipath 0 schedule).1
          (foldSchedule avx512CheckUTF8Bytes avx512CheckUTF8BytesAsciipath 0 schedule).2 = 0
        ↔ WellFormed (scheduleBytes schedule)) := by
  refine ⟨fun schedule => ⟨?_, ?_⟩, fun schedule => ⟨?_, ?_⟩⟩
  · exact clean_foldSchedule_iff follows_avxcheckUTF8Bytes follows_avxcheckUTF8BytesAsciipath
      (by omega) isZero_setzero schedule
  · exact clean_threshold_foldSchedule_iff follows_avxcheckUTF8Bytes
      follows_avxcheckUTF8BytesAsciipath thresholdSpec_avxCarryThreshold (by omega)
      isZero_setzero schedule
  · exact clean_foldSchedule_iff (ε := BitVec 64) follows_avx512CheckUTF8Bytes
      follows_avx512CheckUTF8BytesAsciipath (by omega) rfl schedule
  · exact clean_threshold_foldSchedule_iff (ε := BitVec 64) follows_avx512CheckUTF8Bytes
      follows_avx512CheckUTF8BytesAsciipath
      thresholdSpec_avx512CarryThreshold (by omega) rfl schedule

end FastValidate.Proofs
