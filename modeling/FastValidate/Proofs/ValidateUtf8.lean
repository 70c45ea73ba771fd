import FastValidate.Code.Benchmark
import FastValidate.Proofs.Utf8

/-!
# `FastValidate.Proofs.ValidateUtf8`: what the scalar validator accepts

The validator was ported from signed bytes. On signed bytes `b > 0xBF` refuses every byte
that is not a trailing byte; on unsigned bytes it lets `00..7F` pass as well. So the code
reads another table: `looseSequences`, where the trailing ranges that begin at `80` begin
at `00`. `validateUtf8From_eq` computes the validator as the machine of that table, by
induction on the bytes left, and every read of the code is inside the buffer on the way.

A string of the loose table is well formed unless one of its trailing bytes is below `80`
(`LowTrail`), which gives the exact inputs on which the validator is right.
-/

set_option autoImplicit false

namespace FastValidate.Proofs

open Simd (Byte)
open Memory
open Automata
open Computability
open FastValidate.Spec
open FastValidate.Code

/-! ### The table the code reads -/

/-- A range without the lower bound `80`. -/
def loosenRange (r : ByteRange) : ByteRange := if r.lo = 0x80 then { r with lo := 0x00 } else r

/-- A row without the lower bound `80` on its trailing bytes. -/
def loosen : List ByteRange → List ByteRange
  | [] => []
  | first :: trailing => first :: trailing.map loosenRange

/-- The table with loosened rows. -/
def looseSequences : List (List ByteRange) := legalSequences.map loosen

/-- The words of the loosened table. -/
def looseSequence : Language Byte := rowLanguage ByteRange.admits looseSequences

/-- The machine of the loosened table. -/
def looseMachine : Partial Byte (List ByteRange) :=
  rowMachine ByteRange.admits looseSequences

/-- The first byte of a row is as it was. -/
theorem leads_loosen (row : List ByteRange) (b : Byte) :
    leads ByteRange.admits (loosen row) b = leads ByteRange.admits row b := by
  cases row <;> rfl

/-- No byte leads two rows of the loose table. -/
theorem unambiguous_looseSequences : Unambiguous ByteRange.admits looseSequences where
  lead row hrow row' hrow' b h h' := by
    obtain ⟨r, hr, rfl⟩ := List.mem_map.mp hrow
    obtain ⟨r', hr', rfl⟩ := List.mem_map.mp hrow'
    rw [leads_loosen] at h h'
    rw [unambiguous_legalSequences.lead r hr r' hr' b h h']
  filled := by
    have hranges : ∀ row ∈ looseSequences, row ≠ [] ∧ ∀ r ∈ row, r.lo ≤ r.hi := by decide
    exact fun row hrow => ⟨(hranges row hrow).1, fun r hr => ByteRange.exists_admits r
      ((hranges row hrow).2 r hr)⟩

/-- The loose trailing range. -/
def looseTrail : ByteRange := ⟨0x00, 0xBF⟩

/-- An ASCII byte is a sequence of its own. -/
theorem looseMachine_ascii :
    ∀ byte1 < (0x80 : Byte), looseMachine.step [] byte1 = some [] := by
  decide +kernel

/-- The range of the second byte, by the lead. -/
def secondRange (byte1 : Byte) : ByteRange where
  lo := if byte1 = 0xE0 then 0xA0 else if byte1 = 0xF0 then 0x90 else 0x00
  hi := if byte1 = 0xED then 0x9F else if byte1 = 0xF4 then 0x8F else 0xBF

/-- The bytes to come after a lead of `80` or above. -/
theorem looseMachine_lead : ∀ byte1 : Byte, ¬ byte1 < 0x80 →
    looseMachine.step [] byte1
      = if byte1 < 0xC2 then none
        else if byte1 < 0xE0 then some [looseTrail]
        else if byte1 < 0xF0 then some [secondRange byte1, looseTrail]
        else if byte1 ≤ 0xF4 then some [secondRange byte1, looseTrail, looseTrail]
        else none := by
  decide +kernel

/-- The conditions of the three-byte form on the second byte. -/
theorem admits_secondRange_three {byte1 : Byte} (hlo : ¬ byte1 < 0xE0) (hhi : byte1 < 0xF0)
    (byte2 : Byte) : (secondRange byte1).admits byte2 = true ↔
      ¬ (byte2 > 0xBF ∨ (byte1 = 0xE0 ∧ byte2 < 0xA0) ∨
        (byte1 = 0xED ∧ 0xA0 ≤ byte2)) := by
  have hF0 : byte1 ≠ 0xF0 := by
    rintro rfl
    exact absurd hhi (by decide)
  have hF4 : byte1 ≠ 0xF4 := by
    rintro rfl
    exact absurd hhi (by decide)
  rw [ByteRange.admits, decide_eq_true_iff, secondRange, if_neg hF0, if_neg hF4]
  split <;> split <;> bv_omega

/-- A 32-bit integer shifted right by 30 bits, with its sign. -/
theorem sshiftRight_30_eq_zero_iff (x : BitVec 32) :
    x.sshiftRight 30 = 0 ↔ x.toNat < 2 ^ 30 := by
  rw [← BitVec.toInt_inj, BitVec.toInt_sshiftRight, BitVec.toInt_eq_toNat_cond,
    Int.shiftRight_eq_div_pow]
  have hx := x.isLt
  show _ = (0 : ℤ) ↔ _
  split <;> omega

/-- The plane check in the form that its comment gives. -/
theorem badPlane_iff {byte1 byte2 : Byte} (h1 : ¬ byte1 < 0xF0) (h2 : ¬ byte2 > 0xBF) :
    badPlane byte1 byte2 = true ↔
      byte1 > 0xF4 ∨ (byte1 = 0xF0 ∧ byte2 < 0x90) ∨ (byte1 = 0xF4 ∧ byte2 > 0x8F) := by
  have hb1 := byte1.isLt
  have hb2 := byte2.isLt
  have htoNat : ((byte1.setWidth 32 <<< 28) + (byte2.setWidth 32 - 0x90)).toNat
      = (byte1.toNat * 2 ^ 28 + (byte2.toNat + (2 ^ 32 - 0x90))) % 2 ^ 32 := by
    rw [BitVec.toNat_add, BitVec.toNat_sub, BitVec.toNat_shiftLeft, BitVec.toNat_setWidth,
      BitVec.toNat_setWidth, Nat.shiftLeft_eq]
    show (_ % 2 ^ 32 + ((2 ^ 32 - 144) + _) % 2 ^ 32) % 2 ^ 32 = _
    omega
  unfold badPlane
  -- The lead counts modulo 16, and the sum is below `2 ^ 30` for the planes 1 to 16 only.
  rw [bne_iff_ne, ne_eq, sshiftRight_30_eq_zero_iff, htoNat]
  simp only [BitVec.lt_def, gt_iff_lt, ← BitVec.toNat_inj] at h1 h2 ⊢
  simp only [BitVec.ofNat_eq_ofNat, BitVec.toNat_ofNat] at h1 h2 ⊢
  omega

/-- The conditions of the four-byte form on the second byte. -/
theorem admits_secondRange_four {byte1 : Byte} (hlo : ¬ byte1 < 0xF0) (byte2 : Byte) :
    (byte1 ≤ 0xF4 ∧ (secondRange byte1).admits byte2 = true) ↔
      ¬ (byte2 > 0xBF ∨ badPlane byte1 byte2 = true) := by
  have hE0 : byte1 ≠ 0xE0 := by
    rintro rfl
    exact hlo (by decide)
  have hED : byte1 ≠ 0xED := by
    rintro rfl
    exact hlo (by decide)
  rw [ByteRange.admits, decide_eq_true_iff, secondRange, if_neg hE0, if_neg hED]
  -- The plane check means what its comment says for bytes up to `BF` only.
  by_cases h2 : byte2 > 0xBF
  · simp only [h2, true_or, not_true_eq_false, iff_false]
    split <;> split <;> bv_omega
  · rw [badPlane_iff hlo h2]
    split <;> split <;> bv_omega

/-! ### One sequence -/

/-- The reading of one sequence is right: where the code goes on after `count` bytes, the
machine is between sequences there, and where the code returns false, the machine does not
come back to its start. -/
def TrailingOk (bytes : Ptr) (length : ℕ) (byte1 : Byte) (index : ℕ) :
    Option ℕ → Prop
  | none => looseMachine.run [] (byte1 :: suffix bytes length index) ≠ some []
  | some count => index + count ≤ length ∧
      looseMachine.run [] (byte1 :: suffix bytes length index)
        = looseMachine.run [] (suffix bytes length (index + count))

/-- Where the machine refuses, the code may return false. -/
theorem trailingOk_none {bytes : Ptr} {length : ℕ} {byte1 : Byte} {index : ℕ}
    (h : looseMachine.run [] (byte1 :: suffix bytes length index) = none) :
    TrailingOk bytes length byte1 index none := by
  rw [TrailingOk, h]
  simp

/-- A read below the length gives the byte. -/
theorem read_of_lt {bytes : Ptr} {length index : ℕ} (h : index < length) :
    read bytes length index = some (bytes index) := if_pos h

/-- A sequence cut by the end of the buffer does not lead back to the start. -/
theorem run_short_ne {byte1 : Byte} {w : List Byte} {k : ℕ} (hk : w.length < k)
    (hlead : ∀ q ∈ looseMachine.step [] byte1, q.length = k) :
    looseMachine.run [] (byte1 :: w) ≠ some [] := by
  rw [Partial.run_cons]
  intro h
  obtain ⟨q, hq, hrun⟩ := Option.bind_eq_some_iff.mp h
  have hlen : q.length ≤ w.length := length_le_of_rowMachine_run hrun
  have hqk := hlead q hq
  omega

/-- A trailing byte after the second. -/
theorem run_trail (q : List ByteRange) (b : Byte) (w : List Byte) :
    looseMachine.run (looseTrail :: q) (b :: w)
      = if b > 0xBF then none else looseMachine.run q w := by
  have hadmits : looseTrail.admits b = decide (¬ b > 0xBF) := by
    revert b
    decide +kernel
  show (rowMachine ByteRange.admits looseSequences).run _ _ = _
  rw [rowMachine_run_cons, hadmits]
  by_cases hb : b > 0xBF
  · rw [if_pos hb, decide_eq_false (not_not.mpr hb)]
    rfl
  · rw [if_neg hb, decide_eq_true hb]
    rfl

/-- A lead and its second byte in the three-byte form. -/
theorem run_three {byte1 : Byte} (hlo : ¬ byte1 < 0xE0) (hhi : byte1 < 0xF0) (byte2 : Byte)
    (w : List Byte) :
    looseMachine.run [] (byte1 :: byte2 :: w)
      = if byte2 > 0xBF ∨ (byte1 = 0xE0 ∧ byte2 < 0xA0) ∨ (byte1 = 0xED ∧ 0xA0 ≤ byte2)
          then none else looseMachine.run [looseTrail] w := by
  have hlead : looseMachine.step [] byte1 = some [secondRange byte1, looseTrail] := by
    rw [looseMachine_lead byte1 (by bv_omega), if_neg (by bv_omega), if_neg hlo, if_pos hhi]
  have hadmits := admits_secondRange_three hlo hhi byte2
  rw [Partial.run_cons, hlead]
  show (rowMachine ByteRange.admits looseSequences).run _ _ = _
  rw [rowMachine_run_cons]
  split
  · next h => exact (if_neg (hadmits.mp h)).symm
  · next h => exact (if_pos (not_not.mp fun hn => h (hadmits.mpr hn))).symm

/-- A lead and its second byte in the four-byte form. -/
theorem run_four {byte1 : Byte} (hlo : ¬ byte1 < 0xF0) (byte2 : Byte) (w : List Byte) :
    looseMachine.run [] (byte1 :: byte2 :: w)
      = if byte2 > 0xBF ∨ badPlane byte1 byte2 = true then none
          else looseMachine.run [looseTrail, looseTrail] w := by
  have hadmits := admits_secondRange_four hlo byte2
  rw [Partial.run_cons, looseMachine_lead byte1 (by bv_omega), if_neg (by bv_omega),
    if_neg (by bv_omega), if_neg hlo]
  by_cases hF4 : byte1 ≤ 0xF4
  · rw [if_pos hF4]
    show (rowMachine ByteRange.admits looseSequences).run _ _ = _
    rw [rowMachine_run_cons]
    split
    · next h => exact (if_neg (hadmits.mp ⟨hF4, h⟩)).symm
    · next h => exact (if_pos (not_not.mp fun hn => h (hadmits.mpr hn).2)).symm
  · -- The leads above `F4` fail the plane check.
    rw [if_neg hF4]
    exact (if_pos (not_not.mp fun hn => hF4 (hadmits.mpr hn).1)).symm

/-- Every read of one sequence is inside the buffer, and the sequence is read as the loose
table says. -/
def ReadsSequence (bytes : Ptr) (length : ℕ) (byte1 : Byte) (index : ℕ) : Prop :=
  ∃ r, trailingBytes bytes length byte1 index = some r ∧
    TrailingOk bytes length byte1 index r

variable {bytes : Ptr} {length : ℕ} {byte1 : Byte} {index : ℕ}

/-- The two-byte form, where its guard lets the read pass. -/
theorem trailingBytes_two (hhi : byte1 < 0xE0) (hlt : index < length) :
    trailingBytes bytes length byte1 index
      = if byte1 < 0xC2 then some none
        else if bytes index > 0xBF then some none else some (some 1) := by
  have hend : ¬ index = length := by omega
  rw [trailingBytes, if_pos hhi, if_neg hend, read_of_lt hlt]
  rfl

/-- The three-byte form, where its guard lets the reads pass. -/
theorem trailingBytes_three (hlo : ¬ byte1 < 0xE0) (hhi : byte1 < 0xF0)
    (hlt : index + 1 < length) :
    trailingBytes bytes length byte1 index
      = if bytes index > 0xBF ∨ (byte1 = 0xE0 ∧ bytes index < 0xA0) ∨
          (byte1 = 0xED ∧ 0xA0 ≤ bytes index) then some none
        else if bytes (index + 1) > 0xBF then some none else some (some 2) := by
  have hend : ¬ index + 1 ≥ length := by omega
  rw [trailingBytes, if_neg hlo, if_pos hhi, if_neg hend, read_of_lt (by omega),
    read_of_lt hlt]
  rfl

/-- The four-byte form, where its guard lets the reads pass. -/
theorem trailingBytes_four (hlo : ¬ byte1 < 0xF0) (hlt : index + 2 < length) :
    trailingBytes bytes length byte1 index
      = if bytes index > 0xBF ∨ badPlane byte1 (bytes index) then some none
        else if bytes (index + 1) > 0xBF then some none
        else if bytes (index + 2) > 0xBF then some none else some (some 3) := by
  have hE0 : ¬ byte1 < 0xE0 := by bv_omega
  have hend : ¬ index + 2 ≥ length := by omega
  rw [trailingBytes, if_neg hE0, if_neg hlo, if_neg hend, read_of_lt (by omega),
    read_of_lt (by omega), read_of_lt hlt]
  rfl

/-- Where the buffer ends too early for the form, the code returns false with no read. -/
theorem trailingBytes_short
    (h : (byte1 < 0xE0 ∧ index = length) ∨
      (¬ byte1 < 0xE0 ∧ byte1 < 0xF0 ∧ length ≤ index + 1) ∨
      (¬ byte1 < 0xF0 ∧ length ≤ index + 2)) :
    trailingBytes bytes length byte1 index = some none := by
  rcases h with ⟨hhi, hend⟩ | ⟨hlo, hhi, hend⟩ | ⟨hlo, hend⟩
  · rw [trailingBytes, if_pos hhi, if_pos hend]
    rfl
  · rw [trailingBytes, if_neg hlo, if_pos hhi, if_pos hend]
    rfl
  · have hE0 : ¬ byte1 < 0xE0 := by bv_omega
    rw [trailingBytes, if_neg hE0, if_neg hlo, if_pos hend]
    rfl

/-- The two-byte form reads inside the buffer, and as the loose table says. -/
theorem readsSequence_two (hlo : ¬ byte1 < 0x80) (hhi : byte1 < 0xE0)
    (hindex : index ≤ length) : ReadsSequence bytes length byte1 index := by
  have hlead := looseMachine_lead byte1 hlo
  rw [if_pos hhi] at hlead
  by_cases hend : index = length
  · -- The lead is the last byte.
    have hone : ∀ q ∈ looseMachine.step [] byte1, q.length = 1 := by
      rw [hlead]
      intro q hq
      split at hq
      · cases hq
      · cases hq
        rfl
    exact ⟨none, trailingBytes_short (.inl ⟨hhi, hend⟩),
      run_short_ne (by rw [length_suffix]; omega) hone⟩
  · have hlt : index < length := by omega
    unfold ReadsSequence
    rw [trailingBytes_two hhi hlt]
    by_cases hC2 : byte1 < 0xC2
    · rw [if_pos hC2]
      refine ⟨none, rfl, trailingOk_none ?_⟩
      rw [Partial.run_cons, hlead, if_pos hC2]
      rfl
    · rw [if_neg hC2]
      have hrun : looseMachine.run [] (byte1 :: suffix bytes length index)
          = if bytes index > 0xBF then none
            else looseMachine.run [] (suffix bytes length (index + 1)) := by
        rw [Partial.run_cons, hlead, if_neg hC2, suffix_of_lt bytes hlt]
        exact run_trail [] _ _
      by_cases hbad : bytes index > 0xBF
      · rw [if_pos hbad] at hrun ⊢
        exact ⟨none, rfl, trailingOk_none hrun⟩
      · rw [if_neg hbad] at hrun ⊢
        exact ⟨some 1, rfl, by omega, hrun⟩

/-- So does the three-byte form. -/
theorem readsSequence_three (hlo : ¬ byte1 < 0xE0) (hhi : byte1 < 0xF0) :
    ReadsSequence bytes length byte1 index := by
  by_cases hend : length ≤ index + 1
  · -- Fewer than two bytes follow the lead.
    have hlead : ∀ q ∈ looseMachine.step [] byte1, q.length = 2 := by
      rw [looseMachine_lead byte1 (by bv_omega), if_neg (by bv_omega), if_neg hlo,
        if_pos hhi]
      rintro q ⟨⟩
      rfl
    exact ⟨none, trailingBytes_short (.inr (.inl ⟨hlo, hhi, hend⟩)),
      run_short_ne (by rw [length_suffix]; omega) hlead⟩
  · have hlt : index + 1 < length := by omega
    have hrun := run_three hlo hhi (bytes index) (suffix bytes length (index + 1))
    rw [← suffix_of_lt bytes (by omega : index < length), suffix_of_lt bytes hlt,
      run_trail] at hrun
    unfold ReadsSequence
    rw [trailingBytes_three hlo hhi hlt]
    by_cases hbad : bytes index > 0xBF ∨ (byte1 = 0xE0 ∧ bytes index < 0xA0) ∨
        (byte1 = 0xED ∧ 0xA0 ≤ bytes index)
    · rw [if_pos hbad] at hrun ⊢
      exact ⟨none, rfl, trailingOk_none hrun⟩
    · rw [if_neg hbad] at hrun ⊢
      by_cases hbad3 : bytes (index + 1) > 0xBF
      · rw [if_pos hbad3] at hrun ⊢
        exact ⟨none, rfl, trailingOk_none hrun⟩
      · rw [if_neg hbad3] at hrun ⊢
        exact ⟨some 2, rfl, by omega, hrun⟩

/-- So does the four-byte form. -/
theorem readsSequence_four (hlo : ¬ byte1 < 0xF0) :
    ReadsSequence bytes length byte1 index := by
  by_cases hend : length ≤ index + 2
  · -- Fewer than three bytes follow the lead.
    have hlead : ∀ q ∈ looseMachine.step [] byte1, q.length = 3 := by
      rw [looseMachine_lead byte1 (by bv_omega), if_neg (by bv_omega),
        if_neg (by bv_omega), if_neg hlo]
      split
      · rintro q ⟨⟩
        rfl
      · rintro q ⟨⟩
    exact ⟨none, trailingBytes_short (.inr (.inr ⟨hlo, hend⟩)),
      run_short_ne (by rw [length_suffix]; omega) hlead⟩
  · have hlt : index + 2 < length := by omega
    have hrun := run_four hlo (bytes index) (suffix bytes length (index + 1))
    rw [← suffix_of_lt bytes (by omega : index < length),
      suffix_of_lt bytes (by omega : index + 1 < length), run_trail,
      suffix_of_lt bytes hlt, run_trail] at hrun
    unfold ReadsSequence
    rw [trailingBytes_four hlo hlt]
    by_cases hbad : bytes index > 0xBF ∨ badPlane byte1 (bytes index)
    · rw [if_pos hbad] at hrun ⊢
      exact ⟨none, rfl, trailingOk_none hrun⟩
    · rw [if_neg hbad] at hrun ⊢
      by_cases hbad3 : bytes (index + 1) > 0xBF
      · rw [if_pos hbad3] at hrun ⊢
        exact ⟨none, rfl, trailingOk_none hrun⟩
      · rw [if_neg hbad3] at hrun ⊢
        by_cases hbad4 : bytes (index + 2) > 0xBF
        · rw [if_pos hbad4] at hrun ⊢
          exact ⟨none, rfl, trailingOk_none hrun⟩
        · rw [if_neg hbad4] at hrun ⊢
          exact ⟨some 3, rfl, by omega, hrun⟩

/-- One sequence, for every lead of `0x80` or above. -/
theorem readsSequence (hlo : ¬ byte1 < 0x80) (hindex : index ≤ length) :
    ReadsSequence bytes length byte1 index := by
  by_cases htwo : byte1 < 0xE0
  · exact readsSequence_two hlo htwo hindex
  · by_cases hthree : byte1 < 0xF0
    · exact readsSequence_three htwo hthree
    · exact readsSequence_four hthree

/-! ### The loop -/

/-- At the end of the text the validator accepts. -/
theorem validateUtf8From_of_le (h : length ≤ index) :
    validateUtf8From bytes length index = some true := by
  rw [validateUtf8From, if_pos h]

/-- The fast ASCII path goes round once more. -/
theorem validateUtf8From_ascii (hlt : index < length) (hascii : bytes index < 0x80) :
    validateUtf8From bytes length index = validateUtf8From bytes length (index + 1) := by
  rw [validateUtf8From, if_neg (by omega), read_of_lt hlt]
  exact if_pos hascii

/-- A lead, and what its form does. -/
theorem validateUtf8From_lead (hlt : index < length) (hlead : ¬ bytes index < 0x80)
    {r : Option ℕ} (hr : trailingBytes bytes length (bytes index) (index + 1) = some r) :
    validateUtf8From bytes length index
      = r.elim (some false) fun count => validateUtf8From bytes length (index + 1 + count) := by
  rw [validateUtf8From, if_neg (by omega), read_of_lt hlt]
  show (if bytes index < 0x80 then _ else _) = _
  rw [if_neg hlead, hr]
  cases r <;> rfl

/-- From any index inside the buffer the validator ends, reads inside the buffer only, and
answers whether the bytes left are words of the loose table. Induction on their number. -/
theorem validateUtf8From_eq (bytes : Ptr) (length : ℕ) :
    ∀ k index, length - index = k → index ≤ length →
      validateUtf8From bytes length index
        = some (decide (looseMachine.run [] (suffix bytes length index) = some [])) := by
  intro k
  induction k using Nat.strong_induction_on with
  | _ k ih =>
      intro index hk hindex
      by_cases hend : length ≤ index
      · rw [validateUtf8From_of_le hend, suffix_of_le bytes hend]
        rfl
      · have hlt : index < length := by omega
        rw [suffix_of_lt bytes hlt]
        by_cases hascii : bytes index < 0x80
        · rw [validateUtf8From_ascii hlt hascii,
            ih (length - (index + 1)) (by omega) _ rfl (by omega), Partial.run_cons,
            looseMachine_ascii _ hascii]
          rfl
        · have hread : ReadsSequence bytes length (bytes index) (index + 1) :=
            readsSequence hascii (by omega)
          obtain ⟨r, hr, hok⟩ := hread
          rw [validateUtf8From_lead hlt hascii hr]
          cases r with
          | none => exact congrArg some (decide_eq_false hok).symm
          | some count =>
              show validateUtf8From bytes length (index + 1 + count) = _
              rw [ih (length - (index + 1 + count)) (by omega) _ rfl hok.1, hok.2]

/-- The validator accepts the concatenations of words of the loose table. -/
theorem validateUtf8_eq_some_true_iff (bytes : Ptr) (length : ℕ) :
    validateUtf8 bytes length = some true ↔ slice bytes length ∈ looseSequence∗ := by
  have hcode := (codes_rowMachine unambiguous_looseSequences).run_eq_start_iff
    (slice bytes length)
  rw [validateUtf8, validateUtf8From_eq bytes length length 0 rfl (Nat.zero_le _),
    suffix_zero, Option.some.injEq, decide_eq_true_iff]
  exact hcode

/-! ### The loose table and the legal one -/

/-- `s` is a text of the loose table with a trailing byte below `80`. -/
def LowTrail (s : List Byte) : Prop :=
  ∃ ws : List (List Byte), s = ws.flatten ∧ (∀ w ∈ ws, w ∈ looseSequence) ∧
    ∃ w ∈ ws, ∃ b ∈ w.tail, b < 0x80

/-- The trailing ranges of the table begin at `80` or above. -/
theorem trailing_lo : ∀ row ∈ legalSequences, ∀ r ∈ row.tail, 0x80 ≤ r.lo := by
  decide +kernel

/-- Above `80` a loosened range holds the same bytes. -/
theorem admits_iff_loosenRange {r : ByteRange} (hr : 0x80 ≤ r.lo) (b : Byte) :
    r.admits b = true ↔ (loosenRange r).admits b = true ∧ 0x80 ≤ b := by
  rw [loosenRange, ByteRange.admits, ByteRange.admits, decide_eq_true_iff, decide_eq_true_iff]
  split
  · next hlo =>
      have hzero : (0x00 : Byte) ≤ b := Nat.zero_le b.toNat
      rw [hlo]
      exact ⟨fun h => ⟨⟨hzero, h.2⟩, h.1⟩, fun h => ⟨h.2, h.1.2⟩⟩
  · exact ⟨fun h => ⟨h, BitVec.le_trans hr h.1⟩, fun h => h.1⟩

/-- So do the trailing ranges of a row. -/
theorem forall₂_iff_loosenRange {rs : List ByteRange} (hrs : ∀ r ∈ rs, 0x80 ≤ r.lo)
    (w : List Byte) :
    List.Forall₂ (fun r b => ByteRange.admits r b = true) rs w ↔
      List.Forall₂ (fun r b => ByteRange.admits r b = true) (rs.map loosenRange) w ∧
        ∀ b ∈ w, 0x80 ≤ b := by
  induction rs generalizing w with
  | nil =>
      cases w with
      | nil => simp
      | cons b w => simp
  | cons r rs ih =>
      cases w with
      | nil => simp
      | cons b w =>
          rw [List.map_cons, List.forall₂_cons, List.forall₂_cons, List.forall_mem_cons,
            ih (fun r' hr' => hrs r' (List.mem_cons_of_mem r hr')),
            admits_iff_loosenRange (hrs r List.mem_cons_self)]
          tauto

/-- A word of the loose table is a legal sequence when its trailing bytes are `80` or
above. -/
theorem mem_legalSequence_iff (w : List Byte) :
    w ∈ legalSequence ↔ w ∈ looseSequence ∧ ∀ b ∈ w.tail, 0x80 ≤ b := by
  have hrow : ∀ row ∈ legalSequences,
      (List.Forall₂ (fun r b => ByteRange.admits r b = true) row w ↔
        List.Forall₂ (fun r b => ByteRange.admits r b = true) (loosen row) w ∧
          ∀ b ∈ w.tail, 0x80 ≤ b) := by
    intro row hmem
    cases row with
    | nil => exact absurd rfl (unambiguous_legalSequences.filled [] hmem).1
    | cons first trailing =>
        cases w with
        | nil => simp [loosen]
        | cons b w =>
            have htrail : ∀ r ∈ trailing, 0x80 ≤ r.lo := trailing_lo _ hmem
            rw [loosen, List.forall₂_cons, List.forall₂_cons, List.tail_cons,
              forall₂_iff_loosenRange htrail]
            tauto
  constructor
  · rintro ⟨row, hmem, hw⟩
    obtain ⟨hloose, htail⟩ := (hrow row hmem).mp hw
    exact ⟨⟨loosen row, List.mem_map_of_mem hmem, hloose⟩, htail⟩
  · rintro ⟨⟨row', hmem', hw⟩, htail⟩
    obtain ⟨row, hmem, rfl⟩ := List.mem_map.mp hmem'
    exact ⟨row, hmem, (hrow row hmem).mpr ⟨hw, htail⟩⟩

/-- The machine of the legal table refuses a word of the loose table with a trailing byte
below `80`. -/
theorem run_legal_eq_none {w : List Byte} (hw : w ∈ looseSequence)
    (hlow : ∃ b ∈ w.tail, b < 0x80) :
    (rowMachine ByteRange.admits legalSequences).run [] w = none := by
  obtain ⟨row', hmem', hmatch⟩ := hw
  obtain ⟨row, hmem, rfl⟩ := List.mem_map.mp hmem'
  obtain ⟨b, hb, hb80⟩ := hlow
  cases w with
  | nil => cases hb
  | cons b₁ w =>
      cases row with
      | nil => cases hmatch
      | cons first trailing =>
          have hfirst : ByteRange.admits first b₁ = true := (List.forall₂_cons.mp hmatch).1
          have hlen := (List.forall₂_cons.mp hmatch).2.length_eq
          rw [List.length_map] at hlen
          rw [Partial.run_cons, rowMachine_step_nil unambiguous_legalSequences hmem hfirst]
          refine rowMachine_run_eq_none hlen.ge hb fun r hr => ?_
          -- No trailing range of the legal table reaches below `80`.
          have hlo : 0x80 ≤ r.lo := trailing_lo _ hmem r hr
          rw [ByteRange.admits, decide_eq_false_iff_not]
          exact fun h => absurd hb80 (BitVec.not_lt.mpr (BitVec.le_trans hlo h.1))

/-- A text with a trailing byte below `80` is not well formed. Induction on its words: the
machine of the legal table comes back to its start up to the first such word. -/
theorem LowTrail.not_wellFormed {s : List Byte} (h : LowTrail s) : ¬ WellFormed s := by
  obtain ⟨ws, rfl, hws, hlow⟩ := h
  have hcode := codes_rowMachine unambiguous_legalSequences
  have hnone : (rowMachine ByteRange.admits legalSequences).run [] ws.flatten = none := by
    induction ws with
    | nil =>
        obtain ⟨w, hw, -⟩ := hlow
        cases hw
    | cons w ws ih =>
        rw [List.flatten_cons, Partial.run_append]
        by_cases hw : ∃ b ∈ w.tail, b < 0x80
        · -- The first word with a low trailing byte stops the machine for good.
          rw [run_legal_eq_none (hws w List.mem_cons_self) hw]
          rfl
        · have hlegal : w ∈ legalSequence := by
            refine (mem_legalSequence_iff w).mpr ⟨hws w List.mem_cons_self, fun b hb => ?_⟩
            exact BitVec.not_lt.mp fun hb80 => hw ⟨b, hb, hb80⟩
          rw [show (rowMachine ByteRange.admits legalSequences).run [] w = some []
            from hcode.sound w hlegal]
          refine ih (fun v hv => hws v (List.mem_cons_of_mem w hv)) ?_
          obtain ⟨v, hv, hb⟩ := hlow
          rcases List.mem_cons.mp hv with rfl | hv
          · exact absurd hb hw
          · exact ⟨v, hv, hb⟩
  intro hwf
  have hrun : (rowMachine ByteRange.admits legalSequences).run [] ws.flatten = some [] :=
    (hcode.run_eq_start_iff ws.flatten).mpr hwf
  rw [hnone] at hrun
  cases hrun

/-- The loose texts are the well-formed strings and the texts with a trailing byte below
`80`. -/
theorem mem_looseSequence_kstar_iff (s : List Byte) :
    s ∈ looseSequence∗ ↔ WellFormed s ∨ LowTrail s := by
  constructor
  · intro h
    obtain ⟨ws, rfl, hws⟩ := Language.mem_kstar.mp h
    by_cases hlow : ∃ w ∈ ws, ∃ b ∈ w.tail, b < 0x80
    · exact .inr ⟨ws, rfl, hws, hlow⟩
    · refine .inl (Language.mem_kstar.mpr ⟨ws, rfl, fun w hw => ?_⟩)
      refine (mem_legalSequence_iff w).mpr ⟨hws w hw, fun b hb => ?_⟩
      exact BitVec.not_lt.mp fun hb80 => hlow ⟨w, hw, b, hb, hb80⟩
  · rintro (h | ⟨ws, rfl, hws, -⟩)
    · obtain ⟨ws, rfl, hws⟩ := Language.mem_kstar.mp h
      exact Language.mem_kstar.mpr ⟨ws, rfl, fun w hw =>
        ((mem_legalSequence_iff w).mp (hws w hw)).1⟩
    · exact Language.mem_kstar.mpr ⟨ws, rfl, hws⟩

/-! ### When the validator is right -/

/-- The validator agrees with the table of its file exactly on the strings that are no text
with a trailing byte below `80`. -/
theorem validateUtf8_right_iff (b : Ptr) (length : ℕ) :
    (validateUtf8 b length = some true ↔ WellFormed (slice b length))
      ↔ ¬ LowTrail (slice b length) := by
  rw [validateUtf8_eq_some_true_iff, mem_looseSequence_kstar_iff]
  constructor
  · intro h hlow
    exact hlow.not_wellFormed (h.mp (.inr hlow))
  · intro hlow
    exact ⟨fun h => h.resolve_right hlow, .inl⟩

/-- On the bytes `C3 28` the validator returns true, and they are not well formed. -/
theorem validateUtf8_C3_28 :
    ¬ (validateUtf8 (fun i => [0xC3, 0x28].getD i 0) 2 = some true
      ↔ WellFormed (slice (fun i => [0xC3, 0x28].getD i 0) 2)) := by
  intro h
  have htrue : validateUtf8 (fun i => [0xC3, 0x28].getD i 0) 2 = some true := by
    decide +kernel
  have hwf := h.mp htrue
  rw [← run_utf8Machine_eq_start_iff] at hwf
  exact absurd hwf (by decide)

end FastValidate.Proofs
