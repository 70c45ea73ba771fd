import FastValidate.Proofs.Utf8
import FastValidate.Proofs.Carry

/-!
# `FastValidate.Proofs.Bytes`: what the four checks ask of two neighbours

The block checkers look at a byte through its high nibble and compare bytes as signed
numbers. This file says what that means for one byte and the byte before it, with no
registers.

`leadLength` is the length a byte announces, and `PairOk b c` is what the three checks other
than the carry ask of a byte `c` after `b`. `pairOk_iff` writes it as byte ranges. Each
check alone lets some bad bytes pass (ASCII after `E0`, `7F` after `C0`), and each time the
carry check refuses them. `Sees v b` relates the state of `lateMachine` to the last byte
read: what the ranges to come depend on is in the byte or in the number of bytes owed.

The step lemma is `Sees.step` and the run lemma is `late_iff`: over any lanes, `countdown`
on the lengths together with `PairOk` on the neighbours is `lateMachine`.
-/

set_option autoImplicit false

namespace FastValidate.Proofs

open Simd (Byte delay delay_zero delay_succ)
open Automata
open FastValidate.Spec

/-! ### The tables, by high nibble -/

/-- The lengths by high nibble. -/
def lengthTable : List Byte := [1, 1, 1, 1, 1, 1, 1, 1, 0, 0, 0, 0, 2, 2, 3, 4]

/-- The signed minimum of a lead, by its high nibble. -/
def initialMinTable : List Byte :=
  [-128, -128, -128, -128, -128, -128, -128, -128, -128, -128, -128, -128, 0xC2, -128,
    0xE1, 0xF1]

/-- The signed minimum of the byte after a lead, by the high nibble of the lead. -/
def secondMinTable : List Byte :=
  [-128, -128, -128, -128, -128, -128, -128, -128, -128, -128, -128, -128, 127, 127,
    0xA0, 0x90]

/-- The entry of a table for the high nibble of a byte. -/
def atNibble (table : List Byte) (b : Byte) : Byte := table.getD (b >>> 4).toNat 0

/-- The number of bytes a byte announces: zero for a continuation byte. -/
def leadLength (b : Byte) : ℕ := (atNibble lengthTable b).toNat

/-- A high nibble is an index into a table of sixteen entries. -/
theorem nibble_lt (b : Byte) : (b >>> 4).toNat < 16 := by
  rw [BitVec.toNat_ushiftRight, Nat.shiftRight_eq_div_pow]
  have hb := b.isLt
  omega

/-- No byte announces more than four. -/
theorem leadLength_le (b : Byte) : leadLength b ≤ 4 := by
  revert b
  decide +kernel

/-! ### Neighbours -/

/-- `c` raises none of the three byte checks after `b`: it is at most `F4`, it is no larger
than the maximum after `ED` or `F4`, and it does not complete an overlong start. -/
structure PairOk (b c : Byte) : Prop where
  smaller : c ≤ 0xF4
  firstMax : ¬ ((b = 0xED ∧ (0x9F : Byte).slt c) ∨ (b = 0xF4 ∧ (0x8F : Byte).slt c))
  overlong : ¬ (b.slt (atNibble initialMinTable b) ∧ c.slt (atNibble secondMinTable b))

/-- The leads under their signed minimum are `C0`, `C1`, `E0` and `F0`. -/
theorem slt_initialMin_iff (b : Byte) :
    b.slt (atNibble initialMinTable b) ↔ b = 0xC0 ∨ b = 0xC1 ∨ b = 0xE0 ∨ b = 0xF0 := by
  revert b
  decide +kernel

/-- `PairOk` as byte ranges. After `E0` and `F0` an ASCII byte passes, and after `C0` and
`C1` the byte `7F` does: the carry check refuses them. -/
theorem pairOk_iff (b c : Byte) : PairOk b c ↔
    c ≤ 0xF4 ∧ (b = 0xED → 0x80 ≤ c ∧ c ≤ 0x9F) ∧ (b = 0xF4 → 0x80 ≤ c ∧ c ≤ 0x8F) ∧
      (b = 0xC0 ∨ b = 0xC1 → c = 0x7F) ∧ (b = 0xE0 → c ≤ 0x7F ∨ 0xA0 ≤ c) ∧
      (b = 0xF0 → c ≤ 0x7F ∨ 0x90 ≤ c) := by
  -- As signed bytes, `80` to `9F` are the smallest.
  have hED : ∀ c : Byte, ¬ (0x9F : Byte).slt c ↔ 0x80 ≤ c ∧ c ≤ 0x9F := by decide +kernel
  have hF4 : ∀ c : Byte, ¬ (0x8F : Byte).slt c ↔ 0x80 ≤ c ∧ c ≤ 0x8F := by decide +kernel
  -- The second minimum depends on the lead only through its high nibble.
  have hC : ∀ c : Byte, ¬ c.slt 127 ↔ c = 0x7F := by decide +kernel
  have hE : ∀ c : Byte, ¬ c.slt 0xA0 ↔ c ≤ 0x7F ∨ 0xA0 ≤ c := by decide +kernel
  have hF : ∀ c : Byte, ¬ c.slt 0x90 ↔ c ≤ 0x7F ∨ 0x90 ≤ c := by decide +kernel
  have hover : ¬ (b.slt (atNibble initialMinTable b) ∧ c.slt (atNibble secondMinTable b)) ↔
      (b = 0xC0 ∨ b = 0xC1 → c = 0x7F) ∧ (b = 0xE0 → c ≤ 0x7F ∨ 0xA0 ≤ c) ∧
        (b = 0xF0 → c ≤ 0x7F ∨ 0x90 ≤ c) := by
    rw [slt_initialMin_iff, ← hC c, ← hE c, ← hF c]
    constructor
    · intro h
      refine ⟨?_, ?_, ?_⟩
      · rintro (rfl | rfl) hc
        · exact h ⟨by decide, hc⟩
        · exact h ⟨by decide, hc⟩
      · rintro rfl hc
        exact h ⟨by decide, hc⟩
      · rintro rfl hc
        exact h ⟨by decide, hc⟩
    · rintro ⟨hCl, hEl, hFl⟩ ⟨rfl | rfl | rfl | rfl, hc⟩
      · exact hCl (.inl rfl) hc
      · exact hCl (.inr rfl) hc
      · exact hEl rfl hc
      · exact hFl rfl hc
  have hmax : ¬ ((b = 0xED ∧ (0x9F : Byte).slt c) ∨ (b = 0xF4 ∧ (0x8F : Byte).slt c)) ↔
      (b = 0xED → 0x80 ≤ c ∧ c ≤ 0x9F) ∧ (b = 0xF4 → 0x80 ≤ c ∧ c ≤ 0x8F) := by
    rw [← hED c, ← hF4 c, not_or, not_and, not_and]
  rw [← hover, ← and_assoc (a := b = 0xED → _), ← hmax]
  exact ⟨fun h => ⟨h.smaller, h.firstMax, h.overlong⟩, fun h => ⟨h.1, h.2.1, h.2.2⟩⟩

/-- `PairOk` compares bytes only, so it is decidable. -/
instance (b c : Byte) : Decidable (PairOk b c) := decidable_of_iff' _ (pairOk_iff b c)

/-! ### The last byte and the state of the machine -/

/-- The last byte read, in each state of `lateMachine`. A byte below `C0` is ASCII or a
continuation byte, and leaves no condition on the next byte but the number of bytes owed. -/
def Sees : Seen → Byte → Prop
  | .valid .start, b => b < 0xC0
  | .valid .tail1, b => b < 0xC0 ∨ (0xC2 ≤ b ∧ b < 0xE0)
  | .valid .tail2, b => b < 0xC0 ∨ (0xE1 ≤ b ∧ b < 0xF0 ∧ b ≠ 0xED)
  | .valid .tail3, b => 0xF1 ≤ b ∧ b ≤ 0xF3
  | .valid .afterE0, b => b = 0xE0
  | .valid .afterED, b => b = 0xED
  | .valid .afterF0, b => b = 0xF0
  | .valid .afterF4, b => b = 0xF4
  | .overlongLead, b => b = 0xC0 ∨ b = 0xC1

/-- What the last byte says about a state is a comparison of that byte. -/
instance : ∀ v b, Decidable (Sees v b)
  | .valid .start, b => inferInstanceAs (Decidable (b < 0xC0))
  | .valid .tail1, b => inferInstanceAs (Decidable (b < 0xC0 ∨ (0xC2 ≤ b ∧ b < 0xE0)))
  | .valid .tail2, b =>
      inferInstanceAs (Decidable (b < 0xC0 ∨ (0xE1 ≤ b ∧ b < 0xF0 ∧ b ≠ 0xED)))
  | .valid .tail3, b => inferInstanceAs (Decidable (0xF1 ≤ b ∧ b ≤ 0xF3))
  | .valid .afterE0, b => inferInstanceAs (Decidable (b = 0xE0))
  | .valid .afterED, b => inferInstanceAs (Decidable (b = 0xED))
  | .valid .afterF0, b => inferInstanceAs (Decidable (b = 0xF0))
  | .valid .afterF4, b => inferInstanceAs (Decidable (b = 0xF4))
  | .overlongLead, b => inferInstanceAs (Decidable (b = 0xC0 ∨ b = 0xC1))

/-- What one byte does to the pair of checks: they accept it together exactly when
`lateMachine` does, and then the count and the last byte follow the machine. -/
def StepsAlike (v : Seen) (b c : Byte) : Prop :=
  ((countdown.step v.need (leadLength c)).isSome ∧ PairOk b c
    ↔ (lateMachine.step v c).isSome) ∧
  ∀ v' ∈ lateMachine.step v c, Sees v' c ∧ countdown.step v.need (leadLength c) = some v'.need

/-- Both sides of `StepsAlike` are decidable for a state and two bytes. -/
instance (v : Seen) (b c : Byte) : Decidable (StepsAlike v b c) :=
  inferInstanceAs (Decidable (_ ∧ _))

/-- A byte that sets no condition of its own on the next byte. -/
def Plain (b : Byte) : Prop :=
  b ≠ 0xED ∧ b ≠ 0xF4 ∧ b ≠ 0xC0 ∧ b ≠ 0xC1 ∧ b ≠ 0xE0 ∧ b ≠ 0xF0

/-- `Plain` compares the byte with six others. -/
instance (b : Byte) : Decidable (Plain b) := inferInstanceAs (Decidable (_ ∧ _))

/-- Behind a plain byte, only the bound `F4` is checked. -/
theorem Plain.pairOk_iff {b : Byte} (hb : Plain b) (c : Byte) : PairOk b c ↔ c ≤ 0xF4 := by
  obtain ⟨hED, hF4, hC0, hC1, hE0, hF0⟩ := hb
  rw [FastValidate.Proofs.pairOk_iff]
  simp only [hED, hF4, hC0, hC1, hE0, hF0, or_self, false_imp_iff, and_true]

/-- After a plain byte, `StepsAlike` does not depend on the byte. -/
theorem Plain.stepsAlike {v : Seen} {b c : Byte} (hb : Plain b) (h : StepsAlike v 0 c) :
    StepsAlike v b c := by
  have hzero : Plain 0 := by decide
  unfold StepsAlike at h ⊢
  rw [hzero.pairOk_iff] at h
  rwa [hb.pairOk_iff]

/-- The step lemma. The states that a whole class of bytes leads to are reduced to the byte
zero by `Plain.stepsAlike`; the others fix the last byte. -/
theorem Sees.step {v : Seen} {b : Byte} (h : Sees v b) (c : Byte) : StepsAlike v b c := by
  have hlow : ∀ b : Byte, b < 0xC0 → Plain b := by decide +kernel
  have htwo : ∀ b : Byte, 0xC2 ≤ b ∧ b < 0xE0 → Plain b := by decide +kernel
  have hthree : ∀ b : Byte, 0xE1 ≤ b ∧ b < 0xF0 ∧ b ≠ 0xED → Plain b := by decide +kernel
  have hfour : ∀ b : Byte, 0xF1 ≤ b ∧ b ≤ 0xF3 → Plain b := by decide +kernel
  cases v with
  | valid q =>
      cases q with
      | start =>
          have hc : ∀ c, StepsAlike (.valid .start) 0 c := by decide +kernel
          exact (hlow b h).stepsAlike (hc c)
      | tail1 =>
          -- The last byte is a two-byte lead or a byte inside a longer sequence.
          have hc : ∀ c, StepsAlike (.valid .tail1) 0 c := by decide +kernel
          exact (h.elim (hlow b) (htwo b)).stepsAlike (hc c)
      | tail2 =>
          have hc : ∀ c, StepsAlike (.valid .tail2) 0 c := by decide +kernel
          exact (h.elim (hlow b) (hthree b)).stepsAlike (hc c)
      | tail3 =>
          have hc : ∀ c, StepsAlike (.valid .tail3) 0 c := by decide +kernel
          exact (hfour b h).stepsAlike (hc c)
      | afterE0 =>
          cases h
          revert c
          decide +kernel
      | afterED =>
          cases h
          revert c
          decide +kernel
      | afterF0 =>
          cases h
          revert c
          decide +kernel
      | afterF4 =>
          cases h
          revert c
          decide +kernel
  | overlongLead =>
      rcases h with rfl | rfl
      · revert c
        decide +kernel
      · revert c
        decide +kernel

/-- The run lemma. Over the first `i` lanes of `f`, with `b` before them, `countdown` on the
lengths and `PairOk` on the neighbours together are `lateMachine`, and they end where it
ends. Induction on the lane. -/
theorem late_iff {v : Seen} {b : Byte} (h : Sees v b) (f : ℕ → Byte) (i : ℕ) :
    ((countdown.run v.need ((List.range i).map fun j => leadLength (f j))).isSome ∧
        (∀ j < i, PairOk (delay b f j) (f j))
      ↔ (lateMachine.run v ((List.range i).map f)).isSome) ∧
    ∀ v', lateMachine.run v ((List.range i).map f) = some v' →
      Sees v' (delay b f i) ∧
      countdown.run v.need ((List.range i).map fun j => leadLength (f j)) = some v'.need := by
  induction i with
  | zero =>
      refine ⟨by simp, fun v' hv' => ?_⟩
      cases hv'
      exact ⟨h, rfl⟩
  | succ i ih =>
      obtain ⟨hiff, hend⟩ := ih
      rw [List.range_succ, List.map_append, List.map_append, List.map_singleton,
        List.map_singleton, Partial.run_concat, Partial.run_concat]
      have hsplit : (∀ j < i + 1, PairOk (delay b f j) (f j))
          ↔ (∀ j < i, PairOk (delay b f j) (f j)) ∧ PairOk (delay b f i) (f i) :=
        Nat.forall_lt_succ_right
      rw [hsplit]
      cases hrun : lateMachine.run v ((List.range i).map f) with
      | none =>
          -- The machine has refused, so one of the checks has failed before lane `i`.
          rw [hrun] at hiff
          have hfail : ¬ ((countdown.run v.need
              ((List.range i).map fun j => leadLength (f j))).isSome ∧
              ∀ j < i, PairOk (delay b f j) (f j)) := fun hok => by
            have hsome := hiff.mp hok
            simp at hsome
          refine ⟨⟨fun hok => absurd ⟨?_, hok.2.1⟩ hfail, fun hsome => by simp at hsome⟩,
            fun v' hv' => by simp at hv'⟩
          cases hc : countdown.run v.need ((List.range i).map fun j => leadLength (f j)) with
          | none => rw [hc] at hok; simp at hok
          | some r => rfl
      | some v₀ =>
          rw [hrun] at hiff
          obtain ⟨hsees, hcount⟩ := hend v₀ hrun
          obtain ⟨hstep, hnext⟩ := hsees.step (f i)
          have hpast := (hiff.mpr rfl).2
          rw [hcount]
          refine ⟨⟨fun hok => hstep.mp ⟨hok.1, hok.2.2⟩, fun hsome => ?_⟩, hnext⟩
          have hboth := hstep.mpr hsome
          exact ⟨hboth.1, hpast, hboth.2⟩

end FastValidate.Proofs
