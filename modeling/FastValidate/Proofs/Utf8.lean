import FastValidate.Spec.Utf8

/-!
# `FastValidate.Proofs.Utf8`: the two machines and the table

`utf8Machine` is the row machine of `legalSequences` under other names for its states
(`rest_step_utf8Machine`). So it is between sequences exactly on the well-formed strings
(`run_utf8Machine_eq_start_iff`), and it has not refused exactly on their prefixes
(`isSome_run_utf8Machine_iff`).

`lateMachine` runs as `utf8Machine` does until a `C0` or `C1` comes in lead position. It has
not refused exactly on the prefixes of well-formed strings and on the well-formed strings
with one byte `C0` or `C1` behind them (`isSome_run_lateMachine_iff`).
-/

set_option autoImplicit false

namespace FastValidate.Proofs

open Simd (Byte)
open Automata
open Computability
open FastValidate.Spec

/-! ### `utf8Machine` reads the table -/

/-- The first ranges of two rows have no byte in common. -/
def DisjointLeads (row row' : List ByteRange) : Prop :=
  ∀ r ∈ row.head?, ∀ r' ∈ row'.head?, r.hi < r'.lo ∨ r'.hi < r.lo

/-- A byte leads at most one of two such rows. -/
theorem DisjointLeads.not_leads {row row' : List ByteRange} (h : DisjointLeads row row')
    {b : Byte} (hb : leads ByteRange.admits row b = true) :
    ¬ leads ByteRange.admits row' b = true := by
  intro hb'
  cases row with
  | nil => cases hb
  | cons r row =>
      cases row' with
      | nil => cases hb'
      | cons r' row' =>
          have hr : r.lo ≤ b ∧ b ≤ r.hi := of_decide_eq_true hb
          have hr' : r'.lo ≤ b ∧ b ≤ r'.hi := of_decide_eq_true hb'
          rcases h r rfl r' rfl with hlt | hlt
          · exact absurd (BitVec.le_trans hr'.1 hr.2) (BitVec.not_le.mpr hlt)
          · exact absurd (BitVec.le_trans hr.1 hr'.2) (BitVec.not_le.mpr hlt)

/-- A range with its ends in order is not empty. -/
theorem ByteRange.exists_admits (r : ByteRange) (h : r.lo ≤ r.hi) :
    ∃ b, ByteRange.admits r b = true :=
  ⟨r.lo, decide_eq_true ⟨BitVec.le_refl r.lo, h⟩⟩

/-- A byte leads at most one row of the table, and no range of the table is empty. -/
theorem unambiguous_legalSequences : Unambiguous ByteRange.admits legalSequences where
  lead row hrow row' hrow' b hb hb' := by
    have hdisjoint : ∀ row ∈ legalSequences, ∀ row' ∈ legalSequences,
        row = row' ∨ DisjointLeads row row' := by
      unfold DisjointLeads
      decide
    rcases hdisjoint row hrow row' hrow' with heq | hdis
    · exact heq
    · exact absurd hb' (hdis.not_leads hb)
  filled := by
    have hranges : ∀ row ∈ legalSequences, row ≠ [] ∧ ∀ r ∈ row, r.lo ≤ r.hi := by decide
    exact fun row hrow => ⟨(hranges row hrow).1, fun r hr => ByteRange.exists_admits r
      ((hranges row hrow).2 r hr)⟩

/-- A step of `utf8Machine` is the step of the table's machine on the ranges to come. -/
theorem rest_step_utf8Machine (q : State) (b : Byte) :
    (utf8Machine.step q b).map State.rest
      = (rowMachine ByteRange.admits legalSequences).step q.rest b := by
  revert b
  cases q <;> decide +kernel

/-- Only `start` has no range to come. -/
theorem rest_eq_nil_iff (q : State) : q.rest = [] ↔ q = .start := by
  cases q <;> decide

/-- The runs of `utf8Machine` from its start are the runs of the table's machine. -/
theorem rest_run_utf8Machine (s : List Byte) :
    (utf8Machine.run .start s).map State.rest
      = (rowMachine ByteRange.admits legalSequences).run [] s :=
  utf8Machine.run_map rest_step_utf8Machine .start s

/-- `utf8Machine` is between sequences exactly on the well-formed strings. -/
theorem run_utf8Machine_eq_start_iff (s : List Byte) :
    utf8Machine.run .start s = some .start ↔ WellFormed s := by
  -- Through the machine of the table, whose states are the ranges to come.
  show _ ↔ s ∈ legalSequence∗
  rw [legalSequence, ← (codes_rowMachine unambiguous_legalSequences).run_eq_start_iff s]
  show _ ↔ (rowMachine ByteRange.admits legalSequences).run [] s = some []
  rw [← rest_run_utf8Machine s]
  cases utf8Machine.run .start s with
  | none => simp
  | some q => simp [rest_eq_nil_iff]

/-- `utf8Machine` has not refused exactly on the prefixes of well-formed strings. -/
theorem isSome_run_utf8Machine_iff (s : List Byte) :
    (utf8Machine.run .start s).isSome ↔ IsPrefix s := by
  have hcode := (codes_rowMachine unambiguous_legalSequences).isSome_run_iff s
  show _ ↔ ∃ r, s ++ r ∈ legalSequence∗
  rw [legalSequence, ← hcode]
  show _ ↔ ((rowMachine ByteRange.admits legalSequences).run [] s).isSome
  rw [← rest_run_utf8Machine s, Option.isSome_map]

/-- A NUL byte completes nothing: it follows complete strings only. -/
theorem isSome_step_utf8Machine_zero (q : State) :
    (utf8Machine.step q 0).isSome ↔ q = .start := by
  cases q <;> decide

/-- A string with a NUL byte behind it is a prefix exactly when the string is well
formed. -/
theorem isPrefix_concat_zero_iff (s : List Byte) : IsPrefix (s ++ [0]) ↔ WellFormed s := by
  rw [← isSome_run_utf8Machine_iff, ← run_utf8Machine_eq_start_iff, Partial.run_concat]
  -- The last byte is read in the state after `s`.
  cases utf8Machine.run .start s with
  | none => simp
  | some q => simpa using isSome_step_utf8Machine_zero q

/-- What a prefix of a well-formed string begins with is a prefix as well. -/
theorem IsPrefix.left {s t : List Byte} (h : IsPrefix (s ++ t)) : IsPrefix s := by
  obtain ⟨r, hr⟩ := h
  exact ⟨t ++ r, by rwa [← List.append_assoc]⟩

/-- A well-formed string is its own prefix. -/
theorem isPrefix_of_wellFormed {s : List Byte} (h : WellFormed s) : IsPrefix s :=
  ⟨[], by rwa [List.append_nil]⟩

/-- No sequence starts with `C0` or `C1`. -/
theorem not_isPrefix_concat_overlongLead {u : List Byte} (hu : WellFormed u) {b : Byte}
    (hb : b = 0xC0 ∨ b = 0xC1) : ¬ IsPrefix (u ++ [b]) := by
  rw [← isSome_run_utf8Machine_iff, Partial.run_concat,
    (run_utf8Machine_eq_start_iff u).mpr hu]
  show ¬ (lead b).isSome
  rcases hb with rfl | rfl
  · simp [lead]
  · simp [lead]

/-! ### `lateMachine` -/

/-- `lateMachine` and `utf8Machine` agree as long as no `C0` or `C1` leads. -/
theorem run_lateMachine_eq_valid_iff (s : List Byte) (q : State) :
    lateMachine.run (.valid .start) s = some (.valid q)
      ↔ utf8Machine.run .start s = some q := by
  induction s using List.reverseRecOn generalizing q with
  | nil => simp
  | append_singleton s b ih =>
      rw [Partial.run_concat, Partial.run_concat, Option.bind_eq_some_iff,
        Option.bind_eq_some_iff]
      constructor
      · rintro ⟨v, hv, hstep⟩
        cases v with
        | valid p =>
            refine ⟨p, (ih p).mp hv, ?_⟩
            change (if p = .start ∧ (b = 0xC0 ∨ b = 0xC1) then some Seen.overlongLead
              else (utf8Machine.step p b).map .valid) = some (.valid q) at hstep
            split at hstep
            · cases hstep
            · simpa using hstep
        | overlongLead => cases hstep -- no byte can follow it
      · rintro ⟨p, hp, hstep⟩
        refine ⟨.valid p, (ih p).mpr hp, ?_⟩
        show (if p = .start ∧ (b = 0xC0 ∨ b = 0xC1) then some Seen.overlongLead
          else (utf8Machine.step p b).map .valid) = some (.valid q)
        rw [hstep, if_neg]
        · rfl
        · -- `lead` refuses both bytes.
          rintro ⟨rfl, rfl | rfl⟩
          · exact nomatch (show (none : Option State) = some q from hstep)
          · exact nomatch (show (none : Option State) = some q from hstep)

/-- `lateMachine` is in its state of its own exactly after a well-formed string and one
byte `C0` or `C1`. -/
theorem run_lateMachine_eq_overlongLead_iff (s : List Byte) :
    lateMachine.run (.valid .start) s = some .overlongLead
      ↔ ∃ u b, s = u ++ [b] ∧ WellFormed u ∧ (b = 0xC0 ∨ b = 0xC1) := by
  rcases List.eq_nil_or_concat' s with rfl | ⟨u, b, rfl⟩
  · simp
  · rw [Partial.run_concat, Option.bind_eq_some_iff]
    constructor
    · rintro ⟨v, hv, hstep⟩
      cases v with
      | valid p =>
          change (if p = .start ∧ (b = 0xC0 ∨ b = 0xC1) then some Seen.overlongLead
            else (utf8Machine.step p b).map .valid) = some .overlongLead at hstep
          split at hstep
          · next hlead =>
              refine ⟨u, b, rfl, ?_, hlead.2⟩
              obtain ⟨rfl, -⟩ := hlead
              exact (run_utf8Machine_eq_start_iff u).mp
                ((run_lateMachine_eq_valid_iff u .start).mp hv)
          · simp at hstep
      | overlongLead => cases hstep
    · rintro ⟨u', b', heq, hu, hb⟩
      obtain ⟨rfl, hbb⟩ := List.append_inj' heq rfl
      obtain rfl : b = b' := by simpa using hbb
      refine ⟨.valid .start, ?_, if_pos ⟨rfl, hb⟩⟩
      exact (run_lateMachine_eq_valid_iff u .start).mpr
        ((run_utf8Machine_eq_start_iff u).mpr hu)

/-- `lateMachine` has not refused exactly on the prefixes of well-formed strings and on the
well-formed strings with one byte `C0` or `C1` behind them. -/
theorem isSome_run_lateMachine_iff (s : List Byte) :
    (lateMachine.run (.valid .start) s).isSome
      ↔ IsPrefix s ∨ ∃ u b, s = u ++ [b] ∧ WellFormed u ∧ (b = 0xC0 ∨ b = 0xC1) := by
  rw [← run_lateMachine_eq_overlongLead_iff, ← isSome_run_utf8Machine_iff]
  have hvalid := run_lateMachine_eq_valid_iff s
  cases hrun : lateMachine.run (.valid .start) s with
  | none =>
      -- A state of `utf8Machine` would be a state of `lateMachine`.
      have hnone : utf8Machine.run .start s = none := by
        rw [Option.eq_none_iff_forall_ne_some]
        intro q hq
        rw [← hvalid, hrun] at hq
        cases hq
      simp [hnone]
  | some v =>
      cases v with
      | valid q => simp [(hvalid q).mp hrun]
      | overlongLead => simp

/-- The strings on which `lateMachine` is between sequences are the well-formed ones. -/
theorem run_lateMachine_eq_start_iff (s : List Byte) :
    lateMachine.run (.valid .start) s = some (.valid .start) ↔ WellFormed s :=
  (run_lateMachine_eq_valid_iff s .start).trans (run_utf8Machine_eq_start_iff s)

/-- `lateMachine` owes no continuation byte only between sequences. -/
theorem need_eq_zero_iff (v : Seen) : v.need = 0 ↔ v = .valid .start := by
  cases v with
  | valid q => cases q <;> decide
  | overlongLead => decide

/-- A block of ASCII bytes follows complete strings only, and leaves them complete. -/
theorem run_lateMachine_ascii (v : Seen) (s : List Byte) (hne : s ≠ [])
    (hs : ∀ b ∈ s, b ≤ 0x7F) :
    lateMachine.run v s = if v = .valid .start then some (.valid .start) else none := by
  have hstep : ∀ b : Byte, b ≤ 0x7F → ∀ v, lateMachine.step v b
      = if v = .valid .start then some (.valid .start) else none := by
    intro b hb v
    revert b
    cases v with
    | valid q => cases q <;> decide +kernel
    | overlongLead => decide +kernel
  -- Once between sequences, the machine stays there.
  have hstart : ∀ t : List Byte, (∀ b ∈ t, b ≤ 0x7F) →
      lateMachine.run (.valid .start) t = some (.valid .start) := by
    intro t
    induction t with
    | nil => intro _; rfl
    | cons b t ih =>
        intro ht
        rw [Partial.run_cons, hstep b (ht b List.mem_cons_self), if_pos rfl]
        exact ih fun c hc => ht c (List.mem_cons_of_mem b hc)
  cases s with
  | nil => exact absurd rfl hne
  | cons b s =>
      rw [Partial.run_cons, hstep b (hs b List.mem_cons_self)]
      split
      · exact hstart s fun c hc => hs c (List.mem_cons_of_mem b hc)
      · rfl

end FastValidate.Proofs
