import FastValidate.Code.BenchmarkReads
import FastValidate.Proofs.ValidateUtf8

/-!
# `FastValidate.Proofs.ValidateUtf8Reads`: the reads of the scalar validator

At the head of every round the index is at most the length, and every read so far was below
it (`Inside`). The guard of each form covers the reads behind it: `Inside.next` is the step
of one read, and `FormOk` says what a form does. A round that does not return has moved the
index on, so a text of `length` bytes takes at most `length + 1` rounds
(`validateUtf8Rounds_spec`), and the returned value is that of `validateUtf8`.

A length up to `PTRDIFF_MAX` leaves room for `index + 2`, which does not wrap.
-/

set_option autoImplicit false

namespace FastValidate.Proofs

open Simd Memory
open FastValidate.Code

/-- The state of a run that stays inside the buffer. -/
structure Inside (length : BitVec 64) (c : Cursor) : Prop where
  index_le : c.index.toNat ≤ length.toNat
  reads_lt : ∀ i ∈ c.reads, i < length

/-- Before the first read nothing is outside. -/
theorem inside_init (length : BitVec 64) : Inside length Cursor.init where
  index_le := Nat.zero_le _
  reads_lt _ hi := nomatch hi

variable {bytes : Ptr} {length : BitVec 64} {c : Cursor}

/-- The index after a read below the length. -/
theorem toNat_next_index (hlt : c.index.toNat < length.toNat) :
    (c.next bytes).2.index.toNat = c.index.toNat + 1 := by
  have hlen := length.isLt
  show (c.index + 1).toNat = c.index.toNat + 1
  rw [BitVec.toNat_add]
  exact Nat.mod_eq_of_lt (by simp; omega)

/-- A read below the length stays inside. -/
theorem Inside.next (h : Inside length c) (hlt : c.index.toNat < length.toNat) :
    Inside length (c.next bytes).2 where
  index_le := by
    rw [toNat_next_index hlt]
    exact hlt
  reads_lt i hi := by
    rcases List.mem_cons.mp hi with rfl | hi
    · exact hlt
    · exact h.reads_lt i hi

/-- The guard of a form with `k` reads to come after the next one: `index + k` does not
wrap. -/
theorem Inside.guard_iff (h : Inside length c) (hlen : length.toNat ≤ PTRDIFF_MAX)
    {k : BitVec 64} (hk : k.toNat ≤ 2) :
    c.index + k ≥ length ↔ length.toNat ≤ c.index.toNat + k.toNat := by
  have hindex := h.index_le
  have hsum : (c.index + k).toNat = c.index.toNat + k.toNat := by
    rw [BitVec.toNat_add]
    unfold PTRDIFF_MAX at hlen
    exact Nat.mod_eq_of_lt (by omega)
  rw [ge_iff_le, BitVec.le_def, hsum]

/-! ### One form -/

/-- The result `r` of a form whose reads begin at `index` stays inside, and it returns false
or goes on as `trailing` says. -/
structure FormOk (length : BitVec 64) (index : ℕ) (r : Option Bool × Cursor)
    (trailing : Option (Option ℕ)) : Prop where
  inside : Inside length r.2
  trailing : (r.1 = some false ∧ trailing = some none) ∨
    ∃ count, r.1 = none ∧ r.2.index.toNat = index + count ∧ trailing = some (some count)

variable {index : ℕ} {byte1 : Byte}

/-- A form that returns false with no further read. -/
theorem FormOk.returnsFalse (h : Inside length c) :
    FormOk length index (some false, c) (some none) where
  inside := h
  trailing := .inl ⟨rfl, rfl⟩

/-- A form at its end, after `count` reads. -/
theorem FormOk.goesOn {count : ℕ} (h : Inside length c)
    (hindex : c.index.toNat = index + count) :
    FormOk length index (none, c) (some (some count)) where
  inside := h
  trailing := .inr ⟨count, rfl, hindex, rfl⟩

/-- A condition that returns false. -/
theorem FormOk.test {p : Prop} [Decidable p] {r : Option Bool × Cursor}
    {trailing : Option (Option ℕ)} (h : Inside length c)
    (hrest : ¬ p → FormOk length index r trailing) :
    FormOk length index (if p then (some false, c) else r)
      (if p then some none else trailing) := by
  by_cases hp : p
  · rw [if_pos hp, if_pos hp]
    exact .returnsFalse h
  · rw [if_neg hp, if_neg hp]
    exact hrest hp

/-- A trailing-byte test, whose read the guard has let pass. -/
theorem FormOk.trailingTest {rest : Cursor → Option Bool × Cursor}
    {trailing : Option (Option ℕ)} (h : Inside length c) (hlt : c.index.toNat < length.toNat)
    (hrest : Inside length (c.next bytes).2 →
      FormOk length index (rest (c.next bytes).2) trailing) :
    FormOk length index (trailingTest bytes c rest)
      (if bytes c.index.toNat > 0xBF then some none else trailing) := by
  have hnext : Inside length (c.next bytes).2 := h.next hlt
  exact .test hnext fun _ => hrest hnext

/-- The two-byte form stays inside and agrees. -/
theorem formOk_two (h : Inside length c) (hhi : byte1 < 0xE0) :
    FormOk length c.index.toNat (twoByteForm bytes length byte1 c)
      (trailingBytes bytes length.toNat byte1 c.index.toNat) := by
  rw [twoByteForm]
  by_cases hend : c.index = length
  · have hend' : c.index.toNat = length.toNat := congrArg BitVec.toNat hend
    rw [if_pos hend, trailingBytes_short (.inl ⟨hhi, hend'⟩)]
    exact .returnsFalse h
  · -- The guard asks for equality only, and the invariant makes it an inequality.
    have hlt : c.index.toNat < length.toNat :=
      lt_of_le_of_ne h.index_le fun heq => hend (BitVec.eq_of_toNat_eq heq)
    rw [if_neg hend, trailingBytes_two hhi hlt]
    refine .test h fun _ => ?_
    refine .trailingTest h hlt fun hnext => ?_
    exact .goesOn hnext (toNat_next_index hlt)

/-- The three-byte form stays inside and agrees: below the largest length `index + 1` does not
wrap. -/
theorem formOk_three (h : Inside length c) (hlen : length.toNat ≤ PTRDIFF_MAX)
    (hlo : ¬ byte1 < 0xE0) (hhi : byte1 < 0xF0) :
    FormOk length c.index.toNat (threeByteForm bytes length byte1 c)
      (trailingBytes bytes length.toNat byte1 c.index.toNat) := by
  have hguard : c.index + 1 ≥ length ↔ length.toNat ≤ c.index.toNat + 1 :=
    h.guard_iff hlen (by decide)
  rw [threeByteForm]
  by_cases hend : length.toNat ≤ c.index.toNat + 1
  · rw [if_pos (hguard.mpr hend), trailingBytes_short (.inr (.inl ⟨hlo, hhi, hend⟩))]
    exact .returnsFalse h
  · -- The guard covers both reads.
    have hlt : c.index.toNat < length.toNat := by omega
    have hindex : (c.next bytes).2.index.toNat = c.index.toNat + 1 := toNat_next_index hlt
    have hlt2 : (c.next bytes).2.index.toNat < length.toNat := by omega
    have hindex2 : ((c.next bytes).2.next bytes).2.index.toNat = c.index.toNat + 2 := by
      rw [toNat_next_index hlt2, hindex]
    have hnext : Inside length (c.next bytes).2 := h.next hlt
    rw [if_neg fun hg => hend (hguard.mp hg), trailingBytes_three hlo hhi (by omega), ← hindex]
    refine .test hnext fun _ => ?_
    refine .trailingTest hnext hlt2 fun hnext2 => ?_
    exact .goesOn hnext2 hindex2

/-- The four-byte form stays inside and agrees: `index + 2` does not wrap. -/
theorem formOk_four (h : Inside length c) (hlen : length.toNat ≤ PTRDIFF_MAX)
    (hlo : ¬ byte1 < 0xF0) :
    FormOk length c.index.toNat (fourByteForm bytes length byte1 c)
      (trailingBytes bytes length.toNat byte1 c.index.toNat) := by
  have hguard : c.index + 2 ≥ length ↔ length.toNat ≤ c.index.toNat + 2 :=
    h.guard_iff hlen (by decide)
  rw [fourByteForm]
  by_cases hend : length.toNat ≤ c.index.toNat + 2
  · rw [if_pos (hguard.mpr hend), trailingBytes_short (.inr (.inr ⟨hlo, hend⟩))]
    exact .returnsFalse h
  · have hlt : c.index.toNat < length.toNat := by omega
    have hindex : (c.next bytes).2.index.toNat = c.index.toNat + 1 := toNat_next_index hlt
    have hlt2 : (c.next bytes).2.index.toNat < length.toNat := by omega
    have hnext : Inside length (c.next bytes).2 := h.next hlt
    have hindex2 : ((c.next bytes).2.next bytes).2.index.toNat = c.index.toNat + 2 := by
      rw [toNat_next_index hlt2, hindex]
    have hlt3 : ((c.next bytes).2.next bytes).2.index.toNat < length.toNat := by omega
    have hindex3 : (((c.next bytes).2.next bytes).2.next bytes).2.index.toNat
        = c.index.toNat + 3 := by
      rw [toNat_next_index hlt3, hindex2]
    rw [if_neg fun hg => hend (hguard.mp hg), trailingBytes_four hlo (by omega), ← hindex,
      ← hindex2]
    refine .test hnext fun _ => ?_
    refine .trailingTest hnext hlt2 fun hnext2 => ?_
    refine .trailingTest hnext2 hlt3 fun hnext3 => ?_
    exact .goesOn hnext3 hindex3

/-- The form that a lead selects. -/
theorem formOk_lead (bytes : Ptr) (byte1 : Byte) (h : Inside length c)
    (hlen : length.toNat ≤ PTRDIFF_MAX) :
    FormOk length c.index.toNat
      (if byte1 < 0xE0 then twoByteForm bytes length byte1 c
        else if byte1 < 0xF0 then threeByteForm bytes length byte1 c
        else fourByteForm bytes length byte1 c)
      (trailingBytes bytes length.toNat byte1 c.index.toNat) := by
  by_cases hE0 : byte1 < 0xE0
  · rw [if_pos hE0]
    exact formOk_two h hE0
  · rw [if_neg hE0]
    by_cases hF0 : byte1 < 0xF0
    · rw [if_pos hF0]
      exact formOk_three h hlen hE0 hF0
    · rw [if_neg hF0]
      exact formOk_four h hlen hF0

/-! ### The loop -/

/-- The result `r` of a round stays inside. Where the round returns, `validateUtf8From`
returns the same at its index, and where it goes on, the index has grown and
`validateUtf8From` does the same there. -/
structure RoundOk (bytes : Ptr) (length : BitVec 64) (c : Cursor)
    (r : Option Bool × Cursor) : Prop where
  inside : Inside length r.2
  outcome : (∃ verdict, r.1 = some verdict ∧
      validateUtf8From bytes length.toNat c.index.toNat = some verdict) ∨
    (r.1 = none ∧ c.index.toNat < r.2.index.toNat ∧
      validateUtf8From bytes length.toNat c.index.toNat
        = validateUtf8From bytes length.toNat r.2.index.toNat)

/-- A round that goes into a form. -/
theorem FormOk.roundOk {r : Option Bool × Cursor} (hlt : c.index.toNat < length.toNat)
    (hlead : ¬ bytes c.index.toNat < 0x80)
    (hform : FormOk length (c.index.toNat + 1) r
      (trailingBytes bytes length.toNat (bytes c.index.toNat) (c.index.toNat + 1))) :
    RoundOk bytes length c r := by
  refine ⟨hform.inside, ?_⟩
  rcases hform.trailing with ⟨hfalse, htrailing⟩ | ⟨count, hnone, hcount, htrailing⟩
  · exact .inl ⟨false, hfalse, validateUtf8From_lead hlt hlead htrailing⟩
  · have hfrom := validateUtf8From_lead hlt hlead htrailing
    rw [Option.elim_some, ← hcount] at hfrom
    exact .inr ⟨hnone, by omega, hfrom⟩

/-- One round keeps the invariant and agrees with `validateUtf8From`. -/
theorem validateUtf8Round_ok (bytes : Ptr) (h : Inside length c)
    (hlen : length.toNat ≤ PTRDIFF_MAX) :
    RoundOk bytes length c (validateUtf8Round bytes length c) := by
  rw [validateUtf8Round]
  by_cases hend : c.index ≥ length
  · rw [if_pos hend]
    exact ⟨h, .inl ⟨true, rfl, validateUtf8From_of_le hend⟩⟩
  · have hlt : c.index.toNat < length.toNat := Nat.lt_of_not_ge hend
    have hnext : Inside length (c.next bytes).2 := h.next hlt
    have hindex : (c.next bytes).2.index.toNat = c.index.toNat + 1 := toNat_next_index hlt
    rw [if_neg hend]
    show RoundOk bytes length c
      (if bytes c.index.toNat < 0x80 then (none, (c.next bytes).2) else _)
    by_cases hascii : bytes c.index.toNat < 0x80
    · rw [if_pos hascii]
      have hgrow : c.index.toNat < (c.next bytes).2.index.toNat := by omega
      have hfrom := validateUtf8From_ascii hlt hascii
      rw [← hindex] at hfrom
      exact ⟨hnext, .inr ⟨rfl, hgrow, hfrom⟩⟩
    · rw [if_neg hascii]
      have hform := formOk_lead bytes (bytes c.index.toNat) hnext hlen
      rw [hindex] at hform
      exact hform.roundOk hlt hascii

/-- From any state inside the buffer the loop returns within one round more than there are
bytes left, and it stays inside to the end. Induction on the rounds. -/
theorem validateUtf8Rounds_spec (bytes : Ptr) (hlen : length.toNat ≤ PTRDIFF_MAX) (fuel : ℕ) :
    ∀ c : Cursor, Inside length c → length.toNat - c.index.toNat < fuel →
      ∃ verdict last, validateUtf8Rounds bytes length fuel c = some (verdict, last) ∧
        Inside length last ∧
        validateUtf8From bytes length.toNat c.index.toNat = some verdict := by
  induction fuel with
  | zero =>
      intro c _ hfuel
      exact absurd hfuel (Nat.not_lt_zero _)
  | succ fuel ih =>
      intro c h hfuel
      have hround := validateUtf8Round_ok bytes h hlen
      rw [validateUtf8Rounds]
      generalize validateUtf8Round bytes length c = r at hround ⊢
      obtain ⟨out, next⟩ := r
      obtain ⟨hinside, ⟨verdict, rfl, hfrom⟩ | ⟨rfl, hlt, hfrom⟩⟩ := hround
      · exact ⟨verdict, next, rfl, hinside, hfrom⟩
      · -- The index has grown, so one round less is enough for the bytes left.
        have hgrow : c.index.toNat < next.index.toNat := hlt
        have hle : next.index.toNat ≤ length.toNat := hinside.index_le
        rw [hfrom]
        exact ih next hinside (by omega)

/-- For every buffer and every length of an object, the function returns, every read on its
path is below the length, and the value is the one that `validateUtf8` gives. -/
theorem validateUtf8_reads_lt (bytes : Ptr) (length : BitVec 64)
    (hlen : length.toNat ≤ PTRDIFF_MAX) :
    ∃ verdict last,
      validateUtf8Rounds bytes length (length.toNat + 1) Cursor.init = some (verdict, last) ∧
        (∀ i ∈ last.reads, i < length) ∧
        validateUtf8 bytes length.toNat = some verdict := by
  obtain ⟨verdict, last, hrounds, hinside, hfrom⟩ :=
    validateUtf8Rounds_spec bytes hlen (length.toNat + 1) Cursor.init (inside_init length)
      (Nat.lt_succ_of_le (Nat.sub_le _ _))
  exact ⟨verdict, last, hrounds, hinside.reads_lt, hfrom⟩

/-- The text `41 E0 A0`, cut in its second character. -/
theorem validateUtf8_reads_lt_41_E0_A0 :
    ∃ verdict last,
      validateUtf8Rounds (fun i => [0x41, 0xE0, 0xA0].getD i 0) 3 4 Cursor.init
          = some (verdict, last) ∧
        (∀ i ∈ last.reads, i < 3) ∧
        validateUtf8 (fun i => [0x41, 0xE0, 0xA0].getD i 0) 3 = some verdict :=
  validateUtf8_reads_lt (fun i => [0x41, 0xE0, 0xA0].getD i 0) 3 (by decide)

end FastValidate.Proofs
