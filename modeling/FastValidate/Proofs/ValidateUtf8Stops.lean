import FastValidate.Proofs.ValidateUtf8Reads

/-!
# `FastValidate.Proofs.ValidateUtf8Stops`: where the scalar validator stops

Here are the reads of `validate_utf8` in full, and not only their bound. Every read is at the
index, which then moves on by one, so the reads take the bytes before the index once and in
order (`InOrder`). Where the validator returns false, it has read at most four bytes behind
the longest prefix that it accepts (`validateUtf8_stops`).

The invariant of the loop is `Passed`: the validator on any longer text comes through the
same index. It is kept because a sequence is read alike in every buffer that holds it
(`trailingBytes_congr`).
-/

set_option autoImplicit false

namespace FastValidate.Proofs

open Simd Memory
open FastValidate.Code

variable {bytes : Ptr} {length : BitVec 64} {c : Cursor}

/-! ### Reads in a row -/

/-- The reads take the bytes before the index, each once and in order. -/
def InOrder (c : Cursor) : Prop :=
  c.reads.map BitVec.toNat = (List.range c.index.toNat).reverse

/-- The state after `k` reads. -/
def afterReads (bytes : Ptr) : ℕ → Cursor → Cursor
  | 0, c => c
  | k + 1, c => afterReads bytes k (c.next bytes).2

/-- The step lemma: one read. -/
theorem InOrder.next (h : InOrder c) (bytes : Ptr) (hlt : c.index.toNat + 1 < 2 ^ 64) :
    InOrder (c.next bytes).2 ∧ (c.next bytes).2.index.toNat = c.index.toNat + 1 := by
  have hindex : (c.next bytes).2.index.toNat = c.index.toNat + 1 :=
    BitVec.toNat_add_of_lt hlt
  refine ⟨?_, hindex⟩
  rw [InOrder, hindex, List.range_succ, List.reverse_concat, ← h]
  rfl

/-- The run lemma: reads in a row. -/
theorem InOrder.afterReads (h : InOrder c) (bytes : Ptr) (k : ℕ)
    (hlt : c.index.toNat + k < 2 ^ 64) :
    InOrder (afterReads bytes k c) ∧
      (Proofs.afterReads bytes k c).index.toNat = c.index.toNat + k := by
  induction k generalizing c with
  | zero => exact ⟨h, rfl⟩
  | succ k ih =>
      have hnext := h.next bytes (by omega)
      have hrest := ih hnext.1 (by omega)
      rw [hnext.2, Nat.add_assoc, Nat.add_comm 1] at hrest
      exact hrest

/-- The result of a form comes after at most `m` reads. -/
def ReadsUpTo (bytes : Ptr) (m : ℕ) (c : Cursor) (r : Option Bool × Cursor) : Prop :=
  ∃ k ≤ m, r.2 = afterReads bytes k c

/-- A result without a read. -/
theorem ReadsUpTo.none (m : ℕ) (c : Cursor) (result : Option Bool) :
    ReadsUpTo bytes m c (result, c) := ⟨0, Nat.zero_le m, rfl⟩

/-- One read before the others. -/
theorem ReadsUpTo.next {m : ℕ} {r : Option Bool × Cursor}
    (h : ReadsUpTo bytes m (c.next bytes).2 r) : ReadsUpTo bytes (m + 1) c r := by
  obtain ⟨k, hk, hr⟩ := h
  exact ⟨k + 1, by omega, hr⟩

/-- A condition that returns false. -/
theorem ReadsUpTo.test {p : Prop} [Decidable p] {m : ℕ} {r : Option Bool × Cursor}
    (h : ReadsUpTo bytes m c r) : ReadsUpTo bytes m c (if p then (some false, c) else r) := by
  split
  · exact .none m c _
  · exact h

/-- A trailing-byte test is one read. -/
theorem ReadsUpTo.trailingTest {m : ℕ} {rest : Cursor → Option Bool × Cursor}
    (h : ReadsUpTo bytes m (c.next bytes).2 (rest (c.next bytes).2)) :
    ReadsUpTo bytes (m + 1) c (trailingTest bytes c rest) :=
  .next (.test h)

/-- The form that a lead selects reads at most three bytes. -/
theorem readsUpTo_lead (bytes : Ptr) (length : BitVec 64) (byte1 : Byte) (c : Cursor) :
    ReadsUpTo bytes 3 c
      (if byte1 < 0xE0 then twoByteForm bytes length byte1 c
        else if byte1 < 0xF0 then threeByteForm bytes length byte1 c
        else fourByteForm bytes length byte1 c) := by
  split
  · exact .test (.test (.trailingTest (.none _ _ _)))
  · split
    · exact .test (.next (.test (.trailingTest (.none _ _ _))))
    · exact .test (.next (.test (.trailingTest (.trailingTest (.none _ _ _)))))

/-! ### One sequence in two buffers -/

section Sequence

variable {len index count q : ℕ} {byte1 : Byte}

/-- A test that the form has passed. -/
theorem of_test {p : Prop} [Decidable p] {trailing : Option (Option ℕ)}
    (h : (if p then some none else trailing) = some (some count)) :
    trailing = some (some count) := by
  split at h
  · cases h
  · exact h

/-- A sequence is read alike in every buffer that holds it. -/
theorem trailingBytes_congr (hindex : index ≤ len)
    (h : trailingBytes bytes len byte1 index = some (some count)) (hq : index + count ≤ q) :
    trailingBytes bytes q byte1 index = some (some count) := by
  -- Where the form goes on, its guard has let it pass, and it has read `count` bytes.
  by_cases hE0 : byte1 < 0xE0
  · by_cases hend : index = len
    · rw [trailingBytes_short (.inl ⟨hE0, hend⟩)] at h
      cases h
    · rw [trailingBytes_two hE0 (by omega)] at h
      obtain rfl : 1 = count := by simpa using of_test (of_test h)
      rw [trailingBytes_two hE0 (by omega)]
      exact h
  · by_cases hF0 : byte1 < 0xF0
    · by_cases hend : len ≤ index + 1
      · rw [trailingBytes_short (.inr (.inl ⟨hE0, hF0, hend⟩))] at h
        cases h
      · rw [trailingBytes_three hE0 hF0 (by omega)] at h
        obtain rfl : 2 = count := by simpa using of_test (of_test h)
        rw [trailingBytes_three hE0 hF0 (by omega)]
        exact h
    · by_cases hend : len ≤ index + 2
      · rw [trailingBytes_short (.inr (.inr ⟨hF0, hend⟩))] at h
        cases h
      · rw [trailingBytes_four hF0 (by omega)] at h
        obtain rfl : 3 = count := by simpa using of_test (of_test (of_test h))
        rw [trailingBytes_four hF0 (by omega)]
        exact h

/-- Where no sequence is read, none is read in a shorter buffer. -/
theorem validateUtf8From_cut (hlt : index < q) (hle : q ≤ len) (hlead : ¬ bytes index < 0x80)
    (h : trailingBytes bytes len (bytes index) (index + 1) = some none) :
    validateUtf8From bytes q index = some false := by
  have hread : ReadsSequence bytes q (bytes index) (index + 1) := readsSequence hlead hlt
  obtain ⟨r, hr, hok⟩ := hread
  rw [validateUtf8From_lead hlt hlead hr]
  cases r with
  | none => rfl
  | some count =>
      -- The longer buffer would hold the sequence as well.
      rw [trailingBytes_congr hlt hr (Nat.le_trans hok.1 hle)] at h
      cases h

end Sequence

/-! ### The loop -/

/-- The invariant at the head of a round: the reads are in order, and the validator on every
text that is as long comes through the index. -/
structure Passed (bytes : Ptr) (length : BitVec 64) (c : Cursor) : Prop where
  inside : Inside length c
  inOrder : InOrder c
  through : ∀ q, c.index.toNat ≤ q →
    validateUtf8 bytes q = validateUtf8From bytes q c.index.toNat

/-- Before the first round nothing has been passed. -/
theorem passed_init (bytes : Ptr) (length : BitVec 64) : Passed bytes length Cursor.init where
  inside := inside_init length
  inOrder := rfl
  through _ _ := rfl

/-- What the state `last` says in which the validator returns `verdict`. Where it returns
false, `start` bytes are the longest prefix that it accepts, and the index is behind them and
at most the length. -/
structure Stops (bytes : Ptr) (length : BitVec 64) (verdict : Bool) (last : Cursor) : Prop where
  inOrder : InOrder last
  accepted : verdict = true →
    last.index = length ∧ validateUtf8 bytes length.toNat = some true
  refused : verdict = false → ∃ start, start < last.index.toNat ∧
    last.index.toNat ≤ start + 4 ∧ last.index.toNat ≤ length.toNat ∧
    validateUtf8 bytes start = some true ∧
    ∀ q, start < q → q ≤ length.toNat → validateUtf8 bytes q = some false

/-- What a round does: it stops, or it goes on with the invariant and has moved the index. -/
inductive RoundStops (bytes : Ptr) (length : BitVec 64) (c : Cursor) :
    Option Bool × Cursor → Prop
  | stops {verdict : Bool} {last : Cursor} (h : Stops bytes length verdict last) :
      RoundStops bytes length c (some verdict, last)
  | goesOn {next : Cursor} (h : Passed bytes length next)
      (hgrow : c.index.toNat < next.index.toNat) : RoundStops bytes length c (none, next)

/-- A round that goes into a form. -/
theorem Passed.form (h : Passed bytes length c) (hlen : length.toNat ≤ PTRDIFF_MAX)
    (hlt : c.index.toNat < length.toNat) (hlead : ¬ bytes c.index.toNat < 0x80)
    {r : Option Bool × Cursor}
    (hform : FormOk length (c.index.toNat + 1) r
      (trailingBytes bytes length.toNat (bytes c.index.toNat) (c.index.toNat + 1)))
    (hreads : ReadsUpTo bytes 3 (c.next bytes).2 r) : RoundStops bytes length c r := by
  have hmax : PTRDIFF_MAX = 2 ^ 63 - 1 := rfl
  obtain ⟨horder, hindex⟩ := h.inOrder.next bytes (by omega)
  obtain ⟨k, hk, hr⟩ := hreads
  obtain ⟨horder', hindex'⟩ := horder.afterReads bytes k (by omega)
  rw [← hr] at horder' hindex'
  obtain ⟨out, last⟩ := r
  change last.index.toNat = _ at hindex'
  obtain ⟨hinside, ⟨rfl, htrailing⟩ | ⟨count, rfl, hcount, htrailing⟩⟩ := hform
  · -- The round began behind an accepted prefix, and no longer one is accepted.
    refine .stops ⟨horder', fun htrue => absurd htrue (by decide), fun _ => ?_⟩
    refine ⟨c.index.toNat, by omega, by omega, hinside.index_le, ?_, fun q hq hle => ?_⟩
    · rw [h.through _ (Nat.le_refl _)]
      exact validateUtf8From_of_le (Nat.le_refl _)
    · rw [h.through q (Nat.le_of_lt hq)]
      exact validateUtf8From_cut hq hle hlead htrailing
  · -- Any text that reaches the new index holds the sequence.
    change last.index.toNat = _ at hcount
    refine .goesOn ⟨hinside, horder', fun q hq => ?_⟩ (by omega)
    have hsame := trailingBytes_congr (q := q) hlt htrailing (by omega)
    rw [h.through q (by omega), validateUtf8From_lead (by omega) hlead hsame,
      Option.elim_some, hcount]

/-- The step lemma. -/
theorem Passed.round (h : Passed bytes length c) (hlen : length.toNat ≤ PTRDIFF_MAX) :
    RoundStops bytes length c (validateUtf8Round bytes length c) := by
  have hmax : PTRDIFF_MAX = 2 ^ 63 - 1 := rfl
  rw [validateUtf8Round]
  by_cases hend : c.index ≥ length
  · rw [if_pos hend]
    refine .stops ⟨h.inOrder, fun _ => ⟨?_, ?_⟩, fun hfalse => absurd hfalse (by decide)⟩
    · exact BitVec.eq_of_toNat_eq (Nat.le_antisymm h.inside.index_le hend)
    · rw [h.through _ h.inside.index_le]
      exact validateUtf8From_of_le hend
  · have hlt : c.index.toNat < length.toNat := Nat.lt_of_not_ge hend
    have hnext : Inside length (c.next bytes).2 := h.inside.next hlt
    obtain ⟨horder, hindex⟩ := h.inOrder.next bytes (by omega)
    rw [if_neg hend]
    show RoundStops bytes length c
      (if bytes c.index.toNat < 0x80 then (none, (c.next bytes).2) else _)
    by_cases hascii : bytes c.index.toNat < 0x80
    · rw [if_pos hascii]
      refine .goesOn ⟨hnext, horder, fun q hq => ?_⟩ (by omega)
      rw [h.through q (by omega), validateUtf8From_ascii (by omega) hascii, hindex]
    · rw [if_neg hascii]
      have hform := formOk_lead bytes (bytes c.index.toNat) hnext hlen
      rw [hindex] at hform
      exact h.form hlen hlt hascii hform
        (readsUpTo_lead bytes length (bytes c.index.toNat) (c.next bytes).2)

/-- The run lemma. Induction on the rounds. -/
theorem Passed.rounds (hlen : length.toNat ≤ PTRDIFF_MAX) (fuel : ℕ) :
    ∀ c : Cursor, Passed bytes length c → length.toNat - c.index.toNat < fuel →
      ∃ verdict last, validateUtf8Rounds bytes length fuel c = some (verdict, last) ∧
        Stops bytes length verdict last := by
  induction fuel with
  | zero =>
      intro c _ hfuel
      exact absurd hfuel (Nat.not_lt_zero _)
  | succ fuel ih =>
      intro c h hfuel
      have hround := h.round hlen
      rw [validateUtf8Rounds]
      generalize validateUtf8Round bytes length c = r at hround ⊢
      cases hround with
      | @stops verdict last hstops => exact ⟨verdict, last, rfl, hstops⟩
      | @goesOn next hpassed hgrow =>
          have hle := hpassed.inside.index_le
          exact ih next hpassed (by omega)

/-- For every buffer and every length of an object, the function returns, and its reads take
the bytes before the last index once and in order. If it returns true, the last index is the
length. If it returns false, the last index is at most the length, and one to four bytes
behind the longest prefix that the function accepts. -/
theorem validateUtf8_stops (bytes : Ptr) (length : BitVec 64)
    (hlen : length.toNat ≤ PTRDIFF_MAX) :
    ∃ verdict last,
      validateUtf8Rounds bytes length (length.toNat + 1) Cursor.init = some (verdict, last) ∧
        Stops bytes length verdict last :=
  Passed.rounds hlen (length.toNat + 1) Cursor.init (passed_init bytes length)
    (Nat.lt_succ_of_le (Nat.sub_le _ _))

/-- The text `41 E0 28 41`, which has no sequence behind the first byte. -/
theorem validateUtf8_stops_41_E0_28_41 :
    ∃ verdict last,
      validateUtf8Rounds (fun i => [0x41, 0xE0, 0x28, 0x41].getD i 0) 4 5 Cursor.init
          = some (verdict, last) ∧
        Stops (fun i => [0x41, 0xE0, 0x28, 0x41].getD i 0) 4 verdict last :=
  validateUtf8_stops (fun i => [0x41, 0xE0, 0x28, 0x41].getD i 0) 4 (by decide)

end FastValidate.Proofs
