import FastValidate.Code.Benchmark
import FastValidate.Proofs.SimdUtf8Check

/-!
# `FastValidate.Proofs.PopulateUtf8`: the generator writes what the validators accept

Each branch of the generator covers a row of the table: its statements write one byte for
each cell, inside the cell for every value of `rand()` (`emits_cover`). So a round appends
one legal sequence or nothing, and the text is well formed at every head of the loop
(`Populated`). Only indexes below the counter have been written there.
-/

set_option autoImplicit false

namespace FastValidate.Proofs

open Simd (Byte)
open Simd Memory
open Automata
open Computability
open FastValidate.Spec
open FastValidate.Code

/-! ### One statement -/

/-- The byte that a statement stores, where `r` is the next value of `rand()`. -/
def emitted (r : ℕ) : Emit → Byte
  | .byte w => BitVec.ofNat 8 w
  | .random lo hi => BitVec.ofNat 8 (lo + r % (hi - lo + 1))

/-- Whatever `rand()` gives, the byte is in the cell. -/
def Covers (cell : ByteRange) : Emit → Prop
  | .byte w => cell.admits (BitVec.ofNat 8 w) = true
  | .random lo hi => cell.lo.toNat ≤ lo ∧ lo ≤ hi ∧ hi ≤ cell.hi.toNat

/-- A cell and a statement are compared by their bounds. -/
instance : DecidableRel Covers
  | cell, .byte w => inferInstanceAs (Decidable (cell.admits (BitVec.ofNat 8 w) = true))
  | cell, .random lo hi =>
      inferInstanceAs (Decidable (cell.lo.toNat ≤ lo ∧ lo ≤ hi ∧ hi ≤ cell.hi.toNat))

/-- What a statement stores is in the cell that covers it. -/
theorem Covers.admits {cell : ByteRange} {e : Emit} (h : Covers cell e) (r : ℕ) :
    cell.admits (emitted r e) = true := by
  cases e with
  | byte w => exact h
  | random lo hi =>
      obtain ⟨hlo, hle, hhi⟩ := h
      have hmod : r % (hi - lo + 1) < hi - lo + 1 := Nat.mod_lt _ (by omega)
      have hcell : cell.hi.toNat < 256 := cell.hi.isLt
      have hnat : (BitVec.ofNat 8 (lo + r % (hi - lo + 1))).toNat
          = lo + r % (hi - lo + 1) := by
        rw [BitVec.toNat_ofNat]
        exact Nat.mod_eq_of_lt (by omega)
      show decide (_ ∧ _) = true
      rw [decide_eq_true_iff, BitVec.le_def, BitVec.le_def, emitted, hnat]
      omega

/-- The statements of every branch cover a row of the table, or the branch is empty. -/
theorem emits_cover : ∀ w < 256,
    emits w = [] ∨ ∃ row ∈ legalSequences, List.Forall₂ Covers row (emits w) := by
  decide +kernel

/-! ### The buffer -/

/-- From `s` to `s'` the bytes `u` have been appended, and nothing else has changed. -/
structure Appends (s s' : Populating) (u : List Byte) : Prop where
  text : slice s'.data s'.i = slice s.data s.i ++ u
  length : s'.i = s.i + u.length
  frame : ∀ j, s'.i ≤ j → s'.data j = s.data j
  written : (∀ j ∈ s.written, j < s.i) → ∀ j ∈ s'.written, j < s'.i

/-- No statements append no bytes. -/
theorem Appends.refl (s : Populating) : Appends s s [] where
  text := by simp
  length := rfl
  frame _ _ := rfl
  written h := h

/-- Two runs of statements append the bytes of the first and then those of the second. -/
theorem Appends.trans {s s' s'' : Populating} {u v : List Byte} (h : Appends s s' u)
    (h' : Appends s' s'' v) : Appends s s'' (u ++ v) where
  text := by rw [h'.text, h.text, List.append_assoc]
  length := by rw [h'.length, h.length, List.length_append, Nat.add_assoc]
  frame j hj := by
    have hlen := h'.length
    rw [h'.frame j hj, h.frame j (by omega)]
  written hs := h'.written (h.written hs)

/-- One statement appends one byte. -/
theorem appends_emit (rand : ℕ → ℕ) (s : Populating) (e : Emit) :
    Appends s (s.emit rand e) [emitted (rand s.calls) e] := by
  have hdata : (s.emit rand e).data
      = Function.update s.data s.i (emitted (rand s.calls) e) := by
    cases e <;> rfl
  have hi : (s.emit rand e).i = s.i + 1 := by cases e <;> rfl
  have hwritten : (s.emit rand e).written = s.i :: s.written := by cases e <;> rfl
  -- The text grows by the byte at the counter, and the bytes below it stay.
  constructor
  · rw [hi, slice_succ, hdata, Function.update_self]
    congr 1
    refine slice_congr fun j hj => ?_
    exact Function.update_of_ne (by omega) _ _
  · rw [hi]
    rfl
  · intro j hj
    rw [hdata, Function.update_of_ne (by omega)]
  · intro hs j hj
    rw [hi]
    rw [hwritten] at hj
    rcases List.mem_cons.mp hj with rfl | hj
    · omega
    · have := hs j hj
      omega

/-- The statements of a branch append a word of the row they cover. -/
theorem appends_foldl_emit (rand : ℕ → ℕ) {row : List ByteRange} {es : List Emit}
    (h : List.Forall₂ Covers row es) (s : Populating) :
    ∃ u, List.Forall₂ (fun c b => ByteRange.admits c b = true) row u ∧
      Appends s (es.foldl (Populating.emit rand) s) u := by
  induction h generalizing s with
  | nil => exact ⟨[], .nil, .refl s⟩
  | @cons c e row es hce _ ih =>
      obtain ⟨u, hu, happ⟩ := ih (s.emit rand e)
      exact ⟨_ :: u, .cons (hce.admits (rand s.calls)) hu, (appends_emit rand s e).trans happ⟩

/-! ### The loop -/

/-- The invariant at the head of the loop: the text so far is well formed, and it is all
that has been written over `data`. -/
structure Populated (data : Ptr) (s : Populating) : Prop where
  wellFormed : WellFormed (slice s.data s.i)
  frame : ∀ j, s.i ≤ j → s.data j = data j
  written : ∀ j ∈ s.written, j < s.i

/-- A legal sequence behind a well-formed string. -/
theorem wellFormed_append {s t : List Byte} (hs : WellFormed s) (ht : t ∈ legalSequence) :
    WellFormed (s ++ t) := by
  rw [WellFormed, ← Language.one_add_kstar_mul_self_eq_kstar]
  exact .inr (Language.append_mem_mul hs ht)

/-- The step lemma: one round appends at most four bytes and keeps the invariant. -/
theorem Populated.round {data : Ptr} {s : Populating} (h : Populated data s)
    (rand : ℕ → ℕ) :
    Populated data (s.round rand) ∧ (s.round rand).i ≤ s.i + 4 := by
  have hw : rand s.calls &&& 0xFF < 256 := by
    have hand : rand s.calls &&& 0xFF ≤ 0xFF := Nat.and_le_right
    omega
  have hround : ∃ u, (u = [] ∨ u ∈ legalSequence) ∧ u.length ≤ 4 ∧
      Appends s (s.round rand) u := by
    let s₁ : Populating := { s with calls := s.calls + 1 }
    rcases emits_cover _ hw with hempty | ⟨row, hrow, hcover⟩
    · -- The values above `F4` leave the buffer as it is.
      refine ⟨[], .inl rfl, Nat.zero_le _, ?_⟩
      show Appends s ((emits (rand s.calls &&& 0xFF)).foldl (Populating.emit rand) s₁) []
      rw [hempty]
      exact ⟨by simp [s₁], rfl, fun _ _ => rfl, fun hs => hs⟩
    · obtain ⟨u, hu, happ⟩ := appends_foldl_emit rand hcover s₁
      have hlen : ∀ row ∈ legalSequences, row.length ≤ 4 := by decide
      refine ⟨u, .inr ⟨row, hrow, hu⟩, ?_, happ.text, happ.length, happ.frame, happ.written⟩
      rw [← hu.length_eq]
      exact hlen row hrow
  obtain ⟨u, hu, hlen, happ⟩ := hround
  refine ⟨⟨?_, ?_, happ.written h.written⟩, ?_⟩
  · rw [happ.text]
    rcases hu with rfl | hu
    · rw [List.append_nil]
      exact h.wellFormed
    · exact wellFormed_append h.wellFormed hu
  · intro j hj
    have hi := happ.length
    rw [happ.frame j hj, h.frame j (by omega)]
  · rw [happ.length]
    omega

/-- The run lemma: at the exit the invariant holds, and the counter has passed `N` by at
most three. Induction on the number of rounds. -/
theorem Populated.loop {data : Ptr} (rand : ℕ → ℕ) (N : ℕ) :
    ∀ fuel (s s' : Populating), Populated data s → s.i ≤ N + 3 →
      Populating.loop rand N fuel s = some s' →
      Populated data s' ∧ N ≤ s'.i ∧ s'.i ≤ N + 3 := by
  intro fuel
  induction fuel with
  | zero =>
      intro s s' h hi hrun
      change (if s.i < N then none else some s) = some s' at hrun
      split at hrun
      · cases hrun
      · next hexit =>
          cases hrun
          exact ⟨h, Nat.le_of_not_lt hexit, hi⟩
  | succ fuel ih =>
      intro s s' h hi hrun
      change (if s.i < N then Populating.loop rand N fuel (s.round rand) else some s)
        = some s' at hrun
      split at hrun
      · next hlt =>
          obtain ⟨hround, hlen⟩ := h.round rand
          exact ih (s.round rand) s' hround (by omega) hrun
      · next hexit =>
          cases hrun
          exact ⟨h, Nat.le_of_not_lt hexit, hi⟩

/-- Where the generator returns a length `L`, it is between `N` and `N + 3`, the text is
well formed and the SSE validator accepts it, a NUL byte follows it, and nothing is written
above that byte. -/
theorem populateUtf8_wellFormed (rand : ℕ → ℕ) (fuel : ℕ) (data : Ptr) (N : ℕ)
    {s : Populating} (h : populateUtf8 rand fuel data N = some s) :
    N ≤ s.i ∧ s.i ≤ N + 3 ∧ WellFormed (slice s.data s.i) ∧
      validateUtf8Fast s.data s.i = true ∧ s.data s.i = 0 ∧
      (∀ j ∈ s.written, j ≤ s.i) ∧ ∀ j, s.i < j → s.data j = data j := by
  obtain ⟨s₀, hrun, rfl⟩ := Option.map_eq_some_iff.mp h
  have hinit : Populated data { data := data, i := 0, calls := 0, written := [] } := by
    refine ⟨?_, fun _ _ => rfl, fun _ hj => by cases hj⟩
    exact Language.nil_mem_kstar legalSequence
  obtain ⟨hpop, hN, hN3⟩ := Populated.loop rand N fuel _ s₀ hinit (Nat.zero_le _) hrun
  -- The terminating NUL byte is not part of the text.
  have htext : slice (s₀.store 0).data s₀.i = slice s₀.data s₀.i := by
    refine slice_congr fun j hj => ?_
    exact Function.update_of_ne (by omega) _ _
  have hwf : WellFormed (slice (s₀.store 0).data s₀.i) := by
    rw [htext]
    exact hpop.wellFormed
  refine ⟨hN, hN3, hwf, ?_, ?_, ?_, ?_⟩
  · exact (acceptsWellFormed_validateUtf8Fast _ _).mpr hwf
  · exact Function.update_self _ _ _
  · intro j hj
    rcases List.mem_cons.mp hj with rfl | hj
    · exact Nat.le_refl _
    · exact Nat.le_of_lt (hpop.written j hj)
  · intro j hj
    change s₀.i < j at hj
    show Function.update s₀.data s₀.i 0 j = data j
    rw [Function.update_of_ne (by omega), hpop.frame j (by omega)]

/-- A run of three rounds for `N = 5`: the values of `rand()` select a two-byte sequence,
no sequence, and a four-byte sequence. -/
theorem populateUtf8_wellFormed_run :
    ∃ s, populateUtf8 (fun k => [0xC5, 7, 9, 0xFF, 0xF4, 3, 100, 200].getD k 0) 4
        (fun _ => 0xAA) 5 = some s ∧ s.i = 6 ∧ s.written = [6, 5, 4, 3, 2, 1, 0] ∧
      WellFormed (slice s.data s.i) := by
  refine ⟨_, rfl, rfl, rfl, ?_⟩
  exact (populateUtf8_wellFormed (fun k => [0xC5, 7, 9, 0xFF, 0xF4, 3, 100, 200].getD k 0) 4
    (fun _ => 0xAA) 5 rfl).2.2.1

end FastValidate.Proofs
