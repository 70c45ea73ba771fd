import FastValidate.Proofs.Composition
import FastValidate.Proofs.HoehrmannDouble

/-!
# `FastValidate.Proofs.HoehrmannSplit`: the double validators on any text

`HoehrmannDouble` is about well-formed texts. Here is what the double validators do on every
text of every length: when they return at all, and which texts they accept. The backward
search for the split point is characterised first (`StopsAt`), and then the loop with the
`int` index (`forInt_toCInt`).

The verdict is about two strings, each read from the start state: the bytes before the split
point and the bytes from it on, up to `secondEnd`. That is the end of the text below `2 ^ 31`
bytes. From there on, where the loop with the `int` index does not start, the bytes left over
are not read at all.

Nobody looks at the state in which the first run ends. So below `2 ^ 31` bytes a text is
accepted as well where the first string stops inside a sequence
(`doubleValidators_nulTerminated`), and such texts are the only ill-formed ones accepted.
-/

set_option autoImplicit false

namespace FastValidate.Proofs

open Simd Memory Loops
open Automata
open FastValidate.Spec
open FastValidate.Code

/-! ### The search for the split point -/

/-- The search back from `i` stops at `half`: every byte above it is in `81..BF`, and it is
the first position or its byte is not. -/
structure StopsAt (c : Ptr) (i half : ℕ) : Prop where
  le : half ≤ i
  stop : half = 0 ∨ ¬ (c half ≤ 0xBF ∧ c half > 0x80)
  passed : ∀ j, half < j → j ≤ i → c j ≤ 0xBF ∧ c j > 0x80

/-- The search stops where `splitPoint` says. Induction on its start. -/
theorem stopsAt_splitPoint (c : Ptr) (i : ℕ) : StopsAt c i (Dfa.splitPoint c i) := by
  induction i with
  | zero =>
      refine ⟨Nat.le_refl 0, .inl rfl, fun j hj hj0 => ?_⟩
      exact absurd hj (by omega)
  | succ i ih =>
      by_cases hgo : c (i + 1) ≤ 0xBF ∧ c (i + 1) > 0x80
      · have hsplit : Dfa.splitPoint c (i + 1) = Dfa.splitPoint c i := if_pos hgo
        rw [hsplit]
        refine ⟨by have := ih.le; omega, ih.stop, fun j hj hji => ?_⟩
        by_cases hlast : j = i + 1
        · rw [hlast]
          exact hgo
        · exact ih.passed j hj (by omega)
      · have hsplit : Dfa.splitPoint c (i + 1) = i + 1 := if_neg hgo
        rw [hsplit]
        exact ⟨Nat.le_refl _, .inr hgo, fun j hj hji => absurd hj (by omega)⟩

/-- The search stops at one position only. -/
theorem StopsAt.unique {c : Ptr} {i half half' : ℕ} (h : StopsAt c i half)
    (h' : StopsAt c i half') : half = half' := by
  -- Otherwise the lower search has passed the position where the other one stops.
  rcases Nat.lt_trichotomy half half' with hlt | heq | hgt
  · rcases h'.stop with h0 | hstop
    · omega
    · exact absurd (h.passed half' hlt h'.le) hstop
  · exact heq
  · rcases h.stop with h0 | hstop
    · omega
    · exact absurd (h'.passed half hgt h.le) hstop

/-! ### The loop over the bytes left over -/

/-- Where the second run stops reading: at the end of the text, or, from `2 ^ 31` bytes on,
where the bytes left over begin, which are then not read. -/
def secondEnd (n half : ℕ) : ℕ := if n < 2 ^ 31 then n else 2 * half

/-- What the loop with the `int` index does, from the index `half * 2` on. -/
theorem forInt_toCInt (update : ℕ → Byte → ℕ) (c : Ptr) {n half : ℕ} (hle : 2 * half ≤ n)
    (s : ℕ) :
    (IntIndexOk n (2 * half) → forInt n (fun j s => update s (c j)) (toCInt (half * 2)) s
      = some ((suffix c (secondEnd n half) (2 * half)).foldl update s)) ∧
    (¬ IntIndexOk n (2 * half) →
      forInt n (fun j s => update s (c j)) (toCInt (half * 2)) s = none) := by
  rw [toCInt_eq, Nat.mul_comm half 2, secondEnd]
  unfold IntIndexOk
  by_cases hn : n < 2 ^ 31
  · -- All indexes are non-negative, up to the end of the text.
    have hmod : 2 * half % 2 ^ 32 = 2 * half := Nat.mod_eq_of_lt (by omega)
    rw [hmod, if_pos (by omega), if_pos hn]
    exact ⟨fun _ => forInt_eq_foldl update c hn _ (2 * half) s rfl hle,
      fun hbad => absurd (.inl hn) hbad⟩
  · rw [if_neg hn]
    by_cases hlow : 2 * half % 2 ^ 32 < 2 ^ 31
    · -- The index overflows before the end of the text.
      rw [if_pos hlow, forInt_overflow (by omega) _ _ _ rfl (by omega) (by omega)]
      exact ⟨fun hok => by omega, fun _ => rfl⟩
    · -- From below zero the loop does not start, or reads before the text.
      rw [if_neg hlow, forInt_of_neg _ (by omega) (by omega)]
      split
      · exact ⟨fun hok => by omega, fun _ => rfl⟩
      · refine ⟨fun _ => ?_, fun hbad => by omega⟩
        rw [suffix_of_le c (Nat.le_refl _)]
        rfl

/-! ### Any text -/

section Double

variable {update : ℕ → Byte → ℕ} {reject : ℕ} {num : State → ℕ}

/-- A run from the start state does not reject exactly on the prefixes of well-formed
strings. -/
theorem foldl_ne_reject_iff (h : utf8Machine.Implements update reject num)
    (hstart : num .start = 0) (t : List Byte) : t.foldl update 0 ≠ reject ↔ IsPrefix t := by
  rw [← hstart, h.foldl_ne_iff]
  exact isSome_run_utf8Machine_iff t

/-- The bytes from the split point on, as the two loops read them. -/
theorem slice_append_suffix (c : Ptr) {n half : ℕ} (hle : 2 * half ≤ n) :
    slice (fun i => c (half + i)) half ++ suffix c n (2 * half) = suffix c n half := by
  obtain ⟨k, rfl⟩ := Nat.exists_eq_add_of_le hle
  have hcount : 2 * half + k - half = half + k := by omega
  rw [suffix, suffix, Nat.add_sub_cancel_left, hcount, slice_add]
  simp only [Nat.two_mul, Nat.add_assoc]

/-- One double validator on any text. -/
theorem double_anyText (h : utf8Machine.Implements update reject num)
    (hstart : num .start = 0) {c : Ptr} {n half : ℕ} (hstop : StopsAt c (n / 2) half) :
    ((Dfa.double update reject c n).isSome ↔ IntIndexOk n (2 * half)) ∧
    (Dfa.double update reject c n = some true ↔ IntIndexOk n (2 * half) ∧
      IsPrefix (slice c half) ∧ IsPrefix (suffix c (secondEnd n half) half)) := by
  have hsplit : Dfa.splitPoint c (n / 2) = half := (stopsAt_splitPoint c (n / 2)).unique hstop
  have hle : 2 * half ≤ n := by
    have := hstop.le
    omega
  have hend : 2 * half ≤ secondEnd n half := by
    rw [secondEnd]
    split <;> omega
  obtain ⟨hok, hbad⟩ := forInt_toCInt update c hle
    ((slice (fun i => c (half + i)) half).foldl update 0)
  rw [double_eq c n hsplit]
  by_cases hindex : IntIndexOk n (2 * half)
  · -- The second run goes on over the bytes left over, as one run from the split point.
    rw [hok hindex, ← List.foldl_append, slice_append_suffix c hend]
    rw [← foldl_ne_reject_iff h hstart (slice c half),
      ← foldl_ne_reject_iff h hstart (suffix c (secondEnd n half) half)]
    simp [hindex]
  · rw [hbad hindex]
    simp [hindex]

end Double

/-- Two results that exist in the same cases and are true in the same cases are the same. -/
theorem option_bool_ext {o o' : Option Bool} (hsome : o.isSome ↔ o'.isSome)
    (htrue : o = some true ↔ o' = some true) : o = o' := by
  revert o o'
  decide

/-- The two double validators are one function. -/
theorem shiftlessValidateDfaUtf8Double_eq (c : Ptr) (n : ℕ) :
    shiftlessValidateDfaUtf8Double c n = validateDfaUtf8Double c n := by
  have hstop := stopsAt_splitPoint c (n / 2)
  obtain ⟨hsome, htrue⟩ := double_anyText implements_updatestate rfl hstop
  obtain ⟨hsome', htrue'⟩ := double_anyText implements_shiftlessUpdatestate rfl hstop
  exact option_bool_ext (hsome'.trans hsome.symm) (htrue'.trans htrue.symm)

/-- The double validators on every text, of every length: both give the same result. They
return exactly when the `int` index is good, and they accept exactly when, from the start
state, neither the bytes before the split point nor the bytes from it on, up to `secondEnd`,
are rejected. Below `2 ^ 31` bytes these are all bytes of the text, and from there on the
bytes left over behind `2 * half` are accepted unread. -/
theorem doubleValidators_anyText (c : Ptr) (n half : ℕ) (hstop : StopsAt c (n / 2) half) :
    shiftlessValidateDfaUtf8Double c n = validateDfaUtf8Double c n ∧
    ((validateDfaUtf8Double c n).isSome ↔ IntIndexOk n (2 * half)) ∧
    (validateDfaUtf8Double c n = some true ↔ IntIndexOk n (2 * half) ∧
      IsPrefix (slice c half) ∧ IsPrefix (suffix c (secondEnd n half) half)) := by
  obtain ⟨hsome, htrue⟩ := double_anyText implements_updatestate rfl hstop
  exact ⟨shiftlessValidateDfaUtf8Double_eq c n, hsome, htrue⟩

/-- On the bytes `C3 A9 C3` the search stops at the first position, and they are accepted. -/
theorem doubleValidators_anyText_C3_A9_C3 :
    validateDfaUtf8Double (fun i => [0xC3, 0xA9, 0xC3].getD i 0) 3 = some true := by
  have hstop : StopsAt (fun i => [0xC3, 0xA9, 0xC3].getD i 0) (3 / 2) 0 :=
    ⟨by decide, .inl rfl, fun j hj hj' => by
      obtain rfl : j = 1 := by omega
      decide⟩
  obtain ⟨-, -, haccept⟩ :=
    doubleValidators_anyText (fun i => [0xC3, 0xA9, 0xC3].getD i 0) 3 0 hstop
  refine haccept.mpr ⟨.inl (by decide), ?_, ?_⟩
  · rw [← isSome_run_utf8Machine_iff]
    decide
  · rw [← isSome_run_utf8Machine_iff]
    decide

/-! ### A text and one NUL byte -/

/-- The NUL byte stands behind what is left of the text. -/
theorem suffix_nulTerminated (src : Ptr) {len half : ℕ} (h : half ≤ len) :
    suffix (nulTerminated src len) (len + 1) half = suffix src len half ++ [0] := by
  obtain ⟨k, rfl⟩ := Nat.exists_eq_add_of_le h
  have hcount : half + k + 1 - half = k + 1 := by omega
  rw [suffix, suffix, hcount, Nat.add_sub_cancel_left, slice_succ]
  congr 1
  · refine slice_congr fun j hj => ?_
    exact Function.update_of_ne (by omega) _ _
  · rw [nulTerminated, Function.update_self]

/-- Over a text and one NUL byte, below `2 ^ 31` bytes: both double validators return, and
they accept exactly when the bytes before the split point are a prefix and the bytes from it
on are well formed. So the texts that they accept and `validate_utf8_fast` does not are those
where the bytes before the split point stop inside a sequence. -/
theorem doubleValidators_nulTerminated (src : Ptr) (len half : ℕ) (hlen : len + 1 < 2 ^ 31)
    (hstop : StopsAt (nulTerminated src len) ((len + 1) / 2) half) :
    ∃ verdict, validateDfaUtf8Double (nulTerminated src len) (len + 1) = some verdict ∧
      shiftlessValidateDfaUtf8Double (nulTerminated src len) (len + 1) = some verdict ∧
      (verdict = true ↔ IsPrefix (slice src half) ∧ WellFormed (suffix src len half)) ∧
      (verdict = true ∧ validateUtf8Fast src len = false ↔
        (IsPrefix (slice src half) ∧ ¬ WellFormed (slice src half)) ∧
          WellFormed (suffix src len half)) := by
  have hle : half ≤ len := by
    have := hstop.le
    omega
  obtain ⟨hsome, htrue⟩ := double_anyText implements_updatestate rfl hstop
  have hok : IntIndexOk (len + 1) (2 * half) := .inl hlen
  obtain ⟨verdict, hverdict⟩ := Option.isSome_iff_exists.mp (hsome.mpr hok)
  -- The bytes before the split point are bytes of the text, and the NUL byte is behind it.
  have hfront : slice (nulTerminated src len) half = slice src half := by
    refine slice_congr fun j hj => ?_
    exact Function.update_of_ne (by omega) _ _
  have haccept :
      verdict = true ↔ IsPrefix (slice src half) ∧ WellFormed (suffix src len half) := by
    rw [secondEnd, if_pos hlen, suffix_nulTerminated src hle, isPrefix_concat_zero_iff, hfront,
      and_iff_right hok] at htrue
    rw [← htrue]
    rw [hverdict, Option.some.injEq]
  refine ⟨verdict, hverdict, ?_, haccept, ?_⟩
  · exact (shiftlessValidateDfaUtf8Double_eq _ _).trans hverdict
  · -- Behind a well-formed rest, the whole text is well formed when its beginning is.
    have htext : slice src len = slice src half ++ suffix src len half := by
      rw [suffix, ← slice_add, Nat.add_sub_cancel' hle]
    rw [haccept, Bool.eq_false_iff, Ne, acceptsWellFormed_validateUtf8Fast, htext]
    constructor
    · rintro ⟨⟨hhead, hrest⟩, hbad⟩
      rw [wellFormed_append_iff_left hrest] at hbad
      exact ⟨⟨hhead, hbad⟩, hrest⟩
    · rintro ⟨⟨hhead, hbad⟩, hrest⟩
      rw [wellFormed_append_iff_left hrest]
      exact ⟨⟨hhead, hrest⟩, hbad⟩

/-- The bytes `C3 41` are accepted, and they are not well formed. -/
theorem doubleValidators_nulTerminated_C3_41 :
    ∃ verdict, validateDfaUtf8Double (nulTerminated (fun i => [0xC3, 0x41].getD i 0) 2) 3
        = some verdict ∧
      verdict = true ∧ validateUtf8Fast (fun i => [0xC3, 0x41].getD i 0) 2 = false := by
  have hstop : StopsAt (nulTerminated (fun i => [0xC3, 0x41].getD i 0) 2) ((2 + 1) / 2) 1 :=
    ⟨by decide, .inr (by decide), fun j hj hj' => by omega⟩
  obtain ⟨verdict, hverdict, -, -, hwrong⟩ :=
    doubleValidators_nulTerminated (fun i => [0xC3, 0x41].getD i 0) 2 1 (by decide) hstop
  refine ⟨verdict, hverdict, hwrong.mpr ⟨⟨?_, ?_⟩, ?_⟩⟩
  · rw [← isSome_run_utf8Machine_iff]
    decide
  · rw [← run_utf8Machine_eq_start_iff]
    decide
  · rw [← run_utf8Machine_eq_start_iff]
    decide

end FastValidate.Proofs
