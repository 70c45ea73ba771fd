import FastValidate.Proofs.AsciiPath
import FastValidate.Proofs.HoehrmannDecode

/-!
# `FastValidate.Proofs.Composition`: texts in parts

A byte that begins a sequence never continues one (`synchronising_utf8Machine`). So
well-formed text before or behind a string changes nothing about it, and a validator may be
called on the parts of a text.

The results about the block validators are stated for the list `simdValidators`.
-/

set_option autoImplicit false

namespace FastValidate.Proofs

open Simd Memory Loops
open Automata
open FastValidate.Spec
open FastValidate.Code

/-! ### Parts of a text -/

/-- The first byte of a sequence is no continuation byte, so it is read at the start only. -/
theorem synchronising_utf8Machine : utf8Machine.Synchronising := by
  have hstep : ∀ q, q ≠ .start → ∀ b, (lead b).isSome → utf8Machine.step q b = none := by
    -- Inside a sequence only continuation bytes go on, and none of them is a lead.
    intro q hq
    cases q with
    | start => exact absurd rfl hq
    | _ => decide +kernel
  exact fun q b hq hb => hstep q hq b hb

/-- Well-formed text in front changes nothing. -/
theorem wellFormed_append_iff_right {u : List Byte} (hu : WellFormed u) (s : List Byte) :
    WellFormed (u ++ s) ↔ WellFormed s := by
  rw [← run_utf8Machine_eq_start_iff, Partial.run_append,
    (run_utf8Machine_eq_start_iff u).mpr hu]
  exact run_utf8Machine_eq_start_iff s

/-- Well-formed text behind changes nothing. -/
theorem wellFormed_append_iff_left {v : List Byte} (hv : WellFormed v) (s : List Byte) :
    WellFormed (s ++ v) ↔ WellFormed s := by
  by_cases hne : v = []
  · rw [hne, List.append_nil]
  · -- The machine reads `v` from its start only, so it has to be there behind `s`.
    have hstart := (run_utf8Machine_eq_start_iff v).mpr hv
    rw [← run_utf8Machine_eq_start_iff, ← run_utf8Machine_eq_start_iff]
    have hcut := synchronising_utf8Machine.run_append_eq_some_iff s hne
      (Option.isSome_of_eq_some hstart) .start
    exact hcut.trans (and_iff_left hstart)

/-! ### The block validators -/

/-- The five block validators. -/
def simdValidators : List (Ptr → ℕ → Bool) :=
  [validateUtf8Fast, validateUtf8FastAvx, validateUtf8FastAvxAsciipath,
    validateUtf8FastAvx512, validateUtf8FastAvx512Asciipath]

/-- All five block validators are exact. -/
theorem acceptsWellFormed_simdValidators : ∀ validate ∈ simdValidators,
    AcceptsWellFormed validate := by
  simp only [simdValidators, List.forall_mem_cons]
  exact ⟨acceptsWellFormed_validateUtf8Fast, acceptsWellFormed_validateUtf8FastAvx,
    acceptsWellFormed_validateUtf8FastAvxAsciipath, acceptsWellFormed_validateUtf8FastAvx512,
    acceptsWellFormed_validateUtf8FastAvx512Asciipath, by simp⟩

/-- A validator that accepts the beginning of a text and its end gives the verdict of the
middle. -/
theorem AcceptsWellFormed.eq_middle {validate : Ptr → ℕ → Bool}
    (h : AcceptsWellFormed validate) {src : Ptr} {i m n : ℕ} (hfront : validate src i = true)
    (hback : validate (fun j => src (i + m + j)) n = true) :
    validate src (i + m + n) = validate (fun j => src (i + j)) m := by
  have hu := (h src i).mp hfront
  have hv := (h _ n).mp hback
  rw [Bool.eq_iff_iff, h, h, slice_add, slice_add, wellFormed_append_iff_left hv,
    wellFormed_append_iff_right hu]

/-- Each block validator may be called on the parts of a text: where it accepts the
beginning and the end, its verdict on the whole is its verdict on the middle. -/
theorem simdValidators_parts (validate : Ptr → ℕ → Bool) (hmem : validate ∈ simdValidators)
    (src : Ptr) (i m n : ℕ) (hfront : validate src i = true)
    (hback : validate (fun j => src (i + m + j)) n = true) :
    validate src (i + m + n) = validate (fun j => src (i + j)) m :=
  (acceptsWellFormed_simdValidators validate hmem).eq_middle hfront hback

/-- The bytes `C3 A9 C3 C3 A9` in parts of two, one and two. -/
theorem simdValidators_parts_C3 :
    validateUtf8Fast (fun i => [0xC3, 0xA9, 0xC3, 0xC3, 0xA9].getD i 0) (2 + 1 + 2)
      = validateUtf8Fast (fun j => [0xC3, 0xA9, 0xC3, 0xC3, 0xA9].getD (2 + j) 0) 1 := by
  have hpart : ∀ src, slice src 2 = [0xC3, 0xA9] → validateUtf8Fast src 2 = true := by
    intro src hsrc
    rw [acceptsWellFormed_validateUtf8Fast, hsrc, ← run_utf8Machine_eq_start_iff]
    decide
  exact simdValidators_parts validateUtf8Fast List.mem_cons_self _ 2 1 2
    (hpart _ (by decide)) (hpart _ (by decide))

/-! ### Decoding and encoding again -/

/-- A code point fits a `uint32_t`, so its encoding is that of the word. -/
theorem encode_toWord (v : CodePoint) : encode v.toWord.toNat = encode v := by
  have hv := ((isCodePoint_iff v).mp v.2).1
  rw [CodePoint.toWord, BitVec.toNat_ofNat, Nat.mod_eq_of_lt (by omega)]

/-- A text is well formed when its whole sequences leave nothing over. -/
theorem wellFormed_encodeText_append_iff (vs : List CodePoint) {rest : List Byte}
    (hrest : utf8Machine.Unfinished .start rest) :
    WellFormed (encodeText vs ++ rest) ↔ rest = [] := by
  rw [wellFormed_append_iff_right (wellFormed_encodeText vs), ← run_utf8Machine_eq_start_iff]
  exact hrest.run_eq_start_iff

/-- Each block validator accepts a text exactly when the values that `decode` leaves behind
over the text, encoded again, are the text. -/
theorem simdValidators_reencode (validate : Ptr → ℕ → Bool) (hmem : validate ∈ simdValidators)
    (src : Ptr) (len : ℕ) :
    validate src len = true ↔
      (decoded decode ⟨UTF8_ACCEPT, 0⟩ (slice src len)).flatMap (fun v => encode v.toNat)
        = slice src len := by
  rw [acceptsWellFormed_simdValidators validate hmem]
  -- `decode` leaves the code points of the whole sequences, and nothing of the rest.
  obtain ⟨vs, rest, htext, hrest⟩ := exists_encodeText_append (slice src len)
  have hdecoded := (decoded_encodeText_append implements_updatestate stateNumber_injective rfl
    decodesAlong_decode 0 vs hrest).1
  have hencode : (vs.map CodePoint.toWord).flatMap (fun v => encode v.toNat)
      = encodeText vs := by
    rw [List.flatMap_map]
    exact List.flatMap_congr fun v _ => encode_toWord v
  rw [htext, hdecoded, hencode, wellFormed_encodeText_append_iff vs hrest]
  simp

/-- On `C3 A9` the one value is `E9`. -/
theorem simdValidators_reencode_C3_A9 :
    validateUtf8Fast (fun i => [0xC3, 0xA9].getD i 0) 2 = true :=
  (simdValidators_reencode validateUtf8Fast List.mem_cons_self _ 2).mpr (by decide)

end FastValidate.Proofs
