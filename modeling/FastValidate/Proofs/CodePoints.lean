import FastValidate.Proofs.Utf8
import FastValidate.Spec.CodePoints

/-!
# `FastValidate.Proofs.CodePoints`: the two columns of the table

Each row of the table has a range of code points and the bytes of their sequences. The bytes
of a row are the encodings of its range (`row_iff`), by one lemma for each length of a
sequence. So the legal sequences are the encodings of the code points
(`mem_legalSequence_iff_encode`), and the strings of legal sequences those of the lists of
code points (`exists_encodeText`, `wellFormed_encodeText`).
-/

set_option autoImplicit false

namespace FastValidate.Proofs

open Simd (Byte)
open Automata
open Computability
open FastValidate.Spec

/-- The code points are the numbers up to `10FFFF` without the surrogates. -/
theorem isCodePoint_iff (v : ℕ) :
    IsCodePoint v ↔ v ≤ 0x10FFFF ∧ ¬ (0xD800 ≤ v ∧ v ≤ 0xDFFF) := by
  simp only [IsCodePoint, codePoints, List.mem_cons, List.not_mem_nil, or_false,
    exists_eq_or_imp, exists_eq_left]
  omega

/-! ### Bytes as numbers -/

/-- The value of a continuation byte. -/
theorem toNat_continuation (v k : ℕ) : (continuation v k).toNat = 0x80 + v / 64 ^ k % 64 := by
  have hlt : v / 64 ^ k % 64 < 64 := Nat.mod_lt _ (by omega)
  rw [continuation, BitVec.toNat_ofNat, Nat.mod_eq_of_lt (by omega)]

/-- A byte with a given value. -/
theorem ofNat_eq_of_toNat {b : Byte} {v : ℕ} (h : v = b.toNat) : BitVec.ofNat 8 v = b := by
  rw [h, BitVec.ofNat_toNat, BitVec.setWidth_eq]

/-- The continuation byte of six given bits. -/
theorem continuation_eq {b : Byte} {v k : ℕ} (h : 0x80 + v / 64 ^ k % 64 = b.toNat) :
    continuation v k = b := by
  apply BitVec.eq_of_toNat_eq
  rw [toNat_continuation, h]

/-- A range admits a byte by their numbers. -/
theorem admits_iff_toNat (r : ByteRange) (b : Byte) :
    r.admits b = true ↔ r.lo.toNat ≤ b.toNat ∧ b.toNat ≤ r.hi.toNat :=
  decide_eq_true_iff

/-- The number in a first byte, by the length that the byte announces. -/
theorem payload_eq (b : Byte) : payload b =
    if b.toNat < 0x80 then b.toNat
    else if b.toNat < 0xE0 then b.toNat - 0xC0
    else if b.toNat < 0xF0 then b.toNat - 0xE0
    else b.toNat - 0xF0 := rfl

/-! ### One length at a time -/

/-- An ASCII byte is its own code point. -/
theorem encode_codePoint_one {a : Byte} (ha : a.toNat < 0x80) :
    codePoint [a] = a.toNat ∧ encode a.toNat = [a] := by
  constructor
  · show payload a = a.toNat
    rw [payload_eq, if_pos ha]
  · rw [encode, if_pos ha, BitVec.ofNat_toNat, BitVec.setWidth_eq]

/-- The code point of two bytes. -/
theorem codePoint_two {a b : Byte} (ha : 0xC0 ≤ a.toNat ∧ a.toNat < 0xE0)
    (hb : 0x80 ≤ b.toNat ∧ b.toNat ≤ 0xBF) :
    codePoint [a, b] = 64 * (a.toNat - 0xC0) + (b.toNat - 0x80) := by
  show 64 * payload a + b.toNat % 64 = _
  rw [payload_eq, if_neg (by omega), if_pos ha.2]
  omega

/-- The code point of three bytes. -/
theorem codePoint_three {a b c : Byte} (ha : 0xE0 ≤ a.toNat ∧ a.toNat < 0xF0)
    (hb : 0x80 ≤ b.toNat ∧ b.toNat ≤ 0xBF) (hc : 0x80 ≤ c.toNat ∧ c.toNat ≤ 0xBF) :
    codePoint [a, b, c]
      = 64 ^ 2 * (a.toNat - 0xE0) + 64 * (b.toNat - 0x80) + (c.toNat - 0x80) := by
  show 64 * (64 * payload a + b.toNat % 64) + c.toNat % 64 = _
  rw [payload_eq, if_neg (by omega), if_neg (by omega), if_pos ha.2]
  omega

/-- The code point of four bytes. -/
theorem codePoint_four {a b c d : Byte} (ha : 0xF0 ≤ a.toNat)
    (hb : 0x80 ≤ b.toNat ∧ b.toNat ≤ 0xBF) (hc : 0x80 ≤ c.toNat ∧ c.toNat ≤ 0xBF)
    (hd : 0x80 ≤ d.toNat ∧ d.toNat ≤ 0xBF) :
    codePoint [a, b, c, d] = 64 ^ 3 * (a.toNat - 0xF0) + 64 ^ 2 * (b.toNat - 0x80)
      + 64 * (c.toNat - 0x80) + (d.toNat - 0x80) := by
  show 64 * (64 * (64 * payload a + b.toNat % 64) + c.toNat % 64) + d.toNat % 64 = _
  rw [payload_eq, if_neg (by omega), if_neg (by omega), if_neg (by omega)]
  omega

/-- Two bytes are the encoding of their number, unless a shorter sequence is. -/
theorem encode_codePoint_two {a b : Byte} (ha : 0xC0 ≤ a.toNat ∧ a.toNat < 0xE0)
    (hb : 0x80 ≤ b.toNat ∧ b.toNat ≤ 0xBF) (hshort : 0x80 ≤ codePoint [a, b]) :
    encode (codePoint [a, b]) = [a, b] := by
  have hv := codePoint_two ha hb
  rw [encode, if_neg (by omega), if_pos (by omega), ofNat_eq_of_toNat (b := a) (by omega),
    continuation_eq (b := b) (by omega)]

/-- Three bytes are the encoding of their code point, unless a shorter one exists. -/
theorem encode_codePoint_three {a b c : Byte} (ha : 0xE0 ≤ a.toNat ∧ a.toNat < 0xF0)
    (hb : 0x80 ≤ b.toNat ∧ b.toNat ≤ 0xBF) (hc : 0x80 ≤ c.toNat ∧ c.toNat ≤ 0xBF)
    (hshort : 0x800 ≤ codePoint [a, b, c]) :
    encode (codePoint [a, b, c]) = [a, b, c] := by
  have hv := codePoint_three ha hb hc
  rw [encode, if_neg (by omega), if_neg (by omega), if_pos (by omega),
    ofNat_eq_of_toNat (b := a) (by omega), continuation_eq (b := b) (by omega),
    continuation_eq (b := c) (by omega)]

/-- Four bytes are the encoding of their code point, unless a shorter one exists. -/
theorem encode_codePoint_four {a b c d : Byte} (ha : 0xF0 ≤ a.toNat)
    (hb : 0x80 ≤ b.toNat ∧ b.toNat ≤ 0xBF) (hc : 0x80 ≤ c.toNat ∧ c.toNat ≤ 0xBF)
    (hd : 0x80 ≤ d.toNat ∧ d.toNat ≤ 0xBF) (hshort : 0x10000 ≤ codePoint [a, b, c, d]) :
    encode (codePoint [a, b, c, d]) = [a, b, c, d] := by
  have hv := codePoint_four ha hb hc hd
  rw [encode, if_neg (by omega), if_neg (by omega), if_neg (by omega),
    ofNat_eq_of_toNat (b := a) (by omega), continuation_eq (b := b) (by omega),
    continuation_eq (b := c) (by omega), continuation_eq (b := d) (by omega)]

/-- The bytes of a number stand for it. -/
theorem codePoint_encode {v : ℕ} (hv : v ≤ 0x10FFFF) : codePoint (encode v) = v := by
  have h0 := toNat_continuation v 0
  have h1 := toNat_continuation v 1
  have h2 := toNat_continuation v 2
  -- By the number of bytes.
  unfold encode
  split
  · next h =>
      have ha : (BitVec.ofNat 8 v).toNat = v := by rw [BitVec.toNat_ofNat]; omega
      rw [(encode_codePoint_one (by omega)).1, ha]
  · split
    · have ha : (BitVec.ofNat 8 (0xC0 + v / 64)).toNat = 0xC0 + v / 64 := by
        rw [BitVec.toNat_ofNat]
        omega
      rw [codePoint_two (by omega) (by omega)]
      omega
    · split
      · have ha : (BitVec.ofNat 8 (0xE0 + v / 64 ^ 2)).toNat = 0xE0 + v / 64 ^ 2 := by
          rw [BitVec.toNat_ofNat]
          omega
        rw [codePoint_three (by omega) (by omega) (by omega)]
        omega
      · have ha : (BitVec.ofNat 8 (0xF0 + v / 64 ^ 3)).toNat = 0xF0 + v / 64 ^ 3 := by
          rw [BitVec.toNat_ofNat]
          omega
        rw [codePoint_four (by omega) (by omega) (by omega) (by omega)]
        omega

/-! ### The rows -/

/-- The words of a row are the encodings of its code points. -/
def IsRowOf (r : CodePointRange) (row : List ByteRange) : Prop :=
  ∀ w, List.Forall₂ (fun c b => c.admits b = true) row w ↔
    ∃ v, (r.lo ≤ v ∧ v ≤ r.hi) ∧ encode v = w

section Rows

variable {r : CodePointRange} {A B : ByteRange}

/-- A row of one ASCII cell. -/
theorem isRowOf_one (hA : A.hi.toNat < 0x80) (hlo : r.lo = A.lo.toNat)
    (hhi : r.hi = A.hi.toNat) : IsRowOf r [A] := by
  intro w
  constructor
  · intro h
    obtain ⟨a, _, ha, hnil, rfl⟩ := List.forall₂_cons_left_iff.mp h
    obtain rfl := List.forall₂_nil_left_iff.mp hnil
    rw [admits_iff_toNat] at ha
    exact ⟨a.toNat, by omega, (encode_codePoint_one (by omega)).2⟩
  · rintro ⟨v, hv, rfl⟩
    have ha : (BitVec.ofNat 8 v).toNat = v := by
      rw [BitVec.toNat_ofNat]
      omega
    rw [encode, if_pos (by omega)]
    refine .cons ?_ .nil
    rw [admits_iff_toNat]
    omega

/-- A row of two bytes, by its range of first bytes. -/
theorem isRowOf_two (hA : 0xC0 ≤ A.lo.toNat ∧ A.hi.toNat < 0xE0)
    (hlen : 0x80 ≤ r.lo ∧ r.hi < 0x800)
    (hrange : ∀ a b : ℕ, 0xC0 ≤ a → 0x80 ≤ b → b ≤ 0xBF →
      (r.lo ≤ 64 * (a - 0xC0) + (b - 0x80) ∧ 64 * (a - 0xC0) + (b - 0x80) ≤ r.hi
        ↔ A.lo.toNat ≤ a ∧ a ≤ A.hi.toNat)) :
    IsRowOf r [A, ⟨0x80, 0xBF⟩] := by
  intro w
  constructor
  · intro h
    obtain ⟨a, _, ha, hrest, rfl⟩ := List.forall₂_cons_left_iff.mp h
    obtain ⟨b, _, hb, hnil, rfl⟩ := List.forall₂_cons_left_iff.mp hrest
    obtain rfl := List.forall₂_nil_left_iff.mp hnil
    rw [admits_iff_toNat] at ha hb
    change 0x80 ≤ b.toNat ∧ b.toNat ≤ 0xBF at hb
    -- The bytes are the encoding of their number, which the row puts into the range.
    have hv := codePoint_two (a := a) (by omega) hb
    have hin := (hrange a.toNat b.toNat (by omega) hb.1 hb.2).mpr ha
    exact ⟨codePoint [a, b], by omega, encode_codePoint_two (by omega) hb (by omega)⟩
  · rintro ⟨v, hv, rfl⟩
    have ha : (BitVec.ofNat 8 (0xC0 + v / 64)).toNat = 0xC0 + v / 64 := by
      rw [BitVec.toNat_ofNat]
      omega
    have hb := toNat_continuation v 0
    have hin := hrange (0xC0 + v / 64) (0x80 + v / 64 ^ 0 % 64) (by omega) (by omega) (by omega)
    rw [encode, if_neg (by omega), if_pos (by omega)]
    refine .cons ?_ (.cons ?_ .nil)
    · rw [admits_iff_toNat, ha]
      exact hin.mp (by omega)
    · rw [admits_iff_toNat, hb]
      show 0x80 ≤ _ ∧ _ ≤ 0xBF
      omega

/-- A row of three bytes, by its ranges of first and second bytes. -/
theorem isRowOf_three (hA : 0xE0 ≤ A.lo.toNat ∧ A.hi.toNat < 0xF0)
    (hB : 0x80 ≤ B.lo.toNat ∧ B.hi.toNat ≤ 0xBF) (hlen : 0x800 ≤ r.lo ∧ r.hi < 0x10000)
    (hrange : ∀ a b c : ℕ, 0xE0 ≤ a → 0x80 ≤ b → b ≤ 0xBF → 0x80 ≤ c → c ≤ 0xBF →
      (r.lo ≤ 64 ^ 2 * (a - 0xE0) + 64 * (b - 0x80) + (c - 0x80) ∧
          64 ^ 2 * (a - 0xE0) + 64 * (b - 0x80) + (c - 0x80) ≤ r.hi
        ↔ (A.lo.toNat ≤ a ∧ a ≤ A.hi.toNat) ∧ B.lo.toNat ≤ b ∧ b ≤ B.hi.toNat)) :
    IsRowOf r [A, B, ⟨0x80, 0xBF⟩] := by
  intro w
  constructor
  · intro h
    obtain ⟨a, _, ha, hbc, rfl⟩ := List.forall₂_cons_left_iff.mp h
    obtain ⟨b, _, hb, hrest, rfl⟩ := List.forall₂_cons_left_iff.mp hbc
    obtain ⟨c, _, hc, hnil, rfl⟩ := List.forall₂_cons_left_iff.mp hrest
    obtain rfl := List.forall₂_nil_left_iff.mp hnil
    rw [admits_iff_toNat] at ha hb hc
    change 0x80 ≤ c.toNat ∧ c.toNat ≤ 0xBF at hc
    -- As for two bytes, where the first two of them decide.
    have hv := codePoint_three (a := a) (b := b) (by omega) (by omega) hc
    have hin := (hrange a.toNat b.toNat c.toNat (by omega) (by omega) (by omega) hc.1
      hc.2).mpr ⟨ha, hb⟩
    exact ⟨codePoint [a, b, c], by omega,
      encode_codePoint_three (by omega) (by omega) hc (by omega)⟩
  · rintro ⟨v, hv, rfl⟩
    have ha : (BitVec.ofNat 8 (0xE0 + v / 64 ^ 2)).toNat = 0xE0 + v / 64 ^ 2 := by
      rw [BitVec.toNat_ofNat]
      omega
    have hb := toNat_continuation v 1
    have hc := toNat_continuation v 0
    have hin := hrange (0xE0 + v / 64 ^ 2) (0x80 + v / 64 ^ 1 % 64) (0x80 + v / 64 ^ 0 % 64)
      (by omega) (by omega) (by omega) (by omega) (by omega)
    have hab := hin.mp (by omega)
    rw [encode, if_neg (by omega), if_neg (by omega), if_pos (by omega)]
    refine .cons ?_ (.cons ?_ (.cons ?_ .nil))
    · rw [admits_iff_toNat, ha]
      exact hab.1
    · rw [admits_iff_toNat, hb]
      exact hab.2
    · rw [admits_iff_toNat, hc]
      show 0x80 ≤ _ ∧ _ ≤ 0xBF
      omega

/-- A row of four bytes, by its ranges of first and second bytes. -/
theorem isRowOf_four (hA : 0xF0 ≤ A.lo.toNat)
    (hB : 0x80 ≤ B.lo.toNat ∧ B.hi.toNat ≤ 0xBF) (hlen : 0x10000 ≤ r.lo ∧ r.hi ≤ 0x10FFFF)
    (hrange : ∀ a b c d : ℕ, 0xF0 ≤ a → 0x80 ≤ b → b ≤ 0xBF → 0x80 ≤ c → c ≤ 0xBF →
      0x80 ≤ d → d ≤ 0xBF →
      (r.lo ≤ 64 ^ 3 * (a - 0xF0) + 64 ^ 2 * (b - 0x80) + 64 * (c - 0x80) + (d - 0x80) ∧
          64 ^ 3 * (a - 0xF0) + 64 ^ 2 * (b - 0x80) + 64 * (c - 0x80) + (d - 0x80) ≤ r.hi
        ↔ (A.lo.toNat ≤ a ∧ a ≤ A.hi.toNat) ∧ B.lo.toNat ≤ b ∧ b ≤ B.hi.toNat)) :
    IsRowOf r [A, B, ⟨0x80, 0xBF⟩, ⟨0x80, 0xBF⟩] := by
  intro w
  constructor
  · intro h
    obtain ⟨a, _, ha, hbcd, rfl⟩ := List.forall₂_cons_left_iff.mp h
    obtain ⟨b, _, hb, hcd, rfl⟩ := List.forall₂_cons_left_iff.mp hbcd
    obtain ⟨c, _, hc, hrest, rfl⟩ := List.forall₂_cons_left_iff.mp hcd
    obtain ⟨d, _, hd, hnil, rfl⟩ := List.forall₂_cons_left_iff.mp hrest
    obtain rfl := List.forall₂_nil_left_iff.mp hnil
    rw [admits_iff_toNat] at ha hb hc hd
    change 0x80 ≤ c.toNat ∧ c.toNat ≤ 0xBF at hc
    change 0x80 ≤ d.toNat ∧ d.toNat ≤ 0xBF at hd
    have hv := codePoint_four (a := a) (b := b) (by omega) (by omega) hc hd
    have hin := (hrange a.toNat b.toNat c.toNat d.toNat (by omega) (by omega) (by omega) hc.1
      hc.2 hd.1 hd.2).mpr ⟨ha, hb⟩
    exact ⟨codePoint [a, b, c, d], by omega,
      encode_codePoint_four (by omega) (by omega) hc hd (by omega)⟩
  · rintro ⟨v, hv, rfl⟩
    have ha : (BitVec.ofNat 8 (0xF0 + v / 64 ^ 3)).toNat = 0xF0 + v / 64 ^ 3 := by
      rw [BitVec.toNat_ofNat]
      omega
    have hb := toNat_continuation v 2
    have hc := toNat_continuation v 1
    have hd := toNat_continuation v 0
    have hin := hrange (0xF0 + v / 64 ^ 3) (0x80 + v / 64 ^ 2 % 64) (0x80 + v / 64 ^ 1 % 64)
      (0x80 + v / 64 ^ 0 % 64) (by omega) (by omega) (by omega) (by omega) (by omega)
      (by omega) (by omega)
    have hab := hin.mp (by omega)
    rw [encode, if_neg (by omega), if_neg (by omega), if_neg (by omega)]
    refine .cons ?_ (.cons ?_ (.cons ?_ (.cons ?_ .nil)))
    · rw [admits_iff_toNat, ha]
      exact hab.1
    · rw [admits_iff_toNat, hb]
      exact hab.2
    · rw [admits_iff_toNat, hc]
      show 0x80 ≤ _ ∧ _ ≤ 0xBF
      omega
    · rw [admits_iff_toNat, hd]
      show 0x80 ≤ _ ∧ _ ≤ 0xBF
      omega

end Rows

/-- Each row of the table has the encodings of its range of code points. -/
theorem row_iff : ∀ p ∈ codePoints.zip legalSequences, IsRowOf p.1 p.2 := by
  simp only [codePoints, legalSequences, List.zip_cons_cons, List.zip_nil_right,
    List.forall_mem_cons]
  refine ⟨?_, ?_, ?_, ?_, ?_, ?_, ?_, ?_, ?_, by simp⟩
  · exact isRowOf_one (by decide) rfl rfl
  · refine isRowOf_two (by decide) (by decide) ?_
    intro a b ha hb hb'
    show 0x80 ≤ _ ∧ _ ≤ 0x7FF ↔ 0xC2 ≤ a ∧ a ≤ 0xDF
    omega
  · refine isRowOf_three (by decide) (by decide) (by decide) ?_
    intro a b c ha hb hb' hc hc'
    show 0x800 ≤ _ ∧ _ ≤ 0xFFF ↔ (0xE0 ≤ a ∧ a ≤ 0xE0) ∧ 0xA0 ≤ b ∧ b ≤ 0xBF
    omega
  · refine isRowOf_three (by decide) (by decide) (by decide) ?_
    intro a b c ha hb hb' hc hc'
    show 0x1000 ≤ _ ∧ _ ≤ 0xCFFF ↔ (0xE1 ≤ a ∧ a ≤ 0xEC) ∧ 0x80 ≤ b ∧ b ≤ 0xBF
    omega
  · refine isRowOf_three (by decide) (by decide) (by decide) ?_
    intro a b c ha hb hb' hc hc'
    show 0xD000 ≤ _ ∧ _ ≤ 0xD7FF ↔ (0xED ≤ a ∧ a ≤ 0xED) ∧ 0x80 ≤ b ∧ b ≤ 0x9F
    omega
  · refine isRowOf_three (by decide) (by decide) (by decide) ?_
    intro a b c ha hb hb' hc hc'
    show 0xE000 ≤ _ ∧ _ ≤ 0xFFFF ↔ (0xEE ≤ a ∧ a ≤ 0xEF) ∧ 0x80 ≤ b ∧ b ≤ 0xBF
    omega
  · refine isRowOf_four (by decide) (by decide) (by decide) ?_
    intro a b c d ha hb hb' hc hc' hd hd'
    show 0x10000 ≤ _ ∧ _ ≤ 0x3FFFF ↔ (0xF0 ≤ a ∧ a ≤ 0xF0) ∧ 0x90 ≤ b ∧ b ≤ 0xBF
    omega
  · refine isRowOf_four (by decide) (by decide) (by decide) ?_
    intro a b c d ha hb hb' hc hc' hd hd'
    show 0x40000 ≤ _ ∧ _ ≤ 0xFFFFF ↔ (0xF1 ≤ a ∧ a ≤ 0xF3) ∧ 0x80 ≤ b ∧ b ≤ 0xBF
    omega
  · refine isRowOf_four (by decide) (by decide) (by decide) ?_
    intro a b c d ha hb hb' hc hc' hd hd'
    show 0x100000 ≤ _ ∧ _ ≤ 0x10FFFF ↔ (0xF4 ≤ a ∧ a ≤ 0xF4) ∧ 0x80 ≤ b ∧ b ≤ 0x8F
    omega

/-! ### The table -/

/-- The legal sequences are the encodings of the code points. -/
theorem mem_legalSequence_iff_encode (w : List Byte) :
    w ∈ legalSequence ↔ ∃ v, IsCodePoint v ∧ encode v = w := by
  -- The two columns are of one length.
  have hrows : (codePoints.zip legalSequences).map Prod.snd = legalSequences := rfl
  have hranges : (codePoints.zip legalSequences).map Prod.fst = codePoints := rfl
  constructor
  · rintro ⟨row, hrow, hmatch⟩
    rw [← hrows] at hrow
    obtain ⟨p, hp, rfl⟩ := List.mem_map.mp hrow
    obtain ⟨v, hv, hencode⟩ := (row_iff p hp w).mp hmatch
    refine ⟨v, ⟨p.1, ?_, hv⟩, hencode⟩
    rw [← hranges]
    exact List.mem_map_of_mem hp
  · rintro ⟨v, ⟨r, hr, hv⟩, hencode⟩
    rw [← hranges] at hr
    obtain ⟨p, hp, rfl⟩ := List.mem_map.mp hr
    refine ⟨p.2, ?_, (row_iff p hp w).mpr ⟨v, hv, hencode⟩⟩
    rw [← hrows]
    exact List.mem_map_of_mem hp

/-- The encoding of a code point is a legal sequence. -/
theorem encode_mem_legalSequence (v : CodePoint) : encode v ∈ legalSequence :=
  (mem_legalSequence_iff_encode _).mpr ⟨v, v.2, rfl⟩

/-- The code point of an encoding is the encoded one. -/
theorem codePoint_encode_val (v : CodePoint) : codePoint (encode v) = v :=
  codePoint_encode ((isCodePoint_iff v).mp v.2).1

/-- Concatenations of legal sequences are encodings of texts. -/
theorem exists_encodeText {ws : List (List Byte)} (hws : ∀ w ∈ ws, w ∈ legalSequence) :
    ∃ vs : List CodePoint, ws = vs.map fun v : CodePoint => encode v := by
  induction ws with
  | nil => exact ⟨[], rfl⟩
  | cons w ws ih =>
      obtain ⟨v, hv, rfl⟩ := (mem_legalSequence_iff_encode w).mp (hws w List.mem_cons_self)
      obtain ⟨vs, rfl⟩ := ih fun u hu => hws u (List.mem_cons_of_mem _ hu)
      exact ⟨⟨v, hv⟩ :: vs, rfl⟩

/-- The encoding of a text is well formed. -/
theorem wellFormed_encodeText (vs : List CodePoint) : WellFormed (encodeText vs) := by
  refine Language.mem_kstar.mpr ⟨vs.map fun v : CodePoint => encode v, rfl, ?_⟩
  intro w hw
  obtain ⟨v, -, rfl⟩ := List.mem_map.mp hw
  exact encode_mem_legalSequence v

end FastValidate.Proofs
