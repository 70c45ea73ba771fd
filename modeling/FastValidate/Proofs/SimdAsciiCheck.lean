import FastValidate.Code.Hoehrmann
import FastValidate.Code.SimdAsciiCheck

/-!
# `FastValidate.Proofs.SimdAsciiCheck`: the ASCII validators agree

Each validator keeps its evidence in an accumulator of its own width. The evidence is the
top bit of each byte of the accumulator, and `or` merges it: `TopBitsClear` says that there
is none. The invariant of every loop is that the accumulators are clear exactly when the
bytes before the counter are ASCII (`AsciiBelow`), and every loop starts where the one
before it stopped, so each byte is covered once.
-/

set_option autoImplicit false

namespace FastValidate.Proofs

open Simd Memory Loops
open FastValidate.Code

/-! ### Top bits -/

/-- The ASCII bytes are those without the top bit. -/
theorem le_7F_iff_msb : ∀ b : Byte, b ≤ 0x7F ↔ b.msb = false := by decide +kernel

/-- No byte of a word has its top bit set. -/
def TopBitsClear {w : ℕ} (x : BitVec w) : Prop := ∀ k < w / 8, x.getLsbD (8 * k + 7) = false

/-- Finitely many bits are looked at. -/
instance {w : ℕ} (x : BitVec w) : Decidable (TopBitsClear x) :=
  inferInstanceAs (Decidable (∀ k < w / 8, _))

/-- The top bits of an `or` are clear when those of both words are. -/
theorem topBitsClear_or {w : ℕ} (x y : BitVec w) :
    TopBitsClear (x ||| y) ↔ TopBitsClear x ∧ TopBitsClear y := by
  unfold TopBitsClear
  simp only [BitVec.getLsbD_or, Bool.or_eq_false_iff, forall_and]

/-- The top bits of zero are clear. -/
theorem topBitsClear_zero {w : ℕ} : TopBitsClear (0 : BitVec w) := by
  intro k _
  exact BitVec.getLsbD_zero

/-- The top bits of a little-endian word are those of its bytes. -/
theorem topBitsClear_leWord {w : ℕ} (f : ℕ → Byte) :
    TopBitsClear (leWord w f) ↔ ∀ k < w / 8, f k ≤ 0x7F := by
  refine forall₂_congr fun k hk => ?_
  rw [getLsbD_leWord f (by omega), le_7F_iff_msb, BitVec.msb_eq_getLsbD_last]
  have hdiv : (8 * k + 7) / 8 = k := by omega
  have hmod : (8 * k + 7) % 8 = 7 := by omega
  rw [hdiv, hmod]

/-- The test against a mask of the top bits. -/
theorem and_eq_zero_iff_topBitsClear {w : ℕ} (mask : BitVec w)
    (hmask : ∀ j < w, mask.getLsbD j = decide (j % 8 = 7)) (hw : w % 8 = 0) (x : BitVec w) :
    x &&& mask = 0 ↔ TopBitsClear x := by
  constructor
  · intro h k hk
    have hbit : (x &&& mask).getLsbD (8 * k + 7) = false := by
      rw [h]
      exact BitVec.getLsbD_zero
    have hmod : (8 * k + 7) % 8 = 7 := by omega
    rw [BitVec.getLsbD_and, hmask _ (by omega), decide_eq_true hmod, Bool.and_true] at hbit
    exact hbit
  · intro h
    apply BitVec.eq_of_getLsbD_eq
    intro j hj
    rw [BitVec.getLsbD_and, hmask j hj]
    show _ = (0#w).getLsbD j
    rw [BitVec.getLsbD_zero]
    by_cases hmod : j % 8 = 7
    · -- Bit `j` is the top bit of byte `j / 8`.
      have hj8 : 8 * (j / 8) + 7 = j := by omega
      have hclear := h (j / 8) (by omega)
      rw [hj8] at hclear
      simp [hclear]
    · simp [hmod]

/-! ### Registers -/

/-- Every lane is ASCII. -/
def AsciiLanes {n : ℕ} (v : Reg n) : Prop := ∀ i < n, lane v i ≤ 0x7F

variable {n : ℕ}

/-- The `or` of two bytes is ASCII when both are. -/
theorem or_le_7F_iff (a b : Byte) : a ||| b ≤ 0x7F ↔ a ≤ 0x7F ∧ b ≤ 0x7F := by
  rw [le_7F_iff_msb, le_7F_iff_msb, le_7F_iff_msb, BitVec.msb_or, Bool.or_eq_false_iff]

/-- The lanes of an `or` are ASCII when those of both registers are. -/
theorem asciiLanes_orSi (a b : Reg n) :
    AsciiLanes (orSi a b) ↔ AsciiLanes a ∧ AsciiLanes b := by
  unfold AsciiLanes
  rw [← forall₂_and]
  refine forall₂_congr fun i hi => ?_
  rw [lane_orSi a b hi]
  exact or_le_7F_iff _ _

/-- The mask of the top bits, for registers that fit in an `int`. -/
theorem movemaskEpi8_eq_zero_iff (hn : n ≤ 32) (v : Reg n) :
    movemaskEpi8 v = 0 ↔ AsciiLanes v := by
  have hbit : ∀ i < 32, (movemaskEpi8 v).getLsbD i = (lane v i).msb := by
    intro i hi
    rw [movemaskEpi8, BitVec.getLsbD_ofFnLE, dif_pos hi]
  constructor
  · intro h i hi
    rw [le_7F_iff_msb, ← hbit i (by omega), h]
    exact BitVec.getLsbD_zero
  · intro h
    apply BitVec.eq_of_getLsbD_eq
    intro i hi
    rw [hbit i hi]
    show _ = (0#32).getLsbD i
    rw [BitVec.getLsbD_zero]
    by_cases hin : i < n
    · exact (le_7F_iff_msb _).mp (h i hin)
    · -- There is no lane past the end.
      simp [lane, hin]

/-- The words of a register or-ed together. -/
theorem topBitsClear_reduceOrEpi32 (hn : n % 4 = 0) (v : Reg n) :
    TopBitsClear (reduceOrEpi32 v) ↔ AsciiLanes v := by
  have hfold : ∀ m, TopBitsClear ((List.range m).foldl
      (fun acc k => acc ||| leWord 32 fun j => lane v (4 * k + j)) 0)
        ↔ ∀ i < 4 * m, lane v i ≤ 0x7F := by
    intro m
    induction m with
    | zero =>
        refine ⟨fun _ i hi => absurd hi (by omega), fun _ => ?_⟩
        exact topBitsClear_zero
    | succ m ih =>
        rw [List.range_succ, List.foldl_append, List.foldl_cons, List.foldl_nil,
          topBitsClear_or, ih, topBitsClear_leWord]
        constructor
        · rintro ⟨hbefore, hword⟩ i hi
          by_cases him : i < 4 * m
          · exact hbefore i him
          · have hlane := hword (i - 4 * m) (by omega)
            have hi4 : 4 * m + (i - 4 * m) = i := by omega
            rwa [hi4] at hlane
        · intro h
          exact ⟨fun i hi => h i (by omega), fun k hk => h (4 * m + k) (by omega)⟩
  -- The words cover the register.
  have hlen : 4 * (n / 4) = n := by omega
  rw [reduceOrEpi32, hfold, hlen]
  rfl

/-! ### The loops -/

/-- The first `i` bytes are ASCII. -/
def AsciiBelow (src : Ptr) (i : ℕ) : Prop := ∀ j < i, src j ≤ 0x7F

/-- The same said of the bytes of the slice. -/
theorem asciiBelow_iff_slice (src : Ptr) (len : ℕ) :
    AsciiBelow src len ↔ ∀ b ∈ slice src len, b ≤ 0x7F := by
  simp only [mem_slice, AsciiBelow]
  constructor
  · rintro h b ⟨i, hi, rfl⟩
    exact h i hi
  · intro h i hi
    exact h (src i) ⟨i, hi, rfl⟩

/-- The next `k` bytes. -/
theorem asciiBelow_add (src : Ptr) (i k : ℕ) :
    AsciiBelow src (i + k) ↔ AsciiBelow src i ∧ ∀ j < k, src (i + j) ≤ 0x7F := by
  constructor
  · intro h
    exact ⟨fun j hj => h j (by omega), fun j hj => h (i + j) (by omega)⟩
  · rintro ⟨hbelow, hnext⟩ j hj
    by_cases hji : j < i
    · exact hbelow j hji
    · have hj' := hnext (j - i) (by omega)
      have hsum : i + (j - i) = j := by omega
      rwa [hsum] at hj'

/-- The loop over full blocks stops inside the text, and its register has the evidence of
the bytes before the counter. -/
theorem orBlocks_spec (n : ℕ) [NeZero n] (src : Ptr) (len : ℕ) :
    (orBlocks n src len).1 ≤ len ∧
      (AsciiLanes (orBlocks n src len).2 ↔ AsciiBelow src (orBlocks n src len).1) := by
  have hzero : AsciiLanes (setzero n) ↔ AsciiBelow src 0 := by
    constructor
    · intro _ j hj
      omega
    · intro _ i hi
      rw [lane_setzero hi]
      decide
  unfold orBlocks
  split
  · have hnext : ∀ (i : ℕ) (v : Reg n), i ≤ len - n →
        (i ≤ len ∧ (AsciiLanes v ↔ AsciiBelow src i)) →
        (i + n ≤ len ∧
          (AsciiLanes (orSi v (loadu n src i)) ↔ AsciiBelow src (i + n))) := by
      intro i v hi hv
      refine ⟨by omega, ?_⟩
      rw [asciiLanes_orSi, hv.2, asciiBelow_add]
      refine and_congr_right fun _ => forall₂_congr fun j hj => ?_
      rw [lane_loadu src i hj]
    exact (forLe_rule (P := fun i v => i ≤ len ∧ (AsciiLanes v ↔ AsciiBelow src i)) hnext 0
      (setzero n) ⟨Nat.zero_le _, hzero⟩).1
  · exact ⟨Nat.zero_le _, hzero⟩

/-- The loop over the last bytes. `E` is the evidence kept elsewhere. -/
theorem tail_spec {σ : Type} (clean : σ → Prop) (step : σ → Byte → σ)
    (hstep : ∀ s b, clean (step s b) ↔ clean s ∧ b ≤ 0x7F) {E : Prop} {src : Ptr}
    {i len : ℕ} {s : σ} (hi : i ≤ len) (h : E ∧ clean s ↔ AsciiBelow src i) :
    E ∧ clean (forLt len 1 (fun i s => step s (src i)) i s).2 ↔ AsciiBelow src len := by
  have hnext : ∀ (i : ℕ) s, (i : ℤ) < len →
      (i ≤ len ∧ (E ∧ clean s ↔ AsciiBelow src i)) →
      (i + 1 ≤ len ∧ (E ∧ clean (step s (src i)) ↔ AsciiBelow src (i + 1))) := by
    intro i s hi hs
    refine ⟨by omega, ?_⟩
    rw [hstep, ← and_assoc, hs.2, asciiBelow_add]
    simp
  obtain ⟨⟨hle, hiff⟩, hstop⟩ :=
    forLt_rule (P := fun i s => i ≤ len ∧ (E ∧ clean s ↔ AsciiBelow src i)) hnext i s ⟨hi, h⟩
  have hend : (forLt len 1 (fun i s => step s (src i)) i s).1 = len := by omega
  rw [hiff, hend]

/-! ### The validators -/

/-- `is_ascii` accepts the ASCII texts. -/
theorem isAscii_eq_true_iff (src : Ptr) (len : ℕ) :
    isAscii src len = true ↔ AsciiBelow src len := by
  have hfold : ∀ bs : List Byte,
      (bs.foldlM (fun (_ : Unit) b => if BitVec.slt b 0 then none else some ()) ()).isSome
        ↔ ∀ b ∈ bs, b ≤ 0x7F := by
    have hslt : ∀ b : Byte, b.slt 0 = true ↔ ¬ b ≤ 0x7F := by decide +kernel
    intro bs
    induction bs with
    | nil => simp
    | cons b bs ih =>
        rw [List.foldlM_cons, List.forall_mem_cons, ← ih]
        by_cases hb : b ≤ 0x7F
        · rw [if_neg (fun h => (hslt b).mp h hb)]
          exact (and_iff_right hb).symm
        · rw [if_pos ((hslt b).mpr hb)]
          constructor
          · intro h
            cases h
          · intro h
            exact absurd h.1 hb
  have hloop := forLtM_foldlM
    (fun (_ : Unit) b => if BitVec.slt b 0 then none else some ()) src len ()
  rw [asciiBelow_iff_slice, ← hfold, ← hloop]
  rfl

/-- So do the validators with blocks of up to 32 bytes. -/
theorem validateAsciiBlocks_eq_true_iff (n : ℕ) [NeZero n] (hn : n ≤ 32) (src : Ptr)
    (len : ℕ) : validateAsciiBlocks n src len = true ↔ AsciiBelow src len := by
  obtain ⟨hle, hblocks⟩ := orBlocks_spec n src len
  have htail := tail_spec (· ≤ 0x7F) (fun tail b => tail ||| b) or_le_7F_iff (s := 0) hle
    (E := AsciiLanes (orBlocks n src len).2) (by rw [← hblocks]; simp)
  rw [← htail, ← movemaskEpi8_eq_zero_iff hn]
  -- The promoted `char` has bit 7 of its byte.
  have hchar : ∀ b : Byte, b.signExtend 32 &&& 0x80 = 0 ↔ b ≤ 0x7F := by decide +kernel
  rw [← hchar]
  show decide (_ ||| _ = 0) = true ↔ _
  rw [decide_eq_true_iff]
  exact BitVec.or_eq_zero_iff

/-- So does the AVX-512 validator. -/
theorem validateAsciiFastAvx512_eq_true_iff (src : Ptr) (len : ℕ) :
    validateAsciiFastAvx512 src len = true ↔ AsciiBelow src len := by
  obtain ⟨hle, hblocks⟩ := orBlocks_spec 64 src len
  -- A negative `char` is sign-extended into the top bits of all four bytes.
  have hchar : ∀ b : Byte, TopBitsClear (b.signExtend 32) ↔ b ≤ 0x7F := by decide +kernel
  have hstep : ∀ (reduced : BitVec 32) (b : Byte),
      TopBitsClear (reduced ||| b.signExtend 32) ↔ TopBitsClear reduced ∧ b ≤ 0x7F := by
    intro reduced b
    rw [topBitsClear_or, hchar]
  have htail := tail_spec TopBitsClear (fun reduced b => reduced ||| b.signExtend 32) hstep
    (s := reduceOrEpi32 (orBlocks 64 src len).2) hle (E := True)
    (by rw [topBitsClear_reduceOrEpi32 rfl, ← hblocks]; simp)
  rw [true_and] at htail
  rw [← htail, ← and_eq_zero_iff_topBitsClear 0x80808080 (by decide) rfl]
  exact decide_eq_true_iff

/-- The evidence of one word. -/
theorem topBitsClear_load64 (src : Ptr) (i : ℕ) :
    TopBitsClear (load64 src i) ↔ ∀ k < 8, src (i + k) ≤ 0x7F :=
  topBitsClear_leWord _

/-- The evidence of the four masks. -/
def MasksClear (m : BitVec 64 × BitVec 64 × BitVec 64 × BitVec 64) : Prop :=
  TopBitsClear m.1 ∧ TopBitsClear m.2.1 ∧ TopBitsClear m.2.2.1 ∧ TopBitsClear m.2.2.2

/-- The loop over four words stops inside the text, and its masks have the evidence of the
bytes before the counter. -/
theorem orFourWords_spec (src : Ptr) (len : ℕ) :
    (orFourWords src len).1 ≤ len ∧
      (MasksClear (orFourWords src len).2 ↔ AsciiBelow src (orFourWords src len).1) := by
  have hnext : ∀ (i : ℕ) (m : BitVec 64 × BitVec 64 × BitVec 64 × BitVec 64),
      (i : ℤ) < len - 32 → (i ≤ len ∧ (MasksClear m ↔ AsciiBelow src i)) →
      (i + 32 ≤ len ∧ (MasksClear (m.1 ||| load64 src i, m.2.1 ||| load64 src (i + 8),
        m.2.2.1 ||| load64 src (i + 16), m.2.2.2 ||| load64 src (i + 24))
          ↔ AsciiBelow src (i + 32))) := by
    rintro i m hi ⟨hle, hm⟩
    refine ⟨by omega, ?_⟩
    have h32 : i + 32 = i + 8 + 8 + 8 + 8 := rfl
    have h24 : i + 24 = i + 8 + 8 + 8 := rfl
    have h16 : i + 16 = i + 8 + 8 := rfl
    rw [h32, asciiBelow_add, asciiBelow_add, asciiBelow_add, asciiBelow_add, ← hm, h24, h16]
    simp only [MasksClear, topBitsClear_or, topBitsClear_load64]
    constructor
    · rintro ⟨⟨h1, w1⟩, ⟨h2, w2⟩, ⟨h3, w3⟩, h4, w4⟩
      exact ⟨⟨⟨⟨⟨h1, h2, h3, h4⟩, w1⟩, w2⟩, w3⟩, w4⟩
    · rintro ⟨⟨⟨⟨⟨h1, h2, h3, h4⟩, w1⟩, w2⟩, w3⟩, w4⟩
      exact ⟨⟨h1, w1⟩, ⟨h2, w2⟩, ⟨h3, w3⟩, h4, w4⟩
  have hzero : MasksClear (0, 0, 0, 0) ↔ AsciiBelow src 0 := by
    refine ⟨fun _ j hj => absurd hj (Nat.not_lt_zero j), fun _ => ?_⟩
    exact ⟨topBitsClear_zero, topBitsClear_zero, topBitsClear_zero, topBitsClear_zero⟩
  exact (forLt_rule (P := fun i m => i ≤ len ∧ (MasksClear m ↔ AsciiBelow src i)) hnext 0 _
    ⟨Nat.zero_le _, hzero⟩).1

/-- The loop over one word, from an index inside the text. `E` is the evidence of the other
masks. -/
theorem orWords_spec {E : Prop} {src : Ptr} {i len : ℕ} {mask1 : BitVec 64} (hi : i ≤ len)
    (h : E ∧ TopBitsClear mask1 ↔ AsciiBelow src i) :
    (forLt (len - 8) 8 (fun i mask1 => mask1 ||| load64 src i) i mask1).1 ≤ len ∧
      (E ∧ TopBitsClear (forLt (len - 8) 8 (fun i mask1 => mask1 ||| load64 src i) i mask1).2
        ↔ AsciiBelow src
            (forLt (len - 8) 8 (fun i mask1 => mask1 ||| load64 src i) i mask1).1) := by
  have hnext : ∀ (i : ℕ) (mask1 : BitVec 64), (i : ℤ) < len - 8 →
      (i ≤ len ∧ (E ∧ TopBitsClear mask1 ↔ AsciiBelow src i)) →
      (i + 8 ≤ len ∧
        (E ∧ TopBitsClear (mask1 ||| load64 src i) ↔ AsciiBelow src (i + 8))) := by
    rintro i mask1 hi ⟨hle, hm⟩
    refine ⟨by omega, ?_⟩
    rw [topBitsClear_or, topBitsClear_load64, ← and_assoc, hm, asciiBelow_add]
  exact (forLt_rule (P := fun i mask1 => i ≤ len ∧
    (E ∧ TopBitsClear mask1 ↔ AsciiBelow src i)) hnext i mask1 ⟨hi, h⟩).1

/-- So do the word-wise validators. -/
theorem validateAsciiWords_eq_true_iff (src : Ptr) (len : ℕ) :
    validateAsciiWords src len = true ↔ AsciiBelow src len := by
  unfold validateAsciiWords
  have hfour := orFourWords_spec src len
  generalize orFourWords src len = r at hfour ⊢
  obtain ⟨i, mask1, mask2, mask3, mask4⟩ := r
  obtain ⟨hle, hmasks⟩ := hfour
  -- The masks 2 to 4 are final now.
  have hone := orWords_spec (E := TopBitsClear mask2 ∧ TopBitsClear mask3 ∧
    TopBitsClear mask4) hle (by rw [← hmasks, MasksClear, and_comm])
  dsimp only
  generalize forLt (len - 8) 8 (fun i mask1 => mask1 ||| load64 src i) i mask1 = r at hone ⊢
  obtain ⟨i, mask1⟩ := r
  obtain ⟨hle, hmasks⟩ := hone
  have htail := tail_spec (· ≤ 0x7F) (fun tail b => tail ||| b) or_le_7F_iff (s := 0) hle
    (E := (TopBitsClear mask2 ∧ TopBitsClear mask3 ∧ TopBitsClear mask4) ∧
      TopBitsClear mask1) (by rw [← hmasks]; simp)
  have htop : ∀ b : Byte, TopBitsClear (b.setWidth 64) ↔ b ≤ 0x7F := by decide +kernel
  rw [← htail]
  show decide (_ &&& (0x8080808080808080 : BitVec 64) = 0) = true ↔ _
  rw [decide_eq_true_iff, and_eq_zero_iff_topBitsClear _ (by decide) rfl, topBitsClear_or,
    topBitsClear_or, topBitsClear_or, topBitsClear_or, htop]
  constructor
  · rintro ⟨⟨⟨⟨h1, h2⟩, h3⟩, h4⟩, htail⟩
    exact ⟨⟨⟨h2, h3, h4⟩, h1⟩, htail⟩
  · rintro ⟨⟨⟨h2, h3, h4⟩, h1⟩, htail⟩
    exact ⟨⟨⟨⟨h1, h2⟩, h3⟩, h4⟩, htail⟩

/-- Every ASCII validator accepts exactly the strings of bytes up to `7F`, as `is_ascii`
does. -/
theorem asciiValidators_agree (src : Ptr) (len : ℕ) :
    (isAscii src len = true ↔ ∀ b ∈ slice src len, b ≤ 0x7F) ∧
    validateAsciiFast src len = isAscii src len ∧
    validateAsciiFastAvx src len = isAscii src len ∧
    validateAsciiFastAvx512 src len = isAscii src len ∧
    validateAsciiNosimd src len = isAscii src len ∧
    validateAsciiNointrin src len = isAscii src len := by
  have hascii := isAscii_eq_true_iff src len
  have hblocks := fun n [NeZero n] (hn : n ≤ 32) =>
    (validateAsciiBlocks_eq_true_iff n hn src len).trans hascii.symm
  have hwords := (validateAsciiWords_eq_true_iff src len).trans hascii.symm
  refine ⟨hascii.trans (asciiBelow_iff_slice src len), ?_, ?_, ?_, ?_, ?_⟩
  · exact Bool.eq_iff_iff.mpr (hblocks 16 (by omega))
  · exact Bool.eq_iff_iff.mpr (hblocks 32 (by omega))
  · exact Bool.eq_iff_iff.mpr
      ((validateAsciiFastAvx512_eq_true_iff src len).trans hascii.symm)
  · exact Bool.eq_iff_iff.mpr hwords
  · exact Bool.eq_iff_iff.mpr hwords

end FastValidate.Proofs
