import FastValidate.Code.SimdReads

/-!
# `FastValidate.Proofs.SimdReads`: what the validators read

For every `size_t` length the loops of the validators end, their counters do not wrap, and
their reads take every byte of the text once, in order, and no other byte. The copy of the
last bytes fits its buffer. So the verdict is the verdict of the model that counts in
naturals.

The simulation relation of every loop is `Covered`: the state is that of the loop over the
naturals, and the reads so far cover the bytes before the counter.
-/

set_option autoImplicit false

namespace FastValidate.Proofs

open Simd Memory Loops
open FastValidate.Code

/-- The state of a loop with its reads, at the counter `i`, against the state of the loop over
the naturals. -/
def Covered {σ : Type} (i : ℕ) (s : Logged σ) (t : σ) : Prop := s.1 = t ∧ Tiles s.2 i

/-- A validator with its reads against the validator that counts in naturals: it ends, it has
the same verdict, and its reads cover the text. -/
def ReadsText (run : Ptr → ℕ → BitVec 64 → Option (Bool × List Access))
    (validate : Ptr → ℕ → Bool) : Prop :=
  ∀ (src : Ptr) (len : BitVec 64) (fuel : ℕ), len.toNat < fuel →
    ∃ reads, run src fuel len = some (validate src len.toNat, reads) ∧ Tiles reads len.toNat

/-! ### The loops -/

section Blocks

variable {σ : Type} {n : ℕ}

/-- The stride is the block size, which a `size_t` can hold. -/
theorem toNat_stride (hn : n < 2 ^ 64) : (BitVec.ofNat 64 n).toNat = n := by
  rw [BitVec.toNat_ofNat, Nat.mod_eq_of_lt hn]

/-- The test for a full block, over the naturals. -/
theorem stride_le_iff (hn : n < 2 ^ 64) (len : BitVec 64) :
    BitVec.ofNat 64 n ≤ len ↔ n ≤ len.toNat := by
  rw [BitVec.le_def, toNat_stride hn]

/-- The bound `i <= len - n`, where there is a full block. -/
theorem countsTo_blocks (hn : n < 2 ^ 64) {len : BitVec 64} (hlen : n ≤ len.toNat) :
    CountsTo (fun i => i ≤ len - BitVec.ofNat 64 n) (BitVec.ofNat 64 n)
      ((len.toNat - n : ℕ) + 1) len.toNat where
  cond_iff i hi := by
    rw [decide_eq_true_iff, BitVec.le_def,
      BitVec.toNat_sub_of_le ((stride_le_iff hn len).mpr hlen), toNat_stride hn]
    omega
  step_le := by
    rw [toNat_stride hn]
    omega
  top_lt := len.isLt

/-- One block. -/
theorem covered_block (hn : n < 2 ^ 64) {len : BitVec 64} (hlen : n ≤ len.toNat)
    (body : Reg n → σ → σ) (src : Ptr) (i : BitVec 64) (s : Logged σ) (t : σ)
    (hi : (i.toNat : ℤ) < (len.toNat - n : ℕ) + 1) (hcovered : Covered i.toNat s t) :
    Covered (i.toNat + n) (blockRound n body src i s) (body (loadu n src i.toNat) t) := by
  obtain ⟨rfl, htiles⟩ := hcovered
  have hlt := len.isLt
  -- The block ends inside the text, so its offsets do not wrap.
  have hbound : i.toNat + (BitVec.ofNat 64 n).toNat ≤ 2 ^ 64 := by
    rw [toNat_stride hn]
    omega
  have hnext := Tiles.fetch (a := ⟨i, BitVec.ofNat 64 n⟩) htiles hbound src
  rw [toNat_stride hn] at hnext
  refine ⟨?_, hnext⟩
  show body (loadu n (fetch src ⟨i, BitVec.ofNat 64 n⟩ s.2).1 0) s.1 = _
  rw [loadu_fetch src (toNat_stride hn)]

variable [NeZero n]

/-- The loop over the blocks ends less than a block before the end of the text. -/
theorem blocksReads_spec (hn : n < 2 ^ 64) (body : Reg n → σ → σ) (init : σ) (src : Ptr)
    {fuel : ℕ} {len : BitVec 64} (hfuel : len.toNat < fuel) :
    ∃ i s, blocksReads n body init src fuel len = some (i, s) ∧ i.toNat ≤ len.toNat ∧
      len.toNat - i.toNat < n ∧ Tiles s.2 i.toNat ∧
      (if n ≤ len.toNat then
          forLe (len.toNat - n) n (fun i s => body (loadu n src i) s) 0 init
        else (0, init)) = (i.toNat, s.1) := by
  unfold blocksReads
  by_cases hlen : n ≤ len.toNat
  · rw [if_pos ((stride_le_iff hn len).mpr hlen), if_pos hlen]
    obtain ⟨i, s, hrun, hi, hend, hstate, htiles⟩ :=
      whileWord_forLt (countsTo_blocks hn hlen) (toNat_stride hn)
        (fun i s => body (loadu n src i) s) Covered (covered_block hn hlen body src) fuel 0
        (init, []) init (by simpa using hfuel) (by simp) ⟨rfl, tiles_nil⟩
    rw [← forLe_eq_forLt] at hend hstate
    -- The counter has passed the bound.
    have hstop := lt_forLe_fst (len.toNat - n) n (fun i s => body (loadu n src i) s) 0 init
    have hzero : (0 : BitVec 64).toNat = 0 := rfl
    rw [hzero] at hend hstate
    rw [← hend] at hstop
    exact ⟨i, s, hrun, hi, by omega, htiles, Prod.ext hend.symm hstate.symm⟩
  · rw [if_neg (fun h => hlen ((stride_le_iff hn len).mp h)), if_neg hlen]
    exact ⟨0, (init, []), rfl, by simp, by simpa using hlen, tiles_nil, rfl⟩

end Blocks

section Tail

variable {σ : Type}

/-- The bound `i < len`. -/
theorem countsTo_tail (len : BitVec 64) :
    CountsTo (fun i => i < len) 1 len.toNat len.toNat where
  cond_iff i _ := by
    rw [decide_eq_true_iff, BitVec.lt_def]
    omega
  step_le := by
    have hone : (1 : BitVec 64).toNat = 1 := rfl
    omega
  top_lt := len.isLt

/-- One byte. -/
theorem covered_byte (body : Byte → σ → σ) (src : Ptr) (i : BitVec 64) (s : Logged σ) (t : σ)
    (hcovered : Covered i.toNat s t) :
    Covered (i.toNat + 1) (byteRound body src i s) (body (src i.toNat) t) := by
  obtain ⟨rfl, htiles⟩ := hcovered
  have hlt := i.isLt
  have hone : (1 : BitVec 64).toNat = 1 := rfl
  have hnext := Tiles.fetch (a := ⟨i, 1⟩) htiles (by simp only [hone]; omega) src
  refine ⟨?_, hnext⟩
  show body ((fetch src ⟨i, 1⟩ s.2).1 0) s.1 = _
  rw [fetch_zero src (a := ⟨i, 1⟩) (by simp only [hone]; omega)]

/-- The loop over the last bytes ends at the end of the text. -/
theorem tailReads_spec (body : Byte → σ → σ) (src : Ptr) {fuel : ℕ} {len i : BitVec 64}
    (hfuel : len.toNat < fuel) (hi : i.toNat ≤ len.toNat) {s : Logged σ}
    (htiles : Tiles s.2 i.toNat) :
    ∃ i' s', tailReads body src fuel len i s = some (i', s') ∧ Tiles s'.2 len.toNat ∧
      s'.1 = (forLt len.toNat 1 (fun i s => body (src i) s) i.toNat s.1).2 := by
  obtain ⟨i', s', hrun, hi', hend, hstate, htiles'⟩ :=
    whileWord_forLt (n := 1) (countsTo_tail len) rfl (fun i s => body (src i) s) Covered
      (fun i s t _ => covered_byte body src i s t) fuel i s s.1 (by omega) hi ⟨rfl, htiles⟩
  -- The counter has reached the end and has not passed it.
  have hstop := le_forLt_fst len.toNat 1 (fun i s => body (src i) s) i.toNat s.1
  have hlast : i'.toNat = len.toNat := by omega
  rw [hlast] at htiles'
  exact ⟨i', s', hrun, htiles', hstate⟩

end Tail

/-! ### The UTF-8 validators -/

/-- A block validator with its reads. -/
theorem readsText_validateReads {n : ℕ} [NeZero n] (hn : n < 2 ^ 64) {ε : Type}
    (step lastStep : Reg n → ProcessedUtfBytes n → ε → ProcessedUtfBytes n × ε)
    (threshold : ProcessedUtfBytes n → ε → ε) (noError : ε) (isZero : ε → Bool) :
    ReadsText (Shape.validateReads n step lastStep threshold noError isZero)
      (Shape.validate step lastStep threshold noError isZero) := by
  intro src len fuel hfuel
  obtain ⟨i, ⟨⟨previous, hasError⟩, reads⟩, hrun, hi, hleft, htiles, hblocks⟩ :=
    blocksReads_spec hn (fun block s => step block s.1 s.2)
      (ProcessedUtfBytes.zero n, noError) src hfuel
  have hlen := len.isLt
  unfold Shape.validateReads Shape.validate
  rw [hrun]
  simp only [hblocks, Option.bind_eq_bind, Option.bind_some]
  by_cases hlast : i < len
  · -- The copy takes the bytes that are left, fewer than the buffer has.
    have hlt : i.toNat < len.toNat := hlast
    have hcount : (len - i).toNat = len.toNat - i.toNat :=
      BitVec.toNat_sub_of_le (BitVec.le_of_lt hlast)
    have hnext := Tiles.fetch (a := ⟨i, len - i⟩) htiles (by simp only [hcount]; omega) src
    have hcopy : copyTail n src i (len - i) reads
        = some (zeroPadded src i.toNat (len.toNat - i.toNat), reads ++ [⟨i, len - i⟩]) := by
      rw [copyTail, fetch, hcount, if_pos (Nat.le_of_lt hleft)]
    rw [if_pos hlast, if_pos hlt, hcopy]
    rw [hcount, Nat.add_sub_cancel' hi] at hnext
    exact ⟨reads ++ [⟨i, len - i⟩], rfl, hnext⟩
  · -- The blocks have read the whole text.
    have hlt : ¬ i.toNat < len.toNat := hlast
    have hend : i.toNat = len.toNat := by omega
    rw [if_neg hlast, if_neg hlt]
    rw [hend] at htiles
    exact ⟨reads, rfl, htiles⟩

/-- Each of the five block validators, for every `size_t` length: its loop ends, its counter
does not wrap, its reads take every byte of the text once and in order and no other byte, its
copy fits the buffer, and its verdict is that of the model that counts in naturals. -/
theorem simdValidators_reads :
    ReadsText validateUtf8FastReads validateUtf8Fast ∧
    ReadsText validateUtf8FastAvxReads validateUtf8FastAvx ∧
    ReadsText validateUtf8FastAvxAsciipathReads validateUtf8FastAvxAsciipath ∧
    ReadsText validateUtf8FastAvx512Reads validateUtf8FastAvx512 ∧
    ReadsText validateUtf8FastAvx512AsciipathReads validateUtf8FastAvx512Asciipath :=
  ⟨readsText_validateReads (by omega) _ _ _ _ _, readsText_validateReads (by omega) _ _ _ _ _,
    readsText_validateReads (by omega) _ _ _ _ _, readsText_validateReads (by omega) _ _ _ _ _,
    readsText_validateReads (by omega) _ _ _ _ _⟩

/-! ### The ASCII validators -/

/-- The blocks of an ASCII validator. -/
theorem orBlocksReads_spec {n : ℕ} [NeZero n] (hn : n < 2 ^ 64) (src : Ptr) {fuel : ℕ}
    {len : BitVec 64} (hfuel : len.toNat < fuel) :
    ∃ i hasError reads,
      blocksReads n (fun block hasError => orSi hasError block) (setzero n) src fuel len
        = some (i, hasError, reads) ∧
      i.toNat ≤ len.toNat ∧ Tiles reads i.toNat ∧
      orBlocks n src len.toNat = (i.toNat, hasError) := by
  obtain ⟨i, ⟨hasError, reads⟩, hrun, hi, -, htiles, hblocks⟩ :=
    blocksReads_spec hn (fun block hasError => orSi hasError block) (setzero n) src hfuel
  exact ⟨i, hasError, reads, hrun, hi, htiles, hblocks⟩

/-- The SSE and AVX2 validators: the blocks, and then the bytes left over. -/
theorem readsText_validateAsciiBlocksReads {n : ℕ} [NeZero n] (hn : n < 2 ^ 64) :
    ReadsText (validateAsciiBlocksReads n) (validateAsciiBlocks n) := by
  intro src len fuel hfuel
  obtain ⟨i, hasError, reads, hrun, hi, htiles, hblocks⟩ := orBlocksReads_spec hn src hfuel
  obtain ⟨i', ⟨tail, reads'⟩, htail, htiles', hstate⟩ :=
    tailReads_spec (fun byte tail => tail ||| byte) src hfuel hi (s := ((0 : Byte), reads)) htiles
  unfold validateAsciiBlocksReads validateAsciiBlocks
  rw [hrun, hblocks]
  simp only [Option.bind_eq_bind, Option.bind_some, htail]
  change tail = _ at hstate
  rw [hstate]
  exact ⟨reads', rfl, htiles'⟩

/-- The AVX-512 validator: the blocks, and then the bytes left over. -/
theorem readsText_validateAsciiFastAvx512Reads :
    ReadsText validateAsciiFastAvx512Reads validateAsciiFastAvx512 := by
  intro src len fuel hfuel
  obtain ⟨i, hasError, reads, hrun, hi, htiles, hblocks⟩ :=
    orBlocksReads_spec (n := 64) (by omega) src hfuel
  obtain ⟨i', ⟨reduced, reads'⟩, htail, htiles', hstate⟩ :=
    tailReads_spec (fun byte reduced => reduced ||| byte.signExtend 32) src hfuel hi
      (s := (reduceOrEpi32 hasError, reads)) htiles
  unfold validateAsciiFastAvx512Reads validateAsciiFastAvx512
  rw [hrun, hblocks]
  simp only [Option.bind_eq_bind, Option.bind_some, htail]
  change reduced = _ at hstate
  rw [hstate]
  exact ⟨reads', rfl, htiles'⟩

/-- Each of the three ASCII validators with registers, for every `size_t` length: as for the
block validators. -/
theorem asciiValidators_reads :
    ReadsText validateAsciiFastReads validateAsciiFast ∧
    ReadsText validateAsciiFastAvxReads validateAsciiFastAvx ∧
    ReadsText validateAsciiFastAvx512Reads validateAsciiFastAvx512 :=
  ⟨readsText_validateAsciiBlocksReads (by omega), readsText_validateAsciiBlocksReads (by omega),
    readsText_validateAsciiFastAvx512Reads⟩

/-! ### The word-wise validators -/

section Words

variable {base len : BitVec 64}

/-- The bound `src < end - slack`, with the addresses of a text whose end is an address. -/
theorem countsTo_words (slack stride : BitVec 64) (hend : base.toNat + len.toNat < 2 ^ 64)
    (hslack : slack.toNat ≤ base.toNat + len.toNat) (hstride : stride.toNat ≤ slack.toNat + 1) :
    CountsTo (fun i => base + i < base + len - slack) stride
      ((len.toNat : ℤ) - slack.toNat) len.toNat where
  cond_iff i hi := by
    -- None of the three addresses wraps.
    have hi' : (base + i).toNat = base.toNat + i.toNat := by
      rw [BitVec.toNat_add, Nat.mod_eq_of_lt (by omega)]
    have hlen : (base + len).toNat = base.toNat + len.toNat := by
      rw [BitVec.toNat_add, Nat.mod_eq_of_lt hend]
    have hsub : (base + len - slack).toNat = base.toNat + len.toNat - slack.toNat := by
      rw [BitVec.toNat_sub_of_le, hlen]
      rw [BitVec.le_def, hlen]
      exact hslack
    rw [decide_eq_true_iff, BitVec.lt_def, hi', hsub]
    omega
  step_le := by omega
  top_lt := len.isLt

/-- The offsets of the second to the fourth word do not wrap. -/
theorem toNat_words {i : BitVec 64} (h : i.toNat + 24 < 2 ^ 64) :
    (i + 8).toNat = i.toNat + 8 ∧ (i + 16).toNat = i.toNat + 16 ∧
      (i + 24).toNat = i.toNat + 24 := by
  refine ⟨BitVec.toNat_add_of_lt ?_, BitVec.toNat_add_of_lt ?_, BitVec.toNat_add_of_lt ?_⟩
  · show i.toNat + 8 < 2 ^ 64
    omega
  · show i.toNat + 16 < 2 ^ 64
    omega
  · exact h

/-- A read of a word. -/
theorem tiles_word {reads : List Access} {i : BitVec 64} {k : ℕ} (hk : i.toNat = k)
    (h : Tiles reads k) (hlt : k + 8 < 2 ^ 64) (src : Ptr) :
    Tiles (fetch src ⟨i, 8⟩ reads).2 (k + 8) := by
  subst hk
  have height : (8 : BitVec 64).toNat = 8 := rfl
  exact Tiles.fetch (a := ⟨i, 8⟩) h (by simp only [height]; omega) src

/-- The word of a read. -/
theorem load64_word (src : Ptr) (reads : List Access) (i : BitVec 64) :
    load64 (fetch src ⟨i, 8⟩ reads).1 0 = load64 src i.toNat := load64_fetch src rfl

/-- One word. -/
theorem covered_word (src : Ptr) (i : BitVec 64) (s : Logged (BitVec 64)) (t : BitVec 64)
    (hlt : i.toNat + 8 < 2 ^ 64) (hcovered : Covered i.toNat s t) :
    Covered (i.toNat + 8) (wordRound src i s) (t ||| load64 src i.toNat) := by
  obtain ⟨rfl, htiles⟩ := hcovered
  refine ⟨?_, tiles_word rfl htiles hlt src⟩
  show s.1 ||| load64 (fetch src ⟨i, 8⟩ s.2).1 0 = _
  rw [load64_word]

/-- Four words. -/
theorem covered_fourWords (src : Ptr) (i : BitVec 64) (s : Logged FourMasks) (t : FourMasks)
    (hlt : i.toNat + 32 < 2 ^ 64) (hcovered : Covered i.toNat s t) :
    Covered (i.toNat + 32) (fourWordsRound src i s)
      (t.1 ||| load64 src i.toNat, t.2.1 ||| load64 src (i.toNat + 8),
        t.2.2.1 ||| load64 src (i.toNat + 16), t.2.2.2 ||| load64 src (i.toNat + 24)) := by
  obtain ⟨rfl, htiles⟩ := hcovered
  obtain ⟨h8, h16, h24⟩ := toNat_words (by omega : i.toNat + 24 < 2 ^ 64)
  constructor
  · simp only [fourWordsRound, load64_word, h8, h16, h24]
  · -- Each read starts where the one before it ends.
    have hfirst := tiles_word rfl htiles (by omega) src
    have hsecond := tiles_word h8 hfirst (by omega) src
    have hthird := tiles_word h16 hsecond (by omega) src
    exact tiles_word h24 hthird (by omega) src

/-- The first loop, four words in each round. -/
theorem orFourWordsReads_spec (src : Ptr) {fuel : ℕ} (hend : base.toNat + len.toNat < 2 ^ 64)
    (hpage : 32 ≤ base.toNat + len.toNat) (hfuel : len.toNat < fuel) :
    ∃ i masks reads, orFourWordsReads src base fuel len = some (i, masks, reads) ∧
      i.toNat ≤ len.toNat ∧ Tiles reads i.toNat ∧
      orFourWords src len.toNat = (i.toNat, masks) := by
  have hlen := len.isLt
  obtain ⟨i, ⟨masks, reads⟩, hrun, hi, hcount, hstate, htiles⟩ :=
    whileWord_forLt (n := 32) (countsTo_words 32 32 hend hpage (by decide)) rfl
      (fun i (t : FourMasks) =>
        (t.1 ||| load64 src i, t.2.1 ||| load64 src (i + 8),
          t.2.2.1 ||| load64 src (i + 16), t.2.2.2 ||| load64 src (i + 24)))
      Covered (fun i s t (hi : (i.toNat : ℤ) < len.toNat - 32) =>
        covered_fourWords src i s t (by omega))
      fuel 0 ((0, 0, 0, 0), []) (0, 0, 0, 0) (by simpa using hfuel) (by simp) ⟨rfl, tiles_nil⟩
  exact ⟨i, masks, reads, hrun, hi, htiles, Prod.ext hcount.symm hstate.symm⟩

/-- `validate_ascii_nosimd` and `validate_ascii_nointrin`, whose text ends at an address from
32 on. -/
theorem validateAsciiWordsReads_spec (src : Ptr) {fuel : ℕ}
    (hend : base.toNat + len.toNat < 2 ^ 64) (hpage : 32 ≤ base.toNat + len.toNat)
    (hfuel : len.toNat < fuel) :
    ∃ reads, validateAsciiWordsReads src base fuel len
        = some (validateAsciiWords src len.toNat, reads) ∧ Tiles reads len.toNat := by
  obtain ⟨i, ⟨mask1, mask2, mask3, mask4⟩, reads, hrun, hi, htiles, hblocks⟩ :=
    orFourWordsReads_spec src hend hpage hfuel
  have hlen := len.isLt
  -- One word at a time, from where the first loop ends.
  obtain ⟨i', ⟨mask1', reads'⟩, hrun', hi', hcount', hstate', htiles'⟩ :=
    whileWord_forLt (n := 8) (countsTo_words 8 8 hend (by show 8 ≤ _; omega) (by decide)) rfl
      (fun i mask1 => mask1 ||| load64 src i) Covered
      (fun i s t (hi : (i.toNat : ℤ) < len.toNat - 8) => covered_word src i s t (by omega))
      fuel i (mask1, reads) mask1 (by omega) hi ⟨rfl, htiles⟩
  -- One byte at a time, up to the end.
  have hbyte : CountsTo (fun i => base + i < base + len) 1 len.toNat len.toNat := by
    simpa using countsTo_words 0 1 hend (Nat.zero_le _) (by decide)
  obtain ⟨i'', ⟨tail, reads''⟩, hrun'', hi'', hcount'', hstate'', htiles''⟩ :=
    whileWord_forLt (n := 1) hbyte rfl (fun i tail => tail ||| src i) Covered
      (fun i s t _ => covered_byte (fun byte tail => tail ||| byte) src i s t) fuel i'
      ((0 : Byte), reads') 0 (by omega) hi' ⟨rfl, htiles'⟩
  have hstop := le_forLt_fst len.toNat 1 (fun i tail => tail ||| src i) i'.toNat 0
  have hlast : i''.toNat = len.toNat := by omega
  rw [hlast] at htiles''
  refine ⟨reads'', ?_, htiles''⟩
  have hwords : forLt (len.toNat - 8) 8 (fun i mask1 => mask1 ||| load64 src i) i.toNat mask1
      = (i'.toNat, mask1') := Prod.ext hcount'.symm hstate'.symm
  have hbytes : (forLt len.toNat 1 (fun i tail => tail ||| src i) i'.toNat 0).2 = tail :=
    hstate''.symm
  unfold validateAsciiWordsReads validateAsciiWords
  rw [hrun, hblocks]
  simp only [Option.bind_eq_bind, Option.bind_some, hrun', hrun'', hwords, hbytes]
  rfl

end Words

/-- Both word-wise validators, over a text of any `size_t` length that ends at an address from
32 on: no pointer wraps, the loops end, the reads take every byte of the text once and in
order and no other byte, and the verdict is that of the model that counts in naturals. -/
theorem wordValidators_reads (src : Ptr) (base len : BitVec 64) (fuel : ℕ)
    (hend : base.toNat + len.toNat < 2 ^ 64) (hpage : 32 ≤ base.toNat + len.toNat)
    (hfuel : len.toNat < fuel) :
    (∃ reads, validateAsciiNosimdReads src base fuel len
        = some (validateAsciiNosimd src len.toNat, reads) ∧ Tiles reads len.toNat) ∧
    ∃ reads, validateAsciiNointrinReads src base fuel len
        = some (validateAsciiNointrin src len.toNat, reads) ∧ Tiles reads len.toNat :=
  ⟨validateAsciiWordsReads_spec src hend hpage hfuel,
    validateAsciiWordsReads_spec src hend hpage hfuel⟩

/-- Over 41 bytes from the address 4096 on. -/
theorem wordValidators_reads_41 :
    ∃ reads, validateAsciiNosimdReads (fun _ => 0x41) 4096 42 41
      = some (validateAsciiNosimd (fun _ => 0x41) 41, reads) ∧ Tiles reads 41 :=
  (wordValidators_reads (fun _ => 0x41) 4096 41 42 (by decide) (by decide) (by decide)).1

end FastValidate.Proofs
