import FastValidate.Code.HoehrmannReads
import FastValidate.Proofs.HoehrmannSplit
import FastValidate.Proofs.SimdAsciiCheck

/-!
# `FastValidate.Proofs.HoehrmannReads`: what the table-driven validators read

A validator that runs to the end reads every byte once. One that leaves its loop reads up to
the first byte after which no continuation is well formed, and that byte is the last one it
reads (`DecidedAfter`). A double validator reads inside the text, and below `2 ^ 31` bytes it
reads all of it; but over an empty text it looks for its split point in the byte behind it.
-/

set_option autoImplicit false

namespace FastValidate.Proofs

open Simd Memory Loops
open Automata
open FastValidate.Spec
open FastValidate.Code

/-! ### Loops with an exit -/

/-- The first `k` of `len` bytes decide whether `ok len` holds: it does and these are all of
them, or the last one is the first with which `ok` fails. -/
def DecidedAfter (ok : ℕ → Prop) (len k : ℕ) : Prop :=
  (k = len ∧ ok len) ∨ ∃ j, k = j + 1 ∧ j < len ∧ ok j ∧ ¬ ok (j + 1)

/-- The same for an equivalent property. -/
theorem DecidedAfter.congr {ok ok' : ℕ → Prop} {len k : ℕ} (h : DecidedAfter ok len k)
    (hok : ∀ i, ok i ↔ ok' i) : DecidedAfter ok' len k := by
  simpa only [DecidedAfter, hok] using h

/-- The run lemma, from the state after `i` bytes. -/
theorem untilExit_eq {σ : Type} (step : σ → Byte → Option σ) (c : Ptr) (len : ℕ) (s₀ : σ)
    (i : ℕ) (s : σ) (hi : i ≤ len) (hs : (slice c i).foldlM step s₀ = some s) :
    ∃ k, DecidedAfter (fun i => ((slice c i).foldlM step s₀).isSome) len k ∧
      untilExit step c len i s (List.range i)
        = ((slice c len).foldlM step s₀, List.range k) := by
  induction hd : len - i generalizing i s with
  | zero =>
      -- All bytes are read, and the loop was not left.
      obtain rfl : i = len := by omega
      refine ⟨i, .inl ⟨rfl, Option.isSome_of_eq_some hs⟩, ?_⟩
      rw [untilExit, if_neg (Nat.lt_irrefl i), hs]
  | succ d ih =>
      have hlt : i < len := by omega
      have hnext : (slice c (i + 1)).foldlM step s₀ = step s (c i) := by
        rw [slice_succ, List.foldlM_append, hs]
        simp
      rw [untilExit, if_pos hlt]
      simp only [readAt]
      cases hstep : step s (c i) with
      | none =>
          rw [hstep] at hnext
          refine ⟨i + 1, .inr ⟨i, rfl, hlt, Option.isSome_of_eq_some hs, ?_⟩, ?_⟩
          · simp [hnext]
          · -- Behind the exit the fold stays without a state.
            obtain ⟨m, rfl⟩ := Nat.exists_eq_add_of_le (Nat.succ_le_of_lt hlt)
            rw [List.range_succ, slice_add, List.foldlM_append, hnext]
            rfl
      | some t =>
          rw [hstep] at hnext
          show ∃ k, _ ∧ untilExit step c len (i + 1) t (List.range i ++ [i]) = _
          rw [← List.range_succ]
          exact ih (i + 1) t (by omega) hnext (by omega)

/-! ### The validators with one loop -/

section Dfa

variable {update : ℕ → Byte → ℕ} {reject : ℕ} {num : State → ℕ}

/-- A branchless validator has the same verdict and reads every byte once. -/
theorem branchlessReads_eq (c : Ptr) (len : ℕ) :
    Dfa.branchlessReads update reject c len
      = (Dfa.branchless update reject c len, List.range len) := by
  have hpair : ∀ k : ℕ, (List.range k).foldl (fun s i => Dfa.updateAt update c i s) (0, [])
      = ((List.range k).foldl (fun s i => update s (c i)) 0, List.range k) := by
    intro k
    induction k with
    | zero => rfl
    | succ k ih =>
        rw [List.range_succ, List.foldl_append, List.foldl_append, ih]
        rfl
  rw [Dfa.branchlessReads, Dfa.branchless, forLt_range, forLt_range, hpair]

/-- A validator with an exit has the same verdict and reads as far as it needs. -/
theorem earlyExitReads_eq (h : utf8Machine.Implements update reject num)
    (hstart : num .start = 0) (c : Ptr) (len : ℕ) :
    ∃ k, DecidedAfter (fun i => IsPrefix (slice c i)) len k ∧
      Dfa.earlyExitReads update reject c len
        = (Dfa.earlyExit update reject c len, List.range k) := by
  obtain ⟨k, hk, hrun⟩ := untilExit_eq
    (fun s b => if update s b = reject then none else some (update s b)) c len 0 0 0
    (Nat.zero_le len) rfl
  have hok : ∀ i, ((slice c i).foldlM
      (fun s b => if update s b = reject then none else some (update s b)) 0).isSome
        ↔ IsPrefix (slice c i) := by
    intro i
    rw [← hstart, h.foldlM_isSome_iff]
    exact isSome_run_utf8Machine_iff (slice c i)
  refine ⟨k, hk.congr hok, ?_⟩
  have hloop := forLtM_foldlM
    (fun s b => if update s b = reject then none else some (update s b)) c len 0
  change untilExit _ c len 0 0 [] = _ at hrun
  rw [← hloop] at hrun
  rw [Dfa.earlyExitReads, Dfa.earlyExit]
  simp only [hrun]

end Dfa

/-- `is_ascii` has the same verdict and reads up to the first byte above `7F`. -/
theorem isAsciiReads_eq (c : Ptr) (len : ℕ) :
    ∃ k, DecidedAfter (AsciiBelow c) len k ∧
      isAsciiReads c len = (isAscii c len, List.range k) := by
  obtain ⟨k, hk, hrun⟩ := untilExit_eq
    (fun (_ : Unit) b => if BitVec.slt b 0 then none else some ()) c len () 0 ()
    (Nat.zero_le len) rfl
  have hloop := forLtM_foldlM
    (fun (_ : Unit) b => if BitVec.slt b 0 then none else some ()) c
  refine ⟨k, hk.congr fun i => ?_, ?_⟩
  · rw [← hloop]
    exact isAscii_eq_true_iff c i
  · change untilExit _ c len 0 () [] = _ at hrun
    rw [← hloop] at hrun
    rw [isAsciiReads, isAscii]
    simp only [hrun]

/-- The validators with one loop have the verdicts of the model without reads. Running to the
end reads every byte once, in order. Leaving the loop reads the bytes up to the first one with
which no continuation is well formed, and is_ascii up to the first byte above `7F`. -/
theorem dfaValidators_reads (c : Ptr) (len : ℕ) :
    validateDfaUtf8BranchlessReads c len = (validateDfaUtf8Branchless c len, List.range len) ∧
    shiftlessValidateDfaUtf8BranchlessReads c len
      = (shiftlessValidateDfaUtf8Branchless c len, List.range len) ∧
    (∃ k, DecidedAfter (fun i => IsPrefix (slice c i)) len k ∧
      validateDfaUtf8Reads c len = (validateDfaUtf8 c len, List.range k)) ∧
    (∃ k, DecidedAfter (fun i => IsPrefix (slice c i)) len k ∧
      shiftlessValidateDfaUtf8Reads c len = (shiftlessValidateDfaUtf8 c len, List.range k)) ∧
    ∃ k, DecidedAfter (AsciiBelow c) len k ∧
      isAsciiReads c len = (isAscii c len, List.range k) :=
  ⟨branchlessReads_eq c len, branchlessReads_eq c len,
    earlyExitReads_eq implements_updatestate rfl c len,
    earlyExitReads_eq implements_shiftlessUpdatestate rfl c len, isAsciiReads_eq c len⟩

/-! ### The double validators -/

/-- One round of the search. The second test reads only where the first one holds. -/
theorem splitPointReads_succ (c : Ptr) (half : ℕ) (reads : List ℕ) :
    Dfa.splitPointReads c (half + 1) reads =
      if c (half + 1) ≤ 0xBF then
        if c (half + 1) > 0x80 then
          Dfa.splitPointReads c half (reads ++ [half + 1] ++ [half + 1])
        else (half + 1, reads ++ [half + 1] ++ [half + 1])
      else (half + 1, reads ++ [half + 1]) := rfl

/-- The search reads at or below its start, and it reads there. -/
theorem splitPointReads_eq (c : Ptr) (half : ℕ) (reads : List ℕ) :
    ∃ log, Dfa.splitPointReads c half reads = (Dfa.splitPoint c half, reads ++ log) ∧
      (∀ r ∈ log, r ≤ half) ∧ half ∈ log := by
  induction half generalizing reads with
  | zero =>
      show ∃ log, (if c 0 ≤ 0xBF then (0, reads ++ [0] ++ [0]) else (0, reads ++ [0]))
        = (0, reads ++ log) ∧ _
      by_cases hle : c 0 ≤ 0xBF
      · rw [if_pos hle]
        exact ⟨[0, 0], by simp, by simp, by simp⟩
      · -- The first test fails, so the second one does not read.
        rw [if_neg hle]
        exact ⟨[0], rfl, by simp, by simp⟩
  | succ half ih =>
      rw [splitPointReads_succ, Dfa.splitPoint]
      simp only [List.append_assoc, List.cons_append, List.nil_append]
      by_cases hle : c (half + 1) ≤ 0xBF
      · by_cases hgt : c (half + 1) > 0x80
        · obtain ⟨log, hlog, hbound, -⟩ := ih (reads ++ [half + 1, half + 1])
          refine ⟨[half + 1, half + 1] ++ log, ?_, ?_, by simp⟩
          · rw [if_pos hle, if_pos hgt, hlog, if_pos ⟨hle, hgt⟩, List.append_assoc]
          · intro r hr
            rcases List.mem_append.mp hr with hr | hr
            · have : r = half + 1 := by simpa using hr
              omega
            · have := hbound r hr
              omega
        · rw [if_pos hle, if_neg hgt, if_neg fun h => hgt h.2]
          exact ⟨[half + 1, half + 1], rfl, by simp, by simp⟩
      · rw [if_neg hle, if_neg fun h => hle h.1]
        exact ⟨[half + 1], rfl, by simp, by simp⟩

/-- The two runs side by side read both halves. -/
theorem forLt_pair_reads (update : ℕ → Byte → ℕ) (c : Ptr) (half : ℕ) (reads : List ℕ) :
    ∃ log, (forLt half 1 (Dfa.updatePairAt update c half) 0 (0, 0, reads)).2
      = ((slice c half).foldl update 0,
          (slice (fun i => c (half + i)) half).foldl update 0, reads ++ log) ∧
      ∀ r, r ∈ log ↔ r < 2 * half := by
  have hfold : ∀ k : ℕ, ∃ log, (List.range k).foldl
      (fun s i => Dfa.updatePairAt update c half i s) (0, 0, reads)
      = ((slice c k).foldl update 0, (slice (fun i => c (half + i)) k).foldl update 0,
          reads ++ log) ∧ ∀ r, r ∈ log ↔ r < k ∨ (half ≤ r ∧ r < half + k) := by
    intro k
    induction k with
    | zero =>
        refine ⟨[], by simp, fun r => ?_⟩
        simp only [List.not_mem_nil, false_iff]
        omega
    | succ k ih =>
        obtain ⟨log, hlog, hmem⟩ := ih
        refine ⟨log ++ [k, half + k], ?_, fun r => ?_⟩
        · rw [List.range_succ, List.foldl_append, hlog, slice_succ, slice_succ]
          simp [Dfa.updatePairAt, Dfa.updateAt, readAt]
        · simp only [List.mem_append, hmem, List.mem_cons, List.not_mem_nil, or_false]
          omega
  obtain ⟨log, hlog, hmem⟩ := hfold half
  refine ⟨log, by rw [forLt_range, hlog], fun r => ?_⟩
  rw [hmem]
  omega

/-- The loop with the `int` index reads below its bound, and from an index that is not
negative it reads all of it. -/
theorem forInt_reads (update : ℕ → Byte → ℕ) (c : Ptr) (stop : ℕ) (j : ℤ) (s : ℕ)
    (reads : List ℕ) :
    ∃ log, forInt stop (Dfa.updateAt update c) j (s, reads)
        = (forInt stop (fun j s => update s (c j)) j s).map (fun s' => (s', reads ++ log)) ∧
      (∀ r ∈ log, r < stop) ∧
      ((forInt stop (fun j s => update s (c j)) j s).isSome → 0 ≤ j → j < 2 ^ 31 →
        ∀ r : ℕ, j ≤ r → r < stop → r ∈ log) := by
  fun_induction forInt stop (fun j s => update s (c j)) j s generalizing reads with
  | case1 j s hlt hj ih =>
      -- One round, with a read at `j`.
      obtain ⟨log, hlog, hbound, hall⟩ := ih (reads ++ [j.toNat])
      rw [toNat_ofInt_of_nonneg hj.1 (by omega)] at hlt
      refine ⟨j.toNat :: log, ?_, ?_, ?_⟩
      · rw [forInt, if_pos (by rwa [toNat_ofInt_of_nonneg hj.1 (by omega)]), if_pos hj]
        simpa [Dfa.updateAt, readAt] using hlog
      · intro r hr
        rcases List.mem_cons.mp hr with rfl | hr
        · exact hlt
        · exact hbound r hr
      · intro hsome h0 hj31 r hjr hr
        by_cases hfirst : j = r
        · exact List.mem_cons.mpr (.inl (by omega))
        · exact List.mem_cons_of_mem _ (hall hsome (by omega) (by omega) r (by omega) hr)
  | case2 j s hlt hj =>
      -- No result: the index is below zero, or `j++` overflows.
      refine ⟨[], ?_, by simp, by simp⟩
      rw [forInt, if_pos hlt, if_neg hj]
      rfl
  | case3 j s hge =>
      -- The exit: from `j` on, no index is below the bound.
      refine ⟨[], ?_, by simp, ?_⟩
      · rw [forInt, if_neg hge]
        simp
      · intro _ h0 hj31 r hjr hr
        rw [toNat_ofInt_of_nonneg h0 hj31] at hge
        omega

/-- Where the reads of a double validator of `n` bytes are, when it returns. -/
structure ReadsHalves (n : ℕ) (reads : List ℕ) : Prop where
  inside : 0 < n → ∀ r ∈ reads, r < n
  all : n < 2 ^ 31 → ∀ r < n, r ∈ reads
  empty : n = 0 → 0 ∈ reads

/-- A double validator has the same result, and where it returns its reads are those of both
halves. -/
theorem doubleReads_eq {update : ℕ → Byte → ℕ} {reject : ℕ} (c : Ptr) (n : ℕ) :
    ∃ reads, Dfa.doubleReads update reject c n
        = (Dfa.double update reject c n).map (fun verdict => (verdict, reads)) ∧
      ((Dfa.double update reject c n).isSome → ReadsHalves n reads) := by
  obtain ⟨log₁, hsplit, hbound₁, hmem₁⟩ := splitPointReads_eq c (n / 2) []
  have hle := (stopsAt_splitPoint c (n / 2)).le
  generalize hhalf : Dfa.splitPoint c (n / 2) = half at hsplit hle
  obtain ⟨log₂, hpair, hmem₂⟩ := forLt_pair_reads update c half ([] ++ log₁)
  obtain ⟨log₃, hrest, hbound₃, hall₃⟩ :=
    forInt_reads update c n (toCInt (half * 2))
      ((slice (fun i => c (half + i)) half).foldl update 0) ([] ++ log₁ ++ log₂)
  -- The reads of the search, of the two runs, and of the loop over the bytes left over.
  refine ⟨[] ++ log₁ ++ log₂ ++ log₃, ?_, fun hsome => ⟨?_, ?_, ?_⟩⟩
  · rw [Dfa.doubleReads, hsplit, double_eq c n hhalf]
    simp only [hpair, hrest]
    cases forInt n (fun j s2 => update s2 (c j)) (toCInt (half * 2))
      ((slice (fun i => c (half + i)) half).foldl update 0) <;> rfl
  · intro hpos r hr
    simp only [List.nil_append, List.mem_append] at hr
    rcases hr with (hr | hr) | hr
    · have := hbound₁ r hr
      omega
    · have := (hmem₂ r).mp hr
      omega
    · exact hbound₃ r hr
  · intro hn r hr
    simp only [List.nil_append, List.mem_append]
    by_cases hfront : r < 2 * half
    · exact .inl (.inr ((hmem₂ r).mpr hfront))
    · -- The bytes left over, from `half * 2` on.
      have hstart : toCInt (half * 2) = (2 * half : ℕ) := by
        rw [toCInt_eq, Nat.mul_comm half 2, Nat.mod_eq_of_lt (by omega), if_pos (by omega)]
      rw [double_eq c n hhalf, Option.isSome_map] at hsome
      exact .inr (hall₃ hsome (by omega) (by omega) r (by omega) hr)
  · intro hzero
    simp only [List.nil_append, List.mem_append]
    rw [hzero] at hmem₁
    exact .inl (.inl hmem₁)

/-- The double validators have the verdicts of the model without reads. Where they return,
they read inside the text, unless it is empty, and below `2 ^ 31` bytes they read all of it.
Over an empty text they read the byte behind it. -/
theorem doubleValidators_reads (c : Ptr) (n : ℕ) :
    (∃ reads, validateDfaUtf8DoubleReads c n
        = (validateDfaUtf8Double c n).map (fun verdict => (verdict, reads)) ∧
      ((validateDfaUtf8Double c n).isSome → ReadsHalves n reads)) ∧
    ∃ reads, shiftlessValidateDfaUtf8DoubleReads c n
        = (shiftlessValidateDfaUtf8Double c n).map (fun verdict => (verdict, reads)) ∧
      ((shiftlessValidateDfaUtf8Double c n).isSome → ReadsHalves n reads) :=
  ⟨doubleReads_eq c n, doubleReads_eq c n⟩

end FastValidate.Proofs
