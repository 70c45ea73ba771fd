import FastValidate.Proofs.SimdUtf8Check
import FastValidate.Proofs.SimdUtf8CheckAvx512

/-!
# `FastValidate.Proofs.CarryLaw`: the law of the carries

`carryContinuations` and `checkContinuations` on their own, folded over blocks of any
lengths in `0..4`. A run is a length `n` and `n - 1` zeros. The fold has no error exactly
when the stream of lengths is a prefix of a concatenation of runs, and then the carry of a
lane is what is left of the run at that lane (`CarryLaw`). Lane 0 can count the end of the
block before it twice, so its carry may be larger.

`countdown` reads the runs: `isSome_run_countdown_iff` is the language it accepts, and
`EndsInRun.run_countdown` relates its state to the position in a run. `Carried` is the
invariant of the fold, `Carried.next` its step lemma and `carried_foldCarries` its run
lemma.
-/

set_option autoImplicit false

namespace FastValidate.Proofs

open Simd
open Automata
open Computability
open FastValidate.Code

/-! ### Runs of lengths -/

/-- A run: a length `n`, and a zero for each of the `n - 1` bytes behind it. -/
def lengthRun (n : ℕ) : List ℕ := n :: List.replicate (n - 1) 0

/-- The runs of the lengths 1 to 4. -/
def lengthRuns : Language ℕ := {w | ∃ n, 0 < n ∧ n ≤ 4 ∧ w = lengthRun n}

/-- A prefix of a concatenation of runs. -/
def IsRunsPrefix (w : List ℕ) : Prop := ∃ r, w ++ r ∈ lengthRuns∗

/-- The last entry of `w` is at position `k`, counted from 0, of a run of length `n`, with
complete runs before that run. -/
structure EndsInRun (w : List ℕ) (n k : ℕ) : Prop where
  split : ∃ u ∈ lengthRuns∗, w = u ++ n :: List.replicate k 0
  lt : k < n
  le_four : n ≤ 4

/-- A run up to its last entry is complete. -/
theorem EndsInRun.mem_kstar {w : List ℕ} {n : ℕ} (h : EndsInRun w n (n - 1)) :
    w ∈ lengthRuns∗ := by
  obtain ⟨u, hu, rfl⟩ := h.split
  have hrun : lengthRun n ∈ lengthRuns := ⟨n, by have := h.lt; omega, h.le_four, rfl⟩
  rw [← Language.one_add_kstar_mul_self_eq_kstar]
  exact .inr (Language.append_mem_mul hu hrun)

/-- Zeros pay what is owed. -/
theorem run_countdown_zeros {r k : ℕ} (h : k ≤ r) :
    countdown.run r (List.replicate k 0) = some (r - k) := by
  induction k generalizing r with
  | zero => rfl
  | succ k ih =>
      have hstep : countdown.step r 0 = some (r - 1) :=
        countdown_step_eq_some.mpr (.inr ⟨by omega, rfl, rfl⟩)
      rw [List.replicate_succ, Partial.run_cons, hstep]
      show countdown.run (r - 1) (List.replicate k 0) = _
      rw [ih (by omega)]
      congr 1
      omega

/-- Up to position `k` of a run of length `n`, what is owed is the rest of the run. -/
theorem run_countdown_lengths {n k : ℕ} (h : k < n) :
    countdown.run 0 (n :: List.replicate k 0) = some (n - k - 1) := by
  have hstep : countdown.step 0 n = some (n - 1) :=
    countdown_step_eq_some.mpr (.inl ⟨rfl, by omega, rfl⟩)
  rw [Partial.run_cons, hstep]
  show countdown.run (n - 1) (List.replicate k 0) = _
  rw [run_countdown_zeros (by omega)]
  congr 1
  omega

/-- `countdown` owes nothing after complete runs. -/
theorem run_countdown_of_mem_kstar {w : List ℕ} (hw : w ∈ lengthRuns∗) :
    countdown.run 0 w = some 0 := by
  refine Partial.run_eq_start_of_mem_kstar (A := countdown) ?_ hw
  rintro v ⟨n, hpos, -, rfl⟩
  show countdown.run 0 (n :: List.replicate (n - 1) 0) = some 0
  rw [run_countdown_lengths (by omega)]
  congr 1
  omega

/-- What `countdown` owes at a position of a run. -/
theorem EndsInRun.run_countdown {w : List ℕ} {n k : ℕ} (h : EndsInRun w n k) :
    countdown.run 0 w = some (n - k - 1) := by
  obtain ⟨u, hu, rfl⟩ := h.split
  rw [Partial.run_append, run_countdown_of_mem_kstar hu]
  exact run_countdown_lengths h.lt

/-- Each entry that `countdown` has read is at a position of a run. Induction on the last
entry, which starts a run or goes on with one. -/
theorem exists_endsInRun {w : List ℕ} (hw : ∀ a ∈ w, a ≤ 4) (hne : w ≠ []) {r : ℕ}
    (hrun : countdown.run 0 w = some r) : ∃ n k, EndsInRun w n k := by
  induction w using List.reverseRecOn generalizing r with
  | nil => exact absurd rfl hne
  | append_singleton w a ih =>
      have ha : a ≤ 4 := hw a (by simp)
      have hfront : ∀ b ∈ w, b ≤ 4 := fun b hb => hw b (by simp [hb])
      rw [Partial.run_concat] at hrun
      obtain ⟨r₀, hr₀, hstep⟩ := Option.bind_eq_some_iff.mp hrun
      rcases countdown_step_eq_some.mp hstep with ⟨rfl, hpos, -⟩ | ⟨hr, rfl, -⟩
      · -- Nothing is owed, so the runs before are complete.
        have hcomplete : w ∈ lengthRuns∗ := by
          by_cases hnil : w = []
          · rw [hnil]
            exact Language.nil_mem_kstar _
          · obtain ⟨n, k, hend⟩ := ih hfront hnil hr₀
            have howed := hend.run_countdown
            rw [hr₀, Option.some.injEq] at howed
            have hlt := hend.lt
            obtain rfl : k = n - 1 := by omega
            exact hend.mem_kstar
        exact ⟨a, 0, ⟨w, hcomplete, rfl⟩, hpos, ha⟩
      · -- A byte is owed, so the run is not at its end.
        have hnil : w ≠ [] := by
          rintro rfl
          obtain rfl : r₀ = 0 := by simpa using hr₀.symm
          exact absurd hr (Nat.lt_irrefl 0)
        obtain ⟨n, k, hend⟩ := ih hfront hnil hr₀
        have howed := hend.run_countdown
        rw [hr₀, Option.some.injEq] at howed
        obtain ⟨u, hu, rfl⟩ := hend.split
        refine ⟨n, k + 1, ⟨u, hu, ?_⟩, by omega, hend.le_four⟩
        rw [List.replicate_succ', List.append_assoc]
        rfl

/-- `countdown` reads exactly the prefixes of concatenations of runs. -/
theorem isSome_run_countdown_iff {w : List ℕ} (hw : ∀ a ∈ w, a ≤ 4) :
    (countdown.run 0 w).isSome ↔ IsRunsPrefix w := by
  constructor
  · intro hsome
    obtain ⟨r, hr⟩ := Option.isSome_iff_exists.mp hsome
    by_cases hnil : w = []
    · rw [hnil]
      exact ⟨[], Language.nil_mem_kstar _⟩
    · -- The zeros that are owed complete the last run.
      obtain ⟨n, k, hend⟩ := exists_endsInRun hw hnil hr
      obtain ⟨u, hu, rfl⟩ := hend.split
      have hlt := hend.lt
      refine ⟨List.replicate (n - 1 - k) 0, ?_⟩
      have hzeros : List.replicate k 0 ++ List.replicate (n - 1 - k) 0
          = List.replicate (n - 1) 0 := by
        rw [← List.replicate_add]
        congr 1
        omega
      have hwhole : EndsInRun (u ++ n :: List.replicate (n - 1) 0) n (n - 1) :=
        ⟨⟨u, hu, rfl⟩, by omega, hend.le_four⟩
      rw [List.append_assoc, List.cons_append, hzeros]
      exact hwhole.mem_kstar
  · rintro ⟨r, hr⟩
    apply Partial.isSome_run_of_append countdown (w := r)
    rw [run_countdown_of_mem_kstar hr]
    rfl

/-! ### Blocks of lengths -/

variable {n : ℕ}

/-- A register of lengths in `0..4`. -/
structure LengthReg (n : ℕ) where
  reg : Reg n
  le_four : ∀ i < n, (lane reg i).toNat ≤ 4

/-- The length in lane `i`. -/
def LengthReg.length (b : LengthReg n) (i : ℕ) : ℕ := (lane b.reg i).toNat

/-- A lane of a register of lengths is at most four. -/
theorem LengthReg.length_le (b : LengthReg n) (i : ℕ) : b.length i ≤ 4 := by
  by_cases hi : i < n
  · exact b.le_four i hi
  · -- A lane past the end is zero.
    simp [LengthReg.length, lane, hi]

/-- The lengths of a sequence of blocks, lane by lane. -/
def lengthStream (blocks : List (LengthReg n)) : List ℕ :=
  blocks.flatMap fun b => (List.range n).map b.length

/-- The lengths of two lists of registers, one after the other. -/
theorem lengthStream_append (front rest : List (LengthReg n)) :
    lengthStream (front ++ rest) = lengthStream front ++ lengthStream rest :=
  List.flatMap_append

/-- The lengths of the first register come first. -/
theorem lengthStream_cons (b : LengthReg n) (rest : List (LengthReg n)) :
    lengthStream (b :: rest) = (List.range n).map b.length ++ lengthStream rest :=
  List.flatMap_cons

/-- All lengths of a stream are at most four. -/
theorem lengthStream_le (blocks : List (LengthReg n)) : ∀ a ∈ lengthStream blocks, a ≤ 4 := by
  intro a ha
  obtain ⟨b, -, hab⟩ := List.mem_flatMap.mp ha
  obtain ⟨i, -, rfl⟩ := List.mem_map.mp hab
  exact b.length_le i

section Fold

variable {ε : Type} {clean : ε → Prop} {carry : Reg n → Reg n → Reg n}
  {check : Reg n → Reg n → ε → ε}

/-- The carries of the last block and the errors, after the carry computation and its check
for each block in turn. -/
def foldCarries (carry : Reg n → Reg n → Reg n) (check : Reg n → Reg n → ε → ε)
    (previousCarries : Reg n) (noError : ε) (blocks : List (LengthReg n)) : Reg n × ε :=
  blocks.foldl
    (fun s b =>
      let carries := carry b.reg s.1
      (carries, check b.reg carries s.2))
    (previousCarries, noError)

/-- The law of the carries, from previous carries that are all at most 1. There is no error
exactly when the lengths are a prefix of a concatenation of runs, and then, in every block
`cur`, each lane is at a position of a run and the carry of the lane is the rest of the run
from that position on, or more in lane 0. -/
structure CarryLaw (clean : ε → Prop) (noError : ε) (carry : Reg n → Reg n → Reg n)
    (check : Reg n → Reg n → ε → ε) : Prop where
  clean_iff : ∀ (prev : Reg n) (blocks : List (LengthReg n)),
    (∀ i < n, (lane prev i).toNat ≤ 1) →
    (clean (foldCarries carry check prev noError blocks).2
      ↔ IsRunsPrefix (lengthStream blocks))
  position : ∀ (prev : Reg n) (front : List (LengthReg n)) (cur : LengthReg n)
    (rest : List (LengthReg n)), (∀ i < n, (lane prev i).toNat ≤ 1) →
    clean (foldCarries carry check prev noError (front ++ cur :: rest)).2 →
    ∀ i < n, ∃ m k, EndsInRun (lengthStream front ++ (List.range (i + 1)).map cur.length) m k
  carry_eq : ∀ (prev : Reg n) (front : List (LengthReg n)) (cur : LengthReg n)
    (rest : List (LengthReg n)), (∀ i < n, (lane prev i).toNat ≤ 1) →
    clean (foldCarries carry check prev noError (front ++ cur :: rest)).2 →
    ∀ i < n, ∀ m k, EndsInRun (lengthStream front ++ (List.range (i + 1)).map cur.length) m k →
      m - k ≤ (lane (foldCarries carry check prev noError (front ++ [cur])).1 i).toNat ∧
      (i ≠ 0 →
        (lane (foldCarries carry check prev noError (front ++ [cur])).1 i).toNat = m - k)

/-- The state of the fold after the lengths `t`. -/
structure Carried (clean : ε → Prop) (t : List ℕ) (s : Reg n × ε) : Prop where
  clean_iff : clean s.2 ↔ (countdown.run 0 t).isSome
  boundary : ∀ r, countdown.run 0 t = some r →
    Boundary r (lane s.1 (n - 1)).toNat (lane s.1 (n - 2)).toNat

/-- What is asked of a carry computation and its check. -/
structure CarrySpec (clean : ε → Prop) (carry : Reg n → Reg n → Reg n)
    (check : Reg n → Reg n → ε → ε) : Prop where
  lane_carry : ∀ {lens prev : Reg n} {L : ℕ → ℕ}, CarryInput lens prev L → ∀ i < n,
    (lane (carry lens prev) i).toNat
      = carryAt L (lane prev (n - 1)).toNat (lane prev (n - 2)).toNat i
  clean_check : ∀ {lens car : Reg n} {L C : ℕ → ℕ},
    (∀ i < n, (lane lens i).toNat = L i ∧ L i < 128) →
    (∀ i < n, (lane car i).toNat = C i ∧ C i < 128) →
    ∀ e, clean (check lens car e) ↔ clean e ∧ ∀ i < n, Fits L C i
  sticky : ∀ lens car e, clean (check lens car e) → clean e

/-- The carry computation and the check of a block step. -/
theorem carrySpec_of_checksSpec {push1 push2 : Reg n → Reg n → Reg n} {checks : Checks n ε}
    (hpush : Lookback push1 push2) (hchecks : ChecksSpec clean checks) :
    CarrySpec clean (Shape.carryContinuations push1 push2) checks.continuations where
  lane_carry hinput _ hi := toNat_carryAt hpush hinput hi
  clean_check hL hC := hchecks.continuations hL hC
  sticky := hchecks.sticky_continuations

/-- Previous carries of at most 1 owe nothing. -/
theorem carried_nil (hn : 2 ≤ n) {prev : Reg n} (hprev : ∀ i < n, (lane prev i).toNat ≤ 1)
    {noError : ε} (hno : clean noError) : Carried clean [] (prev, noError) where
  clean_iff := by simpa using hno
  boundary r hr := by
    cases hr
    have hlast := hprev (n - 1) (by omega)
    have hbefore := hprev (n - 2) (by omega)
    show Boundary 0 (lane prev (n - 1)).toNat (lane prev (n - 2)).toNat
    exact ⟨by omega, by omega, by omega⟩

/-- Behind a boundary the last two carries are small enough for the next block. -/
theorem Carried.input {t : List ℕ} {s : Reg n × ε} (h : Carried clean t s) {r : ℕ}
    (hr : countdown.run 0 t = some r) (cur : LengthReg n) :
    CarryInput cur.reg s.1 cur.length := by
  obtain ⟨hbound, hlast, hbefore⟩ := h.boundary r hr
  exact ⟨fun _ _ => rfl, cur.length_le, by omega, by omega⟩

/-- From a boundary, the check of a block has no new error exactly when `countdown` reads its
lengths. -/
theorem CarrySpec.clean_block (hspec : CarrySpec clean carry check) {s : Reg n × ε}
    {cur : LengthReg n} {r : ℕ}
    (hboundary : Boundary r (lane s.1 (n - 1)).toNat (lane s.1 (n - 2)).toNat)
    (hinput : CarryInput cur.reg s.1 cur.length) :
    clean (check cur.reg (carry cur.reg s.1) s.2)
      ↔ clean s.2 ∧ (countdown.run r ((List.range n).map cur.length)).isSome := by
  have hlengths : ∀ i < n, (lane cur.reg i).toNat = cur.length i ∧ cur.length i < 128 := by
    intro i _
    exact ⟨rfl, Nat.lt_of_le_of_lt (cur.length_le i) (by omega)⟩
  have hcarries : ∀ i < n, (lane (carry cur.reg s.1) i).toNat
        = carryAt cur.length (lane s.1 (n - 1)).toNat (lane s.1 (n - 2)).toNat i ∧
      carryAt cur.length (lane s.1 (n - 1)).toNat (lane s.1 (n - 2)).toNat i < 128 := by
    intro i hi
    have hle := (carryAt_le hinput.le_four hinput.last hinput.beforeLast i).2.1
    exact ⟨hspec.lane_carry hinput i hi, by omega⟩
  rw [hspec.clean_check hlengths hcarries, (fits_iff_countdown cur.length_le hboundary n).1]

/-- The step lemma: one block more. -/
theorem Carried.next (hn : 3 ≤ n) (hspec : CarrySpec clean carry check) {t : List ℕ}
    {s : Reg n × ε} (h : Carried clean t s) (cur : LengthReg n) :
    Carried clean (t ++ (List.range n).map cur.length)
      (carry cur.reg s.1, check cur.reg (carry cur.reg s.1) s.2) where
  clean_iff := by
    refine countdown.iff_isSome_run_append h.clean_iff (hspec.sticky _ _ _) ?_
    intro r hr
    exact hspec.clean_block (h.boundary r hr) (h.input hr cur)
  boundary r' hr' := by
    obtain ⟨r, hr, hblock⟩ := countdown.run_append_eq_some_iff.mp hr'
    have hcarry := hspec.lane_carry (h.input hr cur)
    show Boundary r' (lane (carry cur.reg s.1) (n - 1)).toNat
      (lane (carry cur.reg s.1) (n - 2)).toNat
    rw [hcarry (n - 1) (by omega), hcarry (n - 2) (by omega)]
    exact (h.boundary r hr).next cur.length_le hn hblock

/-- One more register is one more step. -/
theorem foldCarries_concat (prev : Reg n) (noError : ε) (blocks : List (LengthReg n))
    (cur : LengthReg n) :
    foldCarries carry check prev noError (blocks ++ [cur])
      = (carry cur.reg (foldCarries carry check prev noError blocks).1,
          check cur.reg (carry cur.reg (foldCarries carry check prev noError blocks).1)
            (foldCarries carry check prev noError blocks).2) := by
  rw [foldCarries, List.foldl_append]
  rfl

/-- The run lemma: the state after any sequence of blocks. -/
theorem carried_foldCarries (hn : 3 ≤ n) (hspec : CarrySpec clean carry check) {prev : Reg n}
    (hprev : ∀ i < n, (lane prev i).toNat ≤ 1) {noError : ε} (hno : clean noError)
    (blocks : List (LengthReg n)) :
    Carried clean (lengthStream blocks) (foldCarries carry check prev noError blocks) := by
  induction blocks using List.reverseRecOn with
  | nil => exact carried_nil (by omega) hprev hno
  | append_singleton blocks cur ih =>
      have hcur : lengthStream [cur] = (List.range n).map cur.length := by
        rw [lengthStream, List.flatMap_singleton]
      rw [foldCarries_concat, lengthStream_append, hcur]
      exact ih.next hn hspec cur

/-- In a block of a fold with no error, `countdown` reads the lengths before the block, and
then those of the block up to each lane. -/
theorem countdown_block {front rest : List (LengthReg n)} {cur : LengthReg n}
    (hsome : (countdown.run 0 (lengthStream (front ++ cur :: rest))).isSome) {i : ℕ}
    (hi : i < n) :
    ∃ r r', countdown.run 0 (lengthStream front) = some r ∧
      countdown.run r ((List.range (i + 1)).map cur.length) = some r' := by
  rw [lengthStream_append, lengthStream_cons, ← List.append_assoc] at hsome
  have hread := countdown.isSome_run_of_append hsome
  obtain ⟨q, hq⟩ := Option.isSome_iff_exists.mp hread
  obtain ⟨r, hr, hblock⟩ := countdown.run_append_eq_some_iff.mp hq
  have hlanes : (countdown.run r ((List.range (i + 1)).map cur.length)).isSome := by
    refine isSome_run_range ?_ (Nat.succ_le_of_lt hi)
    rw [hblock]
    rfl
  obtain ⟨r', hr'⟩ := Option.isSome_iff_exists.mp hlanes
  exact ⟨r, r', hr, hr'⟩

/-- A carry computation and a check as specified obey the law. -/
theorem carryLaw_of_spec (hn : 3 ≤ n) (hspec : CarrySpec clean carry check) {noError : ε}
    (hno : clean noError) : CarryLaw clean noError carry check where
  clean_iff prev blocks hprev := by
    have hrun := carried_foldCarries hn hspec hprev hno blocks
    exact hrun.clean_iff.trans (isSome_run_countdown_iff (lengthStream_le blocks))
  position prev front cur rest hprev hclean i hi := by
    have hrun := carried_foldCarries hn hspec hprev hno (front ++ cur :: rest)
    obtain ⟨r, r', hr, hr'⟩ := countdown_block (hrun.clean_iff.mp hclean) hi
    have hread : countdown.run 0
        (lengthStream front ++ (List.range (i + 1)).map cur.length) = some r' := by
      rw [Partial.run_append, hr]
      exact hr'
    refine exists_endsInRun ?_ (by simp) hread
    intro a ha
    rcases List.mem_append.mp ha with ha | ha
    · exact lengthStream_le front a ha
    · obtain ⟨j, -, rfl⟩ := List.mem_map.mp ha
      exact cur.length_le j
  carry_eq prev front cur rest hprev hclean i hi m k hend := by
    have hrun := carried_foldCarries hn hspec hprev hno (front ++ cur :: rest)
    obtain ⟨r, r', hr, hr'⟩ := countdown_block (hrun.clean_iff.mp hclean) hi
    have hfront := carried_foldCarries hn hspec hprev hno front
    have hboundary := hfront.boundary r hr
    -- What is owed after the lane is the rest of the run behind it.
    have howed := hend.run_countdown
    rw [Partial.run_append, hr] at howed
    obtain rfl : r' = m - k - 1 := by
      rw [← Option.some.injEq, ← hr', ← howed]
      rfl
    have hlt := hend.lt
    rw [foldCarries_concat]
    show m - k ≤ (lane (carry cur.reg _) i).toNat ∧
      (i ≠ 0 → (lane (carry cur.reg _) i).toNat = m - k)
    rw [hspec.lane_carry (hfront.input hr cur) i hi]
    constructor
    · have hle := le_carryAt cur.length_le hboundary hr'
      omega
    · intro hi0
      rw [carryAt_eq cur.length_le hboundary (by omega) hr']
      omega

end Fold

/-! ### The three widths -/

/-- The law of the carries for SSE, AVX2 and AVX-512. -/
theorem carryLaw :
    CarryLaw IsZero (setzero 16) carryContinuations checkContinuations ∧
    CarryLaw IsZero (setzero 32) avxcarryContinuations avxcheckContinuations ∧
    CarryLaw (fun e : BitVec 64 => e = 0) 0 avx512CarryContinuations
      avx512CheckContinuations := by
  refine ⟨?_, ?_, ?_⟩
  · exact carryLaw_of_spec (by omega)
      (carrySpec_of_checksSpec lookback_alignrEpi8 checksSpec_sse) isZero_setzero
  · exact carryLaw_of_spec (by omega)
      (carrySpec_of_checksSpec lookback_pushLastBytes checksSpec_avx) isZero_setzero
  · exact carryLaw_of_spec (by omega)
      (carrySpec_of_checksSpec lookback_avx512PushLastBytes checksSpec_mask) rfl

/-- Fourteen runs of length 1, and two entries of a run of length 3. -/
def cutRun : LengthReg 16 := ⟨setrEpi8 16 (List.replicate 14 1 ++ [3, 0]), by decide +kernel⟩

/-- The last entry of that run, and fifteen runs of length 1. -/
def runEnd : LengthReg 16 := ⟨setrEpi8 16 (0 :: List.replicate 15 1), by decide +kernel⟩

/-- A run cut after its second entry. The rest of it is 1, and lane 0 counts it twice. -/
theorem carryLaw_cut_run :
    3 - 2 ≤ (lane (foldCarries carryContinuations checkContinuations (setzero 16) (setzero 16)
        [cutRun, runEnd]).1 0).toNat ∧
      (lane (foldCarries carryContinuations checkContinuations (setzero 16) (setzero 16)
        [cutRun, runEnd]).1 0).toNat = 2 := by
  have hones : List.replicate 14 1 ∈ lengthRuns∗ := by
    have hflat : List.replicate 14 1 = (List.replicate 14 (lengthRun 1)).flatten := rfl
    rw [hflat]
    refine Language.join_mem_kstar fun w hw => ?_
    exact ⟨1, by omega, by omega, List.eq_of_mem_replicate hw⟩
  have hprev : ∀ i < 16, (lane (setzero 16) i).toNat ≤ 1 := by
    intro i hi
    rw [lane_setzero hi]
    exact Nat.zero_le 1
  have hclean : IsZero (foldCarries carryContinuations checkContinuations (setzero 16)
      (setzero 16) [cutRun, runEnd]).2 := by
    show ∀ i < 16, _
    decide +kernel
  have hend : EndsInRun (lengthStream [cutRun] ++ (List.range 1).map runEnd.length) 3 2 :=
    ⟨⟨List.replicate 14 1, hones, by decide +kernel⟩, by omega, by omega⟩
  have hlaw := carryLaw.1.carry_eq (setzero 16) [cutRun] runEnd [] hprev hclean 0 (by omega)
    3 2 hend
  exact ⟨hlaw.1, by decide +kernel⟩

end FastValidate.Proofs
