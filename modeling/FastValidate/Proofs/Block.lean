import FastValidate.Code.SimdUtf8Check
import FastValidate.Proofs.Bytes

/-!
# `FastValidate.Proofs.Block`: block steps and the machine they implement

Nothing here depends on an instruction set. `StepSpec` says, lane by lane, what one call of
a block step computes, and the files about SSE, AVX2 and AVX-512 prove it for their
functions. `AtBoundary v p` relates the registers kept between two blocks to the state `v`
of `lateMachine`. It holds for the all-zero registers, and it does not determine the
registers: the ASCII path keeps stale ones that are at the same boundary.

A step `Follows` the machine when, from a boundary, its errors are the refusals of
`lateMachine` on the bytes of the block, and it reaches the next boundary. `Describes` is
the invariant of a run: after the bytes `t`, the errors are those of `lateMachine` on `t`.
`Describes.next` is the step lemma, `describes_foldBlocks` the run lemma over blocks, and
`acceptsWellFormed_validate` the run of a validator, with the loop, the padded last block
and the carry threshold.
-/

set_option autoImplicit false

namespace FastValidate.Proofs

open Simd Memory Loops
open Automata
open FastValidate.Spec
open FastValidate.Code

variable {n : ℕ}

/-! ### One call of a block step -/

/-- The byte before the current block. -/
def lastByte (p : ProcessedUtfBytes n) : Byte := lane p.rawbytes (n - 1)

/-- The last carry of the previous block. -/
def lastCarry (p : ProcessedUtfBytes n) : ℕ := (lane p.carriedContinuations (n - 1)).toNat

/-- The carry before the last one. -/
def beforeLastCarry (p : ProcessedUtfBytes n) : ℕ :=
  (lane p.carriedContinuations (n - 2)).toNat

/-- The lengths that the bytes of a block announce. -/
def lengths (cur : Reg n) (i : ℕ) : ℕ := leadLength (lane cur i)

/-- The carries of a block behind the registers `p`. -/
def carries (cur : Reg n) (p : ProcessedUtfBytes n) : ℕ → ℕ :=
  carryAt (lengths cur) (lastCarry p) (beforeLastCarry p)

/-- No byte announces more than four. -/
theorem lengths_le (cur : Reg n) (i : ℕ) : lengths cur i ≤ 4 := leadLength_le _

/-- What every call of a block step keeps true of its registers, errors or not: the nibbles
are those of the bytes, and the last two carries have the bound of `carryAt_le`. -/
structure Coherent (p : ProcessedUtfBytes n) : Prop where
  nibble : lane p.highNibbles (n - 1) = lastByte p >>> 4
  last : lastCarry p ≤ 12
  beforeLast : beforeLastCarry p ≤ 12

/-- One call on the block `cur` behind the registers `p`. `was` and `now` say that there is
no error before and after, and `out` are the registers returned. -/
structure StepSpec (cur : Reg n) (p : ProcessedUtfBytes n) (was now : Prop)
    (out : ProcessedUtfBytes n) : Prop where
  bytes : out.rawbytes = cur
  nibbles : ∀ i < n, lane out.highNibbles i = lane cur i >>> 4
  carry : ∀ i < n, (lane out.carriedContinuations i).toNat = carries cur p i
  clean : now ↔ was ∧ (∀ i < n, Fits (lengths cur) (carries cur p) i) ∧
    ∀ i < n, PairOk (delay (lastByte p) (lane cur) i) (lane cur i)

/-- The returned registers are coherent again. The last two lanes are past lane 3. -/
theorem StepSpec.coherent {cur : Reg n} {p out : ProcessedUtfBytes n} {was now : Prop}
    (h : StepSpec cur p was now out) (hn : 5 ≤ n) (hp : Coherent p) : Coherent out where
  nibble := by
    rw [h.nibbles (n - 1) (by omega), lastByte, h.bytes]
  last := by
    rw [lastCarry, h.carry (n - 1) (by omega)]
    exact (carryAt_le (lengths_le cur) hp.last hp.beforeLast (n - 1)).2.2 (by omega)
  beforeLast := by
    rw [beforeLastCarry, h.carry (n - 2) (by omega)]
    exact (carryAt_le (lengths_le cur) hp.last hp.beforeLast (n - 2)).2.2 (by omega)

/-! ### Block boundaries -/

/-- The registers `p` after bytes that lead `lateMachine` to `v`. -/
structure AtBoundary (v : Seen) (p : ProcessedUtfBytes n) : Prop where
  sees : Sees v (lastByte p)
  coherent : Coherent p
  carry : Boundary v.need (lastCarry p) (beforeLastCarry p)
  small : ∀ i < n, (lane p.carriedContinuations i).toNat ≤ 6

/-- The all-zero registers are at the boundary before the first byte. -/
theorem atBoundary_zero (hn : 2 ≤ n) :
    AtBoundary (.valid .start) (ProcessedUtfBytes.zero n) := by
  have hbyte : lastByte (ProcessedUtfBytes.zero n) = 0 := lane_setzero (by omega)
  have hnibble : lane (ProcessedUtfBytes.zero n).highNibbles (n - 1) = 0 :=
    lane_setzero (by omega)
  have hcarry : ∀ i < n, (lane (ProcessedUtfBytes.zero n).carriedContinuations i).toNat = 0 :=
    fun i hi => congrArg BitVec.toNat (lane_setzero hi)
  have hlast : lastCarry (ProcessedUtfBytes.zero n) = 0 := hcarry (n - 1) (by omega)
  have hbefore : beforeLastCarry (ProcessedUtfBytes.zero n) = 0 := hcarry (n - 2) (by omega)
  -- Before the first byte the registers look as after an ASCII byte.
  refine ⟨?_, ⟨?_, by omega, by omega⟩, ?_, ?_⟩
  · rw [hbyte]
    decide
  · rw [hnibble, hbyte]
    rfl
  · rw [hlast, hbefore]
    exact ⟨by decide, rfl, by decide⟩
  · intro i hi
    rw [hcarry i hi]
    omega

/-- A machine that reads all lanes reads the first ones. -/
theorem isSome_run_range {α σ : Type} {A : Partial α σ} {q : σ} {f : ℕ → α} {i : ℕ}
    (h : (A.run q ((List.range n).map f)).isSome) (hi : i ≤ n) :
    (A.run q ((List.range i).map f)).isSome := by
  obtain ⟨k, rfl⟩ := Nat.exists_eq_add_of_le hi
  rw [List.range_add, List.map_append] at h
  exact A.isSome_run_of_append h

/-- From a boundary, a block step has no new error exactly when `lateMachine` reads the
block, and then its registers are at the next boundary. -/
theorem StepSpec.atBoundary {cur : Reg n} {p out : ProcessedUtfBytes n} {was now : Prop}
    {v : Seen} (h : StepSpec cur p was now out) (hn : 5 ≤ n) (hp : AtBoundary v p) :
    (now ↔ was ∧ (lateMachine.run v cur.toList).isSome) ∧
    ∀ v', lateMachine.run v cur.toList = some v' → AtBoundary v' out := by
  rw [toList_eq_map_lane]
  have hcount := fits_iff_countdown (lengths_le cur) hp.carry n
  have hlate := late_iff hp.sees (lane cur) n
  refine ⟨?_, fun v' hv' => ?_⟩
  · rw [h.clean, ← hlate.1]
    exact and_congr_right fun _ => and_congr_left fun _ => hcount.1
  · obtain ⟨hsees, hrun⟩ := hlate.2 v' hv'
    have hsome : (countdown.run v.need ((List.range n).map (lengths cur))).isSome := by
      rw [show (List.range n).map (lengths cur)
        = (List.range n).map fun j => leadLength (lane cur j) from rfl, hrun]
      rfl
    refine ⟨?_, h.coherent hn hp.coherent, ?_, fun i hi => ?_⟩
    · -- The byte before the next block is the last lane of this one.
      rw [delay_of_pos _ _ (by omega)] at hsees
      rw [lastByte, h.bytes]
      exact hsees
    · rw [lastCarry, beforeLastCarry, h.carry (n - 1) (by omega), h.carry (n - 2) (by omega)]
      exact hp.carry.next (lengths_le cur) (by omega) hrun
    · rw [h.carry i hi]
      exact carryAt_le_six (lengths_le cur) hp.carry (isSome_run_range hsome hi)

/-! ### Runs of a step -/

section Run

variable {ε : Type} {clean : ε → Prop}
  {step lastStep : Reg n → ProcessedUtfBytes n → ε → ProcessedUtfBytes n × ε}
  {threshold : ProcessedUtfBytes n → ε → ε}

/-- A step that implements `lateMachine`. An error stays, and from a boundary the errors are
the refusals of the machine. -/
structure Follows (clean : ε → Prop)
    (step : Reg n → ProcessedUtfBytes n → ε → ProcessedUtfBytes n × ε) : Prop where
  sticky : ∀ cur p e, clean (step cur p e).2 → clean e
  reads : ∀ cur p e v, AtBoundary v p →
    (clean (step cur p e).2 ↔ clean e ∧ (lateMachine.run v cur.toList).isSome) ∧
    ∀ v', lateMachine.run v cur.toList = some v' → AtBoundary v' (step cur p e).1

/-- A carry threshold. From a boundary it asks that no continuation byte is owed. -/
structure ThresholdSpec (clean : ε → Prop) (threshold : ProcessedUtfBytes n → ε → ε) :
    Prop where
  sticky : ∀ p e, clean (threshold p e) → clean e
  reads : ∀ p e v, AtBoundary v p → (clean (threshold p e) ↔ clean e ∧ v.need = 0)

/-- The state of a run after the bytes `t`. -/
structure Describes (clean : ε → Prop) (t : List Byte) (s : ProcessedUtfBytes n × ε) :
    Prop where
  clean_iff : clean s.2 ↔ (lateMachine.run (.valid .start) t).isSome
  boundary : ∀ v, lateMachine.run (.valid .start) t = some v → AtBoundary v s.1

/-- The state before the first block. -/
theorem describes_nil (hn : 2 ≤ n) {e : ε} (he : clean e) :
    Describes clean [] (ProcessedUtfBytes.zero n, e) where
  clean_iff := by simpa using he
  boundary v hv := by
    cases hv
    exact atBoundary_zero hn

/-- The step lemma: one block more. -/
theorem Describes.next (hstep : Follows clean step) {t : List Byte}
    {s : ProcessedUtfBytes n × ε} (h : Describes clean t s) (cur : Reg n) :
    Describes clean (t ++ cur.toList) (step cur s.1 s.2) where
  clean_iff := by
    refine lateMachine.iff_isSome_run_append h.clean_iff (hstep.sticky cur s.1 s.2) ?_
    intro v hv
    exact (hstep.reads cur s.1 s.2 v (h.boundary v hv)).1
  boundary v' hv' := by
    obtain ⟨v, hv, hblock⟩ := lateMachine.run_append_eq_some_iff.mp hv'
    exact (hstep.reads cur s.1 s.2 v (h.boundary v hv)).2 v' hblock

/-- The bytes of a sequence of blocks. -/
def bytesOf (blocks : List (Reg n)) : List Byte := blocks.flatMap Vector.toList

/-- The registers and the errors after a sequence of blocks, from the all-zero registers. -/
def foldBlocks (step : Reg n → ProcessedUtfBytes n → ε → ProcessedUtfBytes n × ε)
    (noError : ε) (blocks : List (Reg n)) : ProcessedUtfBytes n × ε :=
  blocks.foldl (fun s cur => step cur s.1 s.2) (.zero n, noError)

/-- The run lemma: the state after any sequence of blocks. -/
theorem describes_foldBlocks (hstep : Follows clean step) (hn : 2 ≤ n) {noError : ε}
    (hno : clean noError) (blocks : List (Reg n)) :
    Describes clean (bytesOf blocks) (foldBlocks step noError blocks) := by
  induction blocks using List.reverseRecOn with
  | nil => exact describes_nil hn hno
  | append_singleton blocks cur ih =>
      rw [bytesOf, List.flatMap_append, List.flatMap_singleton, foldBlocks,
        List.foldl_append]
      exact ih.next hstep cur

/-- Two steps that follow the machine have errors after the same blocks. -/
theorem Follows.clean_foldBlocks_iff {step' : Reg n → ProcessedUtfBytes n → ε →
      ProcessedUtfBytes n × ε} (hstep : Follows clean step) (hstep' : Follows clean step')
    (hn : 2 ≤ n) {noError : ε} (hno : clean noError) (blocks : List (Reg n)) :
    clean (foldBlocks step noError blocks).2 ↔ clean (foldBlocks step' noError blocks).2 :=
  (describes_foldBlocks hstep hn hno blocks).clean_iff.trans
    (describes_foldBlocks hstep' hn hno blocks).clean_iff.symm

/-- A block with at least one zero byte behind a text has no error exactly when the text is
well formed. -/
theorem Describes.clean_zeros {t : List Byte} {k : ℕ} {s : ProcessedUtfBytes n × ε}
    (hk : 0 < k) (h : Describes clean (t ++ List.replicate k 0) s) :
    clean s.2 ↔ WellFormed t := by
  rw [h.clean_iff, lateMachine.run_append, ← run_lateMachine_eq_start_iff]
  -- The zeros are ASCII bytes, so they follow complete texts only.
  cases lateMachine.run (.valid .start) t with
  | none => simp
  | some v =>
      have hascii := run_lateMachine_ascii v (List.replicate k 0)
        (List.ne_nil_of_length_pos (by simpa using hk))
        (fun b hb => by rw [List.eq_of_mem_replicate hb]; decide)
      show ((lateMachine.run v (List.replicate k 0)).isSome : Prop) ↔ _
      rw [hascii]
      split
      · next hv => simp [hv]
      · next hv => simp [hv]

/-- After the last byte, the threshold has no error exactly when the text is well formed. -/
theorem Describes.clean_threshold (hthr : ThresholdSpec clean threshold) {t : List Byte}
    {s : ProcessedUtfBytes n × ε} (h : Describes clean t s) :
    clean (threshold s.1 s.2) ↔ WellFormed t := by
  rw [← run_lateMachine_eq_start_iff]
  cases ht : lateMachine.run (.valid .start) t with
  | none =>
      -- The threshold clears no error.
      have hdirty : ¬ clean s.2 := by
        rw [h.clean_iff, ht]
        simp
      exact ⟨fun hc => absurd (hthr.sticky _ _ hc) hdirty, fun hv => by cases hv⟩
  | some v =>
      have hok : clean s.2 := by
        rw [h.clean_iff, ht]
        rfl
      rw [hthr.reads s.1 s.2 v (h.boundary v ht), need_eq_zero_iff, Option.some.injEq]
      exact and_iff_right hok

/-- A validator that returns true on the well-formed strings and on no other. -/
def AcceptsWellFormed (validate : Ptr → ℕ → Bool) : Prop :=
  ∀ src len, validate src len = true ↔ WellFormed (slice src len)

/-- Two such validators return the same on every string. -/
theorem AcceptsWellFormed.agree {validate validate' : Ptr → ℕ → Bool}
    (h : AcceptsWellFormed validate) (h' : AcceptsWellFormed validate') (src : Ptr)
    (len : ℕ) : validate src len = validate' src len :=
  Bool.eq_iff_iff.mpr ((h src len).trans (h' src len).symm)

/-- A validator whose steps follow the machine accepts exactly the well-formed strings. The
loop invariant is `Describes` on the bytes before the counter. -/
theorem acceptsWellFormed_validate [NeZero n] (hn : 2 ≤ n) (hstep : Follows clean step)
    (hlast : Follows clean lastStep) (hthr : ThresholdSpec clean threshold) {noError : ε}
    (hno : clean noError) {isZero : ε → Bool} (hzero : ∀ e, isZero e = true ↔ clean e) :
    AcceptsWellFormed (Shape.validate step lastStep threshold noError isZero) := by
  intro src len
  -- The loop ends less than one block before the end of the text, or does not start.
  have hexit : ∃ i s, i ≤ len ∧ len < i + n ∧ Describes clean (slice src i) s ∧
      (if n ≤ len then
        forLe (len - n) n (fun i s => step (loadu n src i) s.1 s.2) 0
          (ProcessedUtfBytes.zero n, noError)
      else (0, ProcessedUtfBytes.zero n, noError)) = (i, s) := by
    have hinit : Describes clean (slice src 0) (ProcessedUtfBytes.zero n, noError) :=
      describes_nil hn hno
    by_cases hlen : n ≤ len
    · have hnext : ∀ (i : ℕ) (s : ProcessedUtfBytes n × ε), i ≤ len - n →
          (i ≤ len ∧ Describes clean (slice src i) s) →
          (i + n ≤ len ∧
            Describes clean (slice src (i + n)) (step (loadu n src i) s.1 s.2)) := by
        intro i s hi hs
        refine ⟨by omega, ?_⟩
        rw [slice_add, ← toList_loadu]
        exact hs.2.next hstep _
      have hloop := forLe_rule (P := fun i s => i ≤ len ∧ Describes clean (slice src i) s)
        hnext 0 (ProcessedUtfBytes.zero n, noError) ⟨Nat.zero_le _, hinit⟩
      refine ⟨_, _, hloop.1.1, ?_, hloop.1.2, ?_⟩
      · have hstop := hloop.2
        omega
      · rw [if_pos hlen]
    · exact ⟨0, _, Nat.zero_le _, by omega, hinit, if_neg hlen⟩
  obtain ⟨i, s, hi, hin, hdesc, hrun⟩ := hexit
  unfold Shape.validate
  simp only [hrun]
  rw [hzero]
  by_cases hrest : i < len
  · -- The rest of the text, and at least one zero byte, fill the last block.
    rw [if_pos hrest]
    obtain ⟨k, rfl⟩ := Nat.exists_eq_add_of_lt hrest
    have hcount : i + k + 1 - i = k + 1 := by omega
    rw [hcount]
    have hbytes : slice src i ++ (loadu n (zeroPadded src i (k + 1)) 0).toList
        = slice src (i + (k + 1)) ++ List.replicate (n - (k + 1)) 0 := by
      rw [toList_loadu, slice_add, List.append_assoc,
        ← slice_zeroPadded src i (by omega : k + 1 ≤ n)]
      simp only [Nat.zero_add]
    have hnext := hdesc.next hlast (loadu n (zeroPadded src i (k + 1)) 0)
    rw [hbytes] at hnext
    exact hnext.clean_zeros (by omega)
  · obtain rfl : i = len := by omega
    rw [if_neg hrest]
    exact hdesc.clean_threshold hthr

/-- The ASCII path around a step: a block of ASCII bytes keeps the registers and looks at
their carries. -/
theorem Follows.asciiPath (hstep : Follows clean step) (hthr : ThresholdSpec clean threshold)
    (hn : 0 < n) {isAscii : Reg n → Bool}
    (hascii : ∀ cur, isAscii cur = true ↔ ∀ i < n, lane cur i ≤ 0x7F) :
    Follows clean fun cur p e =>
      if isAscii cur then (p, threshold p e) else step cur p e where
  sticky cur p e := by
    split
    · exact hthr.sticky p e
    · exact hstep.sticky cur p e
  reads cur p e v hp := by
    split
    · next hcur =>
        have hne : cur.toList ≠ [] := List.ne_nil_of_length_pos (by simpa using hn)
        have hbytes : ∀ b ∈ cur.toList, b ≤ 0x7F := by
          rw [toList_eq_map_lane]
          intro b hb
          obtain ⟨i, hi, rfl⟩ := List.mem_map.mp hb
          exact (hascii cur).mp hcur i (List.mem_range.mp hi)
        rw [run_lateMachine_ascii v cur.toList hne hbytes, hthr.reads p e v hp,
          need_eq_zero_iff]
        -- The registers stay at the boundary they were at, between sequences.
        split
        · next hv =>
            refine ⟨by simp [hv], fun v' hv' => ?_⟩
            cases hv'
            exact hv ▸ hp
        · next hv =>
            exact ⟨by simp [hv], fun v' hv' => by cases hv'⟩
    · exact hstep.reads cur p e v hp

end Run

end FastValidate.Proofs
