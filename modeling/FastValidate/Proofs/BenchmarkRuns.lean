import FastValidate.Code.BenchmarkRuns
import FastValidate.Proofs.HoehrmannSplit
import FastValidate.Proofs.PopulateRuns
import FastValidate.Proofs.SimdAsciiCheck
import FastValidate.Proofs.ValidateUtf8

/-!
# `FastValidate.Proofs.BenchmarkRuns`: what the benchmarks report

`demo_utf8` expects every validator to accept what `populate_utf8` writes. Ten of its twelve
measurements never report anything else, and the two of the double validators report at most
that a verdict was false (`demoUtf8_reports`).

`demo` passes `N + 1` bytes of an `N`-byte buffer to the table-driven validators. So their
verdict is about the byte behind the buffer, and six of its nineteen measurements report it as
unexpected exactly when no sequence begins with that byte (`demo_reports`).
-/

set_option autoImplicit false

namespace FastValidate.Proofs

open Simd Memory Loops
open Automata
open FastValidate.Spec
open FastValidate.Code

/-! ### The loop of a measurement -/

/-- What a measurement reports when every verdict is `verdict`. -/
def reportOf (expected verdict : Bool) : Report :=
  if verdict = expected then none else some (verdict, expected)

section BestTime

variable {P Q : Bench → Prop} {expected : Bool} {pre : Bench → Option Bench}

/-- One repetition. Where the verdict is unexpected, the line calls the test on the same text
again, and the loop is left. -/
theorem bestTime_succ {test : Bench → Option Bool} {verdict : Bool} {s t : Bench}
    (hpre : pre s = some t) (htest : test t = some verdict) (rounds : ℕ) :
    bestTime test expected pre (rounds + 1) s =
      if verdict = expected then bestTime test expected pre rounds t
      else some (some (verdict, expected), t) := by
  rw [bestTime]
  simp only [hpre, htest, Option.bind_eq_bind, Option.bind_some, ne_eq, ite_not]
  rfl

/-- Where `pre` writes a text on which the verdict is `verdict`, so is the report. Induction
on the repetitions; an unexpected verdict ends them. -/
theorem bestTime_eq {test : Bench → Option Bool} {verdict : Bool}
    (hpre : ∀ s, P s → ∃ s', pre s = some s' ∧ P s' ∧ Q s')
    (htest : ∀ s, Q s → test s = some verdict) (rounds : ℕ) (s : Bench) (hs : P s) :
    ∃ s', bestTime test expected pre (rounds + 1) s = some (reportOf expected verdict, s') ∧
      P s' := by
  induction rounds generalizing s with
  | zero =>
      obtain ⟨s', hs', hP, hQ⟩ := hpre s hs
      refine ⟨s', ?_, hP⟩
      -- The last repetition ends the loop either way.
      rw [bestTime_succ hs' (htest s' hQ), reportOf]
      by_cases hverdict : verdict = expected
      · rw [if_pos hverdict, if_pos hverdict]
        rfl
      · rw [if_neg hverdict, if_neg hverdict]
  | succ rounds ih =>
      obtain ⟨s', hs', hP, hQ⟩ := hpre s hs
      rw [bestTime_succ hs' (htest s' hQ)]
      by_cases hverdict : verdict = expected
      · rw [if_pos hverdict]
        exact ih s' hP
      · rw [if_neg hverdict, reportOf, if_neg hverdict]
        exact ⟨s', rfl, hP⟩

/-- Measurements in a row. -/
theorem bestTimes_eq {tests : List (Bench → Option Bool)} {verdicts : List Bool}
    (hpre : ∀ s, P s → ∃ s', pre s = some s' ∧ P s' ∧ Q s')
    (htests : List.Forall₂ (fun test verdict => ∀ s, Q s → test s = some verdict)
      tests verdicts) (s : Bench) (hs : P s) :
    ∃ s', bestTimes expected pre tests s = some (verdicts.map (reportOf expected), s') ∧
      P s' := by
  induction htests generalizing s with
  | nil => exact ⟨s, rfl, hs⟩
  | @cons test _ _ _ htest _ ih =>
      obtain ⟨s₁, hrun, hs₁⟩ := bestTime_eq hpre htest 4 s hs
      obtain ⟨s₂, hruns, hs₂⟩ := ih s₁ hs₁
      change bestTime test expected pre 5 s = _ at hrun
      refine ⟨s₂, ?_, hs₂⟩
      simp only [bestTimes, hrun, hruns, Option.bind_eq_bind, Option.bind_some, List.map_cons]
      rfl

end BestTime

/-! ### `demo` -/

/-- The invariant of `populate` over the buffer `data`. -/
def Filling (data : Ptr) (N i : ℕ) (s : Bench) : Prop :=
  i ≤ N ∧ AsciiBelow s.data i ∧ ∀ j, i ≤ j → s.data j = data j

/-- The step lemma: one ASCII byte. -/
theorem Filling.next {data : Ptr} {N i : ℕ} {s : Bench} (h : Filling data N i s) (hi : i < N)
    (r calls : ℕ) :
    Filling data N (i + 1)
      { s with
          data := Function.update s.data i (BitVec.ofNat 8 (r &&& 0x7f))
          calls := calls } := by
  obtain ⟨-, hascii, hframe⟩ := h
  have hbyte : BitVec.ofNat 8 (r &&& 0x7f) ≤ 0x7F := by
    rw [BitVec.le_def, BitVec.toNat_ofNat]
    exact Nat.le_trans (Nat.mod_le _ _) Nat.and_le_right
  refine ⟨hi, fun j hj => ?_, fun j hj => ?_⟩
  · show Function.update s.data i _ j ≤ 0x7F
    by_cases hlast : j = i
    · rw [hlast, Function.update_self]
      exact hbyte
    · rw [Function.update_of_ne hlast]
      exact hascii j (by omega)
  · show Function.update s.data i _ j = data j
    rw [Function.update_of_ne (by omega)]
    exact hframe j (by omega)

/-- `populate` writes ASCII bytes into the buffer and nothing behind it. -/
theorem populate_spec (rand : ℕ → ℕ) (N : ℕ) (s : Bench) :
    AsciiBelow (populate rand N s).data N ∧ (populate rand N s).data N = s.data N := by
  obtain ⟨⟨hle, hascii, hframe⟩, hstop⟩ :=
    forLt_rule (P := Filling s.data N)
      (fun i t (hi : (i : ℤ) < N) (ht : Filling s.data N i t) =>
        ht.next (by omega) (rand t.calls) (t.calls + 1))
      0 s ⟨Nat.zero_le N, fun j hj => absurd hj (by omega), fun _ _ => rfl⟩
  have hend := Nat.le_antisymm hle (Int.ofNat_le.mp hstop)
  rw [hend] at hascii hframe
  exact ⟨hascii, hframe N (Nat.le_refl N)⟩

/-- ASCII bytes are well formed. -/
theorem wellFormed_of_ascii {t : List Byte} (h : ∀ b ∈ t, b ≤ 0x7F) : WellFormed t := by
  rw [← run_lateMachine_eq_start_iff]
  by_cases hne : t = []
  · rw [hne]
    rfl
  · rw [run_lateMachine_ascii _ t hne h, if_pos rfl]

/-- The same for the bytes of a buffer. -/
theorem AsciiBelow.wellFormed {c : Ptr} {N : ℕ} (h : AsciiBelow c N) : WellFormed (slice c N) :=
  wellFormed_of_ascii ((asciiBelow_iff_slice c N).mp h)

/-- One byte behind a well-formed text. -/
theorem isPrefix_concat_iff {t : List Byte} (ht : WellFormed t) (b : Byte) :
    IsPrefix (t ++ [b]) ↔ (lead b).isSome := by
  rw [← isSome_run_utf8Machine_iff, Partial.run_concat,
    (run_utf8Machine_eq_start_iff t).mpr ht]
  rfl

/-- With one byte more than a well-formed text, the verdict is about that byte. -/
theorem AcceptsPrefixes.one_more {validate : Ptr → ℕ → Bool} (h : AcceptsPrefixes validate)
    {c : Ptr} {N : ℕ} (hwf : WellFormed (slice c N)) :
    validate c (N + 1) = (lead (c N)).isSome := by
  rw [Bool.eq_iff_iff, h, slice_succ, isPrefix_concat_iff hwf]

/-- So it is for the double validators, over ASCII bytes. -/
theorem double_one_more {c : Ptr} {N : ℕ} (hascii : AsciiBelow c N) (hN : N + 1 < 2 ^ 31) :
    validateDfaUtf8Double c (N + 1) = some (lead (c N)).isSome := by
  -- Wherever the search stops, the bytes before it are ASCII bytes.
  have hstop := stopsAt_splitPoint c ((N + 1) / 2)
  generalize Dfa.splitPoint c ((N + 1) / 2) = half at hstop
  have hle : half ≤ N := by
    have := hstop.le
    omega
  obtain ⟨k, rfl⟩ := Nat.exists_eq_add_of_le hle
  obtain ⟨hsome, htrue⟩ := double_anyText implements_updatestate rfl hstop
  obtain ⟨hfront, hback⟩ := (asciiBelow_add c half k).mp hascii
  have hok : IntIndexOk (half + k + 1) (2 * half) := .inl hN
  -- The bytes from the split point on are ASCII bytes and the last byte.
  have hsuffix : suffix c (half + k + 1) half
      = slice (fun j => c (half + j)) k ++ [c (half + k)] := by
    rw [suffix, Nat.add_assoc, Nat.add_sub_cancel_left, slice_succ]
  have hbehind : IsPrefix (suffix c (half + k + 1) half) ↔ (lead (c (half + k))).isSome := by
    rw [hsuffix]
    exact isPrefix_concat_iff (AsciiBelow.wellFormed hback) _
  rw [secondEnd, if_pos hN, and_iff_right hok,
    and_iff_right (isPrefix_of_wellFormed hfront.wellFormed), hbehind] at htrue
  refine option_bool_ext (iff_of_true (hsome.mpr hok) rfl) (htrue.trans ?_)
  rw [Option.some.injEq]

/-- The verdicts of `demo` over a buffer of ASCII bytes with the byte `b` behind it. -/
theorem demoTests_verdicts {N : ℕ} (hN : N + 1 < 2 ^ 31) (b : Byte) :
    List.Forall₂ (fun test verdict => ∀ t : Bench, AsciiBelow t.data N ∧ t.data N = b →
        test t = some verdict) (demoTests N)
      ([true, true] ++ List.replicate 6 (lead b).isSome ++ List.replicate 11 true) := by
  -- The validators of `N` bytes read ASCII bytes only.
  have hscalar : ∀ t : Bench, AsciiBelow t.data N ∧ t.data N = b →
      validateUtf8 t.data N = some true := by
    intro t ht
    rw [validateUtf8_eq_some_true_iff, mem_looseSequence_kstar_iff]
    exact .inl ht.1.wellFormed
  have hutf8 : ∀ validate, AcceptsWellFormed validate → ∀ t : Bench,
      AsciiBelow t.data N ∧ t.data N = b → some (validate t.data N) = some true :=
    fun validate h t ht => congrArg some ((h t.data N).mpr ht.1.wellFormed)
  -- The validators of `N + 1` bytes read `b` as well.
  have hdfa : ∀ validate, AcceptsPrefixes validate → ∀ t : Bench,
      AsciiBelow t.data N ∧ t.data N = b →
        some (validate t.data (N + 1)) = some (lead b).isSome := by
    intro validate h t ht
    rw [h.one_more ht.1.wellFormed, ht.2]
  have hdouble : ∀ t : Bench, AsciiBelow t.data N ∧ t.data N = b →
      validateDfaUtf8Double t.data (N + 1) = some (lead b).isSome := by
    rintro t ⟨hascii, rfl⟩
    exact double_one_more hascii hN
  have hshiftless : ∀ t : Bench, AsciiBelow t.data N ∧ t.data N = b →
      shiftlessValidateDfaUtf8Double t.data (N + 1) = some (lead b).isSome := by
    intro t ht
    rw [shiftlessValidateDfaUtf8Double_eq]
    exact hdouble t ht
  have hascii : ∀ validate : Ptr → ℕ → Bool,
      (∀ src len, validate src len = true ↔ AsciiBelow src len) → ∀ t : Bench,
      AsciiBelow t.data N ∧ t.data N = b → some (validate t.data N) = some true :=
    fun validate h t ht => congrArg some ((h t.data N).mpr ht.1)
  exact .cons hscalar (.cons (hutf8 _ acceptsWellFormed_validateUtf8Fast)
    (.cons (hdfa _ acceptsPrefixes_shiftlessBranchless)
    (.cons (hdfa _ acceptsPrefixes_shiftlessBranchless)
    (.cons (hdfa _ acceptsPrefixes_shiftlessEarlyExit)
    (.cons (hdfa _ acceptsPrefixes_shiftlessEarlyExit)
    (.cons hdouble (.cons hshiftless
    (.cons (hutf8 _ acceptsWellFormed_validateUtf8FastAvx)
    (.cons (hutf8 _ acceptsWellFormed_validateUtf8FastAvxAsciipath)
    (.cons (hutf8 _ acceptsWellFormed_validateUtf8FastAvx512)
    (.cons (hutf8 _ acceptsWellFormed_validateUtf8FastAvx512Asciipath)
    (.cons (hascii _ (validateAsciiBlocks_eq_true_iff 16 (by omega)))
    (.cons (hascii _ (validateAsciiBlocks_eq_true_iff 32 (by omega)))
    (.cons (hascii _ validateAsciiFastAvx512_eq_true_iff)
    (.cons (hascii _ validateAsciiWords_eq_true_iff)
    (.cons (hascii _ validateAsciiWords_eq_true_iff)
    (.cons (hutf8 _ acceptsWellFormed_validateUtf8Fast)
    (.cons (hascii _ (validateAsciiBlocks_eq_true_iff 16 (by omega))) .nil))))))))))))))))))

/-- `demo`, whatever `rand()` gives and whatever the buffer holds: it runs to its end, and the
measurements of the table-driven validators, and no others, report an unexpected verdict if no
sequence begins with the byte behind the buffer. That byte, `data[N]`, lies outside of
`malloc(N)`, and to read it is undefined in C. Here it is taken as one byte that keeps its
value. -/
theorem demo_reports (rand : ℕ → ℕ) (N : ℕ) (hN : N + 1 < 2 ^ 31) (s : Bench) :
    ∃ s', demo rand N s = some
      ([none, none] ++ List.replicate 6 (reportOf true (lead (s.data N)).isSome)
        ++ List.replicate 11 none, s') := by
  -- Before each repetition the text is ASCII, and the byte behind the buffer is what it was.
  have hpre : ∀ t : Bench, t.data N = s.data N → ∃ t', some (populate rand N t) = some t' ∧
      t'.data N = s.data N ∧ (AsciiBelow t'.data N ∧ t'.data N = s.data N) := by
    intro t ht
    obtain ⟨hascii, hbehind⟩ := populate_spec rand N t
    exact ⟨_, rfl, hbehind.trans ht, hascii, hbehind.trans ht⟩
  obtain ⟨s', hrun, -⟩ := bestTimes_eq hpre (demoTests_verdicts hN (s.data N)) s rfl
  refine ⟨s', Eq.trans hrun ?_⟩
  simp [reportOf]

/-- With the byte `80` behind a buffer of five bytes. -/
theorem demo_reports_80 :
    ∃ s', demo (fun k => 7 * k) 5 ⟨fun _ => 0x80, 0, 0⟩ = some
      ([none, none] ++ List.replicate 6 (some (false, true)) ++ List.replicate 11 none, s') :=
  demo_reports (fun k => 7 * k) 5 (by decide) ⟨fun _ => 0x80, 0, 0⟩

/-! ### `demo_utf8` -/

section Any

variable {Q : Bench → Prop} {expected : Bool} {pre : Bench → Option Bench}

/-- A report, if there is one, is about a text that `pre` wrote. -/
def Justified (Q : Bench → Prop) (expected : Bool) (test : Bench → Option Bool)
    (report : Report) : Prop :=
  report = none ∨ ∃ t, Q t ∧ test t = some !expected ∧ report = some (!expected, expected)

/-- What a measurement reports is justified. Induction on the repetitions. -/
theorem justified_of_bestTime {test : Bench → Option Bool} {report : Report}
    (hpre : ∀ s s', pre s = some s' → Q s') {rounds : ℕ} {s s' : Bench}
    (hrun : bestTime test expected pre rounds s = some (report, s')) :
    Justified Q expected test report := by
  induction rounds generalizing s with
  | zero =>
      cases hrun
      exact .inl rfl
  | succ rounds ih =>
      rw [bestTime] at hrun
      obtain ⟨t, ht, hrun⟩ := Option.bind_eq_some_iff.mp hrun
      obtain ⟨verdict, hverdict, hrun⟩ := Option.bind_eq_some_iff.mp hrun
      by_cases hexpected : verdict = expected
      · rw [if_neg (not_not.mpr hexpected)] at hrun
        exact ih hrun
      · rw [if_pos hexpected] at hrun
        obtain ⟨verdict', hverdict', hrun⟩ := Option.bind_eq_some_iff.mp hrun
        -- The two calls are on the same text.
        obtain rfl : verdict = verdict' := Option.some_inj.mp (hverdict.symm.trans hverdict')
        cases hrun
        have hnot : verdict = !expected := Bool.eq_not_of_ne hexpected
        exact .inr ⟨_, hpre s _ ht, hnot ▸ hverdict, by rw [hnot]⟩

/-- So are the reports of measurements in a row, each by its own test. -/
theorem justified_of_bestTimes {tests : List (Bench → Option Bool)} {reports : List Report}
    (hpre : ∀ s s', pre s = some s' → Q s') {s s' : Bench}
    (hrun : bestTimes expected pre tests s = some (reports, s')) :
    List.Forall₂ (Justified Q expected) tests reports := by
  induction tests generalizing reports s with
  | nil =>
      cases hrun
      exact .nil
  | cons test tests ih =>
      rw [bestTimes] at hrun
      obtain ⟨⟨report, t⟩, hreport, hrun⟩ := Option.bind_eq_some_iff.mp hrun
      obtain ⟨⟨rest, t'⟩, hrest, hrun⟩ := Option.bind_eq_some_iff.mp hrun
      cases hrun
      exact .cons (justified_of_bestTime hpre hreport) (ih hrest)

/-- Where `pre` returns with enough fuel and the verdicts are defined, a measurement runs to
its end with enough fuel. Induction on the repetitions. -/
theorem eventually_bestTime {preFuel : ℕ → Bench → Option Bench} {test : Bench → Option Bool}
    (hpre : ∀ s, ∃ s', (∀ᶠ fuel in Filter.atTop, preFuel fuel s = some s') ∧ Q s')
    (htest : ∀ s, Q s → (test s).isSome) (rounds : ℕ) (s : Bench) :
    ∃ r, ∀ᶠ fuel in Filter.atTop, bestTime test expected (preFuel fuel) rounds s = some r := by
  induction rounds generalizing s with
  | zero => exact ⟨_, .of_forall fun _ => rfl⟩
  | succ rounds ih =>
      obtain ⟨t, ht, hQ⟩ := hpre s
      obtain ⟨verdict, hverdict⟩ := Option.isSome_iff_exists.mp (htest t hQ)
      by_cases hexpected : verdict = expected
      · -- The loop goes on, with the fuel of the repetitions left.
        obtain ⟨r, hr⟩ := ih t
        refine ⟨r, ?_⟩
        filter_upwards [ht, hr] with fuel hfuel hrest
        rw [bestTime_succ hfuel hverdict, if_pos hexpected]
        exact hrest
      · refine ⟨(some (verdict, expected), t), ?_⟩
        filter_upwards [ht] with fuel hfuel
        rw [bestTime_succ hfuel hverdict, if_neg hexpected]

/-- So it is for measurements in a row. -/
theorem eventually_bestTimes {preFuel : ℕ → Bench → Option Bench}
    {tests : List (Bench → Option Bool)}
    (hpre : ∀ s, ∃ s', (∀ᶠ fuel in Filter.atTop, preFuel fuel s = some s') ∧ Q s')
    (htests : ∀ test ∈ tests, ∀ s, Q s → (test s).isSome) (s : Bench) :
    ∃ r, ∀ᶠ fuel in Filter.atTop, bestTimes expected (preFuel fuel) tests s = some r := by
  induction tests generalizing s with
  | nil => exact ⟨_, .of_forall fun _ => rfl⟩
  | cons test tests ih =>
      have hmeasure : ∃ r, ∀ᶠ fuel in Filter.atTop,
          bestTime test expected (preFuel fuel) 5 s = some r :=
        eventually_bestTime hpre (htests test List.mem_cons_self) 5 s
      obtain ⟨⟨report, t⟩, hfirst⟩ := hmeasure
      obtain ⟨⟨reports, t'⟩, hrest⟩ :=
        ih (fun test' h => htests test' (List.mem_cons_of_mem test h)) t
      refine ⟨(report :: reports, t'), ?_⟩
      filter_upwards [hfirst, hrest] with fuel hreport hreports
      rw [bestTimes]
      simp only [hreport, hreports, Option.bind_eq_bind, Option.bind_some]
      rfl

end Any

/-- A text that `populate_utf8` wrote for `N`, and the NUL byte behind it. -/
structure Utf8Text (N : ℕ) (s : Bench) : Prop where
  wellFormed : WellFormed (slice s.data s.actualN)
  nul : s.data s.actualN = 0
  length : s.actualN ≤ N + 3

/-- What `populate_utf8` leaves in the buffer, whatever was there. -/
theorem utf8Text_assignPopulateUtf8 {rand : ℕ → ℕ} {fuel N : ℕ} {s s' : Bench}
    (h : assignPopulateUtf8 rand fuel N s = some s') : Utf8Text N s' := by
  obtain ⟨p, hrun, hwritten⟩ := Option.bind_eq_some_iff.mp h
  obtain ⟨-, hs'⟩ := Option.ite_none_right_eq_some.mp hwritten
  obtain rfl := Option.some.inj hs'
  obtain ⟨p₀, rfl, hpop, hN3⟩ := populated_of_populateUtf8 hrun
  refine ⟨?_, Function.update_self _ _ _, hN3⟩
  show WellFormed (slice (p₀.store 0).data (p₀.store 0).i)
  rw [slice_store]
  exact hpop.wellFormed

/-- A call of `populate_utf8` that returns for some fuel stays inside the buffer, and has the
same result for any more fuel. -/
theorem eventually_assignPopulateUtf8 {rand : ℕ → ℕ} {N : ℕ} (hN : 4 ≤ N)
    (hN' : N + 4 < 2 ^ 31) {s : Bench}
    (h : ∃ fuel, (populateUtf8 (fun k => rand (s.calls + k)) fuel s.data N).isSome) :
    ∃ s', (∀ᶠ fuel in Filter.atTop, assignPopulateUtf8 rand fuel N s = some s') ∧
      Utf8Text N s' := by
  obtain ⟨fuel₀, hreturns⟩ := h
  obtain ⟨p, hp⟩ := Option.isSome_iff_exists.mp hreturns
  -- The size of the buffer does not wrap.
  have hwritten : ∀ j ∈ p.written, j < 2 * N % 2 ^ 64 := by
    rw [Nat.mod_eq_of_lt (by omega)]
    exact written_lt_of_populateUtf8 hN hp
  have hassign : ∀ fuel, populateUtf8 (fun k => rand (s.calls + k)) fuel s.data N = some p →
      assignPopulateUtf8 rand fuel N s
        = some { data := p.data, actualN := p.i, calls := s.calls + p.calls } := by
    intro fuel hfuel
    rw [assignPopulateUtf8, hfuel]
    exact if_pos hwritten
  exact ⟨_, (eventually_populateUtf8 hp).mono hassign,
    utf8Text_assignPopulateUtf8 (hassign fuel₀ hp)⟩

/-- The NUL byte begins a sequence. -/
theorem Utf8Text.lead_isSome {N : ℕ} {s : Bench} (h : Utf8Text N s) :
    (lead (s.data s.actualN)).isSome = true := by
  rw [h.nul]
  decide

/-- A test that always gives the expected verdict is never reported. -/
theorem Justified.eq_none {Q : Bench → Prop} {test : Bench → Option Bool} {report : Report}
    (h : Justified Q true test report) (htest : ∀ s, Q s → test s = some true) :
    report = none := by
  rcases h with hnone | ⟨t, hQ, hfalse, -⟩
  · exact hnone
  · rw [htest t hQ] at hfalse
    cases hfalse

/-- Where true is expected, the only report is that a verdict was false. -/
theorem Justified.eq_none_or {Q : Bench → Prop} {test : Bench → Option Bool}
    {report : Report} (h : Justified Q true test report) :
    report = none ∨ report = some (false, true) := by
  rcases h with hnone | ⟨t, -, -, hreport⟩
  · exact .inl hnone
  · exact .inr hreport

/-- The verdict of a measurement that is not one of a double validator. -/
theorem Utf8Text.scalar {N : ℕ} {t : Bench} (h : Utf8Text N t) :
    validateUtf8 t.data t.actualN = some true := by
  rw [validateUtf8_eq_some_true_iff, mem_looseSequence_kstar_iff]
  exact .inl h.wellFormed

/-- The verdict of a block validator. -/
theorem Utf8Text.utf8 {N : ℕ} {t : Bench} (h : Utf8Text N t) {validate : Ptr → ℕ → Bool}
    (hvalidate : AcceptsWellFormed validate) :
    some (validate t.data t.actualN) = some true :=
  congrArg some ((hvalidate t.data t.actualN).mpr h.wellFormed)

/-- The verdict of a table-driven validator, which reads the NUL byte as well. -/
theorem Utf8Text.dfa {N : ℕ} {t : Bench} (h : Utf8Text N t) {validate : Ptr → ℕ → Bool}
    (hvalidate : AcceptsPrefixes validate) :
    some (validate t.data (t.actualN + 1)) = some true := by
  rw [hvalidate.one_more h.wellFormed, h.lead_isSome]

/-- Below `2 ^ 31` bytes the double validators return. -/
theorem Utf8Text.double {N : ℕ} {t : Bench} (h : Utf8Text N t) (hN : N + 4 < 2 ^ 31) :
    (validateDfaUtf8Double t.data (t.actualN + 1)).isSome ∧
      (shiftlessValidateDfaUtf8Double t.data (t.actualN + 1)).isSome := by
  have hlen := h.length
  have hstop := stopsAt_splitPoint t.data ((t.actualN + 1) / 2)
  -- The `int` index is good, wherever the search stops.
  have hreturns := (double_anyText implements_updatestate rfl hstop).1.mpr (.inl (by omega))
  rw [shiftlessValidateDfaUtf8Double_eq]
  exact ⟨hreturns, hreturns⟩

/-- The reports of a run. -/
theorem reports_of_demoUtf8 {rand : ℕ → ℕ} {fuel N : ℕ} {s s' : Bench} {reports : List Report}
    (hrun : demoUtf8 rand fuel N s = some (reports, s')) :
    ∃ double shiftless : Report,
      reports = List.replicate 6 none ++ [double, shiftless] ++ List.replicate 4 none ∧
      (double = none ∨ double = some (false, true)) ∧
      (shiftless = none ∨ shiftless = some (false, true)) := by
  have hjust := justified_of_bestTimes (fun _ _ => utf8Text_assignPopulateUtf8) hrun
  simp only [demoUtf8Tests, List.forall₂_cons_left_iff, List.forall₂_nil_left_iff] at hjust
  obtain ⟨r₁, _, h₁, ⟨r₂, _, h₂, ⟨r₃, _, h₃, ⟨r₄, _, h₄, ⟨r₅, _, h₅, ⟨r₆, _, h₆, ⟨r₇, _, h₇,
    ⟨r₈, _, h₈, ⟨r₉, _, h₉, ⟨r₁₀, _, h₁₀, ⟨r₁₁, _, h₁₁, ⟨r₁₂, _, h₁₂, rfl, rfl⟩, rfl⟩, rfl⟩,
    rfl⟩, rfl⟩, rfl⟩, rfl⟩, rfl⟩, rfl⟩, rfl⟩, rfl⟩, rfl⟩ := hjust
  -- The seventh and the eighth are the double validators.
  refine ⟨r₇, r₈, ?_, h₇.eq_none_or, h₈.eq_none_or⟩
  rw [h₁.eq_none fun _ ht => ht.scalar, h₂.eq_none fun _ ht => ht.scalar,
    h₃.eq_none fun _ ht => ht.dfa acceptsPrefixes_shiftlessBranchless,
    h₄.eq_none fun _ ht => ht.dfa acceptsPrefixes_shiftlessBranchless,
    h₅.eq_none fun _ ht => ht.dfa acceptsPrefixes_shiftlessEarlyExit,
    h₆.eq_none fun _ ht => ht.dfa acceptsPrefixes_shiftlessEarlyExit,
    h₉.eq_none fun _ ht => ht.utf8 acceptsWellFormed_validateUtf8FastAvx,
    h₁₀.eq_none fun _ ht => ht.utf8 acceptsWellFormed_validateUtf8FastAvxAsciipath,
    h₁₁.eq_none fun _ ht => ht.utf8 acceptsWellFormed_validateUtf8FastAvx512,
    h₁₂.eq_none fun _ ht => ht.utf8 acceptsWellFormed_validateUtf8FastAvx512Asciipath]
  rfl

/-- Where every call of `populate_utf8` returns, so does `demo_utf8`. -/
theorem exists_demoUtf8_isSome {rand : ℕ → ℕ} {N : ℕ} (hN : 4 ≤ N) (hN' : N + 4 < 2 ^ 31)
    (hreturns : ∀ t : Bench, ∃ fuel,
      (populateUtf8 (fun k => rand (t.calls + k)) fuel t.data N).isSome) (s : Bench) :
    ∃ fuel, (demoUtf8 rand fuel N s).isSome := by
  have htests : ∀ test ∈ demoUtf8Tests, ∀ t, Utf8Text N t → (test t).isSome := by
    simp only [demoUtf8Tests, List.forall_mem_cons]
    exact ⟨fun t ht => Option.isSome_of_eq_some ht.scalar,
      fun t ht => Option.isSome_of_eq_some ht.scalar, fun _ _ => rfl, fun _ _ => rfl,
      fun _ _ => rfl, fun _ _ => rfl, fun t ht => (ht.double hN').1,
      fun t ht => (ht.double hN').2, fun _ _ => rfl, fun _ _ => rfl, fun _ _ => rfl,
      fun _ _ => rfl, by simp⟩
  -- A run makes finitely many calls, so one fuel is enough for all of them.
  have hruns : ∃ r, ∀ᶠ fuel in Filter.atTop,
      bestTimes true (assignPopulateUtf8 rand fuel N) demoUtf8Tests s = some r :=
    eventually_bestTimes (fun t => eventually_assignPopulateUtf8 hN hN' (hreturns t)) htests s
  obtain ⟨r, hr⟩ := hruns
  obtain ⟨fuel, hfuel⟩ := hr.exists
  exact ⟨fuel, Option.isSome_of_eq_some hfuel⟩

/-- This is the text. -/
example : (assignPopulateUtf8 (fun k => 64 * (k % 4)) 5 5 ⟨fun _ => 0xAA, 0, 0⟩).map
    (fun t => slice t.data t.actualN) = some [0x20, 0x20, 0xCE, 0x80, 0x20] := by decide

end FastValidate.Proofs
