import FastValidate.Proofs.Hoehrmann

/-!
# `FastValidate.Proofs.HoehrmannDouble`: the validators that split the text

The two runs of a double validator start at the first byte and at the split point. On a
well-formed text the second run is right when the split point is the start of a character.
The code looks for it by moving back over the bytes `81..BF`. It stops at a byte `80` as
well, in the middle of a character, and then the second run rejects.

The bytes left over are indexed by an `int`. `IntIndexOk` says when that loop ends and
covers what it has to: below `2 ^ 31` bytes it runs to the end of the text, and above it
either never starts or overflows.
-/

set_option autoImplicit false

namespace FastValidate.Proofs

open Simd Memory Loops
open Automata
open FastValidate.Spec
open FastValidate.Code

/-! ### The start of a character -/

/-- The start of the character that holds position `i`: the last position up to `i` with no
continuation byte. -/
def characterStart (c : Ptr) : ℕ → ℕ
  | 0 => 0
  | i + 1 => if 0x80 ≤ c (i + 1) ∧ c (i + 1) ≤ 0xBF then characterStart c i else i + 1

/-- A character starts at or before each of its bytes. -/
theorem characterStart_le (c : Ptr) (i : ℕ) : characterStart c i ≤ i := by
  induction i with
  | zero => exact Nat.le_refl _
  | succ i ih =>
      unfold characterStart
      split
      · omega
      · exact Nat.le_refl _

/-- The start of a character is the first position or holds no continuation byte. -/
theorem characterStart_spec (c : Ptr) (i : ℕ) :
    characterStart c i = 0 ∨
      ¬ (0x80 ≤ c (characterStart c i) ∧ c (characterStart c i) ≤ 0xBF) := by
  induction i with
  | zero => exact .inl rfl
  | succ i ih =>
      unfold characterStart
      split
      · exact ih
      · next h => exact .inr h

/-- No byte `80` stands between the start of the character at `i` and `i`. -/
def NoEarly80 (c : Ptr) (i : ℕ) : Prop :=
  ∀ j, characterStart c i < j → j ≤ i → c j ≠ 0x80

/-- The split point is the start of the character, unless a byte `80` comes first on the way
back. -/
theorem splitPoint_cases (c : Ptr) (i : ℕ) :
    (NoEarly80 c i ∧ Dfa.splitPoint c i = characterStart c i) ∨
    (¬ NoEarly80 c i ∧ c (Dfa.splitPoint c i) = 0x80 ∧ 0 < Dfa.splitPoint c i ∧
      Dfa.splitPoint c i ≤ i) := by
  induction i with
  | zero =>
      refine .inl ⟨?_, rfl⟩
      intro j hj hj0
      exact absurd hj (by omega)
  | succ i ih =>
      have hcases : ∀ b : Byte, (¬ (0x80 ≤ b ∧ b ≤ 0xBF) ∧ ¬ (b ≤ 0xBF ∧ b > 0x80)) ∨
          (0x80 ≤ b ∧ b ≤ 0xBF) ∧ ((b = 0x80 ∧ ¬ (b ≤ 0xBF ∧ b > 0x80)) ∨
            (b ≠ 0x80 ∧ b ≤ 0xBF ∧ b > 0x80)) := by
        decide +kernel
      have hle := characterStart_le c i
      rcases hcases (c (i + 1)) with ⟨hstart, hstop⟩ | ⟨hcont, ⟨h80, hstop⟩ | ⟨hne, hgo⟩⟩
      · -- Both stop at a byte that begins a character.
        have hchar : characterStart c (i + 1) = i + 1 := if_neg hstart
        refine .inl ⟨?_, ?_⟩
        · intro j hj hji
          omega
        · rw [hchar]
          exact if_neg hstop
      · -- The code stops at `80`, inside the character.
        have hchar : characterStart c (i + 1) = characterStart c i := if_pos hcont
        have hsplit : Dfa.splitPoint c (i + 1) = i + 1 := if_neg hstop
        rw [hsplit]
        refine .inr ⟨?_, h80, Nat.succ_pos i, Nat.le_refl _⟩
        intro h
        exact h (i + 1) (by omega) (Nat.le_refl _) h80
      · -- Both go on.
        have hchar : characterStart c (i + 1) = characterStart c i := if_pos hcont
        have hsplit : Dfa.splitPoint c (i + 1) = Dfa.splitPoint c i := if_pos hgo
        have hiff : NoEarly80 c (i + 1) ↔ NoEarly80 c i := by
          unfold NoEarly80
          rw [hchar]
          constructor
          · intro h j hj hji
            exact h j hj (by omega)
          · intro h j hj hji
            by_cases hlast : j = i + 1
            · rw [hlast]
              exact hne
            · exact h j hj (by omega)
        rw [hsplit, hchar, hiff]
        rcases ih with hok | ⟨hno, h80, hpos, hi⟩
        · exact .inl hok
        · exact .inr ⟨hno, h80, hpos, by omega⟩

/-! ### The loop with an `int` index -/

/-- The `int` index that starts at `start` serves a text of `n` bytes: all its indexes are
below `2 ^ 31`, or it starts below zero and counts as a bound that is never reached. -/
def IntIndexOk (n start : ℕ) : Prop :=
  n < 2 ^ 31 ∨ (2 ^ 31 ≤ start % 2 ^ 32 ∧ n ≤ 2 ^ 64 - 2 ^ 32 + start % 2 ^ 32)

/-- The conversion to `int` by cases: the low 32 bits, less `2 ^ 32` from `2 ^ 31` on. -/
theorem toCInt_eq (x : ℕ) : toCInt x
    = if x % 2 ^ 32 < 2 ^ 31 then ((x % 2 ^ 32 : ℕ) : ℤ)
      else ((x % 2 ^ 32 : ℕ) : ℤ) - 2 ^ 32 := by
  rw [toCInt, BitVec.toInt_eq_toNat_cond, BitVec.toNat_ofNat]
  by_cases h : x % 2 ^ 32 < 2 ^ 31
  · rw [if_pos (by omega), if_pos h]
  · rw [if_neg (by omega), if_neg h]
    rfl

/-- The unsigned conversion of a non-negative index. -/
theorem toNat_ofInt_of_nonneg {j : ℤ} (h0 : 0 ≤ j) (h : j < 2 ^ 31) :
    (BitVec.ofInt 64 j).toNat = j.toNat := by
  rw [BitVec.toNat_ofInt]
  have hmod : j % (2 ^ 64 : ℕ) = j := Int.emod_eq_of_lt h0 (by omega)
  rw [hmod]

/-- The unsigned conversion of a negative index. -/
theorem toNat_ofInt_of_neg {j : ℤ} (h0 : j < 0) (h : -2 ^ 31 ≤ j) :
    (BitVec.ofInt 64 j).toNat = (2 ^ 64 + j).toNat := by
  rw [BitVec.toNat_ofInt]
  have hmod : j % (2 ^ 64 : ℕ) = 2 ^ 64 + j := by omega
  rw [hmod]

section IntLoop

variable {σ : Type} {body : ℕ → σ → σ}

/-- What every iteration preserves holds at the exit. -/
theorem forInt_rule {P : σ → Prop} (hstep : ∀ i s, P s → P (body i s)) {stop : ℕ} (j : ℤ)
    (s s' : σ) (h : P s) (hrun : forInt stop body j s = some s') : P s' := by
  fun_induction forInt stop body j s with
  | case1 j s hlt hj ih => exact ih (hstep _ _ h) hrun
  | case2 j s hlt hj => cases hrun
  | case3 j s hge =>
      cases hrun
      exact h

/-- Below `2 ^ 31` bytes the loop is a fold over the bytes from `start` on. -/
theorem forInt_eq_foldl (step : σ → Byte → σ) (c : Ptr) {n : ℕ} (hn : n < 2 ^ 31) :
    ∀ k start s, n - start = k → start ≤ n →
      forInt n (fun j s => step s (c j)) start s = some ((suffix c n start).foldl step s) := by
  intro k
  induction k with
  | zero =>
      intro start s hk hstart
      rw [forInt, toNat_ofInt_of_nonneg (by omega) (by omega), if_neg (by omega),
        suffix_of_le c (by omega)]
      rfl
  | succ k ih =>
      intro start s hk hstart
      rw [forInt, toNat_ofInt_of_nonneg (by omega) (by omega), if_pos (by omega),
        if_pos (by omega), suffix_of_lt c (by omega : start < n)]
      exact ih (start + 1) _ (by omega) (by omega)

/-- From `2 ^ 31` bytes on a loop that starts at zero or above overflows its index. -/
theorem forInt_overflow {n : ℕ} (hn : 2 ^ 31 ≤ n) :
    ∀ k (j : ℤ) s, (2 ^ 31 - j).toNat = k → 0 ≤ j → j < 2 ^ 31 → forInt n body j s = none := by
  intro k
  induction k with
  | zero =>
      intro j s hk h0 hj
      omega
  | succ k ih =>
      intro j s hk h0 hj
      rw [forInt, toNat_ofInt_of_nonneg h0 hj, if_pos (by omega)]
      split
      · exact ih (j + 1) _ (by omega) (by omega) (by omega)
      · rfl

/-- A negative index is read as a number just below `2 ^ 64`: the loop does not start, or it
reads before the text. -/
theorem forInt_of_neg {n : ℕ} {j : ℤ} (s : σ) (h0 : j < 0) (hj : -2 ^ 31 ≤ j) :
    forInt n body j s = if (2 ^ 64 + j).toNat < n then none else some s := by
  rw [forInt, toNat_ofInt_of_neg h0 hj]
  split
  · rw [if_neg (by omega)]
  · rfl

end IntLoop

/-! ### The two runs -/

/-- A continuation byte is never read between two sequences, and nothing else is read inside
one. -/
theorem step_isSome_start_iff (q : State) :
    ∀ b : Byte, (utf8Machine.step q b).isSome → (q = .start ↔ ¬ (0x80 ≤ b ∧ b ≤ 0xBF)) := by
  cases q <;> decide +kernel

/-- In a text that the machine reads, a position inside it without a continuation byte is
between two sequences. -/
theorem run_slice_eq_start {c : Ptr} {n k : ℕ}
    (hrun : (utf8Machine.run .start (slice c n)).isSome) (hk : k < n)
    (hstart : k = 0 ∨ ¬ (0x80 ≤ c k ∧ c k ≤ 0xBF)) :
    utf8Machine.run .start (slice c k) = some .start := by
  rcases hstart with rfl | hbyte
  · rfl
  · obtain ⟨m, rfl⟩ := Nat.exists_eq_add_of_le (Nat.succ_le_of_lt hk)
    rw [slice_add, slice_succ] at hrun
    have hfront := utf8Machine.isSome_run_of_append hrun
    rw [Partial.run_concat] at hfront
    cases hq : utf8Machine.run .start (slice c k) with
    | none =>
        rw [hq] at hfront
        cases hfront
    | some q =>
        rw [hq] at hfront
        exact congrArg some ((step_isSome_start_iff q (c k) hfront).mpr hbyte)

section Double

variable {update : ℕ → Byte → ℕ} {reject : ℕ} {num : State → ℕ}

/-- The two runs side by side are two folds. -/
theorem forLt_pair (c : Ptr) (half : ℕ) :
    (forLt half 1 (fun i s => (update s.1 (c i), update s.2 (c (half + i)))) 0 (0, 0)).2
      = ((slice c half).foldl update 0,
          (slice (fun i => c (half + i)) half).foldl update 0) := by
  rw [forLt_range, slice, slice, List.foldl_map, List.foldl_map]
  exact List.foldl_hom₂ (List.range half) Prod.mk (fun s i => update s (c i))
    (fun s i => update s (c (half + i))) _ 0 0 fun _ _ _ => rfl

/-- The double validator, by its two folds. -/
theorem double_eq (c : Ptr) (n : ℕ) {half : ℕ} (hhalf : Dfa.splitPoint c (n / 2) = half) :
    Dfa.double update reject c n
      = (forInt n (fun j s2 => update s2 (c j)) (toCInt (half * 2))
          ((slice (fun i => c (half + i)) half).foldl update 0)).map
          fun s2 => (slice c half).foldl update 0 != reject && s2 != reject := by
  unfold Dfa.double
  rw [hhalf]
  simp only [forLt_pair]
  rw [Option.map_eq_bind]
  rfl

/-- The bytes before and after a boundary. -/
theorem run_slice_split (c : Ptr) {k m n : ℕ} (hkm : k + m ≤ n)
    (hk : utf8Machine.run .start (slice c k) = some .start)
    (hrun : (utf8Machine.run .start (slice c n)).isSome) :
    ∃ q, utf8Machine.run .start (slice (fun i => c (k + i)) m) = some q ∧
      (utf8Machine.run q (suffix c n (k + m))).isSome := by
  obtain ⟨d, rfl⟩ := Nat.exists_eq_add_of_le hkm
  rw [slice_add c (k + m) d, slice_add c k m, Partial.run_append, Partial.run_append, hk] at hrun
  rw [suffix, Nat.add_sub_cancel_left]
  change ((utf8Machine.run .start (slice (fun i => c (k + i)) m)).bind _).isSome at hrun
  cases hq : utf8Machine.run .start (slice (fun i => c (k + i)) m) with
  | none =>
      rw [hq] at hrun
      cases hrun
  | some q =>
      rw [hq] at hrun
      exact ⟨q, rfl, hrun⟩

/-- Where the split point holds a byte `80`, the second run has rejected, and the validator
does not return true. -/
theorem double_ne_of_80 (h : utf8Machine.Implements update reject num)
    (hstart : num .start = 0) (c : Ptr) (n : ℕ) {half : ℕ}
    (hhalf : Dfa.splitPoint c (n / 2) = half) (hpos : 0 < half) (h80 : c half = 0x80) :
    Dfa.double update reject c n ≠ some true := by
  -- The second run starts with the byte `80`, which no sequence begins with.
  have hdead : (slice (fun i => c (half + i)) half).foldl update 0 = reject := by
    obtain ⟨m, rfl⟩ := Nat.exists_eq_succ_of_ne_zero (by omega : half ≠ 0)
    rw [slice_cons, h80, ← hstart, h.foldl]
    rfl
  rw [double_eq c n hhalf, hdead]
  intro hrun
  obtain ⟨s2, hs2, htrue⟩ := Option.map_eq_some_iff.mp hrun
  have hs2' : s2 = reject := by
    refine forInt_rule (P := fun s => s = reject) ?_ _ _ _ rfl hs2
    rintro i s rfl
    exact h.dead (c i)
  rw [hs2'] at htrue
  simp at htrue

/-- Where the split point is a boundary of the text, the validator returns true exactly when
its `int` index is good. -/
theorem double_eq_true_iff (h : utf8Machine.Implements update reject num)
    (hstart : num .start = 0) (c : Ptr) (n : ℕ) {half : ℕ}
    (hhalf : Dfa.splitPoint c (n / 2) = half) (hle : half ≤ n / 2)
    (hbound : utf8Machine.run .start (slice c half) = some .start)
    (hrun : (utf8Machine.run .start (slice c n)).isSome) :
    Dfa.double update reject c n = some true ↔ IntIndexOk n (2 * half) := by
  obtain ⟨q, hq, hrest⟩ := run_slice_split c (by omega : half + half ≤ n) hbound hrun
  have hs1 : (slice c half).foldl update 0 ≠ reject := by
    rw [← hstart, h.foldl_ne_iff, hbound]
    rfl
  have hs2 : (slice (fun i => c (half + i)) half).foldl update 0 = num q := by
    rw [← hstart, h.foldl, hq]
    rfl
  have hval : ∀ s, ((slice c half).foldl update 0 != reject && s != reject) = true
      ↔ s ≠ reject := by
    intro s
    simp [hs1]
  rw [double_eq c n hhalf, hs2, Option.map_eq_some_iff, toCInt_eq, Nat.mul_comm half 2]
  simp only [hval]
  unfold IntIndexOk
  by_cases hn : n < 2 ^ 31
  · -- The index starts at the end of the second run and reads the rest of the text.
    have hmod : 2 * half % 2 ^ 32 = 2 * half := Nat.mod_eq_of_lt (by omega)
    have hloop := forInt_eq_foldl update c hn _ (2 * half) (num q) rfl (by omega)
    rw [hmod, if_pos (by omega), hloop]
    have hend := (h.foldl_ne_iff q (suffix c n (2 * half))).mpr
      (by rw [Nat.two_mul]; exact hrest)
    exact ⟨fun _ => .inl hn, fun _ => ⟨_, rfl, hend⟩⟩
  · by_cases hlow : 2 * half % 2 ^ 32 < 2 ^ 31
    · -- From zero or above the index reaches `INT_MAX` before the bound.
      rw [if_pos hlow, forInt_overflow (by omega) _ _ _ rfl (by omega) (by omega)]
      constructor
      · rintro ⟨s, hs, -⟩
        cases hs
      · intro hok
        omega
    · -- From below zero the loop does not start, or reads before the text.
      rw [if_neg hlow, forInt_of_neg _ (by omega) (by omega)]
      by_cases hstop : (2 ^ 64 + (((2 * half % 2 ^ 32 : ℕ) : ℤ) - 2 ^ 32)).toNat < n
      · rw [if_pos hstop]
        constructor
        · rintro ⟨s, hs, -⟩
          cases hs
        · intro hok
          omega
      · rw [if_neg hstop]
        exact ⟨fun _ => .inr ⟨by omega, by omega⟩, fun _ => ⟨num q, rfl, h.num_ne q⟩⟩

end Double

/-! ### The validators on well-formed text -/

/-- Over a well-formed string and one NUL byte, a double validator returns true exactly when
no byte `80` stands before the middle inside its character and the `int` index is good. -/
theorem double_nulTerminated_iff {update : ℕ → Byte → ℕ} {reject : ℕ} {num : State → ℕ}
    (h : utf8Machine.Implements update reject num) (hstart : num .start = 0) {src : Ptr}
    {len : ℕ} (hwf : WellFormed (slice src len)) :
    Dfa.double update reject (nulTerminated src len) (len + 1) = some true ↔
      NoEarly80 (nulTerminated src len) ((len + 1) / 2) ∧
        IntIndexOk (len + 1) (2 * characterStart (nulTerminated src len) ((len + 1) / 2)) := by
  have hrun : (utf8Machine.run .start (slice (nulTerminated src len) (len + 1))).isSome := by
    rw [slice_nulTerminated, isSome_run_utf8Machine_iff, isPrefix_concat_zero_iff]
    exact hwf
  have hle := characterStart_le (nulTerminated src len) ((len + 1) / 2)
  rcases splitPoint_cases (nulTerminated src len) ((len + 1) / 2) with
    ⟨hno, hsplit⟩ | ⟨hno, h80, hpos, -⟩
  · -- The split point is the start of a character.
    have hbound := run_slice_eq_start hrun (by omega)
      (characterStart_spec (nulTerminated src len) ((len + 1) / 2))
    rw [double_eq_true_iff h hstart _ _ hsplit hle hbound hrun]
    exact (and_iff_right hno).symm
  · have hne := double_ne_of_80 h hstart _ _ rfl hpos h80
    exact ⟨fun htrue => absurd htrue hne, fun hok => absurd hok.1 hno⟩

/-- Over a well-formed string and one NUL byte, both double validators return true exactly
when no byte `80` stands before the middle inside its character and the `int` index is
good. -/
theorem doubleValidators_true_iff (src : Ptr) (len : ℕ) (hwf : WellFormed (slice src len)) :
    (validateDfaUtf8Double (nulTerminated src len) (len + 1) = some true ∧
      shiftlessValidateDfaUtf8Double (nulTerminated src len) (len + 1) = some true) ↔
    NoEarly80 (nulTerminated src len) ((len + 1) / 2) ∧
      IntIndexOk (len + 1) (2 * characterStart (nulTerminated src len) ((len + 1) / 2)) := by
  have hplain := double_nulTerminated_iff implements_updatestate rfl hwf
  have hshiftless := double_nulTerminated_iff implements_shiftlessUpdatestate rfl hwf
  rw [validateDfaUtf8Double, shiftlessValidateDfaUtf8Double, hplain, hshiftless, and_self]

/-- The text `C3 A9` is accepted. -/
theorem doubleValidators_true_C3_A9 :
    validateDfaUtf8Double (nulTerminated (fun i => [0xC3, 0xA9].getD i 0) 2) 3 = some true ∧
    shiftlessValidateDfaUtf8Double (nulTerminated (fun i => [0xC3, 0xA9].getD i 0) 2) 3
      = some true := by
  have hwf : WellFormed (slice (fun i => [0xC3, 0xA9].getD i 0) 2) := by
    rw [← run_utf8Machine_eq_start_iff]
    decide
  refine (doubleValidators_true_iff _ 2 hwf).mpr ⟨?_, .inl (by omega)⟩
  intro j hj hj1
  obtain rfl : j = 1 := by
    change j ≤ 1 at hj1
    omega
  decide

/-- The text `C2 80` is well formed, and both return false on it. -/
theorem doubleValidators_C2_80 :
    WellFormed (slice (fun i => [0xC2, 0x80].getD i 0) 2) ∧
    validateDfaUtf8Double (nulTerminated (fun i => [0xC2, 0x80].getD i 0) 2) 3
      = some false ∧
    shiftlessValidateDfaUtf8Double (nulTerminated (fun i => [0xC2, 0x80].getD i 0) 2) 3
      = some false := by
  refine ⟨?_, ?_, ?_⟩
  · rw [← run_utf8Machine_eq_start_iff]
    decide
  · decide +kernel
  · decide +kernel

end FastValidate.Proofs
