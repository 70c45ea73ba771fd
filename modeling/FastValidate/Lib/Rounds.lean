import Mathlib.Data.Nat.Find
import Mathlib.Logic.Function.Iterate
import Mathlib.Order.Filter.AtTopBot.Basic
import Mathlib.Order.Monotone.Basic

/-!
# `FastValidate.Lib.Rounds`: loops that need not end

`whileFuel` is a `while` loop for at most some number of rounds. `whileFuel_eq_some_iff` says
when it ends and with which state: after the first number of rounds that leads out of the
condition. So the loop ends for some fuel exactly when some number of rounds does
(`exists_whileFuel_isSome_iff`), and more fuel does not change its result
(`eventually_whileFuel`).

A loop that runs until a counter reaches a bound ends for every bound exactly when the
counter grows in infinitely many rounds (`forall_exists_le_iff`).
-/

set_option autoImplicit false

namespace Loops

variable {σ : Type}

/-- `while (cond) s = body(s);`, for at most `fuel` rounds. -/
def whileFuel (cond : σ → Prop) [DecidablePred cond] (body : σ → σ) : ℕ → σ → Option σ
  | 0, s => if cond s then none else some s
  | fuel + 1, s => if cond s then whileFuel cond body fuel (body s) else some s

section While

variable {cond : σ → Prop} [DecidablePred cond] {body : σ → σ}

/-- The loop ends after the first number of rounds that leads out of the condition. -/
theorem whileFuel_eq_some_iff {fuel : ℕ} {s s' : σ} :
    whileFuel cond body fuel s = some s' ↔
      ∃ k ≤ fuel, body^[k] s = s' ∧ (∀ j < k, cond (body^[j] s)) ∧ ¬ cond s' := by
  induction fuel generalizing s with
  | zero =>
      rw [whileFuel]
      split
      · next hcond =>
          constructor
          · intro h
            cases h
          · rintro ⟨k, hk, rfl, -, hexit⟩
            obtain rfl : k = 0 := by omega
            exact absurd hcond hexit
      · next hcond =>
          constructor
          · intro h
            cases h
            exact ⟨0, Nat.le_refl 0, rfl, by simp, hcond⟩
          · rintro ⟨k, hk, rfl, -, -⟩
            obtain rfl : k = 0 := by omega
            rfl
  | succ fuel ih =>
      rw [whileFuel]
      split
      · next hcond =>
          -- The exit of the other rounds is one round later in this run.
          rw [ih]
          constructor
          · -- One round more, in front.
            rintro ⟨k, hk, hrun, hbefore, hexit⟩
            refine ⟨k + 1, by omega, hrun, fun j hj => ?_, hexit⟩
            cases j with
            | zero => exact hcond
            | succ j => exact hbefore j (by omega)
          · rintro ⟨k, hk, hrun, hbefore, hexit⟩
            cases k with
            | zero =>
                obtain rfl : s = s' := hrun
                exact absurd hcond hexit
            | succ k => exact ⟨k, by omega, hrun, fun j hj => hbefore (j + 1) (by omega), hexit⟩
      · next hcond =>
          constructor
          · intro h
            cases h
            exact ⟨0, Nat.zero_le _, rfl, by simp, hcond⟩
          · rintro ⟨k, hk, hrun, hbefore, -⟩
            cases k with
            | zero => exact congrArg some hrun
            | succ k => exact absurd (hbefore 0 (by omega)) hcond

/-- The loop ends for some fuel exactly when some number of rounds leads out of the
condition. -/
theorem exists_whileFuel_isSome_iff (s : σ) :
    (∃ fuel, (whileFuel cond body fuel s).isSome) ↔ ∃ k, ¬ cond (body^[k] s) := by
  simp only [Option.isSome_iff_exists, whileFuel_eq_some_iff]
  constructor
  · rintro ⟨fuel, s', k, -, rfl, -, hexit⟩
    exact ⟨k, hexit⟩
  · intro h
    -- The first such number.
    refine ⟨Nat.find h, _, Nat.find h, Nat.le_refl _, rfl, fun j hj => ?_, Nat.find_spec h⟩
    exact not_not.mp (Nat.find_min h hj)

/-- Once the loop ends, it ends in the same state with any more fuel. -/
theorem eventually_whileFuel {fuel : ℕ} {s s' : σ} (h : whileFuel cond body fuel s = some s') :
    ∀ᶠ fuel in Filter.atTop, whileFuel cond body fuel s = some s' := by
  obtain ⟨k, -, hrun⟩ := whileFuel_eq_some_iff.mp h
  filter_upwards [Filter.eventually_ge_atTop k] with fuel hfuel
  exact whileFuel_eq_some_iff.mpr ⟨k, hfuel, hrun⟩

end While

/-- A counter that never falls passes every bound exactly when it grows infinitely often. -/
theorem forall_exists_le_iff {f : ℕ → ℕ} (hmono : Monotone f) :
    (∀ N, ∃ k, N ≤ f k) ↔ ∀ m, ∃ k, m ≤ k ∧ f k < f (k + 1) := by
  constructor
  · intro h m
    by_contra hnone
    simp only [not_exists, not_and, Nat.not_lt] at hnone
    -- From `m` on the counter would stay where it is.
    have hstay : ∀ d, f (m + d) ≤ f m := by
      intro d
      induction d with
      | zero => exact Nat.le_refl _
      | succ d ih => exact Nat.le_trans (hnone (m + d) (Nat.le_add_right m d)) ih
    obtain ⟨k, hk⟩ := h (f m + 1)
    have hle : f k ≤ f (m + k) := hmono (Nat.le_add_left k m)
    have hbound := hstay k
    omega
  · intro h N
    induction N with
    | zero => exact ⟨0, Nat.zero_le _⟩
    | succ N ih =>
        obtain ⟨m, hm⟩ := ih
        obtain ⟨k, hmk, hgrow⟩ := h m
        have hle := hmono hmk
        exact ⟨k + 1, by omega⟩

end Loops
