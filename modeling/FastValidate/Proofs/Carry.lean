import FastValidate.Lib.Automaton
import FastValidate.Lib.Lanes

/-!
# `FastValidate.Proofs.Carry`: the two-shift carry on natural numbers

`carryContinuations` spreads the sequence lengths of a block to the right with two shifts.
Lane `i` gets its own length, the length of lane `i - 1` less one, and the sum of lane
`i - 2` less two, where the subtractions stop at zero. The lanes before the block are the
last two carries of the previous block. `sumAt` and `carryAt` are these numbers with no
byte wrap; `Proofs/Block.lean` shows that the bytes never wrap.

`countdown` is what the carries count: the continuation bytes still owed. A lane `Fits`
when the code's check accepts it. The step lemma is `Tracks.step` and the run lemma is
`fits_iff_countdown`: from a block boundary, the first lanes all fit exactly when
`countdown` reads their lengths. While it does, each carry past lane 0 is exactly one more
than what is owed (`carryAt_eq`), so the next boundary is as good as this one
(`Boundary.next`). Lane 0 can count the previous block twice, so it has a bound only
(`carryAt_le_six`).

`carryAt_le` bounds the carries of arbitrary lengths, with no lane fitting. The bound 12 of
the last lanes is tighter than the bound 25 of the others, and it is what the next block
starts from.
-/

set_option autoImplicit false

namespace FastValidate.Proofs

open Simd (delay delay_zero delay_succ)
open Automata

/-- The continuation bytes owed. A length `n` above zero starts a sequence of `n` bytes
when nothing is owed, and a length zero pays one byte. -/
def countdown : Partial ℕ ℕ where
  start := 0
  step r n :=
    if r = 0 then (if n = 0 then none else some (n - 1))
    else if n = 0 then some (r - 1)
    else none

/-- The two steps of `countdown`: a lead when nothing is owed, and a continuation byte when
something is. -/
theorem countdown_step_eq_some {r n r' : ℕ} : countdown.step r n = some r' ↔
    (r = 0 ∧ 0 < n ∧ r' = n - 1) ∨ (0 < r ∧ n = 0 ∧ r' = r - 1) := by
  show (if r = 0 then (if n = 0 then none else some (n - 1))
    else if n = 0 then some (r - 1) else none) = some r' ↔ _
  split <;> split <;> simp <;> omega

/-- `countdown` refuses a length zero when nothing is owed and a positive length when
something is. -/
theorem isSome_countdown_step {r n : ℕ} :
    (countdown.step r n).isSome ↔ (0 < r ↔ n = 0) := by
  rw [Option.isSome_iff_exists]
  simp only [countdown_step_eq_some]
  refine ⟨?_, fun h => ?_⟩
  · rintro ⟨r', h | h⟩ <;> omega
  · by_cases hn : n = 0
    · exact ⟨r - 1, .inr ⟨h.mpr hn, hn, rfl⟩⟩
    · exact ⟨n - 1, .inl ⟨by omega, by omega, rfl⟩⟩

/-- The `sum` of lane `i`: its length, and the length before it less one. `c₁` stands
before lane 0. -/
def sumAt (L : ℕ → ℕ) (c₁ i : ℕ) : ℕ := L i + (delay c₁ L i - 1)

/-- The carry of lane `i`: its `sum`, and the `sum` two lanes before it less two. `c₂` and
`c₁` stand before lane 0. -/
def carryAt (L : ℕ → ℕ) (c₁ c₂ i : ℕ) : ℕ :=
  sumAt L c₁ i + (delay c₂ (delay c₁ (sumAt L c₁)) i - 2)

/-- Lane `i` has neither an overlap nor an underlap: the carry exceeds the length exactly
where the length is zero. -/
def Fits (L C : ℕ → ℕ) (i : ℕ) : Prop := L i < C i ↔ L i = 0

/-- With `r` bytes owed at the end of a block, the last two carries are as the next block
needs them. -/
structure Boundary (r c₁ c₂ : ℕ) : Prop where
  bound : r ≤ 3
  last : c₁ - 1 = r
  beforeLast : c₂ - 2 ≤ r

/-- With `r` bytes owed before a lane, the numbers the lane looks back at: the length `x`
and the sum `y₁` of the lane before it, and the sum `y₂` of the lane two before it. Either
the last length accounts for all that is owed, or it was zero and the sum before it does.
In the second case at most two bytes are owed. -/
structure Tracks (r x y₁ y₂ : ℕ) : Prop where
  bound : r ≤ 3
  near : y₁ - 2 = r - 1
  source : (x - 1 = r ∧ y₂ - 2 ≤ r) ∨ (x - 1 = 0 ∧ y₂ - 2 = r ∧ r ≤ 2)

/-- A block boundary tracks what is owed. -/
theorem Boundary.tracks {r c₁ c₂ : ℕ} (h : Boundary r c₁ c₂) : Tracks r c₁ c₁ c₂ where
  bound := h.bound
  near := by
    have hlast := h.last
    omega
  source := .inl ⟨h.last, h.beforeLast⟩

/-- The check of one lane is the step of `countdown`: the carry exceeds the length exactly
when a byte is owed. -/
theorem Tracks.fits_iff {r x y₁ y₂ n : ℕ} (h : Tracks r x y₁ y₂) :
    (n < n + (x - 1) + (y₂ - 2) ↔ n = 0) ↔ (countdown.step r n).isSome := by
  have howed : n < n + (x - 1) + (y₂ - 2) ↔ 0 < r := by
    rcases h.source with ⟨hx, hy⟩ | ⟨hx, hy, -⟩ <;> omega
  rw [howed, isSome_countdown_step]

/-- One lane preserves the tracking, and past it the two numbers it looked back at account
exactly for what is owed. -/
theorem Tracks.step {r x y₁ y₂ n r' : ℕ} (h : Tracks r x y₁ y₂) (hn : n ≤ 4)
    (hstep : countdown.step r n = some r') :
    Tracks r' n (n + (x - 1)) y₁ ∧ (n - 1) + (y₁ - 2) = r' := by
  obtain ⟨hbound, hnear, hsource⟩ := h
  rcases countdown_step_eq_some.mp hstep with ⟨hr, hpos, rfl⟩ | ⟨hr, rfl, rfl⟩
  · -- A lead: nothing is owed before it, so its length accounts for everything.
    refine ⟨⟨by omega, by omega, .inl ⟨rfl, by omega⟩⟩, by omega⟩
  · -- A continuation byte: its length is zero and the sum two lanes back accounts.
    refine ⟨⟨by omega, by omega, .inr ⟨by omega, by omega, by omega⟩⟩, by omega⟩

section Block

variable {L : ℕ → ℕ} {c₁ c₂ r : ℕ}

/-- The carry in terms of the two numbers the lane looks back at. -/
theorem carryAt_eq_add (L : ℕ → ℕ) (c₁ c₂ i : ℕ) :
    carryAt L c₁ c₂ i
      = L i + (delay c₁ L i - 1) + (delay c₂ (delay c₁ (sumAt L c₁)) i - 2) := rfl

/-- Up to lane `i`, every lane fits exactly when `countdown` reads the lengths. While it
does, the numbers before lane `i` track what is owed, and past lane 0 they account for it
exactly. Induction on the lane. -/
theorem fits_iff_countdown (hL : ∀ i, L i ≤ 4) (h : Boundary r c₁ c₂) (i : ℕ) :
    ((∀ j < i, Fits L (carryAt L c₁ c₂) j)
      ↔ (countdown.run r ((List.range i).map L)).isSome) ∧
    ∀ r', countdown.run r ((List.range i).map L) = some r' →
      Tracks r' (delay c₁ L i) (delay c₁ (sumAt L c₁) i)
        (delay c₂ (delay c₁ (sumAt L c₁)) i) ∧
      (0 < i → (delay c₁ L i - 1) + (delay c₂ (delay c₁ (sumAt L c₁)) i - 2) = r') := by
  induction i with
  | zero =>
      refine ⟨by simp, fun r' hr' => ?_⟩
      cases hr'
      exact ⟨h.tracks, fun hpos => absurd hpos (Nat.lt_irrefl 0)⟩
  | succ i ih =>
      obtain ⟨hiff, htracks⟩ := ih
      rw [List.range_succ, List.map_append, List.map_singleton, Partial.run_concat]
      have hsplit : (∀ j < i + 1, Fits L (carryAt L c₁ c₂) j)
          ↔ (∀ j < i, Fits L (carryAt L c₁ c₂) j) ∧ Fits L (carryAt L c₁ c₂) i :=
        Nat.forall_lt_succ_right
      rw [hsplit, hiff]
      cases hrun : countdown.run r ((List.range i).map L) with
      | none => simp -- refused before lane `i`, and so after it
      | some r₀ =>
          obtain ⟨htr, -⟩ := htracks r₀ hrun
          refine ⟨?_, fun r' hr' => ?_⟩
          · have hfit : Fits L (carryAt L c₁ c₂) i ↔ (countdown.step r₀ (L i)).isSome :=
              htr.fits_iff
            simpa using hfit
          · obtain ⟨hnext, hexact⟩ := htr.step (hL i) hr'
            exact ⟨hnext, fun _ => hexact⟩

/-- Past lane 0, the carry is one more than what is owed after the lane. -/
theorem carryAt_eq (hL : ∀ i, L i ≤ 4) (h : Boundary r c₁ c₂) {i r' : ℕ} (hi : 0 < i)
    (hrun : countdown.run r ((List.range (i + 1)).map L) = some r') :
    carryAt L c₁ c₂ i = r' + 1 := by
  rw [List.range_succ, List.map_append, List.map_singleton, Partial.run_concat] at hrun
  obtain ⟨r₀, hr₀, hstep⟩ := Option.bind_eq_some_iff.mp hrun
  have hexact := ((fits_iff_countdown hL h i).2 r₀ hr₀).2 hi
  rw [carryAt_eq_add, Nat.add_assoc, hexact]
  rcases countdown_step_eq_some.mp hstep with ⟨hr, hpos, rfl⟩ | ⟨hr, hz, rfl⟩ <;> omega

/-- In every lane the carry is at least one more than what is owed after the lane. -/
theorem le_carryAt (hL : ∀ i, L i ≤ 4) (h : Boundary r c₁ c₂) {i r' : ℕ}
    (hrun : countdown.run r ((List.range (i + 1)).map L) = some r') :
    r' + 1 ≤ carryAt L c₁ c₂ i := by
  cases i with
  | zero =>
      obtain ⟨r₀, hr₀ : countdown.step r (L 0) = some r₀, hend⟩ :=
        Option.bind_eq_some_iff.mp hrun
      cases hend
      have hlast := h.last
      show r' + 1 ≤ L 0 + (c₁ - 1) + (c₂ - 2)
      rcases countdown_step_eq_some.mp hr₀ with ⟨-, hpos, rfl⟩ | ⟨hpos, -, rfl⟩ <;> omega
  | succ i => exact (carryAt_eq hL h (Nat.succ_pos i) hrun).ge

/-- The carry of a lane that fits is at most 6. Only lane 0 can pass 4, where the previous
block counts twice. -/
theorem carryAt_le_six (hL : ∀ i, L i ≤ 4) (h : Boundary r c₁ c₂) {i : ℕ}
    (hrun : (countdown.run r ((List.range (i + 1)).map L)).isSome) :
    carryAt L c₁ c₂ i ≤ 6 := by
  obtain ⟨r', hr'⟩ := Option.isSome_iff_exists.mp hrun
  have hbound := ((fits_iff_countdown hL h (i + 1)).2 r' hr').1.bound
  cases i with
  | zero =>
      -- Lane 0 may add the last two carries, of at most 3 each after the subtractions.
      have hL0 := hL 0
      obtain ⟨hr, hlast, hbefore⟩ := h
      obtain ⟨r₀, hr₀ : countdown.step r (L 0) = some r₀, -⟩ :=
        Option.bind_eq_some_iff.mp hr'
      show L 0 + (c₁ - 1) + (c₂ - 2) ≤ 6
      rcases countdown_step_eq_some.mp hr₀ with ⟨hz, -, -⟩ | ⟨-, hz, -⟩ <;> omega
  | succ i =>
      rw [carryAt_eq hL h (Nat.succ_pos i) hr']
      omega

/-- After a block of `n` lanes, three or more, that `countdown` reads, the last two carries
are a boundary again. -/
theorem Boundary.next (h : Boundary r c₁ c₂) (hL : ∀ i, L i ≤ 4) {n r' : ℕ} (hn : 3 ≤ n)
    (hrun : countdown.run r ((List.range n).map L) = some r') :
    Boundary r' (carryAt L c₁ c₂ (n - 1)) (carryAt L c₁ c₂ (n - 2)) := by
  -- The last two lanes are `i` and `i + 1`.
  obtain ⟨i, rfl⟩ := Nat.exists_eq_add_of_le' (by omega : 2 ≤ n)
  show Boundary r' (carryAt L c₁ c₂ (i + 1)) (carryAt L c₁ c₂ i)
  have hlast : carryAt L c₁ c₂ (i + 1) = r' + 1 := carryAt_eq hL h (Nat.succ_pos i) hrun
  have hbound := ((fits_iff_countdown hL h (i + 2)).2 r' hrun).1.bound
  rw [List.range_succ, List.map_append, List.map_singleton, Partial.run_concat] at hrun
  obtain ⟨r₀, hr₀, hstep⟩ := Option.bind_eq_some_iff.mp hrun
  have hbefore := carryAt_eq hL h (by omega) hr₀
  refine ⟨hbound, by omega, ?_⟩
  rcases countdown_step_eq_some.mp hstep with ⟨hr, hpos, rfl⟩ | ⟨hr, hz, rfl⟩ <;> omega

/-- The sums and carries of arbitrary lengths: with the last two carries at most 12, the
lanes stay far below 128, and from lane 3 on the carries are at most 12 again. -/
theorem carryAt_le (hL : ∀ i, L i ≤ 4) (h₁ : c₁ ≤ 12) (h₂ : c₂ ≤ 12) (i : ℕ) :
    sumAt L c₁ i ≤ 15 ∧ carryAt L c₁ c₂ i ≤ 25 ∧ (3 ≤ i → carryAt L c₁ c₂ i ≤ 12) := by
  have hsum : ∀ j, sumAt L c₁ (j + 1) ≤ 7 := by
    intro j
    have hj := hL j
    have hj' := hL (j + 1)
    show L (j + 1) + (L j - 1) ≤ 7
    omega
  have hsum0 : sumAt L c₁ 0 ≤ 15 := by
    have h0 := hL 0
    show L 0 + (c₁ - 1) ≤ 15
    omega
  -- The carries before the block enter at lanes 0 and 1, and through `sum` at lane 2.
  match i with
  | 0 =>
      refine ⟨hsum0, ?_, by omega⟩
      show sumAt L c₁ 0 + (c₂ - 2) ≤ 25
      omega
  | 1 =>
      have h1 : sumAt L c₁ 1 ≤ 7 := hsum 0
      refine ⟨by omega, ?_, by omega⟩
      show sumAt L c₁ 1 + (c₁ - 2) ≤ 25
      omega
  | 2 =>
      have h2 : sumAt L c₁ 2 ≤ 7 := hsum 1
      refine ⟨by omega, ?_, by omega⟩
      show sumAt L c₁ 2 + (sumAt L c₁ 0 - 2) ≤ 25
      omega
  | i + 3 =>
      have h3 : sumAt L c₁ (i + 3) ≤ 7 := hsum (i + 2)
      have h1 : sumAt L c₁ (i + 1) ≤ 7 := hsum i
      have hcarry : carryAt L c₁ c₂ (i + 3) ≤ 12 := by
        show sumAt L c₁ (i + 3) + (sumAt L c₁ (i + 1) - 2) ≤ 12
        omega
      exact ⟨by omega, by omega, fun _ => hcarry⟩

end Block

end FastValidate.Proofs
