import FastValidate.Lib.Loops

/-!
# `FastValidate.Lib.WordLoops`: loops with a 64-bit counter, and what they read

`whileWord` is a loop whose counter is a `size_t`: it wraps, and its rounds are bounded by
`fuel` because it need not end. Where its condition is a bound that the counter cannot pass
by wrapping (`CountsTo`), it ends, and it runs as the loop over the naturals does
(`whileWord_forLt`).

An `Access` is a read of some bytes from some offset on, and `fetch` carries it out: it gives
these bytes and no others, and records the read. So a program that looks at its text through
`fetch` only cannot depend on a byte outside its reads. `Tiles reads i` says that a list of
reads takes every byte before `i` once, in order, and no other byte.
-/

set_option autoImplicit false

namespace Loops

open Simd Memory

variable {σ τ : Type}

/-- `for (; cond(i); i += stride) s = body(i, s)`, for fewer than `fuel` rounds: the counter
and the state at the exit. -/
def whileWord (cond : BitVec 64 → Bool) (stride : BitVec 64) (body : BitVec 64 → σ → σ) :
    ℕ → BitVec 64 → σ → Option (BitVec 64 × σ)
  | 0, _, _ => none
  | fuel + 1, i, s =>
      if cond i then whileWord cond stride body fuel (i + stride) (body i s) else some (i, s)

/-- Over the counters up to `top`, `cond` is the bound `stop` over the integers, and a step
from below the bound stays up to `top`. -/
structure CountsTo (cond : BitVec 64 → Bool) (stride : BitVec 64) (stop : ℤ) (top : ℕ) :
    Prop where
  cond_iff : ∀ i, i.toNat ≤ top → (cond i = true ↔ (i.toNat : ℤ) < stop)
  step_le : stop + stride.toNat ≤ top + 1
  top_lt : top < 2 ^ 64

/-- The loop over the naturals with the bound `stop + 1` has the condition `i <= stop`. -/
theorem forLe_eq_forLt (stop stride : ℕ) (body : ℕ → σ → σ) (i : ℕ) (s : σ) :
    forLe stop stride body i s = forLt (stop + 1) stride body i s := by
  fun_induction forLe stop stride body i s with
  | case1 i s hi ih => rw [ih, forLt.eq_def _ _ _ i, if_pos (by omega)]
  | case2 i s hi => rw [forLt, if_neg (by omega)]

/-- At the exit the counter has passed the bound. -/
theorem lt_forLe_fst (stop stride : ℕ) [NeZero stride] (body : ℕ → σ → σ) (i : ℕ) (s : σ) :
    stop < (forLe stop stride body i s).1 :=
  (forLe_rule (P := fun _ _ => True) (fun _ _ _ _ => trivial) i s trivial).2

/-- The same for the loop with the bound `i < stop`. -/
theorem le_forLt_fst (stop : ℤ) (stride : ℕ) [NeZero stride] (body : ℕ → σ → σ) (i : ℕ)
    (s : σ) : stop ≤ (forLt stop stride body i s).1 :=
  (forLt_rule (P := fun _ _ => True) (fun _ _ _ _ => trivial) i s trivial).2

/-- The loop over words ends, and simulates the loop over the naturals. Induction on the
fuel. -/
theorem whileWord_forLt {cond : BitVec 64 → Bool} {stride : BitVec 64} {stop : ℤ} {top n : ℕ}
    [NeZero n] (h : CountsTo cond stride stop top) (hn : stride.toNat = n)
    {body : BitVec 64 → σ → σ} (body' : ℕ → τ → τ) (R : ℕ → σ → τ → Prop)
    (hstep : ∀ i s t, (i.toNat : ℤ) < stop → R i.toNat s t →
      R (i.toNat + n) (body i s) (body' i.toNat t))
    (fuel : ℕ) (i : BitVec 64) (s : σ) (t : τ) (hfuel : top < i.toNat + fuel)
    (hi : i.toNat ≤ top) (hR : R i.toNat s t) :
    ∃ i' s', whileWord cond stride body fuel i s = some (i', s') ∧ i'.toNat ≤ top ∧
      i'.toNat = (forLt stop n body' i.toNat t).1 ∧
      R i'.toNat s' (forLt stop n body' i.toNat t).2 := by
  induction fuel generalizing i s t with
  | zero => exact absurd hfuel (by omega)
  | succ fuel ih =>
      rw [whileWord, forLt]
      by_cases hcond : (i.toNat : ℤ) < stop
      · -- The counter does not wrap.
        have hle := h.step_le
        have hlt := h.top_lt
        have hpos := NeZero.pos n
        have hnext : (i + stride).toNat = i.toNat + n := by
          rw [BitVec.toNat_add, hn, Nat.mod_eq_of_lt (by omega)]
        rw [if_pos ((h.cond_iff i hi).mpr hcond), if_pos ⟨hcond, hpos⟩, ← hnext]
        refine ih _ _ _ (by omega) (by omega) ?_
        rw [hnext]
        exact hstep i s t hcond hR
      · rw [if_neg (fun hc => hcond ((h.cond_iff i hi).mp hc)),
          if_neg fun hc => hcond hc.1]
        exact ⟨i, s, rfl, hi, rfl, hR⟩

/-! ### Reads -/

/-- A read of `count` bytes from the offset `start` on. -/
structure Access where
  start : BitVec 64
  count : BitVec 64
  deriving DecidableEq, Repr

/-- The offsets of the bytes read. -/
def Access.offsets (a : Access) : List (BitVec 64) :=
  (List.range a.count.toNat).map fun k => a.start + BitVec.ofNat 64 k

/-- The read `a`: its bytes, with zeros behind them, and the reads so far with `a`. -/
def fetch (src : Ptr) (a : Access) (reads : List Access) : Ptr × List Access :=
  (zeroPadded src a.start.toNat a.count.toNat, reads ++ [a])

/-- The first byte of a read that is not empty. -/
theorem fetch_zero (src : Ptr) {a : Access} {reads : List Access} (h : 0 < a.count.toNat) :
    (fetch src a reads).1 0 = src a.start.toNat := if_pos h

/-- A read of `n` bytes fills a register of `n` lanes. -/
theorem loadu_fetch (src : Ptr) {a : Access} {reads : List Access} {n : ℕ}
    (h : a.count.toNat = n) :
    loadu n (fetch src a reads).1 0 = loadu n src a.start.toNat := by
  refine reg_ext fun i hi => ?_
  rw [lane_loadu _ _ hi, lane_loadu _ _ hi, Nat.zero_add]
  exact if_pos (h ▸ hi)

/-- A read of eight bytes fills a word. -/
theorem load64_fetch (src : Ptr) {a : Access} {reads : List Access} (h : a.count.toNat = 8) :
    load64 (fetch src a reads).1 0 = load64 src a.start.toNat := by
  refine BitVec.eq_of_getLsbD_eq fun j hj => ?_
  rw [load64, load64, getLsbD_leWord _ hj, getLsbD_leWord _ hj, Nat.zero_add]
  congr 1
  exact if_pos (by omega)

/-- The reads take the bytes before `i`, each once and in order. -/
def Tiles (reads : List Access) (i : ℕ) : Prop :=
  (reads.flatMap Access.offsets).map BitVec.toNat = List.range i

/-- No reads take no bytes. -/
theorem tiles_nil : Tiles [] 0 := rfl

/-- A read that starts where the others end. -/
theorem Tiles.fetch {reads : List Access} {a : Access} (h : Tiles reads a.start.toNat)
    (hlt : a.start.toNat + a.count.toNat ≤ 2 ^ 64) (src : Ptr) :
    Tiles (fetch src a reads).2 (a.start.toNat + a.count.toNat) := by
  have hoffsets : a.offsets.map BitVec.toNat
      = (List.range a.count.toNat).map (a.start.toNat + ·) := by
    rw [Access.offsets, List.map_map]
    refine List.map_congr_left fun k hk => ?_
    -- The last offset of the read does not wrap.
    have hk' := List.mem_range.mp hk
    rw [Function.comp_apply, BitVec.toNat_add, BitVec.toNat_ofNat]
    omega
  rw [Tiles, Loops.fetch, List.flatMap_append, List.flatMap_singleton, List.map_append, h,
    hoffsets, List.range_add]

end Loops
