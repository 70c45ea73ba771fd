import FastValidate.Lib.Lanes

/-!
# `FastValidate.Lib.Loops`: byte memory and counting loops

A pointer is the function that gives the byte at each offset from it (`Ptr`), and
`slice src len` is the string of its first `len` bytes. Reads have no bounds here; a model
that must stay inside a buffer checks its own index.

The loops are the `for` statements of C with a counter: `forLe` has the condition
`i <= stop`, `forLt` the condition `i < stop` over the integers (so a bound such as
`end - 32` may be negative), and `forLtM` is a loop of step one whose body can leave it.
The stride is positive. A loop that stands still would not end in C, and here it is left at
once; the rules do not speak of it.
`forLe` and `forLt` have an invariant rule, `<loop>_rule`: a property of the counter and the
state that every iteration preserves holds at the exit, together with the negated condition.
A loop of step one over the bytes of a text is a fold over its slice. The proofs about loops
use these rules and never unfold the loops.
-/

set_option autoImplicit false

namespace Memory

open Simd

/-- A pointer: the byte at each offset. -/
abbrev Ptr := ℕ → Byte

/-- The first `len` bytes at `src`. -/
def slice (src : Ptr) (len : ℕ) : List Byte := (List.range len).map src

/-- The little-endian 64-bit word at `src + i`. -/
def load64 (src : Ptr) (i : ℕ) : BitVec 64 := leWord 64 fun k => src (i + k)

/-- A buffer of zeros with `count` bytes of `src + i` copied to its front. -/
def zeroPadded (src : Ptr) (i count : ℕ) : Ptr :=
  fun j => if j < count then src (i + j) else 0

/-- `memset(dst, value, n)`. -/
def memset (dst : Ptr) (value : Byte) (n : ℕ) : Ptr := fun i => if i < n then value else dst i

/-- `memcpy(dst + start, src, n)`. -/
def memcpy (dst : Ptr) (start : ℕ) (src : Ptr) (n : ℕ) : Ptr :=
  fun i => if start ≤ i ∧ i < start + n then src (i - start) else dst i

/-- The first `len` bytes at `src`, with a NUL byte after them. -/
def nulTerminated (src : Ptr) (len : ℕ) : Ptr := Function.update src len 0

/-- A slice has the length asked for. -/
@[simp] theorem length_slice (src : Ptr) (len : ℕ) : (slice src len).length = len := by
  simp [slice]

/-- A slice of no bytes. -/
@[simp] theorem slice_zero (src : Ptr) : slice src 0 = [] := rfl

/-- A slice with one byte more ends in the byte at the old end. -/
theorem slice_succ (src : Ptr) (i : ℕ) : slice src (i + 1) = slice src i ++ [src i] := by
  simp [slice, List.range_succ]

/-- A slice cut at `i`. -/
theorem slice_add (src : Ptr) (i k : ℕ) :
    slice src (i + k) = slice src i ++ slice (fun j => src (i + j)) k := by
  simp [slice, List.range_add, Function.comp_def]

/-- The first byte of a slice that starts at `i`. -/
theorem slice_cons (src : Ptr) (i k : ℕ) :
    slice (fun j => src (i + j)) (k + 1)
      = src i :: slice (fun j => src (i + 1 + j)) k := by
  rw [Nat.add_comm k 1, slice_add]
  simp only [Nat.add_assoc]
  rfl

/-- What is left of the first `len` bytes at `src` from `i` on. -/
def suffix (src : Ptr) (len i : ℕ) : List Byte := slice (fun j => src (i + j)) (len - i)

/-- From the start on, everything is left. -/
theorem suffix_zero (src : Ptr) (len : ℕ) : suffix src len 0 = slice src len := by
  simp [suffix]

/-- From the end on, nothing is left. -/
theorem suffix_of_le (src : Ptr) {len i : ℕ} (h : len ≤ i) : suffix src len i = [] := by
  rw [suffix, Nat.sub_eq_zero_of_le h, slice_zero]

/-- Before the end, the byte at `i` is left first. -/
theorem suffix_of_lt (src : Ptr) {len i : ℕ} (h : i < len) :
    suffix src len i = src i :: suffix src len (i + 1) := by
  obtain ⟨k, rfl⟩ := Nat.exists_eq_add_of_lt h
  have hk : i + k + 1 - i = k + 1 := by omega
  have hk' : i + k + 1 - (i + 1) = k := by omega
  rw [suffix, suffix, hk, hk', slice_cons]

/-- The number of bytes left. -/
theorem length_suffix (src : Ptr) (len i : ℕ) : (suffix src len i).length = len - i :=
  length_slice _ _

/-- Two buffers with the same first bytes have the same slice. -/
theorem slice_congr {src dst : Ptr} {len : ℕ} (h : ∀ i < len, src i = dst i) :
    slice src len = slice dst len :=
  List.map_congr_left fun i hi => h i (List.mem_range.mp hi)

/-- The bytes of a slice are those at the offsets below its length. -/
theorem mem_slice {src : Ptr} {len : ℕ} {b : Byte} :
    b ∈ slice src len ↔ ∃ i < len, src i = b := by
  simp [slice]

/-- The bytes a load reads are the next slice. -/
theorem toList_loadu (n : ℕ) (src : Ptr) (i : ℕ) :
    (loadu n src i).toList = slice (fun j => src (i + j)) n := by
  rw [toList_eq_map_lane]
  exact List.map_congr_left fun j hj => lane_loadu src i (List.mem_range.mp hj)

/-- The padded buffer is the copied bytes followed by zeros. -/
theorem slice_zeroPadded (src : Ptr) (i : ℕ) {count n : ℕ} (h : count ≤ n) :
    slice (zeroPadded src i count) n
      = slice (fun j => src (i + j)) count ++ List.replicate (n - count) 0 := by
  obtain ⟨k, rfl⟩ := Nat.exists_eq_add_of_le h
  rw [slice_add, Nat.add_sub_cancel_left]
  congr 1
  · exact slice_congr fun j hj => by simp [zeroPadded, hj]
  · rw [List.eq_replicate_iff]
    refine ⟨length_slice _ k, fun b hb => ?_⟩
    obtain ⟨j, -, rfl⟩ := mem_slice.mp hb
    simp [zeroPadded]

/-- A slice of one value. -/
theorem slice_eq_replicate {src : Ptr} {len : ℕ} {value : Byte} (h : ∀ i < len, src i = value) :
    slice src len = List.replicate len value := by
  rw [List.eq_replicate_iff]
  refine ⟨length_slice _ len, fun b hb => ?_⟩
  obtain ⟨i, hi, rfl⟩ := mem_slice.mp hb
  exact h i hi

/-- A buffer filled with one value, and then with bytes copied into it. -/
theorem slice_memcpy_memset (dst src : Ptr) (value : Byte) {start n N : ℕ} (h : start + n ≤ N) :
    slice (memcpy (memset dst value N) start src n) N
      = List.replicate start value ++ slice src n ++ List.replicate (N - (start + n)) value := by
  obtain ⟨k, rfl⟩ := Nat.exists_eq_add_of_le h
  rw [slice_add, slice_add, Nat.add_sub_cancel_left]
  congr 2
  · refine slice_eq_replicate fun i hi => ?_
    rw [memcpy, if_neg (by omega), memset, if_pos (by omega)]
  · refine slice_congr fun i hi => ?_
    rw [memcpy, if_pos (by omega), Nat.add_sub_cancel_left]
  · refine slice_eq_replicate fun i hi => ?_
    rw [memcpy, if_neg (by omega), memset, if_pos (by omega)]

/-- The terminated string is the string and one NUL byte. -/
theorem slice_nulTerminated (src : Ptr) (len : ℕ) :
    slice (nulTerminated src len) (len + 1) = slice src len ++ [0] := by
  rw [slice_succ]
  congr 1
  · refine slice_congr fun i hi => ?_
    rw [nulTerminated, Function.update_of_ne (by omega)]
  · rw [nulTerminated, Function.update_self]

end Memory

namespace Loops

open Simd Memory

variable {σ : Type}

/-! ### `for (; i <= stop; i += stride)` -/

/-- `for (; i <= stop; i += stride) s = body(i, s)`, for a positive stride: the counter and
the state at the exit. -/
def forLe (stop stride : ℕ) (body : ℕ → σ → σ) (i : ℕ) (s : σ) : ℕ × σ :=
  if i ≤ stop ∧ 0 < stride then forLe stop stride body (i + stride) (body i s) else (i, s)
termination_by stop + 1 - i

/-- What every iteration preserves holds at the exit. -/
theorem forLe_rule {stop stride : ℕ} [NeZero stride] {body : ℕ → σ → σ}
    {P : ℕ → σ → Prop} (hstep : ∀ i s, i ≤ stop → P i s → P (i + stride) (body i s))
    (i : ℕ) (s : σ) (h : P i s) :
    P (forLe stop stride body i s).1 (forLe stop stride body i s).2 ∧
      stop < (forLe stop stride body i s).1 := by
  fun_induction forLe stop stride body i s with
  | case1 i s hi ih => exact ih (hstep i s hi.1 h)
  | case2 i s hi => exact ⟨h, Nat.lt_of_not_le fun hle => hi ⟨hle, NeZero.pos stride⟩⟩

/-! ### `for (; i < stop; i += stride)` -/

/-- `for (; i < stop; i += stride) s = body(i, s)`, for a positive stride and with the bound
taken over the integers. -/
def forLt (stop : ℤ) (stride : ℕ) (body : ℕ → σ → σ) (i : ℕ) (s : σ) : ℕ × σ :=
  if (i : ℤ) < stop ∧ 0 < stride then forLt stop stride body (i + stride) (body i s)
  else (i, s)
termination_by (stop - i).toNat

/-- What every iteration preserves holds at the exit. -/
theorem forLt_rule {stop : ℤ} {stride : ℕ} [NeZero stride] {body : ℕ → σ → σ}
    {P : ℕ → σ → Prop} (hstep : ∀ (i : ℕ) s, (i : ℤ) < stop → P i s → P (i + stride) (body i s))
    (i : ℕ) (s : σ) (h : P i s) :
    P (forLt stop stride body i s).1 (forLt stop stride body i s).2 ∧
      stop ≤ (forLt stop stride body i s).1 := by
  fun_induction forLt stop stride body i s with
  | case1 i s hi ih => exact ih (hstep i s hi.1 h)
  | case2 i s hi => exact ⟨h, Int.not_lt.mp fun hlt => hi ⟨hlt, NeZero.pos stride⟩⟩

/-- A loop of step one from zero is a fold over its indexes. -/
theorem forLt_range (body : ℕ → σ → σ) (len : ℕ) (s : σ) :
    (forLt len 1 body 0 s).2 = (List.range len).foldl (fun s i => body i s) s := by
  have hnext : ∀ (i : ℕ) t, (i : ℤ) < len →
      (i ≤ len ∧ t = (List.range i).foldl (fun s i => body i s) s) →
      (i + 1 ≤ len ∧ body i t = (List.range (i + 1)).foldl (fun s i => body i s) s) := by
    intro i t hi ht
    refine ⟨by omega, ?_⟩
    rw [List.range_succ, List.foldl_append, ← ht.2]
    rfl
  -- The invariant is the fold over the indexes so far.
  obtain ⟨⟨hle, hfold⟩, hstop⟩ :=
    forLt_rule (P := fun i t => i ≤ len ∧ t = (List.range i).foldl (fun s i => body i s) s)
      hnext 0 s ⟨Nat.zero_le _, rfl⟩
  have hend : (forLt len 1 body 0 s).1 = len := by omega
  rw [hfold, hend]

/-- A loop over the bytes of a slice, one at a time, is a fold over the slice. -/
theorem forLt_foldl (step : σ → Byte → σ) (src : Ptr) (len : ℕ) (s : σ) :
    (forLt len 1 (fun i s => step s (src i)) 0 s).2 = (slice src len).foldl step s := by
  rw [forLt_range, slice, List.foldl_map]

/-! ### `for (i = 0; i < stop; i++)` with an exit in the body -/

/-- `for (; i < stop; i++)` whose body leaves the loop by returning `none`. -/
def forLtM (stop : ℕ) (body : ℕ → σ → Option σ) (i : ℕ) (s : σ) : Option σ :=
  if i < stop then (body i s).bind (forLtM stop body (i + 1)) else some s
termination_by stop - i

/-- Two steps in a row run to their end when both do, where the second one does from every
state or from none. -/
theorem isSome_bind_iff {τ : Type} {o : Option σ} {next : σ → Option τ} {ok : Prop}
    (hnext : ∀ s, (next s).isSome ↔ ok) : (o.bind next).isSome ↔ o.isSome ∧ ok := by
  cases o with
  | none => simp
  | some s => simpa using hnext s

/-- A loop whose exits depend on the counter only runs to its end when no exit is taken. -/
theorem isSome_forLtM_iff {stop : ℕ} {body : ℕ → σ → Option σ} {ok : ℕ → Prop}
    (hbody : ∀ i s, i < stop → ((body i s).isSome ↔ ok i)) (i : ℕ) (s : σ) :
    (forLtM stop body i s).isSome ↔ ∀ j, i ≤ j → j < stop → ok j := by
  fun_induction forLtM stop body i s with
  | case1 i s hi ih =>
      have hsplit : (∀ j, i ≤ j → j < stop → ok j)
          ↔ ok i ∧ ∀ j, i + 1 ≤ j → j < stop → ok j := by
        constructor
        · intro h
          exact ⟨h i (Nat.le_refl i) hi, fun j hj => h j (by omega)⟩
        · rintro ⟨hok, h⟩ j hj
          rcases Nat.eq_or_lt_of_le hj with rfl | hlt
          · exact fun _ => hok
          · exact h j hlt
      rw [hsplit, isSome_bind_iff ih, hbody i s hi]
  | case2 i s hi =>
      exact ⟨fun _ j hj hstop => absurd hstop (by omega), fun _ => rfl⟩

/-- The same loop with exits is a fold that can fail. -/
theorem forLtM_foldlM (step : σ → Byte → Option σ) (src : Ptr) (len : ℕ) (s : σ) :
    forLtM len (fun i s => step s (src i)) 0 s = (slice src len).foldlM step s := by
  -- Induction on the number of iterations left, for any counter.
  suffices h : ∀ k i s, len - i = k →
      forLtM len (fun i s => step s (src i)) i s = (suffix src len i).foldlM step s by
    rw [h len 0 s rfl, suffix_zero]
  intro k
  induction k with
  | zero =>
      intro i s hk
      rw [forLtM, if_neg (by omega), suffix_of_le src (by omega)]
      rfl
  | succ k ih =>
      intro i s hk
      rw [forLtM, if_pos (by omega), suffix_of_lt src (by omega), List.foldlM_cons]
      show (step s (src i)).bind _ = (step s (src i)).bind _
      congr 1
      funext t
      exact ih (i + 1) t (by omega)

/-- A loop over the first `k` elements of an array that holds them runs to its end when none
of them takes an exit. -/
theorem isSome_forLtM_take_iff {α : Type} {f : α → σ → Option σ} {ok : α → Prop} {l : List α}
    {k : ℕ} (hk : k ≤ l.length) (hf : ∀ a ∈ l.take k, ∀ s, (f a s).isSome ↔ ok a) (s : σ) :
    (forLtM k (fun i s => l[i]?.bind fun a => f a s) 0 s).isSome ↔ ∀ a ∈ l.take k, ok a := by
  -- The element at an index below `k`, as one of the first `k`.
  have hget : ∀ i (hi : i < k), ∃ a ∈ l.take k, l[i]? = some a := by
    intro i hi
    have hlt : i < l.length := by omega
    exact ⟨l[i], List.mem_take_iff_getElem.mpr ⟨i, by omega, rfl⟩, List.getElem?_eq_getElem hlt⟩
  have hbody : ∀ i s, i < k →
      ((l[i]?.bind fun a => f a s).isSome ↔ ∀ a, l[i]? = some a → ok a) := by
    intro i s hi
    obtain ⟨a, ha, heq⟩ := hget i hi
    rw [heq, Option.bind_some, hf a ha s]
    exact ⟨fun h b hb => Option.some.inj hb ▸ h, fun h => h a rfl⟩
  rw [isSome_forLtM_iff hbody 0 s]
  constructor
  · intro h a ha
    obtain ⟨i, hi, rfl⟩ := List.mem_take_iff_getElem.mp ha
    have hlt : i < l.length := by omega
    exact h i (Nat.zero_le i) (by omega) _ (List.getElem?_eq_getElem hlt)
  · intro h i _ hi a heq
    obtain ⟨b, hb, hb'⟩ := hget i hi
    exact Option.some.inj (hb'.symm.trans heq) ▸ h b hb

end Loops
